import Hannibal.Kinship

/-!
# Hannibal.Cascade — when the root of a tree of actors ends

An actor that only the `Context` of another one keeps alive ends with it: when the `Context` is
dropped, the `Sender`s in its table of children are, the mailbox of the child closes, its loop
drains it and ends, and drops its own `Context`.

* **`Quiescent`** — no loop can take a further step.
* **`waits_of_quiescent`** — a loop that cannot has ended, or it waits at an open mailbox.
* **`AbortedIn`** — the `Context` of an actor was dropped in the run, and its tasks were aborted
  with it.
* **`cascades`** — the theorem, by induction down the tree.
-/

namespace Hannibal

open Lts Chan
open AsyncChannel (state)

variable {σ ρ : Type}

/-! ## Where a loop stands still

Which places a loop can be at depends on the loop that was set up: `create` has no `finished`, and
`create_on_stream` no restart. `fits` is kept by every step, so a loop that is somewhere else than
its receive point and its ends has a next step. -/

/-- The loop that is set up comes to `pc`. -/
def Pc.fits (onStream : Bool) : Pc σ ρ → Bool
  | .finishing => onStream
  | .refreshStopping | .refreshStarting => !onStream
  | _ => true

theorem fits_of_step {E : EventLoop σ} {s s' : LoopState σ ρ} {i : Option (Input σ ρ)}
    (h : EventLoop.Step E s i s') (hfits : s.pc.fits E.onStream = true) :
    s'.pc.fits E.onStream = true := by
  cases h with
  | takeRestart hpc hstream hstrategy k => simp [Pc.fits, hstream]
  | takeStreamEnd hpc hstream hopen => simp [Pc.fits, hstream]
  | refreshed hpc a b hend hactor =>
    rw [hpc] at hfits
    exact hfits
  | keepRestart hpc => simp [hpc, Pc.fits]
  | _ => rfl

theorem fits_of_task {E : EventLoop σ} {t t' : LoopTask σ ρ} {l : TaskLabel σ ρ}
    (h : LoopTask.Step E t l t') (hfits : t.loop.pc.fits E.onStream = true) :
    t'.loop.pc.fits E.onStream = true := by
  cases h with
  | advance s' hs => exact fits_of_step hs hfits
  | receive i s' hs => exact fits_of_step hs hfits
  | drop => rfl
  | _ => exact hfits

/-- The call the loop is in, if it is in one, comes to its end: a hook returns or panics, and a
handler does so before its deadline or is cut off there. -/
def EventLoop.Terminates (E : EventLoop σ) (s : LoopState σ ρ) : Prop :=
  match s.pc with
  | .starting | .refreshStarting => (E.actor.started s.clock s.actor).ends = true
  | .running _ f => timeoutFut E.config.timeout (f s.actor) ≠ none
  | .refreshStopping =>
    match E.actor.stopped s.clock s.actor with
    | .returned _ => E.strategy = .recreateFromDefault → (E.actor.default (s.clock + 1)).ends = true
    | fut => fut.ends = true
  | .stopping => (E.actor.stopped s.clock s.actor).ends = true
  | .cancelling => (E.actor.cancelled s.clock s.actor).ends = true
  | .finishing => (E.actor.finished s.clock s.actor).ends = true
  | _ => True

theorem EventLoop.terminates_of_ended {E : EventLoop σ} {s : LoopState σ ρ}
    (h : s.pc.ended = true) : E.Terminates s := by
  unfold EventLoop.Terminates
  cases hpc : s.pc <;> simp_all [Pc.ended]

/-! ### A call that ends is left

`EventLoop.Terminates` asks of the call the loop is in, and of nothing else, that its future ends.
What that future returns is given back by the corresponding piece of the loop. -/

theorem exists_afterStarted {E : EventLoop σ} {s : LoopState σ ρ}
    (hends : (E.actor.started s.clock s.actor).ends = true) : ∃ s', E.afterStarted s = some s' := by
  rw [EventLoop.afterStarted]
  cases hfut : E.actor.started s.clock s.actor with
  | returned p => rcases p with ⟨a, _ | _⟩ <;> exact ⟨_, rfl⟩
  | panicked => exact ⟨_, rfl⟩
  | pends => rw [hfut] at hends; cases hends

theorem exists_afterHook {s : LoopState σ ρ} {h : Hook} {fut : HookEnd σ} {pc : Pc σ ρ}
    (hends : fut.ends = true) : ∃ s', EventLoop.afterHook s h fut pc = some s' := by
  cases fut with
  | returned a => exact ⟨_, rfl⟩
  | panicked => exact ⟨_, rfl⟩
  | pends => cases hends

/-- A handler that overruns has a timeout to stop it. -/
theorem exists_afterTask {E : EventLoop σ} {s : LoopState σ ρ} {c : Call} {f : TaskFn σ ρ}
    (hends : timeoutFut E.config.timeout (f s.actor) ≠ none) :
    ∃ s', E.afterTask s c f = some s' := by
  rw [EventLoop.afterTask]
  cases hfut : timeoutFut E.config.timeout (f s.actor) with
  | none => exact absurd hfut hends
  | some fut =>
    cases fut with
    | completed a r => exact ⟨_, rfl⟩
    | panicked => exact ⟨_, rfl⟩
    | overruns a => cases hfail : E.config.failOnTimeout <;> exact ⟨_, rfl⟩

theorem exists_refreshStopped {E : EventLoop σ} {s : LoopState σ ρ} (hpc : s.pc = .refreshStopping)
    (hterm : E.Terminates s) : ∃ s', E.refreshStopped s = some s' := by
  simp only [EventLoop.Terminates, hpc] at hterm
  rw [EventLoop.refreshStopped]
  cases hstopped : E.actor.stopped s.clock s.actor with
  | panicked => exact ⟨_, rfl⟩
  | pends => rw [hstopped] at hterm; cases hterm
  | returned a =>
    simp only [hstopped] at hterm
    cases hstrategy : E.strategy with
    | nonRestartable | restartOnly => exact ⟨_, rfl⟩
    | recreateFromDefault =>
      -- the new actor is taken after the call of `stopped` was left
      have hends := hterm hstrategy
      simp only [LoopState.leave_clock]
      cases hdefault : E.actor.default (s.clock + 1) with
      | returned d => exact ⟨_, rfl⟩
      | panicked => exact ⟨_, rfl⟩
      | pends => rw [hdefault] at hends; cases hends

/-- A loop that does not wait for its sources, and has not ended, goes on. -/
theorem EventLoop.exists_poll {E : EventLoop σ} {s : LoopState σ ρ}
    (hfits : s.pc.fits E.onStream = true)
    (hterm : E.Terminates s) (hend : s.pc.ended = false) (hpc : s.pc ≠ .receiving) :
    ∃ s', E.step s none = some s' := by
  have hcall := hterm
  unfold EventLoop.Terminates at hcall
  cases hstream : E.onStream with
  | false =>
    rw [EventLoop.step, hstream, if_neg Bool.false_ne_true, EventLoop.create]
    rw [hstream] at hfits
    -- each place but the ends has a piece of the loop that leaves it
    cases hs : s.pc with
    | starting | refreshStarting =>
      rw [hs] at hcall
      exact exists_afterStarted hcall
    | running c f =>
      rw [hs] at hcall
      exact exists_afterTask hcall
    | refreshStopping => exact exists_refreshStopped hs hterm
    | cancelling | stopping =>
      rw [hs] at hcall
      exact exists_afterHook hcall
    -- `create` has no `finished`
    | finishing => rw [hs] at hfits; cases hfits
    | receiving => exact absurd hs hpc
    | returned r => rw [hs] at hend; cases hend
    | panicked => rw [hs] at hend; cases hend
    | dropped => rw [hs] at hend; cases hend
    | _ => exact ⟨_, rfl⟩
  | true =>
    rw [EventLoop.step, hstream, if_pos rfl, EventLoop.createOnStream]
    rw [hstream] at hfits
    cases hs : s.pc with
    | starting =>
      rw [hs] at hcall
      exact exists_afterStarted hcall
    | running c f =>
      rw [hs] at hcall
      exact exists_afterTask hcall
    | cancelling | stopping | finishing =>
      rw [hs] at hcall
      exact exists_afterHook hcall
    -- `create_on_stream` does not restart
    | refreshStopping => rw [hs] at hfits; cases hfits
    | refreshStarting => rw [hs] at hfits; cases hfits
    | receiving => exact absurd hs hpc
    | returned r => rw [hs] at hend; cases hend
    | panicked => rw [hs] at hend; cases hend
    | dropped => rw [hs] at hend; cases hend
    | _ => exact ⟨_, rfl⟩

namespace Family

variable {Q : Type → Type} {κ : Type} [AsyncChannel Q] [DecidableEq κ] {E : ℕ → EventLoop σ}
  {w w' : Family Q κ σ ρ} {c p : ℕ} {l : FamilyLabel κ σ ρ} {m m' : Member Q κ σ ρ}

theorem fits_of_run {ls : List (FamilyLabel κ σ ρ)} (h : (machine Q κ ρ E).Run ls w)
    (hm : w.members[c]? = some m) : m.task.loop.pc.fits (E c).onStream = true := by
  obtain ⟨a, ks, hrun⟩ := task_run h hm
  exact hrun.invariant (I := fun t => t.loop.pc.fits (E c).onStream = true) rfl
    fun _ _ _ hfits hstep => fits_of_task (LoopTask.step_cases hstep) hfits

/-! ## Where all loops stand still

In a quiescent family no loop can take a step. By the previous sections each of them has ended and
given up its context, or waits at a mailbox that is open. -/

/-- What the loop of `c` can do by itself, and with its mailbox. -/
def loopSteps (c : ℕ) : List (FamilyLabel κ σ ρ) :=
  [.turn c .advance, .receive c, .turn c .lower, .turn c .fire, .dropRx c, .dropCtx c]

/-- No loop can take a further step. -/
def Quiescent (E : ℕ → EventLoop σ) (w : Family Q κ σ ρ) : Prop :=
  ∀ c, ∀ l ∈ loopSteps c, w.step E l = none

theorem Quiescent.act (h : Quiescent E w) (hl : l ∈ loopSteps c) : w.act E l = none :=
  Option.map_eq_none_iff.mp (h c l hl)

/-- It is enough to look at the actors that exist. -/
theorem Quiescent.of_check (h : ((List.range w.members.length).all fun c =>
    (loopSteps c).all fun l => (w.step E l).isNone) = true) : Quiescent E w := by
  intro c l hl
  by_cases hlt : c < w.members.length
  · have hall := List.all_eq_true.mp h c (List.mem_range.mpr hlt)
    exact Option.isNone_iff_eq_none.mp (List.all_eq_true.mp hall l hl)
  · have hnone : w.members[c]? = none := List.getElem?_eq_none (Nat.le_of_not_lt hlt)
    simp only [loopSteps, List.mem_cons, List.not_mem_nil, or_false] at hl
    rcases hl with rfl | rfl | rfl | rfl | rfl | rfl <;>
      simp [Family.step, Family.act, onTask, receive, hnone, TaskLabel.own]

/-- The loop of `c` has no such step. -/
theorem Quiescent.task (h : Quiescent E w) (hm : w.members[c]? = some m) {k : TaskLabel σ ρ}
    (hown : k.own = true) (hl : .turn c k ∈ loopSteps (κ := κ) (σ := σ) (ρ := ρ) c) :
    m.task.step (E c) k = none := by
  have hnone := h.act hl
  rw [Family.act, if_pos hown, onTask, hm] at hnone
  exact Option.map_eq_none_iff.mp hnone

/-- **A loop that can do nothing has ended, or waits at an open mailbox.** -/
theorem waits_of_quiescent (hq : Quiescent E w) (hm : w.members[c]? = some m)
    (hfits : m.task.loop.pc.fits (E c).onStream = true) (hterm : (E c).Terminates m.task.loop)
    (hend : m.task.loop.pc.ended = false) : (state m.mailbox).closed = false := by
  by_cases hpc : m.task.loop.pc = .receiving
  · rw [← Bool.not_eq_true]
    intro hclosed
    have hnone : w.receive E c = none := hq.act (c := c) (l := .receive c) (by simp [loopSteps])
    -- a closed mailbox has something for the loop: a payload, or its end
    cases hqueue : (state m.mailbox).queued with
    | cons e rest =>
      obtain ⟨q, hrecv⟩ := AsyncChannel.exists_tryRecv hqueue
      obtain ⟨s', hs'⟩ := (E c).exists_step_payload hpc e.envelope
      simp [receive, hm, hrecv, LoopTask.step, hs'] at hnone
    | nil =>
      have hrecv := AsyncChannel.tryRecv_of_drained hqueue hclosed
      have hs' := (E c).step_closed hpc
      simp [receive, hm, hrecv, onTask, LoopTask.step, hs'] at hnone
  · -- a loop that does not wait goes on, or lowers its flag, or completes the oneshot
    exfalso
    obtain ⟨s', hs'⟩ := EventLoop.exists_poll hfits hterm hend hpc
    have hadvance := hq.task hm (k := .advance) rfl (by simp [loopSteps])
    have hlower := hq.task hm (k := .lower) rfl (by simp [loopSteps])
    have hfire := hq.task hm (k := .fire) rfl (by simp [loopSteps])
    cases hat : m.task.loop.pc.atNotify && m.task.stop with
    | false => simp [LoopTask.step, hat, hs'] at hadvance
    | true =>
      rw [Bool.and_eq_true] at hat
      cases hrun : m.task.running with
      | true => simp [LoopTask.step, hat, hrun] at hlower
      | false => simp [LoopTask.step, hat, hrun] at hfire

/-- What has ended, and can do nothing, has dropped its `Context`. -/
theorem released_of_quiescent (hq : Quiescent E w) (hm : w.members[c]? = some m)
    (hend : m.task.loop.pc.ended = true) : m.task.ctx = false := by
  rw [← Bool.not_eq_true]
  intro hctx
  have hnone : (w.onTask E c .dropCtx).map _ = none :=
    hq.act (c := c) (l := .dropCtx c) (by simp [loopSteps])
  simp [onTask, hm, LoopTask.step, hend, hctx] at hnone

/-! ## Down the tree

An open mailbox has a sender, a sender of an owned actor is in its parent's table, and the table of
a parent that has ended is empty. The induction is on the path from the root. -/

/-- `c` is the root, or a child of a descendant of it. -/
inductive Descendant (parent : ℕ → ℕ) (root : ℕ) : ℕ → Prop where
  | root : Descendant parent root root
  | child (c : ℕ) (hne : c ≠ root) (hparent : Descendant parent root (parent c)) :
      Descendant parent root c

/-- The only strong handles to an actor below the root are the `Sender`s in the `Context` of its
parent: nobody has one at hand, no message that is queued anywhere owns one, and no other table
holds one. -/
def Owned (w : Family Q κ σ ρ) (parent : ℕ → ℕ) (root : ℕ) : Prop :=
  ∀ c, Descendant parent root c → c ≠ root →
    w.outside c = false ∧ ∀ p, w.holds p c = true → p = parent c

/-- **The step down the tree**: an actor ends when its parent has ended. -/
theorem ended_of_parent (hinv : Inv w) (hq : Quiescent E w) (hm : w.members[c]? = some m)
    (hfits : m.task.loop.pc.fits (E c).onStream = true) (hterm : (E c).Terminates m.task.loop)
    (houtside : w.outside c = false) (hholds : ∀ q, w.holds q c = true → q = p)
    (hparent : ∀ n, w.members[p]? = some n → n.task.loop.pc.ended = true) :
    m.task.loop.pc.ended = true := by
  rw [← Bool.not_eq_false]
  intro hend
  have hopen := waits_of_quiescent hq hm hfits hterm hend
  -- an open mailbox has a sender, and the parent has it
  have hsender : w.hasSender c = true := by
    rw [← Bool.not_eq_false]
    intro hnone
    cases hopen.symm.trans (hinv.unsent c m hm hnone)
  -- from outside, or from the table of an actor that holds it, which is the parent
  rcases hasSender_iff.mp hsender with hhas | ⟨q, hq'⟩
  · cases houtside.symm.trans hhas
  · obtain ⟨n, hn, k, b, hb, -⟩ := holds_iff.mp hq'
    rw [hholds q hq'] at hn
    rw [hinv.released p n hn (released_of_quiescent hq hn (hparent n hn)) k] at hb
    cases hb

/-- **Every actor of the tree ends.** -/
theorem ended_of_descendant (hinv : Inv w) (hq : Quiescent E w) {parent : ℕ → ℕ} {root : ℕ}
    (howned : Owned w parent root)
    (hfits : ∀ (c : ℕ) (m : Member Q κ σ ρ), w.members[c]? = some m →
      m.task.loop.pc.fits (E c).onStream = true)
    (hterm : ∀ (c : ℕ) (m : Member Q κ σ ρ), w.members[c]? = some m → (E c).Terminates m.task.loop)
    (hroot : ∀ m, w.members[root]? = some m → m.task.loop.pc.ended = true)
    (hc : Descendant parent root c) (hm : w.members[c]? = some m) :
    m.task.loop.pc.ended = true := by
  induction hc generalizing m with
  | root => exact hroot m hm
  | child c hne hparent ih =>
    obtain ⟨houtside, hholds⟩ := howned c (.child c hne hparent) hne
    exact ended_of_parent hinv hq hm (hfits c m hm) (hterm c m hm) houtside hholds fun n hn => ih hn

/-! ## The background tasks

That a context was dropped is remembered by the run: the step that did it aborted the tasks of its
map, and no later step brings one back. -/

/-- In the run over `ls`, the `Context` of `c` was dropped, and what was tracked in it then has been
aborted in `w`, unless it had ended before. -/
def AbortedIn (E : ℕ → EventLoop σ) (ls : List (FamilyLabel κ σ ρ)) (c : ℕ) (w : Family Q κ σ ρ) :
    Prop :=
  ∃ s s', (machine Q κ ρ E).Takes ls s (.dropCtx c) s' ∧
    ∀ k i, (s.contexts.tasks c).lookup k = some i → ∃ b, s.contexts.spawned[i]? = some b
      ∧ w.contexts.spawned[i]? = some (b.conclude .aborted)

theorem ended_of_act (hinv : Inv w) (h : Act E w l w') {i : ℕ} {b : SpawnedTask}
    (hb : w.contexts.spawned[i]? = some b) (hended : b.task.running = false) :
    w'.contexts.spawned[i]? = some b := by
  cases hl : contextLabel l with
  | none =>
    rw [contexts_of_other h hl]
    exact hb
  | some k =>
    exact ContextWorld.ended_of_act (ContextWorld.act_cases (contexts_step hinv h hl)) hb hended

theorem aborted_of_run {ls : List (FamilyLabel κ σ ρ)} (h : (machine Q κ ρ E).Run ls w)
    (hm : w.members[c]? = some m) (hctx : m.task.ctx = false) : AbortedIn E ls c w := by
  -- over the run: the last step has dropped the context, or it was dropped before
  induction h generalizing m with
  | start => cases hm
  | @snoc ls s l s' run hstep ih =>
    have hinv := inv_of_run run
    obtain ⟨u, hact, rfl⟩ := Option.map_eq_some_iff.mp hstep
    have hact := act_cases hact
    obtain ⟨m', q, a, hm', rfl, -⟩ := of_settle hm
    rcases moves_of_act hact hm' with ⟨n, hn, -⟩ | ⟨-, capacity, a, rfl⟩
    · cases hbefore : n.task.ctx with
      | false =>
        -- it was dropped before, and what has been aborted stays so
        obtain ⟨v, v', ⟨pre, hpre, htakes⟩, haborted⟩ := ih hn hbefore
        refine ⟨v, v', ⟨pre, hpre.trans (List.prefix_append ..), htakes⟩, fun k i hi => ?_⟩
        obtain ⟨b, hb, hb'⟩ := haborted k i hi
        rw [settle_contexts]
        have hended : (b.conclude .aborted).task.running = false :=
          BackgroundTask.conclude_running b.task (by decide)
        exact ⟨b, hb, ended_of_act hinv hact hb' hended⟩
      | true =>
        -- this step has dropped it, and the abort is that of `ContextWorld`
        have hl := drops_of_act hact hn hm' hbefore hctx
        subst hl
        refine ⟨s, settle u, ⟨ls, List.prefix_rfl, run, hstep⟩, fun k i hi => ?_⟩
        have hb := List.getElem?_eq_getElem (hinv.bounded c k i hi)
        refine ⟨_, hb, ?_⟩
        cases hact with
        | dropCtx _ n t hn ht =>
          rw [settle_contexts]
          show (s.contexts.dropContext c).spawned[i]? = _
          rw [ContextWorld.spawned_dropContext, hb, Option.map_some,
            if_pos (TaskMap.mem_map_snd.mpr ⟨k, hi⟩)]
    · cases hctx

/-! ## The theorem -/

/-- A mailbox stays open while a `Context` holds a `Sender` of its actor and that actor is at
work. -/
theorem Inv.open_of_held (hinv : Inv w) (hheld : w.holds p c = true) (hm : w.members[c]? = some m)
    (hend : m.task.loop.pc.ended = false) (hrun : m.task.running = true) :
    (state m.mailbox).closed = false := by
  rw [← Bool.not_eq_true]
  intro hclosed
  rcases hinv.closed c m hm hclosed with hnone | hrx | hdown
  · cases hnone.symm.trans (hasSender_iff.mpr (.inr ⟨p, hheld⟩))
  · cases hrx.symm.trans ((hinv.task c m hm).owned hend).1
  · cases hdown.symm.trans hrun

/-- **Shutdown cascades through a tree of actors.** Where its root has ended, however that was, and
no loop can take a further step, every actor of the tree has ended, and the tasks of its `Context`
have been aborted; and no mailbox closes before. -/
theorem cascades (ls : List (FamilyLabel κ σ ρ)) (w : Family Q κ σ ρ)
    (hrun : (machine Q κ ρ E).Run ls w) :
    (∀ (parent : ℕ → ℕ) (root : ℕ) (r : Member Q κ σ ρ), Owned w parent root →
        w.members[root]? = some r → r.task.loop.pc.ended = true → Quiescent E w →
        (∀ (c : ℕ) (m : Member Q κ σ ρ), w.members[c]? = some m → (E c).Terminates m.task.loop) →
        ∀ (c : ℕ) (m : Member Q κ σ ρ), Descendant parent root c → w.members[c]? = some m →
          m.task.loop.pc.ended = true ∧ AbortedIn E ls c w)
      ∧ ∀ (p c : ℕ) (m : Member Q κ σ ρ), w.holds p c = true → w.members[c]? = some m →
          m.task.loop.pc.ended = false → m.task.running = true →
            (state m.mailbox).closed = false := by
  have hinv := inv_of_run hrun
  refine ⟨fun parent root r howned hr hend hq hterm c m hc hm => ?_,
    fun p c m hheld hm => hinv.open_of_held hheld hm⟩
  have hended := ended_of_descendant hinv hq howned (fun c m hm => fits_of_run hrun hm) hterm
    (fun r' hr' => by cases hr.symm.trans hr'; exact hend) hc hm
  exact ⟨hended, aborted_of_run hrun hm (released_of_quiescent hq hm hended)⟩

/-- Actor `c` stops, and its parts are dropped. -/
def ending (c : ℕ) : List (FamilyLabel ℕ Unit Unit) :=
  [.receive c, .turn c .advance, .turn c .lower, .turn c .fire, .turn c .advance, .dropRx c,
    .dropCtx c]

/-- Actor `2`, with a background task, is the child of `1`, which is that of `0`; then `0` is told
to stop. -/
def threeGenerations : List (FamilyLabel ℕ Unit Unit) :=
  [.spawn none (), .spawn none (), .spawn none (),
    .turn 2 .advance, .spawnTask 2, .turn 2 .advance,
    .turn 1 .advance, .addChild 1 2, .drop 2, .turn 1 .advance,
    .turn 0 .advance, .registerChild 0 (.named 7) 1, .drop 1, .turn 0 .advance,
    .arrive 0 .forceSend ⟨⟨0, .stop⟩, [], []⟩] ++ ending 0 ++ ending 1 ++ ending 2

set_option maxRecDepth 4000 in
theorem cascades_threeGenerations :
    ∃ w, (machine ChannelState ℕ Unit quietLoops).Run threeGenerations w
      ∧ Owned w (· - 1) 0 ∧ Quiescent quietLoops w
      ∧ (∃ m, w.members[2]? = some m ∧ m.task.loop.pc.ended = true)
      ∧ AbortedIn quietLoops threeGenerations 2 w
      ∧ w.contexts.spawned.map (fun b => b.task.status) = [.aborted] := by
  have hrun := (machine ChannelState ℕ Unit quietLoops).run_after threeGenerations rfl
  have howned : Owned ((machine ChannelState ℕ Unit quietLoops).after threeGenerations rfl)
      (· - 1) 0 := by
    rintro (_ | _ | _ | c) - hne
    · exact absurd rfl hne
    all_goals
      refine ⟨rfl, fun p hp => ?_⟩
      rcases p with _ | _ | _ | p <;> cases hp
  have hquiet : Quiescent quietLoops
      ((machine ChannelState ℕ Unit quietLoops).after threeGenerations rfl) := .of_check rfl
  -- all three loops have ended, so there is no call left to terminate
  have hterm : ∀ c m, ((machine ChannelState ℕ Unit quietLoops).after threeGenerations
      rfl).members[c]? = some m → (quietLoops c).Terminates m.task.loop := by
    rintro (_ | _ | _ | c) m hm <;> cases hm <;> exact EventLoop.terminates_of_ended rfl
  obtain ⟨htree, -⟩ := cascades threeGenerations _ hrun
  have hdown : Descendant (· - 1) 0 2 := .child 2 (by decide) (.child 1 (by decide) .root)
  obtain ⟨hended, haborted⟩ := htree (· - 1) 0 _ howned rfl rfl hquiet hterm 2 _ hdown rfl
  exact ⟨_, hrun, howned, hquiet, ⟨_, rfl, hended⟩, haborted, rfl⟩

end Family

end Hannibal
