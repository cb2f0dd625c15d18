import Hannibal.Lib.Table
import Hannibal.LoopTask

/-!
# Hannibal.StopNotice — who learns that the actor has stopped, and when

Every `Addr`, `WeakAddr` and `Context` holds a `Core` (`context/core.rs`): the shared running flag
and its own clone of `Shared<oneshot::Receiver<()>>`. Awaiting an `Addr` polls that clone; once it
is ready the clone gives up its inner future, and its later clones have none either. The stop
oneshot and the flag are those of the loop future (`Hannibal.LoopTask`), which is driven with
arbitrary inputs here: whatever the mailbox or the stream delivers, whatever the hooks do, and
wherever the future is dropped.

* **`Watched`** — a loop future with all clones of its `Core`.
* **`StopNotice`** — what holds at any moment.
* **`stop_notice`** — it does, for both loops and every run, and the flag never rises again.
-/

namespace Hannibal

open Lts

variable {σ ρ : Type}

/-! ## The clones of the core

Each handle holds a clone of the `Core`, whose `Shared` future resolves once `StopNotifier` sends or
is dropped. A handle cloned after an await inherits whether that future is already used up. -/

/-- How an await of a handle ended, or a `halt` on it. -/
inductive Outcome where
  | awaited (r : Except ActorError Unit)
  | stopFailed (e : ActorError)

/-- A handle with its clone of the `Core`. `shared`: its `Shared` future still has its inner future.
`early`: it was cloned before any await had completed. -/
structure Watcher where
  shared : Bool
  early : Bool
  outcome : Option Outcome

/-- The loop future, the handles, and how many awaits have completed. -/
structure Watched (σ ρ : Type) where
  task : LoopTask σ ρ
  watchers : List Watcher
  awaits : ℕ

/-- What can happen: the loop future takes a step, a handle is cloned (also by downgrading and
upgrading), the `Context` makes one, a handle is awaited, and `halt` or `try_halt` calls `stop` on
one before it awaits it. -/
inductive WatchLabel (σ ρ : Type) where
  | task (l : TaskLabel σ ρ)
  | clone (i : ℕ)
  | fromContext
  | poll (i : ℕ)
  | halt (i : ℕ) (stop : Except ActorError Unit)

/-- Polling the oneshot receiver: ready once the other half is used or dropped. -/
def LoopTask.pollOneshot (t : LoopTask σ ρ) : Option (Except ActorError Unit) :=
  if 0 < t.completions then some (.ok ())
  else if t.notify then none
  else some (.error .canceled)

namespace Watched

/-- The actor as `create` returns it, with one `Addr`. -/
def init (actor : σ) : Watched σ ρ := ⟨.init actor, [⟨true, true, none⟩], 0⟩

/-- A new handle, whose `Shared` future is a clone of one that is in state `shared`. -/
def addWatcher (s : Watched σ ρ) (shared : Bool) : Watched σ ρ :=
  { s with watchers := s.watchers ++ [⟨shared, s.awaits == 0, none⟩] }

/-- The handle `i` is done, and with it its `Shared` future if that was awaited. -/
def finish (s : Watched σ ρ) (i : ℕ) (o : Outcome) : Watched σ ρ :=
  match o with
  | .awaited _ => { s with
      watchers := s.watchers.modify i fun x => { x with shared := false, outcome := some o }
      awaits := s.awaits + 1 }
  | .stopFailed _ =>
    { s with watchers := s.watchers.modify i fun x => { x with outcome := some o } }

/-- One step. A handle whose `Shared` future has none left cannot be awaited: that panics. -/
def step (E : EventLoop σ) (s : Watched σ ρ) : WatchLabel σ ρ → Option (Watched σ ρ)
  | .task l => (s.task.step E l).map fun t => { s with task := t }
  | .clone i =>
    match s.watchers[i]? with
    | some x => some (s.addWatcher x.shared)
    | none => none
  | .fromContext => if s.task.ctx then some (s.addWatcher true) else none
  | .poll i =>
    match s.watchers[i]? with
    | some ⟨true, _, none⟩ =>
      match s.task.pollOneshot with
      | some r => some (s.finish i (.awaited r))
      | none => none
    | _ => none
  | .halt i stop =>
    match s.watchers[i]?, stop with
    | some ⟨_, _, none⟩, .error e => some (s.finish i (.stopFailed e))
    | some ⟨_, _, none⟩, .ok () => some s
    | _, _ => none

/-- The loop future and its watchers as a machine. -/
def machine (ρ : Type) (E : EventLoop σ) (actor : σ) :
    Machine (Watched σ ρ) (WatchLabel σ ρ) :=
  ⟨init actor, step E⟩

/-! ## The invariant

The flag only goes down, and a loop whose flag is down is at the notifier or has ended. So an await
that is over has seen a flag that stays down, and a handle that is fresh can still be awaited. -/

/-- The calls a loop that has lowered its flag has behind it: after `Ok` the last call is a
completed `stopped`, after an error it is the failed `started` or the completed `cancelled`. -/
def LastCall (s : LoopState σ ρ) : Prop :=
  match s.pc with
  | .notifying | .returned (.ok _) => s.trace.getLast? = some (.leave (.hook .stopped) .ok)
  | .returned (.error _) => s.trace.getLast? = some (.leave (.hook .started) .err)
      ∨ s.trace.getLast? = some (.leave (.hook .cancelled) .ok)
  | _ => True

/-- What holds of the watchers. -/
structure Inv (s : Watched σ ρ) : Prop where
  task : s.task.Inv
  lastCall : LastCall s.task.loop
  /-- an await resolves only when the oneshot has been completed -/
  awaited : ∀ x ∈ s.watchers, ∀ r, x.outcome = some (.awaited r) →
    r = .ok () ∧ s.task.running = false
  counted : 0 < s.awaits → s.task.running = false
  /-- before the first await completes every clone is fresh -/
  fresh : s.awaits = 0 → ∀ x ∈ s.watchers, x.shared = true
  /-- an early clone stays fresh until it is awaited itself -/
  early : ∀ x ∈ s.watchers, x.early = true → x.shared = true ∨ x.outcome ≠ none

theorem inv_init (actor : σ) : Inv (init actor : Watched σ ρ) where
  task := LoopTask.inv_init actor
  lastCall := trivial
  awaited x hx r hr := by
    rw [List.mem_singleton.mp hx] at hr
    cases hr
  counted h := by simp [init] at h
  fresh _ x hx := by rw [List.mem_singleton.mp hx]
  early x hx _ := by
    rw [List.mem_singleton.mp hx]
    exact .inl rfl

variable {E : EventLoop σ} {s s' : Watched σ ρ} {l : WatchLabel σ ρ}

/-- A loop step leaves the right call behind. -/
theorem lastCall_of_step {t t' : LoopState σ ρ} {i : Option (Input σ ρ)} (hlast : LastCall t)
    (h : EventLoop.Step E t i t') : LastCall t' := by
  cases h with
  | startedErr hpc a e hend => exact .inl (by simp)
  | cancelled hpc a hend => exact .inr (by simp)
  | stopped hpc a hend => exact List.getLast?_concat ..
  | notified hpc =>
    rw [LastCall, hpc] at hlast
    exact hlast
  | keepRestart hpc hstream hstrategy k =>
    rw [LastCall, LoopState.take_pc, hpc]
    trivial
  | _ => trivial

/-- A loop whose flag is down makes no call any more. -/
theorem flag_of_task {t t' : LoopTask σ ρ} {tl : TaskLabel σ ρ} (hinv : t.Inv)
    (h : LoopTask.Step E t tl t') (hrun : t.running = false) :
    t'.running = false ∧ t'.loop.trace = t.loop.trace := by
  have hlow := hinv.lowered hrun
  cases h with
  -- with the flag down the loop is at the notifier, and its step only leaves it
  | advance s' hs hnotify =>
    refine ⟨hrun, ?_⟩
    have hend := EventLoop.not_ended_of_step hs
    have hat : t.loop.pc.atNotify = true := hlow.resolve_right (by simp [hend])
    rw [LoopTask.goto_of_atNotify hs hat]
    rfl
  | receive i s' hs =>
    refine ⟨hrun, ?_⟩
    have hend := EventLoop.not_ended_of_step hs
    have hat : t.loop.pc.atNotify = true := hlow.resolve_right (by simp [hend])
    rw [LoopTask.goto_of_atNotify hs hat]
    rfl
  | lower hstop hrun' hpc => exact ⟨rfl, rfl⟩
  | fire hstop hrun' hpc => exact ⟨hrun, rfl⟩
  | drop hend hnotify => exact ⟨hrun, rfl⟩
  | dropRx hend hrx => exact ⟨hrun, rfl⟩
  | dropCtx hend hctx => exact ⟨hrun, rfl⟩

/-- A ready oneshot has been completed, and then the flag is down. -/
theorem pollOneshot_ready {t : LoopTask σ ρ} (hinv : t.Inv) {r : Except ActorError Unit}
    (h : t.pollOneshot = some r) : r = .ok () ∧ t.running = false := by
  cases hstop : t.stop with
  | true =>
    obtain ⟨hnotify, hzero⟩ := hinv.armed hstop
    simp [LoopTask.pollOneshot, hnotify, hzero] at h
  | false =>
    obtain ⟨hrun, hone⟩ := hinv.fired hstop
    simp only [LoopTask.pollOneshot, hone, Nat.lt_one_iff, if_pos, Option.some.injEq] at h
    exact ⟨h.symm, hrun⟩

/-- The loop future takes a step: the watchers are as they were, and a flag that is down stays
down. -/
theorem inv_task (hinv : Inv s) {t : LoopTask σ ρ} {tl : TaskLabel σ ρ}
    (h : LoopTask.Step E s.task tl t) : Inv { s with task := t } where
  task := LoopTask.inv_step hinv.task h
  lastCall := by
    cases h with
    | advance s' hs hnotify => exact lastCall_of_step hinv.lastCall hs
    | receive i s' hs => exact lastCall_of_step hinv.lastCall hs
    | drop hend hnotify => trivial
    | _ => exact hinv.lastCall
  awaited x hx r hr := by
    obtain ⟨hok, hrun⟩ := hinv.awaited x hx r hr
    exact ⟨hok, (flag_of_task hinv.task h hrun).1⟩
  counted hpos := (flag_of_task hinv.task h (hinv.counted hpos)).1
  fresh := hinv.fresh
  early := hinv.early

/-- A new handle is as fresh as the one it is cloned from. -/
theorem inv_addWatcher (hinv : Inv s) {shared : Bool} (h : s.awaits = 0 → shared = true) :
    Inv (s.addWatcher shared) where
  task := hinv.task
  lastCall := hinv.lastCall
  awaited x hx r hr := by
    rcases List.mem_append.mp hx with hx | hx
    · exact hinv.awaited x hx r hr
    · rw [List.mem_singleton.mp hx] at hr
      cases hr
  counted := hinv.counted
  fresh hzero x hx := by
    rcases List.mem_append.mp hx with hx | hx
    · exact hinv.fresh hzero x hx
    · rw [List.mem_singleton.mp hx]
      exact h hzero
  -- no await has completed before an early clone, so it is shared
  early x hx hearly := by
    rcases List.mem_append.mp hx with hx | hx
    · exact hinv.early x hx hearly
    · rw [List.mem_singleton.mp hx] at hearly ⊢
      exact .inl (h (by simpa using hearly))

/-- An await completes. -/
theorem inv_awaited (hinv : Inv s) {i : ℕ} (hrun : s.task.running = false) :
    Inv (s.finish i (.awaited (.ok ()))) where
  task := hinv.task
  lastCall := hinv.lastCall
  awaited x hx r hr := by
    rcases Table.of_mem_modify hx with hx | ⟨y, hy, rfl⟩
    · exact hinv.awaited x hx r hr
    · cases hr
      exact ⟨rfl, hrun⟩
  counted _ := hrun
  fresh hzero := by simp [finish] at hzero
  -- the handle that was awaited has its outcome
  early x hx hearly := by
    rcases Table.of_mem_modify hx with hx | ⟨y, hy, rfl⟩
    · exact hinv.early x hx hearly
    · exact .inr (by simp)

/-- A `halt` fails. -/
theorem inv_stopFailed (hinv : Inv s) {i : ℕ} {e : ActorError} :
    Inv (s.finish i (.stopFailed e)) where
  task := hinv.task
  lastCall := hinv.lastCall
  awaited x hx r hr := by
    rcases Table.of_mem_modify hx with hx | ⟨y, hy, rfl⟩
    · exact hinv.awaited x hx r hr
    · cases hr
  counted := hinv.counted
  fresh hzero x hx := by
    rcases Table.of_mem_modify hx with hx | ⟨y, hy, rfl⟩
    · exact hinv.fresh hzero x hx
    · exact hinv.fresh hzero y hy
  early x hx hearly := by
    rcases Table.of_mem_modify hx with hx | ⟨y, hy, rfl⟩
    · exact hinv.early x hx hearly
    · exact .inr (by simp)

/-- **The step lemma**, with what it says about the flag and the trace. -/
theorem inv_step (hinv : Inv s) (h : step E s l = some s') :
    Inv s' ∧ (s.task.running = false →
      s'.task.running = false ∧ s'.task.loop.trace = s.task.loop.trace) := by
  cases l with
  | task tl =>
    obtain ⟨t, ht, rfl⟩ := Option.map_eq_some_iff.mp h
    have hstep := LoopTask.step_cases ht
    exact ⟨inv_task hinv hstep, flag_of_task hinv.task hstep⟩
  | clone i =>
    simp only [step] at h
    split at h
    · next x hx =>
      cases h
      exact ⟨inv_addWatcher hinv fun hzero => hinv.fresh hzero x (List.mem_of_getElem? hx),
        fun hrun => ⟨hrun, rfl⟩⟩
    · cases h
  | fromContext =>
    simp only [step] at h
    split at h
    · cases h
      exact ⟨inv_addWatcher hinv fun _ => rfl, fun hrun => ⟨hrun, rfl⟩⟩
    · cases h
  -- an await that resolves has seen the flag down
  | poll i =>
    simp only [step] at h
    split at h
    · split at h
      · next r hr =>
        cases h
        obtain ⟨rfl, hrun⟩ := pollOneshot_ready hinv.task hr
        exact ⟨inv_awaited hinv hrun, fun hrun => ⟨hrun, rfl⟩⟩
      · cases h
    · cases h
  | halt i stop =>
    simp only [step] at h
    split at h
    · cases h
      exact ⟨inv_stopFailed hinv, fun hrun => ⟨hrun, rfl⟩⟩
    · cases h
      exact ⟨hinv, fun hrun => ⟨hrun, rfl⟩⟩
    · cases h

/-- **In every run the loop future goes through a run of its own.** -/
theorem task_run {a : σ} {ls : List (WatchLabel σ ρ)} (h : (machine ρ E a).Run ls s) :
    ∃ ks, (LoopTask.machine ρ E a).Run ks s.task := by
  refine h.projects (π := task) rfl fun u l u' hstep => ?_
  have hstep : u.step E l = some u' := hstep
  cases l with
  | task tl =>
    obtain ⟨t, ht, rfl⟩ := Option.map_eq_some_iff.mp hstep
    exact .inr ⟨tl, ht⟩
  | clone i | fromContext =>
    simp only [step] at hstep
    split at hstep <;> cases hstep
    exact .inl rfl
  | poll i =>
    simp only [step] at hstep
    split at hstep
    · split at hstep <;> cases hstep
      exact .inl rfl
    · cases hstep
  | halt i stop =>
    simp only [step] at hstep
    split at hstep <;> cases hstep <;> exact .inl rfl

theorem inv_of_run {a : σ} {ls : List (WatchLabel σ ρ)} (h : (machine ρ E a).Run ls s) : Inv s := by
  refine h.invariant (I := Inv) (inv_init a) fun s l s' hinv hstep => ?_
  exact (inv_step (E := E) hinv hstep).1

/-! ## The notification

The oneshot is used at most once, and it is used or dropped when the loop future is gone; every
handle whose future is left therefore resolves, with `Ok`. -/

/-- What holds at any moment of a run. -/
structure StopNotice (E : EventLoop σ) (s : Watched σ ρ) : Prop where
  /-- complete: once the future is gone the flag is down and the oneshot completed, once -/
  gone : s.task.Gone → s.task.running = false ∧ s.task.completions = 1
  once : s.task.completions ≤ 1
  /-- and every handle cloned before any await completed, and not awaited itself, resolves -/
  resolves : s.task.Gone → ∀ i x, s.watchers[i]? = some x → x.early = true → x.outcome = none →
    step E s (.poll i) = some (s.finish i (.awaited (.ok ())))
  /-- not premature: an await resolves, and a `halt` returns `Ok`, only when the flag is down -/
  awaited : ∀ x ∈ s.watchers, ∀ r, x.outcome = some (.awaited r) → s.task.running = false
  /-- the flag drops only when the loop makes no call any more -/
  silent : s.task.running = false → s.task.loop.pc.inCall = false
  /-- on the normal path after `stopped` has completed, on the timeout path after `cancelled` has -/
  lastCall : s.task.running = false → LastCall s.task.loop

theorem Inv.stopNotice (hinv : Inv s) : StopNotice E s where
  gone hgone := hinv.task.of_gone hgone
  once := by
    cases hstop : s.task.stop with
    | true => rw [(hinv.task.armed hstop).2]; omega
    | false => rw [(hinv.task.fired hstop).2]
  -- the notifier has fired, and an early handle still has its future
  resolves hgone i x hx hearly hnone := by
    have hone := (hinv.task.of_gone hgone).2
    have hshared : x.shared = true :=
      (hinv.early x (List.mem_of_getElem? hx) hearly).resolve_right (by simp [hnone])
    obtain ⟨shared, early, outcome⟩ := x
    simp only at hshared hnone
    subst hshared hnone
    simp [step, hx, LoopTask.pollOneshot, hone]
  awaited x hx r hr := (hinv.awaited x hx r hr).2
  silent hrun := by
    rcases hinv.task.lowered hrun with hat | hend
    · cases hpc : s.task.loop.pc <;> simp_all [Pc.atNotify, Pc.inCall]
    · cases hpc : s.task.loop.pc <;> simp_all [Pc.ended, Pc.inCall]
  lastCall _ := hinv.lastCall

/-- **The stop notification is complete, final and not premature**, for both loops and every way the
loop future can end. From the moment the flag is down it stays down, and no hook or handler is
called. -/
theorem stop_notice (E : EventLoop σ) (a : σ) (ls : List (WatchLabel σ ρ)) (s : Watched σ ρ)
    (h : (machine ρ E a).Run ls s) :
    StopNotice E s ∧ ∀ pre u, pre <+: ls → (machine ρ E a).Run pre u → u.task.running = false →
      s.task.running = false ∧ s.task.loop.trace = u.task.loop.trace := by
  refine ⟨(inv_of_run h).stopNotice, fun pre u hle hu hrun => ?_⟩
  let r : Watched σ ρ → Watched σ ρ → Prop := fun x y => Inv x → Inv y ∧ (x.task.running = false →
    y.task.running = false ∧ y.task.loop.trace = x.task.loop.trace)
  -- what one step keeps, any run keeps
  have hrel : r u s := by
    refine Machine.Run.related (fun x hx => ⟨hx, fun hrun => ⟨hrun, rfl⟩⟩)
      (fun x y z hxy hyz hx => ?_)
      (fun x l y hstep hx => inv_step hx hstep) hle hu h
    obtain ⟨hy, hxy⟩ := hxy hx
    obtain ⟨hz, hyz⟩ := hyz hy
    refine ⟨hz, fun hrun => ?_⟩
    obtain ⟨hrun', htrace⟩ := hxy hrun
    obtain ⟨hrun'', htrace'⟩ := hyz hrun'
    exact ⟨hrun'', htrace'.trans htrace⟩
  exact (hrel (inv_of_run hu)).2 hrun

/-- A restart whose `started` fails ends a loop that two handles watch. -/
def failedRestart : EventLoop ℕ :=
  .fromChannel { Actor.provided 0 with
    started := fun clock n => .returned (n, if clock = 0 then .ok () else .error (.boxed 1)) }

def failedRestartRun : List (WatchLabel ℕ ℕ) :=
  [.clone 0, .task .advance, .task .advance, .task (.receive (.payload ⟨0, .restart⟩)),
    .task .advance, .task .advance, .task .dropRx, .task .lower, .task .fire,
    .task .dropCtx, .poll 1]

theorem stop_notice_failedRestart :
    ((machine ℕ failedRestart 7).after failedRestartRun rfl).task.Gone
      ∧ StopNotice failedRestart ((machine ℕ failedRestart 7).after failedRestartRun rfl) :=
  ⟨by decide, (stop_notice failedRestart 7 failedRestartRun _
    (Machine.run_after failedRestartRun rfl)).1⟩

end Watched

end Hannibal
