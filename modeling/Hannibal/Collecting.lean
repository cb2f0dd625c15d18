import Hannibal.Cascade
import Hannibal.Forwarding

/-!
# Hannibal.Collecting — who can see `gc`

`gc` takes away entries for children that have stopped and join handles of tasks that have ended.
With an entry goes a `Sender`, and with the last handle of a child the queue of its channel. What is
left in that queue will never be run, but it may own handles of other actors, and these are dropped
with it: so `gc` can close the mailbox of an actor that is running. Where the queues own nothing,
nobody can see it. Two families are `Alike` then: they differ only in entries for the stopped
children, and in the mailboxes and queues of these. What one of two such families can do, the other
can do too, and they stay alike.

* **`harmless`**, **`smuggles`** — what is left in the queues, and what gets into them later.
* **`ContextWorld.Alike`**, **`Family.Alike`** — the two relations.
* **`Alike.act`**, **`Alike.settle`** — the step lemma; `alike_execFrom` is the one for runs.
* **`alike_gc`** — a family and what a harmless `gc` makes of it are alike.
* **`sends_and_collects`** — the theorem; `gc_releases_running` is a `gc` that is not harmless.
-/

namespace Hannibal

open Lts Chan
open AsyncChannel (state)

/-! ## The background tasks

`gc` only takes away join handles of tasks that have ended, and a later abort does nothing to these.
So two worlds stay alike if their maps agree on the tasks that still run. -/

namespace ContextWorld

/-- The same tasks, and the same running ones in each map. -/
structure Alike (w v : ContextWorld) : Prop where
  counter : v.counter = w.counter
  spawned : v.spawned = w.spawned
  dropped : v.dropped = w.dropped
  tasks : ∀ c k i, w.running i = true →
    ((v.tasks c).lookup k = some i ↔ (w.tasks c).lookup k = some i)

variable {w v w' v' : ContextWorld} {c : ContextID} {k : UInt64} {i : ℕ} {l : ContextLabel}

theorem Alike.running (h : Alike w v) : v.running i = w.running i := by
  rw [ContextWorld.running, ContextWorld.running, h.spawned]

theorem Alike.refl : Alike w w := ⟨rfl, rfl, rfl, fun _ _ _ _ => Iff.rfl⟩

theorem Alike.symm (h : Alike w v) : Alike v w :=
  ⟨h.counter.symm, h.spawned.symm, h.dropped.symm,
    fun c k i hrun => (h.tasks c k i (h.running ▸ hrun)).symm⟩

theorem Alike.trans {x : ContextWorld} (h : Alike w v) (h' : Alike v x) : Alike w x where
  counter := h'.counter.trans h.counter
  spawned := h'.spawned.trans h.spawned
  dropped := h'.dropped.trans h.dropped
  tasks c k i hrun := (h'.tasks c k i (h.running.trans hrun)).trans (h.tasks c k i hrun)

theorem alike_gc : Alike w (w.gc c) := by
  refine ⟨rfl, rfl, rfl, fun c' k i hrun => ?_⟩
  show ((Function.update w.tasks c ((w.tasks c).retain w.running)) c').lookup k = some i ↔ _
  by_cases hc : c' = c
  · subst hc
    rw [Function.update_self, TaskMap.lookup_retain]
    exact and_iff_left hrun
  · rw [tasks_update hc]

/-- A task that is running after a step was running before, or it is new. -/
theorem running_of_act (hact : Act w l w') (hlt : i < w.spawned.length)
    (hrun : w'.running i = true) : w.running i = true := by
  obtain ⟨b, hb, hrun⟩ := (Option.any_eq_true ..).mp hrun
  rcases spawned_of_act hact hb with hold | ⟨b', -, status, hne, rfl⟩ | ⟨c, -, rfl, -⟩
  · exact (Option.any_eq_true ..).mpr ⟨b, hold, hrun⟩
  · cases hrun.symm.trans (BackgroundTask.conclude_running b'.task hne)
  · exact absurd hlt (lt_irrefl _)

/-- What ends nothing but what has ended changes nothing. -/
theorem map_abort_congr {p p' : Prop} [Decidable p] [Decidable p']
    (hp : w.running i = true → (p ↔ p')) :
    (w.spawned[i]?).map (fun b => if p then b.conclude .aborted else b)
      = (w.spawned[i]?).map (fun b => if p' then b.conclude .aborted else b) := by
  cases hi : w.spawned[i]? with
  | none => rfl
  | some b =>
    rw [Option.map_some, Option.map_some]
    cases hrun : b.task.running with
    | true => simp only [hp (by rw [running, hi]; exact hrun)]
    | false => rw [conclude_of_ended hrun, ite_self, ite_self]

theorem spawned_stopTask {h : UInt64} : (w.stopTask c h).spawned[i]?
    = (w.spawned[i]?).map fun b =>
        if (w.tasks c).lookup h = some i then b.conclude .aborted else b := by
  cases hj : (w.tasks c).lookup h with
  | none => simp [stopTask, hj]
  | some j =>
    simp only [stopTask, hj]
    rw [spawned_conclude]
    show (w.spawned[i]?).map _ = _
    simp only [Option.some.injEq, eq_comm]

theorem lookup_stopTask {h : UInt64} {c' : ContextID} : ((w.stopTask c h).tasks c').lookup k
    = if c' = c ∧ k = h then none else (w.tasks c').lookup k := by
  cases hj : (w.tasks c).lookup h with
  | none =>
    simp only [stopTask, hj]
    split
    · next hck =>
      obtain ⟨rfl, rfl⟩ := hck
      exact hj
    · rfl
  | some j =>
    simp only [stopTask, hj]
    show ((Function.update w.tasks c ((w.tasks c).erase h)) c').lookup k = _
    -- only the map of the context that stops its task is changed
    by_cases hc : c' = c
    · subst hc
      rw [Function.update_self]
      by_cases hk : k = h
      · subst hk
        rw [AList.lookup_erase, if_pos ⟨rfl, rfl⟩]
      · rw [AList.lookup_erase_ne hk, if_neg fun hck => hk hck.2]
    · rw [tasks_update hc, if_neg fun hck => hc hck.1]

theorem counter_stopTask {h : UInt64} : (w.stopTask c h).counter = w.counter := by
  rw [stopTask]
  cases (w.tasks c).lookup h <;> rfl

/-- What one map is changed to does not show in the others. -/
theorem alike_update {m n : TaskMap} {c' : ContextID}
    (h : ∀ k, n.lookup k = some i ↔ m.lookup k = some i)
    (hold : ∀ k, (v.tasks c').lookup k = some i ↔ (w.tasks c').lookup k = some i) :
    ((Function.update v.tasks c n) c').lookup k = some i
      ↔ ((Function.update w.tasks c m) c').lookup k = some i := by
  by_cases hc : c' = c
  · subst hc
    rw [Function.update_self, Function.update_self]
    exact h k
  · rw [Function.update_of_ne hc, Function.update_of_ne hc]
    exact hold k

/-- **The step lemma for the background tasks.** -/
theorem Alike.step (h : Alike w v) (hbw : Bounded w) (hbv : Bounded v) (hw : w.step l = some w')
    (hv : v.step l = some v') : Alike w' v' := by
  -- the maps agree on what is running now, and was spawned before
  have hkeep : ∀ c k i, w'.running i = true →
      ((v.tasks c).lookup k = some i ↔ (w.tasks c).lookup k = some i) := by
    intro c k i hrun
    by_cases hlt : i < w.spawned.length
    · exact h.tasks c k i (running_of_act (act_cases hw) hlt hrun)
    · exact iff_of_false (fun hi => hlt (h.spawned ▸ hbv c k i hi)) fun hi => hlt (hbw c k i hi)
  cases l with
  | finish j =>
    cases hw
    cases hv
    refine ⟨h.counter, List.ext_getElem? fun i => ?_, h.dropped, hkeep⟩
    rw [spawned_conclude, spawned_conclude, h.spawned]
  | gc c =>
    obtain ⟨-, ⟨⟩⟩ := Option.ite_none_left_eq_some.mp hw
    obtain ⟨-, ⟨⟩⟩ := Option.ite_none_left_eq_some.mp hv
    -- either world and what its `gc` makes of it are alike
    exact (alike_gc.symm.trans h).trans alike_gc
  | spawnTask c =>
    obtain ⟨-, ⟨⟩⟩ := Option.ite_none_left_eq_some.mp hw
    obtain ⟨-, ⟨⟩⟩ := Option.ite_none_left_eq_some.mp hv
    refine ⟨congrArg (· + 1) h.counter, ?_, h.dropped, fun c' k i hrun => ?_⟩
    · show v.spawned ++ [⟨v.counter, _⟩] = w.spawned ++ [⟨w.counter, _⟩]
      rw [h.spawned, h.counter]
    · refine alike_update (fun k => ?_) fun k => hkeep c' k i hrun
      -- both worlds take the next handle of the same counter
      rw [h.counter, h.spawned]
      by_cases hk : k = w.counter
      · subst hk
        rw [AList.lookup_insert, AList.lookup_insert]
      · rw [AList.lookup_insert_ne hk, AList.lookup_insert_ne hk]
        exact hkeep c k i hrun
  | stopTask c j =>
    obtain ⟨-, ⟨⟩⟩ := Option.ite_none_left_eq_some.mp hw
    obtain ⟨-, ⟨⟩⟩ := Option.ite_none_left_eq_some.mp hv
    refine ⟨?_, List.ext_getElem? fun i => ?_, ?_, fun c' k i hrun => ?_⟩
    · rw [counter_stopTask, counter_stopTask, h.counter]
    · rw [spawned_stopTask, spawned_stopTask, h.spawned]
      -- an abort does nothing to what has ended, so only the running tasks must be tracked alike
      exact map_abort_congr fun hrun => h.tasks c j i hrun
    · rw [dropped_stopTask, dropped_stopTask, h.dropped]
    · rw [lookup_stopTask, lookup_stopTask]
      split
      · rfl
      · exact hkeep c' k i hrun
  | dropContext c =>
    obtain ⟨-, ⟨⟩⟩ := Option.ite_none_left_eq_some.mp hw
    obtain ⟨-, ⟨⟩⟩ := Option.ite_none_left_eq_some.mp hv
    refine ⟨?_, List.ext_getElem? fun i => ?_, ?_, fun c' k i hrun => ?_⟩
    · exact (abortAll_frame.1.trans h.counter).trans abortAll_frame.1.symm
    · rw [spawned_dropContext, spawned_dropContext, h.spawned]
      refine map_abort_congr fun hrun => ?_
      rw [TaskMap.mem_map_snd, TaskMap.mem_map_snd]
      exact exists_congr fun k => h.tasks c k i hrun
    · exact congrArg (Function.update · c true) h.dropped
    · exact alike_update (fun k => by simp) fun k => hkeep c' k i hrun

end ContextWorld

/-! ## The family

What two alike families may differ in is fixed by a set `G` of stopped children whose queues own
nothing. `Noticed` says whose mailboxes somebody can still see: those of the others, and of the
members of `G` that have a handle outside. -/

namespace Family

variable {Q : Type → Type} {κ σ ρ : Type} [AsyncChannel Q] [DecidableEq κ] {E : ℕ → EventLoop σ}
  {w w' v v' : Family Q κ σ ρ} {c p i : ℕ} {l : FamilyLabel κ σ ρ} {m n : Member Q κ σ ρ}
  {k : MessageType κ} {b : Child κ} {msg : Message κ σ ρ} {e : Parcel σ ρ} {G : ℕ → Bool}
  {N N' : ℕ → Prop} {P P' R : Prop}

/-- The actors whose entries `gc` takes away from the table of `p`. -/
def collected (w : Family Q κ σ ρ) (p c : ℕ) : Bool := w.holds p c && w.stopped c

/-- No message that is left in the mailbox of `c` owns a handle. -/
def light (w : Family Q κ σ ρ) (c : ℕ) : Bool :=
  (w.members[c]?).all fun m => (state m.mailbox).queued.all Parcel.bare

/-- This is so of all mailboxes `gc` drops a `Sender` of. -/
def harmless (w : Family Q κ σ ρ) (p : ℕ) : Bool :=
  (List.range w.members.length).all fun c => !w.collected p c || w.light c

/-- A message that owns handles is enqueued to one of the actors `G`. Where these have stopped, the
operation has looked at the flag before that. -/
def smuggles (G : ℕ → Bool) : FamilyLabel κ σ ρ → Bool
  | .arrive c _ e => G c && !e.bare
  | _ => false

/-- The actors `G` have stopped, and what is left in their mailboxes owns nothing. -/
def Settled (G : ℕ → Bool) (w : Family Q κ σ ρ) : Prop :=
  ∀ c, G c = true → w.stopped c = true ∧ w.light c = true

/-- It can be noticed whether the mailbox of `c` is closed: `c` is none of `G`, or there is a handle
to it outside the tables. -/
def Noticed (G : ℕ → Bool) (w : Family Q κ σ ρ) (c : ℕ) : Prop := G c = false ∨ w.outside c = true

/-- The same actor, apart from its table of children: with the same mailbox if `P`, and if `R` with
its queue freed in both families or in none. -/
structure Same (P R : Prop) (m n : Member Q κ σ ρ) : Prop where
  task : n.task = m.task
  others : n.others = m.others
  weaks : n.weaks = m.weaks
  queued : (state n.mailbox).queued = (state m.mailbox).queued
  mailbox : P → n.mailbox = m.mailbox
  allocated : R → n.allocated = m.allocated

/-- The same actors; `N` says of whom the mailboxes are the same. -/
def Matched (N : ℕ → Prop) (G : ℕ → Bool) (w v : Family Q κ σ ρ) : Prop :=
  ∀ c : ℕ, Option.Rel (Same (N c) (G c = false)) w.members[c]? v.members[c]?

/-- The entries for others than `G`. -/
def without (G : ℕ → Bool) (bs : List (Child κ)) : List (Child κ) := bs.filter fun b => !G b.actor

/-- Two families that differ only in what the tables hold of `G`, and in what hangs on that. -/
structure Alike (G : ℕ → Bool) (w v : Family Q κ σ ρ) : Prop where
  members : Matched (Noticed G w) G w v
  children : ∀ p k, without G (v.registered p k) = without G (w.registered p k)
  contexts : w.contexts.Alike v.contexts
  calls : v.calls = w.calls
  sent : v.sent = w.sent
  left : Settled G w
  right : Settled G v

omit [DecidableEq κ] in
theorem light_iff : w.light c = true
    ↔ ∀ m, w.members[c]? = some m → ∀ e ∈ (state m.mailbox).queued, e.bare = true := by
  rw [light]
  cases w.members[c]? <;> simp

omit [AsyncChannel Q] [DecidableEq κ] in
theorem stopped_eq (hlt : c < w.members.length) : w.stopped c = !w.running c := by
  rw [stopped, running, List.getElem?_eq_getElem hlt]
  rfl

omit [AsyncChannel Q] [DecidableEq κ] in
theorem bare_iff : e.bare = true ↔ e.owns = [] ∧ e.weakly = [] := by
  rw [Parcel.bare, Bool.and_eq_true, List.isEmpty_iff, List.isEmpty_iff]

omit [DecidableEq κ] in
/-- Who is running is none of `G`. -/
theorem Settled.live (h : Settled G w) (hrun : w.running c = true) : G c = false := by
  rw [← Bool.not_eq_true]
  intro hG
  obtain ⟨m, hm, hup⟩ := running_iff.mp hrun
  obtain ⟨m₀, hm₀, hdown⟩ := stopped_iff.mp (h c hG).1
  cases hm.symm.trans hm₀
  cases hup.symm.trans hdown

/-! ### Actors that match

The parts of a member that have to be the same, one by one; the mailbox only where it is noticed.
Each observation of the family that a guard is written with is shown to be the same in both. -/

omit [DecidableEq κ]

theorem Same.refl : Same P R m m := ⟨rfl, rfl, rfl, rfl, fun _ => rfl, fun _ => rfl⟩

theorem Same.symm (h : Same P R m n) : Same P R n m where
  task := h.task.symm
  others := h.others.symm
  weaks := h.weaks.symm
  queued := h.queued.symm
  mailbox hP := (h.mailbox hP).symm
  allocated hR := (h.allocated hR).symm

theorem Same.mono (h : Same P R m n) (hP : P' → P) : Same P' R m n :=
  ⟨h.task, h.others, h.weaks, h.queued, fun hP' => h.mailbox (hP hP'), h.allocated⟩

/-- The loop of an actor goes on, in both families alike. -/
theorem Same.withTask {t : LoopTask σ ρ} (h : Same P R m n) :
    Same P R { m with task := t } { n with task := t } :=
  ⟨rfl, h.others, h.weaks, h.queued, h.mailbox, h.allocated⟩

/-- The mailboxes close in both families, or in none; where that cannot be noticed, it does not
matter. -/
theorem Same.react (h : Same P R m n) {sender sender' : Bool} (hsender : P → sender' = sender) :
    Same P R (m.react sender) (n.react sender') := by
  obtain ⟨q, hq, hqueue, -⟩ := react_cases m sender
  obtain ⟨q', hq', hqueue', -⟩ := react_cases n sender'
  have hmailbox : P → q' = q := by
    intro hP
    have hsame : (n.react sender').mailbox = (m.react sender).mailbox := by
      rw [Member.react, Member.react, hsender hP, h.mailbox hP]
      split
      · exact h.mailbox hP
      · rfl
    rwa [hq, hq'] at hsame
  rw [hq, hq']
  exact ⟨h.task, h.others, h.weaks, (hqueue'.trans h.queued).trans hqueue.symm, hmailbox,
    h.allocated⟩

/-- Nobody looks at the tables. -/
theorem Same.withChildren {t t' : Children κ} (h : Same P R m n) :
    Same P R { m with children := t } { n with children := t' } :=
  ⟨h.task, h.others, h.weaks, h.queued, h.mailbox, h.allocated⟩

theorem Matched.refl : Matched N G w w := by
  intro c
  cases w.members[c]? with
  | none => exact .none
  | some m => exact .some .refl

theorem Matched.symm (h : Matched N G w v) : Matched N G v w := by
  intro c
  have hc := h c
  generalize w.members[c]? = x at hc ⊢
  generalize v.members[c]? = y at hc ⊢
  cases hc with
  | none => exact .none
  | some hsame => exact .some hsame.symm

theorem Matched.mono (h : Matched N G w v) (hN : ∀ c, N' c → N c) : Matched N' G w v := by
  intro c
  have hc := h c
  generalize w.members[c]? = x at hc ⊢
  generalize v.members[c]? = y at hc ⊢
  cases hc with
  | none => exact .none
  | some hsame => exact .some (hsame.mono (hN c))

theorem Matched.find (h : Matched N G w v) (hm : w.members[c]? = some m) :
    ∃ n, v.members[c]? = some n ∧ Same (N c) (G c = false) m n := by
  have hc := h c
  rw [hm] at hc
  cases hn : v.members[c]? with
  | none => rw [hn] at hc; cases hc
  | some n =>
    rw [hn] at hc
    cases hc with
    | some hsame => exact ⟨n, rfl, hsame⟩

theorem Matched.length (h : Matched N G w v) : v.members.length = w.members.length := by
  have hle : ∀ {w v : Family Q κ σ ρ}, Matched N G w v → v.members.length ≤ w.members.length := by
    intro w v h
    have hc := h w.members.length
    rw [List.getElem?_eq_none le_rfl] at hc
    cases hn : v.members[w.members.length]? with
    | none => exact List.getElem?_eq_none_iff.mp hn
    | some n => rw [hn] at hc; cases hc
  exact (hle h).antisymm (hle h.symm)

/-- What looks at no mailbox and no table finds the same. -/
theorem Matched.any_eq (h : Matched N G w v) {f : Member Q κ σ ρ → Bool}
    (hf : ∀ m n, m.task = n.task → m.others = n.others → m.weaks = n.weaks → f n = f m) :
    (v.members[c]?).any f = (w.members[c]?).any f := by
  have hc := h c
  generalize w.members[c]? = x at hc ⊢
  generalize v.members[c]? = y at hc ⊢
  cases hc with
  | none => rfl
  | some hs => exact hf _ _ hs.task.symm hs.others.symm hs.weaks.symm

theorem Matched.running (h : Matched N G w v) : v.running c = w.running c :=
  h.any_eq fun m n htask _ _ => by rw [htask]

theorem Matched.stopped (h : Matched N G w v) : v.stopped c = w.stopped c :=
  h.any_eq fun m n htask _ _ => by rw [htask]

theorem Matched.handled (h : Matched N G w v) : v.handled c = w.handled c :=
  h.any_eq fun m n _ hothers _ => by rw [hothers]

theorem Matched.inCall (h : Matched N G w v) : v.inCall p = w.inCall p :=
  h.any_eq fun m n htask _ _ => by rw [htask]

theorem Matched.atHand (h : Matched N G w v) : v.atHand c = w.atHand c := by
  rw [Family.atHand, Family.atHand, h.handled, h.stopped]

theorem Matched.hasWeak (h : Matched N G w v) : ((v.members[c]?).any fun m => decide (0 < m.weaks))
    = (w.members[c]?).any fun m => decide (0 < m.weaks) :=
  h.any_eq fun m n _ _ hweaks => by rw [hweaks]

theorem Matched.weaklyAtHand (h : Matched N G w v) : v.weaklyAtHand c = w.weaklyAtHand c := by
  rw [Family.weaklyAtHand, Family.weaklyAtHand, h.atHand, h.inCall, h.hasWeak]

theorem Matched.provides (h : Matched N G w v) {owns weakly : List ℕ} :
    v.provides owns weakly = w.provides owns weakly := by
  have hhandled : v.handled = w.handled := funext fun _ => h.handled
  have hweakly : v.weaklyAtHand = w.weaklyAtHand := funext fun _ => h.weaklyAtHand
  rw [Family.provides, Family.provides, hhandled, hweakly]

theorem Matched.isAlive (h : Matched N G w v) : v.isAlive = w.isAlive := funext fun _ => h.running

/-- A queue of `G` owns nothing, so it does not matter whether it has been freed. -/
theorem Matched.carried_of (h : Matched N G w v) (hw : Settled G w) {f : Parcel σ ρ → List ℕ}
    (hf : ∀ e : Parcel σ ρ, e.bare = true → f e = []) (hc : w.carried f c = true) :
    v.carried f c = true := by
  obtain ⟨i, m, hm, halloc, e, he, hce⟩ := carried_iff.mp hc
  obtain ⟨n, hn, hs⟩ := h.find hm
  cases hG : G i with
  | true =>
    rw [hf e (light_iff.mp (hw i hG).2 m hm e he)] at hce
    cases hce
  | false =>
    exact carried_iff.mpr ⟨i, n, hn, (hs.allocated hG).trans halloc, e, hs.queued ▸ he, hce⟩

section Alike

variable [DecidableEq κ]

/-! ### Families that are alike

Whether an actor has a sender is where the tables come in: the entries that only one family has are
for actors of `G`, and of these nobody takes notice. -/

theorem Alike.carried (h : Alike G w v) {f : Parcel σ ρ → List ℕ}
    (hf : ∀ e : Parcel σ ρ, e.bare = true → f e = []) : v.carried f c = w.carried f c :=
  Bool.eq_iff_iff.mpr
    ⟨h.members.symm.carried_of h.right hf, h.members.carried_of h.left hf⟩

theorem Alike.outside (h : Alike G w v) : v.outside c = w.outside c := by
  rw [Family.outside, Family.outside, h.members.handled, h.carried fun e he => (bare_iff.mp he).1]

theorem Alike.noticed (h : Alike G w v) : Noticed G v c ↔ Noticed G w c := by
  rw [Noticed, Noticed, h.outside]

theorem Alike.symm (h : Alike G w v) : Alike G v w where
  members := h.members.symm.mono fun _ => h.noticed.mp
  children p k := (h.children p k).symm
  contexts := h.contexts.symm
  calls := h.calls.symm
  sent := h.sent.symm
  left := h.right
  right := h.left

/-- An actor that has a sender in one family, and can be noticed, has one in the other. -/
theorem Alike.hasSender_of (h : Alike G w v) (hc : Noticed G w c) (hs : w.hasSender c = true) :
    v.hasSender c = true := by
  rcases hc with hG | houtside
  · rw [hasSender_iff] at hs ⊢
    refine hs.imp (fun hout => h.outside.trans hout) fun ⟨p, hp⟩ => ⟨p, ?_⟩
    obtain ⟨m, hm, k, b, hb, rfl⟩ := holds_iff.mp hp
    have hin : b ∈ without G (w.registered p k) :=
      List.mem_filter.mpr ⟨mem_registered.mpr ⟨m, hm, hb⟩, by rw [hG]; rfl⟩
    rw [← h.children] at hin
    exact holds_of_registered (List.mem_of_mem_filter hin)
  · exact hasSender_iff.mpr (.inl (h.outside.trans houtside))

theorem Alike.hasSender (h : Alike G w v) (hc : Noticed G w c) : v.hasSender c = w.hasSender c :=
  Bool.eq_iff_iff.mpr ⟨h.symm.hasSender_of (h.noticed.mpr hc), h.hasSender_of hc⟩

/-- An upgrade looks at running actors only. -/
theorem Alike.upgradable (h : Alike G w v) : v.upgradable c = w.upgradable c := by
  rw [Family.upgradable, Family.upgradable, h.members.running]
  cases hrun : w.running c with
  | false => rfl
  | true =>
    have hc : Noticed G w c := .inl (h.left.live hrun)
    obtain ⟨m, hm, -⟩ := running_iff.mp hrun
    obtain ⟨n, hn, hsame⟩ := h.members.find hm
    rw [h.hasSender hc, hm, hn, Option.any_some, Option.any_some, hsame.mailbox hc]

theorem Alike.attached (h : Alike G w v) (hG : G c = false) (hs : Same P R m n) :
    v.attached c n = w.attached c m := by
  rw [Family.attached, Family.attached, hs.task, hs.weaks, h.hasSender (.inl hG),
    h.carried fun e he => (bare_iff.mp he).2]

omit [DecidableEq κ] in
/-- A running child is none of `G`. -/
theorem Settled.filter_isAlive (h : Settled G w) {bs : List (Child κ)} :
    (without G bs).filter w.isAlive = bs.filter w.isAlive :=
  filter_of_imp fun b _ halive => by rw [h.live halive]; rfl

theorem Alike.running_children (h : Alike G w v) :
    (v.registered p k).filter v.isAlive = (w.registered p k).filter w.isAlive := by
  rw [← h.right.filter_isAlive, ← h.left.filter_isAlive, h.children, h.members.isAlive]

end Alike

/-! ## One step of two families

By cases on the step. Its guard holds in the other family by the previous section, and what it does
to one member it does to the other. Only a forced message has to look at the mailbox of an actor it
finds through the table, and such a message is sent to those that run. -/

/-- One actor is changed, in both families alike. -/
theorem Matched.update {φ ψ : Member Q κ σ ρ → Member Q κ σ ρ} (h : Matched N G w v)
    (hm : w.members[i]? = some m) (hφ : ∀ n, Same (N i) (G i = false) m n →
      Same (N i) (G i = false) (φ m) (ψ n)) : Matched N G (w.update i φ) (v.update i ψ) := by
  intro c
  show Option.Rel _ (w.members.modify i φ)[c]? (v.members.modify i ψ)[c]?
  have hc := h c
  rw [List.getElem?_modify, List.getElem?_modify]
  by_cases hi : i = c
  · subst hi
    obtain ⟨n, hn, hs⟩ := h.find hm
    rw [hm, hn]
    simpa using hφ n hs
  · simpa [hi] using hc

/-- A message is unpacked in both families. -/
theorem Matched.unpack (h : Matched N G w v) : Matched N G (w.unpack e) (v.unpack e) := by
  intro c
  show Option.Rel _ (w.members.mapIdx _)[c]? (v.members.mapIdx _)[c]?
  rw [List.getElem?_mapIdx, List.getElem?_mapIdx]
  have hc := h c
  generalize w.members[c]? = x at hc ⊢
  generalize v.members[c]? = y at hc ⊢
  cases hc with
  | none => exact .none
  | some hs =>
    exact .some ⟨hs.task, congrArg (· + _) hs.others, congrArg (· + _) hs.weaks, hs.queued,
      hs.mailbox, hs.allocated⟩

theorem Undisturbed.isAlive_eq {D : Parcel σ ρ → Prop} (h : Undisturbed D w w') :
    w'.isAlive = w.isAlive :=
  funext fun _ => h.any_eq fun m m' hd => by rw [hd.task]

theorem forceSend_isAlive : (w.forceSend c e).isAlive = w.isAlive :=
  (undisturbed_forceSend (D := fun _ => True) w c e trivial).isAlive_eq

/-- A forced message is delivered in both families, or in neither. -/
theorem Matched.forceSend (h : Matched N G w v) (hsent : v.sent = w.sent)
    (hN : w.running c = true → N c) : Matched N G (w.forceSend c e) (v.forceSend c e)
      ∧ (v.forceSend c e).sent = (w.forceSend c e).sent := by
  cases hrun : w.running c with
  | false =>
    -- the flag is down in both families, and neither looks at the mailbox
    rw [forceSend_of_not_running hrun, forceSend_of_not_running (h.running.trans hrun)]
    exact ⟨h, hsent⟩
  | true =>
    obtain ⟨m, hm, hup⟩ := running_iff.mp hrun
    obtain ⟨n, hn, hsame⟩ := h.find hm
    have hmailbox := hsame.mailbox (hN hrun)
    have hup' : n.task.running = true := by rw [hsame.task, hup]
    cases hsend : AsyncChannel.forceSend m.mailbox e with
    | none =>
      have hw' : w.forceSend c e = w := by simp [Family.forceSend, hm, hup, hsend]
      have hv' : v.forceSend c e = v := by simp [Family.forceSend, hn, hup', hmailbox, hsend]
      rw [hw', hv']
      exact ⟨h, hsent⟩
    | some r =>
      simp only [Family.forceSend, hm, hn, hup, hup', hmailbox, hsend, if_true]
      refine ⟨?_, by rw [hsent]⟩
      exact h.update hm fun n' hs => ⟨hs.task, hs.others, hs.weaks, rfl, fun _ => rfl, hs.allocated⟩

/-- What is sent to the stopped is not sent. -/
theorem foldl_filter_isAlive {f : Family Q κ σ ρ → Child κ → Parcel σ ρ} (bs : List (Child κ))
    (w : Family Q κ σ ρ) : bs.foldl (fun w b => w.forceSend b.actor (f w b)) w
      = (bs.filter w.isAlive).foldl (fun w b => w.forceSend b.actor (f w b)) w := by
  induction bs generalizing w with
  | nil => rfl
  | cons b bs ih =>
    rw [List.foldl_cons, ih, forceSend_isAlive, List.filter_cons]
    cases halive : w.isAlive b with
    | true => rfl
    | false =>
      rw [forceSend_of_not_running halive]
      rfl

/-- Message after message. -/
theorem Matched.foldl (h : Matched N G w v) (hcalls : v.calls = w.calls) (hsent : v.sent = w.sent)
    (hN : ∀ c, w.running c = true → N c) (bs : List (Child κ)) :
    Matched N G (bs.foldl (fun w b => w.forceSend b.actor (msg.copy w.calls b.actor)) w)
        (bs.foldl (fun w b => w.forceSend b.actor (msg.copy w.calls b.actor)) v)
      ∧ (bs.foldl (fun w b => w.forceSend b.actor (msg.copy w.calls b.actor)) v).sent
        = (bs.foldl (fun w b => w.forceSend b.actor (msg.copy w.calls b.actor)) w).sent := by
  -- over the list of children; sending to one of them neither stops nor starts another
  induction bs generalizing w v with
  | nil => exact ⟨h, hsent⟩
  | cons b bs ih =>
    rw [List.foldl_cons, List.foldl_cons, hcalls]
    have hone := h.forceSend (e := msg.copy w.calls b.actor) hsent (hN b.actor)
    have hw :=
      undisturbed_forceSend (D := fun _ => True) w b.actor (msg.copy w.calls b.actor) trivial
    have hv :=
      undisturbed_forceSend (D := fun _ => True) v b.actor (msg.copy w.calls b.actor) trivial
    have halive := hw.isAlive_eq
    refine ih hone.1 (hv.calls.trans (hcalls.trans hw.calls.symm)) hone.2 fun c hrun => hN c ?_
    exact (congrFun halive ⟨.unit, c⟩).symm.trans hrun

section Step

variable [DecidableEq κ]

/-- The tables differ in stopped children only, to which nothing is delivered. -/
theorem Alike.sendToChildren (hw : Inv w) (hv : Inv v) (h : Alike G w v) :
    Matched (Noticed G w) G (w.sendToChildren p msg) (v.sendToChildren p msg)
      ∧ (v.sendToChildren p msg).sent = (w.sendToChildren p msg).sent := by
  show Matched _ G (w.forward p msg) (v.forward p msg)
    ∧ (v.forward p msg).sent = (w.forward p msg).sent
  rw [forward_eq, forward_eq, hw.filterMap_downcastRef, hv.filterMap_downcastRef,
    foldl_filter_isAlive, foldl_filter_isAlive (v.registered p msg.type), h.running_children]
  exact h.members.foldl h.calls h.sent (fun c hrun => .inl (h.left.live hrun)) _

/-- A loop that takes something has not lowered its flag. -/
theorem Inv.running_of_receive (hw : Inv w) (hm : w.members[c]? = some m) {F : EventLoop σ}
    {j : Input σ ρ} {t : LoopTask σ ρ} (ht : m.task.step F (.receive j) = some t) :
    w.running c = true := by
  refine running_iff.mpr ⟨m, hm, ?_⟩
  have hpc := receiving_of_receive ht
  rw [← Bool.not_eq_false]
  intro hdown
  rcases (hw.task c m hm).lowered hdown with hat | hended
  · rw [hpc] at hat
    cases hat
  · rw [hpc] at hended
    cases hended

omit [DecidableEq κ] in
/-- What a loop future does in one family it does in the other. -/
theorem Matched.onTask (h : Matched N G w v) {j : TaskLabel σ ρ} {t : LoopTask σ ρ}
    (hm : w.members[c]? = some m) (ht : m.task.step (E c) j = some t) :
    v.onTask E c j = some (v.update c fun n => { n with task := t }) := by
  obtain ⟨n, hn, hsame⟩ := h.find hm
  simp [Family.onTask, hn, hsame.task, ht]

/-- **What one family does, the other does.** -/
theorem Alike.members_act (hw : Inv w) (hv : Inv v) (h : Alike G w v) (hact : Act E w l w') :
    ∃ v', v.act E l = some v' ∧ Matched (Noticed G w) G w' v' ∧ v'.calls = w'.calls
      ∧ v'.sent = w'.sent := by
  have hmatch := h.members
  cases hact with
  -- the new actor is added at the end of both lists
  | spawn capacity a =>
    refine ⟨_, rfl, fun c => ?_, h.calls, h.sent⟩
    show Option.Rel _ (w.members ++ [_])[c]? (v.members ++ [_])[c]?
    rw [List.getElem?_append, List.getElem?_append, hmatch.length]
    split
    · exact hmatch c
    · cases c - w.members.length with
      | zero => exact .some .refl
      | succ i => exact .none
  | clone c m hm hpos =>
    have hguard : v.handled c = true := hmatch.handled.trans (handled_iff.mpr ⟨m, hm, hpos⟩)
    refine ⟨_, if_pos hguard, hmatch.update hm fun n hs => ?_, h.calls, h.sent⟩
    exact ⟨hs.task, congrArg (· + 1) hs.others, hs.weaks, hs.queued, hs.mailbox, hs.allocated⟩
  | upgrade c m hm hup hhand =>
    have hguard : (v.upgradable c && v.weaklyAtHand c) = true := by
      rw [h.upgradable, hmatch.weaklyAtHand, hup, hhand, Bool.and_true]
    refine ⟨_, if_pos hguard, hmatch.update hm fun n hs => ?_, h.calls, h.sent⟩
    exact ⟨hs.task, congrArg (· + 1) hs.others, hs.weaks, hs.queued, hs.mailbox, hs.allocated⟩
  | upgradeStopped c hdown =>
    have hidle : v.upgradable c = false := by
      obtain ⟨m, hm, hrun⟩ := stopped_iff.mp hdown
      rw [h.upgradable, Family.upgradable, Family.running, hm, Option.any_some, hrun]
      rfl
    refine ⟨v, ?_, hmatch, h.calls, h.sent⟩
    rw [act, hidle, hmatch.stopped, hdown]
    rfl
  | drop c m hm hpos =>
    have hguard : v.handled c = true := hmatch.handled.trans (handled_iff.mpr ⟨m, hm, hpos⟩)
    refine ⟨_, if_pos hguard, hmatch.update hm fun n hs => ?_, h.calls, h.sent⟩
    exact ⟨hs.task, congrArg (· - 1) hs.others, hs.weaks, hs.queued, hs.mailbox, hs.allocated⟩
  | arrive c p e m ev q hm hpos hprovides henq =>
    obtain ⟨n, hn, hs⟩ := hmatch.find hm
    -- who has a handle to it notices what has become of the mailbox
    have hmailbox := hs.mailbox (.inr (outside_iff.mpr (.inl (handled_iff.mpr ⟨m, hm, hpos⟩))))
    have hv' : v.arrive c p e = some (v.update c fun n => { n with mailbox := q }) := by
      simp [arrive, hn, hs.others, hpos, hmatch.provides, hprovides, hmailbox, henq]
    refine ⟨_, hv', hmatch.update hm fun n hs => ?_, h.calls, h.sent⟩
    exact ⟨hs.task, hs.others, hs.weaks, rfl, fun _ => rfl, hs.allocated⟩
  | downgrade c m hm hhand =>
    refine ⟨_, if_pos (hmatch.weaklyAtHand.trans hhand), hmatch.update hm fun n hs => ?_,
      h.calls, h.sent⟩
    exact ⟨hs.task, hs.others, congrArg (· + 1) hs.weaks, hs.queued, hs.mailbox, hs.allocated⟩
  | dropWeak c m hm hpos =>
    have hguard : ((v.members[c]?).any fun m => decide (0 < m.weaks)) = true := by
      rw [hmatch.hasWeak, hm, Option.any_some, decide_eq_true hpos]
    refine ⟨_, if_pos hguard, hmatch.update hm fun n hs => ?_, h.calls, h.sent⟩
    exact ⟨hs.task, hs.others, congrArg (· - 1) hs.weaks, hs.queued, hs.mailbox, hs.allocated⟩
  | turn c j m t hm ht hown =>
    exact ⟨_, (if_pos hown).trans (hmatch.onTask hm ht), hmatch.update hm fun n hs => hs.withTask,
      h.calls, h.sent⟩
  | receive c m t e q hm hrecv ht =>
    obtain ⟨n, hn, hs⟩ := hmatch.find hm
    -- a loop that receives is running, so it finds the same payload in the other family
    have hmailbox := hs.mailbox (.inl (h.left.live (hw.running_of_receive hm ht)))
    have hv' : v.receive E c
        = some ((v.update c fun n => { n with task := t, mailbox := q }).unpack e) := by
      simp [Family.receive, hn, hs.task, hmailbox, hrecv, ht]
    refine ⟨_, hv', Matched.unpack (hmatch.update hm fun n hs => ?_), h.calls, h.sent⟩
    exact ⟨rfl, hs.others, hs.weaks, rfl, fun _ => rfl, hs.allocated⟩
  | receiveClosed c m t hm hrecv ht =>
    obtain ⟨n, hn, hs⟩ := hmatch.find hm
    have hmailbox := hs.mailbox (.inl (h.left.live (hw.running_of_receive hm ht)))
    have hv' : v.receive E c = some (v.update c fun n => { n with task := t }) := by
      rw [← hmatch.onTask hm ht]
      simp [Family.receive, hn, hmailbox, hrecv]
    exact ⟨_, hv', hmatch.update hm fun n hs => hs.withTask, h.calls, h.sent⟩
  | dropRx c m t hm ht =>
    have hv' : v.act E (.dropRx c)
        = some (v.update c fun n =>
          { n with task := t, mailbox := AsyncChannel.close n.mailbox }) := by
      rw [act, hmatch.onTask hm ht, Option.map_some, update_update]
      rfl
    refine ⟨_, hv', hmatch.update hm fun n hs => ?_, h.calls, h.sent⟩
    exact ⟨rfl, hs.others, hs.weaks, by simp [hs.queued],
      fun hc => congrArg AsyncChannel.close (hs.mailbox hc), hs.allocated⟩
  | dropCtx c m t hm ht =>
    have hv' : v.act E (.dropCtx c)
        = some { v.update c (fun n => { n with task := t, children := ∅ }) with
            contexts := v.contexts.dropContext c } := by
      rw [act, hmatch.onTask hm ht, Option.map_some, update_update]
      rfl
    refine ⟨_, hv', hmatch.update hm fun n hs => ?_, h.calls, h.sent⟩
    exact ⟨rfl, hs.others, hs.weaks, hs.queued, hs.mailbox, hs.allocated⟩
  -- the tables may differ, but they are extended by the same entry
  | addChild p c m hm hcall hhand =>
    have hguard : (v.inCall p && v.atHand c) = true := by
      rw [hmatch.inCall, hmatch.atHand, inCall_iff.mpr ⟨m, hm, hcall⟩, hhand, Bool.and_true]
    exact ⟨_, if_pos hguard, hmatch.update hm fun n hs => hs.withChildren, h.calls, h.sent⟩
  | registerChild p k c m hm hcall hhand =>
    have hguard : (v.inCall p && v.atHand c) = true := by
      rw [hmatch.inCall, hmatch.atHand, inCall_iff.mpr ⟨m, hm, hcall⟩, hhand, Bool.and_true]
    exact ⟨_, if_pos hguard, hmatch.update hm fun n hs => hs.withChildren, h.calls, h.sent⟩
  -- here the tables are read; what they differ in are entries for stopped actors, which get nothing
  | sendToChildren p msg hcall hprovides =>
    have hguard : (v.inCall p && v.provides msg.owns msg.weakly) = true := by
      rw [hmatch.inCall, hmatch.provides, hcall, hprovides, Bool.and_true]
    obtain ⟨hmembers, hsent⟩ := Alike.sendToChildren hw hv h
    exact ⟨_, if_pos hguard, hmembers, congrArg (· + 1) h.calls, hsent⟩
  | gc p m hm hcall =>
    have hguard : v.inCall p = true := hmatch.inCall.trans (inCall_iff.mpr ⟨m, hm, hcall⟩)
    exact ⟨_, if_pos hguard, hmatch.update hm fun n hs => hs.withChildren, h.calls, h.sent⟩
  | spawnTask p hcall => exact ⟨_, if_pos (hmatch.inCall.trans hcall), hmatch, h.calls, h.sent⟩
  | stopTask p j hcall => exact ⟨_, if_pos (hmatch.inCall.trans hcall), hmatch, h.calls, h.sent⟩
  | finishTask i => exact ⟨_, rfl, hmatch, h.calls, h.sent⟩

/-- Nothing that owns a handle gets into the mailboxes of `G`, unless it is smuggled in. -/
theorem Settled.act (h : Settled G w) (hact : Act E w l w') (hl : smuggles G l = false) :
    Settled G w' := by
  intro c hG
  obtain ⟨hstopped, hlight⟩ := h c hG
  obtain ⟨m, hm, hdown⟩ := stopped_iff.mp hstopped
  have hlt := (List.getElem?_eq_some_iff.mp hm).1
  have hm' := List.getElem?_eq_getElem (hlt.trans_le (length_of_act hact))
  obtain ⟨m₀, hm₀, hmoves⟩ := moved_of_lt hact hlt hm'
  cases hm.symm.trans hm₀
  refine ⟨stopped_iff.mpr ⟨_, hm', ?_⟩, light_iff.mpr fun m' hmm' x hx => ?_⟩
  · rw [← Bool.not_eq_true]
    intro hup
    cases hdown.symm.trans (hmoves.mono.1 hup)
  · cases hm'.symm.trans hmm'
    -- what is in the queue was there before, was sent to a running actor, or was smuggled in
    rcases hmoves.queued x hx with hold | ⟨-, hup | ⟨op, rfl⟩⟩
    · exact light_iff.mp hlight m hm x hold
    · cases hdown.symm.trans hup
    · simpa [smuggles, hG] using hl

/-- What can be noticed after a step could be before. -/
theorem Settled.noticed_of_act (h : Settled G w) (hw : Inv w) (hact : Act E w l w')
    (hc : Noticed G w' c) : Noticed G w c := by
  refine hc.elim .inl fun houtside => ?_
  cases hG : G c with
  | false => exact .inl hG
  | true =>
    obtain ⟨m, hm, hdown⟩ := stopped_iff.mp (h c hG).1
    have hlt := (List.getElem?_eq_some_iff.mp hm).1
    refine .inr ((hw.outside_of_act hact hlt houtside).resolve_right fun hup => ?_)
    -- nobody upgrades a handle of an actor that has stopped
    rw [upgradable, running, hm, Option.any_some, hdown] at hup
    cases hup

/-- **The step lemma**: what one family does, the other does, and they stay alike. -/
theorem Alike.act (hw : Inv w) (hv : Inv v) (h : Alike G w v) (hl : smuggles G l = false)
    (hact : Act E w l w') : ∃ v', v.act E l = some v' ∧ Alike G w' v' := by
  obtain ⟨v', hv', hmembers, hcalls, hsent⟩ := h.members_act hw hv hact
  have hact' := act_cases hv'
  refine ⟨v', hv', hmembers.mono fun c => h.left.noticed_of_act hw hact, fun p k => ?_, ?_, hcalls,
    hsent, h.left.act hact hl, h.right.act hact' hl⟩
  · -- both tables are changed in the same way
    rw [registered_of_act hact, registered_of_act hact', h.members.isAlive]
    have hchildren := h.children p k
    simp only [without] at hchildren ⊢
    split
    · rfl
    · split
      · rw [List.filter_comm, hchildren, List.filter_comm]
      · rw [List.filter_append, List.filter_append, hchildren]
  · cases hl : contextLabel l with
    | none =>
      rw [contexts_of_other hact hl, contexts_of_other hact' hl]
      exact h.contexts
    | some j =>
      exact h.contexts.step hw.bounded hv.bounded (contexts_step hw hact hl)
        (contexts_step hv hact' hl)

end Step

/-! ## The reaction of the channels

After a step the channels react: queues without a handle are freed, and mailboxes without a sender
are closed. The queues of `G` own nothing, so freeing one releases nobody. -/

section React

variable [DecidableEq κ]

omit [DecidableEq κ] in
theorem outside_of_free (h : (free w).outside c = true) : w.outside c = true := by
  have hhandled : (free w).handled c = w.handled c := any_of_map (by
    rw [free_members, Option.map_map]
    rfl)
  rw [outside_iff, hhandled] at h
  exact outside_iff.mpr (h.imp_right carried_of_free)

theorem free_registered : (free w).registered p k = w.registered p k := by
  rw [registered, registered, free_members]
  cases w.members[p]? <;> rfl

theorem close_registered : (close w).registered p k = w.registered p k := by
  rw [registered, registered, close_members]
  cases w.members[p]? with
  | none => rfl
  | some m =>
    obtain ⟨q, hq, -⟩ := react_cases m (w.hasSender p)
    rw [Option.map_some, hq]
    rfl

omit [DecidableEq κ] in
/-- What changes neither flags nor queues. -/
theorem Settled.react (h : Settled G w)
    (hmembers : ∀ (c : ℕ) (m' : Member Q κ σ ρ), w'.members[c]? = some m' →
      ∃ m, w.members[c]? = some m ∧ m'.task = m.task
        ∧ (state m'.mailbox).queued = (state m.mailbox).queued)
    (hlength : w'.members.length = w.members.length) : Settled G w' := by
  intro c hG
  obtain ⟨hstopped, hlight⟩ := h c hG
  obtain ⟨m, hm, hdown⟩ := stopped_iff.mp hstopped
  have hm' := List.getElem?_eq_getElem (hlength ▸ (List.getElem?_eq_some_iff.mp hm).1)
  obtain ⟨m₀, hm₀, htask, hqueue⟩ := hmembers c _ hm'
  cases hm.symm.trans hm₀
  refine ⟨stopped_iff.mpr ⟨_, hm', htask ▸ hdown⟩, light_iff.mpr fun m' hmm' x hx => ?_⟩
  cases hm'.symm.trans hmm'
  exact light_iff.mp hlight m hm x (hqueue ▸ hx)

omit [DecidableEq κ] in
theorem Settled.free (h : Settled G w) : Settled G (free w) := by
  refine h.react (fun c m' hm' => ?_) List.length_mapIdx
  rw [free_members] at hm'
  obtain ⟨m, hm, rfl⟩ := Option.map_eq_some_iff.mp hm'
  exact ⟨m, hm, rfl, rfl⟩

omit [DecidableEq κ] in
theorem Settled.close (h : Settled G w) : Settled G (close w) := by
  refine h.react (fun c m' hm' => ?_) List.length_mapIdx
  rw [close_members] at hm'
  obtain ⟨m, hm, rfl⟩ := Option.map_eq_some_iff.mp hm'
  obtain ⟨q, hq, hqueue, -⟩ := react_cases m (w.hasSender c)
  rw [hq]
  exact ⟨m, hm, rfl, hqueue⟩

/-- Both families free the same queues, except for those of `G`. -/
theorem Alike.free (h : Alike G w v) : Alike G (free w) (free v) where
  members c := by
    rw [free_members, free_members]
    cases hm : w.members[c]? with
    | none =>
      have hle := h.members.length.le.trans (List.getElem?_eq_none_iff.mp hm)
      rw [List.getElem?_eq_none hle]
      exact .none
    | some m =>
      obtain ⟨n, hn, hs⟩ := h.members.find hm
      rw [hn]
      refine .some ⟨hs.task, hs.others, hs.weaks, hs.queued, fun hc => ?_, fun hG => ?_⟩
      · exact hs.mailbox (hc.imp_right outside_of_free)
      · show (n.allocated && v.attached c n) = (m.allocated && w.attached c m)
        rw [hs.allocated hG, h.attached hG hs]
  children p k := by
    rw [free_registered, free_registered]
    exact h.children p k
  contexts := h.contexts
  calls := h.calls
  sent := h.sent
  left := h.left.free
  right := h.right.free

theorem Alike.release (h : Alike G w v) : Alike G w.release v.release := by
  rw [Family.release, Family.release, h.members.length]
  generalize w.members.length = n
  induction n with
  | zero => exact h
  | succ n ih =>
    rw [Function.iterate_succ_apply', Function.iterate_succ_apply']
    exact ih.free

/-- Both families close the same mailboxes, except for those of `G` that nobody has a handle to. -/
theorem Alike.close (h : Alike G w v) : Alike G (close w) (close v) where
  members c := by
    rw [close_members, close_members]
    cases hm : w.members[c]? with
    | none =>
      have hle := h.members.length.le.trans (List.getElem?_eq_none_iff.mp hm)
      rw [List.getElem?_eq_none hle]
      exact .none
    | some m =>
      obtain ⟨n, hn, hs⟩ := h.members.find hm
      rw [hn]
      have hnoticed : Noticed G (Family.close w) c → Noticed G w c :=
        Or.imp_right fun houtside =>
          by rwa [Family.outside, close_handled, close_carried] at houtside
      exact .some ((hs.mono hnoticed).react fun hc => h.hasSender (hnoticed hc))
  children p k := by
    rw [close_registered, close_registered]
    exact h.children p k
  contexts := h.contexts
  calls := h.calls
  sent := h.sent
  left := h.left.close
  right := h.right.close

theorem Alike.settle (h : Alike G w v) : Alike G (settle w) (settle v) := h.release.close

/-- **A family and what a harmless `gc` makes of it are alike.** -/
theorem alike_gc (hinv : Inv w) (hm : w.members[p]? = some m) (hharmless : w.harmless p = true) :
    Alike (w.collected p) w (w.gc p) := by
  have hmembers : Matched (Noticed (w.collected p) w) (w.collected p) w (w.gc p) := by
    intro c
    show Option.Rel _ w.members[c]? (w.members.modify p _)[c]?
    rw [List.getElem?_modify]
    cases w.members[c]? with
    | none => exact .none
    | some n =>
      refine .some ?_
      split
      · exact Same.refl.withChildren
      · exact .refl
  -- this is where `harmless` is used: what `gc` collects has stopped, and its queue owns nothing
  have hsettled : Settled (w.collected p) w := by
    intro c hc
    have hstopped := (Bool.and_eq_true_iff.mp hc).2
    obtain ⟨n, hn, -⟩ := stopped_iff.mp hstopped
    have hrange := List.mem_range.mpr (List.getElem?_eq_some_iff.mp hn).1
    have hlight := List.all_eq_true.mp hharmless c hrange
    rw [hc, Bool.not_true, Bool.false_or] at hlight
    exact ⟨hstopped, hlight⟩
  refine ⟨hmembers, fun q k => ?_, ContextWorld.alike_gc, rfl, rfl, hsettled,
    hsettled.react (fun c m' hm' => ?_) (List.length_modify ..)⟩
  · rw [registered_update (φ := fun m =>
      { m with children := m.children.removeStopped w.isAlive }) hm rfl]
    split
    · next hpq =>
      subst hpq
      -- the entries that are taken away are those for `G`
      rw [Children.vec_removeStopped, without, List.filter_filter, registered, hm]
      refine List.filter_congr fun b hb => ?_
      have hb : b ∈ w.registered p k := mem_registered.mpr ⟨m, hm, hb⟩
      rw [collected, holds_of_registered hb, Bool.true_and, stopped_eq (hinv.typed hb).2,
        Bool.not_not]
      exact Bool.and_self _
    · rfl
  · rcases Table.of_getElem?_modify hm' with ⟨-, hold⟩ | ⟨rfl, n, hn, rfl⟩
    · exact ⟨m', hold, rfl, rfl⟩
    · exact ⟨n, hn, rfl, rfl⟩

/-! ## Runs of two families

What one family can do the other can do, and the relation is symmetric, so a step is possible in
both or in neither. The rule for runs is an induction with both invariants. -/

end React

end Family

end Hannibal
