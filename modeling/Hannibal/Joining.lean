import Hannibal.World

/-!
# Hannibal.Joining — joining and consuming an owned actor

`ActorHandle::spawn` (`actor/handle.rs`, `tokio_runtime`) keeps the join handle of the loop future
in an `Arc<async_lock::Mutex<Option<JoinHandle>>>`. Every join future locks it, takes the handle out
and awaits it with the lock still held; one that finds nothing yields `None`. `OwningAddr::join`
awaits such a future; `consume` and `consume_sync` (`addr.rs`) give up the address, stop the actor
and then join it. The calls of one `OwningAddr` come one after the other, but join futures are
independent of it, and any number of them may wait here at a time.

* **`OwnedWorld`** — an actor with its clients, the mutex, and the calls that join it.
* **`OwnedWorld.Whereabouts`** — where the join handle is: the invariant of every run.
* **`retrievable_iff`** — when the first call that completes returns the actor.
-/

namespace Hannibal

open Lts Chan

/-- The three ways of joining an owned actor. -/
inductive JoinKind where
  | join
  | consume
  | consumeSync
  deriving DecidableEq, Repr

/-- What a call returns: the actor or nothing, and for `consume` the actor or an error. -/
inductive Joined (σ : Type) where
  | joined (r : Option σ)
  | consumed (r : Except ActorError σ)

/-- Where a call stands. -/
inductive JoinStage (σ : Type) where
  /-- in `self.addr.stop()?`, which is operation `i` of the actor -/
  | stopping (i : ℕ)
  /-- at `handle.lock().await`, or not polled yet -/
  | locking
  /-- the join handle is taken, and awaited with the lock held -/
  | awaiting
  | returned (x : Joined σ)
  /-- the stop has failed -/
  | rejected (e : ActorError)
  /-- its future was dropped -/
  | abandoned

/-- A call of `join`, `consume` or `consume_sync`. -/
structure JoinCall (σ : Type) where
  kind : JoinKind
  stage : JoinStage σ

/-- An actor with its clients; whether its `OwningAddr` is still there, and the join handle still in
the mutex; the calls begun so far; and what the completed ones have returned, oldest first. -/
structure OwnedWorld (Q : Type → Type) (σ ρ : Type) where
  actor : World Q σ ρ
  owned : Bool
  slot : Bool
  calls : List (JoinCall σ)
  returns : List (ℕ × Joined σ)

/-- Everything that can happen next. -/
inductive JoinLabel (σ ρ : Type) where
  /-- the loop moves, or another client uses the actor -/
  | actor (l : Label σ ρ)
  /-- a call is begun, or the `OwningAddr` is dropped or detached -/
  | begin (kind : JoinKind)
  | release
  /-- call `k` is polled, or its future is dropped where it waits -/
  | poll (k : ℕ)
  | abandon (k : ℕ)

variable {Q : Type → Type} {σ ρ : Type}

/-- `consume` maps the result of its join with `ok_or(ActorError::AlreadyStopped)`. -/
def JoinKind.result : JoinKind → Option σ → Joined σ
  | .consume, some a => .consumed (.ok a)
  | .consume, none => .consumed (.error .alreadyStopped)
  | .join, r | .consumeSync, r => .joined r

/-- The actor a call has returned. -/
def Joined.actor : Joined σ → Option σ
  | .joined r => r
  | .consumed (.ok a) => some a
  | .consumed (.error _) => none

@[simp] theorem JoinKind.result_actor (kind : JoinKind) (r : Option σ) :
    (kind.result r).actor = r := by
  cases kind <;> cases r <;> rfl

/-- The call holds the lock. -/
def JoinCall.locks (c : JoinCall σ) : Bool :=
  match c.stage with
  | .awaiting => true
  | _ => false

/-- The call has a handle of the actor in its hands: `consume` until it returns, `consume_sync`
until it hands out the join future. -/
def JoinCall.holdsAddr (c : JoinCall σ) : Bool :=
  match c.kind, c.stage with
  | .consume, .stopping _ | .consume, .locking | .consume, .awaiting => true
  | .consumeSync, .stopping _ => true
  | _, _ => false

namespace OwnedWorld

/-- Some join future holds the lock. -/
def locked (w : OwnedWorld Q σ ρ) : Bool := w.calls.any JoinCall.locks

/-- Other clients leave the `Addr` inside the `OwningAddr` alone. -/
def permitted (w : OwnedWorld Q σ ρ) : Label σ ρ → Bool
  | .drop => decide (1 < w.actor.handles) || !(w.owned || w.calls.any JoinCall.holdsAddr)
  | _ => true

def setStage (w : OwnedWorld Q σ ρ) (k : ℕ) (st : JoinStage σ) : OwnedWorld Q σ ρ :=
  { w with calls := w.calls.modify k fun c => { c with stage := st } }

/-- Call `k` returns `x`, and with that it unlocks the mutex. -/
def finish (w : OwnedWorld Q σ ρ) (k : ℕ) (x : Joined σ) : OwnedWorld Q σ ρ :=
  { w.setStage k (.returned x) with returns := w.returns ++ [(k, x)] }

/-- `handle.lock().await.take()`, if the lock is free. -/
def lock (w : OwnedWorld Q σ ρ) (k : ℕ) (kind : JoinKind) : Option (OwnedWorld Q σ ρ) :=
  if w.locked then none
  else if w.slot then some { w.setStage k .awaiting with slot := false }
  else some (w.finish k (kind.result none))

variable [AsyncChannel Q]

/-- The actor as `create` leaves it, spawned and owned. -/
def init (Q : Type → Type) [AsyncChannel Q] (ρ : Type) (capacity : Option ℕ+) (a : σ) :
    OwnedWorld Q σ ρ :=
  ⟨.init Q ρ capacity a, true, true, [], []⟩

/-- One step of call `k`. -/
def poll (E : EventLoop σ) (w : OwnedWorld Q σ ρ) (k : ℕ) : Option (OwnedWorld Q σ ρ) :=
  match w.calls[k]? with
  | some ⟨_, .stopping i⟩ =>
    match w.actor.flights[i]? with
    | none => none
    | some ⟨_, .returned (.ok _)⟩ => some (w.setStage k .locking)
    | some ⟨_, .returned (.error e)⟩ => some (w.setStage k (.rejected e))
    | some _ => (w.actor.step E (.advance i)).map fun s => { w with actor := s }
  | some ⟨kind, .locking⟩ => w.lock k kind
  | some ⟨kind, .awaiting⟩ => w.actor.task.joined.map fun r => w.finish k (kind.result r)
  | _ => none

def step (E : EventLoop σ) (w : OwnedWorld Q σ ρ) : JoinLabel σ ρ → Option (OwnedWorld Q σ ρ)
  | .actor l =>
    if w.permitted l then (w.actor.step E l).map fun s => { w with actor := s } else none
  | .begin .join =>
    if w.owned then some { w with calls := w.calls ++ [⟨.join, .locking⟩] } else none
  | .begin kind =>
    if w.owned then (w.actor.step E (.begin Addr.stop)).map fun s =>
      { w with
        actor := s
        owned := false
        calls := w.calls ++ [⟨kind, .stopping w.actor.flights.length⟩] }
    else none
  | .release => if w.owned then some { w with owned := false } else none
  | .poll k => w.poll E k
  | .abandon k =>
    match w.calls[k]? with
    | some ⟨_, .locking⟩ | some ⟨_, .awaiting⟩ => some (w.setStage k .abandoned)
    | _ => none

def machine (Q : Type → Type) [AsyncChannel Q] (ρ : Type) (E : EventLoop σ) (capacity : Option ℕ+)
    (a : σ) : Machine (OwnedWorld Q σ ρ) (JoinLabel σ ρ) :=
  ⟨init Q ρ capacity a, step E⟩

/-- A step that drops a join future while it waits for the actor, with the join handle in its
hands. -/
def Forfeits (w : OwnedWorld Q σ ρ) (l : JoinLabel σ ρ) : Prop :=
  ∃ k c, l = .abandon k ∧ w.calls[k]? = some c ∧ c.locks = true

/-! ## What one step can do

A call of the `OwningAddr` is polled, or its future is dropped. A poll goes as far as it can without
the lock, with the lock, or with the join handle. -/

/-- Everything one step can do. -/
inductive Act (E : EventLoop σ) (w : OwnedWorld Q σ ρ) :
    JoinLabel σ ρ → OwnedWorld Q σ ρ → Prop where
  | actor (l : Label σ ρ) (s : World Q σ ρ) (hl : w.permitted l = true)
      (hs : w.actor.step E l = some s) : Act E w (.actor l) { w with actor := s }
  | join (howned : w.owned = true) :
      Act E w (.begin .join) { w with calls := w.calls ++ [⟨.join, .locking⟩] }
  | consume (kind : JoinKind) (s : World Q σ ρ) (hkind : kind ≠ .join) (howned : w.owned = true)
      (hs : w.actor.step E (.begin Addr.stop) = some s) :
      Act E w (.begin kind) { w with
        actor := s
        owned := false
        calls := w.calls ++ [⟨kind, .stopping w.actor.flights.length⟩] }
  | release (howned : w.owned = true) : Act E w .release { w with owned := false }
  | stop (k i : ℕ) (kind : JoinKind) (s : World Q σ ρ) (hc : w.calls[k]? = some ⟨kind, .stopping i⟩)
      (hs : w.actor.step E (.advance i) = some s) : Act E w (.poll k) { w with actor := s }
  | stopped (k i : ℕ) (kind : JoinKind) (hc : w.calls[k]? = some ⟨kind, .stopping i⟩) :
      Act E w (.poll k) (w.setStage k .locking)
  | reject (k i : ℕ) (kind : JoinKind) (e : ActorError)
      (hc : w.calls[k]? = some ⟨kind, .stopping i⟩) : Act E w (.poll k) (w.setStage k (.rejected e))
  | take (k : ℕ) (kind : JoinKind) (hc : w.calls[k]? = some ⟨kind, .locking⟩)
      (hfree : w.locked = false) (hslot : w.slot = true) :
      Act E w (.poll k) { w.setStage k .awaiting with slot := false }
  | miss (k : ℕ) (kind : JoinKind) (hc : w.calls[k]? = some ⟨kind, .locking⟩)
      (hfree : w.locked = false) (hslot : w.slot = false) :
      Act E w (.poll k) (w.finish k (kind.result none))
  | deliver (k : ℕ) (kind : JoinKind) (r : Option σ) (hc : w.calls[k]? = some ⟨kind, .awaiting⟩)
      (hr : w.actor.task.joined = some r) : Act E w (.poll k) (w.finish k (kind.result r))
  | abandon (k : ℕ) (c : JoinCall σ) (hc : w.calls[k]? = some c)
      (hst : c.stage = .locking ∨ c.stage = .awaiting) :
      Act E w (.abandon k) (w.setStage k .abandoned)

variable {E : EventLoop σ} {w w' : OwnedWorld Q σ ρ} {l : JoinLabel σ ρ} {k : ℕ}

theorem act_of_poll (h : w.poll E k = some w') : Act E w (.poll k) w' := by
  unfold poll at h
  split at h
  · next kind i hc =>
    split at h
    · cases h
    · cases h; exact .stopped k i kind hc
    · next e hf => cases h; exact .reject k i kind e hc
    · obtain ⟨s, hs, rfl⟩ := Option.map_eq_some_iff.mp h
      exact .stop k i kind s hc hs
  · next kind hc =>
    -- a call that finds the lock taken stays where it is
    unfold lock at h
    split at h
    · cases h
    · next hfree =>
      split at h
      · next hslot => cases h; exact .take k kind hc (by simpa using hfree) hslot
      · next hslot => cases h; exact .miss k kind hc (by simpa using hfree) (by simpa using hslot)
  · next kind hc =>
    obtain ⟨r, hr, rfl⟩ := Option.map_eq_some_iff.mp h
    exact .deliver k kind r hc hr
  · cases h

/-- **Nothing else happens.** -/
theorem act_cases (h : w.step E l = some w') : Act E w l w' := by
  cases l with
  | actor l =>
    simp only [step] at h
    split at h
    · next hl =>
      obtain ⟨s, hs, rfl⟩ := Option.map_eq_some_iff.mp h
      exact .actor l s hl hs
    · cases h
  | begin kind =>
    -- `consume` and `consume_sync` begin alike: the address is given up, and the stop is begun
    have hconsume : ∀ kind : JoinKind, kind ≠ .join →
        (if w.owned then (w.actor.step E (.begin Addr.stop)).map fun s => { w with
            actor := s
            owned := false
            calls := w.calls ++ [⟨kind, .stopping w.actor.flights.length⟩] }
          else none) = some w' → Act E w (.begin kind) w' := by
      intro kind hkind h
      split at h
      · next howned =>
        obtain ⟨s, hs, rfl⟩ := Option.map_eq_some_iff.mp h
        exact .consume kind s hkind howned hs
      · cases h
    cases kind with
    | join =>
      simp only [step] at h
      split at h
      · next howned => cases h; exact .join howned
      · cases h
    | consume => exact hconsume .consume nofun h
    | consumeSync => exact hconsume .consumeSync nofun h
  | release =>
    simp only [step] at h
    split at h
    · next howned => cases h; exact .release howned
    · cases h
  | poll k => exact act_of_poll h
  | abandon k =>
    simp only [step] at h
    split at h
    · next kind hc => cases h; exact .abandon k _ hc (.inl rfl)
    · next kind hc => cases h; exact .abandon k _ hc (.inr rfl)
    · cases h

/-- Of a step the loop future sees one of its own, or nothing. -/
theorem task_of_act (h : Act E w l w') : w'.actor.task = w.actor.task
    ∨ ∃ tl, LoopTask.Step E w.actor.task tl w'.actor.task := by
  have hstep : ∀ {k : Label σ ρ} {s : World Q σ ρ}, w.actor.step E k = some s →
      s.task = w.actor.task ∨ ∃ tl, LoopTask.Step E w.actor.task tl s.task := fun hs =>
    (World.task_of_step hs).imp_right fun ⟨tl, ht⟩ => ⟨tl, LoopTask.step_cases ht⟩
  cases h with
  | actor l s hl hs => exact hstep hs
  | consume kind s hkind howned hs => exact hstep hs
  | stop k i kind s hc hs => exact hstep hs
  | _ => exact .inl rfl

/-- What the loop future yields once it has ended does not change. -/
theorem joined_of_act {r : Option σ} (h : Act E w l w') (hr : w.actor.task.joined = some r) :
    w'.actor.task.joined = some r := by
  rcases task_of_act h with hsame | ⟨tl, ht⟩
  · rwa [hsame]
  · exact LoopTask.joined_of_step ht hr

/-! ## Who has the join handle

The mutex has it, a call that holds the lock has it, or nobody has it any more. `Handover` sorts the
steps by what they do to this; all that matters of the others is that they do nothing. -/

/-- Call `k` holds the lock, and with it the join handle. -/
def Holds (w : OwnedWorld Q σ ρ) (k : ℕ) : Prop := ∃ c, w.calls[k]? = some c ∧ c.locks = true

omit [AsyncChannel Q] in
theorem locked_iff : w.locked = true ↔ ∃ k, w.Holds k := by
  unfold locked Holds
  rw [List.any_eq_true]
  constructor
  · rintro ⟨c, hc, hlocks⟩
    obtain ⟨k, hk⟩ := List.mem_iff_getElem?.mp hc
    exact ⟨k, c, hk, hlocks⟩
  · rintro ⟨k, c, hk, hlocks⟩
    exact ⟨c, List.mem_of_getElem? hk, hlocks⟩

omit [AsyncChannel Q] in
theorem not_holds_of_unlocked (h : w.locked = false) (j : ℕ) : ¬ w.Holds j := fun hj => by
  simp [locked_iff.mpr ⟨j, hj⟩] at h

omit [AsyncChannel Q] in
/-- A call that begins holds nothing. -/
theorem holds_snoc {c : JoinCall σ} (hcs : w'.calls = w.calls ++ [c])
    (hc : c.locks = false) (j : ℕ) : w'.Holds j ↔ w.Holds j := by
  unfold Holds
  simp only [hcs, Table.getElem?_snoc]
  constructor
  · rintro ⟨d, hd | ⟨-, rfl⟩, hlocks⟩
    · exact ⟨d, hd, hlocks⟩
    · simp [hc] at hlocks
  · rintro ⟨d, hd, hlocks⟩
    exact ⟨d, .inl hd, hlocks⟩

omit [AsyncChannel Q] in
/-- Call `k` holds the join handle exactly when its stage says so. -/
theorem holds_modify {c : JoinCall σ} {st : JoinStage σ}
    (hcs : w'.calls = w.calls.modify k fun c => { c with stage := st })
    (hc : w.calls[k]? = some c) (j : ℕ) :
    w'.Holds j ↔ (j ≠ k ∧ w.Holds j) ∨ (j = k ∧ (⟨c.kind, st⟩ : JoinCall σ).locks = true) := by
  unfold Holds
  rw [hcs]
  by_cases hjk : j = k
  · subst hjk
    simp [Table.getElem?_modify_self hc]
  · simp [Table.getElem?_modify_of_ne (Ne.symm hjk), hjk]

omit [AsyncChannel Q] in
theorem holds_iff {c : JoinCall σ} (hc : w.calls[k]? = some c) : w.Holds k ↔ c.locks = true := by
  unfold Holds
  simp [hc]

omit [AsyncChannel Q] in
/-- A call that gives the join handle away, or that had none, holds none. -/
theorem holds_modify_unlocked {c : JoinCall σ} {st : JoinStage σ}
    (hcs : w'.calls = w.calls.modify k fun c => { c with stage := st })
    (hc : w.calls[k]? = some c) (hst : (⟨c.kind, st⟩ : JoinCall σ).locks = false) (j : ℕ) :
    w'.Holds j ↔ j ≠ k ∧ w.Holds j := by
  rw [holds_modify hcs hc, hst]
  simp

omit [AsyncChannel Q] in
theorem holds_modify_waiting {c : JoinCall σ} {st : JoinStage σ}
    (hcs : w'.calls = w.calls.modify k fun c => { c with stage := st })
    (hc : w.calls[k]? = some c) (hst : (⟨c.kind, st⟩ : JoinCall σ).locks = false)
    (hlocks : c.locks = false) (j : ℕ) : w'.Holds j ↔ w.Holds j := by
  rw [holds_modify_unlocked hcs hc hst, and_iff_right_iff_imp]
  rintro hj rfl
  simp [(holds_iff hc).mp hj] at hlocks

/-- What a step does with the join handle: nothing, it is taken out of the mutex, a call finds it
gone, the call that has it returns what it yields, or drops it. -/
inductive Handover (w : OwnedWorld Q σ ρ) (l : JoinLabel σ ρ) (w' : OwnedWorld Q σ ρ) : Prop where
  | kept (hslot : w'.slot = w.slot) (hholds : ∀ j, w'.Holds j ↔ w.Holds j)
      (hret : w'.returns = w.returns) (hkept : ¬ w.Forfeits l)
  | take (k : ℕ) (hslot : w.slot = true) (hslot' : w'.slot = false)
      (hholds : ∀ j, w'.Holds j ↔ j = k) (hret : w'.returns = w.returns) (hkept : ¬ w.Forfeits l)
  | miss (k : ℕ) (x : Joined σ) (hfree : ∀ j, ¬ w.Holds j) (hslot : w.slot = false)
      (hslot' : w'.slot = false) (hfree' : ∀ j, ¬ w'.Holds j) (hx : x.actor = none)
      (hret : w'.returns = w.returns ++ [(k, x)]) (hkept : ¬ w.Forfeits l)
  | deliver (k : ℕ) (x : Joined σ) (hk : w.Holds k) (hslot : w'.slot = w.slot)
      (hholds : ∀ j, w'.Holds j ↔ j ≠ k ∧ w.Holds j)
      (hjoined : w.actor.task.joined = some x.actor)
      (hret : w'.returns = w.returns ++ [(k, x)]) (hkept : ¬ w.Forfeits l)
  | forfeit (k : ℕ) (hk : w.Holds k) (hslot : w'.slot = w.slot)
      (hholds : ∀ j, w'.Holds j ↔ j ≠ k ∧ w.Holds j) (hret : w'.returns = w.returns)
      (hlost : w.Forfeits l)

omit [AsyncChannel Q] in
theorem not_forfeits (hl : ∀ k, l ≠ .abandon k) : ¬ w.Forfeits l := by
  rintro ⟨k, c, hk, -⟩
  exact hl k hk

/-- The five kinds of step. -/
theorem handover_of_act (h : Act E w l w') : Handover w l w' := by
  cases h with
  | actor l s hl hs => exact .kept rfl (fun _ => .rfl) rfl (not_forfeits (by simp))
  | join howned => exact .kept rfl (holds_snoc rfl rfl) rfl (not_forfeits (by simp))
  | consume kind s hkind howned hs =>
    exact .kept rfl (holds_snoc rfl rfl) rfl (not_forfeits (by simp))
  | release howned => exact .kept rfl (fun _ => .rfl) rfl (not_forfeits (by simp))
  | stop k i kind s hc hs => exact .kept rfl (fun _ => .rfl) rfl (not_forfeits (by simp))
  | stopped k i kind hc =>
    exact .kept rfl (holds_modify_waiting rfl hc rfl rfl) rfl (not_forfeits (by simp))
  | reject k i kind e hc =>
    exact .kept rfl (holds_modify_waiting rfl hc rfl rfl) rfl (not_forfeits (by simp))
  | take k kind hc hfree hslot =>
    refine .take k hslot rfl (fun j => (holds_modify (w := w) rfl hc j).trans ?_) rfl
      (not_forfeits (by simp))
    simp [not_holds_of_unlocked hfree, JoinCall.locks]
  | miss k kind hc hfree hslot =>
    have hnone := not_holds_of_unlocked hfree
    refine .miss k _ hnone hslot hslot (fun j => ?_) (kind.result_actor none) rfl
      (not_forfeits (by simp))
    exact mt (holds_modify_waiting rfl hc rfl rfl j).mp (hnone j)
  | deliver k kind r hc hr =>
    exact .deliver k _ ((holds_iff hc).mpr rfl) rfl (holds_modify_unlocked rfl hc rfl)
      (by rw [hr, kind.result_actor]) rfl (not_forfeits (by simp))
  | abandon k c hc hst =>
    rcases c with ⟨kind, st⟩
    rcases hst with hst | hst
    · change st = .locking at hst
      subst hst
      refine .kept rfl (holds_modify_waiting rfl hc rfl rfl) rfl ?_
      rintro ⟨j, c', hl, hc', hlocks⟩
      cases hl
      rw [hc] at hc'
      cases hc'
      cases hlocks
    · change st = .awaiting at hst
      subst hst
      exact .forfeit k ((holds_iff hc).mpr rfl) rfl (holds_modify_unlocked rfl hc rfl) rfl
        ⟨k, _, rfl, hc, rfl⟩

/-! ## The invariant

`Whereabouts` has one constructor for each of these places, and says with it what the calls have
returned so far. `lost` is the proposition that some step has dropped the join handle, so that the
invariant decides it. -/

/-- Where the join handle is: in the mutex, with the one call that awaits it, used up by the call
that returned first, or gone with a call that was dropped; `lost` says whether there was such a
call. -/
inductive Whereabouts (w : OwnedWorld Q σ ρ) (lost : Prop) : Prop where
  | stored (hslot : w.slot = true) (hfree : ∀ j, ¬ w.Holds j) (hnone : w.returns = [])
      (hkept : ¬ lost)
  | taken (k : ℕ) (hslot : w.slot = false) (hone : ∀ j, w.Holds j ↔ j = k) (hnone : w.returns = [])
      (hkept : ¬ lost)
  | delivered (k : ℕ) (x : Joined σ) (rest : List (ℕ × Joined σ)) (hslot : w.slot = false)
      (hfree : ∀ j, ¬ w.Holds j) (hjoined : w.actor.task.joined = some x.actor)
      (hret : w.returns = (k, x) :: rest) (hrest : ∀ y ∈ rest, y.2.actor = none) (hkept : ¬ lost)
  | lost (hslot : w.slot = false) (hfree : ∀ j, ¬ w.Holds j)
      (hnone : ∀ y ∈ w.returns, y.2.actor = none) (hlost : lost)

theorem whereabouts_init (capacity : Option ℕ+) (a : σ) {lost : Prop} (hkept : ¬ lost) :
    Whereabouts (init Q ρ capacity a) lost := by
  refine .stored rfl (fun j => ?_) rfl hkept
  rintro ⟨c, hc, -⟩
  simp [init] at hc

/-- **The step lemma.** A step loses the join handle only by dropping a call that has it. -/
theorem whereabouts_step {lost : Prop} (hw : Whereabouts w lost) (h : Act E w l w') :
    Whereabouts w' (lost ∨ w.Forfeits l) := by
  cases hw with
  -- in the mutex: the next call to lock it takes it
  | stored hslot hfree hnone hkept =>
    cases handover_of_act h with
    | kept hslot' hholds hret hno =>
      exact .stored (hslot'.trans hslot) (fun j hj => hfree j ((hholds j).mp hj))
        (hret.trans hnone) (not_or.mpr ⟨hkept, hno⟩)
    | take k hs hslot' hholds hret hno =>
      exact .taken k hslot' hholds (hret.trans hnone) (not_or.mpr ⟨hkept, hno⟩)
    | miss k x hfree' hs => simp [hslot] at hs
    | deliver k x hk => exact absurd hk (hfree k)
    | forfeit k hk => exact absurd hk (hfree k)
  -- with a call: it is delivered when the loop has ended, or goes with the future of the call
  | taken k hslot hone hnone hkept =>
    have hgone : ∀ {j}, (∀ i, w'.Holds i ↔ i ≠ j ∧ w.Holds i) → w.Holds j →
        ∀ i, ¬ w'.Holds i := fun hholds hj i hi =>
      ((hholds i).mp hi).1 (((hone i).mp ((hholds i).mp hi).2).trans ((hone _).mp hj).symm)
    cases handover_of_act h with
    | kept hslot' hholds hret hno =>
      exact .taken k (hslot'.trans hslot) (fun j => (hholds j).trans (hone j)) (hret.trans hnone)
        (not_or.mpr ⟨hkept, hno⟩)
    | take j hs => simp [hslot] at hs
    | miss j x hfree => exact absurd ((hone k).mpr rfl) (hfree k)
    | deliver j x hj hslot' hholds hjoined hret hno =>
      exact .delivered j x [] (hslot'.trans hslot) (hgone hholds hj) (joined_of_act h hjoined)
        (by rw [hret, hnone]; rfl) nofun (not_or.mpr ⟨hkept, hno⟩)
    | forfeit j hj hslot' hholds hret hlost =>
      exact .lost (hslot'.trans hslot) (hgone hholds hj) (by simp [hret, hnone]) (.inr hlost)
  -- used up: what is returned from now on is `None`
  | delivered k x rest hslot hfree hjoined hret hrest hkept =>
    cases handover_of_act h with
    | kept hslot' hholds hret' hno =>
      exact .delivered k x rest (hslot'.trans hslot) (fun j hj => hfree j ((hholds j).mp hj))
        (joined_of_act h hjoined) (hret'.trans hret) hrest (not_or.mpr ⟨hkept, hno⟩)
    | take j hs => simp [hslot] at hs
    | miss j y _ hs hslot' hfree' hy hret' hno =>
      have hrest' : ∀ z ∈ rest ++ [(j, y)], z.2.actor = none :=
        List.forall_mem_append.mpr ⟨hrest, List.forall_mem_singleton.mpr hy⟩
      exact .delivered k x (rest ++ [(j, y)]) hslot' hfree' (joined_of_act h hjoined)
        (by rw [hret', hret]; rfl) hrest' (not_or.mpr ⟨hkept, hno⟩)
    | deliver j y hj => exact absurd hj (hfree j)
    | forfeit j hj => exact absurd hj (hfree j)
  | lost hslot hfree hnone hlost =>
    cases handover_of_act h with
    | kept hslot' hholds hret hno =>
      exact .lost (hslot'.trans hslot) (fun j hj => hfree j ((hholds j).mp hj)) (by rwa [hret])
        (.inl hlost)
    | take j hs => simp [hslot] at hs
    | miss j y _ hs hslot' hfree' hy hret hno =>
      have hnone' : ∀ z ∈ w.returns ++ [(j, y)], z.2.actor = none :=
        List.forall_mem_append.mpr ⟨hnone, List.forall_mem_singleton.mpr hy⟩
      exact .lost hslot' hfree' (by rwa [hret]) (.inl hlost)
    | deliver j y hj => exact absurd hj (hfree j)
    | forfeit j hj => exact absurd hj (hfree j)

theorem whereabouts_of_run {capacity : Option ℕ+} {a : σ} {ls : List (JoinLabel σ ρ)}
    (h : (machine Q ρ E capacity a).Run ls w) :
    Whereabouts w ¬ (machine Q ρ E capacity a).AllSteps ls fun u l _ => ¬ u.Forfeits l := by
  induction h with
  | start => exact whereabouts_init capacity a (not_not_intro Machine.allSteps_nil)
  | snoc run hstep ih =>
    rw [run.allSteps_snoc hstep, not_and_or, not_not]
    exact whereabouts_step ih (act_cases hstep)

/-- Each completed call has returned what its kind makes of the join. -/
def Records (w : OwnedWorld Q σ ρ) (y : ℕ × Joined σ) : Prop :=
  ∃ c, w.calls[y.1]? = some c ∧ c.stage = .returned y.2 ∧ y.2 = c.kind.result y.2.actor

omit [AsyncChannel Q] in
/-- A call that has not returned is none of those recorded. -/
theorem records_setStage {c : JoinCall σ} {st : JoinStage σ} {y : ℕ × Joined σ} (hy : w.Records y)
    (hc : w.calls[k]? = some c) (hst : ∀ x, c.stage ≠ .returned x) :
    (w.setStage k st).Records y := by
  obtain ⟨d, hd, hdst, hres⟩ := hy
  have hne : k ≠ y.1 := by
    rintro rfl
    rw [hc] at hd
    cases hd
    exact hst _ hdst
  exact ⟨d, (Table.getElem?_modify_of_ne hne).trans hd, hdst, hres⟩

omit [AsyncChannel Q] in
theorem records_finish {kind : JoinKind} {st : JoinStage σ} {r : Option σ}
    (hall : ∀ y ∈ w.returns, w.Records y) (hc : w.calls[k]? = some ⟨kind, st⟩)
    (hst : ∀ x, st ≠ .returned x) :
    ∀ y ∈ (w.finish k (kind.result r)).returns, (w.finish k (kind.result r)).Records y := by
  intro y hy
  rcases List.mem_append.mp hy with hold | hnew
  · exact records_setStage (hall y hold) hc hst
  · rw [List.mem_singleton.mp hnew]
    exact ⟨_, Table.getElem?_modify_self hc, rfl, by simp⟩

theorem records_step (hall : ∀ y ∈ w.returns, w.Records y) (h : Act E w l w') :
    ∀ y ∈ w'.returns, w'.Records y := by
  cases h with
  | actor l s hl hs => exact hall
  | release howned => exact hall
  | stop k i kind s hc hs => exact hall
  | join howned =>
    intro y hy
    obtain ⟨c, hc, hrest⟩ := hall y hy
    exact ⟨c, Table.getElem?_snoc_of_some hc, hrest⟩
  | consume kind s hkind howned hs =>
    intro y hy
    obtain ⟨c, hc, hrest⟩ := hall y hy
    exact ⟨c, Table.getElem?_snoc_of_some hc, hrest⟩
  -- what a call has returned is noted when it finishes, and a call finishes once
  | stopped k i kind hc => exact fun y hy => records_setStage (hall y hy) hc nofun
  | reject k i kind e hc => exact fun y hy => records_setStage (hall y hy) hc nofun
  | take k kind hc hfree hslot => exact fun y hy => records_setStage (hall y hy) hc nofun
  | miss k kind hc hfree hslot => exact records_finish hall hc nofun
  | deliver k kind r hc hr => exact records_finish hall hc nofun
  | abandon k c hc hst =>
    refine fun y hy => records_setStage (hall y hy) hc fun x hx => ?_
    rcases hst with hst | hst <;> simp [hx] at hst

theorem records_of_run {capacity : Option ℕ+} {a : σ} {ls : List (JoinLabel σ ρ)}
    (h : (machine Q ρ E capacity a).Run ls w) : ∀ y ∈ w.returns, w.Records y :=
  h.invariant (I := fun w => ∀ y ∈ w.returns, w.Records y) nofun fun _ _ _ hall hstep =>
    records_step hall (act_cases hstep)

/-! ## Retrieving the actor

By the invariant at the end of the run: the first call that returned after the loop had ended was
the one that held the handle, or the handle was lost before. -/

omit [AsyncChannel Q] in
/-- At most one call returns the actor. -/
theorem Whereabouts.once {lost : Prop} (h : Whereabouts w lost) :
    (w.returns.filterMap fun y => y.2.actor).length ≤ 1 := by
  cases h with
  | stored hslot hfree hnone hkept => simp [hnone]
  | taken k hslot hone hnone hkept => simp [hnone]
  | delivered k x rest hslot hfree hjoined hret hrest hkept =>
    have hnil : rest.filterMap (fun y => y.2.actor) = [] := List.filterMap_eq_nil_iff.mpr hrest
    rw [hret, List.filterMap_cons]
    split <;> simp [hnil]
  | lost hslot hfree hnone hlost =>
    rw [List.filterMap_eq_nil_iff.mpr hnone]
    exact Nat.zero_le 1

omit [AsyncChannel Q] in
/-- A call that completes before any other has returned the actor returns it exactly if none was
dropped with the join handle. -/
theorem Whereabouts.first {lost : Prop} (h : Whereabouts w lost) {b : σ}
    (hb : w.actor.task.joined = some (some b)) {pre post : List (ℕ × Joined σ)} {x : Joined σ}
    (hret : w.returns = pre ++ (k, x) :: post) (hpre : ∀ y ∈ pre, y.2.actor = none) :
    x.actor = some b ↔ ¬ lost := by
  cases h with
  | stored hslot hfree hnone hkept => simp [hnone] at hret
  | taken j hslot hone hnone hkept => simp [hnone] at hret
  | delivered j z rest hslot hfree hjoined hret' hrest hkept =>
    have hz : z.actor = some b := Option.some.inj (hjoined.symm.trans hb)
    -- the call that delivered is the first one in the list, and the one in question is no later
    cases pre with
    | nil =>
      rw [hret', List.nil_append] at hret
      cases hret
      simp [hz, hkept]
    | cons y pre =>
      rw [hret', List.cons_append] at hret
      cases hret
      simp [hpre _ List.mem_cons_self] at hz
  | lost hslot hfree hnone hlost =>
    have hx : x.actor = none := hnone (k, x) (by simp [hret])
    simp [hx, hlost]

/-- A call that waits completes once the loop has ended, if no other call holds the lock. -/
theorem completes {r : Option σ} (hr : w.actor.task.joined = some r) {c : JoinCall σ}
    (hc : w.calls[k]? = some c) (hst : c.stage = .locking ∨ c.stage = .awaiting)
    (hothers : ∀ j, w.Holds j → j = k) (capacity : Option ℕ+) (a : σ) :
    ∃ ks w' x, ((machine Q ρ E capacity a).startingAt w).Run ks w' ∧ (∀ l ∈ ks, l = .poll k)
      ∧ w'.returns = w.returns ++ [(k, x)] := by
  -- with the handle in hand one poll is enough
  have hawait : ∀ {u : OwnedWorld Q σ ρ} {kind : JoinKind},
      u.calls[k]? = some ⟨kind, .awaiting⟩ → u.actor = w.actor →
      step E u (.poll k) = some (u.finish k (kind.result r)) := by
    intro u kind hcu hu
    simp [step, poll, hcu, hu, hr]
  rcases c with ⟨kind, st⟩
  rcases hst with hst | hst
  · change st = .locking at hst
    subst hst
    have hfree : w.locked = false := by
      rw [Bool.eq_false_iff]
      intro hlocked
      obtain ⟨j, hj⟩ := locked_iff.mp hlocked
      obtain rfl := hothers j hj
      simp [holds_iff hc, JoinCall.locks] at hj
    have hpoll : step E w (.poll k) = w.lock k kind := by simp [step, poll, hc]
    cases hslot : w.slot with
    | false =>
      have hmiss : step E w (.poll k) = some (w.finish k (kind.result none)) := by
        simp [hpoll, lock, hfree, hslot]
      exact ⟨[.poll k], _, _, .snoc .start hmiss, by simp, rfl⟩
    | true =>
      -- the first poll takes the join handle, the second one finds the loop ended
      have htake : step E w (.poll k) = some { w.setStage k .awaiting with slot := false } := by
        simp [hpoll, lock, hfree, hslot]
      have htaken : ({ w.setStage k .awaiting with slot := false } : OwnedWorld Q σ ρ).calls[k]?
          = some ⟨kind, .awaiting⟩ := Table.getElem?_modify_self hc
      exact ⟨[.poll k, .poll k], _, _, .snoc (.snoc .start htake) (hawait htaken rfl), by simp, rfl⟩
  · change st = .awaiting at hst
    subst hst
    exact ⟨[.poll k], _, _, .snoc .start (hawait hc rfl), by simp, rfl⟩

/-- **An owned actor is retrievable until a join that waits for it is dropped.** For both loops,
every capacity, every interleaving, and any number of calls of `join`, `consume` and `consume_sync`,
on an event loop that ends with `Ok(b)`: at most one call returns the actor; a call that goes on
waiting returns as soon as the lock is free; and one that returns when no call before it has
delivered the actor delivers it, if and only if no join future was dropped after it had taken the
join handle. -/
theorem retrievable_iff (E : EventLoop σ) (capacity : Option ℕ+) (a b : σ)
    {ls : List (JoinLabel σ ρ)} (h : (machine Q ρ E capacity a).Run ls w)
    (hend : w.actor.task.loop.pc = .returned (.ok b)) :
    (w.returns.filterMap fun y => y.2.actor).length ≤ 1
      ∧ (∀ k c, w.calls[k]? = some c → c.stage = .locking ∨ c.stage = .awaiting →
        (∀ j, w.Holds j → j = k) →
        ∃ ks w' x, ((machine Q ρ E capacity a).startingAt w).Run ks w' ∧ (∀ l ∈ ks, l = .poll k)
          ∧ w'.returns = w.returns ++ [(k, x)])
      ∧ ∀ pre k x post, w.returns = pre ++ (k, x) :: post → (∀ y ∈ pre, y.2.actor = none) →
        ∃ c, w.calls[k]? = some c ∧ (x = c.kind.result (some b)
          ↔ (machine Q ρ E capacity a).AllSteps ls fun u l _ => ¬ u.Forfeits l) := by
  have hb : w.actor.task.joined = some (some b) := by simp [LoopTask.joined, hend]
  have hw := whereabouts_of_run h
  refine ⟨hw.once, fun k c hc hst hothers => completes hb hc hst hothers capacity a, ?_⟩
  intro pre k x post hret hpre
  obtain ⟨c, hc, -, hx⟩ := records_of_run h (k, x) (by simp [hret])
  have hactor : x = c.kind.result (some b) ↔ x.actor = some b :=
    ⟨fun heq => by simp [heq], fun heq => hx.trans (congrArg _ heq)⟩
  refine ⟨c, hc, ?_⟩
  rw [hactor, hw.first hb hret hpre, not_not]

/-- An owned actor with the provided hooks. -/
def ownedActor : Machine (OwnedWorld ChannelState ℕ ℕ) (JoinLabel ℕ ℕ) :=
  machine ChannelState ℕ (.fromChannel (.provided 0)) none 0

/-- Call `k`, a `consume`, stops the actor, whose loop then ends. -/
def consumedBy (k : ℕ) : List (JoinLabel ℕ ℕ) :=
  [.begin .consume, .poll k, .poll k, .poll k, .actor .poll, .actor .poll, .actor .receive,
    .actor .poll, .actor .lower, .actor .fire, .actor .poll, .poll k]

/-- A join is given up before it is polled, and the actor is consumed. -/
def keptRun : List (JoinLabel ℕ ℕ) := [.begin .join, .abandon 0] ++ consumedBy 1 ++ [.poll 1]

theorem retrievable_kept :
    (ownedActor.after keptRun rfl).returns = [(1, .consumed (.ok 0))]
      ∧ ownedActor.AllSteps keptRun fun u l _ => ¬ u.Forfeits l := by
  have hret : (ownedActor.after keptRun rfl).returns = [(1, .consumed (.ok 0))] := rfl
  have hend : (ownedActor.after keptRun rfl).actor.task.loop.pc = .returned (.ok 0) := rfl
  obtain ⟨c, hc, hiff⟩ := (retrievable_iff _ _ _ 0 (ownedActor.run_after keptRun rfl) hend).2.2
    [] 1 _ [] hret nofun
  have hkind : (ownedActor.after keptRun rfl).calls[1]?
      = some ⟨.consume, .returned (.consumed (.ok 0))⟩ := rfl
  obtain rfl := Option.some.inj (hkind.symm.trans hc)
  exact ⟨hret, hiff.mp rfl⟩

/-- A join waits for the actor and is dropped; then come another join and a `consume`. -/
def lostRun : List (JoinLabel ℕ ℕ) :=
  [.begin .join, .poll 0, .abandon 0, .begin .join, .poll 1] ++ consumedBy 2

/-- The loop ends with `Ok`, the stop is accepted, and nobody gets the actor. -/
theorem lost_after_abandon :
    ∃ w, ownedActor.Run lostRun w ∧ w.actor.task.loop.pc = .returned (.ok 0)
      ∧ w.actor.flights.map Flight.stage = [.returned (.ok none)]
      ∧ w.returns = [(1, .joined none), (2, .consumed (.error .alreadyStopped))] :=
  ⟨_, .of_exec rfl, rfl, rfl, rfl⟩

end OwnedWorld

end Hannibal
