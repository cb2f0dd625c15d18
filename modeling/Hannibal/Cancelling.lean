import Hannibal.Joining

/-!
# Hannibal.Cancelling — who ends the task of an owned actor

With `async_runtime`, `ActorHandle::spawn` (`actor/handle.rs`) keeps the `Task` of the loop future
in an `Arc<async_lock::Mutex<Option<Task>>>`, of which the `OwningAddr` and every join future hold a
clone. A `Task` that is dropped cancels its future; `OwningAddr::detach` (`addr.rs`) takes it out of
the mutex and detaches it. `join` borrows the `OwningAddr` until its future is gone, so its calls
come one after the other; `consume` and `consume_sync` use it up.

* **`TaskWorld`** — an actor with its clients, the mutex, and the calls of its `OwningAddr`.
* **`reap`** — what happens with the last clone of the `Arc`.
* **`Forfeits`** — the steps that drop the `Task`.
* **`CustodyInv`** — where the `Task` is.
* **`task_custody`** — the theorem about every run.
-/

namespace Hannibal

open Lts Chan

/-- Where a call stands. -/
inductive HandleStage (σ : Type) where
  /-- in `self.addr.stop()?`, which is operation `i` of the actor -/
  | stopping (i : ℕ)
  /-- at `handle.lock().await`, or not polled yet -/
  | locking
  /-- the `Task` is taken, and awaited with the lock held -/
  | awaiting
  | returned (x : Joined σ)
  /-- the stop has failed -/
  | rejected (e : ActorError)
  /-- the loop future has panicked, and so does whoever awaits its `Task` -/
  | panicked
  /-- its future was dropped -/
  | abandoned

/-- A call of `join`, `consume` or `consume_sync`. -/
structure HandleCall (σ : Type) where
  kind : JoinKind
  stage : HandleStage σ

/-- The call is not over. It holds the `OwningAddr`, borrows it, or has a join future. -/
def HandleCall.live {σ : Type} (c : HandleCall σ) : Bool :=
  match c.stage with
  | .stopping _ | .locking | .awaiting => true
  | _ => false

/-- The call holds the lock. -/
def HandleCall.locks {σ : Type} (c : HandleCall σ) : Bool :=
  match c.stage with
  | .awaiting => true
  | _ => false

/-- The call is in its `stop`. -/
def HandleCall.stops {σ : Type} (c : HandleCall σ) : Bool :=
  match c.stage with
  | .stopping _ => true
  | _ => false

/-- The call has a handle of the actor in its hands. -/
def HandleCall.holdsAddr {σ : Type} (c : HandleCall σ) : Bool :=
  match c.kind, c.stage with
  | .consume, .stopping _ | .consume, .locking | .consume, .awaiting => true
  | .consumeSync, .stopping _ => true
  | _, _ => false

/-- An actor with its clients; whether its `OwningAddr` is still there, and the `Task` still in the
mutex; whether it was detached, or dropped; the calls begun so far; and what the completed ones have
returned, oldest first. -/
structure TaskWorld (Q : Type → Type) (σ ρ : Type) where
  actor : World Q σ ρ
  owned : Bool
  slot : Bool
  detached : Bool
  cancelled : Bool
  calls : List (HandleCall σ)
  returns : List (ℕ × Joined σ)

/-- Everything that can happen next. -/
inductive OwnerLabel (σ ρ : Type) where
  /-- the loop moves, or another client uses the actor -/
  | actor (l : Label σ ρ)
  /-- a call is begun; the `OwningAddr` is detached, or dropped -/
  | begin (kind : JoinKind)
  | detach
  | drop
  /-- call `k` is polled, or its future is dropped where it waits -/
  | poll (k : ℕ)
  | abandon (k : ℕ)

variable {Q : Type → Type} {σ ρ : Type}

namespace TaskWorld

/-- Some join future holds the lock. -/
def locked (w : TaskWorld Q σ ρ) : Bool := w.calls.any HandleCall.locks

/-- Some call is not over. -/
def busy (w : TaskWorld Q σ ρ) : Bool := w.calls.any HandleCall.live

/-- Other clients leave the `Addr` inside the `OwningAddr` alone, and the runtime drops the loop
future only when its `Task` was dropped. -/
def permitted (w : TaskWorld Q σ ρ) : Label σ ρ → Bool
  | .drop => decide (1 < w.actor.handles) || !(w.owned || w.calls.any HandleCall.holdsAddr)
  | .dropFuture => w.cancelled
  | _ => true

def setStage (w : TaskWorld Q σ ρ) (k : ℕ) (st : HandleStage σ) : TaskWorld Q σ ρ :=
  { w with calls := w.calls.modify k fun c => { c with stage := st } }

/-- Call `k` returns `x`, and with that it unlocks the mutex. -/
def finish (w : TaskWorld Q σ ρ) (k : ℕ) (x : Joined σ) : TaskWorld Q σ ρ :=
  { w.setStage k (.returned x) with returns := w.returns ++ [(k, x)] }

/-- `handle.lock().await.take()`, if the lock is free. -/
def lock (w : TaskWorld Q σ ρ) (k : ℕ) (kind : JoinKind) : Option (TaskWorld Q σ ρ) :=
  if w.locked then none
  else if w.slot then some { w.setStage k .awaiting with slot := false }
  else some (w.finish k (kind.result none))

/-- The mutex is dropped with the last clone of its `Arc`, and a `Task` that is still in it is
cancelled. -/
def reap (w : TaskWorld Q σ ρ) : TaskWorld Q σ ρ :=
  if w.slot && !(w.owned || w.busy) then { w with slot := false, cancelled := true } else w

variable [AsyncChannel Q]

/-- The actor as `create` leaves it, spawned and owned. -/
def init (Q : Type → Type) [AsyncChannel Q] (ρ : Type) (capacity : Option ℕ+) (a : σ) :
    TaskWorld Q σ ρ :=
  ⟨.init Q ρ capacity a, true, true, false, false, [], []⟩

/-- One step of call `k`. A `Task` that was cancelled panics as well when it is awaited. -/
def poll (E : EventLoop σ) (w : TaskWorld Q σ ρ) (k : ℕ) : Option (TaskWorld Q σ ρ) :=
  match w.calls[k]? with
  | some ⟨_, .stopping i⟩ =>
    match w.actor.flights[i]? with
    | none => none
    | some ⟨_, .returned (.ok _)⟩ => some (w.setStage k .locking)
    | some ⟨_, .returned (.error e)⟩ => some (w.setStage k (.rejected e))
    | some _ => (w.actor.step E (.advance i)).map fun s => { w with actor := s }
  | some ⟨kind, .locking⟩ => w.lock k kind
  | some ⟨kind, .awaiting⟩ =>
    match w.actor.task.loop.pc with
    | .returned (.ok a) => some (w.finish k (kind.result (some a)))
    | .returned (.error _) => some (w.finish k (kind.result none))
    | .panicked | .dropped => some (w.setStage k .panicked)
    | _ => none
  | _ => none

/-- One step, before the mutex is dropped. `detach` takes the lock with `lock_blocking`. -/
def act (E : EventLoop σ) (w : TaskWorld Q σ ρ) : OwnerLabel σ ρ → Option (TaskWorld Q σ ρ)
  | .actor l =>
    if w.permitted l then (w.actor.step E l).map fun s => { w with actor := s } else none
  | .begin .join =>
    if w.owned && !w.busy then some { w with calls := w.calls ++ [⟨.join, .locking⟩] } else none
  | .begin kind =>
    if w.owned && !w.busy then (w.actor.step E (.begin Addr.stop)).map fun s =>
      { w with
        actor := s
        owned := false
        calls := w.calls ++ [⟨kind, .stopping w.actor.flights.length⟩] }
    else none
  | .detach =>
    if w.owned && !w.busy && !w.locked then
      some { w with owned := false, slot := false, detached := w.slot }
    else none
  | .drop => if w.owned && !w.busy then some { w with owned := false } else none
  | .poll k => w.poll E k
  | .abandon k =>
    match w.calls[k]? with
    | some ⟨_, .locking⟩ => some (w.setStage k .abandoned)
    | some ⟨_, .awaiting⟩ => some { w.setStage k .abandoned with cancelled := true }
    | _ => none

def step (E : EventLoop σ) (w : TaskWorld Q σ ρ) (l : OwnerLabel σ ρ) : Option (TaskWorld Q σ ρ) :=
  (w.act E l).map reap

def machine (Q : Type → Type) [AsyncChannel Q] (ρ : Type) (E : EventLoop σ) (capacity : Option ℕ+)
    (a : σ) : Machine (TaskWorld Q σ ρ) (OwnerLabel σ ρ) :=
  ⟨init Q ρ capacity a, step E⟩

/-- A step that drops the `Task`: with the `OwningAddr`, or with what is left of a `consume` or
`consume_sync`, while it is in the mutex; or with the join future that has taken it. -/
def Forfeits (w : TaskWorld Q σ ρ) : OwnerLabel σ ρ → Prop
  | .drop => w.slot = true
  | .poll k => w.slot = true ∧ ∃ kind i op e, w.calls[k]? = some ⟨kind, .stopping i⟩
      ∧ w.actor.flights[i]? = some ⟨op, .returned (.error e)⟩
  | .abandon k => ∃ c, w.calls[k]? = some c
      ∧ (c.stage = .awaiting ∨ (c.stage = .locking ∧ w.owned = false ∧ w.slot = true))
  | _ => False

/-! ## What one step can do -/

/-- Everything one step can do, before the mutex is dropped. -/
inductive Act (E : EventLoop σ) (w : TaskWorld Q σ ρ) :
    OwnerLabel σ ρ → TaskWorld Q σ ρ → Prop where
  | actor (l : Label σ ρ) (s : World Q σ ρ) (hl : w.permitted l = true)
      (hs : w.actor.step E l = some s) : Act E w (.actor l) { w with actor := s }
  | join (howned : w.owned = true) (hbusy : w.busy = false) :
      Act E w (.begin .join) { w with calls := w.calls ++ [⟨.join, .locking⟩] }
  | consume (kind : JoinKind) (s : World Q σ ρ) (howned : w.owned = true) (hbusy : w.busy = false)
      (hs : w.actor.step E (.begin Addr.stop) = some s) :
      Act E w (.begin kind) { w with
        actor := s
        owned := false
        calls := w.calls ++ [⟨kind, .stopping w.actor.flights.length⟩] }
  | detach (howned : w.owned = true) (hbusy : w.busy = false) :
      Act E w .detach { w with owned := false, slot := false, detached := w.slot }
  | drop (howned : w.owned = true) (hbusy : w.busy = false) :
      Act E w .drop { w with owned := false }
  | stop (k i : ℕ) (kind : JoinKind) (st : Stage ρ) (op : Operation σ ρ) (s : World Q σ ρ)
      (hc : w.calls[k]? = some ⟨kind, .stopping i⟩) (hf : w.actor.flights[i]? = some ⟨op, st⟩)
      (hst : ∀ res, st ≠ .returned res) (hs : w.actor.step E (.advance i) = some s) :
      Act E w (.poll k) { w with actor := s }
  | stopped (k i : ℕ) (kind : JoinKind) (op : Operation σ ρ) (r : Option ρ)
      (hc : w.calls[k]? = some ⟨kind, .stopping i⟩)
      (hf : w.actor.flights[i]? = some ⟨op, .returned (.ok r)⟩) :
      Act E w (.poll k) (w.setStage k .locking)
  | reject (k i : ℕ) (kind : JoinKind) (op : Operation σ ρ) (e : ActorError)
      (hc : w.calls[k]? = some ⟨kind, .stopping i⟩)
      (hf : w.actor.flights[i]? = some ⟨op, .returned (.error e)⟩) :
      Act E w (.poll k) (w.setStage k (.rejected e))
  | take (k : ℕ) (kind : JoinKind) (hc : w.calls[k]? = some ⟨kind, .locking⟩)
      (hslot : w.slot = true) :
      Act E w (.poll k) { w.setStage k .awaiting with slot := false }
  | miss (k : ℕ) (kind : JoinKind) (hc : w.calls[k]? = some ⟨kind, .locking⟩)
      (hslot : w.slot = false) :
      Act E w (.poll k) (w.finish k (kind.result none))
  | deliver (k : ℕ) (kind : JoinKind) (r : Option σ) (hc : w.calls[k]? = some ⟨kind, .awaiting⟩)
      (hended : w.actor.task.loop.pc.ended = true) (hr : w.actor.task.joined = some r) :
      Act E w (.poll k) (w.finish k (kind.result r))
  | panicked (k : ℕ) (kind : JoinKind) (hc : w.calls[k]? = some ⟨kind, .awaiting⟩)
      (hpc : w.actor.task.loop.pc = .panicked ∨ w.actor.task.loop.pc = .dropped) :
      Act E w (.poll k) (w.setStage k .panicked)
  | leave (k : ℕ) (kind : JoinKind) (hc : w.calls[k]? = some ⟨kind, .locking⟩) :
      Act E w (.abandon k) (w.setStage k .abandoned)
  | abandon (k : ℕ) (kind : JoinKind) (hc : w.calls[k]? = some ⟨kind, .awaiting⟩) :
      Act E w (.abandon k) { w.setStage k .abandoned with cancelled := true }

variable {E : EventLoop σ} {w v w' : TaskWorld Q σ ρ} {l : OwnerLabel σ ρ} {k : ℕ}

theorem act_of_poll (h : w.poll E k = some w') : Act E w (.poll k) w' := by
  unfold poll at h
  split at h
  · next kind i hc =>
    split at h
    · cases h
    · next op r hf => cases h; exact .stopped k i kind op r hc hf
    · next op e hf => cases h; exact .reject k i kind op e hc hf
    · next f hok herr hf =>
      obtain ⟨s, hs, rfl⟩ := Option.map_eq_some_iff.mp h
      obtain ⟨op, st⟩ := f
      refine .stop k i kind st op s hc hf ?_ hs
      rintro (e | r) rfl
      · exact herr op e rfl
      · exact hok op r rfl
  · next kind hc =>
    unfold lock at h
    split at h
    · cases h
    · split at h
      · next hslot => cases h; exact .take k kind hc hslot
      · next hslot => cases h; exact .miss k kind hc (by simpa using hslot)
  · next kind hc =>
    split at h
    · next a hpc =>
      cases h
      exact .deliver k kind (some a) hc (by simp [hpc, Pc.ended]) (by simp [LoopTask.joined, hpc])
    · next e hpc =>
      cases h
      exact .deliver k kind none hc (by simp [hpc, Pc.ended]) (by simp [LoopTask.joined, hpc])
    · next hpc => cases h; exact .panicked k kind hc (.inl hpc)
    · next hpc => cases h; exact .panicked k kind hc (.inr hpc)
    · cases h
  · cases h

/-- **Nothing else happens.** -/
theorem act_cases (h : w.act E l = some w') : Act E w l w' := by
  cases l with
  | actor l =>
    simp only [act] at h
    split at h
    · next hl =>
      obtain ⟨s, hs, rfl⟩ := Option.map_eq_some_iff.mp h
      exact .actor l s hl hs
    · cases h
  | begin kind =>
    cases kind with
    | join =>
      simp only [act, Bool.and_eq_true, Bool.not_eq_true'] at h
      split at h
      · next hfree => cases h; exact .join hfree.1 hfree.2
      · cases h
    | consume | consumeSync =>
      simp only [act, Bool.and_eq_true, Bool.not_eq_true'] at h
      split at h
      · next hfree =>
        obtain ⟨s, hs, rfl⟩ := Option.map_eq_some_iff.mp h
        exact .consume _ s hfree.1 hfree.2 hs
      · cases h
  | detach =>
    simp only [act, Bool.and_eq_true, Bool.not_eq_true'] at h
    split at h
    · next hfree => cases h; exact .detach hfree.1.1 hfree.1.2
    · cases h
  | drop =>
    simp only [act, Bool.and_eq_true, Bool.not_eq_true'] at h
    split at h
    · next hfree => cases h; exact .drop hfree.1 hfree.2
    · cases h
  | poll k => exact act_of_poll h
  | abandon k =>
    simp only [act] at h
    split at h
    · next kind hc => cases h; exact .leave k kind hc
    · next kind hc => cases h; exact .abandon k kind hc
    · cases h

theorem step_cases (h : w.step E l = some w') : ∃ v, Act E w l v ∧ w' = v.reap := by
  obtain ⟨v, hv, rfl⟩ := Option.map_eq_some_iff.mp h
  exact ⟨v, act_cases hv, rfl⟩

/-! ## The calls

`At p k` says that call `k` meets `p`. A step begins one call at the end of the list or moves one
on, so what the others meet does not change. -/

/-- Call `k` meets `p`. -/
def At (w : TaskWorld Q σ ρ) (p : HandleCall σ → Bool) (k : ℕ) : Prop :=
  ∃ c, w.calls[k]? = some c ∧ p c = true

section Calls

variable {p : HandleCall σ → Bool} {c : HandleCall σ} {st : HandleStage σ}

omit [AsyncChannel Q] in
theorem any_iff : w.calls.any p = true ↔ ∃ k, w.At p k := by
  unfold At
  rw [List.any_eq_true]
  constructor
  · rintro ⟨c, hc, hp⟩
    obtain ⟨k, hk⟩ := List.mem_iff_getElem?.mp hc
    exact ⟨k, c, hk, hp⟩
  · rintro ⟨k, c, hk, hp⟩
    exact ⟨c, List.mem_of_getElem? hk, hp⟩

omit [AsyncChannel Q] in
theorem at_snoc (hcs : v.calls = w.calls ++ [c]) (j : ℕ) :
    v.At p j ↔ w.At p j ∨ (j = w.calls.length ∧ p c = true) := by
  unfold At
  simp only [hcs, Table.getElem?_snoc]
  constructor
  · rintro ⟨d, hd | ⟨hj, rfl⟩, hp⟩
    · exact .inl ⟨d, hd, hp⟩
    · exact .inr ⟨hj, hp⟩
  · rintro (⟨d, hd, hp⟩ | ⟨hj, hp⟩)
    · exact ⟨d, .inl hd, hp⟩
    · exact ⟨c, .inr ⟨hj, rfl⟩, hp⟩

omit [AsyncChannel Q] in
theorem at_modify (hcs : v.calls = w.calls.modify k fun c => { c with stage := st })
    (hc : w.calls[k]? = some c) (j : ℕ) :
    v.At p j ↔ (j ≠ k ∧ w.At p j) ∨ (j = k ∧ p ⟨c.kind, st⟩ = true) := by
  unfold At
  rw [hcs]
  by_cases hjk : j = k
  · subst hjk
    simp [Table.getElem?_modify_self hc]
  · simp [Table.getElem?_modify_of_ne (Ne.symm hjk), hjk]

omit [AsyncChannel Q] in
theorem at_iff (hc : w.calls[k]? = some c) : w.At p k ↔ p c = true := by
  unfold At
  simp [hc]

omit [AsyncChannel Q] in
/-- A call that goes on meets `p` only if it did before. -/
theorem at_of_modify (hcs : v.calls = w.calls.modify k fun c => { c with stage := st })
    (hc : w.calls[k]? = some c) (hst : p ⟨c.kind, st⟩ = true → p c = true) {j : ℕ} (hj : v.At p j) :
    w.At p j := by
  rcases (at_modify hcs hc j).mp hj with ⟨-, hj⟩ | ⟨rfl, hj⟩
  · exact hj
  · exact (at_iff hc).mpr (hst hj)

omit [AsyncChannel Q] in
/-- A call that has the lock is not over. -/
theorem live_of_locks (h : w.At HandleCall.locks k) : w.At HandleCall.live k := by
  obtain ⟨⟨kind, st⟩, hc, hlocks⟩ := h
  cases st <;> first | exact ⟨_, hc, rfl⟩ | cases hlocks

end Calls

/-! ## Where the task is

At any moment the `Task` is in one place: in the mutex, in the hands of the call that has locked it,
used up by a call that got the actor, detached, or cancelled. `Custody` has one constructor for
each, and `Transfer` one for each way from one to another. -/

/-- The mutex has the `Task`; the one call that awaits it has it; that call has seen the loop future
end; it was detached; or it was dropped. -/
inductive Custody (w : TaskWorld Q σ ρ) : Prop where
  | stored (hslot : w.slot = true) (hfree : ∀ j, ¬ w.At HandleCall.locks j)
      (hdetached : w.detached = false) (hcancelled : w.cancelled = false)
      (hnone : ∀ y ∈ w.returns, y.2.actor = none)
  | taken (k : ℕ) (hslot : w.slot = false) (hone : ∀ j, w.At HandleCall.locks j ↔ j = k)
      (hdetached : w.detached = false) (hcancelled : w.cancelled = false)
      (hnone : ∀ y ∈ w.returns, y.2.actor = none)
  | used (hslot : w.slot = false) (hfree : ∀ j, ¬ w.At HandleCall.locks j)
      (hdetached : w.detached = false) (hcancelled : w.cancelled = false)
      (hended : w.actor.task.loop.pc.ended = true)
      (hret : (w.returns.filterMap fun y => y.2.actor) = (w.actor.task.joined.join).toList)
  | detached (hslot : w.slot = false) (hfree : ∀ j, ¬ w.At HandleCall.locks j)
      (hdetached : w.detached = true) (hcancelled : w.cancelled = false) (howned : w.owned = false)
      (hnone : ∀ y ∈ w.returns, y.2.actor = none)
  | cancelled (hslot : w.slot = false) (hfree : ∀ j, ¬ w.At HandleCall.locks j)
      (hdetached : w.detached = false) (hcancelled : w.cancelled = true)
      (hnone : ∀ y ∈ w.returns, y.2.actor = none)

/-- The calls come one after the other, one that stops the actor has used up the `OwningAddr`, the
`Task` is in one place, somebody has a clone of the `Arc` it is in, and only a `Task` that was
dropped has its future dropped. -/
structure CustodyInv (w : TaskWorld Q σ ρ) : Prop where
  alone : ∀ j k, w.At HandleCall.live j → w.At HandleCall.live k → j = k
  given : ∀ j, w.At HandleCall.stops j → w.owned = false
  custody : Custody w
  kept : w.slot = true → w.owned = true ∨ w.busy = true
  dropped : w.actor.task.loop.pc = .dropped → w.cancelled = true

theorem custodyInv_init (capacity : Option ℕ+) (a : σ) : CustodyInv (init Q ρ capacity a) where
  alone j k hj := by
    obtain ⟨c, hc, -⟩ := hj
    simp [init] at hc
  given j hj := by
    obtain ⟨c, hc, -⟩ := hj
    simp [init] at hc
  custody := by
    refine .stored rfl (fun j hj => ?_) rfl rfl nofun
    obtain ⟨c, hc, -⟩ := hj
    simp [init] at hc
  kept _ := .inl rfl
  dropped h := by simp [init, World.init, LoopTask.init, LoopState.init] at h

/-- What a step does with the `Task`, before the mutex is dropped. -/
inductive Transfer (w v : TaskWorld Q σ ρ) : Prop where
  | kept (hslot : v.slot = w.slot) (hlocks : ∀ j, v.At HandleCall.locks j ↔ w.At HandleCall.locks j)
      (hdetached : v.detached = w.detached) (hcancelled : v.cancelled = w.cancelled)
      (hret : v.returns = w.returns)
  | take (k : ℕ) (hslot : w.slot = true) (hslot' : v.slot = false)
      (hlocks : ∀ j, v.At HandleCall.locks j ↔ j = k ∨ w.At HandleCall.locks j)
      (hdetached : v.detached = w.detached) (hcancelled : v.cancelled = w.cancelled)
      (hret : v.returns = w.returns)
  | miss (k : ℕ) (x : Joined σ) (hslot : w.slot = false) (hslot' : v.slot = false)
      (hlocks : ∀ j, v.At HandleCall.locks j ↔ w.At HandleCall.locks j)
      (hdetached : v.detached = w.detached) (hcancelled : v.cancelled = w.cancelled)
      (hx : x.actor = none) (hret : v.returns = w.returns ++ [(k, x)])
  | deliver (k : ℕ) (x : Joined σ) (hk : w.At HandleCall.locks k) (hslot : v.slot = w.slot)
      (hlocks : ∀ j, v.At HandleCall.locks j ↔ j ≠ k ∧ w.At HandleCall.locks j)
      (hdetached : v.detached = w.detached) (hcancelled : v.cancelled = w.cancelled)
      (hended : v.actor.task.loop.pc.ended = true) (hr : v.actor.task.joined = some x.actor)
      (hret : v.returns = w.returns ++ [(k, x)])
  | panicked (k : ℕ) (hk : w.At HandleCall.locks k) (hslot : v.slot = w.slot)
      (hlocks : ∀ j, v.At HandleCall.locks j ↔ j ≠ k ∧ w.At HandleCall.locks j)
      (hdetached : v.detached = w.detached) (hcancelled : v.cancelled = w.cancelled)
      (hended : v.actor.task.loop.pc.ended = true) (hr : v.actor.task.joined = some none)
      (hret : v.returns = w.returns)
  | abandon (k : ℕ) (hk : w.At HandleCall.locks k) (hslot : v.slot = w.slot)
      (hlocks : ∀ j, v.At HandleCall.locks j ↔ j ≠ k ∧ w.At HandleCall.locks j)
      (hdetached : v.detached = w.detached) (hcancelled : v.cancelled = true)
      (hret : v.returns = w.returns)
  | detach (howned : w.owned = true) (howned' : v.owned = false) (hslot' : v.slot = false)
      (hfree : ∀ j, ¬ w.At HandleCall.locks j)
      (hlocks : ∀ j, ¬ v.At HandleCall.locks j) (hdetached : v.detached = w.slot)
      (hcancelled : v.cancelled = w.cancelled) (hret : v.returns = w.returns)

omit [AsyncChannel Q] in
theorem not_locks_of_idle (h : w.busy = false) (j : ℕ) : ¬ w.At HandleCall.locks j := fun hj => by
  have hbusy : w.busy = true := any_iff.mpr ⟨j, live_of_locks hj⟩
  simp [h] at hbusy

omit [AsyncChannel Q] in
/-- A call that does not hold the lock goes on without it. -/
theorem locks_waiting {c : HandleCall σ} {st : HandleStage σ}
    (hcs : v.calls = w.calls.modify k fun c => { c with stage := st }) (hc : w.calls[k]? = some c)
    (hwas : c.locks = false) (hst : (⟨c.kind, st⟩ : HandleCall σ).locks = false) (j : ℕ) :
    v.At HandleCall.locks j ↔ w.At HandleCall.locks j := by
  rw [at_modify hcs hc, hst]
  simp only [Bool.false_eq_true, and_false, or_false, and_iff_right_iff_imp]
  rintro hj rfl
  simp [(at_iff hc).mp hj] at hwas

omit [AsyncChannel Q] in
/-- A call that holds the lock gives it back. -/
theorem locks_released {c : HandleCall σ} {st : HandleStage σ}
    (hcs : v.calls = w.calls.modify k fun c => { c with stage := st }) (hc : w.calls[k]? = some c)
    (hst : (⟨c.kind, st⟩ : HandleCall σ).locks = false) (j : ℕ) :
    v.At HandleCall.locks j ↔ j ≠ k ∧ w.At HandleCall.locks j := by
  rw [at_modify hcs hc, hst]
  simp

/-- The seven kinds of step. -/
theorem transfer_of_act (h : Act E w l v) : Transfer w v := by
  cases h with
  | actor l s hl hs => exact .kept rfl (fun _ => .rfl) rfl rfl rfl
  | join howned hbusy =>
    exact .kept rfl (fun j => (at_snoc rfl j).trans (by simp [HandleCall.locks])) rfl rfl rfl
  | consume kind s howned hbusy hs =>
    exact .kept rfl (fun j => (at_snoc rfl j).trans (by simp [HandleCall.locks])) rfl rfl rfl
  | detach howned hbusy =>
    exact .detach howned rfl rfl (not_locks_of_idle hbusy) (not_locks_of_idle hbusy) rfl rfl rfl
  | drop howned hbusy => exact .kept rfl (fun _ => .rfl) rfl rfl rfl
  | stop k i kind st op s hc hf hst hs => exact .kept rfl (fun _ => .rfl) rfl rfl rfl
  | stopped k i kind op r hc hf => exact .kept rfl (locks_waiting rfl hc rfl rfl) rfl rfl rfl
  | reject k i kind op e hc hf => exact .kept rfl (locks_waiting rfl hc rfl rfl) rfl rfl rfl
  | take k kind hc hslot =>
    refine .take k hslot rfl (fun j => (at_modify (w := w) rfl hc j).trans ?_) rfl rfl rfl
    have hnot : ¬ w.At HandleCall.locks k := by simp [at_iff hc, HandleCall.locks]
    constructor
    · rintro (⟨-, hj⟩ | ⟨hj, -⟩)
      · exact .inr hj
      · exact .inl hj
    · rintro (hj | hj)
      · exact .inr ⟨hj, rfl⟩
      · exact .inl ⟨fun hjk => hnot (hjk ▸ hj), hj⟩
  | miss k kind hc hslot =>
    exact .miss k _ hslot hslot (locks_waiting rfl hc rfl rfl) rfl rfl (kind.result_actor none) rfl
  | deliver k kind r hc hended hr =>
    exact .deliver k _ ((at_iff hc).mpr rfl) rfl (locks_released rfl hc rfl) rfl rfl hended
      (by rw [kind.result_actor]; exact hr) rfl
  | panicked k kind hc hpc =>
    refine .panicked k ((at_iff hc).mpr rfl) rfl (locks_released rfl hc rfl) rfl rfl ?_ ?_ rfl
    · show w.actor.task.loop.pc.ended = true
      rcases hpc with hpc | hpc <;> rw [hpc] <;> rfl
    · show w.actor.task.joined = some none
      rcases hpc with hpc | hpc <;> simp [LoopTask.joined, hpc]
  | leave k kind hc => exact .kept rfl (locks_waiting rfl hc rfl rfl) rfl rfl rfl
  | abandon k kind hc =>
    exact .abandon k ((at_iff hc).mpr rfl) rfl (locks_released rfl hc rfl) rfl rfl rfl

/-- Of a step the loop future sees one of its own, or nothing. -/
theorem task_of_act (h : Act E w l v) : v.actor.task = w.actor.task
    ∨ ∃ tl, LoopTask.Step E w.actor.task tl v.actor.task := by
  have hstep : ∀ {k : Label σ ρ} {s : World Q σ ρ}, w.actor.step E k = some s →
      s.task = w.actor.task ∨ ∃ tl, LoopTask.Step E w.actor.task tl s.task := fun hs =>
    (World.task_of_step hs).imp_right fun ⟨tl, ht⟩ => ⟨tl, LoopTask.step_cases ht⟩
  cases h with
  | actor l s hl hs => exact hstep hs
  | consume kind s howned hbusy hs => exact hstep hs
  | stop k i kind st op s hc hf hst hs => exact hstep hs
  | _ => exact .inl rfl

/-- A loop future that has ended stays as it is. -/
theorem loop_of_ended (h : Act E w l v) (hended : w.actor.task.loop.pc.ended = true) :
    v.actor.task.loop = w.actor.task.loop := by
  rcases task_of_act h with hsame | ⟨tl, ht⟩
  · rw [hsame]
  · generalize v.actor.task = t at ht
    cases ht with
    | advance s' hs hnotify => simp [EventLoop.not_ended_of_step hs] at hended
    | receive i s' hs => simp [EventLoop.not_ended_of_step hs] at hended
    | drop hend hnotify => simp [hend] at hended
    | _ => rfl

/-- The `OwningAddr` does not come back. -/
theorem owned_of_act (h : Act E w l v) (hv : v.owned = true) : w.owned = true := by
  cases h with
  | consume | detach | drop => assumption
  | _ => exact hv

/-- **The step lemma of the `Task`.** -/
theorem custody_act (hw : Custody w) (h : Act E w l v) : Custody v := by
  cases hw with
  -- in the mutex: the next call that locks it, or `detach`, takes it out
  | stored hslot hfree hdetached hcancelled hnone =>
    cases transfer_of_act h with
    | kept hs hlocks hd hc hret =>
      exact .stored (hs.trans hslot) (fun j hj => hfree j ((hlocks j).mp hj)) (hd.trans hdetached)
        (hc.trans hcancelled) (hret ▸ hnone)
    | take k hs hs' hlocks hd hc hret =>
      exact .taken k hs' (fun j => (hlocks j).trans (or_iff_left (hfree j))) (hd.trans hdetached)
        (hc.trans hcancelled) (hret ▸ hnone)
    | miss k x hs => simp [hslot] at hs
    | deliver k x hk => exact absurd hk (hfree k)
    | panicked k hk => exact absurd hk (hfree k)
    | abandon k hk => exact absurd hk (hfree k)
    | detach _ howned' hs' _ hlocks hd hc hret =>
      exact .detached hs' hlocks (hd.trans hslot) (hc.trans hcancelled) howned' (hret ▸ hnone)
  -- one call has it: the others find the mutex empty and return nothing
  | taken k hslot hone hdetached hcancelled hnone =>
    have hgone : ∀ {j}, w.At HandleCall.locks j →
        (∀ i, v.At HandleCall.locks i ↔ i ≠ j ∧ w.At HandleCall.locks i) →
        ∀ i, ¬ v.At HandleCall.locks i := fun hj hlocks i hi =>
      ((hlocks i).mp hi).1 (((hone i).mp ((hlocks i).mp hi).2).trans ((hone _).mp hj).symm)
    have hnil : (w.returns.filterMap fun y => y.2.actor) = [] := List.filterMap_eq_nil_iff.mpr hnone
    cases transfer_of_act h with
    | kept hs hlocks hd hc hret =>
      exact .taken k (hs.trans hslot) (fun j => (hlocks j).trans (hone j)) (hd.trans hdetached)
        (hc.trans hcancelled) (hret ▸ hnone)
    | take j hs => simp [hslot] at hs
    | miss j x hs hs' hlocks hd hc hx hret =>
      refine .taken k hs' (fun j => (hlocks j).trans (hone j)) (hd.trans hdetached)
        (hc.trans hcancelled) ?_
      rw [hret]
      exact List.forall_mem_append.mpr ⟨hnone, List.forall_mem_singleton.mpr hx⟩
    | deliver j x hj hs hlocks hd hc hended hr hret =>
      refine .used (hs.trans hslot) (hgone hj hlocks) (hd.trans hdetached)
        (hc.trans hcancelled) hended ?_
      rw [hret, List.filterMap_append, hnil, hr]
      cases hx : x.actor <;> simp [hx]
    | panicked j hj hs hlocks hd hc hended hr hret =>
      refine .used (hs.trans hslot) (hgone hj hlocks) (hd.trans hdetached)
        (hc.trans hcancelled) hended ?_
      rw [hret, hnil, hr]
      rfl
    | abandon j hj hs hlocks hd hc hret =>
      exact .cancelled (hs.trans hslot) (hgone hj hlocks) (hd.trans hdetached) hc (hret ▸ hnone)
    | detach _ _ hs' hfree => exact absurd ((hone k).mpr rfl) (hfree k)
  -- the loop future has ended, so what it returned stays what the one call got
  | used hslot hfree hdetached hcancelled hended hret =>
    have hloop := loop_of_ended h hended
    have hended' : v.actor.task.loop.pc.ended = true := hloop ▸ hended
    have hjoined : v.actor.task.joined = w.actor.task.joined := by
      rw [LoopTask.joined, LoopTask.joined, hloop]
    cases transfer_of_act h with
    | kept hs hlocks hd hc hret' =>
      exact .used (hs.trans hslot) (fun j hj => hfree j ((hlocks j).mp hj)) (hd.trans hdetached)
        (hc.trans hcancelled) hended' (by rw [hret', hjoined]; exact hret)
    | take k hs => simp [hslot] at hs
    | miss k x hs hs' hlocks hd hc hx hret' =>
      refine .used hs' (fun j hj => hfree j ((hlocks j).mp hj)) (hd.trans hdetached)
        (hc.trans hcancelled) hended' ?_
      rw [hret', List.filterMap_append, hjoined, hret]
      simp [hx]
    | deliver k x hk => exact absurd hk (hfree k)
    | panicked k hk => exact absurd hk (hfree k)
    | abandon k hk => exact absurd hk (hfree k)
    | detach _ _ hs' _ hlocks hd hc hret' =>
      exact .used hs' hlocks (hd.trans hslot) (hc.trans hcancelled) hended'
        (by rw [hret', hjoined]; exact hret)
  -- `detach` uses up the `OwningAddr`, so it cannot happen twice
  | detached hslot hfree hdetached hcancelled howned hnone =>
    have howned' : v.owned = false := Bool.eq_false_iff.mpr fun hv => by
      exact absurd (owned_of_act h hv) (by simp [howned])
    cases transfer_of_act h with
    | kept hs hlocks hd hc hret =>
      exact .detached (hs.trans hslot) (fun j hj => hfree j ((hlocks j).mp hj)) (hd.trans hdetached)
        (hc.trans hcancelled) howned' (hret ▸ hnone)
    | take k hs => simp [hslot] at hs
    | miss k x hs hs' hlocks hd hc hx hret =>
      refine .detached hs' (fun j hj => hfree j ((hlocks j).mp hj)) (hd.trans hdetached)
        (hc.trans hcancelled) howned' ?_
      rw [hret]
      exact List.forall_mem_append.mpr ⟨hnone, List.forall_mem_singleton.mpr hx⟩
    | deliver k x hk => exact absurd hk (hfree k)
    | panicked k hk => exact absurd hk (hfree k)
    | abandon k hk => exact absurd hk (hfree k)
    | detach hwas => simp [howned] at hwas
  | cancelled hslot hfree hdetached hcancelled hnone =>
    cases transfer_of_act h with
    | kept hs hlocks hd hc hret =>
      exact .cancelled (hs.trans hslot) (fun j hj => hfree j ((hlocks j).mp hj))
        (hd.trans hdetached)
        (hc.trans hcancelled) (hret ▸ hnone)
    | take k hs => simp [hslot] at hs
    | miss k x hs hs' hlocks hd hc hx hret =>
      refine .cancelled hs' (fun j hj => hfree j ((hlocks j).mp hj)) (hd.trans hdetached)
        (hc.trans hcancelled) ?_
      rw [hret]
      exact List.forall_mem_append.mpr ⟨hnone, List.forall_mem_singleton.mpr hx⟩
    | deliver k x hk => exact absurd hk (hfree k)
    | panicked k hk => exact absurd hk (hfree k)
    | abandon k hk => exact absurd hk (hfree k)
    | detach _ _ hs' _ hlocks hd hc hret =>
      exact .cancelled hs' hlocks (hd.trans hslot) (hc.trans hcancelled) (hret ▸ hnone)

/-! ## The calls come one after the other

`join` borrows the `OwningAddr` mutably and the others take it by value, so no call begins before
the last one is over. -/

/-- A call begins only when no other is left, and one that is over stays so. -/
theorem alone_of_act (halone : ∀ i j, w.At HandleCall.live i → w.At HandleCall.live j → i = j)
    (h : Act E w l v) (i j : ℕ) (hi : v.At HandleCall.live i) (hj : v.At HandleCall.live j) :
    i = j := by
  -- a call that has just begun is the only one that is live
  have hsnoc : ∀ (c : HandleCall σ) (u : TaskWorld Q σ ρ), u.calls = w.calls ++ [c] →
      w.busy = false → ∀ j, u.At HandleCall.live j → j = w.calls.length := fun c u hcs hbusy j hj =>
    ((at_snoc hcs j).mp hj).elim
      (fun hold => by simp [busy, any_iff.mpr ⟨j, hold⟩] at hbusy) And.left
  have hmodify : ∀ {k : ℕ} {c : HandleCall σ} {st : HandleStage σ} {u : TaskWorld Q σ ρ},
      u.calls = w.calls.modify k (fun c => { c with stage := st }) → w.calls[k]? = some c →
      c.live = true → u.At HandleCall.live i → u.At HandleCall.live j → i = j :=
    fun hcs hc hlive hi hj =>
      halone i j (at_of_modify hcs hc (fun _ => hlive) hi) (at_of_modify hcs hc (fun _ => hlive) hj)
  cases h with
  | actor | detach | drop | stop => exact halone i j hi hj
  | join howned hbusy | consume kind s howned hbusy hs =>
    exact (hsnoc _ _ rfl hbusy i hi).trans (hsnoc _ _ rfl hbusy j hj).symm
  | stopped k i' kind op r hc hf => exact hmodify rfl hc rfl hi hj
  | reject k i' kind op e hc hf => exact hmodify rfl hc rfl hi hj
  | take k kind hc hslot => exact hmodify rfl hc rfl hi hj
  | miss k kind hc hslot => exact hmodify rfl hc rfl hi hj
  | deliver k kind r hc hended hr => exact hmodify rfl hc rfl hi hj
  | panicked k kind hc hpc => exact hmodify rfl hc rfl hi hj
  | leave k kind hc => exact hmodify rfl hc rfl hi hj
  | abandon k kind hc => exact hmodify rfl hc rfl hi hj

/-- `consume` and `consume_sync` take the `OwningAddr` with them. -/
theorem given_of_act (hgiven : ∀ j, w.At HandleCall.stops j → w.owned = false)
    (h : Act E w l v) (j : ℕ)
    (hj : v.At HandleCall.stops j) : v.owned = false := by
  have hmodify : ∀ {k : ℕ} {c : HandleCall σ} {st : HandleStage σ} {u : TaskWorld Q σ ρ},
      u.calls = w.calls.modify k (fun c => { c with stage := st }) → w.calls[k]? = some c →
      (⟨c.kind, st⟩ : HandleCall σ).stops = false → u.At HandleCall.stops j → w.owned = false :=
    fun hcs hc hst hj => hgiven j (at_of_modify hcs hc (fun hs => by simp [hst] at hs) hj)
  cases h with
  | actor | stop => exact hgiven j hj
  | consume | detach | drop => rfl
  | join howned hbusy =>
    rcases (at_snoc rfl j).mp hj with hold | ⟨-, hnew⟩
    · exact hgiven j hold
    · cases hnew
  | stopped k i kind op r hc hf => exact hmodify rfl hc rfl hj
  | reject k i kind op e hc hf => exact hmodify rfl hc rfl hj
  | take k kind hc hslot => exact hmodify rfl hc rfl hj
  | miss k kind hc hslot => exact hmodify rfl hc rfl hj
  | deliver k kind r hc hended hr => exact hmodify rfl hc rfl hj
  | panicked k kind hc hpc => exact hmodify rfl hc rfl hj
  | leave k kind hc => exact hmodify rfl hc rfl hj
  | abandon k kind hc => exact hmodify rfl hc rfl hj

/-! ## The loop future

The loop by itself never drops its future: only whoever holds the `Task` does. -/

/-- No step of the loop itself ends with the future dropped. -/
theorem loop_not_dropped {s s' : LoopState σ ρ}
    {i : Option (Input σ ρ)} (h : EventLoop.Step E s i s') :
    s'.pc ≠ .dropped := by
  cases h with
  | keepRestart hpc => simp [hpc]
  | _ => simp

/-- So it takes `dropFuture`. -/
theorem dropFuture_of_step {u u' : World Q σ ρ} {k : Label σ ρ} (h : u.step E k = some u')
    (hpc : u'.task.loop.pc = .dropped) : u.task.loop.pc = .dropped ∨ k = .dropFuture := by
  obtain ⟨v, hv, rfl⟩ := World.step_cases h
  rw [World.settle_task] at hpc
  cases hv with
  | dropFuture t ht => exact .inr rfl
  | poll t ht =>
    rw [World.answer_task] at hpc
    cases ht with
    | advance s' hs hnotify => exact absurd hpc (loop_not_dropped hs)
  | pop e q t hq ht =>
    cases ht with
    | receive i s' hs => exact absurd hpc (loop_not_dropped hs)
  | closed t hq ht =>
    cases ht with
    | receive i s' hs => exact absurd hpc (loop_not_dropped hs)
  | silent k tl hl t ht =>
    cases ht with
    | receive i s' hs => exact absurd hpc (loop_not_dropped hs)
    | advance | drop => cases k <;> cases hl
    | _ => exact .inl hpc
  -- the loop had been dropped before, or the receiver could not be dropped now
  | dropRx t ht =>
    cases ht
    exact .inl hpc
  | accepted i op hf evicted q henq =>
    rw [World.accept_task] at hpc
    exact .inl hpc
  | _ => exact .inl hpc

theorem dropped_of_act (hdropped : w.actor.task.loop.pc = .dropped → w.cancelled = true)
    (h : Act E w l v) (hpc : v.actor.task.loop.pc = .dropped) : v.cancelled = true := by
  cases h with
  | actor l s hl hs =>
    rcases dropFuture_of_step hs hpc with hwas | rfl
    · exact hdropped hwas
    · exact hl
  | consume kind s howned hbusy hs =>
    exact hdropped ((dropFuture_of_step hs hpc).resolve_right nofun)
  | stop k i kind st op s hc hf hst hs =>
    exact hdropped ((dropFuture_of_step hs hpc).resolve_right nofun)
  | abandon k kind hc => rfl
  | _ => exact hdropped hpc

/-! ## The mutex is dropped

Once the `OwningAddr` is gone and no call is left, the last clone of the `Arc` is dropped, and with
it whatever is still in the mutex. -/

section Reap

omit [AsyncChannel Q]

@[simp] theorem reap_actor : w.reap.actor = w.actor := by unfold reap; split <;> rfl

@[simp] theorem reap_owned : w.reap.owned = w.owned := by unfold reap; split <;> rfl

@[simp] theorem reap_detached : w.reap.detached = w.detached := by unfold reap; split <;> rfl

@[simp] theorem reap_calls : w.reap.calls = w.calls := by unfold reap; split <;> rfl

theorem at_reap {p : HandleCall σ → Bool} : w.reap.At p k ↔ w.At p k := by
  simp [At]

theorem reap_cancelled :
    w.reap.cancelled = true ↔ w.cancelled = true
      ∨ (w.slot = true ∧ w.owned = false ∧ w.busy = false) := by
  unfold reap
  split
  · next hlast => simp_all
  · next hlast => simp_all

theorem reap_kept (h : w.reap.slot = true) : w.owned = true ∨ w.busy = true := by
  unfold reap at h
  split at h
  · cases h
  · next hlast =>
    simp only [h, Bool.true_and, Bool.not_eq_true', Bool.not_eq_false, Bool.or_eq_true] at hlast
    exact hlast

theorem custody_reap (hw : Custody w) : Custody w.reap := by
  unfold reap
  split
  · next hlast =>
    have hslot : w.slot = true := (Bool.and_eq_true_iff.mp hlast).1
    cases hw with
    | stored _ hfree hdetached hcancelled hnone => exact .cancelled rfl hfree hdetached rfl hnone
    | _ => simp_all
  · exact hw

end Reap

/-! ## Every run

The invariant holds before and after each step, so the `Task` is cancelled in the very step that
forfeits it. Whether there was such a step is read off the run. -/

theorem custodyInv_step (hw : CustodyInv w) (h : w.step E l = some w') : CustodyInv w' := by
  obtain ⟨v, hv, rfl⟩ := step_cases h
  exact {
    alone i j hi hj := alone_of_act hw.alone hv i j (at_reap.mp hi) (at_reap.mp hj)
    given j hj := by
      rw [reap_owned]
      exact given_of_act hw.given hv j (at_reap.mp hj)
    custody := custody_reap (custody_act hw.custody hv)
    kept hslot := by simpa [busy] using reap_kept hslot
    dropped hpc := by
      rw [reap_actor] at hpc
      exact reap_cancelled.mpr (.inl (dropped_of_act hw.dropped hv hpc)) }

theorem custodyInv_of_run {capacity : Option ℕ+} {a : σ} {ls : List (OwnerLabel σ ρ)}
    (h : (machine Q ρ E capacity a).Run ls w) : CustodyInv w :=
  h.invariant (I := CustodyInv) (custodyInv_init capacity a) fun _ _ _ hs hstep =>
    custodyInv_step hs hstep

omit [AsyncChannel Q] in
/-- Once the only call is over, none is left. -/
theorem CustodyInv.idle (hw : CustodyInv w) {c : HandleCall σ} {st : HandleStage σ}
    (hcs : v.calls = w.calls.modify k fun c => { c with stage := st }) (hc : w.calls[k]? = some c)
    (hlive : c.live = true) (hst : (⟨c.kind, st⟩ : HandleCall σ).live = false) :
    v.busy = false := by
  rw [busy, Bool.eq_false_iff, Ne, any_iff]
  rintro ⟨j, hj⟩
  rcases (at_modify hcs hc j).mp hj with ⟨hjk, hj⟩ | ⟨-, hj⟩
  · exact hjk (hw.alone j k hj ((at_iff hc).mpr hlive))
  · simp [hst] at hj

omit [AsyncChannel Q] in
/-- A call that holds the lock has taken the `Task` out. -/
theorem Custody.taken_of_locks (hw : Custody w) (hk : w.At HandleCall.locks k) :
    w.slot = false := by
  cases hw with
  | taken j hslot => exact hslot
  | stored _ hfree | used _ hfree | detached _ hfree | cancelled _ hfree =>
    exact absurd hk (hfree k)

/-- **Only a step that forfeits the `Task` cancels it.** -/
theorem cancelled_step (hw : CustodyInv w) (h : w.step E l = some w') :
    w'.cancelled = true ↔ w.cancelled = true ∨ w.Forfeits l := by
  obtain ⟨v, hv, rfl⟩ := step_cases h
  rw [reap_cancelled]
  -- of whoever is left, somebody has a clone
  have hheld : (v.slot = true → v.owned = true ∨ v.busy = true) → v.cancelled = w.cancelled →
      ¬ w.Forfeits l → (v.cancelled = true ∨ (v.slot = true ∧ v.owned = false ∧ v.busy = false) ↔
        w.cancelled = true ∨ w.Forfeits l) := by
    intro hkept hsame hnot
    rw [hsame, or_iff_left hnot, or_iff_left]
    rintro ⟨hslot, howned, hbusy⟩
    rcases hkept hslot with hyes | hyes <;> simp_all
  have hempty : v.slot = false → v.cancelled = w.cancelled → ¬ w.Forfeits l →
      (v.cancelled = true ∨ (v.slot = true ∧ v.owned = false ∧ v.busy = false) ↔
        w.cancelled = true ∨ w.Forfeits l) := fun hslot =>
    hheld fun hyes => by simp [hslot] at hyes
  have hbusy : ∀ {c : HandleCall σ}, v.calls = w.calls ++ [c] → c.live = true → v.busy = true :=
    fun hcs hlive => any_iff.mpr ⟨_, (at_snoc hcs _).mpr (.inr ⟨rfl, hlive⟩)⟩
  cases hv with
  | actor l s hl hs => exact hheld hw.kept rfl nofun
  | join howned hidle => exact hheld (fun _ => .inr (hbusy rfl rfl)) rfl nofun
  | consume kind s howned hidle hs => exact hheld (fun _ => .inr (hbusy rfl rfl)) rfl nofun
  | detach howned hidle => exact hempty rfl rfl nofun
  | drop howned hidle =>
    exact or_congr_right ⟨fun hlast => hlast.1, fun hslot => ⟨hslot, rfl, hidle⟩⟩
  | stop k i kind st op s hc hf hst hs =>
    refine hheld hw.kept rfl ?_
    rintro ⟨-, kind', i', op', e, hc', hf'⟩
    obtain ⟨-, rfl⟩ : kind = kind' ∧ i = i' := by simpa [hc] using hc'
    rw [hf] at hf'
    exact hst (.error e) (by cases hf'; rfl)
  | stopped k i kind op r hc hf =>
    refine hheld
      (fun _ => .inr (any_iff.mpr ⟨k, (at_modify rfl hc k).mpr (.inr ⟨rfl, rfl⟩)⟩)) rfl ?_
    rintro ⟨-, kind', i', op', e, hc', hf'⟩
    obtain ⟨-, rfl⟩ : kind = kind' ∧ i = i' := by simpa [hc] using hc'
    simp [hf] at hf'
  -- the stop was refused, and with the call the last clone of the `Arc` goes
  | reject k i kind op e hc hf =>
    have howned : w.owned = false := hw.given k ((at_iff hc).mpr rfl)
    refine or_congr_right ⟨?_, ?_⟩
    · rintro ⟨hslot, -, -⟩
      exact ⟨hslot, kind, i, op, e, hc, hf⟩
    · rintro ⟨hslot, -⟩
      exact ⟨hslot, howned, hw.idle rfl hc rfl rfl⟩
  | take k kind hc hslot =>
    refine hempty rfl rfl ?_
    rintro ⟨-, kind', i, op, e, hc', -⟩
    simp [hc] at hc'
  | miss k kind hc hslot =>
    refine hempty hslot rfl ?_
    rintro ⟨hyes, -⟩
    simp [hslot] at hyes
  | deliver k kind r hc hended hr =>
    have hslot : w.slot = false := hw.custody.taken_of_locks ((at_iff hc).mpr rfl)
    refine hempty hslot rfl ?_
    rintro ⟨hyes, -⟩
    simp [hslot] at hyes
  | panicked k kind hc hpc =>
    have hslot : w.slot = false := hw.custody.taken_of_locks ((at_iff hc).mpr rfl)
    refine hempty hslot rfl ?_
    rintro ⟨hyes, -⟩
    simp [hslot] at hyes
  -- a call that returns nothing takes its clone of the `Arc` with it
  | leave k kind hc =>
    refine or_congr_right ⟨?_, ?_⟩
    · rintro ⟨hslot, howned, -⟩
      exact ⟨_, hc, .inr ⟨rfl, howned, hslot⟩⟩
    · rintro ⟨c, hc', hst | ⟨-, howned, hslot⟩⟩
      · rw [hc] at hc'
        cases hc'
        cases hst
      · exact ⟨hslot, howned, hw.idle rfl hc rfl rfl⟩
  -- the `Task` is dropped with the future that had taken it
  | abandon k kind hc =>
    exact ⟨fun _ => .inr ⟨_, hc, .inl rfl⟩, fun _ => .inl rfl⟩

/-- A `detach` that finds the `Task` in the mutex. -/
theorem detached_step (hw : CustodyInv w) (h : w.step E l = some w') :
    w'.detached = true ↔ w.detached = true ∨ (l = .detach ∧ w.slot = true) := by
  obtain ⟨v, hv, rfl⟩ := step_cases h
  rw [reap_detached]
  cases hv with
  | detach howned hidle =>
    have hnot : ¬ w.detached = true := fun hyes => by
      cases hw.custody <;> simp_all
    simp [hnot]
  | _ => simp [setStage, finish]

section

omit [AsyncChannel Q]

/-- No call waits for another one. -/
theorem CustodyInv.unlocked (hw : CustodyInv w) {c : HandleCall σ} (hc : w.calls[k]? = some c)
    (hlive : c.live = true) (hlocks : c.locks = false) : w.locked = false := by
  rw [locked, Bool.eq_false_iff, Ne, any_iff]
  rintro ⟨j, hj⟩
  obtain rfl := hw.alone j k (live_of_locks hj) ((at_iff hc).mpr hlive)
  simp [at_iff hc, hlocks] at hj

/-- At most one call has returned the actor. -/
theorem Custody.once (hw : Custody w) : (w.returns.filterMap fun y => y.2.actor).length ≤ 1 := by
  cases hw with
  | used hslot hfree hdetached hcancelled hended hret =>
    rw [hret]
    exact Option.length_toList_le
  | stored _ _ _ _ hnone | taken _ _ _ _ _ hnone | detached _ _ _ _ _ hnone
  | cancelled _ _ _ _ hnone =>
    rw [List.filterMap_eq_nil_iff.mpr hnone]
    exact Nat.zero_le 1

/-- It was the one the loop has returned. -/
theorem Custody.returned (hw : Custody w) {y : ℕ × Joined σ} {b : σ} (hy : y ∈ w.returns)
    (hb : y.2.actor = some b) : w.actor.task.loop.pc = .returned (.ok b) := by
  cases hw with
  | used hslot hfree hdetached hcancelled hended hret =>
    have hmem : b ∈ (w.actor.task.joined.join).toList := hret ▸ List.mem_filterMap.mpr ⟨y, hy, hb⟩
    unfold LoopTask.joined at hmem
    split at hmem <;> simp_all
  | stored _ _ _ _ hnone | taken _ _ _ _ _ hnone | detached _ _ _ _ _ hnone
  | cancelled _ _ _ _ hnone =>
    simp [hnone y hy] at hb

/-- An actor whose `Task` was taken, and is awaited by nobody any more, has come back unless its
`Task` was dropped or detached. -/
theorem Custody.accounted (hw : Custody w) {b : σ} (hpc : w.actor.task.loop.pc = .returned (.ok b))
    (hslot : w.slot = false) (hlocked : w.locked = false) :
    (∃ y ∈ w.returns, y.2.actor = some b) ↔ w.cancelled = false ∧ w.detached = false := by
  cases hw with
  | stored hslot' => simp [hslot] at hslot'
  | taken k _ hone =>
    have hyes : w.locked = true := any_iff.mpr ⟨k, (hone k).mpr rfl⟩
    simp [hlocked] at hyes
  | used _ hfree hdetached hcancelled hended hret =>
    have hjoined : w.actor.task.joined = some (some b) := by simp [LoopTask.joined, hpc]
    have hmem : b ∈ w.returns.filterMap fun y => y.2.actor := by simp [hret, hjoined]
    exact iff_of_true (List.mem_filterMap.mp hmem) ⟨hcancelled, hdetached⟩
  | detached _ hfree hdetached hcancelled howned hnone =>
    refine iff_of_false ?_ (by simp [hdetached])
    rintro ⟨y, hy, hb⟩
    simp [hnone y hy] at hb
  | cancelled _ hfree hdetached hcancelled hnone =>
    refine iff_of_false ?_ (by simp [hcancelled])
    rintro ⟨y, hy, hb⟩
    simp [hnone y hy] at hb

end

/-- **The `Task` of an owned actor is dropped, detached or awaited, and only once.** With
`async_runtime`, for both loops, every mailbox, and every interleaving of the loop, the other
clients and the calls of the `OwningAddr`:
- the `Task` was cancelled exactly if a step of the run has forfeited it, and only then may the
  runtime drop the loop future before its end;
- it was detached exactly if `detach` has found it in the mutex, and then it was never cancelled,
  and no call returns the actor;
- no call waits for the lock, and `detach` does not block on it;
- at most one call returns the actor, and it is the one the loop has ended with; once the `Task` is
  gone from the mutex and awaited by nobody, one has, unless it was cancelled or detached. -/
theorem task_custody (E : EventLoop σ) (capacity : Option ℕ+) (a : σ) {ls : List (OwnerLabel σ ρ)}
    (h : (machine Q ρ E capacity a).Run ls w) :
    ((w.cancelled = true ↔ ∃ u l u', (machine Q ρ E capacity a).Takes ls u l u' ∧ u.Forfeits l)
      ∧ (w.actor.task.loop.pc = .dropped → w.cancelled = true))
    ∧ ((w.detached = true ↔ ∃ u l u', (machine Q ρ E capacity a).Takes ls u l u'
        ∧ l = .detach ∧ u.slot = true)
      ∧ (w.detached = true → w.cancelled = false ∧ ∀ y ∈ w.returns, y.2.actor = none))
    ∧ ((∀ k kind, w.calls[k]? = some ⟨kind, .locking⟩ → (w.step E (.poll k)).isSome = true)
      ∧ (w.owned = true → w.busy = false → (w.step E .detach).isSome = true))
    ∧ (w.returns.filterMap fun y => y.2.actor).length ≤ 1
    ∧ (∀ y ∈ w.returns, ∀ b, y.2.actor = some b → w.actor.task.loop.pc = .returned (.ok b))
    ∧ ∀ b, w.actor.task.loop.pc = .returned (.ok b) → w.slot = false → w.locked = false →
        ((∃ y ∈ w.returns, y.2.actor = some b) ↔ w.cancelled = false ∧ w.detached = false) := by
  have hw := custodyInv_of_run h
  refine ⟨⟨?_, hw.dropped⟩, ⟨?_, ?_⟩, ⟨?_, ?_⟩, hw.custody.once,
    fun y hy b => hw.custody.returned hy, fun b => hw.custody.accounted⟩
  · exact h.iff_takes (I := CustodyInv) (P := fun w => w.cancelled = true)
      (C := fun u l _ => u.Forfeits l) (custodyInv_init capacity a)
      (fun _ _ _ hs hstep => custodyInv_step hs hstep) Bool.false_ne_true
      fun _ _ _ hs hstep => cancelled_step hs hstep
  · exact h.iff_takes (I := CustodyInv) (P := fun w => w.detached = true)
      (C := fun u l _ => l = .detach ∧ u.slot = true) (custodyInv_init capacity a)
      (fun _ _ _ hs hstep => custodyInv_step hs hstep) Bool.false_ne_true
      fun _ _ _ hs hstep => detached_step hs hstep
  · intro hdetached
    cases hw.custody with
    | detached _ _ _ hcancelled _ hnone => exact ⟨hcancelled, hnone⟩
    | _ => simp_all
  · intro k kind hc
    have hfree : w.locked = false := hw.unlocked hc rfl rfl
    cases hslot : w.slot <;> simp [step, act, poll, lock, hc, hfree, hslot]
  · intro howned hidle
    have hfree : w.locked = false := by
      rw [locked, Bool.eq_false_iff, Ne, any_iff]
      rintro ⟨j, hj⟩
      exact not_locks_of_idle hidle j hj
    simp [step, act, howned, hidle, hfree]

/-- An actor with the provided hooks, spawned and owned. -/
def spawnedActor : Machine (TaskWorld ChannelState ℕ ℕ) (OwnerLabel ℕ ℕ) :=
  machine ChannelState ℕ (.fromChannel (.provided 0)) none 0

/-- A join is given up while it waits for the actor, whose loop future is then dropped. -/
def givenUpRun : List (OwnerLabel ℕ ℕ) :=
  [.actor .poll, .begin .join, .poll 0, .abandon 0, .actor .dropFuture]

/-- A join is given up before it is polled. Then the actor is detached, and stopped by somebody
else. -/
def detachedRun : List (OwnerLabel ℕ ℕ) :=
  [.begin .join, .abandon 0, .detach, .actor (.begin Addr.stop), .actor (.advance 0),
    .actor (.advance 0), .actor .poll, .actor .poll, .actor .receive, .actor .poll, .actor .lower,
    .actor .fire, .actor .poll]

theorem task_custody_given_up :
    (spawnedActor.after givenUpRun rfl).actor.task.loop.pc = .dropped
      ∧ (∃ u l u', spawnedActor.Takes givenUpRun u l u' ∧ u.Forfeits l)
      ∧ (spawnedActor.after detachedRun rfl).actor.task.loop.pc = .returned (.ok 0)
      ∧ (¬ ∃ u l u', spawnedActor.Takes detachedRun u l u' ∧ u.Forfeits l)
      ∧ ∀ y ∈ (spawnedActor.after detachedRun rfl).returns, y.2.actor = none := by
  have hgivenUp := task_custody _ _ _ (spawnedActor.run_after givenUpRun rfl)
  have hdetached := task_custody _ _ _ (spawnedActor.run_after detachedRun rfl)
  refine ⟨rfl, hgivenUp.1.1.mp (hgivenUp.1.2 rfl), rfl, ?_, (hdetached.2.1.2 rfl).2⟩
  exact fun hforfeits => Bool.false_ne_true (hdetached.1.1.mpr hforfeits)

end TaskWorld

end Hannibal
