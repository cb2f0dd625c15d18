import Mathlib.Data.PNat.Basic
import Mathlib.Data.List.Infix

/-!
# Hannibal.Lib.AsyncChannel — an asynchronous multi-producer channel, by its documented behaviour

A queue between many senders and one receiver whose implementation is not at hand. Programs over
it are written against the class `AsyncChannel`, so they hold for every implementation that keeps
the documented behaviour:

* **`ChannelState`** — what can be observed of a channel: its capacity, the items still queued
  (oldest first) and whether it is closed. Its operations state the documented behaviour: a FIFO
  queue in which `try_send` fails on a full or closed channel, `send` waits while the channel is
  full, `force_send` on a full channel replaces the oldest queued item and hands it back, and a
  closed channel still delivers what is queued but accepts nothing.
* **`AsyncChannel Q`** — an implementation `Q` of these operations, with one law per operation: it
  acts on the observable state as documented.
* **`trySend_ok`**, **`forceSend_some`**, **`tryRecv_ok`** … — the inversion lemmas a proof about a
  program uses: what a successful (or failed) operation says about the states before and after it.

`ChannelState` is itself an implementation, so the laws are satisfiable and programs can be run.
-/

namespace Chan

/-- Why a `try_send` failed. -/
inductive TrySendError where
  | full
  | closed
  deriving DecidableEq, Repr

/-- Why a receive found nothing. -/
inductive TryRecvError where
  | empty
  | closed
  deriving DecidableEq, Repr

/-- What can be observed of a channel. `capacity = none` is an unbounded channel; a bounded one
holds at least one item. -/
structure ChannelState (α : Type) where
  capacity : Option ℕ+
  queued : List α
  closed : Bool

namespace ChannelState

variable {α : Type}

/-- A fresh channel. -/
def fresh (capacity : Option ℕ+) : ChannelState α := ⟨capacity, [], false⟩

/-- The channel holds as many items as it may. -/
def full (c : ChannelState α) : Bool :=
  match c.capacity with
  | none => false
  | some n => decide ((n : ℕ) ≤ c.queued.length)

/-- The item `a` joins the queue at its newest end. -/
def push (c : ChannelState α) (a : α) : ChannelState α := { c with queued := c.queued ++ [a] }

/-- The oldest item leaves the queue. -/
def dropOldest (c : ChannelState α) : ChannelState α := { c with queued := c.queued.tail }

/-- `try_send`: fails at once on a closed or a full channel. -/
def trySend (c : ChannelState α) (a : α) : Except TrySendError (ChannelState α) :=
  if c.closed then .error .closed
  else if c.full then .error .full
  else .ok (c.push a)

/-- `force_send`: never waits; on a full channel the oldest queued item makes room and is handed
back. `none` is the error of a closed channel. -/
def forceSend (c : ChannelState α) (a : α) : Option (Option α × ChannelState α) :=
  if c.closed then none
  else if c.full then some (c.queued.head?, c.dropOldest.push a)
  else some (none, c.push a)

/-- Receiving: the oldest item, or why there is none. A closed channel still hands out what is
queued. -/
def tryRecv (c : ChannelState α) : Except TryRecvError (α × ChannelState α) :=
  match c.queued with
  | a :: _ => .ok (a, c.dropOldest)
  | [] => if c.closed then .error .closed else .error .empty

/-- Closing keeps what is queued. -/
def close (c : ChannelState α) : ChannelState α := { c with closed := true }

@[simp] theorem push_queued (c : ChannelState α) (a : α) : (c.push a).queued = c.queued ++ [a] :=
  rfl
@[simp] theorem push_closed (c : ChannelState α) (a : α) : (c.push a).closed = c.closed := rfl
@[simp] theorem push_capacity (c : ChannelState α) (a : α) : (c.push a).capacity = c.capacity := rfl
@[simp] theorem dropOldest_queued (c : ChannelState α) : c.dropOldest.queued = c.queued.tail := rfl
@[simp] theorem dropOldest_closed (c : ChannelState α) : c.dropOldest.closed = c.closed := rfl
@[simp] theorem dropOldest_capacity (c : ChannelState α) : c.dropOldest.capacity = c.capacity := rfl
@[simp] theorem close_queued (c : ChannelState α) : c.close.queued = c.queued := rfl
@[simp] theorem close_closed (c : ChannelState α) : c.close.closed = true := rfl
@[simp] theorem close_capacity (c : ChannelState α) : c.close.capacity = c.capacity := rfl

/-- An unbounded channel is never full. -/
theorem full_of_unbounded {c : ChannelState α} (h : c.capacity = none) : c.full = false := by
  simp [full, h]

/-- A full channel has an oldest item: a bounded channel holds at least one. -/
theorem queued_ne_nil_of_full {c : ChannelState α} (h : c.full = true) : c.queued ≠ [] := by
  intro hnil
  unfold full at h
  cases hcap : c.capacity with
  | none => simp [hcap] at h
  | some n => simp [hcap, hnil] at h

end ChannelState

/-- An implementation of the channel. Each law says that an operation acts on the observable state
as documented. -/
class AsyncChannel (Q : Type → Type) where
  state : {α : Type} → Q α → ChannelState α
  new : {α : Type} → Option ℕ+ → Q α
  trySend : {α : Type} → Q α → α → Except TrySendError (Q α)
  forceSend : {α : Type} → Q α → α → Option (Option α × Q α)
  tryRecv : {α : Type} → Q α → Except TryRecvError (α × Q α)
  close : {α : Type} → Q α → Q α
  state_new : ∀ {α : Type} (capacity : Option ℕ+), state (new (α := α) capacity) = .fresh capacity
  state_trySend : ∀ {α : Type} (c : Q α) (a : α),
    (trySend c a).map state = (state c).trySend a
  state_forceSend : ∀ {α : Type} (c : Q α) (a : α),
    (forceSend c a).map (Prod.map id state) = (state c).forceSend a
  state_tryRecv : ∀ {α : Type} (c : Q α),
    (tryRecv c).map (Prod.map id state) = (state c).tryRecv
  state_close : ∀ {α : Type} (c : Q α), state (close c) = (state c).close

/-- The observable states, with the documented operations, are themselves an implementation. -/
instance : AsyncChannel ChannelState where
  state := id
  new := .fresh
  trySend := ChannelState.trySend
  forceSend := ChannelState.forceSend
  tryRecv := ChannelState.tryRecv
  close := ChannelState.close
  state_new _ := rfl
  state_trySend c a := by rw [id_eq]; cases c.trySend a <;> rfl
  state_forceSend c a := by rw [id_eq]; cases c.forceSend a <;> rfl
  state_tryRecv c := by rw [id_eq]; cases c.tryRecv <;> rfl
  state_close _ := rfl

namespace AsyncChannel

variable {Q : Type → Type} [AsyncChannel Q] {α : Type}

attribute [simp] state_new state_close

/-! ## What an operation says about the channel before and after it

Each lemma inverts one operation for one of its outcomes. It applies the law of the operation and
computes on the observable state, so nothing of an implementation is used. -/

/-- A successful `try_send` found the channel open and not full, and appended its item. -/
theorem trySend_ok {c c' : Q α} {a : α} (h : trySend c a = .ok c') :
    (state c).closed = false ∧ (state c).full = false ∧ state c' = (state c).push a := by
  have hlaw : (state c).trySend a = .ok (state c') := by rw [← state_trySend, h]; rfl
  unfold ChannelState.trySend at hlaw
  split at hlaw
  · cases hlaw
  · split at hlaw
    · cases hlaw
    · next hclosed hfull =>
      exact ⟨by simpa using hclosed, by simpa using hfull, (Except.ok.inj hlaw).symm⟩

/-- A `try_send` that reports a full channel found it open and full. -/
theorem trySend_full {c : Q α} {a : α} (h : trySend c a = .error .full) :
    (state c).closed = false ∧ (state c).full = true := by
  have hlaw : (state c).trySend a = .error .full := by rw [← state_trySend, h]; rfl
  unfold ChannelState.trySend at hlaw
  split at hlaw
  · cases hlaw
  · split at hlaw
    · next hclosed hfull => exact ⟨by simpa using hclosed, hfull⟩
    · cases hlaw

/-- A `try_send` that reports a closed channel found it closed. -/
theorem trySend_closed {c : Q α} {a : α} (h : trySend c a = .error .closed) :
    (state c).closed = true := by
  have hlaw : (state c).trySend a = .error .closed := by rw [← state_trySend, h]; rfl
  unfold ChannelState.trySend at hlaw
  split at hlaw
  · next hclosed => exact hclosed
  · split at hlaw <;> cases hlaw

/-- A successful `force_send` found the channel open; it appended its item and, exactly on a full
channel, dropped the oldest one and handed it back. -/
theorem forceSend_some {c c' : Q α} {a : α} {ev : Option α} (h : forceSend c a = some (ev, c')) :
    (state c).closed = false
      ∧ (((state c).full = false ∧ ev = none ∧ state c' = (state c).push a)
        ∨ ((state c).full = true ∧ ev = (state c).queued.head?
            ∧ state c' = (state c).dropOldest.push a)) := by
  have hlaw : (state c).forceSend a = some (ev, state c') := by rw [← state_forceSend, h]; rfl
  -- closed, open and full, or open with room
  unfold ChannelState.forceSend at hlaw
  split at hlaw
  · cases hlaw
  · next hclosed =>
    refine ⟨by simpa using hclosed, ?_⟩
    split at hlaw
    · next hfull =>
      obtain ⟨hev, hst⟩ := Prod.mk.inj (Option.some.inj hlaw)
      exact .inr ⟨hfull, hev.symm, hst.symm⟩
    · next hfull =>
      obtain ⟨hev, hst⟩ := Prod.mk.inj (Option.some.inj hlaw)
      exact .inl ⟨by simpa using hfull, hev.symm, hst.symm⟩

/-- A failed `force_send` found the channel closed. -/
theorem forceSend_none {c : Q α} {a : α} (h : forceSend c a = none) : (state c).closed = true := by
  have hlaw : (state c).forceSend a = none := by rw [← state_forceSend, h]; rfl
  unfold ChannelState.forceSend at hlaw
  split at hlaw
  · next hclosed => exact hclosed
  · split at hlaw <;> cases hlaw

/-- A successful receive took the oldest item and left the others. -/
theorem tryRecv_ok {c c' : Q α} {a : α} (h : tryRecv c = .ok (a, c')) :
    (state c).queued = a :: (state c').queued ∧ (state c').closed = (state c).closed
      ∧ (state c').capacity = (state c).capacity := by
  have hlaw : (state c).tryRecv = .ok (a, state c') := by rw [← state_tryRecv, h]; rfl
  unfold ChannelState.tryRecv at hlaw
  split at hlaw
  · next b rest hq =>
    obtain ⟨rfl, hst⟩ := Prod.mk.inj (Except.ok.inj hlaw)
    rw [← hst]
    simp [hq]
  · split at hlaw <;> cases hlaw

/-- A receive that reports a closed channel found it closed and drained. -/
theorem tryRecv_closed {c : Q α} (h : tryRecv c = .error .closed) :
    (state c).queued = [] ∧ (state c).closed = true := by
  have hlaw : (state c).tryRecv = .error .closed := by rw [← state_tryRecv, h]; rfl
  unfold ChannelState.tryRecv at hlaw
  split at hlaw
  · cases hlaw
  · next hq =>
    split at hlaw
    · next hclosed => exact ⟨hq, hclosed⟩
    · cases hlaw

/-! ## When a receive finds something -/

/-- A receive from a channel that holds something takes the oldest item. -/
theorem exists_tryRecv {c : Q α} {a : α} {rest : List α} (h : (state c).queued = a :: rest) :
    ∃ c', tryRecv c = .ok (a, c') := by
  have hlaw := state_tryRecv c
  rw [ChannelState.tryRecv, h] at hlaw
  cases hrecv : tryRecv c with
  | error e => simp [hrecv, Except.map] at hlaw
  | ok p =>
    obtain ⟨b, c'⟩ := p
    rw [hrecv] at hlaw
    have hb : b = a := congrArg Prod.fst (Except.ok.inj hlaw)
    exact ⟨c', by rw [hb]⟩

/-- A receive from a closed channel that holds nothing reports the end. -/
theorem tryRecv_of_drained {c : Q α} (hnil : (state c).queued = [])
    (hclosed : (state c).closed = true) : tryRecv c = .error .closed := by
  have hlaw := state_tryRecv c
  rw [ChannelState.tryRecv, hnil, hclosed] at hlaw
  cases hrecv : tryRecv c with
  | ok p => simp [hrecv, Except.map] at hlaw
  | error e =>
    rw [hrecv] at hlaw
    exact congrArg Except.error (Except.error.inj hlaw)

end AsyncChannel

end Chan
