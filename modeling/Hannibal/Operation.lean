import Hannibal.Actor
import Hannibal.Lib.AsyncChannel

/-!
# Hannibal.Operation — the operations that put a payload into a mailbox

Every public operation on an actor is the same short program: get at a strong sender, read
`core.stopped()`, enqueue a payload with one of the three primitives of the channel, and possibly
await the response. They differ in the values below, which are the source's own:
`Addr` (`addr.rs`), `Sender` and `Caller` (`addr/sender.rs`, `addr/caller.rs`), their weak
counterparts, and `Context` (`context.rs`).
-/

namespace Hannibal

open Chan

/-- Where an operation gets its strong sender: it is called on a strong handle, or it upgrades a
weak handle, or the `Context` upgrades its own weak sender. -/
inductive Via where
  | strong
  | weak
  | context
  deriving DecidableEq, Repr

/-- The enqueueing primitives of the channel. -/
inductive Primitive where
  | send
  | trySend
  | forceSend
  deriving DecidableEq, Repr

/-- An operation. `rejected` is the error a failed check or a failed enqueue is mapped to;
`awaits` tells whether the operation then awaits its response oneshot, whose other half only a task
can own. -/
structure Operation (σ ρ : Type) where
  via : Via
  checks : Bool
  rejected : ActorError
  primitive : Primitive
  payload : Payload σ ρ
  awaits : Bool
  rejected_cases : rejected = .alreadyStopped ∨ rejected = .channelClosed
  awaits_task : awaits = true → ∃ f, payload = .task f

variable {σ ρ : Type}

/-! ## The operations of the source

One definition for each method, in the order of its fields: the handle it is called on, whether it
reads the running flag, the error it maps a refusal to, its primitive, its payload, and whether it
awaits the response. The two proofs say that a refusal is one of two errors, and that only a task is
awaited with a response. -/

namespace Addr

def stop : Operation σ ρ :=
  ⟨.strong, true, .alreadyStopped, .forceSend, .stop, false, .inl rfl, nofun⟩

def restart : Operation σ ρ :=
  ⟨.strong, true, .alreadyStopped, .forceSend, .restart, false, .inl rfl, nofun⟩

def call (f : TaskFn σ ρ) : Operation σ ρ :=
  ⟨.strong, true, .alreadyStopped, .trySend, .task f, true, .inl rfl,
    fun _ => ⟨_, rfl⟩⟩

/-- The task of a ping only answers. -/
def ping : Operation σ ρ :=
  ⟨.strong, true, .alreadyStopped, .trySend, .task fun a => .completed a none, true, .inl rfl,
    fun _ => ⟨_, rfl⟩⟩

def send (f : TaskFn σ ρ) : Operation σ ρ :=
  ⟨.strong, true, .alreadyStopped, .send, .task f, false, .inl rfl, nofun⟩

def trySend (f : TaskFn σ ρ) : Operation σ ρ :=
  ⟨.strong, true, .alreadyStopped, .trySend, .task f, false, .inl rfl, nofun⟩

end Addr

namespace Sender

def send (f : TaskFn σ ρ) : Operation σ ρ :=
  ⟨.strong, true, .channelClosed, .send, .task f, false, .inr rfl, nofun⟩

def trySend (f : TaskFn σ ρ) : Operation σ ρ :=
  ⟨.strong, true, .channelClosed, .trySend, .task f, false, .inr rfl, nofun⟩

/-- What `Children::forward` calls on every child it has registered for a message. -/
def forceSend (f : TaskFn σ ρ) : Operation σ ρ :=
  ⟨.strong, true, .channelClosed, .forceSend, .task f, false, .inr rfl, nofun⟩

end Sender

/-- `Caller::call`, unlike `Addr::call`, waits for space. -/
def Caller.call (f : TaskFn σ ρ) : Operation σ ρ :=
  ⟨.strong, true, .channelClosed, .send, .task f, true, .inr rfl,
    fun _ => ⟨_, rfl⟩⟩

/-- An operation of a weak handle: it upgrades the handle and calls the operation of the strong
one. -/
def Operation.upgraded (op : Operation σ ρ) : Operation σ ρ := { op with via := .weak }

def WeakAddr.tryStop : Operation σ ρ := Addr.stop.upgraded

def WeakSender.upgradeAndSend (f : TaskFn σ ρ) : Operation σ ρ := (Sender.send f).upgraded

def WeakCaller.upgradeAndCall (f : TaskFn σ ρ) : Operation σ ρ := (Caller.call f).upgraded

namespace Context

/-- `Context::stop` upgrades the sender itself and reads no flag. -/
def stop : Operation σ ρ :=
  ⟨.context, false, .alreadyStopped, .forceSend, .stop, false, .inl rfl, nofun⟩

def restart : Operation σ ρ :=
  ⟨.context, false, .alreadyStopped, .forceSend, .restart, false, .inl rfl, nofun⟩

end Context

/-! ## Enqueueing

What each primitive makes of the three answers of the channel: `send` waits at a full one,
`try_send` fails, and `force_send` makes room. -/

/-- One attempt to enqueue `a`: `none` is a `send` that goes on waiting, an error is a rejection,
and a success comes with the item that had to make room. -/
def Primitive.enqueue {Q : Type → Type} [AsyncChannel Q] {α : Type} (p : Primitive) (q : Q α)
    (a : α) : Option (Except Unit (Option α × Q α)) :=
  match p with
  | .send =>
    match AsyncChannel.trySend q a with
    | .ok q' => some (.ok (none, q'))
    | .error .full => none
    | .error .closed => some (.error ())
  | .trySend =>
    match AsyncChannel.trySend q a with
    | .ok q' => some (.ok (none, q'))
    | .error _ => some (.error ())
  | .forceSend =>
    match AsyncChannel.forceSend q a with
    | some (evicted, q') => some (.ok (evicted, q'))
    | none => some (.error ())

variable {Q : Type → Type} [AsyncChannel Q] {α : Type} {p : Primitive} {q q' : Q α} {a : α}

open AsyncChannel (state)

/-- A successful attempt found the channel open; only `force_send` on a full channel drops an item,
and that item is the oldest. -/
theorem enqueue_ok {evicted : Option α} (h : p.enqueue q a = some (.ok (evicted, q'))) :
    (state q).closed = false
      ∧ ((evicted = none ∧ state q' = (state q).push a
            ∧ ((state q).full = false))
        ∨ (p = .forceSend ∧ (state q).full = true ∧ evicted = (state q).queued.head?
            ∧ state q' = (state q).dropOldest.push a)) := by
  cases p with
  | send =>
    simp only [Primitive.enqueue] at h
    split at h
    · next hsend =>
      cases h
      obtain ⟨hopen, hfull, hstate⟩ := AsyncChannel.trySend_ok hsend
      exact ⟨hopen, .inl ⟨rfl, hstate, hfull⟩⟩
    · cases h
    · cases h
  | trySend =>
    simp only [Primitive.enqueue] at h
    split at h
    · next hsend =>
      cases h
      obtain ⟨hopen, hfull, hstate⟩ := AsyncChannel.trySend_ok hsend
      exact ⟨hopen, .inl ⟨rfl, hstate, hfull⟩⟩
    · cases h
  -- only this primitive may drop an item, and only from a full channel
  | forceSend =>
    simp only [Primitive.enqueue] at h
    split at h
    · next hsend =>
      cases h
      obtain ⟨hopen, hcase⟩ := AsyncChannel.forceSend_some hsend
      rcases hcase with ⟨hfull, hev, hstate⟩ | ⟨hfull, hev, hstate⟩
      · exact ⟨hopen, .inl ⟨hev, hstate, hfull⟩⟩
      · exact ⟨hopen, .inr ⟨rfl, hfull, hev, hstate⟩⟩
    · cases h

/-- A rejected attempt found the channel closed, or `try_send` found it full. -/
theorem enqueue_error (h : p.enqueue q a = some (.error ())) :
    (state q).closed = true ∨ (p = .trySend ∧ (state q).full = true) := by
  cases p with
  | send =>
    simp only [Primitive.enqueue] at h
    split at h
    · cases h
    · cases h
    · next hsend => exact .inl (AsyncChannel.trySend_closed hsend)
  | trySend =>
    simp only [Primitive.enqueue] at h
    split at h
    · cases h
    · next err hsend =>
      -- `try_send` has two reasons, and its caller does not tell them apart
      cases err with
      | full => exact .inr ⟨rfl, (AsyncChannel.trySend_full hsend).2⟩
      | closed => exact .inl (AsyncChannel.trySend_closed hsend)
  | forceSend =>
    simp only [Primitive.enqueue] at h
    split at h
    · cases h
    · next hsend => exact .inl (AsyncChannel.forceSend_none hsend)

end Hannibal
