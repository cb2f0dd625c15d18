import Hannibal.Lib.Table
import Hannibal.LoopTask
import Hannibal.Operation

/-!
# Hannibal.World — one actor, its mailbox and everyone who uses it

The loop future of one actor, its mailbox, and any number of clients whose operations are in
flight. Each operation advances one step at a time (upgrade, check, enqueue, await the response),
so that any other party may act between two steps of it; futures may be dropped where they await.

* **`World.act`**, **`World.step`** — one step. After every step `settle` closes the mailbox if the
  last strong sender is gone, as the channel does.
* **`World.Act`**, **`act_cases`** — the same as a relation, one constructor for each case.
* **`loop_of_act`** — what the loop makes of a step, and what it is fed with.
* The history fields `accepted`, `popped` and `completed` record what the mailbox has accepted, what
  the loop has popped and which tasks have completed; no step reads them.
-/

namespace Hannibal

open Lts Chan
open AsyncChannel (state)

/-! ## Operations in flight

A caller's operation is not one step: it upgrades its handle, checks the flag, enqueues, waits for
its oneshot, and between any two of these the loop and the other callers may move. An operation in
flight is kept with the stage it has reached. -/

/-- A response oneshot, as its receiver sees it. -/
inductive Reply (ρ : Type) where
  | pending
  | ok (r : Option ρ)
  | canceled

/-- Where an operation stands. -/
inductive Stage (ρ : Type) where
  | upgrading
  | checking
  | enqueuing
  | waiting (reply : Reply ρ)
  | returned (res : Except ActorError (Option ρ))
  /-- its future was dropped -/
  | abandoned

/-- An operation in flight. -/
structure Flight (σ ρ : Type) where
  op : Operation σ ρ
  stage : Stage ρ

variable {Q : Type → Type} {σ ρ : Type}

/-- The operation has a strong sender in its hands. -/
def Flight.holds (f : Flight σ ρ) : Bool :=
  match f.stage with
  | .checking | .enqueuing | .waiting _ => true
  | _ => false

/-- The operation still awaits its response. -/
def Flight.pending (f : Flight σ ρ) : Bool :=
  match f.stage with
  | .waiting .pending => true
  | _ => false

/-- The payload of the operation has been accepted by the mailbox, or the operation is over. -/
def Flight.entered (f : Flight σ ρ) : Bool :=
  match f.stage with
  | .waiting _ | .returned _ | .abandoned => true
  | _ => false

/-- The sending half of the oneshot is used or dropped. -/
def Flight.resolve (reply : Reply ρ) (f : Flight σ ρ) : Flight σ ρ :=
  match f.stage with
  | .waiting .pending => { f with stage := .waiting reply }
  | _ => f

/-- Where an operation with a strong sender begins. -/
def Operation.entry (op : Operation σ ρ) : Stage ρ := if op.checks then .checking else .enqueuing

/-- Where an operation begins. -/
def Operation.first (op : Operation σ ρ) : Stage ρ :=
  match op.via with
  | .strong => op.entry
  | .weak | .context => .upgrading

/-- Where an operation stands once its payload has been accepted. -/
def Operation.afterAccept (op : Operation σ ρ) : Stage ρ :=
  if op.awaits then .waiting .pending else .returned (.ok none)

/-- An operation may be dropped where it awaits: in a `send`, or for its response. -/
def Flight.abandonable (f : Flight σ ρ) : Bool :=
  match f.stage with
  | .enqueuing => decide (f.op.primitive = .send)
  | .waiting _ => true
  | _ => false

/-- The operation whose task the loop runs. -/
def Pc.client : Pc σ ρ → Option ℕ
  | .running (.task k) _ => some k
  | _ => none

/-- What a task leaves in its response oneshot when the loop leaves it. -/
def LoopState.reply (s : LoopState σ ρ) : Option (ℕ × Reply ρ) :=
  match s.pc with
  | .running (.task k) f =>
    match f s.actor with
    | .completed _ r => some (k, .ok r)
    | _ => some (k, .canceled)
  | _ => none

/-! ## The state and its steps

The loop future, the mailbox and the operations make up the state. `accepted`, `popped` and
`completed` record what has happened, for the statements to speak of; no step looks at them. -/

/-- One actor and its clients. `handles` counts the strong handles nobody is using at the moment;
an envelope's `client` is an index into `flights`. -/
structure World (Q : Type → Type) (σ ρ : Type) where
  mailbox : Q (Envelope σ ρ)
  handles : ℕ
  task : LoopTask σ ρ
  flights : List (Flight σ ρ)
  accepted : List (Envelope σ ρ)
  popped : List (Envelope σ ρ)
  completed : List (ℕ × Option ρ)

/-- Everything that can happen next. -/
inductive Label (σ ρ : Type) where
  /-- an operation is begun, advances, or is dropped -/
  | begin (op : Operation σ ρ)
  | advance (i : ℕ)
  | abandon (i : ℕ)
  /-- a strong handle is cloned, got by upgrading a weak one, or dropped -/
  | clone
  | upgrade
  | drop
  /-- the loop moves on by itself, takes from its mailbox, or from its stream -/
  | poll
  | receive
  | item (f : TaskFn σ ρ)
  | streamEnd
  /-- the stop notification, and the loop future and its parts being dropped -/
  | lower
  | fire
  | dropFuture
  | dropRx
  | dropCtx

/-- The labels of steps that only concern the loop future, with what they do to it. -/
def Label.silent : Label σ ρ → Option (TaskLabel σ ρ)
  | .item f => some (.receive (.item f))
  | .streamEnd => some (.receive .streamEnd)
  | .lower => some .lower
  | .fire => some .fire
  | .dropCtx => some .dropCtx
  | _ => none

namespace World

def setStage (w : World Q σ ρ) (i : ℕ) (st : Stage ρ) : World Q σ ρ :=
  { w with flights := w.flights.modify i fun f => { f with stage := st } }

/-- The response oneshot of operation `k` is resolved, if that is still awaited. -/
def resolve (w : World Q σ ρ) (k : ℕ) (reply : Reply ρ) : World Q σ ρ :=
  { w with flights := w.flights.modify k (Flight.resolve reply) }

/-- An envelope that is dropped takes its response sender with it. -/
def evict (w : World Q σ ρ) : Option (Envelope σ ρ) → World Q σ ρ
  | none => w
  | some e => w.resolve e.client .canceled

/-- The loop has left a task. -/
def answer (w : World Q σ ρ) : Option (ℕ × Reply ρ) → World Q σ ρ
  | none => w
  | some (k, .ok r) => { w.resolve k (.ok r) with completed := w.completed ++ [(k, r)] }
  | some (k, reply) => w.resolve k reply

/-- The mailbox, now `q`, has accepted the payload of operation `i`. -/
def accept (w : World Q σ ρ) (i : ℕ) (op : Operation σ ρ) (evicted : Option (Envelope σ ρ))
    (q : Q (Envelope σ ρ)) : World Q σ ρ :=
  { (w.evict evicted).setStage i op.afterAccept with
    mailbox := q
    accepted := w.accepted ++ [⟨i, op.payload⟩] }

def withTask (w : World Q σ ρ) (t : LoopTask σ ρ) : World Q σ ρ := { w with task := t }

/-- The operations begun so far, in the order in which they were begun. -/
def ops (w : World Q σ ρ) : List (Operation σ ρ) := w.flights.map Flight.op

/-! ### What the pieces of a step leave alone

Simp lemmas: a piece of a step changes the fields it is about, and these are the others. -/

@[simp] theorem resolve_op (reply : Reply ρ) (f : Flight σ ρ) : (f.resolve reply).op = f.op := by
  unfold Flight.resolve
  split <;> rfl

section Frame

variable (w : World Q σ ρ) (i : ℕ) (st : Stage ρ) (reply : Reply ρ)

@[simp] theorem setStage_mailbox : (w.setStage i st).mailbox = w.mailbox := rfl
@[simp] theorem setStage_task : (w.setStage i st).task = w.task := rfl
@[simp] theorem setStage_accepted : (w.setStage i st).accepted = w.accepted := rfl
@[simp] theorem setStage_popped : (w.setStage i st).popped = w.popped := rfl
@[simp] theorem setStage_completed : (w.setStage i st).completed = w.completed := rfl
@[simp] theorem setStage_ops : (w.setStage i st).ops = w.ops :=
  Table.map_modify fun _ => rfl
@[simp] theorem resolve_ops : (w.resolve i reply).ops = w.ops := Table.map_modify (resolve_op reply)
@[simp] theorem resolve_mailbox : (w.resolve i reply).mailbox = w.mailbox := rfl
@[simp] theorem resolve_task : (w.resolve i reply).task = w.task := rfl
@[simp] theorem resolve_accepted : (w.resolve i reply).accepted = w.accepted := rfl
@[simp] theorem resolve_popped : (w.resolve i reply).popped = w.popped := rfl
@[simp] theorem resolve_completed : (w.resolve i reply).completed = w.completed := rfl

variable (ev : Option (Envelope σ ρ)) (op : Operation σ ρ) (q : Q (Envelope σ ρ))

@[simp] theorem evict_ops : (w.evict ev).ops = w.ops := by
  cases ev with
  | none => rfl
  | some e => exact resolve_ops w e.client .canceled
@[simp] theorem accept_ops : (w.accept i op ev q).ops = w.ops :=
  (setStage_ops (w.evict ev) i op.afterAccept).trans (evict_ops w ev)
@[simp] theorem evict_task : (w.evict ev).task = w.task := by cases ev <;> rfl
@[simp] theorem evict_handles : (w.evict ev).handles = w.handles := by cases ev <;> rfl
@[simp] theorem evict_popped : (w.evict ev).popped = w.popped := by cases ev <;> rfl
@[simp] theorem evict_completed : (w.evict ev).completed = w.completed := by cases ev <;> rfl
@[simp] theorem accept_mailbox : (w.accept i op ev q).mailbox = q := rfl
@[simp] theorem accept_task : (w.accept i op ev q).task = w.task := evict_task w ev
@[simp] theorem accept_handles : (w.accept i op ev q).handles = w.handles := evict_handles w ev
@[simp] theorem accept_accepted :
    (w.accept i op ev q).accepted = w.accepted ++ [⟨i, op.payload⟩] := rfl
@[simp] theorem accept_popped : (w.accept i op ev q).popped = w.popped := evict_popped w ev
@[simp] theorem accept_completed : (w.accept i op ev q).completed = w.completed :=
  evict_completed w ev

variable (o : Option (ℕ × Reply ρ)) (t : LoopTask σ ρ)

@[simp] theorem answer_ops : (w.answer o).ops = w.ops := by
  rcases o with _ | ⟨k, _ | _ | _⟩
  · rfl
  all_goals exact resolve_ops w k _
@[simp] theorem answer_mailbox : (w.answer o).mailbox = w.mailbox := by
  rcases o with _ | ⟨k, _ | _ | _⟩ <;> rfl
@[simp] theorem answer_task : (w.answer o).task = w.task := by
  rcases o with _ | ⟨k, _ | _ | _⟩ <;> rfl
@[simp] theorem answer_handles : (w.answer o).handles = w.handles := by
  rcases o with _ | ⟨k, _ | _ | _⟩ <;> rfl
@[simp] theorem answer_accepted : (w.answer o).accepted = w.accepted := by
  rcases o with _ | ⟨k, _ | _ | _⟩ <;> rfl
@[simp] theorem answer_popped : (w.answer o).popped = w.popped := by
  rcases o with _ | ⟨k, _ | _ | _⟩ <;> rfl
@[simp] theorem withTask_mailbox : (w.withTask t).mailbox = w.mailbox := rfl
@[simp] theorem withTask_task : (w.withTask t).task = t := rfl
@[simp] theorem withTask_handles : (w.withTask t).handles = w.handles := rfl
@[simp] theorem withTask_ops : (w.withTask t).ops = w.ops := rfl
@[simp] theorem withTask_flights : (w.withTask t).flights = w.flights := rfl
@[simp] theorem withTask_accepted : (w.withTask t).accepted = w.accepted := rfl
@[simp] theorem withTask_popped : (w.withTask t).popped = w.popped := rfl
@[simp] theorem withTask_completed : (w.withTask t).completed = w.completed := rfl

/-- An eviction answers whoever waits for a response, and nobody who still hands over a payload. -/
theorem flight_evict {w : World Q σ ρ} {i : ℕ} {op : Operation σ ρ}
    (hf : w.flights[i]? = some ⟨op, .enqueuing⟩) (ev : Option (Envelope σ ρ)) :
    (w.evict ev).flights[i]? = some ⟨op, .enqueuing⟩ := by
  cases ev with
  | none => exact hf
  | some e =>
    show (w.flights.modify e.client (Flight.resolve .canceled))[i]? = _
    rw [List.getElem?_modify, hf]
    by_cases he : e.client = i <;> simp [he, Flight.resolve]

end Frame

variable [AsyncChannel Q]

/-! ### The steps

The operations are numbered in the order they begin in, and an operation's number is also the name
under which its payload is queued and its reply comes back. -/

/-- The actor as `create` leaves it: one `Addr`, and a loop future that has not been polled. -/
def init (Q : Type → Type) [AsyncChannel Q] (ρ : Type) (capacity : Option ℕ+) (actor : σ) :
    World Q σ ρ :=
  ⟨AsyncChannel.new capacity, 1, .init actor, [], [], [], []⟩

/-- The payloads waiting in the mailbox, oldest first. -/
def queued (w : World Q σ ρ) : List (Envelope σ ρ) := (state w.mailbox).queued

def closed (w : World Q σ ρ) : Bool := (state w.mailbox).closed

def full (w : World Q σ ρ) : Bool := (state w.mailbox).full

/-- A strong sender is alive. -/
def hasSender (w : World Q σ ρ) : Bool := decide (0 < w.handles) || w.flights.any Flight.holds

/-- `WeakTx::upgrade` succeeds. -/
def upgradable (w : World Q σ ρ) : Bool := !w.closed && w.hasSender

/-- There is a handle to begin such an operation with. A `Context` is at hand only inside a call
into the actor. -/
def offers (w : World Q σ ρ) : Via → Bool
  | .strong => decide (0 < w.handles)
  | .weak => true
  | .context => w.task.loop.pc.inCall

/-- The channel closes when its last strong sender is dropped. -/
def settle (w : World Q σ ρ) : World Q σ ρ :=
  if w.hasSender then w else { w with mailbox := AsyncChannel.close w.mailbox }

/-- One step of operation `i`. -/
def advance (w : World Q σ ρ) (i : ℕ) : Option (World Q σ ρ) :=
  match w.flights[i]? with
  | none => none
  | some ⟨op, stage⟩ =>
    match stage with
    | .upgrading =>
      if w.upgradable then some (w.setStage i op.entry)
      else some (w.setStage i (.returned (.error .actorDropped)))
    | .checking =>
      if w.task.running then some (w.setStage i .enqueuing)
      else some (w.setStage i (.returned (.error op.rejected)))
    | .enqueuing =>
      match op.primitive.enqueue w.mailbox ⟨i, op.payload⟩ with
      | none => none
      | some (.error ()) => some (w.setStage i (.returned (.error op.rejected)))
      | some (.ok (evicted, q)) => some (w.accept i op evicted q)
    | .waiting .pending => none
    | .waiting (.ok r) => some (w.setStage i (.returned (.ok r)))
    | .waiting .canceled => some (w.setStage i (.returned (.error .canceled)))
    | .returned _ => none
    | .abandoned => none

/-- `payload_rx.next()`. -/
def receive (E : EventLoop σ) (w : World Q σ ρ) : Option (World Q σ ρ) :=
  match AsyncChannel.tryRecv w.mailbox with
  | .ok (e, q) => (w.task.step E (.receive (.payload e))).map fun t =>
      { w with task := t, mailbox := q, popped := w.popped ++ [e] }
  | .error .closed => (w.task.step E (.receive .closed)).map w.withTask
  | .error .empty => none

/-- One step, without the channel's own reaction to it. -/
def act (E : EventLoop σ) (w : World Q σ ρ) : Label σ ρ → Option (World Q σ ρ)
  | .begin op =>
    if w.offers op.via then some { w with flights := w.flights ++ [⟨op, op.first⟩] } else none
  | .advance i => w.advance i
  | .abandon i =>
    match w.flights[i]? with
    | some f => if f.abandonable then some (w.setStage i .abandoned) else none
    | none => none
  | .clone => if 0 < w.handles then some { w with handles := w.handles + 1 } else none
  | .upgrade => if w.upgradable then some { w with handles := w.handles + 1 } else none
  | .drop => if 0 < w.handles then some { w with handles := w.handles - 1 } else none
  | .poll => (w.task.step E .advance).map fun t => (w.withTask t).answer w.task.loop.reply
  | .receive => w.receive E
  | .item f => (w.task.step E (.receive (.item f))).map w.withTask
  | .streamEnd => (w.task.step E (.receive .streamEnd)).map w.withTask
  | .lower => (w.task.step E .lower).map w.withTask
  | .fire => (w.task.step E .fire).map w.withTask
  | .dropFuture => (w.task.step E .drop).map fun t =>
      (w.withTask t).answer (w.task.loop.pc.client.map (·, .canceled))
  | .dropRx => (w.task.step E .dropRx).map fun t =>
      { w with task := t, mailbox := AsyncChannel.close w.mailbox }
  | .dropCtx => (w.task.step E .dropCtx).map w.withTask

def step (E : EventLoop σ) (w : World Q σ ρ) (l : Label σ ρ) : Option (World Q σ ρ) :=
  (w.act E l).map settle

/-- The actor and its clients as a machine. -/
def machine (Q : Type → Type) [AsyncChannel Q] (ρ : Type) (E : EventLoop σ) (capacity : Option ℕ+)
    (actor : σ) : Machine (World Q σ ρ) (Label σ ρ) :=
  ⟨init Q ρ capacity actor, step E⟩

section Settle

variable (w : World Q σ ρ)

@[simp] theorem settle_task : w.settle.task = w.task := by unfold settle; split <;> rfl
@[simp] theorem settle_flights : w.settle.flights = w.flights := by unfold settle; split <;> rfl
@[simp] theorem settle_ops : w.settle.ops = w.ops := by unfold settle; split <;> rfl
@[simp] theorem settle_handles : w.settle.handles = w.handles := by unfold settle; split <;> rfl
@[simp] theorem settle_accepted : w.settle.accepted = w.accepted := by unfold settle; split <;> rfl
@[simp] theorem settle_popped : w.settle.popped = w.popped := by unfold settle; split <;> rfl
@[simp] theorem settle_completed : w.settle.completed = w.completed := by
  unfold settle; split <;> rfl
@[simp] theorem settle_queued : w.settle.queued = w.queued := by
  unfold settle; split <;> simp [queued]
@[simp] theorem settle_capacity :
    (state w.settle.mailbox).capacity = (state w.mailbox).capacity := by
  unfold settle; split <;> simp

end Settle

/-- Closing is final: `settle` never opens the mailbox. -/
theorem settle_closed (w : World Q σ ρ) : w.settle.closed = (w.closed || !w.hasSender) := by
  unfold settle
  cases h : w.hasSender <;> simp [closed]

@[simp] theorem settle_hasSender (w : World Q σ ρ) : w.settle.hasSender = w.hasSender := by
  simp [hasSender]

/-! ## What one step can do

`Act` lists the outcomes of a step before `settle`, with the guards under which each is taken. All
invariants of the world are proved by cases on it, and none of them unfolds `step`. -/

/-- Everything one step can do, before the channel's own reaction. -/
inductive Act (E : EventLoop σ) (w : World Q σ ρ) : Label σ ρ → World Q σ ρ → Prop where
  | begin (op : Operation σ ρ) (hvia : w.offers op.via = true) :
      Act E w (.begin op) { w with flights := w.flights ++ [⟨op, op.first⟩] }
  | upgraded (i : ℕ) (op : Operation σ ρ) (hf : w.flights[i]? = some ⟨op, .upgrading⟩)
      (hup : w.upgradable = true) : Act E w (.advance i) (w.setStage i op.entry)
  | dropped (i : ℕ) (op : Operation σ ρ) (hf : w.flights[i]? = some ⟨op, .upgrading⟩)
      (hup : w.upgradable = false) :
      Act E w (.advance i) (w.setStage i (.returned (.error .actorDropped)))
  | passed (i : ℕ) (op : Operation σ ρ) (hf : w.flights[i]? = some ⟨op, .checking⟩)
      (hrun : w.task.running = true) : Act E w (.advance i) (w.setStage i .enqueuing)
  | stopped (i : ℕ) (op : Operation σ ρ) (hf : w.flights[i]? = some ⟨op, .checking⟩)
      (hrun : w.task.running = false) :
      Act E w (.advance i) (w.setStage i (.returned (.error op.rejected)))
  | accepted (i : ℕ) (op : Operation σ ρ) (hf : w.flights[i]? = some ⟨op, .enqueuing⟩)
      (evicted : Option (Envelope σ ρ)) (q : Q (Envelope σ ρ))
      (henq : op.primitive.enqueue w.mailbox ⟨i, op.payload⟩ = some (.ok (evicted, q))) :
      Act E w (.advance i) (w.accept i op evicted q)
  | refused (i : ℕ) (op : Operation σ ρ) (hf : w.flights[i]? = some ⟨op, .enqueuing⟩)
      (henq : op.primitive.enqueue w.mailbox ⟨i, op.payload⟩ = some (.error ())) :
      Act E w (.advance i) (w.setStage i (.returned (.error op.rejected)))
  | answered (i : ℕ) (op : Operation σ ρ) (r : Option ρ)
      (hf : w.flights[i]? = some ⟨op, .waiting (.ok r)⟩) :
      Act E w (.advance i) (w.setStage i (.returned (.ok r)))
  | canceled (i : ℕ) (op : Operation σ ρ) (hf : w.flights[i]? = some ⟨op, .waiting .canceled⟩) :
      Act E w (.advance i) (w.setStage i (.returned (.error .canceled)))
  | abandon (i : ℕ) (f : Flight σ ρ) (hf : w.flights[i]? = some f)
      (habandon : f.abandonable = true) :
      Act E w (.abandon i) (w.setStage i .abandoned)
  | clone (hpos : 0 < w.handles) : Act E w .clone { w with handles := w.handles + 1 }
  | upgrade (hup : w.upgradable = true) : Act E w .upgrade { w with handles := w.handles + 1 }
  | drop (hpos : 0 < w.handles) : Act E w .drop { w with handles := w.handles - 1 }
  | poll (t : LoopTask σ ρ) (ht : LoopTask.Step E w.task .advance t) :
      Act E w .poll ((w.withTask t).answer w.task.loop.reply)
  | pop (e : Envelope σ ρ) (q : Q (Envelope σ ρ)) (t : LoopTask σ ρ)
      (hq : AsyncChannel.tryRecv w.mailbox = .ok (e, q))
      (ht : LoopTask.Step E w.task (.receive (.payload e)) t) :
      Act E w .receive { w with task := t, mailbox := q, popped := w.popped ++ [e] }
  | closed (t : LoopTask σ ρ) (hq : AsyncChannel.tryRecv w.mailbox = .error .closed)
      (ht : LoopTask.Step E w.task (.receive .closed) t) : Act E w .receive (w.withTask t)
  | silent (l : Label σ ρ) (tl : TaskLabel σ ρ) (hl : l.silent = some tl) (t : LoopTask σ ρ)
      (ht : LoopTask.Step E w.task tl t) : Act E w l (w.withTask t)
  | dropFuture (t : LoopTask σ ρ) (ht : LoopTask.Step E w.task .drop t) :
      Act E w .dropFuture ((w.withTask t).answer (w.task.loop.pc.client.map (·, .canceled)))
  | dropRx (t : LoopTask σ ρ) (ht : LoopTask.Step E w.task .dropRx t) :
      Act E w .dropRx { w with task := t, mailbox := AsyncChannel.close w.mailbox }

variable {E : EventLoop σ} {w w' : World Q σ ρ} {l : Label σ ρ}

/-- One step of an operation is one of the cases. -/
theorem act_of_advance {i : ℕ} (h : w.advance i = some w') : Act E w (.advance i) w' := by
  unfold advance at h
  split at h
  · cases h
  · next op stage hf =>
    cases stage with
    | upgrading =>
      simp only at h
      split at h
      · next hup => cases h; exact .upgraded i op hf hup
      · next hup => cases h; exact .dropped i op hf (by simpa using hup)
    | checking =>
      simp only at h
      split at h
      · next hrun => cases h; exact .passed i op hf hrun
      · next hrun => cases h; exact .stopped i op hf (by simpa using hrun)
    | enqueuing =>
      simp only at h
      split at h
      · cases h
      · next henq => cases h; exact .refused i op hf henq
      · next evicted q henq => cases h; exact .accepted i op hf evicted q henq
    | waiting reply =>
      cases reply with
      -- the caller is not woken before its oneshot is used or dropped
      | pending => cases h
      | ok r => cases h; exact .answered i op r hf
      | canceled => cases h; exact .canceled i op hf
    | returned res => cases h
    | abandoned => cases h

/-- **Nothing else happens.** -/
theorem act_cases (h : w.act E l = some w') : Act E w l w' := by
  cases l with
  | begin op =>
    simp only [act] at h
    split at h
    · next hvia => cases h; exact .begin op hvia
    · cases h
  | advance i => exact act_of_advance h
  | abandon i =>
    simp only [act] at h
    split at h
    · next f hf =>
      split at h
      · next habandon => cases h; exact .abandon i f hf habandon
      · cases h
    · cases h
  | clone =>
    simp only [act] at h
    split at h
    · next hpos => cases h; exact .clone hpos
    · cases h
  | upgrade =>
    simp only [act] at h
    split at h
    · next hup => cases h; exact .upgrade hup
    · cases h
  | drop =>
    simp only [act] at h
    split at h
    · next hpos => cases h; exact .drop hpos
    · cases h
  | poll =>
    obtain ⟨t, ht, rfl⟩ := Option.map_eq_some_iff.mp h
    exact .poll t (LoopTask.step_cases ht)
  | receive =>
    simp only [act, receive] at h
    split at h
    -- the mailbox hands out its oldest payload
    · next e q hq =>
      obtain ⟨t, ht, rfl⟩ := Option.map_eq_some_iff.mp h
      exact .pop e q t hq (LoopTask.step_cases ht)
    · next hq =>
      obtain ⟨t, ht, rfl⟩ := Option.map_eq_some_iff.mp h
      exact .closed t hq (LoopTask.step_cases ht)
    · cases h
  | item f =>
    obtain ⟨t, ht, rfl⟩ := Option.map_eq_some_iff.mp h
    exact .silent _ _ rfl t (LoopTask.step_cases ht)
  | streamEnd =>
    obtain ⟨t, ht, rfl⟩ := Option.map_eq_some_iff.mp h
    exact .silent _ _ rfl t (LoopTask.step_cases ht)
  | lower =>
    obtain ⟨t, ht, rfl⟩ := Option.map_eq_some_iff.mp h
    exact .silent _ _ rfl t (LoopTask.step_cases ht)
  | fire =>
    obtain ⟨t, ht, rfl⟩ := Option.map_eq_some_iff.mp h
    exact .silent _ _ rfl t (LoopTask.step_cases ht)
  | dropFuture =>
    obtain ⟨t, ht, rfl⟩ := Option.map_eq_some_iff.mp h
    exact .dropFuture t (LoopTask.step_cases ht)
  | dropRx =>
    obtain ⟨t, ht, rfl⟩ := Option.map_eq_some_iff.mp h
    exact .dropRx t (LoopTask.step_cases ht)
  | dropCtx =>
    obtain ⟨t, ht, rfl⟩ := Option.map_eq_some_iff.mp h
    exact .silent _ _ rfl t (LoopTask.step_cases ht)

/-- Operations are never forgotten. -/
theorem ops_of_act (h : Act E w l w') : w.ops <+: w'.ops := by
  cases h with
  | begin op hvia => exact ⟨[op], by simp [ops]⟩
  | clone hpos => exact List.prefix_rfl
  | upgrade hup => exact List.prefix_rfl
  | drop hpos => exact List.prefix_rfl
  | pop e q t hq ht => exact List.prefix_rfl
  | dropRx t ht => exact List.prefix_rfl
  | _ => simp

theorem op_of_act (h : Act E w l w') {i : ℕ} {op : Operation σ ρ} (hop : w.ops[i]? = some op) :
    w'.ops[i]? = some op := by
  obtain ⟨new, hnew⟩ := ops_of_act h
  rw [← hnew, List.getElem?_append_left (List.getElem?_eq_some_iff.mp hop).1]
  exact hop

/-- A closed mailbox stays closed. -/
theorem closed_of_act (h : Act E w l w') (hclosed : w.closed = true) : w'.closed = true := by
  cases h with
  | accepted i op hf evicted q henq =>
    have hopen : w.closed = false := (enqueue_ok henq).1
    simp [hclosed] at hopen
  | pop e q t hq ht => exact (AsyncChannel.tryRecv_ok hq).2.1.trans hclosed
  | poll t ht => simpa [World.closed] using hclosed
  | dropFuture t ht => simpa [World.closed] using hclosed
  | dropRx t ht => simp [World.closed]
  | _ => exact hclosed

/-- The loop future only moves by its own steps. -/
theorem task_of_act (h : Act E w l w') :
    w'.task = w.task ∨ ∃ tl, LoopTask.Step E w.task tl w'.task := by
  cases h with
  | poll t ht => exact .inr ⟨_, by simpa using ht⟩
  | pop e q t hq ht => exact .inr ⟨_, ht⟩
  | closed t hq ht => exact .inr ⟨_, ht⟩
  | silent l tl hl t ht => exact .inr ⟨tl, ht⟩
  | dropFuture t ht => exact .inr ⟨_, by simpa using ht⟩
  | dropRx t ht => exact .inr ⟨_, ht⟩
  | accepted i op hf evicted q henq => exact .inl (by simp)
  | _ => exact .inl rfl

/-- What the loop is given in a step of the world, and where that comes from. -/
inductive Feeds (w : World Q σ ρ) : Label σ ρ → Option (Input σ ρ) → World Q σ ρ → Prop where
  | poll {v : World Q σ ρ} (hpopped : v.popped = w.popped) : Feeds w .poll none v
  | payload {v : World Q σ ρ} (e : Envelope σ ρ) (hqueue : w.queued = e :: v.queued)
      (hpopped : v.popped = w.popped ++ [e]) : Feeds w .receive (some (.payload e)) v
  | closed {v : World Q σ ρ} (hnil : w.queued = []) (hclosed : w.closed = true)
      (hpopped : v.popped = w.popped) : Feeds w .receive (some .closed) v
  | item {v : World Q σ ρ} (f : TaskFn σ ρ) (hpopped : v.popped = w.popped) :
      Feeds w (.item f) (some (.item f)) v
  | streamEnd {v : World Q σ ρ} (hpopped : v.popped = w.popped) :
      Feeds w .streamEnd (some .streamEnd) v

/-- What the loop does in a step of the world. -/
theorem loop_of_act (h : Act E w l w') :
    (w'.popped = w.popped
        ∧ (w'.task.loop = w.task.loop ∨ w'.task.loop = w.task.loop.goto .dropped))
      ∨ ∃ i, EventLoop.Step E w.task.loop i w'.task.loop ∧ Feeds w l i w' := by
  cases h with
  | poll t ht =>
    cases ht with
    | advance s' hs => exact .inr ⟨none, by simpa using hs, .poll (by simp)⟩
  | pop e q t hq ht =>
    obtain ⟨hqueue, -, -⟩ := AsyncChannel.tryRecv_ok hq
    cases ht with
    | receive _ s' hs => exact .inr ⟨_, hs, .payload e hqueue rfl⟩
  | closed t hq ht =>
    obtain ⟨hnil, hclosed⟩ := AsyncChannel.tryRecv_closed hq
    cases ht with
    | receive _ s' hs => exact .inr ⟨_, hs, .closed hnil hclosed rfl⟩
  | silent l tl hl t ht =>
    cases l with
    | item f =>
      cases hl
      cases ht with
      | receive _ s' hs => exact .inr ⟨_, hs, .item f rfl⟩
    | streamEnd =>
      cases hl
      cases ht with
      | receive _ s' hs => exact .inr ⟨_, hs, .streamEnd rfl⟩
    -- these are about what the loop future owns, and leave its state alone
    | lower | fire | dropCtx =>
      cases hl
      cases ht
      exact .inl ⟨rfl, .inl rfl⟩
    | _ => cases hl
  | dropFuture t ht =>
    cases ht with
    | drop hend hnotify => exact .inl ⟨by simp, .inr (by simp)⟩
  | dropRx t ht =>
    cases ht with
    | dropRx hend hrx => exact .inl ⟨rfl, .inl rfl⟩
  | accepted i op hf evicted q henq => exact .inl ⟨by simp, .inl (by simp)⟩
  | _ => exact .inl ⟨rfl, .inl rfl⟩

/-- A loop on its way out takes nothing, and stays there. -/
theorem final_of_act (h : Act E w l w') (hfinal : w.task.loop.pc.final = true) :
    l ≠ .receive ∧ w'.task.loop.pc.final = true := by
  constructor
  · rintro rfl
    cases h with
    | pop e q t hq ht =>
      cases ht with
      | receive x s' hs => exact absurd (EventLoop.final_of_step hs hfinal).1 (by simp)
    | closed t hq ht =>
      cases ht with
      | receive x s' hs => exact absurd (EventLoop.final_of_step hs hfinal).1 (by simp)
    | silent _ tl hl t ht => cases hl
  · rcases loop_of_act h with ⟨-, hsame | hdropped⟩ | ⟨x, hs, -⟩
    · rwa [hsame]
    · rw [hdropped]
      rfl
    · exact (EventLoop.final_of_step hs hfinal).2

/-- A step is one of the cases, followed by the channel's reaction. -/
theorem step_cases (h : w.step E l = some w') : ∃ v, Act E w l v ∧ w' = v.settle := by
  obtain ⟨v, hv, rfl⟩ := Option.map_eq_some_iff.mp h
  exact ⟨v, act_cases hv, rfl⟩

/-- Of a step the loop future sees one of its own, or nothing. -/
theorem task_of_step (h : w.step E l = some w') :
    w'.task = w.task ∨ ∃ tl, w.task.step E tl = some w'.task := by
  obtain ⟨v, hv, rfl⟩ := Option.map_eq_some_iff.mp h
  rw [settle_task]
  cases l with
  | poll | dropFuture | item | streamEnd | lower | fire | dropRx | dropCtx =>
    obtain ⟨t, ht, rfl⟩ := Option.map_eq_some_iff.mp hv
    exact .inr ⟨_, by simpa using ht⟩
  | receive =>
    simp only [act, receive] at hv
    split at hv
    · obtain ⟨t, ht, rfl⟩ := Option.map_eq_some_iff.mp hv
      exact .inr ⟨_, ht⟩
    · obtain ⟨t, ht, rfl⟩ := Option.map_eq_some_iff.mp hv
      exact .inr ⟨_, ht⟩
    · cases hv
  -- the callers never touch the loop future
  | begin | advance | abandon | clone | upgrade | drop =>
    refine .inl ?_
    cases act_cases hv with
    | silent tl t hl ht => cases hl
    | _ => simp

/-- **In every run the loop future goes through a run of its own.** -/
theorem task_run {capacity : Option ℕ+} {a : σ} {ls : List (Label σ ρ)}
    (h : (machine Q ρ E capacity a).Run ls w) : ∃ ks, (LoopTask.machine ρ E a).Run ks w.task :=
  h.projects (π := World.task) rfl fun _ _ _ hstep => task_of_step hstep

/-- Flag, notifier and program counter agree in every state a world reaches. -/
theorem taskInv_step (hinv : w.task.Inv) (h : step E w l = some w') : w'.task.Inv := by
  obtain ⟨v, hact, rfl⟩ := step_cases h
  rw [settle_task]
  rcases task_of_act hact with hsame | ⟨tl, ht⟩
  · rw [hsame]
    exact hinv
  · exact LoopTask.inv_step hinv ht

/-! ## What a receive takes

Whether the loop has a step to take, seen from the mailbox: what is queued can be popped, and an
empty mailbox that is closed tells the loop so. -/

/-- A loop that takes the oldest payload pops it. -/
theorem receive_queued {e : Envelope σ ρ} {rest : List (Envelope σ ρ)} {s : LoopState σ ρ}
    (hq : w.queued = e :: rest) (hs : E.step w.task.loop (some (.payload e)) = some s) :
    ∃ w', step E w .receive = some w' ∧ w'.popped = w.popped ++ [e] ∧ w'.task.loop = s := by
  obtain ⟨q, hrecv⟩ := AsyncChannel.exists_tryRecv hq
  refine ⟨_, by simp only [step, act, receive, hrecv, LoopTask.step, hs]; rfl, ?_, ?_⟩
  · rw [settle_popped]
  · rw [settle_task]

/-- At the end of a closed mailbox a loop stops. -/
theorem receive_closed (hpc : w.task.loop.pc = .receiving) (hnil : w.queued = [])
    (hclosed : w.closed = true) :
    ∃ w', step E w .receive = some w' ∧ w'.task.loop.pc = .stopping := by
  have hrecv := AsyncChannel.tryRecv_of_drained hnil hclosed
  have hs := EventLoop.step_closed E hpc
  refine ⟨_, by simp only [step, act, receive, hrecv, LoopTask.step, hs]; rfl, ?_⟩
  rw [settle_task]
  rfl

end World

end Hannibal
