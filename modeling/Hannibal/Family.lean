import Hannibal.Children
import Hannibal.LoopTask
import Hannibal.Operation
import Hannibal.Tracking

/-!
# Hannibal.Family — actors that hold other actors as children

Any number of actors, each with its loop, its mailbox, and a `Context` that holds `Sender`s of its
children and the handles of its background tasks. As in a single `World`, a mailbox closes when its
last strong sender is gone, wherever that was: with a client, in a table of children, or in a
message that is queued somewhere itself. A message that is never run is dropped with the queue it is
in, and a queue is freed when the last handle of its channel goes.

* **`Family`**, **`Family.act`**, **`Family.step`** — all actors, and what can happen next.
  `send_to_children` and `gc` read the flags of the children one after the other; here each is one
  step.
* **`settle`** — the channels' own reaction: queues are freed, and mailboxes close.
* **`Act`** — everything one step can do.
* The history field `sent` records the copies that were forwarded; no step reads it.
-/

namespace Hannibal

open Lts Chan
open AsyncChannel (state)

/-! ## The family -/

/-- An entry of a mailbox, with the handles its message owns: the actors it has strong handles of,
and those it has weak ones of, once for each handle. -/
structure Parcel (σ ρ : Type) where
  envelope : Envelope σ ρ
  owns : List ℕ
  weakly : List ℕ

/-- The message owns no handle. -/
def Parcel.bare {σ ρ : Type} (e : Parcel σ ρ) : Bool := e.owns.isEmpty && e.weakly.isEmpty

/-- One of the actors. `others` counts the strong handles to it that are neither in a table of
children nor owned by a queued message: its addresses, senders and callers, and those an operation
has in its hands. `weaks` counts the weak ones. A strong one that is got after the actor has stopped
counts as a weak one: all that is sent through it is rejected, and it only keeps the channel
allocated. -/
structure Member (Q : Type → Type) (κ σ ρ : Type) where
  mailbox : Q (Parcel σ ρ)
  others : ℕ
  weaks : ℕ
  task : LoopTask σ ρ
  children : Children κ
  /-- the queue of its channel has not been freed; what is in a freed one is only remembered -/
  allocated : Bool

/-- The mailbox closes if it is open and has no sender. -/
def Member.react {Q : Type → Type} [AsyncChannel Q] {κ σ ρ : Type} (m : Member Q κ σ ρ)
    (sender : Bool) : Member Q κ σ ρ :=
  if sender || (state m.mailbox).closed then m
  else { m with mailbox := AsyncChannel.close m.mailbox }

/-- A message of type `M`, by what its handler does at each actor. -/
structure Message (κ σ ρ : Type) where
  type : MessageType κ
  handler : ℕ → TaskFn σ ρ
  owns : List ℕ
  weakly : List ℕ

/-- What `force_send` puts into the mailbox of the actor: the task of its handler, marked with the
call of `send_to_children` it comes from, with clones of the handles of the message. -/
def Message.copy {κ σ ρ : Type} (msg : Message κ σ ρ) (call actor : ℕ) : Parcel σ ρ :=
  ⟨⟨call, .task (msg.handler actor)⟩, msg.owns, msg.weakly⟩

/-- All actors, numbered as they are spawned; their numbers are the `ContextID`s. -/
structure Family (Q : Type → Type) (κ σ ρ : Type) where
  members : List (Member Q κ σ ρ)
  /-- the background tasks, and the maps of the contexts -/
  contexts : ContextWorld
  /-- how often `send_to_children` has been called -/
  calls : ℕ
  sent : List (ℕ × Parcel σ ρ)

/-- Everything that can happen next. -/
inductive FamilyLabel (κ σ ρ : Type) where
  | spawn (capacity : Option ℕ+) (actor : σ)
  /-- a strong handle is cloned, got from a weak one, or dropped; one is used to enqueue a payload,
  into which handles have been cloned -/
  | clone (c : ℕ)
  | upgrade (c : ℕ)
  | drop (c : ℕ)
  | arrive (c : ℕ) (p : Primitive) (e : Parcel σ ρ)
  /-- a weak handle is got, or dropped -/
  | downgrade (c : ℕ)
  | dropWeak (c : ℕ)
  /-- the loop of `c` makes a step of its own, takes from its mailbox, or its parts are dropped -/
  | turn (c : ℕ) (l : TaskLabel σ ρ)
  | receive (c : ℕ)
  | dropRx (c : ℕ)
  | dropCtx (c : ℕ)
  /-- a hook or handler of `p` uses its `Context` -/
  | addChild (p c : ℕ)
  | registerChild (p : ℕ) (m : MessageType κ) (c : ℕ)
  | sendToChildren (p : ℕ) (msg : Message κ σ ρ)
  | gc (p : ℕ)
  | spawnTask (p : ℕ)
  | stopTask (p : ℕ) (h : UInt64)
  /-- a background task completes -/
  | finishTask (i : ℕ)

/-- The steps a loop makes by itself, or with its stream. -/
def TaskLabel.own {σ ρ : Type} : TaskLabel σ ρ → Bool
  | .receive (.payload _) | .receive .closed | .dropRx | .dropCtx => false
  | _ => true

namespace Family

variable {Q : Type → Type} {κ σ ρ : Type}

/-- Something happens to actor `c`. -/
def update (w : Family Q κ σ ρ) (c : ℕ) (φ : Member Q κ σ ρ → Member Q κ σ ρ) : Family Q κ σ ρ :=
  { w with members := w.members.modify c φ }

/-- The running flag of actor `c`. -/
def running (w : Family Q κ σ ρ) (c : ℕ) : Bool := (w.members[c]?).any fun m => m.task.running

/-- `Sender::running`. -/
def isAlive (w : Family Q κ σ ρ) (b : Child κ) : Bool := w.running b.actor

/-- Actor `c` has lowered its running flag. -/
def stopped (w : Family Q κ σ ρ) (c : ℕ) : Bool := (w.members[c]?).any fun m => !m.task.running

/-- Somebody has a strong handle to actor `c` at hand. -/
def handled (w : Family Q κ σ ρ) (c : ℕ) : Bool := (w.members[c]?).any fun m =>
    decide (0 < m.others)

/-- Somebody has a `Sender` of `c` to give away, which may be one that was got after `c` had
stopped. -/
def atHand (w : Family Q κ σ ρ) (c : ℕ) : Bool := w.handled c || w.stopped c

/-- A hook or handler of `p` is running, and has its `Context`. -/
def inCall (w : Family Q κ σ ρ) (p : ℕ) : Bool := (w.members[p]?).any fun m => m.task.loop.pc.inCall

/-- Somebody has a weak handle to `c`, or can get one: from a strong one, or from the `Context` of
`c`. -/
def weaklyAtHand (w : Family Q κ σ ρ) (c : ℕ) : Bool :=
  w.atHand c || w.inCall c || (w.members[c]?).any fun m => decide (0 < m.weaks)

/-- The `Context` of `p` holds a `Sender` of `c`. -/
def holds (w : Family Q κ σ ρ) (p c : ℕ) : Bool := (w.members[p]?).any fun m => m.children.holds c

/-- What the `Context` of `p` has under `TypeId::of::<M>()`. -/
def registered [DecidableEq κ] (w : Family Q κ σ ρ) (p : ℕ) (k : MessageType κ) : List (Child κ) :=
  (w.members[p]?).elim [] fun m => m.children.vec k

/-- All handles a message owns come from ones that are at hand. -/
def provides (w : Family Q κ σ ρ) (owns weakly : List ℕ) : Bool :=
  owns.all w.handled && weakly.all w.weaklyAtHand

variable [AsyncChannel Q]

def init (Q : Type → Type) (κ σ ρ : Type) : Family Q κ σ ρ := ⟨[], .init, 0, []⟩

/-- A message in some queue owns one of the handles `f` lists. -/
def carried (w : Family Q κ σ ρ) (f : Parcel σ ρ → List ℕ) (c : ℕ) : Bool :=
  w.members.any fun m => m.allocated && (state m.mailbox).queued.any fun e => decide (c ∈ f e)

/-- There is a strong handle to actor `c` outside the tables. -/
def outside (w : Family Q κ σ ρ) (c : ℕ) : Bool := w.handled c || w.carried Parcel.owns c

/-- A strong sender of actor `c` is alive. -/
def hasSender (w : Family Q κ σ ρ) (c : ℕ) : Bool :=
  w.outside c || w.members.any fun m => m.children.holds c

/-- A handle of the channel of `c` is alive: its receiver, the weak sender of its `Context`, or
another sender, weak or strong. -/
def attached (w : Family Q κ σ ρ) (c : ℕ) (m : Member Q κ σ ρ) : Bool :=
  m.task.rx || m.task.ctx || decide (0 < m.weaks) || w.carried Parcel.weakly c || w.hasSender c

/-- The queues without a handle are freed, with all that is in them. -/
def free (w : Family Q κ σ ρ) : Family Q κ σ ρ :=
  { w with members := w.members.mapIdx fun c m =>
    { m with allocated := m.allocated && w.attached c m } }

/-- That may have dropped the last handle of another channel, and so on. -/
def release (w : Family Q κ σ ρ) : Family Q κ σ ρ := free^[w.members.length] w

/-- A mailbox closes when its last strong sender is dropped. -/
def close (w : Family Q κ σ ρ) : Family Q κ σ ρ :=
  { w with members := w.members.mapIdx fun c m => m.react (w.hasSender c) }

/-- The channels react. -/
def settle (w : Family Q κ σ ρ) : Family Q κ σ ρ := w.release.close

/-- `WeakTx::upgrade` of an actor that has not stopped succeeds. -/
def upgradable (w : Family Q κ σ ρ) (c : ℕ) : Bool :=
  w.running c && w.hasSender c && !(w.members[c]?).any fun m => (state m.mailbox).closed

/-- `Sender::force_send`; its error is only logged. -/
def forceSend (w : Family Q κ σ ρ) (c : ℕ) (e : Parcel σ ρ) : Family Q κ σ ρ :=
  match w.members[c]? with
  | none => w
  | some m =>
    if m.task.running then
      match AsyncChannel.forceSend m.mailbox e with
      | some (_, q) =>
        { w.update c (fun m => { m with mailbox := q }) with sent := w.sent ++ [(c, e)] }
      | none => w
    else w

/-- A step of the loop of `c`. -/
def onTask (E : ℕ → EventLoop σ) (w : Family Q κ σ ρ) (c : ℕ) (l : TaskLabel σ ρ) :
    Option (Family Q κ σ ρ) :=
  match w.members[c]? with
  | some m => (m.task.step (E c) l).map fun t => w.update c fun m => { m with task := t }
  | none => none

/-- What a message owned is in the hands of its handler now. -/
def unpack (w : Family Q κ σ ρ) (e : Parcel σ ρ) : Family Q κ σ ρ :=
  { w with members := w.members.mapIdx fun d m =>
      { m with others := m.others + e.owns.count d, weaks := m.weaks + e.weakly.count d } }

/-- `payload_rx.next()` of actor `c`. -/
def receive (E : ℕ → EventLoop σ) (w : Family Q κ σ ρ) (c : ℕ) : Option (Family Q κ σ ρ) :=
  match w.members[c]? with
  | some m =>
    match AsyncChannel.tryRecv m.mailbox with
    | .ok (e, q) => (m.task.step (E c) (.receive (.payload e.envelope))).map fun t =>
        (w.update c fun m => { m with task := t, mailbox := q }).unpack e
    | .error .closed => w.onTask E c (.receive .closed)
    | .error .empty => none
  | none => none

/-- Somebody who holds a strong handle to `c` enqueues a payload. -/
def arrive (w : Family Q κ σ ρ) (c : ℕ) (p : Primitive) (e : Parcel σ ρ) :
    Option (Family Q κ σ ρ) :=
  match w.members[c]? with
  | some m =>
    if 0 < m.others ∧ w.provides e.owns e.weakly = true then
      match p.enqueue m.mailbox e with
      | some (.ok (_, q)) => some (w.update c fun m => { m with mailbox := q })
      | _ => none
    else none
  | none => none

variable [DecidableEq κ]

/-- `Children::forward`. -/
def forward (w : Family Q κ σ ρ) (p : ℕ) (msg : Message κ σ ρ) : Family Q κ σ ρ :=
  match (w.members[p]?).bind fun m => m.children.lookup msg.type with
  | some children =>
    (children.filterMap (Children.downcastRef msg.type)).foldl
      (fun w b => w.forceSend b.actor (msg.copy w.calls b.actor)) w
  | none => w

/-- `Context::send_to_children`. -/
def sendToChildren (w : Family Q κ σ ρ) (p : ℕ) (msg : Message κ σ ρ) : Family Q κ σ ρ :=
  { w.forward p msg with calls := w.calls + 1 }

/-- `Context::gc`. -/
def gc (w : Family Q κ σ ρ) (p : ℕ) : Family Q κ σ ρ :=
  { w.update p (fun m => { m with children := m.children.removeStopped w.isAlive }) with
    contexts := w.contexts.gc p }

/-- One step, without the channels' own reaction. -/
def act (E : ℕ → EventLoop σ) (w : Family Q κ σ ρ) : FamilyLabel κ σ ρ → Option (Family Q κ σ ρ)
  | .spawn capacity a =>
    some { w with members := w.members ++ [⟨AsyncChannel.new capacity, 1, 0, .init a, ∅, true⟩] }
  | .clone c =>
    if w.handled c then some (w.update c fun m => { m with others := m.others + 1 }) else none
  | .upgrade c =>
    if w.upgradable c && w.weaklyAtHand c then
      some (w.update c fun m => { m with others := m.others + 1 })
    else if w.stopped c then some w else none
  | .drop c =>
    if w.handled c then some (w.update c fun m => { m with others := m.others - 1 }) else none
  | .arrive c p e => w.arrive c p e
  | .downgrade c =>
    if w.weaklyAtHand c then some (w.update c fun m => { m with weaks := m.weaks + 1 }) else none
  | .dropWeak c =>
    if (w.members[c]?).any fun m => decide (0 < m.weaks) then
      some (w.update c fun m => { m with weaks := m.weaks - 1 })
    else none
  | .turn c l => if l.own then w.onTask E c l else none
  | .receive c => w.receive E c
  | .dropRx c => (w.onTask E c .dropRx).map fun w =>
      w.update c fun m => { m with mailbox := AsyncChannel.close m.mailbox }
  | .dropCtx c => (w.onTask E c .dropCtx).map fun w =>
      { w.update c (fun m => { m with children := ∅ }) with contexts := w.contexts.dropContext c }
  | .addChild p c =>
    if w.inCall p && w.atHand c then
      some (w.update p fun m => { m with children := m.children.add c })
    else none
  | .registerChild p k c =>
    if w.inCall p && w.atHand c then
      some (w.update p fun m => { m with children := m.children.register k c })
    else none
  | .sendToChildren p msg =>
    if w.inCall p && w.provides msg.owns msg.weakly then some (w.sendToChildren p msg) else none
  | .gc p => if w.inCall p then some (w.gc p) else none
  | .spawnTask p =>
    if w.inCall p then some { w with contexts := (w.contexts.spawnTask p).2 } else none
  | .stopTask p h =>
    if w.inCall p then some { w with contexts := w.contexts.stopTask p h } else none
  | .finishTask i => some { w with contexts := w.contexts.conclude .finished i }

def step (E : ℕ → EventLoop σ) (w : Family Q κ σ ρ) (l : FamilyLabel κ σ ρ) :
    Option (Family Q κ σ ρ) := (w.act E l).map settle

/-- The family as a machine; actor `c` runs the loop `E c`. -/
def machine (Q : Type → Type) [AsyncChannel Q] (κ : Type) [DecidableEq κ] (ρ : Type)
    (E : ℕ → EventLoop σ) : Machine (Family Q κ σ ρ) (FamilyLabel κ σ ρ) :=
  ⟨init Q κ σ ρ, step E⟩

/-! ## Who has a sender of whom

A strong sender of an actor is outside (with a client, or in a message that is queued or being
handled), or it is in a table of children. `outside` and `holds` are these two, as tests; the lemmas
turn them into statements about the members. -/

variable {E : ℕ → EventLoop σ} {w w' : Family Q κ σ ρ} {c p : ℕ} {l : FamilyLabel κ σ ρ}
  {m m' : Member Q κ σ ρ} {k : MessageType κ} {b : Child κ}

omit [AsyncChannel Q] [DecidableEq κ]

theorem running_iff : w.running c = true ↔ ∃ m, w.members[c]? = some m ∧ m.task.running = true := by
  rw [running, Option.any_eq_true]

theorem stopped_iff : w.stopped c = true ↔ ∃ m, w.members[c]? = some m
    ∧ m.task.running = false := by
  simp only [stopped, Option.any_eq_true, Bool.not_eq_true']

theorem handled_iff : w.handled c = true ↔ ∃ m, w.members[c]? = some m ∧ 0 < m.others := by
  simp only [handled, Option.any_eq_true, decide_eq_true_eq]

theorem inCall_iff :
    w.inCall p = true ↔ ∃ m, w.members[p]? = some m ∧ m.task.loop.pc.inCall = true := by
  rw [inCall, Option.any_eq_true]

theorem holds_iff [DecidableEq κ] : w.holds p c = true
    ↔ ∃ m, w.members[p]? = some m ∧ ∃ k, ∃ b ∈ m.children.vec k, b.actor = c := by
  simp only [holds, Option.any_eq_true, Children.holds_iff]

theorem carried_iff [AsyncChannel Q] {f : Parcel σ ρ → List ℕ} : w.carried f c = true
    ↔ ∃ (i : ℕ) (m : Member Q κ σ ρ), w.members[i]? = some m ∧ m.allocated = true
      ∧ ∃ e ∈ (state m.mailbox).queued, c ∈ f e := by
  simp only [carried, List.any_eq_true, Bool.and_eq_true, decide_eq_true_eq]
  constructor
  · rintro ⟨m, hm, hcarried⟩
    obtain ⟨i, hi⟩ := List.mem_iff_getElem?.mp hm
    exact ⟨i, m, hi, hcarried⟩
  · rintro ⟨i, m, hi, hcarried⟩
    exact ⟨m, List.mem_of_getElem? hi, hcarried⟩

theorem outside_iff [AsyncChannel Q] :
    w.outside c = true ↔ w.handled c = true ∨ w.carried Parcel.owns c = true := by
  rw [outside, Bool.or_eq_true]

theorem hasSender_iff [AsyncChannel Q] :
    w.hasSender c = true ↔ w.outside c = true ∨ ∃ p, w.holds p c = true := by
  simp only [hasSender, Bool.or_eq_true, List.any_eq_true, holds, Option.any_eq_true]
  refine or_congr_right ⟨fun ⟨m, hm, hholds⟩ => ?_, fun ⟨p, m, hm, hholds⟩ => ?_⟩
  · obtain ⟨p, hp⟩ := List.mem_iff_getElem?.mp hm
    exact ⟨p, m, hp, hholds⟩
  · exact ⟨m, List.mem_of_getElem? hm, hholds⟩

/-- Two changes of one actor are one. -/
theorem update_update {φ ψ : Member Q κ σ ρ → Member Q κ σ ρ} :
    (w.update c φ).update c ψ = w.update c (ψ ∘ φ) := by
  rw [update, update, update, List.modify_modify_eq]

theorem atHand_lt (h : w.atHand c = true) : c < w.members.length := by
  rw [atHand, Bool.or_eq_true, handled_iff, stopped_iff] at h
  rcases h with ⟨m, hm, -⟩ | ⟨m, hm, -⟩ <;> exact (List.getElem?_eq_some_iff.mp hm).1

theorem weaklyAtHand_lt (h : w.weaklyAtHand c = true) : c < w.members.length := by
  simp only [weaklyAtHand, Bool.or_eq_true, inCall_iff, Option.any_eq_true] at h
  rcases h with (hhand | ⟨m, hm, -⟩) | ⟨m, hm, -⟩
  · exact atHand_lt hhand
  · exact (List.getElem?_eq_some_iff.mp hm).1
  · exact (List.getElem?_eq_some_iff.mp hm).1

/-! ## What one step can do

One constructor of `Act` for each label and outcome, with its guards as hypotheses. Where a label
touches several members at once, as `send_to_children` does, what it does to them is a fold. -/

section Act

variable [AsyncChannel Q] [DecidableEq κ]

/-- Everything one step can do, before the mailboxes react. -/
inductive Act (E : ℕ → EventLoop σ) (w : Family Q κ σ ρ) :
    FamilyLabel κ σ ρ → Family Q κ σ ρ → Prop where
  | spawn (capacity : Option ℕ+) (a : σ) :
      Act E w (.spawn capacity a)
        { w with members := w.members ++ [⟨AsyncChannel.new capacity, 1, 0, .init a, ∅, true⟩] }
  | clone (c : ℕ) (m : Member Q κ σ ρ) (hm : w.members[c]? = some m) (hpos : 0 < m.others) :
      Act E w (.clone c) (w.update c fun m => { m with others := m.others + 1 })
  | upgrade (c : ℕ) (m : Member Q κ σ ρ) (hm : w.members[c]? = some m)
      (hup : w.upgradable c = true) (hhand : w.weaklyAtHand c = true) :
      Act E w (.upgrade c) (w.update c fun m => { m with others := m.others + 1 })
  | upgradeStopped (c : ℕ) (hdown : w.stopped c = true) : Act E w (.upgrade c) w
  | drop (c : ℕ) (m : Member Q κ σ ρ) (hm : w.members[c]? = some m) (hpos : 0 < m.others) :
      Act E w (.drop c) (w.update c fun m => { m with others := m.others - 1 })
  | arrive (c : ℕ) (p : Primitive) (e : Parcel σ ρ) (m : Member Q κ σ ρ)
      (evicted : Option (Parcel σ ρ)) (q : Q (Parcel σ ρ)) (hm : w.members[c]? = some m)
      (hpos : 0 < m.others) (hprovides : w.provides e.owns e.weakly = true)
      (henq : p.enqueue m.mailbox e = some (.ok (evicted, q))) :
      Act E w (.arrive c p e) (w.update c fun m => { m with mailbox := q })
  | downgrade (c : ℕ) (m : Member Q κ σ ρ) (hm : w.members[c]? = some m)
      (hhand : w.weaklyAtHand c = true) :
      Act E w (.downgrade c) (w.update c fun m => { m with weaks := m.weaks + 1 })
  | dropWeak (c : ℕ) (m : Member Q κ σ ρ) (hm : w.members[c]? = some m) (hpos : 0 < m.weaks) :
      Act E w (.dropWeak c) (w.update c fun m => { m with weaks := m.weaks - 1 })
  | turn (c : ℕ) (l : TaskLabel σ ρ) (m : Member Q κ σ ρ) (t : LoopTask σ ρ)
      (hm : w.members[c]? = some m) (ht : m.task.step (E c) l = some t) (hown : l.own = true) :
      Act E w (.turn c l) (w.update c fun m => { m with task := t })
  | receive (c : ℕ) (m : Member Q κ σ ρ) (t : LoopTask σ ρ) (e : Parcel σ ρ)
      (q : Q (Parcel σ ρ)) (hm : w.members[c]? = some m)
      (hrecv : AsyncChannel.tryRecv m.mailbox = .ok (e, q))
      (ht : m.task.step (E c) (.receive (.payload e.envelope)) = some t) :
      Act E w (.receive c) ((w.update c fun m => { m with task := t, mailbox := q }).unpack e)
  | receiveClosed (c : ℕ) (m : Member Q κ σ ρ) (t : LoopTask σ ρ) (hm : w.members[c]? = some m)
      (hrecv : AsyncChannel.tryRecv m.mailbox = .error .closed)
      (ht : m.task.step (E c) (.receive .closed) = some t) :
      Act E w (.receive c) (w.update c fun m => { m with task := t })
  | dropRx (c : ℕ) (m : Member Q κ σ ρ) (t : LoopTask σ ρ) (hm : w.members[c]? = some m)
      (ht : m.task.step (E c) .dropRx = some t) :
      Act E w (.dropRx c)
        (w.update c fun m => { m with task := t, mailbox := AsyncChannel.close m.mailbox })
  | dropCtx (c : ℕ) (m : Member Q κ σ ρ) (t : LoopTask σ ρ) (hm : w.members[c]? = some m)
      (ht : m.task.step (E c) .dropCtx = some t) :
      Act E w (.dropCtx c)
        { w.update c (fun m => { m with task := t, children := ∅ }) with
          contexts := w.contexts.dropContext c }
  | addChild (p c : ℕ) (m : Member Q κ σ ρ) (hm : w.members[p]? = some m)
      (hcall : m.task.loop.pc.inCall = true) (hhand : w.atHand c = true) :
      Act E w (.addChild p c) (w.update p fun m => { m with children := m.children.add c })
  | registerChild (p : ℕ) (k : MessageType κ) (c : ℕ) (m : Member Q κ σ ρ)
      (hm : w.members[p]? = some m) (hcall : m.task.loop.pc.inCall = true)
      (hhand : w.atHand c = true) :
      Act E w (.registerChild p k c)
        (w.update p fun m => { m with children := m.children.register k c })
  | sendToChildren (p : ℕ) (msg : Message κ σ ρ) (hcall : w.inCall p = true)
      (hprovides : w.provides msg.owns msg.weakly = true) :
      Act E w (.sendToChildren p msg) (w.sendToChildren p msg)
  | gc (p : ℕ) (m : Member Q κ σ ρ) (hm : w.members[p]? = some m)
      (hcall : m.task.loop.pc.inCall = true) : Act E w (.gc p) (w.gc p)
  | spawnTask (p : ℕ) (hcall : w.inCall p = true) :
      Act E w (.spawnTask p) { w with contexts := (w.contexts.spawnTask p).2 }
  | stopTask (p : ℕ) (h : UInt64) (hcall : w.inCall p = true) :
      Act E w (.stopTask p h) { w with contexts := w.contexts.stopTask p h }
  | finishTask (i : ℕ) :
      Act E w (.finishTask i) { w with contexts := w.contexts.conclude .finished i }

omit [AsyncChannel Q] [DecidableEq κ] in
theorem onTask_cases {i : ℕ} {k : TaskLabel σ ρ} (h : w.onTask E i k = some w') :
    ∃ m t, w.members[i]? = some m ∧ m.task.step (E i) k = some t
      ∧ w' = w.update i fun m => { m with task := t } := by
  rw [onTask] at h
  cases hm : w.members[i]? with
  | none => simp only [hm] at h; cases h
  | some m =>
    simp only [hm] at h
    obtain ⟨t, ht, rfl⟩ := Option.map_eq_some_iff.mp h
    exact ⟨m, t, rfl, ht, rfl⟩

theorem arrive_cases {i : ℕ} {op : Primitive} {e : Parcel σ ρ} (h : w.arrive i op e = some w') :
    Act E w (.arrive i op e) w' := by
  rw [arrive] at h
  cases hm : w.members[i]? with
  | none => simp only [hm] at h; cases h
  | some m =>
    simp only [hm] at h
    obtain ⟨⟨hothers, hprovides⟩, h⟩ := Option.ite_none_right_eq_some.mp h
    -- the sender waits, is refused, or hands its message over
    cases henq : op.enqueue m.mailbox e with
    | none => simp only [henq] at h; cases h
    | some r =>
      simp only [henq] at h
      cases r with
      | error _ => cases h
      | ok r =>
        cases h
        exact .arrive i op e m r.1 r.2 hm hothers hprovides henq

theorem receive_cases {i : ℕ} (h : w.receive E i = some w') : Act E w (.receive i) w' := by
  rw [receive] at h
  cases hm : w.members[i]? with
  | none => simp only [hm] at h; cases h
  | some m =>
    simp only [hm] at h
    cases hrecv : AsyncChannel.tryRecv m.mailbox with
    | ok r =>
      simp only [hrecv] at h
      obtain ⟨t, ht, rfl⟩ := Option.map_eq_some_iff.mp h
      exact .receive i m t r.1 r.2 hm hrecv ht
    -- an empty mailbox keeps the loop waiting, a closed one ends it
    | error err =>
      simp only [hrecv] at h
      cases err with
      | empty => cases h
      | closed =>
        obtain ⟨m', t, hm', ht, rfl⟩ := onTask_cases h
        cases hm.symm.trans hm'
        exact .receiveClosed i m t hm hrecv ht

/-- **Nothing else happens to a family.** -/
theorem act_cases (h : w.act E l = some w') : Act E w l w' := by
  cases l with
  | spawn capacity a =>
    cases h
    exact .spawn capacity a
  | clone c =>
    obtain ⟨hhandled, ⟨⟩⟩ := Option.ite_none_right_eq_some.mp h
    obtain ⟨m, hm, hpos⟩ := handled_iff.mp hhandled
    exact .clone c m hm hpos
  | upgrade c =>
    rw [act] at h
    -- an upgrade of a stopped actor fails, which changes nothing
    by_cases hup : (w.upgradable c && w.weaklyAtHand c) = true
    · rw [if_pos hup] at h
      cases h
      rw [Bool.and_eq_true] at hup
      -- an actor that is running exists
      have hrun : w.running c = true := by
        simp only [upgradable, Bool.and_eq_true] at hup
        exact hup.1.1.1
      obtain ⟨m, hm, -⟩ := running_iff.mp hrun
      exact .upgrade c m hm hup.1 hup.2
    · rw [if_neg hup] at h
      obtain ⟨hdown, ⟨⟩⟩ := Option.ite_none_right_eq_some.mp h
      exact .upgradeStopped c hdown
  | drop c =>
    obtain ⟨hhandled, ⟨⟩⟩ := Option.ite_none_right_eq_some.mp h
    obtain ⟨m, hm, hpos⟩ := handled_iff.mp hhandled
    exact .drop c m hm hpos
  | arrive c p e => exact arrive_cases h
  | downgrade c =>
    obtain ⟨hhand, ⟨⟩⟩ := Option.ite_none_right_eq_some.mp h
    exact .downgrade c _ (List.getElem?_eq_getElem (weaklyAtHand_lt hhand)) hhand
  | dropWeak c =>
    obtain ⟨hweak, ⟨⟩⟩ := Option.ite_none_right_eq_some.mp h
    obtain ⟨m, hm, hpos⟩ := (Option.any_eq_true _ _).mp hweak
    exact .dropWeak c m hm (by simpa using hpos)
  | turn c k =>
    obtain ⟨hown, h⟩ := Option.ite_none_right_eq_some.mp h
    obtain ⟨m, t, hm, ht, rfl⟩ := onTask_cases h
    exact .turn c k m t hm ht hown
  | receive c => exact receive_cases h
  | dropRx c =>
    obtain ⟨u, hu, rfl⟩ := Option.map_eq_some_iff.mp h
    obtain ⟨m, t, hm, ht, rfl⟩ := onTask_cases hu
    rw [update_update]
    exact .dropRx c m t hm ht
  | dropCtx c =>
    obtain ⟨u, hu, rfl⟩ := Option.map_eq_some_iff.mp h
    obtain ⟨m, t, hm, ht, rfl⟩ := onTask_cases hu
    rw [update_update]
    exact .dropCtx c m t hm ht
  | addChild p c =>
    obtain ⟨hmay, ⟨⟩⟩ := Option.ite_none_right_eq_some.mp h
    rw [Bool.and_eq_true, inCall_iff] at hmay
    obtain ⟨⟨m, hm, hcall⟩, hhand⟩ := hmay
    exact .addChild p c m hm hcall hhand
  | registerChild p k c =>
    obtain ⟨hmay, ⟨⟩⟩ := Option.ite_none_right_eq_some.mp h
    rw [Bool.and_eq_true, inCall_iff] at hmay
    obtain ⟨⟨m, hm, hcall⟩, hhand⟩ := hmay
    exact .registerChild p k c m hm hcall hhand
  | sendToChildren p msg =>
    obtain ⟨hmay, ⟨⟩⟩ := Option.ite_none_right_eq_some.mp h
    rw [Bool.and_eq_true] at hmay
    exact .sendToChildren p msg hmay.1 hmay.2
  | gc p =>
    obtain ⟨hcall, ⟨⟩⟩ := Option.ite_none_right_eq_some.mp h
    obtain ⟨m, hm, hcall⟩ := inCall_iff.mp hcall
    exact .gc p m hm hcall
  | spawnTask p =>
    obtain ⟨hcall, ⟨⟩⟩ := Option.ite_none_right_eq_some.mp h
    exact .spawnTask p hcall
  | stopTask p h' =>
    obtain ⟨hcall, ⟨⟩⟩ := Option.ite_none_right_eq_some.mp h
    exact .stopTask p h' hcall
  | finishTask i =>
    cases h
    exact .finishTask i

end Act

end Family

end Hannibal
