import Hannibal.Actor
import Hannibal.Lib.AsyncChannel
import Hannibal.Lib.Machine
import Mathlib.Data.List.Perm.Basic
import Mathlib.Logic.Function.Basic

/-!
# Hannibal.Broker — the broker, its clients and its subscribers

`Broker<T>` (`broker.rs`) as one system: the clients that publish and subscribe, the mailbox of the
broker, its handlers, and the subscribers with their own mailboxes. The broker is the registered and
running one, so its clients' `send`s find it running and its mailbox (unbounded) open.

The handler of `Publish` awaits in between and upgrades its subscribers one by one, so each of its
steps is a step here, and everybody else may act between two of them: subscribers lose their last
strong handle, stop, or take from their mailboxes.

* **`SubscriberMap`** — `HashMap<ContextID, WeakSender<T>>`. The order in which it is iterated is
  chosen by the environment.
* **`Phase`** — where the handler of `Publish` stands.
* **`BrokerWorld.step`** — one step of the system.
-/

namespace Hannibal

open Lts Chan
open AsyncChannel (state)

/-- A `WeakSender<T>`: the id in its core, and which of the actor's weak senders it is. Whether it
can be upgraded, and where it sends to, depends on the actor only. -/
structure SenderRef where
  id : ContextID
  via : ℕ
  deriving DecidableEq, Repr

/-- `HashMap<ContextID, WeakSender<T>>`: at most one entry for each id. -/
structure SubscriberMap where
  entries : List SenderRef
  keys_nodup : (entries.map SenderRef.id).Nodup

namespace SubscriberMap

def empty : SubscriberMap := ⟨[], List.nodup_nil⟩

def keys (m : SubscriberMap) : List ContextID := m.entries.map SenderRef.id

def remove (m : SubscriberMap) (a : ContextID) : SubscriberMap where
  entries := m.entries.filter fun s => s.id != a
  keys_nodup := m.keys_nodup.sublist ((List.filter_sublist).map _)

theorem mem_remove {m : SubscriberMap} {a b : ContextID} :
    b ∈ (m.remove a).keys ↔ b ∈ m.keys ∧ b ≠ a := by
  simp only [keys, remove, List.mem_map, List.mem_filter, bne_iff_ne]
  constructor
  · rintro ⟨s, ⟨hs, hne⟩, rfl⟩
    exact ⟨⟨s, hs, rfl⟩, hne⟩
  · rintro ⟨⟨s, hs, rfl⟩, hne⟩
    exact ⟨s, ⟨hs, hne⟩, rfl⟩

def insert (m : SubscriberMap) (s : SenderRef) : SubscriberMap where
  entries := s :: (m.remove s.id).entries
  keys_nodup := List.nodup_cons.mpr ⟨fun h => (mem_remove.mp h).2 rfl, (m.remove s.id).keys_nodup⟩

theorem mem_insert {m : SubscriberMap} {s : SenderRef} {b : ContextID} :
    b ∈ (m.insert s).keys ↔ b ∈ m.keys ∨ b = s.id := by
  have hcons : (m.insert s).keys = s.id :: (m.remove s.id).keys := rfl
  rw [hcons, List.mem_cons, mem_remove]
  by_cases hb : b = s.id <;> simp [hb]

end SubscriberMap

/-- The messages of the broker. A `SubscribeExternal` carries the sending half of a channel;
channels are named by the call that made them. -/
inductive Request (α : Type) where
  | publish (m : α)
  | subscribe (s : SenderRef)
  | subscribeExternal (e : ℕ)
  | unsubscribe (s : SenderRef)

/-- Where the handler of `Publish` stands: at `retain` (still to visit), at `filter_map` (still to
visit, upgraded so far), at a `subscriber.send` (whose own check may have been made), at an external
send, at the last `retain`. The upgraded senders are held to its end. -/
inductive Phase (α : Type) where
  | idle
  | retaining (m : α) (todo : List ContextID)
  | collecting (m : α) (todo live : List ContextID)
  | sending (m : α) (todo live : List ContextID) (checked : Bool)
  | external (m : α) (todo : List ℕ) (live : List ContextID)
  | pruning (m : α) (todo : List ℕ) (live : List ContextID)

variable {Q : Type → Type} {α : Type}

/-- The strong senders the handler holds. -/
def Phase.held : Phase α → List ContextID
  | .collecting _ _ live | .sending _ _ live _ | .external _ _ live | .pruning _ _ live => live
  | _ => []

/-- The request whose handler is running. -/
def Phase.current : Phase α → List (Request α)
  | .idle => []
  | .retaining m _ | .collecting m _ _ | .sending m _ _ _ | .external m _ _ | .pruning m _ _ =>
    [.publish m]

/-- A mailbox or channel the broker sends to. `none` is a payload of somebody else; `arrived`
records the broker's messages that were enqueued. -/
structure Inlet (Q : Type → Type) (α : Type) where
  mailbox : Q (Option α)
  arrived : List α

/-- An actor, as the broker sees it. `strong`: somebody else holds a strong handle. -/
structure Subscriber (Q : Type → Type) (α : Type) where
  inlet : Inlet Q α
  strong : Bool
  running : Bool

/-- A call of a client: its request, and the position at which the broker has accepted it, with
which the call has returned `Ok`. -/
structure ClientCall (α : Type) where
  request : Request α
  accepted : Option ℕ

/-- The broker, its clients and its subscribers. -/
structure BrokerWorld (Q : Type → Type) (α : Type) where
  subscribers : SubscriberMap
  externalSenders : List ℕ
  phase : Phase α
  inbox : List (Request α)
  actors : ContextID → Subscriber Q α
  outlets : ℕ → Inlet Q α
  calls : List (ClientCall α)
  accepted : List (Request α)
  handled : List (Request α)

/-- Everything that can happen next. -/
inductive BrokerLabel (α : Type) where
  /-- a client begins a call -/
  | publish (m : α)
  | subscribe (s : SenderRef)
  | unsubscribe (s : SenderRef)
  | subscribeTo (capacity : Option ℕ+)
  /-- the message of a call is accepted by the broker's mailbox -/
  | send (i : ℕ)
  /-- the broker takes its next message, goes on to `filter_map`, or takes another step -/
  | take (order : List ContextID)
  | collect (order : List ContextID)
  | work
  /-- an actor takes a payload, gets one from somebody else, lowers its flag, loses or regains its
  other strong handles, drops its receiver -/
  | pop (a : ContextID)
  | other (a : ContextID)
  | lower (a : ContextID)
  | release (a : ContextID)
  | acquire (a : ContextID)
  | dropRx (a : ContextID)
  /-- the receiver of an external channel takes an item, or is dropped -/
  | popOutlet (e : ℕ)
  | closeOutlet (e : ℕ)

variable [AsyncChannel Q]

namespace Inlet

def closed (x : Inlet Q α) : Bool := (state x.mailbox).closed

def full (x : Inlet Q α) : Bool := (state x.mailbox).full

/-- `send(..).await` on a strong sender: `none` waits, and the error of a closed channel is only
logged. -/
def send (x : Inlet Q α) (m : α) : Option (Inlet Q α) :=
  match AsyncChannel.trySend x.mailbox (some m) with
  | .ok q => some ⟨q, x.arrived ++ [m]⟩
  | .error .closed => some x
  | .error .full => none

def close (x : Inlet Q α) : Inlet Q α := { x with mailbox := AsyncChannel.close x.mailbox }

/-- The owner takes the oldest payload. -/
def pop (x : Inlet Q α) : Option (Inlet Q α) :=
  match AsyncChannel.tryRecv x.mailbox with
  | .ok (_, q) => some { x with mailbox := q }
  | .error _ => none

/-- Somebody else's payload is enqueued. -/
def other (x : Inlet Q α) : Option (Inlet Q α) :=
  match AsyncChannel.trySend x.mailbox none with
  | .ok q => some { x with mailbox := q }
  | .error _ => none

end Inlet

namespace BrokerWorld

/-- The registered broker, as `Default` makes it, and actors with the given mailboxes. -/
def init (Q : Type → Type) [AsyncChannel Q] (α : Type) (capacity : ContextID → Option ℕ+) :
    BrokerWorld Q α where
  subscribers := .empty
  externalSenders := []
  phase := .idle
  inbox := []
  actors a := ⟨⟨AsyncChannel.new (capacity a), []⟩, true, true⟩
  outlets _ := ⟨AsyncChannel.new none, []⟩
  calls := []
  accepted := []
  handled := []

/-- `WeakSender::upgrade` succeeds: the channel is open, and somebody holds a strong sender. -/
def upgradable (w : BrokerWorld Q α) (a : ContextID) : Bool :=
  !(w.actors a).inlet.closed && ((w.actors a).strong || decide (a ∈ w.phase.held))

/-- The channel of an actor closes when its last strong sender is dropped. -/
def settle (w : BrokerWorld Q α) : BrokerWorld Q α :=
  { w with actors := fun a =>
      if (w.actors a).strong || decide (a ∈ w.phase.held) then w.actors a
      else { w.actors a with inlet := (w.actors a).inlet.close } }

def setActor (w : BrokerWorld Q α) (a : ContextID) (x : Subscriber Q α) : BrokerWorld Q α :=
  { w with actors := Function.update w.actors a x }

def setInlet (w : BrokerWorld Q α) (a : ContextID) (x : Inlet Q α) : BrokerWorld Q α :=
  w.setActor a { w.actors a with inlet := x }

def setOutlet (w : BrokerWorld Q α) (e : ℕ) (x : Inlet Q α) : BrokerWorld Q α :=
  { w with outlets := Function.update w.outlets e x }

def withPhase (w : BrokerWorld Q α) (p : Phase α) : BrokerWorld Q α := { w with phase := p }

/-- A call begins. -/
def begin (w : BrokerWorld Q α) (r : Request α) : BrokerWorld Q α :=
  { w with calls := w.calls ++ [⟨r, none⟩] }

/-- `Handler<Subscribe<T>>`, `Handler<SubscribeExternal<T>>` and `Handler<Unsubscribe<T>>`, and the
begin of `Handler<Publish<T>>`. -/
def handle (w : BrokerWorld Q α) (order : List ContextID) :
    Request α → Option (BrokerWorld Q α)
  | .subscribe s => some { w with
      subscribers := w.subscribers.insert s, handled := w.handled ++ [.subscribe s] }
  | .subscribeExternal e => some { w with
      externalSenders := w.externalSenders ++ [e], handled := w.handled ++ [.subscribeExternal e] }
  | .unsubscribe s => some { w with
      subscribers := w.subscribers.remove s.id, handled := w.handled ++ [.unsubscribe s] }
  | .publish m =>
    if order.Perm w.subscribers.keys then some (w.withPhase (.retaining m order)) else none

/-- The next step of `Handler<Publish<T>>`. -/
def work (w : BrokerWorld Q α) : Option (BrokerWorld Q α) :=
  match w.phase with
  | .idle => none
  | .retaining _ [] => none
  | .retaining m (a :: todo) =>
    if w.upgradable a then some (w.withPhase (.retaining m todo))
    else some { w with subscribers := w.subscribers.remove a, phase := .retaining m todo }
  | .collecting m (a :: todo) live =>
    if w.upgradable a then some (w.withPhase (.collecting m todo (live ++ [a])))
    else some (w.withPhase (.collecting m todo live))
  | .collecting m [] live => some (w.withPhase (.sending m live live false))
  | .sending m (a :: todo) live false =>
    if (w.actors a).running then some (w.withPhase (.sending m (a :: todo) live true))
    else some (w.withPhase (.sending m todo live false))
  | .sending m (a :: todo) live true =>
    ((w.actors a).inlet.send m).map fun x => (w.setInlet a x).withPhase (.sending m todo live false)
  | .sending m [] live _ => some (w.withPhase (.external m w.externalSenders live))
  | .external m (e :: todo) live =>
    ((w.outlets e).send m).map fun x => (w.setOutlet e x).withPhase (.external m todo live)
  | .external m [] live => some (w.withPhase (.pruning m w.externalSenders live))
  | .pruning m (e :: todo) live =>
    if (w.outlets e).closed then some { w with
      externalSenders := w.externalSenders.filter (· != e), phase := .pruning m todo live }
    else some (w.withPhase (.pruning m todo live))
  | .pruning m [] _ => some { w with phase := .idle, handled := w.handled ++ [.publish m] }

/-- One step, without the channels' own reaction. -/
def act (w : BrokerWorld Q α) : BrokerLabel α → Option (BrokerWorld Q α)
  | .publish m => some (w.begin (.publish m))
  | .subscribe s => some (w.begin (.subscribe s))
  | .unsubscribe s => some (w.begin (.unsubscribe s))
  | .subscribeTo capacity => some
      ((w.setOutlet w.calls.length ⟨AsyncChannel.new capacity, []⟩).begin
        (.subscribeExternal w.calls.length))
  | .send i =>
    match w.calls[i]? with
    | some ⟨r, none⟩ => some { w with
        calls := w.calls.modify i fun c => { c with accepted := some w.accepted.length }
        inbox := w.inbox ++ [r], accepted := w.accepted ++ [r] }
    | _ => none
  | .take order =>
    match w.phase, w.inbox with
    | .idle, r :: rest => { w with inbox := rest }.handle order r
    | _, _ => none
  | .collect order =>
    match w.phase with
    | .retaining m [] =>
      if order.Perm w.subscribers.keys then some (w.withPhase (.collecting m order [])) else none
    | _ => none
  | .work => w.work
  | .pop a => (w.actors a).inlet.pop.map (w.setInlet a)
  | .other a => (w.actors a).inlet.other.map (w.setInlet a)
  | .lower a => some (w.setActor a { w.actors a with running := false })
  | .release a => some (w.setActor a { w.actors a with strong := false })
  | .acquire a =>
    if w.upgradable a then some (w.setActor a { w.actors a with strong := true }) else none
  | .dropRx a => some (w.setInlet a (w.actors a).inlet.close)
  | .popOutlet e => (w.outlets e).pop.map (w.setOutlet e)
  | .closeOutlet e => some (w.setOutlet e (w.outlets e).close)

def step (w : BrokerWorld Q α) (l : BrokerLabel α) : Option (BrokerWorld Q α) :=
  (w.act l).map settle

def machine (Q : Type → Type) [AsyncChannel Q] (α : Type) (capacity : ContextID → Option ℕ+) :
    Machine (BrokerWorld Q α) (BrokerLabel α) :=
  ⟨init Q α capacity, step⟩

/-! ## What one step can do

`PublishStep` has one constructor for each step of the handler of `Publish`, and `Act` one for each
step of the system. What the subscribers do in between is only bounded by `Touched`: the arrivals of
a mailbox stay as they are, and a closed one stays closed. -/

/-- Everything one step inside `Handler<Publish<T>>` can do. -/
inductive PublishStep (w : BrokerWorld Q α) : BrokerWorld Q α → Prop where
  | kept (m : α) (a : ContextID) (todo : List ContextID) (hp : w.phase = .retaining m (a :: todo))
      (hup : w.upgradable a = true) : PublishStep w (w.withPhase (.retaining m todo))
  | removed (m : α) (a : ContextID) (todo : List ContextID)
      (hp : w.phase = .retaining m (a :: todo)) (hup : w.upgradable a = false) :
      PublishStep w { w with subscribers := w.subscribers.remove a, phase := .retaining m todo }
  | collecting (m : α) (order : List ContextID) (hp : w.phase = .retaining m [])
      (horder : order.Perm w.subscribers.keys) :
      PublishStep w (w.withPhase (.collecting m order []))
  | upgraded (m : α) (a : ContextID) (todo live : List ContextID)
      (hp : w.phase = .collecting m (a :: todo) live) (hup : w.upgradable a = true) :
      PublishStep w (w.withPhase (.collecting m todo (live ++ [a])))
  | skipped (m : α) (a : ContextID) (todo live : List ContextID)
      (hp : w.phase = .collecting m (a :: todo) live) (hup : w.upgradable a = false) :
      PublishStep w (w.withPhase (.collecting m todo live))
  | collected (m : α) (live : List ContextID) (hp : w.phase = .collecting m [] live) :
      PublishStep w (w.withPhase (.sending m live live false))
  | checked (m : α) (a : ContextID) (todo live : List ContextID)
      (hp : w.phase = .sending m (a :: todo) live false) (hrun : (w.actors a).running = true) :
      PublishStep w (w.withPhase (.sending m (a :: todo) live true))
  | stopped (m : α) (a : ContextID) (todo live : List ContextID)
      (hp : w.phase = .sending m (a :: todo) live false) (hrun : (w.actors a).running = false) :
      PublishStep w (w.withPhase (.sending m todo live false))
  | sent (m : α) (a : ContextID) (todo live : List ContextID)
      (hp : w.phase = .sending m (a :: todo) live true) (x : Inlet Q α)
      (hx : (w.actors a).inlet.send m = some x) :
      PublishStep w ((w.setInlet a x).withPhase (.sending m todo live false))
  | sentAll (m : α) (live : List ContextID) (checked : Bool)
      (hp : w.phase = .sending m [] live checked) :
      PublishStep w (w.withPhase (.external m w.externalSenders live))
  | forwarded (m : α) (e : ℕ) (todo : List ℕ) (live : List ContextID)
      (hp : w.phase = .external m (e :: todo) live) (x : Inlet Q α)
      (hx : (w.outlets e).send m = some x) :
      PublishStep w ((w.setOutlet e x).withPhase (.external m todo live))
  | forwardedAll (m : α) (live : List ContextID) (hp : w.phase = .external m [] live) :
      PublishStep w (w.withPhase (.pruning m w.externalSenders live))
  | pruned (m : α) (e : ℕ) (todo : List ℕ) (live : List ContextID)
      (hp : w.phase = .pruning m (e :: todo) live) (hclosed : (w.outlets e).closed = true) :
      PublishStep w { w with
        externalSenders := w.externalSenders.filter (· != e), phase := .pruning m todo live }
  | spared (m : α) (e : ℕ) (todo : List ℕ) (live : List ContextID)
      (hp : w.phase = .pruning m (e :: todo) live) (hopen : (w.outlets e).closed = false) :
      PublishStep w (w.withPhase (.pruning m todo live))
  | finished (m : α) (live : List ContextID) (hp : w.phase = .pruning m [] live) :
      PublishStep w { w with phase := .idle, handled := w.handled ++ [.publish m] }

end BrokerWorld

/-- The owner of an inlet, or somebody else, touches it: nothing of the broker's arrives, and a
closed inlet stays closed. -/
structure Inlet.Touched (x y : Inlet Q α) : Prop where
  arrived : y.arrived = x.arrived
  opened : y.closed = false → x.closed = false

theorem Inlet.touched_close (x : Inlet Q α) : x.Touched x.close where
  arrived := rfl
  opened h := by simp [Inlet.closed, Inlet.close] at h

theorem Inlet.touched_of_pop {x y : Inlet Q α} (h : x.pop = some y) : x.Touched y := by
  unfold Inlet.pop at h
  split at h
  · next q hq =>
    cases h
    refine ⟨rfl, fun hopen => ?_⟩
    rw [← hopen]
    exact (AsyncChannel.tryRecv_ok hq).2.1.symm
  · cases h

theorem Inlet.touched_of_other {x y : Inlet Q α} (h : x.other = some y) : x.Touched y := by
  unfold Inlet.other at h
  split at h
  · next q hq =>
    cases h
    exact ⟨rfl, fun _ => (AsyncChannel.trySend_ok hq).1⟩
  · cases h

/-- A send either enqueues one copy in an open channel, or finds it closed. -/
theorem Inlet.send_cases {x y : Inlet Q α} {m : α} (h : x.send m = some y) :
    (x.closed = false ∧ y.closed = false ∧ y.arrived = x.arrived ++ [m])
      ∨ (x.closed = true ∧ y = x) := by
  unfold Inlet.send at h
  -- the three answers of `try_send`; at a full mailbox the handler waits
  split at h
  · next q hq =>
    cases h
    obtain ⟨hopen, -, hstate⟩ := AsyncChannel.trySend_ok hq
    refine .inl ⟨hopen, ?_, rfl⟩
    rw [Inlet.closed, hstate, ChannelState.push_closed]
    exact hopen
  · next hq =>
    cases h
    exact .inr ⟨AsyncChannel.trySend_closed hq, rfl⟩
  · cases h

/-- A send waits only at an open channel that is full. -/
theorem Inlet.send_waits {x : Inlet Q α} {m : α} (h : x.send m = none) :
    x.closed = false ∧ x.full = true := by
  unfold Inlet.send at h
  split at h
  · cases h
  · cases h
  · next hq => exact AsyncChannel.trySend_full hq

namespace BrokerWorld

/-- Everything one step can do, before the channels' own reaction. -/
inductive Act (w : BrokerWorld Q α) : BrokerWorld Q α → Prop where
  | begin (r : Request α) (hr : ∀ e, r ≠ .subscribeExternal e) : Act w (w.begin r)
  | subscribeTo (capacity : Option ℕ+) : Act w
      ((w.setOutlet w.calls.length ⟨AsyncChannel.new capacity, []⟩).begin
        (.subscribeExternal w.calls.length))
  | send (i : ℕ) (r : Request α) (hcall : w.calls[i]? = some ⟨r, none⟩) : Act w { w with
      calls := w.calls.modify i fun c => { c with accepted := some w.accepted.length }
      inbox := w.inbox ++ [r], accepted := w.accepted ++ [r] }
  | subscribe (s : SenderRef) (rest : List (Request α)) (hidle : w.phase = .idle)
      (hin : w.inbox = .subscribe s :: rest) : Act w { w with
        inbox := rest, subscribers := w.subscribers.insert s
        handled := w.handled ++ [.subscribe s] }
  | subscribeExternal (e : ℕ) (rest : List (Request α)) (hidle : w.phase = .idle)
      (hin : w.inbox = .subscribeExternal e :: rest) : Act w { w with
        inbox := rest, externalSenders := w.externalSenders ++ [e]
        handled := w.handled ++ [.subscribeExternal e] }
  | unsubscribe (s : SenderRef) (rest : List (Request α)) (hidle : w.phase = .idle)
      (hin : w.inbox = .unsubscribe s :: rest) : Act w { w with
        inbox := rest, subscribers := w.subscribers.remove s.id
        handled := w.handled ++ [.unsubscribe s] }
  | publish (m : α) (rest : List (Request α)) (order : List ContextID) (hidle : w.phase = .idle)
      (hin : w.inbox = .publish m :: rest) (horder : order.Perm w.subscribers.keys) :
      Act w { w with inbox := rest, phase := .retaining m order }
  | work (v : BrokerWorld Q α) (hv : PublishStep w v) : Act w v
  | actor (a : ContextID) (x : Subscriber Q α) (hx : (w.actors a).inlet.Touched x.inlet)
      (hrun : x.running = true → (w.actors a).running = true) : Act w (w.setActor a x)
  | outlet (e : ℕ) (x : Inlet Q α) (hx : (w.outlets e).Touched x) : Act w (w.setOutlet e x)

variable {w v : BrokerWorld Q α} {l : BrokerLabel α}

theorem publishStep_of_work (h : w.work = some v) : PublishStep w v := by
  -- the cases are the phases of the handler, each with its own test on the subscriber that is next
  unfold work at h
  split at h
  · cases h
  · cases h
  · next m a todo hp =>
    split at h
    · next hup => cases h; exact .kept m a todo hp hup
    · next hup => cases h; exact .removed m a todo hp (by simpa using hup)
  · next m a todo live hp =>
    split at h
    · next hup => cases h; exact .upgraded m a todo live hp hup
    · next hup => cases h; exact .skipped m a todo live hp (by simpa using hup)
  · next m live hp => cases h; exact .collected m live hp
  · next m a todo live hp =>
    split at h
    · next hrun => cases h; exact .checked m a todo live hp hrun
    · next hrun => cases h; exact .stopped m a todo live hp (by simpa using hrun)
  · next m a todo live hp =>
    obtain ⟨x, hx, rfl⟩ := Option.map_eq_some_iff.mp h
    exact .sent m a todo live hp x hx
  · next m live checked hp => cases h; exact .sentAll m live checked hp
  · next m e todo live hp =>
    obtain ⟨x, hx, rfl⟩ := Option.map_eq_some_iff.mp h
    exact .forwarded m e todo live hp x hx
  · next m live hp => cases h; exact .forwardedAll m live hp
  · next m e todo live hp =>
    split at h
    · next hclosed => cases h; exact .pruned m e todo live hp hclosed
    · next hopen => cases h; exact .spared m e todo live hp (by simpa using hopen)
  · next m live hp => cases h; exact .finished m live hp

theorem act_of_take {order : List ContextID} (h : w.act (.take order) = some v) : Act w v := by
  simp only [act] at h
  split at h
  · next r rest hidle hin =>
    -- only `Publish` is handled in more than one step
    cases r with
    | subscribe s => cases h; exact .subscribe s rest hidle hin
    | subscribeExternal e => cases h; exact .subscribeExternal e rest hidle hin
    | unsubscribe s => cases h; exact .unsubscribe s rest hidle hin
    | publish m =>
      simp only [handle] at h
      split at h
      · next horder => cases h; exact .publish m rest order hidle hin horder
      · cases h
  · cases h

/-- **Nothing else happens.** -/
theorem act_cases (h : w.act l = some v) : Act w v := by
  cases l with
  | publish m => cases h; exact .begin _ (fun e => nofun)
  | subscribe s => cases h; exact .begin _ (fun e => nofun)
  | unsubscribe s => cases h; exact .begin _ (fun e => nofun)
  | subscribeTo capacity => cases h; exact .subscribeTo capacity
  | send i =>
    simp only [act] at h
    split at h
    · next r hcall => cases h; exact .send i r hcall
    · cases h
  | take order => exact act_of_take h
  -- the order in which the map is iterated comes with the label
  | collect order =>
    simp only [act] at h
    split at h
    · next m hp =>
      split at h
      · next horder => cases h; exact .work _ (.collecting m order hp horder)
      · cases h
    · cases h
  | work => exact .work v (publishStep_of_work h)
  -- from here on: what the subscribers and the outlets do by themselves
  | pop a =>
    obtain ⟨x, hx, rfl⟩ := Option.map_eq_some_iff.mp h
    exact .actor a _ (Inlet.touched_of_pop hx) id
  | other a =>
    obtain ⟨x, hx, rfl⟩ := Option.map_eq_some_iff.mp h
    exact .actor a _ (Inlet.touched_of_other hx) id
  | lower a => cases h; exact .actor a _ ⟨rfl, id⟩ nofun
  | release a => cases h; exact .actor a _ ⟨rfl, id⟩ id
  | acquire a =>
    simp only [act] at h
    split at h
    · cases h; exact .actor a _ ⟨rfl, id⟩ id
    · cases h
  | dropRx a => cases h; exact .actor a _ (Inlet.touched_close _) id
  | popOutlet e =>
    obtain ⟨x, hx, rfl⟩ := Option.map_eq_some_iff.mp h
    exact .outlet e x (Inlet.touched_of_pop hx)
  | closeOutlet e => cases h; exact .outlet e _ (Inlet.touched_close _)

theorem step_cases {w' : BrokerWorld Q α} (h : w.step l = some w') :
    ∃ v, Act w v ∧ w' = v.settle := by
  obtain ⟨v, hv, rfl⟩ := Option.map_eq_some_iff.mp h
  exact ⟨v, act_cases hv, rfl⟩

end BrokerWorld

end Hannibal
