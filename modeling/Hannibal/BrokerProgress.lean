import Hannibal.Lib.Budget
import Hannibal.Topic

/-!
# Hannibal.BrokerProgress — what can hold a broker up

The handler of `Publish` sends to one subscriber after the other, and awaits each `send`. Each
request the broker has accepted is handled after a bounded number of its steps; what holds it up is
a subscriber that does not empty its bounded mailbox, and that holds up everything else.

* **`Phase.rest`**, **`rest_of_publishStep`** — the steps left of the handler that is running.
* **`SizeInv`** — how many there can be.
* **`Blocked`** — the handler waits at a full mailbox.
* **`broker_in_time`** — the theorem.
-/

namespace Hannibal

open Lts Chan
open AsyncChannel (state)

variable {Q : Type → Type} {α : Type}

/-- The steps of the broker, as against those of its clients and subscribers. -/
def BrokerLabel.own : BrokerLabel α → ℕ
  | .take _ | .collect _ | .work => 1
  | _ => 0

/-- The steps that are left of a handler, with `n` subscribers and `e` external senders in the
maps. -/
def Phase.rest (n e : ℕ) : Phase α → ℕ
  | .idle => 0
  | .retaining _ todo => todo.length + 3 * n + 2 * e + 7
  | .collecting _ todo live => 3 * todo.length + 2 * live.length + 2 * e + 5
  | .sending _ todo _ false => 2 * todo.length + 2 * e + 4
  | .sending _ todo _ true => 2 * todo.length + 2 * e + 3
  | .external _ todo _ => todo.length + e + 2
  | .pruning _ todo _ => todo.length + 1

namespace BrokerWorld

def rest (w : BrokerWorld Q α) : ℕ :=
  w.phase.rest w.subscribers.entries.length w.externalSenders.length

/-- The subscribers and external senders the broker knows. -/
def size (w : BrokerWorld Q α) : ℕ := w.subscribers.entries.length + w.externalSenders.length

/-- The requests the broker has taken from its mailbox. -/
def taken (w : BrokerWorld Q α) : ℕ := w.handled.length + w.phase.current.length

variable [AsyncChannel Q] {w v w' : BrokerWorld Q α} {l : BrokerLabel α}

omit [AsyncChannel Q] in
theorem length_remove (m : SubscriberMap) (a : ContextID) :
    (m.remove a).entries.length ≤ m.entries.length := List.length_filter_le _ _

omit [AsyncChannel Q] in
theorem length_keys (m : SubscriberMap) {order : List ContextID} (h : order.Perm m.keys) :
    order.length = m.entries.length := by
  rw [h.length_eq, SubscriberMap.keys, List.length_map]

/-- **A handler comes closer to its end with every step.** -/
theorem rest_of_publishStep (h : PublishStep w v) : v.rest + 1 ≤ w.rest := by
  cases h with
  -- the map gets smaller, and its size bounds the phases to come
  | removed m a todo hp hup =>
    have hle := length_remove w.subscribers a
    simp only [rest, hp, Phase.rest, List.length_cons]
    omega
  -- as many subscribers to upgrade as there are keys
  | collecting m order hp horder =>
    have hlen := length_keys w.subscribers horder
    simp only [rest, withPhase, hp, Phase.rest, List.length_nil]
    omega
  | sent m a todo live hp x hx =>
    simp only [rest, withPhase, setInlet, setActor, hp, Phase.rest, List.length_cons]
    omega
  -- the next subscriber, or the external senders if there is none left
  | sentAll m live checked hp =>
    cases checked <;> simp only [rest, withPhase, hp, Phase.rest, List.length_nil] <;> omega
  | forwarded m e todo live hp x hx =>
    simp only [rest, withPhase, setOutlet, hp, Phase.rest, List.length_cons]
    omega
  | kept m a todo hp | upgraded m a todo live hp | skipped m a todo live hp | collected m live hp
  | checked m a todo live hp | stopped m a todo live hp | forwardedAll m live hp
  | pruned m e todo live hp | spared m e todo live hp | finished m live hp =>
    simp only [rest, withPhase, hp, Phase.rest, List.length_cons, List.length_nil,
      List.length_append]
    omega

/-- Its request was taken before, and is handled at its end. -/
theorem taken_of_publishStep (h : PublishStep w v) :
    v.taken = w.taken ∧ w.handled.length ≤ v.handled.length := by
  cases h with
  -- the request moves from the one in hand to those that have been handled
  | finished m live hp =>
    refine ⟨?_, ?_⟩
    · simp only [taken, hp, Phase.current, List.length_append, List.length_nil, Nat.add_zero]
    · simp only [List.length_append]
      omega
  | kept m a todo hp | removed m a todo hp | collecting m order hp | upgraded m a todo live hp
  | skipped m a todo live hp | collected m live hp | checked m a todo live hp
  | stopped m a todo live hp | sent m a todo live hp | sentAll m live checked hp
  | forwarded m e todo live hp | forwardedAll m live hp | pruned m e todo live hp
  | spared m e todo live hp =>
    refine ⟨?_, le_rfl⟩
    simp only [taken, withPhase, setInlet, setActor, setOutlet, hp, Phase.current]

theorem size_of_publishStep (h : PublishStep w v) : v.size ≤ w.size := by
  cases h with
  | removed m a todo hp hup =>
    have hle := length_remove w.subscribers a
    simp only [size]
    omega
  | pruned m e todo live hp hclosed =>
    have hle := List.length_filter_le (· != e) w.externalSenders
    simp only [size]
    omega
  | _ => exact le_rfl

/-- What a step of the broker comes to: it goes on with the handler that is running, or begins with
the next request. -/
structure Spends (w v : BrokerWorld Q α) : Prop where
  closer : (v.taken = w.taken ∧ v.rest + 1 ≤ w.rest)
    ∨ (w.phase = .idle ∧ v.taken = w.taken + 1 ∧ v.rest ≤ 4 * w.size + 7)
  handled : w.handled.length ≤ v.handled.length
  size : v.size + w.handled.length ≤ w.size + v.handled.length

theorem spends_of_publishStep (h : PublishStep w v) : Spends w v := by
  have hrest := rest_of_publishStep h
  obtain ⟨htaken, hhandled⟩ := taken_of_publishStep h
  have hsize := size_of_publishStep h
  exact ⟨.inl ⟨htaken, hrest⟩, hhandled, by omega⟩

omit [AsyncChannel Q] in
theorem spends_of_handle {order : List ContextID} {r : Request α} {rest : List (Request α)}
    (hidle : w.phase = .idle) (h : { w with inbox := rest }.handle order r = some v) :
    Spends w v := by
  -- a `Publish` starts a handler that has all its steps before it; the others are done in one
  cases r with
  | publish m =>
    simp only [handle] at h
    split at h
    · next horder =>
      cases h
      have hlen := length_keys w.subscribers horder
      refine ⟨.inr ⟨hidle, ?_, ?_⟩, le_rfl, le_rfl⟩
      · simp [taken, withPhase, hidle, Phase.current]
      · simp only [BrokerWorld.rest, withPhase, Phase.rest, BrokerWorld.size]
        omega
    · cases h
  | subscribe s =>
    cases h
    have hle := length_remove w.subscribers s.id
    refine ⟨.inr ⟨hidle, ?_, ?_⟩, ?_, ?_⟩
    · simp [taken, hidle, Phase.current]
    · simp [BrokerWorld.rest, hidle, Phase.rest]
    · simp
    · simp only [BrokerWorld.size, SubscriberMap.insert, List.length_cons, List.length_append]
      omega
  | subscribeExternal e =>
    cases h
    refine ⟨.inr ⟨hidle, ?_, ?_⟩, ?_, ?_⟩
    · simp [taken, hidle, Phase.current]
    · simp [BrokerWorld.rest, hidle, Phase.rest]
    · simp
    · simp only [BrokerWorld.size, List.length_append, List.length_singleton]
      omega
  | unsubscribe s =>
    cases h
    have hle := length_remove w.subscribers s.id
    refine ⟨.inr ⟨hidle, ?_, ?_⟩, ?_, ?_⟩
    · simp [taken, hidle, Phase.current]
    · simp [BrokerWorld.rest, hidle, Phase.rest]
    · simp
    · simp only [BrokerWorld.size, List.length_append, List.length_singleton]
      omega

/-- A step of the broker is one of these; the others do not touch it. -/
theorem spends_of_act (h : w.act l = some v) : (l.own = 1 ∧ Spends w v)
    ∨ (l.own = 0 ∧ v.phase = w.phase ∧ v.handled = w.handled ∧ v.subscribers = w.subscribers
      ∧ v.externalSenders = w.externalSenders) := by
  cases l with
  | take order =>
    simp only [act] at h
    split at h
    · next r rest hidle hin => exact .inl ⟨rfl, spends_of_handle hidle h⟩
    · cases h
  | collect order =>
    simp only [act] at h
    split at h
    · next m hp =>
      split at h
      · next horder =>
        cases h
        exact .inl ⟨rfl, spends_of_publishStep (.collecting m order hp horder)⟩
      · cases h
    · cases h
  | work => exact .inl ⟨rfl, spends_of_publishStep (publishStep_of_work h)⟩
  -- the labels below are not the broker's own
  | send i =>
    simp only [act] at h
    split at h
    · cases h
      exact .inr ⟨rfl, rfl, rfl, rfl, rfl⟩
    · cases h
  | acquire a =>
    simp only [act] at h
    split at h
    · cases h
      exact .inr ⟨rfl, rfl, rfl, rfl, rfl⟩
    · cases h
  | pop a | other a | popOutlet e =>
    obtain ⟨x, -, rfl⟩ := Option.map_eq_some_iff.mp h
    exact .inr ⟨rfl, rfl, rfl, rfl, rfl⟩
  | publish | subscribe | unsubscribe | subscribeTo | lower | release | dropRx | closeOutlet =>
    cases h
    exact .inr ⟨rfl, rfl, rfl, rfl, rfl⟩

/-- There are no more subscribers than requests handled, and no more is left of a handler than they
need. -/
structure SizeInv (w : BrokerWorld Q α) : Prop where
  calls : CallInv w
  size : w.size ≤ w.handled.length
  rest : w.rest ≤ 4 * w.handled.length + 7

theorem sizeInv_init (capacity : ContextID → Option ℕ+) : SizeInv (init Q α capacity) where
  calls := callInv_init capacity
  size := Nat.zero_le _
  rest := Nat.zero_le _

theorem sizeInv_step (hinv : SizeInv w) (h : w.step l = some w') : SizeInv w' := by
  obtain ⟨v, hv, rfl⟩ := Option.map_eq_some_iff.mp h
  have hcalls := callInv_act hinv.calls (act_cases hv)
  refine ⟨hcalls.frame rfl rfl rfl, ?_, ?_⟩
  · show v.size ≤ v.handled.length
    have hsize := hinv.size
    rcases spends_of_act hv with ⟨-, hadv⟩ | ⟨-, -, hhandled, hsubs, hext⟩
    · have hgrown := hadv.size
      omega
    · rwa [BrokerWorld.size, hhandled, hsubs, hext]
  · show v.rest ≤ 4 * v.handled.length + 7
    have hsize := hinv.size
    have hrest := hinv.rest
    rcases spends_of_act hv with ⟨-, hadv⟩ | ⟨-, hphase, hhandled, hsubs, hext⟩
    · have hle := hadv.handled
      rcases hadv.closer with ⟨-, hless⟩ | ⟨-, -, hnew⟩
      -- inside a handler: it only gets shorter
      · omega
      · omega
    · rwa [BrokerWorld.rest, hphase, hhandled, hsubs, hext]

theorem handled_le_of_run {capacity : ContextID → Option ℕ+} {ms : List (BrokerLabel α)}
    (h : ((machine Q α capacity).startingAt w).Run ms w') :
    w.handled.length ≤ w'.handled.length := by
  refine h.invariant (I := fun u => w.handled.length ≤ u.handled.length) le_rfl ?_
  intro s l s' hs hstep
  obtain ⟨v, hv, rfl⟩ := Option.map_eq_some_iff.mp hstep
  show w.handled.length ≤ v.handled.length
  rcases spends_of_act hv with ⟨-, hadv⟩ | ⟨-, -, hhandled, -⟩
  · exact hs.trans hadv.handled
  · rwa [hhandled]

/-! ## Until a request has been handled

`budget k` counts the steps left until the request at position `k` is handled: those of the handler
that is running, and `4 * k + 8` for each request still to be taken. `SizeInv` keeps the map and the
handler that small, each step of the broker pays one, and the others cost nothing. -/

/-- The steps of the broker that are left until the request at position `k` of its log is
handled. -/
def budget (k : ℕ) (w : BrokerWorld Q α) : ℕ := (k + 1 - w.taken) * (4 * k + 8) + w.rest

/-- **Every step of the broker is paid for.** -/
theorem SizeInv.pays {k : ℕ} (hinv : SizeInv w) (h : w.step l = some w')
    (hk : w'.handled.length ≤ k) :
    w.handled.length ≤ k ∧ l.own + w'.budget k ≤ w.budget k := by
  obtain ⟨v, hv, rfl⟩ := Option.map_eq_some_iff.mp h
  change v.handled.length ≤ k at hk
  show _ ∧ l.own + v.budget k ≤ w.budget k
  have hsize := hinv.size
  -- a step of the broker pays, and a step of anybody else leaves the budget as it is
  rcases spends_of_act hv with ⟨hown, hadv⟩ | ⟨hown, hphase, hhandled, hsubs, hext⟩
  · have hle := hadv.handled
    refine ⟨by omega, ?_⟩
    rw [budget, budget, hown]
    rcases hadv.closer with ⟨htaken, hless⟩ | ⟨hidle, htaken, hnew⟩
    · rw [htaken]
      omega
    · -- the request that is taken is one of those up to `k`
      have hwas : w.taken = w.handled.length := by simp [taken, hidle, Phase.current]
      obtain ⟨n, hn⟩ : ∃ n, k + 1 - w.taken = n + 1 := ⟨k - w.taken, by omega⟩
      have hn' : k + 1 - v.taken = n := by omega
      have hmul : (n + 1) * (4 * k + 8) = n * (4 * k + 8) + (4 * k + 8) := Nat.add_one_mul n _
      rw [hn, hn', hmul]
      omega
  · refine ⟨hhandled ▸ hk, ?_⟩
    rw [budget, budget, hown, taken, taken, BrokerWorld.rest, BrokerWorld.rest, hphase,
      hhandled, hsubs, hext, Nat.zero_add]

omit [AsyncChannel Q] in
theorem SizeInv.budget_le {k : ℕ} (hinv : SizeInv w) (hk : w.handled.length ≤ k) :
    w.budget k ≤ (k + 1 - w.handled.length) * (4 * k + 8) := by
  have hrest := hinv.rest
  unfold budget taken
  by_cases hidle : w.phase = .idle
  · simp [BrokerWorld.rest, hidle, Phase.rest, Phase.current]
  · -- what is left of the handler that is running is paid for by its own request
    have hcurrent : w.phase.current.length = 1 := by cases hp : w.phase <;> simp_all [Phase.current]
    obtain ⟨n, hn⟩ : ∃ n, k + 1 - w.handled.length = n + 1 := ⟨k - w.handled.length, by omega⟩
    have hn' : k + 1 - (w.handled.length + 1) = n := by omega
    have hmul : (n + 1) * (4 * k + 8) = n * (4 * k + 8) + (4 * k + 8) := Nat.add_one_mul n _
    rw [hcurrent, hn, hn', hmul]
    omega

/-- The handler waits at an open mailbox that is full. -/
def Blocked (w : BrokerWorld Q α) : Prop :=
  (∃ m a todo live, w.phase = .sending m (a :: todo) live true
      ∧ (w.actors a).inlet.closed = false ∧ (w.actors a).inlet.full = true)
    ∨ ∃ m e todo live, w.phase = .external m (e :: todo) live
      ∧ (w.outlets e).closed = false ∧ (w.outlets e).full = true

/-- A handler that is running goes on, unless it waits at a full mailbox. -/
theorem works (hphase : w.phase ≠ .idle) (hretain : ∀ m, w.phase ≠ .retaining m []) :
    w.Blocked ∨ ∃ v, w.work = some v := by
  unfold work
  split
  · next hp => exact absurd hp hphase
  · next m hp => exact absurd hp (hretain m)
  · split <;> exact .inr ⟨_, rfl⟩
  · split <;> exact .inr ⟨_, rfl⟩
  · exact .inr ⟨_, rfl⟩
  · split <;> exact .inr ⟨_, rfl⟩
  -- the two sends are the only places where a handler can wait
  · next m a todo live hp =>
    cases hx : (w.actors a).inlet.send m with
    | none => exact .inl (.inl ⟨m, a, todo, live, hp, Inlet.send_waits hx⟩)
    | some x => exact .inr ⟨_, rfl⟩
  · exact .inr ⟨_, rfl⟩
  · next m e todo live hp =>
    cases hx : (w.outlets e).send m with
    | none => exact .inl (.inr ⟨m, e, todo, live, hp, Inlet.send_waits hx⟩)
    | some x => exact .inr ⟨_, rfl⟩
  · exact .inr ⟨_, rfl⟩
  · split <;> exact .inr ⟨_, rfl⟩
  · exact .inr ⟨_, rfl⟩

/-- **The broker goes on.** As long as a request is not handled, it can take a step, or it waits at
a full mailbox. -/
theorem goes_on (hinv : CallInv w) (h : w.handled.length < w.accepted.length) :
    w.Blocked ∨ ∃ l : BrokerLabel α, l.own = 1 ∧ (w.step l).isSome = true := by
  -- an idle broker takes its next request; one in a handler takes the handler's next step
  by_cases hidle : w.phase = .idle
  · have hlog := congrArg List.length hinv.log
    cases hin : w.inbox with
    | nil =>
      simp [hidle, hin, Phase.current] at hlog
      omega
    | cons r rest =>
      refine .inr ⟨.take w.subscribers.keys, rfl, ?_⟩
      cases r <;> simp [step, act, hidle, hin, handle]
  -- this step needs an order of iteration, which the environment gives
  by_cases hretain : ∃ m, w.phase = .retaining m []
  · obtain ⟨m, hp⟩ := hretain
    exact .inr ⟨.collect w.subscribers.keys, rfl, by simp [step, act, hp]⟩
  · refine (works hidle fun m hp => hretain ⟨m, hp⟩).imp_right ?_
    rintro ⟨v, hv⟩
    exact ⟨.work, rfl, by simp [step, act, hv]⟩

/-- **Only a full mailbox holds a broker up.** In every interleaving of clients, subscribers and
broker: as long as the request at position `k` of its log is not handled, the broker has taken no
more than `4 * k + 8` steps for each request up to it; and it can take another one, unless it waits
at an open mailbox or channel that is full. -/
theorem broker_in_time {capacity : ContextID → Option ℕ+} {ls ms : List (BrokerLabel α)}
    (h : (machine Q α capacity).Run ls w)
    (h' : ((machine Q α capacity).startingAt w).Run ms w') {k : ℕ}
    (hk : k < w.accepted.length) (hk' : w'.handled.length ≤ k) :
    Machine.spent BrokerLabel.own ms ≤ (k + 1 - w.handled.length) * (4 * k + 8)
      ∧ (w'.Blocked ∨ ∃ l : BrokerLabel α, l.own = 1 ∧ (w'.step l).isSome = true) := by
  have hinv : SizeInv w :=
    h.invariant (I := SizeInv) (sizeInv_init capacity) fun _ _ _ hs hstep => sizeInv_step hs hstep
  -- the bound is the budget at the start; progress is a property of the state
  constructor
  · have hbudget : Machine.spent BrokerLabel.own ms + w'.budget k
        ≤ w.budget k + Machine.spent (fun _ => 0) ms :=
      h'.within_budget (budget k) BrokerLabel.own (fun _ => 0) (J := SizeInv)
        (I := fun u => u.handled.length ≤ k) hinv (fun _ _ _ hs hstep => sizeInv_step hs hstep)
        (fun _ _ _ hs hstep hk => hs.pays hstep hk) hk'
    have hfree : Machine.spent (fun _ : BrokerLabel α => 0) ms = 0 := by simp [Machine.spent]
    have hstart := hinv.budget_le ((handled_le_of_run h').trans hk')
    omega
  · have hinv' : SizeInv w' :=
      h'.invariant (I := SizeInv) hinv fun _ _ _ hs hstep => sizeInv_step hs hstep
    have hlog := (later_of_run (List.prefix_append ls ms) h (h.append h')).log.length_le
    exact goes_on hinv'.calls (by omega)

/-- An actor with room for `n` payloads subscribes, and another one with an unbounded mailbox; then
two messages are published. -/
def narrowBroker (n : ℕ+) : Machine (BrokerWorld ChannelState ℕ) (BrokerLabel ℕ) :=
  machine ChannelState ℕ fun a => if a = 0 then some n else none

def publishedTwice : List (BrokerLabel ℕ) :=
  [.subscribe ⟨1, 0⟩, .send 0, .subscribe ⟨0, 0⟩, .send 1, .publish 5, .send 2, .publish 6, .send 3]

/-- The broker gets to the second message, and waits at the first actor, which has not taken its
first one. -/
def toTheFull : List (BrokerLabel ℕ) :=
  [.take [], .take [], .take [0, 1], .work, .work, .collect [0, 1], .work, .work, .work, .work,
    .work, .work, .work, .work, .work, .work, .take [0, 1], .work, .work, .collect [0, 1], .work,
    .work, .work, .work]

theorem broker_in_time_full : Machine.spent BrokerLabel.own toTheFull ≤ 80
    ∧ (((narrowBroker 1).startingAt ((narrowBroker 1).after publishedTwice rfl)).after toTheFull
      rfl).Blocked :=
  ⟨(broker_in_time ((narrowBroker 1).run_after publishedTwice rfl)
      (((narrowBroker 1).startingAt ((narrowBroker 1).after publishedTwice rfl)).run_after
        toTheFull rfl)
      (k := 3) (by decide) (by decide)).1, .inl ⟨6, 0, [1], [0, 1], rfl, rfl, rfl⟩⟩

end BrokerWorld

end Hannibal
