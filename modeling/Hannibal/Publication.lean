import Hannibal.Delivery

/-!
# Hannibal.Publication — the broker delivers

* **`exists_quiet`** — the broker comes to the end of its inbox by its own steps, if receivers drain
  the channels it waits for.
* **`broker_delivery`** — the theorem about every run.
-/

namespace Hannibal

open Lts Chan PubSub
open AsyncChannel (state)

variable {Q : Type → Type} {α : Type}

/-- A step of the broker itself, or of a receiver that takes an item. -/
def BrokerLabel.onward : BrokerLabel α → Bool
  | .take _ | .collect _ | .work | .pop _ | .popOutlet _ => true
  | _ => false

namespace BrokerWorld

variable [AsyncChannel Q] {w v : BrokerWorld Q α} {l : Listener}

/-! ## The handler gets to its end

Effort is the number of steps of the phases that lie ahead. A broker that is not quiet takes a step
of its own, or a full mailbox is drained; the pair of inbox length and effort goes down, or the
backlog does. -/

/-- The broker has nothing to do. -/
def quiet (w : BrokerWorld Q α) : Prop := w.phase = .idle ∧ w.inbox = []

/-- The handler waits for room in a channel that is open and full. -/
def waits (w : BrokerWorld Q α) : Prop :=
  match w.phase with
  | .sending _ (a :: _) _ true =>
    (w.actors a).inlet.closed = false ∧ (w.actors a).inlet.full = true
  | .external _ (e :: _) _ => (w.outlets e).closed = false ∧ (w.outlets e).full = true
  | _ => False

/-- What the handler has still to do, in steps. -/
def effort (w : BrokerWorld Q α) : ℕ :=
  let out := w.externalSenders.length
  match w.phase with
  | .idle => 0
  | .pruning _ todo _ => todo.length + 1
  | .external _ todo _ => todo.length + out + 2
  | .sending _ todo _ checked => 2 * todo.length + 2 * out + 4 - (if checked then 1 else 0)
  | .collecting _ todo live => 3 * todo.length + 2 * live.length + 2 * out + 5
  | .retaining _ todo => todo.length + 3 * w.subscribers.entries.length + 2 * out + 6

/-- What is queued in the channel the handler sends to. -/
def backlog (w : BrokerWorld Q α) : ℕ :=
  match w.phase with
  | .sending _ (a :: _) _ _ => (state (w.actors a).inlet.mailbox).queued.length
  | .external _ (e :: _) _ => (state (w.outlets e).mailbox).queued.length
  | _ => 0

theorem backlog_settle (w : BrokerWorld Q α) : w.settle.backlog = w.backlog := by
  have hsame : ∀ a, (state (w.settle.actors a).inlet.mailbox).queued
      = (state (w.actors a).inlet.mailbox).queued := by
    intro a
    simp only [settle]
    split <;> simp [Inlet.close]
  simp only [backlog, hsame]
  rfl

/-- Every step of the handler brings it closer to its end. -/
theorem effort_publishStep (hv : PublishStep w v) : v.effort < w.effort := by
  cases hv with
  | removed m a todo hp hup =>
    have hle : (w.subscribers.remove a).entries.length ≤ w.subscribers.entries.length :=
      List.length_filter_le _ _
    simp only [effort, hp, List.length_cons]
    omega
  | collecting m order hp horder =>
    have hlen : order.length = w.subscribers.entries.length := by
      rw [horder.length_eq, SubscriberMap.keys, List.length_map]
    simp [effort, withPhase, hp, hlen]
  | sentAll m live checked hp =>
    cases checked <;> simp [effort, withPhase, hp] <;> omega
  | _ =>
    simp [effort, withPhase, setInlet, setActor, setOutlet, *]
    try omega

theorem inbox_publishStep (hv : PublishStep w v) : v.inbox = w.inbox := by
  cases hv <;> rfl

/-- The handler goes on, unless it waits. -/
theorem exists_work (hidle : w.phase ≠ .idle) (hcollect : ∀ m, w.phase ≠ .retaining m [])
    (hwaits : ¬ waits w) : ∃ v, w.work = some v := by
  -- the handler stands in one of its phases; two of them send, and may have to wait
  unfold work
  split
  · next hp => exact absurd hp hidle
  · next m hp => exact absurd hp (hcollect m)
  · split <;> exact ⟨_, rfl⟩
  · split <;> exact ⟨_, rfl⟩
  · exact ⟨_, rfl⟩
  · split <;> exact ⟨_, rfl⟩
  · next m a todo live hp =>
    cases hsend : (w.actors a).inlet.send m with
    | some x => exact ⟨_, rfl⟩
    | none => exact absurd (by simpa only [waits, hp] using Inlet.send_waits hsend) hwaits
  · exact ⟨_, rfl⟩
  · next m e todo live hp =>
    cases hsend : (w.outlets e).send m with
    | some x => exact ⟨_, rfl⟩
    | none => exact absurd (by simpa only [waits, hp] using Inlet.send_waits hsend) hwaits
  · exact ⟨_, rfl⟩
  · split <;> exact ⟨_, rfl⟩
  · exact ⟨_, rfl⟩

/-- A step that brings the broker closer to its end: its inbox gets shorter, or the handler has
less to do, or the channel it waits for has more room. Nothing new is accepted. -/
structure Advances (w v : BrokerWorld Q α) : Prop where
  accepted : v.accepted = w.accepted
  less : v.inbox.length < w.inbox.length ∨ v.inbox.length = w.inbox.length ∧
    (v.effort < w.effort ∨ v.effort = w.effort ∧ v.backlog < w.backlog)

/-- As long as there is something to do and it need not wait, the broker takes a step. -/
theorem exists_own_step (hquiet : ¬ quiet w) (hwaits : ¬ waits w) :
    ∃ (l : BrokerLabel α) (v : BrokerWorld Q α), l.onward = true ∧ w.step l = some v
      ∧ Advances w v := by
  -- a step of the handler takes nothing from the inbox, and has less effort before it
  have hgo : ∀ {l : BrokerLabel α} {v : BrokerWorld Q α}, l.onward = true → w.act l = some v →
      PublishStep w v → ∃ (l : BrokerLabel α) (v : BrokerWorld Q α), l.onward = true
        ∧ w.step l = some v ∧ Advances w v := by
    intro l v hown hact hv
    have hinbox : v.inbox = w.inbox := inbox_publishStep hv
    have heffort : v.effort < w.effort := effort_publishStep hv
    have haccepted : v.accepted = w.accepted := by cases hv <;> rfl
    exact ⟨l, v.settle, hown, by rw [step, hact]; rfl, haccepted,
      .inr ⟨congrArg List.length hinbox, .inl heffort⟩⟩
  by_cases hidle : w.phase = .idle
  · cases hin : w.inbox with
    | nil => exact absurd ⟨hidle, hin⟩ hquiet
    | cons r rest =>
      -- the map is iterated in some order
      have htake : ∃ v, w.act (.take w.subscribers.keys) = some v ∧ v.inbox = rest
          ∧ v.accepted = w.accepted := by
        cases r <;> simp [act, hidle, hin, handle, withPhase]
      obtain ⟨v, hv, hrest, haccepted⟩ := htake
      refine ⟨_, v.settle, rfl, by rw [step, hv]; rfl, haccepted, .inl ?_⟩
      show v.inbox.length < w.inbox.length
      rw [hrest, hin]
      simp
  · by_cases hcollect : ∃ m, w.phase = .retaining m []
    · obtain ⟨m, hp⟩ := hcollect
      have hperm : w.subscribers.keys.Perm w.subscribers.keys := .refl _
      refine hgo (l := .collect w.subscribers.keys) rfl ?_ (.collecting m _ hp hperm)
      simp [act, hp]
    · obtain ⟨v, hv⟩ := exists_work hidle (fun m hp => hcollect ⟨m, hp⟩) hwaits
      exact hgo (l := .work) rfl hv (publishStep_of_work hv)

/-- A full channel holds something its receiver can take. -/
theorem Inlet.exists_pop {x : Inlet Q α} (h : x.full = true) :
    ∃ y, x.pop = some y ∧ (state y.mailbox).queued.length < (state x.mailbox).queued.length := by
  cases hq : (state x.mailbox).queued with
  | nil => exact absurd hq (ChannelState.queued_ne_nil_of_full h)
  | cons e rest =>
    obtain ⟨q, hpop⟩ := AsyncChannel.exists_tryRecv hq
    obtain ⟨hqueued, -, -⟩ := AsyncChannel.tryRecv_ok hpop
    refine ⟨{ x with mailbox := q }, by simp [Inlet.pop, hpop], ?_⟩
    rw [hq] at hqueued
    show (state q).queued.length < _
    rw [(List.cons.inj hqueued).2]
    simp

/-- When it waits, the receiver of the full channel can take an item. -/
theorem exists_drain_step (hwaits : waits w) :
    ∃ (l : BrokerLabel α) (v : BrokerWorld Q α), l.onward = true ∧ w.step l = some v
      ∧ Advances w v := by
  unfold waits at hwaits
  split at hwaits
  · next m a todo live hp =>
    obtain ⟨x, hpop, hless⟩ := Inlet.exists_pop hwaits.2
    refine ⟨.pop a, (w.setInlet a x).settle, rfl, by simp [step, act, hpop], rfl, .inr ⟨rfl, .inr
      ⟨rfl, ?_⟩⟩⟩
    rw [backlog_settle]
    simpa [backlog, setInlet, setActor, hp] using hless
  · next m e todo live hp =>
    obtain ⟨x, hpop, hless⟩ := Inlet.exists_pop hwaits.2
    refine ⟨.popOutlet e, (w.setOutlet e x).settle, rfl, by simp [step, act, hpop], rfl, .inr ⟨rfl,
      .inr ⟨rfl, ?_⟩⟩⟩
    rw [backlog_settle]
    simpa [backlog, setOutlet, hp] using hless
  · exact hwaits.elim

/-- **The broker comes to its end**, by its own steps and those of receivers that drain their
channels. -/
theorem exists_quiet (capacity : ContextID → Option ℕ+) (w : BrokerWorld Q α) :
    ∃ (ls : List (BrokerLabel α)) (v : BrokerWorld Q α), (∀ l ∈ ls, l.onward = true)
      ∧ (machine Q α capacity).execFrom w ls = some v ∧ v.accepted = w.accepted ∧ quiet v := by
  by_cases hquiet : quiet w
  · exact ⟨[], w, by simp, rfl, rfl, hquiet⟩
  have hnext : ∃ (l : BrokerLabel α) (v : BrokerWorld Q α), l.onward = true ∧ w.step l = some v
      ∧ Advances w v := by
    by_cases hwaits : waits w
    · exact exists_drain_step hwaits
    · exact exists_own_step hquiet hwaits
  obtain ⟨l, v, honward, hstep, hadv⟩ := hnext
  have hless := hadv.less
  obtain ⟨ls, u, hls, hexec, haccepted, hend⟩ := exists_quiet capacity v
  refine ⟨l :: ls, u, List.forall_mem_cons.mpr ⟨honward, hls⟩, ?_,
    haccepted.trans hadv.accepted, hend⟩
  have hstep' : (machine Q α capacity).step w l = some v := hstep
  rw [Machine.execFrom, hstep']
  exact hexec
termination_by (w.inbox.length, w.effort, w.backlog)
decreasing_by
  rcases hless with hlt | ⟨heq, hlt | ⟨heq', hlt⟩⟩
  · exact Prod.Lex.left _ _ hlt
  · rw [heq]
    exact Prod.Lex.right _ (Prod.Lex.left _ _ hlt)
  · rw [heq, heq']
    exact Prod.Lex.right _ (Prod.Lex.right _ hlt)

/-! ## Delivery

Read off the invariant: what has arrived is what the handled requests mean, with at most the message
in progress more, and only subscribers have a copy of that. -/

/-- What the broker has delivered: what its finished handlers had to, no more than was accepted,
in that order, and everything when it is quiet. -/
structure Delivers (w : BrokerWorld Q α) : Prop where
  complete : ∀ l, w.listening l = true → l.due w.handled <+: (w.inlet l).arrived
  sound : ∀ l, w.listening l = true → (w.inlet l).arrived <+: l.due w.accepted
  exact : quiet w → ∀ l, w.listening l = true → (w.inlet l).arrived = l.due w.accepted

/-- A publication that was begun after a subscription had returned: its message is meant for the
subscriber, unless the subscription was ended in between, and arrives by the end of its handler. -/
def InTime (u w : BrokerWorld Q α) : Prop :=
  ∀ (l : Listener) (i j : ℕ) (s : Request α) (n k : ℕ) (m : α), l.joins s = true →
    u.calls[i]? = some ⟨s, some n⟩ → u.calls.length ≤ j → w.calls[j]? = some ⟨.publish m, some k⟩ →
    (∀ r ∈ (w.accepted.take k).drop (n + 1), l.leaves r = false) →
    n < k ∧ l.due (w.accepted.take (k + 1)) = l.due (w.accepted.take k) ++ [m]
      ∧ (w.listening l = true → k < w.handled.length →
          l.due (w.accepted.take k) ++ [m] <+: (w.inlet l).arrived)

/-- Only subscribers have copies of the message in progress. -/
theorem copied_cases (h : DeliveryInv w) (hl : w.listening l = true) : w.copied l = []
    ∨ ∃ m, w.phase.current = [.publish m] ∧ w.copied l = [m] ∧ l.subscribed w.handled = true := by
  have hroster := h.roster l hl
  have hphase := h.phase
  unfold PhaseOk at hphase
  -- the subscribers get their copies in one phase, the external channels in the next
  cases l with
  | actor a =>
    simp only [BrokerWorld.roster] at hroster
    cases hp : w.phase with
    | idle | retaining m todo | collecting m todo live => exact .inl (by simp [copied, hp])
    | sending m todo live checked =>
      rw [hp] at hphase
      by_cases ha : a ∈ live ∧ a ∉ todo
      · refine .inr ⟨m, rfl, by simp [copied, hp, ha], ?_⟩
        exact hroster.mpr ((hphase.2.2 a hl).mpr ha.1)
      · exact .inl (by simp only [copied, hp, if_neg ha])
    | external m todo live =>
      rw [hp] at hphase
      by_cases ha : a ∈ live
      · exact .inr ⟨m, rfl, by simp [copied, hp, ha], hroster.mpr ((hphase.2 a hl).mpr ha)⟩
      · exact .inl (by simp [copied, hp, ha])
    | pruning m todo live =>
      rw [hp] at hphase
      by_cases ha : a ∈ live
      · exact .inr ⟨m, rfl, by simp [copied, hp, ha], hroster.mpr ((hphase a hl).mpr ha)⟩
      · exact .inl (by simp [copied, hp, ha])
  | outlet e =>
    simp only [BrokerWorld.roster] at hroster
    cases hp : w.phase with
    | idle | retaining m todo | collecting m todo live | sending m todo live checked =>
      exact .inl (by simp [copied, hp])
    | external m todo live =>
      by_cases he : e ∈ w.externalSenders ∧ e ∉ todo
      · exact .inr ⟨m, rfl, by simp [copied, hp, he], hroster.mpr he.1⟩
      · exact .inl (by simp only [copied, hp, if_neg he])
    | pruning m todo live =>
      by_cases he : e ∈ w.externalSenders
      · exact .inr ⟨m, rfl, by simp [copied, hp, he], hroster.mpr he⟩
      · exact .inl (by simp [copied, hp, he])

theorem delivers (h : DeliveryInv w) : Delivers w where
  complete l hl := by
    rw [h.arrived l hl]
    exact List.prefix_append _ _
  sound l hl := by
    rw [h.arrived l hl, h.calls.log]
    refine .trans ?_ (Listener.due_append_le _ _)
    rcases copied_cases h hl with hnone | ⟨m, hcurrent, hcopy, hon⟩
    · rw [hnone, List.append_nil]
      exact Listener.due_append_le _ _
    · rw [hcurrent, hcopy, Listener.due_snoc, hon]
      exact List.prefix_rfl
  exact hquiet l hl := by
    have hlog : w.accepted = w.handled := by
      rw [h.calls.log, hquiet.1, hquiet.2]
      simp [Phase.current]
    rw [h.arrived l hl, copied_of_idle hquiet.1, hlog, List.append_nil]

theorem inTime {u : BrokerWorld Q α} (hu : CallInv u) (hw : DeliveryInv w) (hlater : Later u w) :
    InTime u w := by
  intro l i j s n k m hjoin hi hj hcall hstay
  have hs : u.accepted[n]? = some s := hu.accepted_of_call i s n hi
  have hn : n < u.accepted.length := (List.getElem?_eq_some_iff.mp hs).1
  have hm : w.accepted[k]? = some (.publish m) := hw.calls.accepted_of_call j _ k hcall
  -- the publication was not there yet, so it was accepted behind the subscription
  have hnk : n < k := by
    rcases hlater.behind j _ k hcall with hold | hlen
    · rw [List.getElem?_eq_none hj] at hold
      cases hold
    · omega
  have hs' : w.accepted[n]? = some s := by
    obtain ⟨more, hmore⟩ := hlater.log
    rw [← hmore, List.getElem?_append_left hn, hs]
  -- the log up to the publication, cut at the subscription
  have hsplit : w.accepted.take k
      = w.accepted.take n ++ [s] ++ (w.accepted.take k).drop (n + 1) := by
    conv_lhs => rw [← List.take_append_drop (n + 1) (w.accepted.take k)]
    rw [List.take_take, Nat.min_eq_left hnk, List.take_add_one, hs']
    rfl
  have hdue : l.due (w.accepted.take (k + 1)) = l.due (w.accepted.take k) ++ [m] := by
    rw [List.take_add_one, hm, hsplit]
    exact View.due_of_published hjoin (Listener.leaves_of_joins hjoin) hstay
  refine ⟨hnk, hdue, fun hl hk => ?_⟩
  rw [← hdue]
  refine .trans (View.due_le ?_) ((delivers hw).complete l hl)
  have hle : w.handled <+: w.accepted := by
    rw [hw.calls.log, List.append_assoc]
    exact List.prefix_append _ _
  obtain ⟨more, hmore⟩ := hle
  rw [← hmore, List.take_append_of_le_length hk]
  exact List.take_prefix _ _

/-- **The broker delivers.** In every run, every live actor and every open external channel has
exactly the messages that were accepted while it was subscribed, once each and in the order in which
they were accepted, as far as the broker has come; and the broker comes to the end of what it has
accepted. What is published after a subscription has returned is delivered. -/
theorem broker_delivery (capacity : ContextID → Option ℕ+) {ls : List (BrokerLabel α)}
    {w : BrokerWorld Q α} (h : (machine Q α capacity).Run ls w) :
    Delivers w
      ∧ (∃ (more : List (BrokerLabel α)) (v : BrokerWorld Q α), (∀ l ∈ more, l.onward = true)
          ∧ (machine Q α capacity).Run (ls ++ more) v ∧ v.accepted = w.accepted ∧ quiet v
          ∧ Delivers v)
      ∧ ∀ u, (machine Q α capacity).Reaches ls u → InTime u w := by
  have hw := (deliveryInv h).1
  refine ⟨delivers hw, ?_, ?_⟩
  · obtain ⟨more, v, honward, hexec, haccepted, hquiet⟩ := exists_quiet capacity w
    have hrun : (machine Q α capacity).Run (ls ++ more) v := by
      refine .of_exec ?_
      have hls : (machine Q α capacity).execFrom (machine Q α capacity).init ls = some w :=
        h.exec_eq
      rw [Machine.exec, Machine.execFrom_append, hls]
      exact hexec
    exact ⟨more, v, honward, hrun, haccepted, hquiet, delivers (deliveryInv hrun).1⟩
  · rintro u ⟨pre, hpre, hu⟩
    exact inTime (deliveryInv hu).1.calls hw (later_of_run hpre hu h)

/-- An actor that subscribes twice, through two of its senders, and an external channel; an actor
that loses its last handle before the broker comes to it; then one message. -/
def publishRun : List (BrokerLabel ℕ) :=
  [.subscribe ⟨0, 0⟩, .send 0, .subscribe ⟨0, 1⟩, .send 1, .subscribe ⟨1, 0⟩, .send 2,
    .subscribeTo none, .send 3, .publish 7, .send 4, .take [], .take [], .take [], .take [],
    .take [1, 0], .work, .release 1, .work, .collect [0, 1], .work, .work, .work, .work, .work,
    .work, .work, .work, .work, .work]

theorem broker_delivery_once :
    ((machine ChannelState ℕ fun _ => none).after publishRun rfl).phase.current = []
      ∧ (((machine ChannelState ℕ fun _ => none).after publishRun rfl).inlet (.actor 0)).arrived
        = [7]
      ∧ (((machine ChannelState ℕ fun _ => none).after publishRun rfl).inlet (.actor 1)).arrived
        = []
      ∧ (((machine ChannelState ℕ fun _ => none).after publishRun rfl).inlet (.outlet 3)).arrived
        = [7]
      ∧ Delivers ((machine ChannelState ℕ fun _ => none).after publishRun rfl) :=
  ⟨rfl, rfl, rfl, rfl, (broker_delivery (fun _ => none)
    ((machine ChannelState ℕ fun _ => none).run_after publishRun rfl)).1⟩

end BrokerWorld

end Hannibal
