import Hannibal.Topic
import Mathlib.Data.List.Nodup

/-!
# Hannibal.Delivery — what each listener has, wherever the handler stands

The invariant of the broker. Its map is pruned while actors die, and every message passes through
two queues; still each live listener has what the handled requests mean for it, and the message in
progress exactly when its turn has come.

* **`PhaseOk`** — only dead actors are missing among those the handler has upgraded.
* **`DeliveryInv`** — the invariant; `deliveryInv` holds it in every run.
-/

namespace Hannibal

open Lts Chan PubSub
open AsyncChannel (state)

variable {Q : Type → Type} {α : Type}

namespace BrokerWorld

/-- The inlet of a listener. -/
def inlet (w : BrokerWorld Q α) : Listener → Inlet Q α
  | .actor a => (w.actors a).inlet
  | .outlet e => w.outlets e

/-- The broker knows the listener. -/
def roster (w : BrokerWorld Q α) : Listener → Prop
  | .actor a => a ∈ w.subscribers.keys
  | .outlet e => e ∈ w.externalSenders

instance (w : BrokerWorld Q α) (l : Listener) : Decidable (w.roster l) :=
  match l with
  | .actor a => inferInstanceAs (Decidable (a ∈ w.subscribers.keys))
  | .outlet e => inferInstanceAs (Decidable (e ∈ w.externalSenders))

/-- The copy of the message in progress that the listener already has. -/
def copied (w : BrokerWorld Q α) : Listener → List α
  | .actor a =>
    match w.phase with
    | .sending m todo live _ => if a ∈ live ∧ a ∉ todo then [m] else []
    | .external m _ live | .pruning m _ live => if a ∈ live then [m] else []
    | _ => []
  | .outlet e =>
    match w.phase with
    | .external m todo _ => if e ∈ w.externalSenders ∧ e ∉ todo then [m] else []
    | .pruning m _ _ => if e ∈ w.externalSenders then [m] else []
    | _ => []

theorem copied_of_idle {w : BrokerWorld Q α} {l : Listener} (h : w.phase = .idle) :
    w.copied l = [] := by
  cases l <;> simp only [copied, h]

variable {w v : BrokerWorld Q α} {l : Listener}

@[simp] theorem inlet_withPhase (p : Phase α) : (w.withPhase p).inlet l = w.inlet l := by
  cases l <;> rfl

@[simp] theorem inlet_begin (r : Request α) : (w.begin r).inlet l = w.inlet l := by
  cases l <;> rfl

@[simp] theorem inlet_setInlet (a : ContextID) (x : Inlet Q α) :
    (w.setInlet a x).inlet l = if l = .actor a then x else w.inlet l := by
  cases l with
  | actor b =>
    by_cases hb : b = a
    · subst hb
      simp [BrokerWorld.inlet, setInlet, setActor]
    · simp [BrokerWorld.inlet, setInlet, setActor, hb]
  | outlet e => simp [BrokerWorld.inlet, setInlet, setActor]

@[simp] theorem inlet_setOutlet (e : ℕ) (x : Inlet Q α) :
    (w.setOutlet e x).inlet l = if l = .outlet e then x else w.inlet l := by
  cases l with
  | actor b => simp [BrokerWorld.inlet, setOutlet]
  | outlet d =>
    by_cases hd : d = e
    · subst hd
      simp [BrokerWorld.inlet, setOutlet]
    · simp [BrokerWorld.inlet, setOutlet, hd]

variable [AsyncChannel Q]

/-! ## What a live listener has

What has arrived at a listener is what the handled requests mean for it (`due`), followed by the
message in progress once its turn has come (`copied`). The lists the handler walks through have no
actor twice, so a turn comes once; only listeners that are dead may be passed over. -/

/-- The listener is there: the actor is alive, or the receiver of the channel is. -/
def listening (w : BrokerWorld Q α) : Listener → Bool
  | .actor a => (w.actors a).running && !(w.actors a).inlet.closed
  | .outlet e => !(w.outlets e).closed

/-- Where the handler of `Publish` stands. Only dead subscribers are missing among those it has
upgraded. -/
def PhaseOk (w : BrokerWorld Q α) : Prop :=
  match w.phase with
  | .idle | .retaining _ _ => True
  | .collecting _ todo live => (todo ++ live).Nodup
      ∧ ∀ a, w.listening (.actor a) = true → (a ∈ w.subscribers.keys ↔ a ∈ todo ∨ a ∈ live)
  | .sending _ todo live _ => live.Nodup ∧ todo <:+ live
      ∧ ∀ a, w.listening (.actor a) = true → (a ∈ w.subscribers.keys ↔ a ∈ live)
  | .external _ todo live => todo <:+ w.externalSenders
      ∧ ∀ a, w.listening (.actor a) = true → (a ∈ w.subscribers.keys ↔ a ∈ live)
  | .pruning _ _ live =>
    ∀ a, w.listening (.actor a) = true → (a ∈ w.subscribers.keys ↔ a ∈ live)

/-- An open channel has a sender. -/
def Owned (w : BrokerWorld Q α) : Prop :=
  ∀ a, (w.actors a).inlet.closed = false → (w.actors a).strong = true ∨ a ∈ w.phase.held

structure DeliveryInv (w : BrokerWorld Q α) : Prop where
  calls : CallInv w
  externals : w.externalSenders.Nodup
  joined : ∀ e ∈ w.externalSenders, Request.subscribeExternal e ∈ w.handled
  roster : ∀ l, w.listening l = true → (l.subscribed w.handled = true ↔ w.roster l)
  phase : PhaseOk w
  arrived : ∀ l, w.listening l = true → (w.inlet l).arrived = l.due w.handled ++ w.copied l

theorem deliveryInv_init (capacity : ContextID → Option ℕ+) :
    DeliveryInv (init Q α capacity) where
  calls := callInv_init capacity
  externals := List.nodup_nil
  joined := by simp [init]
  roster l _ :=
    by cases l <;> simp [init, BrokerWorld.roster, SubscriberMap.keys, SubscriberMap.empty]
  phase := trivial
  arrived l _ := by cases l <;> simp [init, BrokerWorld.inlet, copied]

/-- A step in which the broker does nothing. Listeners may be lost. -/
theorem DeliveryInv.frame (h : DeliveryInv w) (hcalls : CallInv v)
    (hsub : v.subscribers = w.subscribers) (hext : v.externalSenders = w.externalSenders)
    (hphase : v.phase = w.phase) (hhandled : v.handled = w.handled)
    (hlisten : ∀ l, v.listening l = true → w.listening l = true)
    (harrived : ∀ l, (v.inlet l).arrived = (w.inlet l).arrived) : DeliveryInv v := by
  -- neither the map nor the phase of the handler has changed
  have hroster : ∀ l, v.roster l ↔ w.roster l := by
    intro l
    cases l <;> simp only [BrokerWorld.roster, hsub, hext]
  have hcopied : ∀ l, v.copied l = w.copied l := by
    intro l
    cases l <;> simp only [copied, hphase, hext]
  refine ⟨hcalls, by rw [hext]; exact h.externals, by rw [hext, hhandled]; exact h.joined,
    fun l hl => ?_, ?_, fun l hl => ?_⟩
  · rw [hhandled, hroster]
    exact h.roster l (hlisten l hl)
  · have hw := h.phase
    unfold PhaseOk at hw ⊢
    rw [hphase, hsub, hext]
    cases hp : w.phase with
    | idle | retaining m todo => trivial
    | collecting m todo live =>
      rw [hp] at hw
      exact ⟨hw.1, fun a ha => hw.2 a (hlisten _ ha)⟩
    | sending m todo live checked =>
      rw [hp] at hw
      exact ⟨hw.1, hw.2.1, fun a ha => hw.2.2 a (hlisten _ ha)⟩
    | external m todo live =>
      rw [hp] at hw
      exact ⟨hw.1, fun a ha => hw.2 a (hlisten _ ha)⟩
    | pruning m todo live =>
      rw [hp] at hw
      exact fun a ha => hw a (hlisten _ ha)
  · rw [harrived, hhandled, hcopied]
    exact h.arrived l (hlisten l hl)

/-- What cannot be upgraded is dead: an open channel has a sender. -/
theorem upgradable_of_listening {a : ContextID} (howned : Owned w)
    (h : w.listening (.actor a) = true) : w.upgradable a = true := by
  simp only [listening, Bool.and_eq_true, Bool.not_eq_true'] at h
  have hsender := howned a h.2
  simp only [upgradable, h.2, Bool.not_false, Bool.true_and, Bool.or_eq_true, decide_eq_true_eq]
  exact hsender

@[simp] theorem listening_withPhase (p : Phase α) :
    (w.withPhase p).listening l = w.listening l := by
  cases l <;> rfl

theorem listening_setInlet {a : ContextID} {x : Inlet Q α}
    (hx : x.closed = (w.actors a).inlet.closed) : (w.setInlet a x).listening l = w.listening l := by
  cases l with
  | actor b =>
    by_cases hb : b = a
    · subst hb
      simp [listening, setInlet, setActor, hx]
    · simp [listening, setInlet, setActor, hb]
  | outlet e => rfl

theorem listening_setOutlet {e : ℕ} {x : Inlet Q α} (hx : x.closed = (w.outlets e).closed) :
    (w.setOutlet e x).listening l = w.listening l := by
  cases l with
  | actor b => rfl
  | outlet d =>
    by_cases hd : d = e
    · subst hd
      simp [listening, setOutlet, hx]
    · simp [listening, setOutlet, hd]

theorem listening_setOutlet_of_ne {e : ℕ} {x : Inlet Q α} (hne : l ≠ .outlet e) :
    (w.setOutlet e x).listening l = w.listening l := by
  cases l with
  | actor b => rfl
  | outlet d =>
    have hd : d ≠ e := fun hde => hne (by rw [hde])
    simp [listening, setOutlet, hd]

@[simp] theorem listening_begin (r : Request α) : (w.begin r).listening l = w.listening l := by
  cases l <;> rfl

theorem Inlet.send_closed {x y : Inlet Q α} {m : α} (h : x.send m = some y) :
    y.closed = x.closed := by
  rcases Inlet.send_cases h with ⟨hx, hy, -⟩ | ⟨-, rfl⟩
  · rw [hx, hy]
  · rfl

/-- The handler kills nobody. -/
theorem listening_publishStep (hv : PublishStep w v) : v.listening l = w.listening l := by
  cases hv with
  | sent m a todo live hp x hx =>
    rw [listening_withPhase]
    exact listening_setInlet (Inlet.send_closed hx)
  | forwarded m e todo live hp x hx =>
    rw [listening_withPhase]
    exact listening_setOutlet (Inlet.send_closed hx)
  | _ => cases l <;> rfl

theorem roster_publishStep (h : DeliveryInv w) (howned : Owned w) (hv : PublishStep w v) :
    ∀ l, v.listening l = true → (l.subscribed v.handled = true ↔ v.roster l) := by
  intro l hl
  rw [listening_publishStep hv] at hl
  have hw := h.roster l hl
  cases hv with
  | removed m a todo hp hup =>
    -- the entry that goes belongs to a dead actor
    cases l with
    | actor b =>
      have hne : b ≠ a := by
        rintro rfl
        rw [upgradable_of_listening howned hl] at hup
        cases hup
      exact hw.trans (by simp [BrokerWorld.roster, SubscriberMap.mem_remove, hne])
    | outlet e => exact hw
  | pruned m e todo live hp hclosed =>
    cases l with
    | actor b => exact hw
    | outlet d =>
      have hne : d ≠ e := by
        rintro rfl
        simp [listening, hclosed] at hl
      exact hw.trans (by simp [BrokerWorld.roster, hne])
  | finished m live hp =>
    have hsame : l.subscribed (w.handled ++ [.publish m]) = l.subscribed w.handled := by
      simp [Listener.joins_publish, Listener.leaves_publish]
    rw [hsame]
    cases l <;> exact hw
  | _ => cases l <;> exact hw

theorem phase_publishStep (h : DeliveryInv w) (howned : Owned w) (hv : PublishStep w v) :
    PhaseOk v := by
  have hlisten := fun a => listening_publishStep (l := .actor a) hv
  have hw := h.phase
  unfold PhaseOk at hw
  cases hv with
  | kept m a todo hp hup | removed m a todo hp hup => trivial
  -- the order of iteration is a permutation of the keys, and these are distinct
  | collecting m order hp horder =>
    refine ⟨?_, fun a _ => ⟨fun ha => .inl (horder.mem_iff.mpr ha), fun ha => ?_⟩⟩
    · rw [List.append_nil]
      exact horder.nodup_iff.mpr w.subscribers.keys_nodup
    · exact horder.mem_iff.mp (ha.resolve_right List.not_mem_nil)
  | upgraded m a todo live hp hup =>
    rw [hp] at hw
    refine ⟨?_, fun b hb => ?_⟩
    · rw [← List.append_assoc]
      exact (List.perm_append_singleton a _).nodup_iff.mpr hw.1
    · rw [hlisten] at hb
      have hnew : (b ∈ a :: todo ∨ b ∈ live) ↔ (b ∈ todo ∨ b ∈ live ++ [a]) := by
        simp only [List.mem_cons, List.mem_append, List.not_mem_nil, or_false]
        tauto
      exact (hw.2 b hb).trans hnew
  -- an actor that cannot be upgraded has no strong sender left, so it does not listen
  | skipped m a todo live hp hup =>
    rw [hp] at hw
    refine ⟨(List.nodup_cons.mp hw.1).2, fun b hb => ?_⟩
    rw [hlisten] at hb
    have hne : b ≠ a := by
      rintro rfl
      rw [upgradable_of_listening howned hb] at hup
      cases hup
    exact (hw.2 b hb).trans (by simp [hne])
  | collected m live hp =>
    rw [hp] at hw
    exact ⟨by simpa using hw.1, List.suffix_rfl, fun b hb =>
      (hw.2 b (hlisten b ▸ hb)).trans (by simp)⟩
  | checked m a todo live hp hrun =>
    rw [hp] at hw
    exact ⟨hw.1, hw.2.1, fun b hb => hw.2.2 b (hlisten b ▸ hb)⟩
  | stopped m a todo live hp hrun | sent m a todo live hp x hx =>
    rw [hp] at hw
    exact ⟨hw.1, (List.suffix_cons a todo).trans hw.2.1, fun b hb => hw.2.2 b (hlisten b ▸ hb)⟩
  | sentAll m live checked hp =>
    rw [hp] at hw
    exact ⟨List.suffix_rfl, fun b hb => hw.2.2 b (hlisten b ▸ hb)⟩
  | forwarded m e todo live hp x hx =>
    rw [hp] at hw
    exact ⟨(List.suffix_cons e todo).trans hw.1, fun b hb => hw.2 b (hlisten b ▸ hb)⟩
  | forwardedAll m live hp =>
    rw [hp] at hw
    exact fun b hb => hw.2 b (hlisten b ▸ hb)
  | pruned m e todo live hp hclosed | spared m e todo live hp hopen =>
    rw [hp] at hw
    exact fun b hb => hw b (hlisten b ▸ hb)
  | finished m live hp => trivial

/-- The head of what is still to be visited is not in the rest. -/
theorem head_of_suffix {β : Type*} {b : β} {todo all : List β} (hnodup : all.Nodup)
    (hsuf : b :: todo <:+ all) : b ∈ all ∧ b ∉ todo :=
  ⟨hsuf.subset List.mem_cons_self, (List.nodup_cons.mp (hnodup.sublist hsuf.sublist)).1⟩

/-- A copy is sent to an actor. -/
theorem arrived_sent {m : α} {a : ContextID} {todo live : List ContextID} {x : Inlet Q α}
    (h : DeliveryInv w) (hp : w.phase = .sending m (a :: todo) live true)
    (hx : (w.actors a).inlet.send m = some x) (hl : w.listening l = true) :
    (((w.setInlet a x).withPhase (.sending m todo live false)).inlet l).arrived
      = l.due w.handled ++ ((w.setInlet a x).withPhase (.sending m todo live false)).copied l := by
  have hw := h.arrived l hl
  have hphase := h.phase
  rw [PhaseOk, hp] at hphase
  obtain ⟨hlive, hnot⟩ := head_of_suffix hphase.1 hphase.2.1
  rw [inlet_withPhase, inlet_setInlet]
  by_cases hla : l = .actor a
  · subst hla
    rw [if_pos rfl]
    -- an open mailbox has one more copy, and a closed one belongs to nobody who listens
    rcases Inlet.send_cases hx with ⟨-, -, harr⟩ | ⟨hclosed, -⟩
    · have hbefore : w.copied (.actor a) = [] := by simp [copied, hp]
      have hafter : ((w.setInlet a x).withPhase (.sending m todo live false)).copied (.actor a)
          = [m] := by simp [copied, withPhase, hlive, hnot]
      rw [hbefore, List.append_nil] at hw
      rw [hafter, harr, ← hw]
      rfl
    · simp [listening, hclosed] at hl
  · rw [if_neg hla, hw]
    congr 1
    cases l with
    | actor b =>
      have hne : b ≠ a := fun hba => hla (by rw [hba])
      simp [copied, hp, withPhase, hne]
    | outlet e => simp [copied, hp, withPhase]

/-- A copy is sent to an external channel. -/
theorem arrived_forwarded {m : α} {e : ℕ} {todo : List ℕ} {live : List ContextID} {x : Inlet Q α}
    (h : DeliveryInv w) (hp : w.phase = .external m (e :: todo) live)
    (hx : (w.outlets e).send m = some x) (hl : w.listening l = true) :
    (((w.setOutlet e x).withPhase (.external m todo live)).inlet l).arrived
      = l.due w.handled ++ ((w.setOutlet e x).withPhase (.external m todo live)).copied l := by
  have hw := h.arrived l hl
  have hphase := h.phase
  rw [PhaseOk, hp] at hphase
  obtain ⟨hmem, hnot⟩ := head_of_suffix h.externals hphase.1
  rw [inlet_withPhase, inlet_setOutlet]
  by_cases hle : l = .outlet e
  · subst hle
    rw [if_pos rfl]
    rcases Inlet.send_cases hx with ⟨-, -, harr⟩ | ⟨hclosed, -⟩
    · have hbefore : w.copied (.outlet e) = [] := by simp [copied, hp]
      have hafter : ((w.setOutlet e x).withPhase (.external m todo live)).copied (.outlet e)
          = [m] := by simp [copied, withPhase, setOutlet, hmem, hnot]
      rw [hbefore, List.append_nil] at hw
      rw [hafter, harr, ← hw]
      rfl
    · simp [listening, hclosed] at hl
  · rw [if_neg hle, hw]
    congr 1
    cases l with
    | actor b => simp [copied, hp, withPhase]
    | outlet d =>
      have hne : d ≠ e := fun hde => hle (by rw [hde])
      simp [copied, hp, withPhase, setOutlet, hne]

/-- The message is done: who was subscribed has its copy. -/
theorem copied_of_finished {m : α} {live : List ContextID} (h : DeliveryInv w)
    (hp : w.phase = .pruning m [] live) (hl : w.listening l = true) :
    w.copied l = if l.subscribed w.handled then [m] else [] := by
  have hroster := h.roster l hl
  have hphase := h.phase
  rw [PhaseOk, hp] at hphase
  have hcopied : w.copied l = if w.roster l then [m] else [] := by
    cases l with
    | actor a =>
      show w.copied (.actor a) = if a ∈ w.subscribers.keys then [m] else []
      simp only [copied, hp, hphase a hl]
    | outlet e =>
      show w.copied (.outlet e) = if e ∈ w.externalSenders then [m] else []
      simp only [copied, hp]
  rw [hcopied]
  simp only [hroster]

theorem arrived_publishStep (h : DeliveryInv w) (hv : PublishStep w v) :
    ∀ l, v.listening l = true → (v.inlet l).arrived = l.due v.handled ++ v.copied l := by
  intro l hl
  rw [listening_publishStep hv] at hl
  have hw := h.arrived l hl
  -- nothing is sent, and who has a copy is counted as before
  have hsilent : ∀ u : BrokerWorld Q α, u.inlet l = w.inlet l → u.handled = w.handled →
      u.copied l = w.copied l → (u.inlet l).arrived = l.due u.handled ++ u.copied l := by
    intro u hinlet hhandled hcopied
    rw [hinlet, hhandled, hcopied, hw]
  cases hv with
  | kept m a todo hp hup | removed m a todo hp hup | collecting m order hp horder
  | upgraded m a todo live hp hup | skipped m a todo live hp hup | collected m live hp
  | checked m a todo live hp hrun | sentAll m live checked hp | forwardedAll m live hp
  | spared m e todo live hp hopen =>
    refine hsilent _ (by cases l <;> rfl) rfl ?_
    cases l <;> simp [copied, hp, withPhase] <;> rfl
  | stopped m a todo live hp hrun =>
    refine hsilent _ (inlet_withPhase _) rfl ?_
    cases l with
    | actor b =>
      have hne : b ≠ a := by
        rintro rfl
        simp [listening, hrun] at hl
      simp [copied, hp, withPhase, hne]
    | outlet e => simp [copied, hp, withPhase]
  | sent m a todo live hp x hx => exact arrived_sent h hp hx hl
  | forwarded m e todo live hp x hx => exact arrived_forwarded h hp hx hl
  | pruned m e todo live hp hclosed =>
    refine hsilent _ (by cases l <;> rfl) rfl ?_
    cases l with
    | actor b => simp [copied, hp]
    | outlet d =>
      have hne : d ≠ e := by
        rintro rfl
        simp [listening, hclosed] at hl
      simp [copied, hp, hne]
  | finished m live hp =>
    have hnone : BrokerWorld.copied
        { w with phase := .idle, handled := w.handled ++ [.publish m] } l = [] := by
      cases l <;> rfl
    rw [hnone, List.append_nil, Listener.due_snoc]
    rw [copied_of_finished h hp hl] at hw
    cases l <;> exact hw

theorem deliveryInv_publishStep (h : DeliveryInv w) (howned : Owned w) (hv : PublishStep w v) :
    DeliveryInv v where
  calls := callInv_publishStep h.calls hv
  externals := by
    cases hv with
    | pruned m e todo live hp hclosed => exact h.externals.filter _
    | _ => exact h.externals
  joined := by
    cases hv with
    | pruned m e todo live hp hclosed =>
      exact fun d hd => h.joined d (List.mem_filter.mp hd).1
    | finished m live hp => exact fun d hd => List.mem_append_left _ (h.joined d hd)
    | _ => exact h.joined
  roster := roster_publishStep h howned hv
  phase := phase_publishStep h howned hv
  arrived := arrived_publishStep h hv

/-- The handlers of the other requests change the roster, as the request says. -/
theorem deliveryInv_handled {r : Request α} (h : DeliveryInv w) (hcalls : CallInv v)
    (hr : r.published = []) (hidle : w.phase = .idle) (hphase : v.phase = .idle)
    (hactors : v.actors = w.actors) (houtlets : v.outlets = w.outlets)
    (hhandled : v.handled = w.handled ++ [r]) (hnodup : v.externalSenders.Nodup)
    (hjoined : ∀ e ∈ v.externalSenders, Request.subscribeExternal e ∈ v.handled)
    (hroster : ∀ l, v.roster l ↔ (w.roster l ∨ l.joins r = true) ∧ l.leaves r = false) :
    DeliveryInv v := by
  have hlisten : ∀ l, v.listening l = w.listening l := by
    intro l
    cases l <;> simp only [listening, hactors, houtlets]
  have hinlet : ∀ l, v.inlet l = w.inlet l := by
    intro l
    cases l <;> simp only [BrokerWorld.inlet, hactors, houtlets]
  refine ⟨hcalls, hnodup, hjoined, fun l hl => ?_, by simp [PhaseOk, hphase], fun l hl => ?_⟩
  · rw [hhandled, Listener.subscribed_snoc, hroster, ← h.roster l (hlisten l ▸ hl)]
    simp
  · have hw := h.arrived l (hlisten l ▸ hl)
    rw [copied_of_idle hidle, List.append_nil] at hw
    rw [hinlet, copied_of_idle hphase, hhandled, Listener.due_snoc, hr, hw]
    simp

/-- A new external channel: nothing has been meant for it yet. -/
theorem deliveryInv_subscribeTo (h : DeliveryInv w) (capacity : Option ℕ+) :
    DeliveryInv ((w.setOutlet w.calls.length ⟨AsyncChannel.new capacity, []⟩).begin
      (.subscribeExternal w.calls.length)) := by
  have hunjoined := h.calls.unjoined
  obtain ⟨hoff, hnone⟩ :=
    View.heard_of_unjoined (V := Listener.view (.outlet w.calls.length)) hunjoined
  have hunknown : w.calls.length ∉ w.externalSenders := fun hmem => by
    simpa [Listener.joins] using hunjoined _ (h.joined _ hmem)
  refine ⟨?_, h.externals, h.joined, fun l hl => ?_, h.phase, fun l hl => ?_⟩
  · exact callInv_act h.calls (.subscribeTo capacity)
  · rw [listening_begin] at hl
    by_cases hnew : l = .outlet w.calls.length
    · subst hnew
      refine ⟨fun hon => ?_, fun hmem => absurd hmem hunknown⟩
      cases hoff.symm.trans hon
    · rw [listening_setOutlet_of_ne hnew] at hl
      cases l <;> exact h.roster _ hl
  · rw [listening_begin] at hl
    rw [inlet_begin, inlet_setOutlet]
    by_cases hnew : l = .outlet w.calls.length
    · subst hnew
      have hcopied : w.copied (.outlet w.calls.length) = [] := by
        simp only [copied]
        split <;> simp [hunknown]
      rw [if_pos rfl]
      exact (List.append_eq_nil_iff.mpr ⟨hnone, hcopied⟩).symm
    · rw [listening_setOutlet_of_ne hnew] at hl
      rw [if_neg hnew]
      cases l <;> exact h.arrived _ hl

/-- An actor handles something, or lowers its flag. -/
theorem deliveryInv_setActor (h : DeliveryInv w) {a : ContextID} {x : Subscriber Q α}
    (hx : (w.actors a).inlet.Touched x.inlet)
    (hrun : x.running = true → (w.actors a).running = true) : DeliveryInv (w.setActor a x) := by
  refine h.frame (callInv_act h.calls (.actor a x hx hrun)) rfl rfl rfl rfl (fun l hl => ?_)
    fun l => ?_
  · cases l with
    | actor b =>
      by_cases hb : b = a
      · subst hb
        simp only [listening, setActor, Function.update_self, Bool.and_eq_true,
          Bool.not_eq_true'] at hl ⊢
        exact ⟨hrun hl.1, hx.opened hl.2⟩
      · simpa [listening, setActor, hb] using hl
    | outlet e => exact hl
  · cases l with
    | actor b =>
      by_cases hb : b = a
      · subst hb
        simpa [BrokerWorld.inlet, setActor] using hx.arrived
      · simp [BrokerWorld.inlet, setActor, hb]
    | outlet e => rfl

/-- An external subscriber reads its channel. -/
theorem deliveryInv_setOutlet (h : DeliveryInv w) {e : ℕ} {x : Inlet Q α}
    (hx : (w.outlets e).Touched x) : DeliveryInv (w.setOutlet e x) := by
  refine h.frame (callInv_act h.calls (.outlet e x hx)) rfl rfl rfl rfl (fun l hl => ?_)
    fun l => ?_
  · cases l with
    | actor b => exact hl
    | outlet d =>
      by_cases hd : d = e
      · subst hd
        simp only [listening, setOutlet, Function.update_self, Bool.not_eq_true'] at hl ⊢
        exact hx.opened hl
      · simpa [listening, setOutlet, hd] using hl
  · rw [inlet_setOutlet]
    split
    · next hl => rw [hl]; exact hx.arrived
    · rfl

theorem deliveryInv_act (h : DeliveryInv w) (howned : Owned w) (hv : Act w v) : DeliveryInv v := by
  have hcalls := callInv_act h.calls hv
  cases hv with
  | begin r hr =>
    exact h.frame hcalls rfl rfl rfl rfl (fun l hl => (listening_begin r).symm.trans hl)
      fun l => by rw [inlet_begin]
  | subscribeTo capacity => exact deliveryInv_subscribeTo h capacity
  | send i r hcall =>
    exact h.frame hcalls rfl rfl rfl rfl (fun l hl => by cases l <;> exact hl)
      fun l => by cases l <;> rfl
  | subscribe s rest hidle hin =>
    -- `Subscribe` adds one actor to the roster
    refine deliveryInv_handled h hcalls (r := .subscribe s) rfl hidle hidle rfl rfl rfl h.externals
      (fun e he => List.mem_append_left _ (h.joined e he)) fun l => ?_
    cases l with
    | actor a =>
      show a ∈ (w.subscribers.insert s).keys ↔ _
      simp [SubscriberMap.mem_insert, BrokerWorld.roster, Listener.joins, Listener.leaves,
        eq_comm (a := a)]
    | outlet e => simp [BrokerWorld.roster, Listener.joins, Listener.leaves]
  | subscribeExternal e rest hidle hin =>
    have hfresh := h.calls.external_fresh hidle hin
    -- the id of an external subscriber is new
    refine deliveryInv_handled h hcalls (r := .subscribeExternal e) rfl hidle hidle rfl rfl rfl
      ?_ (fun d hd => ?_) fun l => ?_
    · refine List.nodup_append.mpr ⟨h.externals, List.nodup_singleton e, ?_⟩
      rintro d hd d' hd' rfl
      rw [List.mem_singleton.mp hd'] at hd
      exact hfresh (h.joined e hd)
    · rcases List.mem_append.mp hd with hold | hnew
      · exact List.mem_append_left _ (h.joined d hold)
      · rw [List.mem_singleton.mp hnew]
        exact List.mem_append_right _ List.mem_cons_self
    · cases l with
      | actor a => simp [BrokerWorld.roster, Listener.joins, Listener.leaves]
      | outlet d =>
        simp [BrokerWorld.roster, Listener.joins, Listener.leaves, eq_comm (a := d)]
  | unsubscribe s rest hidle hin =>
    refine deliveryInv_handled h hcalls (r := .unsubscribe s) rfl hidle hidle rfl rfl rfl
      h.externals (fun e he => List.mem_append_left _ (h.joined e he)) fun l => ?_
    cases l with
    | actor a =>
      show a ∈ (w.subscribers.remove s.id).keys ↔ _
      simp [SubscriberMap.mem_remove, BrokerWorld.roster, Listener.joins, Listener.leaves,
        eq_comm (a := a)]
    | outlet e => simp [BrokerWorld.roster, Listener.joins, Listener.leaves]
  | publish m rest order hidle hin horder =>
    -- nobody has been sent a copy yet: all of the roster is still to do
    refine ⟨hcalls, h.externals, h.joined, fun l hl => ?_, trivial, fun l hl => ?_⟩
    · have hw := h.roster l (by cases l <;> exact hl)
      cases l <;> exact hw
    · have hw := h.arrived l (by cases l <;> exact hl)
      rw [copied_of_idle hidle] at hw
      cases l <;> exact hw
  | work v hv => exact deliveryInv_publishStep h howned hv
  | actor a x hx hrun => exact deliveryInv_setActor h hx hrun
  | outlet e x hx => exact deliveryInv_setOutlet h hx

/-! ## Runs

A dead listener stays dead, so what holds of the live ones after a step held of them before it, and
the invariant is carried along the run. -/

theorem listening_of_settle (h : v.settle.listening l = true) : v.listening l = true := by
  cases l with
  | actor a =>
    simp only [listening, settle] at h
    split at h
    · exact h
    · simp [Inlet.closed, Inlet.close] at h
  | outlet e => exact h

/-- The channels' own reaction: what has no sender is closed. -/
theorem deliveryInv_settle (h : DeliveryInv v) : DeliveryInv v.settle := by
  refine h.frame (h.calls.frame rfl rfl rfl) rfl rfl rfl rfl (fun l => listening_of_settle)
    fun l => ?_
  cases l with
  | actor a =>
    simp only [BrokerWorld.inlet, settle]
    split <;> rfl
  | outlet e => rfl

theorem owned_settle (v : BrokerWorld Q α) : Owned v.settle := by
  intro a hopen
  by_cases hsender : ((v.actors a).strong || decide (a ∈ v.phase.held)) = true
  · have hsame : v.settle.actors a = v.actors a := if_pos hsender
    show (v.settle.actors a).strong = true ∨ a ∈ v.phase.held
    rw [hsame]
    simpa using hsender
  · have hclosed : v.settle.actors a = { v.actors a with inlet := (v.actors a).inlet.close } :=
      if_neg hsender
    rw [hclosed] at hopen
    simp [Inlet.closed, Inlet.close] at hopen

variable {capacity : ContextID → Option ℕ+} {ls : List (BrokerLabel α)}

theorem deliveryInv (h : (machine Q α capacity).Run ls w) : DeliveryInv w ∧ Owned w := by
  refine h.invariant (I := fun w => DeliveryInv w ∧ Owned w) ⟨deliveryInv_init capacity, ?_⟩ ?_
  · exact fun a _ => .inl rfl
  · rintro s l s' ⟨hinv, howned⟩ hstep
    obtain ⟨v, hv, rfl⟩ := step_cases hstep
    exact ⟨deliveryInv_settle (deliveryInv_act hinv howned hv), owned_settle v⟩

end BrokerWorld

end Hannibal
