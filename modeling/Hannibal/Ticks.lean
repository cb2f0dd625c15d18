import Hannibal.Interval
import Hannibal.Requests
import Hannibal.Senders

/-!
# Hannibal.Ticks — what becomes of the ticks of an interval

For every kind and capacity of mailbox, any other clients, and timers that fire at any time.

* **`IntervalWorld.TickOk`** — where the operation of each tick stands.
* **`IntervalWorld.Inv`** — the invariant; `inv_step` is its step lemma. At its heart is `enqueued`:
  of the payloads the mailbox has accepted, those of the task are the messages whose send has
  succeeded.
* **`interval_ticks`** — the theorem about every run.
-/

namespace Hannibal

open Lts Chan
open AsyncChannel (state)

variable {Q : Type → Type} [AsyncChannel Q] {σ ρ : Type}

/-- Why the error `e` of a tick was returned: the mailbox is closed, or the actor has stopped. -/
def World.Failure (u : World Q σ ρ) (e : ActorError) : Prop :=
  (e = .actorDropped ∧ u.closed = true)
    ∨ (e = .channelClosed ∧ (u.task.running = false ∨ u.task.rx = false))

/-- What holds of the actor alone. -/
structure World.ActorInv (u : World Q σ ρ) : Prop where
  requests : u.RequestInv
  task : u.task.Inv
  senders : u.SenderInv
  queued : u.queued <:+ u.accepted

namespace IntervalWorld

/-- The payloads of the task that the mailbox has accepted, in the order in which it has. -/
def enqueued (w : IntervalWorld Q σ ρ) : List (Envelope σ ρ) :=
  w.actor.accepted.filter fun e => decide (e.client ∈ w.begun)

/-- The send of operation `i` has succeeded. -/
def succeeded (u : World Q σ ρ) (i : ℕ) : Bool :=
  match u.flights[i]? with
  | some ⟨_, .returned (.ok _)⟩ => true
  | _ => false

/-- The task is in the tick of operation `i`. -/
def InTick (w : IntervalWorld Q σ ρ) (i : ℕ) : Prop := w.stage = .ticking i ∨ w.stage = .waiting i

/-- Where the operation of a tick stands when the send is over. -/
inductive Over (w : IntervalWorld Q σ ρ) (i : ℕ) : Stage ρ → Prop where
  | sent (r : Option ρ) (hgen : i ∈ w.generated.map Envelope.client) (hst : w.stage ≠ .waiting i) :
      Over w i (.returned (.ok r))
  | failed (e : ActorError) (hwhy : w.actor.Failure e) (hst : w.stage ≠ .waiting i) :
      Over w i (.returned (.error e))
  | abandoned (hst : ¬ w.InTick i) : Over w i .abandoned

/-- Where the operation of a tick stands, which sends `g`. -/
inductive TickOk (message : ℕ → TaskFn σ ρ) (w : IntervalWorld Q σ ρ) (i : ℕ) :
    TaskFn σ ρ → Stage ρ → Prop where
  | upgrading (hst : w.stage = .ticking i) (hnew : i ∉ w.generated.map Envelope.client) :
      TickOk message w i (message w.generated.length) .upgrading
  | checking (g : TaskFn σ ρ) (hst : w.stage = .ticking i) (pre : List (Envelope σ ρ))
      (hgen : w.generated = pre ++ [⟨i, .task g⟩]) : TickOk message w i g .checking
  | enqueuing (g : TaskFn σ ρ) (hst : w.InTick i) (pre : List (Envelope σ ρ))
      (hgen : w.generated = pre ++ [⟨i, .task g⟩]) : TickOk message w i g .enqueuing
  | past (g : TaskFn σ ρ) (st : Stage ρ) (hover : w.Over i st) : TickOk message w i g st

/-- The report `r` tells what became of the operation. -/
def Tells (r : TickReport) (st : Stage ρ) : Prop :=
  match r with
  | .sent => ∃ x, st = .returned (.ok x)
  | .skipped => st = .abandoned
  | .failed e => st = .returned (.error e)

/-- The operation of tick `i` is there, and stands as `TickOk` says. -/
def Stands (message : ℕ → TaskFn σ ρ) (w : IntervalWorld Q σ ρ) (i : ℕ) : Prop :=
  ∃ g st, w.actor.flights[i]? = some ⟨WeakSender.upgradeAndSend g, st⟩ ∧ TickOk message w i g st

/-- The invariant. -/
structure Inv (message : ℕ → TaskFn σ ρ) (w : IntervalWorld Q σ ρ) : Prop where
  actor : w.actor.ActorInv
  ticks : ∀ i ∈ w.begun, Stands message w i
  /-- the tick the task is in is the last one -/
  latest : ∀ i, w.InTick i → i ∈ w.begun ∧ ∀ j ∈ w.begun, j ≤ i
  known : ∀ t ∈ w.generated, t.client ∈ w.begun
  ordered : (w.generated.map Envelope.client).Pairwise (· < ·)
  messages : ∀ (n : ℕ) (t : Envelope σ ρ), w.generated[n]? = some t → t.payload = .task (message n)
  enqueued : w.enqueued = w.generated.filter fun t => succeeded w.actor t.client
  reported : ∀ i r, (i, r) ∈ w.reports → i ∈ w.begun
    ∧ ∃ f, w.actor.flights[i]? = some f ∧ Tells r f.stage
  ended : w.stage = .ended ↔ ∃ i e, (i, .failed e) ∈ w.reports

variable {E : EventLoop σ} {message : ℕ → TaskFn σ ρ} {w w' : IntervalWorld Q σ ρ}
  {u s : World Q σ ρ} {l : Label σ ρ} {i : ℕ}

theorem inv_init (capacity : Option ℕ+) (a : σ) : Inv message (init Q ρ capacity a) where
  actor := ⟨World.requestInv_init capacity a, LoopTask.inv_init a, World.senderInv_init capacity a,
    by simp [init, World.init, World.queued, ChannelState.fresh]⟩
  ticks := nofun
  latest i h := by rcases h with h | h <;> cases h
  known := nofun
  ordered := .nil
  messages n t h := by simp [init] at h
  enqueued := rfl
  reported := nofun
  ended := by simp [init]

/-! ## What a step of the actor leaves as it was

The interval's task is one more client of the actor. When the loop or another client moves, the
operations of the task stay where they are, up to the replies they wait for. -/

theorem actorInv_step (hinv : u.ActorInv) (hs : u.step E l = some s) : s.ActorInv :=
  ⟨World.requestInv_step hinv.requests hs, World.taskInv_step hinv.task hs,
    World.senderInv_step hinv.senders hs, World.queued_suffix_step hinv.queued hs⟩

/-- The cause of a failure stays. -/
theorem failure_step {e : ActorError} (hs : u.step E l = some s) (hwhy : u.Failure e) :
    s.Failure e := by
  obtain ⟨v, hact, rfl⟩ := World.step_cases hs
  refine hwhy.imp (And.imp_right fun hclosed => ?_) (And.imp_right (Or.imp ?_ ?_))
  · simp [World.settle_closed, World.closed_of_act hact hclosed]
  · rw [World.settle_task]
    exact World.running_of_act hact
  · rw [World.settle_task]
    exact World.rx_of_act hact

/-- An operation of the task awaits no response, so nobody else moves it. -/
theorem Inv.kept (hinv : Inv message w) (hi : i ∈ w.begun) (hs : w.actor.step E l = some s)
    (hadvance : l ≠ .advance i) (habandon : l ≠ .abandon i) :
    s.flights[i]? = w.actor.flights[i]? := by
  obtain ⟨g, st, hf, hok⟩ := hinv.ticks i hi
  rw [hf]
  refine World.kept_of_step hs hf ?_ hadvance habandon
  cases hok with
  | past g st hover => cases hover <;> rfl
  | _ => rfl

/-- A permitted step leaves all of them. -/
theorem Inv.kept_others (hinv : Inv message w) (hl : w.permitted l = true)
    (hs : w.actor.step E l = some s) : ∀ j ∈ w.begun, s.flights[j]? = w.actor.flights[j]? := by
  intro j hj
  refine hinv.kept hj hs ?_ ?_ <;> rintro rfl <;> simp [permitted, hj] at hl

/-- A step on one of them leaves the others. -/
theorem Inv.kept_own (hinv : Inv message w) (hs : w.actor.step E l = some s)
    (hl : l = .advance i ∨ l = .abandon i) :
    ∀ j ∈ w.begun, j ≠ i → s.flights[j]? = w.actor.flights[j]? := by
  intro j hj hji
  refine hinv.kept hj hs ?_ ?_
  · rcases hl with rfl | rfl <;> simp [Ne.symm hji]
  · rcases hl with rfl | rfl <;> simp [Ne.symm hji]

theorem Inv.lt (hinv : Inv message w) (hi : i ∈ w.begun) : i < w.actor.flights.length := by
  obtain ⟨g, st, hf, -⟩ := hinv.ticks i hi
  exact (List.getElem?_eq_some_iff.mp hf).1

omit [AsyncChannel Q] in
theorem InTick.unique {j : ℕ} (hi : w.InTick i) (hj : w.InTick j) : j = i := by
  rcases hi with hi | hi <;> rcases hj with hj | hj <;> simp_all

/-- A tick the task is not in is over, and stays so. -/
theorem TickOk.settled {g : TaskFn σ ρ} {st : Stage ρ} (h : TickOk message w i g st)
    (hout : ¬ w.InTick i) (hout' : ¬ w'.InTick i)
    (hgen : ∀ t ∈ w.generated, t ∈ w'.generated)
    (hwhy : ∀ e, w.actor.Failure e → w'.actor.Failure e) : TickOk message w' i g st := by
  refine .past g st ?_
  cases h with
  | upgrading hst hnew => exact absurd (.inl hst) hout
  | checking g hst pre hlast => exact absurd (.inl hst) hout
  | enqueuing g hst pre hlast => exact absurd hst hout
  -- it ended in one of three ways, and each of them is final
  | past g st hover =>
    cases hover with
    | sent r hi hst =>
      obtain ⟨t, ht, hti⟩ := List.mem_map.mp hi
      exact .sent r (List.mem_map.mpr ⟨t, hgen t ht, hti⟩) fun h => hout' (.inr h)
    | failed e he hst => exact .failed e (hwhy e he) fun h => hout' (.inr h)
    | abandoned hst => exact .abandoned hout'

/-- While other parties move, a tick stands where it stood. -/
theorem TickOk.frame {g : TaskFn σ ρ} {st : Stage ρ} (h : TickOk message w i g st)
    (hstage : w'.stage = w.stage) (hgen : w'.generated = w.generated)
    (hwhy : ∀ e, w.actor.Failure e → w'.actor.Failure e) : TickOk message w' i g st := by
  have hin : ∀ j, w'.InTick j ↔ w.InTick j := fun j => by rw [InTick, InTick, hstage]
  cases h with
  | upgrading hst hnew =>
    rw [← hgen] at hnew ⊢
    exact .upgrading (hstage.trans hst) hnew
  | checking g hst pre hlast => exact .checking g (hstage.trans hst) pre (hgen.trans hlast)
  | enqueuing g hst pre hlast => exact .enqueuing g ((hin i).mpr hst) pre (hgen.trans hlast)
  | past g st hover =>
    refine .past g st ?_
    cases hover with
    | sent r hi hst => exact .sent r (by rwa [hgen]) (by rwa [hstage])
    | failed e he hst => exact .failed e (hwhy e he) (by rwa [hstage])
    | abandoned hst => exact .abandoned (mt (hin i).mp hst)

omit [AsyncChannel Q] in
theorem succeeded_congr (h : s.flights[i]? = u.flights[i]?) : succeeded s i = succeeded u i := by
  rw [succeeded, succeeded, h]

/-- Nothing is sent in a step in which no send of the task succeeds. -/
theorem Inv.filter_congr (hinv : Inv message w)
    (hsame : ∀ j ∈ w.begun, succeeded s j = succeeded w.actor j) :
    (w.generated.filter fun t => succeeded s t.client)
      = w.generated.filter fun t => succeeded w.actor t.client :=
  List.filter_congr fun t ht => hsame t.client (hinv.known t ht)

theorem Inv.filter_own (hinv : Inv message w)
    (hkept : ∀ j ∈ w.begun, j ≠ i → s.flights[j]? = w.actor.flights[j]?)
    (hi : succeeded s i = succeeded w.actor i) :
    (w.generated.filter fun t => succeeded s t.client) = w.enqueued := by
  rw [hinv.enqueued]
  refine hinv.filter_congr fun j hj => ?_
  by_cases hji : j = i
  · rwa [hji]
  · exact succeeded_congr (hkept j hj hji)

/-- Nor is anything accepted, as long as the task's own send does not come to its end. -/
theorem Inv.enqueued_own (hinv : Inv message w)
    (hkept : ∀ j ∈ w.begun, j ≠ i → w'.actor.flights[j]? = w.actor.flights[j]?)
    (hbegun : w'.begun = w.begun) (hacc : w'.actor.accepted = w.actor.accepted)
    (hi : succeeded w'.actor i = succeeded w.actor i) :
    w'.enqueued = w.generated.filter fun t => succeeded w'.actor t.client := by
  rw [hinv.filter_own hkept hi, IntervalWorld.enqueued, IntervalWorld.enqueued, hbegun, hacc]

/-- What has been reported is over, and stays so. -/
theorem Inv.reported_of (hinv : Inv message w)
    (hkept : ∀ j r, (j, r) ∈ w.reports → s.flights[j]? = w.actor.flights[j]?) (j : ℕ)
    (r : TickReport) (hr : (j, r) ∈ w.reports) :
    j ∈ w.begun ∧ ∃ f, s.flights[j]? = some f ∧ Tells r f.stage := by
  obtain ⟨hj, f, hf, htells⟩ := hinv.reported j r hr
  exact ⟨hj, f, (hkept j r hr).trans hf, htells⟩

/-! ## One lemma for each thing that can happen

The invariant says where each tick stands. The task is in at most one of them, and a step of the
task moves that one; every other tick is over, and is told apart by how it ended. -/

/-- The loop or another client moves. -/
theorem Inv.others (hinv : Inv message w) (hl : w.permitted l = true)
    (hs : w.actor.step E l = some s) : Inv message { w with actor := s } := by
  have hkept := hinv.kept_others hl hs
  constructor
  case actor => exact actorInv_step hinv.actor hs
  case ticks =>
    intro j hj
    obtain ⟨g, st, hf, hok⟩ := hinv.ticks j hj
    exact ⟨g, st, (hkept j hj).trans hf, hok.frame rfl rfl fun e => failure_step hs⟩
  case latest => exact hinv.latest
  case known => exact hinv.known
  case ordered => exact hinv.ordered
  case messages => exact hinv.messages
  case enqueued =>
    have hfilter := hinv.filter_congr fun j hj => succeeded_congr (hkept j hj)
    show (s.accepted.filter fun e => decide (e.client ∈ w.begun)) = _
    rw [hfilter, ← hinv.enqueued]
    rcases World.accepted_of_step hs with hsame | ⟨j, op, rfl, hf, hacc⟩
    · rw [hsame]
      rfl
    · -- the accepted payload is another client's
      have hj : j ∉ w.begun := by simpa [permitted] using hl
      rw [hacc, List.filter_append]
      simp [hj, IntervalWorld.enqueued]
  case reported =>
    exact hinv.reported_of fun j r hr => hkept j (hinv.reported j r hr).1
  case ended => exact hinv.ended

/-- The task moves within the tick of operation `i`, or leaves it. -/
theorem Inv.own (hinv : Inv message w) (hin : w.InTick i) (hactor : w'.actor.ActorInv)
    (hbegun : w'.begun = w.begun) (hgen : w'.generated = w.generated)
    (hflights : ∀ j ∈ w.begun, j ≠ i → w'.actor.flights[j]? = w.actor.flights[j]?)
    (hwhy : ∀ e, w.actor.Failure e → w'.actor.Failure e) (hin' : ∀ j, w'.InTick j → j = i)
    (hi : Stands message w' i)
    (henqueued : w'.enqueued = w.generated.filter fun t => succeeded w'.actor t.client)
    (hreported : ∀ j r, (j, r) ∈ w'.reports → j ∈ w.begun
      ∧ ∃ f, w'.actor.flights[j]? = some f ∧ Tells r f.stage)
    (hended : w'.stage = .ended ↔ ∃ i e, (i, .failed e) ∈ w'.reports) : Inv message w' where
  actor := hactor
  ticks j hj := by
    rw [hbegun] at hj
    by_cases hji : j = i
    · rwa [hji]
    · obtain ⟨g, st, hf, hok⟩ := hinv.ticks j hj
      refine ⟨g, st, (hflights j hj hji).trans hf, hok.settled (fun h => hji (hin.unique h))
        (fun h => hji (hin' j h)) (fun t ht => by rwa [hgen]) hwhy⟩
  latest j hj := by
    rw [hin' j hj, hbegun]
    exact hinv.latest i hin
  known t ht := by
    rw [hgen] at ht
    rw [hbegun]
    exact hinv.known t ht
  ordered := by rw [hgen]; exact hinv.ordered
  messages := by rw [hgen]; exact hinv.messages
  enqueued := by rw [hgen]; exact henqueued
  reported j r hr := by rw [hbegun]; exact hreported j r hr
  ended := hended

/-- As long as the task goes on, no tick has failed. -/
theorem Inv.unfailed (hinv : Inv message w) (hst : w.stage ≠ .ended) (i : ℕ) (e : ActorError) :
    (i, .failed e) ∉ w.reports := fun h => hst (hinv.ended.mpr ⟨i, e, h⟩)

omit [AsyncChannel Q] in
theorem InTick.not_ended (h : w.InTick i) : w.stage ≠ .ended := by
  rcases h with h | h <;> simp [h]

/-- A tick whose operation is under way has not been reported. -/
theorem Inv.unreported (hinv : Inv message w) {op : Operation σ ρ} {st : Stage ρ}
    (hf : w.actor.flights[i]? = some ⟨op, st⟩)
    (hst : st = .upgrading ∨ st = .checking ∨ st = .enqueuing) (r : TickReport) :
    (i, r) ∉ w.reports := by
  intro hr
  obtain ⟨-, f, hf', htells⟩ := hinv.reported i r hr
  cases hf.symm.trans hf'
  rcases hst with rfl | rfl | rfl <;> cases r <;> simp [Tells] at htells

/-- The task advances or drops the operation of the tick it is in, and reports nothing yet. -/
theorem Inv.reported_own (hinv : Inv message w) (hs : w.actor.step E l = some s)
    (hl : l = .advance i ∨ l = .abandon i) {op : Operation σ ρ} {st : Stage ρ}
    (hf : w.actor.flights[i]? = some ⟨op, st⟩)
    (hst : st = .upgrading ∨ st = .checking ∨ st = .enqueuing) (j : ℕ) (r : TickReport)
    (hr : (j, r) ∈ w.reports) : j ∈ w.begun ∧ ∃ f, s.flights[j]? = some f ∧ Tells r f.stage := by
  refine hinv.reported_of (fun k q hq => ?_) j r hr
  have hne : k ≠ i := by
    rintro rfl
    exact hinv.unreported hf hst q hq
  exact hinv.kept_own hs hl k (hinv.reported k q hq).1 hne

/-- A tick that has not got its sender has not generated its message. -/
theorem Inv.at_upgrade (hinv : Inv message w) (hin : w.InTick i) {op : Operation σ ρ}
    (hf : w.actor.flights[i]? = some ⟨op, .upgrading⟩) :
    op = WeakSender.upgradeAndSend (message w.generated.length) ∧ w.stage = .ticking i
      ∧ i ∉ w.generated.map Envelope.client := by
  obtain ⟨g, st, hf', hok⟩ := hinv.ticks i (hinv.latest i hin).1
  cases hf.symm.trans hf'
  cases hok with
  | upgrading hst hnew => exact ⟨rfl, hst, hnew⟩
  | past g st hover => cases hover

/-- Otherwise, until its send is over, its message is the one generated last. -/
theorem Inv.at_send (hinv : Inv message w) (hin : w.InTick i)
    (hup : w.stage = .ticking i → ∀ op, w.actor.flights[i]? ≠ some ⟨op, .upgrading⟩)
    (hret : w.stage = .ticking i → ∀ op res, w.actor.flights[i]? ≠ some ⟨op, .returned res⟩) :
    ∃ g st pre, w.actor.flights[i]? = some ⟨WeakSender.upgradeAndSend g, st⟩
      ∧ (st = .checking ∨ st = .enqueuing) ∧ w.generated = pre ++ [⟨i, .task g⟩] := by
  obtain ⟨g, st, hf, hok⟩ := hinv.ticks i (hinv.latest i hin).1
  cases hok with
  | upgrading hst hnew => exact absurd hf (hup hst _)
  | checking g hst pre hgen => exact ⟨g, _, pre, hf, .inl rfl, hgen⟩
  | enqueuing g hst pre hgen => exact ⟨g, _, pre, hf, .inr rfl, hgen⟩
  | past g st hover =>
    cases hover with
    | sent r hgen hst => exact absurd hf (hret (hin.resolve_right hst) _ _)
    | failed e hwhy hst => exact absurd hf (hret (hin.resolve_right hst) _ _)
    | abandoned hst => exact absurd hin hst

/-- The upgrade succeeds, and the message is generated. -/
theorem Inv.generate (hinv : Inv message w) {op : Operation σ ρ} (hst : w.stage = .ticking i)
    (hf : w.actor.flights[i]? = some ⟨op, .upgrading⟩) (hup : w.actor.upgradable = true)
    (hs : w.actor.step E (.advance i) = some s) :
    Inv message { w with actor := s, generated := w.generated ++ [⟨i, op.payload⟩] } := by
  have hin : w.InTick i := .inl hst
  obtain ⟨rfl, -, hnew⟩ := hinv.at_upgrade hin hf
  obtain ⟨hacc, -, hcases⟩ := World.upgrade_of_step hs hf
  have hf' : s.flights[i]? = some ⟨WeakSender.upgradeAndSend (message w.generated.length),
      .checking⟩ := hcases.elim And.right fun h => by simp [hup] at h
  have hkept := hinv.kept_own hs (.inl rfl)
  constructor
  case actor => exact actorInv_step hinv.actor hs
  case ticks =>
    intro j hj
    by_cases hji : j = i
    · subst hji
      exact ⟨_, _, hf', .checking _ hst w.generated rfl⟩
    · obtain ⟨g, st, hfj, hok⟩ := hinv.ticks j hj
      exact ⟨g, st, (hkept j hj hji).trans hfj, hok.settled (fun h => hji (hin.unique h))
        (fun h => hji (hin.unique h)) (fun t ht => List.mem_append_left _ ht)
        fun e => failure_step hs⟩
  case latest => exact hinv.latest
  case known =>
    intro t ht
    rcases List.mem_append.mp ht with hold | hlast
    · exact hinv.known t hold
    · rw [List.mem_singleton.mp hlast]
      exact (hinv.latest i hin).1
  case ordered =>
    rw [List.map_append, List.pairwise_append]
    refine ⟨hinv.ordered, List.pairwise_singleton .., fun k hk j hj => ?_⟩
    rw [List.map_singleton, List.mem_singleton] at hj
    obtain ⟨t, ht, rfl⟩ := List.mem_map.mp hk
    have hne : t.client ≠ i := fun heq => hnew (heq ▸ hk)
    rw [hj]
    exact lt_of_le_of_ne ((hinv.latest i hin).2 _ (hinv.known t ht)) hne
  -- the new message is the next one of the sequence
  case messages =>
    intro n t ht
    rcases Table.getElem?_snoc.mp ht with hold | ⟨rfl, rfl⟩
    · exact hinv.messages n t hold
    · rfl
  case enqueued =>
    have hnot : succeeded s i = false := by simp [succeeded, hf']
    have hwas : succeeded w.actor i = false := by simp [succeeded, hf]
    show (s.accepted.filter fun e => decide (e.client ∈ w.begun)) = _
    rw [hacc, List.filter_append, hinv.filter_own hkept (hnot.trans hwas.symm)]
    simp [hnot, IntervalWorld.enqueued]
  case reported => exact hinv.reported_own hs (.inl rfl) hf (.inl rfl)
  case ended => exact hinv.ended

/-- The upgrade fails: the mailbox is closed. -/
theorem Inv.dropped (hinv : Inv message w) {op : Operation σ ρ} (hst : w.stage = .ticking i)
    (hf : w.actor.flights[i]? = some ⟨op, .upgrading⟩) (hup : w.actor.upgradable = false)
    (hs : w.actor.step E (.advance i) = some s) : Inv message { w with actor := s } := by
  have hin : w.InTick i := .inl hst
  obtain ⟨rfl, -, hnew⟩ := hinv.at_upgrade hin hf
  obtain ⟨hacc, -, hcases⟩ := World.upgrade_of_step hs hf
  have hf' : s.flights[i]? = some ⟨WeakSender.upgradeAndSend (message w.generated.length),
      .returned (.error .actorDropped)⟩ := hcases.elim (fun h => by simp [hup] at h) And.right
  -- either the channel is closed, or nobody holds a sender, which closes it
  have hclosed : w.actor.closed = true := by
    simp only [World.upgradable, Bool.and_eq_false_iff, Bool.not_eq_false'] at hup
    exact hup.elim id hinv.actor.senders.settled
  have hkept := hinv.kept_own hs (.inl rfl)
  refine hinv.own hin (actorInv_step hinv.actor hs) rfl rfl hkept (fun e => failure_step hs)
    (fun j hj => hin.unique hj) ⟨_, _, hf', .past _ _ (.failed _ ?_ ?_)⟩ ?_
    (hinv.reported_own hs (.inl rfl) hf (.inl rfl)) hinv.ended
  · exact failure_step hs (.inl ⟨rfl, hclosed⟩)
  · simp [hst]
  · exact hinv.enqueued_own hkept rfl hacc (by simp [succeeded, hf, hf'])

/-- The send goes on: it passes the check, is rejected, or its message is in the mailbox. -/
theorem Inv.send (hinv : Inv message w) (hin : w.InTick i)
    (hup : w.stage = .ticking i → ∀ op, w.actor.flights[i]? ≠ some ⟨op, .upgrading⟩)
    (hs : w.actor.step E (.advance i) = some s) :
    Inv message { w with actor := s, stage := .ticking i } := by
  obtain ⟨g, st, pre, hf, hst, hgen⟩ := hinv.at_send hin hup fun _ op res hret => by
    rw [World.advance_returned hret] at hs
    cases hs
  have hwas : succeeded w.actor i = false := by rcases hst with rfl | rfl <;> simp [succeeded, hf]
  have hholds : (⟨WeakSender.upgradeAndSend g, st⟩ : Flight σ ρ).holds = true := by
    rcases hst with rfl | rfl <;> rfl
  have hkept := hinv.kept_own hs (.inl rfl)
  have hin' : ∀ j, ({ w with actor := s, stage := .ticking i } : IntervalWorld Q σ ρ).InTick j →
      j = i := fun j hj => InTick.unique (.inl rfl) hj
  have hreported := hinv.reported_own hs (.inl rfl) hf (.inr hst)
  have hended : IntervalStage.ticking i = .ended ↔ ∃ i e, (i, .failed e) ∈ w.reports := by
    simpa using hinv.unfailed hin.not_ended
  obtain ⟨-, hsends⟩ := World.sends_of_step hs hf hst rfl rfl
  cases hsends with
  | passed hold hnew hacc =>
    refine hinv.own hin (actorInv_step hinv.actor hs) rfl rfl hkept (fun e => failure_step hs) hin'
      ⟨g, _, hnew, .enqueuing g (.inl rfl) pre hgen⟩ ?_ hreported hended
    exact hinv.enqueued_own hkept rfl hacc (by rw [hwas]; simp [succeeded, hnew])
  | rejected hwhy hnew hacc =>
    -- the send has a sender in its hands, so only the receiver can have closed the mailbox
    have hcause : w.actor.task.running = false ∨ w.actor.task.rx = false := by
      refine hwhy.imp_right fun hclosed => (hinv.actor.senders.cause hclosed).resolve_left ?_
      simp [World.hasSender_of_holds (List.mem_of_getElem? hf) hholds]
    refine hinv.own hin (actorInv_step hinv.actor hs) rfl rfl hkept (fun e => failure_step hs) hin'
      ⟨g, _, hnew, .past _ _ (.failed _ (failure_step hs (.inr ⟨rfl, hcause⟩)) (by simp))⟩ ?_
      hreported hended
    exact hinv.enqueued_own hkept rfl hacc (by rw [hwas]; simp [succeeded, hnew])
  | accepted hold hnew hacc =>
    have hi : i ∈ w.begun := (hinv.latest i hin).1
    have hlast : i ∈ w.generated.map Envelope.client := by simp [hgen]
    refine hinv.own hin (actorInv_step hinv.actor hs) rfl rfl hkept (fun e => failure_step hs) hin'
      ⟨g, _, hnew, .past _ _ (.sent _ hlast (by simp))⟩ ?_ hreported hended
    show (s.accepted.filter fun e => decide (e.client ∈ w.begun)) = _
    -- the message is the one generated last, and the others stand where they stood
    have hpre : (pre.filter fun t => succeeded s t.client)
        = pre.filter fun t => succeeded w.actor t.client := by
      refine List.filter_congr fun t ht => succeeded_congr (hkept t.client ?_ ?_)
      · exact hinv.known t (by simp [hgen, ht])
      · have hlt := hinv.ordered
        rw [hgen, List.map_append, List.pairwise_append] at hlt
        exact (hlt.2.2 _ (List.mem_map_of_mem ht) i (by simp)).ne
    have hold : w.enqueued = pre.filter fun t => succeeded w.actor t.client := by
      rw [hinv.enqueued, hgen, List.filter_append]
      simp [hwas]
    have hnow : succeeded s i = true := by simp [succeeded, hnew]
    rw [hacc, hgen, List.filter_append, List.filter_append, hpre, ← hold]
    simp [hi, hnow, IntervalWorld.enqueued]
    rfl

/-- The send finds the mailbox full and waits. -/
theorem Inv.block (hinv : Inv message w) (hst : w.stage = .ticking i) {f : Flight σ ρ}
    (hf : w.actor.flights[i]? = some f) (hup : f.stage ≠ .upgrading)
    (hret : ∀ res, f.stage ≠ .returned res) (hs : w.actor.step E (.advance i) = none) :
    Inv message { w with stage := .waiting i } := by
  have hin : w.InTick i := .inl hst
  obtain ⟨g, st, pre, hf', hcases, hgen⟩ := hinv.at_send hin
    (fun _ op h => by cases hf.symm.trans h; exact hup rfl)
    (fun _ op res h => by cases hf.symm.trans h; exact hret res rfl)
  refine hinv.own hin hinv.actor rfl rfl (fun _ _ _ => rfl) (fun _ h => h)
    (fun j hj => InTick.unique (.inr rfl) hj) ?_ hinv.enqueued hinv.reported
    (by simpa using hinv.unfailed hin.not_ended)
  rcases hcases with rfl | rfl
  · obtain ⟨v, hv⟩ := World.advance_checking (E := E) hf'
    simp [hs] at hv
  · exact ⟨g, _, hf', .enqueuing g (.inr rfl) pre hgen⟩

/-- The send is over, which the task reports. -/
theorem Inv.returned (hinv : Inv message w) (hst : w.stage = .ticking i) {op : Operation σ ρ}
    {res : Except ActorError (Option ρ)} (hf : w.actor.flights[i]? = some ⟨op, .returned res⟩)
    {r : TickReport} {st' : IntervalStage} (htells : Tells r (.returned res : Stage ρ))
    (hout : ∀ j, ¬ (w.report i r st').InTick j) (hended : st' = .ended ↔ ∃ e, r = .failed e) :
    Inv message (w.report i r st') := by
  have hin : w.InTick i := .inl hst
  obtain ⟨g, st, hf', hok⟩ := hinv.ticks i (hinv.latest i hin).1
  cases hf.symm.trans hf'
  refine hinv.own hin hinv.actor rfl rfl (fun _ _ _ => rfl) (fun _ h => h)
    (fun j hj => absurd hj (hout j)) ⟨g, _, hf', .past g _ ?_⟩ hinv.enqueued ?_ ?_
  · cases hok with
    | past g st hover =>
      cases hover with
      | sent x hgen _ => exact .sent x hgen fun h => hout i (.inr h)
      | failed e hwhy _ => exact .failed e hwhy fun h => hout i (.inr h)
  · intro j q hq
    rcases List.mem_append.mp hq with hold | hnew
    · exact hinv.reported j q hold
    · cases List.mem_singleton.mp hnew
      exact ⟨(hinv.latest i hin).1, _, hf, htells⟩
  · show st' = .ended ↔ ∃ j e, (j, .failed e) ∈ w.reports ++ [(i, r)]
    rw [hended]
    have hnone := hinv.unfailed hin.not_ended
    simp [hnone, eq_comm]

/-- The send is dropped: the tick is skipped, or the task is aborted. -/
theorem Inv.giveUp (hinv : Inv message w) (rs : List (ℕ × TickReport)) (hst : w.stage = .waiting i)
    (hs : w.actor.step E (.abandon i) = some s) {st' : IntervalStage}
    (hrs : ∀ p ∈ rs, p = (i, .skipped)) (hst' : st' = .sleeping ∨ st' = .aborted) :
    Inv message { w with actor := s, stage := st', reports := w.reports ++ rs } := by
  have hin : w.InTick i := .inr hst
  obtain ⟨g, st, pre, hf, hcases, hgen⟩ := hinv.at_send hin (fun h => by simp [hst] at h)
    (fun h => by simp [hst] at h)
  obtain ⟨hacc, -, f, hf', hnew⟩ := World.abandon_of_step hs
  cases hf.symm.trans hf'
  have hkept := hinv.kept_own hs (.inr rfl)
  have hout : ∀ j, ¬ ({ w with actor := s, stage := st', reports := w.reports ++ rs }
      : IntervalWorld Q σ ρ).InTick j := by
    intro j hj
    rcases hst' with rfl | rfl <;> rcases hj with hj | hj <;> cases hj
  -- whichever it is, the task has left the tick
  refine hinv.own hin (actorInv_step hinv.actor hs) rfl rfl hkept (fun e => failure_step hs)
    (fun j hj => absurd hj (hout j)) ⟨g, _, hnew, .past g _ (.abandoned (hout i))⟩ ?_ ?_ ?_
  · have hwas : succeeded w.actor i = false := by
      rcases hcases with rfl | rfl <;> simp [succeeded, hf]
    exact hinv.enqueued_own hkept rfl hacc (by rw [hwas]; simp [succeeded, hnew])
  · intro j q hq
    rcases List.mem_append.mp hq with hold | hlast
    · exact hinv.reported_own hs (.inr rfl) hf (.inr hcases) j q hold
    · cases hrs _ hlast
      exact ⟨(hinv.latest i hin).1, _, hnew, rfl⟩
  · have hnone := hinv.unfailed hin.not_ended
    have hnew : ∀ j e, (j, .failed e) ∉ rs := fun j e h => by simpa using hrs _ h
    rcases hst' with rfl | rfl <;> simp [hnone, hnew]

/-- The sleep is over, and the next tick begins. -/
theorem Inv.wake (hinv : Inv message w) (hst : w.stage = .sleeping)
    (hs : w.actor.step E (.begin (WeakSender.upgradeAndSend (message w.generated.length)))
      = some s) :
    Inv message { w with
      actor := s
      stage := .ticking w.actor.flights.length
      begun := w.begun ++ [w.actor.flights.length] } := by
  obtain ⟨hflights, hacc, -⟩ := World.begin_of_step hs
  have hout : ∀ j, ¬ w.InTick j := by
    rintro j (hj | hj) <;> simp [hst] at hj
  have hkept : ∀ j ∈ w.begun, s.flights[j]? = w.actor.flights[j]? := fun j hj =>
    hinv.kept hj hs (by simp) (by simp)
  have hne : ∀ j ∈ w.begun, j ≠ w.actor.flights.length := fun j hj => (hinv.lt hj).ne
  constructor
  case actor => exact actorInv_step hinv.actor hs
  case ticks =>
    intro j hj
    rcases List.mem_append.mp hj with hj | hj
    · obtain ⟨g, st, hf, hok⟩ := hinv.ticks j hj
      refine ⟨g, st, (hkept j hj).trans hf, hok.settled (hout j) (fun h => hne j hj ?_)
        (fun t ht => ht) fun e => failure_step hs⟩
      exact InTick.unique (.inl rfl) h
    · rw [List.mem_singleton.mp hj]
      refine ⟨_, .upgrading, ?_, .upgrading rfl ?_⟩
      · show s.flights[w.actor.flights.length]? = _
        rw [hflights, List.getElem?_concat_length]
        rfl
      · intro hmem
        obtain ⟨t, ht, hlen⟩ := List.mem_map.mp hmem
        exact hne t.client (hinv.known t ht) hlen
  case latest =>
    intro j hj
    rw [InTick.unique (.inl rfl) hj]
    refine ⟨by simp, fun k hk => ?_⟩
    rcases List.mem_append.mp hk with hk | hk
    · exact (hinv.lt hk).le
    · exact (List.mem_singleton.mp hk).le
  case known => exact fun t ht => List.mem_append_left _ (hinv.known t ht)
  case ordered => exact hinv.ordered
  case messages => exact hinv.messages
  case enqueued =>
    have hsame := hinv.filter_congr fun j hj => succeeded_congr (hkept j hj)
    show (s.accepted.filter fun e => decide (e.client ∈ w.begun ++ [w.actor.flights.length])) = _
    rw [hsame, ← hinv.enqueued, hacc]
    -- nothing of an operation that has just begun has been accepted
    refine List.filter_congr fun e he => ?_
    have hlt : e.client < w.actor.flights.length :=
      hinv.actor.requests.ok.bounded e.client (List.mem_map_of_mem he)
    simp [hlt.ne]
  case reported =>
    intro j r hr
    obtain ⟨hj, f, hf, htells⟩ := hinv.reported j r hr
    exact ⟨List.mem_append_left _ hj, f, (hkept j hj).trans hf, htells⟩
  case ended => simpa using hinv.unfailed (by simp [hst])

/-- The task moves between its ticks. -/
theorem Inv.restage (hinv : Inv message w) {st' : IntervalStage} (hout : ∀ j, ¬ w.InTick j)
    (hst : w.stage ≠ .ended)
    (hst' : st' = .sleeping ∨ st' = .aborted) : Inv message { w with stage := st' } := by
  have hout' : ∀ j, ¬ ({ w with stage := st' } : IntervalWorld Q σ ρ).InTick j := by
    intro j hj
    rcases hst' with rfl | rfl <;> rcases hj with hj | hj <;> cases hj
  refine ⟨hinv.actor, fun j hj => ?_, fun j hj => absurd hj (hout' j), hinv.known, hinv.ordered,
    hinv.messages, hinv.enqueued, hinv.reported, ?_⟩
  · obtain ⟨g, st, hf, hok⟩ := hinv.ticks j hj
    exact ⟨g, st, hf, hok.settled (hout j) (hout' j) (fun t ht => ht) fun e h => h⟩
  · rcases hst' with rfl | rfl <;> simpa using hinv.unfailed hst

/-- **The step lemma.** -/
theorem inv_step {l : IntervalLabel σ ρ} (hinv : Inv message w) (h : Act E message w l w') :
    Inv message w' := by
  cases h with
  | actor l s hl hs => exact hinv.others hl hs
  | spawn hst hcall =>
    exact hinv.restage (by rintro j (hj | hj) <;> simp [hst] at hj) (by simp [hst]) (.inl rfl)
  | wake s hst hs => exact hinv.wake hst hs
  | generate i op s hst hf hup hs => exact hinv.generate hst hf hup hs
  | dropped i op s hst hf hup hs => exact hinv.dropped hst hf hup hs
  | send i s hst hup hs => exact hinv.send hst hup hs
  | block i f hst hf hup hret hs => exact hinv.block hst hf hup hret hs
  | sent i op r hst hf =>
    exact hinv.returned hst hf ⟨r, rfl⟩ (by rintro j (hj | hj) <;> cases hj) (by simp)
  | failed i op e hst hf =>
    exact hinv.returned hst hf rfl (by rintro j (hj | hj) <;> cases hj) (by simp)
  | expire i s hst hwait hs =>
    exact hinv.giveUp [(i, .skipped)] hst hs (by simp) (.inl rfl)
  | abortSleep hst =>
    exact hinv.restage (by rintro j (hj | hj) <;> simp [hst] at hj) (by simp [hst]) (.inr rfl)
  | abortSend i s hst hs =>
    simpa using hinv.giveUp [] hst hs (by simp) (.inr rfl)

theorem inv_of_run {capacity : Option ℕ+} {a : σ} {ls : List (IntervalLabel σ ρ)}
    (h : (intervalWith Q E capacity a message).Run ls w) : Inv message w :=
  h.invariant (I := Inv message) (inv_init capacity a) fun _ _ _ hinv hstep =>
    inv_step hinv (act_cases hstep)

/-! ## What one step adds

Seen from outside a step generates a message, enqueues one, or reports how a tick ended, and each of
these is about the tick the task is in. -/

/-- A tick the task is in has been the task's before, or has just begun. -/
theorem inTick_of_act {l : IntervalLabel σ ρ} (h : Act E message w l w') (hi : w'.InTick i) :
    w.InTick i ∨ (i = w.actor.flights.length ∧ w'.generated = w.generated) := by
  cases h with
  | spawn hst hcall => rcases hi with hi | hi <;> cases hi
  | wake s hst hs => exact .inr ⟨InTick.unique (.inl rfl) hi, rfl⟩
  | send j s hst hup hs =>
    rw [InTick.unique (.inl rfl) hi]
    exact .inl hst
  | block j f hst hf hup hret hs =>
    rw [InTick.unique (.inr rfl) hi]
    exact .inl (.inl hst)
  | sent j op r hst hf => rcases hi with hi | hi <;> cases hi
  | failed j op e hst hf => rcases hi with hi | hi <;> cases hi
  | expire j s hst hwait hs => rcases hi with hi | hi <;> cases hi
  | abortSleep hst => rcases hi with hi | hi <;> cases hi
  | abortSend j s hst hs => rcases hi with hi | hi <;> cases hi
  | _ => exact .inl hi

/-- A step generates no message, or that of the tick the task is in. -/
theorem Inv.generated_of_act (hinv : Inv message w) {l : IntervalLabel σ ρ}
    (h : Act E message w l w') : w'.generated = w.generated
      ∨ ∃ i p, w.InTick i ∧ w'.stage = w.stage ∧ i ∉ w.generated.map Envelope.client
        ∧ w'.generated = w.generated ++ [⟨i, p⟩] := by
  cases h with
  | generate i op s hst hf hup hs =>
    exact .inr ⟨i, op.payload, .inl hst, rfl, (hinv.at_upgrade (.inl hst) hf).2.2, rfl⟩
  | _ => exact .inl rfl

theorem Inv.generated_mono (hinv : Inv message w) {l : IntervalLabel σ ρ}
    (h : Act E message w l w') (hi : i ∈ w.generated.map Envelope.client) :
    i ∈ w'.generated.map Envelope.client := by
  rcases hinv.generated_of_act h with hsame | ⟨j, p, -, -, -, hgrown⟩
  · rwa [hsame]
  · rw [hgrown, List.map_append]
    exact List.mem_append_left _ hi

/-- As long as the operations of the task stand where they stood, nothing of it is accepted. -/
theorem Inv.enqueued_kept (hinv : Inv message w) (hinv' : Inv message w')
    (hgen : w'.generated = w.generated)
    (hkept : ∀ j ∈ w.begun, w'.actor.flights[j]? = w.actor.flights[j]?) :
    w'.enqueued = w.enqueued := by
  rw [hinv'.enqueued, hinv.enqueued, hgen]
  exact hinv.filter_congr fun j hj => succeeded_congr (hkept j hj)

/-- The mailbox accepts nothing of the task's, or the message of the tick the task is in. -/
theorem Inv.enqueued_of_act (hinv : Inv message w) {l : IntervalLabel σ ρ}
    (h : Act E message w l w') : w'.enqueued = w.enqueued
      ∨ ∃ i p, w.InTick i ∧ w'.enqueued = w.enqueued ++ [⟨i, p⟩] := by
  have hown : ∀ {v : IntervalWorld Q σ ρ} {i : ℕ}, w.InTick i → v.begun = w.begun →
      w.actor.step E (.advance i) = some v.actor → v.enqueued = w.enqueued
        ∨ ∃ i p, w.InTick i ∧ v.enqueued = w.enqueued ++ [⟨i, p⟩] := by
    intro v i hin hbegun hs
    rw [IntervalWorld.enqueued, hbegun]
    rcases World.accepted_of_step hs with hsame | ⟨j, op, hl, -, hacc⟩
    · rw [hsame]
      exact .inl rfl
    · cases hl
      refine .inr ⟨i, op.payload, hin, ?_⟩
      rw [hacc, List.filter_append]
      simp [(hinv.latest i hin).1, IntervalWorld.enqueued]
  have hgiveUp : ∀ {v : IntervalWorld Q σ ρ} {i : ℕ}, v.begun = w.begun →
      w.actor.step E (.abandon i) = some v.actor → v.enqueued = w.enqueued := by
    intro v i hbegun hs
    rw [IntervalWorld.enqueued, hbegun, (World.abandon_of_step hs).1]
    rfl
  cases h with
  | actor l s hl hs =>
    exact .inl (hinv.enqueued_kept (hinv.others hl hs) rfl (hinv.kept_others hl hs))
  | wake s hst hs =>
    refine .inl (hinv.enqueued_kept (hinv.wake hst hs) rfl fun j hj => ?_)
    exact hinv.kept hj hs (by simp) (by simp)
  | generate i op s hst hf hup hs => exact hown (.inl hst) rfl hs
  | dropped i op s hst hf hup hs => exact hown (.inl hst) rfl hs
  | send i s hst hup hs => exact hown hst rfl hs
  | expire i s hst hwait hs => exact .inl (hgiveUp rfl hs)
  | abortSend i s hst hs => exact .inl (hgiveUp rfl hs)
  | _ => exact .inl rfl

/-- The task begins to wait where the mailbox is full. -/
theorem Inv.waiting_of_act (hinv : Inv message w) {l : IntervalLabel σ ρ}
    (h : Act E message w l w') (hst' : w'.stage = .waiting i) :
    w.stage = .waiting i ∨ w.actor.full = true := by
  cases h with
  -- the send can only be stuck at the mailbox, and only a full one holds it up
  | block j f hst hf hup hret hs =>
    refine .inr ?_
    obtain ⟨g, st, -, hf', hcases, -⟩ := hinv.at_send (.inl hst)
      (fun _ op h => by cases hf.symm.trans h; exact hup rfl)
      (fun _ op res h => by cases hf.symm.trans h; exact hret res rfl)
    rcases hcases with rfl | rfl
    · obtain ⟨v, hv⟩ := World.advance_checking (E := E) hf'
      simp [hs] at hv
    · exact World.full_of_blocked hf' hs
  | spawn hst hcall => cases hst'
  | wake s hst hs => cases hst'
  | send j s hst hup hs => cases hst'
  | sent j op r hst hf => cases hst'
  | failed j op e hst hf => cases hst'
  | expire j s hst hwait hs => cases hst'
  | abortSleep hst => cases hst'
  | abortSend j s hst hs => cases hst'
  | _ => exact .inl hst'

/-! ## The consequences for a run

The reports and the mailbox's history agree because both are read off the stages of the same
operations: a tick has been sent exactly when its operation has succeeded. -/

/-- Of what the mailbox has accepted, only the messages whose send has succeeded are the task's. -/
theorem Inv.mem_accepted (hinv : Inv message w) (hi : i ∈ w.begun) :
    i ∈ w.actor.accepted.map Envelope.client ↔ succeeded w.actor i = true := by
  constructor
  · intro hmem
    obtain ⟨e, he, rfl⟩ := List.mem_map.mp hmem
    have hown : e ∈ w.enqueued := List.mem_filter.mpr ⟨he, by simpa using hi⟩
    rw [hinv.enqueued] at hown
    exact (List.mem_filter.mp hown).2
  · intro hsent
    obtain ⟨g, st, hf, hok⟩ := hinv.ticks i hi
    have hgen : i ∈ w.generated.map Envelope.client := by
      -- of the ways a tick stands, only one has succeeded
      cases hok with
      | past g st hover =>
        cases hover with
        | sent r hgen hst => exact hgen
        | failed e hwhy hst => simp [succeeded, hf] at hsent
        | abandoned hst => simp [succeeded, hf] at hsent
      | _ => simp [succeeded, hf] at hsent
    obtain ⟨t, ht, rfl⟩ := List.mem_map.mp hgen
    have hown : t ∈ w.enqueued := by
      rw [hinv.enqueued]
      exact List.mem_filter.mpr ⟨ht, hsent⟩
    exact List.mem_map_of_mem (List.mem_filter.mp hown).1

/-- A tick is in the mailbox's history once if it is reported as sent, and else not at all. -/
theorem Inv.count_reported (hinv : Inv message w) {r : TickReport} (hr : (i, r) ∈ w.reports) :
    (w.actor.accepted.map Envelope.client).count i = if r = .sent then 1 else 0 := by
  obtain ⟨hi, ⟨op, st⟩, hf, htells⟩ := hinv.reported i r hr
  have hmem := hinv.mem_accepted hi
  cases r with
  | sent =>
    obtain ⟨x, rfl⟩ := htells
    rw [if_pos rfl]
    exact List.count_eq_one_of_mem hinv.actor.requests.ok.distinct
      (hmem.mpr (by simp [succeeded, hf]))
  | skipped =>
    obtain rfl : st = .abandoned := htells
    rw [if_neg (by simp), List.count_eq_zero, hmem]
    simp [succeeded, hf]
  | failed e =>
    obtain rfl : st = .returned (.error e) := htells
    rw [if_neg (by simp), List.count_eq_zero, hmem]
    simp [succeeded, hf]

/-- A failed tick has found the mailbox closed, or the actor stopped. -/
theorem Inv.why_failed (hinv : Inv message w) {e : ActorError} (hr : (i, .failed e) ∈ w.reports) :
    (e = .actorDropped ∧ w.actor.closed = true)
      ∨ (e = .channelClosed
        ∧ (w.actor.task.loop.pc.atNotify = true ∨ w.actor.task.loop.pc.ended = true)) := by
  obtain ⟨hi, f, hf, htells⟩ := hinv.reported i _ hr
  obtain ⟨g, st, hf', hok⟩ := hinv.ticks i hi
  cases hf.symm.trans hf'
  obtain rfl : st = .returned (.error e) := htells
  cases hok with
  | past g st hover =>
    cases hover with
    | failed e hwhy hst =>
      refine hwhy.imp_right (And.imp_right fun hstopped => ?_)
      -- the flag is down, or the receiver is gone with the loop
      rcases hstopped with hrun | hrx
      · exact hinv.actor.task.lowered hrun
      · refine .inr ?_
        cases hend : w.actor.task.loop.pc.ended with
        | true => rfl
        | false => exact absurd (hinv.actor.task.owned hend).1 (by simp [hrx])

/-- Between two ticks the task holds no sender. -/
theorem Inv.holds_nothing (hinv : Inv message w) (hout : ∀ j, ¬ w.InTick j) {f : Flight σ ρ}
    (hi : i ∈ w.begun) (hf : w.actor.flights[i]? = some f) : f.holds = false := by
  obtain ⟨g, st, hf', hok⟩ := hinv.ticks i hi
  cases hf.symm.trans hf'
  cases hok with
  | upgrading hst hnew => rfl
  | checking g hst pre hgen => exact absurd (.inl hst) (hout i)
  | enqueuing g hst pre hgen => exact absurd hst (hout i)
  | past g st hover => cases hover <;> rfl

/-- **The ticks of an interval are delivered at most once and in order.** For both loops, every
capacity, every interleaving with handlers and other clients, and timers that fire at any time: the
messages of the task that the mailbox has accepted are, in this order, some of those it has
generated, of which the `n`-th is `message n`; what has been reported as sent was accepted once, and
what has been reported as skipped never; the task leaves its loop only when a tick fails, which is
when the mailbox is closed or the actor has stopped; and between two ticks it holds no sender, so
that the mailbox is closed if nobody else holds one. -/
theorem interval_ticks (E : EventLoop σ) (capacity : Option ℕ+) (a : σ) (message : ℕ → TaskFn σ ρ)
    {ls : List (IntervalLabel σ ρ)} (h : (intervalWith Q E capacity a message).Run ls w) :
    (w.enqueued.Sublist w.generated ∧ (w.generated.map Envelope.client).Pairwise (· < ·)
        ∧ (∀ (n : ℕ) (t : Envelope σ ρ), w.generated[n]? = some t → t.payload = .task (message n))
        ∧ w.actor.queued <:+ w.actor.accepted)
      ∧ (∀ i r, (i, r) ∈ w.reports →
        (w.actor.accepted.map Envelope.client).count i = if r = .sent then 1 else 0)
      ∧ (w.stage = .ended ↔ ∃ i e, (i, .failed e) ∈ w.reports)
      ∧ (∀ i e, (i, .failed e) ∈ w.reports → (e = .actorDropped ∧ w.actor.closed = true)
        ∨ (e = .channelClosed
          ∧ (w.actor.task.loop.pc.atNotify = true ∨ w.actor.task.loop.pc.ended = true)))
      ∧ ((∀ j, ¬ w.InTick j) →
        (∀ i ∈ w.begun, ∀ f, w.actor.flights[i]? = some f → f.holds = false)
          ∧ (w.actor.handles = 0 →
            (∀ i f, w.actor.flights[i]? = some f → f.holds = true → i ∈ w.begun) →
            w.actor.closed = true)) := by
  have hinv := inv_of_run h
  refine ⟨⟨?_, hinv.ordered, hinv.messages, hinv.actor.queued⟩, fun i r => hinv.count_reported,
    hinv.ended, fun i e => hinv.why_failed, fun hout => ⟨fun i hi f => hinv.holds_nothing hout hi,
    fun hnone hothers => hinv.actor.senders.settled ?_⟩⟩
  · rw [hinv.enqueued]
    exact List.filter_sublist
  · rw [Bool.eq_false_iff, World.hasSender, hnone]
    simp only [Nat.lt_irrefl, decide_false, Bool.false_or, ne_eq, List.any_eq_true, not_exists,
      not_and, Bool.not_eq_true]
    intro f hf
    obtain ⟨i, hi⟩ := List.mem_iff_getElem?.mp hf
    rw [Bool.eq_false_iff]
    intro hholds
    simp [hinv.holds_nothing hout (hothers i f hi hholds) hi] at hholds

/-- Two ticks of an interval on a mailbox with room for one message, while the actor starts. -/
def skippedRun : List (IntervalLabel ℕ ℕ) :=
  [.actor .poll, .spawn, .wake, .poll, .poll, .poll, .poll, .wake, .poll, .poll, .poll, .expire]

/-- Ticks on a mailbox with room for one message. -/
def smallMailbox : Machine (IntervalWorld ChannelState ℕ ℕ) (IntervalLabel ℕ ℕ) :=
  interval ChannelState (.fromChannel (.provided 0)) (some 1) 0 fun n => .completed (n + 1) none

theorem interval_ticks_skipped :
    (smallMailbox.after skippedRun rfl).reports = [(0, .sent), (1, .skipped)]
      ∧ ((smallMailbox.after skippedRun rfl).actor.accepted.map Envelope.client).count 1 = 0 := by
  have hreports : (smallMailbox.after skippedRun rfl).reports = [(0, .sent), (1, .skipped)] := rfl
  have hcount := (interval_ticks _ _ _ _ (smallMailbox.run_after skippedRun rfl)).2.1 1 .skipped
  exact ⟨hreports, hcount (by simp [hreports])⟩

end IntervalWorld

end Hannibal
