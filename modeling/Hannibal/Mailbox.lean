import Hannibal.World

/-!
# Hannibal.Mailbox — what the mailbox has accepted, and what became of it

The history of one mailbox, for both loops, every capacity and any number of clients.

* **`Traffic`** — what one step does to the queue and to the history: nothing, one payload is
  accepted, one payload is accepted and the oldest one is dropped for it, or the oldest is popped.
* **`Evicts`** — the one kind of step that drops an accepted payload.
* **`no_loss_iff`** — a run loses no payload exactly when it takes no such step.
-/

namespace Hannibal

open Lts Chan
open AsyncChannel (state)

variable {Q : Type → Type} [AsyncChannel Q] {σ ρ : Type}

namespace World

/-- A step of a control operation into an open mailbox that is full: `force_send` makes room by
dropping the oldest payload. -/
def Evicts (w : World Q σ ρ) (l : Label σ ρ) : Prop :=
  ∃ i op, l = .advance i ∧ w.flights[i]? = some ⟨op, .enqueuing⟩ ∧ op.primitive = .forceSend
    ∧ w.closed = false ∧ w.full = true

/-- What one step does to the queue and its history. -/
inductive Traffic (w : World Q σ ρ) (l : Label σ ρ) (v : World Q σ ρ) : Prop where
  | kept (hq : v.queued = w.queued) (ha : v.accepted = w.accepted) (hp : v.popped = w.popped)
  | accept (i : ℕ) (op : Operation σ ρ) (hl : l = .advance i)
      (hf : w.flights[i]? = some ⟨op, .enqueuing⟩) (hopen : w.closed = false)
      (hfull : w.full = false) (hq : v.queued = w.queued ++ [⟨i, op.payload⟩])
      (ha : v.accepted = w.accepted ++ [⟨i, op.payload⟩]) (hp : v.popped = w.popped)
  | evict (i : ℕ) (op : Operation σ ρ) (hl : l = .advance i)
      (hf : w.flights[i]? = some ⟨op, .enqueuing⟩) (hforce : op.primitive = .forceSend)
      (hopen : w.closed = false) (hfull : w.full = true)
      (hq : v.queued = w.queued.tail ++ [⟨i, op.payload⟩])
      (ha : v.accepted = w.accepted ++ [⟨i, op.payload⟩]) (hp : v.popped = w.popped)
  | pop (e : Envelope σ ρ) (hl : l = .receive) (hq : w.queued = e :: v.queued)
      (ha : v.accepted = w.accepted) (hp : v.popped = w.popped ++ [e])

variable {E : EventLoop σ} {w v w' : World Q σ ρ} {l : Label σ ρ}

/-- The four kinds of step. -/
theorem traffic_of_act (h : Act E w l v) : Traffic w l v := by
  cases h with
  -- an acceptance finds room, or is a `force_send` that makes it
  | accepted i op hf evicted q henq =>
    obtain ⟨hopen, ⟨-, hstate, hfull⟩ | ⟨hforce, hfull, -, hstate⟩⟩ := enqueue_ok henq
    · refine .accept i op rfl hf hopen hfull ?_ rfl (accept_popped ..)
      show (state q).queued = _
      rw [hstate]
      rfl
    · refine .evict i op rfl hf hforce hopen hfull ?_ rfl (accept_popped ..)
      show (state q).queued = _
      rw [hstate]
      rfl
  | pop e q t hq ht =>
    obtain ⟨hqueue, -, -⟩ := AsyncChannel.tryRecv_ok hq
    exact .pop e rfl hqueue rfl rfl
  | poll t ht => exact .kept (by simp [queued]) (by simp) (by simp)
  | dropFuture t ht => exact .kept (by simp [queued]) (by simp) (by simp)
  | dropRx t ht => exact .kept (by simp [queued]) rfl rfl
  | _ => exact .kept rfl rfl rfl

/-- The channel's own reaction changes nothing here. -/
theorem traffic_of_step (h : step E w l = some w') : Traffic w l w' := by
  obtain ⟨v, hact, rfl⟩ := step_cases h
  cases traffic_of_act hact with
  | kept hq ha hp => exact .kept (by simpa using hq) (by simpa using ha) (by simpa using hp)
  | accept i op hl hf hopen hfull hq ha hp =>
    exact .accept i op hl hf hopen hfull (by simpa using hq) (by simpa using ha) (by simpa using hp)
  | evict i op hl hf hforce hopen hfull hq ha hp =>
    exact .evict i op hl hf hforce hopen hfull (by simpa using hq) (by simpa using ha)
      (by simpa using hp)
  | pop e hl hq ha hp => exact .pop e hl (by simpa using hq) (by simpa using ha) (by simpa using hp)

/-- The mailbox accepts one payload at a time, of an operation that hands one over. -/
theorem accepted_of_step (h : step E w l = some w') : w'.accepted = w.accepted
    ∨ ∃ i op, l = .advance i ∧ w.flights[i]? = some ⟨op, .enqueuing⟩
      ∧ w'.accepted = w.accepted ++ [⟨i, op.payload⟩] := by
  cases traffic_of_step h with
  | kept hq ha hp => exact .inl ha
  | accept i op hl hf hopen hfull hq ha hp => exact .inr ⟨i, op, hl, hf, ha⟩
  | evict i op hl hf hforce hopen hfull hq ha hp => exact .inr ⟨i, op, hl, hf, ha⟩
  | pop e hl hq ha hp => exact .inl ha

/-- What is queued is what was accepted last, in the same order. -/
theorem queued_suffix_step (hw : w.queued <:+ w.accepted) (h : step E w l = some w') :
    w'.queued <:+ w'.accepted := by
  have hpush : ∀ {q : List (Envelope σ ρ)} (e : Envelope σ ρ), q <:+ w.accepted →
      q ++ [e] <:+ w.accepted ++ [e] := by
    rintro q e ⟨pre, hpre⟩
    exact ⟨pre, by rw [← hpre, List.append_assoc]⟩
  -- the queue grows with the history, and loses its first payload to the loop or to an eviction
  cases traffic_of_step h with
  | kept hq ha hp => rwa [hq, ha]
  | accept i op hl hf hopen hfull hq ha hp =>
    rw [hq, ha]
    exact hpush _ hw
  | evict i op hl hf hforce hopen hfull hq ha hp =>
    rw [hq, ha]
    exact hpush _ ((List.tail_suffix _).trans hw)
  | pop e hl hq ha hp =>
    rw [hq] at hw
    rw [ha]
    exact (List.suffix_cons e _).trans hw

/-- The capacity of a mailbox never changes. -/
theorem capacity_of_act (h : Act E w l v) :
    (state v.mailbox).capacity = (state w.mailbox).capacity := by
  cases h with
  | accepted i op hf evicted q henq =>
    obtain ⟨-, ⟨-, hstate, -⟩ | ⟨-, -, -, hstate⟩⟩ := enqueue_ok henq
    · rw [accept_mailbox, hstate, ChannelState.push_capacity]
    · rw [accept_mailbox, hstate, ChannelState.push_capacity, ChannelState.dropOldest_capacity]
  | pop e q t hq ht => exact (AsyncChannel.tryRecv_ok hq).2.2
  | poll t ht => rw [answer_mailbox, withTask_mailbox]
  | dropFuture t ht => rw [answer_mailbox, withTask_mailbox]
  | dropRx t ht => simp
  | _ => rfl

/-- An unbounded mailbox never evicts. -/
theorem not_evicts_of_unbounded (hcap : (state w.mailbox).capacity = none) : ¬ Evicts w l := by
  rintro ⟨i, op, -, -, -, -, hfull⟩
  have hnot : w.full = false := ChannelState.full_of_unbounded hcap
  simp [hfull] at hnot

/-! ## No payload is lost

`NoLoss` is an equation between the history and what is popped and queued. A step that does not
evict keeps it, as the four kinds of `Traffic` show; one that evicts breaks it for good, by
counting. -/

/-- Every accepted payload has been popped or is still queued, in acceptance order. -/
structure NoLoss (w : World Q σ ρ) : Prop where
  in_order : w.popped <+: w.accepted
  kept : w.accepted = w.popped ++ w.queued

theorem NoLoss.of_kept (h : w.accepted = w.popped ++ w.queued) : NoLoss w :=
  ⟨h ▸ List.prefix_append _ _, h⟩

theorem noLoss_init (capacity : Option ℕ+) (a : σ) : NoLoss (init Q ρ capacity a) :=
  .of_kept (by simp [init, queued, ChannelState.fresh])

/-- A step that does not evict loses nothing. -/
theorem noLoss_step (hno : NoLoss w) (h : step E w l = some w') (hev : ¬ Evicts w l) :
    NoLoss w' := by
  refine .of_kept ?_
  have hkept := hno.kept
  cases traffic_of_step h with
  | kept hq ha hp => rw [hq, ha, hp, hkept]
  | accept i op hl hf hopen hfull hq ha hp => rw [hq, ha, hp, hkept, List.append_assoc]
  | evict i op hl hf hforce hopen hfull hq ha hp =>
    exact absurd ⟨i, op, hl, hf, hforce, hopen, hfull⟩ hev
  | pop e hl hq ha hp => rw [ha, hp, hkept, hq, List.append_assoc, List.singleton_append]

/-- A step that evicts loses the oldest payload: the history has one payload more, the queue and
what was popped together have not. -/
theorem loss_of_evicts (hno : NoLoss w) (h : step E w l = some w') (hev : Evicts w l) :
    ¬ NoLoss w' := by
  intro hno'
  obtain ⟨i, op, hl, hf, hforce, hopen, hfull⟩ := hev
  have hbefore := congrArg List.length hno.kept
  have hafter := congrArg List.length hno'.kept
  have hne : w.queued ≠ [] := ChannelState.queued_ne_nil_of_full hfull
  have hpos : 0 < w.queued.length := List.length_pos_iff.mpr hne
  obtain ⟨v, hact, rfl⟩ := step_cases h
  subst hl
  -- the only steps the operation may take here are an acceptance and a refusal
  cases hact with
  | accepted j op' hf' evicted q henq =>
    obtain ⟨-, ⟨-, -, hroom⟩ | ⟨-, -, -, hstate⟩⟩ := enqueue_ok henq
    · exact absurd hfull (by simpa [full] using hroom)
    · have hq : (w.accept i op' evicted q).settle.queued = w.queued.tail ++ [⟨i, op'.payload⟩] := by
        rw [settle_queued]
        show (state q).queued = _
        rw [hstate]
        rfl
      rw [hq] at hafter
      simp only [settle_accepted, settle_popped, accept_accepted, accept_popped,
        List.length_append, List.length_tail, List.length_singleton] at hafter hbefore
      omega
  | refused j op' hf' henq =>
    rw [hf] at hf'
    cases hf'
    rcases enqueue_error henq with hclosed | ⟨htry, -⟩
    · exact absurd hopen (by simpa [closed] using hclosed)
    · rw [hforce] at htry
      cases htry
  | silent tl t hsilent ht => cases hsilent
  | _ => simp_all

/-- **A mailbox loses an accepted payload exactly when a control operation finds it full.** For both
loops, every capacity and every interleaving: each state of the run has popped a prefix of what it
accepted and still holds the rest, and each accepted payload left the queue before it in place, if
and only if no step of the run evicts. -/
theorem no_loss_iff (E : EventLoop σ) (capacity : Option ℕ+) (a : σ) (ls : List (Label σ ρ)) :
    ((∀ u, (machine Q ρ E capacity a).Reaches ls u → NoLoss u)
        ∧ ∀ u l u', (machine Q ρ E capacity a).Takes ls u l u' → u'.accepted ≠ u.accepted →
          u.queued <+: u'.queued)
      ↔ (machine Q ρ E capacity a).AllSteps ls fun u l _ => ¬ Evicts u l := by
  constructor
  -- the payload that a step evicts is missing in the state after it
  · rintro ⟨hall, -⟩ u l u' htakes hev
    have hu := hall u htakes.reaches_source
    have hu' := hall u' htakes.reaches_target
    obtain ⟨pre, -, -, hstep⟩ := htakes
    exact loss_of_evicts hu hstep hev hu'
  -- by induction on the run, and then for each step by its kind
  · intro hsteps
    refine ⟨fun u hu => ?_, fun u l u' htakes hgrew => ?_⟩
    · refine hu.invariant_of_steps (I := NoLoss) (noLoss_init capacity a) ?_ hsteps
      intro s l s' hno hstep hev
      exact noLoss_step hno hstep hev
    · have hev := hsteps u l u' htakes
      obtain ⟨pre, -, -, hstep⟩ := htakes
      cases traffic_of_step hstep with
      | kept hq ha hp => exact absurd ha hgrew
      | accept i op hl hf hopen hfull hq ha hp => exact hq ▸ List.prefix_append _ _
      | evict i op hl hf hforce hopen hfull hq ha hp =>
        exact absurd ⟨i, op, hl, hf, hforce, hopen, hfull⟩ hev
      | pop e hl hq ha hp => exact absurd ha hgrew

/-- A message is sent to an actor with room for one, and then the actor is stopped. -/
def stopFullRun : List (Label ℕ ℕ) :=
  [.begin (Addr.trySend fun n => .completed (n + 1) none), .advance 0, .advance 0,
    .begin Addr.stop, .advance 1, .advance 1]

/-- Both operations return `Ok`, and the message is neither popped nor queued any more. -/
theorem stop_evicts_accepted :
    ∃ w : World ChannelState ℕ ℕ,
      (machine ChannelState ℕ (.fromChannel (.provided 0)) (some 1) 0).Run stopFullRun w
        ∧ w.flights.map Flight.stage = [.returned (.ok none), .returned (.ok none)]
        ∧ w.accepted.map Envelope.client = [0, 1] ∧ w.popped.map Envelope.client = []
        ∧ w.queued.map Envelope.client = [1] ∧ ¬ NoLoss w := by
  refine ⟨_, .of_exec rfl, rfl, rfl, rfl, rfl, fun hno => ?_⟩
  exact absurd (congrArg List.length hno.kept) (by decide)

end World

end Hannibal
