import Hannibal.Requests

/-!
# Hannibal.Eviction — what a full mailbox loses

`force_send` into a full mailbox drops the oldest payload for the new one. Here is what becomes of
everything a mailbox of any capacity has accepted, in runs with and without such steps.

* **`Drops`** — a step that evicts, and the payload it drops.
* **`HistoryInv`** — the mailbox keeps the order and its bound, and the loop runs only what it has
  popped; `historyInv_step` is its step lemma.
* **`missing_of_step`** — a step loses exactly what it drops.
* **`evictions`** — what is lost is what some step has dropped; it is never run, and who awaits it
  is told so. -/

namespace Hannibal

open Lts Chan
open AsyncChannel (state)

variable {Q : Type → Type} [AsyncChannel Q] {σ ρ : Type}

namespace World

/-- The step evicts, and what it evicts is the payload of operation `k`. -/
def Drops (w : World Q σ ρ) (l : Label σ ρ) (k : ℕ) : Prop :=
  Evicts w l ∧ (w.queued.head?).map Envelope.client = some k

/-- The mailbox has accepted the payload of operation `k`, and it is neither popped nor queued. -/
def Missing (w : World Q σ ρ) (k : ℕ) : Prop :=
  k ∈ w.accepted.map Envelope.client ∧ k ∉ (w.popped ++ w.queued).map Envelope.client

/-- What was popped and what is queued stand in the order in which they were accepted, the queue
keeps to its capacity, and the loop runs only what it has popped. -/
structure HistoryInv (w : World Q σ ρ) : Prop where
  ordered : (w.popped ++ w.queued).Sublist w.accepted
  bound : ∀ n : ℕ+, (state w.mailbox).capacity = some n → w.queued.length ≤ n
  running : ∀ k, w.task.loop.pc.client = some k → k ∈ w.popped.map Envelope.client
  completed : ∀ k r, (k, r) ∈ w.completed → k ∈ w.popped.map Envelope.client

theorem historyInv_init (capacity : Option ℕ+) (a : σ) : HistoryInv (init Q ρ capacity a) where
  ordered := by simp [init, queued, ChannelState.fresh]
  bound n hn := by simp [init, queued, ChannelState.fresh]
  running k hk := by cases hk
  completed k r h := by cases h

variable {E : EventLoop σ} {w v w' : World Q σ ρ} {l : Label σ ρ}

/-- The order of what was accepted. -/
theorem HistoryInv.ordered_step (hinv : HistoryInv w) (h : step E w l = some w') :
    (w'.popped ++ w'.queued).Sublist w'.accepted := by
  have hord := hinv.ordered
  cases traffic_of_step h with
  | kept hq ha hp => rwa [hq, ha, hp]
  | accept i op hl hf hopen hfull hq ha hp =>
    rw [hq, ha, hp, ← List.append_assoc]
    exact hord.append (List.Sublist.refl _)
  | evict i op hl hf hforce hopen hfull hq ha hp =>
    rw [hq, ha, hp, ← List.append_assoc]
    refine List.Sublist.append ?_ (List.Sublist.refl _)
    exact ((List.Sublist.refl _).append (List.tail_sublist _)).trans hord
  | pop e hl hq ha hp => rwa [ha, hp, List.append_assoc, List.singleton_append, ← hq]

/-- A full mailbox drops one payload for each it accepts. -/
theorem HistoryInv.bound_step (hinv : HistoryInv w) (h : step E w l = some w') (n : ℕ+)
    (hn : (state w'.mailbox).capacity = some n) : w'.queued.length ≤ n := by
  have hcap : (state w.mailbox).capacity = some n := by
    obtain ⟨v, hact, rfl⟩ := step_cases h
    rw [← capacity_of_act hact, ← settle_capacity]
    exact hn
  have hbound := hinv.bound n hcap
  -- only an acceptance lets the queue grow, and it finds room or makes room
  cases traffic_of_step h with
  | kept hq ha hp => rwa [hq]
  | accept i op hl hf hopen hfull hq ha hp =>
    rw [hq, List.length_append, List.length_singleton]
    simp only [full, ChannelState.full, hcap, decide_eq_false_iff_not, not_le] at hfull
    exact hfull
  | evict i op hl hf hforce hopen hfull hq ha hp =>
    have hne : w.queued ≠ [] := ChannelState.queued_ne_nil_of_full hfull
    have hpos := List.length_pos_iff.mpr hne
    rw [hq, List.length_append, List.length_tail, List.length_singleton]
    omega
  | pop e hl hq ha hp =>
    rw [hq, List.length_cons] at hbound
    omega

/-- What is popped stays popped. -/
theorem popped_of_step (h : step E w l = some w') : w.popped <+: w'.popped := by
  cases traffic_of_step h with
  | kept hq ha hp | accept i op hl hf hopen hfull hq ha hp
  | evict i op hl hf hforce hopen hfull hq ha hp => rw [hp]
  | pop e hl hq ha hp => exact hp ▸ List.prefix_append _ _

/-- The loop runs what it has just popped, or what it ran before. -/
theorem HistoryInv.running_step (hinv : HistoryInv w) (h : step E w l = some w') (k : ℕ)
    (hk : w'.task.loop.pc.client = some k) : k ∈ w'.popped.map Envelope.client := by
  obtain ⟨v, hact, rfl⟩ := step_cases h
  rw [settle_task] at hk
  rw [settle_popped]
  -- the loop is where it was, was dropped, or has taken something from its source
  rcases loop_of_act hact with ⟨hpopped, hsame | hdropped⟩ | ⟨i, hs, hfeeds⟩
  · rw [hpopped]
    exact hinv.running k (hsame ▸ hk)
  · rw [hdropped] at hk
    cases hk
  · rw [client_of_step hs] at hk
    obtain ⟨j, rfl, hj⟩ := Option.bind_eq_some_iff.mp hk
    cases hfeeds with
    | payload e hqueue hpopped =>
      rcases e with ⟨c, f | _ | _⟩ <;> cases hj
      simp [hpopped]
    | _ => cases hj

/-- What completes was running. -/
theorem HistoryInv.completed_step (hinv : HistoryInv w) (h : step E w l = some w') (k : ℕ)
    (r : Option ρ) (hk : (k, r) ∈ w'.completed) : k ∈ w'.popped.map Envelope.client := by
  have hmono : ∀ {k}, k ∈ w.popped.map Envelope.client → k ∈ w'.popped.map Envelope.client :=
    fun hk => ((popped_of_step h).map Envelope.client).subset hk
  -- what completes in this step was running, and what ran had been popped
  suffices hwas : (k, r) ∈ w.completed ∨ w.task.loop.pc.client = some k by
    rcases hwas with hwas | hwas
    · exact hmono (hinv.completed k r hwas)
    · exact hmono (hinv.running k hwas)
  obtain ⟨v, hact, rfl⟩ := step_cases h
  rw [settle_completed] at hk
  cases hact with
  | poll t ht =>
    rcases completed_answer hk with hold | hreply
    · exact .inl hold
    · obtain ⟨f, -, hpc, -⟩ := ran_of_reply hreply
      exact .inr (by rw [hpc]; rfl)
  | dropFuture t ht =>
    rcases completed_answer hk with hold | hreply
    · exact .inl hold
    · simp at hreply
  | accepted i op hf evicted q henq => exact .inl (by simpa using hk)
  | _ => exact .inl hk

/-- **The step lemma of the history.** -/
theorem historyInv_step (hinv : HistoryInv w) (h : step E w l = some w') : HistoryInv w' where
  ordered := hinv.ordered_step h
  bound := hinv.bound_step h
  running := hinv.running_step h
  completed := hinv.completed_step h

/-! ## What is lost

A payload is missing once it was accepted and is neither queued nor popped. One step makes at most
one payload missing, the one it evicts; over a run the missing ones are therefore those some step
dropped. -/

/-- A step that evicts drops the oldest payload for a new one. -/
theorem queue_of_evicts (h : step E w l = some w') (hev : Evicts w l) :
    ∃ i op e rest, w.flights[i]? = some ⟨op, .enqueuing⟩ ∧ w.queued = e :: rest
      ∧ w'.queued = rest ++ [⟨i, op.payload⟩] ∧ w'.accepted = w.accepted ++ [⟨i, op.payload⟩]
      ∧ w'.popped = w.popped := by
  obtain ⟨i, op, rfl, hf, hforce, hopen, hfull⟩ := hev
  obtain ⟨e, rest, hqueue⟩ := List.exists_cons_of_ne_nil (ChannelState.queued_ne_nil_of_full hfull)
  have hqueue : w.queued = e :: rest := hqueue
  cases traffic_of_step h with
  | kept hq ha hp =>
    -- an open mailbox does not refuse a `force_send`
    obtain ⟨v, hact, rfl⟩ := step_cases h
    cases hact with
    | accepted j op' hf' evicted q henq => simp at ha
    | refused j op' hf' henq =>
      cases hf.symm.trans hf'
      rcases enqueue_error henq with hclosed | ⟨htry, -⟩
      · cases hopen.symm.trans hclosed
      · cases hforce.symm.trans htry
    | silent l tl hl t ht => cases hl
    | upgraded j op' hf' hup | dropped j op' hf' hup | passed j op' hf' hrun
    | stopped j op' hf' hrun | answered j op' r hf' | canceled j op' hf' =>
      cases hf.symm.trans hf'
  | accept j op' hl hf' hopen' hroom hq ha hp => cases hfull.symm.trans hroom
  | evict j op' hl hf' hforce' hopen' hfull' hq ha hp =>
    rw [hqueue] at hq
    exact ⟨j, op', e, rest, hf', hqueue, hq, ha, hp⟩
  | pop e' hl hq ha hp => cases hl

/-- **A step loses what it drops, and nothing else**; and what is lost stays lost. -/
theorem missing_of_step (hreq : RequestInv w) (hinv : HistoryInv w)
    (h : step E w l = some w') (k : ℕ) :
    Missing w' k ↔ Missing w k ∨ Drops w l k := by
  -- what an operation hands over now was not accepted before
  have hnew : ∀ i op, w.flights[i]? = some ⟨op, .enqueuing⟩ →
      i ∉ w.accepted.map Envelope.client := fun i op hf => hreq.ok.flight i _ hf
  -- a step that evicts loses the head of the queue; every other one only moves payloads along
  by_cases hev : Evicts w l
  · obtain ⟨i, op, e, rest, hf, hqueue, hq, ha, hp⟩ := queue_of_evicts h hev
    have hdrops : Drops w l k ↔ k = e.client := by
      simp [Drops, hev, hqueue, eq_comm]
    have hnodup : ((w.popped ++ w.queued).map Envelope.client).Nodup :=
      hreq.ok.distinct.sublist (hinv.ordered.map _)
    have he : e.client ∈ w.accepted.map Envelope.client :=
      (hinv.ordered.map Envelope.client).subset (by simp [hqueue])
    have hie : i ≠ e.client := fun hie => hnew i op hf (hie ▸ he)
    rw [hdrops, Missing, Missing, ha, hp, hq, hqueue]
    rw [hqueue, List.map_append, List.map_cons, List.nodup_append, List.nodup_cons] at hnodup
    obtain ⟨-, ⟨hrest, -⟩, hpopped⟩ := hnodup
    have hpopped : e.client ∉ w.popped.map Envelope.client := fun hmem =>
      hpopped _ hmem _ List.mem_cons_self rfl
    have hi := hnew i op hf
    simp only [List.map_append, List.map_cons, List.map_nil, List.mem_append, List.mem_cons,
      List.not_mem_nil, or_false, not_or]
    constructor
    · rintro ⟨hk | rfl, hkp, hkr, hki⟩
      · by_cases hke : k = e.client
        · exact .inr hke
        · exact .inl ⟨hk, hkp, hke, hkr⟩
      · exact absurd rfl hki
    · rintro (⟨hk, hkp, -, hkr⟩ | rfl)
      · exact ⟨.inl hk, hkp, hkr, fun hki => hi (hki ▸ hk)⟩
      · exact ⟨.inl he, hpopped, hrest, hie.symm⟩
  · have hno : ¬ Drops w l k := fun hdrops => hev hdrops.1
    simp only [hno, or_false]
    cases traffic_of_step h with
    | kept hq ha hp => rw [Missing, Missing, ha, hp, hq]
    | accept i op hl hf hopen hfull hq ha hp =>
      rw [Missing, Missing, ha, hp, hq, ← List.append_assoc, @List.map_append _ _ _ _ [_],
        @List.map_append _ _ _ _ [_]]
      have hi := hnew i op hf
      simp only [List.map_cons, List.map_nil, List.mem_append, List.mem_singleton, not_or]
      constructor
      · rintro ⟨hk | rfl, hkq, hki⟩
        · exact ⟨hk, hkq⟩
        · exact absurd rfl hki
      · rintro ⟨hk, hkq⟩
        exact ⟨.inl hk, hkq, fun hki => hi (hki ▸ hk)⟩
    | evict i op hl hf hforce hopen hfull hq ha hp =>
      exact absurd ⟨i, op, hl, hf, hforce, hopen, hfull⟩ hev
    | pop e hl hq ha hp =>
      rw [Missing, Missing, ha, hp, hq, List.append_assoc, List.singleton_append]

/-- Who awaits a response to a payload that is lost is told that there will be none. -/
theorem told_of_missing (hreq : RequestInv w) (hinv : HistoryInv w) {k : ℕ}
    (hmissing : Missing w k) :
    w.task.loop.pc.client ≠ some k ∧ k ∉ w.completed.map Prod.fst
      ∧ ∀ f, w.flights[k]? = some f → f.op.awaits = true → f.stage = .waiting .canceled
        ∨ f.stage = .returned (.error .canceled) ∨ f.stage = .abandoned := by
  obtain ⟨hacc, hgone⟩ := hmissing
  have hpopped : k ∉ w.popped.map Envelope.client := fun hk => hgone (by simp [hk])
  have hqueued : k ∉ w.queued.map Envelope.client := fun hk => hgone (by simp [hk])
  have hrun : w.task.loop.pc.client ≠ some k := fun hk => hpopped (hinv.running k hk)
  have hdone : k ∉ w.completed.map Prod.fst := by
    intro hk
    obtain ⟨⟨j, r⟩, hmem, rfl⟩ := List.mem_map.mp hk
    exact hpopped (hinv.completed j r hmem)
  refine ⟨hrun, hdone, fun f hf hawaits => ?_⟩
  -- its ledger entry says that the sender of the response is gone
  have hlive : k ∉ w.ledger.live := by
    show k ∉ w.task.loop.pc.client.toList ++ w.queued.map Envelope.client
    simp [hrun, hqueued]
  have hok := hreq.ok.flight k f hf
  have hrecord : ∀ r, (k, r) ∉ w.completed := fun r hr => hdone (List.mem_map_of_mem hr)
  -- by the stage of its operation: what still waits or has a response would not be missing
  unfold Ledger.FlightOk at hok
  split at hok
  · exact absurd hacc hok
  · exact absurd hacc hok
  · exact absurd hacc hok
  · exact absurd hok.2 hlive
  · exact absurd hok (hrecord _)
  · next hst => exact .inl hst
  · exact absurd (hok hawaits) (hrecord _)
  · next e hst =>
    rcases hok.2.2 with rfl | hentered
    · exact .inr (.inl hst)
    · exact absurd hacc hentered
  · next hst => exact .inr (.inr hst)

theorem historyInv_of_run {capacity : Option ℕ+} {a : σ} {ls : List (Label σ ρ)}
    (h : (machine Q ρ E capacity a).Run ls w) : RequestInv w ∧ HistoryInv w :=
  h.invariant (I := fun w => RequestInv w ∧ HistoryInv w)
    ⟨requestInv_init capacity a, historyInv_init capacity a⟩
    fun _ _ _ hinv hstep => ⟨requestInv_step hinv.1 hstep, historyInv_step hinv.2 hstep⟩

/-- **What a mailbox loses.** For both loops, every capacity and every interleaving: a bounded
mailbox never holds more than its capacity, what comes out of it keeps the order of acceptance, and
an accepted payload is missing exactly when some step of the run has dropped it as the oldest of a
full mailbox. What is missing is not run, and an operation that awaited its response is canceled. -/
theorem evictions (E : EventLoop σ) (capacity : Option ℕ+) (a : σ) {ls : List (Label σ ρ)}
    (h : (machine Q ρ E capacity a).Run ls w) :
    (∀ n : ℕ+, capacity = some n → w.queued.length ≤ n)
      ∧ (w.popped ++ w.queued).Sublist w.accepted
      ∧ (∀ k, Missing w k ↔ ∃ u l u', (machine Q ρ E capacity a).Takes ls u l u' ∧ Drops u l k)
      ∧ ∀ k, Missing w k → w.task.loop.pc.client ≠ some k ∧ k ∉ w.completed.map Prod.fst
        ∧ ∀ f, w.flights[k]? = some f → f.op.awaits = true → f.stage = .waiting .canceled
          ∨ f.stage = .returned (.error .canceled) ∨ f.stage = .abandoned := by
  obtain ⟨hreq, hinv⟩ := historyInv_of_run h
  have hcap : (state w.mailbox).capacity = capacity := by
    refine h.invariant (I := fun u => (state u.mailbox).capacity = capacity) ?_ ?_
    · simp [machine, init, ChannelState.fresh]
    · intro s l s' hs hstep
      obtain ⟨v, hact, rfl⟩ := step_cases hstep
      rw [settle_capacity, capacity_of_act hact, hs]
  refine ⟨fun n hn => hinv.bound n (hcap.trans hn), hinv.ordered, fun k => ?_,
    fun k hmissing => told_of_missing hreq hinv hmissing⟩
  -- from the step lemma: missing at the end means lost in some step
  refine h.iff_takes (I := fun u => RequestInv u ∧ HistoryInv u) (P := fun u => Missing u k)
    ⟨requestInv_init capacity a, historyInv_init capacity a⟩
    (fun _ _ _ hu hstep => ⟨requestInv_step hu.1 hstep, historyInv_step hu.2 hstep⟩) ?_
    fun _ _ _ hu hstep => missing_of_step hu.1 hu.2 hstep k
  rintro ⟨hacc, -⟩
  cases hacc

/-- A call fills the mailbox of an actor with room for one payload, and then the actor is
stopped. -/
def evictedCallRun : List (Label ℕ ℕ) :=
  [.begin (Addr.call fun n => .completed (n + 1) (some n)), .advance 0, .advance 0,
    .begin Addr.stop, .advance 1, .advance 1]

/-- An actor with room for `n` payloads. -/
def narrowActor (n : ℕ+) : Machine (World ChannelState ℕ ℕ) (Label ℕ ℕ) :=
  machine ChannelState ℕ (.fromChannel (.provided 0)) (some n) 0

theorem evictions_call :
    ((narrowActor 1).after evictedCallRun rfl).flights.map Flight.stage
        = [.waiting .canceled, .returned (.ok none)]
      ∧ Missing ((narrowActor 1).after evictedCallRun rfl) 0
      ∧ ((narrowActor 1).after evictedCallRun rfl).queued.length ≤ 1
      ∧ ∃ u l u', (narrowActor 1).Takes evictedCallRun u l u' ∧ Drops u l 0 := by
  have hmissing : Missing ((narrowActor 1).after evictedCallRun rfl) 0 := by
    constructor
    · decide
    · decide
  obtain ⟨hbound, -, hdropped, -⟩ :=
    evictions (.fromChannel (.provided 0)) (some 1) 0 ((narrowActor 1).run_after evictedCallRun rfl)
  exact ⟨rfl, hmissing, hbound 1 rfl, (hdropped 0).mp hmissing⟩

end World

end Hannibal
