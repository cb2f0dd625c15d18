import Hannibal.Expiry

/-!
# Hannibal.Cadence — the rhythm of an interval

Between two ticks `Context::interval` and `Context::interval_with` (`context.rs`) sleep for the
duration they were given, and a tick may wait for space in the mailbox before that. So the ticks
drift, by at most the limit of `Hannibal.Expiry` each, and two messages of one interval are never
accepted in quick succession, however long the first of them has waited.

* **`IntervalWorld.Turn`** — how the stage of the task changes in a step.
* **`TimedInterval.Standing`** — when the next message is due, wherever the task stands.
* **`cadence`** — when the `n`-th message is generated, in every run.
-/

namespace Hannibal

open Lts Chan

variable {Q : Type → Type} [AsyncChannel Q] {σ ρ : Type}

namespace IntervalWorld

/-- The message of tick `i` has been generated. -/
def Generated (w : IntervalWorld Q σ ρ) (i : ℕ) : Prop := i ∈ w.generated.map Envelope.client

/-- How the stage of the task changes in a step. -/
inductive Turn (w : IntervalWorld Q σ ρ) (l : IntervalLabel σ ρ)
    (v : IntervalWorld Q σ ρ) : Prop where
  | kept (hst : v.stage = w.stage)
  | started (hl : l = .spawn) (hst : w.stage = .unspawned) (hst' : v.stage = .sleeping)
  | woken (i : ℕ) (hl : l = .wake) (hst : w.stage = .sleeping) (hst' : v.stage = .ticking i)
      (hnew : ¬ w.Generated i)
  | moved (i : ℕ) (hst : w.InTick i) (hst' : v.InTick i) (hgen : w.Generated i)
  | rested (i : ℕ) (hst : w.InTick i) (hst' : v.stage = .sleeping) (hgen : w.Generated i)
  | left (hst' : v.stage = .ended ∨ v.stage = .aborted)

variable {E : EventLoop σ} {message : ℕ → TaskFn σ ρ} {w v : IntervalWorld Q σ ρ}
  {l : IntervalLabel σ ρ} {i : ℕ}

/-- A tick that waits for space has its message. -/
theorem Inv.generated_of_waiting (hinv : Inv message w) (hst : w.stage = .waiting i) :
    w.Generated i := by
  obtain ⟨g, -, pre, -, -, hgen⟩ := hinv.at_send (.inr hst) (fun htick => by simp [hst] at htick)
    (fun htick => by simp [hst] at htick)
  simp [Generated, hgen]

/-- A tick has its message before it goes to sleep again. -/
theorem turn_of_act (hinv : Inv message w) (h : Act E message w l v) : Turn w l v := by
  cases h with
  | actor l s hl hs => exact .kept rfl
  | spawn hst hcall => exact .started rfl hst rfl
  -- the tick that begins is the operation that is begun next, so it has generated nothing yet
  | wake s hst hs =>
    refine .woken _ rfl hst rfl fun hgen => ?_
    obtain ⟨e, he, hlen⟩ := List.mem_map.mp hgen
    exact absurd hlen (hinv.lt (hinv.known e he)).ne
  | generate i op s hst hf hup hs => exact .kept rfl
  | dropped i op s hst hf hup hs => exact .kept rfl
  | send i s hst hup hs =>
    rcases hst with hst | hst
    · exact .kept hst.symm
    · exact .moved i (.inr hst) (.inl rfl) (hinv.generated_of_waiting hst)
  | block i f hst hf hup hret hs =>
    obtain ⟨g, -, pre, -, -, hgen⟩ := hinv.at_send (.inl hst)
      (fun _ op hupg => hup (by rw [Option.some.inj (hf.symm.trans hupg)]))
      (fun _ op res hres => hret res (by rw [Option.some.inj (hf.symm.trans hres)]))
    exact .moved i (.inl hst) (.inr rfl) (by simp [Generated, hgen])
  | sent i op r hst hf =>
    obtain ⟨g, st, hstands, hok⟩ := hinv.ticks i (hinv.latest i (.inl hst)).1
    obtain ⟨-, rfl⟩ : op = WeakSender.upgradeAndSend g ∧ .returned (.ok r) = st := by
      simpa [hf] using hstands
    cases hok with
    | past g st hover =>
      cases hover with
      | sent r hgen hst' => exact .rested i (.inl hst) rfl hgen
  | failed i op e hst hf => exact .left (.inl rfl)
  -- the send was dropped at its deadline, but its message had been generated
  | expire i s hst hwait hs => exact .rested i (.inr hst) rfl (hinv.generated_of_waiting hst)
  | abortSleep hst => exact .left (.inr rfl)
  | abortSend i s hst hs => exact .left (.inr rfl)

end IntervalWorld

namespace TimedInterval

open IntervalWorld (Generated InTick Turn)

/-! ## When the next message is due

`Standing` says, for each place the task may be at, when its next message is due, and that the
earlier ones lie a whole duration back. The cases of its step lemma are those places; what is done
is done. -/

/-- Between `s + (n + 1) * d` and `n` times `r` later: when the `n`-th message is generated, of an
interval that was started at time `s`. -/
def OnBeat (s d r : ℚ) (n : ℕ) (g : ℚ) : Prop := s + (n + 1) * d ≤ g ∧ g ≤ s + (n + 1) * d + n * r

/-- A tick that is over at most `r` after its message was generated, and a sleep. -/
theorem OnBeat.next {s d r g now : ℚ} {n : ℕ} (h : OnBeat s d r n g) (hle : g ≤ now)
    (hnow : now ≤ g + r) :
    OnBeat s d r (n + 1) (now + d) := by
  obtain ⟨hlo, hhi⟩ := h
  unfold OnBeat
  push_cast
  constructor <;> linarith

/-- Where the task stands, and when its next message is due. No message has been accepted less than
`d` before that. -/
inductive Standing (s d r : ℚ) (t : TimedInterval Q σ ρ) : Prop where
  | asleep (hst : t.interval.stage = .sleeping) (hdue : OnBeat s d r t.births.length t.due)
      (hnow : t.now ≤ t.due) (hold : ∀ a ∈ t.arrivals, a.2 + d ≤ t.due)
  | awake (i : ℕ) (hst : t.interval.stage = .ticking i) (hnew : ¬ t.interval.Generated i)
      (hnow : OnBeat s d r t.births.length t.now) (hold : ∀ a ∈ t.arrivals, a.2 + d ≤ t.now)
  | busy (i : ℕ) (g : ℚ) (pre : List (ℕ × ℚ)) (hst : t.interval.InTick i)
      (hbirths : t.births = pre ++ [(i, g)]) (hgen : t.interval.Generated i)
      (hold : ∀ a ∈ t.arrivals, a.1 ≠ i → a.2 + d ≤ g)
  | done (hst : t.interval.stage = .ended ∨ t.interval.stage = .aborted)

/-- The invariant of an interval that was started at time `s`. -/
structure CadenceInv (message : ℕ → TaskFn σ ρ) (s d : ℚ) (capacity : Option ℕ+)
    (t : TimedInterval Q σ ρ) : Prop where
  timed : TimedInv message d capacity t
  births : ∀ (n : ℕ) (b : ℕ × ℚ), t.births[n]? = some b → OnBeat s d (limit d capacity) n b.2
  spaced : t.arrivals.Pairwise fun x y => x.2 + d ≤ y.2
  past : (∀ b ∈ t.births, b.2 ≤ t.now) ∧ ∀ a ∈ t.arrivals, a.2 ≤ t.now
  recorded : t.arrivals.map Prod.fst = t.interval.enqueued.map Envelope.client
  standing : Standing s d (limit d capacity) t

variable {E : EventLoop σ} {message : ℕ → TaskFn σ ρ} {s d : ℚ} {capacity : Option ℕ+}
  {t t' : TimedInterval Q σ ρ} {v : IntervalWorld Q σ ρ} {l : IntervalLabel σ ρ} {i : ℕ}

/-- In a step no message is generated, or that of the tick the task is in, now. -/
theorem births_after (hinv : IntervalWorld.Inv message t.interval)
    (h : IntervalWorld.Act E message t.interval l v) :
    (v.generated = t.interval.generated ∧ (t.after d v).births = t.births)
      ∨ ∃ i, t.interval.InTick i ∧ v.stage = t.interval.stage ∧ ¬ t.interval.Generated i
        ∧ v.Generated i ∧ (t.after d v).births = t.births ++ [(i, t.now)] := by
  rcases hinv.generated_of_act h with hsame | ⟨i, p, hin, hst, hnew, hgrown⟩
  · exact .inl ⟨hsame, by simp [after, hsame]⟩
  · exact .inr ⟨i, hin, hst, hnew, by simp [Generated, hgrown], by simp [after, hgrown]⟩

/-- In a step no message is accepted, or that of the tick the task is in, for the first time. -/
theorem arrivals_after (hinv : IntervalWorld.Inv message t.interval)
    (hrec : t.arrivals.map Prod.fst = t.interval.enqueued.map Envelope.client)
    (h : IntervalWorld.Act E message t.interval l v) :
    (v.enqueued = t.interval.enqueued ∧ (t.after d v).arrivals = t.arrivals)
      ∨ ∃ i, t.interval.InTick i ∧ v.Generated i ∧ (∀ a ∈ t.arrivals, a.1 ≠ i)
        ∧ v.enqueued.map Envelope.client = t.interval.enqueued.map Envelope.client ++ [i]
        ∧ (t.after d v).arrivals = t.arrivals ++ [(i, t.now)] := by
  have hinv' := IntervalWorld.inv_step hinv h
  -- what is enqueued is the message of the tick the task is in
  rcases hinv.enqueued_of_act h with hsame | ⟨i, p, hin, hgrown⟩
  · exact .inl ⟨hsame, by simp [after, hsame]⟩
  · refine .inr ⟨i, hin, ?_, ?_, by simp [hgrown], by simp [after, hgrown]⟩
    · have hmem : (⟨i, p⟩ : Envelope σ ρ) ∈ v.enqueued := by simp [hgrown]
      rw [hinv'.enqueued] at hmem
      exact List.mem_map_of_mem (List.mem_filter.mp hmem).1
    · -- an operation is accepted once
      have honce : (v.enqueued.map Envelope.client).Nodup :=
        hinv'.actor.requests.ok.distinct.sublist (List.filter_sublist.map _)
      rintro a ha rfl
      have hmem : a.1 ∈ t.interval.enqueued.map Envelope.client := hrec ▸ List.mem_map_of_mem ha
      rw [hgrown, List.map_append, List.nodup_append] at honce
      exact honce.2.2 _ hmem _ (by simp) rfl

omit [AsyncChannel Q] in
theorem not_inTick (h : t.interval.stage = .sleeping ∨ t.interval.stage = .ended
    ∨ t.interval.stage = .aborted) : ¬ t.interval.InTick i := by
  rintro (hin | hin) <;> rcases h with h | h | h <;> simp [h] at hin

omit [AsyncChannel Q] in
/-- A tick that has no message yet is on the beat. -/
theorem Standing.onBeat {r : ℚ} (h : Standing s d r t) (hin : t.interval.InTick i)
    (hnew : ¬ t.interval.Generated i) : OnBeat s d r t.births.length t.now := by
  cases h with
  | asleep hst => exact absurd hin (not_inTick (.inl hst))
  | awake j hst hnew' hnow hold => exact hnow
  | busy j g pre hst hbirths hgen =>
    rw [hin.unique hst] at hgen
    exact absurd hgen hnew
  | done hst => exact absurd hin (not_inTick (.inr hst))

omit [AsyncChannel Q] in
/-- The messages accepted before the tick the task is in were accepted `d` ago. -/
theorem Standing.clear {r : ℚ} (h : Standing s d r t) (hin : t.interval.InTick i)
    (hpast : ∀ b ∈ t.births, b.2 ≤ t.now) (hothers : ∀ a ∈ t.arrivals, a.1 ≠ i) :
    ∀ a ∈ t.arrivals, a.2 + d ≤ t.now := by
  intro a ha
  cases h with
  | asleep hst => exact absurd hin (not_inTick (.inl hst))
  | awake j hst hnew hnow hold => exact hold a ha
  | busy j g pre hst hbirths hgen hold =>
    obtain rfl := hin.unique hst
    exact (hold a ha (hothers a ha)).trans (hpast (j, g) (by simp [hbirths]))
  | done hst => exact absurd hin (not_inTick (.inr hst))

/-- What has been generated or accepted lies in the past. -/
theorem CadenceInv.past_after (hinv : CadenceInv message s d capacity t)
    (h : IntervalWorld.Act E message t.interval l v) :
    (∀ b ∈ (t.after d v).births, b.2 ≤ t.now) ∧ ∀ a ∈ (t.after d v).arrivals, a.2 ≤ t.now := by
  constructor
  · rcases births_after (d := d) hinv.timed.interval h with ⟨-, hsame⟩ | ⟨i, -, -, -, -, hgrown⟩
    · rw [hsame]
      exact hinv.past.1
    · rw [hgrown]
      exact List.forall_mem_append.mpr ⟨hinv.past.1, List.forall_mem_singleton.mpr le_rfl⟩
  · rcases arrivals_after (d := d) hinv.timed.interval hinv.recorded h with
      ⟨-, hsame⟩ | ⟨i, -, -, -, -, hgrown⟩
    · rw [hsame]
      exact hinv.past.2
    · rw [hgrown]
      exact List.forall_mem_append.mpr ⟨hinv.past.2, List.forall_mem_singleton.mpr le_rfl⟩

/-- Outside of a tick nothing is generated or accepted. -/
theorem after_outside (hinv : IntervalWorld.Inv message t.interval)
    (hrec : t.arrivals.map Prod.fst = t.interval.enqueued.map Envelope.client)
    (hout : ∀ i, ¬ t.interval.InTick i) (h : IntervalWorld.Act E message t.interval l v) :
    v.generated = t.interval.generated ∧ (t.after d v).births = t.births
      ∧ (t.after d v).arrivals = t.arrivals := by
  obtain ⟨hgen, hbirths⟩ :=
    (births_after (d := d) hinv h).resolve_right fun ⟨i, hin, _⟩ => hout i hin
  obtain ⟨-, harrivals⟩ :=
    (arrivals_after (d := d) hinv hrec h).resolve_right fun ⟨i, hin, _⟩ => hout i hin
  exact ⟨hgen, hbirths, harrivals⟩

/-- The task sleeps on, wakes up, or is aborted. -/
theorem standing_of_asleep (hinv : CadenceInv message s d capacity t)
    (hst : t.interval.stage = .sleeping)
    (hdue : OnBeat s d (limit d capacity) t.births.length t.due) (hnow : t.now ≤ t.due)
    (hold : ∀ a ∈ t.arrivals, a.2 + d ≤ t.due) (htimely : t.timely l = true)
    (h : IntervalWorld.Act E message t.interval l v) :
    Standing s d (limit d capacity) (t.after d v) := by
  obtain ⟨hgen, hbirths, harrivals⟩ :=
    after_outside hinv.timed.interval hinv.recorded (fun i => not_inTick (.inl hst)) h
  cases IntervalWorld.turn_of_act hinv.timed.interval h with
  | kept hkept =>
    have hdue' : (t.after d v).due = t.due := by simp [after, timer, hgen, hst]
    refine .asleep (hkept.trans hst) ?_ (hnow.trans_eq hdue'.symm) ?_
    · rw [hbirths, hdue']
      exact hdue
    · rw [harrivals, hdue']
      exact hold
  | started hl hst' => simp [hst] at hst'
  -- the clock is idealised: the task wakes up exactly when it is due
  | woken i hl hst' hticking hnew =>
    subst hl
    have hsharp : t.now = t.due := of_decide_eq_true htimely
    refine .awake i hticking ?_ ?_ ?_
    · show ¬ v.Generated i
      rw [Generated, hgen]
      exact hnew
    · rw [hbirths]
      exact hsharp ▸ hdue
    · rw [harrivals]
      exact fun a ha => (hold a ha).trans_eq hsharp.symm
  | moved i hin | rested i hin => exact absurd hin (not_inTick (.inl hst))
  | left hleft => exact .done hleft

/-- The task is polled in a tick that has no message yet. -/
theorem standing_of_awake (hinv : CadenceInv message s d capacity t)
    (hst : t.interval.stage = .ticking i)
    (hnew : ¬ t.interval.Generated i) (hnow : OnBeat s d (limit d capacity) t.births.length t.now)
    (hold : ∀ a ∈ t.arrivals, a.2 + d ≤ t.now) (h : IntervalWorld.Act E message t.interval l v) :
    Standing s d (limit d capacity) (t.after d v) := by
  have hin : t.interval.InTick i := .inl hst
  cases IntervalWorld.turn_of_act hinv.timed.interval h with
  | kept hkept =>
    rcases births_after (d := d) hinv.timed.interval h with ⟨hgen, hsame⟩
      | ⟨j, hj, -, -, hgen, hgrown⟩
    · -- the upgrade has failed, or somebody else has moved
      have hnew' : ¬ v.Generated i := by
        rw [Generated, hgen]
        exact hnew
      refine .awake i (hkept.trans hst) hnew' (hsame ▸ hnow) ?_
      rcases arrivals_after (d := d) hinv.timed.interval hinv.recorded h with
        ⟨-, hsame⟩ | ⟨j, hj, hgen', -⟩
      · rw [hsame]
        exact hold
      · rw [hin.unique hj] at hgen'
        exact absurd hgen' hnew'
    · obtain rfl := hin.unique hj
      refine .busy j t.now t.births (.inl (hkept.trans hst)) hgrown hgen fun a ha hne => ?_
      rcases arrivals_after (d := d) hinv.timed.interval hinv.recorded h with
        ⟨-, hsame⟩ | ⟨k, hk, -, -, -, hgrown⟩
      · exact hold a (hsame ▸ ha)
      · rw [hgrown, hin.unique hk] at ha
        rcases List.mem_append.mp ha with ha | ha
        · exact hold a ha
        · exact absurd (congrArg Prod.fst (List.mem_singleton.mp ha)) hne
  | started hl hst' => simp [hst] at hst'
  | woken j hl hst' => simp [hst] at hst'
  | moved j hj hst' hgen | rested j hj hst' hgen =>
    rw [hin.unique hj] at hgen
    exact absurd hgen hnew
  | left hleft => exact .done hleft

/-- The task is polled in a tick that has its message. -/
theorem standing_of_busy (hd : 0 ≤ d) (hinv : CadenceInv message s d capacity t) {g : ℚ}
    {pre : List (ℕ × ℚ)} (hin : t.interval.InTick i) (hbirths : t.births = pre ++ [(i, g)])
    (hgen : t.interval.Generated i) (hold : ∀ a ∈ t.arrivals, a.1 ≠ i → a.2 + d ≤ g)
    (h : IntervalWorld.Act E message t.interval l v) :
    Standing s d (limit d capacity) (t.after d v) := by
  obtain ⟨hsame, hbirths'⟩ :=
    (births_after (d := d) hinv.timed.interval h).resolve_right fun ⟨j, hj, _, hnew, _⟩ =>
      hnew (hin.unique hj ▸ hgen)
  -- as long as the task stays in the tick, the message that was generated remains the last one
  have hstill : v.InTick i → Standing s d (limit d capacity) (t.after d v) := fun hin' => by
    refine .busy i g pre hin' (hbirths'.trans hbirths) ?_ fun a ha hne => ?_
    · show v.Generated i
      rw [Generated, hsame]
      exact hgen
    · rcases arrivals_after (d := d) hinv.timed.interval hinv.recorded h with
        ⟨-, hsame⟩ | ⟨j, hj, -, -, -, hgrown⟩
      · exact hold a (hsame ▸ ha) hne
      · rw [hgrown, hin.unique hj] at ha
        rcases List.mem_append.mp ha with ha | ha
        · exact hold a ha hne
        · exact absurd (congrArg Prod.fst (List.mem_singleton.mp ha)) hne
  have hawake : t.interval.stage ≠ .sleeping := fun hasleep => not_inTick (.inl hasleep) hin
  cases IntervalWorld.turn_of_act hinv.timed.interval h with
  | kept hkept =>
    refine hstill ?_
    rw [InTick, hkept]
    exact hin
  | started hl hst' => rcases hin with hin | hin <;> simp [hst'] at hin
  | woken j hl hst' => exact absurd hst' hawake
  | moved j hj hst' => exact hstill (hin.unique hj ▸ hst')
  -- the timer is set anew from the present time, and the drift adds up to one more limit
  | rested j hj hst' =>
    have hdue : (t.after d v).due = t.now + d := by simp [after, timer, hsame, hst', hawake]
    have hborn : t.births[pre.length]? = some (i, g) := by simp [hbirths]
    have hmem : (i, g) ∈ t.births := List.mem_of_getElem? hborn
    refine .asleep hst' ?_ ?_ fun a ha => ?_
    · have hnext :=
        (hinv.births _ _ hborn).next (hinv.past.1 _ hmem) (hinv.timed.current _ _ hmem hin).1
      rw [hbirths', hdue, hbirths, List.length_append, List.length_singleton]
      exact hnext
    · rw [hdue]
      exact le_add_of_nonneg_right hd
    · rw [hdue]
      exact add_le_add_left ((hinv.past_after h).2 a ha) d
  | left hleft => exact .done hleft

/-- What is over stays over. -/
theorem standing_of_done (hinv : CadenceInv message s d capacity t)
    (hst : t.interval.stage = .ended ∨ t.interval.stage = .aborted)
    (h : IntervalWorld.Act E message t.interval l v) :
    Standing s d (limit d capacity) (t.after d v) := by
  cases IntervalWorld.turn_of_act hinv.timed.interval h with
  | kept hkept =>
    refine .done ?_
    show v.stage = .ended ∨ v.stage = .aborted
    rwa [hkept]
  | started hl hst' => rcases hst with hst | hst <;> simp [hst] at hst'
  | woken j hl hst' => rcases hst with hst | hst <;> simp [hst] at hst'
  | moved j hj | rested j hj => exact absurd hj (not_inTick (.inr hst))
  | left hleft => exact .done hleft

/-! ## Every run

The times at which messages are generated and accepted are lists that only grow. `CadenceInv` puts
bounds on all of their entries; a step extends them by the present time or not at all. -/

theorem recorded_after (hinv : IntervalWorld.Inv message t.interval)
    (hrec : t.arrivals.map Prod.fst = t.interval.enqueued.map Envelope.client)
    (h : IntervalWorld.Act E message t.interval l v) :
    (t.after d v).arrivals.map Prod.fst = v.enqueued.map Envelope.client := by
  rcases arrivals_after (d := d) hinv hrec h with ⟨hsame, hkept⟩ | ⟨i, -, -, -, hclients, hgrown⟩
  · rw [hkept, hsame]
    exact hrec
  · rw [hgrown, hclients, List.map_append, hrec]
    rfl

/-- **The step lemma.** -/
theorem CadenceInv.act (hd : 0 ≤ d) (hinv : CadenceInv message s d capacity t)
    (htimely : t.timely l = true) (h : IntervalWorld.Act E message t.interval l v) :
    CadenceInv message s d capacity (t.after d v) where
  timed := hinv.timed.act h
  births n b hb := by
    rcases births_after (d := d) hinv.timed.interval h with ⟨-, hsame⟩
      | ⟨i, hin, -, hnew, -, hgrown⟩
    · exact hinv.births n b (hsame ▸ hb)
    · rw [hgrown] at hb
      rcases Table.getElem?_snoc.mp hb with hold | ⟨rfl, rfl⟩
      · exact hinv.births n b hold
      · exact hinv.standing.onBeat hin hnew
  spaced := by
    rcases arrivals_after (d := d) hinv.timed.interval hinv.recorded h with
      ⟨-, hsame⟩ | ⟨i, hin, -, hothers, -, hgrown⟩
    · rw [hsame]
      exact hinv.spaced
    · rw [hgrown]
      exact List.pairwise_append.mpr ⟨hinv.spaced, List.pairwise_singleton _ _, fun a ha b hb => by
        obtain rfl := List.mem_singleton.mp hb
        exact hinv.standing.clear hin hinv.past.1 hothers a ha⟩
  past := hinv.past_after h
  recorded := recorded_after hinv.timed.interval hinv.recorded h
  standing := by
    -- one case for each place the task may stand at
    cases hinv.standing with
    | asleep hst hdue hnow hold => exact standing_of_asleep hinv hst hdue hnow hold htimely h
    | awake i hst hnew hnow hold => exact standing_of_awake hinv hst hnew hnow hold h
    | busy i g pre hin hbirths hgen hold => exact standing_of_busy hd hinv hin hbirths hgen hold h
    | done hst => exact standing_of_done hinv hst h

/-- Time passes. -/
theorem CadenceInv.elapse (hinv : CadenceInv message s d capacity t) {δ : ℚ} (hδ : 0 ≤ δ)
    (hpatient : t.patient δ = true) :
    CadenceInv message s d capacity { t with now := t.now + δ } where
  timed := hinv.timed.elapse hpatient
  births := hinv.births
  spaced := hinv.spaced
  past := ⟨fun b hb => (hinv.past.1 b hb).trans (le_add_of_nonneg_right hδ),
    fun a ha => (hinv.past.2 a ha).trans (le_add_of_nonneg_right hδ)⟩
  recorded := hinv.recorded
  standing := by
    cases hinv.standing with
    | asleep hst hdue hnow hold =>
      exact .asleep hst hdue (by simpa [patient, hst] using hpatient) hold
    -- a task that can be polled is polled before time passes
    | awake i hst hnew hnow hold => simp [patient, hst] at hpatient
    | busy i g pre hin hbirths hgen hold => exact .busy i g pre hin hbirths hgen hold
    | done hst => exact .done hst

/-- The times recorded are those of the messages, and before a handler starts the interval there are
none. -/
structure QuietInv (t : TimedInterval Q σ ρ) : Prop where
  born : t.births.map Prod.fst = t.interval.generated.map Envelope.client
  recorded : t.arrivals.map Prod.fst = t.interval.enqueued.map Envelope.client
  quiet : t.interval.stage = .unspawned → t.births = [] ∧ t.arrivals = []

theorem QuietInv.act (hinv : IntervalWorld.Inv message t.interval) (hquiet : QuietInv t)
    (h : IntervalWorld.Act E message t.interval l v) : QuietInv (t.after d v) where
  born := by
    rcases hinv.generated_of_act h with hsame | ⟨i, p, -, -, -, hgrown⟩
    · simpa [after, hsame] using hquiet.born
    · simpa [after, hgrown] using hquiet.born
  recorded := recorded_after hinv hquiet.recorded h
  quiet hst := by
    have hst : v.stage = .unspawned := hst
    have hwas : t.interval.stage = .unspawned := by
      cases IntervalWorld.turn_of_act hinv h with
      | kept hkept => exact hkept ▸ hst
      | started hl hst' hst'' => simp [hst] at hst''
      | woken i hl hst' hst'' => simp [hst] at hst''
      | moved i hin hin' => rcases hin' with hin' | hin' <;> simp [hst] at hin'
      | rested i hin hst' => simp [hst] at hst'
      | left hleft => rcases hleft with hleft | hleft <;> simp [hst] at hleft
    have hout : ∀ i, ¬ t.interval.InTick i := by
      rintro i (hin | hin) <;> simp [hwas] at hin
    obtain ⟨-, hbirths, harrivals⟩ := after_outside (d := d) hinv hquiet.recorded hout h
    rw [hbirths, harrivals]
    exact hquiet.quiet hwas

/-- The interval is started. -/
theorem cadenceInv_spawn (hd : 0 ≤ d) (hinv : TimedInv message d capacity t) (hquiet : QuietInv t)
    (h : IntervalWorld.Act E message t.interval .spawn v) :
    CadenceInv message t.now d capacity (t.after d v) := by
  cases h with
  | spawn hst hcall =>
    have hact : IntervalWorld.Act E message t.interval .spawn
        { t.interval with stage := .sleeping } :=
      .spawn hst hcall
    obtain ⟨hbirths, harrivals⟩ := hquiet.quiet hst
    have hout : ∀ i, ¬ t.interval.InTick i := by
      rintro i (hin | hin) <;> simp [hst] at hin
    obtain ⟨-, hbirths', harrivals'⟩ :=
      after_outside (d := d) hinv.interval hquiet.recorded hout hact
    rw [hbirths] at hbirths'
    rw [harrivals] at harrivals'
    have hdue : (t.after d { t.interval with stage := .sleeping }).due = t.now + d := by
      simp [after, timer, hst]
    exact {
      timed := hinv.act hact
      births := fun n b hb => by simp [hbirths'] at hb
      spaced := by simp [harrivals']
      past := by simp [hbirths', harrivals']
      recorded := recorded_after hinv.interval hquiet.recorded hact
      standing := by
        refine .asleep rfl ?_ ?_ (by simp [harrivals'])
        · rw [hbirths', hdue]
          simp [OnBeat]
        · rw [hdue]
          exact le_add_of_nonneg_right hd }

theorem quietInv_of_run {a : σ} {ls : List (TimedLabel σ ρ)}
    (h : (machine Q E capacity a message d).Run ls t) : QuietInv t := by
  induction h with
  | start => exact ⟨rfl, rfl, fun _ => ⟨rfl, rfl⟩⟩
  | @snoc ls u l u' run hstep ih =>
    cases l with
    | elapse δ =>
      simp only [machine, step] at hstep
      split at hstep
      · cases hstep
        exact ⟨ih.born, ih.recorded, ih.quiet⟩
      · cases hstep
    | act l =>
      simp only [machine, step] at hstep
      split at hstep
      · obtain ⟨v, hv, rfl⟩ := Option.map_eq_some_iff.mp hstep
        exact ih.act (timedInv_of_run run).interval (IntervalWorld.act_cases hv)
      · cases hstep

theorem cadenceInv_of_run (hd : 0 ≤ d) {a : σ}
    {ls : List (TimedLabel σ ρ)} {u u' : TimedInterval Q σ ρ}
    (h : (machine Q E capacity a message d).Run ls t)
    (hspawn : (machine Q E capacity a message d).Takes ls u (.act .spawn) u') :
    CadenceInv message u.now d capacity t := by
  induction h with
  | start =>
    obtain ⟨pre, hpre, -⟩ := hspawn
    simp at hpre
  | @snoc ls w l w' run hstep ih =>
    rcases (run.takes_snoc hstep).mp hspawn with hold | ⟨rfl, rfl, -⟩
    · cases l with
      | elapse δ =>
        simp only [machine, step] at hstep
        split at hstep
        · next hguard =>
          cases hstep
          exact (ih hold).elapse hguard.1 hguard.2
        · cases hstep
      | act l =>
        simp only [machine, step] at hstep
        split at hstep
        · next htimely =>
          obtain ⟨v, hv, rfl⟩ := Option.map_eq_some_iff.mp hstep
          exact (ih hold).act hd htimely (IntervalWorld.act_cases hv)
        · cases hstep
    · simp only [machine, step, timely, if_true] at hstep
      obtain ⟨v, hv, rfl⟩ := Option.map_eq_some_iff.mp hstep
      exact cadenceInv_spawn hd (timedInv_of_run run) (quietInv_of_run run)
        (IntervalWorld.act_cases hv)

/-- While the task goes on, its next message is not overdue. -/
theorem CadenceInv.soon (hd : 0 ≤ d) (hinv : CadenceInv message s d capacity t)
    (hlive : t.interval.stage ≠ .ended ∧ t.interval.stage ≠ .aborted) :
    t.now ≤ s + (t.births.length + 1) * d + t.births.length * limit d capacity := by
  cases hinv.standing with
  | asleep hst hdue hnow => exact hnow.trans hdue.2
  | awake i hst hnew hnow => exact hnow.2
  | busy i g pre hin hbirths hgen =>
    have hborn : t.births[pre.length]? = some (i, g) := by simp [hbirths]
    have hbeat := (hinv.births _ _ hborn).2
    have hwait := (hinv.timed.current i g (List.mem_of_getElem? hborn) hin).1
    rw [hbirths, List.length_append, List.length_singleton]
    push_cast
    linarith
  | done hst => exact absurd hst (not_or.mpr hlive)

/-- **An interval keeps its rhythm.** For both loops, every mailbox, every interleaving with
handlers and other clients, and timers that fire on time, of an interval of duration `d` that was
started at some time: the `n`-th message is generated `n + 1` durations later, plus at most `n`
times the limit for the sends before it (on an unbounded mailbox, exactly then); two messages are
accepted at least `d` apart; and unless the task has ended or was aborted, its next message is never
overdue. -/
theorem cadence (E : EventLoop σ) (capacity : Option ℕ+) (a : σ) (message : ℕ → TaskFn σ ρ)
    (hd : 0 ≤ d) {ls : List (TimedLabel σ ρ)} {u u' : TimedInterval Q σ ρ}
    (h : (machine Q E capacity a message d).Run ls t)
    (hspawn : (machine Q E capacity a message d).Takes ls u (.act .spawn) u') :
    (t.births.map Prod.fst = t.interval.generated.map Envelope.client
        ∧ ∀ (n : ℕ) (b : ℕ × ℚ), t.births[n]? = some b → OnBeat u.now d (limit d capacity) n b.2)
      ∧ (t.arrivals.map Prod.fst = t.interval.enqueued.map Envelope.client
        ∧ t.arrivals.Pairwise fun x y => x.2 + d ≤ y.2)
      ∧ (t.interval.stage ≠ .ended ∧ t.interval.stage ≠ .aborted →
        t.now ≤ u.now + (t.births.length + 1) * d + t.births.length * limit d capacity) := by
  have hinv := cadenceInv_of_run hd h hspawn
  have hquiet := quietInv_of_run h
  exact ⟨⟨hquiet.born, hinv.births⟩, ⟨hquiet.recorded, hinv.spaced⟩, hinv.soon hd⟩

/-- An interval of 100 ms on an actor with an unbounded mailbox. -/
def metronome : Machine (TimedInterval ChannelState ℕ ℕ) (TimedLabel ℕ ℕ) :=
  machine ChannelState (.fromChannel (.provided 0)) none 0 (fun _ => note) (fromMillis 100)

def metronomeStart : List (TimedLabel ℕ ℕ) :=
  [.elapse (fromMillis 30), .act (.actor .poll)]

/-- `started` starts it after 30 ms, and it ticks twice. -/
def metronomeRun : List (TimedLabel ℕ ℕ) :=
  metronomeStart ++ [.act .spawn, .elapse (fromMillis 100), .act .wake, .act .poll, .act .poll,
    .act .poll, .act .poll, .elapse (fromMillis 100), .act .wake, .act .poll]

theorem metronomeStart_exec : (metronome.exec metronomeStart).isSome = true := by decide +kernel

theorem metronomeRun_exec : (metronome.exec metronomeRun).isSome = true := by decide +kernel

theorem cadence_metronome :
    (metronome.after metronomeRun metronomeRun_exec).births = [(0, 13 / 100), (1, 23 / 100)]
      ∧ OnBeat (fromMillis 30) (fromMillis 100) 0 1 (23 / 100) := by
  have hbirths : (metronome.after metronomeRun metronomeRun_exec).births
      = [(0, 13 / 100), (1, 23 / 100)] := by decide +kernel
  have hspawn : (metronome.exec (metronomeStart ++ [.act .spawn])).isSome = true :=
    by decide +kernel
  have hnow : (metronome.after metronomeStart metronomeStart_exec).now = fromMillis 30 :=
    by decide +kernel
  obtain ⟨u, hu, hstep⟩ := (metronome.run_after _ hspawn).snoc_inv
  obtain rfl := hu.unique (metronome.run_after metronomeStart metronomeStart_exec)
  have hbeat := (cadence _ none 0 _ (by norm_num [fromMillis]) (metronome.run_after metronomeRun _)
    ⟨metronomeStart, ⟨_, rfl⟩, hu, hstep⟩).1.2 1 (1, 23 / 100) (by rw [hbirths]; rfl)
  rw [hnow] at hbeat
  exact ⟨hbirths, hbeat⟩

end TimedInterval

end Hannibal
