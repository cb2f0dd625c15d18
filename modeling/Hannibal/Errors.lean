import Hannibal.Client

/-!
# Hannibal.Errors — what the errors say about the actor

`AlreadyStopped` and `ChannelClosed` say that the actor has stopped or is stopping, `ActorDropped`
that its strong handles are gone (`error.rs`). Every operation maps whatever its primitive returns
to one of them, and `try_send` has one more reason to fail.

* **`TrueAt`** — what an error says, at one moment.
* **`RefusesFull`** — the step in which a full mailbox is reported as a stopped actor.
* **`errors_truthful_iff`** — without such a step every error is true, and only then.
-/

namespace Hannibal

open Lts Chan
open AsyncChannel (state)

variable {Q : Type → Type} {σ ρ : Type}

/-- The operation has neither returned nor been dropped. -/
def Flight.inProgress (f : Flight σ ρ) : Bool :=
  match f.stage with
  | .returned _ | .abandoned => false
  | _ => true

/-- A flag that is down stays down. -/
theorem LoopTask.stopped_of_step {E : EventLoop σ} {t t' : LoopTask σ ρ} {tl : TaskLabel σ ρ}
    (h : LoopTask.Step E t tl t') (hrun : t.running = false) : t'.running = false := by
  cases h with
  | lower => rfl
  | _ => exact hrun

namespace World

variable [AsyncChannel Q] {E : EventLoop σ} {w w' v : World Q σ ρ} {l : Label σ ρ} {i : ℕ}

/-- What an error says of the actor. -/
def TrueAt (w : World Q σ ρ) : ActorError → Prop
  | .alreadyStopped | .channelClosed => w.task.running = false ∨ w.closed = true
  | .actorDropped => w.hasSender = false ∨ w.closed = true
  | _ => True

/-- It was so at some moment of the run at which operation `i` was in progress. -/
def Truthful (E : EventLoop σ) (capacity : Option ℕ+) (a : σ) (ls : List (Label σ ρ)) (i : ℕ)
    (e : ActorError) : Prop :=
  ∃ m, (machine Q ρ E capacity a).Reaches ls m ∧ (m.flights[i]?).any Flight.inProgress = true
    ∧ m.TrueAt e

/-- A `try_send` into a mailbox that is full, of an actor that runs and is open. -/
def RefusesFull (w : World Q σ ρ) (l : Label σ ρ) : Prop :=
  ∃ i op, l = .advance i ∧ w.flights[i]? = some ⟨op, .enqueuing⟩ ∧ op.primitive = .trySend
    ∧ w.full = true ∧ w.closed = false ∧ w.task.running = true

/-! ## One step

An error is returned in a step that finds its reason in the state: the flag is down, the mailbox is
closed, or the upgrade has failed. Only the refusal of a full mailbox has a reason that its error
does not name. -/

/-- What has returned stays so. -/
theorem returned_stays (h : Act E w l v) {op : Operation σ ρ} {res : Except ActorError (Option ρ)}
    (hf : w.flights[i]? = some ⟨op, .returned res⟩) : v.flights[i]? = some ⟨op, .returned res⟩ := by
  by_contra hmoved
  -- nobody else moves an operation that awaits nothing, and it has no step of its own left
  rcases own_step h hf rfl hmoved with rfl | rfl
  · cases h with
    | silent tl t hl ht => cases hl
    | upgraded _ op' hf' | dropped _ op' hf' | passed _ op' hf' | stopped _ op' hf'
    | answered _ op' r hf' | canceled _ op' hf' | accepted _ op' hf' | refused _ op' hf' =>
      rw [hf] at hf'
      cases hf'
  · cases h with
    | silent tl t hl ht => cases hl
    | abandon _ f hf' habandon =>
      rw [hf] at hf'
      cases hf'
      cases habandon

/-- A refusal for want of space is an error of the two that say the actor has stopped. -/
theorem returned_of_refusesFull (h : w.step E l = some w') (hfull : RefusesFull w l) :
    ∃ (i : ℕ) (op : Operation σ ρ), w'.flights[i]? = some ⟨op, .returned (.error op.rejected)⟩
      ∧ w.closed = false ∧ w.task.running = true := by
  obtain ⟨i, op, rfl, hf, htry, hfull, hopen, hrun⟩ := hfull
  obtain ⟨v, hact, rfl⟩ := step_cases h
  refine ⟨i, op, ?_, hopen, hrun⟩
  rw [settle_flights]
  cases hact with
  | refused _ op' hf' henq =>
    rw [hf] at hf'
    cases hf'
    exact Table.getElem?_modify_self hf
  | accepted _ op' hf' evicted q henq =>
    rw [hf] at hf'
    cases hf'
    obtain ⟨-, ⟨-, -, hroom⟩ | ⟨hforce, -⟩⟩ := enqueue_ok henq
    -- a mailbox that is full and open accepts nothing but a forced payload
    · cases hfull.symm.trans hroom
    · cases htry.symm.trans hforce
  | silent tl t hl ht => cases hl
  | upgraded _ op' hf' | dropped _ op' hf' | passed _ op' hf' | stopped _ op' hf'
  | answered _ op' r hf' | canceled _ op' hf' =>
    rw [hf] at hf'
    cases hf'

/-- **An error that is returned is true at that moment**, unless a full mailbox was refused. -/
theorem trueAt_of_moves (hact : Act E w l v) {f : Flight σ ρ} {op : Operation σ ρ} {e : ActorError}
    (hf : w.flights[i]? = some f) (hg : v.flights[i]? = some ⟨op, .returned (.error e)⟩)
    (hmove : Moves w f ⟨op, .returned (.error e)⟩) (hno : ¬ RefusesFull w l) :
    f.inProgress = true ∧ w.TrueAt e := by
  -- `AlreadyStopped` or `ChannelClosed`: either is true of an actor that takes no more
  have hrejected : ∀ {op : Operation σ ρ}, (w.task.running = false ∨ w.closed = true) →
      w.TrueAt op.rejected := by
    intro op h
    rcases op.rejected_cases with hr | hr <;> rw [hr] <;> exact h
  generalize hend : (⟨op, .returned (.error e)⟩ : Flight σ ρ) = g at hmove
  cases hmove with
  -- these do not return, which `hend` contradicts
  | upgraded op hup => cases hchecks : op.checks <;> simp [Operation.entry, hchecks] at hend
  | accepted op hopen => cases hawaits : op.awaits <;> simp [Operation.afterAccept, hawaits] at hend
  | dropped op hup =>
    cases hend
    refine ⟨rfl, ?_⟩
    -- what cannot be upgraded has no sender left, or a closed mailbox
    have hup : w.closed = false → w.hasSender = false := by simpa [upgradable] using hup
    show w.hasSender = false ∨ w.closed = true
    cases hclosed : w.closed with
    | true => exact .inr rfl
    | false => exact .inl (hup hclosed)
  | stopped op hrun => cases hend; exact ⟨rfl, hrejected (.inl hrun)⟩
  | canceled op => cases hend; exact ⟨rfl, trivial⟩
  | passed | resolved | answered | abandon => cases hend
  | refused op hcause =>
    cases hend
    refine ⟨rfl, hrejected ?_⟩
    rcases hcause with hclosed | ⟨htry, hfull⟩
    · exact .inr hclosed
    · -- it was the operation's own step
      by_contra htruth
      rw [not_or, Bool.not_eq_false, Bool.not_eq_true] at htruth
      -- then a full mailbox was refused, which `hno` excludes
      have hmoved : v.flights[i]? ≠ some ⟨op, .enqueuing⟩ := by simp [hg]
      rcases own_step hact hf rfl hmoved with rfl | rfl
      · exact hno ⟨i, op, rfl, hf, htry, hfull, htruth.2, htruth.1⟩
      · cases hact with
        | silent tl t hl ht => cases hl
        | abandon _ f' hf' habandon =>
          rw [World.setStage, Table.getElem?_modify_self hf] at hg
          cases hg

/-! ## Every run

Between the moment an operation returns and the end of the run nothing changes what it returned, and
a flag that is down or a mailbox that is closed stays so. Both directions rest on this. -/

theorem Truthful.mono {capacity : Option ℕ+} {a : σ} {pre ls : List (Label σ ρ)} {e : ActorError}
    (h : Truthful (Q := Q) E capacity a pre i e) (hle : pre <+: ls) :
    Truthful (Q := Q) E capacity a ls i e := by
  obtain ⟨m, hm, hin, htrue⟩ := h
  exact ⟨m, hm.mono hle, hin, htrue⟩

/-- If no full mailbox is refused, what has been returned at the end of a run was true. -/
theorem truthful_of_run {capacity : Option ℕ+} {a : σ} {ls : List (Label σ ρ)}
    (hsteps : (machine Q ρ E capacity a).AllSteps ls fun u l _ => ¬ RefusesFull u l)
    (hv : (machine Q ρ E capacity a).Run ls v) :
    ∀ (i : ℕ) (op : Operation σ ρ) (e : ActorError),
      v.flights[i]? = some ⟨op, .returned (.error e)⟩ → Truthful (Q := Q) E capacity a ls i e := by
  -- over the run: an operation that has returned did so in the last step or before it
  induction hv with
  | start =>
    intro i op e hf
    simp [machine, init] at hf
  | @snoc ls s l s' run hstep ih =>
    intro i op e hf
    have hle : ls <+: ls ++ [l] := List.prefix_append _ _
    obtain ⟨x, hact, rfl⟩ := step_cases hstep
    rw [settle_flights] at hf
    rcases flight_of_act hact hf with hsame | ⟨f, hold, hmove⟩ | ⟨op', -, hnew⟩
    · exact (ih (hsteps.of_le hle) i op e hsame).mono hle
    · have hno := hsteps _ _ _ ⟨ls, List.prefix_rfl, run, hstep⟩
      obtain ⟨hin, htrue⟩ := trueAt_of_moves hact hold hf hmove hno
      exact ⟨s, run.reaches.mono hle, by simpa [hold] using hin, htrue⟩
    · rcases op' with ⟨via, checks, rejected, primitive, payload, awaits⟩
      cases via <;> cases checks <;> cases hnew

/-- What the actor was asked about only gets worse, and what has returned stays so. -/
def Later (w v : World Q σ ρ) : Prop :=
  (w.task.running = false → v.task.running = false) ∧ (w.closed = true → v.closed = true)
    ∧ ∀ (i : ℕ) (op : Operation σ ρ) (res : Except ActorError (Option ρ)),
      w.flights[i]? = some ⟨op, .returned res⟩ → v.flights[i]? = some ⟨op, .returned res⟩

theorem later_step (h : w.step E l = some w') : Later w w' := by
  obtain ⟨v, hact, rfl⟩ := step_cases h
  refine ⟨fun hrun => ?_, fun hclosed => ?_, fun i op res hf => ?_⟩
  · rw [settle_task]
    rcases task_of_act hact with hsame | ⟨tl, ht⟩
    · rw [hsame]
      exact hrun
    · exact LoopTask.stopped_of_step ht hrun
  · rw [settle_closed, closed_of_act hact hclosed, Bool.true_or]
  · rw [settle_flights]
    exact returned_stays hact hf

theorem later_of_run {capacity : Option ℕ+} {a : σ} {pre ls : List (Label σ ρ)} (hle : pre <+: ls)
    (hw : (machine Q ρ E capacity a).Run pre w) (hv : (machine Q ρ E capacity a).Run ls v) :
    Later w v := by
  refine Machine.Run.related (r := Later) (fun u => ⟨id, id, fun _ _ _ => id⟩) ?_
    (fun u l v hstep => later_step (E := E) hstep) hle hw hv
  rintro u v x ⟨hrun, hclosed, hret⟩ ⟨hrun', hclosed', hret'⟩
  exact ⟨hrun' ∘ hrun, hclosed' ∘ hclosed, fun i op res hf => hret' i op res (hret i op res hf)⟩

/-- A refusal for want of space was never true. -/
theorem not_truthful_of_refusesFull {capacity : Option ℕ+} {a : σ} {ls : List (Label σ ρ)}
    (htakes : (machine Q ρ E capacity a).Takes ls w l w') (hfull : RefusesFull w l) :
    ∃ (i : ℕ) (op : Operation σ ρ), w'.flights[i]? = some ⟨op, .returned (.error op.rejected)⟩
      ∧ ¬ Truthful (Q := Q) E capacity a ls i op.rejected := by
  obtain ⟨pre, hpre, hw, hstep⟩ := htakes
  obtain ⟨i, op, hret, hopen, hrun⟩ := returned_of_refusesFull hstep hfull
  refine ⟨i, op, hret, ?_⟩
  rintro ⟨m, ⟨mid, hmid, hm⟩, hin, htrue⟩
  have htrue : m.task.running = false ∨ m.closed = true := by
    rcases op.rejected_cases with hr | hr <;> rwa [hr] at htrue
  -- a moment of the operation lies before its return
  rcases List.prefix_or_prefix_of_prefix hmid hpre with hbefore | hafter
  · rcases List.prefix_concat_iff.mp hbefore with rfl | hbefore
    · rw [hm.unique (hw.snoc hstep)] at hin
      simp [hret, Flight.inProgress] at hin
    -- the flag would have been down, or the mailbox closed, from that moment to the refusal
    · obtain ⟨hrun', hclosed', -⟩ := later_of_run hbefore hm hw
      rcases htrue with hstopped | hclosed
      · cases hrun.symm.trans (hrun' hstopped)
      · cases hopen.symm.trans (hclosed' hclosed)
  · obtain ⟨-, -, hret'⟩ := later_of_run hafter (hw.snoc hstep) hm
    simp [hret' i op _ hret, Flight.inProgress] at hin

/-- **Errors tell the truth about the actor, unless a full mailbox is refused.** For every actor,
every mailbox and every interleaving: each error an operation returns in the run was true at some
moment of the operation, if and only if no step of the run is a `try_send` into the full, open
mailbox of a running actor. -/
theorem errors_truthful_iff (E : EventLoop σ) (capacity : Option ℕ+) (a : σ)
    (ls : List (Label σ ρ)) :
    (∀ (v : World Q σ ρ) (i : ℕ) (op : Operation σ ρ) (e : ActorError),
        (machine Q ρ E capacity a).Reaches ls v →
        v.flights[i]? = some ⟨op, .returned (.error e)⟩ → Truthful (Q := Q) E capacity a ls i e)
      ↔ (machine Q ρ E capacity a).AllSteps ls fun u l _ => ¬ RefusesFull u l := by
  constructor
  · intro htruth u l u' htakes hfull
    obtain ⟨i, op, hret, hfalse⟩ := not_truthful_of_refusesFull htakes hfull
    exact hfalse (htruth u' i op op.rejected htakes.reaches_target hret)
  · rintro hsteps v i op e ⟨pre, hpre, hv⟩ hf
    exact (truthful_of_run (hsteps.of_le hpre) hv i op e hf).mono hpre

/-- A message fills the mailbox of an actor that has not been polled; then somebody calls it. -/
def callFullRun : List (Label ℕ ℕ) :=
  [.begin (Addr.trySend fun n => .completed (n + 1) none), .advance 0, .advance 0,
    .begin (Addr.call fun n => .completed n (some n)), .advance 1, .advance 1]

/-- The call returns `AlreadyStopped`; the actor runs, and its mailbox is open. -/
theorem call_full_alreadyStopped :
    ∃ v : World ChannelState ℕ ℕ,
      (machine ChannelState ℕ (.fromChannel (.provided 0)) (some 1) 0).Run callFullRun v
        ∧ v.flights.map Flight.stage = [.returned (.ok none), .returned (.error .alreadyStopped)]
        ∧ v.task.running = true ∧ v.closed = false
        ∧ ¬ Truthful (Q := ChannelState) (.fromChannel (.provided 0)) (some 1) 0 callFullRun 1
            .alreadyStopped := by
  refine ⟨_, .of_exec rfl, rfl, rfl, rfl, ?_⟩
  rintro ⟨m, ⟨pre, hpre, hm⟩, -, htrue⟩
  obtain ⟨hrun, hclosed, -⟩ := later_of_run hpre hm (.of_exec (s := _) rfl)
  rcases htrue with hstopped | hclosed'
  · cases hrun hstopped
  · cases hclosed hclosed'

end World

end Hannibal
