import Hannibal.StopNotice
import Hannibal.Stranding

/-!
# Hannibal.FailFast — what an operation finds once the stop has been observed

The flag is lowered before the receiver is dropped, so for a while the channel of a stopped actor
accepts payloads and weak handles upgrade. What keeps an operation that begins then from enqueuing
is the check it begins with.

* **`HandleOperation`** — the operations of the handles; each of them `checks`.
* **`Late`** — what holds from the moment of the observation on.
* **`fail_fast`** — an operation that begins later returns an error and leaves the mailbox as it is,
  and what an earlier one still enqueues is never taken.
* **`answered_late`** — what was enqueued earlier may have been answered all the same.
-/

namespace Hannibal

open Lts Chan
open AsyncChannel (state)

variable {Q : Type → Type} {σ ρ : Type}

/-- The operations of the handles of an actor. `Addr.halt` and `WeakAddr.try_halt` begin with the
`stop` that is listed. -/
inductive HandleOperation : Operation σ ρ → Prop where
  | send (f : TaskFn σ ρ) : HandleOperation (Addr.send f)
  | trySend (f : TaskFn σ ρ) : HandleOperation (Addr.trySend f)
  | call (f : TaskFn σ ρ) : HandleOperation (Addr.call f)
  | ping : HandleOperation Addr.ping
  | stop : HandleOperation Addr.stop
  | restart : HandleOperation Addr.restart
  | senderSend (f : TaskFn σ ρ) : HandleOperation (Sender.send f)
  | senderTrySend (f : TaskFn σ ρ) : HandleOperation (Sender.trySend f)
  | senderForceSend (f : TaskFn σ ρ) : HandleOperation (Sender.forceSend f)
  | callerCall (f : TaskFn σ ρ) : HandleOperation (Caller.call f)
  | upgraded {op : Operation σ ρ} (h : HandleOperation op) : HandleOperation op.upgraded

/-- **Every one of them reads the flag first.** -/
theorem HandleOperation.checks {op : Operation σ ρ} (h : HandleOperation op) :
    op.checks = true := by
  induction h with
  | upgraded h ih => exact ih
  | _ => rfl

/-- `Addr::halt`, and `WeakAddr::try_halt` with the upgraded address: `self.stop()?; self.await`. -/
def Addr.halt (stop : Except ActorError (Option ρ)) (t : LoopTask σ ρ) :
    Option (Except ActorError Unit) :=
  match stop with
  | .error e => some (.error e)
  | .ok _ => t.pollOneshot

/-- A handle sees that the actor has stopped: `stopped()` is true, or an `Addr` that is awaited
resolves. -/
def LoopTask.Observed (t : LoopTask σ ρ) : Prop := t.running = false ∨ t.pollOneshot.isSome = true

theorem LoopTask.Observed.stopped {t : LoopTask σ ρ} (hinv : t.Inv) (h : t.Observed) :
    t.running = false := by
  rcases h with hrun | hready
  · exact hrun
  · obtain ⟨r, hr⟩ := Option.isSome_iff_exists.mp hready
    exact (Watched.pollOneshot_ready hinv hr).2

/-- How many steps an operation that fails the check has left. -/
def Stage.stepsLeft : Stage ρ → ℕ
  | .upgrading => 2
  | .checking => 1
  | _ => 0

namespace World

variable [AsyncChannel Q] {E : EventLoop σ} {u w w' v : World Q σ ρ} {l : Label σ ρ} {i : ℕ}

/-! ## Nothing is taken any more

The flag is lowered at `notify`, behind the last receive of the loop, and a future that was dropped
or has panicked does not receive either. -/

/-- A loop whose flag is down takes nothing and answers nothing. -/
theorem idle_of_act (hinv : w.task.Inv) (hrun : w.task.running = false) (h : Act E w l v) :
    v.popped = w.popped ∧ v.completed = w.completed := by
  have hclient : w.task.loop.pc.client = none := by
    rcases hinv.lowered hrun with hat | hend
    · cases hpc : w.task.loop.pc <;> simp_all [Pc.atNotify, Pc.client]
    · cases hpc : w.task.loop.pc <;> simp_all [Pc.ended, Pc.client]
  -- only the loop pops and answers, and it does neither without a task to run
  cases h with
  | pop e q t hq ht =>
    cases ht with
    | receive inp s' hs =>
      -- the loop would stand at `receiving`
      have hend := EventLoop.not_ended_of_step hs
      have hat := (hinv.lowered hrun).resolve_right (by simp [hend])
      obtain ⟨b, hb⟩ := (LoopTask.returned_ok_iff_atNotify hs).mp hat
      cases hs <;> simp_all [Pc.atNotify]
  | poll t ht =>
    rw [reply_of_no_client hclient]
    exact ⟨rfl, rfl⟩
  | dropFuture t ht =>
    rw [hclient]
    exact ⟨rfl, rfl⟩
  | accepted j op hf evicted q henq => simp
  | _ => exact ⟨rfl, rfl⟩

/-! ## What an operation has put into the mailbox

`Accounted` goes backwards from what an operation has returned to what the mailbox has accepted: the
only way past the enqueueing is an acceptance. -/

/-- What was popped, and what is queued, was accepted; and an operation that awaits its response, or
has returned `Ok`, has put its payload into the mailbox. -/
structure Accounted (w : World Q σ ρ) : Prop where
  popped : ∀ e ∈ w.popped, e ∈ w.accepted
  queued : ∀ e ∈ w.queued, e ∈ w.accepted
  answered : ∀ i op st, w.flights[i]? = some ⟨op, st⟩ →
    ((∃ reply, st = .waiting reply) ∨ ∃ r, st = .returned (.ok r)) → ⟨i, op.payload⟩ ∈ w.accepted

theorem accounted_init (capacity : Option ℕ+) (a : σ) : Accounted (init Q ρ capacity a) where
  popped := by simp [init]
  queued := by simp [init, World.queued, ChannelState.fresh]
  answered i op st h := by simp [init] at h

/-- The history of the mailbox only grows. -/
theorem accepted_of_act (h : Act E w l v) : w.accepted <+: v.accepted := by
  cases traffic_of_act h with
  | kept hq ha hp => rw [ha]
  | accept i op hl hf hopen hfull hq ha hp => exact ha ▸ List.prefix_append _ _
  | evict i op hl hf hforce hopen hfull hq ha hp => exact ha ▸ List.prefix_append _ _
  | pop e hl hq ha hp => rw [ha]

/-- An operation gets behind its enqueueing only by its payload being accepted. -/
theorem accepted_of_enqueuing (h : Act E w l v) {op : Operation σ ρ} {st : Stage ρ}
    (hf : w.flights[i]? = some ⟨op, .enqueuing⟩) (hg : v.flights[i]? = some ⟨op, st⟩)
    (hst : (∃ reply, st = .waiting reply) ∨ ∃ r, st = .returned (.ok r)) :
    ⟨i, op.payload⟩ ∈ v.accepted := by
  have hmoved : v.flights[i]? ≠ some ⟨op, .enqueuing⟩ := by
    intro hsame
    rw [hg, Option.some.injEq, Flight.mk.injEq] at hsame
    rcases hst with ⟨reply, rfl⟩ | ⟨r, rfl⟩ <;> cases hsame.2
  have hstage : ∀ {st' : Stage ρ}, v = w.setStage i st' → st = st' := by
    rintro st' rfl
    have hself : (w.setStage i st').flights[i]? = some ⟨op, st'⟩ := Table.getElem?_modify_self hf
    rw [hg, Option.some.injEq, Flight.mk.injEq] at hself
    exact hself.2
  -- the other ways to leave the stage end in an error, or with the future dropped
  have hended : ∀ {st' : Stage ρ}, v = w.setStage i st' → st' = .abandoned
      ∨ (∃ e, st' = .returned (.error e)) → False := by
    rintro st' hv (rfl | ⟨e, rfl⟩) <;> rw [hstage hv] at hst <;> simp at hst
  rcases own_step h hf rfl hmoved with rfl | rfl
  · cases h with
    | accepted _ op' hf' evicted q henq =>
      rw [hf] at hf'
      cases hf'
      simp
    | refused _ op' hf' henq => exact (hended rfl (.inr ⟨_, rfl⟩)).elim
    | silent tl t hl ht => cases hl
    | upgraded _ op' hf' | dropped _ op' hf' | passed _ op' hf' | stopped _ op' hf'
    | answered _ op' r hf' | canceled _ op' hf' =>
      rw [hf] at hf'
      cases hf'
  · cases h with
    | abandon _ f hf' habandon => exact (hended rfl (.inl rfl)).elim
    | silent tl t hl ht => cases hl

theorem accounted_act (hacc : Accounted w) (h : Act E w l v) : Accounted v where
  popped e he := by
    cases traffic_of_act h with
    | pop e' hl hq ha hp =>
      rw [hp] at he
      rw [ha]
      rcases List.mem_append.mp he with he | he
      · exact hacc.popped e he
      · rw [List.mem_singleton.mp he]
        exact hacc.queued e' (hq ▸ List.mem_cons_self)
    | kept hq ha hp | accept i op hl hf hopen hfull hq ha hp
    | evict i op hl hf hforce hopen hfull hq ha hp =>
      exact (accepted_of_act h).subset (hacc.popped e (hp ▸ he))
  queued e he := by
    cases traffic_of_act h with
    | kept hq ha hp => exact ha ▸ hacc.queued e (hq ▸ he)
    | accept i op hl hf hopen hfull hq ha hp =>
      rw [hq] at he
      rw [ha]
      exact List.mem_append.mpr ((List.mem_append.mp he).imp_left (hacc.queued e))
    | evict i op hl hf hforce hopen hfull hq ha hp =>
      rw [hq] at he
      rw [ha]
      exact List.mem_append.mpr
        ((List.mem_append.mp he).imp_left fun he => hacc.queued e (List.mem_of_mem_tail he))
    | pop e' hl hq ha hp => exact ha ▸ hacc.queued e (hq ▸ List.mem_cons_of_mem e' he)
  -- the payload was accepted in this step if the operation was enqueuing, and before it otherwise
  answered i op st hg hst := by
    have hkept : ∀ {st' : Stage ρ}, w.flights[i]? = some ⟨op, st'⟩ →
        ((∃ reply, st' = .waiting reply) ∨ ∃ r, st' = .returned (.ok r)) →
        ⟨i, op.payload⟩ ∈ v.accepted :=
      fun hf hst' => (accepted_of_act h).subset (hacc.answered i op _ hf hst')
    rcases flight_of_act h hg with hold | ⟨f, hf, hmove⟩ | ⟨op', -, hnew⟩
    · exact hkept hold hst
    · cases hmove with
      | accepted op hopen => exact accepted_of_enqueuing h hf hg hst
      | resolved op reply hreply => exact hkept hf (.inl ⟨_, rfl⟩)
      | answered op r => exact hkept hf (.inl ⟨_, rfl⟩)
      | upgraded op hup =>
        cases hchecks : op.checks <;> simp [Operation.entry, hchecks] at hst
      | _ => simp at hst
    · cases hnew
      rcases op with ⟨via, checks, rejected, primitive, payload, awaits⟩
      cases via <;> cases checks <;> simp [Operation.first, Operation.entry] at hst

theorem accounted_step (hacc : Accounted w) (h : step E w l = some w') : Accounted w' := by
  obtain ⟨v, hact, rfl⟩ := step_cases h
  obtain ⟨hpopped, hqueued, hanswered⟩ := accounted_act hacc hact
  exact ⟨by simpa using hpopped, by simpa using hqueued, by simpa using hanswered⟩

/-! ## After the observation

`Late` compares a state with the one of the observation. Operations that began since then stop at
their check; those from before may still enqueue, but what they enqueue is not taken. -/

/-- What `u` has left to a later state `w`: nothing was taken or called in between, and what has
been begun since and checks the flag has not passed the check. -/
structure Late (u w : World Q σ ρ) : Prop where
  stopped : w.task.running = false
  trace : w.task.loop.trace = u.task.loop.trace
  popped : w.popped = u.popped
  completed : w.completed = u.completed
  ops : u.ops <+: w.ops
  begun : ∀ i op st, u.flights.length ≤ i → w.flights[i]? = some ⟨op, st⟩ → op.checks = true →
    st = .upgrading ∨ st = .checking
      ∨ ∃ e, st = .returned (.error e) ∧ (e = op.rejected ∨ e = .actorDropped)

omit [AsyncChannel Q] in
theorem late_refl (hrun : u.task.running = false) : Late u u where
  stopped := hrun
  trace := rfl
  popped := rfl
  completed := rfl
  ops := List.prefix_rfl
  begun i op st hle hf := by
    rw [List.getElem?_eq_none hle] at hf
    cases hf

/-- **The step lemma.** -/
theorem late_act (hinv : w.task.Inv) (hlate : Late u w) (h : Act E w l v) : Late u v where
  stopped := by
    rcases task_of_act h with hsame | ⟨tl, ht⟩
    · rw [hsame]
      exact hlate.stopped
    · exact (Watched.flag_of_task hinv ht hlate.stopped).1
  trace := by
    rcases task_of_act h with hsame | ⟨tl, ht⟩
    · rw [hsame]
      exact hlate.trace
    · exact (Watched.flag_of_task hinv ht hlate.stopped).2.trans hlate.trace
  popped := (idle_of_act hinv hlate.stopped h).1.trans hlate.popped
  completed := (idle_of_act hinv hlate.stopped h).2.trans hlate.completed
  ops := hlate.ops.trans (ops_of_act h)
  -- an operation that began late is still at its upgrade or its check, or has failed there
  begun i op st hle hg hchecks := by
    rcases flight_of_act h hg with hold | ⟨f, hf, hmove⟩ | ⟨op', -, hnew⟩
    · exact hlate.begun i op st hle hold hchecks
    · have hstage := hlate.begun i f.op f.stage hle hf
      cases hmove with
      | upgraded op hup => exact .inr (.inl (by simp [Operation.entry, hchecks]))
      | dropped op hup => exact .inr (.inr ⟨_, rfl, .inr rfl⟩)
      | passed op hrun =>
        -- the flag is down
        rw [hlate.stopped] at hrun
        cases hrun
      | stopped op hrun => exact .inr (.inr ⟨_, rfl, .inl rfl⟩)
      | abandon f habandon =>
        rcases f with ⟨op, st⟩
        rcases hstage hchecks with h | h | ⟨e, h, -⟩ <;> cases h <;> cases habandon
      | _ => simp [hchecks] at hstage
    · cases hnew
      rcases op with ⟨via, checks, rejected, primitive, payload, awaits⟩
      cases hchecks
      cases via
      · exact .inr (.inl rfl)
      · exact .inl rfl
      · exact .inl rfl

theorem late_step (hinv : w.task.Inv) (hlate : Late u w) (h : step E w l = some w') :
    Late u w' := by
  obtain ⟨v, hact, rfl⟩ := step_cases h
  obtain ⟨hstopped, htrace, hpopped, hcompleted, hops, hbegun⟩ := late_act hinv hlate hact
  exact ⟨by simpa using hstopped, by simpa using htrace, by simpa using hpopped,
    by simpa using hcompleted, by simpa using hops, by simpa using hbegun⟩

/-- Operation `i` fails fast: it is on its way to an error that it cannot be kept from, or has
returned it, and no step of its own changes what the mailbox holds. -/
structure FailsFast (E : EventLoop σ) (w : World Q σ ρ) (i : ℕ) (op : Operation σ ρ) : Prop where
  fails : ∀ res, w.flights[i]? = some ⟨op, .returned res⟩ →
    ∃ e, res = .error e ∧ (e = op.rejected ∨ e = .actorDropped)
  /-- a `halt` that begins with this operation does not get to its await -/
  halts : ∀ res, w.flights[i]? = some ⟨op, .returned res⟩ → ∀ t : LoopTask σ ρ,
    ∃ e, Addr.halt res t = some (.error e)
  returns : ∀ st, w.flights[i]? = some ⟨op, st⟩ → (∃ res, st = .returned res)
    ∨ ∃ w' st', w.step E (.advance i) = some w' ∧ w'.flights[i]? = some ⟨op, st'⟩
      ∧ st'.stepsLeft < st.stepsLeft
  keeps : ∀ w', w.step E (.advance i) = some w' → w'.queued = w.queued ∧ w'.accepted = w.accepted

theorem failsFast_of_late (hlate : Late u w) {op : Operation σ ρ} (hle : u.flights.length ≤ i)
    (hop : w.ops[i]? = some op) (hchecks : op.checks = true) : FailsFast E w i op := by
  have hstage := fun st hf => hlate.begun i op st hle hf hchecks
  have hfails : ∀ res, w.flights[i]? = some ⟨op, .returned res⟩ →
      ∃ e, res = .error e ∧ (e = op.rejected ∨ e = .actorDropped) := by
    intro res hf
    rcases hstage _ hf with h | h | ⟨e, h, he⟩
    · cases h
    · cases h
    · cases h
      exact ⟨e, rfl, he⟩
  refine ⟨hfails, fun res hf t => ?_, fun st hf => ?_, fun w' hstep => ?_⟩
  · obtain ⟨e, rfl, -⟩ := hfails res hf
    exact ⟨e, rfl⟩
  -- a step of its own is there and brings it closer to its end
  · have hnext : ∀ st', w.advance i = some (w.setStage i st') → st'.stepsLeft < st.stepsLeft →
        ∃ w' st', w.step E (.advance i) = some w' ∧ w'.flights[i]? = some ⟨op, st'⟩
          ∧ st'.stepsLeft < st.stepsLeft := by
      intro st' hadv hlt
      refine ⟨(w.setStage i st').settle, st', ?_, ?_, hlt⟩
      · show (w.advance i).map settle = _
        rw [hadv]
        rfl
      · rw [settle_flights]
        exact Table.getElem?_modify_self hf
    rcases hstage st hf with rfl | rfl | ⟨e, rfl, -⟩
    · refine .inr ?_
      cases hup : w.upgradable with
      | true =>
        refine hnext op.entry (by simp [advance, hf, hup]) ?_
        simp [Operation.entry, hchecks, Stage.stepsLeft]
      | false =>
        exact hnext (.returned (.error .actorDropped)) (by simp [advance, hf, hup])
          (by simp [Stage.stepsLeft])
    · exact .inr (hnext (.returned (.error op.rejected)) (by simp [advance, hf, hlate.stopped])
        (by simp [Stage.stepsLeft]))
    · exact .inl ⟨_, rfl⟩
  -- it is never at the point where it would enqueue
  · have hnot : ∀ {op'}, w.flights[i]? = some ⟨op', .enqueuing⟩ → False := by
      intro op' hf
      obtain rfl : op' = op := by simpa [ops, hf] using hop
      rcases hstage _ hf with h | h | ⟨e, h, -⟩ <;> cases h
    cases traffic_of_step hstep with
    | kept hq ha hp => exact ⟨hq, ha⟩
    | accept j op' hl hf hopen hfull hq ha hp => cases hl; exact (hnot hf).elim
    | evict j op' hl hf hforce hopen hfull hq ha hp => cases hl; exact (hnot hf).elim
    | pop e hl hq ha hp => cases hl

/-- Operation `i` is in vain: unless it is still on its way or was dropped, it has returned an error
or its payload is in the mailbox; the loop has not taken it, and its task has not been run. -/
structure InVain (w : World Q σ ρ) (i : ℕ) (op : Operation σ ρ) : Prop where
  outcome : ∃ f, w.flights[i]? = some f ∧ f.op = op ∧ (f.entered = false ∨ f.stage = .abandoned
    ∨ (∃ e, f.stage = .returned (.error e)) ∨ ⟨i, op.payload⟩ ∈ w.accepted)
  untaken : ∀ e ∈ w.popped, e.client ≠ i
  unanswered : i ∉ w.completed.map Prod.fst

theorem inVain_of_late (hreq : RequestInv u) (hacc : Accounted u) (hlate : Late u w)
    (hacc' : Accounted w) {f : Flight σ ρ} (hf : u.flights[i]? = some f)
    (hentered : f.entered = false) : InVain w i f.op := by
  -- what has not entered the mailbox has no record there
  have hout : i ∉ u.ledger.entered := by
    have hflight := hreq.ok.flight i f hf
    rcases f with ⟨op, st⟩
    cases st with
    | upgrading | checking | enqueuing => exact hflight
    | waiting | returned | abandoned => cases hentered
  refine ⟨?_, fun e he hclient => hout ?_, ?_⟩
  · obtain ⟨g, hg, hgop⟩ : ∃ g, w.flights[i]? = some g ∧ g.op = f.op := by
      obtain ⟨new, hnew⟩ := hlate.ops
      have hop : w.ops[i]? = some f.op := by
        rw [← hnew, List.getElem?_append_left
          (by simpa [ops] using (List.getElem?_eq_some_iff.mp hf).1)]
        simp [ops, hf]
      simpa [ops] using hop
    refine ⟨g, hg, hgop, ?_⟩
    rcases g with ⟨op, st⟩
    have hgop : op = f.op := hgop
    subst hgop
    -- wherever it has got to since then: nothing popped, nothing completed
    cases st with
    | upgrading | checking | enqueuing => exact .inl rfl
    | abandoned => exact .inr (.inl rfl)
    | waiting reply => exact .inr (.inr (.inr (hacc'.answered i _ _ hg (.inl ⟨reply, rfl⟩))))
    | returned res =>
      cases res with
      | error e => exact .inr (.inr (.inl ⟨e, rfl⟩))
      | ok r => exact .inr (.inr (.inr (hacc'.answered i _ _ hg (.inr ⟨r, rfl⟩))))
  · rw [hlate.popped] at he
    exact List.mem_map.mpr ⟨e, hacc.popped e he, hclient⟩
  · rw [hlate.completed]
    exact (hreq.ok.of_not_entered hout).2

/-- **Fail-fast after the stop.** From the moment some handle has seen that the actor has stopped,
whether or not its receiver is gone: every operation of a handle that begins then returns an error
after at most two steps of its own and leaves what the mailbox holds as it is; and an operation that
had not enqueued its payload before is in vain. No hook or handler is called any more. -/
theorem fail_fast (E : EventLoop σ) (capacity : Option ℕ+) (a : σ) (pre more : List (Label σ ρ))
    (u v : World Q σ ρ) (hu : (machine Q ρ E capacity a).Run pre u) (hobserved : u.task.Observed)
    (hv : ((machine Q ρ E capacity a).startingAt u).Run more v) :
    (∀ i op, u.flights.length ≤ i → v.ops[i]? = some op → HandleOperation op → FailsFast E v i op)
      ∧ (∀ i f, u.flights[i]? = some f → f.entered = false → InVain v i f.op)
      ∧ v.task.loop.trace = u.task.loop.trace := by
  have hinv : ∀ {w}, (∃ ls, (machine Q ρ E capacity a).Run ls w) →
      w.task.Inv ∧ RequestInv w ∧ Accounted w := by
    rintro w ⟨ls, hw⟩
    refine hw.invariant (I := fun w => w.task.Inv ∧ RequestInv w ∧ Accounted w)
      ⟨LoopTask.inv_init a, requestInv_init capacity a, accounted_init capacity a⟩ ?_
    rintro s l s' ⟨htask, hreq, hacc⟩ hstep
    exact ⟨taskInv_step htask hstep, requestInv_step hreq hstep, accounted_step hacc hstep⟩
  have hlate : v.task.Inv ∧ Late u v := by
    refine hv.invariant (I := fun w => w.task.Inv ∧ Late u w)
      ⟨(hinv ⟨pre, hu⟩).1, late_refl (hobserved.stopped (hinv ⟨pre, hu⟩).1)⟩ ?_
    rintro s l s' ⟨htask, hlate⟩ hstep
    exact ⟨taskInv_step (E := E) htask hstep, late_step (E := E) htask hlate hstep⟩
  obtain ⟨-, hrequ, haccu⟩ := hinv ⟨pre, hu⟩
  obtain ⟨-, -, haccv⟩ := hinv ⟨_, hu.append hv⟩
  exact ⟨fun i op hle hop hhandle => failsFast_of_late hlate.2 hle hop hhandle.checks,
    fun i f hf hentered => inVain_of_late hrequ haccu hlate.2 haccv hf hentered, hlate.2.trace⟩

/-- A `send` has passed its check when the actor is stopped; `stopped` has returned and the flag is
down, the receiver is still there. -/
def observedRun : List (Label ℕ ℕ) :=
  [.poll, .poll, .begin (Addr.send fun n => .completed (n + 1) none), .advance 0, .begin Addr.stop,
    .advance 1, .advance 1, .receive, .poll, .lower]

/-- The `send` goes on, and a `call` and an upgraded `Sender` come too late. -/
def lateRun : List (Label ℕ ℕ) :=
  [.advance 0, .begin (Addr.call fun n => .completed n (some n)), .advance 2,
    .begin (WeakSender.upgradeAndSend fun n => .completed n none), .advance 3, .advance 3]

theorem fail_fast_send :
    (unboundedActor.after observedRun rfl).task.Observed
      ∧ (unboundedActor.after observedRun rfl).task.rx = true
      ∧ ((unboundedActor.startingAt (unboundedActor.after observedRun rfl)).after lateRun
          rfl).flights.map Flight.stage
        = [.returned (.ok none), .returned (.ok none), .returned (.error .alreadyStopped),
            .returned (.error .channelClosed)]
      ∧ (∀ i op, 2 ≤ i → ((unboundedActor.startingAt (unboundedActor.after observedRun rfl)).after
          lateRun rfl).ops[i]? = some op → HandleOperation op →
            FailsFast (.fromChannel (.provided 0)) ((unboundedActor.startingAt
              (unboundedActor.after observedRun rfl)).after lateRun rfl) i op)
      ∧ InVain ((unboundedActor.startingAt (unboundedActor.after observedRun rfl)).after
          lateRun rfl) 0 (Addr.send fun n => .completed (n + 1) none) := by
  have hobserved : (unboundedActor.after observedRun rfl).task.Observed := .inl rfl
  obtain ⟨hfails, hvain, -⟩ := fail_fast (.fromChannel (.provided 0)) none 7 observedRun lateRun _ _
    (unboundedActor.run_after observedRun rfl) hobserved
    (Machine.run_after (M := unboundedActor.startingAt _) lateRun rfl)
  exact ⟨hobserved, rfl, rfl, hfails, hvain 0 ⟨_, .enqueuing⟩ rfl rfl⟩

/-- A call is answered; before its caller looks, the actor is stopped. -/
def answeredLateRun : List (Label ℕ ℕ) :=
  [.begin (Addr.call fun n => .completed (n + 1) (some n)), .advance 0, .advance 0, .poll, .poll,
    .receive, .poll, .begin Addr.stop, .advance 1, .advance 1, .receive, .poll, .lower]

/-- **What was enqueued before the stop was observed may have been taken.** An operation that is in
progress then can still return `Ok`, with a payload that was executed. -/
theorem answered_late :
    ¬ ∀ (pre more : List (Label ℕ ℕ)) (u v : World ChannelState ℕ ℕ) (i : ℕ) (f g : Flight ℕ ℕ),
      unboundedActor.Run pre u → u.task.Observed → (unboundedActor.startingAt u).Run more v →
      u.flights[i]? = some f → (∀ res, f.stage ≠ .returned res) → v.flights[i]? = some g →
      ∀ res, g.stage = .returned res →
        (∃ e, res = .error e)
          ∨ (⟨i, g.op.payload⟩ ∈ v.accepted ∧ ∀ e ∈ v.popped, e.client ≠ i) := by
  intro h
  have hlate := h answeredLateRun [.advance 0] _ _ 0
    ⟨Addr.call fun n => .completed (n + 1) (some n), .waiting (.ok (some 7))⟩
    ⟨Addr.call fun n => .completed (n + 1) (some n), .returned (.ok (some 7))⟩
    (unboundedActor.run_after answeredLateRun rfl) (.inl rfl)
    (Machine.run_after (M := unboundedActor.startingAt _) [.advance 0] rfl) rfl nofun rfl _ rfl
  -- the call has returned `Ok`, and its payload was popped
  rcases hlate with ⟨e, he⟩ | ⟨-, huntaken⟩
  · cases he
  · exact huntaken ⟨0, .task fun n => .completed (n + 1) (some n)⟩ (.head _) rfl

end World

end Hannibal
