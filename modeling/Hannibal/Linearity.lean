import Hannibal.Eviction
import Hannibal.Lib.Linearizability
import Hannibal.Order

/-!
# Hannibal.Linearity — an actor is a linearizable object

Seen by its clients an actor is one object that takes one payload at a time: whatever overlaps, each
response is the one the actor value gives when the operations are done one after the other, in an
order that no client can tell from real time. This holds for a mailbox of any capacity.

* **`EventLoop.object`** — the sequential object: the actor value after `started`, and what a task
  or a restart makes of it.
* **`PerformedAt`**, **`performed_step`** — which of the payloads it has popped the loop has
  performed.
* **`EnrolledInv`** — an operation is accepted before it is over.
* **`linearizable`** — the theorem about every run.
-/

namespace Hannibal

open Lts Chan Linearizability
open AsyncChannel (state)

variable {Q : Type → Type} [AsyncChannel Q] {σ ρ : Type}

/-! ## The actor as an object

The object takes one payload at a time and has no mailbox. A sequence it can take has the state that
the fold of `Hannibal.Fold` computes, so the two modules speak of the same values. -/

namespace EventLoop

/-- What a payload makes of the actor value; a `Stop` ends it. -/
def perform (E : EventLoop σ) (p : σ × ℕ) : Payload σ ρ → Option (σ × ℕ)
  | .task f => E.runTask f p
  | .restart => E.runRestart p
  | .stop => none

/-- The response it leaves: only a task that completes has one. -/
def response (E : EventLoop σ) (p : σ × ℕ) : Payload σ ρ → Option (Option ρ)
  | .task f =>
    match timeoutFut E.config.timeout (f p.1) with
    | some (.completed _ r) => some r
    | _ => none
  | _ => none

/-- The actor without its mailbox. -/
def object (E : EventLoop σ) (a : σ) :
    Object (Option (σ × ℕ)) (Payload σ ρ) (Option (Option ρ)) where
  init := E.runStarted (a, 0)
  apply s op := do
    let p ← s
    let q ← E.perform p op
    return (some q, E.response p op)

theorem perform_payload (E : EventLoop σ) (p : σ × ℕ) (e : Envelope σ ρ) :
    E.perform p e.payload = E.runPayload p e := by
  rcases e with ⟨k, _ | _ | _⟩ <;> rfl

end EventLoop

/-- An operation the actor has performed, with the response it left. -/
abbrev Performed (σ ρ : Type) : Type := Point ℕ (Payload σ ρ) (Option (Option ρ))

/-- The payload it was. -/
def Performed.envelope (p : Performed σ ρ) : Envelope σ ρ := ⟨p.id, p.op⟩

/-- What is recorded of it. -/
def Performed.record (p : Performed σ ρ) : Option (ℕ × Option ρ) := p.res.map (p.id, ·)

variable {E : EventLoop σ} {a : σ} {lin : List (Performed σ ρ)}

/-- The object is where the fold over its operations is. -/
theorem legal_folded {s : Option (σ × ℕ)} (h : (E.object a).Legal lin s) :
    s = E.folded a (lin.map Performed.envelope) := by
  induction h with
  | start => simp [EventLoop.object, EventLoop.folded]
  | @snoc lin s s' p legal happly ih =>
    rw [List.map_append, List.map_cons, List.map_nil, EventLoop.folded_append_singleton, ← ih]
    obtain ⟨q, rfl, hq⟩ := Option.bind_eq_some_iff.mp happly
    obtain ⟨q', hperform, hq'⟩ := Option.bind_eq_some_iff.mp hq
    obtain ⟨rfl, -⟩ := Prod.mk.inj (Option.some.inj hq')
    rw [Option.bind_some, ← EventLoop.perform_payload]
    exact hperform.symm

/-- What the fold can take next, the object can. -/
theorem legal_snoc
    {s : Option (σ × ℕ)} (h : (E.object a).Legal lin s) {e : Envelope σ ρ} {p q : σ × ℕ}
    (hp : E.folded a (lin.map Performed.envelope) = some p)
    (hq : E.folded a (lin.map Performed.envelope ++ [e]) = some q) :
    (E.object a).Legal (lin ++ [⟨e.client, e.payload, E.response p e.payload⟩]) (some q) := by
  rw [legal_folded h, hp] at h
  rw [EventLoop.folded_append_singleton, hp, Option.bind_some, ← EventLoop.perform_payload] at hq
  refine h.snoc _ ?_
  simp [EventLoop.object, hq]

/-! ## What the loop has performed

Between taking a payload and leaving its call the loop is at work on it. `performed_step` says when
the work is done, and that this is the step in which its response is recorded. -/

/-- Of the payloads `es` a loop has taken, it has performed `done`. The last one may be under way,
and where the loop has failed or has stopped it may never be performed. -/
def PerformedAt (s : LoopState σ ρ) (es done : List (Envelope σ ρ)) : Prop :=
  match s.pc with
  | .unpolled | .starting | .receiving => es = done
  | .running _ _ | .refreshStopping | .refreshStarting => ∃ e, es = done ++ [e]
  | _ => done <+: es

theorem PerformedAt.le {s : LoopState σ ρ}
    {es done : List (Envelope σ ρ)} (h : PerformedAt s es done) :
    done <+: es := by
  unfold PerformedAt at h
  split at h
  · exact h ▸ List.prefix_rfl
  · exact h ▸ List.prefix_rfl
  · exact h ▸ List.prefix_rfl
  · obtain ⟨e, rfl⟩ := h
    exact List.prefix_append done [e]
  · obtain ⟨e, rfl⟩ := h
    exact List.prefix_append done [e]
  · obtain ⟨e, rfl⟩ := h
    exact List.prefix_append done [e]
  · exact h

/-- What a loop that leaves a task records. -/
def recordOf : Option (ℕ × Reply ρ) → List (ℕ × Option ρ)
  | some (k, .ok r) => [(k, r)]
  | _ => []

/-- What is performed by one step of the loop, from where `lin` has led. -/
structure Performs (E : EventLoop σ) (a : σ) (s s' : LoopState σ ρ) (es' : List (Envelope σ ρ))
    (lin new : List (Performed σ ρ)) : Prop where
  legal : ∃ q, (E.object a).Legal (lin ++ new) q
  performed : PerformedAt s' es' ((lin ++ new).map Performed.envelope)
  recorded : new.filterMap Performed.record = recordOf s.reply

variable {s s' : LoopState σ ρ} {es : List (Envelope σ ρ)} {i : Option (Input σ ρ)}

/-- The payload under way is performed now. -/
theorem performs_last {q : Option (σ × ℕ)} (hlegal : (E.object a).Legal lin q) {e : Envelope σ ρ}
    (hes : es = lin.map Performed.envelope ++ [e]) {p p' : σ × ℕ}
    (hp : E.folded a (lin.map Performed.envelope) = some p) (hp' : E.folded a es = some p')
    (hpc : s'.pc = .receiving)
    (hrecord : ((E.response p e.payload).map (e.client, ·)).toList = recordOf s.reply) :
    Performs E a s s' es lin [⟨e.client, e.payload, E.response p e.payload⟩] where
  legal := ⟨_, legal_snoc hlegal hp (hes ▸ hp')⟩
  performed := by
    rw [PerformedAt, hpc, List.map_append, hes]
    rfl
  recorded := by
    rw [← hrecord]
    cases E.response p e.payload <;> simp [Performed.record]

/-- Nothing is performed. -/
theorem performs_nothing {q : Option (σ × ℕ)} (hlegal : (E.object a).Legal lin q)
    {es' : List (Envelope σ ρ)} (hat : PerformedAt s' es' (lin.map Performed.envelope))
    (hreply : recordOf s.reply = []) : Performs E a s s' es' lin [] where
  legal := ⟨q, by rwa [List.append_nil]⟩
  performed := by rwa [List.append_nil]
  recorded := hreply.symm

omit [AsyncChannel Q] in
theorem recordOf_of_no_client (h : s.pc.client = none) : recordOf s.reply = [] := by
  rw [reply_of_no_client h]
  rfl

/-- A loop that records a response leaves a task that has completed. -/
theorem receiving_of_record (h : E.step s none = some s') (hrecord : recordOf s.reply ≠ []) :
    s'.pc = .receiving := by
  unfold recordOf at hrecord
  split at hrecord
  · next k r hreply =>
    obtain ⟨f, b, hpc, hf⟩ := World.ran_of_reply hreply
    have hstep : E.step s none = some (s.leave (.task k) .ok b .receiving) := by
      cases hE : E.onStream <;>
        simp [EventLoop.step, EventLoop.create, EventLoop.createOnStream, hE, hpc,
          EventLoop.afterTask, timeoutFut, hf]
    rw [h] at hstep
    cases hstep
    rfl
  · exact absurd rfl hrecord

/-- The payload under way is the last one that was taken. -/
theorem eq_of_snoc {es pre done : List (Envelope σ ρ)} {e e' : Envelope σ ρ} (h : es = pre ++ [e])
    (h' : es = done ++ [e']) : pre = done ∧ e = e' := by
  obtain ⟨hpre, he⟩ := List.append_inj' (h.symm.trans h') rfl
  exact ⟨hpre, List.singleton_inj.mp he⟩

/-- Leaving a task that leaves the loop running. -/
theorem performs_task (hord : LoopOrder E a s es) {q : Option (σ × ℕ)}
    (hlegal : (E.object a).Legal lin q)
    (hat : PerformedAt s es (lin.map Performed.envelope)) {c : Call}
    {f : TaskFn σ ρ} (hpc : s.pc = .running c f) (hpc' : s'.pc = .receiving) {p' : σ × ℕ}
    (hp' : E.folded a es = some p')
    (hresponse : E.response (s.actor, s.clock) (.task f)
      = match f s.actor with | .completed _ r => some r | _ => none) :
    ∃ new, Performs E a s s' es lin new := by
  have hfold := hord.foldedAt
  rw [FoldedAt, hpc] at hfold
  obtain ⟨pre, k, rfl, hes, hp⟩ := hfold
  rw [PerformedAt, hpc] at hat
  obtain ⟨e, he⟩ := hat
  obtain ⟨rfl, rfl⟩ := eq_of_snoc hes he
  refine ⟨_, performs_last hlegal hes hp hp' hpc' ?_⟩
  rw [hresponse]
  -- the response that is recorded is the one of the object at the same actor value
  unfold LoopState.reply
  rw [hpc]
  cases hf : f s.actor <;> simp [hf, recordOf]

/-- **The step lemma**: a step of the loop performs the payload it was at, or nothing. -/
theorem performed_step (hE : E.onStream = false) (hord : LoopOrder E a s es)
    (hord' : LoopOrder E a s' (es ++ Input.envelopes i)) {q : Option (σ × ℕ)}
    (hlegal : (E.object a).Legal lin q) (hat : PerformedAt s es (lin.map Performed.envelope))
    (h : E.step s i = some s') : ∃ new, Performs E a s s' (es ++ Input.envelopes i) lin new := by
  have hle := hat.le
  have hfold := hord.foldedAt
  have hfold' := hord'.foldedAt
  -- a step that leaves no call of a client performs nothing
  have hidle : s.pc.client = none → PerformedAt s' (es ++ Input.envelopes i)
      (lin.map Performed.envelope) → ∃ new, Performs E a s s' (es ++ Input.envelopes i) lin new :=
    fun hclient hat' => ⟨[], performs_nothing hlegal hat' (recordOf_of_no_client hclient)⟩
  have hkeep : Input.envelopes i = [] → lin.map Performed.envelope <+: es ++ Input.envelopes i :=
    fun hnone => by rwa [hnone, List.append_nil]
  -- a payload is performed when its task is left, when its restart is over, or when it is ignored
  cases EventLoop.step_cases h with
  | poll hpc =>
    rw [PerformedAt, hpc] at hat
    exact hidle (by rw [hpc]; rfl) (by simpa [PerformedAt, Input.envelopes] using hat)
  | startedOk hpc b hend =>
    rcases hpc with hpc | hpc
    · rw [PerformedAt, hpc] at hat
      exact hidle (by rw [hpc]; rfl) (by simpa [PerformedAt, Input.envelopes] using hat)
    · -- the end of a restart
      rw [FoldedAt, hpc] at hfold
      obtain ⟨pre, k, p, c, hes, hp, -⟩ := hfold
      rw [PerformedAt, hpc] at hat
      obtain ⟨e, he⟩ := hat
      obtain ⟨rfl, rfl⟩ := eq_of_snoc hes he
      refine ⟨_, performs_last hlegal (by simpa [Input.envelopes] using hes) hp hfold' rfl ?_⟩
      rw [recordOf_of_no_client (by rw [hpc]; rfl)]
      rfl
  | startedErr hpc b e hend =>
    refine hidle ?_ (hkeep rfl)
    rcases hpc with hpc | hpc <;> rw [hpc] <;> rfl
  | panic hpc =>
    have hreply : recordOf s.reply = [] := by
      by_contra hrecord
      cases receiving_of_record h hrecord
    exact ⟨[], performs_nothing hlegal (hkeep rfl) hreply⟩
  | taskDone c f hpc b r hend =>
    simp only [Input.envelopes, List.append_nil] at hfold' ⊢
    exact performs_task hord hlegal hat hpc rfl hfold'
      (by simp [EventLoop.response, timeoutFut, hend])
  | taskIgnored c f hpc b hend htimeout hfail =>
    simp only [Input.envelopes, List.append_nil] at hfold' ⊢
    refine performs_task hord hlegal hat hpc rfl hfold' ?_
    obtain ⟨d, hd⟩ := Option.ne_none_iff_exists'.mp htimeout
    simp [EventLoop.response, timeoutFut, hend, hd]
  | taskCancelled c f hpc b hend htimeout hfail =>
    have hreply : recordOf s.reply = [] := by
      by_contra hrecord
      cases receiving_of_record h hrecord
    exact ⟨[], performs_nothing hlegal (hkeep rfl) hreply⟩
  | refreshed hpc b d hend hactor =>
    rw [PerformedAt, hpc] at hat
    exact hidle (by rw [hpc]; rfl) (by simpa [PerformedAt, Input.envelopes] using hat)
  | refreshPanic hpc | cancelled hpc | stopped hpc | notified hpc =>
    exact hidle (by rw [hpc]; rfl) (hkeep rfl)
  | finished hpc hstream | panicRestart hpc hstream | takeItem hpc hstream
  | takeStreamEnd hpc hstream => simp [hE] at hstream
  | takeTask hpc k f =>
    rw [PerformedAt, hpc] at hat
    exact hidle (by rw [hpc]; rfl) ⟨_, by rw [hat]; rfl⟩
  -- a `Stop` is not performed: the loop ends with it
  | takeStop hpc k =>
    exact hidle (by rw [hpc]; rfl) (hle.trans (List.prefix_append es _))
  | takeClosed hpc => exact hidle (by rw [hpc]; rfl) (hkeep rfl)
  | takeRestart hpc hstream hstrategy k =>
    rw [PerformedAt, hpc] at hat
    exact hidle (by rw [hpc]; rfl) ⟨_, by rw [hat]; rfl⟩
  -- a restart that the strategy ignores is over at once
  | keepRestart hpc hstream hstrategy k =>
    rw [PerformedAt, hpc] at hat
    rw [FoldedAt, hpc] at hfold
    rw [FoldedAt, LoopState.take_pc, hpc] at hfold'
    refine ⟨_, performs_last hlegal (by rw [hat]; rfl) (hat ▸ hfold) hfold' hpc ?_⟩
    rw [recordOf_of_no_client (by rw [hpc]; rfl)]
    rfl

namespace World

variable {w v w' : World Q σ ρ} {l : Label σ ρ}

omit [AsyncChannel Q] in
/-- An answer with a response is recorded. -/
theorem answer_record (o : Option (ℕ × Reply ρ)) :
    (w.answer o).completed = w.completed ++ recordOf o := by
  rcases o with _ | ⟨k, _ | r | _⟩
  · exact (List.append_nil _).symm
  · exact (List.append_nil _).symm
  · rfl
  · exact (List.append_nil _).symm

/-- A step of the loop future that takes an input. -/
theorem loop_of_receive {t t' : LoopTask σ ρ} {i : Input σ ρ}
    (h : t.step E (.receive i) = some t') :
    E.step t.loop (some i) = some t'.loop := by
  obtain ⟨s', hs, rfl⟩ := Option.map_eq_some_iff.mp h
  exact hs

/-- A loop that takes an input leaves no task. -/
theorem record_of_input {i : Input σ ρ} (h : E.step s (some i) = some s') : recordOf s.reply = [] :=
  recordOf_of_no_client (no_client_of_input (EventLoop.step_cases h))

/-- What a step makes of the loop, and what it records. -/
theorem record_of_step (h : step E w l = some w') :
    (w'.popped = w.popped ∧ w'.completed = w.completed
        ∧ (w'.task.loop = w.task.loop ∨ w'.task.loop = w.task.loop.goto .dropped))
      ∨ ∃ i, E.step w.task.loop i = some w'.task.loop ∧ w'.popped = w.popped ++ Input.envelopes i
        ∧ w'.completed = w.completed ++ recordOf w.task.loop.reply := by
  obtain ⟨v, hv, rfl⟩ := Option.map_eq_some_iff.mp h
  rw [settle_popped, settle_completed, settle_task]
  -- by the label: the loop takes a step of its own, takes an input, or does not move
  cases l with
  | poll =>
    obtain ⟨t, ht, rfl⟩ := Option.map_eq_some_iff.mp hv
    simp only [LoopTask.step] at ht
    split at ht
    · cases ht
    · obtain ⟨s', hs, rfl⟩ := Option.map_eq_some_iff.mp ht
      exact .inr ⟨none, by simpa using hs, by simp [Input.envelopes], answer_record _⟩
  -- an input is taken at the receive point, where there is no call to answer
  | receive =>
    simp only [act, receive] at hv
    split at hv
    · next e q hq =>
      obtain ⟨t, ht, rfl⟩ := Option.map_eq_some_iff.mp hv
      have hs := loop_of_receive ht
      exact .inr ⟨_, hs, rfl, by rw [record_of_input hs, List.append_nil]⟩
    · obtain ⟨t, ht, rfl⟩ := Option.map_eq_some_iff.mp hv
      have hs := loop_of_receive ht
      refine .inr ⟨_, hs, by simp [Input.envelopes], ?_⟩
      rw [record_of_input hs, List.append_nil]
      rfl
    · cases hv
  | item f =>
    obtain ⟨t, ht, rfl⟩ := Option.map_eq_some_iff.mp hv
    have hs := loop_of_receive ht
    refine .inr ⟨_, hs, by simp [Input.envelopes], ?_⟩
    rw [record_of_input hs, List.append_nil]
    rfl
  | streamEnd =>
    obtain ⟨t, ht, rfl⟩ := Option.map_eq_some_iff.mp hv
    have hs := loop_of_receive ht
    refine .inr ⟨_, hs, by simp [Input.envelopes], ?_⟩
    rw [record_of_input hs, List.append_nil]
    rfl
  -- a future that is dropped answers its call with nothing, which is not recorded
  | dropFuture =>
    left
    cases act_cases hv with
    | dropFuture t ht =>
      cases ht with
      | drop hend hnotify =>
        refine ⟨by simp, ?_, .inr (by simp)⟩
        rw [answer_record]
        cases w.task.loop.pc.client <;> simp [recordOf]
    | silent l tl hl t ht => cases hl
  -- what follows the end of the loop future, and the clients, leave the loop where it is
  | lower | fire | dropCtx =>
    left
    cases act_cases hv with
    | silent l tl hl t ht =>
      cases hl
      cases ht
      exact ⟨rfl, rfl, .inl rfl⟩
  | dropRx =>
    left
    cases act_cases hv with
    | dropRx t ht =>
      cases ht
      exact ⟨rfl, rfl, .inl rfl⟩
    | silent l tl hl t ht => cases hl
  | advance i =>
    left
    cases act_cases hv with
    | silent l tl hl t ht => cases hl
    | accepted j op hf evicted q henq => exact ⟨by simp, by simp, .inl (by simp)⟩
    | _ => exact ⟨rfl, rfl, .inl rfl⟩
  | begin op | abandon i | clone | upgrade | drop =>
    left
    cases act_cases hv with
    | silent l tl hl t ht => cases hl
    | _ => exact ⟨rfl, rfl, .inl rfl⟩

/-- What has been performed of what was popped, in which order, and what is recorded of it. -/
structure LinearInv (E : EventLoop σ) (a : σ) (w : World Q σ ρ)
    (lin : List (Performed σ ρ)) : Prop where
  legal : ∃ q, (E.object a).Legal lin q
  performed : PerformedAt w.task.loop w.popped (lin.map Performed.envelope)
  recorded : w.completed = lin.filterMap Performed.record

theorem linearInv_init (E : EventLoop σ) (capacity : Option ℕ+) (a : σ) :
    LinearInv E a (init Q ρ capacity a) [] where
  legal := ⟨_, .start⟩
  performed := rfl
  recorded := rfl

/-- **The step lemma**: what has been performed is performed, and the next one comes behind it. -/
theorem linearInv_step (hE : E.onStream = false) (hord : LoopOrder E a w.task.loop w.popped)
    (hord' : LoopOrder E a w'.task.loop w'.popped) (hinv : LinearInv E a w lin)
    (h : step E w l = some w') : ∃ new, LinearInv E a w' (lin ++ new) := by
  obtain ⟨q, hlegal⟩ := hinv.legal
  rcases record_of_step h with ⟨hpopped, hcompleted, hloop⟩ | ⟨i, hs, hpopped, hcompleted⟩
  · refine ⟨[], ⟨q, by rwa [List.append_nil]⟩, ?_,
      by rw [hcompleted, List.append_nil, hinv.recorded]⟩
    rw [List.append_nil, hpopped]
    rcases hloop with hsame | hdropped
    · exact hsame ▸ hinv.performed
    · exact hdropped ▸ hinv.performed.le
  · rw [hpopped] at hord'
    obtain ⟨new, hnew⟩ := performed_step hE hord hord' hlegal hinv.performed hs
    refine ⟨new, hnew.legal, hpopped ▸ hnew.performed, ?_⟩
    rw [hcompleted, hinv.recorded, List.filterMap_append, hnew.recorded]

/-! ## Real time

An operation enters the order when its payload is performed. By then it was accepted, so it had
begun; and it is not over before, so nothing that begins after its end comes before it. -/

/-- The mailbox has accepted the payload of an operation that stands here. -/
def enrolled (f : Flight σ ρ) : Bool :=
  match f.stage with
  | .waiting _ | .returned (.ok _) | .returned (.error .canceled) => true
  | _ => false

/-- An operation is over. -/
def Over (w : World Q σ ρ) (k : ℕ) : Prop :=
  ∃ op res, w.flights[k]? = some ⟨op, .returned res⟩

/-- What was accepted is what the operations handed over, and an operation hands its payload over
before it awaits a response or returns one. -/
structure EnrolledInv (w : World Q σ ρ) : Prop where
  sent : ∀ e ∈ w.accepted, w.Sent e.client e.payload
  enrolled : ∀ k f, w.flights[k]? = some f → enrolled f = true → k ∈ w.accepted.map Envelope.client

theorem enrolledInv_init (capacity : Option ℕ+) (a : σ) : EnrolledInv (init Q ρ capacity a) where
  sent e he := by cases he
  enrolled k f hf := by simp [init] at hf

/-- What was accepted stays so. -/
theorem accepted_le (h : step E w l = some w') : w.accepted <+: w'.accepted := by
  rcases accepted_of_step h with hsame | ⟨i, op, -, -, hsnoc⟩
  · rw [hsame]
  · exact hsnoc ▸ List.prefix_append _ _

theorem accepted_client_le (h : step E w l = some w') :
    w.accepted.map Envelope.client <+: w'.accepted.map Envelope.client := (accepted_le h).map _

/-- An operation goes on from its enqueueing with its payload accepted, or is over. -/
theorem enrolled_of_enqueuing (h : step E w l = some w') {k : ℕ} {op : Operation σ ρ}
    {f : Flight σ ρ} (hf : w.flights[k]? = some ⟨op, .enqueuing⟩) (hg : w'.flights[k]? = some f)
    (henrolled : enrolled f = true) : k ∈ w'.accepted.map Envelope.client := by
  obtain ⟨v, hact, rfl⟩ := step_cases h
  rw [settle_flights] at hg
  rw [settle_accepted]
  -- the operation is not at its enqueueing any more
  have hmoved : v.flights[k]? ≠ some ⟨op, .enqueuing⟩ := by
    intro hsame
    rw [hsame] at hg
    cases hg
    cases henrolled
  have hset : ∀ {st : Stage ρ}, (w.setStage k st).flights[k]? = some f → f = ⟨op, st⟩ := by
    intro st hst
    rcases flight_of_setStage hst with hold | ⟨-, f', hf', rfl⟩
    · rw [hf] at hold
      cases hold
      cases henrolled
    · rw [hf] at hf'
      cases hf'
      rfl
  rcases own_step hact hf rfl hmoved with rfl | rfl
  · cases hact with
    | accepted i op' hf' evicted q henq => simp
    | refused i op' hf' henq =>
      obtain rfl := hset hg
      rcases op'.rejected_cases with hr | hr <;> simp [enrolled, hr] at henrolled
    | silent l tl hl t ht => cases hl
    | upgraded i op' hf' | dropped i op' hf' | passed i op' hf' | stopped i op' hf'
    | answered i op' r hf' | canceled i op' hf' =>
      rw [hf] at hf'
      cases hf'
  · cases hact with
    | abandon i f' hf' habandon =>
      obtain rfl := hset hg
      cases henrolled
    | silent l tl hl t ht => cases hl

theorem enrolledInv_step (hinv : EnrolledInv w) (h : step E w l = some w') : EnrolledInv w' := by
  have hmono := (accepted_client_le h).subset
  constructor
  · intro e he
    obtain ⟨v, hact, hv⟩ := step_cases h
    have hkeep : ∀ {k p}, w.Sent k p → w'.Sent k p := by
      subst hv
      intro k p hsent
      simpa [Sent] using hsent.mono hact
    rcases accepted_of_step h with hsame | ⟨i, op, -, hf, hsnoc⟩
    · exact hkeep (hinv.sent e (hsame ▸ he))
    · rw [hsnoc] at he
      rcases List.mem_append.mp he with hold | hnew
      · exact hkeep (hinv.sent e hold)
      · obtain rfl := List.mem_singleton.mp hnew
        exact hkeep (by simp [Sent, ops, hf])
  · intro k g hg henrolled
    obtain ⟨v, hact, rfl⟩ := step_cases h
    have hv := hg
    rw [settle_flights] at hv
    -- it has entered before, or enters with the acceptance of its payload, or is new
    rcases flight_of_act hact hv with hold | ⟨f, hf, hmove⟩ | ⟨op, -, rfl⟩
    · exact hmono (hinv.enrolled k g hold henrolled)
    · cases hmove with
      | accepted op hopen => exact enrolled_of_enqueuing h hf hg henrolled
      | resolved op reply hreply | answered op r | canceled op =>
        exact hmono (hinv.enrolled k _ hf rfl)
      | refused op hno | stopped op hrun =>
        rcases op.rejected_cases with hr | hr <;> simp [World.enrolled, hr] at henrolled
      | upgraded op hup =>
        cases hchecks : op.checks <;>
          simp [World.enrolled, Operation.entry, hchecks] at henrolled
      | _ => cases henrolled
    · rcases op with ⟨via, checks, rejected, primitive, payload, awaits⟩
      cases via <;> cases checks <;> cases henrolled

/-- What returned stays returned. -/
theorem over_step (h : step E w l = some w') {k : ℕ} {op : Operation σ ρ}
    {res : Except ActorError (Option ρ)} (hf : w.flights[k]? = some ⟨op, .returned res⟩) :
    w'.flights[k]? = some ⟨op, .returned res⟩ := by
  obtain ⟨v, hact, rfl⟩ := step_cases h
  rw [settle_flights]
  by_contra hmoved
  rcases own_step hact hf rfl hmoved with rfl | rfl
  · cases hact with
    | silent l tl hl t ht => cases hl
    | accepted i op' hf' | refused i op' hf' | upgraded i op' hf' | dropped i op' hf'
    | passed i op' hf' | stopped i op' hf' | answered i op' r hf' | canceled i op' hf' =>
      rw [hf] at hf'
      cases hf'
  · cases hact with
    | abandon i f' hf' habandon =>
      rw [hf] at hf'
      cases hf'
      cases habandon
    | silent l tl hl t ht => cases hl

/-- What clients see of a run: what they have handed over, what they were answered, and what was
over before they began something else. -/
def history (E : EventLoop σ) (capacity : Option ℕ+) (a : σ) (ls : List (Label σ ρ))
    (w : World Q σ ρ) : History ℕ (Payload σ ρ) (Option (Option ρ)) where
  invoked k p := w.Sent k p
  answered k r := ∃ op r', w.flights[k]? = some ⟨op, .returned (.ok r')⟩ ∧ op.awaits = true
    ∧ r = some r'
  before := Precedes (machine Q ρ E capacity a) ls (fun u k => k < u.flights.length) Over

/-- What ties the operations that have been performed to all the others. -/
structure LinearizedBy (E : EventLoop σ) (a : σ) (w : World Q σ ρ) (lin : List (Performed σ ρ)) :
    Prop where
  request : RequestInv w
  kept : HistoryInv w
  enrolled : EnrolledInv w
  order : LoopOrder E a w.task.loop w.popped
  linear : LinearInv E a w lin

theorem linearizedBy_init (E : EventLoop σ) (capacity : Option ℕ+) (a : σ) :
    LinearizedBy E a (init Q ρ capacity a) [] where
  request := requestInv_init capacity a
  kept := historyInv_init capacity a
  enrolled := enrolledInv_init capacity a
  order := loopOrder_init E a
  linear := linearInv_init E capacity a

theorem linearizedBy_step (hE : E.onStream = false) (hinv : LinearizedBy E a w lin)
    (h : step E w l = some w') : ∃ new, LinearizedBy E a w' (lin ++ new) := by
  have horder : LoopOrder E a w'.task.loop w'.popped := by
    obtain ⟨v, hact, rfl⟩ := step_cases h
    simpa using order_act hE hinv.order hact
  obtain ⟨new, hnew⟩ := linearInv_step hE hinv.order horder hinv.linear h
  exact ⟨new, requestInv_step hinv.request h, historyInv_step hinv.kept h,
    enrolledInv_step hinv.enrolled h, horder, hnew⟩

/-- What was performed was popped, and so accepted, in this order. -/
theorem LinearizedBy.performed_le (hinv : LinearizedBy E a w lin) :
    lin.map Point.id <+: w.popped.map Envelope.client := by
  have hle := hinv.linear.performed.le.map Envelope.client
  rwa [List.map_map] at hle

theorem LinearizedBy.popped_le (hinv : LinearizedBy E a w lin) :
    (w.popped.map Envelope.client).Sublist (w.accepted.map Envelope.client) :=
  ((List.sublist_append_left _ _).trans hinv.kept.ordered).map _

theorem over_kept {capacity : Option ℕ+} {ls : List (Label σ ρ)} {u : World Q σ ρ}
    (hu : (machine Q ρ E capacity a).Reaches ls u) (h : (machine Q ρ E capacity a).Run ls w) {k : ℕ}
    {op : Operation σ ρ} {res : Except ActorError (Option ρ)}
    (hf : u.flights[k]? = some ⟨op, .returned res⟩) : w.flights[k]? = some ⟨op, .returned res⟩ := by
  obtain ⟨pre, hle, hrun⟩ := hu
  refine Machine.Run.related
    (r := fun s t : World Q σ ρ => s.flights[k]? = some ⟨op, .returned res⟩ →
      t.flights[k]? = some ⟨op, .returned res⟩)
    (fun _ h => h) (fun _ _ _ hst htu h => htu (hst h)) (fun _ _ _ hstep h => over_step hstep h)
    hle hrun h hf

theorem enrolledInv_of_reaches {capacity : Option ℕ+} {ls : List (Label σ ρ)} {u : World Q σ ρ}
    (h : (machine Q ρ E capacity a).Reaches ls u) : RequestInv u ∧ EnrolledInv u :=
  h.invariant (I := fun u => RequestInv u ∧ EnrolledInv u)
    ⟨requestInv_init capacity a, enrolledInv_init capacity a⟩
    fun _ _ _ hinv hstep => ⟨requestInv_step hinv.1 hstep, enrolledInv_step hinv.2 hstep⟩

/-- An operation that is over enters the mailbox no more. -/
theorem accepted_of_over {capacity : Option ℕ+} {ls : List (Label σ ρ)} {u : World Q σ ρ}
    (hu : (machine Q ρ E capacity a).Reaches ls u) (h : (machine Q ρ E capacity a).Run ls w) {k : ℕ}
    (hk : k ∈ w.accepted.map Envelope.client) (hover : Over u k) :
    k ∈ u.accepted.map Envelope.client := by
  obtain ⟨op, res, hf⟩ := hover
  have henrolled := (enrolledInv_of_reaches hu).2.enrolled k _ hf
  rcases res with e | r
  · -- an error other than `Canceled` says that the mailbox has never accepted the payload
    have hok := (enrolledInv_of_reaches h.reaches).1.ok.flight k _ (over_kept hu h hf)
    rcases hok.2.2 with rfl | hnever
    · exact henrolled rfl
    · exact absurd hk hnever
  · exact henrolled rfl

/-- **Payloads are accepted in real time.** -/
theorem accepted_respects {capacity : Option ℕ+} {ls : List (Label σ ρ)}
    (h : (machine Q ρ E capacity a).Run ls w) : (w.accepted.map Envelope.client).Pairwise
      fun i j => ¬ (history E capacity a ls w).before j i :=
  Run.log_respects h (fun _ _ _ => accepted_client_le)
    (fun _ hu => (enrolledInv_of_reaches hu).1.ok.bounded)
    (fun _ hu _ hk hover => accepted_of_over hu h hk hover)
    (enrolledInv_of_reaches h.reaches).1.ok.distinct

/-- What has been performed explains what clients see. -/
theorem LinearizedBy.linearizes (hinv : LinearizedBy E a w lin) {capacity : Option ℕ+}
    {ls : List (Label σ ρ)} (h : (machine Q ρ E capacity a).Run ls w) :
    Linearizes (E.object a) (history E capacity a ls w) lin where
  legal := hinv.linear.legal
  once := hinv.request.ok.distinct.sublist (hinv.performed_le.sublist.trans hinv.popped_le)
  invoked p hp := by
    have hmem : Performed.envelope p ∈ w.popped :=
      hinv.linear.performed.le.subset (List.mem_map_of_mem hp)
    exact hinv.enrolled.sent (Performed.envelope p)
      (hinv.kept.ordered.subset (List.mem_append_left _ hmem))
  answered k r := by
    rintro ⟨op, r', hf, hawaits, rfl⟩
    have hdone : (k, r') ∈ w.completed := hinv.request.ok.flight k _ hf hawaits
    rw [hinv.linear.recorded] at hdone
    obtain ⟨p, hp, hrecord⟩ := List.mem_filterMap.mp hdone
    obtain ⟨r, hres, hpr⟩ := Option.map_eq_some_iff.mp hrecord
    cases hpr
    exact ⟨p, hp, rfl, hres⟩
  order := (accepted_respects h).sublist (hinv.performed_le.sublist.trans hinv.popped_le)

/-- An operation that has been performed has not failed, but for a response that it did not
leave. -/
theorem LinearizedBy.error (hinv : LinearizedBy E a w lin) {p : Performed σ ρ} (hp : p ∈ lin)
    {op : Operation σ ρ} {e : ActorError}
      (hf : w.flights[p.id]? = some ⟨op, .returned (.error e)⟩) :
    e = .canceled ∧ p.res = none := by
  obtain ⟨-, hdone, he⟩ := hinv.request.ok.flight p.id _ hf
  have hentered : p.id ∈ w.accepted.map Envelope.client :=
    (hinv.performed_le.sublist.trans hinv.popped_le).subset (List.mem_map_of_mem hp)
  refine ⟨he.resolve_right fun hnever => hnever hentered, ?_⟩
  by_contra hres
  obtain ⟨r, hr⟩ := Option.ne_none_iff_exists'.mp hres
  have hmem : (p.id, r) ∈ w.completed := by
    rw [hinv.linear.recorded]
    exact List.mem_filterMap.mpr ⟨p, hp, by simp [Performed.record, hr]⟩
  exact hdone (List.mem_map_of_mem hmem)

/-- What was accepted before an operation that has been performed is performed too, if it is not
lost. -/
theorem LinearizedBy.before (hinv : LinearizedBy E a w lin) {capacity : Option ℕ+}
    {ls : List (Label σ ρ)} (h : (machine Q ρ E capacity a).Run ls w) {p : Performed σ ρ}
      (hp : p ∈ lin)
    {k : ℕ} (hk : k ∈ w.accepted.map Envelope.client)
    (hbefore : (history E capacity a ls w).before k p.id) : Missing w k ∨ k ∈ lin.map Point.id := by
  by_cases hmissing : Missing w k
  · exact .inl hmissing
  right
  by_contra hnot
  obtain ⟨rest, hrest⟩ := hinv.performed_le
  have hkept : k ∈ (w.popped ++ w.queued).map Envelope.client := by
    by_contra hgone
    exact hmissing ⟨hk, hgone⟩
  have horder := (accepted_respects h).sublist (hinv.kept.ordered.map Envelope.client)
  rw [List.map_append, ← hrest, List.append_assoc] at horder hkept
  -- then it stands behind the operation
  have hbehind := (List.mem_append.mp hkept).resolve_left hnot
  exact (List.pairwise_append.mp horder).2.2 p.id (List.mem_map_of_mem hp) k hbehind hbefore

/-- **An actor is a linearizable object.** For every capacity and every interleaving the operations
of the clients can be put in one order, which only grows while the run goes on: the actor value
takes them one after the other with the responses the clients were given, and none comes after one
that was begun only when it was over. An operation that failed is not among them, unless it was
canceled without a response; and one that has returned `Ok` is passed over only if the mailbox has
dropped its payload. -/
theorem linearizable (E : EventLoop σ) (hE : E.onStream = false) (capacity : Option ℕ+) (a : σ) :
    ∃ lin : List (Label σ ρ) → List (Performed σ ρ),
      (∀ pre ls, pre <+: ls → lin pre <+: lin ls)
        ∧ ∀ ls w, (machine Q ρ E capacity a).Run ls w →
          Linearizes (E.object a) (history E capacity a ls w) (lin ls)
            ∧ (∀ p ∈ lin ls, ∀ op e, w.flights[p.id]? = some ⟨op, .returned (.error e)⟩ →
                e = .canceled ∧ p.res = none)
            ∧ ∀ p ∈ lin ls, ∀ k op r, w.flights[k]? = some ⟨op, .returned (.ok r)⟩ →
                (history E capacity a ls w).before k p.id → Missing w k
                  ∨ k ∈ (lin ls).map Point.id := by
  obtain ⟨lin, hgrow, hlin⟩ := exists_growing (M := machine Q ρ E capacity a)
    (P := LinearizedBy E a) (linearizedBy_init E capacity a)
    fun _ _ _ _ hinv hstep => linearizedBy_step hE hinv hstep
  refine ⟨lin, hgrow, fun ls w h => ?_⟩
  have hinv := hlin ls w h
  refine ⟨hinv.linearizes h, fun p hp op e hf => hinv.error hp hf, fun p hp k op r hf hbefore => ?_⟩
  exact hinv.before h hp (hinv.enrolled.enrolled k _ hf rfl) hbefore

/-- Two calls overlap, and the one that was begun last is accepted first. -/
def overlappingRun : List (Label ℕ ℕ) :=
  [.begin (Addr.call fun n => .completed (n + 1) (some n)),
    .begin (Addr.call fun n => .completed (n * 2) (some n)), .advance 1, .advance 1, .advance 0,
    .advance 0, .poll, .poll, .receive, .poll, .receive, .poll, .advance 0, .advance 1]

theorem linearizable_overlapping :
    (unboundedActor.after overlappingRun rfl).flights.map Flight.stage
        = [.returned (.ok (some 14)), .returned (.ok (some 7))]
      ∧ ∃ lin : List (Performed ℕ ℕ),
        Linearizes ((EventLoop.fromChannel (.provided 0)).object 7)
          (history (.fromChannel (.provided 0)) none 7 overlappingRun
            (unboundedActor.after overlappingRun rfl)) lin := by
  obtain ⟨lin, -, hlin⟩ :=
    linearizable (Q := ChannelState) (ρ := ℕ) (.fromChannel (.provided 0)) rfl none 7
  exact ⟨rfl, _, (hlin overlappingRun _ (unboundedActor.run_after overlappingRun rfl)).1⟩

end World

end Hannibal
