import Hannibal.Client
import Hannibal.Fold
import Hannibal.Stranding
import Mathlib.Data.List.Nodup

/-!
# Hannibal.Order — exactly-once FIFO execution on the unbounded mailbox

The tasks and restarts `EventLoop::create` begins, against what the default mailbox has accepted.
The mailbox never evicts, so what was accepted is what was popped followed by what is queued, and
the loop is a fold over what was popped (`Hannibal.Fold`).

* **`OrderInv`** — the invariant that ties accepted history, queue and loop together.
* **`fifo_execution`** — the theorem about every run.
-/

namespace Hannibal

open Lts Chan
open AsyncChannel (state)

variable {Q : Type → Type} [AsyncChannel Q] {σ ρ : Type}

/-- The operation a trace entry belongs to; the loop's own entries have none. -/
def Taken.operation : Taken → Option ℕ
  | .task k | .restart k | .stop k => some k
  | _ => none

theorem operation_taken (e : Envelope σ ρ) : e.taken.operation = some e.client := by
  rcases e with ⟨k, payload⟩
  cases payload <;> rfl

namespace World

/-- The accepted payloads that come before the first accepted `Stop`. -/
def due (w : World Q σ ρ) : List (Envelope σ ρ) := work w.accepted

/-- Some `Context::stop` (or another upgrade) has failed because the actor has no sender left. -/
def SawDropped (w : World Q σ ρ) : Prop :=
  ∃ (i : ℕ) (op : Operation σ ρ), w.flights[i]? = some ⟨op, .returned (.error .actorDropped)⟩

/-- What ties the accepted history, the queue and the loop together. -/
structure OrderInv (E : EventLoop σ) (a : σ) (w : World Q σ ρ) : Prop where
  noLoss : NoLoss w
  order : LoopOrder E a w.task.loop w.popped
  capacity : (state w.mailbox).capacity = none
  settled : w.hasSender = false → w.closed = true
  /-- the loop leaves its `while` loop at a `Stop`, or when the mailbox is closed and drained -/
  closing : w.task.loop.pc.closing = true →
    work w.popped ≠ w.popped ∨ (w.queued = [] ∧ w.closed = true)
  dropped : SawDropped w → w.closed = true

theorem orderInv_init (E : EventLoop σ) (a : σ) : OrderInv E a (init Q ρ none a) where
  noLoss := noLoss_init none a
  order := loopOrder_init E a
  capacity := by simp [init, ChannelState.fresh]
  settled h := by simp [hasSender, init] at h
  closing h := by cases h
  dropped := by
    rintro ⟨i, op, h⟩
    simp [init] at h

variable {E : EventLoop σ} {a : σ} {w v w' : World Q σ ρ} {l : Label σ ρ}

/-- The loop leaves its `while` loop in two ways. -/
theorem closing_of_step {s s' : LoopState σ ρ}
    {i : Option (Input σ ρ)} (h : EventLoop.Step E s i s')
    (hclosing : s'.pc.closing = true) :
    (s.pc.closing = true ∧ Input.envelopes i = []) ∨ (∃ k, i = some (.payload ⟨k, .stop⟩))
      ∨ i = some .closed := by
  cases h <;> simp_all [Pc.closing, Input.envelopes]

/-- What a step does to the order of things. -/
theorem order_act (hE : E.onStream = false) (hord : LoopOrder E a w.task.loop w.popped)
    (h : Act E w l v) : LoopOrder E a v.task.loop v.popped := by
  -- only three labels feed or move the loop: a poll, a payload, and the end of the mailbox
  cases h with
  | poll t ht =>
    cases ht with
    | advance s' hs hnotify => simpa [Input.envelopes] using loopOrder_step hord hE hs
  | pop e q t hq ht =>
    cases ht with
    | receive i s' hs => exact loopOrder_step hord hE hs
  | closed t hq ht =>
    cases ht with
    | receive i s' hs => simpa [Input.envelopes] using loopOrder_step hord hE hs
  | silent l tl hl t ht =>
    cases ht with
    | receive i s' hs =>
      have hstep := loopOrder_step hord hE hs
      have hnone : Input.envelopes (some i) = [] := by cases l <;> cases hl <;> rfl
      simpa [hnone] using hstep
    | lower hstop hrun hpc => exact hord
    | fire hstop hrun hpc => exact hord
    | dropCtx hend hctx => exact hord
    | _ => cases l <;> cases hl
  | dropFuture t ht =>
    cases ht with
    | drop hend hnotify =>
      rw [answer_task, answer_popped]
      exact ⟨hord.begun_eq, nofun, trivial⟩
  | dropRx t ht =>
    cases ht with
    | dropRx hend hrx => exact hord
  | accepted i op hf evicted q henq =>
    rw [accept_task, accept_popped]
    exact hord
  | _ => exact hord

/-- A failed upgrade has found the mailbox closed, or no sender, and then it is closed too. -/
theorem dropped_act (hinv : OrderInv E a w) (h : Act E w l v) (hsaw : SawDropped v) :
    w.closed = true := by
  obtain ⟨i, op, hg⟩ := hsaw
  generalize hsame : (⟨op, .returned (.error .actorDropped)⟩ : Flight σ ρ) = g at hg
  rcases flight_of_act h hg with hold | ⟨f, hf, hmove⟩ | ⟨op', -, rfl⟩
  · exact hinv.dropped ⟨i, op, hsame ▸ hold⟩
  -- of all the ways to return an error this one comes from a failed upgrade
  · cases hmove with
    | dropped op hup =>
      simp only [upgradable, Bool.and_eq_false_iff, Bool.not_eq_false'] at hup
      exact hup.elim id hinv.settled
    | stopped op hrun => rcases op.rejected_cases with hr | hr <;> simp [hr] at hsame
    | refused op hno => rcases op.rejected_cases with hr | hr <;> simp [hr] at hsame
    | upgraded op hup => cases hchecks : op.checks <;> simp [Operation.entry, hchecks] at hsame
    | accepted op hopen =>
      cases hawaits : op.awaits <;> simp [Operation.afterAccept, hawaits] at hsame
    | _ => simp at hsame
  · rcases op' with ⟨via, checks, rejected, primitive, payload, awaits⟩
    cases via <;> cases checks <;> cases hsame

/-- A loop that was closing before is closing still, as long as nothing is popped: the queue of a
closed mailbox only shrinks. -/
theorem closing_kept (hinv : OrderInv E a w) (h : Act E w l v)
    (hwas : w.task.loop.pc.closing = true) (hpopped : v.popped = w.popped) :
    work v.popped ≠ v.popped ∨ (v.queued = [] ∧ v.closed = true) := by
  rcases hinv.closing hwas with hstop | ⟨hnil, hclosed⟩
  · exact .inl (hpopped ▸ hstop)
  · refine .inr ⟨?_, closed_of_act h hclosed⟩
    cases traffic_of_act h with
    | kept hq ha hp => rw [hq, hnil]
    | accept i op hl hf hopen hfull hq ha hp => simp [hclosed] at hopen
    | evict i op hl hf hforce hopen hfull hq ha hp => simp [hclosed] at hopen
    | pop e hl hq ha hp => simp [hnil] at hq

/-- Where the loop has left its `while` loop, nothing of the work is left. -/
theorem closing_act (hinv : OrderInv E a w) (h : Act E w l v)
    (hclosing : v.task.loop.pc.closing = true) :
    work v.popped ≠ v.popped ∨ (v.queued = [] ∧ v.closed = true) := by
  have hkeep := closing_kept hinv h
  -- the loop was closing before, or it has just popped a `Stop`, or seen the end of the mailbox
  cases h with
  | poll t ht =>
    cases ht with
    | advance s' hs hnotify =>
      simp only [answer_task, withTask_task] at hclosing
      rcases closing_of_step hs hclosing with ⟨hwas, -⟩ | ⟨k, hk⟩ | hk
      · exact hkeep hwas (by simp)
      · cases hk
      · cases hk
  | pop e q t hq ht =>
    cases ht with
    | receive i s' hs =>
      rcases closing_of_step hs hclosing with ⟨-, hnone⟩ | ⟨k, hk⟩ | hk
      · cases hnone
      · cases hk
        have hwork : work w.popped = w.popped :=
          hinv.order.work_eq (by rw [hs.receiving]; rfl)
        left
        show work (w.popped ++ [⟨k, .stop⟩]) ≠ w.popped ++ [⟨k, .stop⟩]
        rw [work_append_singleton hwork]
        simp [Payload.isStop]
      · cases hk
  | closed t hq ht => exact .inr (AsyncChannel.tryRecv_closed hq)
  | silent l tl hl t ht =>
    cases ht with
    | receive i s' hs =>
      rcases closing_of_step hs hclosing with ⟨hwas, -⟩ | ⟨k, hk⟩ | hk
      · exact hkeep hwas rfl
      · cases l <;> cases hl <;> cases hk
      · cases l <;> cases hl <;> cases hk
    | lower hstop hrun hpc => exact hkeep hclosing rfl
    | fire hstop hrun hpc => exact hkeep hclosing rfl
    | dropCtx hend hctx => exact hkeep hclosing rfl
    | _ => cases l <;> cases hl
  | dropFuture t ht =>
    cases ht with
    | drop hend hnotify =>
      simp only [answer_task, withTask_task] at hclosing
      cases hclosing
  | dropRx t ht =>
    cases ht with
    | dropRx hend hrx => exact hkeep hclosing rfl
  | accepted i op hf evicted q henq =>
    rw [accept_task] at hclosing
    exact hkeep hclosing (accept_popped ..)
  | _ => exact hkeep hclosing rfl

/-- **The step lemma of the order.** -/
theorem orderInv_step (hE : E.onStream = false) (hinv : OrderInv E a w) (h : step E w l = some w') :
    OrderInv E a w' := by
  have hnoLoss := noLoss_step hinv.noLoss h (not_evicts_of_unbounded hinv.capacity)
  obtain ⟨v, hact, rfl⟩ := step_cases h
  refine ⟨hnoLoss, ?_, ?_, ?_, ?_, ?_⟩
  · simpa using order_act hE hinv.order hact
  · rw [settle_capacity, capacity_of_act hact]
    exact hinv.capacity
  · intro hnone
    rw [settle_hasSender] at hnone
    simp [settle_closed, hnone]
  · intro hclosing
    rw [settle_task] at hclosing
    rw [settle_popped, settle_queued, settle_closed]
    exact (closing_act hinv hact hclosing).imp_right fun ⟨hnil, hclosed⟩ =>
      ⟨hnil, by simp [hclosed]⟩
  -- a closed mailbox stays closed, so who has seen it closed is right from then on
  · rintro ⟨i, op, hf⟩
    rw [settle_flights] at hf
    have hclosed := closed_of_act hact (dropped_act hinv hact ⟨i, op, hf⟩)
    simp [settle_closed, hclosed]

theorem orderInv_of_run (hE : E.onStream = false) {ls : List (Label σ ρ)}
    (h : (machine Q ρ E none a).Run ls w) : OrderInv E a w := by
  refine h.invariant (I := OrderInv E a) (orderInv_init E a) fun s l s' hinv hstep => ?_
  exact orderInv_step hE hinv hstep

/-! ## The consequences for a run

The list of what is due is the work of what was accepted. While the loop is at it the begun
operations are a prefix of it; once the loop has closed, or the mailbox is drained, they are all of
it. -/

/-- What a loop has begun are the payloads of its work, whether it has popped all of them or not. -/
theorem OrderInv.begun_le (hinv : OrderInv E a w) :
    begun w.task.loop.trace <+: w.due.map Envelope.taken := by
  rw [hinv.order.begun_eq]
  refine List.IsPrefix.map _ ?_
  unfold due
  rw [hinv.noLoss.kept]
  by_cases hstop : work w.popped = w.popped
  · rw [hstop]
    unfold work at hstop ⊢
    rw [List.takeWhile_append, hstop, if_pos rfl]
    exact List.prefix_append _ _
  · rw [work_append hstop]

/-- Where nothing is left to pop, or a `Stop` has been popped, everything due has been begun. -/
theorem OrderInv.due_eq (hinv : OrderInv E a w)
    (h : work w.popped ≠ w.popped ∨ w.queued = []) : w.due = work w.popped := by
  unfold due
  rw [hinv.noLoss.kept]
  rcases h with hstop | hnil
  · exact work_append hstop _
  · rw [hnil, List.append_nil]

/-- A closed mailbox accepts nothing any more. -/
theorem accepted_of_closed {pre ls : List (Label σ ρ)} {capacity : Option ℕ+} {u : World Q σ ρ}
    (hle : pre <+: ls) (hu : (machine Q ρ E capacity a).Run pre u)
    (hw : (machine Q ρ E capacity a).Run ls w) (hclosed : u.closed = true) :
    w.closed = true ∧ w.accepted = u.accepted := by
  let r : World Q σ ρ → World Q σ ρ → Prop := fun s t =>
    s.closed = true → t.closed = true ∧ t.accepted = s.accepted
  have hstep : ∀ s l t, step E s l = some t → r s t := by
    intro s l t h hs
    have htraffic := traffic_of_step h
    obtain ⟨v, hact, rfl⟩ := step_cases h
    refine ⟨by simp [settle_closed, closed_of_act hact hs], ?_⟩
    cases htraffic with
    | kept hq ha hp => exact ha
    | accept i op hl hf hopen hfull hq ha hp => simp [hs] at hopen
    | evict i op hl hf hforce hopen hfull hq ha hp => simp [hs] at hopen
    | pop e hl hq ha hp => exact ha
  -- the relation composes, so it holds of each pair of states of the run
  have hrel : r u w := by
    refine Machine.Run.related (fun s hs => ⟨hs, rfl⟩) (fun x y z hxy hyz hx => ?_) hstep hle hu hw
    obtain ⟨hy, hxy⟩ := hxy hx
    obtain ⟨hz, hyz⟩ := hyz hy
    exact ⟨hz, hyz.trans hxy⟩
  exact hrel hclosed

/-- What an actor with an unbounded mailbox has done at some moment of a run. -/
structure FifoExecution (E : EventLoop σ) (a : σ) (w : World Q σ ρ) : Prop where
  /-- the loop begins the accepted tasks and restarts before the first `Stop`, in that order -/
  in_order : begun w.task.loop.trace <+: w.due.map Envelope.taken
  /-- and each of them once -/
  once : (begun w.task.loop.trace).Nodup
  /-- a loop that waits for its next payload has begun all of them -/
  idle : w.task.loop.pc = .receiving → w.queued = [] →
    begun w.task.loop.trace = w.due.map Envelope.taken
  /-- and so has one that calls its final `stopped`, or has returned the actor -/
  complete : w.task.loop.pc.closing = true →
    begun w.task.loop.trace = w.due.map Envelope.taken
  /-- joining yields the fold of exactly these tasks and restarts over the initial actor -/
  result : ∀ b, w.task.joined = some (some b) →
    ∃ p n, E.folded a w.due = some p ∧ E.runStopped p = some (b, n)
  /-- a queued payload is popped when the loop gets to it, the oldest first -/
  progress : w.task.loop.pc = .receiving → ∀ e rest, w.queued = e :: rest →
    ∃ w', step E w .receive = some w' ∧ w'.popped = w.popped ++ [e]
  /-- after an `ActorDropped` the drained loop goes on to its final `stopped` -/
  ends : SawDropped w → w.task.loop.pc = .receiving → w.queued = [] →
    ∃ w', step E w .receive = some w' ∧ w'.task.loop.pc = .stopping

theorem OrderInv.fifoExecution (hinv : OrderInv E a w) (hreq : RequestInv w) :
    FifoExecution E a w where
  in_order := hinv.begun_le
  once := by
    have hclients : (w.accepted.map Envelope.client).Nodup := hreq.ok.distinct
    have hall : ((w.accepted.map Envelope.taken).map Taken.operation).Nodup := by
      rw [List.map_map, show Taken.operation ∘ Envelope.taken = some ∘
        (Envelope.client (σ := σ) (ρ := ρ))
        from funext operation_taken, ← List.map_map]
      exact List.Nodup.map (Option.some_injective _) hclients
    have hle : begun w.task.loop.trace <+: w.accepted.map Envelope.taken :=
      hinv.begun_le.trans ((work_le w.accepted).map _)
    exact (List.Nodup.of_map _ hall).sublist hle.sublist
  idle hpc hnil := by
    rw [hinv.due_eq (.inr hnil)]
    exact hinv.order.begun_eq
  complete hclosing := by
    rw [hinv.due_eq ((hinv.closing hclosing).imp_right And.left)]
    exact hinv.order.begun_eq
  result b hjoined := by
    have hpc : w.task.loop.pc = .returned (.ok b) := by
      unfold LoopTask.joined at hjoined
      split at hjoined <;> simp_all
    have hat := hinv.order.foldedAt
    rw [FoldedAt, hpc] at hat
    have hclosing : w.task.loop.pc.closing = true := by rw [hpc]; rfl
    rw [hinv.due_eq ((hinv.closing hclosing).imp_right And.left)]
    exact hat
  progress hpc e rest hq := by
    obtain ⟨s, hs⟩ := E.exists_step_payload hpc e
    obtain ⟨w', hstep, hpop, -⟩ := receive_queued hq hs
    exact ⟨w', hstep, hpop⟩
  ends hsaw hpc hnil := receive_closed hpc hnil (hinv.dropped hsaw)

/-- **Exactly-once FIFO execution on the unbounded mailbox**, for every actor, any number of clients
and every interleaving. A client that has seen `ActorDropped` has seen all that will ever be
accepted. -/
theorem fifo_execution (E : EventLoop σ) (hE : E.onStream = false) (a : σ) (ls : List (Label σ ρ))
    (w : World Q σ ρ) (h : (machine Q ρ E none a).Run ls w) :
    FifoExecution E a w
      ∧ ∀ pre u, pre <+: ls → (machine Q ρ E none a).Run pre u → SawDropped u →
        w.accepted = u.accepted := by
  have hreq : RequestInv w :=
    h.invariant (I := RequestInv) (requestInv_init none a) fun _ _ _ => requestInv_step
  refine ⟨(orderInv_of_run hE h).fifoExecution hreq, fun pre u hle hu hsaw => ?_⟩
  exact (accepted_of_closed hle hu h ((orderInv_of_run hE hu).dropped hsaw)).2

/-- A message, a restart, a message, a `Stop` and a message behind it; then the loop runs to its
end. -/
def orderedRun : List (Label ℕ ℕ) :=
  [.begin (Addr.send fun n => .completed (n + 1) none), .advance 0, .advance 0,
    .begin Addr.restart, .advance 1, .advance 1,
    .begin (Sender.send fun n => .completed (n * 2) none), .advance 2, .advance 2,
    .begin Addr.stop, .advance 3, .advance 3,
    .begin (Addr.send fun n => .completed (n + 1) none), .advance 4, .advance 4,
    .poll, .poll, .receive, .poll, .receive, .poll, .poll, .receive, .poll, .receive, .poll, .lower,
    .fire, .poll]

theorem fifo_execution_ordered :
    begun (unboundedActor.after orderedRun rfl).task.loop.trace = [.task 0, .restart 1, .task 2]
      ∧ (unboundedActor.after orderedRun rfl).task.joined = some (some 16)
      ∧ FifoExecution (.fromChannel (.provided 0)) 7 (unboundedActor.after orderedRun rfl) :=
  ⟨rfl, rfl, (fifo_execution _ rfl 7 orderedRun _ (unboundedActor.run_after orderedRun rfl)).1⟩

end World

end Hannibal
