import Hannibal.Requests

/-!
# Hannibal.Stranding — requests that a loop leaves behind

A request is answered when its task completes, and canceled when its task is dropped. A task that is
still in the mailbox when the loop leaves it for good meets neither fate: the closed channel keeps
it as long as there is a handle, and whoever awaits it has one.

* **`EventLoop.fails`** — the call the loop is in is its last.
* **`World.forfeits`** — the steps that leave a request behind, told by what comes before it: a
  `Stop` ahead of it in the mailbox, or a loop that ends in some other way while it is queued.
* **`Stranded`**, **`stranded_step`** — a request the loop will not get to, and where it comes from.
* **`requests_resolved`** — when every request is resolved once the actor is gone.
-/

namespace Hannibal

open Lts Chan
open AsyncChannel (state)

variable {Q : Type → Type} {σ ρ : Type}

/-! ## How a loop fails

Besides a `Stop` or the end of the mailbox, which it takes from its receiver, a loop can only end by
the call it is in: what the hook or the handler does decides. -/

def HookEnd.panics {α : Type} : HookEnd α → Bool
  | .panicked => true
  | .returned _ | .pends => false

/-- The call the loop is in is its last: `started` returns an error, a handler runs into a fatal
timeout, or the call panics. -/
def EventLoop.fails (E : EventLoop σ) (s : LoopState σ ρ) : Bool :=
  match s.pc with
  | .starting | .refreshStarting =>
    match E.actor.started s.clock s.actor with
    | .returned (_, .error _) | .panicked => true
    | .returned (_, .ok ()) | .pends => false
  | .running _ f =>
    match timeoutFut E.config.timeout (f s.actor) with
    | some (.overruns _) => E.config.failOnTimeout
    | some .panicked => true
    | some (.completed _ _) | none => false
  | .refreshStopping =>
    match E.actor.stopped s.clock s.actor with
    | .returned _ =>
      decide (E.strategy = .recreateFromDefault) && (E.actor.default (s.clock + 1)).panics
    | fut => fut.panics
  | .finishing => (E.actor.finished s.clock s.actor).panics
  | _ => false

section

variable {E : EventLoop σ} {s s' : LoopState σ ρ}

theorem final_afterStarted (hpc : s.pc = .starting ∨ s.pc = .refreshStarting)
    (h : E.afterStarted s = some s') : s'.pc.final = E.fails s := by
  have hfails : E.fails s = match E.actor.started s.clock s.actor with
      | .returned (_, .error _) | .panicked => true
      | .returned (_, .ok ()) | .pends => false := by
    rcases hpc with hpc | hpc <;> rw [EventLoop.fails, hpc]
  rw [hfails]
  unfold EventLoop.afterStarted at h
  split at h <;> cases h <;> simp_all [Pc.final]

theorem final_afterTask {c : Call} {f : TaskFn σ ρ} (hpc : s.pc = .running c f)
    (h : E.afterTask s c f = some s') : s'.pc.final = E.fails s := by
  simp only [EventLoop.fails, hpc]
  unfold EventLoop.afterTask at h
  split at h
  · cases h
  · next a r hfut => cases h; simp [hfut, Pc.final]
  · next a hfut =>
    -- the timeout is fatal or not
    split at h
    · next hfail => cases h; simp [hfut, hfail, Pc.final]
    · next hfail => cases h; simp [hfut, hfail, Pc.final]
  · next hfut => cases h; simp [hfut, Pc.final]

theorem final_afterHook {h : Hook} {fut : HookEnd σ} {pc : Pc σ ρ} (hpc : pc.final = false)
    (hs : EventLoop.afterHook s h fut pc = some s') : s'.pc.final = fut.panics := by
  cases fut with
  | returned a => cases hs; exact hpc
  | panicked => cases hs; rfl
  | pends => cases hs

theorem final_refreshStopped (hpc : s.pc = .refreshStopping) (h : E.refreshStopped s = some s') :
    s'.pc.final = E.fails s := by
  simp only [EventLoop.fails, hpc]
  unfold EventLoop.refreshStopped at h
  split at h
  · next hstopped => cases h; simp [hstopped, HookEnd.panics, Pc.final]
  · cases h
  -- a new actor value is only made on this strategy, and making it may panic
  · next a hstopped =>
    simp only [hstopped]
    cases hstrategy : E.strategy with
    | nonRestartable | restartOnly =>
      simp only [hstrategy, Option.some.injEq] at h
      subst h
      simp [Pc.final]
    | recreateFromDefault =>
      simp only [hstrategy, LoopState.leave_clock] at h
      split at h
      · next d hdefault => cases h; simp [hdefault, HookEnd.panics, Pc.final]
      · next hdefault => cases h; simp [hdefault, HookEnd.panics, Pc.final]
      · cases h

/-- **The call the loop is in decides.** Moving on by itself, a loop that still takes payloads goes
on to take them, unless this call fails. -/
theorem final_of_poll (h : E.step s none = some s') (hon : s.pc.final = false) :
    s'.pc.final = E.fails s := by
  unfold EventLoop.step at h
  split at h
  · -- `create_on_stream`
    unfold EventLoop.createOnStream at h
    cases hpc : s.pc <;> simp only [hpc, Option.some.injEq, reduceCtorEq] at h
    case unpolled => subst h; simp [EventLoop.fails, hpc, Pc.final]
    case starting => exact final_afterStarted (.inl hpc) h
    case running c f => exact final_afterTask hpc h
    case finishing =>
      simp only [EventLoop.fails, hpc]
      exact final_afterHook rfl h
    case cancelling | stopping | notifying => simp [hpc, Pc.final] at hon
  · -- `create`
    unfold EventLoop.create at h
    cases hpc : s.pc <;> simp only [hpc, Option.some.injEq, reduceCtorEq] at h
    case unpolled => subst h; simp [EventLoop.fails, hpc, Pc.final]
    case starting => exact final_afterStarted (.inl hpc) h
    case running c f => exact final_afterTask hpc h
    case refreshStopping => exact final_refreshStopped hpc h
    case refreshStarting => exact final_afterStarted (.inr hpc) h
    case cancelling | stopping | notifying => simp [hpc, Pc.final] at hon

end

namespace World

variable [AsyncChannel Q]

/-! ## Stranded requests

What becomes of a queued request depends on what is ahead of it: the loop pops it, unless it leaves
its receiver before. So a request is lost when it comes to stand behind a `Stop`, or in the mailbox
of a loop that is on its way out. -/

/-- An envelope that holds a request for a response. -/
def asks (w : World Q σ ρ) (e : Envelope σ ρ) : Bool := (w.ops[e.client]?).any Operation.awaits

/-- Nothing keeps the payload of `op` out of the mailbox. -/
def hasRoomFor (w : World Q σ ρ) (op : Operation σ ρ) : Bool :=
  !w.closed && (!w.full || decide (op.primitive = .forceSend))

/-- Some `Stop` is queued. -/
def stopAhead (w : World Q σ ρ) : Bool := w.queued.any fun e => e.payload.isStop

/-- **What leaves a request behind.** A request enters the mailbox behind a `Stop`, or of a loop
that is on its way out; or a request is queued when the call the loop is in fails, when a loop on a
stream takes a restart, or when the future of a loop that still takes payloads is dropped. -/
def forfeits (E : EventLoop σ) (w : World Q σ ρ) : Label σ ρ → Bool
  | .advance i =>
    match w.flights[i]? with
    | some ⟨op, .enqueuing⟩ =>
      op.awaits && w.hasRoomFor op && (w.stopAhead || w.task.loop.pc.final)
    | _ => false
  | .poll => E.fails w.task.loop && w.queued.any w.asks
  | .receive =>
    match w.queued with
    | ⟨_, .restart⟩ :: rest => E.onStream && rest.any w.asks
    | _ => false
  | .dropFuture => !w.task.loop.pc.final && w.queued.any w.asks
  | _ => false

/-- The loop will not get to the queued request `e`: it takes nothing any more, or there is a `Stop`
ahead of it. -/
structure Stranded (w : World Q σ ρ) (e : Envelope σ ρ) : Prop where
  queued : e ∈ w.queued
  asks : w.asks e = true
  lost : w.task.loop.pc.final = true ∨ ∃ e', e'.payload.isStop = true ∧ [e', e].Sublist w.queued

/-- How a loop leaves its receiver. -/
inductive Leaves (E : EventLoop σ) (w : World Q σ ρ) : Label σ ρ → World Q σ ρ → Prop where
  | failed {v : World Q σ ρ} (hfails : E.fails w.task.loop = true) (hq : v.queued = w.queued) :
      Leaves E w .poll v
  | stopped {v : World Q σ ρ} (k : ℕ) (hq : w.queued = ⟨k, .stop⟩ :: v.queued) :
      Leaves E w .receive v
  | closed {v : World Q σ ρ} (hq : w.queued = []) (hv : v.queued = []) : Leaves E w .receive v
  | restarted {v : World Q σ ρ} (hstream : E.onStream = true) (k : ℕ)
      (hq : w.queued = ⟨k, .restart⟩ :: v.queued) : Leaves E w .receive v
  | dropped {v : World Q σ ρ} (hq : v.queued = w.queued) : Leaves E w .dropFuture v

variable {E : EventLoop σ} {w v w' : World Q σ ρ} {l : Label σ ρ} {e : Envelope σ ρ}

/-- What a poll does to the loop. -/
theorem loop_of_poll (h : step E w .poll = some w') :
    E.step w.task.loop none = some w'.task.loop := by
  obtain ⟨v, hv, rfl⟩ := Option.map_eq_some_iff.mp h
  obtain ⟨t, ht, rfl⟩ := Option.map_eq_some_iff.mp hv
  simp only [LoopTask.step] at ht
  split at ht
  · cases ht
  · obtain ⟨s, hs, rfl⟩ := Option.map_eq_some_iff.mp ht
    rw [settle_task, answer_task, withTask_task]
    exact hs

/-- **No loop leaves its receiver in any other way.** -/
theorem leaves_of_step (h : step E w l = some w') (hon : w.task.loop.pc.final = false)
    (hoff : w'.task.loop.pc.final = true) : Leaves E w l w' := by
  have hkept : ∀ {v : World Q σ ρ}, Act E w l v → v.task = w.task → ¬ v.task.loop.pc.final = true :=
    fun _ hsame => by simp [hsame, hon]
  obtain ⟨v, hact, rfl⟩ := step_cases h
  rw [settle_task] at hoff
  have hv := hact
  cases hact with
  | poll t ht =>
    refine .failed ?_ (by rw [settle_queued]; simp [World.queued])
    rw [← final_of_poll (loop_of_poll h) hon, settle_task]
    exact hoff
  -- of the payloads only `Stop` makes it leave, and `Restart` on a stream
  | pop e q t hq ht =>
    obtain ⟨hqueue, -, -⟩ := AsyncChannel.tryRecv_ok hq
    rcases e with ⟨k, payload⟩
    cases payload with
    | stop => exact .stopped k (by rw [settle_queued]; exact hqueue)
    | task f =>
      -- the loop enters the task
      cases ht with
      | receive i s' hs => cases hs with | takeTask => simp [Pc.final] at hoff
    | restart =>
      cases ht with
      | receive i s' hs =>
        cases hs with
        | panicRestart hpc hstream =>
          exact .restarted hstream k (by rw [settle_queued]; exact hqueue)
        | takeRestart => simp [Pc.final] at hoff
        | keepRestart hpc => simp [hpc, Pc.final] at hoff
  | closed t hq ht =>
    obtain ⟨hnil, -⟩ := AsyncChannel.tryRecv_closed hq
    exact .closed hnil (by rw [settle_queued]; exact hnil)
  | silent l tl hl t ht =>
    cases ht with
    | receive i s' hs =>
      cases l <;> cases hl
      · cases hs with | takeItem => simp [Pc.final] at hoff
      · cases hs with | takeStreamEnd => simp [Pc.final] at hoff
    | advance s' hs => cases l <;> cases hl
    | drop => cases l <;> cases hl
    | _ => simp_all [LoopTask.lower, LoopTask.fire]
  | dropFuture t ht => exact .dropped (by rw [settle_queued]; simp [World.queued])
  | dropRx t ht =>
    cases ht with
    | dropRx => simp [hon] at hoff
  | accepted i op hf evicted q henq => exact absurd hoff (hkept hv (by simp))
  | _ => exact absurd hoff (hkept hv rfl)

/-! ## Where stranded requests come from

A step strands a request only if it is one of those above, and on an unbounded mailbox each of them
does: there nothing makes room for others, so a request that is stranded stays in the mailbox. -/

omit [AsyncChannel Q] in
theorem asks_of_sent {op : Operation σ ρ} (hop : w.ops[e.client]? = some op) :
    w.asks e = op.awaits := by
  simp [asks, hop]

/-- Whether a queued payload is a request does not change. -/
theorem asks_of_step (hreq : RequestInv w) (h : step E w l = some w') (he : e ∈ w.queued) :
    w'.asks e = w.asks e := by
  obtain ⟨v, hact, rfl⟩ := step_cases h
  obtain ⟨op, hop, -⟩ := Option.map_eq_some_iff.mp (hreq.payloads e he)
  rw [asks_of_sent hop, asks_of_sent (w := v.settle) (by simpa using op_of_act hact hop)]

/-- A payload that has just been accepted is a request if its operation awaits a response. -/
theorem asks_of_accept (h : step E w l = some w') {i : ℕ} {op : Operation σ ρ}
    (hf : w.flights[i]? = some ⟨op, .enqueuing⟩) : w'.asks ⟨i, op.payload⟩ = op.awaits := by
  obtain ⟨v, hact, rfl⟩ := step_cases h
  have hop : w.ops[i]? = some op := by simp [ops, hf]
  exact asks_of_sent (by simpa using op_of_act hact hop)

omit [AsyncChannel Q] in
theorem pair_snoc {α : Type} {a b c : α} {q : List α} (h : [a, b].Sublist (q ++ [c])) :
    [a, b].Sublist q ∨ (b = c ∧ a ∈ q) := by
  obtain ⟨l₁, l₂, hl, h₁, h₂⟩ := List.sublist_append_iff.mp h
  rcases List.sublist_singleton.mp h₂ with rfl | rfl
  · rw [List.append_nil] at hl
    exact .inl (hl ▸ h₁)
  · have hpair : [a] ++ [b] = l₁ ++ [c] := hl
    obtain ⟨rfl, hb⟩ := List.append_inj' hpair rfl
    exact .inr ⟨by simpa using hb, h₁.subset (List.mem_singleton_self a)⟩

/-- A `Stop` that is popped takes the loop from its receiver. -/
theorem final_of_pop {v : World Q σ ρ} (h : Act E w l v) (hq : w.queued = e :: v.queued)
    (hp : v.popped = w.popped ++ [e]) (hstop : e.payload.isStop = true) :
    v.task.loop.pc.final = true := by
  have hgrew : v.popped ≠ w.popped := by simp [hp]
  rcases loop_of_act h with ⟨hsame, -⟩ | ⟨x, hs, hfeeds⟩
  · exact absurd hsame hgrew
  · cases hfeeds with
    | payload e' hqueue hpopped =>
      obtain rfl : e = e' := (List.cons.inj (hq.symm.trans hqueue)).1
      rcases e with ⟨k, _ | _ | _⟩
      · cases hstop
      · exact EventLoop.final_of_stop hs
      · cases hstop
    | poll hpopped | closed hnil hclosed hpopped | item f hpopped | streamEnd hpopped =>
      exact absurd hpopped hgrew

/-- **What is stranded was stranded before, or by this step.** -/
theorem stranded_of_step (hreq : RequestInv w) (h : step E w l = some w') (hs : Stranded w' e) :
    Stranded w e ∨ w.forfeits E l = true := by
  -- a request that was queued before
  have hold : e ∈ w.queued → (w.task.loop.pc.final = true
      ∨ ∃ e', e'.payload.isStop = true ∧ [e', e].Sublist w.queued) → Stranded w e := fun he hlost =>
    ⟨he, (asks_of_step hreq h he).symm.trans hs.asks, hlost⟩
  -- a request that has just been accepted
  have hnew : ∀ {i : ℕ} {op : Operation σ ρ}, l = .advance i → w.flights[i]? = some
      ⟨op, .enqueuing⟩ →
      w.hasRoomFor op = true → e = ⟨i, op.payload⟩ →
      (w.stopAhead = true ∨ w.task.loop.pc.final = true) → w.forfeits E l = true := by
    rintro i op rfl hf hroom rfl hlost
    have hawaits : op.awaits = true := (asks_of_accept h hf).symm.trans hs.asks
    simp only [forfeits, hf, hawaits, hroom, Bool.true_and, Bool.or_eq_true]
    exact hlost
  have hany : e ∈ w.queued → w.queued.any w.asks = true := fun he =>
    List.any_eq_true.mpr ⟨e, he, (asks_of_step hreq h he).symm.trans hs.asks⟩
  have hahead : ∀ {e' : Envelope σ ρ}, e'.payload.isStop = true → e' ∈ w.queued →
      w.stopAhead = true :=
    fun hstop he' => List.any_eq_true.mpr ⟨_, he', hstop⟩
  by_cases hleaves : w.task.loop.pc.final = false ∧ w'.task.loop.pc.final = true
  · -- the loop leaves its receiver with this step
    cases leaves_of_step h hleaves.1 hleaves.2 with
    | failed hfails hq =>
      refine .inr ?_
      rw [forfeits, hfails, hany (hq ▸ hs.queued)]
      rfl
    | stopped k hq =>
      refine .inl (hold (hq ▸ List.mem_cons_of_mem _ hs.queued) (.inr ⟨⟨k, .stop⟩, rfl, ?_⟩))
      rw [hq]
      exact (List.singleton_sublist.mpr hs.queued).cons_cons _
    | closed hq hv =>
      have hmem := hs.queued
      rw [hv] at hmem
      cases hmem
    | restarted hstream k hq =>
      refine .inr ?_
      have he : e ∈ w.queued := hq ▸ List.mem_cons_of_mem _ hs.queued
      have hrest : w'.queued.any w.asks = true :=
        List.any_eq_true.mpr ⟨e, hs.queued, (asks_of_step hreq h he).symm.trans hs.asks⟩
      simp [forfeits, hq, hstream, hrest]
    | dropped hq =>
      refine .inr ?_
      rw [forfeits, hleaves.1, hany (hq ▸ hs.queued)]
      rfl
  · -- it had left before, or it is still there and a `Stop` is ahead
    have hlost : w.task.loop.pc.final = true
        ∨ ∃ e', e'.payload.isStop = true ∧ [e', e].Sublist w'.queued := by
      rcases hs.lost with hoff | hpair
      · refine .inl ?_
        by_contra hon
        exact hleaves ⟨by simpa using hon, hoff⟩
      · exact .inr hpair
    cases traffic_of_step h with
    | kept hq ha hp =>
      rw [hq] at hlost
      exact .inl (hold (hq ▸ hs.queued) hlost)
    | accept i op hl hf hopen hfull hq ha hp =>
      have hroom : w.hasRoomFor op = true := by simp [hasRoomFor, hopen, hfull]
      have hmem := hs.queued
      rw [hq] at hlost hmem
      rcases hlost with hoff | ⟨e', hstop, hpair⟩
      · rcases List.mem_append.mp hmem with he | he
        · exact .inl (hold he (.inl hoff))
        · exact .inr (hnew hl hf hroom (List.mem_singleton.mp he) (.inr hoff))
      · rcases pair_snoc hpair with hpair | ⟨he, he'⟩
        · exact .inl (hold (hpair.subset (by simp)) (.inr ⟨e', hstop, hpair⟩))
        · exact .inr (hnew hl hf hroom he (.inl (hahead hstop he')))
    | evict i op hl hf hforce hopen hfull hq ha hp =>
      have hroom : w.hasRoomFor op = true := by simp [hasRoomFor, hopen, hforce]
      have hmem := hs.queued
      rw [hq] at hlost hmem
      rcases hlost with hoff | ⟨e', hstop, hpair⟩
      · rcases List.mem_append.mp hmem with he | he
        · exact .inl (hold (List.mem_of_mem_tail he) (.inl hoff))
        · exact .inr (hnew hl hf hroom (List.mem_singleton.mp he) (.inr hoff))
      · rcases pair_snoc hpair with hpair | ⟨he, he'⟩
        · have hpair : [e', e].Sublist w.queued := hpair.trans (List.tail_sublist _)
          exact .inl (hold (hpair.subset (by simp)) (.inr ⟨e', hstop, hpair⟩))
        · exact .inr (hnew hl hf hroom he (.inl (hahead hstop (List.mem_of_mem_tail he'))))
    -- what is behind the request that is popped stays where it is
    | pop e' hl hq ha hp =>
      refine .inl (hold (hq ▸ List.mem_cons_of_mem _ hs.queued) (hlost.imp_right ?_))
      rintro ⟨s, hstop, hpair⟩
      exact ⟨s, hstop, hq ▸ hpair.cons _⟩

/-- Where there is room for it, a payload is accepted. -/
theorem accepted_of_room {i : ℕ} {op : Operation σ ρ} (h : step E w (.advance i) = some w')
    (hf : w.flights[i]? = some ⟨op, .enqueuing⟩) (hroom : w.hasRoomFor op = true) :
    w'.accepted = w.accepted ++ [⟨i, op.payload⟩] := by
  obtain ⟨v, hact, rfl⟩ := step_cases h
  rw [settle_accepted]
  cases hact with
  | accepted i op' hf' evicted q henq =>
    cases hf.symm.trans hf'
    exact accept_accepted ..
  | refused i op' hf' henq =>
    cases hf.symm.trans hf'
    simp only [hasRoomFor, Bool.and_eq_true, Bool.or_eq_true, Bool.not_eq_true', decide_eq_true_eq]
      at hroom
    rcases enqueue_error henq with hclosed | ⟨htry, hfull⟩
    · exact absurd hroom.1 (by simp [World.closed, hclosed])
    · rcases hroom.2 with hroom | hforce
      · exact absurd hroom (by simp [World.full, hfull])
      · simp [hforce] at htry
  | silent tl t hl ht => cases hl
  | upgraded i op' hf' | dropped i op' hf' | passed i op' hf' | stopped i op' hf'
  | answered i op' r hf' | canceled i op' hf' => cases hf.symm.trans hf'

theorem not_final_of_fails {s : LoopState σ ρ} (h : E.fails s = true) : s.pc.final = false := by
  unfold EventLoop.fails at h
  cases hpc : s.pc <;> simp_all [Pc.final]

/-- A stream loop that takes a restart ends there. -/
theorem final_of_restart {v : World Q σ ρ} {k : ℕ} {rest : List (Envelope σ ρ)}
    (h : Act E w .receive v) (hstream : E.onStream = true) (hq : w.queued = ⟨k, .restart⟩ :: rest) :
    v.queued = rest ∧ v.task.loop.pc.final = true := by
  cases h with
  | pop e q t hrecv ht =>
    obtain ⟨hqueue, -, -⟩ := AsyncChannel.tryRecv_ok hrecv
    obtain ⟨rfl, rfl⟩ := List.cons.inj (hq.symm.trans hqueue)
    cases ht with
    | receive i s' hs =>
      cases hs with
      | panicRestart => exact ⟨rfl, rfl⟩
      | takeRestart hpc hno => simp [hstream] at hno
      | keepRestart hpc hno => simp [hstream] at hno
  | closed t hrecv ht =>
    have hnil : w.queued = [] := (AsyncChannel.tryRecv_closed hrecv).1
    simp [hq] at hnil
  | silent l tl hl t ht => cases hl

/-- **Each of the steps strands a request**, on an unbounded mailbox. -/
theorem stranded_of_forfeits (hreq : RequestInv w) (hcap : (state w.mailbox).capacity = none)
    (h : step E w l = some w') (hl : w.forfeits E l = true) : ∃ e, Stranded w' e := by
  have hroomy : w.full = false := ChannelState.full_of_unbounded hcap
  have htraffic := traffic_of_step h
  obtain ⟨v, hact, hv⟩ := step_cases h
  -- a queued request of a loop that leaves its receiver
  have hleft : w.queued.any w.asks = true → w'.queued = w.queued → w'.task.loop.pc.final = true →
      ∃ e, Stranded w' e := by
    intro hany hq hoff
    obtain ⟨e, he, hasks⟩ := List.any_eq_true.mp hany
    exact ⟨e, hq ▸ he, (asks_of_step hreq h he).trans hasks, .inl hoff⟩
  cases l with
  | advance i =>
    simp only [forfeits] at hl
    split at hl
    · next op hf =>
      simp only [Bool.and_eq_true, Bool.or_eq_true] at hl
      obtain ⟨⟨hawaits, hroom⟩, hlost⟩ := hl
      have haccepted := accepted_of_room h hf hroom
      refine ⟨⟨i, op.payload⟩, ?_⟩
      cases htraffic with
      | kept hq ha hp => simp [haccepted] at ha
      | pop e hl hq ha hp => cases hl
      | evict j op' hl hf' hforce hopen hfull hq ha hp => simp [hroomy] at hfull
      | accept j op' hl hf' hopen hfull hq ha hp =>
        cases hl
        cases hf.symm.trans hf'
        refine ⟨by simp [hq], (asks_of_accept h hf).trans hawaits, ?_⟩
        rcases hlost with hahead | hoff
        · obtain ⟨e', he', hstop⟩ := List.any_eq_true.mp hahead
          refine .inr ⟨e', hstop, ?_⟩
          rw [hq]
          exact (List.singleton_sublist.mpr he').append (List.Sublist.refl _)
        · refine .inl ?_
          rw [hv, settle_task]
          exact (final_of_act hact hoff).2
    · cases hl
  | poll =>
    simp only [forfeits, Bool.and_eq_true] at hl
    refine hleft hl.2 ?_ ((final_of_poll (loop_of_poll h) (not_final_of_fails hl.1)).trans hl.1)
    cases htraffic with
    | kept hq ha hp => exact hq
    | accept i op hl | evict i op hl | pop e hl => cases hl
  | receive =>
    simp only [forfeits] at hl
    split at hl
    · next k rest hq =>
      rw [Bool.and_eq_true] at hl
      obtain ⟨e, he, hasks⟩ := List.any_eq_true.mp hl.2
      obtain ⟨hrest, hoff⟩ := final_of_restart hact hl.1 hq
      have hmem : e ∈ w.queued := hq ▸ List.mem_cons_of_mem _ he
      refine ⟨e, ?_, (asks_of_step hreq h hmem).trans hasks, .inl ?_⟩
      · rw [hv, settle_queued, hrest]
        exact he
      · rw [hv, settle_task]
        exact hoff
    · cases hl
  -- the loop is dropped at an await, with its requests queued
  | dropFuture =>
    simp only [forfeits, Bool.and_eq_true] at hl
    refine hleft hl.2 ?_ ?_
    · cases htraffic with
      | kept hq ha hp => exact hq
      | accept i op hl | evict i op hl | pop e hl => cases hl
    · cases hact with
      | dropFuture t ht =>
        cases ht with
        | drop hend hnotify => rw [hv, settle_task, answer_task]; rfl
      | silent l tl hl t ht => cases hl
  | _ => cases hl

/-- A stranded request of an unbounded mailbox stays one. -/
theorem stranded_step (hreq : RequestInv w) (hcap : (state w.mailbox).capacity = none)
    (h : step E w l = some w') (hs : Stranded w e) : Stranded w' e := by
  have hasks : w'.asks e = true := (asks_of_step hreq h hs.queued).trans hs.asks
  have hfinal : w.task.loop.pc.final = true → l ≠ .receive ∧ w'.task.loop.pc.final = true := by
    obtain ⟨v, hact, rfl⟩ := step_cases h
    rw [settle_task]
    exact final_of_act hact
  cases traffic_of_step h with
  | kept hq ha hp =>
    refine ⟨hq ▸ hs.queued, hasks, hs.lost.imp (fun hoff => (hfinal hoff).2) ?_⟩
    rw [hq]
    exact id
  | accept i op hl hf hopen hfull hq ha hp =>
    refine ⟨hq ▸ List.mem_append_left _ hs.queued, hasks,
      hs.lost.imp (fun hoff => (hfinal hoff).2) ?_⟩
    rintro ⟨e', hstop, hpair⟩
    exact ⟨e', hstop, hq ▸ hpair.trans (List.sublist_append_left _ _)⟩
  | evict i op hl hf hforce hopen hfull hq ha hp =>
    have hroomy : w.full = false := ChannelState.full_of_unbounded hcap
    simp [hroomy] at hfull
  | pop x hl hq ha hp =>
    rcases hs.lost with hoff | ⟨e', hstop, hpair⟩
    · exact absurd hl (hfinal hoff).1
    · rw [hq] at hpair
      rcases List.sublist_cons_iff.mp hpair with hpair | ⟨r, hr, hsub⟩
      · exact ⟨hpair.subset (by simp), hasks, .inr ⟨e', hstop, hpair⟩⟩
      · -- it was the `Stop` that was popped
        obtain ⟨rfl, rfl⟩ := List.cons.inj hr
        refine ⟨List.singleton_sublist.mp hsub, hasks, .inl ?_⟩
        obtain ⟨v, hact, rfl⟩ := step_cases h
        rw [settle_queued] at hq
        rw [settle_popped] at hp
        rw [settle_task]
        exact final_of_pop hact hq hp hstop

/-- **The stranded requests of a run.** On an unbounded mailbox there are any exactly if the run
takes one of these steps. -/
theorem stranded_iff {a : σ} {ls : List (Label σ ρ)} (h : (machine Q ρ E none a).Run ls w) :
    (∃ e, Stranded w e) ↔ ∃ u l u', (machine Q ρ E none a).Takes ls u l u'
      ∧ u.forfeits E l = true := by
  refine h.iff_takes (I := fun u : World Q σ ρ => RequestInv u ∧ (state u.mailbox).capacity = none)
    (P := fun u => ∃ e, Stranded u e) (C := fun u l _ => u.forfeits E l = true)
    ⟨requestInv_init none a, ?_⟩ ?_ ?_ ?_
  · simp [machine, init, ChannelState.fresh]
  · rintro u l u' ⟨hreq, hcap⟩ hstep
    refine ⟨requestInv_step hreq hstep, ?_⟩
    obtain ⟨v, hact, rfl⟩ := step_cases hstep
    rw [settle_capacity, capacity_of_act hact, hcap]
  · rintro ⟨e, hs⟩
    have hmem := hs.queued
    simp [machine, init, World.queued, ChannelState.fresh] at hmem
  · rintro u l u' ⟨hreq, hcap⟩ hstep
    constructor
    · rintro ⟨e, hs⟩
      exact (stranded_of_step hreq hstep hs).imp_left fun hs => ⟨e, hs⟩
    · rintro (⟨e, hs⟩ | hl)
      · exact ⟨e, stranded_step hreq hcap hstep hs⟩
      · exact stranded_of_forfeits hreq hcap hstep hl

/-! ## When the actor is gone

A run may go on after the loop has ended: the receiver is dropped, the mailbox closed, and the
requests that were stranded in it are still waiting. -/

/-- An accepted request is resolved: with what its task returned, or with an error, and then the
task has not completed; or its caller has given it up. -/
def Resolved (w : World Q σ ρ) (k : ℕ) : Prop :=
  ∃ f, w.flights[k]? = some f ∧
    match f.stage with
    | .waiting (.ok r) | .returned (.ok r) => w.Ran k r
    | .waiting .canceled | .returned (.error .canceled) => k ∉ w.completed.map Prod.fst
    | .abandoned => True
    | _ => False

theorem final_of_ended {pc : Pc σ ρ} (h : pc.ended = true) : pc.final = true := by
  cases pc <;> simp_all [Pc.ended, Pc.final]

/-- What an ended loop leaves: nothing runs any more. -/
theorem live_of_ended (hend : w.task.loop.pc.ended = true) :
    w.live = w.queued.map Envelope.client := by
  have hnone : w.task.loop.pc.client = none := by
    cases hpc : w.task.loop.pc <;> simp_all [Pc.ended, Pc.client]
  simp [live, hnone]

/-- When the loop has ended, an accepted request is resolved, or it is stranded. -/
theorem resolved_or_stranded (hreq : RequestInv w) (hend : w.task.loop.pc.ended = true)
    (he : e ∈ w.accepted) {op : Operation σ ρ} (hop : w.ops[e.client]? = some op)
    (hawaits : op.awaits = true) : Resolved w e.client ∨ ∃ e', Stranded w e' := by
  have hin : e.client ∈ w.ledger.entered := List.mem_map.mpr ⟨e, he, rfl⟩
  obtain ⟨f, hf, rfl⟩ := Option.map_eq_some_iff.mp (by simpa [ops] using hop)
  have hflight := hreq.ok.flight e.client f hf
  have hresolved : (match f.stage with
      | .waiting (.ok r) | .returned (.ok r) => w.Ran e.client r
      | .waiting .canceled | .returned (.error .canceled) => e.client ∉ w.completed.map Prod.fst
      | .abandoned => True
      | _ => False) → Resolved w e.client := fun hstage => ⟨f, hf, hstage⟩
  rcases f with ⟨op, st⟩
  cases st with
  | upgrading | checking | enqueuing => exact absurd hin hflight
  | abandoned => exact .inl (hresolved trivial)
  | waiting reply =>
    cases reply with
    | ok r => exact .inl (hresolved (hreq.ran _ r hflight))
    | canceled => exact .inl (hresolved hflight.2)
    | pending =>
      -- a task that is awaited is live, and nothing runs any more
      have hlive : e.client ∈ w.live := hflight.2
      rw [live_of_ended hend] at hlive
      obtain ⟨e', he', hclient⟩ := List.mem_map.mp hlive
      refine .inr ⟨e', he', ?_, .inl (final_of_ended hend)⟩
      rw [asks, hclient, hop]
      exact hawaits
  | returned res =>
    cases res with
    | ok r => exact .inl (hresolved (hreq.ran _ r (hflight hawaits)))
    | error err =>
      obtain ⟨-, hdone, rfl | hout⟩ := hflight
      · exact .inl (hresolved hdone)
      · exact absurd hin hout

/-- A stranded request is not answered: its caller waits, or has given it up. -/
theorem stage_of_stranded (hreq : RequestInv w) (hs : Stranded w e) :
    ∃ op, w.ops[e.client]? = some op ∧ op.awaits = true
      ∧ (w.flights[e.client]? = some ⟨op, .waiting .pending⟩
        ∨ w.flights[e.client]? = some ⟨op, .abandoned⟩) := by
  have hlive : e.client ∈ w.ledger.live :=
    List.mem_append_right _ (List.mem_map.mpr ⟨e, hs.queued, rfl⟩)
  obtain ⟨op, hop, hawaits⟩ := (Option.any_eq_true _ _).mp hs.asks
  obtain ⟨⟨op, st⟩, hf, rfl⟩ := Option.map_eq_some_iff.mp (by simpa [ops] using hop)
  have hflight := hreq.ok.flight e.client _ hf
  refine ⟨op, hop, hawaits, ?_⟩
  -- a task that is live is neither completed nor dropped
  cases st with
  | upgrading | checking | enqueuing => exact absurd (hreq.ok.live_entered _ hlive) hflight
  | abandoned => exact .inr hf
  | waiting reply =>
    cases reply with
    | pending => exact .inl hf
    | ok r => exact absurd (List.mem_map.mpr ⟨_, hflight, rfl⟩) (hreq.ok.fresh _ hlive)
    | canceled => exact absurd hlive hflight.1
  | returned res =>
    cases res with
    | ok r => exact absurd (List.mem_map.mpr ⟨_, hflight hawaits, rfl⟩) (hreq.ok.fresh _ hlive)
    | error err => exact absurd hlive hflight.1

/-- **Every accepted request is resolved by the time the actor is gone**, for both loops, every
capacity and every way the loop future can end, in every run without a step that leaves a request
behind. And on an unbounded mailbox each such step leaves one whose caller waits for good, unless it
gives up. -/
theorem requests_resolved (E : EventLoop σ) (capacity : Option ℕ+) (a : σ) (ls : List (Label σ ρ))
    (w : World Q σ ρ) (h : (machine Q ρ E capacity a).Run ls w) (hgone : w.task.Gone) :
    ((machine Q ρ E capacity a).AllSteps ls (fun u l _ => u.forfeits E l = false) →
      ∀ e ∈ w.accepted, ∀ op, w.ops[e.client]? = some op → op.awaits = true → Resolved w e.client)
    ∧ (capacity = none → ∀ u l u', (machine Q ρ E capacity a).Takes ls u l u' →
      u.forfeits E l = true → ∃ e ∈ w.accepted, ∃ op, w.ops[e.client]? = some op ∧ op.awaits = true
        ∧ (¬ Resolved w e.client ∨ w.flights[e.client]? = some ⟨op, .abandoned⟩)) := by
  have hreq : RequestInv w := h.invariant (I := RequestInv) (requestInv_init capacity a)
    fun _ _ _ hs hstep => requestInv_step hs hstep
  constructor
  · intro hsteps e he op hop hawaits
    have hnone : RequestInv w ∧ ∀ e, ¬ Stranded w e := by
      refine h.reaches.invariant_of_steps (I := fun u => RequestInv u ∧ ∀ e, ¬ Stranded u e)
        ⟨requestInv_init capacity a, fun e hs => ?_⟩ ?_ hsteps
      · have hmem := hs.queued
        simp [machine, init, World.queued, ChannelState.fresh] at hmem
      · rintro u l u' ⟨hu, hnot⟩ hstep hl
        refine ⟨requestInv_step hu hstep, fun e hs => ?_⟩
        rcases stranded_of_step hu hstep hs with hold | hnew
        · exact hnot e hold
        · simp [hl] at hnew
    rcases resolved_or_stranded hreq hgone.1 he hop hawaits with hresolved | ⟨e', hs⟩
    · exact hresolved
    · exact absurd hs (hnone.2 e')
  · rintro rfl u l u' htakes hl
    obtain ⟨e, hs⟩ := (stranded_iff h).mpr ⟨u, l, u', htakes, hl⟩
    obtain ⟨op, hop, hawaits, hstage⟩ := stage_of_stranded hreq hs
    have hlive : e.client ∈ w.ledger.live :=
      List.mem_append_right _ (List.mem_map.mpr ⟨e, hs.queued, rfl⟩)
    obtain ⟨e', he', hclient⟩ := List.mem_map.mp (hreq.ok.live_entered _ hlive)
    refine ⟨e', he', op, hclient ▸ hop, hawaits, hclient ▸ hstage.imp_left fun hf => ?_⟩
    rintro ⟨g, hg, hstage⟩
    cases hf.symm.trans hg
    exact hstage

/-- An actor with an unbounded mailbox. -/
def unboundedActor : Machine (World ChannelState ℕ ℕ) (Label ℕ ℕ) :=
  machine ChannelState ℕ (.fromChannel (.provided 0)) none 7

/-- A call is answered before the actor is stopped and gone. -/
def answeredRun : List (Label ℕ ℕ) :=
  [.begin (Addr.call fun n => .completed (n + 1) (some n)), .advance 0, .advance 0, .poll, .poll,
    .receive, .poll, .advance 0, .begin Addr.stop, .advance 1, .advance 1, .receive, .poll, .lower,
    .fire, .poll, .dropRx, .dropCtx]

/-- A call is accepted behind a `Stop`. -/
def strandedRun : List (Label ℕ ℕ) :=
  [.begin Addr.stop, .advance 0, .advance 0,
    .begin (Addr.call fun n => .completed (n + 1) (some n)), .advance 1, .advance 1, .poll, .poll,
    .receive, .poll, .lower, .fire, .poll, .dropRx, .dropCtx]

theorem requests_resolved_answered :
    (unboundedActor.after answeredRun rfl).task.Gone
      ∧ Resolved (unboundedActor.after answeredRun rfl) 0 := by
  have hcheck : unboundedActor.checkFrom (fun u l _ => !u.forfeits (.fromChannel (.provided 0)) l)
      unboundedActor.init answeredRun = true := rfl
  have hgone : (unboundedActor.after answeredRun rfl).task.Gone := by decide
  have hsteps : unboundedActor.AllSteps answeredRun
      fun u l _ => u.forfeits (.fromChannel (.provided 0)) l = false := fun u l u' htakes => by
    simpa using Machine.AllSteps.of_check hcheck u l u' htakes
  exact ⟨hgone, (requests_resolved (.fromChannel (.provided 0)) none 7 answeredRun _
    (unboundedActor.run_after answeredRun rfl) hgone).1 hsteps ⟨0, _⟩ (.head _) _ rfl rfl⟩

/-- The actor is gone, and the call is never resolved. -/
theorem call_behind_stop_stranded :
    (unboundedActor.after strandedRun rfl).task.Gone
      ∧ (unboundedActor.after strandedRun rfl).accepted.map Envelope.client = [0, 1]
      ∧ (unboundedActor.after strandedRun rfl).flights.map Flight.stage
          = [.returned (.ok none), .waiting .pending]
      ∧ ¬ Resolved (unboundedActor.after strandedRun rfl) 1 := by
  refine ⟨by decide, rfl, rfl, ?_⟩
  rintro ⟨f, hf, hstage⟩
  cases hf
  exact hstage

end World

end Hannibal
