import Hannibal.EventLoop

/-!
# Hannibal.Fold — `create` is a fold over the payloads it takes

What `EventLoop::create` does with the payloads it has taken so far, without any mailbox: the tasks
and restarts it has begun are the ones before the first `Stop`, in the order in which they were
taken, and the actor value is the result of folding them over the initial actor.

* **`work`** — the payloads before the first `Stop`.
* **`EventLoop.folded`** — the abstract meaning of a list of payloads: `started`, then each task and
  each restart in turn. `none` where a hook or a task fails or panics.
* **`LoopOrder`** — the loop state agrees with that meaning; `loopOrder_step` is its step lemma.
-/

namespace Hannibal

open Lts

variable {σ ρ : Type}

/-! ## What is begun -/

/-- The payloads before the first `Stop`. -/
def work (es : List (Envelope σ ρ)) : List (Envelope σ ρ) :=
  es.takeWhile fun e => !e.payload.isStop

theorem work_le (es : List (Envelope σ ρ)) : work es <+: es := List.takeWhile_prefix _

/-- Behind a list without a `Stop`, the next payload counts unless it is one. -/
theorem work_append_singleton {es : List (Envelope σ ρ)} (h : work es = es) (e : Envelope σ ρ) :
    work (es ++ [e]) = if e.payload.isStop then es else es ++ [e] := by
  unfold work at h ⊢
  rw [List.takeWhile_append, h, if_pos rfl]
  cases hstop : e.payload.isStop <;> simp [hstop]

/-- Nothing behind a `Stop` counts. -/
theorem work_append {es : List (Envelope σ ρ)} (h : work es ≠ es) (new : List (Envelope σ ρ)) :
    work (es ++ new) = work es := by
  have hlen : (work es).length ≠ es.length := fun hlen => h ((work_le es).eq_of_length hlen)
  unfold work at hlen ⊢
  rw [List.takeWhile_append, if_neg hlen]

/-- The entry a payload leaves in the trace of the loop that takes it. -/
def Envelope.taken : Envelope σ ρ → Taken
  | ⟨k, .task _⟩ => .task k
  | ⟨k, .stop⟩ => .stop k
  | ⟨k, .restart⟩ => .restart k

/-- A task is begun when it is entered, a restart when it is taken. -/
def Event.begins : Event → Option Taken
  | .enter (.task k) => some (.task k)
  | .taken (.restart k) => some (.restart k)
  | _ => none

/-- The tasks and restarts begun so far. -/
def begun (t : List Event) : List Taken := t.filterMap Event.begins

@[simp] theorem begun_append (t es : List Event) : begun (t ++ es) = begun t ++ begun es :=
  List.filterMap_append

/-! ## The meaning of a list of payloads

`folded` is defined by recursion on the list, without a loop: `started`, then payload after payload.
It threads the clock, since a hook may behave differently each time it is called. -/

namespace EventLoop

/-- `started` on an actor value, with the number of calls made before. -/
def runStarted (E : EventLoop σ) (p : σ × ℕ) : Option (σ × ℕ) :=
  match E.actor.started p.2 p.1 with
  | .returned (a, .ok ()) => some (a, p.2 + 1)
  | _ => none

def runStopped (E : EventLoop σ) (p : σ × ℕ) : Option (σ × ℕ) :=
  match E.actor.stopped p.2 p.1 with
  | .returned a => some (a, p.2 + 1)
  | .panicked | .pends => none

/-- A task, under the timeout of the loop. -/
def runTask (E : EventLoop σ) (f : TaskFn σ ρ) (p : σ × ℕ) : Option (σ × ℕ) :=
  match timeoutFut E.config.timeout (f p.1) with
  | some (.completed a _) => some (a, p.2 + 1)
  | some (.overruns a) => if E.config.failOnTimeout then none else some (a, p.2 + 1)
  | _ => none

/-- A restart, by the strategy of the loop. -/
def runRestart (E : EventLoop σ) (p : σ × ℕ) : Option (σ × ℕ) :=
  match E.strategy with
  | .nonRestartable => some p
  | _ => do
    let (a, n) ← E.runStopped p
    let b ← E.refreshedActor n a
    E.runStarted (b, n)

/-- One payload; a `Stop` ends the loop and is no work. -/
def runPayload (E : EventLoop σ) (p : σ × ℕ) (e : Envelope σ ρ) : Option (σ × ℕ) :=
  match e.payload with
  | .task f => E.runTask f p
  | .restart => E.runRestart p
  | .stop => none

/-- The actor value, and the number of calls made, after `started` and the given payloads. -/
def folded (E : EventLoop σ) (a : σ) (es : List (Envelope σ ρ)) : Option (σ × ℕ) :=
  (E.runStarted (a, 0)).bind fun p => es.foldlM E.runPayload p

theorem folded_append_singleton (E : EventLoop σ) (a : σ) (es : List (Envelope σ ρ))
    (e : Envelope σ ρ) : E.folded a (es ++ [e]) = (E.folded a es).bind (E.runPayload · e) := by
  unfold folded
  rw [Option.bind_assoc]
  congr 1
  funext p
  rw [List.foldlM_append]
  simp [List.foldlM_cons, List.foldlM_nil]

end EventLoop

/-! ## The loop agrees with it

`LoopOrder` relates a loop state to the payloads it has taken: what has begun is their work, and at
each place of the loop the actor value is that of the fold up to there. -/

/-- The loop may still take payloads. -/
def Pc.working : Pc σ ρ → Bool
  | .unpolled | .starting | .receiving | .running _ _ | .refreshStopping | .refreshStarting => true
  | _ => false

/-- The loop has left its `while` loop for the final `stopped`, or has returned the actor. -/
def Pc.closing : Pc σ ρ → Bool
  | .stopping | .notifying | .returned (.ok _) => true
  | _ => false

/-- The actor value, by program counter, for a loop that has taken the payloads `es`. -/
def FoldedAt (E : EventLoop σ) (a : σ) (s : LoopState σ ρ) (es : List (Envelope σ ρ)) : Prop :=
  match s.pc with
  | .unpolled | .starting => es = [] ∧ s.actor = a ∧ s.clock = 0
  | .receiving => E.folded a es = some (s.actor, s.clock)
  | .running c f => ∃ pre k, c = .task k ∧ es = pre ++ [⟨k, .task f⟩]
      ∧ E.folded a pre = some (s.actor, s.clock)
  | .refreshStopping => ∃ pre k, es = pre ++ [⟨k, .restart⟩]
      ∧ E.folded a pre = some (s.actor, s.clock) ∧ E.strategy ≠ .nonRestartable
  | .refreshStarting => ∃ pre k p b, es = pre ++ [⟨k, .restart⟩] ∧ E.folded a pre = some p
      ∧ E.runStopped p = some (b, s.clock) ∧ E.refreshedActor s.clock b = some s.actor
      ∧ E.strategy ≠ .nonRestartable
  | .stopping => E.folded a (work es) = some (s.actor, s.clock)
  | .notifying => ∃ p, E.folded a (work es) = some p ∧ E.runStopped p = some (s.actor, s.clock)
  | .returned (.ok b) => ∃ p n, E.folded a (work es) = some p ∧ E.runStopped p = some (b, n)
  | _ => True

/-- What a loop made by `create` has done with the payloads `es` it has taken. -/
structure LoopOrder (E : EventLoop σ) (a : σ) (s : LoopState σ ρ) (es : List (Envelope σ ρ)) :
    Prop where
  begun_eq : begun s.trace = (work es).map Envelope.taken
  work_eq : s.pc.working = true → work es = es
  foldedAt : FoldedAt E a s es

/-- The payload an input carries. -/
def Input.envelopes : Option (Input σ ρ) → List (Envelope σ ρ)
  | some (.payload e) => [e]
  | _ => []

theorem loopOrder_init (E : EventLoop σ) (a : σ) :
    LoopOrder E a (.init a : LoopState σ ρ) [] where
  begun_eq := rfl
  work_eq _ := rfl
  foldedAt := ⟨rfl, rfl, rfl⟩

variable {E : EventLoop σ} {a : σ} {s s' : LoopState σ ρ} {es : List (Envelope σ ρ)}
  {i : Option (Input σ ρ)}

/-- A step that takes no payload and begins nothing. -/
theorem LoopOrder.quiet (hord : LoopOrder E a s es) (hnone : Input.envelopes i = [])
    (hbegun : begun s'.trace = begun s.trace)
    (hworking : s'.pc.working = true → s.pc.working = true) (hat : FoldedAt E a s' es) :
    LoopOrder E a s' (es ++ Input.envelopes i) := by
  rw [hnone, List.append_nil]
  exact ⟨hbegun.trans hord.begun_eq, fun h => hord.work_eq (hworking h), hat⟩

/-- Such a step after which the loop takes nothing more. -/
theorem LoopOrder.quits (hord : LoopOrder E a s es) (hnone : Input.envelopes i = [])
    (hbegun : begun s'.trace = begun s.trace) (hout : s'.pc.working = false)
    (hat : FoldedAt E a s' es) : LoopOrder E a s' (es ++ Input.envelopes i) := by
  refine hord.quiet hnone hbegun (fun hworking => ?_) hat
  rw [hout] at hworking
  cases hworking

/-- Leaving a `started` that returned `Ok`. -/
theorem foldedAt_started (hord : LoopOrder E a s es)
    (hpc : s.pc = .starting ∨ s.pc = .refreshStarting)
    {b : σ} (hend : E.actor.started s.clock s.actor = .returned (b, .ok ())) :
    E.folded a es = some (b, s.clock + 1) := by
  have hat := hord.foldedAt
  have hstarted : E.runStarted (s.actor, s.clock) = some (b, s.clock + 1) := by
    simp [EventLoop.runStarted, hend]
  -- the first `started`, or that of a restart, which is folded with its `stopped`
  rcases hpc with hpc | hpc
  · rw [FoldedAt, hpc] at hat
    obtain ⟨rfl, hactor, hclock⟩ := hat
    rw [hactor, hclock] at hstarted
    simp [EventLoop.folded, hstarted, hclock]
  · rw [FoldedAt, hpc] at hat
    obtain ⟨pre, k, p, c, rfl, hpre, hstopped, hrefresh, hstrategy⟩ := hat
    rw [EventLoop.folded_append_singleton, hpre, Option.bind_some]
    cases hs : E.strategy with
    | nonRestartable => exact absurd hs hstrategy
    | restartOnly =>
      simp [EventLoop.runPayload, EventLoop.runRestart, hs, hstopped, hrefresh, hstarted]
    | recreateFromDefault =>
      simp [EventLoop.runPayload, EventLoop.runRestart, hs, hstopped, hrefresh, hstarted]

/-- Leaving a task that leaves the loop running. -/
theorem foldedAt_task (hord : LoopOrder E a s es) {c : Call} {f : TaskFn σ ρ}
    (hpc : s.pc = .running c f) {b : σ}
    (htask : E.runTask f (s.actor, s.clock) = some (b, s.clock + 1)) :
    E.folded a es = some (b, s.clock + 1) := by
  have hat := hord.foldedAt
  rw [FoldedAt, hpc] at hat
  obtain ⟨pre, k, -, rfl, hpre⟩ := hat
  rw [EventLoop.folded_append_singleton, hpre, Option.bind_some]
  exact htask

/-- The loop takes a payload and does not stop: what it begins with it is recorded. -/
theorem LoopOrder.take (hord : LoopOrder E a s es) (hpc : s.pc = .receiving) {e : Envelope σ ρ}
    (hstop : e.payload.isStop = false) (hbegun : begun s'.trace = begun s.trace ++ [e.taken])
    (hat : FoldedAt E a s' (es ++ [e])) : LoopOrder E a s' (es ++ [e]) := by
  have hwork : work es = es := hord.work_eq (by rw [hpc]; rfl)
  have hwork' : work (es ++ [e]) = es ++ [e] := by simp [work_append_singleton hwork, hstop]
  refine ⟨?_, fun _ => hwork', hat⟩
  rw [hbegun, hord.begun_eq, hwork, hwork', List.map_append]
  rfl

/-- **The step lemma**: one step takes at most one payload, and stays in agreement. -/
theorem loopOrder_step (hord : LoopOrder E a s es) (hE : E.onStream = false) (h : E.Step s i s') :
    LoopOrder E a s' (es ++ Input.envelopes i) := by
  have hat := hord.foldedAt
  -- a payload is taken in one step and its work done in later ones
  cases h with
  | poll hpc =>
    rw [FoldedAt, hpc] at hat
    exact hord.quiet rfl (by simp [begun, Event.begins]) (fun _ => by rw [hpc]; rfl) hat
  | startedOk hpc b hend =>
    refine hord.quiet rfl (by simp [begun, Event.begins]) (fun _ => ?_)
      (foldedAt_started hord hpc hend)
    rcases hpc with hpc | hpc <;> rw [hpc] <;> rfl
  | startedErr hpc b e hend =>
    exact hord.quits rfl (by simp [begun, Event.begins]) rfl trivial
  | panic hpc =>
    exact hord.quits rfl rfl rfl trivial
  | taskDone c f hpc b r hend =>
    refine hord.quiet rfl (by simp [begun, Event.begins]) (fun _ => by rw [hpc]; rfl)
      (foldedAt_task hord hpc ?_)
    simp [EventLoop.runTask, timeoutFut, hend]
  | taskIgnored c f hpc b hend htimeout hfail =>
    refine hord.quiet rfl (by simp [begun, Event.begins]) (fun _ => by rw [hpc]; rfl)
      (foldedAt_task hord hpc ?_)
    obtain ⟨d, hd⟩ := Option.ne_none_iff_exists'.mp htimeout
    simp [EventLoop.runTask, timeoutFut, hend, hd, hfail]
  | taskCancelled c f hpc b hend htimeout hfail =>
    exact hord.quits rfl (by simp [begun, Event.begins]) rfl trivial
  | refreshed hpc b d hend hactor =>
    rw [FoldedAt, hpc] at hat
    obtain ⟨pre, k, rfl, hpre, hstrategy⟩ := hat
    -- the restart was taken last, and its `stopped` has returned
    refine hord.quiet rfl (by simp [begun, Event.begins]) (fun _ => by rw [hpc]; rfl)
      ⟨pre, k, _, b, rfl, hpre, ?_, hactor, hstrategy⟩
    simp [EventLoop.runStopped, hend]
  | refreshPanic hpc b hend =>
    exact hord.quits rfl (by simp [begun, Event.begins]) rfl trivial
  | cancelled hpc b hend =>
    exact hord.quits rfl (by simp [begun, Event.begins]) rfl trivial
  | finished hpc hstream b hend => simp [hE] at hstream
  | stopped hpc b hend =>
    rw [FoldedAt, hpc] at hat
    refine hord.quits rfl (by simp [begun, Event.begins]) rfl ⟨_, hat, ?_⟩
    simp [EventLoop.runStopped, hend]
  | notified hpc =>
    rw [FoldedAt, hpc] at hat
    obtain ⟨p, hp, hstopped⟩ := hat
    exact hord.quits rfl rfl rfl ⟨p, s.clock, hp, hstopped⟩
  | takeTask hpc k f =>
    rw [FoldedAt, hpc] at hat
    refine hord.take hpc rfl ?_ ⟨es, k, rfl, rfl, hat⟩
    rw [LoopState.call_trace, LoopState.take_trace, List.append_assoc, begun_append]
    rfl
  | takeStop hpc k =>
    rw [FoldedAt, hpc] at hat
    have hwork : work es = es := hord.work_eq (by rw [hpc]; rfl)
    -- a loop that still receives has taken no `Stop` before
    have hwork' : work (es ++ [⟨k, .stop⟩]) = es := by
      rw [work_append_singleton hwork]
      rfl
    refine ⟨?_, (fun hworking => by cases hworking), ?_⟩
    · show begun _ = (work (es ++ [⟨k, .stop⟩])).map Envelope.taken
      rw [hwork', ← hwork, ← hord.begun_eq]
      simp [begun, Event.begins]
    · show E.folded a (work (es ++ [⟨k, .stop⟩])) = _
      rw [hwork']
      exact hat
  | takeClosed hpc =>
    rw [FoldedAt, hpc] at hat
    have hwork : work es = es := hord.work_eq (by rw [hpc]; rfl)
    -- the end of the mailbox takes nothing
    refine hord.quits rfl (by simp [begun, Event.begins]) rfl ?_
    show E.folded a (work es) = _
    rw [hwork]
    exact hat
  | takeRestart hpc hstream hstrategy k =>
    rw [FoldedAt, hpc] at hat
    exact hord.take hpc rfl (by simp [begun, Event.begins, Envelope.taken])
      ⟨es, k, rfl, hat, hstrategy⟩
  | keepRestart hpc hstream hstrategy k =>
    rw [FoldedAt, hpc] at hat
    refine hord.take hpc rfl (by simp [begun, Event.begins, Envelope.taken]) ?_
    rw [FoldedAt, LoopState.take_pc, hpc]
    -- `NonRestartable` takes the payload and leaves the actor as it is
    show E.folded a (es ++ [⟨k, .restart⟩]) = _
    rw [EventLoop.folded_append_singleton, hat, Option.bind_some]
    simp [EventLoop.runPayload, EventLoop.runRestart, hstrategy]
  | panicRestart hpc hstream k => simp [hE] at hstream
  | takeItem hpc hstream hopen f => simp [hE] at hstream
  | takeStreamEnd hpc hstream hopen => simp [hE] at hstream

end Hannibal
