import Hannibal.EventLoop
import Hannibal.Lib.Trace

/-!
# Hannibal.Lifecycle — the order in which `create` calls hooks and handlers

The lifecycle protocol of `EventLoop::create`, for arbitrary hooks and handlers, every
configuration, every restart strategy and every sequence of payloads: which calls can follow which,
and how the result of the loop future is tied to the last of them.

* **`Follows`** — the protocol: which hook event may come after the last one.
* **`Lifecycle`** — what holds of the trace of a loop at any moment.
* **`lifecycle_step`** — one step preserves it, case by case along `EventLoop.Step`.
-/

namespace Hannibal

open Lts

variable {σ ρ : Type}

/-! ## Events and the protocol

The protocol looks at hook events only: `lastHook` is what a trace ends with, and appending to a
trace either replaces it or leaves it. -/

/-- The event belongs to a hook, not to a handler. -/
def Event.isHook : Event → Bool
  | .enter (.hook _) | .leave (.hook _) _ => true
  | _ => false

/-- The hook event a trace ends with, looking past handlers and payloads. -/
def lastHook (t : List Event) : Option Event := Trace.last Event.isHook t

@[simp] theorem isHook_taken (t : Taken) : (Event.taken t).isHook = false := rfl
@[simp] theorem isHook_enter_hook (h : Hook) : (Event.enter (.hook h)).isHook = true := rfl
@[simp] theorem isHook_enter_task (k : ℕ) : (Event.enter (.task k)).isHook = false := rfl
@[simp] theorem isHook_leave_hook (h : Hook) (x : Exit) : (Event.leave (.hook h) x).isHook = true :=
  rfl
@[simp] theorem isHook_leave_task (k : ℕ) (x : Exit) : (Event.leave (.task k) x).isHook = false :=
  rfl

@[simp] theorem lastHook_nil : lastHook [] = none := rfl

@[simp] theorem lastHook_append (t es : List Event) :
    lastHook (t ++ es) = (lastHook es).or (lastHook t) := Trace.last_append _ _ _

@[simp] theorem lastHook_cons (e : Event) (es : List Event) :
    lastHook (e :: es) = (lastHook es).or (if e.isHook then some e else none) :=
  Trace.last_cons _ _ _

/-- **The lifecycle protocol.** `started` comes first; once it has returned `Ok` the next hook is
`stopped` or `cancelled`; after `stopped` only `started` can come (a restart), after `cancelled` or
a failed `started` nothing. -/
def Follows : Option Event → Event → Prop
  | none, e => e = .enter (.hook .started)
  | some (.enter (.hook .started)), e =>
    e = .leave (.hook .started) .ok ∨ e = .leave (.hook .started) .err
  | some (.leave (.hook .started) .ok), e =>
    e = .enter (.hook .stopped) ∨ e = .enter (.hook .cancelled)
  | some (.enter (.hook .stopped)), e => e = .leave (.hook .stopped) .ok
  | some (.enter (.hook .cancelled)), e => e = .leave (.hook .cancelled) .ok
  | some (.leave (.hook .stopped) .ok), e => e = .enter (.hook .started)
  | _, _ => False

/-- What makes the loop call its final `stopped`: a `Stop`, or the end of the closed mailbox. -/
def Taken.endsLoop : Taken → Bool
  | .stop _ | .closed => true
  | _ => false

/-- The trace of a loop that has called `stopped` because of a `Stop` or the closed mailbox and
has left it. -/
def EndsByStop (t : List Event) : Prop :=
  ∃ pre k, k.endsLoop = true
    ∧ t = pre ++ [.taken k, .enter (.hook .stopped), .leave (.hook .stopped) .ok]

/-- The trace of a loop whose last call is a `started` that returned an error. -/
def EndsByStarted (t : List Event) : Prop :=
  ∃ pre, t = pre ++ [.enter (.hook .started), .leave (.hook .started) .err]

/-- The trace of a loop whose last call is the `cancelled` that follows an expired task. -/
def EndsByCancelled (t : List Event) : Prop :=
  ∃ pre k, t = pre ++
    [.leave (.task k) .expired, .enter (.hook .cancelled), .leave (.hook .cancelled) .ok]

/-- How many `started` have been left with `Ok`, and how many `stopped` and `cancelled` have been
entered. -/
def opened (t : List Event) : ℕ := t.count (.leave (.hook .started) .ok)
def shut (t : List Event) : ℕ :=
  t.count (.enter (.hook .stopped)) + t.count (.enter (.hook .cancelled))

/-- Between a `started` that returned `Ok` and the `stopped` or `cancelled` that answers it. -/
def Pc.up : Pc σ ρ → Bool
  | .receiving | .running _ _ => true
  | _ => false

/-! ## What holds of the trace at any moment -/

/-- The lifecycle of a loop made by `create`. -/
structure Lifecycle (E : EventLoop σ) (s : LoopState σ ρ) : Prop where
  /-- a handler runs only while the last hook event is a `started` that returned `Ok` -/
  handlers_up : Trace.Past (fun pre e => ∀ k, e = .enter (.task k) →
    lastHook pre = some (.leave (.hook .started) .ok)) s.trace
  /-- hook events follow the protocol -/
  hooks_follow : Trace.Past (fun pre e => e.isHook = true → Follows (lastHook pre) e) s.trace
  /-- every `started` that returned `Ok` is answered by one `stopped` or one `cancelled`, except
  the one the loop is up with -/
  answered : s.pc ≠ .panicked →
    opened s.trace = shut s.trace + if s.pc.up then 1 else 0
  /-- `cancelled` is called exactly when a task has expired under `fail_on_timeout` -/
  cancelled_iff : .enter (.hook .cancelled) ∈ s.trace ↔
    E.config.failOnTimeout = true ∧ ∃ k, .leave (.task k) .expired ∈ s.trace
  /-- and it is the last call -/
  cancelled_last : Trace.Past (fun pre e => .enter (.hook .cancelled) ∈ pre →
    e = .leave (.hook .cancelled) .ok) s.trace
  /-- without `fail_on_timeout` the loop goes on to take the next payload after an expired task -/
  expired_next : E.config.failOnTimeout = false → Trace.Past (fun pre e =>
    ∀ k, pre.getLast? = some (.leave (.task k) .expired) → ∃ t, e = .taken t) s.trace
  /-- for which it waits -/
  expired_receiving : E.config.failOnTimeout = false →
    ∀ k, s.trace.getLast? = some (.leave (.task k) .expired) → s.pc = .receiving
  /-- `Ok(actor)` is returned with the actor value the final `stopped` left -/
  returned_ok : ∀ a, s.pc = .returned (.ok a) → a = s.actor ∧ EndsByStop s.trace
  /-- an error comes from a `started` that returned it, or is the timeout -/
  returned_err : ∀ e, s.pc = .returned (.error e) →
    (EndsByStarted s.trace ∧ ∃ n a, E.actor.started n a = .returned (s.actor, .error e))
      ∨ (EndsByCancelled s.trace ∧ E.config.failOnTimeout = true ∧ e = .actor .timeout)

/-! ## The program counter tells how the trace ends

`HookAt` and `EndAt` say, for each place of the loop, which hook event came last. With them a step
is checked against the protocol without looking at the whole trace. -/

/-- The hook event the trace ends with, by program counter. -/
def HookAt : Pc σ ρ → Option Event → Prop
  | .unpolled, o => o = none
  | .starting, o | .refreshStarting, o => o = some (.enter (.hook .started))
  | .receiving, o | .running _ _, o => o = some (.leave (.hook .started) .ok)
  | .refreshStopping, o | .stopping, o => o = some (.enter (.hook .stopped))
  | .cancelling, o => o = some (.enter (.hook .cancelled))
  | .notifying, o => o = some (.leave (.hook .stopped) .ok)
  | _, _ => True

/-- How the trace ends, by program counter, where that decides the result. -/
def EndAt (E : EventLoop σ) : Pc σ ρ → List Event → Prop
  | .unpolled, t => t = []
  | .starting, t | .refreshStarting, t => ∃ pre, t = pre ++ [.enter (.hook .started)]
  | .running c _, _ => ∃ k, c = .task k
  | .stopping, t => ∃ pre k, k.endsLoop = true ∧ t = pre ++ [.taken k, .enter (.hook .stopped)]
  | .notifying, t => EndsByStop t
  | .cancelling, t => E.config.failOnTimeout = true
      ∧ ∃ pre k, t = pre ++ [.leave (.task k) .expired, .enter (.hook .cancelled)]
  | .finishing, _ | .dropped, _ => False
  | _, _ => True

/-- `cancelled` has been called only where the loop is about to end or has ended. -/
def CancelledAt (s : LoopState σ ρ) : Prop :=
  .enter (.hook .cancelled) ∈ s.trace → s.pc = .cancelling ∨ s.pc.ended = true

/-- The lifecycle, with what the program counter says about the trace. -/
structure LifecycleInv (E : EventLoop σ) (s : LoopState σ ρ) : Prop extends Lifecycle E s where
  hookAt : HookAt s.pc (lastHook s.trace)
  endAt : EndAt E s.pc s.trace
  cancelledAt : CancelledAt s

theorem lifecycle_init (E : EventLoop σ) (a : σ) :
    LifecycleInv E (LoopState.init a : LoopState σ ρ) where
  handlers_up := Trace.past_nil _
  hooks_follow := Trace.past_nil _
  answered _ := rfl
  cancelled_iff := by simp [LoopState.init]
  cancelled_last := Trace.past_nil _
  expired_next _ := Trace.past_nil _
  expired_receiving _ k h := by simp [LoopState.init] at h
  returned_ok a h := by cases h
  returned_err e h := by cases h
  hookAt := rfl
  endAt := rfl
  cancelledAt h := by simp [LoopState.init] at h

variable {E : EventLoop σ} {s s' : LoopState σ ρ} {i : Option (Input σ ρ)}

/-- A task `create` runs was put into the mailbox by an operation. -/
theorem LifecycleInv.task_of_running (hinv : LifecycleInv E s) {c : Call} {f : TaskFn σ ρ}
    (hpc : s.pc = .running c f) : ∃ k, c = .task k := by
  have hend := hinv.endAt
  rwa [hpc] at hend

/-- Where the loop awaits a `started`, that hook is what it entered last. -/
theorem LifecycleInv.starting (hinv : LifecycleInv E s)
    (hpc : s.pc = .starting ∨ s.pc = .refreshStarting) :
    lastHook s.trace = some (.enter (.hook .started))
      ∧ ∃ pre, s.trace = pre ++ [.enter (.hook .started)] := by
  have hat := hinv.hookAt
  have hend := hinv.endAt
  rcases hpc with hpc | hpc <;> rw [hpc] at hat hend <;> exact ⟨hat, hend⟩

/-! ## The step lemma

One lemma for each field of the lifecycle, by cases on the step. Most steps add one event that the
program counter allows; `simp` closes these, and the cases that are written out are the others. -/

theorem hookAt_step (hinv : LifecycleInv E s) (hE : E.onStream = false) (h : E.Step s i s') :
    HookAt s'.pc (lastHook s'.trace) := by
  have hat := hinv.hookAt
  cases h with
  | taskDone c f hpc => obtain ⟨k, rfl⟩ := hinv.task_of_running hpc; simp_all [HookAt]
  | taskIgnored c f hpc => obtain ⟨k, rfl⟩ := hinv.task_of_running hpc; simp_all [HookAt]
  | _ => simp_all [HookAt]

theorem endAt_step (hinv : LifecycleInv E s) (hE : E.onStream = false) (h : E.Step s i s') :
    EndAt E s'.pc s'.trace := by
  have hend := hinv.endAt
  -- only these steps lead to a place at which the end of the trace matters
  cases h with
  | poll hpc => exact ⟨s.trace, rfl⟩
  | taskCancelled c f hpc a hfut htimeout hfail =>
    obtain ⟨k, rfl⟩ := hinv.task_of_running hpc
    exact ⟨hfail, s.trace, k, by simp⟩
  | refreshed hpc a b => exact ⟨s.trace ++ [.leave (.hook .stopped) .ok], rfl⟩
  | stopped hpc a =>
    rw [hpc] at hend
    obtain ⟨pre, k, hk, htrace⟩ := hend
    exact ⟨pre, k, hk, by simp [htrace]⟩
  | takeTask hpc k f => exact ⟨k, rfl⟩
  | takeStop hpc k => exact ⟨s.trace, .stop k, rfl, by simp⟩
  | takeClosed hpc => exact ⟨s.trace, .closed, rfl, by simp⟩
  | _ => simp_all [EndAt]

theorem handlers_up_step (hinv : LifecycleInv E s) (hE : E.onStream = false) (h : E.Step s i s') :
    Trace.Past (fun pre e => ∀ k, e = .enter (.task k) →
      lastHook pre = some (.leave (.hook .started) .ok)) s'.trace := by
  have hup := hinv.handlers_up
  cases h with
  | takeTask hpc k f =>
    -- the one step that enters a handler, from the receiver
    have hopen : lastHook s.trace = some (.leave (.hook .started) .ok) := by
      have hat := hinv.hookAt
      rwa [hpc] at hat
    simp [hup, hopen]
  | takeItem hpc hstream => simp [hE] at hstream
  | _ => simp [hup]

theorem hooks_follow_step (hinv : LifecycleInv E s) (hE : E.onStream = false) (h : E.Step s i s') :
    Trace.Past (fun pre e => e.isHook = true → Follows (lastHook pre) e) s'.trace := by
  have hfollow := hinv.hooks_follow
  have hat := hinv.hookAt
  cases h with
  | startedOk hpc =>
    refine (Trace.past_append _ _ _).mpr ⟨hfollow, ?_⟩
    simp [(hinv.starting hpc).1, Follows]
  | startedErr hpc =>
    refine (Trace.past_append _ _ _).mpr ⟨hfollow, ?_⟩
    simp [(hinv.starting hpc).1, Follows]
  | taskDone c f hpc => obtain ⟨k, rfl⟩ := hinv.task_of_running hpc; simp [hfollow]
  | taskIgnored c f hpc => obtain ⟨k, rfl⟩ := hinv.task_of_running hpc; simp [hfollow]
  | taskCancelled c f hpc =>
    obtain ⟨k, rfl⟩ := hinv.task_of_running hpc
    simp_all [HookAt, Follows]
  | _ => simp_all [HookAt, Follows]

/-- What a step adds to the two sides of the balance. -/
theorem answered_step (hinv : LifecycleInv E s) (hE : E.onStream = false) (h : E.Step s i s')
    (hpanic : s'.pc ≠ .panicked) :
    opened s'.trace = shut s'.trace + if s'.pc.up then 1 else 0 := by
  have hbal := hinv.answered
  -- a `started` opens, a `stopped` or a failed `started` shuts, and the rest does neither
  cases h with
  | startedOk hpc => rcases hpc with hpc | hpc <;> simp_all [opened, shut, Pc.up]
  | startedErr hpc => rcases hpc with hpc | hpc <;> simp_all [opened, shut, Pc.up]
  | taskDone c f hpc =>
    obtain ⟨k, rfl⟩ := hinv.task_of_running hpc
    simp_all [opened, shut, Pc.up]
  | taskIgnored c f hpc =>
    obtain ⟨k, rfl⟩ := hinv.task_of_running hpc
    simp_all [opened, shut, Pc.up]
  | taskCancelled c f hpc =>
    obtain ⟨k, rfl⟩ := hinv.task_of_running hpc
    simp_all [opened, shut, Pc.up]
    omega
  | takeStop hpc => simp_all [opened, shut, Pc.up]; omega
  | takeClosed hpc => simp_all [opened, shut, Pc.up]; omega
  | takeRestart hpc => simp_all [opened, shut, Pc.up]; omega
  | _ => simp_all [opened, shut, Pc.up]

/-- `cancelled` is entered by one step only, directly after the task has expired. -/
theorem cancelled_iff_step (hinv : LifecycleInv E s) (hE : E.onStream = false)
    (h : E.Step s i s') :
    .enter (.hook .cancelled) ∈ s'.trace ↔
      E.config.failOnTimeout = true ∧ ∃ k, .leave (.task k) .expired ∈ s'.trace := by
  have hiff := hinv.cancelled_iff
  cases h with
  | taskDone c f hpc => obtain ⟨k, rfl⟩ := hinv.task_of_running hpc; simp [hiff]
  | taskIgnored c f hpc a hend htimeout hfail => simp [hiff, hfail]
  | taskCancelled c f hpc a hend htimeout hfail =>
    obtain ⟨k, rfl⟩ := hinv.task_of_running hpc
    simp [hfail]
  | finished hpc hstream => simp_all
  | takeItem hpc hstream => simp_all
  | takeStreamEnd hpc hstream => simp_all
  | _ => simp [hiff]

/-- After `cancelled` has been entered it returns or panics, and the loop has ended. -/
theorem LifecycleInv.after_cancelled (hinv : LifecycleInv E s)
    (hin : .enter (.hook .cancelled) ∈ s.trace) (h : E.Step s i s') :
    (s'.trace = s.trace ∨ s'.trace = s.trace ++ [.leave (.hook .cancelled) .ok])
      ∧ s'.pc.ended = true := by
  have hat : s.pc = .cancelling := (hinv.cancelledAt hin).resolve_right (by
    simp [EventLoop.not_ended_of_step h])
  cases h with
  | panic hpc => exact ⟨.inl rfl, rfl⟩
  | cancelled hpc => exact ⟨.inr rfl, rfl⟩
  | startedOk hpc | startedErr hpc => rcases hpc with hpc | hpc <;> simp [hat] at hpc
  | _ => cases hat.symm.trans ‹s.pc = _›

/-- After `cancelled` has been entered only its own return is added to the trace. -/
theorem cancelled_last_step (hinv : LifecycleInv E s) (h : E.Step s i s') :
    Trace.Past (fun pre e => .enter (.hook .cancelled) ∈ pre → e = .leave (.hook .cancelled) .ok)
      s'.trace := by
  have hlast := hinv.cancelled_last
  by_cases hin : .enter (.hook .cancelled) ∈ s.trace
  · rcases (hinv.after_cancelled hin h).1 with htrace | htrace
    · rwa [htrace]
    · simp [htrace, hlast]
  · cases h <;> simp [hlast, hin]

theorem cancelledAt_step (hinv : LifecycleInv E s) (h : E.Step s i s') : CancelledAt s' := by
  intro hnow
  by_cases hin : .enter (.hook .cancelled) ∈ s.trace
  · exact .inr (hinv.after_cancelled hin h).2
  · cases h with
    | taskCancelled c f hpc => exact .inl rfl
    | _ => simp [hin] at hnow

/-- An expired task that is ignored leaves the loop at its receiver. -/
theorem expired_receiving_step (hinv : LifecycleInv E s) (hE : E.onStream = false)
    (hfail : E.config.failOnTimeout = false) (h : E.Step s i s') (k : ℕ)
    (hlast : s'.trace.getLast? = some (.leave (.task k) .expired)) : s'.pc = .receiving := by
  have hold := hinv.expired_receiving hfail k
  cases h with
  | taskIgnored c f hpc => rfl
  | panic hpc =>
    -- the loop is inside a call, so the trace does not end with an expired task
    have hrec := hold hlast
    simp [hrec, Pc.inCall] at hpc
  | notified hpc =>
    have hrec := hold hlast
    simp [hrec] at hpc
  | _ => simp_all

/-- And what comes next is the next payload. -/
theorem expired_next_step (hinv : LifecycleInv E s) (hfail : E.config.failOnTimeout = false)
    (h : E.Step s i s') :
    Trace.Past (fun pre e =>
      ∀ k, pre.getLast? = some (.leave (.task k) .expired) → ∃ t, e = .taken t) s'.trace := by
  have hold := hinv.expired_next hfail
  have hrec := hinv.expired_receiving hfail
  cases h with
  | startedOk hpc => rcases hpc with hpc | hpc <;> simp_all
  | startedErr hpc => rcases hpc with hpc | hpc <;> simp_all
  | _ => simp_all

theorem returned_ok_step (hinv : LifecycleInv E s) (h : E.Step s i s') (a : σ)
    (hret : s'.pc = .returned (.ok a)) : a = s'.actor ∧ EndsByStop s'.trace := by
  have hend := hinv.endAt
  cases h with
  | notified hpc =>
    rw [hpc] at hend
    simp only [LoopState.goto_pc, Pc.returned.injEq, Except.ok.injEq] at hret
    exact ⟨hret.symm, hend⟩
  | keepRestart hpc => simp [hpc] at hret
  | _ => simp at hret

theorem returned_err_step (hinv : LifecycleInv E s) (h : E.Step s i s') (e : DynError)
    (hret : s'.pc = .returned (.error e)) :
    (EndsByStarted s'.trace ∧ ∃ n a, E.actor.started n a = .returned (s'.actor, .error e))
      ∨ (EndsByCancelled s'.trace ∧ E.config.failOnTimeout = true ∧ e = .actor .timeout) := by
  have hend := hinv.endAt
  -- two steps return an error: `started` with its own, and `cancelled` with the timeout
  cases h with
  | startedErr hpc a e' hfut =>
    obtain ⟨-, pre, hpre⟩ := hinv.starting hpc
    simp only [LoopState.leave_pc, Pc.returned.injEq, Except.error.injEq] at hret
    subst hret
    exact .inl ⟨⟨pre, by simp [hpre]⟩, s.clock, s.actor, hfut⟩
  | cancelled hpc a =>
    rw [hpc] at hend
    obtain ⟨hfail, pre, k, hpre⟩ := hend
    simp only [LoopState.leave_pc, Pc.returned.injEq, Except.error.injEq] at hret
    exact .inr ⟨⟨pre, k, by simp [hpre]⟩, hfail, hret.symm⟩
  | keepRestart hpc => simp [hpc] at hret
  | _ => simp at hret

/-- **The step lemma of the lifecycle.** -/
theorem lifecycle_step (hinv : LifecycleInv E s) (hE : E.onStream = false) (h : E.Step s i s') :
    LifecycleInv E s' where
  handlers_up := handlers_up_step hinv hE h
  hooks_follow := hooks_follow_step hinv hE h
  answered := answered_step hinv hE h
  cancelled_iff := cancelled_iff_step hinv hE h
  cancelled_last := cancelled_last_step hinv h
  expired_next hfail := expired_next_step hinv hfail h
  expired_receiving hfail := expired_receiving_step hinv hE hfail h
  returned_ok := returned_ok_step hinv h
  returned_err := returned_err_step hinv h
  hookAt := hookAt_step hinv hE h
  endAt := endAt_step hinv hE h
  cancelledAt := cancelledAt_step hinv h

/-- Every run of `create` keeps the lifecycle. -/
theorem lifecycle_of_run (hE : E.onStream = false) {a : σ} {is : List (Option (Input σ ρ))}
    (h : (E.machine ρ a).Run is s) : LifecycleInv E s := by
  refine h.invariant (I := LifecycleInv E) (lifecycle_init E a) fun s l s' hinv hstep => ?_
  exact lifecycle_step hinv hE (EventLoop.step_cases hstep)

/-! ## The result of the loop

A loop that has returned stands behind its last call. The three endings differ in their last event,
so the result tells which of them it was. -/

/-- The three ways to return leave different last calls. -/
theorem endsByStop_last {t : List Event} (h : EndsByStop t) :
    t.getLast? = some (.leave (.hook .stopped) .ok) := by
  obtain ⟨pre, k, -, rfl⟩ := h
  simp

theorem endsByStarted_last {t : List Event} (h : EndsByStarted t) :
    t.getLast? = some (.leave (.hook .started) .err) := by
  obtain ⟨pre, rfl⟩ := h
  simp

theorem endsByCancelled_last {t : List Event} (h : EndsByCancelled t) :
    t.getLast? = some (.leave (.hook .cancelled) .ok) := by
  obtain ⟨pre, k, rfl⟩ := h
  simp

/-- `Ok` is returned exactly when the last call is a `stopped` that a `Stop` or the closed mailbox
caused. -/
theorem Lifecycle.ok_iff (hlife : Lifecycle E s) {r : Except DynError σ}
    (hret : s.pc = .returned r) : r = .ok s.actor ↔ EndsByStop s.trace := by
  constructor
  · rintro rfl
    exact (hlife.returned_ok _ hret).2
  · intro hstop
    cases r with
    | ok a => rw [(hlife.returned_ok a hret).1]
    | error e =>
      have hlast := endsByStop_last hstop
      rcases hlife.returned_err e hret with ⟨hs, -⟩ | ⟨hc, -⟩
      · simp [endsByStarted_last hs] at hlast
      · simp [endsByCancelled_last hc] at hlast

/-- An error is returned exactly when the last call is a failed `started` or the `cancelled` after
an expired task. -/
theorem Lifecycle.error_iff (hlife : Lifecycle E s) {r : Except DynError σ}
    (hret : s.pc = .returned r) :
    (∃ e, r = .error e) ↔ EndsByStarted s.trace ∨ EndsByCancelled s.trace := by
  constructor
  · rintro ⟨e, rfl⟩
    exact (hlife.returned_err e hret).imp (·.1) (·.1)
  · intro hend
    cases r with
    | error e => exact ⟨e, rfl⟩
    | ok a =>
      have hlast := endsByStop_last (hlife.returned_ok a hret).2
      rcases hend with hs | hc
      · simp [endsByStarted_last hs] at hlast
      · simp [endsByCancelled_last hc] at hlast

/-- At its receiver the loop takes whatever payload comes. -/
theorem takes_next (hE : E.onStream = false) (hpc : s.pc = .receiving) (e : Envelope σ ρ) :
    ∃ s' t, E.step s (some (.payload e)) = some s' ∧ s.trace ++ [.taken t] <+: s'.trace := by
  obtain ⟨k, payload⟩ := e
  have hstep : E.step s (some (.payload ⟨k, payload⟩)) = E.create s
      (some (.payload ⟨k, payload⟩)) :=
    by simp [EventLoop.step, hE]
  unfold EventLoop.create at hstep
  rw [hpc] at hstep
  cases payload with
  | task f => exact ⟨_, .task k, hstep, by simp⟩
  | stop => exact ⟨_, .stop k, hstep, by simp⟩
  | restart =>
    refine ⟨_, .restart k, hstep, ?_⟩
    cases hstrategy : E.strategy <;> simp [EventLoop.refresh, hstrategy]

/-- **The lifecycle protocol of `EventLoop::create`.** For arbitrary hooks and handlers, every
configuration, every restart strategy and every sequence of payloads: the trace of the loop obeys
the protocol at every moment, the result is `Ok` or an error by what the last call was, and a loop
at its receiver takes the next payload. -/
theorem create_lifecycle (E : EventLoop σ) (hE : E.onStream = false) (a : σ)
    (is : List (Option (Input σ ρ))) (s : LoopState σ ρ) (h : (E.machine ρ a).Run is s) :
    Lifecycle E s
      ∧ (∀ r, s.pc = .returned r → (r = .ok s.actor ↔ EndsByStop s.trace)
          ∧ ((∃ e, r = .error e) ↔ EndsByStarted s.trace ∨ EndsByCancelled s.trace))
      ∧ (s.pc = .receiving → ∀ e, ∃ s' t, E.step s (some (.payload e)) = some s'
          ∧ s.trace ++ [.taken t] <+: s'.trace) := by
  have hlife := (lifecycle_of_run hE h).toLifecycle
  exact ⟨hlife, fun r hret => ⟨hlife.ok_iff hret, hlife.error_iff hret⟩,
    fun hpc e => takes_next hE hpc e⟩

/-- A task that overruns a failing timeout, to the end of the loop. -/
def expiredRun : List (Option (Input ℕ ℕ)) :=
  [none, none, some (.payload ⟨0, .task fun n => .overruns (n + 1)⟩), none, none]

theorem create_lifecycle_expired :
    ∃ s : LoopState ℕ ℕ,
      (((EventLoop.fromChannel (.provided 0)).failAfter 5).machine ℕ 0).Run expiredRun s
        ∧ s.pc = .returned (.error (.actor .timeout))
        ∧ Lifecycle ((EventLoop.fromChannel (.provided 0)).failAfter 5) s :=
  ⟨_, .of_exec rfl, rfl, (create_lifecycle _ rfl 0 expiredRun _ (.of_exec rfl)).1⟩

end Hannibal
