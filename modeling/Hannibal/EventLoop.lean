import Hannibal.Actor
import Hannibal.Lib.Machine

/-!
# Hannibal.EventLoop — the two event loops

`EventLoop::create` and `EventLoop::create_on_stream` (`event_loop.rs`), cut at every point where
another task may run: a call into the actor is entered in one step and left in another, and at
`payload_rx.next().await` (`select!` in the second loop) the loop needs an input from outside.

* **`LoopState`** — where the loop stands (`Pc`), the actor value, and the trace of what it has
  taken from its sources and of the calls it has made.
* **`EventLoop.create`**, **`EventLoop.createOnStream`** — one step of each loop.
* **`EventLoop.Step`** — what one step of either loop can do, as a relation with one constructor for
  each case; `step_of_create` and `step_of_createOnStream` show that nothing else happens. Proofs
  about the loops go by cases on it.
-/

namespace Hannibal

open Lts

/-- The hooks a loop calls. -/
inductive Hook where
  | started
  | stopped
  | cancelled
  | finished
  deriving DecidableEq, Repr

/-- A call into the actor: a hook, the task an operation enqueued, or the handler of the `n`-th
stream item. -/
inductive Call where
  | hook (h : Hook)
  | task (client : ℕ)
  | item (n : ℕ)
  deriving DecidableEq, Repr

/-- How a call was left: it returned (`ok`), it returned an error, or its future was dropped at the
deadline. -/
inductive Exit where
  | ok
  | err
  | expired
  deriving DecidableEq, Repr

/-- What the loop takes from its receiver or its stream. -/
inductive Taken where
  | task (client : ℕ)
  | restart (client : ℕ)
  | stop (client : ℕ)
  | closed
  | item (n : ℕ)
  | streamEnd
  deriving DecidableEq, Repr

/-- An entry of the loop's trace. -/
inductive Event where
  | taken (t : Taken)
  | enter (c : Call)
  | leave (c : Call) (x : Exit)
  deriving DecidableEq, Repr

/-- What a source can give the loop: a payload or the end of the closed mailbox, an item (as the
handler call it leads to) or the end of the stream. -/
inductive Input (σ ρ : Type) where
  | payload (e : Envelope σ ρ)
  | closed
  | item (f : TaskFn σ ρ)
  | streamEnd

/-- Where the loop future stands. -/
inductive Pc (σ ρ : Type) where
  /-- created, never polled -/
  | unpolled
  /-- inside `actor.started(&mut self.ctx).await?` -/
  | starting
  /-- at `payload_rx.next().await`, or at `select!` -/
  | receiving
  /-- inside `timeout_fut(..)` of a task or of a stream item -/
  | running (c : Call) (f : TaskFn σ ρ)
  /-- inside the `stopped` and the `started` of `R::refresh` -/
  | refreshStopping
  | refreshStarting
  /-- inside `actor.cancelled(..)`, inside `actor.finished(..)` -/
  | cancelling
  | finishing
  /-- inside the final `actor.stopped(..)` -/
  | stopping
  /-- at `self.stop.notify()` -/
  | notifying
  | returned (r : Except DynError σ)
  | panicked
  /-- the future was dropped before it had ended -/
  | dropped

/-- The loop is inside a call into the actor. -/
def Pc.inCall {σ ρ : Type} : Pc σ ρ → Bool
  | .starting | .running _ _ | .refreshStopping | .refreshStarting | .cancelling | .finishing
  | .stopping => true
  | _ => false

/-- The future has ended: it returned, it panicked, or it was dropped. -/
def Pc.ended {σ ρ : Type} : Pc σ ρ → Bool
  | .returned _ | .panicked | .dropped => true
  | _ => false

/-- The loop stands at `self.stop.notify()`. -/
def Pc.atNotify {σ ρ : Type} : Pc σ ρ → Bool
  | .notifying => true
  | _ => false

/-- The loop does not come back to its receiver. -/
def Pc.final {σ ρ : Type} : Pc σ ρ → Bool
  | .cancelling | .stopping | .notifying | .returned _ | .panicked | .dropped => true
  | _ => false

/-- A loop future. `clock` counts the calls that have been left, `nextItem` the stream items
taken. -/
structure LoopState (σ ρ : Type) where
  pc : Pc σ ρ
  actor : σ
  clock : ℕ
  nextItem : ℕ
  streamEnded : Bool
  trace : List Event

/-- What an event loop is made with. `onStream` tells which of the two loops runs. -/
structure EventLoop (σ : Type) where
  actor : Actor σ
  config : EventLoopConfig
  strategy : RestartStrategy
  onStream : Bool

namespace EventLoop

variable {σ : Type}

/-- `EventLoop::from_channel`, with the defaults of its type and its configuration. -/
def fromChannel (actor : Actor σ) : EventLoop σ := ⟨actor, .default, .restartOnly, false⟩

def failAfter (E : EventLoop σ) (timeout : ℕ) : EventLoop σ :=
  { E with config := ⟨some timeout, true⟩ }

def recreating (E : EventLoop σ) : EventLoop σ := { E with strategy := .recreateFromDefault }

end EventLoop

variable {σ ρ : Type}

namespace LoopState

/-- The future as `create` returns it. -/
def init (actor : σ) : LoopState σ ρ := ⟨.unpolled, actor, 0, 0, false, []⟩

/-- The loop goes on at `pc`. -/
def goto (s : LoopState σ ρ) (pc : Pc σ ρ) : LoopState σ ρ := { s with pc := pc }

/-- The loop takes `t` from a source. -/
def take (s : LoopState σ ρ) (t : Taken) : LoopState σ ρ :=
  { s with trace := s.trace ++ [.taken t] }

/-- The loop enters the call `c`. -/
def call (s : LoopState σ ρ) (c : Call) (pc : Pc σ ρ) : LoopState σ ρ :=
  { s with pc := pc, trace := s.trace ++ [.enter c] }

/-- The call `c` is left and the actor value is now `a`. -/
def leave (s : LoopState σ ρ) (c : Call) (x : Exit) (a : σ) (pc : Pc σ ρ) : LoopState σ ρ :=
  { s with pc := pc, actor := a, clock := s.clock + 1, trace := s.trace ++ [.leave c x] }

@[simp] theorem goto_pc (s : LoopState σ ρ) (pc : Pc σ ρ) : (s.goto pc).pc = pc := rfl
@[simp] theorem goto_trace (s : LoopState σ ρ) (pc : Pc σ ρ) : (s.goto pc).trace = s.trace := rfl
@[simp] theorem goto_actor (s : LoopState σ ρ) (pc : Pc σ ρ) : (s.goto pc).actor = s.actor := rfl
@[simp] theorem goto_clock (s : LoopState σ ρ) (pc : Pc σ ρ) : (s.goto pc).clock = s.clock := rfl
@[simp] theorem take_pc (s : LoopState σ ρ) (t : Taken) : (s.take t).pc = s.pc := rfl
@[simp] theorem take_trace (s : LoopState σ ρ) (t : Taken) :
    (s.take t).trace = s.trace ++ [.taken t] := rfl
@[simp] theorem take_actor (s : LoopState σ ρ) (t : Taken) : (s.take t).actor = s.actor := rfl
@[simp] theorem take_clock (s : LoopState σ ρ) (t : Taken) : (s.take t).clock = s.clock := rfl
@[simp] theorem call_pc (s : LoopState σ ρ) (c : Call) (pc : Pc σ ρ) : (s.call c pc).pc = pc := rfl
@[simp] theorem call_trace (s : LoopState σ ρ) (c : Call) (pc : Pc σ ρ) :
    (s.call c pc).trace = s.trace ++ [.enter c] := rfl
@[simp] theorem call_actor (s : LoopState σ ρ) (c : Call) (pc : Pc σ ρ) :
    (s.call c pc).actor = s.actor := rfl
@[simp] theorem call_clock (s : LoopState σ ρ) (c : Call) (pc : Pc σ ρ) :
    (s.call c pc).clock = s.clock := rfl
@[simp] theorem leave_pc (s : LoopState σ ρ) (c : Call) (x : Exit) (a : σ) (pc : Pc σ ρ) :
    (s.leave c x a pc).pc = pc := rfl
@[simp] theorem leave_trace (s : LoopState σ ρ) (c : Call) (x : Exit) (a : σ) (pc : Pc σ ρ) :
    (s.leave c x a pc).trace = s.trace ++ [.leave c x] := rfl
@[simp] theorem leave_actor (s : LoopState σ ρ) (c : Call) (x : Exit) (a : σ) (pc : Pc σ ρ) :
    (s.leave c x a pc).actor = a := rfl
@[simp] theorem leave_clock (s : LoopState σ ρ) (c : Call) (x : Exit) (a : σ) (pc : Pc σ ρ) :
    (s.leave c x a pc).clock = s.clock + 1 := rfl
@[simp] theorem goto_streamEnded (s : LoopState σ ρ) (pc : Pc σ ρ) :
    (s.goto pc).streamEnded = s.streamEnded := rfl
@[simp] theorem take_streamEnded (s : LoopState σ ρ) (t : Taken) :
    (s.take t).streamEnded = s.streamEnded := rfl
@[simp] theorem call_streamEnded (s : LoopState σ ρ) (c : Call) (pc : Pc σ ρ) :
    (s.call c pc).streamEnded = s.streamEnded := rfl
@[simp] theorem leave_streamEnded (s : LoopState σ ρ) (c : Call) (x : Exit) (a : σ) (pc : Pc σ ρ) :
    (s.leave c x a pc).streamEnded = s.streamEnded := rfl

end LoopState

namespace EventLoop

/-! ## The pieces both loops are written with

Each piece stands for one `.await` of the source and what follows it up to the next one. The two
loops differ in which pieces they use and in what they take at their receive point, not in a
piece. -/

/-- Leaving a `started` hook: `actor.started(ctx).await?`. `none`, here and below: the future of the
hook does not come to an end, and the loop stays inside it. -/
def afterStarted (E : EventLoop σ) (s : LoopState σ ρ) : Option (LoopState σ ρ) :=
  match E.actor.started s.clock s.actor with
  | .returned (a, .ok ()) => some (s.leave (.hook .started) .ok a .receiving)
  | .returned (a, .error e) => some (s.leave (.hook .started) .err a (.returned (.error e)))
  | .panicked => some (s.goto .panicked)
  | .pends => none

/-- Leaving `timeout_fut(..)`: on a timeout the loop calls `cancelled` and returns the error, or
goes on, depending on `fail_on_timeout`. -/
def afterTask (E : EventLoop σ) (s : LoopState σ ρ) (c : Call) (f : TaskFn σ ρ) :
    Option (LoopState σ ρ) :=
  match timeoutFut E.config.timeout (f s.actor) with
  | none => none
  | some (.completed a _) => some (s.leave c .ok a .receiving)
  | some (.overruns a) =>
    if E.config.failOnTimeout then
      some ((s.leave c .expired a .receiving).call (.hook .cancelled) .cancelling)
    else some (s.leave c .expired a .receiving)
  | some .panicked => some (s.goto .panicked)

/-- Leaving a hook that returns nothing. -/
def afterHook (s : LoopState σ ρ) (h : Hook) (fut : HookEnd σ) (pc : Pc σ ρ) :
    Option (LoopState σ ρ) :=
  match fut with
  | .returned a => some (s.leave (.hook h) .ok a pc)
  | .panicked => some (s.goto .panicked)
  | .pends => none

/-- `R::refresh(actor, ctx)`, up to its first call into the actor. -/
def refresh (E : EventLoop σ) (s : LoopState σ ρ) : LoopState σ ρ :=
  match E.strategy with
  | .nonRestartable => s
  | .restartOnly => s.call (.hook .stopped) .refreshStopping
  | .recreateFromDefault => s.call (.hook .stopped) .refreshStopping

/-- The rest of `R::refresh` once `stopped` has returned: `RecreateFromDefault` takes a new actor,
and `started` is called. -/
def refreshStopped (E : EventLoop σ) (s : LoopState σ ρ) : Option (LoopState σ ρ) :=
  match E.actor.stopped s.clock s.actor with
  | .panicked => some (s.goto .panicked)
  | .pends => none
  | .returned a =>
    let s := s.leave (.hook .stopped) .ok a .refreshStopping
    match E.strategy with
    | .recreateFromDefault =>
      match E.actor.default s.clock with
      | .returned d => some ({ s with actor := d }.call (.hook .started) .refreshStarting)
      | .panicked => some (s.goto .panicked)
      | .pends => none
    | _ => some (s.call (.hook .started) .refreshStarting)

/-! ## `EventLoop::create` -/

/-- One step of the future of `EventLoop::create`: `none` moves the loop on by itself, `some i`
gives it the input it waits for. -/
def create (E : EventLoop σ) (s : LoopState σ ρ) : Option (Input σ ρ) → Option (LoopState σ ρ)
  | none =>
    match s.pc with
    | .unpolled => some (s.call (.hook .started) .starting)
    | .starting => E.afterStarted s
    | .running c f => E.afterTask s c f
    | .refreshStopping => E.refreshStopped s
    | .refreshStarting => E.afterStarted s
    | .cancelling => afterHook s .cancelled (E.actor.cancelled s.clock s.actor)
        (.returned (.error (.actor .timeout)))
    | .stopping => afterHook s .stopped (E.actor.stopped s.clock s.actor) .notifying
    | .notifying => some (s.goto (.returned (.ok s.actor)))
    | _ => none
  | some i =>
    match s.pc, i with
    | .receiving, .payload ⟨k, .restart⟩ => some (E.refresh (s.take (.restart k)))
    | .receiving, .payload ⟨k, .task f⟩ =>
      some ((s.take (.task k)).call (.task k) (.running (.task k) f))
    | .receiving, .payload ⟨k, .stop⟩ => some ((s.take (.stop k)).call (.hook .stopped) .stopping)
    | .receiving, .closed => some ((s.take .closed).call (.hook .stopped) .stopping)
    | _, _ => none

/-! ## `EventLoop::create_on_stream`

The arms of `select!` are the inputs of the one receive point, so which of two ready sources is
taken is the choice of whoever steps the loop. Only this loop has the arm that panics on a
Restart. -/

/-- One step of the future of `EventLoop::create_on_stream`. The stream is fused: once it has
ended, its branch of `select!` is never taken again. -/
def createOnStream (E : EventLoop σ) (s : LoopState σ ρ) :
    Option (Input σ ρ) → Option (LoopState σ ρ)
  | none =>
    match s.pc with
    | .unpolled => some (s.call (.hook .started) .starting)
    | .starting => E.afterStarted s
    | .running c f => E.afterTask s c f
    | .finishing => afterHook s .finished (E.actor.finished s.clock s.actor) .receiving
    | .cancelling => afterHook s .cancelled (E.actor.cancelled s.clock s.actor)
        (.returned (.error (.actor .timeout)))
    | .stopping => afterHook s .stopped (E.actor.stopped s.clock s.actor) .notifying
    | .notifying => some (s.goto (.returned (.ok s.actor)))
    | _ => none
  | some i =>
    match s.pc, i with
    | .receiving, .payload ⟨k, .task f⟩ =>
      some ((s.take (.task k)).call (.task k) (.running (.task k) f))
    | .receiving, .payload ⟨k, .stop⟩ => some ((s.take (.stop k)).call (.hook .stopped) .stopping)
    | .receiving, .payload ⟨k, .restart⟩ => some ((s.take (.restart k)).goto .panicked)
    | .receiving, .closed => some ((s.take .closed).call (.hook .stopped) .stopping)
    | .receiving, .item f =>
      if s.streamEnded then none
      else some ({ s with nextItem := s.nextItem + 1 }.take (.item s.nextItem) |>.call
        (.item s.nextItem) (.running (.item s.nextItem) f))
    | .receiving, .streamEnd =>
      if s.streamEnded then none
      else some
        ({ s with streamEnded := true }.take .streamEnd |>.call (.hook .finished) .finishing)
    | _, _ => none

/-- One step of the loop that was set up. -/
def step (E : EventLoop σ) (s : LoopState σ ρ) (i : Option (Input σ ρ)) : Option (LoopState σ ρ) :=
  if E.onStream then E.createOnStream s i else E.create s i

/-! ## What one step can do

`Step` lists the cases once, guards included, and one lemma for each piece shows that leaving it is
one of them. Everything that is proved about the loops goes by cases on `Step` and unfolds neither
`create` nor `createOnStream`. -/

/-- The actor value `R::refresh` goes on with once `stopped` has left `a`; `none` when
`Default::default` does not give one. -/
def refreshedActor (E : EventLoop σ) (clock : ℕ) (a : σ) : Option σ :=
  match E.strategy with
  | .recreateFromDefault =>
    match E.actor.default clock with
    | .returned d => some d
    | .panicked | .pends => none
  | _ => some a

/-- Everything one step of either loop can do. -/
inductive Step (E : EventLoop σ) (s : LoopState σ ρ) :
    Option (Input σ ρ) → LoopState σ ρ → Prop where
  | poll (hpc : s.pc = .unpolled) : Step E s none (s.call (.hook .started) .starting)
  | startedOk (hpc : s.pc = .starting ∨ s.pc = .refreshStarting) (a : σ)
      (hend : E.actor.started s.clock s.actor = .returned (a, .ok ())) :
      Step E s none (s.leave (.hook .started) .ok a .receiving)
  | startedErr (hpc : s.pc = .starting ∨ s.pc = .refreshStarting) (a : σ) (e : DynError)
      (hend : E.actor.started s.clock s.actor = .returned (a, .error e)) :
      Step E s none (s.leave (.hook .started) .err a (.returned (.error e)))
  | panic (hpc : s.pc.inCall = true) : Step E s none (s.goto .panicked)
  | taskDone (c : Call) (f : TaskFn σ ρ) (hpc : s.pc = .running c f) (a : σ) (r : Option ρ)
      (hend : f s.actor = .completed a r) : Step E s none (s.leave c .ok a .receiving)
  | taskIgnored (c : Call) (f : TaskFn σ ρ) (hpc : s.pc = .running c f) (a : σ)
      (hend : f s.actor = .overruns a) (htimeout : E.config.timeout ≠ none)
      (hfail : E.config.failOnTimeout = false) : Step E s none (s.leave c .expired a .receiving)
  | taskCancelled (c : Call) (f : TaskFn σ ρ) (hpc : s.pc = .running c f) (a : σ)
      (hend : f s.actor = .overruns a) (htimeout : E.config.timeout ≠ none)
      (hfail : E.config.failOnTimeout = true) :
      Step E s none ((s.leave c .expired a .receiving).call (.hook .cancelled) .cancelling)
  | refreshed (hpc : s.pc = .refreshStopping) (a b : σ)
      (hend : E.actor.stopped s.clock s.actor = .returned a)
      (hactor : E.refreshedActor (s.clock + 1) a = some b) :
      Step E s none ({ s.leave (.hook .stopped) .ok a .refreshStopping with actor := b }.call
        (.hook .started) .refreshStarting)
  | refreshPanic (hpc : s.pc = .refreshStopping) (a : σ)
      (hend : E.actor.stopped s.clock s.actor = .returned a) :
      Step E s none ((s.leave (.hook .stopped) .ok a .refreshStopping).goto .panicked)
  | cancelled (hpc : s.pc = .cancelling) (a : σ)
      (hend : E.actor.cancelled s.clock s.actor = .returned a) :
      Step E s none (s.leave (.hook .cancelled) .ok a (.returned (.error (.actor .timeout))))
  | finished (hpc : s.pc = .finishing) (hstream : E.onStream = true) (a : σ)
      (hend : E.actor.finished s.clock s.actor = .returned a) :
      Step E s none (s.leave (.hook .finished) .ok a .receiving)
  | stopped (hpc : s.pc = .stopping) (a : σ)
      (hend : E.actor.stopped s.clock s.actor = .returned a) :
      Step E s none (s.leave (.hook .stopped) .ok a .notifying)
  | notified (hpc : s.pc = .notifying) : Step E s none (s.goto (.returned (.ok s.actor)))
  | takeTask (hpc : s.pc = .receiving) (k : ℕ) (f : TaskFn σ ρ) :
      Step E s (some (.payload ⟨k, .task f⟩))
        ((s.take (.task k)).call (.task k) (.running (.task k) f))
  | takeStop (hpc : s.pc = .receiving) (k : ℕ) :
      Step E s (some (.payload ⟨k, .stop⟩)) ((s.take (.stop k)).call (.hook .stopped) .stopping)
  | takeClosed (hpc : s.pc = .receiving) :
      Step E s (some .closed) ((s.take .closed).call (.hook .stopped) .stopping)
  | takeRestart (hpc : s.pc = .receiving) (hstream : E.onStream = false)
      (hstrategy : E.strategy ≠ .nonRestartable) (k : ℕ) :
      Step E s (some (.payload ⟨k, .restart⟩))
        ((s.take (.restart k)).call (.hook .stopped) .refreshStopping)
  | keepRestart (hpc : s.pc = .receiving) (hstream : E.onStream = false)
      (hstrategy : E.strategy = .nonRestartable) (k : ℕ) :
      Step E s (some (.payload ⟨k, .restart⟩)) (s.take (.restart k))
  | panicRestart (hpc : s.pc = .receiving) (hstream : E.onStream = true) (k : ℕ) :
      Step E s (some (.payload ⟨k, .restart⟩)) ((s.take (.restart k)).goto .panicked)
  | takeItem (hpc : s.pc = .receiving) (hstream : E.onStream = true)
      (hopen : s.streamEnded = false) (f : TaskFn σ ρ) :
      Step E s (some (.item f))
        ({ s with nextItem := s.nextItem + 1 }.take (.item s.nextItem) |>.call
        (.item s.nextItem) (.running (.item s.nextItem) f))
  | takeStreamEnd (hpc : s.pc = .receiving) (hstream : E.onStream = true)
      (hopen : s.streamEnded = false) :
      Step E s (some .streamEnd)
        ({ s with streamEnded := true }.take .streamEnd |>.call (.hook .finished) .finishing)

/-- Leaving a `started` hook is one of the cases. -/
theorem step_of_afterStarted (E : EventLoop σ) {s s' : LoopState σ ρ}
    (hpc : s.pc = .starting ∨ s.pc = .refreshStarting) (h : E.afterStarted s = some s') :
    Step E s none s' := by
  unfold afterStarted at h
  split at h
  · next a hend => cases h; exact .startedOk hpc a hend
  · next a e hend => cases h; exact .startedErr hpc a e hend
  · cases h
    refine .panic ?_
    rcases hpc with hs | hs <;> simp [hs, Pc.inCall]
  · cases h

/-- A hook that returns nothing is left as it returned, or by a panic. -/
theorem afterHook_cases {s s' : LoopState σ ρ} {hook : Hook} {fut : HookEnd σ} {pc : Pc σ ρ}
    (h : afterHook s hook fut pc = some s') :
    (∃ a, fut = .returned a ∧ s' = s.leave (.hook hook) .ok a pc) ∨ s' = s.goto .panicked := by
  unfold afterHook at h
  split at h
  · next a => cases h; exact .inl ⟨a, rfl, rfl⟩
  · cases h; exact .inr rfl
  · cases h

/-- Leaving `timeout_fut(..)` is one of the cases. -/
theorem step_of_afterTask (E : EventLoop σ) {s s' : LoopState σ ρ} {c : Call} {f : TaskFn σ ρ}
    (hpc : s.pc = .running c f) (h : E.afterTask s c f = some s') : Step E s none s' := by
  unfold afterTask at h
  cases hfut : f s.actor with
  | completed a r =>
    -- a task that comes to an end is the same under every timeout
    simp only [hfut, timeoutFut, Option.some.injEq] at h
    subst h
    exact .taskDone c f hpc a r hfut
  | panicked =>
    simp only [hfut, timeoutFut, Option.some.injEq] at h
    subst h
    exact .panic (by simp [hpc, Pc.inCall])
  | overruns a =>
    -- only a task that overruns can tell the configurations apart
    cases htimeout : E.config.timeout with
    -- without a timeout `timeout_fut` does not return, so there is no step
    | none => simp [hfut, htimeout, timeoutFut] at h
    | some d =>
      have hne : E.config.timeout ≠ none := by simp [htimeout]
      simp only [hfut, htimeout, timeoutFut] at h
      split at h
      · next hfail =>
        cases h
        exact .taskCancelled c f hpc a hfut hne hfail
      · next hfail =>
        cases h
        exact .taskIgnored c f hpc a hfut hne (by simpa using hfail)

/-- Leaving the `stopped` of `R::refresh` is one of the cases. -/
theorem step_of_refreshStopped (E : EventLoop σ) {s s' : LoopState σ ρ}
    (hpc : s.pc = .refreshStopping) (h : E.refreshStopped s = some s') : Step E s none s' := by
  unfold refreshStopped at h
  split at h
  · cases h; exact .panic (by simp [hpc, Pc.inCall])
  · cases h
  · next a hend =>
    cases hstrategy : E.strategy with
    -- this strategy alone runs code of the actor here, `Default::default`, which may panic
    | recreateFromDefault =>
      simp only [hstrategy, LoopState.leave_clock] at h
      split at h
      · next d hdefault =>
        cases h
        exact .refreshed hpc a d hend (by simp [refreshedActor, hstrategy, hdefault])
      · cases h; exact .refreshPanic hpc a hend
      · cases h
    | nonRestartable =>
      simp only [hstrategy, Option.some.injEq] at h
      subst h
      exact .refreshed hpc a a hend (by simp [refreshedActor, hstrategy])
    | restartOnly =>
      simp only [hstrategy, Option.some.injEq] at h
      subst h
      exact .refreshed hpc a a hend (by simp [refreshedActor, hstrategy])

/-- **Nothing else happens in `create`.** -/
theorem step_of_create {E : EventLoop σ} (hstream : E.onStream = false) {s s' : LoopState σ ρ}
    {i : Option (Input σ ρ)} (h : E.create s i = some s') : Step E s i s' := by
  unfold create at h
  cases i with
  | none =>
    -- by itself the loop moves on from everywhere but its receive point and its ends
    cases hpc : s.pc <;> simp only [hpc, Option.some.injEq, reduceCtorEq] at h
    case unpolled => exact h ▸ .poll hpc
    case starting => exact step_of_afterStarted E (.inl hpc) h
    case running c f => exact step_of_afterTask E hpc h
    case refreshStopping => exact step_of_refreshStopped E hpc h
    case refreshStarting => exact step_of_afterStarted E (.inr hpc) h
    case notifying => exact h ▸ .notified hpc
    case cancelling =>
      obtain ⟨a, hend, rfl⟩ | rfl := afterHook_cases h
      · exact .cancelled hpc a hend
      · exact .panic (by simp [hpc, Pc.inCall])
    case stopping =>
      obtain ⟨a, hend, rfl⟩ | rfl := afterHook_cases h
      · exact .stopped hpc a hend
      · exact .panic (by simp [hpc, Pc.inCall])
  | some i =>
    simp only at h
    split at h
    · next k hpc =>
      cases h
      -- the strategy decides whether a Restart leads into a hook at all
      cases hstrategy : E.strategy with
      | nonRestartable =>
        rw [refresh, hstrategy]
        exact .keepRestart hpc hstream hstrategy k
      | restartOnly =>
        rw [refresh, hstrategy]
        exact .takeRestart hpc hstream (by simp [hstrategy]) k
      | recreateFromDefault =>
        rw [refresh, hstrategy]
        exact .takeRestart hpc hstream (by simp [hstrategy]) k
    · next k f hpc => cases h; exact .takeTask hpc k f
    · next k hpc => cases h; exact .takeStop hpc k
    · next hpc => cases h; exact .takeClosed hpc
    · cases h

/-- **Nothing else happens in `create_on_stream`.** -/
theorem step_of_createOnStream {E : EventLoop σ} (hstream : E.onStream = true)
    {s s' : LoopState σ ρ} {i : Option (Input σ ρ)} (h : E.createOnStream s i = some s') :
    Step E s i s' := by
  unfold createOnStream at h
  cases i with
  | none =>
    cases hpc : s.pc <;> simp only [hpc, Option.some.injEq, reduceCtorEq] at h
    case unpolled => exact h ▸ .poll hpc
    case starting => exact step_of_afterStarted E (.inl hpc) h
    case running c f => exact step_of_afterTask E hpc h
    case notifying => exact h ▸ .notified hpc
    case cancelling =>
      obtain ⟨a, hend, rfl⟩ | rfl := afterHook_cases h
      · exact .cancelled hpc a hend
      · exact .panic (by simp [hpc, Pc.inCall])
    case finishing =>
      obtain ⟨a, hend, rfl⟩ | rfl := afterHook_cases h
      · exact .finished hpc hstream a hend
      · exact .panic (by simp [hpc, Pc.inCall])
    case stopping =>
      obtain ⟨a, hend, rfl⟩ | rfl := afterHook_cases h
      · exact .stopped hpc a hend
      · exact .panic (by simp [hpc, Pc.inCall])
  | some i =>
    simp only at h
    split at h
    · next k f hpc => cases h; exact .takeTask hpc k f
    · next k hpc => cases h; exact .takeStop hpc k
    · next k hpc => cases h; exact .panicRestart hpc hstream k
    · next hpc => cases h; exact .takeClosed hpc
    · next f hpc =>
      -- the stream is fused: an item or an end is only taken while it has not ended
      split at h
      · cases h
      · next hopen => cases h; exact .takeItem hpc hstream (by simpa using hopen) f
    · next hpc =>
      split at h
      · cases h
      · next hopen => cases h; exact .takeStreamEnd hpc hstream (by simpa using hopen)
    · cases h

/-- Nothing else happens in the loop that was set up. -/
theorem step_cases {E : EventLoop σ} {s s' : LoopState σ ρ} {i : Option (Input σ ρ)}
    (h : E.step s i = some s') : Step E s i s' := by
  unfold step at h
  split at h
  · next hstream => exact step_of_createOnStream hstream h
  · next hstream => exact step_of_create (by simpa using hstream) h

/-- A loop takes an input only where it waits for one. -/
theorem Step.receiving {E : EventLoop σ} {s s' : LoopState σ ρ} {i : Input σ ρ}
    (h : Step E s (some i) s') : s.pc = .receiving := by
  cases h <;> assumption

/-- A loop that makes a step had not ended. -/
theorem not_ended_of_step {E : EventLoop σ} {s s' : LoopState σ ρ} {i : Option (Input σ ρ)}
    (h : Step E s i s') : s.pc.ended = false := by
  cases h with
  | startedOk hpc => rcases hpc with hpc | hpc <;> rw [hpc] <;> rfl
  | startedErr hpc => rcases hpc with hpc | hpc <;> rw [hpc] <;> rfl
  | panic hpc => cases hs : s.pc <;> simp_all [Pc.inCall, Pc.ended]
  | _ => simp_all [Pc.ended]

/-- A loop on its way out takes nothing any more, and stays there. -/
theorem final_of_step {E : EventLoop σ} {s s' : LoopState σ ρ} {i : Option (Input σ ρ)}
    (h : Step E s i s') (hfinal : s.pc.final = true) : i = none ∧ s'.pc.final = true := by
  cases h with
  | startedOk hpc | startedErr hpc => rcases hpc with hpc | hpc <;> simp [hpc, Pc.final] at hfinal
  | panic hpc => exact ⟨rfl, rfl⟩
  | _ => simp_all [Pc.final]

theorem final_of_stop {E : EventLoop σ} {s s' : LoopState σ ρ} {k : ℕ}
    (h : Step E s (some (.payload ⟨k, .stop⟩)) s') : s'.pc.final = true := by
  cases h
  rfl

/-- At its receiver either loop takes any payload. -/
theorem exists_step_payload (E : EventLoop σ) {s : LoopState σ ρ} (hpc : s.pc = .receiving)
    (e : Envelope σ ρ) : ∃ s', E.step s (some (.payload e)) = some s' := by
  rw [step]
  rcases e with ⟨k, _ | _ | _⟩ <;> cases E.onStream <;> simp [create, createOnStream, hpc]

/-- The end of the mailbox takes either loop to its last hook. -/
theorem step_closed (E : EventLoop σ) {s : LoopState σ ρ} (hpc : s.pc = .receiving) :
    E.step s (some .closed) = some ((s.take .closed).call (.hook .stopped) .stopping) := by
  rw [step]
  cases E.onStream <;> simp [create, createOnStream, hpc]

/-- The loop future alone, fed with arbitrary inputs. -/
def machine (E : EventLoop σ) (ρ : Type) (actor : σ) :
    Machine (LoopState σ ρ) (Option (Input σ ρ)) :=
  ⟨.init actor, E.step⟩

end EventLoop

end Hannibal
