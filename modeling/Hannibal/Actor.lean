import Mathlib.Data.List.Infix

/-!
# Hannibal.Actor — actors, tasks and payloads

The data the event loop works on, from `actor.rs`, `actor/restart_strategy.rs`, `error.rs`,
`event_loop.rs` and `event_loop/payload.rs`.

An actor value has a type `σ`, and what handlers respond has a type `ρ`. The futures of hooks and
handlers are read by what they do to the actor value and how they end (`HookEnd`, `TaskEnd`). A
hook may act differently each time it is called, so it is also given the number of calls into the
actor that came before (`clock`); a task is the closure that one operation put into the mailbox and
runs at most once, so it needs no such number.
-/

namespace Hannibal

/-- `ContextID` (`context/context_id.rs`): a fresh one for every actor. -/
abbrev ContextID := ℕ

/-- Errors produced from within the actor event-loop (`error.rs`). -/
inductive ActorError where
  | asyncSendError
  | canceled
  | channelClosed
  | alreadyStopped
  | actorDropped
  | failedToJoin
  | serviceStillRunning
  | timeout
  deriving DecidableEq, Repr

/-- `Box<dyn Error + Send + Sync>`: an `ActorError`, or any other boxed error, which the loop only
passes on. -/
inductive DynError where
  | actor (e : ActorError)
  | boxed (code : ℕ)
  deriving DecidableEq, Repr

/-- How the future of a hook ends, if it does: the loop awaits every hook without a timeout, so one
that `pends` for good keeps the loop inside this call. -/
inductive HookEnd (α : Type) where
  | returned (a : α)
  | panicked
  | pends

def HookEnd.ends {α : Type} : HookEnd α → Bool
  | .returned _ | .panicked => true
  | .pends => false

/-- The hooks of the `Actor` trait, `StreamHandler::finished` and `Default::default`. The first
argument counts the calls into the actor that came before. -/
structure Actor (σ : Type) where
  started : ℕ → σ → HookEnd (σ × Except DynError Unit)
  stopped : ℕ → σ → HookEnd σ
  cancelled : ℕ → σ → HookEnd σ
  finished : ℕ → σ → HookEnd σ
  default : ℕ → HookEnd σ

/-- An actor that overrides no hook: the provided methods of the trait, with `d` for
`Default::default()`. -/
def Actor.provided {σ : Type} (d : σ) : Actor σ where
  started _ a := .returned (a, .ok ())
  stopped _ a := .returned a
  cancelled _ a := .returned a
  finished _ a := .returned a
  default _ := .returned d

/-- How the future of a handler ends: it completes with a response (`none` is the unit response),
it is still not done when a deadline set for it passes (`overruns`, with what it had made of the
actor by then), or it panics. -/
inductive TaskEnd (σ ρ : Type) where
  | completed (actor : σ) (response : Option ρ)
  | overruns (actor : σ)
  | panicked

/-- `TaskFn<A>`: the closure an operation puts into the mailbox, run on the actor. -/
abbrev TaskFn (σ ρ : Type) := σ → TaskEnd σ ρ

/-- `Payload<A>` (`event_loop/payload.rs`). -/
inductive Payload (σ ρ : Type) where
  | task (f : TaskFn σ ρ)
  | stop
  | restart

def Payload.isStop {σ ρ : Type} : Payload σ ρ → Bool
  | .stop => true
  | .task _ | .restart => false

/-- An entry of the mailbox: a payload, and which operation put it there. The task closure of a
`call` or `ping` owns the sending half of that operation's response channel, so `client` is also
where its response goes. -/
structure Envelope (σ ρ : Type) where
  client : ℕ
  payload : Payload σ ρ

/-- The three `RestartStrategy` implementations (`actor/restart_strategy.rs`). -/
inductive RestartStrategy where
  | nonRestartable
  | restartOnly
  | recreateFromDefault
  deriving DecidableEq, Repr

/-- `EventLoopConfig` (`event_loop.rs`); the timeout is a duration. -/
structure EventLoopConfig where
  timeout : Option ℕ
  failOnTimeout : Bool
  deriving DecidableEq, Repr

/-- `EventLoopConfig::default()`. -/
def EventLoopConfig.default : EventLoopConfig := ⟨none, false⟩

/-- `timeout_fut`: without a timeout the future runs to its end, however long that takes; with one
it may also be dropped at the deadline. `none`: it never ends. -/
def timeoutFut {σ ρ : Type} (timeout : Option ℕ) (fut : TaskEnd σ ρ) : Option (TaskEnd σ ρ) :=
  match fut, timeout with
  | .overruns _, none => none
  | fut, _ => some fut

end Hannibal
