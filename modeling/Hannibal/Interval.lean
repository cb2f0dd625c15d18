import Hannibal.World

/-!
# Hannibal.Interval — the task behind `Context::interval` and `Context::interval_with`

The task (`context.rs`) sleeps, upgrades its weak sender, and sends the next message;
`interval_timeout` drops the send when its timer fires first, and polls the send before the timer. A
tick that is skipped is followed by the next one; a failed upgrade or a failed send ends the loop.
The sender lives as long as the tick, so one tick is one operation `WeakSender::upgrade_and_send` of
the actor, among those of all other clients.

* **`IntervalWorld`** — the actor with its clients, and one such task.
* **`IntervalWorld.step`** — one step: `poll` runs the task up to the next point where another
  thread can act in between. The timers fire at any time here; `Hannibal.Expiry` adds the clock.
* **`IntervalWorld.Act`**, **`act_cases`** — everything one step can do.
-/

namespace Hannibal

open Lts Chan

/-- Where the task stands. `i` is the operation of the current tick. -/
inductive IntervalStage where
  | unspawned
  /-- at `runtime::sleep(duration).await` -/
  | sleeping
  /-- awake: the tick goes on until its send has to wait -/
  | ticking (i : ℕ)
  /-- in `interval_timeout`, with the send and the timer pending -/
  | waiting (i : ℕ)
  /-- the loop has been left by a `break` -/
  | ended
  | aborted
  deriving DecidableEq, Repr

/-- What became of a tick. -/
inductive TickReport where
  | sent
  /-- `"tick missed by {}ms, skipping"` -/
  | skipped
  /-- `"interval ended after actor dropped"` or `"interval message failed: {error}"` -/
  | failed (e : ActorError)
  deriving DecidableEq, Repr

/-- The actor with its clients, and the task. The lists record the operations of all ticks, the
messages generated so far, each as the mailbox will see it, and what became of the ticks. -/
structure IntervalWorld (Q : Type → Type) (σ ρ : Type) where
  actor : World Q σ ρ
  stage : IntervalStage
  begun : List ℕ
  generated : List (Envelope σ ρ)
  reports : List (ℕ × TickReport)

/-- Everything that can happen next. -/
inductive IntervalLabel (σ ρ : Type) where
  /-- the loop moves, or another client uses the actor -/
  | actor (l : Label σ ρ)
  /-- a handler or hook starts the interval -/
  | spawn
  /-- the sleep ends; the task is polled; the timer of `interval_timeout` fires; the task is
  aborted -/
  | wake
  | poll
  | expire
  | abort

variable {Q : Type → Type} {σ ρ : Type}

namespace IntervalWorld

/-- The task alone advances its own operations. -/
def permitted (w : IntervalWorld Q σ ρ) : Label σ ρ → Bool
  | .advance i | .abandon i => decide (i ∉ w.begun)
  | _ => true

/-- The tick of operation `i` is over, and the task goes on at `st`. -/
def report (w : IntervalWorld Q σ ρ) (i : ℕ) (r : TickReport) (st : IntervalStage) :
    IntervalWorld Q σ ρ :=
  { w with stage := st, reports := w.reports ++ [(i, r)] }

variable [AsyncChannel Q]

def init (Q : Type → Type) [AsyncChannel Q] (ρ : Type) (capacity : Option ℕ+) (a : σ) :
    IntervalWorld Q σ ρ :=
  ⟨.init Q ρ capacity a, .unspawned, [], [], []⟩

/-- The task is polled in the tick of operation `i`: it upgrades its weak sender and calls
`message_fn`, goes on with the send, or waits for space. -/
def tick (E : EventLoop σ) (w : IntervalWorld Q σ ρ) (i : ℕ) : Option (IntervalWorld Q σ ρ) :=
  match w.actor.flights[i]? with
  | none => none
  | some ⟨op, .upgrading⟩ => (w.actor.step E (.advance i)).map fun s => { w with
      actor := s
      generated := if w.actor.upgradable then w.generated ++ [⟨i, op.payload⟩] else w.generated }
  | some ⟨_, .returned (.ok _)⟩ => some (w.report i .sent .sleeping)
  | some ⟨_, .returned (.error e)⟩ => some (w.report i (.failed e) .ended)
  | some _ =>
    match w.actor.step E (.advance i) with
    | some s => some { w with actor := s }
    | none => some { w with stage := .waiting i }

/-- One step. `message n` is what the `n`-th call of `message_fn` returns. -/
def step (E : EventLoop σ) (message : ℕ → TaskFn σ ρ) (w : IntervalWorld Q σ ρ) :
    IntervalLabel σ ρ → Option (IntervalWorld Q σ ρ)
  | .actor l =>
    if w.permitted l then (w.actor.step E l).map fun s => { w with actor := s } else none
  | .spawn =>
    if w.stage = .unspawned ∧ w.actor.task.loop.pc.inCall = true then
      some { w with stage := .sleeping }
    else none
  | .wake =>
    match w.stage with
    | .sleeping =>
      (w.actor.step E (.begin (WeakSender.upgradeAndSend (message w.generated.length)))).map
        fun s => { w with
          actor := s
          stage := .ticking w.actor.flights.length
          begun := w.begun ++ [w.actor.flights.length] }
    | _ => none
  | .poll =>
    match w.stage with
    | .ticking i => w.tick E i
    | .waiting i =>
      (w.actor.step E (.advance i)).map fun s => { w with actor := s, stage := .ticking i }
    | _ => none
  | .expire =>
    match w.stage with
    | .waiting i =>
      -- `select_biased!` has polled the send before it polls the timer
      if (w.actor.step E (.advance i)).isNone then
        (w.actor.step E (.abandon i)).map fun s =>
          ({ w with actor := s } : IntervalWorld Q σ ρ).report i .skipped .sleeping
      else none
    | _ => none
  | .abort =>
    match w.stage with
    | .sleeping => some { w with stage := .aborted }
    | .waiting i =>
      (w.actor.step E (.abandon i)).map fun s => { w with actor := s, stage := .aborted }
    | _ => none

/-- An actor with one task of `Context::interval_with(message_fn, duration)`. -/
def intervalWith (Q : Type → Type) [AsyncChannel Q] (E : EventLoop σ) (capacity : Option ℕ+)
    (a : σ) (message : ℕ → TaskFn σ ρ) : Machine (IntervalWorld Q σ ρ) (IntervalLabel σ ρ) :=
  ⟨init Q ρ capacity a, step E message⟩

/-- `Context::interval(message, duration)` sends clones of one message. -/
def interval (Q : Type → Type) [AsyncChannel Q] (E : EventLoop σ) (capacity : Option ℕ+)
    (a : σ) (message : TaskFn σ ρ) : Machine (IntervalWorld Q σ ρ) (IntervalLabel σ ρ) :=
  intervalWith Q E capacity a fun _ => message

/-! ## What one step can do

A poll of the task runs up to the next `.await` that is not ready. What it does is a step of its one
operation, or a change of the task's own stage; the timers and the abort are labels of their own. -/

/-- Everything one step can do. -/
inductive Act (E : EventLoop σ) (message : ℕ → TaskFn σ ρ) (w : IntervalWorld Q σ ρ) :
    IntervalLabel σ ρ → IntervalWorld Q σ ρ → Prop where
  | actor (l : Label σ ρ) (s : World Q σ ρ) (hl : w.permitted l = true)
      (hs : w.actor.step E l = some s) : Act E message w (.actor l) { w with actor := s }
  | spawn (hst : w.stage = .unspawned) (hcall : w.actor.task.loop.pc.inCall = true) :
      Act E message w .spawn { w with stage := .sleeping }
  | wake (s : World Q σ ρ) (hst : w.stage = .sleeping)
      (hs : w.actor.step E (.begin (WeakSender.upgradeAndSend (message w.generated.length)))
        = some s) :
      Act E message w .wake { w with
        actor := s
        stage := .ticking w.actor.flights.length
        begun := w.begun ++ [w.actor.flights.length] }
  | generate (i : ℕ) (op : Operation σ ρ) (s : World Q σ ρ) (hst : w.stage = .ticking i)
      (hf : w.actor.flights[i]? = some ⟨op, .upgrading⟩) (hup : w.actor.upgradable = true)
      (hs : w.actor.step E (.advance i) = some s) :
      Act E message w .poll
        { w with actor := s, generated := w.generated ++ [⟨i, op.payload⟩] }
  | dropped (i : ℕ) (op : Operation σ ρ) (s : World Q σ ρ) (hst : w.stage = .ticking i)
      (hf : w.actor.flights[i]? = some ⟨op, .upgrading⟩) (hup : w.actor.upgradable = false)
      (hs : w.actor.step E (.advance i) = some s) : Act E message w .poll { w with actor := s }
  | send (i : ℕ) (s : World Q σ ρ) (hst : w.stage = .ticking i ∨ w.stage = .waiting i)
      (hup : w.stage = .ticking i → ∀ op, w.actor.flights[i]? ≠ some ⟨op, .upgrading⟩)
      (hs : w.actor.step E (.advance i) = some s) :
      Act E message w .poll { w with actor := s, stage := .ticking i }
  | block (i : ℕ) (f : Flight σ ρ) (hst : w.stage = .ticking i)
      (hf : w.actor.flights[i]? = some f) (hup : f.stage ≠ .upgrading)
      (hret : ∀ res, f.stage ≠ .returned res) (hs : w.actor.step E (.advance i) = none) :
      Act E message w .poll { w with stage := .waiting i }
  | sent (i : ℕ) (op : Operation σ ρ) (r : Option ρ) (hst : w.stage = .ticking i)
      (hf : w.actor.flights[i]? = some ⟨op, .returned (.ok r)⟩) :
      Act E message w .poll (w.report i .sent .sleeping)
  | failed (i : ℕ) (op : Operation σ ρ) (e : ActorError) (hst : w.stage = .ticking i)
      (hf : w.actor.flights[i]? = some ⟨op, .returned (.error e)⟩) :
      Act E message w .poll (w.report i (.failed e) .ended)
  | expire (i : ℕ) (s : World Q σ ρ) (hst : w.stage = .waiting i)
      (hwait : w.actor.step E (.advance i) = none) (hs : w.actor.step E (.abandon i) = some s) :
      Act E message w .expire
        (({ w with actor := s } : IntervalWorld Q σ ρ).report i .skipped .sleeping)
  | abortSleep (hst : w.stage = .sleeping) : Act E message w .abort { w with stage := .aborted }
  | abortSend (i : ℕ) (s : World Q σ ρ) (hst : w.stage = .waiting i)
      (hs : w.actor.step E (.abandon i) = some s) :
      Act E message w .abort { w with actor := s, stage := .aborted }

variable {E : EventLoop σ} {message : ℕ → TaskFn σ ρ} {w w' : IntervalWorld Q σ ρ}
  {l : IntervalLabel σ ρ}

theorem act_of_tick {i : ℕ} (hst : w.stage = .ticking i) (h : w.tick E i = some w') :
    Act E message w .poll w' := by
  unfold tick at h
  split at h
  · cases h
  · next op hf =>
    obtain ⟨s, hs, rfl⟩ := Option.map_eq_some_iff.mp h
    -- the message is generated once the upgrade has succeeded, and the send is the same operation
    cases hup : w.actor.upgradable with
    | true => exact .generate i op s hst hf hup hs
    | false => exact .dropped i op s hst hf hup hs
  · next op r hf => cases h; exact .sent i op r hst hf
  · next op e hf => cases h; exact .failed i op e hst hf
  · next f hup hok herr hf =>
    have hup : f.stage ≠ .upgrading := fun hupg => hup f.op (by rw [← hupg])
    have hret : ∀ res, f.stage ≠ .returned res := by
      rintro (e | r) hres
      · exact herr f.op e (by rw [← hres])
      · exact hok f.op r (by rw [← hres])
    split at h
    · next s hs =>
      cases h
      have hsame : ({ w with actor := s } : IntervalWorld Q σ ρ)
          = { w with actor := s, stage := .ticking i } := by rw [← hst]
      rw [hsame]
      refine .send i s (.inl hst) (fun _ op hupg => ?_) hs
      cases hf.symm.trans hupg
      exact hup rfl
    · next hs => cases h; exact .block i f hst hf hup hret hs

/-- **Nothing else happens.** -/
theorem act_cases (h : w.step E message l = some w') : Act E message w l w' := by
  cases l with
  | actor l =>
    simp only [step] at h
    split at h
    · next hl =>
      obtain ⟨s, hs, rfl⟩ := Option.map_eq_some_iff.mp h
      exact .actor l s hl hs
    · cases h
  | spawn =>
    simp only [step] at h
    split at h
    · next hguard => cases h; exact .spawn hguard.1 hguard.2
    · cases h
  | wake =>
    simp only [step] at h
    split at h
    · next hst =>
      obtain ⟨s, hs, rfl⟩ := Option.map_eq_some_iff.mp h
      exact .wake s hst hs
    · cases h
  | poll =>
    simp only [step] at h
    split at h
    · next i hst => exact act_of_tick hst h
    · next i hst =>
      obtain ⟨s, hs, rfl⟩ := Option.map_eq_some_iff.mp h
      exact .send i s (.inr hst) (fun htick => by simp [hst] at htick) hs
    · cases h
  | expire =>
    simp only [step] at h
    split at h
    · next i hst =>
      split at h
      -- `interval_timeout` polls the send before the timer, so only a send that waits can time out
      · next hwait =>
        obtain ⟨s, hs, rfl⟩ := Option.map_eq_some_iff.mp h
        exact .expire i s hst (Option.isNone_iff_eq_none.mp hwait) hs
      · cases h
    · cases h
  -- an abort drops the task where it awaits: asleep, or in a send
  | abort =>
    simp only [step] at h
    split at h
    · next hst => cases h; exact .abortSleep hst
    · next i hst =>
      obtain ⟨s, hs, rfl⟩ := Option.map_eq_some_iff.mp h
      exact .abortSend i s hst hs
    · cases h

/-- Of a step the actor sees one of its own, or nothing. -/
theorem actor_of_act (h : Act E message w l w') :
    w'.actor = w.actor ∨ ∃ k, w.actor.step E k = some w'.actor := by
  cases h with
  | actor l s hl hs => exact .inr ⟨l, hs⟩
  | wake s hst hs => exact .inr ⟨_, hs⟩
  | generate i op s hst hf hup hs => exact .inr ⟨_, hs⟩
  | dropped i op s hst hf hup hs => exact .inr ⟨_, hs⟩
  | send i s hst hup hs => exact .inr ⟨_, hs⟩
  | expire i s hst hwait hs => exact .inr ⟨_, hs⟩
  | abortSend i s hst hs => exact .inr ⟨_, hs⟩
  | _ => exact .inl rfl

/-- **In every run the actor goes through a run of its own**, as any other actor with its
clients. -/
theorem actor_run {capacity : Option ℕ+} {a : σ} {ls : List (IntervalLabel σ ρ)}
    (h : (intervalWith Q E capacity a message).Run ls w) :
    ∃ ks, (World.machine Q ρ E capacity a).Run ks w.actor :=
  h.projects (π := actor) rfl fun _ _ _ hstep => actor_of_act (act_cases hstep)

end IntervalWorld

end Hannibal
