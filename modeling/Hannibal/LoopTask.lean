import Hannibal.EventLoop

/-!
# Hannibal.LoopTask — the loop future, what it owns, and the stop notification

`EventLoop::from_channel` (`event_loop.rs`) gives the loop future a receiver, a `Context` and a
`StopNotifier` (`context/core.rs`); the running flag and the stop oneshot are shared with every
handle. However the future ends, these three are dropped with it: `StopNotifier::notify` and
`Drop for StopNotifier` both first store `false` into the flag and then complete the oneshot if
that has not happened yet. Other tasks run between these steps, so each is a step of its own, and
the parts of an ended future are dropped in any order.

* **`LoopTask`**, **`LoopTask.step`** — the future with its parts, and its steps.
* **`LoopTask.joined`** — what joining the future yields.
* **`LoopTask.Gone`** — the future has ended and been dropped.
* **`LoopTask.Inv`** — what ties flag, notifier and program counter together; `inv_step` is its
  step lemma.
-/

namespace Hannibal

open Lts

/-- The loop future and what it owns. -/
structure LoopTask (σ ρ : Type) where
  loop : LoopState σ ρ
  /-- the shared `RunningFlag` -/
  running : Bool
  /-- `StopNotifier.notify` still holds the sending half of the stop oneshot -/
  notify : Bool
  /-- how often the stop oneshot has been completed -/
  completions : ℕ
  /-- the receiver, the `Context` and the `StopNotifier` have not been dropped yet -/
  rx : Bool
  ctx : Bool
  stop : Bool

/-- What can happen to a loop future: it is polled (with or without an input), the two halves of
the stop notification, the future is dropped before it ended, and the parts of an ended future are
dropped. -/
inductive TaskLabel (σ ρ : Type) where
  | advance
  | receive (i : Input σ ρ)
  | lower
  | fire
  | drop
  | dropRx
  | dropCtx

variable {σ ρ : Type}

namespace LoopTask

/-- `EventLoop::from_channel` followed by `create` (or `create_on_stream`). -/
def init (actor : σ) : LoopTask σ ρ := ⟨.init actor, true, true, 0, true, true, true⟩

/-- `self.running.store(false, Ordering::Release)`. -/
def lower (t : LoopTask σ ρ) : LoopTask σ ρ := { t with running := false }

/-- `if let Some(tx) = self.notify.take() { let _ = tx.send(()); }`, after which the notifier is
gone. -/
def fire (t : LoopTask σ ρ) : LoopTask σ ρ :=
  { t with
    notify := false
    completions := if t.notify then t.completions + 1 else t.completions
    stop := false }

/-- One step of the loop future. `notify` consumes the notifier before the future returns, and at
that point there is no `await` at which the future could be dropped. -/
def step (E : EventLoop σ) (t : LoopTask σ ρ) : TaskLabel σ ρ → Option (LoopTask σ ρ)
  | .advance =>
    if t.loop.pc.atNotify && t.stop then none
    else (E.step t.loop none).map fun loop => { t with loop }
  | .receive i => (E.step t.loop (some i)).map fun loop => { t with loop }
  | .lower =>
    if t.stop && t.running && (t.loop.pc.atNotify || t.loop.pc.ended) then some t.lower else none
  | .fire =>
    if t.stop && !t.running && (t.loop.pc.atNotify || t.loop.pc.ended) then some t.fire else none
  | .drop =>
    if t.loop.pc.ended || t.loop.pc.atNotify then none
    else some { t with loop := t.loop.goto .dropped }
  | .dropRx => if t.loop.pc.ended && t.rx then some { t with rx := false } else none
  | .dropCtx => if t.loop.pc.ended && t.ctx then some { t with ctx := false } else none

/-- What `ActorHandle::join` yields: nothing while the loop future runs, then
`handle.await.ok().and_then(Result::ok)`. -/
def joined (t : LoopTask σ ρ) : Option (Option σ) :=
  match t.loop.pc with
  | .returned (.ok a) => some (some a)
  | .returned (.error _) => some none
  | .panicked => some none
  | .dropped => some none
  | _ => none

/-- The future has ended and been dropped, with everything it owned. -/
def Gone (t : LoopTask σ ρ) : Prop :=
  t.loop.pc.ended = true ∧ t.rx = false ∧ t.ctx = false ∧ t.stop = false

instance (t : LoopTask σ ρ) : Decidable t.Gone := by unfold Gone; infer_instance

/-! ## What one step can do

The loop moves, the flag is lowered, the oneshot is completed, or a part of the ended future is
dropped. The guards say in which order `notify` and `Drop for StopNotifier` do the first two. -/

/-- Everything one step of the loop future can do. -/
inductive Step (E : EventLoop σ) (t : LoopTask σ ρ) : TaskLabel σ ρ → LoopTask σ ρ → Prop where
  | advance (s' : LoopState σ ρ) (hs : EventLoop.Step E t.loop none s')
      (hnotify : t.loop.pc.atNotify = true → t.stop = false) :
      Step E t .advance { t with loop := s' }
  | receive (i : Input σ ρ) (s' : LoopState σ ρ) (hs : EventLoop.Step E t.loop (some i) s') :
      Step E t (.receive i) { t with loop := s' }
  | lower (hstop : t.stop = true) (hrun : t.running = true)
      (hpc : t.loop.pc.atNotify = true ∨ t.loop.pc.ended = true) : Step E t .lower t.lower
  | fire (hstop : t.stop = true) (hrun : t.running = false)
      (hpc : t.loop.pc.atNotify = true ∨ t.loop.pc.ended = true) : Step E t .fire t.fire
  | drop (hend : t.loop.pc.ended = false) (hnotify : t.loop.pc.atNotify = false) :
      Step E t .drop { t with loop := t.loop.goto .dropped }
  | dropRx (hend : t.loop.pc.ended = true) (hrx : t.rx = true) :
      Step E t .dropRx { t with rx := false }
  | dropCtx (hend : t.loop.pc.ended = true) (hctx : t.ctx = true) :
      Step E t .dropCtx { t with ctx := false }

/-- **Nothing else happens to a loop future.** -/
theorem step_cases {E : EventLoop σ} {t t' : LoopTask σ ρ} {l : TaskLabel σ ρ}
    (h : t.step E l = some t') : Step E t l t' := by
  cases l with
  | advance =>
    simp only [step] at h
    split at h
    · cases h
    · next hguard =>
      obtain ⟨s', hs', rfl⟩ := Option.map_eq_some_iff.mp h
      refine .advance s' (EventLoop.step_cases hs') fun hat => ?_
      simpa [hat] using hguard
  | receive i =>
    obtain ⟨s', hs', rfl⟩ := Option.map_eq_some_iff.mp h
    exact .receive i s' (EventLoop.step_cases hs')
  | lower =>
    simp only [step, Bool.and_eq_true, Bool.or_eq_true] at h
    split at h
    · next hguard =>
      cases h
      exact .lower hguard.1.1 hguard.1.2 hguard.2
    · cases h
  | fire =>
    simp only [step, Bool.and_eq_true, Bool.or_eq_true, Bool.not_eq_true'] at h
    split at h
    · next hguard =>
      cases h
      exact .fire hguard.1.1 hguard.1.2 hguard.2
    · cases h
  -- a future is not dropped after it has ended, nor while it is inside `notify`
  | drop =>
    simp only [step, Bool.or_eq_true] at h
    split at h
    · cases h
    · next hguard =>
      cases h
      rw [not_or] at hguard
      exact .drop (by simpa using hguard.1) (by simpa using hguard.2)
  | dropRx =>
    simp only [step, Bool.and_eq_true] at h
    split at h
    · next hguard => cases h; exact .dropRx hguard.1 hguard.2
    · cases h
  | dropCtx =>
    simp only [step, Bool.and_eq_true] at h
    split at h
    · next hguard => cases h; exact .dropCtx hguard.1 hguard.2
    · cases h

/-- What is dropped or lowered stays so. -/
theorem Step.mono {E : EventLoop σ} {t t' : LoopTask σ ρ} {l : TaskLabel σ ρ} (h : Step E t l t') :
    (t'.running = true → t.running = true) ∧ (t'.rx = true → t.rx = true)
      ∧ (t'.ctx = true → t.ctx = true) := by
  cases h with
  | lower hstop hrun => exact ⟨fun _ => hrun, id, id⟩
  | dropRx hend hrx => exact ⟨id, fun _ => hrx, id⟩
  | dropCtx hend hctx => exact ⟨id, id, fun _ => hctx⟩
  | _ => exact ⟨id, id, id⟩

/-! ## The invariant of the stop notification

The flag is down before the oneshot is completed, and both only at `notify` or behind the end of the
loop. A step of the loop leaves the other parts alone, so it has to be checked against its own
end. -/

/-- Flag, notifier, oneshot and program counter agree. -/
structure Inv (t : LoopTask σ ρ) : Prop where
  /-- an unused notifier: nothing has been completed -/
  armed : t.stop = true → t.notify = true ∧ t.completions = 0
  /-- a used one: the flag is down and the oneshot was completed once -/
  fired : t.stop = false → t.running = false ∧ t.completions = 1
  /-- the flag only drops where the loop makes no more calls -/
  lowered : t.running = false → t.loop.pc.atNotify = true ∨ t.loop.pc.ended = true
  /-- `Ok(actor)` is returned only after `notify` -/
  notified : ∀ a, t.loop.pc = .returned (.ok a) → t.stop = false
  /-- nothing is dropped before the future has ended -/
  owned : t.loop.pc.ended = false → t.rx = true ∧ t.ctx = true
  /-- the notifier outlives a future that has not come to `notify` -/
  waiting : t.loop.pc.ended = false → t.loop.pc.atNotify = false → t.stop = true

theorem inv_init (actor : σ) : Inv (init actor : LoopTask σ ρ) where
  armed _ := ⟨rfl, rfl⟩
  fired h := by cases h
  lowered h := by cases h
  notified a h := by cases h
  owned _ := ⟨rfl, rfl⟩
  waiting _ _ := rfl

/-- What a future yields once it has ended stays what it yields. -/
theorem joined_of_step {E : EventLoop σ} {t t' : LoopTask σ ρ} {l : TaskLabel σ ρ} {r : Option σ}
    (h : Step E t l t') (hr : t.joined = some r) : t'.joined = some r := by
  have hended : t.loop.pc.ended = true := by
    unfold joined at hr
    split at hr <;> simp_all [Pc.ended]
  cases h with
  | advance s' hs hnotify => simp [EventLoop.not_ended_of_step hs] at hended
  | receive i s' hs => simp [EventLoop.not_ended_of_step hs] at hended
  | drop hend hnotify => simp [hend] at hended
  | _ => exact hr

/-- The step from `notify` is the return of the actor, and the only one that returns it. -/
theorem returned_ok_iff_atNotify {E : EventLoop σ} {s s' : LoopState σ ρ} {i : Option (Input σ ρ)}
    (h : EventLoop.Step E s i s') :
    s.pc.atNotify = true ↔ ∃ a, s'.pc = .returned (.ok a) := by
  cases h with
  | startedOk hpc => rcases hpc with hpc | hpc <;> simp [hpc, Pc.atNotify]
  | startedErr hpc => rcases hpc with hpc | hpc <;> simp [hpc, Pc.atNotify]
  | panic hpc => cases hs : s.pc <;> simp_all [Pc.inCall, Pc.atNotify]
  | _ => simp_all [Pc.atNotify]

/-- At `notify` the loop only returns. -/
theorem goto_of_atNotify {E : EventLoop σ} {s s' : LoopState σ ρ} {i : Option (Input σ ρ)}
    (h : EventLoop.Step E s i s') (hat : s.pc.atNotify = true) :
    s' = s.goto (.returned (.ok s.actor)) := by
  have hpc : s.pc = .notifying := by cases hs : s.pc <;> simp_all [Pc.atNotify]
  cases h with
  | notified => rfl
  | startedOk hpc' => rcases hpc' with hpc' | hpc' <;> simp [hpc] at hpc'
  | startedErr hpc' => rcases hpc' with hpc' | hpc' <;> simp [hpc] at hpc'
  | panic hcall => simp [hpc, Pc.inCall] at hcall
  | _ => simp_all

/-- What a loop step leaves open about the rest of the task: nothing. -/
theorem inv_loop {E : EventLoop σ} {t : LoopTask σ ρ} {s' : LoopState σ ρ} {i : Option (Input σ ρ)}
    (hinv : t.Inv) (h : EventLoop.Step E t.loop i s')
    (hstop : t.loop.pc.atNotify = true → t.stop = false) :
    Inv { t with loop := s' } where
  armed := hinv.armed
  fired := hinv.fired
  lowered hrun := by
    have hend := EventLoop.not_ended_of_step h
    -- with the flag down the loop stood at `notify`, and its next step ends it
    rcases hinv.lowered hrun with hat | hended
    · obtain ⟨a, ha⟩ := (returned_ok_iff_atNotify h).mp hat
      exact .inr (by simp [ha, Pc.ended])
    · simp [hend] at hended
  notified a ha := hstop ((returned_ok_iff_atNotify h).mpr ⟨a, ha⟩)
  owned _ := hinv.owned (EventLoop.not_ended_of_step h)
  waiting hend' hat' := by
    have hend := EventLoop.not_ended_of_step h
    cases hat : t.loop.pc.atNotify with
    | false => exact hinv.waiting hend hat
    | true =>
      obtain ⟨a, ha⟩ := (returned_ok_iff_atNotify h).mp hat
      simp [ha, Pc.ended] at hend'

/-- **The step lemma of the stop notification.** -/
theorem inv_step {E : EventLoop σ} {t t' : LoopTask σ ρ} {l : TaskLabel σ ρ} (hinv : t.Inv)
    (h : Step E t l t') : t'.Inv := by
  cases h with
  | advance s' hs hnotify => exact inv_loop hinv hs hnotify
  | receive i s' hs =>
    refine inv_loop hinv hs fun hat => ?_
    -- the loop takes inputs only at `receiving`, never at `notify`
    cases hs <;> simp_all [Pc.atNotify]
  | lower hstop hrun hpc =>
    exact ⟨hinv.armed, fun hs => by simp [lower, hstop] at hs, fun _ => hpc, hinv.notified,
      hinv.owned, hinv.waiting⟩
  -- the oneshot is armed, so the notifier has not sent anything before
  | fire hstop hrun hpc =>
    obtain ⟨hnotify, hzero⟩ := hinv.armed hstop
    refine ⟨fun hs => by simp [fire] at hs, fun _ => ⟨hrun, by simp [fire, hnotify, hzero]⟩,
      fun _ => hpc, fun _ _ => rfl, hinv.owned, fun hend hat => ?_⟩
    change t.loop.pc.ended = false at hend
    change t.loop.pc.atNotify = false at hat
    simp [hend, hat] at hpc
  -- a dropped future has ended, so its parts may go from now on
  | drop hend hnotify =>
    exact ⟨hinv.armed, hinv.fired, fun _ => .inr rfl, fun a ha => by simp at ha,
      fun hend => by simp [Pc.ended] at hend, fun hend => by simp [Pc.ended] at hend⟩
  | dropRx hend hrx =>
    exact ⟨hinv.armed, hinv.fired, hinv.lowered, hinv.notified,
      fun hnot => by simp [hend] at hnot, hinv.waiting⟩
  | dropCtx hend hctx =>
    exact ⟨hinv.armed, hinv.fired, hinv.lowered, hinv.notified,
      fun hnot => by simp [hend] at hnot, hinv.waiting⟩

/-- The loop future alone, with arbitrary inputs. -/
def machine (ρ : Type) (E : EventLoop σ) (actor : σ) : Machine (LoopTask σ ρ) (TaskLabel σ ρ) :=
  ⟨init actor, step E⟩

theorem inv_of_run {E : EventLoop σ} {a : σ} {ls : List (TaskLabel σ ρ)} {t : LoopTask σ ρ}
    (h : (machine ρ E a).Run ls t) : t.Inv :=
  h.invariant (I := Inv) (inv_init a) fun _ _ _ hinv hstep => inv_step hinv (step_cases hstep)

/-- A future that is gone has lowered the flag and completed the oneshot once. -/
theorem Inv.of_gone {t : LoopTask σ ρ} (hinv : t.Inv) (h : t.Gone) :
    t.running = false ∧ t.completions = 1 :=
  hinv.fired h.2.2.2

end LoopTask

end Hannibal
