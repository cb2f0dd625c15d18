import Hannibal.Linearity
import Hannibal.Tracking

/-!
# Hannibal.Delayed — `Context::delayed_send` and `Context::delayed_exec`

Both spawn a background task (`context.rs`) that sleeps first. `delayed_send` then calls
`message_fn`, and only then upgrades its weak sender and sends; nobody awaits it, and nothing tells
when it failed. `stop_task` and `Drop for Context` abort such a task: it is dropped where it awaits,
and is not polled any more. An abort that comes in the middle of a poll lets the poll finish.

* **`DelayedWorld`** — the actor with its clients, the tasks of its `Context` as `Hannibal.Tracking`
  has them, a clock, and where each task stands.
* **`DelayedWorld.Act`**, **`act_cases`** — everything one step can do.
* **`DelayedInv`** — the invariant; `delayedInv_step` is its step lemma.
* **`delayed_sends`** — every task wakes at most once, on time, and sends what it says it sends.
* **`delayed_cancelled`** — what an abort prevents.
-/

namespace Hannibal

open Lts Chan

/-- What a task does behind its sleep. -/
inductive DelayedJob (σ ρ : Type) where
  /-- `delayed_send`; what `message_fn` returns depends on when it is called -/
  | send (message : ℕ → TaskFn σ ρ)
  /-- `delayed_exec`; the future it is given takes that long, or never completes -/
  | exec (takes : Option ℕ)

/-- Where a task stands. `i` is the operation with which it sends. -/
inductive DelayedStage where
  /-- at `runtime::sleep(duration).await` -/
  | sleeping
  /-- in a poll of `upgrade_and_send` -/
  | sending (i : ℕ)
  /-- in a `send` that waits for space -/
  | waiting (i : ℕ)
  /-- in `task.await`, which completes at time `ready`, or never -/
  | executing (ready : Option ℕ)
  /-- its future has returned or was dropped -/
  | ended
  deriving DecidableEq, Repr

/-- A task, and when its sleep is over. -/
structure DelayedTask (σ ρ : Type) where
  job : DelayedJob σ ρ
  due : ℕ
  stage : DelayedStage

/-- A task has woken up at `time`, and sends with operation `flight`. -/
structure Awakening where
  task : ℕ
  time : ℕ
  flight : Option ℕ
  deriving DecidableEq, Repr

/-- An actor with its clients, and the delayed tasks of its `Context`. `woken` records what
happened. -/
structure DelayedWorld (Q : Type → Type) (σ ρ : Type) where
  actor : World Q σ ρ
  contexts : ContextWorld
  now : ℕ
  tasks : List (DelayedTask σ ρ)
  woken : List Awakening

/-- Everything that can happen next. -/
inductive DelayedLabel (σ ρ : Type) where
  /-- the loop moves, or another client uses the actor -/
  | actor (l : Label σ ρ)
  /-- time passes -/
  | elapse
  /-- a handler or hook uses its `Context` -/
  | spawn (job : DelayedJob σ ρ) (duration : ℕ)
  | stopTask (h : UInt64)
  | gc
  /-- the sleep of a task ends; the task is polled; an aborted task is dropped -/
  | wake (j : ℕ)
  | poll (j : ℕ)
  | reap (j : ℕ)

variable {Q : Type → Type} {σ ρ : Type}

namespace DelayedWorld

/-- The tasks alone advance their operations. -/
def permitted (w : DelayedWorld Q σ ρ) : Label σ ρ → Bool
  | .advance i | .abandon i => decide (some i ∉ w.woken.map Awakening.flight)
  | _ => true

def setStage (w : DelayedWorld Q σ ρ) (j : ℕ) (st : DelayedStage) : DelayedWorld Q σ ρ :=
  { w with tasks := w.tasks.modify j fun t => { t with stage := st } }

/-- Task `j` has woken up. -/
def awake (w : DelayedWorld Q σ ρ) (j : ℕ) (flight : Option ℕ) (st : DelayedStage) :
    DelayedWorld Q σ ρ :=
  { w.setStage j st with woken := w.woken ++ [⟨j, w.now, flight⟩] }

/-- The future of task `j` has returned. -/
def finish (w : DelayedWorld Q σ ρ) (j : ℕ) : Option (DelayedWorld Q σ ρ) :=
  (w.contexts.step (.finish j)).map fun c => { w with contexts := c }.setStage j .ended

variable [AsyncChannel Q]

def init (Q : Type → Type) [AsyncChannel Q] (ρ : Type) (capacity : Option ℕ+) (a : σ) :
    DelayedWorld Q σ ρ :=
  ⟨.init Q ρ capacity a, .init, 0, [], []⟩

/-- The `Context` is used in a call into the actor. -/
def useContext (w : DelayedWorld Q σ ρ) (l : ContextLabel) : Option (DelayedWorld Q σ ρ) :=
  if w.actor.task.loop.pc.inCall then
    (w.contexts.step l).map fun c => { w with contexts := c }
  else none

/-- The sleep of task `j` is over. -/
def wake (E : EventLoop σ) (w : DelayedWorld Q σ ρ) (j : ℕ) : Option (DelayedWorld Q σ ρ) :=
  match w.tasks[j]? with
  | some ⟨job, due, .sleeping⟩ =>
    if due ≤ w.now ∧ w.contexts.running j = true then
      match job with
      | .send message =>
        (w.actor.step E (.begin (WeakSender.upgradeAndSend (message w.now)))).map fun s =>
          { w with actor := s }.awake j w.actor.flights.length (.sending w.actor.flights.length)
      | .exec takes => some (w.awake j none (.executing (takes.map (w.now + ·))))
    else none
  | _ => none

/-- Task `j` is polled. A poll that has begun goes on to the next `await`, aborted or not. -/
def poll (E : EventLoop σ) (w : DelayedWorld Q σ ρ) (j : ℕ) : Option (DelayedWorld Q σ ρ) :=
  match w.tasks[j]? with
  | some ⟨_, _, .sending i⟩ =>
    match w.actor.flights[i]? with
    | none => none
    | some ⟨_, .returned _⟩ => w.finish j
    | some _ =>
      match w.actor.step E (.advance i) with
      | some s => some { w with actor := s }
      | none => some (w.setStage j (.waiting i))
  | some ⟨_, _, .waiting i⟩ =>
    if w.contexts.running j then
      (w.actor.step E (.advance i)).map fun s => { w with actor := s }.setStage j (.sending i)
    else none
  | some ⟨_, _, .executing ready⟩ => if ready.any (· ≤ w.now) then w.finish j else none
  | _ => none

/-- The future of an aborted task is dropped. -/
def reap (E : EventLoop σ) (w : DelayedWorld Q σ ρ) (j : ℕ) : Option (DelayedWorld Q σ ρ) :=
  if w.contexts.running j then none
  else
    match w.tasks[j]? with
    | some ⟨_, _, .sleeping⟩ | some ⟨_, _, .executing _⟩ => some (w.setStage j .ended)
    | some ⟨_, _, .waiting i⟩ =>
      (w.actor.step E (.abandon i)).map fun s => { w with actor := s }.setStage j .ended
    | _ => none

def step (E : EventLoop σ) (w : DelayedWorld Q σ ρ) : DelayedLabel σ ρ → Option (DelayedWorld Q σ ρ)
  | .actor .dropCtx => (w.actor.step E .dropCtx).bind fun s =>
      (w.contexts.step (.dropContext 0)).map fun c => { w with actor := s, contexts := c }
  | .actor l =>
    if w.permitted l then (w.actor.step E l).map fun s => { w with actor := s } else none
  | .elapse => some { w with now := w.now + 1 }
  | .spawn job duration => (w.useContext (.spawnTask 0)).map fun w =>
      { w with tasks := w.tasks ++ [⟨job, w.now + duration, .sleeping⟩] }
  | .stopTask h => w.useContext (.stopTask 0 h)
  | .gc => w.useContext (.gc 0)
  | .wake j => w.wake E j
  | .poll j => w.poll E j
  | .reap j => w.reap E j

/-- An actor with its clients, and the delayed tasks of its `Context`. -/
def machine (Q : Type → Type) [AsyncChannel Q] (ρ : Type) (E : EventLoop σ) (capacity : Option ℕ+)
    (a : σ) : Machine (DelayedWorld Q σ ρ) (DelayedLabel σ ρ) :=
  ⟨init Q ρ capacity a, step E⟩

/-! ## What one step can do

Besides the steps of the actor and of its context, a task wakes up, is polled, or is dropped after
an abort. A poll of a send either moves the operation on or leaves it waiting for room. -/

/-- Everything one step can do. -/
inductive Act (E : EventLoop σ) (w : DelayedWorld Q σ ρ) :
    DelayedLabel σ ρ → DelayedWorld Q σ ρ → Prop where
  | actor (l : Label σ ρ) (s : World Q σ ρ) (hne : l ≠ .dropCtx) (hl : w.permitted l = true)
      (hs : w.actor.step E l = some s) : Act E w (.actor l) { w with actor := s }
  | dropCtx (s : World Q σ ρ) (c : ContextWorld) (hs : w.actor.step E .dropCtx = some s)
      (hc : w.contexts.step (.dropContext 0) = some c) :
      Act E w (.actor .dropCtx) { w with actor := s, contexts := c }
  | elapse : Act E w .elapse { w with now := w.now + 1 }
  | spawn (job : DelayedJob σ ρ) (duration : ℕ) (c : ContextWorld)
      (hc : w.contexts.step (.spawnTask 0) = some c) : Act E w (.spawn job duration) { w with
        contexts := c
        tasks := w.tasks ++ [⟨job, w.now + duration, .sleeping⟩] }
  | stopTask (h : UInt64) (c : ContextWorld) (hc : w.contexts.step (.stopTask 0 h) = some c) :
      Act E w (.stopTask h) { w with contexts := c }
  | gc (c : ContextWorld) (hc : w.contexts.step (.gc 0) = some c) :
      Act E w .gc { w with contexts := c }
  | wakeSend (j : ℕ) (message : ℕ → TaskFn σ ρ) (due : ℕ) (s : World Q σ ρ)
      (hj : w.tasks[j]? = some ⟨.send message, due, .sleeping⟩) (hdue : due ≤ w.now)
      (hrun : w.contexts.running j = true)
      (hs : w.actor.step E (.begin (WeakSender.upgradeAndSend (message w.now))) = some s) :
      Act E w (.wake j) ({ w with actor := s }.awake j (some w.actor.flights.length)
        (.sending w.actor.flights.length))
  | wakeExec (j : ℕ) (takes : Option ℕ) (due : ℕ)
      (hj : w.tasks[j]? = some ⟨.exec takes, due, .sleeping⟩) (hdue : due ≤ w.now)
      (hrun : w.contexts.running j = true) :
      Act E w (.wake j) (w.awake j none (.executing (takes.map (w.now + ·))))
  | send (j i : ℕ) (t : DelayedTask σ ρ) (s : World Q σ ρ) (hj : w.tasks[j]? = some t)
      (hst : t.stage = .sending i ∨ (t.stage = .waiting i ∧ w.contexts.running j = true))
      (hs : w.actor.step E (.advance i) = some s) :
      Act E w (.poll j) ({ w with actor := s }.setStage j (.sending i))
  | block (j i : ℕ) (t : DelayedTask σ ρ) (f : Flight σ ρ) (hj : w.tasks[j]? = some t)
      (hst : t.stage = .sending i) (hf : w.actor.flights[i]? = some f)
      (hret : ∀ res, f.stage ≠ .returned res) (hs : w.actor.step E (.advance i) = none) :
      Act E w (.poll j) (w.setStage j (.waiting i))
  | sent (j i : ℕ) (t : DelayedTask σ ρ) (op : Operation σ ρ) (res : Except ActorError (Option ρ))
      (c : ContextWorld) (hj : w.tasks[j]? = some t) (hst : t.stage = .sending i)
      (hf : w.actor.flights[i]? = some ⟨op, .returned res⟩)
      (hc : w.contexts.step (.finish j) = some c) :
      Act E w (.poll j) ({ w with contexts := c }.setStage j .ended)
  | executed (j ready : ℕ) (t : DelayedTask σ ρ) (c : ContextWorld) (hj : w.tasks[j]? = some t)
      (hst : t.stage = .executing (some ready)) (hready : ready ≤ w.now)
      (hc : w.contexts.step (.finish j) = some c) :
      Act E w (.poll j) ({ w with contexts := c }.setStage j .ended)
  | reap (j : ℕ) (t : DelayedTask σ ρ) (hj : w.tasks[j]? = some t)
      (hst : t.stage = .sleeping ∨ ∃ ready, t.stage = .executing ready)
      (hrun : w.contexts.running j = false) :
      Act E w (.reap j) (w.setStage j .ended)
  | reapSend (j i : ℕ) (t : DelayedTask σ ρ) (s : World Q σ ρ) (hj : w.tasks[j]? = some t)
      (hst : t.stage = .waiting i) (hrun : w.contexts.running j = false)
      (hs : w.actor.step E (.abandon i) = some s) :
      Act E w (.reap j) ({ w with actor := s }.setStage j .ended)

variable {E : EventLoop σ} {w w' : DelayedWorld Q σ ρ} {l : DelayedLabel σ ρ} {j : ℕ}

omit [AsyncChannel Q] in
/-- A task stays where it is. -/
theorem setStage_self {t : DelayedTask σ ρ} (hj : w.tasks[j]? = some t) :
    w.setStage j t.stage = w := by
  have hsame : w.tasks.modify j (fun u => { u with stage := t.stage }) = w.tasks := by
    refine List.ext_getElem? fun k => ?_
    rw [List.getElem?_modify]
    by_cases hjk : j = k
    · subst hjk
      simp [hj]
    · simp [hjk]
  rw [setStage, hsame]

theorem act_of_poll (h : w.poll E j = some w') : Act E w (.poll j) w' := by
  unfold poll at h
  split at h
  · next job due i hj =>
    split at h
    · cases h
    · next op res hf =>
      obtain ⟨c, hc, rfl⟩ := Option.map_eq_some_iff.mp h
      exact .sent j i _ op res c hj rfl hf hc
    · next f hret hf =>
      split at h
      -- the operation goes on by one step, or waits at a full mailbox
      · next s hs =>
        cases h
        have hsame := setStage_self (w := { w with actor := s }) hj
        rw [← hsame]
        exact .send j i _ s hj (.inl rfl) hs
      · next hs =>
        cases h
        exact .block j i _ f hj rfl hf (fun res hres => hret f.op res (by rw [← hres])) hs
  · next job due i hj =>
    split at h
    · next hrun =>
      obtain ⟨s, hs, rfl⟩ := Option.map_eq_some_iff.mp h
      exact .send j i _ s hj (.inr ⟨rfl, hrun⟩) hs
    · cases h
  · next job due ready hj =>
    obtain ⟨hready, hfin⟩ := Option.ite_none_right_eq_some.mp h
    obtain ⟨time, rfl, htime⟩ := (Option.any_eq_true _ _).mp hready
    obtain ⟨c, hc, rfl⟩ := Option.map_eq_some_iff.mp hfin
    exact .executed j time _ c hj rfl (by simpa using htime) hc
  · cases h

omit [AsyncChannel Q] in
theorem act_of_useContext {l : ContextLabel} (h : w.useContext l = some w') :
    ∃ c, w.contexts.step l = some c ∧ w' = { w with contexts := c } := by
  unfold useContext at h
  split at h
  · obtain ⟨c, hc, rfl⟩ := Option.map_eq_some_iff.mp h
    exact ⟨c, hc, rfl⟩
  · cases h

/-- **Nothing else happens.** -/
theorem act_cases (h : w.step E l = some w') : Act E w l w' := by
  cases l with
  | actor l =>
    -- the `Context` takes its tasks with it when it is dropped
    by_cases hl : l = .dropCtx
    · subst hl
      obtain ⟨s, hs, h⟩ := Option.bind_eq_some_iff.mp h
      obtain ⟨c, hc, rfl⟩ := Option.map_eq_some_iff.mp h
      exact .dropCtx s c hs hc
    · have hother : w.step E (.actor l)
          = if w.permitted l then (w.actor.step E l).map fun s =>
            { w with actor := s } else none := by
        cases l <;> first | rfl | exact absurd rfl hl
      rw [hother] at h
      split at h
      · next hperm =>
        obtain ⟨s, hs, rfl⟩ := Option.map_eq_some_iff.mp h
        exact .actor l s hl hperm hs
      · cases h
  | elapse => cases h; exact .elapse
  | spawn job duration =>
    obtain ⟨u, hu, rfl⟩ := Option.map_eq_some_iff.mp h
    obtain ⟨c, hc, rfl⟩ := act_of_useContext hu
    exact .spawn job duration c hc
  | stopTask h' =>
    obtain ⟨c, hc, rfl⟩ := act_of_useContext h
    exact .stopTask h' c hc
  | gc =>
    obtain ⟨c, hc, rfl⟩ := act_of_useContext h
    exact .gc c hc
  | wake j =>
    simp only [step, wake] at h
    split at h
    · next job due hj =>
      split at h
      · next hguard =>
        cases job with
        | send message =>
          obtain ⟨s, hs, rfl⟩ := Option.map_eq_some_iff.mp h
          exact .wakeSend j message due s hj hguard.1 hguard.2 hs
        | exec takes => cases h; exact .wakeExec j takes due hj hguard.1 hguard.2
      · cases h
    · cases h
  | poll j => exact act_of_poll h
  -- an aborted task is dropped where it awaits; at its send this abandons the operation
  | reap j =>
    simp only [step, reap] at h
    split at h
    · cases h
    · next hrun =>
      rw [Bool.not_eq_true] at hrun
      split at h
      · next hj => cases h; exact .reap j _ hj (.inl rfl) hrun
      · next hj => cases h; exact .reap j _ hj (.inr ⟨_, rfl⟩) hrun
      · next i hj =>
        obtain ⟨s, hs, rfl⟩ := Option.map_eq_some_iff.mp h
        exact .reapSend j i _ s hj rfl hrun hs
      · cases h

/-! ## The invariant

`DelayedInv` keeps, for every task that has woken up, when it did and how far its operation is
(`Led`). A step moves one task (`DelayedInv.move`), wakes one, or belongs to the actor, and then the
operations in flight of the tasks stay as they are. -/

/-- Where the send of a task stands, next to the task. -/
inductive Stands (u : World Q σ ρ) (i : ℕ) : DelayedStage → Stage ρ → Prop where
  | upgrading : Stands u i (.sending i) .upgrading
  | checking : Stands u i (.sending i) .checking
  | enqueuing : Stands u i (.sending i) .enqueuing
  | waiting : Stands u i (.waiting i) .enqueuing
  | returned (res : Except ActorError (Option ρ)) (hres : res ≠ .error .canceled) :
      Stands u i (.sending i) (.returned res)
  | settled (res : Except ActorError (Option ρ)) (hres : res ≠ .error .canceled) :
      Stands u i .ended (.returned res)
  | dropped (hnot : i ∉ u.accepted.map Envelope.client) : Stands u i .ended .abandoned

/-- What the awakening of a task has led to. -/
inductive Led (u : World Q σ ρ) (c : Awakening) (t : DelayedTask σ ρ) : Prop where
  | send (message : ℕ → TaskFn σ ρ) (i : ℕ) (st : Stage ρ) (hjob : t.job = .send message)
      (hi : c.flight = some i)
      (hf : u.flights[i]? = some ⟨WeakSender.upgradeAndSend (message c.time), st⟩)
      (hst : Stands u i t.stage st)
  | exec (takes : Option ℕ) (hjob : t.job = .exec takes) (hi : c.flight = none)
      (hst : t.stage = .executing (takes.map (c.time + ·)) ∨ t.stage = .ended)

/-- The invariant. -/
structure DelayedInv (w : DelayedWorld Q σ ρ) : Prop where
  requests : w.actor.RequestInv
  enrolled : w.actor.EnrolledInv
  length : w.contexts.spawned.length = w.tasks.length
  woken : ∀ c ∈ w.woken, ∃ t, w.tasks[c.task]? = some t ∧ t.due ≤ c.time ∧ c.time ≤ w.now
    ∧ Led w.actor c t
  once : (w.woken.map Awakening.task).Nodup
  flights : ∀ c ∈ w.woken, ∀ d ∈ w.woken, ∀ i, c.flight = some i → d.flight = some i → c = d
  awake : ∀ (j : ℕ) (t : DelayedTask σ ρ), w.tasks[j]? = some t → t.stage = .sleeping
    ∨ t.stage = .ended ∨ j ∈ w.woken.map Awakening.task

theorem delayedInv_init (capacity : Option ℕ+) (a : σ) : DelayedInv (init Q ρ capacity a) where
  requests := World.requestInv_init capacity a
  enrolled := World.enrolledInv_init capacity a
  length := rfl
  woken c hc := by cases hc
  once := List.nodup_nil
  flights c hc := by cases hc
  awake j t hj := by simp [init] at hj

/-- Only `spawn_task` makes a task. -/
theorem length_of_context {cs cs' : ContextWorld} {k : ContextLabel} (h : cs.step k = some cs')
    (hk : ∀ c, k ≠ .spawnTask c) : cs'.spawned.length = cs.spawned.length := by
  cases ContextWorld.act_cases h with
  | spawnTask c hlive => exact absurd rfl (hk c)
  | stopTask c h i hlive hi => simp [ContextWorld.conclude, ContextWorld.setTasks]
  | noTask c h hlive hnone => rfl
  | gc c hlive => rfl
  | dropContext c hlive => exact ContextWorld.abortAll_frame.2
  | finish i => simp [ContextWorld.conclude]

section Steps

variable {u s : World Q σ ρ} {k : Label σ ρ} {c d : Awakening} {t : DelayedTask σ ρ} {i : ℕ}

omit [AsyncChannel Q] in
theorem Stands.pending {st : Stage ρ} {stage : DelayedStage} (h : Stands u i stage st)
    (op : Operation σ ρ) : (⟨op, st⟩ : Flight σ ρ).pending = false := by
  cases h <;> rfl

/-- An operation that awaits no response is left alone by all steps but its own. -/
theorem untouched (hs : u.step E k = some s) {f : Flight σ ρ} (hf : u.flights[i]? = some f)
    (hpending : f.pending = false) (hadvance : k ≠ .advance i) (habandon : k ≠ .abandon i) :
    s.flights[i]? = some f
      ∧ (i ∈ s.accepted.map Envelope.client → i ∈ u.accepted.map Envelope.client) := by
  refine ⟨World.kept_of_step hs hf hpending hadvance habandon, fun hi => ?_⟩
  rcases World.accepted_of_step hs with hsame | ⟨i', op, hk, -, hacc⟩
  · rwa [hsame] at hi
  · rw [hacc, List.map_append, List.mem_append] at hi
    refine hi.resolve_right fun hlast => hadvance ?_
    rw [hk, List.mem_singleton.mp hlast]

omit [AsyncChannel Q] in
theorem Led.frame (h : Led u c t) (hkept : ∀ i f, c.flight = some i → u.flights[i]? = some f →
      f.pending = false → s.flights[i]? = some f
        ∧ (i ∈ s.accepted.map Envelope.client → i ∈ u.accepted.map Envelope.client)) : Led
          s c t := by
  cases h with
  | exec takes hjob hi hst => exact .exec takes hjob hi hst
  | send message i st hjob hi hf hst =>
    obtain ⟨hf', hacc⟩ := hkept i _ hi hf (hst.pending _)
    refine .send message i st hjob hi hf' ?_
    generalize hstage : t.stage = stage at hst
    cases hst with
    | dropped hnot => exact .dropped (mt hacc hnot)
    | upgrading => exact .upgrading
    | checking => exact .checking
    | enqueuing => exact .enqueuing
    | waiting => exact .waiting
    | returned res hres => exact .returned res hres
    | settled res hres => exact .settled res hres

/-- The loop or another client moves. -/
theorem Led.others (h : Led w.actor c t) (hl : w.permitted k = true)
    (hs : w.actor.step E k = some s)
    (hc : c ∈ w.woken) : Led s c t := by
  refine h.frame fun i f hi hf hpending => ?_
  have hmem : some i ∈ w.woken.map Awakening.flight := hi ▸ List.mem_map_of_mem hc
  refine untouched hs hf hpending ?_ ?_
  · rintro rfl
    simp only [permitted, decide_eq_true_eq] at hl
    exact hl hmem
  · rintro rfl
    simp only [permitted, decide_eq_true_eq] at hl
    exact hl hmem

/-- A step of one of the operations. -/
theorem DelayedInv.own (hinv : DelayedInv w) (hs : w.actor.step E k = some s)
    (hk : k = .advance i ∨ k = .abandon i) (hc : c ∈ w.woken) (hi : c.flight = some i)
    (hd : d ∈ w.woken)
    (hne : d.task ≠ c.task) (h : Led w.actor d t) : Led s d t := by
  refine h.frame fun i' f hi' hf hpending => ?_
  have hii : i' ≠ i := by
    rintro rfl
    exact hne (congrArg Awakening.task (hinv.flights d hd c hc i' hi' hi))
  refine untouched hs hf hpending ?_ ?_
  · rcases hk with rfl | rfl <;> simp [Ne.symm hii]
  · rcases hk with rfl | rfl <;> simp [Ne.symm hii]

/-- The send of a task that is in it. -/
theorem DelayedInv.sends (hinv : DelayedInv w) (hj : w.tasks[j]? = some t)
    (hst : t.stage = .sending i ∨ t.stage = .waiting i) :
    ∃ c ∈ w.woken, c.task = j ∧ c.flight = some i
      ∧ ∃ message st, t.job = .send message
        ∧ w.actor.flights[i]? = some ⟨WeakSender.upgradeAndSend (message c.time), st⟩
        ∧ Stands w.actor i t.stage st := by
  -- only a task that has woken up is past its sleep
  have hmem : j ∈ w.woken.map Awakening.task := by
    rcases hinv.awake j t hj with h | h | h
    · rcases hst with hst | hst <;> rw [hst] at h <;> cases h
    · rcases hst with hst | hst <;> rw [hst] at h <;> cases h
    · exact h
  obtain ⟨c, hc, rfl⟩ := List.mem_map.mp hmem
  obtain ⟨t', ht', -, -, hled⟩ := hinv.woken c hc
  cases hj.symm.trans ht'
  cases hled with
  | exec takes hjob hi h =>
    rcases hst with hst | hst <;> rw [hst] at h <;> simp at h
  | send message i' st hjob hi hf hstands =>
    have hii : i' = i := by
      rcases hst with hst | hst <;> rw [hst] at hstands <;> cases hstands <;> rfl
    subst hii
    exact ⟨c, hc, rfl, hi, message, st, hjob, hf, hstands⟩

/-- A task that awaits its future has woken up. -/
theorem DelayedInv.executes (hinv : DelayedInv w) (hj : w.tasks[j]? = some t) {ready : Option ℕ}
    (hst : t.stage = .executing ready) : ∃ c ∈ w.woken, c.task = j
      ∧ ∃ takes, t.job = .exec takes ∧ ready = takes.map (c.time + ·) := by
  have hmem : j ∈ w.woken.map Awakening.task := by
    rcases hinv.awake j t hj with h | h | h
    · rw [hst] at h
      cases h
    · rw [hst] at h
      cases h
    · exact h
  obtain ⟨c, hc, rfl⟩ := List.mem_map.mp hmem
  obtain ⟨t', ht', -, -, hled⟩ := hinv.woken c hc
  cases hj.symm.trans ht'
  cases hled with
  | exec takes hjob hi h =>
    rw [hst] at h
    exact ⟨c, hc, rfl, takes, hjob, by simpa using h⟩
  | send message i st hjob hi hf hstands =>
    rw [hst] at hstands
    cases hstands

/-- A task that sleeps has not woken up. -/
theorem DelayedInv.asleep (hinv : DelayedInv w) (hj : w.tasks[j]? = some t)
    (hst : t.stage = .sleeping) : j ∉ w.woken.map Awakening.task := by
  intro hmem
  obtain ⟨c, hc, rfl⟩ := List.mem_map.mp hmem
  obtain ⟨t', ht', -, -, hled⟩ := hinv.woken c hc
  cases hj.symm.trans ht'
  cases hled with
  | exec takes hjob hi h => simp [hst] at h
  | send message i st hjob hi hf hstands =>
    rw [hst] at hstands
    cases hstands

omit [AsyncChannel Q] in
theorem task_setStage {st : DelayedStage} {m : ℕ} {t' : DelayedTask σ ρ} (hj : w.tasks[j]? = some t)
    (hm : (w.setStage j st).tasks[m]? = some t') :
    (m ≠ j ∧ w.tasks[m]? = some t') ∨ (m = j ∧ t' = { t with stage := st }) := by
  rcases Table.of_getElem?_modify hm with ⟨hne, hold⟩ | ⟨rfl, u, hu, rfl⟩
  · exact .inl ⟨hne.symm, hold⟩
  · cases hj.symm.trans hu
    exact .inr ⟨rfl, rfl⟩

/-- One task moves, and the actor with it. -/
theorem DelayedInv.move (hinv : DelayedInv w) (hj : w.tasks[j]? = some t) {st : DelayedStage}
    (hrequests : s.RequestInv) (henrolled : s.EnrolledInv) {cs : ContextWorld}
    (hlength : cs.spawned.length = w.contexts.spawned.length)
    (hothers : ∀ c ∈ w.woken, c.task ≠ j → ∀ t, Led w.actor c t → Led s c t)
    (hself : ∀ c ∈ w.woken, c.task = j → Led w.actor c t → Led s c { t with stage := st })
    (hawake : st = .ended ∨ j ∈ w.woken.map Awakening.task) :
    DelayedInv ({ w with actor := s, contexts := cs }.setStage j st) where
  requests := hrequests
  enrolled := henrolled
  length := (hlength.trans hinv.length).trans (List.length_modify ..).symm
  woken c hc := by
    obtain ⟨t', ht', hdue, htime, hled⟩ := hinv.woken c hc
    -- of the awakenings only that of the task itself is looked at anew
    by_cases hcj : c.task = j
    · subst hcj
      cases hj.symm.trans ht'
      exact ⟨_, Table.getElem?_modify_self hj, hdue, htime, hself c hc rfl hled⟩
    · exact ⟨t', (Table.getElem?_modify_of_ne (Ne.symm hcj)).trans ht', hdue, htime,
        hothers c hc hcj t' hled⟩
  once := hinv.once
  flights := hinv.flights
  awake m t' hm := by
    rcases task_setStage (w := { w with actor := s, contexts := cs }) hj hm with ⟨-, hold⟩
      | ⟨rfl, rfl⟩
    · exact hinv.awake m t' hold
    · exact .inr hawake

/-- A task wakes up. -/
theorem DelayedInv.wakes (hinv : DelayedInv w) (hj : w.tasks[j]? = some t)
    (hasleep : t.stage = .sleeping)
    (hdue : t.due ≤ w.now) {st : DelayedStage} {flight : Option ℕ} (hrequests : s.RequestInv)
    (henrolled : s.EnrolledInv) (hothers : ∀ c ∈ w.woken, ∀ t, Led w.actor c t → Led s c t)
    (hfresh : ∀ c ∈ w.woken, ∀ i, c.flight = some i → flight ≠ some i)
    (hled : Led s ⟨j, w.now, flight⟩ { t with stage := st }) :
    DelayedInv ({ w with actor := s }.awake j flight st) where
  requests := hrequests
  enrolled := henrolled
  length := hinv.length.trans (List.length_modify ..).symm
  woken c hc := by
    rcases List.mem_append.mp hc with hold | hnew
    · obtain ⟨t', ht', hdue', htime, hled'⟩ := hinv.woken c hold
      have hcj : c.task ≠ j := fun h => hinv.asleep hj hasleep (h ▸ List.mem_map_of_mem hold)
      exact ⟨t', (Table.getElem?_modify_of_ne hcj.symm).trans ht', hdue', htime,
        hothers c hold t' hled'⟩
    · cases List.mem_singleton.mp hnew
      exact ⟨_, Table.getElem?_modify_self hj, hdue, le_rfl, hled⟩
  once := by
    show ((w.woken ++ [_]).map Awakening.task).Nodup
    rw [List.map_append, List.map_singleton, List.nodup_append]
    refine ⟨hinv.once, by simp, fun m hm m' hm' => ?_⟩
    rw [List.mem_singleton.mp hm']
    rintro rfl
    exact hinv.asleep hj hasleep hm
  -- two awakenings with one operation would both be old or both be this one
  flights c hc d hd i hi hi' := by
    rcases List.mem_append.mp hc with hc | hc <;> rcases List.mem_append.mp hd with hd | hd
    · exact hinv.flights c hc d hd i hi hi'
    · cases List.mem_singleton.mp hd
      exact absurd hi' (hfresh c hc i hi)
    · cases List.mem_singleton.mp hc
      exact absurd hi (hfresh d hd i hi')
    · rw [List.mem_singleton.mp hc, List.mem_singleton.mp hd]
  awake m t' hm := by
    show _ ∨ _ ∨ m ∈ (w.woken ++ [_]).map Awakening.task
    rw [List.map_append, List.mem_append]
    rcases task_setStage (w := { w with actor := s }) hj hm with ⟨-, hold⟩ | ⟨rfl, rfl⟩
    · rcases hinv.awake m t' hold with h | h | h
      · exact .inl h
      · exact .inr (.inl h)
      · exact .inr (.inr (.inl h))
    · exact .inr (.inr (.inr (by simp)))

/-- The upgrade and the check never wait. -/
theorem exists_advance_of_early {op : Operation σ ρ} {st : Stage ρ}
    (hf : u.flights[i]? = some ⟨op, st⟩)
    (hst : st = .upgrading ∨ st = .checking) : ∃ s, u.step E (.advance i) = some s := by
  rcases hst with rfl | rfl
  · cases hup : u.upgradable <;> simp [World.step, World.act, World.advance, hf, hup]
  · exact World.advance_checking hf

/-- One step of a send. -/
theorem DelayedInv.send (hinv : DelayedInv w) (hj : w.tasks[j]? = some t)
    (hst : t.stage = .sending i ∨ t.stage = .waiting i)
    (hs : w.actor.step E (.advance i) = some s) :
    DelayedInv ({ w with actor := s }.setStage j (.sending i)) := by
  obtain ⟨c, hc, rfl, hi, message, st, hjob, hf, hstands⟩ := hinv.sends hj hst
  have honly : ∀ d ∈ w.woken, d.task = c.task → d = c := fun d hd hdc =>
    List.inj_on_of_nodup_map hinv.once hd hc hdc
  -- where the operation stands now
  have hnew : ∃ st', s.flights[i]? = some ⟨WeakSender.upgradeAndSend (message c.time), st'⟩
      ∧ Stands s i (.sending i) st' := by
    have hsends : st = .checking ∨ st = .enqueuing →
        ∃ st', s.flights[i]? = some ⟨WeakSender.upgradeAndSend (message c.time), st'⟩
          ∧ Stands s i (.sending i) st' := by
      intro hearly
      obtain ⟨-, hcases⟩ := World.sends_of_step hs hf hearly rfl rfl
      cases hcases with
      | passed hold hnew hacc => exact ⟨_, hnew, .enqueuing⟩
      | rejected hwhy hnew hacc =>
        refine ⟨_, hnew, .returned _ ?_⟩
        simp [WeakSender.upgradeAndSend, Operation.upgraded, Sender.send]
      | accepted hold hnew hacc => exact ⟨_, hnew, .returned _ (by simp)⟩
    generalize t.stage = stage at hstands
    -- by the stage of the operation, which is the only thing a poll moves
    cases hstands with
    | upgrading =>
      obtain ⟨-, -, ⟨-, hnew⟩ | ⟨-, hnew⟩⟩ := World.upgrade_of_step hs hf
      · exact ⟨_, hnew, .checking⟩
      · exact ⟨_, hnew, .returned _ (by simp)⟩
    | checking => exact hsends (.inl rfl)
    | enqueuing => exact hsends (.inr rfl)
    | waiting => exact hsends (.inr rfl)
    | returned res hres | settled res hres =>
      rw [World.advance_returned hf] at hs
      cases hs
    | dropped hnot => simp [World.step, World.act, World.advance, hf] at hs
  obtain ⟨st', hf', hstands'⟩ := hnew
  refine hinv.move hj (World.requestInv_step hinv.requests hs)
    (World.enrolledInv_step hinv.enrolled hs)
    rfl (fun d hd hne t => hinv.own hs (.inl rfl) hc hi hd hne) (fun d hd hdc _ => ?_)
    (.inr (List.mem_map_of_mem hc))
  rw [honly d hd hdc]
  exact .send message i st' hjob hi hf' hstands'

/-- A send that cannot go on waits for space. -/
theorem DelayedInv.block (hinv : DelayedInv w) (hj : w.tasks[j]? = some t)
    (hst : t.stage = .sending i)
    {f : Flight σ ρ} (hf : w.actor.flights[i]? = some f) (hret : ∀ res, f.stage ≠ .returned res)
    (hs : w.actor.step E (.advance i) = none) : DelayedInv (w.setStage j (.waiting i)) := by
  obtain ⟨c, hc, rfl, hi, message, st, hjob, hf', hstands⟩ := hinv.sends hj (.inl hst)
  cases hf.symm.trans hf'
  have hnone : ¬ ∃ s, w.actor.step E (.advance i) = some s := by simp [hs]
  have henqueuing : st = .enqueuing := by
    rw [hst] at hstands
    -- all that does not wait for room could have gone on
    cases hstands with
    | upgrading => exact absurd (exists_advance_of_early hf' (.inl rfl)) hnone
    | checking => exact absurd (exists_advance_of_early hf' (.inr rfl)) hnone
    | enqueuing => rfl
    | returned res hres => exact absurd rfl (hret res)
  subst henqueuing
  refine hinv.move (s := w.actor) hj hinv.requests hinv.enrolled rfl (fun d _ _ t h => h)
    (fun d hd hdc _ => ?_) (.inr (List.mem_map_of_mem hc))
  rw [List.inj_on_of_nodup_map hinv.once hd hc hdc]
  exact .send message i .enqueuing hjob hi hf' .waiting

/-- A send that has returned ends its task. -/
theorem DelayedInv.sent (hinv : DelayedInv w) (hj : w.tasks[j]? = some t)
    (hst : t.stage = .sending i)
    {op : Operation σ ρ} {res : Except ActorError (Option ρ)} {cs : ContextWorld}
    (hf : w.actor.flights[i]? = some ⟨op, .returned res⟩)
    (hlength : cs.spawned.length = w.contexts.spawned.length) :
    DelayedInv ({ w with contexts := cs }.setStage j .ended) := by
  obtain ⟨c, hc, rfl, hi, message, st, hjob, hf', hstands⟩ := hinv.sends hj (.inl hst)
  cases hf.symm.trans hf'
  have hres : res ≠ .error .canceled := by
    rw [hst] at hstands
    cases hstands with
    | returned res hres => exact hres
  refine hinv.move (s := w.actor) hj hinv.requests hinv.enrolled hlength (fun d _ _ t h => h)
    (fun d hd hdc _ => ?_) (.inl rfl)
  rw [List.inj_on_of_nodup_map hinv.once hd hc hdc]
  exact .send message i (.returned res) hjob hi hf' (.settled res hres)

/-- A task that does not send ends. -/
theorem DelayedInv.ends (hinv : DelayedInv w) (hj : w.tasks[j]? = some t)
    (hst : t.stage = .sleeping ∨ ∃ ready, t.stage = .executing ready) {cs : ContextWorld}
    (hlength : cs.spawned.length = w.contexts.spawned.length) :
    DelayedInv ({ w with contexts := cs }.setStage j .ended) := by
  refine hinv.move (s := w.actor) hj hinv.requests hinv.enrolled hlength (fun d _ _ t h => h)
    (fun d _ _ hled => ?_) (.inl rfl)
  cases hled with
  | exec takes hjob hi h => exact .exec takes hjob hi (.inr rfl)
  | send message i st hjob hi hf hstands =>
    rcases hst with hst | ⟨ready, hst⟩ <;> rw [hst] at hstands <;> cases hstands

/-- A send that waits for space is dropped: the mailbox has not accepted it. -/
theorem DelayedInv.reapSend (hinv : DelayedInv w) (hj : w.tasks[j]? = some t)
    (hst : t.stage = .waiting i) (hs : w.actor.step E (.abandon i) = some s) :
    DelayedInv ({ w with actor := s }.setStage j .ended) := by
  obtain ⟨c, hc, rfl, hi, message, st, hjob, hf, hstands⟩ := hinv.sends hj (.inr hst)
  obtain ⟨hacc, -, f, hf', hnew⟩ := World.abandon_of_step hs
  cases hf.symm.trans hf'
  have hnot : i ∉ w.actor.accepted.map Envelope.client := by
    rw [hst] at hstands
    cases hstands
    exact hinv.requests.ok.flight i _ hf
  refine hinv.move hj (World.requestInv_step hinv.requests hs)
    (World.enrolledInv_step hinv.enrolled hs)
    rfl (fun d hd hne t => hinv.own hs (.inr rfl) hc hi hd hne) (fun d hd hdc _ => ?_) (.inl rfl)
  rw [List.inj_on_of_nodup_map hinv.once hd hc hdc]
  exact .send message i .abandoned hjob hi hnew (.dropped (hacc ▸ hnot))

end Steps

/-- The step lemma. -/
theorem delayedInv_step (hinv : DelayedInv w) (h : w.step E l = some w') : DelayedInv w' := by
  cases act_cases h with
  | actor k s hne hk hs =>
    exact { hinv with
      requests := World.requestInv_step hinv.requests hs
      enrolled := World.enrolledInv_step hinv.enrolled hs
      woken := fun c hc => by
        obtain ⟨t, ht, hdue, htime, hled⟩ := hinv.woken c hc
        exact ⟨t, ht, hdue, htime, hled.others hk hs hc⟩ }
  | dropCtx s cs hs hcs =>
    exact { hinv with
      requests := World.requestInv_step hinv.requests hs
      enrolled := World.enrolledInv_step hinv.enrolled hs
      length := (length_of_context hcs (by simp)).trans hinv.length
      woken := fun c hc => by
        obtain ⟨t, ht, hdue, htime, hled⟩ := hinv.woken c hc
        exact ⟨t, ht, hdue, htime, hled.others rfl hs hc⟩ }
  | elapse =>
    exact { hinv with
      woken := fun c hc => by
        obtain ⟨t, ht, hdue, htime, hled⟩ := hinv.woken c hc
        exact ⟨t, ht, hdue, Nat.le_succ_of_le htime, hled⟩ }
  | spawn job duration cs hcs =>
    cases ContextWorld.act_cases hcs with
    | spawnTask c hlive =>
      exact { hinv with
        length := by simpa [ContextWorld.spawnTask] using hinv.length
        woken := fun c hc => by
          obtain ⟨t, ht, hrest⟩ := hinv.woken c hc
          exact ⟨t, Table.getElem?_snoc_of_some ht, hrest⟩
        awake := fun j t hj => by
          rcases Table.getElem?_snoc.mp hj with hold | ⟨-, rfl⟩
          · exact hinv.awake j t hold
          · exact .inl rfl }
  | stopTask h cs hcs =>
    exact { hinv with length := (length_of_context hcs (by simp)).trans hinv.length }
  | gc cs hcs => exact { hinv with length := (length_of_context hcs (by simp)).trans hinv.length }
  -- the operation that is begun is a new one, so no other task has it
  | wakeSend j message due s hj hdue hrun hs =>
    obtain ⟨hflights, hacc, -⟩ := World.begin_of_step hs
    have hbound : ∀ c ∈ w.woken, ∀ i, c.flight = some i → i < w.actor.flights.length := by
      intro c hc i hi
      obtain ⟨t, -, -, -, hled⟩ := hinv.woken c hc
      cases hled with
      | exec takes hjob hnone => cases hnone.symm.trans hi
      | send message' i' st hjob hi' hf =>
        cases hi'.symm.trans hi
        exact (List.getElem?_eq_some_iff.mp hf).1
    refine hinv.wakes hj rfl hdue (World.requestInv_step hinv.requests hs)
      (World.enrolledInv_step hinv.enrolled hs) (fun c hc t hled => hled.frame fun i f _ hf _ => ?_)
      (fun c hc i hi heq => ?_) ?_
    · rw [hflights, hacc]
      exact ⟨Table.getElem?_snoc_of_some hf, id⟩
    · cases heq
      exact lt_irrefl _ (hbound c hc _ hi)
    · refine .send message w.actor.flights.length .upgrading rfl rfl ?_ .upgrading
      rw [hflights]
      exact Table.getElem?_snoc.mpr (.inr ⟨rfl, rfl⟩)
  | wakeExec j takes due hj hdue hrun =>
    exact hinv.wakes (s := w.actor) hj rfl hdue hinv.requests hinv.enrolled (fun c _ t h => h)
      (fun c hc i hi => by simp) (.exec takes rfl rfl (.inl rfl))
  | send j i t s hj hst hs => exact hinv.send hj (hst.imp_right And.left) hs
  | block j i t f hj hst hf hret hs => exact hinv.block hj hst hf hret hs
  | sent j i t op res cs hj hst hf hcs =>
    exact hinv.sent hj hst hf (length_of_context hcs (by simp))
  | executed j ready t cs hj hst hready hcs =>
    exact hinv.ends hj (.inr ⟨_, hst⟩) (length_of_context hcs (by simp))
  | reap j t hj hst hrun => exact hinv.ends hj hst (Eq.refl w.contexts.spawned.length)
  | reapSend j i t s hj hst hrun hs => exact hinv.reapSend hj hst hs

theorem delayedInv_of_run {capacity : Option ℕ+} {a : σ} {ls : List (DelayedLabel σ ρ)}
    (h : (machine Q ρ E capacity a).Run ls w) : DelayedInv w :=
  h.invariant (I := DelayedInv) (delayedInv_init capacity a) fun _ _ _ => delayedInv_step

/-! ## Delayed sends

What the invariant says once the task is at its end: the operation has returned, and it has returned
`Ok` exactly if its payload was accepted. -/

/-- The mailbox has the payload of an operation once it has returned `Ok`. -/
theorem DelayedInv.accepted_iff (hinv : DelayedInv w) {c : Awakening} {t : DelayedTask σ ρ} {i : ℕ}
    {message : ℕ → TaskFn σ ρ} {st : Stage ρ}
    (hf : w.actor.flights[i]? = some ⟨WeakSender.upgradeAndSend (message c.time), st⟩)
    (hst : Stands w.actor i t.stage st) :
    i ∈ w.actor.accepted.map Envelope.client ↔ ∃ r, st = .returned (.ok r) := by
  have hflight := hinv.requests.ok.flight i _ hf
  constructor
  · intro hacc
    generalize t.stage = stage at hst
    -- before it has returned nothing of it was accepted
    cases hst with
    | upgrading | checking | enqueuing | waiting => exact absurd hacc hflight
    | returned res hres | settled res hres =>
      cases res with
      | ok r => exact ⟨r, rfl⟩
      | error e =>
        rcases hflight.2.2 with rfl | hnot
        · exact absurd rfl hres
        · exact absurd hacc hnot
    | dropped hnot => exact absurd hacc hnot
  · rintro ⟨r, rfl⟩
    exact hinv.enrolled.enrolled i _ hf rfl

/-- What the task of awakening `c` sends with operation `i`, which stands at `st`. -/
structure Sends (w : DelayedWorld Q σ ρ) (c : Awakening) (message : ℕ → TaskFn σ ρ) (i : ℕ)
    (st : Stage ρ) : Prop where
  flight : w.actor.flights[i]? = some ⟨WeakSender.upgradeAndSend (message c.time), st⟩
  once : (w.actor.accepted.map Envelope.client).count i ≤ 1
  accepted : i ∈ w.actor.accepted.map Envelope.client ↔ ∃ r, st = .returned (.ok r)
  payload : ∀ e ∈ w.actor.accepted, e.client = i → e.payload = .task (message c.time)

theorem DelayedInv.sends_of_led (hinv : DelayedInv w) {c : Awakening} {t : DelayedTask σ ρ}
    (hled : Led w.actor c t) : (∃ takes, t.job = .exec takes ∧ c.flight = none)
      ∨ ∃ message i st, t.job = .send message ∧ c.flight = some i ∧ w.Sends c message i st := by
  cases hled with
  | exec takes hjob hi hst => exact .inl ⟨takes, hjob, hi⟩
  | send message i st hjob hi hf hst =>
    refine .inr ⟨message, i, st, hjob, hi, hf, ?_, hinv.accepted_iff hf hst, fun e he hei => ?_⟩
    · exact List.nodup_iff_count_le_one.mp hinv.requests.ok.distinct i
    · have hsent := hinv.enrolled.sent e he
      rw [hei, World.Sent, World.ops, List.getElem?_map, hf] at hsent
      simpa [WeakSender.upgradeAndSend, Operation.upgraded, Sender.send] using hsent.symm

/-- The future that task `j` awaits has not completed. -/
def Unready (w : DelayedWorld Q σ ρ) (j : ℕ) (t : DelayedTask σ ρ) : Prop :=
  ∃ takes, t.job = .exec takes ∧ ∃ c ∈ w.woken, c.task = j
    ∧ ∀ n, takes = some n → w.now < c.time + n

/-- A task that is due goes on, unless its send waits for space, or its future is not ready. -/
theorem DelayedInv.goes_on (hinv : DelayedInv w) {t : DelayedTask σ ρ} (hj : w.tasks[j]? = some t)
    (hrun : w.contexts.running j = true) (hdue : t.due ≤ w.now) (hst : t.stage ≠ .ended) :
    (∃ l, (l = .wake j ∨ l = .poll j) ∧ (w.step E l).isSome = true)
      ∨ ((∃ i, t.stage = .waiting i) ∧ w.actor.full = true) ∨ w.Unready j t := by
  have hfinish : (w.finish j).isSome = true := rfl
  cases hstage : t.stage with
  | sleeping =>
    refine .inl ⟨_, .inl rfl, ?_⟩
    obtain ⟨job, due, stage⟩ := t
    cases hstage
    cases job with
    | send message =>
      simp [step, wake, hj, hdue, hrun, World.step, World.act, World.offers,
        WeakSender.upgradeAndSend, Operation.upgraded]
    | exec takes => simp [step, wake, hj, hdue, hrun]
  | sending i =>
    refine .inl ⟨_, .inr rfl, ?_⟩
    obtain ⟨c, -, -, -, message, st, -, hf, -⟩ := hinv.sends hj (.inl hstage)
    obtain ⟨job, due, stage⟩ := t
    cases hstage
    cases hs : w.actor.step E (.advance i) <;> cases st <;> simp [step, poll, hj, hf, hs, hfinish]
  -- the only stage in which its step may be missing for long
  | waiting i =>
    obtain ⟨c, -, -, -, message, st, -, hf, hstands⟩ := hinv.sends hj (.inr hstage)
    rw [hstage] at hstands
    cases hstands
    obtain ⟨job, due, stage⟩ := t
    cases hstage
    cases hs : w.actor.step E (.advance i) with
    | none => exact .inr (.inl ⟨⟨i, rfl⟩, World.full_of_blocked hf hs⟩)
    | some s => exact .inl ⟨_, .inr rfl, by simp [step, poll, hj, hrun, hs]⟩
  | executing ready =>
    obtain ⟨c, hc, hcj, takes, hjob, rfl⟩ := hinv.executes hj hstage
    obtain ⟨job, due, stage⟩ := t
    cases hstage
    -- a future that is not ready holds the task up; one that never completes does so for good
    by_cases hready : (takes.map (c.time + ·)).any (· ≤ w.now) = true
    · exact .inl ⟨_, .inr rfl, by simpa only [step, poll, hj, if_pos hready] using hfinish⟩
    · refine .inr (.inr ⟨takes, hjob, c, hc, hcj, fun n hn => ?_⟩)
      subst hn
      simpa using hready
  | ended => exact absurd hstage hst

/-- **Delayed sends.** For both loops, every mailbox, any other clients and any tasks: a task wakes
up at most once, and not before its sleep is over. A `delayed_send` calls `message_fn` when it wakes
up, and sends what it returns, once, and as long as its send has not returned `Ok` not at all. No
task that is due gets stuck but in a send to a mailbox that is full, or in a future that does not
complete. -/
theorem delayed_sends (E : EventLoop σ) (capacity : Option ℕ+) (a : σ)
    {ls : List (DelayedLabel σ ρ)} (h : (machine Q ρ E capacity a).Run ls w) :
    (w.woken.map Awakening.task).Nodup
      ∧ (∀ c ∈ w.woken, ∀ d ∈ w.woken, ∀ i, c.flight = some i → d.flight = some i → c = d)
      ∧ (∀ c ∈ w.woken, ∃ t, w.tasks[c.task]? = some t ∧ t.due ≤ c.time ∧ c.time ≤ w.now
          ∧ ((∃ takes, t.job = .exec takes ∧ c.flight = none)
            ∨ ∃ message i st, t.job = .send message ∧ c.flight = some i ∧ w.Sends c message i st))
      ∧ ∀ (j : ℕ) (t : DelayedTask σ ρ), w.tasks[j]? = some t → w.contexts.running j = true →
          t.due ≤ w.now → t.stage ≠ .ended →
          (∃ l, (l = .wake j ∨ l = .poll j) ∧ (w.step E l).isSome = true)
            ∨ ((∃ i, t.stage = .waiting i) ∧ w.actor.full = true) ∨ w.Unready j t := by
  have hinv := delayedInv_of_run h
  refine ⟨hinv.once, hinv.flights, fun c hc => ?_, fun j t hj => hinv.goes_on hj⟩
  obtain ⟨t, ht, hdue, htime, hled⟩ := hinv.woken c hc
  exact ⟨t, ht, hdue, htime, hinv.sends_of_led hled⟩

/-- `started` delays two sends, the first of them by three units of time; the mailbox has room for
one payload, and a client has filled it when the second one wakes up. -/
def delayedRun : List (DelayedLabel ℕ ℕ) :=
  [.actor .poll, .spawn (.send fun now => fun n => .completed (n + now) none) 3,
    .spawn (.send fun _ => fun n => .completed (n + 1) none) 0, .actor .poll, .elapse,
    .elapse, .elapse, .elapse, .wake 0, .poll 0, .poll 0, .poll 0, .poll 0, .wake 1, .poll 1,
    .poll 1, .poll 1]

/-- An actor with room for `n` payloads. -/
def narrow (n : ℕ+) : Machine (DelayedWorld ChannelState ℕ ℕ) (DelayedLabel ℕ ℕ) :=
  machine ChannelState ℕ (.fromChannel (.provided 0)) (some n) 7

theorem delayed_sends_late :
    ((narrow 1).after delayedRun rfl).woken = [⟨0, 4, some 0⟩, ⟨1, 4, some 1⟩]
    ∧ (∃ t, ((narrow 1).after delayedRun rfl).tasks[0]? = some t ∧ t.due ≤ 4)
    ∧ ((∃ l, (l = .wake 1 ∨ l = .poll 1) ∧
          (((narrow 1).after delayedRun rfl).step (.fromChannel (.provided 0)) l).isSome = true)
        ∨ ((∃ i, (⟨.send fun _ => fun n => .completed (n + 1) none, 0, .waiting 1⟩ :
            DelayedTask ℕ ℕ).stage = .waiting i)
          ∧ ((narrow 1).after delayedRun rfl).actor.full = true)
        ∨ ((narrow 1).after delayedRun rfl).Unready 1
          ⟨.send fun _ => fun n => .completed (n + 1) none, 0, .waiting 1⟩) := by
  obtain ⟨-, -, hwoken, hgo⟩ :=
    delayed_sends (.fromChannel (.provided 0)) (some 1) 7 ((narrow 1).run_after delayedRun rfl)
  obtain ⟨t, ht, hdue, -⟩ := hwoken ⟨0, 4, some 0⟩ List.mem_cons_self
  exact ⟨rfl, ⟨t, ht, hdue⟩, hgo 1 _ rfl rfl (Nat.zero_le _) (by simp)⟩

/-! ## Aborted tasks

A task that has been aborted is `Halted`: asleep, waiting for room, or at its end. From then on no
step wakes it or lets the mailbox accept its message, and `Silent` composes, so this holds over any
continuation. -/

/-- Task `j` is not running, and its future is where it can be dropped, or has been. -/
def Halted (w : DelayedWorld Q σ ρ) (j : ℕ) : Prop :=
  w.contexts.running j = false ∧ ∃ t, w.tasks[j]? = some t
    ∧ (t.stage = .sleeping ∨ (∃ i, t.stage = .waiting i) ∨ t.stage = .ended)

/-- Between two states task `j` neither wakes up nor gets a payload into the mailbox. -/
structure Silent (j : ℕ) (w w' : DelayedWorld Q σ ρ) : Prop where
  asleep : j ∉ w.woken.map Awakening.task → j ∉ w'.woken.map Awakening.task
  kept : ∀ c ∈ w.woken, c.task = j → c ∈ w'.woken
  unsent : ∀ c ∈ w.woken, c.task = j → ∀ i, c.flight = some i →
    i ∉ w.actor.accepted.map Envelope.client → i ∉ w'.actor.accepted.map Envelope.client

omit [AsyncChannel Q] in
theorem Silent.refl (j : ℕ) (w : DelayedWorld Q σ ρ) : Silent j w w :=
  ⟨id, fun _ hc _ => hc, fun _ _ _ _ _ => id⟩

omit [AsyncChannel Q] in
theorem Silent.trans {u v : DelayedWorld Q σ ρ} (h : Silent j w u) (h' : Silent j u v) :
    Silent j w v where
  asleep := h'.asleep ∘ h.asleep
  kept c hc hcj := h'.kept c (h.kept c hc hcj) hcj
  unsent c hc hcj i hi hnot :=
    h'.unsent c (h.kept c hc hcj) hcj i hi (h.unsent c hc hcj i hi hnot)

/-- The tasks of the `Context` make a step of their own, or none. -/
theorem contexts_of_act (h : Act E w l w') :
    w'.contexts = w.contexts ∨ ∃ k, w.contexts.step k = some w'.contexts
      ∧ ∀ c, k = .spawnTask c → c = 0 := by
  cases h with
  | dropCtx s c hs hc | stopTask h c hc | gc c hc => exact .inr ⟨_, hc, by simp⟩
  | spawn job duration c hc => exact .inr ⟨_, hc, by simp⟩
  | sent j i t op res c hj hst hf hc => exact .inr ⟨_, hc, by simp⟩
  | executed j ready t c hj hst hready hc => exact .inr ⟨_, hc, by simp⟩
  | _ => exact .inl rfl

/-- A task that has ended does not run again. -/
theorem running_kept (hlt : j < w.contexts.spawned.length) (hrun : w.contexts.running j = false)
    (h : Act E w l w') : w'.contexts.running j = false := by
  rcases contexts_of_act h with hsame | ⟨k, hk, -⟩
  · rwa [hsame]
  · have hb : w.contexts.spawned[j]? = some w.contexts.spawned[j] := List.getElem?_eq_getElem hlt
    have hended : w.contexts.spawned[j].task.running = false := by
      simpa [ContextWorld.running, hb] using hrun
    simp [ContextWorld.running, ContextWorld.ended_of_act (ContextWorld.act_cases hk) hb
      hended, hended]

omit [AsyncChannel Q] in
/-- Another task moves. -/
theorem halted_setStage {u : DelayedWorld Q σ ρ} {m : ℕ} {st : DelayedStage}
    (htasks : u.tasks = w.tasks)
    (hm : m ≠ j) (h : ∃ t, w.tasks[j]? = some t
      ∧ (t.stage = .sleeping ∨ (∃ i, t.stage = .waiting i) ∨ t.stage = .ended)) :
    ∃ t, (u.setStage m st).tasks[j]? = some t
      ∧ (t.stage = .sleeping ∨ (∃ i, t.stage = .waiting i) ∨ t.stage = .ended) := by
  obtain ⟨t, ht, hst⟩ := h
  refine ⟨t, ?_, hst⟩
  rw [← ht, ← htasks]
  exact Table.getElem?_modify_of_ne hm

/-- **An aborted task is silent.** -/
theorem halted_step (hinv : DelayedInv w) (hhalted : w.Halted j) (h : w.step E l = some w') :
    w'.Halted j ∧ Silent j w w' := by
  obtain ⟨hrun, t, ht, hst⟩ := hhalted
  have hlt : j < w.contexts.spawned.length :=
    hinv.length ▸ (List.getElem?_eq_some_iff.mp ht).1
  have hact := act_cases h
  have hrun' := running_kept hlt hrun hact
  -- a step of task `m` may end task `j` only if it is the same task
  have hmoved : ∀ {u : DelayedWorld Q σ ρ} {m : ℕ} {st : DelayedStage}, u.tasks = w.tasks →
      u.contexts.running j = false → (m = j → st = .ended) → (u.setStage m st).Halted j := by
    intro u m st htasks hrun hend
    refine ⟨hrun, ?_⟩
    by_cases hm : m = j
    · subst hm
      exact ⟨{ t with stage := st }, Table.getElem?_modify_self (htasks ▸ ht),
        .inr (.inr (hend rfl))⟩
    · exact halted_setStage htasks hm ⟨t, ht, hst⟩
  have hsame : ∀ {u : DelayedWorld Q σ ρ}, u.woken = w.woken →
      u.actor.accepted = w.actor.accepted → Silent j w u := by
    intro u hwoken hacc
    exact ⟨fun h => hwoken ▸ h, fun c hc _ => hwoken ▸ hc, fun c _ _ i _ h => hacc ▸ h⟩
  -- only a task that runs wakes up
  have hwakes : ∀ {m : ℕ}, w.contexts.running m = true → m ≠ j := by
    rintro m hrunm rfl
    rw [hrun] at hrunm
    cases hrunm
  -- a task that is somewhere else is another one
  have hne : ∀ {m : ℕ} {t' : DelayedTask σ ρ}, w.tasks[m]? = some t' → t'.stage ≠ .sleeping →
      t'.stage ≠ .ended → ((∃ i, t'.stage = .waiting i) → w.contexts.running m = true) → m ≠ j := by
    rintro m t' ht' hsleep hend hwait rfl
    cases ht.symm.trans ht'
    rcases hst with hst | hst | hst
    · exact hsleep hst
    · exact hwakes (hwait hst) rfl
    · exact hend hst
  cases hact with
  -- clients do not take the steps of operations that belong to tasks
  | actor k s hctx hk hs =>
    refine ⟨⟨hrun', t, ht, hst⟩, id, fun c hc _ => hc, fun c hc _ i hi hnot hacc => ?_⟩
    rcases World.accepted_of_step hs with hsame | ⟨n, op, rfl, -, hsnoc⟩
    · exact hnot (hsame ▸ hacc)
    · rw [hsnoc, List.map_append, List.mem_append] at hacc
      obtain rfl : i = n := List.mem_singleton.mp (hacc.resolve_left hnot)
      simp only [permitted, decide_eq_true_eq] at hk
      exact hk (hi ▸ List.mem_map_of_mem hc)
  | dropCtx s c hs hc =>
    refine ⟨⟨hrun', t, ht, hst⟩, hsame rfl ?_⟩
    rcases World.accepted_of_step hs with hacc | ⟨n, op, hk, -, -⟩
    · exact hacc
    · cases hk
  | elapse => exact ⟨⟨hrun', t, ht, hst⟩, hsame rfl rfl⟩
  | stopTask h c hc => exact ⟨⟨hrun', t, ht, hst⟩, hsame rfl rfl⟩
  | gc c hc => exact ⟨⟨hrun', t, ht, hst⟩, hsame rfl rfl⟩
  | spawn job duration c hc =>
    exact ⟨⟨hrun', t, Table.getElem?_snoc_of_some ht, hst⟩, hsame rfl rfl⟩
  | wakeSend m message due s hm hdue hrunm hs =>
    have hmj : m ≠ j := hwakes hrunm
    refine ⟨hmoved (u := { w with actor := s }) rfl hrun fun hm => absurd hm hmj, fun hj hj' => ?_,
      fun c hc _ => List.mem_append_left _ hc, fun c _ _ i _ hnot => ?_⟩
    · simp only [awake, List.map_append, List.mem_append] at hj'
      exact hmj (List.mem_singleton.mp (hj'.resolve_left hj)).symm
    · show i ∉ s.accepted.map Envelope.client
      rw [(World.begin_of_step hs).2.1]
      exact hnot
  | wakeExec m takes due hm hdue hrunm =>
    have hmj : m ≠ j := hwakes hrunm
    refine ⟨hmoved (u := w) rfl hrun fun hm => absurd hm hmj, fun hj hj' => ?_,
      fun c hc _ => List.mem_append_left _ hc, fun c _ _ i _ => id⟩
    simp only [awake, List.map_append, List.mem_append] at hj'
    exact hmj (List.mem_singleton.mp (hj'.resolve_left hj)).symm
  | send m i t' s hm hstm hs =>
    have hmj : m ≠ j := hne hm (by rcases hstm with h | ⟨h, -⟩ <;> simp [h])
      (by rcases hstm with h | ⟨h, -⟩ <;> simp [h]) fun ⟨i', hwait⟩ => by
        rcases hstm with h | ⟨-, h⟩
        · cases hwait.symm.trans h
        · exact h
    refine ⟨hmoved (u := { w with actor := s }) rfl hrun fun hm => absurd hm hmj, id,
      fun c hc _ => hc, fun c hc hcj i' hi' hnot hacc => ?_⟩
    -- the mailbox accepts the payload of that other task
    obtain ⟨d, hd, hdm, hi, -⟩ := hinv.sends hm (hstm.imp_right And.left)
    rcases World.accepted_of_step hs with hsame | ⟨n, op, hk, -, hsnoc⟩
    · exact hnot (hsame ▸ hacc)
    · cases hk
      have hacc : i' ∈ s.accepted.map Envelope.client := hacc
      rw [hsnoc, List.map_append, List.mem_append] at hacc
      obtain rfl : i' = i := List.mem_singleton.mp (hacc.resolve_left hnot)
      exact hmj (by rw [← hdm, hinv.flights d hd c hc i' hi hi', hcj])
  | block m i t' f hm hstm hf hret hs =>
    have hmj : m ≠ j := hne hm (by simp [hstm]) (by simp [hstm]) (by simp [hstm])
    exact ⟨hmoved (u := w) rfl hrun fun hm => absurd hm hmj, hsame rfl rfl⟩
  | sent m i t' op res c hm hstm hf hc =>
    have hmj : m ≠ j := hne hm (by simp [hstm]) (by simp [hstm]) (by simp [hstm])
    exact ⟨hmoved (u := { w with contexts := c }) rfl hrun' fun hm => absurd hm hmj, hsame rfl rfl⟩
  | executed m ready t' c hm hstm hready hc =>
    have hmj : m ≠ j := hne hm (by simp [hstm]) (by simp [hstm]) (by simp [hstm])
    exact ⟨hmoved (u := { w with contexts := c }) rfl hrun' fun hm => absurd hm hmj, hsame rfl rfl⟩
  | reap m t' hm hstm hrunm => exact ⟨hmoved (u := w) rfl hrun fun _ => rfl, hsame rfl rfl⟩
  | reapSend m i t' s hm hstm hrunm hs =>
    exact ⟨hmoved (u := { w with actor := s }) rfl hrun fun _ => rfl,
      hsame rfl (World.abandon_of_step hs).1⟩

/-- All tasks are those of one `Context`. -/
theorem context_step (hinv : ∀ b ∈ w.contexts.spawned, b.task.context = 0)
    (h : w.step E l = some w') :
    ∀ b ∈ w'.contexts.spawned, b.task.context = 0 := by
  intro b hb
  rcases contexts_of_act (act_cases h) with hsame | ⟨k, hk, hzero⟩
  · exact hinv b (hsame ▸ hb)
  · obtain ⟨i, hi⟩ := List.getElem?_of_mem hb
    rcases ContextWorld.spawned_of_act (ContextWorld.act_cases hk) hi with
      hold | ⟨b', hb', status, -, rfl⟩ | ⟨c, rfl, -, rfl⟩
    · exact hinv b (List.mem_of_getElem? hold)
    · exact (b'.task.conclude_context status).trans (hinv b' (List.mem_of_getElem? hb'))
    · exact hzero c rfl

theorem contexts_run {capacity : Option ℕ+} {a : σ} {ls : List (DelayedLabel σ ρ)}
    (h : (machine Q ρ E capacity a).Run ls w) : ∃ ks, ContextWorld.machine.Run ks w.contexts :=
  h.projects (π := contexts) rfl fun _ _ _ hstep =>
    (contexts_of_act (act_cases hstep)).imp_right fun ⟨k, hk, _⟩ => ⟨k, hk⟩

/-- `stop_task` with the handle of task `j`, or `Drop for Context`. -/
def Aborts (w : DelayedWorld Q σ ρ) (l : DelayedLabel σ ρ) (j : ℕ) : Prop :=
  l = .actor .dropCtx ∨ ∃ b, w.contexts.spawned[j]? = some b ∧ l = .stopTask b.handle

/-- The join handle of a running task is where these two find it. -/
theorem aborts_step (hcontext : ∀ b ∈ w.contexts.spawned, b.task.context = 0)
    (htrack : w.contexts.TrackInv) (hfew : w.contexts.Unwrapped) (h : w.step E l = some w')
    (hl : w.Aborts l j) : w'.contexts.running j = false := by
  have hzero := context_step hcontext h
  -- `Drop for Context` aborts all tasks of its map, `stop_task` the one with the handle
  rcases hl with rfl | ⟨b, hb, rfl⟩
  · cases act_cases h with
    | actor k s hne hk hs => exact absurd rfl hne
    | dropCtx s c hs hc =>
      have hact := ContextWorld.act_cases hc
      have hdropped : c.dropped 0 = true := by
        cases hact with
        | dropContext c hlive => exact Function.update_self 0 true w.contexts.dropped
      have hall := (ContextWorld.trackInv_act htrack hfew hact).allTracked
      unfold ContextWorld.running
      cases hj : c.spawned[j]? with
      | none => rfl
      | some b =>
        have hmem := List.mem_of_getElem? hj
        exact hall.dropped 0 hdropped b hmem (hzero b hmem)
  · cases act_cases h with
    | stopTask h c hc =>
      have htended := ContextWorld.tended_act htrack hfew (ContextWorld.act_cases hc)
      have hstop := htended.stops 0 _ rfl j
      rw [hb, Option.map_some, if_pos ⟨hcontext b (List.mem_of_getElem? hb), rfl⟩] at hstop
      have hne : TaskStatus.aborted ≠ .running := by decide
      unfold ContextWorld.running
      rw [hstop]
      exact b.task.conclude_running hne

/-- More tasks are spawned, and none is forgotten. -/
theorem spawned_le (h : w.step E l = some w') :
    w.contexts.spawned.length ≤ w'.contexts.spawned.length := by
  rcases contexts_of_act (act_cases h) with hsame | ⟨k, hk, -⟩
  · rw [hsame]
  · exact ContextWorld.length_of_act (ContextWorld.act_cases hk)

/-- **What an abort prevents.** As long as the task ids have not run out: `stop_task` with its
handle, or `Drop for Context`, stops a task; and in whatever order the run goes on, one that has
stopped at an `await` does nothing more. If it was asleep it never wakes up, and if its send waited
for space the mailbox never accepts the payload. -/
theorem delayed_cancelled (E : EventLoop σ) (capacity : Option ℕ+) (a : σ)
    {ls : List (DelayedLabel σ ρ)}
    (h : (machine Q ρ E capacity a).Run ls w) (hfew : w.contexts.spawned.length < 2 ^ 64) (j : ℕ) :
    (∀ u l u', (machine Q ρ E capacity a).Takes ls u l u' → u.Aborts l j →
        u'.contexts.running j = false)
      ∧ ∀ (u : DelayedWorld Q σ ρ) (t : DelayedTask σ ρ), (machine Q ρ E capacity a).Reaches ls u →
          u.tasks[j]? = some t → u.contexts.running j = false →
          (t.stage = .sleeping → j ∉ w.woken.map Awakening.task)
            ∧ ∀ i, t.stage = .waiting i → i ∉ w.actor.accepted.map Envelope.client := by
  have hcontext : ∀ {ls : List (DelayedLabel σ ρ)} {u : DelayedWorld Q σ ρ},
      (machine Q ρ E capacity a).Run ls u → ∀ b ∈ u.contexts.spawned, b.task.context = 0 :=
    fun h => h.invariant (I := fun u => ∀ b ∈ u.contexts.spawned, b.task.context = 0)
      (fun b hb => by cases hb) fun _ _ _ => context_step
  constructor
  · intro u l u' htakes haborts
    obtain ⟨pre, hpre, hu⟩ := htakes.reaches_source
    obtain ⟨-, -, -, hstep⟩ := htakes
    have hle : u.contexts.spawned.length ≤ w.contexts.spawned.length :=
      Machine.Run.related (r := fun s t => s.contexts.spawned.length ≤ t.contexts.spawned.length)
        (fun _ => le_rfl) (fun _ _ _ => le_trans) (fun _ _ _ => spawned_le) hpre hu h
    have hsmall : u.contexts.Unwrapped := hle.trans_lt hfew
    obtain ⟨ks, hks⟩ := contexts_run hu
    exact aborts_step (hcontext hu) (ContextWorld.trackInv_of_run hks hsmall) hsmall hstep haborts
  -- from the state in which it was stopped, silence is carried along the rest of the run
  · rintro u t ⟨pre, hpre, hu⟩ ht hrun
    have hinv := delayedInv_of_run hu
    have hsilent : u.Halted j → Silent j u w := fun hhalted =>
      (Machine.Run.related (r := fun s t => DelayedInv s ∧ s.Halted j →
          (DelayedInv t ∧ t.Halted j) ∧ Silent j s t)
        (fun s hs => ⟨hs, .refl j s⟩)
        (fun s t v hst htv hs => ⟨(htv (hst hs).1).1, (hst hs).2.trans (htv (hst hs).1).2⟩)
        (fun s k s' hstep hs => ⟨⟨delayedInv_step hs.1 hstep, (halted_step hs.1 hs.2 hstep).1⟩,
          (halted_step hs.1 hs.2 hstep).2⟩) hpre hu h ⟨hinv, hhalted⟩).2
    constructor
    · intro hst
      exact (hsilent ⟨hrun, t, ht, .inl hst⟩).asleep (hinv.asleep ht hst)
    · intro i hst
      obtain ⟨c, hc, hcj, hi, message, st, -, hf, hstands⟩ := hinv.sends ht (.inr hst)
      refine (hsilent ⟨hrun, t, ht, .inr (.inl ⟨i, hst⟩)⟩).unsent c hc hcj i hi ?_
      rw [hst] at hstands
      cases hstands
      exact hinv.requests.ok.flight i _ hf

/-- The first task is stopped while it sleeps; the second one waits for space when the loop future
and with it the `Context` are dropped. -/
def cancelledRun : List (DelayedLabel ℕ ℕ) :=
  [.actor .poll, .spawn (.send fun _ => fun n => .completed n none) 2,
    .spawn (.send fun _ => fun n => .completed (n + 1) none) 0,
    .actor (.begin (Addr.trySend fun n => .completed n none)), .actor (.advance 0),
    .actor (.advance 0), .wake 1, .poll 1, .poll 1, .poll 1, .stopTask 0, .actor .dropFuture,
    .actor .dropCtx]

/-- Time goes on, and the futures of both tasks are dropped. -/
def cancelledRest : List (DelayedLabel ℕ ℕ) := [.elapse, .elapse, .reap 0, .reap 1]

theorem delayed_cancelled_both :
    0 ∉ ((narrow 1).after (cancelledRun ++ cancelledRest) (by decide)).woken.map Awakening.task
      ∧ 1 ∉ ((narrow 1).after (cancelledRun ++ cancelledRest) (by decide)).actor.accepted.map
        Envelope.client := by
  have hcancelled := delayed_cancelled (.fromChannel (.provided 0)) (some 1) 7
    ((narrow 1).run_after (cancelledRun ++ cancelledRest) (by decide)) (by decide)
  have hreaches : (narrow 1).Reaches (cancelledRun ++ cancelledRest)
      ((narrow 1).after cancelledRun (by decide)) :=
    ⟨cancelledRun, List.prefix_append _ _, (narrow 1).run_after cancelledRun (by decide)⟩
  exact ⟨((hcancelled 0).2 _ _ hreaches rfl (by decide)).1 rfl,
    ((hcancelled 1).2 _ _ hreaches rfl (by decide)).2 1 rfl⟩

end DelayedWorld

end Hannibal
