import Hannibal.Backlog
import Hannibal.Ticks
import Mathlib.Tactic.Linarith

/-!
# Hannibal.Expiry — the interval against the clock

`Context::interval` and `Context::interval_with` (`context.rs`) derive from the interval's duration
how long a tick may wait for space in the mailbox: half of it, clamped to between 100 ms and 5 s.
Here the task of `Hannibal.Interval` runs against a clock: its timers fire exactly on time, and the
task itself takes no time.

* **`expiry`** — the limit.
* **`TimedInterval`** — the task with the clock, its timer, and when each message was generated and
  accepted.
* **`TimedInterval.TimedInv`** — no message waits longer than the limit.
* **`TimedInterval.delayed`** — a message may wait that long on any mailbox with a bound.
* **`withinHalf_iff`** — for which durations and capacities the documentation's promise is kept.
-/

namespace Hannibal

open Lts Chan
open AsyncChannel (state)

/-! ## The limit

`clamp` is the source's: half the duration, at least 100 ms and at most 5 s. So the limit exceeds
half of the duration exactly for durations below 200 ms. -/

/-- `Duration::from_millis`; a duration is a number of seconds. -/
def fromMillis (n : ℕ) : ℚ := n / 1000

/-- `Duration::from_secs`. -/
def fromSecs (n : ℕ) : ℚ := n

/-- `Ord::clamp`. -/
def clamp (x lo hi : ℚ) : ℚ := if x < lo then lo else if hi < x then hi else x

/-- `duration.mul_f32(0.5).clamp(Duration::from_millis(100), Duration::from_secs(5))`. -/
def expiry (duration : ℚ) : ℚ := clamp (duration / 2) (fromMillis 100) (fromSecs 5)

theorem expiry_pos (d : ℚ) : 0 < expiry d := by
  unfold expiry clamp fromMillis fromSecs
  split
  · norm_num
  · split
    · norm_num
    · next hlo _ => exact lt_of_lt_of_le (by norm_num) (not_lt.mp hlo)

/-- The lower bound of the clamp exceeds the half of a duration below 200 ms; nothing else does. -/
theorem expiry_le_half {d : ℚ} : expiry d ≤ d / 2 ↔ fromMillis 200 ≤ d := by
  unfold expiry clamp fromMillis fromSecs
  -- below the lower bound, within the bounds, or above the upper one
  split
  · next hlo =>
    constructor
    · intro h
      exact absurd hlo (not_lt.mpr h)
    · intro h
      norm_num at h hlo ⊢
      linarith
  · next hlo =>
    have hd : (200 : ℚ) / 1000 ≤ d := by
      norm_num at hlo ⊢
      linarith
    split
    · next hhi => exact ⟨fun _ => mod_cast hd, fun _ => hhi.le⟩
    · exact ⟨fun _ => mod_cast hd, fun _ => le_rfl⟩

variable {Q : Type → Type} {σ ρ : Type}

/-! ## The task against the clock

Each step of the task is taken at a time. `after` notes when a message is generated and when it is
accepted, and sets the timer for a sleep or for the deadline of a send. -/

/-- The task, what time it is, and when its pending timer fires; when the message of each tick was
generated, and when the mailbox accepted it. -/
structure TimedInterval (Q : Type → Type) (σ ρ : Type) where
  interval : IntervalWorld Q σ ρ
  now : ℚ
  due : ℚ
  births : List (ℕ × ℚ)
  arrivals : List (ℕ × ℚ)

/-- Time passes, or something happens. -/
inductive TimedLabel (σ ρ : Type) where
  | elapse (δ : ℚ)
  | act (l : IntervalLabel σ ρ)

namespace TimedInterval

/-- Time does not pass while the task runs, nor beyond the moment its timer fires. -/
def patient (t : TimedInterval Q σ ρ) (δ : ℚ) : Bool :=
  match t.interval.stage with
  | .sleeping | .waiting _ => decide (t.now + δ ≤ t.due)
  | .ticking _ => false
  | .unspawned | .ended | .aborted => true

/-- A timer fires when it is due. -/
def timely (t : TimedInterval Q σ ρ) : IntervalLabel σ ρ → Bool
  | .wake | .expire => decide (t.now = t.due)
  | _ => true

/-- The timer in the state after a step: `interval_timeout` starts one as soon as the message is
generated, and the sleep between two ticks another. -/
def timer (d : ℚ) (t : TimedInterval Q σ ρ) (v : IntervalWorld Q σ ρ) : ℚ :=
  if t.interval.generated.length < v.generated.length then t.now + expiry d
  else if v.stage = .sleeping ∧ t.interval.stage ≠ .sleeping then t.now + d
  else t.due

/-- The task has come to `v`. -/
def after (d : ℚ) (t : TimedInterval Q σ ρ) (v : IntervalWorld Q σ ρ) : TimedInterval Q σ ρ :=
  { interval := v
    now := t.now
    due := t.timer d v
    births := t.births
      ++ (v.generated.drop t.interval.generated.length).map fun e => (e.client, t.now)
    arrivals := t.arrivals
      ++ (v.enqueued.drop t.interval.enqueued.length).map fun e => (e.client, t.now) }

variable [AsyncChannel Q]

def init (Q : Type → Type) [AsyncChannel Q] (ρ : Type) (capacity : Option ℕ+) (a : σ) :
    TimedInterval Q σ ρ :=
  ⟨.init Q ρ capacity a, 0, 0, [], []⟩

def step (E : EventLoop σ) (message : ℕ → TaskFn σ ρ) (d : ℚ) (t : TimedInterval Q σ ρ) :
    TimedLabel σ ρ → Option (TimedInterval Q σ ρ)
  | .elapse δ => if 0 ≤ δ ∧ t.patient δ = true then some { t with now := t.now + δ } else none
  | .act l =>
    if t.timely l then (t.interval.step E message l).map (t.after d) else none

/-- `Context::interval_with(message_fn, duration)` on an actor, against the clock. -/
def machine (Q : Type → Type) [AsyncChannel Q] (E : EventLoop σ) (capacity : Option ℕ+) (a : σ)
    (message : ℕ → TaskFn σ ρ) (d : ℚ) : Machine (TimedInterval Q σ ρ) (TimedLabel σ ρ) :=
  ⟨init Q ρ capacity a, step E message d⟩

/-- What the documentation of both functions promises: no message is accepted later than half of the
duration after it was generated. `interval` is the case of a constant `message`. -/
def WithinHalf (d : ℚ) (capacity : Option ℕ+) : Prop :=
  ∀ (Q : Type → Type) [AsyncChannel Q] (σ ρ : Type) (E : EventLoop σ) (a : σ)
    (message : ℕ → TaskFn σ ρ) (ls : List (TimedLabel σ ρ)) (t : TimedInterval Q σ ρ),
    (machine Q E capacity a message d).Run ls t →
    ∀ i g u, (i, g) ∈ t.births → (i, u) ∈ t.arrivals → u ≤ g + d / 2

/-! ## No message waits longer than the limit

`TimedInv` ties the timer to the tick the task is in. Time passes only up to the timer, and a
message is accepted while its tick lasts. -/

/-- How long the mailbox can make a message wait: one without a bound is never full. -/
def limit (d : ℚ) : Option ℕ+ → ℚ
  | none => 0
  | some _ => expiry d

theorem limit_nonneg (d : ℚ) (capacity : Option ℕ+) : 0 ≤ limit d capacity := by
  cases capacity with
  | none => exact le_rfl
  | some n => exact (expiry_pos d).le

/-- The invariant. -/
structure TimedInv (message : ℕ → TaskFn σ ρ) (d : ℚ) (capacity : Option ℕ+)
    (t : TimedInterval Q σ ρ) : Prop where
  interval : IntervalWorld.Inv message t.interval
  size : (state t.interval.actor.mailbox).capacity = capacity
  bounded : ∀ i, t.interval.stage = .waiting i → capacity ≠ none
  born : ∀ i g, (i, g) ∈ t.births → i ∈ t.interval.generated.map Envelope.client
  arrived : ∀ i u, (i, u) ∈ t.arrivals → i ∈ t.interval.generated.map Envelope.client
  /-- while a message is on its way, the pending timer is its own -/
  current : ∀ i g, (i, g) ∈ t.births → t.interval.InTick i →
    t.now ≤ g + limit d capacity ∧ t.due = g + expiry d
  soon : ∀ i g u, (i, g) ∈ t.births → (i, u) ∈ t.arrivals → u ≤ g + limit d capacity

variable {E : EventLoop σ} {message : ℕ → TaskFn σ ρ} {d : ℚ} {capacity : Option ℕ+}
  {t t' : TimedInterval Q σ ρ} {v : IntervalWorld Q σ ρ} {l : IntervalLabel σ ρ} {i : ℕ} {g u : ℚ}

theorem timedInv_init (a : σ) : TimedInv message d capacity (init Q ρ capacity a) where
  interval := IntervalWorld.inv_init capacity a
  size := by simp [init, IntervalWorld.init, World.init, ChannelState.fresh]
  bounded := nofun
  born := nofun
  arrived := nofun
  current := nofun
  soon := nofun

/-- A message generated in a step is that of the tick the task is in, and has the timer. -/
theorem births_of_act (hinv : IntervalWorld.Inv message t.interval)
    (h : IntervalWorld.Act E message t.interval l v) (hg : (i, g) ∈ (t.after d v).births) :
    (i, g) ∈ t.births
      ∨ (g = t.now ∧ t.interval.InTick i ∧ i ∉ t.interval.generated.map Envelope.client
        ∧ i ∈ v.generated.map Envelope.client ∧ (t.after d v).due = t.now + expiry d) := by
  rcases hinv.generated_of_act h with hsame | ⟨j, p, hin, -, hnew, hgrown⟩
  · exact .inl (by simpa [after, hsame] using hg)
  · rcases List.mem_append.mp hg with hold | hlast
    · exact .inl hold
    · obtain ⟨rfl, rfl⟩ : i = j ∧ g = t.now := by simpa [hgrown] using hlast
      exact .inr ⟨rfl, hin, hnew, by simp [hgrown], by simp [after, timer, hgrown]⟩

/-- A message accepted in a step is that of the tick the task is in. -/
theorem arrivals_of_act (hinv : IntervalWorld.Inv message t.interval)
    (h : IntervalWorld.Act E message t.interval l v) (hu : (i, u) ∈ (t.after d v).arrivals) :
    (i, u) ∈ t.arrivals
      ∨ (u = t.now ∧ t.interval.InTick i ∧ i ∈ v.generated.map Envelope.client) := by
  rcases hinv.enqueued_of_act h with hsame | ⟨j, p, hin, hgrown⟩
  · exact .inl (by simpa [after, hsame] using hu)
  · rcases List.mem_append.mp hu with hold | hlast
    · exact .inl hold
    · obtain ⟨rfl, rfl⟩ : i = j ∧ u = t.now := by simpa [hgrown] using hlast
      have hmem : (⟨i, p⟩ : Envelope σ ρ) ∈ v.enqueued := by simp [hgrown]
      rw [(IntervalWorld.inv_step hinv h).enqueued] at hmem
      exact .inr ⟨rfl, hin, List.mem_map_of_mem (List.mem_filter.mp hmem).1⟩

omit [AsyncChannel Q] in
/-- Within a tick the timer stays as it is, unless the message is generated only now. -/
theorem due_of_act (hsame : v.generated = t.interval.generated) (hin : v.InTick i) :
    (t.after d v).due = t.due := by
  have hawake : v.stage ≠ .sleeping := by rcases hin with hin | hin <;> simp [hin]
  simp [after, timer, hsame, hawake]

/-- Time passes. -/
theorem TimedInv.elapse (hinv : TimedInv message d capacity t) {δ : ℚ}
    (hpatient : t.patient δ = true) :
    TimedInv message d capacity { t with now := t.now + δ } := by
  refine ⟨hinv.interval, hinv.size, hinv.bounded, hinv.born, hinv.arrived, fun i g hg hin => ?_,
    hinv.soon⟩
  obtain ⟨-, hdue⟩ := hinv.current i g hg hin
  refine ⟨?_, hdue⟩
  -- only a task that waits lets time pass within its tick, and not beyond its deadline
  rcases hin with hst | hst
  · have hst : t.interval.stage = .ticking i := hst
    simp [patient, hst] at hpatient
  · have hst : t.interval.stage = .waiting i := hst
    have hlimit : limit d capacity = expiry d := by
      cases capacity with
      | none => exact absurd rfl (hinv.bounded i hst)
      | some n => rfl
    have hle : t.now + δ ≤ t.due := by simpa [patient, hst] using hpatient
    show t.now + δ ≤ _
    rw [hlimit, ← hdue]
    exact hle

/-- Something happens. -/
theorem TimedInv.act (hinv : TimedInv message d capacity t)
    (h : IntervalWorld.Act E message t.interval l v) :
    TimedInv message d capacity (t.after d v) where
  interval := IntervalWorld.inv_step hinv.interval h
  size := by
    show (state v.actor.mailbox).capacity = capacity
    rcases IntervalWorld.actor_of_act h with hsame | ⟨k, hs⟩
    · rw [hsame, hinv.size]
    · obtain ⟨s, hact, hv⟩ := World.step_cases hs
      rw [hv, World.settle_capacity, World.capacity_of_act hact, hinv.size]
  bounded i hst := by
    rcases hinv.interval.waiting_of_act h hst with hwas | hfull
    · exact hinv.bounded i hwas
    · intro hnone
      have hnot := ChannelState.full_of_unbounded (hinv.size.trans hnone)
      simp [World.full, hnot] at hfull
  born i g hg := by
    rcases births_of_act hinv.interval h hg with hold | ⟨-, -, -, hnow, -⟩
    · exact hinv.interval.generated_mono h (hinv.born i g hold)
    · exact hnow
  arrived i u hu := by
    rcases arrivals_of_act hinv.interval h hu with hold | ⟨-, -, hnow⟩
    · exact hinv.interval.generated_mono h (hinv.arrived i u hold)
    · exact hnow
  -- the tick the task is in may have got its message in this step, or be the one it was in before
  current i g hg hin := by
    rcases births_of_act hinv.interval h hg with hold | ⟨rfl, -, -, -, hdue⟩
    · have hknown := hinv.born i g hold
      rcases hinv.interval.generated_of_act h with hsame | ⟨j, p, hj, hstage, hnew, -⟩
      · rcases IntervalWorld.inTick_of_act h hin with hwas | ⟨rfl, -⟩
        · obtain ⟨hnow, hdue⟩ := hinv.current i g hold hwas
          exact ⟨hnow, (due_of_act hsame hin).trans hdue⟩
        · -- the next tick has not generated anything
          obtain ⟨e, he, hlen⟩ := List.mem_map.mp hknown
          exact absurd hlen (hinv.interval.lt (hinv.interval.known e he)).ne
      · -- the message generated in this tick is a new one
        have hwas : t.interval.InTick i := by
          unfold IntervalWorld.InTick at hin ⊢
          rwa [← hstage]
        rw [IntervalWorld.InTick.unique hwas hj] at hnew
        exact absurd hknown hnew
    · have := limit_nonneg d capacity
      exact ⟨by simpa [after] using this, hdue⟩
  soon i g u hg hu := by
    rcases arrivals_of_act hinv.interval h hu with hold | ⟨rfl, hin, -⟩
    · have hknown := hinv.arrived i u hold
      rcases births_of_act hinv.interval h hg with hborn | ⟨-, -, hnew, -⟩
      · exact hinv.soon i g u hborn hold
      · exact absurd hknown hnew
    · rcases births_of_act hinv.interval h hg with hborn | ⟨rfl, -⟩
      · exact (hinv.current i g hborn hin).1
      · exact le_add_of_nonneg_right (limit_nonneg d capacity)

theorem timedInv_of_run {a : σ} {ls : List (TimedLabel σ ρ)}
    (h : (machine Q E capacity a message d).Run ls t) : TimedInv message d capacity t := by
  refine h.invariant (I := TimedInv message d capacity) (timedInv_init a) ?_
  -- time passes, or something happens at the present time
  intro s l s' hinv hstep
  cases l with
  | elapse δ =>
    simp only [machine, step] at hstep
    split at hstep
    · next hguard =>
      cases hstep
      exact hinv.elapse hguard.2
    · cases hstep
  | act l =>
    simp only [machine, step] at hstep
    split at hstep
    · obtain ⟨v, hv, rfl⟩ := Option.map_eq_some_iff.mp hstep
      exact hinv.act (IntervalWorld.act_cases hv)
    · cases hstep

/-! ## A message may wait as long as the limit

For the converse a run is constructed: clients fill the mailbox while `started` still runs, the
interval ticks, and the loop makes room after the delay that is asked for. -/

omit [AsyncChannel Q] in
/-- Nothing is generated or accepted, and the task does not go to sleep. -/
theorem after_same (hgen : v.generated = t.interval.generated)
    (henq : v.enqueued = t.interval.enqueued)
    (hst : v.stage = .sleeping → t.interval.stage = .sleeping) :
    t.after d v = { t with interval := v } := by
  have hdue : t.timer d v = t.due := by
    have hnot : ¬ (v.stage = .sleeping ∧ t.interval.stage ≠ .sleeping) := fun h => h.2 (hst h.1)
    simp [timer, hgen, hnot]
  simp [after, hgen, henq, hdue]

/-- Before a handler starts the interval, the actor and its clients are on their own. -/
theorem run_unspawned (message : ℕ → TaskFn σ ρ) (d : ℚ) {a : σ} {ls : List (Label σ ρ)}
    {w : World Q σ ρ}
    (h : (World.machine Q ρ E capacity a).Run ls w) :
    (machine Q E capacity a message d).Run (ls.map fun l => .act (.actor l))
      ⟨⟨w, .unspawned, [], [], []⟩, 0, 0, [], []⟩ := by
  -- over the run of the actor, which the interval does not see yet
  induction h with
  | start => exact .start
  | @snoc ls s l s' run hstep ih =>
    have hstep : s.step E l = some s' := hstep
    rw [List.map_append, List.map_singleton]
    refine ih.snoc ?_
    have hpermitted : (⟨s, .unspawned, [], [], []⟩ : IntervalWorld Q σ ρ).permitted l = true := by
      cases l <;> simp [IntervalWorld.permitted]
    simp only [machine, step, timely, if_true, IntervalWorld.step, hpermitted, hstep,
      Option.map_some]
    exact congrArg some (after_same rfl (by simp [IntervalWorld.enqueued]) id)

theorem goes_on {a : σ} {ls : List (TimedLabel σ ρ)} {l : TimedLabel σ ρ}
    (h : (machine Q E capacity a message d).Run ls t) (hstep : t.step E message d l = some t') :
    (machine Q E capacity a message d).Run (ls ++ [l]) t' := h.snoc hstep

theorem quiet (htimely : t.timely l = true) (hv : t.interval.step E message l = some v)
    (hgen : v.generated = t.interval.generated) (henq : v.enqueued = t.interval.enqueued)
    (hst : v.stage = .sleeping → t.interval.stage = .sleeping) :
    t.step E message d (.act l) = some { t with interval := v } := by
  simp [step, htimely, hv, after_same hgen henq hst]

section First

/-- The task in its first tick, which has generated the message `f` at time `birth`. -/
def first (w : World Q σ ρ) (stage : IntervalStage) (i : ℕ) (f : TaskFn σ ρ)
    (now due birth : ℚ) : TimedInterval Q σ ρ :=
  ⟨⟨w, stage, [i], [⟨i, .task f⟩], []⟩, now, due, [(i, birth)], []⟩

variable {w s : World Q σ ρ} {op : Operation σ ρ} {f : TaskFn σ ρ} {now due birth : ℚ}

theorem first_sleeps (hcall : w.task.loop.pc.inCall = true) :
    step E message d ⟨⟨w, .unspawned, [], [], []⟩, 0, 0, [], []⟩ (.act .spawn)
      = some ⟨⟨w, .sleeping, [], [], []⟩, 0, d, [], []⟩ := by
  simp [step, timely, IntervalWorld.step, hcall, after, timer, IntervalWorld.enqueued]

theorem elapses {δ : ℚ} (hδ : 0 ≤ δ) (hpatient : t.patient δ = true) :
    t.step E message d (.elapse δ) = some { t with now := t.now + δ } := by
  simp [step, hδ, hpatient]

theorem first_wakes (hs : w.step E (.begin (WeakSender.upgradeAndSend (message 0))) = some s)
    (hold : ∀ e ∈ s.accepted, e.client ≠ w.flights.length) :
    step E message d ⟨⟨w, .sleeping, [], [], []⟩, now, now, [], []⟩ (.act .wake)
      = some ⟨⟨s, .ticking w.flights.length, [w.flights.length], [], []⟩, now, now, [], []⟩ := by
  refine quiet (v := ⟨s, .ticking w.flights.length, [w.flights.length], [], []⟩) ?_ ?_ rfl ?_ nofun
  · simp [timely]
  · simp [IntervalWorld.step, hs]
  · simpa [IntervalWorld.enqueued] using hold

theorem first_generates (hf : w.flights[i]? = some ⟨op, .upgrading⟩) (hup : w.upgradable = true)
    (hpayload : op.payload = .task f) (hs : w.step E (.advance i) = some s)
    (hacc : s.accepted = w.accepted) :
    step E message d ⟨⟨w, .ticking i, [i], [], []⟩, now, due, [], []⟩ (.act .poll)
      = some (first s (.ticking i) i f now (now + expiry d) now) := by
  simp [step, timely, IntervalWorld.step, IntervalWorld.tick, hf, hs, hup, after, timer,
    IntervalWorld.enqueued, hacc, first, hpayload]

theorem first_passes (hf : w.flights[i]? = some ⟨op, .checking⟩)
    (hs : w.step E (.advance i) = some s) (hacc : s.accepted = w.accepted) :
    step E message d (first w (.ticking i) i f now due birth) (.act .poll)
      = some (first s (.ticking i) i f now due birth) := by
  refine quiet (v := ⟨s, .ticking i, [i], [⟨i, .task f⟩], []⟩) rfl ?_ rfl ?_ nofun
  · simp [IntervalWorld.step, IntervalWorld.tick, first, hf, hs]
  · simp [IntervalWorld.enqueued, first, hacc]

theorem first_blocks (hf : w.flights[i]? = some ⟨op, .enqueuing⟩)
    (hs : w.step E (.advance i) = none) :
    step E message d (first w (.ticking i) i f now due birth) (.act .poll)
      = some (first w (.waiting i) i f now due birth) := by
  refine quiet (v := ⟨w, .waiting i, [i], [⟨i, .task f⟩], []⟩) rfl ?_ rfl rfl nofun
  simp [IntervalWorld.step, IntervalWorld.tick, first, hf, hs]

/-- The loop moves meanwhile. -/
theorem first_waits {k : Label σ ρ} (hk : k = .poll ∨ k = .receive) (hs : w.step E k = some s)
    (hacc : s.accepted = w.accepted) :
    step E message d (first w (.waiting i) i f now due birth) (.act (.actor k))
      = some (first s (.waiting i) i f now due birth) := by
  refine quiet (v := ⟨s, .waiting i, [i], [⟨i, .task f⟩], []⟩) rfl ?_ rfl ?_ nofun
  · rcases hk with rfl | rfl <;> simp [IntervalWorld.step, IntervalWorld.permitted, first, hs]
  · simp [IntervalWorld.enqueued, first, hacc]

theorem first_arrives (hs : w.step E (.advance i) = some s)
    (hacc : s.accepted = w.accepted ++ [⟨i, .task f⟩]) :
    step E message d (first w (.waiting i) i f now due birth) (.act .poll)
      = some { first s (.ticking i) i f now due birth with arrivals := [(i, now)] } := by
  simp [step, timely, IntervalWorld.step, first, hs, after, timer, IntervalWorld.enqueued, hacc]

end First

/-- A message nobody does anything about. -/
def note : TaskFn ℕ ℕ := fun n => .completed n none

/-- **Every delay up to the limit occurs**, on a mailbox with room for `c` messages. Clients fill
it, and `started` takes until `δ` after the first tick to return. -/
theorem delayed (c : ℕ+) (hd : 0 ≤ d) {δ : ℚ} (hδ : 0 ≤ δ) (hle : δ ≤ expiry d) :
    ∃ ls t i, (machine ChannelState (.fromChannel (.provided 0)) (some c) 0 (fun _ => note) d).Run
      ls t ∧ (i, d) ∈ t.births ∧ (i, d + δ) ∈ t.arrivals := by
  let E : EventLoop ℕ := .fromChannel (.provided 0)
  let op : Operation ℕ ℕ := WeakSender.upgradeAndSend note
  obtain ⟨ls, queued, flights, accepted, hrun, hlen, hold⟩ := Backlog.filled E c 0 note le_rfl
  obtain ⟨e, rest, rfl⟩ : ∃ e rest, queued = e :: rest :=
    List.exists_cons_of_length_pos (by simp [hlen])
  let unpolled : LoopTask ℕ ℕ := .init 0
  let starting : LoopTask ℕ ℕ :=
    { unpolled with loop := unpolled.loop.call (.hook .started) .starting }
  let receiving : LoopTask ℕ ℕ :=
    { starting with loop := starting.loop.leave (.hook .started) .ok 0 .receiving }
  obtain ⟨task, htask⟩ : ∃ t, receiving.step E (.receive (.payload e)) = some t :=
    Backlog.exists_receive rfl e
  have hnew : ∀ e ∈ accepted, e.client ≠ flights.length := fun e he => (hold e he).ne
  -- `started` is called, and starts the interval
  have hcalled := hrun.snoc (Backlog.moves (rfl : unpolled.step E .advance = some starting) rfl)
  have hstarting := run_unspawned (fun _ => note) d hcalled
  have hsleeping := goes_on hstarting (first_sleeps rfl)
  have hdue := goes_on hsleeping (elapses hd (by simp [patient]))
  rw [zero_add] at hdue
  -- the tick finds no room
  have hbegun := goes_on hdue (first_wakes (Backlog.begins (by decide : op.via ≠ .context)) hnew)
  have hborn := goes_on hbegun (first_generates List.getElem?_concat_length rfl rfl
    Backlog.upgrades rfl)
  have hchecked := goes_on hborn (first_passes List.getElem?_concat_length (Backlog.passes rfl) rfl)
  have hblocked := goes_on hchecked (first_blocks List.getElem?_concat_length
    (Backlog.blocks rfl (by simpa using hlen.ge)))
  -- until `started` returns, and the loop pops the first message
  have hlate := goes_on hblocked (elapses hδ (by simpa [patient, first] using hle))
  have hstarted := goes_on hlate (first_waits (.inl rfl)
    (Backlog.moves (rfl : starting.step E .advance = some receiving) rfl) rfl)
  have hpopped := goes_on hstarted (first_waits (.inr rfl) (Backlog.pops htask) rfl)
  -- now there is room
  -- one message less than the mailbox held when it was full
  have hroom : rest.length < (c : ℕ) := by
    rw [← hlen]
    exact Nat.lt_succ_self _
  have harrived := goes_on hpopped (first_arrives
    (Backlog.enqueues (by decide : op.primitive ≠ .forceSend) rfl hroom) rfl)
  exact ⟨_, _, flights.length, harrived, List.mem_singleton_self _, List.mem_singleton_self _⟩

/-! ## When that is what the documentation promises

On an unbounded mailbox nothing waits. On a bounded one the longest wait is the limit, by the two
sections before, and the limit is within half of the duration from 200 ms on. -/

theorem limit_le_half (hd : 0 ≤ d) (h : capacity = none ∨ fromMillis 200 ≤ d) :
    limit d capacity ≤ d / 2 := by
  cases capacity with
  | none => exact div_nonneg hd (by norm_num)
  | some c => exact expiry_le_half.mpr (h.resolve_left nofun)

/-- **A tick waits at most half of the interval's duration exactly when the mailbox is unbounded or
the duration is at least 200 ms**, in every run of either function. Below, the clamp lets a tick
wait for 100 ms. -/
theorem withinHalf_iff (hd : 0 ≤ d) (capacity : Option ℕ+) :
    WithinHalf d capacity ↔ capacity = none ∨ fromMillis 200 ≤ d := by
  constructor
  · intro hhalf
    cases capacity with
    | none => exact .inl rfl
    | some c =>
      obtain ⟨ls, t, i, hrun, hborn, harrived⟩ := delayed c hd (expiry_pos d).le le_rfl
      have hle := hhalf _ _ _ _ _ _ _ _ hrun i _ _ hborn harrived
      exact .inr (expiry_le_half.mp (by linarith))
  · intro h Q _ σ ρ E a message ls t hrun i g u hg hu
    have hlimit := limit_le_half hd h
    have hsoon := (timedInv_of_run hrun).soon i g u hg hu
    linarith

theorem withinHalf_halfSecond : WithinHalf (fromMillis 500) (some 1) :=
  (withinHalf_iff (by norm_num [fromMillis]) (some 1)).mpr (.inr (by norm_num [fromMillis]))

/-- An interval of 100 ms. -/
def hasty (capacity : Option ℕ+) : Machine (TimedInterval ChannelState ℕ ℕ) (TimedLabel ℕ ℕ) :=
  machine ChannelState (.fromChannel (.provided 0)) capacity 0 (fun _ => note) (fromMillis 100)

/-- On a mailbox with room for one message, another client takes it, and `started` returns 90 ms
after the first tick. -/
def overdueRun : List (TimedLabel ℕ ℕ) :=
  [.act (.actor (.begin (Addr.trySend note))), .act (.actor (.advance 0)),
    .act (.actor (.advance 0)), .act (.actor .poll), .act .spawn, .elapse (fromMillis 100),
    .act .wake, .act .poll, .act .poll, .act .poll, .elapse (fromMillis 90), .act (.actor .poll),
    .act (.actor .receive), .act .poll]

theorem overdueRun_exec : ((hasty (some 1)).exec overdueRun).isSome = true := by decide +kernel

theorem tick_overdue : ¬ WithinHalf (fromMillis 100) (some 1) := by
  intro h
  have hborn : ((hasty (some 1)).after overdueRun overdueRun_exec).births = [(1, 1 / 10)] := by
    decide +kernel
  have harrived : ((hasty (some 1)).after overdueRun overdueRun_exec).arrivals
      = [(1, 19 / 100)] := by
    decide +kernel
  have hle := h _ _ _ _ _ _ _ _ ((hasty (some 1)).run_after overdueRun overdueRun_exec) 1 (1 / 10)
    (19 / 100) (by simp [hborn]) (by simp [harrived])
  norm_num [fromMillis] at hle

end TimedInterval

end Hannibal
