import Hannibal.Lib.Machine
import Hannibal.Tasks
import Mathlib.Data.List.AList

/-!
# Hannibal.Tracking — the tasks of a `Context` until they end

The maps of all contexts as the source has them: `HashMap<TaskID, TaskJoinHandle>`, keyed by what
the global `TASK_ID` counter hands out, a `u64` that wraps around. A task whose join handle leaves
the map without an abort runs on, tracked by nobody; so what matters is that a handle leaves the map
for the right reasons only.

* **`ContextWorld`** — the counter, every task that was spawned, and the map of each `Context`.
* **`TrackInv`** — who is where; it holds while the counter has not wrapped around.
* **`tasks_tracked`** — the theorem about every run.
* **`refines_tasks`** — with the keys read as positions this is what `Hannibal.Tasks` says.
-/

namespace Hannibal

open Lts

/-- A task, with the `TaskHandle` that was returned for it. -/
structure SpawnedTask where
  handle : UInt64
  task : BackgroundTask
  deriving DecidableEq, Repr

def SpawnedTask.conclude (status : TaskStatus) (b : SpawnedTask) : SpawnedTask :=
  { b with task := b.task.conclude status }

/-- `HashMap<TaskID, TaskJoinHandle>`; a join handle names its task by position. -/
abbrev TaskMap := AList fun _ : UInt64 => ℕ

/-- `tasks.drain().filter(..).collect()`. -/
def TaskMap.retain (m : TaskMap) (p : ℕ → Bool) : TaskMap where
  entries := m.entries.filter fun e => p e.2
  nodupKeys := m.nodupKeys.sublist List.filter_sublist

theorem TaskMap.lookup_retain {m : TaskMap} {p : ℕ → Bool} {k : UInt64} {i : ℕ} :
    (m.retain p).lookup k = some i ↔ m.lookup k = some i ∧ p i = true := by
  have hmem := fun m : TaskMap => AList.mem_lookup_iff (a := k) (b := i) (s := m)
  simp only [Option.mem_def] at hmem
  rw [hmem, hmem, retain, List.mem_filter]

theorem TaskMap.mem_map_snd {m : TaskMap} {i : ℕ} :
    i ∈ m.entries.map Sigma.snd ↔ ∃ k, m.lookup k = some i := by
  rw [List.mem_map]
  constructor
  · rintro ⟨⟨k, j⟩, he, rfl⟩
    exact ⟨k, AList.mem_lookup_iff.mpr he⟩
  · rintro ⟨k, hk⟩
    exact ⟨⟨k, i⟩, AList.mem_lookup_iff.mp hk, rfl⟩

/-- All contexts, with the tasks they have spawned. -/
structure ContextWorld where
  /-- `TASK_ID` -/
  counter : UInt64
  spawned : List SpawnedTask
  tasks : ContextID → TaskMap
  dropped : ContextID → Bool

/-- What can happen: a `Context` spawns a task (`spawn_task`, or `interval`, `interval_with`,
`delayed_send` and `delayed_exec` with a future of their own), is told to stop one or to collect, or
is dropped; a task ends by itself. -/
inductive ContextLabel where
  | spawnTask (c : ContextID)
  | stopTask (c : ContextID) (h : UInt64)
  | gc (c : ContextID)
  | dropContext (c : ContextID)
  | finish (i : ℕ)
  deriving DecidableEq, Repr

namespace ContextWorld

def init : ContextWorld := ⟨0, [], fun _ => ∅, fun _ => false⟩

def setTasks (w : ContextWorld) (c : ContextID) (m : TaskMap) : ContextWorld :=
  { w with tasks := Function.update w.tasks c m }

/-- Task `i` ends, if it is running. -/
def conclude (w : ContextWorld) (status : TaskStatus) (i : ℕ) : ContextWorld :=
  { w with spawned := w.spawned.modify i (SpawnedTask.conclude status) }

/-- `!handle.is_finished()`. -/
def running (w : ContextWorld) (i : ℕ) : Bool := w.spawned[i]?.any fun b => b.task.running

/-- `Context::spawn_task`. -/
def spawnTask (w : ContextWorld) (c : ContextID) : UInt64 × ContextWorld :=
  let id := w.counter
  (id, { w with
    counter := w.counter + 1
    spawned := w.spawned ++ [⟨id, ⟨c, 0, .running⟩⟩]
    tasks := Function.update w.tasks c ((w.tasks c).insert id w.spawned.length) })

/-- `Context::stop_task`. -/
def stopTask (w : ContextWorld) (c : ContextID) (h : UInt64) : ContextWorld :=
  match (w.tasks c).lookup h with
  | some i => (w.setTasks c ((w.tasks c).erase h)).conclude .aborted i
  | none => w

/-- `Context::gc`, as far as it is about tasks. -/
def gc (w : ContextWorld) (c : ContextID) : ContextWorld :=
  w.setTasks c ((w.tasks c).retain w.running)

/-- `Context::is_task_finished`. -/
def isTaskFinished (w : ContextWorld) (c : ContextID) (h : UInt64) : Option Bool :=
  ((w.tasks c).lookup h).map fun i => !w.running i

/-- `Drop for Context`. -/
def dropContext (w : ContextWorld) (c : ContextID) : ContextWorld :=
  { ((w.tasks c).entries.map Sigma.snd).foldl (conclude · .aborted) w with
    tasks := Function.update w.tasks c ∅
    dropped := Function.update w.dropped c true }

/-- A `Context` that was dropped is not used any more. -/
def step (w : ContextWorld) : ContextLabel → Option ContextWorld
  | .spawnTask c => if w.dropped c then none else some (w.spawnTask c).2
  | .stopTask c h => if w.dropped c then none else some (w.stopTask c h)
  | .gc c => if w.dropped c then none else some (w.gc c)
  | .dropContext c => if w.dropped c then none else some (w.dropContext c)
  | .finish i => some (w.conclude .finished i)

def machine : Machine ContextWorld ContextLabel := ⟨init, step⟩

variable {w w' : ContextWorld} {c c' : ContextID} {h k : UInt64} {i j : ℕ} {l : ContextLabel}
  {b : SpawnedTask}

/-! ## What one step can do

`spawn_task`, `stop_task`, `gc` and the drop of a `Context` are the only steps that touch a map; a
task that ends leaves its join handle there until `gc`. -/

/-- Everything one step can do. -/
inductive Act (w : ContextWorld) : ContextLabel → ContextWorld → Prop where
  | spawnTask (c : ContextID) (hlive : w.dropped c = false) :
      Act w (.spawnTask c) (w.spawnTask c).2
  | stopTask (c : ContextID) (h : UInt64) (i : ℕ) (hlive : w.dropped c = false)
      (hi : (w.tasks c).lookup h = some i) :
      Act w (.stopTask c h) ((w.setTasks c ((w.tasks c).erase h)).conclude .aborted i)
  | noTask (c : ContextID) (h : UInt64) (hlive : w.dropped c = false)
      (hnone : (w.tasks c).lookup h = none) : Act w (.stopTask c h) w
  | gc (c : ContextID) (hlive : w.dropped c = false) : Act w (.gc c) (w.gc c)
  | dropContext (c : ContextID) (hlive : w.dropped c = false) :
      Act w (.dropContext c) (w.dropContext c)
  | finish (i : ℕ) : Act w (.finish i) (w.conclude .finished i)

theorem act_cases (hstep : w.step l = some w') : Act w l w' := by
  cases l with
  | finish i =>
    cases hstep
    exact .finish i
  | spawnTask c =>
    simp only [step] at hstep
    split at hstep <;> cases hstep
    next hlive => exact .spawnTask c (by simpa using hlive)
  | gc c =>
    simp only [step] at hstep
    split at hstep <;> cases hstep
    next hlive => exact .gc c (by simpa using hlive)
  | dropContext c =>
    simp only [step] at hstep
    split at hstep <;> cases hstep
    next hlive => exact .dropContext c (by simpa using hlive)
  | stopTask c h =>
    simp only [step, stopTask] at hstep
    split at hstep
    · cases hstep
    · next hlive =>
      split at hstep
      · next i hi => cases hstep; exact .stopTask c h i (by simpa using hlive) hi
      · next hnone => cases hstep; exact .noTask c h (by simpa using hlive) hnone

/-! ## Ending tasks

A task that has ended stays as it ended, so it does not matter how often it is aborted. -/

/-- What has ended does not end again. -/
theorem conclude_of_ended {status : TaskStatus} (hended : b.task.running = false) :
    b.conclude status = b := by
  simp [SpawnedTask.conclude, BackgroundTask.conclude, hended]

theorem conclude_conclude {status : TaskStatus} (hne : status ≠ .running) :
    (b.conclude status).conclude status = b.conclude status :=
  conclude_of_ended (BackgroundTask.conclude_running b.task hne)

theorem conclude_ne {status : TaskStatus} (hne : status ≠ .running) (hrun : b.task.running = true) :
    b.conclude status ≠ b := by
  intro hsame
  have hended : (b.conclude status).task.running = false :=
    BackgroundTask.conclude_running b.task hne
  rw [hsame, hrun] at hended
  cases hended

theorem spawned_conclude {status : TaskStatus} : (w.conclude status i).spawned[j]?
    = (w.spawned[j]?).map fun b => if j = i then b.conclude status else b := by
  show (w.spawned.modify i _)[j]? = _
  rw [List.getElem?_modify]
  by_cases hij : i = j
  · simp [hij]
  · simp [hij, Ne.symm hij]

theorem dropped_stopTask : (w.stopTask c h).dropped = w.dropped := by
  rw [stopTask]
  cases (w.tasks c).lookup h <;> rfl

/-- Aborting the tasks of a list ends these and no others. -/
theorem spawned_abortAll {ids : List ℕ} : (ids.foldl (conclude · .aborted) w).spawned[j]?
    = (w.spawned[j]?).map fun b => if j ∈ ids then b.conclude .aborted else b := by
  induction ids generalizing w with
  | nil => simp
  | cons i ids ih =>
    rw [List.foldl_cons, ih, spawned_conclude, Option.map_map]
    congr 1
    funext b
    have hne : TaskStatus.aborted ≠ .running := by decide
    by_cases hij : j = i <;> by_cases hids : j ∈ ids <;>
      simp [hij, hids, conclude_conclude hne]

theorem abortAll_frame {ids : List ℕ} : (ids.foldl (conclude · .aborted) w).counter = w.counter
    ∧ (ids.foldl (conclude · .aborted) w).spawned.length = w.spawned.length := by
  induction ids generalizing w with
  | nil => exact ⟨rfl, rfl⟩
  | cons i ids ih =>
    obtain ⟨hcounter, hlength⟩ := ih (w := w.conclude .aborted i)
    exact ⟨hcounter, hlength.trans (by simp [conclude])⟩

theorem spawned_dropContext : (w.dropContext c).spawned[i]?
    = (w.spawned[i]?).map fun b =>
        if i ∈ (w.tasks c).entries.map Sigma.snd then b.conclude .aborted else b :=
  spawned_abortAll

/-- **What a step does to the tasks**: at most one is new, and an old one stays or ends. -/
theorem spawned_of_act (hact : Act w l w') (hb : w'.spawned[i]? = some b) :
    w.spawned[i]? = some b
      ∨ (∃ b', w.spawned[i]? = some b' ∧ ∃ status, status ≠ .running ∧ b = b'.conclude status)
      ∨ ∃ c, l = .spawnTask c ∧ i = w.spawned.length ∧ b = ⟨w.counter, ⟨c, 0, .running⟩⟩ := by
  have hmap : ∀ {p : Prop} [Decidable p] {status : TaskStatus}, status ≠ .running →
      (w.spawned[i]?).map (fun b => if p then b.conclude status else b) = some b →
      w.spawned[i]? = some b
        ∨ ∃ b', w.spawned[i]? = some b' ∧ ∃ status, status ≠ .running ∧ b = b'.conclude status := by
    intro p _ status hne hmap
    obtain ⟨b', hb', rfl⟩ := Option.map_eq_some_iff.mp hmap
    by_cases hp : p
    · exact .inr ⟨b', hb', status, hne, by rw [if_pos hp]⟩
    · exact .inl (by rw [if_neg hp]; exact hb')
  -- each case either adds a task or ends some of the old ones
  cases hact with
  | spawnTask c hlive =>
    rcases Table.getElem?_snoc.mp hb with hold | ⟨hi, hnew⟩
    · exact .inl hold
    · exact .inr (.inr ⟨c, rfl, hi, hnew⟩)
  | stopTask c h j hlive hj => exact (hmap (by decide) (spawned_conclude ▸ hb)).imp_right .inl
  | finish j => exact (hmap (by decide) (spawned_conclude ▸ hb)).imp_right .inl
  | dropContext c hlive => exact (hmap (by decide) (spawned_abortAll ▸ hb)).imp_right .inl
  | noTask c h hlive hnone => exact .inl hb
  | gc c hlive => exact .inl hb

theorem length_of_act (hact : Act w l w') : w.spawned.length ≤ w'.spawned.length := by
  cases hact with
  | spawnTask c hlive => simp [spawnTask]
  | stopTask c h j hlive hj => simp [conclude, setTasks]
  | finish j => simp [conclude]
  | dropContext c hlive => exact abortAll_frame.2.ge
  | noTask c h hlive hnone => exact le_rfl
  | gc c hlive => exact le_rfl

/-- What has ended stays as it is. -/
theorem ended_of_act (hact : Act w l w') (hb : w.spawned[i]? = some b)
    (hended : b.task.running = false) : w'.spawned[i]? = some b := by
  have hlt := (List.getElem?_eq_some_iff.mp hb).1
  have hb' := List.getElem?_eq_getElem (hlt.trans_le (length_of_act hact))
  rw [hb']
  rcases spawned_of_act hact hb' with hold | ⟨b₀, hb₀, status, -, hend⟩ | ⟨c, -, hi, -⟩
  · exact hold.symm.trans hb
  · cases hb.symm.trans hb₀
    rw [hend, conclude_of_ended hended]
  · exact absurd hi hlt.ne

/-! ## The maps

Two lemmas say what can become of an entry: how a join handle gets into a map, and how it leaves
it. The rest of the module is derived from these two. -/

/-- How many tasks there can be before `TASK_ID` wraps around. -/
def Unwrapped (w : ContextWorld) : Prop := w.spawned.length < 2 ^ 64

theorem handle_injective (hi : i < 2 ^ 64) (hj : j < 2 ^ 64) (h : UInt64.ofNat i = UInt64.ofNat j) :
    i = j := by
  have hmod := congrArg UInt64.toNat h
  rw [UInt64.toNat_ofNat', UInt64.toNat_ofNat', Nat.mod_eq_of_lt hi, Nat.mod_eq_of_lt hj] at hmod
  exact hmod

/-- Who is where. -/
structure TrackInv (w : ContextWorld) : Prop where
  counter : w.counter = UInt64.ofNat w.spawned.length
  handle : ∀ i b, w.spawned[i]? = some b → b.handle = UInt64.ofNat i
  /-- a map holds only tasks of its own `Context`, under their handles -/
  owned : ∀ c k i, (w.tasks c).lookup k = some i →
    ∃ b, w.spawned[i]? = some b ∧ b.handle = k ∧ b.task.context = c
  /-- and all of them that are running -/
  tracked : ∀ i b, w.spawned[i]? = some b → b.task.running = true →
    (w.tasks b.task.context).lookup b.handle = some i
  dropped : ∀ c, w.dropped c = true → w.tasks c = ∅

theorem trackInv_init : TrackInv init where
  counter := rfl
  handle i b hb := by simp [init] at hb
  owned c k i hi := by simp [init] at hi
  tracked i b hb := by simp [init] at hb
  dropped c hc := by cases hc

/-- What is done to one map leaves the others alone. -/
theorem tasks_update {m : TaskMap} (hne : c' ≠ c) : (Function.update w.tasks c m) c' = w.tasks c' :=
  Function.update_of_ne hne _ _

/-- **A join handle gets into a map only when its task is spawned.** -/
theorem entered_of_act (hact : Act w l w') (hi : (w'.tasks c).lookup k = some i) :
    (w.tasks c).lookup k = some i
      ∨ (l = .spawnTask c ∧ k = w.counter ∧ i = w.spawned.length) := by
  have hupdate : ∀ {c' : ContextID} {m : TaskMap},
      ((Function.update w.tasks c' m) c).lookup k = some i →
      (c ≠ c' ∧ (w.tasks c).lookup k = some i) ∨ (c = c' ∧ m.lookup k = some i) := by
    intro c' m hlookup
    by_cases hc : c = c'
    · subst hc
      rw [Function.update_self] at hlookup
      exact .inr ⟨rfl, hlookup⟩
    · rw [tasks_update hc] at hlookup
      exact .inl ⟨hc, hlookup⟩
  cases hact with
  | spawnTask c' hlive =>
    rcases hupdate hi with ⟨-, hold⟩ | ⟨rfl, hnew⟩
    · exact .inl hold
    · by_cases hk : k = w.counter
      · subst hk
        rw [AList.lookup_insert] at hnew
        exact .inr ⟨rfl, rfl, (Option.some.inj hnew).symm⟩
      · rw [AList.lookup_insert_ne hk] at hnew
        exact .inl hnew
  -- an id that is erased is not found, and the others were there before
  | stopTask c' h j hlive hj =>
    rcases hupdate hi with ⟨-, hold⟩ | ⟨rfl, hrest⟩
    · exact .inl hold
    · by_cases hk : k = h
      · subst hk
        rw [AList.lookup_erase] at hrest
        cases hrest
      · rw [AList.lookup_erase_ne hk] at hrest
        exact .inl hrest
  | gc c' hlive =>
    -- `gc` and the drop of a `Context` only take away
    rcases hupdate hi with ⟨-, hold⟩ | ⟨rfl, hkept⟩
    · exact .inl hold
    · exact .inl (TaskMap.lookup_retain.mp hkept).1
  | dropContext c' hlive =>
    rcases hupdate hi with ⟨-, hold⟩ | ⟨rfl, hempty⟩
    · exact .inl hold
    · cases hempty
  | noTask c' h hlive hnone => exact .inl hi
  | finish j => exact .inl hi

/-- The maps hold no tasks but those that were spawned. -/
def Bounded (w : ContextWorld) : Prop :=
  ∀ c k i, (w.tasks c).lookup k = some i → i < w.spawned.length

theorem bounded_act (hb : Bounded w) (hact : Act w l w') : Bounded w' := by
  intro c k i hi
  rcases entered_of_act hact hi with hold | ⟨rfl, -, rfl⟩
  · exact (hb c k i hold).trans_le (length_of_act hact)
  · cases hact with
    | spawnTask c' hlive => simp [spawnTask]

/-- **A join handle leaves a map only by `stop_task`, when `gc` finds its task ended, with the
`Context`, or if another task gets the same id.** -/
theorem left_of_act (hact : Act w l w') (hi : (w.tasks c).lookup k = some i) :
    (w'.tasks c).lookup k = some i ∨ l = .stopTask c k ∨ (l = .gc c ∧ w.running i = false)
      ∨ l = .dropContext c ∨ (l = .spawnTask c ∧ k = w.counter) := by
  have hupdate : ∀ {c' : ContextID} {m : TaskMap}, (c = c' → m.lookup k = some i) →
      ((Function.update w.tasks c' m) c).lookup k = some i := by
    intro c' m hm
    by_cases hc : c = c'
    · subst hc
      rw [Function.update_self]
      exact hm rfl
    · rw [tasks_update hc]
      exact hi
  cases hact with
  | spawnTask c' hlive =>
    -- an insertion under an id that is in use would replace its join handle
    by_cases hnew : c = c' ∧ k = w.counter
    · exact .inr (.inr (.inr (.inr ⟨hnew.1 ▸ rfl, hnew.2⟩)))
    · refine .inl (hupdate fun hc => ?_)
      subst hc
      rw [AList.lookup_insert_ne fun hk => hnew ⟨rfl, hk⟩]
      exact hi
  | stopTask c' h j hlive hj =>
    by_cases hstop : c = c' ∧ k = h
    · exact .inr (.inl (by rw [hstop.1, hstop.2]))
    · refine .inl (hupdate fun hc => ?_)
      subst hc
      rw [AList.lookup_erase_ne fun hk => hstop ⟨rfl, hk⟩]
      exact hi
  -- `gc` keeps the join handles of running tasks
  | gc c' hlive =>
    cases hrun : w.running i with
    | true =>
      refine .inl (hupdate fun hc => ?_)
      subst hc
      exact TaskMap.lookup_retain.mpr ⟨hi, hrun⟩
    | false =>
      by_cases hc : c = c'
      · exact .inr (.inr (.inl ⟨hc ▸ rfl, rfl⟩))
      · exact .inl (hupdate fun hc' => absurd hc' hc)
  | dropContext c' hlive =>
    by_cases hc : c = c'
    · exact .inr (.inr (.inr (.inl (hc ▸ rfl))))
    · exact .inl (hupdate fun hc' => absurd hc' hc)
  | noTask c' h hlive hnone => exact .inl hi
  | finish j => exact .inl hi

/-! ## The invariant is kept

The ids come from one counter, shared by all contexts, and wrap around only after `2^64` spawns.
Until then no two tasks have the same id, so an insertion never replaces a join handle. -/

/-- The handle of a task that exists is not the next one. -/
theorem TrackInv.handle_ne_counter (hinv : TrackInv w) (hsmall : Unwrapped w)
    (hb : w.spawned[i]? = some b) : b.handle ≠ w.counter := by
  have hlt : i < w.spawned.length := (List.getElem?_eq_some_iff.mp hb).1
  have hsmall : w.spawned.length < 2 ^ 64 := hsmall
  rw [hinv.handle i b hb, hinv.counter]
  intro hsame
  have := handle_injective (by omega) hsmall hsame
  omega

/-- A task that runs on keeps its join handle in the map. -/
theorem tracked_act (hinv : TrackInv w) (hsmall : Unwrapped w) (hact : Act w l w')
    (hb : w.spawned[i]? = some b) (hrun : b.task.running = true)
    (hb' : w'.spawned[i]? = some b) : (w'.tasks b.task.context).lookup b.handle = some i := by
  have hi := hinv.tracked i b hb hrun
  have hne : TaskStatus.aborted ≠ .running := by decide
  rcases left_of_act hact hi with hkept | rfl | ⟨-, hended⟩ | rfl | ⟨-, hsame⟩
  · exact hkept
  · -- `stop_task` would have aborted it
    cases hact with
    | stopTask _ _ j hlive hj =>
      obtain rfl : i = j := Option.some.inj (hi.symm.trans hj)
      rw [spawned_conclude, setTasks, hb, Option.map_some, if_pos rfl, Option.some.injEq] at hb'
      exact absurd hb' (conclude_ne hne hrun)
    | noTask _ _ hlive hnone => cases hi.symm.trans hnone
  · rw [running, hb] at hended
    cases hrun.symm.trans hended
  · -- so would the drop of its `Context`
    cases hact with
    | dropContext _ hlive =>
      have hb' : (w.dropContext b.task.context).spawned[i]? = some b := hb'
      rw [spawned_dropContext, hb, Option.map_some, if_pos (TaskMap.mem_map_snd.mpr ⟨_, hi⟩),
        Option.some.injEq] at hb'
      exact absurd hb' (conclude_ne hne hrun)
  · exact absurd hsame (hinv.handle_ne_counter hsmall hb)

/-- A task keeps its handle and its `Context`. -/
theorem spawned_stays (hact : Act w l w') (hb : w.spawned[i]? = some b) :
    ∃ b', w'.spawned[i]? = some b' ∧ b'.handle = b.handle ∧ b'.task.context = b.task.context := by
  have hlt : i < w'.spawned.length :=
    (List.getElem?_eq_some_iff.mp hb).1.trans_le (length_of_act hact)
  refine ⟨w'.spawned[i], List.getElem?_eq_getElem hlt, ?_⟩
  rcases spawned_of_act hact (List.getElem?_eq_getElem hlt) with
    hold | ⟨b', hb', status, -, hended⟩ | ⟨c, -, hi, -⟩
  · rw [hb] at hold
    cases hold
    exact ⟨rfl, rfl⟩
  · rw [hb] at hb'
    cases hb'
    rw [hended]
    exact ⟨rfl, BackgroundTask.conclude_context ..⟩
  · have := (List.getElem?_eq_some_iff.mp hb).1
    omega

theorem counter_of_act (hinv : TrackInv w) (hact : Act w l w') :
    w'.counter = UInt64.ofNat w'.spawned.length := by
  cases hact with
  | spawnTask c hlive =>
    show w.counter + 1 = UInt64.ofNat (w.spawned ++ [_]).length
    rw [List.length_append, List.length_singleton, UInt64.ofNat_add, hinv.counter]
    rfl
  | stopTask c h j hlive hj => simpa [conclude, setTasks] using hinv.counter
  | finish j => simpa [conclude] using hinv.counter
  | dropContext c hlive =>
    show (List.foldl _ w _).counter = UInt64.ofNat (List.foldl _ w _).spawned.length
    rw [abortAll_frame.1, abortAll_frame.2]
    exact hinv.counter
  | noTask c h hlive hnone => exact hinv.counter
  | gc c hlive => exact hinv.counter

/-- **The step lemma.** -/
theorem trackInv_act (hinv : TrackInv w) (hsmall : Unwrapped w) (hact : Act w l w') :
    TrackInv w' where
  counter := counter_of_act hinv hact
  handle i b hb := by
    rcases spawned_of_act hact hb with hold | ⟨b', hb', status, -, rfl⟩ | ⟨c, -, rfl, rfl⟩
    · exact hinv.handle i b hold
    · exact hinv.handle i b' hb'
    · exact hinv.counter
  owned c k i hi := by
    rcases entered_of_act hact hi with hold | ⟨rfl, rfl, rfl⟩
    · obtain ⟨b, hb, rfl, rfl⟩ := hinv.owned c k i hold
      exact spawned_stays hact hb
    · cases hact
      exact ⟨⟨w.counter, ⟨c, 0, .running⟩⟩, List.getElem?_concat_length, rfl, rfl⟩
  tracked i b hb hrun := by
    rcases spawned_of_act hact hb with hold | ⟨b', hb', status, hne, rfl⟩ | ⟨c, rfl, rfl, rfl⟩
    · exact tracked_act hinv hsmall hact hold hrun hb
    · cases hrun.symm.trans (BackgroundTask.conclude_running b'.task hne)
    · cases hact
      show ((Function.update w.tasks c _) c).lookup w.counter = _
      rw [Function.update_self, AList.lookup_insert]
  -- a `Context` that is gone has an empty map, and no step touches it
  dropped c hc := by
    cases hact with
    | dropContext c' hlive =>
      by_cases hcc : c = c'
      · subst hcc
        exact Function.update_self ..
      · have hc : (Function.update w.dropped c' true) c = true := hc
        rw [Function.update_of_ne hcc] at hc
        exact (tasks_update hcc).trans (hinv.dropped c hc)
    | spawnTask c' hlive | stopTask c' h j hlive hj | gc c' hlive =>
      have hcc : c ≠ c' := by
        rintro rfl
        cases hlive.symm.trans hc
      exact (tasks_update hcc).trans (hinv.dropped c hc)
    | noTask c' h hlive hnone => exact hinv.dropped c hc
    | finish j => exact hinv.dropped c hc

theorem trackInv_of_run {ls : List ContextLabel} (hrun : machine.Run ls w) (hsmall : Unwrapped w) :
    TrackInv w := by
  induction hrun with
  | start => exact trackInv_init
  | snoc run hstep ih =>
    have hact := act_cases hstep
    have hbefore := (length_of_act hact).trans_lt hsmall
    exact trackInv_act (ih hbefore) hbefore hact

/-! ## What `is_task_finished` says

It looks the id up in the map, so it answers `None` for an id that was never handed out here and for
one that has been removed, and these are the only two reasons. -/

theorem isTaskFinished_eq_none : w.isTaskFinished c h = none ↔ (w.tasks c).lookup h = none :=
  Option.map_eq_none_iff

/-- The join handle for `h` was taken out of the map of `c`, by `stop_task`, or by a `gc` that found
its task ended. -/
def Removed (ls : List ContextLabel) (c : ContextID) (h : UInt64) : Prop :=
  ∃ s l s', machine.Takes ls s l s' ∧ s.isTaskFinished c h ≠ none
    ∧ (l = .stopTask c h ∨ (l = .gc c ∧ s.isTaskFinished c h = some true))

theorem none_of_removal (hact : Act w l w')
    (hl : l = .stopTask c h ∨ (l = .gc c ∧ w.isTaskFinished c h = some true)) :
    w'.isTaskFinished c h = none := by
  rw [isTaskFinished_eq_none]
  by_contra hsome
  obtain ⟨i, hi⟩ := Option.ne_none_iff_exists'.mp hsome
  rcases hl with rfl | ⟨rfl, hended⟩
  · cases hact with
    | stopTask _ _ j hlive hj =>
      have hi : ((Function.update w.tasks c _) c).lookup h = some i := hi
      rw [Function.update_self, AList.lookup_erase] at hi
      cases hi
    | noTask _ _ hlive hnone => cases hnone.symm.trans hi
  · cases hact with
    | gc _ hlive =>
      have hi : ((Function.update w.tasks c _) c).lookup h = some i := hi
      rw [Function.update_self] at hi
      obtain ⟨hold, hrun⟩ := TaskMap.lookup_retain.mp hi
      simp [isTaskFinished, hold, hrun] at hended

/-- A task that was spawned keeps its handle to the end of the run. -/
theorem handle_of_run {pre ls : List ContextLabel} (hle : pre <+: ls) (hw : machine.Run pre w)
    (hw' : machine.Run ls w') (hb : w.spawned[i]? = some b) :
    ∃ b', w'.spawned[i]? = some b' ∧ b'.handle = b.handle := by
  let r : ContextWorld → ContextWorld → Prop := fun u v => ∀ (i : ℕ) (b : SpawnedTask),
    u.spawned[i]? = some b → ∃ b' : SpawnedTask, v.spawned[i]? = some b' ∧ b'.handle = b.handle
  have hr : r w w' := by
    refine Machine.Run.related (fun u i b hb => ⟨b, hb, rfl⟩) ?_ ?_ hle hw hw'
    · intro u v x huv hvx i b hb
      obtain ⟨b', hb', hsame⟩ := huv i b hb
      obtain ⟨b'', hb'', hsame'⟩ := hvx i b' hb'
      exact ⟨b'', hb'', hsame'.trans hsame⟩
    · intro u l v hstep i b hb
      obtain ⟨b', hb', hsame, -⟩ := spawned_stays (act_cases hstep) hb
      exact ⟨b', hb', hsame⟩
  exact hr i b hb

/-- A handle that was removed is one that was returned. -/
theorem spawned_of_removed {ls : List ContextLabel} (hw : machine.Run ls w) (hsmall : Unwrapped w)
    (hremoved : Removed ls c h) : ∃ (i : ℕ) (b : SpawnedTask),
      w.spawned[i]? = some b ∧ b.handle = h := by
  obtain ⟨s, l, s', ⟨pre, hpre, hs, -⟩, hsome, -⟩ := hremoved
  have hle : pre <+: ls := (List.prefix_append pre [l]).trans hpre
  have hlength : s.spawned.length ≤ w.spawned.length :=
    Machine.Run.related (r := fun u v => u.spawned.length ≤ v.spawned.length) (fun _ => le_rfl)
      (fun _ _ _ => le_trans) (fun _ _ _ hstep => length_of_act (act_cases hstep)) hle hs hw
  obtain ⟨i, hi⟩ := Option.ne_none_iff_exists'.mp (mt isTaskFinished_eq_none.mpr hsome)
  obtain ⟨b, hb, rfl, -⟩ := (trackInv_of_run hs (hlength.trans_lt hsmall)).owned c h i hi
  obtain ⟨b', hb', hsame⟩ := handle_of_run hle hs hw hb
  exact ⟨i, b', hb', hsame⟩

/-- The last step of a run comes on top of what was removed before. -/
theorem removed_snoc {ls : List ContextLabel} (hw : machine.Run ls w) (hstep : w.step l = some w') :
    Removed (ls ++ [l]) c h ↔ Removed ls c h ∨ (w.isTaskFinished c h ≠ none
      ∧ (l = .stopTask c h ∨ (l = .gc c ∧ w.isTaskFinished c h = some true))) := by
  constructor
  · rintro ⟨s, k, s', ⟨pre, hpre, hs, hk⟩, hsome, hl⟩
    rcases List.prefix_concat_iff.mp hpre with hlast | hle
    · obtain ⟨rfl, hkl⟩ := List.append_inj' hlast rfl
      cases hkl
      rw [hs.unique hw] at hsome hl
      exact .inr ⟨hsome, hl⟩
    · exact .inl ⟨s, k, s', ⟨pre, hle, hs, hk⟩, hsome, hl⟩
  · rintro (⟨s, k, s', ⟨pre, hpre, hs, hk⟩, hsome, hl⟩ | ⟨hsome, hl⟩)
    · exact ⟨s, k, s', ⟨pre, hpre.trans (List.prefix_append _ _), hs, hk⟩, hsome, hl⟩
    · exact ⟨w, l, w', ⟨ls, List.prefix_rfl, hw, hstep⟩, hsome, hl⟩

/-- **`is_task_finished` knows every task of its `Context`** that has not been removed. -/
theorem isTaskFinished_eq_none_iff {ls : List ContextLabel} (hw : machine.Run ls w)
    (hsmall : Unwrapped w) (hlive : w.dropped c = false) : w.isTaskFinished c h = none ↔
      (∀ b ∈ w.spawned, b.handle = h → b.task.context ≠ c) ∨ Removed ls c h := by
  induction hw with
  | start =>
    refine ⟨fun _ => .inl fun b hb => ?_, fun _ => rfl⟩
    cases hb
  | @snoc ls s l s' run hstep ih =>
    have hact := act_cases hstep
    have hbefore : Unwrapped s := (length_of_act hact).trans_lt hsmall
    have hinv := trackInv_of_run run hbefore
    have hinv' := trackInv_act hinv hbefore hact
    have hlive' : s.dropped c = false := by
      cases hact with
      | dropContext c' _ =>
        by_cases hc : c = c'
        · subst hc
          have hlive : (Function.update s.dropped c true) c = false := hlive
          rw [Function.update_self] at hlive
          cases hlive
        · have hlive : (Function.update s.dropped c' true) c = false := hlive
          rwa [Function.update_of_ne hc] at hlive
      | _ => exact hlive
    have ih := ih hbefore hlive'
    rw [removed_snoc run hstep]
    constructor
    · intro hnone
      -- either the id was unknown before the step, or the step has removed it
      by_cases hsome : s.isTaskFinished c h = none
      · rcases ih.mp hsome with hother | hremoved
        · refine .inl fun b hb hh hc => ?_
          obtain ⟨i, hi⟩ := List.mem_iff_getElem?.mp hb
          rcases spawned_of_act hact hi with hold | ⟨b', hb', status, -, rfl⟩ | ⟨c', hl, hi', hnew⟩
          · exact hother b (List.mem_of_getElem? hold) hh hc
          · rw [SpawnedTask.conclude, BackgroundTask.conclude_context] at hc
            exact hother b' (List.mem_of_getElem? hb') hh hc
          · -- a new task is in the map
            have hrun : b.task.running = true := by rw [hnew]; rfl
            have hin := hinv'.tracked i b hi hrun
            rw [hh, hc, isTaskFinished_eq_none.mp hnone] at hin
            cases hin
        · exact .inr (.inl hremoved)
      · obtain ⟨i, hi⟩ := Option.ne_none_iff_exists'.mp (mt isTaskFinished_eq_none.mpr hsome)
        rcases left_of_act hact hi with hkept | hl | ⟨hl, hended⟩ | hl | ⟨hl, hk⟩
        · cases (isTaskFinished_eq_none.mp hnone).symm.trans hkept
        · exact .inr (.inr ⟨hsome, .inl hl⟩)
        · exact .inr (.inr ⟨hsome, .inr ⟨hl, by simp [isTaskFinished, hi, hended]⟩⟩)
        · subst hl
          cases hact with
          | dropContext _ _ =>
            have hlive : (Function.update s.dropped c true) c = false := hlive
            rw [Function.update_self] at hlive
            cases hlive
        · obtain ⟨b, hb, hh, -⟩ := hinv.owned c h i hi
          exact absurd (hh.trans hk) (hinv.handle_ne_counter hbefore hb)
    · rintro (hother | hremoved | ⟨-, hl⟩)
      · rw [isTaskFinished_eq_none]
        by_contra hsome
        obtain ⟨i, hi⟩ := Option.ne_none_iff_exists'.mp hsome
        obtain ⟨b, hb, hh, hc⟩ := hinv'.owned c h i hi
        exact hother b (List.mem_of_getElem? hb) hh hc
      · -- the id is not handed out again
        have hgone := isTaskFinished_eq_none.mp (ih.mpr (.inr hremoved))
        rw [isTaskFinished_eq_none]
        by_contra hsome
        obtain ⟨i, hi⟩ := Option.ne_none_iff_exists'.mp hsome
        rcases entered_of_act hact hi with hold | ⟨-, hh, -⟩
        · cases hgone.symm.trans hold
        · obtain ⟨j, b, hb, hh'⟩ := spawned_of_removed run hbefore hremoved
          exact absurd (hh'.trans hh) (hinv.handle_ne_counter hbefore hb)
      · exact none_of_removal hact hl

/-! ## The theorem

The statements about a state follow from its invariant, those about a step from the two lemmas on
the maps. -/

/-- What holds of the tasks in every state. -/
structure AllTracked (w : ContextWorld) : Prop where
  /-- a running task is in one map only, the one of its `Context`, under the handle returned for
  it -/
  tracked : ∀ i b, w.spawned[i]? = some b → b.task.running = true →
    ∀ c k, (w.tasks c).lookup k = some i ↔ c = b.task.context ∧ k = b.handle
  /-- a dropped `Context` has no task that is live -/
  dropped : ∀ c, w.dropped c = true → ∀ b ∈ w.spawned, b.task.context = c → b.task.running = false

/-- What the operations do. -/
structure Tended (w : ContextWorld) (l : ContextLabel) (w' : ContextWorld) : Prop where
  /-- `stop_task` aborts the task its handle was returned for, on the `Context` that spawned it -/
  stops : ∀ c h, l = .stopTask c h → ∀ i : ℕ, w'.spawned[i]? = (w.spawned[i]?).map fun b =>
    if b.task.context = c ∧ b.handle = h then b.conclude .aborted else b
  /-- `gc` ends none, and removes none that is running -/
  collects : ∀ c, l = .gc c → w'.spawned = w.spawned ∧ ∀ c' k i, w.running i = true →
    (w.tasks c').lookup k = some i → (w'.tasks c').lookup k = some i

theorem TrackInv.allTracked (hinv : TrackInv w) : AllTracked w where
  tracked i b hb hrun c k := by
    constructor
    · intro hi
      obtain ⟨b', hb', rfl, rfl⟩ := hinv.owned c k i hi
      rw [hb] at hb'
      cases hb'
      exact ⟨rfl, rfl⟩
    · rintro ⟨rfl, rfl⟩
      exact hinv.tracked i b hb hrun
  dropped c hc b hb hcontext := by
    by_contra hrun
    obtain ⟨i, hi⟩ := List.mem_iff_getElem?.mp hb
    have hin := hinv.tracked i b hi (by simpa using hrun)
    rw [hcontext, hinv.dropped c hc] at hin
    cases hin

theorem tended_act (hinv : TrackInv w) (hsmall : Unwrapped w) (hact : Act w l w') :
    Tended w l w' where
  stops c h hl j := by
    subst hl
    cases hact with
    | stopTask _ _ i hlive hi =>
      obtain ⟨b, hb, rfl, rfl⟩ := hinv.owned c h i hi
      rw [spawned_conclude]
      show (w.spawned[j]?).map _ = _
      cases hj : w.spawned[j]? with
      | none => rfl
      | some b' =>
        simp only [Option.map_some, Option.some.injEq]
        -- ids are unique below the bound
        have hsame : j = i ↔ b'.task.context = b.task.context ∧ b'.handle = b.handle := by
          constructor
          · rintro rfl
            rw [hb] at hj
            cases hj
            exact ⟨rfl, rfl⟩
          · rintro ⟨-, hhandle⟩
            rw [hinv.handle i b hb, hinv.handle j b' hj] at hhandle
            have hlt := (List.getElem?_eq_some_iff.mp hb).1.trans hsmall
            have hlt' := (List.getElem?_eq_some_iff.mp hj).1.trans hsmall
            exact handle_injective hlt' hlt hhandle
        simp only [hsame]
    | noTask _ _ hlive hnone =>
      cases hj : w.spawned[j]? with
      | none => rfl
      | some b =>
        simp only [Option.map_some, Option.some.injEq]
        split
        · next hit =>
          -- a task of `c` with this handle that is not in the map has ended
          obtain ⟨rfl, rfl⟩ := hit
          refine (conclude_of_ended ?_).symm
          by_contra hrun
          cases hnone.symm.trans (hinv.tracked j b hj (by simpa using hrun))
        · rfl
  collects c hl := by
    subst hl
    cases hact with
    | gc _ hlive =>
      refine ⟨rfl, fun c' k i hrun hi => ?_⟩
      rcases left_of_act (.gc c hlive) hi with hkept | hl | ⟨-, hended⟩ | hl | ⟨hl, -⟩
      · exact hkept
      · cases hl
      · cases hrun.symm.trans hended
      · cases hl
      · cases hl

/-- **Background tasks are tracked until they end**, for any number of contexts and every order of
their operations, as long as the ids have not run out. -/
theorem tasks_tracked (ls : List ContextLabel) (w : ContextWorld) (hrun : machine.Run ls w)
    (hsmall : w.spawned.length < 2 ^ 64) :
    AllTracked w ∧ (∀ s l s', machine.Takes ls s l s' → Tended s l s')
      ∧ ∀ c h, w.dropped c = false → (w.isTaskFinished c h = none ↔
          (∀ b ∈ w.spawned, b.handle = h → b.task.context ≠ c) ∨ Removed ls c h) := by
  refine ⟨(trackInv_of_run hrun hsmall).allTracked, ?_, fun c h hlive =>
    isTaskFinished_eq_none_iff hrun hsmall hlive⟩
  rintro s l s' ⟨pre, hpre, hs, hstep⟩
  have hle : pre <+: ls := (List.prefix_append pre [l]).trans hpre
  have hlength : s.spawned.length ≤ w.spawned.length :=
    Machine.Run.related (r := fun u v => u.spawned.length ≤ v.spawned.length) (fun _ => le_rfl)
      (fun _ _ _ => le_trans) (fun _ _ _ hstep => length_of_act (act_cases hstep)) hle hs hrun
  have hbefore : Unwrapped s := hlength.trans_lt hsmall
  exact tended_act (trackInv_of_run hs hbefore) hbefore (act_cases hstep)

/-- Two contexts spawn tasks; one is collected, one is stopped with a foreign handle and then with
its own, and the first `Context` is dropped. -/
def twoContexts : List ContextLabel :=
  [.spawnTask 0, .spawnTask 1, .spawnTask 0, .finish 0, .gc 0, .stopTask 0 1, .spawnTask 1,
    .stopTask 1 3, .dropContext 0]

theorem tasks_tracked_twoContexts :
    (machine.after twoContexts (by decide)).spawned.map (fun b => b.task.status)
        = [.finished, .running, .aborted, .aborted]
      ∧ AllTracked (machine.after twoContexts (by decide))
      ∧ (∀ s l s', machine.Takes twoContexts s l s' → Tended s l s')
      ∧ Removed twoContexts 1 3 := by
  obtain ⟨htracked, htended, hfinished⟩ := tasks_tracked twoContexts _
    (machine.run_after twoContexts (by decide)) (by decide)
  refine ⟨by decide, htracked, htended, ?_⟩
  rcases (hfinished 1 3 (by decide)).mp (by decide) with hother | hremoved
  · exact absurd rfl (hother ⟨3, ⟨1, 0, .aborted⟩⟩ (by decide) rfl)
  · exact hremoved

/-! ## Ids as positions

The other modules name a task by its place in the table of all tasks. Below the bound the id and the
place agree, so that view follows every step of this one. -/

/-- What an operation does where the id of a task is its position. -/
def onTasks (t : Tasks) : ContextLabel → Tasks
  | .spawnTask c => (t.spawnTask c 0).2
  | .stopTask c h => t.stopTask c h.toNat
  | .gc c => t.gc c
  | .dropContext c => t.dropContext c
  | .finish i => t.finish i

/-- The same tasks, and the same ones in each map. -/
structure Matches (w : ContextWorld) (t : Tasks) : Prop where
  spawned : t.spawned = w.spawned.map SpawnedTask.task
  tasks : ∀ c i, i ∈ t.tasks c ↔ ∃ k, (w.tasks c).lookup k = some i
  nodup : ∀ c, (t.tasks c).Nodup

variable {t : Tasks}

theorem Matches.running_eq (hm : Matches w t) : t.running i = w.running i := by
  rw [Tasks.running, running, hm.spawned, List.getElem?_map, Option.any_map]

theorem Matches.conclude (hm : Matches w t) (status : TaskStatus) (i : ℕ) :
    Matches (w.conclude status i)
      { t with spawned := t.spawned.modify i (BackgroundTask.conclude status) } where
  spawned := by
    show t.spawned.modify i _ = (w.spawned.modify i _).map SpawnedTask.task
    have hcomm : ∀ b : SpawnedTask, (b.conclude status).task = b.task.conclude status :=
      fun _ => rfl
    rw [hm.spawned, Table.map_modify_comm hcomm]
  tasks := hm.tasks
  nodup := hm.nodup

/-- One map is changed, on both sides alike. -/
theorem Matches.update (hm : Matches w t) (c : ContextID) (m : TaskMap) (ids : List ℕ)
    (hids : ∀ i, i ∈ ids ↔ ∃ k, m.lookup k = some i) (hnodup : ids.Nodup) :
    Matches (w.setTasks c m) { t with tasks := Function.update t.tasks c ids } where
  spawned := hm.spawned
  tasks c' i := by
    by_cases hc : c' = c
    · subst hc
      simpa [setTasks] using hids i
    · simpa [setTasks, hc] using hm.tasks c' i
  nodup c' := by
    by_cases hc : c' = c
    · subst hc
      simpa using hnodup
    · simpa [hc] using hm.nodup c'

theorem Matches.abortAll (hm : Matches w t) (ids : List ℕ) :
    Matches (ids.foldl (ContextWorld.conclude · .aborted) w) (ids.foldl Tasks.abort t) := by
  induction ids generalizing w t with
  | nil => exact hm
  | cons i ids ih => exact ih (hm.conclude .aborted i)

/-- Until the counter wraps, a task's id is its index. -/
theorem toNat_of_lookup (hinv : TrackInv w) (hsmall : Unwrapped w) {c : ContextID} {k : UInt64}
    (hi : (w.tasks c).lookup k = some i) : k.toNat = i := by
  obtain ⟨b, hb, rfl, -⟩ := hinv.owned c k i hi
  rw [hinv.handle i b hb, UInt64.toNat_ofNat']
  exact Nat.mod_eq_of_lt ((List.getElem?_eq_some_iff.mp hb).1.trans hsmall)

theorem matches_gc (hm : Matches w t) (c : ContextID) : Matches (w.gc c) (t.gc c) := by
  refine hm.update c _ _ (fun i => ?_) ((hm.nodup c).filter _)
  simp only [List.mem_filter, hm.tasks, hm.running_eq, TaskMap.lookup_retain]
  exact exists_and_right.symm

theorem matches_noTask (hinv : TrackInv w) (hsmall : Unwrapped w) (hm : Matches w t)
    {c : ContextID} {h : UInt64} (hnone : (w.tasks c).lookup h = none) :
    Matches w (t.stopTask c h.toNat) := by
  have hout : h.toNat ∉ t.tasks c := by
    intro hin
    obtain ⟨k, hk⟩ := (hm.tasks c h.toNat).mp hin
    rw [UInt64.toNat_inj.mp (toNat_of_lookup hinv hsmall hk), hnone] at hk
    cases hk
  rw [Tasks.stopTask, if_neg hout]
  exact hm

theorem matches_stopTask (hinv : TrackInv w) (hsmall : Unwrapped w) (hm : Matches w t)
    {c : ContextID} {h : UInt64} (hi : (w.tasks c).lookup h = some i) :
    Matches ((w.setTasks c ((w.tasks c).erase h)).conclude .aborted i)
      (t.stopTask c h.toNat) := by
  have hkey := toNat_of_lookup hinv hsmall hi
  have hin : h.toNat ∈ t.tasks c := (hm.tasks c h.toNat).mpr ⟨h, by rw [hkey]; exact hi⟩
  rw [Tasks.stopTask, if_pos hin, hkey]
  -- erasing the id from the one map is erasing the place from the other
  refine (hm.update c _ _ (fun j => ?_) ((hm.nodup c).erase i)).conclude .aborted i
  rw [(hm.nodup c).mem_erase_iff, hm.tasks]
  constructor
  · rintro ⟨hne, k, hk⟩
    have hkh : k ≠ h := by
      rintro rfl
      exact hne ((toNat_of_lookup hinv hsmall hk).symm.trans hkey)
    exact ⟨k, (AList.lookup_erase_ne hkh).trans hk⟩
  · rintro ⟨k, hk⟩
    by_cases hkh : k = h
    · rw [hkh, AList.lookup_erase] at hk
      cases hk
    · rw [AList.lookup_erase_ne hkh] at hk
      refine ⟨?_, k, hk⟩
      rintro rfl
      exact hkh (UInt64.toNat_inj.mp ((toNat_of_lookup hinv hsmall hk).trans hkey.symm))

theorem matches_spawnTask (hinv : TrackInv w) (hsmall : Unwrapped w) (hm : Matches w t)
    (c : ContextID) : Matches (w.spawnTask c).2 (t.spawnTask c 0).2 := by
  have hfresh : ∀ i, i ∈ t.tasks c → i ≠ w.spawned.length := by
    intro i hin
    obtain ⟨k, hk⟩ := (hm.tasks c i).mp hin
    obtain ⟨b, hb, -⟩ := hinv.owned c k i hk
    exact (List.getElem?_eq_some_iff.mp hb).1.ne
  have hlength : t.spawned.length = w.spawned.length := by rw [hm.spawned, List.length_map]
  have hnew := hm.update c ((w.tasks c).insert w.counter w.spawned.length)
    (t.tasks c ++ [t.spawned.length]) (fun i => ?_) ?_
  · refine ⟨?_, hnew.tasks, hnew.nodup⟩
    show t.spawned ++ [_] = (w.spawned ++ [_]).map SpawnedTask.task
    rw [List.map_append, hm.spawned]
    rfl
  · rw [List.mem_append, List.mem_singleton, hlength, hm.tasks]
    constructor
    · rintro (⟨k, hk⟩ | rfl)
      -- an id that is in use is not handed out again
      · have hkne : k ≠ w.counter := by
          obtain ⟨b, hb, rfl, -⟩ := hinv.owned c k i hk
          exact hinv.handle_ne_counter hsmall hb
        exact ⟨k, (AList.lookup_insert_ne hkne).trans hk⟩
      · exact ⟨w.counter, AList.lookup_insert _⟩
    · rintro ⟨k, hk⟩
      by_cases hkc : k = w.counter
      · rw [hkc, AList.lookup_insert] at hk
        exact .inr (Option.some.inj hk).symm
      · rw [AList.lookup_insert_ne hkc] at hk
        exact .inl ⟨k, hk⟩
  · refine List.nodup_append.mpr ⟨hm.nodup c, List.nodup_singleton _, fun i hin j hj => ?_⟩
    rw [List.mem_singleton.mp hj, hlength]
    exact hfresh i hin

theorem matches_dropContext (hm : Matches w t) (c : ContextID) :
    Matches (w.dropContext c) (t.dropContext c) := by
  have hempty := hm.update c ∅ [] (fun i => by simp) List.nodup_nil
  refine ⟨?_, hempty.tasks, hempty.nodup⟩
  -- the order in which a map is drained does not matter
  show ((t.tasks c).foldl Tasks.abort t).spawned
    = (((w.tasks c).entries.map Sigma.snd).foldl (conclude · .aborted) w).spawned.map _
  rw [(hm.abortAll (t.tasks c)).spawned]
  congr 1
  refine List.ext_getElem? fun i => ?_
  have hmem : i ∈ t.tasks c ↔ i ∈ (w.tasks c).entries.map Sigma.snd := by
    rw [hm.tasks, TaskMap.mem_map_snd]
  rw [spawned_abortAll, spawned_abortAll]
  simp only [hmem]

/-- **The step lemma of the refinement.** -/
theorem matches_act (hinv : TrackInv w) (hsmall : Unwrapped w) (hm : Matches w t)
    (hact : Act w l w') : Matches w' (onTasks t l) := by
  cases hact with
  | finish i => exact hm.conclude .finished i
  | gc c hlive => exact matches_gc hm c
  | noTask c h hlive hnone => exact matches_noTask hinv hsmall hm hnone
  | stopTask c h i hlive hi => exact matches_stopTask hinv hsmall hm hi
  | spawnTask c hlive => exact matches_spawnTask hinv hsmall hm c
  | dropContext c hlive => exact matches_dropContext hm c

/-- **The maps of the source are those of `Tasks`**, in every run in which the ids do not run
out. -/
theorem refines_tasks {ls : List ContextLabel} (hrun : machine.Run ls w) (hsmall : Unwrapped w) :
    Matches w (ls.foldl onTasks .empty) := by
  induction hrun with
  | start => exact ⟨rfl, fun c i => by simp [machine, init, Tasks.empty], fun c => List.nodup_nil⟩
  | snoc run hstep ih =>
    have hact := act_cases hstep
    have hbefore := (length_of_act hact).trans_lt hsmall
    rw [List.foldl_append]
    exact matches_act (trackInv_of_run run hbefore) hbefore (ih hbefore) hact

end ContextWorld

end Hannibal
