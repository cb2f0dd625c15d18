import Hannibal.Actor
import Hannibal.Lib.Table
import Mathlib.Logic.Function.Basic

/-!
# Hannibal.Tasks — the background tasks that contexts spawn

`Context::spawn_task`, `stop_task`, `gc` and `Drop for Context` (`context.rs`). `interval`,
`interval_with`, `delayed_send` and `delayed_exec` call `spawn_task` with a future of their own.
`TASK_ID` (`context/task_id.rs`) is one counter for all contexts, so the id of a task is its
position among all tasks that have ever been spawned.

* **`Tasks`** — all tasks, and the map of each `Context`.
* **`Tasks.Tracked`** — a running task is in the map of the `Context` that spawned it.
-/

namespace Hannibal

/-- `TaskID` (`context/task_id.rs`). -/
abbrev TaskID := ℕ

inductive TaskStatus where
  | running
  | finished
  | aborted
  deriving DecidableEq, Repr

/-- A task, the `Context` that spawned it, and how often that actor had been started by then. -/
structure BackgroundTask where
  context : ContextID
  incarnation : ℕ
  status : TaskStatus
  deriving DecidableEq, Repr

namespace BackgroundTask

def running (b : BackgroundTask) : Bool := decide (b.status = .running)

/-- A running task ends; one that has ended stays as it is. -/
def conclude (status : TaskStatus) (b : BackgroundTask) : BackgroundTask :=
  if b.running then { b with status } else b

variable (b : BackgroundTask) (status : TaskStatus)

@[simp] theorem conclude_context : (b.conclude status).context = b.context := by
  unfold conclude
  split <;> rfl

@[simp] theorem conclude_incarnation : (b.conclude status).incarnation = b.incarnation := by
  unfold conclude
  split <;> rfl

variable {status} in
theorem conclude_running (h : status ≠ .running) : (b.conclude status).running = false := by
  unfold conclude
  split
  · simp [running, h]
  · next hended => simpa using hended

end BackgroundTask

/-- All tasks in the order of their ids, and the keys of the map `tasks` of each `Context`. -/
structure Tasks where
  spawned : List BackgroundTask
  tasks : ContextID → List TaskID

namespace Tasks

def empty : Tasks := ⟨[], fun _ => []⟩

/-- `Context::spawn_task`, with the id it hands out. -/
def spawnTask (t : Tasks) (c : ContextID) (incarnation : ℕ) : TaskID × Tasks :=
  let id := t.spawned.length
  (id, ⟨t.spawned ++ [⟨c, incarnation, .running⟩], Function.update t.tasks c (t.tasks c ++ [id])⟩)

/-- `task.abort()`. -/
def abort (t : Tasks) (id : TaskID) : Tasks :=
  { t with spawned := t.spawned.modify id (BackgroundTask.conclude .aborted) }

/-- The future of a task completes. -/
def finish (t : Tasks) (id : TaskID) : Tasks :=
  { t with spawned := t.spawned.modify id (BackgroundTask.conclude .finished) }

/-- Task `id` is running. -/
def running (t : Tasks) (id : TaskID) : Bool := t.spawned[id]?.any BackgroundTask.running

/-- `Context::stop_task`. -/
def stopTask (t : Tasks) (c : ContextID) (id : TaskID) : Tasks :=
  if id ∈ t.tasks c then
    { t.abort id with tasks := Function.update t.tasks c ((t.tasks c).erase id) }
  else t

/-- `Context::gc`, as far as it is about tasks: `!handle.is_finished()` is kept. -/
def gc (t : Tasks) (c : ContextID) : Tasks :=
  { t with tasks := Function.update t.tasks c ((t.tasks c).filter t.running) }

/-- `Drop for Context`. -/
def dropContext (t : Tasks) (c : ContextID) : Tasks :=
  { (t.tasks c).foldl abort t with tasks := Function.update t.tasks c [] }

/-- The incarnations the tasks of `c` were spawned by. -/
def incarnations (t : Tasks) (c : ContextID) : List ℕ :=
  t.spawned.filterMap fun b => if b.context = c then some b.incarnation else none

variable {t : Tasks} {c c' : ContextID} {id id' : TaskID} {n : ℕ} {b : BackgroundTask}

/-! ## Tasks that keep running

A task runs until it ends by itself, is aborted by `stop_task` on its own id, or loses its
`Context`. -/

theorem running_iff : t.running id = true ↔ ∃ b, t.spawned[id]? = some b ∧ b.running = true := by
  simp [running, Option.any_eq_true]

theorem running_spawnTask (h : t.running id = true) : (t.spawnTask c n).2.running id = true := by
  obtain ⟨b, hb, hrun⟩ := running_iff.mp h
  exact running_iff.mpr ⟨b, Table.getElem?_snoc_of_some hb, hrun⟩

/-- Ending one task leaves the others alone. -/
theorem running_modify_of_ne {status : TaskStatus} (h : t.running id = true) (hne : id' ≠ id) :
    running { t with spawned := t.spawned.modify id' (BackgroundTask.conclude status) } id
      = true := by
  obtain ⟨b, hb, hrun⟩ := running_iff.mp h
  exact running_iff.mpr ⟨b, (Table.getElem?_modify_of_ne hne).trans hb, hrun⟩

theorem running_stopTask (h : t.running id = true) (hne : id' ≠ id) :
    (t.stopTask c id').running id = true := by
  unfold stopTask
  split
  · exact running_modify_of_ne h hne
  · exact h

/-! ## Tasks are tracked

While a `Context` lives, its running tasks are in its map, which is all that is needed: dropping
the `Context` aborts what is in the map, and so every task of it that was still running. -/

/-- Every running task of `c` is in its map. -/
def Tracked (t : Tasks) (c : ContextID) : Prop :=
  ∀ id b, t.spawned[id]? = some b → b.context = c → b.running = true → id ∈ t.tasks c

/-- No task of `c` is running. -/
def Idle (t : Tasks) (c : ContextID) : Prop := ∀ b ∈ t.spawned, b.context = c → b.running = false

/-- Ending a task makes none run. -/
theorem of_modify {status : TaskStatus} (hstatus : status ≠ .running)
    (hb : (t.spawned.modify id' (BackgroundTask.conclude status))[id]? = some b)
    (hrun : b.running = true) : id' ≠ id ∧ t.spawned[id]? = some b := by
  rcases Table.of_getElem?_modify hb with hother | ⟨rfl, b', hb', rfl⟩
  · exact hother
  · rw [b'.conclude_running hstatus] at hrun
    cases hrun

theorem of_abort (hb : (t.abort id').spawned[id]? = some b) (hrun : b.running = true) :
    id' ≠ id ∧ t.spawned[id]? = some b := by
  have hne : TaskStatus.aborted ≠ .running := by decide
  exact of_modify hne hb hrun

theorem of_finish (hb : (t.finish id').spawned[id]? = some b) (hrun : b.running = true) :
    id' ≠ id ∧ t.spawned[id]? = some b := by
  have hne : TaskStatus.finished ≠ .running := by decide
  exact of_modify hne hb hrun

theorem tracked_spawnTask (h : t.Tracked c) : (t.spawnTask c' n).2.Tracked c := by
  intro id b hb hc hrun
  show id ∈ Function.update t.tasks c' (t.tasks c' ++ [t.spawned.length]) c
  rcases Table.getElem?_snoc.mp hb with hold | ⟨rfl, rfl⟩
  · have hmem := h id b hold hc hrun
    by_cases hcc : c = c'
    · subst hcc
      rw [Function.update_self]
      exact List.mem_append_left _ hmem
    · rwa [Function.update_of_ne hcc]
  · have hcc : c' = c := hc
    subst hcc
    rw [Function.update_self]
    exact List.mem_append_right _ (List.mem_singleton_self _)

theorem tracked_finish (h : t.Tracked c) : (t.finish id').Tracked c := by
  intro id b hb hc hrun
  obtain ⟨-, hold⟩ := of_finish hb hrun
  exact h id b hold hc hrun

theorem tracked_stopTask (h : t.Tracked c) : (t.stopTask c id').Tracked c := by
  unfold stopTask
  split
  · intro id b hb hc hrun
    obtain ⟨hne, hold⟩ := of_abort hb hrun
    show id ∈ Function.update t.tasks c ((t.tasks c).erase id') c
    rw [Function.update_self]
    exact (List.mem_erase_of_ne hne.symm).mpr (h id b hold hc hrun)
  · exact h

theorem tracked_gc (h : t.Tracked c) : (t.gc c).Tracked c := by
  intro id b hb hc hrun
  show id ∈ Function.update t.tasks c ((t.tasks c).filter t.running) c
  rw [Function.update_self]
  exact List.mem_filter.mpr ⟨h id b hb hc hrun, running_iff.mpr ⟨b, hb, hrun⟩⟩

/-- Aborting tasks one after the other aborts each of them, and starts none. -/
theorem running_foldl_abort {ids : List TaskID} (h : (ids.foldl abort t).running id = true) :
    t.running id = true ∧ id ∉ ids := by
  induction ids generalizing t with
  | nil => exact ⟨h, List.not_mem_nil⟩
  | cons i ids ih =>
    obtain ⟨hrun, hnot⟩ := ih h
    obtain ⟨b, hb, hb'⟩ := running_iff.mp hrun
    obtain ⟨hne, hold⟩ := of_abort hb hb'
    refine ⟨running_iff.mpr ⟨b, hold, hb'⟩, ?_⟩
    rw [List.mem_cons, not_or]
    exact ⟨hne.symm, hnot⟩

/-- What a task belongs to never changes. -/
theorem context_foldl_abort {ids : List TaskID} (hb : (ids.foldl abort t).spawned[id]? = some b) :
    ∃ b', t.spawned[id]? = some b' ∧ b'.context = b.context := by
  induction ids generalizing t with
  | nil => exact ⟨b, hb, rfl⟩
  | cons i ids ih =>
    obtain ⟨b', hb', hcontext⟩ := ih hb
    rcases Table.of_getElem?_modify hb' with ⟨-, hold⟩ | ⟨rfl, b'', hb'', rfl⟩
    · exact ⟨b', hold, hcontext⟩
    · exact ⟨b'', hb'', by simpa using hcontext⟩

/-- **A dropped `Context` leaves no task running.** -/
theorem idle_dropContext (h : t.Tracked c) : (t.dropContext c).Idle c := by
  intro b hb hc
  by_contra hrun
  have hrun : b.running = true := by simpa using hrun
  obtain ⟨id, hid⟩ := List.mem_iff_getElem?.mp hb
  have hid : ((t.tasks c).foldl abort t).spawned[id]? = some b := hid
  obtain ⟨hold, hnot⟩ := running_foldl_abort (running_iff.mpr ⟨b, hid, hrun⟩)
  obtain ⟨b', hb', hrun'⟩ := running_iff.mp hold
  obtain ⟨b'', hb'', hcontext⟩ := context_foldl_abort hid
  rw [hb'] at hb''
  cases hb''
  exact hnot (h id b' hb' (hcontext.trans hc) hrun')

theorem idle_spawnTask (h : t.Idle c) (hne : c' ≠ c) : (t.spawnTask c' n).2.Idle c := by
  intro b hb hc
  rcases List.mem_append.mp hb with hold | hnew
  · exact h b hold hc
  · cases List.mem_singleton.mp hnew
    exact absurd hc hne

theorem idle_finish (h : t.Idle c) : (t.finish id').Idle c := by
  intro b hb hc
  by_contra hrun
  obtain ⟨id, hid⟩ := List.mem_iff_getElem?.mp hb
  obtain ⟨-, hold⟩ := of_finish hid (by simpa using hrun)
  exact hrun (by simpa using h b (List.mem_of_getElem? hold) hc)

/-! ## Which incarnation spawned them

A restart runs `started` again on the same `Context`, so a task is spawned in one of several
incarnations of the actor, and nothing but the `Context`'s end puts a stop to the older ones. -/

theorem incarnations_spawnTask (t : Tasks) (c : ContextID) (n : ℕ) :
    (t.spawnTask c n).2.incarnations c = t.incarnations c ++ [n] := by
  simp [incarnations, spawnTask]

theorem incarnations_spawnTask_of_ne (hne : c' ≠ c) :
    (t.spawnTask c' n).2.incarnations c = t.incarnations c := by
  simp [incarnations, spawnTask, hne]

/-- However tasks end, they have been spawned as before. -/
theorem incarnations_modify (t : Tasks) (c : ContextID) (status : TaskStatus) (id : TaskID) :
    incarnations { t with spawned := t.spawned.modify id (BackgroundTask.conclude status) } c =
      t.incarnations c :=
  Table.filterMap_modify fun b => by simp

theorem incarnations_stopTask (t : Tasks) (c : ContextID) (id : TaskID) :
    (t.stopTask c id).incarnations c = t.incarnations c := by
  unfold stopTask
  split
  · exact incarnations_modify t c .aborted id
  · rfl

theorem incarnations_dropContext (t : Tasks) (c : ContextID) :
    (t.dropContext c).incarnations c = t.incarnations c := by
  show ((t.tasks c).foldl abort t).incarnations c = t.incarnations c
  induction t.tasks c generalizing t with
  | nil => rfl
  | cons id ids ih => exact (ih (t.abort id)).trans (incarnations_modify t c .aborted id)

end Tasks

end Hannibal
