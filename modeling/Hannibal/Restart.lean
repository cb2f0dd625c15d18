import Hannibal.LoopTask
import Hannibal.Tasks

/-!
# Hannibal.Restart — a restart leaves the background tasks alone

A restart calls `stopped` and then `started`, on the same actor or on a new one
(`actor/restart_strategy.rs`), with the `Context` it is given. The `Context` goes on, and with it
the tasks it has spawned: it aborts them when it is dropped, with the loop future.

* **`RestartWorld`** — the loop future, and the tasks of its `Context` among those of all others.
* **`running_of_run`** — a task keeps running until it ends, it is stopped, or the `Context` is
  dropped.
* **`ContextInv`** — a `Context` that has been dropped has no running tasks.
* **`StartInv`**, **`CountInv`** — `started` runs at most once more often than there were restarts,
  and spawns at most `k` tasks each time.
-/

namespace Hannibal

open Lts

variable {σ ρ : Type}

def Event.isRestart : Event → Bool
  | .taken (.restart _) => true
  | _ => false

/-- `started` is about to be called. -/
def Pc.toStart : Pc σ ρ → ℕ
  | .unpolled | .refreshStopping => 1
  | _ => 0

/-- The loop is inside a `started`. -/
def Pc.inStarted : Pc σ ρ → Bool
  | .starting | .refreshStarting => true
  | _ => false

namespace LoopState

/-- How often `started` has been entered. -/
def starts (s : LoopState σ ρ) : ℕ := s.trace.count (.enter (.hook .started))

/-- How many `Restart`s have been taken. -/
def restarts (s : LoopState σ ρ) : ℕ := s.trace.countP Event.isRestart

end LoopState

/-- The loop future, and all background tasks. -/
structure RestartWorld (σ ρ : Type) where
  task : LoopTask σ ρ
  tasks : Tasks

/-- Everything that can happen next: a step of the loop future, whose mailbox may hold any payloads;
a hook or a handler uses its `Context`; a task ends; another actor spawns one. -/
inductive RestartLabel (σ ρ : Type) where
  | loop (l : TaskLabel σ ρ)
  | spawnTask
  | stopTask (id : TaskID)
  | gc
  | finish (id : TaskID)
  | elsewhere (c : ContextID)

namespace RestartWorld

/-- The id of the actor's own `Context`. -/
def own : ContextID := 0

def init (actor : σ) : RestartWorld σ ρ := ⟨.init actor, .empty⟩

/-- The tasks of the actor that are running. -/
def live (w : RestartWorld σ ρ) : List BackgroundTask :=
  w.tasks.spawned.filter fun b => decide (b.context = own) && b.running

/-- The loop future drops its `Context`, or leaves the tasks alone. -/
def afterLoop (w : RestartWorld σ ρ) (l : TaskLabel σ ρ) (task : LoopTask σ ρ) : RestartWorld σ ρ :=
  match l with
  | .dropCtx => ⟨task, w.tasks.dropContext own⟩
  | _ => ⟨task, w.tasks⟩

/-- The `Context` is at hand only inside a call into the actor. -/
def withContext (w : RestartWorld σ ρ) (tasks : Tasks) : Option (RestartWorld σ ρ) :=
  if w.task.loop.pc.inCall then some { w with tasks } else none

def step (E : EventLoop σ) (w : RestartWorld σ ρ) : RestartLabel σ ρ → Option (RestartWorld σ ρ)
  | .loop l => (w.task.step E l).map (w.afterLoop l)
  | .spawnTask => w.withContext (w.tasks.spawnTask own w.task.loop.starts).2
  | .stopTask id => w.withContext (w.tasks.stopTask own id)
  | .gc => w.withContext (w.tasks.gc own)
  | .finish id => some { w with tasks := w.tasks.finish id }
  | .elsewhere c => if c = own then none else some { w with tasks := (w.tasks.spawnTask c 0).2 }

def machine (ρ : Type) (E : EventLoop σ) (actor : σ) :
    Machine (RestartWorld σ ρ) (RestartLabel σ ρ) :=
  ⟨init actor, step E⟩

variable {E : EventLoop σ} {a : σ} {w w' v : RestartWorld σ ρ} {l : RestartLabel σ ρ}
  {ls more : List (RestartLabel σ ρ)} {id : TaskID} {k : ℕ}

/-! ## A task keeps running

The tasks of the `Context` are only touched by the handlers, and by whoever drops the `Context`. The
restart is neither, so a task that runs before it runs after it. -/

theorem of_withContext {tasks : Tasks} (h : w.withContext tasks = some w') :
    w.task.loop.pc.inCall = true ∧ w' = { w with tasks } := by
  unfold withContext at h
  split at h
  · next hcall =>
    cases h
    exact ⟨hcall, rfl⟩
  · cases h

theorem task_of_afterLoop (w : RestartWorld σ ρ) (tl : TaskLabel σ ρ) (t : LoopTask σ ρ) :
    (w.afterLoop tl t).task = t := by
  cases tl <;> rfl

/-- A dropped `Context` does not come back. -/
theorem ctx_of_step (h : w.step E l = some w') (hctx : w'.task.ctx = true) : w.task.ctx = true := by
  cases l with
  | loop tl =>
    obtain ⟨t, ht, rfl⟩ := Option.map_eq_some_iff.mp h
    rw [task_of_afterLoop] at hctx
    cases LoopTask.step_cases ht with
    | dropCtx hend hctx' => exact hctx'
    | _ => exact hctx
  | spawnTask | stopTask | gc =>
    obtain ⟨-, rfl⟩ := of_withContext h
    exact hctx
  | finish id =>
    cases h
    exact hctx
  | elsewhere c =>
    simp only [step] at h
    split at h <;> cases h
    exact hctx

/-- While there is a `Context`, a task only ends by itself or by `stop_task`. -/
theorem running_step (h : w.step E l = some w') (hctx : w'.task.ctx = true)
    (hrun : w.tasks.running id = true) (hfinish : l ≠ .finish id) (hstop : l ≠ .stopTask id) :
    w'.tasks.running id = true := by
  cases l with
  | loop tl =>
    obtain ⟨t, ht, rfl⟩ := Option.map_eq_some_iff.mp h
    cases tl with
    -- this is the step that drops the `Context`
    | dropCtx =>
      rw [task_of_afterLoop] at hctx
      cases LoopTask.step_cases ht
      cases hctx
    | _ => exact hrun
  | spawnTask =>
    obtain ⟨-, rfl⟩ := of_withContext h
    exact Tasks.running_spawnTask hrun
  | stopTask id' =>
    obtain ⟨-, rfl⟩ := of_withContext h
    exact Tasks.running_stopTask hrun fun hid => hstop (hid ▸ rfl)
  | gc =>
    obtain ⟨-, rfl⟩ := of_withContext h
    exact hrun
  | finish id' =>
    cases h
    exact Tasks.running_modify_of_ne hrun fun hid => hfinish (hid ▸ rfl)
  | elsewhere c =>
    simp only [step] at h
    split at h <;> cases h
    exact Tasks.running_spawnTask hrun

/-- … in every run. -/
theorem running_of_run (hw : (machine ρ E a).Run ls w) (hv : (machine ρ E a).Run (ls ++ more) v)
    (hctx : v.task.ctx = true) (hrun : w.tasks.running id = true) :
    v.tasks.running id = true ∨ .finish id ∈ more ∨ .stopTask id ∈ more := by
  -- over the rest of the run; the `Context` is there at its end, so it was there all along
  induction more using List.reverseRecOn generalizing v with
  | nil =>
    rw [List.append_nil] at hv
    rw [hv.unique hw]
    exact .inl hrun
  | append_singleton more l ih =>
    rw [← List.append_assoc] at hv
    obtain ⟨u, hu, hstep⟩ := hv.snoc_inv
    have hstep : u.step E l = some v := hstep
    by_cases hfinish : l = .finish id
    · exact .inr (.inl (by simp [hfinish]))
    by_cases hstop : l = .stopTask id
    · exact .inr (.inr (by simp [hstop]))
    rcases ih hu (ctx_of_step hstep hctx) with hrun' | hmem | hmem
    · exact .inl (running_step hstep hctx hrun' hfinish hstop)
    · exact .inr (.inl (List.mem_append_left _ hmem))
    · exact .inr (.inr (List.mem_append_left _ hmem))

/-- **In every run the loop future goes through a run of its own.** -/
theorem task_run (h : (machine ρ E a).Run ls w) : ∃ ks, (LoopTask.machine ρ E a).Run ks w.task := by
  refine h.projects (π := task) rfl fun u l u' hstep => ?_
  have hstep : u.step E l = some u' := hstep
  cases l with
  | loop tl =>
    obtain ⟨t, ht, rfl⟩ := Option.map_eq_some_iff.mp hstep
    exact .inr ⟨tl, by rw [task_of_afterLoop]; exact ht⟩
  | spawnTask | stopTask | gc =>
    obtain ⟨-, rfl⟩ := of_withContext hstep
    exact .inl rfl
  | finish id =>
    cases hstep
    exact .inl rfl
  | elsewhere c =>
    simp only [step] at hstep
    split at hstep <;> cases hstep
    exact .inl rfl

/-! ## A dropped `Context`

As long as the `Context` is there its map has every running task; with `Drop` all of these are
aborted, and no task is spawned for it afterwards. -/

/-- The map of the `Context` holds its running tasks, and the dropped `Context` has none. -/
structure ContextInv (w : RestartWorld σ ρ) : Prop where
  tracked : w.task.ctx = true → w.tasks.Tracked own
  idle : w.task.ctx = false → w.tasks.Idle own

theorem contextInv_init (actor : σ) : ContextInv (init actor : RestartWorld σ ρ) where
  tracked _ id b hb := by simp [init, Tasks.empty] at hb
  idle h := by cases h

/-- A call into the actor is made with its `Context`. -/
theorem ctx_of_inCall (h : w.task.Inv) (hcall : w.task.loop.pc.inCall = true) :
    w.task.ctx = true := by
  refine (h.owned ?_).2
  cases hpc : w.task.loop.pc <;> simp_all [Pc.inCall, Pc.ended]

/-- A use of the `Context` that keeps its tasks tracked. -/
theorem contextInv_use {tasks : Tasks} (hinv : w.ContextInv) (htask : w.task.Inv)
    (h : w.withContext tasks = some w') (htracked : w.tasks.Tracked own → tasks.Tracked own) :
    w'.ContextInv := by
  obtain ⟨hcall, rfl⟩ := of_withContext h
  have hctx := ctx_of_inCall htask hcall
  exact ⟨fun _ => htracked (hinv.tracked hctx), fun hgone => by cases hctx.symm.trans hgone⟩

theorem contextInv_step (hinv : w.ContextInv) (htask : w.task.Inv) (h : w.step E l = some w') :
    w'.ContextInv := by
  cases l with
  | loop tl =>
    obtain ⟨t, ht, rfl⟩ := Option.map_eq_some_iff.mp h
    cases LoopTask.step_cases ht with
    -- `Drop` aborts what is in the map, and by the invariant nothing else runs
    | dropCtx hend hctx =>
      exact ⟨fun hgone => (by cases hgone), fun _ => Tasks.idle_dropContext (hinv.tracked hctx)⟩
    | _ => exact ⟨hinv.tracked, hinv.idle⟩
  | spawnTask => exact contextInv_use hinv htask h Tasks.tracked_spawnTask
  | stopTask id => exact contextInv_use hinv htask h Tasks.tracked_stopTask
  | gc => exact contextInv_use hinv htask h Tasks.tracked_gc
  | finish id =>
    cases h
    exact ⟨fun hctx => Tasks.tracked_finish (hinv.tracked hctx),
      fun hctx => Tasks.idle_finish (hinv.idle hctx)⟩
  | elsewhere c =>
    simp only [step] at h
    split at h <;> cases h
    next hc => exact ⟨fun hctx => Tasks.tracked_spawnTask (hinv.tracked hctx),
      fun hctx => Tasks.idle_spawnTask (hinv.idle hctx) hc⟩

theorem contextInv_of_run (h : (machine ρ E a).Run ls w) : w.ContextInv := by
  induction h with
  | start => exact contextInv_init a
  | snoc run hstep ih =>
    obtain ⟨ks, htask⟩ := task_run run
    exact contextInv_step ih (LoopTask.inv_of_run htask) hstep

theorem live_of_idle (h : w.tasks.Idle own) : w.live = [] := by
  refine List.filter_eq_nil_iff.mpr fun b hb hlive => ?_
  simp only [Bool.and_eq_true, decide_eq_true_eq] at hlive
  rw [h b hb hlive.1] at hlive
  cases hlive.2

/-! ## How many tasks there are

Each task is counted for the `started` it was spawned in. Between two starts there is a restart, and
within one at most `k` tasks are spawned, so the bound is a product. -/

/-- Tasks are only spawned in `started`, and no more than `k` in one run of it. -/
def spawnsWithin (k : ℕ) (w : RestartWorld σ ρ) (l : RestartLabel σ ρ)
    (_ : RestartWorld σ ρ) : Bool :=
  match l with
  | .spawnTask => w.task.loop.pc.inStarted &&
      decide ((w.tasks.incarnations own).count w.task.loop.starts < k)
  | _ => true

/-- `started` is entered once at first and once for each `Restart`. -/
structure StartInv (s : LoopState σ ρ) : Prop where
  entered : s.pc.inStarted = true → 1 ≤ s.starts
  paced : s.starts + s.pc.toStart ≤ s.restarts + 1

theorem starts_le_of_step {s s' : LoopState σ ρ} {i : Option (Input σ ρ)}
    (h : EventLoop.Step E s i s') : s.starts ≤ s'.starts := by
  cases h <;> simp [LoopState.starts]

theorem startInv_loop {s s' : LoopState σ ρ} {i : Option (Input σ ρ)} (hinv : StartInv s)
    (h : EventLoop.Step E s i s') : StartInv s' := by
  have hpaced := hinv.paced
  cases h with
  | poll hpc | refreshed hpc =>
    simp only [LoopState.starts, LoopState.restarts, hpc, Pc.toStart] at hpaced
    exact ⟨fun _ => by simp [LoopState.starts], by
      simpa [LoopState.starts, LoopState.restarts, Pc.toStart, Event.isRestart] using hpaced⟩
  | keepRestart hpc =>
    refine ⟨fun hin => by simp [hpc, Pc.inStarted] at hin, ?_⟩
    simp only [LoopState.starts, LoopState.restarts, hpc, Pc.toStart] at hpaced
    simp [LoopState.starts, LoopState.restarts, hpc, Pc.toStart, Event.isRestart]
    omega
  | _ =>
    -- `started` is neither entered nor about to be, unless a `Restart` is taken
    refine ⟨fun hin => by simp [Pc.inStarted] at hin, ?_⟩
    simp [LoopState.starts, LoopState.restarts, Pc.toStart, Event.isRestart,
      List.countP_cons] at hpaced ⊢
    omega

theorem startInv_task {t t' : LoopTask σ ρ} {tl : TaskLabel σ ρ} (hinv : StartInv t.loop)
    (h : LoopTask.Step E t tl t') : StartInv t'.loop ∧ t.loop.starts ≤ t'.loop.starts := by
  cases h with
  | advance s' hs => exact ⟨startInv_loop hinv hs, starts_le_of_step hs⟩
  | receive i s' hs => exact ⟨startInv_loop hinv hs, starts_le_of_step hs⟩
  | drop hend =>
    have hpaced := hinv.paced
    refine ⟨⟨fun hin => (by cases hin), ?_⟩, Nat.le_refl _⟩
    show t.loop.starts + 0 ≤ t.loop.restarts + 1
    omega
  | _ => exact ⟨hinv, Nat.le_refl _⟩

/-- What `started` has spawned. -/
structure CountInv (k : ℕ) (w : RestartWorld σ ρ) : Prop where
  start : StartInv w.task.loop
  known : ∀ n ∈ w.tasks.incarnations own, 1 ≤ n ∧ n ≤ w.task.loop.starts
  counted : ∀ n, (w.tasks.incarnations own).count n ≤ k

theorem countInv_init (k : ℕ) (actor : σ) : CountInv k (init actor : RestartWorld σ ρ) where
  start := ⟨fun hin => (by cases hin), Nat.le_refl _⟩
  known n hn := by cases hn
  counted n := Nat.zero_le k

theorem incarnations_afterLoop (w : RestartWorld σ ρ) (tl : TaskLabel σ ρ) (t : LoopTask σ ρ) :
    (w.afterLoop tl t).tasks.incarnations own = w.tasks.incarnations own := by
  cases tl with
  | dropCtx => exact Tasks.incarnations_dropContext w.tasks own
  | _ => rfl

/-- A step that spawns nothing here keeps the count. -/
theorem CountInv.of_incarnations_eq (hinv : CountInv k w) (htask : w'.task = w.task)
    (htasks : w'.tasks.incarnations own = w.tasks.incarnations own) : CountInv k w' :=
  ⟨htask ▸ hinv.start, fun n hn => htask ▸ hinv.known n (htasks ▸ hn),
    fun n => htasks ▸ hinv.counted n⟩

theorem countInv_step (hinv : CountInv k w) (h : w.step E l = some w')
    (hk : spawnsWithin k w l w' = true) : CountInv k w' := by
  cases l with
  | loop tl =>
    obtain ⟨t, ht, rfl⟩ := Option.map_eq_some_iff.mp h
    obtain ⟨hstart, hle⟩ := startInv_task hinv.start (LoopTask.step_cases ht)
    refine ⟨?_, fun n hn => ?_, fun n => ?_⟩
    · rwa [task_of_afterLoop]
    · rw [incarnations_afterLoop] at hn
      rw [task_of_afterLoop]
      obtain ⟨hpos, hn⟩ := hinv.known n hn
      exact ⟨hpos, hn.trans hle⟩
    · rw [incarnations_afterLoop]
      exact hinv.counted n
  -- only this adds a task, and it is counted for the last `started`
  | spawnTask =>
    obtain ⟨-, rfl⟩ := of_withContext h
    simp only [spawnsWithin, Bool.and_eq_true, decide_eq_true_eq] at hk
    obtain ⟨hin, hlt⟩ := hk
    refine ⟨hinv.start, fun n hn => ?_, fun n => ?_⟩
    · rw [Tasks.incarnations_spawnTask] at hn
      rcases List.mem_append.mp hn with hold | hnew
      · exact hinv.known n hold
      · cases List.mem_singleton.mp hnew
        exact ⟨hinv.start.entered hin, Nat.le_refl _⟩
    · rw [Tasks.incarnations_spawnTask, List.count_append, List.count_singleton]
      have hcount := hinv.counted n
      by_cases hn : w.task.loop.starts = n
      · subst hn
        simpa using Nat.succ_le_of_lt hlt
      · simpa [hn] using hcount
  | stopTask id =>
    obtain ⟨-, rfl⟩ := of_withContext h
    exact hinv.of_incarnations_eq rfl (Tasks.incarnations_stopTask w.tasks own id)
  | gc =>
    obtain ⟨-, rfl⟩ := of_withContext h
    exact hinv.of_incarnations_eq rfl rfl
  | finish id =>
    cases h
    exact hinv.of_incarnations_eq rfl (Tasks.incarnations_modify w.tasks own .finished id)
  | elsewhere c =>
    simp only [step] at h
    split at h <;> cases h
    next hc => exact hinv.of_incarnations_eq rfl (Tasks.incarnations_spawnTask_of_ne hc)

theorem countInv_of_run (h : (machine ρ E a).Run ls w)
    (hk : (machine ρ E a).AllSteps ls fun u l u' => spawnsWithin k u l u' = true) : CountInv k w :=
  h.reaches.invariant_of_steps (I := CountInv k) (countInv_init k a)
    (fun _ _ _ hinv hstep hspawn => countInv_step hinv hstep hspawn) hk

/-- The running tasks are among those spawned. -/
theorem length_live_le (w : RestartWorld σ ρ) :
    w.live.length ≤ (w.tasks.incarnations own).length := by
  rw [live, ← List.countP_eq_length_filter, Tasks.incarnations, List.length_filterMap_eq_countP]
  refine List.countP_mono_left fun b _ hlive => ?_
  simp only [Bool.and_eq_true, decide_eq_true_eq] at hlive
  simp [hlive.1]

theorem CountInv.live_le (hinv : CountInv k w) :
    w.live.length ≤ k * (w.task.loop.restarts + 1) := by
  have hpaced := hinv.start.paced
  calc w.live.length ≤ (w.tasks.incarnations own).length := length_live_le w
    _ ≤ k * w.task.loop.starts := Table.length_le_of_count hinv.known hinv.counted
    _ ≤ k * (w.task.loop.restarts + 1) := Nat.mul_le_mul_left k (by omega)

/-! ## What a restart does

The results about runs, put together: what a restart leaves running, and what adds up when each
`started` spawns tasks again. -/

/-- **A restart keeps the background tasks**, with either strategy: a task that is running keeps
running, through any number of restarts, until it ends, it is stopped with `stop_task`, or the
`Context` is dropped. Then none is left. If only `started` spawns tasks, at most `k` each time, at
most `k * (r + 1)` are running after `r` restarts. -/
theorem restart_keeps_tasks (E : EventLoop σ) (a : σ) (ls : List (RestartLabel σ ρ))
    (w : RestartWorld σ ρ) (h : (machine ρ E a).Run ls w) :
    (∀ more v id, (machine ρ E a).Run (ls ++ more) v → v.task.ctx = true →
        w.tasks.running id = true →
        v.tasks.running id = true ∨ .finish id ∈ more ∨ .stopTask id ∈ more)
      ∧ (w.task.ctx = false → w.live = [])
      ∧ ∀ k, (machine ρ E a).AllSteps ls (fun u l u' => spawnsWithin k u l u' = true) →
          w.live.length ≤ k * (w.task.loop.restarts + 1) := by
  refine ⟨fun more v id hv hctx hrun =>
    running_of_run h hv hctx hrun, fun hctx => ?_, fun k hk => ?_⟩
  · exact live_of_idle ((contextInv_of_run h).idle hctx)
  · exact (countInv_of_run h hk).live_le

/-- An actor whose `started` spawns a task. -/
def intervalActor : EventLoop ℕ := .fromChannel (.provided 0)

/-- It starts, and takes a `Restart`. -/
def restartTaken : List (RestartLabel ℕ ℕ) :=
  [.loop .advance, .spawnTask, .loop .advance, .loop (.receive (.payload ⟨0, .restart⟩))]

/-- The rest of the refresh. -/
def refreshDone : List (RestartLabel ℕ ℕ) := [.loop .advance, .spawnTask, .loop .advance]

theorem restart_keeps_tasks_interval :
    (((machine ℕ intervalActor 7).after (restartTaken ++ refreshDone) rfl).tasks.running 0 = true
        ∨ .finish 0 ∈ refreshDone ∨ .stopTask 0 ∈ refreshDone)
      ∧ ((machine ℕ intervalActor 7).after (restartTaken ++ refreshDone) rfl).live.length
          ≤ 1 * (1 + 1) := by
  have hrun := (machine ℕ intervalActor 7).run_after (restartTaken ++ refreshDone) rfl
  have hspawns : (machine ℕ intervalActor 7).AllSteps (restartTaken ++ refreshDone)
      fun u l u' => spawnsWithin 1 u l u' = true := Machine.AllSteps.of_check (by decide)
  exact ⟨(restart_keeps_tasks intervalActor 7 restartTaken _ (Machine.run_after restartTaken rfl)).1
      refreshDone _ 0 hrun rfl (by decide),
    (restart_keeps_tasks intervalActor 7 _ _ hrun).2.2 1 hspawns⟩

/-- With either strategy, two tasks are running after the first restart of an actor whose `started`
spawns one: the task of the first incarnation is not gone. -/
theorem restart_leaves_task :
    ((machine ℕ intervalActor 7).after (restartTaken ++ refreshDone) rfl).task.loop.pc = .receiving
      ∧ ((machine ℕ intervalActor 7).after (restartTaken ++ refreshDone) rfl).live =
          [⟨own, 1, .running⟩, ⟨own, 2, .running⟩]
      ∧ ((machine ℕ intervalActor.recreating 7).after (restartTaken ++ refreshDone)
          rfl).task.loop.pc = .receiving
      ∧ ((machine ℕ intervalActor.recreating 7).after (restartTaken ++ refreshDone) rfl).live =
          [⟨own, 1, .running⟩, ⟨own, 2, .running⟩] :=
  ⟨rfl, by decide, rfl, by decide⟩

end RestartWorld

end Hannibal
