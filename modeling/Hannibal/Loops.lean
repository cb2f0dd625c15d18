import Hannibal.StreamRestart

/-!
# Hannibal.Loops — the two loops on the same mailbox

`EventLoop::create` and `EventLoop::create_on_stream` share no code: the body of the loop, its
timeout policy and its ways out are written twice. Where the stream yields nothing and nobody
restarts the actor they do the same, step by step, whatever the restart strategies of their types
are.

* **`step_eq`** — one step, in every state the two have in common.
* **`loops_agree`** — every run of one is a run of the other, to the same state.
* **`World.clients_agree`** — and no client can tell them apart.
-/

namespace Hannibal

open Lts Chan

variable {σ ρ : Type}

/-- Both loops can stand there. -/
def Pc.shared : Pc σ ρ → Bool
  | .refreshStopping | .refreshStarting | .finishing => false
  | _ => true

/-- Both loops can be given that. -/
def Input.shared : Input σ ρ → Bool
  | .payload ⟨_, .restart⟩ | .item _ | .streamEnd => false
  | _ => true

def TaskLabel.shared : TaskLabel σ ρ → Bool
  | .receive i => i.shared
  | _ => true

section Step

variable {E F : EventLoop σ} (hactor : F.actor = E.actor) (hconfig : F.config = E.config)
  (hE : E.onStream = false) (hF : F.onStream = true)

include hactor hconfig hE hF

/-- **In one step the two loops do the same.** -/
theorem EventLoop.step_eq {s : LoopState σ ρ} (hpc : s.pc.shared = true) (i : Option (Input σ ρ))
    (hi : ∀ j, i = some j → j.shared = true) : F.step s i = E.step s i := by
  have hstarted : F.afterStarted s = E.afterStarted s := by
    unfold afterStarted
    rw [hactor]
  have htask : ∀ c f, F.afterTask s c f = E.afterTask s c f := by
    intro c f
    unfold afterTask
    rw [hconfig]
  -- the bodies of the two loops are compared arm by arm, at each place both can stand
  rw [step, step, if_pos hF, hE, if_neg Bool.false_ne_true]
  cases i with
  | none =>
    unfold create createOnStream
    cases hs : s.pc with
    | refreshStopping | refreshStarting | finishing =>
      rw [hs] at hpc
      cases hpc
    | starting => simp only [hstarted]
    | running c f => exact htask c f
    | cancelling | stopping => simp only [hactor]
    | _ => rfl
  | some j =>
    have hj := hi j rfl
    unfold create createOnStream
    cases hs : s.pc with
    | receiving =>
      cases j with
      | payload e =>
        rcases e with ⟨k, _ | _ | _⟩
        · rfl
        · rfl
        -- the arm in which they differ is the one for a restart
        · cases hj
      | closed => rfl
      | item f => cases hj
      | streamEnd => cases hj
    | _ => rfl

theorem LoopTask.step_eq {t : LoopTask σ ρ} (hpc : t.loop.pc.shared = true) (l : TaskLabel σ ρ)
    (hl : l.shared = true) : t.step F l = t.step E l := by
  cases l with
  | advance =>
    rw [step, step, EventLoop.step_eq hactor hconfig hE hF hpc none fun j hj => by cases hj]
  | receive i =>
    rw [step, step, EventLoop.step_eq hactor hconfig hE hF hpc (some i) fun j hj =>
      by cases hj; exact hl]
  | _ => rfl

end Step

/-- Such a step leads nowhere else. -/
theorem shared_of_step {E : EventLoop σ} {s s' : LoopState σ ρ} {i : Option (Input σ ρ)}
    (hpc : s.pc.shared = true) (h : EventLoop.Step E s i s')
    (hi : ∀ j, i = some j → j.shared = true) :
    s'.pc.shared = true := by
  cases h with
  | takeRestart | keepRestart | panicRestart | takeItem | takeStreamEnd => cases hi _ rfl
  | refreshed hpc' | finished hpc' =>
    rw [hpc'] at hpc
    cases hpc
  | _ => rfl

theorem shared_of_task {E : EventLoop σ} {t t' : LoopTask σ ρ} {l : TaskLabel σ ρ}
    (hpc : t.loop.pc.shared = true) (h : LoopTask.Step E t l t') (hl : l.shared = true) :
    t'.loop.pc.shared = true := by
  cases h with
  | advance s' hs => exact shared_of_step hpc hs nofun
  | receive i s' hs => exact shared_of_step hpc hs fun j hj => by cases hj; exact hl
  | drop => rfl
  | _ => exact hpc

/-- **The two loops agree on mailbox traffic.** For every actor and configuration, whatever the
restart strategies: a list of payloads without a restart, of polls and of drops, over a stream that
yields nothing, leads both loops to the same state, with the same calls made, the same actor value,
the same result and the same stop notification. -/
theorem loops_agree (actor : Actor σ) (config : EventLoopConfig) (r r' : RestartStrategy) (a : σ)
    (ls : List (TaskLabel σ ρ)) (hls : ∀ l ∈ ls, l.shared = true) (t : LoopTask σ ρ) :
    (LoopTask.machine ρ ⟨actor, config, r, false⟩ a).Run ls t
      ↔ (LoopTask.machine ρ ⟨actor, config, r', true⟩ a).Run ls t := by
  have hexec : (LoopTask.machine ρ ⟨actor, config, r', true⟩ a).exec ls
      = ((LoopTask.machine ρ ⟨actor, config, r, false⟩ a).exec ls).map id := by
    refine Machine.execFrom_map (φ := id) (I := fun t => t.loop.pc.shared = true)
      (C := fun l => l.shared = true) ?_ ?_ rfl ls hls
    · intro t l hpc hl
      rw [Option.map_id]
      exact LoopTask.step_eq (E := ⟨actor, config, r, false⟩) (F := ⟨actor, config, r', true⟩)
        rfl rfl rfl rfl hpc l hl
    · intro t l t' hpc hl hstep
      exact shared_of_task hpc (LoopTask.step_cases hstep) hl
  rw [Option.map_id] at hexec
  constructor
  · intro h
    exact .of_exec (hexec.trans h.exec_eq)
  · intro h
    exact .of_exec (hexec.symm.trans h.exec_eq)

/-- A message, and one that takes too long for the deadline. -/
def overrunning : List (TaskLabel ℕ ℕ) :=
  [.advance, .advance, .receive (.payload ⟨0, .task fun n => .completed (n + 1) none⟩), .advance,
    .receive (.payload ⟨1, .task fun n => .overruns (n + 1)⟩), .advance, .advance]

/-- Both loops call `cancelled` and return the error of the deadline. -/
theorem loops_agree_overrunning :
    ∃ t, (LoopTask.machine ℕ ⟨.provided 0, ⟨some 1, true⟩, .recreateFromDefault, false⟩ 0).Run
        overrunning t
      ∧ (LoopTask.machine ℕ ⟨.provided 0, ⟨some 1, true⟩, .nonRestartable, true⟩ 0).Run
        overrunning t
      ∧ t.loop.pc = .returned (.error (.actor .timeout)) := by
  refine ⟨_, .of_exec rfl, ?_, rfl⟩
  exact (loops_agree _ _ _ _ _ _ (by decide) _).mp (.of_exec rfl)

/-! ## Seen by the clients

Without a restart among the operations none is ever queued, so what the loops take is what they
treat alike. The library's rule for machines that commute with a map, here the identity, does the
run. -/

/-- Nobody asks for a restart, and the stream yields nothing. -/
def Label.shared : Label σ ρ → Prop
  | .begin op => op.payload ≠ .restart
  | .item _ | .streamEnd => False
  | _ => True

namespace World

variable {Q : Type → Type} [AsyncChannel Q] {E F : EventLoop σ} {w : World Q σ ρ} {l : Label σ ρ}

theorem act_eq
    (htask : ∀ tl : TaskLabel σ ρ, tl.shared = true → w.task.step F tl = w.task.step E tl)
    (hqueue : ∀ e ∈ w.queued, e.payload ≠ .restart) (hl : l.shared) : w.act F l = w.act E l := by
  cases l with
  | item f | streamEnd => exact hl.elim
  | poll => simp only [act, htask .advance rfl]
  | lower => simp only [act, htask .lower rfl]
  | fire => simp only [act, htask .fire rfl]
  | dropFuture => simp only [act, htask .drop rfl]
  | dropRx => simp only [act, htask .dropRx rfl]
  | dropCtx => simp only [act, htask .dropCtx rfl]
  | receive =>
    simp only [act, receive]
    cases hq : AsyncChannel.tryRecv w.mailbox with
    | ok p =>
      rcases p with ⟨e, q⟩
      obtain ⟨hqueued, -, -⟩ := AsyncChannel.tryRecv_ok hq
      have hhead : e ∈ w.queued := by
        rw [queued, hqueued]
        exact List.mem_cons_self
      have hshared : (TaskLabel.receive (.payload e)).shared = true := by
        rcases e with ⟨k, f | _ | _⟩
        · rfl
        · rfl
        · exact absurd rfl (hqueue _ hhead)
      simp only [htask _ hshared]
    | error err =>
      cases err with
      | closed => simp only [htask (.receive .closed) rfl]
      | empty => rfl
  | _ => rfl

/-- The loop stays where both loops can stand. -/
theorem shared_of_act {v : World Q σ ρ} (hpc : w.task.loop.pc.shared = true) (h : Act E w l v)
    (hqueue : ∀ e ∈ w.queued, e.payload ≠ .restart) (hl : l.shared) :
    v.task.loop.pc.shared = true := by
  -- the loop has not moved, or was dropped, or was fed something that is no restart
  rcases loop_of_act h with ⟨-, hsame | hdropped⟩ | ⟨i, hs, hfeeds⟩
  · rwa [hsame]
  · rw [hdropped]
    rfl
  · refine shared_of_step hpc hs fun j hj => ?_
    subst hj
    cases hfeeds with
    | payload e hq =>
      have hne : e.payload ≠ .restart := hqueue e (hq ▸ List.mem_cons_self)
      rcases e with ⟨k, f | _ | _⟩
      · rfl
      · rfl
      · exact absurd rfl hne
    | closed => rfl
    | item f | streamEnd => exact hl.elim

/-- **Nor can the clients tell the loops apart**, whatever the mailbox and the order of steps. -/
theorem clients_agree (actor : Actor σ) (config : EventLoopConfig) (r r' : RestartStrategy)
    (capacity : Option ℕ+) (a : σ) (ls : List (Label σ ρ)) (hls : ∀ l ∈ ls, l.shared) :
    (machine Q ρ ⟨actor, config, r', true⟩ capacity a).exec ls
      = (machine Q ρ ⟨actor, config, r, false⟩ capacity a).exec ls := by
  have hexec := Machine.execFrom_map (M := machine Q ρ ⟨actor, config, r, false⟩ capacity a)
    (N := machine Q ρ ⟨actor, config, r', true⟩ capacity a) (φ := id)
    (I := fun w => RequestInv w ∧ (∀ op ∈ w.ops, op.payload ≠ .restart)
      ∧ w.task.loop.pc.shared = true)
    (C := Label.shared) ?_ ?_ (s := init Q ρ capacity a)
      ⟨requestInv_init capacity a, ?_, rfl⟩ ls hls
  · rw [Option.map_id] at hexec
    exact hexec
  -- the step of one world is that of the other
  · rintro w l ⟨hreq, hops, hpc⟩ hl
    rw [Option.map_id]
    show (w.act _ l).map settle = (w.act _ l).map settle
    rw [act_eq (E := ⟨actor, config, r, false⟩) (F := ⟨actor, config, r', true⟩) (w := w) ?_ ?_ hl]
    · intro tl htl
      exact LoopTask.step_eq (E := ⟨actor, config, r, false⟩) (F := ⟨actor, config, r', true⟩)
        rfl rfl rfl rfl hpc tl htl
    · exact hreq.restart_not_queued hops
  · rintro w l w' ⟨hreq, hops, hpc⟩ hl hstep
    refine ⟨requestInv_step hreq hstep, ops_restart_of_step hops hstep ?_, ?_⟩
    · rintro op rfl
      exact hl
    · obtain ⟨v, hact, rfl⟩ := step_cases hstep
      rw [settle_task]
      exact shared_of_act hpc hact (hreq.restart_not_queued hops) hl
  · intro op hop
    simp [init, ops] at hop

end World

end Hannibal
