import Hannibal.Client
import Hannibal.Requests

/-!
# Hannibal.StreamRestart — restart requests and stream-handling actors

Being restartable is a property of the actor type, being attached to a stream one of the spawn; so
`Addr::restart` and `Context::restart` can be called on an actor whose loop is `create_on_stream`,
and that loop panics when it takes their payload.

* **`Undisturbed`** — what such an actor should make of a restart: what `NonRestartable::refresh`
  does.
* **`restart_undisturbed_iff`** — every run is undisturbed, unless it takes a `Restart`.
* **`no_restart_of_begin`** — none is taken if none is asked for.
-/

namespace Hannibal

open Lts Chan
open AsyncChannel (state)

variable {Q : Type → Type} [AsyncChannel Q] {σ ρ : Type}

namespace World

variable {E : EventLoop σ} {w w' v : World Q σ ρ} {l : Label σ ρ}

/-- The loop waits, and what it takes next is a `Restart`. -/
def TakesRestart (w : World Q σ ρ) (l : Label σ ρ) : Prop :=
  l = .receive ∧ w.task.loop.pc = .receiving ∧ ∃ k, w.queued.head? = some ⟨k, .restart⟩

/-- Restarts leave the actor alone. -/
structure Undisturbed (E : EventLoop σ) (capacity : Option ℕ+) (a : σ) (ls : List (Label σ ρ)) :
    Prop where
  /-- the loop panics only inside a call into the actor -/
  no_panic : ∀ v : World Q σ ρ, (machine Q ρ E capacity a).Reaches ls v →
    v.task.loop.pc = .panicked → ∃ c, v.task.loop.trace.getLast? = some (.enter c)
  /-- a `Restart` is taken from the queue, and then `NonRestartable::refresh` -/
  refreshed : ∀ (u : World Q σ ρ) (l : Label σ ρ) (u' : World Q σ ρ) (k : ℕ),
    (machine Q ρ E capacity a).Takes ls u l u' →
    u'.task.loop.trace = u.task.loop.trace ++ [.taken (.restart k)] →
    u'.task.loop = EventLoop.refresh { E with strategy := .nonRestartable }
        (u.task.loop.take (.restart k))
      ∧ u.queued = ⟨k, .restart⟩ :: u'.queued

/-! ## What a restart does

In `create_on_stream` the arm for `Payload::Restart` panics, next to a comment that would have it
ignored. `Addr::restart` needs a `RestartableActor`, which a `StreamHandler` may be as well. -/

/-- **A restart request brings the loop down.** -/
theorem panicked_of_takesRestart (hE : E.onStream = true) (h : w.step E l = some w')
    (htakes : TakesRestart w l) :
    ∃ k, w'.task.loop = (w.task.loop.take (.restart k)).goto .panicked := by
  obtain ⟨rfl, hpc, k, hhead⟩ := htakes
  obtain ⟨v, hact, rfl⟩ := step_cases h
  rw [settle_task]
  cases hact with
  | pop e q t hq ht =>
    obtain ⟨hqueue, -, -⟩ := AsyncChannel.tryRecv_ok hq
    have hqueue : w.queued = e :: (state q).queued := hqueue
    rw [hqueue] at hhead
    cases hhead
    cases ht with
    | receive _ s' hs =>
      -- only `create` has a way on from here
      cases hs with
      | panicRestart => exact ⟨k, rfl⟩
      | takeRestart _ hstream | keepRestart _ hstream => cases hE.symm.trans hstream
  -- a `Restart` is at the head, so the mailbox is not empty
  | closed t hq ht =>
    obtain ⟨hnil, -⟩ := AsyncChannel.tryRecv_closed hq
    have hnil : w.queued = [] := hnil
    rw [hnil] at hhead
    cases hhead
  | silent tl t hl ht => cases hl

theorem takesRestart_of_feeds {s' : LoopState σ ρ} {k : ℕ}
    (h : EventLoop.Step E w.task.loop (some (.payload ⟨k, .restart⟩)) s')
    (hfeeds : Feeds w l (some (.payload ⟨k, .restart⟩)) v) : TakesRestart w l := by
  cases hfeeds with
  | payload _ hqueue => exact ⟨rfl, h.receiving, k, by rw [hqueue]; rfl⟩

/-- A trace that grows by a `Restart` has it from the mailbox. -/
theorem takesRestart_of_trace (h : Act E w l v) {k : ℕ}
    (htrace : v.task.loop.trace = w.task.loop.trace ++ [.taken (.restart k)]) :
    TakesRestart w l := by
  rcases loop_of_act h with ⟨-, hsame | hdropped⟩ | ⟨i, hs, hfeeds⟩
  · simp [hsame] at htrace
  · simp [hdropped] at htrace
  · have hi : i = some (.payload ⟨k, .restart⟩) := by
      generalize v.task.loop = s' at hs htrace
      cases hs <;> simp_all
    subst hi
    exact takesRestart_of_feeds hs hfeeds

/-! ## Where the loop panics

Otherwise a loop that has panicked was in a call: the last event of its trace is its entry. -/

/-- The trace ends with the call the loop is in, or has panicked in, and there is no `refresh`. -/
structure PanicInv (s : LoopState σ ρ) : Prop where
  entered : s.pc.inCall = true ∨ s.pc = .panicked → ∃ c, s.trace.getLast? = some (.enter c)
  no_refresh : s.pc ≠ .refreshStopping

theorem panicInv_init (a : σ) : PanicInv (LoopState.init a : LoopState σ ρ) :=
  ⟨fun h => (by rcases h with h | h <;> cases h), nofun⟩

theorem panicInv_step {s s' : LoopState σ ρ} {i : Option (Input σ ρ)} (hinv : PanicInv s)
    (h : EventLoop.Step E s i s') (hno : ∀ k, i ≠ some (.payload ⟨k, .restart⟩)) : PanicInv s' := by
  obtain ⟨hentered, hrefresh⟩ := hinv
  cases h with
  | panic hpc => exact ⟨fun _ => hentered (.inl hpc), nofun⟩
  | refreshPanic hpc | refreshed hpc => exact absurd hpc hrefresh
  | takeRestart _ _ _ k | keepRestart _ _ _ k | panicRestart _ _ k => exact absurd rfl (hno k)
  | _ => constructor <;> simp_all [Pc.inCall]

theorem panicInv_act (hinv : PanicInv w.task.loop) (h : Act E w l v)
    (hno : ¬ TakesRestart w l) : PanicInv v.task.loop := by
  rcases loop_of_act h with ⟨-, hsame | hdropped⟩ | ⟨i, hs, hfeeds⟩
  · rwa [hsame]
  · rw [hdropped]
    exact ⟨fun h => (by rcases h with h | h <;> cases h), nofun⟩
  · refine panicInv_step hinv hs fun k hi => ?_
    subst hi
    exact hno (takesRestart_of_feeds hs hfeeds)

/-! ## Who asks for a restart

What is queued was asked for by an operation, and without a `restart` there is no `Restart` to
take. -/

/-- A payload in the queue is an operation's. -/
theorem RequestInv.restart_not_queued (hreq : RequestInv w)
    (hops : ∀ op ∈ w.ops, op.payload ≠ .restart) : ∀ e ∈ w.queued, e.payload ≠ .restart := by
  intro e he hrestart
  obtain ⟨op, hop, hpayload⟩ := Option.map_eq_some_iff.mp (hreq.payloads e he)
  exact hops op (List.mem_of_getElem? hop) (hpayload.trans hrestart)

theorem ops_restart_of_step (hops : ∀ op ∈ w.ops, op.payload ≠ .restart)
    (h : w.step E l = some w') (hl : ∀ op, l = .begin op → op.payload ≠ .restart) :
    ∀ op ∈ w'.ops, op.payload ≠ .restart := by
  intro op hop
  obtain ⟨v, hact, rfl⟩ := step_cases h
  rw [settle_ops] at hop
  obtain ⟨g, hg, rfl⟩ := List.mem_map.mp hop
  obtain ⟨i, hi⟩ := List.getElem?_of_mem hg
  rcases flight_of_act hact hi with hold | ⟨f, hf, hmove⟩ | ⟨op', hbegin, rfl⟩
  · exact hops _ (List.mem_map_of_mem (List.mem_of_getElem? hold))
  · have hmem : f.op ∈ w.ops := List.mem_map_of_mem (List.mem_of_getElem? hf)
    have hsame : g.op = f.op := by cases hmove <;> rfl
    exact hsame ▸ hops _ hmem
  · exact hl _ hbegin

/-- **A stream-handling actor that nobody asks to restart is undisturbed.** -/
theorem no_restart_of_begin {capacity : Option ℕ+} {a : σ} {ls : List (Label σ ρ)}
    (h : (machine Q ρ E capacity a).AllSteps ls
      fun _ l _ => ∀ op, l = .begin op → op.payload ≠ .restart) :
    (machine Q ρ E capacity a).AllSteps ls fun u l _ => ¬ TakesRestart u l := by
  intro u l u' htakes
  have hboth : RequestInv u ∧ ∀ op ∈ u.ops, op.payload ≠ .restart := by
    refine htakes.reaches_source.invariant_of_steps
      (I := fun u => RequestInv u ∧ ∀ op ∈ u.ops, op.payload ≠ .restart)
      ⟨requestInv_init capacity a, ?_⟩ ?_ h
    · intro op hop
      simp [machine, init, ops] at hop
    · rintro s l s' ⟨hreq, hops⟩ hstep hbegin
      exact ⟨requestInv_step hreq hstep, ops_restart_of_step hops hstep hbegin⟩
  rintro ⟨-, -, k, hhead⟩
  exact hboth.1.restart_not_queued hboth.2 ⟨k, .restart⟩ (List.mem_of_mem_head? hhead) rfl

/-! ## Every run

One direction reads the panic off the step that takes the `Restart`; the other one is the invariant,
carried along a run no step of which takes one. -/

/-- **A stream-handling actor is undisturbed unless a restart is asked for and comes to it.** For
every actor, every mailbox, every operation of its handles and its `Context` and every interleaving
with the items of the stream: no run panics outside the actor's own code and every `Restart` is
refreshed away, if and only if no step of the run takes a `Restart` from the mailbox. -/
theorem restart_undisturbed_iff (E : EventLoop σ) (hE : E.onStream = true) (capacity : Option ℕ+)
    (a : σ) (ls : List (Label σ ρ)) :
    Undisturbed (Q := Q) E capacity a ls
      ↔ (machine Q ρ E capacity a).AllSteps ls fun u l _ => ¬ TakesRestart u l := by
  constructor
  -- the panic after such a step comes from no call
  · intro hund u l u' htakes hrestart
    have hstep : u.step E l = some u' := by
      obtain ⟨pre, -, -, hstep⟩ := htakes
      exact hstep
    obtain ⟨k, hloop⟩ := panicked_of_takesRestart hE hstep hrestart
    have hpanic : u'.task.loop.pc = .panicked := by rw [hloop]; rfl
    obtain ⟨c, hlast⟩ := hund.no_panic u' htakes.reaches_target hpanic
    rw [hloop] at hlast
    simp at hlast
  · intro hsteps
    refine ⟨fun v hv hpanic => ?_, fun u l u' k htakes htrace => ?_⟩
    · have hinv : PanicInv v.task.loop := by
        refine hv.invariant_of_steps (I := fun v => PanicInv v.task.loop)
          (panicInv_init a) ?_ hsteps
        intro s l s' hinv hstep hno
        obtain ⟨x, hact, rfl⟩ := step_cases hstep
        rw [settle_task]
        exact panicInv_act hinv hact hno
      exact hinv.entered (.inr hpanic)
    · -- such a step takes a `Restart`
      have hno := hsteps u l u' htakes
      obtain ⟨pre, -, -, hstep⟩ := htakes
      obtain ⟨x, hact, rfl⟩ := step_cases hstep
      rw [settle_task] at htrace
      exact absurd (takesRestart_of_trace hact htrace) hno

/-- An actor on a stream, as `spawn_on_stream` sets it up. -/
def streamActor : EventLoop ℕ := { EventLoop.fromChannel (.provided 0) with onStream := true }

/-- The actor waits, and has a message, when somebody restarts it. -/
def restartedRun : List (Label ℕ ℕ) :=
  [.poll, .poll, .begin Addr.restart, .advance 0, .advance 0,
    .begin (Addr.send fun n => .completed (n + 1) none), .advance 1, .advance 1, .receive]

theorem restart_undisturbed_restarted :
    Undisturbed (Q := ChannelState) streamActor none 0 restartedRun
      ↔ (machine ChannelState ℕ streamActor none 0).AllSteps restartedRun
          fun u l _ => ¬ TakesRestart u l :=
  restart_undisturbed_iff _ rfl _ _ _

/-- The restart returns `Ok`, and the loop panics with the message unhandled. -/
theorem restarted_panics :
    ∃ v : World ChannelState ℕ ℕ,
      (machine ChannelState ℕ streamActor none 0).Run restartedRun v
        ∧ v.flights.map Flight.stage = [.returned (.ok none), .returned (.ok none)]
        ∧ v.task.loop.pc = .panicked ∧ v.queued.map Envelope.client = [1]
        ∧ ¬ Undisturbed (Q := ChannelState) streamActor none 0 restartedRun := by
  refine ⟨_, .of_exec rfl, rfl, rfl, rfl, fun hund => ?_⟩
  obtain ⟨c, hlast⟩ := hund.no_panic _ (Machine.Run.of_exec rfl).reaches rfl
  cases hlast

end World

end Hannibal
