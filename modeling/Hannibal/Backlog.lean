import Hannibal.World

/-!
# Hannibal.Backlog — an actor that takes its messages late

Executions of the channel's own model in which the mailbox fills up, whatever its capacity, and a
sender has to wait until the loop pops a message.

* **`Backlog.actor`** — the state: one handle keeps the mailbox open, and the last operation begun
  is the one that moves.
* **`begins`**, **`upgrades`**, **`passes`**, **`enqueues`**, **`blocks`**, **`moves`**, **`pops`**
  — what its steps come to.
* **`filled`** — clients can fill the mailbox before the loop future is first polled.
-/

namespace Hannibal

open Lts Chan
open AsyncChannel (state)

variable {σ ρ : Type}

namespace Backlog

/-- An actor with a bounded mailbox, whose handle keeps it open. -/
def actor (c : ℕ+) (task : LoopTask σ ρ)
    (queued : List (Envelope σ ρ)) (flights : List (Flight σ ρ))
    (accepted popped : List (Envelope σ ρ)) : World ChannelState σ ρ :=
  ⟨⟨some c, queued, false⟩, 1, task, flights, accepted, popped, []⟩

variable {E : EventLoop σ} {c : ℕ+} {task t : LoopTask σ ρ}
  {queued accepted popped : List (Envelope σ ρ)} {flights : List (Flight σ ρ)}
  {op : Operation σ ρ}

theorem settle_actor : (actor c task queued flights accepted popped).settle
    = actor c task queued flights accepted popped := by
  simp [World.settle, World.hasSender, actor]

theorem begins (hop : op.via ≠ .context) :
    (actor c task queued flights accepted popped).step E (.begin op)
      = some (actor c task queued (flights ++ [⟨op, op.first⟩]) accepted popped) := by
  have hoffers : (actor c task queued flights accepted popped).offers op.via = true := by
    cases hvia : op.via <;> simp_all [World.offers, actor]
  simp only [World.step, World.act, hoffers, if_true, Option.map_some]
  exact congrArg some settle_actor

/-- A step that only moves the operation begun last. -/
theorem advances {st st' : Stage ρ}
    (h : (actor c task queued (flights ++ [⟨op, st⟩]) accepted popped).advance flights.length
      = some ((actor c task queued (flights ++ [⟨op, st⟩]) accepted popped).setStage
        flights.length st')) :
    (actor c task queued (flights ++ [⟨op, st⟩]) accepted popped).step E (.advance flights.length)
      = some (actor c task queued (flights ++ [⟨op, st'⟩]) accepted popped) := by
  rw [World.step, World.act, h]
  simp only [World.setStage, actor, Table.modify_snoc_self, Option.map_some]
  exact congrArg some settle_actor

theorem upgrades :
    (actor c task queued (flights ++ [⟨op, .upgrading⟩]) accepted popped).step E
        (.advance flights.length)
      = some (actor c task queued (flights ++ [⟨op, op.entry⟩]) accepted popped) := by
  refine advances ?_
  simp [World.advance, actor, World.upgradable, World.closed, World.hasSender, state]

theorem passes (hrun : task.running = true) :
    (actor c task queued (flights ++ [⟨op, .checking⟩]) accepted popped).step E
        (.advance flights.length)
      = some (actor c task queued (flights ++ [⟨op, .enqueuing⟩]) accepted popped) := by
  refine advances ?_
  simp [World.advance, actor, hrun]

/-- There is room for the payload. -/
theorem enqueues (hprim : op.primitive ≠ .forceSend) (hawaits : op.awaits = false)
    (hroom : queued.length < c) :
    (actor c task queued (flights ++ [⟨op, .enqueuing⟩]) accepted popped).step E
        (.advance flights.length)
      = some (actor c task (queued ++ [⟨flights.length, op.payload⟩])
        (flights ++ [⟨op, .returned (.ok none)⟩])
        (accepted ++ [⟨flights.length, op.payload⟩]) popped) := by
  have hsend : AsyncChannel.trySend (⟨some c, queued, false⟩ : ChannelState (Envelope σ ρ))
      ⟨flights.length, op.payload⟩
        = .ok ⟨some c, queued ++ [⟨flights.length, op.payload⟩], false⟩ := by
    simp [AsyncChannel.trySend, ChannelState.trySend, ChannelState.full, ChannelState.push, hroom]
  have henq : op.primitive.enqueue (⟨some c, queued, false⟩ : ChannelState (Envelope σ ρ))
      ⟨flights.length, op.payload⟩
        = some (.ok (none, ⟨some c, queued ++ [⟨flights.length, op.payload⟩], false⟩)) := by
    -- with room left `send` and `try_send` do the same
    cases hp : op.primitive with
    | send => simp [Primitive.enqueue, hsend]
    | trySend => simp [Primitive.enqueue, hsend]
    | forceSend => exact absurd hp hprim
  simp only [World.step, World.act, World.advance, actor, List.getElem?_concat_length, henq,
    World.accept, World.evict, World.setStage, Table.modify_snoc_self, Operation.afterAccept,
    hawaits, Option.map_some]
  exact congrArg some settle_actor

/-- There is none. -/
theorem blocks (hprim : op.primitive = .send) (hfull : c ≤ queued.length) :
    (actor c task queued (flights ++ [⟨op, .enqueuing⟩]) accepted popped).step E
      (.advance flights.length) = none := by
  have hsend : AsyncChannel.trySend (⟨some c, queued, false⟩ : ChannelState (Envelope σ ρ))
      ⟨flights.length, op.payload⟩ = .error .full := by
    simp [AsyncChannel.trySend, ChannelState.trySend, ChannelState.full, hfull]
  simp [World.step, World.act, World.advance, actor, hprim, Primitive.enqueue, hsend]

/-- The loop moves on by itself, outside of a task. -/
theorem moves (ht : task.step E .advance = some t) (hreply : task.loop.reply = none) :
    (actor c task queued flights accepted popped).step E .poll
      = some (actor c t queued flights accepted popped) := by
  have ht' : (actor c task queued flights accepted popped).task.step E .advance = some t := ht
  have hreply' : (actor c task queued flights accepted popped).task.loop.reply = none := hreply
  simp only [World.step, World.act, ht', hreply', Option.map_some, World.answer]
  exact congrArg some settle_actor

/-- A loop that receives takes whatever it is sent. -/
theorem exists_receive (hpc : task.loop.pc = .receiving) (e : Envelope σ ρ) :
    ∃ t, task.step E (.receive (.payload e)) = some t := by
  obtain ⟨s, hs⟩ := E.exists_step_payload hpc e
  exact ⟨{ task with loop := s }, by simp [LoopTask.step, hs]⟩

/-- The loop pops the oldest message. -/
theorem pops {e : Envelope σ ρ} (ht : task.step E (.receive (.payload e)) = some t) :
    (actor c task (e :: queued) flights accepted popped).step E .receive
      = some (actor c t queued flights accepted (popped ++ [e])) := by
  have hrecv : AsyncChannel.tryRecv (⟨some c, e :: queued, false⟩ : ChannelState (Envelope σ ρ))
      = .ok (e, ⟨some c, queued, false⟩) := rfl
  simp only [World.step, World.act, World.receive, actor, hrecv, ht, Option.map_some]
  exact congrArg some settle_actor

/-- Before the loop future is first polled, its clients can hand over `k` messages. -/
theorem filled (E : EventLoop σ) (c : ℕ+) (a : σ) (f : TaskFn σ ρ) {k : ℕ} (hk : k ≤ c) :
    ∃ ls queued flights accepted, (World.machine ChannelState ρ E (some c) a).Run ls
        (actor c (.init a) queued flights accepted [])
      ∧ queued.length = k ∧ ∀ e ∈ accepted, e.client < flights.length := by
  -- on the number of messages: the clients take turns, each as far as its message is in
  induction k with
  | zero => exact ⟨[], [], [], [], .start, rfl, nofun⟩
  | succ k ih =>
    obtain ⟨ls, queued, flights, accepted, hrun, hlen, hold⟩ := ih (Nat.le_of_succ_le hk)
    have hbegun :=
      hrun.snoc (begins (by simp [Addr.trySend] : (Addr.trySend f : Operation σ ρ).via ≠ .context))
    have hpassed := hbegun.snoc (passes rfl)
    have hsent := hpassed.snoc (enqueues (by simp [Addr.trySend]) rfl (by omega))
    refine ⟨_, _, _, _, hsent, by simp [hlen], fun e he => ?_⟩
    rw [List.length_append, List.length_singleton]
    rcases List.mem_append.mp he with he | he
    · exact Nat.lt_succ_of_lt (hold e he)
    · rw [List.mem_singleton.mp he]
      exact Nat.lt_succ_self _

end Backlog

end Hannibal
