import Hannibal.Requests

/-!
# Hannibal.Serving — a loop that goes on serving its mailbox

A request that an unbounded mailbox has accepted is answered, unless the loop ends before it gets
there. It does not as long as every call it enters returns normally, nobody drops its future, and no
`Stop` is ahead of the request. This module follows one ping (`addr.rs`) through such a loop.

* **`EventLoop.fine`** — the loop is on, and the call it is in returns normally.
* **`World.misbehaves`** — the steps that end this.
* **`Serving`**, **`serving_step`** — the invariant of loop and mailbox.
* **`PingInv`**, **`pingInv_step`** — so the ping is not refused and not canceled.
* **`toGo_step`** — and the loop comes nearer to it with each of its steps.
-/

namespace Hannibal

open Lts Chan
open AsyncChannel (state)

variable {Q : Type → Type} {σ ρ : Type}

def TaskEnd.completes : TaskEnd σ ρ → Bool
  | .completed _ _ => true
  | .overruns _ | .panicked => false

/-- How often the loop moves by itself until it takes the next payload. -/
def Pc.rank : Pc σ ρ → ℕ
  | .unpolled | .refreshStopping => 2
  | .starting | .running _ _ | .refreshStarting => 1
  | _ => 0

namespace EventLoop

/-- `started` returns `Ok(())`. -/
def startsOk (E : EventLoop σ) (clock : ℕ) (a : σ) : Bool :=
  match E.actor.started clock a with
  | .returned (_, .ok ()) => true
  | _ => false

/-- `R::refresh` returns `Ok(actor)`. -/
def refreshesOk (E : EventLoop σ) (clock : ℕ) (a : σ) : Bool :=
  match E.actor.stopped clock a with
  | .panicked | .pends => false
  | .returned b =>
    match E.refreshedActor (clock + 1) b with
    | none => false
    | some c => E.startsOk (clock + 1) c

/-- The calls a payload leads to return normally. -/
def returnsOk (E : EventLoop σ) (s : LoopState σ ρ) : Payload σ ρ → Bool
  | .task f => (f s.actor).completes
  | .restart => decide (E.strategy = .nonRestartable) || E.refreshesOk s.clock s.actor
  | .stop =>
    match E.actor.stopped s.clock s.actor with
    | .returned _ => true
    | .panicked | .pends => false

/-- The loop is on, and the call it is in, if any, returns normally. -/
def fine (E : EventLoop σ) (s : LoopState σ ρ) : Bool :=
  match s.pc with
  | .unpolled | .receiving => true
  | .starting | .refreshStarting => E.startsOk s.clock s.actor
  | .running _ f => (f s.actor).completes
  | .refreshStopping => E.refreshesOk s.clock s.actor
  | _ => false

variable {E : EventLoop σ} {s s' : LoopState σ ρ}

/-- Such a loop is nowhere near its end. -/
theorem not_ended_of_fine (h : E.fine s = true) : s.pc.ended = false ∧ s.pc.atNotify = false := by
  unfold fine at h
  cases hpc : s.pc <;> simp_all [Pc.ended, Pc.atNotify]

theorem afterStarted_fine (h : E.startsOk s.clock s.actor = true) :
    ∃ t, E.afterStarted s = some t ∧ t.pc = .receiving := by
  unfold startsOk at h
  unfold afterStarted
  split at h
  · next a hend => exact ⟨_, by rw [hend], rfl⟩
  · cases h

theorem afterTask_fine {c : Call} {f : TaskFn σ ρ} (h : (f s.actor).completes = true) :
    ∃ t, E.afterTask s c f = some t ∧ t.pc = .receiving := by
  unfold afterTask
  cases hfut : f s.actor with
  | completed a r => exact ⟨_, rfl, rfl⟩
  | overruns a => rw [hfut] at h; cases h
  | panicked => rw [hfut] at h; cases h

theorem refreshStopped_fine (h : E.refreshesOk s.clock s.actor = true) :
    ∃ t, E.refreshStopped s = some t ∧ t.pc = .refreshStarting ∧ E.fine t = true := by
  unfold refreshesOk at h
  unfold refreshStopped
  cases hstopped : E.actor.stopped s.clock s.actor with
  | panicked | pends =>
    rw [hstopped] at h
    cases h
  | returned b =>
    simp only [hstopped, refreshedActor] at h ⊢
    cases hstrategy : E.strategy with
    | nonRestartable | restartOnly =>
      rw [hstrategy] at h
      exact ⟨_, rfl, rfl, h⟩
    | recreateFromDefault =>
      simp only [hstrategy, LoopState.leave_clock] at h ⊢
      cases hdefault : E.actor.default (s.clock + 1) with
      | panicked | pends => simp [hdefault] at h
      | returned d =>
        simp only [hdefault] at h ⊢
        exact ⟨_, rfl, rfl, h⟩

/-- Left alone, such a loop moves on to where it takes the next payload. -/
theorem fine_poll (hstream : E.onStream = false) (hfine : E.fine s = true)
    (hstart : s.pc = .unpolled → E.startsOk s.clock s.actor = true) (hpc : s.pc ≠ .receiving) :
    ∃ t, E.step s none = some t ∧ E.fine t = true ∧ t.pc.rank + 1 = s.pc.rank := by
  have hcreate : E.step s none = E.create s none := by simp [step, hstream]
  rw [hcreate]
  unfold create
  unfold fine at hfine
  cases hs : s.pc with
  | unpolled => exact ⟨_, rfl, hstart hs, rfl⟩
  | starting =>
    simp only [hs] at hfine
    obtain ⟨t, ht, hnext⟩ := afterStarted_fine hfine
    exact ⟨t, ht, by simp [fine, hnext], by simp [hnext, Pc.rank]⟩
  | refreshStarting =>
    simp only [hs] at hfine
    obtain ⟨t, ht, hnext⟩ := afterStarted_fine hfine
    exact ⟨t, ht, by simp [fine, hnext], by simp [hnext, Pc.rank]⟩
  | running c f =>
    simp only [hs] at hfine
    obtain ⟨t, ht, hnext⟩ := afterTask_fine (E := E) (c := c) hfine
    exact ⟨t, ht, by simp [fine, hnext], by simp [hnext, Pc.rank]⟩
  | refreshStopping =>
    simp only [hs] at hfine
    obtain ⟨t, ht, hnext, hfine'⟩ := refreshStopped_fine hfine
    exact ⟨t, ht, hfine', by simp [hnext, Pc.rank]⟩
  | receiving => exact absurd hs hpc
  | _ => simp [hs] at hfine

/-- It takes any payload, and a payload that is no `Stop` keeps it on. -/
theorem fine_receive (hstream : E.onStream = false) (hpc : s.pc = .receiving) (e : Envelope σ ρ) :
    ∃ t, E.step s (some (.payload e)) = some t ∧ (e.payload.isStop = false →
      E.returnsOk s e.payload = true → E.fine t = true ∧ t.pc.rank ≤ 2) := by
  have hcreate : E.step s (some (.payload e)) = E.create s (some (.payload e)) := by
    simp [step, hstream]
  rw [hcreate]
  unfold create
  rcases e with ⟨k, payload⟩
  cases payload with
  -- only a `Stop` leaves the loop
  | stop =>
    refine ⟨(s.take (.stop k)).call (.hook .stopped) .stopping, by simp [hpc], fun hnot => ?_⟩
    cases hnot
  | task f =>
    refine ⟨(s.take (.task k)).call (.task k) (.running (.task k) f),
      by simp [hpc], fun _ hok => ?_⟩
    exact ⟨hok, by simp [Pc.rank]⟩
  -- a restart runs the hooks again, so they have to end well
  | restart =>
    refine ⟨E.refresh (s.take (.restart k)), by simp [hpc], fun _ hok => ?_⟩
    unfold refresh
    cases hstrategy : E.strategy with
    | nonRestartable => simp [fine, hpc, Pc.rank]
    | restartOnly | recreateFromDefault =>
      simpa [fine, Pc.rank, returnsOk, hstrategy] using hok

end EventLoop

/-- How far an operation that awaits a response has come: it is not accepted yet, it is, it has been
told how it ended. -/
def Stage.phase : Stage ρ → ℕ
  | .upgrading | .checking | .enqueuing => 0
  | .waiting .pending => 1
  | _ => 2

theorem Stage.phase_le (st : Stage ρ) : st.phase ≤ 2 := by
  unfold phase
  split <;> decide

/-- The stages of a ping that is neither refused nor canceled. -/
def Stage.onTrack : Stage ρ → Bool
  | .checking | .enqueuing | .waiting .pending | .waiting (.ok _) | .returned (.ok _) => true
  | _ => false

namespace World

/-- The steps with which the loop enters a call that does not return normally, or is dropped. -/
def misbehaves (E : EventLoop σ) [AsyncChannel Q] (w : World Q σ ρ) : Label σ ρ → Bool
  | .poll =>
    match w.task.loop.pc with
    | .unpolled => !E.startsOk w.task.loop.clock w.task.loop.actor
    | _ => false
  | .receive => w.queued.head?.any fun e => !E.returnsOk w.task.loop e.payload
  | .dropFuture => true
  | _ => false

/-- A `Stop` is about to be put into the mailbox. -/
def stops (w : World Q σ ρ) : Label σ ρ → Bool
  | .advance i =>
    match w.flights[i]? with
    | some ⟨op, .enqueuing⟩ => op.payload.isStop
    | _ => false
  | _ => false

variable [AsyncChannel Q]

/-- What the loop pops before the payload of operation `i`. -/
def ahead (w : World Q σ ρ) (i : ℕ) : List (Envelope σ ρ) :=
  w.queued.takeWhile fun e => decide (e.client ≠ i)

/-- The loop is on, and its mailbox is open and never full. -/
structure Serving (E : EventLoop σ) (w : World Q σ ρ) : Prop where
  request : RequestInv w
  task : w.task.Inv
  unbounded : (state w.mailbox).capacity = none
  isOpen : w.closed = false
  fine : E.fine w.task.loop = true

variable {E : EventLoop σ} {w v w' : World Q σ ρ} {l : Label σ ρ}

theorem serving_init (a : σ) : Serving E (init Q ρ none a) where
  request := requestInv_init none a
  task := LoopTask.inv_init a
  unbounded := by simp [init, ChannelState.fresh]
  isOpen := by simp [closed, init, ChannelState.fresh]
  fine := rfl

/-- The flag is still up. -/
theorem Serving.running (hs : Serving E w) : w.task.running = true := by
  obtain ⟨hend, hat⟩ := EventLoop.not_ended_of_fine hs.fine
  by_contra hdown
  have hlow := hs.task.lowered (by simpa using hdown)
  simp [hend, hat] at hlow

theorem Serving.not_full (hs : Serving E w) : w.full = false :=
  ChannelState.full_of_unbounded hs.unbounded

theorem poll_eq (h : step E w .poll = some w') :
    ∃ t, E.step w.task.loop none = some t
      ∧ w' = ((w.withTask { w.task with loop := t }).answer w.task.loop.reply).settle := by
  obtain ⟨v, hv, rfl⟩ := Option.map_eq_some_iff.mp h
  obtain ⟨t, ht, rfl⟩ := Option.map_eq_some_iff.mp hv
  simp only [LoopTask.step] at ht
  split at ht
  · cases ht
  · obtain ⟨s, hs, rfl⟩ := Option.map_eq_some_iff.mp ht
    exact ⟨s, hs, rfl⟩

/-- The loop only takes a payload where it waits for one. -/
theorem receive_eq (hopen : w.closed = false) (h : step E w .receive = some w') :
    ∃ e q t, AsyncChannel.tryRecv w.mailbox = .ok (e, q)
      ∧ E.step w.task.loop (some (.payload e)) = some t
      ∧ w' = World.settle { w with
          task := { w.task with loop := t }, mailbox := q, popped := w.popped ++ [e] } := by
  obtain ⟨v, hv, rfl⟩ := Option.map_eq_some_iff.mp h
  simp only [act, receive] at hv
  split at hv
  · next e q hq =>
    obtain ⟨t, ht, rfl⟩ := Option.map_eq_some_iff.mp hv
    obtain ⟨s, hs, rfl⟩ := Option.map_eq_some_iff.mp ht
    exact ⟨e, q, s, hq, hs, rfl⟩
  · next hq =>
    have hclosed : w.closed = true := (AsyncChannel.tryRecv_closed hq).2
    simp [hopen] at hclosed
  · cases hv

/-- Nobody but the loop itself moves a loop that is on. -/
theorem task_of_other (hstream : E.onStream = false) (hfine : E.fine w.task.loop = true)
    (h : Act E w l v) (hpoll : l ≠ .poll) (hreceive : l ≠ .receive) (hdrop : l ≠ .dropFuture) :
    v.task = w.task := by
  obtain ⟨hend, hat⟩ := EventLoop.not_ended_of_fine hfine
  cases h with
  | poll t ht => exact absurd rfl hpoll
  | pop e q t hq ht => exact absurd rfl hreceive
  | closed t hq ht => exact absurd rfl hreceive
  | dropFuture t ht => exact absurd rfl hdrop
  | dropRx t ht => cases ht; simp_all
  -- the notifier and the receiver only go once the loop has ended
  | silent l tl hl t ht =>
    cases ht with
    | advance s' hs hnotify => cases l <;> cases hl
    | drop hend' hnotify => cases l <;> cases hl
    | receive i s' hs => cases l <;> cases hl <;> cases hs <;> simp_all
    | _ => simp_all
  | accepted i op hf evicted q henq => exact accept_task ..
  | _ => rfl

/-- Only the receiver's end closes it. -/
theorem open_of_act (hrx : w.task.loop.pc.ended = false) (hopen : w.closed = false)
    (h : Act E w l v) : v.closed = false := by
  cases h with
  | accepted i op hf evicted q henq =>
    obtain ⟨hopen, ⟨-, hstate, -⟩ | ⟨-, -, -, hstate⟩⟩ := enqueue_ok henq <;>
      simpa [closed, hstate] using hopen
  | pop e q t hq ht => exact (AsyncChannel.tryRecv_ok hq).2.1.trans hopen
  | poll t ht => simpa [closed] using hopen
  | dropFuture t ht => simpa [closed] using hopen
  | dropRx t ht => cases ht; simp_all
  | _ => exact hopen

/-- A loop that is on moves on by itself, nearer to the next payload. -/
theorem fine_of_poll (hstream : E.onStream = false) (hfine : E.fine w.task.loop = true)
    (h : step E w .poll = some w') (hok : w.misbehaves E .poll = false) :
    ∃ t, EventLoop.Step E w.task.loop none t ∧ E.fine t = true ∧ t.pc.rank + 1 = w.task.loop.pc.rank
      ∧ w' = ((w.withTask { w.task with loop := t }).answer w.task.loop.reply).settle := by
  obtain ⟨t, ht, hw⟩ := poll_eq h
  have hpc : w.task.loop.pc ≠ .receiving := by
    intro hpc
    simp [EventLoop.step, hstream, EventLoop.create, hpc] at ht
  have hstart : w.task.loop.pc = .unpolled →
      E.startsOk w.task.loop.clock w.task.loop.actor = true := by
    intro hpc
    simpa [misbehaves, hpc] using hok
  obtain ⟨t', ht', hfine', hrank⟩ := EventLoop.fine_poll hstream hfine hstart hpc
  rw [ht] at ht'
  cases ht'
  exact ⟨t, EventLoop.step_cases ht, hfine', hrank, hw⟩

/-- The loop of a fine step: its own step, or none. -/
theorem fine_step (hstream : E.onStream = false) (hs : Serving E w) (h : step E w l = some w')
    (hok : w.misbehaves E l = false)
    (hstop : l = .receive → ∀ e ∈ w.queued.head?, e.payload.isStop = false) :
    E.fine w'.task.loop = true := by
  by_cases hpoll : l = .poll
  · subst hpoll
    obtain ⟨t, -, hfine, -, rfl⟩ := fine_of_poll hstream hs.fine h hok
    simpa using hfine
  by_cases hreceive : l = .receive
  · subst hreceive
    obtain ⟨e, q, t, hq, ht, rfl⟩ := receive_eq hs.isOpen h
    have hpc := (EventLoop.step_cases ht).receiving
    have hhead : w.queued.head? = some e := by
      simp [queued, (AsyncChannel.tryRecv_ok hq).1]
    obtain ⟨t', ht', hfine⟩ := EventLoop.fine_receive hstream hpc e
    rw [ht] at ht'
    cases ht'
    rw [settle_task]
    exact (hfine (hstop rfl e hhead) (by simpa [misbehaves, hhead] using hok)).1
  · obtain ⟨v, hact, rfl⟩ := step_cases h
    have hdrop : l ≠ .dropFuture := by
      rintro rfl
      simp [misbehaves] at hok
    rw [settle_task, task_of_other hstream hs.fine hact hpoll hreceive hdrop]
    exact hs.fine

/-- **The step lemma.** While somebody holds a sender, the loop goes on serving. -/
theorem serving_step (hstream : E.onStream = false) (hs : Serving E w)
    (h : step E w l = some w') (hok : w.misbehaves E l = false)
    (hstop : l = .receive → ∀ e ∈ w.queued.head?, e.payload.isStop = false)
    (hpos : 0 < w'.handles) : Serving E w' := by
  have hfine := fine_step hstream hs h hok hstop
  refine ⟨requestInv_step hs.request h, taskInv_step hs.task h, ?_, ?_, hfine⟩
  · obtain ⟨v, hact, rfl⟩ := step_cases h
    rw [settle_capacity, capacity_of_act hact]
    exact hs.unbounded
  · obtain ⟨v, hact, rfl⟩ := step_cases h
    have hsender : v.hasSender = true := by
      have hpos : 0 < v.handles := by simpa using hpos
      simp [hasSender, hpos]
    rw [settle_closed, hsender, open_of_act (EventLoop.not_ended_of_fine hs.fine).1 hs.isOpen hact]
    rfl

/-! ## The ping

`Addr::ping` checks the flag, sends a task whose closure answers at once, and awaits the oneshot.
While the loop goes on serving, the flag is raised, the mailbox is open and, being unbounded, never
full, so the ping passes every stage; what is left is that the loop gets to it. -/

/-- A fine loop answers what it leaves. -/
theorem reply_of_fine {s : LoopState σ ρ} (hfine : E.fine s = true) {k : ℕ} {reply : Reply ρ}
    (h : s.reply = some (k, reply)) : ∃ r, reply = .ok r := by
  unfold LoopState.reply at h
  unfold EventLoop.fine at hfine
  split at h
  · next j f hpc =>
    simp only [hpc] at hfine
    cases hfut : f s.actor with
    | completed a r =>
      simp only [hfut, Option.some.injEq, Prod.mk.injEq] at h
      exact ⟨r, h.2.symm⟩
    | overruns a => simp [hfut, TaskEnd.completes] at hfine
    | panicked => simp [hfut, TaskEnd.completes] at hfine
  · cases h

omit [AsyncChannel Q] in
/-- A stage is set: the ping's, which stays on its track, or another operation's. -/
theorem ping_setStage {i j : ℕ} {op : Operation σ ρ} {st s s' : Stage ρ}
    (hf : w.flights[i]? = some ⟨Addr.ping, st⟩) (hst : st.onTrack = true)
    (hj : w.flights[j]? = some ⟨op, s⟩)
    (htrack : j = i → op = Addr.ping → s = st → s'.onTrack = true) :
    ∃ st', (w.setStage j s').flights[i]? = some ⟨Addr.ping, st'⟩ ∧ st'.onTrack = true := by
  by_cases hji : j = i
  · subst hji
    rw [hf] at hj
    cases hj
    exact ⟨s', Table.getElem?_modify_self hf, htrack rfl rfl rfl⟩
  · exact ⟨st, (Table.getElem?_modify_of_ne hji).trans hf, hst⟩

omit [AsyncChannel Q] in
/-- A reply resolves a ping that is waiting, or another operation. -/
theorem ping_resolve {i k : ℕ} {st : Stage ρ} {reply : Reply ρ}
    (hf : w.flights[i]? = some ⟨Addr.ping, st⟩) (hst : st.onTrack = true)
    (hok : st = .waiting .pending → k = i → ∃ r, reply = .ok r) :
    ∃ st', (w.flights.modify k (Flight.resolve reply))[i]? = some ⟨Addr.ping, st'⟩
      ∧ st'.onTrack = true := by
  by_cases hki : k = i
  · subst hki
    rw [Table.getElem?_modify_self hf]
    by_cases hpending : st = .waiting .pending
    -- it was waiting for this reply
    · obtain ⟨r, rfl⟩ := hok hpending rfl
      exact ⟨.waiting (.ok r), by rw [hpending]; rfl, rfl⟩
    · refine ⟨st, ?_, hst⟩
      unfold Flight.resolve
      split
      · next hst' => exact absurd hst' hpending
      · rfl
  · exact ⟨st, (Table.getElem?_modify_of_ne hki).trans hf, hst⟩

omit [AsyncChannel Q] in
/-- What the loop answers is a ping that is awaited, or another operation. -/
theorem ping_answer {i : ℕ} {st : Stage ρ} {t : LoopTask σ ρ} {o : Option (ℕ × Reply ρ)}
    (hf : w.flights[i]? = some ⟨Addr.ping, st⟩) (hst : st.onTrack = true)
    (ho : st = .waiting .pending → ∀ reply, o = some (i, reply) → ∃ r, reply = .ok r) :
    ∃ st', ((w.withTask t).answer o).flights[i]? = some ⟨Addr.ping, st'⟩
      ∧ st'.onTrack = true := by
  have hresolve : ∀ k reply, o = some (k, reply) →
      ∃ st', (w.flights.modify k (Flight.resolve reply))[i]? = some ⟨Addr.ping, st'⟩
        ∧ st'.onTrack = true := by
    intro k reply hk
    refine ping_resolve hf hst fun hpending hki => ?_
    subst hki
    exact ho hpending reply hk
  rcases o with _ | ⟨k, _ | r | _⟩
  · exact ⟨st, hf, hst⟩
  · exact hresolve k _ rfl
  · exact hresolve k _ rfl
  · exact hresolve k _ rfl

/-- **A ping is neither refused nor canceled**, as long as the loop goes on serving until it is
answered. -/
theorem ping_act {i : ℕ} {st : Stage ρ} (hcap : (state w.mailbox).capacity = none)
    (hs : st.phase < 2 → Serving E w ∧ l ≠ .dropFuture) (h : Act E w l v)
    (hf : w.flights[i]? = some ⟨Addr.ping, st⟩) (hst : st.onTrack = true)
    (habandon : l ≠ .abandon i) :
    ∃ st', v.flights[i]? = some ⟨Addr.ping, st'⟩ ∧ st'.onTrack = true := by
  have hsame : ∃ st', w.flights[i]? = some ⟨Addr.ping, st'⟩ ∧ st'.onTrack = true := ⟨st, hf, hst⟩
  cases h with
  | begin op hvia => exact ⟨st, Table.getElem?_snoc_of_some hf, hst⟩
  | upgraded j op hj hup =>
    exact ping_setStage hf hst hj fun _ _ hs => by rw [← hs] at hst; cases hst
  | dropped j op hj hup =>
    exact ping_setStage hf hst hj fun _ _ hs => by rw [← hs] at hst; cases hst
  | canceled j op hj => exact ping_setStage hf hst hj fun _ _ hs => by rw [← hs] at hst; cases hst
  | passed j op hj hrun => exact ping_setStage hf hst hj fun _ _ _ => rfl
  | answered j op r hj => exact ping_setStage hf hst hj fun _ _ _ => rfl
  -- the flag is raised while the loop serves
  | stopped j op hj hrun =>
    refine ping_setStage hf hst hj fun _ _ hchecking => ?_
    have hup := (hs (by simp [← hchecking, Stage.phase])).1.running
    simp [hup] at hrun
  -- the mailbox is open and has room
  | refused j op hj henq =>
    refine ping_setStage hf hst hj fun _ _ henqueuing => ?_
    have hserving := (hs (by simp [← henqueuing, Stage.phase])).1
    have hno : w.closed = true ∨ w.full = true := (enqueue_error henq).imp_right And.right
    simp [hserving.isOpen, hserving.not_full] at hno
  | accepted j op hj evicted q henq =>
    obtain ⟨-, ⟨rfl, -, -⟩ | ⟨-, hfull, -, -⟩⟩ := enqueue_ok henq
    · refine ping_setStage hf hst hj fun _ hop _ => ?_
      rw [hop]
      rfl
    · simp [ChannelState.full_of_unbounded hcap] at hfull
  | abandon j f hj hab => exact ping_setStage hf hst hj fun hji => absurd (hji ▸ rfl) habandon
  | poll t ht =>
    refine ping_answer hf hst fun hpending reply hreply => ?_
    exact reply_of_fine (hs (by simp [hpending, Stage.phase])).1.fine hreply
  | dropFuture t ht =>
    refine ping_answer hf hst fun hpending => ?_
    exact absurd rfl (hs (by simp [hpending, Stage.phase])).2
  | _ => exact hsame

/-! ## Progress

The ping is queued behind finitely many requests. A step of the loop takes one of them or brings
the current call to its end, and no other step puts a request ahead of the ping: its distance, three
steps for each request ahead and the rank of the program counter, only falls. -/

theorem phase_resolve (reply : Reply ρ) (f : Flight σ ρ) :
    f.stage.phase ≤ (f.resolve reply).stage.phase := by
  unfold Flight.resolve
  split
  · next hst => cases reply <;> simp [hst, Stage.phase]
  · exact le_rfl

/-- An operation never goes back. -/
theorem phase_act {i : ℕ} {f : Flight σ ρ} (h : Act E w l v) (hf : w.flights[i]? = some f) :
    ∃ g, v.flights[i]? = some g ∧ f.stage.phase ≤ g.stage.phase := by
  obtain ⟨g, hg, hop⟩ := Option.map_eq_some_iff.mp
    ((List.getElem?_map ..).symm.trans (op_of_act h (by rw [ops, List.getElem?_map, hf]; rfl)))
  refine ⟨g, hg, ?_⟩
  rcases flight_of_act h hg with hsame | ⟨f', hf', hmove⟩ | ⟨op, hbegin, rfl⟩
  · rw [hf] at hsame
    cases hsame
    exact le_rfl
  · rw [hf] at hf'
    cases hf'
    cases hmove with
    | resolved op reply hreply => exact phase_resolve reply ⟨op, .waiting .pending⟩
    | abandon f hab => exact f.stage.phase_le
    | _ => simp [Stage.phase]
  · -- a new operation takes a new index
    subst hbegin
    cases h with
    | begin op' hvia =>
      rw [Table.getElem?_snoc_of_some hf] at hg
      cases hg
      exact le_rfl
    | silent l tl hl t ht => cases hl

/-- The steps that are the loop's own. -/
def ofLoop : Label σ ρ → Bool
  | .poll | .receive => true
  | _ => false

/-- An accepted ping is in the mailbox, or the loop runs it. -/
theorem queued_of_pending {i : ℕ} {op : Operation σ ρ} (hs : Serving E w)
    (hf : w.flights[i]? = some ⟨op, .waiting .pending⟩) (hrun : w.task.loop.pc.client ≠ some i) :
    ∃ e ∈ w.queued, e.client = i := by
  have hlive : i ∈ w.live := (hs.request.ok.flight i _ hf).2
  rcases List.mem_append.mp hlive with hrunning | hqueued
  · exact absurd (Option.mem_toList.mp hrunning) hrun
  · obtain ⟨e, he, hclient⟩ := List.mem_map.mp hqueued
    exact ⟨e, he, hclient⟩

/-- What is in the mailbox for a ping is the ping. -/
theorem payload_of_ping {i : ℕ} {st : Stage ρ} (hs : Serving E w)
    (hf : w.flights[i]? = some ⟨Addr.ping, st⟩) {e : Envelope σ ρ} (he : e ∈ w.queued)
    (hclient : e.client = i) : e.payload = (Addr.ping : Operation σ ρ).payload := by
  have hsent := hs.request.payloads e he
  rw [hclient, Sent, ops, List.getElem?_map, hf] at hsent
  exact (Option.some.inj hsent).symm

/-- What a step leaves ahead of a ping that is still awaited. -/
inductive Nears (w w' : World Q σ ρ) (i : ℕ) (l : Label σ ρ) : Prop where
  /-- the loop takes the ping -/
  | taken (hl : l = .receive) (hnil : w.ahead i = []) (hpc : w.task.loop.pc = .receiving)
      (hrun : w'.task.loop.pc.client = some i)
  /-- it takes what is ahead of it -/
  | popped (hl : l = .receive) (e : Envelope σ ρ) (hahead : w.ahead i = e :: w'.ahead i)
      (hpc : w.task.loop.pc = .receiving) (hrun : w'.task.loop.pc.client ≠ some i)
  /-- it moves on by itself -/
  | polled (hl : l = .poll) (hahead : w'.ahead i = w.ahead i)
      (hrank : w'.task.loop.pc.rank + 1 = w.task.loop.pc.rank)
      (hrun : w.task.loop.pc.client ≠ some i) (hrun' : w'.task.loop.pc.client ≠ some i)
  | other (hl : ofLoop l = false) (htask : w'.task = w.task)
      (hahead : w.task.loop.pc.client ≠ some i → w'.ahead i = w.ahead i)

theorem nears_poll {i : ℕ} (hstream : E.onStream = false) (hs : Serving E w)
    (hf : w.flights[i]? = some ⟨Addr.ping, .waiting .pending⟩) (h : step E w .poll = some w')
    (hf' : w'.flights[i]? = some ⟨Addr.ping, .waiting .pending⟩)
    (hok : w.misbehaves E .poll = false) : Nears w w' i .poll := by
  obtain ⟨t, hstep, -, hrank, rfl⟩ := fine_of_poll hstream hs.fine h hok
  refine .polled rfl ?_ (by simpa using hrank) ?_ ?_
  · unfold ahead
    rw [settle_queued]
    simp [queued]
  · -- a ping that is left has been answered
    intro hrun
    have hanswer : ∃ r, w.task.loop.reply = some (i, .ok r) := by
      rcases reply_of_client hrun with hcanceled | hreply
      · obtain ⟨r, hr⟩ := reply_of_fine hs.fine hcanceled
        cases hr
      · exact hreply
    obtain ⟨r, hr⟩ := hanswer
    rw [settle_flights, hr] at hf'
    have hresolved : (w.flights.modify i (Flight.resolve (.ok r)))[i]?
        = some ⟨Addr.ping, .waiting .pending⟩ := hf'
    rw [Table.getElem?_modify_self hf] at hresolved
    cases hresolved
  · have hnone : t.pc.client = none := client_of_step hstep
    simp [hnone]

theorem nears_receive {i : ℕ} (hs : Serving E w)
    (hf : w.flights[i]? = some ⟨Addr.ping, .waiting .pending⟩)
    (h : step E w .receive = some w') : Nears w w' i .receive := by
  obtain ⟨e, q, t, hq, ht, rfl⟩ := receive_eq hs.isOpen h
  have hstep := EventLoop.step_cases ht
  have hqueue : w.queued = e :: (state q).queued := (AsyncChannel.tryRecv_ok hq).1
  have hclient : t.pc.client = (Input.payload e).client := client_of_step hstep
  -- either the ping is next, or one fewer request is ahead of it
  by_cases hei : e.client = i
  · refine .taken rfl (by simp [ahead, hqueue, hei]) hstep.receiving ?_
    have hpayload := payload_of_ping hs hf (e := e) (by simp [hqueue]) hei
    rcases e with ⟨k, p⟩
    have hp : p = (Addr.ping : Operation σ ρ).payload := hpayload
    subst hp
    rw [settle_task]
    exact hclient.trans (congrArg some hei)
  · refine .popped rfl e ?_ hstep.receiving ?_
    · unfold ahead
      rw [settle_queued, hqueue, List.takeWhile_cons, if_pos (by simpa using hei)]
      rfl
    · rw [settle_task]
      show t.pc.client ≠ some i
      rw [hclient]
      rcases e with ⟨k, p⟩
      cases p <;> simp_all [Input.client]

theorem nears_step {i : ℕ} (hstream : E.onStream = false) (hs : Serving E w)
    (hf : w.flights[i]? = some ⟨Addr.ping, .waiting .pending⟩) (h : step E w l = some w')
    (hf' : w'.flights[i]? = some ⟨Addr.ping, .waiting .pending⟩)
    (hok : w.misbehaves E l = false) : Nears w w' i l := by
  by_cases hpoll : l = .poll
  · subst hpoll
    exact nears_poll hstream hs hf h hf' hok
  by_cases hreceive : l = .receive
  · subst hreceive
    exact nears_receive hs hf h
  have hdrop : l ≠ .dropFuture := by
    rintro rfl
    simp [misbehaves] at hok
  obtain ⟨v, hact, rfl⟩ := step_cases h
  have htask := task_of_other hstream hs.fine hact hpoll hreceive hdrop
  refine .other (by cases l <;> simp_all [ofLoop]) (by rw [settle_task, htask]) fun hrun => ?_
  obtain ⟨e, he, hei⟩ := queued_of_pending hs hf hrun
  unfold ahead
  rw [settle_queued]
  cases traffic_of_act hact with
  | kept hq ha hp => rw [hq]
  | accept j op hl hj hopen hfull hq ha hp =>
    -- the ping is in the mailbox already, so this one comes behind it
    rw [hq, List.takeWhile_append, if_neg]
    intro hlen
    have hall := (List.takeWhile_prefix fun e : Envelope σ ρ => decide (e.client ≠ i)).eq_of_length
      hlen
    rw [← hall] at he
    have hne := List.mem_takeWhile_imp he
    simp [hei] at hne
  | evict j op hl hj hforce hopen hfull hq ha hp => simp [hs.not_full] at hfull
  | pop e' hl hq ha hp => exact absurd hl hreceive

/-- How many steps of its own the loop is away from having answered operation `i`. -/
def toGo (w : World Q σ ρ) (i : ℕ) : ℕ :=
  if w.task.loop.pc.client = some i then 1
  else 3 * (w.ahead i).length + 2 + w.task.loop.pc.rank

theorem Pc.rank_le (pc : Pc σ ρ) : pc.rank ≤ 2 := by
  cases pc <;> simp [Pc.rank]

/-- Every step of the loop brings the ping nearer, and no other step puts it off. -/
theorem toGo_step {i : ℕ} (h : Nears w w' i l) :
    w'.toGo i + (if ofLoop l then 1 else 0) ≤ w.toGo i := by
  cases h with
  | taken hl hnil hpc hrun =>
    have hnot : w.task.loop.pc.client ≠ some i := by simp [hpc, Pc.client]
    have hrank : w.task.loop.pc.rank = 0 := by rw [hpc]; rfl
    simp only [toGo, hrun, if_true, hnot, if_false, hnil, hrank, hl, ofLoop, List.length_nil]
    omega
  | popped hl e hahead hpc hrun =>
    have hnot : w.task.loop.pc.client ≠ some i := by simp [hpc, Pc.client]
    have hrank : w.task.loop.pc.rank = 0 := by rw [hpc]; rfl
    have hrank' := Pc.rank_le w'.task.loop.pc
    simp only [toGo, hrun, if_false, hnot, hahead, hrank, hl, ofLoop, if_true, List.length_cons]
    omega
  | polled hl hahead hrank hrun hrun' =>
    simp only [toGo, hrun, hrun', if_false, hahead, hl, ofLoop, if_true]
    omega
  | other hl htask hahead =>
    simp only [toGo, htask, hl]
    by_cases hrun : w.task.loop.pc.client = some i
    · simp [hrun]
    · simp [hrun, hahead hrun]

/-- Until it is accepted, and once it is answered, the ping goes on by itself. -/
theorem exists_advance {i : ℕ} {st : Stage ρ} (hf : w.flights[i]? = some ⟨Addr.ping, st⟩)
    (hst : st = .checking ∨ st = .enqueuing ∨ ∃ r, st = .waiting (.ok r)) :
    ∃ s, step E w (.advance i) = some s := by
  rcases hst with rfl | rfl | ⟨r, rfl⟩
  · cases hrun : w.task.running <;> simp [step, act, advance, hf, hrun]
  · have henq : ∃ r, (Addr.ping : Operation σ ρ).primitive.enqueue w.mailbox
        ⟨i, (Addr.ping : Operation σ ρ).payload⟩ = some r := by
      show ∃ r, Primitive.enqueue .trySend _ _ = some r
      unfold Primitive.enqueue
      simp only
      split <;> exact ⟨_, rfl⟩
    obtain ⟨r, hr⟩ := henq
    rcases r with ⟨⟨⟩⟩ | ⟨evicted, q⟩ <;> simp [step, act, advance, hf, hr]
  · simp [step, act, advance, hf]

/-- An awaited ping keeps the loop busy: it has a step of its own to take. -/
theorem exists_ofLoop {i : ℕ} {op : Operation σ ρ} (hstream : E.onStream = false) (hs : Serving E w)
    (hf : w.flights[i]? = some ⟨op, .waiting .pending⟩) :
    ∃ l, ofLoop l = true ∧ (step E w l).isSome = true := by
  -- a loop that waits has the ping to take, any other can be polled
  by_cases hpc : w.task.loop.pc = .receiving
  · obtain ⟨e, he, -⟩ := queued_of_pending hs hf (by simp [hpc, Pc.client])
    obtain ⟨e', rest, hq⟩ := List.exists_cons_of_ne_nil (List.ne_nil_of_mem he)
    obtain ⟨t, ht⟩ := E.exists_step_payload hpc e'
    obtain ⟨w', hstep, -⟩ := receive_queued hq ht
    exact ⟨.receive, rfl, by simp [hstep]⟩
  · have hmove : ∃ t, E.step w.task.loop none = some t := by
      by_cases hunpolled : w.task.loop.pc = .unpolled
      · simp [EventLoop.step, hstream, EventLoop.create, hunpolled]
      · obtain ⟨t, ht, -⟩ := EventLoop.fine_poll hstream hs.fine (absurd · hunpolled) hpc
        exact ⟨t, ht⟩
    obtain ⟨t, ht⟩ := hmove
    have hat := (EventLoop.not_ended_of_fine hs.fine).2
    exact ⟨.poll, rfl, by simp [step, act, LoopTask.step, hat, ht]⟩

/-! ## The invariant of the ping

What has to hold depends on how far the ping is: before it is accepted there must be no `Stop` in
the queue at all, afterwards none ahead of it, and once it is answered nothing has to hold any
more. -/

/-- No `Stop` is in the mailbox. -/
def Quiet (w : World Q σ ρ) : Prop := ∀ e ∈ w.queued, e.payload.isStop = false

theorem quiet_step (hquiet : w.Quiet) (h : step E w l = some w') (hstops : w.stops l = false) :
    w'.Quiet := by
  have hnew : ∀ {i : ℕ} {op : Operation σ ρ}, l = .advance i →
      w.flights[i]? = some ⟨op, .enqueuing⟩ → op.payload.isStop = false := by
    intro i op hl hf
    simpa [stops, hl, hf] using hstops
  intro e he
  cases traffic_of_step h with
  | kept hq ha hp => exact hquiet e (hq ▸ he)
  -- the last in the queue is the new one, and it is no `Stop`
  | accept i op hl hf hopen hfull hq ha hp =>
    rw [hq] at he
    rcases List.mem_append.mp he with hold | he
    · exact hquiet e hold
    · rw [List.mem_singleton.mp he]
      exact hnew hl hf
  | evict i op hl hf hforce hopen hfull hq ha hp =>
    rw [hq] at he
    rcases List.mem_append.mp he with hold | he
    · exact hquiet e (List.mem_of_mem_tail hold)
    · rw [List.mem_singleton.mp he]
      exact hnew hl hf
  | pop e' hl hq ha hp => exact hquiet e (hq ▸ List.mem_cons_of_mem e' he)

/-- Until the ping is accepted there is no `Stop` in the mailbox, and then there is none ahead of
it; until it is answered the loop goes on serving. -/
structure PingInv (E : EventLoop σ) (w : World Q σ ρ) (i : ℕ) (st : Stage ρ) : Prop where
  flight : w.flights[i]? = some ⟨Addr.ping, st⟩
  onTrack : st.onTrack = true
  unbounded : (state w.mailbox).capacity = none
  serving : st.phase < 2 → Serving E w
  quiet : st.phase = 0 → w.Quiet
  clear : st = .waiting .pending → w.task.loop.pc.client ≠ some i →
    ∀ e ∈ w.ahead i, e.payload.isStop = false

/-- The loop takes no `Stop` before the ping. -/
theorem PingInv.head {i : ℕ} {st : Stage ρ} (hinv : PingInv E w i st) (hst : st.phase < 2)
    (h : step E w .receive = some w') : ∀ e ∈ w.queued.head?, e.payload.isStop = false := by
  intro e he
  have hmem : e ∈ w.queued := List.mem_of_head? he
  by_cases hpending : st = .waiting .pending
  · obtain ⟨e', q, t, hq, ht, -⟩ := receive_eq (hinv.serving hst).isOpen h
    have hpc := (EventLoop.step_cases ht).receiving
    by_cases hei : e.client = i
    · rw [payload_of_ping (hinv.serving hst) hinv.flight hmem hei]
      rfl
    · refine hinv.clear hpending (by simp [hpc, Pc.client]) e ?_
      obtain ⟨rest, hqueue⟩ := List.head?_eq_some_iff.mp he
      simp [ahead, hqueue, hei]
  · refine hinv.quiet ?_ e hmem
    have hstage := hinv.onTrack
    cases st with
    | waiting reply => cases reply <;> simp_all [Stage.phase]
    | _ => simp_all [Stage.phase, Stage.onTrack]

theorem pingInv_step {i : ℕ} {st : Stage ρ} (hstream : E.onStream = false) (hinv : PingInv E w i st)
    (h : step E w l = some w') (habandon : l ≠ .abandon i) (hpos : st.phase < 2 → 0 < w'.handles)
    (hok : st.phase < 2 → w.misbehaves E l = false)
    (hstops : st.phase = 0 → w.stops l = false) : ∃ st', PingInv E w' i st' := by
  have hserving : st.phase < 2 → Serving E w ∧ l ≠ .dropFuture := by
    intro hst
    refine ⟨hinv.serving hst, ?_⟩
    rintro rfl
    simp [misbehaves] at hok
    omega
  obtain ⟨v, hact, hv⟩ := step_cases h
  have hflights : w'.flights = v.flights := by rw [hv, settle_flights]
  obtain ⟨st', hf', htrack'⟩ :=
    ping_act hinv.unbounded hserving hact hinv.flight hinv.onTrack habandon
  obtain ⟨g, hg, hphase⟩ := phase_act hact hinv.flight
  rw [hf'] at hg
  cases hg
  have hphase : st.phase ≤ st'.phase := hphase
  have hquiet : st.phase = 0 → w'.Quiet := fun hst => quiet_step (hinv.quiet hst) h (hstops hst)
  refine ⟨st', hflights ▸ hf', htrack', ?_, fun hst' => ?_, fun hst' => ?_, fun hpending hrun => ?_⟩
  · rw [hv, settle_capacity, capacity_of_act hact]
    exact hinv.unbounded
  · have hst : st.phase < 2 := by omega
    -- until the ping is answered, the actor keeps serving
    refine serving_step hstream (hinv.serving hst) h (hok hst) ?_ (hpos hst)
    rintro rfl
    exact hinv.head hst h
  · exact hquiet (by omega)
  · subst hpending
    by_cases hst : st.phase = 0
    -- while it is on its way there is no `Stop` at all; from then on none gets ahead of it
    · exact fun e he => hquiet hst e ((List.takeWhile_prefix _).subset he)
    have hst : st = .waiting .pending := by
      have htrack := hinv.onTrack
      have hle : st.phase ≤ 1 := hphase
      cases st with
      | waiting reply => cases reply <;> simp_all [Stage.phase]
      | _ => simp_all [Stage.phase, Stage.onTrack]
    subst hst
    have hone : (Stage.waiting (.pending : Reply ρ)).phase < 2 := by simp [Stage.phase]
    have hnears := nears_step hstream (hinv.serving hone) hinv.flight h (hflights ▸ hf') (hok hone)
    cases hnears with
    | taken hl hnil hpc hrun' => exact absurd hrun' hrun
    | popped hl e hahead hpc hrun' =>
      intro e' he'
      exact hinv.clear rfl (by simp [hpc, Pc.client]) e' (hahead ▸ List.mem_cons_of_mem e he')
    | polled hl hahead hrank hrun' hrun'' => exact hahead ▸ hinv.clear rfl hrun'
    | other hl htask hahead =>
      rw [htask] at hrun
      exact hahead hrun ▸ hinv.clear rfl hrun

/-- The ping begins. -/
theorem pingInv_begin (hquiet : w.Quiet)
    (h : step E w (.begin Addr.ping) = some w') (hs' : Serving E w') :
    PingInv E w' w.flights.length .checking := by
  have hquiet' : w'.Quiet := quiet_step hquiet h rfl
  obtain ⟨v, hact, rfl⟩ := step_cases h
  refine ⟨?_, rfl, hs'.unbounded, fun _ => hs', fun _ => hquiet', nofun⟩
  rw [settle_flights]
  cases hact with
  | begin op hvia => exact List.getElem?_concat_length
  | silent l tl hl t ht => cases hl

/-! ## A request that is lost

A request that is still queued when the loop ends stays `.waiting .pending`: nobody takes it, and
its oneshot lives as long as the queue does. The caller awaits it for good. -/

/-- The loop has ended, and operation `i` awaits a response that nobody will send. -/
def Lost (w : World Q σ ρ) (i : ℕ) : Prop :=
  w.task.loop.pc.ended = true ∧ w.closed = true
    ∧ ∃ op, w.flights[i]? = some ⟨op, .waiting .pending⟩

/-- It is lost for good. -/
theorem lost_step {i : ℕ} (hlost : Lost w i) (h : step E w l = some w')
    (habandon : l ≠ .abandon i) :
    Lost w' i := by
  obtain ⟨hend, hclosed, op, hf⟩ := hlost
  obtain ⟨v, hact, rfl⟩ := step_cases h
  have hclosed' : v.settle.closed = true := by simp [settle_closed, closed_of_act hact hclosed]
  -- the loop makes no step any more
  have hstuck : ∀ {s' : LoopState σ ρ} {x : Option (Input σ ρ)},
      ¬ EventLoop.Step E w.task.loop x s' := by
    intro s' x hs
    simp [EventLoop.not_ended_of_step hs] at hend
  have hother : ∀ {j : ℕ} {f : Flight σ ρ} {st : Stage ρ}, w.flights[j]? = some f →
      f.stage ≠ .waiting .pending →
      (w.setStage j st).flights[i]? = some ⟨op, .waiting .pending⟩ := by
    intro j f st hj hst
    refine (Table.getElem?_modify_of_ne ?_).trans hf
    rintro rfl
    rw [hf] at hj
    cases hj
    exact hst rfl
  refine ⟨?_, hclosed', op, ?_⟩
  · rw [settle_task]
    rcases task_of_act hact with hsame | ⟨tl, ht⟩
    · rw [hsame]
      exact hend
    · generalize v.task = t at ht ⊢
      cases ht with
      | advance s' hs hnotify => exact absurd hs hstuck
      | receive x s' hs => exact absurd hs hstuck
      | drop hend' hnotify => rfl
      | _ => exact hend
  · rw [settle_flights]
    cases hact with
    | begin op' hvia => exact Table.getElem?_snoc_of_some hf
    | upgraded j op' hj hup => exact hother hj nofun
    | dropped j op' hj hup => exact hother hj nofun
    | passed j op' hj hrun => exact hother hj nofun
    | stopped j op' hj hrun => exact hother hj nofun
    | refused j op' hj henq => exact hother hj nofun
    | answered j op' r hj => exact hother hj nofun
    | canceled j op' hj => exact hother hj nofun
    | abandon j f hj hab =>
      refine (Table.getElem?_modify_of_ne ?_).trans hf
      rintro rfl
      exact habandon rfl
    | accepted j op' hj evicted q henq =>
      have hopen : w.closed = false := (enqueue_ok henq).1
      simp [hclosed] at hopen
    | poll t ht =>
      cases ht with
      | advance s' hs hnotify => exact absurd hs hstuck
    | dropFuture t ht =>
      cases ht with
      | drop hend' hnotify => simp [hend] at hend'
    | _ => exact hf

end World

end Hannibal
