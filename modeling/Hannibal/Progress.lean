import Hannibal.Cascade
import Hannibal.Eviction
import Hannibal.FailFast
import Hannibal.Lib.Budget

/-!
# Hannibal.Progress — how long anything waits for the loop

The loop future makes its way through the mailbox in a bounded number of steps: at most three for
each payload, whatever the clients do in the meantime. Items of an attached stream add to it.

* **`LoopTask.due`** — the steps the loop future takes at most before it waits again, or is gone;
  `due_of_act` is its step lemma.
* **`goes_on`** — as long as it is not gone it can take one of them, or it waits for its sources.
* **`served_in_time`** — a payload in the mailbox, and whoever awaits its response, waits for the
  payloads ahead of it only.
* **`winds_down`** — a loop whose mailbox is closed, or holds a `Stop`, is gone in time.
-/

namespace Hannibal

open Lts Chan
open AsyncChannel (state)

variable {Q : Type → Type} {σ ρ : Type}

/-! ## The loop's own steps

`due` counts the steps of the loop future until it waits again or is gone, and `due_of_act` shows
that each of its steps pays one: only a payload, or an item of the stream, adds to what is due. A
client's step costs nothing and adds nothing. -/

/-- How many steps the loop takes at most before it is back at its receiver, or has ended. -/
def Pc.rest : Pc σ ρ → ℕ
  | .unpolled | .running _ _ | .refreshStopping | .stopping => 2
  | .starting | .refreshStarting | .cancelling | .finishing | .notifying => 1
  | .receiving | .returned _ | .panicked | .dropped => 0

/-- What is left to be lowered, completed and dropped once the loop future has ended. -/
def LoopTask.parts (t : LoopTask σ ρ) : ℕ :=
  t.running.toNat + t.stop.toNat + t.rx.toNat + t.ctx.toNat

/-- The steps of the loop future before it takes another payload or item, or is gone. -/
def LoopTask.due (t : LoopTask σ ρ) : ℕ := t.loop.pc.rest + t.parts

/-- The steps the loop future takes without its stream. -/
def Label.own : Label σ ρ → ℕ
  | .poll | .receive | .lower | .fire | .dropRx | .dropCtx => 1
  | _ => 0

/-- What an item of the stream, or its end, adds to the work of the loop. -/
def Label.fed : Label σ ρ → ℕ
  | .streamEnd => 1
  | .item _ => 2
  | _ => 0

/-- What taking from the mailbox adds to it, the step itself included. -/
def Label.meal : Label σ ρ → ℕ
  | .receive => 3
  | _ => 0

namespace EventLoop

variable {E : EventLoop σ} {s s' : LoopState σ ρ} {i : Option (Input σ ρ)}

/-- By itself the loop comes closer to its receiver, or to its end. -/
theorem rest_of_step (h : Step E s none s') : s'.pc.rest < s.pc.rest := by
  cases h with
  | startedOk hpc | startedErr hpc => rcases hpc with hpc | hpc <;> simp [hpc, Pc.rest]
  | panic hpc => cases hs : s.pc <;> simp_all [Pc.rest, Pc.inCall]
  | _ => simp_all [Pc.rest]

/-- What it takes keeps it busy for two steps at most. -/
theorem rest_of_input {x : Input σ ρ} (h : Step E s (some x) s') : s'.pc.rest ≤ 2 := by
  cases h <;> simp_all [Pc.rest]

theorem rest_of_streamEnd (h : Step E s (some .streamEnd) s') : s'.pc.rest ≤ 1 := by
  cases h
  simp [Pc.rest]

end EventLoop

namespace World

variable [AsyncChannel Q] {E : EventLoop σ} {w v w' : World Q σ ρ} {l : Label σ ρ}

/-- **What the loop future does is paid for.** -/
theorem due_of_act (h : Act E w l v) : l.own + v.task.due ≤ w.task.due + l.fed + l.meal := by
  -- what feeds the loop raises what is due by as much as the label says
  cases h with
  | poll t ht =>
    cases ht with
    | advance s' hs hnotify =>
      have hrest := EventLoop.rest_of_step hs
      simp only [Label.own, Label.fed, Label.meal, LoopTask.due, answer_task, withTask_task,
        LoopTask.parts]
      omega
  | pop e q t hq ht =>
    cases ht with
    | receive x s' hs =>
      have hrest := EventLoop.rest_of_input hs
      simp only [Label.own, Label.fed, Label.meal, LoopTask.due, LoopTask.parts]
      omega
  | closed t hq ht =>
    cases ht with
    | receive x s' hs =>
      have hrest := EventLoop.rest_of_input hs
      simp only [Label.own, Label.fed, Label.meal, LoopTask.due, LoopTask.parts, withTask_task]
      omega
  | silent l tl hl t ht =>
    cases l with
    | item f =>
      cases hl
      cases ht with
      | receive x s' hs =>
        have hrest := EventLoop.rest_of_input hs
        simp only [Label.own, Label.fed, Label.meal, LoopTask.due, LoopTask.parts, withTask_task]
        omega
    | streamEnd =>
      cases hl
      cases ht with
      | receive x s' hs =>
        have hrest := EventLoop.rest_of_streamEnd hs
        simp only [Label.own, Label.fed, Label.meal, LoopTask.due, LoopTask.parts, withTask_task]
        omega
    -- the parts of an ended future are due one step each
    | lower =>
      cases hl
      cases ht with
      | lower hstop hrun hpc =>
        simp only [Label.own, Label.fed, Label.meal, LoopTask.due, LoopTask.parts, withTask_task,
          LoopTask.lower, hrun, Bool.toNat_true, Bool.toNat_false]
        omega
    | fire =>
      cases hl
      cases ht with
      | fire hstop hrun hpc =>
        simp only [Label.own, Label.fed, Label.meal, LoopTask.due, LoopTask.parts, withTask_task,
          LoopTask.fire, hstop, Bool.toNat_true, Bool.toNat_false]
        omega
    | dropCtx =>
      cases hl
      cases ht with
      | dropCtx hend hctx =>
        simp only [Label.own, Label.fed, Label.meal, LoopTask.due, LoopTask.parts, withTask_task,
          hctx, Bool.toNat_true, Bool.toNat_false]
        omega
    | _ => cases hl
  | dropFuture t ht =>
    cases ht with
    | drop hend hnotify =>
      simp only [Label.own, Label.fed, Label.meal, LoopTask.due, LoopTask.parts, answer_task,
        withTask_task, LoopState.goto_pc, Pc.rest]
      omega
  | dropRx t ht =>
    cases ht with
    | dropRx hend hrx =>
      simp only [Label.own, Label.fed, Label.meal, LoopTask.due, LoopTask.parts, hrx,
        Bool.toNat_true, Bool.toNat_false]
      omega
  | accepted i op hf evicted q henq => simp [Label.own, Label.fed, Label.meal]
  | _ => simp [Label.own, Label.fed, Label.meal, LoopTask.due, LoopTask.parts]

/-- At its receiver the loop takes what the mailbox has for it. -/
theorem receives (hpc : w.task.loop.pc = .receiving) (h : w.queued ≠ [] ∨ w.closed = true) :
    (w.step E .receive).isSome = true := by
  cases hq : w.queued with
  | cons e rest =>
    obtain ⟨s', hs'⟩ := E.exists_step_payload hpc e
    obtain ⟨w', hw', -⟩ := receive_queued hq hs'
    rw [hw', Option.isSome_some]
  | nil =>
    obtain ⟨w', hw', -⟩ := receive_closed (E := E) hpc hq (h.resolve_left fun hne => hne hq)
    rw [hw', Option.isSome_some]

/-- A future that has ended has its parts dropped. -/
theorem releases (hend : w.task.loop.pc.ended = true) :
    w.task.Gone ∨ ∃ l : Label σ ρ, l.own = 1 ∧ (w.step E l).isSome = true := by
  by_cases hgone : w.task.Gone
  · exact .inl hgone
  refine .inr ?_
  cases hrx : w.task.rx with
  | true => exact ⟨.dropRx, rfl, by simp [step, act, LoopTask.step, hend, hrx]⟩
  | false =>
    cases hctx : w.task.ctx with
    | true => exact ⟨.dropCtx, rfl, by simp [step, act, LoopTask.step, hend, hctx]⟩
    | false =>
      have hstop : w.task.stop = true := by
        rw [← Bool.not_eq_false]
        exact fun hstop => hgone ⟨hend, hrx, hctx, hstop⟩
      cases hrun : w.task.running with
      | true => exact ⟨.lower, rfl, by simp [step, act, LoopTask.step, hend, hstop, hrun]⟩
      | false => exact ⟨.fire, rfl, by simp [step, act, LoopTask.step, hend, hstop, hrun]⟩

/-- **The loop future goes on.** If it is not gone it can take a step, or it is inside a hook or a
task that never ends, or it waits for its sources. -/
theorem goes_on (hfits : w.task.loop.pc.fits E.onStream = true) :
    w.task.Gone ∨ ¬ E.Terminates w.task.loop
      ∨ (w.task.loop.pc = .receiving ∧ w.queued = [] ∧ w.closed = false)
      ∨ ∃ l : Label σ ρ, l.own = 1 ∧ (w.step E l).isSome = true := by
  by_cases hterm : E.Terminates w.task.loop
  swap
  · exact .inr (.inl hterm)
  cases hend : w.task.loop.pc.ended with
  | true => exact (releases hend).imp_right fun h => .inr (.inr h)
  | false =>
    refine .inr (.inr ?_)
    by_cases hpc : w.task.loop.pc = .receiving
    -- at its receiver the loop takes what there is, or the end of a closed mailbox
    · by_cases hsource : w.queued ≠ [] ∨ w.closed = true
      · exact .inr ⟨.receive, rfl, receives hpc hsource⟩
      · rw [not_or, not_not, Bool.not_eq_true] at hsource
        exact .inl ⟨hpc, hsource⟩
    · obtain ⟨s', hs'⟩ := EventLoop.exists_poll hfits hterm hend hpc
      refine .inr ?_
      -- at `notify` the notifier goes first
      cases hat : w.task.loop.pc.atNotify && w.task.stop with
      | false => exact ⟨.poll, rfl, by simp [step, act, LoopTask.step, hat, hs']⟩
      | true =>
        rw [Bool.and_eq_true] at hat
        cases hrun : w.task.running with
        | true => exact ⟨.lower, rfl, by simp [step, act, LoopTask.step, hat, hrun]⟩
        | false => exact ⟨.fire, rfl, by simp [step, act, LoopTask.step, hat, hrun]⟩

/-! ## The payloads ahead

`upTo i q` is the position of a payload in the queue. Behind it payloads are added without harm, and
those before it are only taken away. -/

/-- The payloads in a queue up to that of operation `i`, if it is there. -/
def upTo (i : ℕ) (q : List (Envelope σ ρ)) : ℕ :=
  if i ∈ q.map Envelope.client then (q.map Envelope.client).idxOf i + 1 else 0

/-- A payload that joins the queue is not ahead of the others. -/
theorem upTo_snoc {i : ℕ} {q : List (Envelope σ ρ)} {e : Envelope σ ρ} (hne : e.client ≠ i) :
    upTo i (q ++ [e]) = upTo i q := by
  unfold upTo
  rw [List.map_append, List.map_singleton]
  by_cases hi : i ∈ q.map Envelope.client
  · rw [if_pos (List.mem_append_left _ hi), if_pos hi, List.idxOf_append_of_mem hi]
  · rw [if_neg (by simpa [hi] using hne.symm), if_neg hi]

/-- The oldest payload is ahead of all others. -/
theorem upTo_cons {i : ℕ} {q : List (Envelope σ ρ)} {e : Envelope σ ρ}
    (hnodup : ((e :: q).map Envelope.client).Nodup) (hi : i ∈ (e :: q).map Envelope.client) :
    upTo i q + 1 = upTo i (e :: q) := by
  unfold upTo
  rw [if_pos hi]
  rw [List.map_cons] at hnodup hi ⊢
  obtain ⟨hhead, -⟩ := List.nodup_cons.mp hnodup
  rcases List.mem_cons.mp hi with rfl | htail
  · rw [if_neg hhead, List.idxOf_cons_self]
  · have hne : e.client ≠ i := fun h => hhead (h ▸ htail)
    rw [if_pos htail, List.idxOf_cons_ne _ hne]

theorem upTo_tail_le {i : ℕ} {q : List (Envelope σ ρ)} (hnodup : (q.map Envelope.client).Nodup) :
    upTo i q.tail ≤ upTo i q := by
  cases q with
  | nil => exact le_rfl
  | cons e q =>
    by_cases hi : i ∈ (e :: q).map Envelope.client
    · exact (Nat.le_succ _).trans (upTo_cons hnodup hi).le
    · have htail : i ∉ q.map Envelope.client := fun h => hi (List.mem_cons_of_mem _ h)
      rw [List.tail_cons, upTo, if_neg htail]
      exact Nat.zero_le _

/-- Where a receive takes nothing, the mailbox is empty, and the loop is on its way out. -/
theorem meal_of_kept (h : Act E w l v) (hp : v.popped = w.popped) :
    l.meal = 0 ∨ (w.queued = [] ∧ v.task.loop.pc = .stopping) := by
  cases h with
  | pop e q t hq ht => simp at hp
  | closed t hq ht =>
    cases ht with
    | receive x s' hs =>
      obtain ⟨hnil, -⟩ := AsyncChannel.tryRecv_closed hq
      cases hs
      exact .inr ⟨hnil, rfl⟩
  | silent l tl hl t ht => cases l <;> first | exact .inl rfl | cases hl
  | _ => exact .inl rfl

/-! ## Payloads that wait

Whoever waits has its payload in the queue or in the loop. The budget is what is due now and three
steps for each payload ahead; the library's rule makes a bound on the run out of it. -/

/-- The task that runs was running, or it has just been popped. -/
theorem client_of_act (h : Act E w l v) {i : ℕ} (hi : v.task.loop.pc.client = some i) :
    w.task.loop.pc.client = some i ∨ i ∈ w.queued.map Envelope.client := by
  rcases loop_of_act h with ⟨-, hsame | hdropped⟩ | ⟨x, hs, hfeeds⟩
  · exact .inl (hsame ▸ hi)
  · rw [hdropped] at hi
    cases hi
  · rw [client_of_step hs] at hi
    cases hfeeds with
    | payload e hqueue hpopped =>
      refine .inr ?_
      rw [hqueue]
      obtain ⟨k, p⟩ := e
      cases p <;> cases hi
      exact List.mem_cons_self
    | _ => cases hi

/-- What is queued was queued before, if it had been accepted before. -/
theorem queued_of_act (hreq : RequestInv w) (h : Act E w l v) {i : ℕ}
    (hent : i ∈ w.accepted.map Envelope.client) (hi : i ∈ v.queued.map Envelope.client) :
    i ∈ w.queued.map Envelope.client := by
  -- the payload of `i` is not accepted a second time
  have hother : ∀ {j : ℕ} {op : Operation σ ρ}, w.flights[j]? = some ⟨op, .enqueuing⟩ → j ≠ i := by
    rintro j op hf rfl
    exact hreq.ok.flight j _ hf hent
  cases traffic_of_act h with
  | kept hq ha hp => rwa [hq] at hi
  | pop e hl hq ha hp =>
    rw [hq]
    exact List.mem_cons_of_mem _ hi
  | accept j op hl hf hopen hfull hq ha hp =>
    rw [hq, List.map_append, List.mem_append] at hi
    exact hi.resolve_right (by simpa using (hother hf).symm)
  | evict j op hl hf hforce hopen hfull hq ha hp =>
    rw [hq, List.map_append, List.mem_append] at hi
    have htail := hi.resolve_right (by simpa using (hother hf).symm)
    rw [List.map_tail] at htail
    exact List.mem_of_mem_tail htail

theorem mem_live {i : ℕ} :
    i ∈ w.live ↔ w.task.loop.pc.client = some i ∨ i ∈ w.queued.map Envelope.client := by
  simp [live, Option.mem_toList]

/-- A payload that waits has waited since it was accepted. -/
theorem live_of_act (hreq : RequestInv w) (h : Act E w l v) {i : ℕ}
    (hent : i ∈ w.accepted.map Envelope.client) (hi : i ∈ v.live) : i ∈ w.live := by
  rw [mem_live] at hi ⊢
  rcases hi with hclient | hqueued
  · exact client_of_act h hclient
  · exact .inr (queued_of_act hreq h hent hqueued)

theorem no_client_of_receive (h : Act E w .receive v) : w.task.loop.pc.client = none := by
  cases h with
  | pop e q t hq ht =>
    cases ht with
    | receive x s' hs => exact no_client_of_input hs
  | closed t hq ht =>
    cases ht with
    | receive x s' hs => exact no_client_of_input hs
  | silent l tl hl t ht => cases hl

/-- **Every payload the loop takes brings the others closer.** -/
theorem upTo_of_act (hreq : RequestInv w) (h : Act E w l v) {i : ℕ}
    (hent : i ∈ w.accepted.map Envelope.client) (hi : i ∈ v.live) :
    3 * upTo i v.queued + l.meal ≤ 3 * upTo i w.queued := by
  have hnodup : (w.queued.map Envelope.client).Nodup := (List.nodup_append.mp hreq.ok.nodup).2.1
  have hother : ∀ {j : ℕ} {op : Operation σ ρ}, w.flights[j]? = some ⟨op, .enqueuing⟩ → j ≠ i := by
    rintro j op hf rfl
    exact hreq.ok.flight j _ hf hent
  -- the queue grows behind the payload and shrinks before it
  cases traffic_of_act h with
  | kept hq ha hp =>
    rcases meal_of_kept h hp with hmeal | ⟨hnil, hpc⟩
    · rw [hq, hmeal, Nat.add_zero]
    · rw [mem_live, hq, hnil, hpc] at hi
      simp [Pc.client] at hi
  | pop e hl hq ha hp =>
    subst hl
    have hqueued : i ∈ w.queued.map Envelope.client :=
      (mem_live.mp (live_of_act hreq h hent hi)).resolve_left (by simp [no_client_of_receive h])
    rw [hq] at hnodup hqueued ⊢
    have hcons := upTo_cons hnodup hqueued
    show 3 * upTo i v.queued + 3 ≤ _
    omega
  | accept j op hl hf hopen hfull hq ha hp =>
    subst hl
    rw [hq, upTo_snoc (hother hf)]
    exact le_rfl
  | evict j op hl hf hforce hopen hfull hq ha hp =>
    subst hl
    rw [hq, upTo_snoc (hother hf)]
    exact Nat.mul_le_mul_left 3 (upTo_tail_le hnodup)

/-- Operation `k` awaits its response. -/
def pendingAt (w : World Q σ ρ) (k : ℕ) : Bool := (w.flights[k]?).any Flight.pending

/-- The payload of operation `i` waits in the mailbox, or its caller awaits the response. -/
def Waits (w : World Q σ ρ) (i : ℕ) : Prop :=
  i ∈ w.queued.map Envelope.client ∨ w.pendingAt i = true

theorem live_of_waits (hreq : RequestInv w) {i : ℕ} (h : w.Waits i) : i ∈ w.live := by
  rcases h with hqueued | hpending
  · exact mem_live.mpr (.inr hqueued)
  · obtain ⟨⟨op, st⟩, hf, hst⟩ := (Option.any_eq_true ..).mp hpending
    have hflight := hreq.ok.flight i _ hf
    rcases st with _ | _ | _ | ⟨_ | _ | _⟩ | _ | _ <;> first | exact hflight.2 | cases hst

omit [AsyncChannel Q] in
theorem due_le (w : World Q σ ρ) : w.task.due ≤ 6 := by
  have hrest : w.task.loop.pc.rest ≤ 2 := by cases w.task.loop.pc <;> simp [Pc.rest]
  have hbool : ∀ b : Bool, b.toNat ≤ 1 := fun b => by cases b <;> simp
  have hrun := hbool w.task.running
  have hstop := hbool w.task.stop
  have hrx := hbool w.task.rx
  have hctx := hbool w.task.ctx
  rw [LoopTask.due, LoopTask.parts]
  omega

theorem fits_of_run {capacity : Option ℕ+} {a : σ} {ls : List (Label σ ρ)}
    (h : (machine Q ρ E capacity a).Run ls w) : w.task.loop.pc.fits E.onStream = true := by
  obtain ⟨ks, hrun⟩ := task_run h
  exact hrun.invariant (I := fun t => t.loop.pc.fits E.onStream = true) rfl
    fun _ _ _ hfits hstep => fits_of_task (LoopTask.step_cases hstep) hfits

/-- The payload of operation `i` has been accepted. -/
structure Entered (i : ℕ) (w : World Q σ ρ) : Prop where
  requests : RequestInv w
  accepted : i ∈ w.accepted.map Envelope.client

theorem Entered.step {i : ℕ} (hw : Entered i w) (h : w.step E l = some w') : Entered i w' := by
  obtain ⟨v, hact, rfl⟩ := step_cases h
  refine ⟨requestInv_step hw.requests h, ?_⟩
  rw [settle_accepted]
  exact ((accepted_of_act hact).map _).subset hw.accepted

theorem Entered.pays {i : ℕ} (hw : Entered i w) (h : w.step E l = some w') (hi : i ∈ w'.live) :
    i ∈ w.live ∧ l.own + (w'.task.due + 3 * upTo i w'.queued)
      ≤ w.task.due + 3 * upTo i w.queued + l.fed := by
  obtain ⟨v, hact, rfl⟩ := step_cases h
  rw [mem_live, settle_task, settle_queued, ← mem_live] at hi
  rw [settle_task, settle_queued]
  have hdue := due_of_act hact
  have hahead := upTo_of_act hw.requests hact hw.accepted hi
  exact ⟨live_of_act hw.requests hact hw.accepted hi, by omega⟩

/-- **Nobody waits for more than the payloads ahead.** For both loops, every mailbox and every
interleaving: as long as a payload is queued, or its response awaited, the loop future has taken no
more than three steps for each payload up to it, besides those it owes its stream; and unless it has
ended, or is inside a hook or a task that never ends, it can take another one. -/
theorem served_in_time (E : EventLoop σ) (capacity : Option ℕ+) (a : σ) {ls ms : List (Label σ ρ)}
    {w w' : World Q σ ρ} (h : (machine Q ρ E capacity a).Run ls w)
    (h' : ((machine Q ρ E capacity a).startingAt w).Run ms w') {i : ℕ} (hi : w.Waits i)
    (hi' : w'.Waits i) :
    Machine.spent Label.own ms ≤ 3 * upTo i w.queued + 6 + Machine.spent Label.fed ms
      ∧ (w'.task.loop.pc.ended = true ∨ ¬ E.Terminates w'.task.loop
        ∨ ∃ l : Label σ ρ, l.own = 1 ∧ (w'.step E l).isSome = true) := by
  obtain ⟨hreq, -⟩ := historyInv_of_run h
  obtain ⟨hreq', -⟩ := historyInv_of_run (h.append h')
  have hlive := live_of_waits hreq' hi'
  constructor
  · have hentered : Entered i w := ⟨hreq, hreq.ok.live_entered i (live_of_waits hreq hi)⟩
    have hbudget : Machine.spent Label.own ms + (w'.task.due + 3 * upTo i w'.queued)
        ≤ w.task.due + 3 * upTo i w.queued + Machine.spent Label.fed ms :=
      h'.within_budget (fun u => u.task.due + 3 * upTo i u.queued) Label.own Label.fed
        (J := Entered i) (I := fun u => i ∈ u.live) hentered (fun _ _ _ hs hstep => hs.step hstep)
        (fun _ _ _ hs hstep hi => hs.pays hstep hi) hlive
    have hdue := due_le w
    omega
  · rcases goes_on (fits_of_run (h.append h')) with hgone | hover | ⟨hpc, hnil, -⟩ | hstep
    · exact .inl hgone.1
    · exact .inr (.inl hover)
    -- a loop that waits for its sources has nobody waiting
    · rw [mem_live, hpc, hnil] at hlive
      simp [Pc.client] at hlive
    · exact .inr (.inr hstep)

/-- An actor with an unbounded mailbox. -/
def adder : Machine (World ChannelState ℕ ℕ) (Label ℕ ℕ) :=
  machine ChannelState ℕ (.fromChannel (.provided 0)) none 0

/-- It is called twice before its loop is first polled. -/
def calledTwice : List (Label ℕ ℕ) :=
  [.begin (Addr.call fun n => .completed (n + 1) (some n)), .advance 0, .advance 0,
    .begin (Addr.call fun n => .completed (n + 2) (some n)), .advance 1, .advance 1]

/-- The first call has been answered when the second one has waited for four steps of the loop. -/
theorem served_in_time_second :
    Machine.spent (Label.own (σ := ℕ) (ρ := ℕ)) [.poll, .poll, .receive, .poll]
        ≤ 3 * upTo 1 (adder.after calledTwice rfl).queued + 6
          + Machine.spent (Label.fed (σ := ℕ) (ρ := ℕ)) [.poll, .poll, .receive, .poll]
      ∧ upTo 1 (adder.after calledTwice rfl).queued = 2 :=
  ⟨(served_in_time (.fromChannel (.provided 0)) none 0 (adder.run_after calledTwice rfl)
      ((adder.startingAt (adder.after calledTwice rfl)).run_after
        [.poll, .poll, .receive, .poll] rfl)
      (i := 1) (.inr rfl) (.inr rfl)).1, rfl⟩

/-! ## Winding down

The same budget with the end of the mailbox, or a queued `Stop`, in the place of the payload. Once
the loop has passed its last receive nothing adds to what is due. -/

/-- The mailbox takes `n` more payloads at most to its end, unless the loop is on its way out. -/
def left (w : World Q σ ρ) (n : ℕ) : ℕ := if w.task.loop.pc.final then 0 else n

/-- What is on its way out owes the mailbox nothing. -/
theorem left_of_final {n m : ℕ} (h : Act E w l v) (hfinal : w.task.loop.pc.final = true) :
    3 * v.left m + l.meal ≤ 3 * w.left n := by
  obtain ⟨hreceive, hv⟩ := final_of_act h hfinal
  have hmeal : l.meal = 0 := by
    cases l <;> first | rfl | exact absurd rfl hreceive
  simp [left, hfinal, hv, hmeal]

omit [AsyncChannel Q] in
theorem left_le (w : World Q σ ρ) (n : ℕ) : w.left n ≤ n := by
  unfold left
  split
  · exact Nat.zero_le n
  · exact le_rfl

omit [AsyncChannel Q] in
theorem left_eq (hfinal : w.task.loop.pc.final = false) (n : ℕ) : w.left n = n := by
  simp [left, hfinal]

/-- A closed mailbox is emptied, one payload after the other, and then its end is seen. -/
theorem left_of_closed (hclosed : w.closed = true) (h : Act E w l v) :
    3 * v.left (v.queued.length + 1) + l.meal ≤ 3 * w.left (w.queued.length + 1) := by
  cases hfinal : w.task.loop.pc.final with
  | true => exact left_of_final h hfinal
  | false =>
    have hv := left_le v (v.queued.length + 1)
    rw [left_eq hfinal]
    cases traffic_of_act h with
    | kept hq ha hp =>
      rcases meal_of_kept h hp with hmeal | ⟨hnil, hpc⟩
      · rw [hq] at hv
        rw [hq, hmeal]
        omega
      -- the end of the mailbox is seen: nothing is left to take
      · have hout : v.left (v.queued.length + 1) = 0 := by simp [left, hpc, Pc.final]
        rw [hout, hnil]
        cases l <;> simp [Label.meal]
    | pop e hl hq ha hp =>
      subst hl
      rw [hq, List.length_cons]
      show _ + 3 ≤ _
      omega
    | accept j op hl hf hopen hfull hq ha hp => simp [hclosed] at hopen
    | evict j op hl hf hforce hopen hfull hq ha hp => simp [hclosed] at hopen

/-- The `Stop` of operation `i` has been accepted; and once it has been popped, the loop is on its
way out. -/
structure StopSent (i : ℕ) (w : World Q σ ρ) : Prop extends Entered i w where
  history : HistoryInv w
  stop : w.Sent i .stop
  popped : i ∈ w.popped.map Envelope.client → w.task.loop.pc.final = true

/-- A popped `Stop` ends the loop. -/
theorem StopSent.popped_act {i : ℕ} (hw : StopSent i w) (h : Act E w l v)
    (hi : i ∈ v.popped.map Envelope.client) : v.task.loop.pc.final = true := by
  by_cases hold : i ∈ w.popped.map Envelope.client
  · exact (final_of_act h (hw.popped hold)).2
  rcases loop_of_act h with ⟨hp, -⟩ | ⟨x, hs, hfeeds⟩
  · exact absurd (hp ▸ hi) hold
  · cases hfeeds with
    | payload e hqueue hpopped =>
      rw [hpopped, List.map_append, List.mem_append] at hi
      have hclient : i = e.client := by simpa using hi.resolve_left hold
      have hsent := hw.requests.payloads e (hqueue ▸ List.mem_cons_self)
      have hstop := hw.stop
      obtain ⟨k, p⟩ := e
      cases hclient
      cases Option.some.inj (hsent.symm.trans hstop)
      exact EventLoop.final_of_stop hs
    | poll hpopped | closed hnil hclosed hpopped | item f hpopped | streamEnd hpopped =>
      exact absurd (hpopped ▸ hi) hold

theorem StopSent.step {i : ℕ} (hw : StopSent i w) (h : w.step E l = some w') : StopSent i w' where
  toEntered := hw.toEntered.step h
  history := historyInv_step hw.history h
  stop := by
    obtain ⟨v, hact, rfl⟩ := step_cases h
    simpa [Sent] using hw.stop.mono hact
  popped hi := by
    obtain ⟨v, hact, rfl⟩ := step_cases h
    rw [settle_popped] at hi
    rw [settle_task]
    exact hw.popped_act hact hi

/-- What is neither missing nor popped is queued. -/
theorem queued_of_kept {i : ℕ} (hw : Entered i w) (hkept : ¬ w.Missing i)
    (hnot : i ∉ w.popped.map Envelope.client) : i ∈ w.queued.map Envelope.client := by
  by_contra hqueue
  exact hkept ⟨hw.accepted, by simpa using ⟨by simpa using hnot, by simpa using hqueue⟩⟩

/-- The loop comes closer to a `Stop` that stays in the mailbox. -/
theorem left_of_stop {i : ℕ} (hw : StopSent i w) (hkept : ¬ w.Missing i) (h : Act E w l v) :
    3 * v.left (upTo i v.queued) + l.meal ≤ 3 * w.left (upTo i w.queued) := by
  cases hfinal : w.task.loop.pc.final with
  | true => exact left_of_final h hfinal
  | false =>
    have hqueued := queued_of_kept hw.toEntered hkept (mt hw.popped (by simp [hfinal]))
    have hnodup : (w.queued.map Envelope.client).Nodup :=
      (List.nodup_append.mp hw.requests.ok.nodup).2.1
    have hother : ∀ {j : ℕ} {op : Operation σ ρ}, w.flights[j]? = some ⟨op, .enqueuing⟩ →
        j ≠ i := by
      rintro j op hf rfl
      exact hw.requests.ok.flight j _ hf hw.accepted
    have hv := left_le v (upTo i v.queued)
    rw [left_eq hfinal]
    -- as for any other payload, as long as the `Stop` is not evicted itself
    cases traffic_of_act h with
    | kept hq ha hp =>
      rcases meal_of_kept h hp with hmeal | ⟨hnil, -⟩
      · rw [hq] at hv
        rw [hq, hmeal]
        omega
      · simp [hnil] at hqueued
    | pop e hl hq ha hp =>
      subst hl
      rw [hq] at hnodup hqueued ⊢
      have hcons := upTo_cons hnodup hqueued
      show _ + 3 ≤ _
      omega
    | accept j op hl hf hopen hfull hq ha hp =>
      subst hl
      rw [hq, upTo_snoc (hother hf)] at hv
      rw [hq, upTo_snoc (hother hf)]
      exact Nat.mul_le_mul_left 3 hv
    | evict j op hl hf hforce hopen hfull hq ha hp =>
      subst hl
      rw [hq, upTo_snoc (hother hf)] at hv
      rw [hq, upTo_snoc (hother hf)]
      exact Nat.mul_le_mul_left 3 (hv.trans (upTo_tail_le hnodup))

/-- The `Stop` of operation `i` is queued. -/
theorem stopSent_of_run {capacity : Option ℕ+} {a : σ} {ls : List (Label σ ρ)}
    (h : (machine Q ρ E capacity a).Run ls w) {i : ℕ} (hi : ⟨i, .stop⟩ ∈ w.queued) :
    StopSent i w := by
  obtain ⟨hreq, hinv⟩ := historyInv_of_run h
  have hqueued : i ∈ w.queued.map Envelope.client := List.mem_map_of_mem hi
  have hnodup := hreq.ok.distinct.sublist (hinv.ordered.map Envelope.client)
  rw [List.map_append, List.nodup_append] at hnodup
  exact ⟨⟨hreq, hreq.ok.live_entered i (mem_live.mpr (.inr hqueued))⟩, hinv, hreq.payloads _ hi,
    fun hpopped => absurd rfl (hnodup.2.2 i hpopped i hqueued)⟩

theorem closed_step (h : w.step E l = some w') (hclosed : w.closed = true) : w'.closed = true := by
  obtain ⟨v, hact, rfl⟩ := step_cases h
  rw [settle_closed, closed_of_act hact hclosed, Bool.true_or]

/-- With a closed mailbox each step is paid for. -/
theorem pays_of_closed (hclosed : w.closed = true) (h : w.step E l = some w') :
    l.own + (w'.task.due + 3 * w'.left (w'.queued.length + 1))
      ≤ w.task.due + 3 * w.left (w.queued.length + 1) + l.fed := by
  obtain ⟨v, hact, rfl⟩ := step_cases h
  have hdue := due_of_act hact
  have hleft := left_of_closed hclosed hact
  rw [left, settle_task, settle_queued, ← left]
  omega

/-- So is each step with a `Stop` in the mailbox, as long as that is not dropped. -/
theorem StopSent.pays {i : ℕ} (hw : StopSent i w) (h : w.step E l = some w')
    (hkept : ¬ w'.Missing i) :
    ¬ w.Missing i ∧ l.own + (w'.task.due + 3 * w'.left (upTo i w'.queued))
      ≤ w.task.due + 3 * w.left (upTo i w.queued) + l.fed := by
  have hwas : ¬ w.Missing i := fun hmissing =>
    hkept ((missing_of_step hw.requests hw.history h i).mpr (.inl hmissing))
  obtain ⟨v, hact, rfl⟩ := step_cases h
  have hdue := due_of_act hact
  have hleft := left_of_stop hw hwas hact
  refine ⟨hwas, ?_⟩
  rw [left, settle_task, settle_queued, ← left]
  omega

/-- **A loop that is to end is gone in time.** For both loops, every mailbox and every interleaving:
once the mailbox is closed, the loop future takes no more than three steps for each payload that is
left in it, besides those it owes its stream, until it has ended and dropped all it owned; and once
a `Stop` is queued, three for each payload up to it, unless it is dropped for another one. Until it
is gone it can always take another step, unless it is inside a hook or a task that never ends. -/
theorem winds_down (E : EventLoop σ) (capacity : Option ℕ+) (a : σ) {ls ms : List (Label σ ρ)}
    {w w' : World Q σ ρ} (h : (machine Q ρ E capacity a).Run ls w)
    (h' : ((machine Q ρ E capacity a).startingAt w).Run ms w') :
    (w.closed = true →
        Machine.spent Label.own ms ≤ 3 * (w.queued.length + 1) + 6 + Machine.spent Label.fed ms
          ∧ (w'.task.Gone ∨ ¬ E.Terminates w'.task.loop
            ∨ ∃ l : Label σ ρ, l.own = 1 ∧ (w'.step E l).isSome = true))
      ∧ ∀ i, ⟨i, .stop⟩ ∈ w.queued → ¬ w'.Missing i →
        Machine.spent Label.own ms ≤ 3 * upTo i w.queued + 6 + Machine.spent Label.fed ms
          ∧ (w'.task.Gone ∨ ¬ E.Terminates w'.task.loop
            ∨ ∃ l : Label σ ρ, l.own = 1 ∧ (w'.step E l).isSome = true) := by
  have hgo := goes_on (w := w') (fits_of_run (h.append h'))
  have hdue := due_le w
  constructor
  · intro hclosed
    have hbudget : Machine.spent Label.own ms + (w'.task.due + 3 * w'.left (w'.queued.length + 1))
        ≤ w.task.due + 3 * w.left (w.queued.length + 1) + Machine.spent Label.fed ms :=
      h'.within_budget (fun u => u.task.due + 3 * u.left (u.queued.length + 1)) Label.own Label.fed
        (J := fun u => u.closed = true) (I := fun _ => True) hclosed
        (fun _ _ _ hs hstep => closed_step hstep hs)
        (fun _ _ _ hs hstep _ => ⟨trivial, pays_of_closed hs hstep⟩) trivial
    have hleft := left_le w (w.queued.length + 1)
    refine ⟨by omega, ?_⟩
    rcases hgo with hgone | hover | ⟨-, -, hopen⟩ | hstep
    · exact .inl hgone
    · exact .inr (.inl hover)
    · have hstill : w'.closed = true :=
        h'.invariant (I := fun u => u.closed = true) hclosed fun _ _ _ hs hstep =>
          closed_step hstep hs
      simp [hopen] at hstill
    · exact .inr (.inr hstep)
  -- the same for a `Stop`, as long as it is not missing
  · intro i hi hkept
    have hsent := stopSent_of_run h hi
    have hbudget : Machine.spent Label.own ms + (w'.task.due + 3 * w'.left (upTo i w'.queued))
        ≤ w.task.due + 3 * w.left (upTo i w.queued) + Machine.spent Label.fed ms :=
      h'.within_budget (fun u => u.task.due + 3 * u.left (upTo i u.queued)) Label.own Label.fed
        (J := StopSent i) (I := fun u => ¬ u.Missing i) hsent (fun _ _ _ hs hstep => hs.step hstep)
        (fun _ _ _ hs hstep hkept => hs.pays hstep hkept) hkept
    have hleft := left_le w (upTo i w.queued)
    refine ⟨by omega, ?_⟩
    have hsent' : StopSent i w' :=
      h'.invariant (I := StopSent i) hsent fun _ _ _ hs hstep => hs.step hstep
    rcases hgo with hgone | hover | ⟨hpc, hnil, -⟩ | hstep
    · exact .inl hgone
    · exact .inr (.inl hover)
    · have hqueued := queued_of_kept hsent'.toEntered hkept
        (mt hsent'.popped (by simp [hpc, Pc.final]))
      simp [hnil] at hqueued
    · exact .inr (.inr hstep)

/-- The actor is stopped behind a message. -/
def stoppedBehind : List (Label ℕ ℕ) :=
  [.begin (Addr.trySend fun n => .completed (n + 1) none), .advance 0, .advance 0, .begin Addr.stop,
    .advance 1, .advance 1]

/-- Until it is gone. -/
def toTheEnd : List (Label ℕ ℕ) :=
  [.poll, .poll, .receive, .poll, .receive, .poll, .lower, .fire, .poll, .dropRx, .dropCtx]

theorem winds_down_stop :
    Machine.spent Label.own toTheEnd
        ≤ 3 * upTo 1 (adder.after stoppedBehind rfl).queued + 6 + Machine.spent Label.fed toTheEnd
      ∧ upTo 1 (adder.after stoppedBehind rfl).queued = 2
      ∧ ((adder.startingAt (adder.after stoppedBehind rfl)).after toTheEnd rfl).task.Gone :=
  ⟨((winds_down (.fromChannel (.provided 0)) none 0 (adder.run_after stoppedBehind rfl)
      ((adder.startingAt (adder.after stoppedBehind rfl)).run_after toTheEnd rfl)).2 1
        (.tail _ (.head _)) fun hmissing => hmissing.2 (.tail _ (.head _))).1, rfl, by decide⟩

end World

end Hannibal
