import Hannibal.Client
import Hannibal.Mailbox

/-!
# Hannibal.Requests — what becomes of a request for a response

`Addr::call`, `Addr::ping` and `Caller::call` put a task into the mailbox that owns the sending half
of a response oneshot, and await the other half. The oneshot is resolved when the task completes,
and canceled when the task is dropped, wherever that happens.

* **`Ledger`** — what the mailbox, the loop and the clients know about requests, without the queue
  and the loop themselves: which tasks are *live* (queued or running), which have completed.
* **`Ledger.Ok`** — the invariant, with one lemma for each thing that can happen to a request.
* **`World.ok_act`**, **`requestInv_step`** — every step of the world is made of these.
-/

namespace Hannibal

open Lts Chan
open AsyncChannel (state)

variable {Q : Type → Type} {σ ρ : Type}

/-! ## The ledger of requests

The ledger forgets the queue and the loop and keeps which tasks are live, which have completed, and
which payloads were accepted. `Ok` relates this to the stage of each operation; an operation begins,
moves, enters, leaves or is forgotten, and each of these keeps it. -/

/-- What is known about requests: the operations, the tasks that are queued or running, the tasks
that have completed, and the operations whose payload the mailbox has accepted. -/
structure Ledger (σ ρ : Type) where
  flights : List (Flight σ ρ)
  live : List ℕ
  completed : List (ℕ × Option ρ)
  entered : List ℕ

namespace Ledger

/-- What an operation's stage says about its task. -/
def FlightOk (L : Ledger σ ρ) (k : ℕ) (f : Flight σ ρ) : Prop :=
  match f.stage with
  | .upgrading | .checking | .enqueuing => k ∉ L.entered
  | .waiting .pending => f.op.awaits = true ∧ k ∈ L.live
  | .waiting (.ok r) => (k, r) ∈ L.completed
  | .waiting .canceled => k ∉ L.live ∧ k ∉ L.completed.map Prod.fst
  | .returned (.ok r) => f.op.awaits = true → (k, r) ∈ L.completed
  | .returned (.error e) =>
    k ∉ L.live ∧ k ∉ L.completed.map Prod.fst ∧ (e = .canceled ∨ k ∉ L.entered)
  | .abandoned => True

/-- The invariant: no task is live twice, or live and completed, or completed twice, and every stage
tells the truth. -/
structure Ok (L : Ledger σ ρ) : Prop where
  nodup : L.live.Nodup
  fresh : ∀ k ∈ L.live, k ∉ L.completed.map Prod.fst
  once : (L.completed.map Prod.fst).Nodup
  distinct : L.entered.Nodup
  live_entered : ∀ k ∈ L.live, k ∈ L.entered
  completed_entered : ∀ k ∈ L.completed.map Prod.fst, k ∈ L.entered
  bounded : ∀ k ∈ L.entered, k < L.flights.length
  flight : ∀ k f, L.flights[k]? = some f → L.FlightOk k f

variable {L : Ledger σ ρ}

/-- What is not touched stays true. -/
theorem FlightOk.frame {M : Ledger σ ρ} {k : ℕ} {f : Flight σ ρ} (h : L.FlightOk k f)
    (hlive : k ∈ M.live ↔ k ∈ L.live)
    (hcompleted : ∀ r, (k, r) ∈ M.completed ↔ (k, r) ∈ L.completed)
    (hentered : k ∈ M.entered ↔ k ∈ L.entered) : M.FlightOk k f := by
  have hkeys : k ∈ M.completed.map Prod.fst ↔ k ∈ L.completed.map Prod.fst := by
    simp only [List.mem_map, Prod.exists, exists_and_right, exists_eq_right, hcompleted]
  unfold FlightOk at h ⊢
  split at h <;> simp_all

/-- An operation begins. -/
theorem Ok.begin (hok : L.Ok) (f : Flight σ ρ)
    (hf : ∀ k, k ∉ L.entered → L.FlightOk k f) :
    Ok { L with flights := L.flights ++ [f] } where
  nodup := hok.nodup
  fresh := hok.fresh
  once := hok.once
  distinct := hok.distinct
  live_entered := hok.live_entered
  completed_entered := hok.completed_entered
  bounded k hk := by
    have := hok.bounded k hk
    simp only [List.length_append, List.length_singleton]
    omega
  flight k g hg := by
    show L.FlightOk k g
    rw [List.getElem?_append] at hg
    -- the operations there were are the same, and the new one has entered nothing
    split at hg
    · exact hok.flight k g hg
    · next hle =>
      have hnot : k ∉ L.entered := fun hk => hle (hok.bounded k hk)
      rw [List.mem_singleton.mp (List.mem_of_getElem? hg)]
      exact hf k hnot

/-- An operation moves to another stage that says nothing false. -/
theorem Ok.move (hok : L.Ok) {i : ℕ} {f : Flight σ ρ} {st : Stage ρ} (hf : L.flights[i]? = some f)
    (hst : L.FlightOk i { f with stage := st }) :
    Ok { L with flights := L.flights.modify i fun f => { f with stage := st } } where
  nodup := hok.nodup
  fresh := hok.fresh
  once := hok.once
  distinct := hok.distinct
  live_entered := hok.live_entered
  completed_entered := hok.completed_entered
  bounded k hk := by simpa using hok.bounded k hk
  flight k g hg := by
    show L.FlightOk k g
    rw [List.getElem?_modify] at hg
    obtain ⟨f', hf', rfl⟩ := Option.map_eq_some_iff.mp hg
    by_cases hik : i = k
    · subst hik
      rw [hf] at hf'
      cases hf'
      simpa using hst
    · simpa [hik] using hok.flight k f' hf'

/-- The mailbox accepts the payload of an operation. -/
theorem Ok.enter (hok : L.Ok) {i : ℕ} {op : Operation σ ρ}
    (hf : L.flights[i]? = some ⟨op, .enqueuing⟩)
    {live : List ℕ} (hlive : live.Perm (i :: L.live)) :
    Ok { L with
      flights := L.flights.modify i fun f => { f with stage := op.afterAccept }
      live := live
      entered := L.entered ++ [i] } := by
  -- an operation that is enqueuing has not entered before
  have hnot : i ∉ L.entered := hok.flight i _ hf
  have hmem : ∀ k, k ∈ live ↔ k = i ∨ k ∈ L.live := fun k => by simp [hlive.mem_iff]
  constructor
  case nodup =>
    refine hlive.nodup_iff.mpr (List.nodup_cons.mpr ⟨fun hi => ?_, hok.nodup⟩)
    exact hnot (hok.live_entered i hi)
  case fresh =>
    intro k hk
    rcases (hmem k).mp hk with rfl | hk
    · exact fun hdone => hnot (hok.completed_entered k hdone)
    · exact hok.fresh k hk
  case once => exact hok.once
  case distinct =>
    refine List.nodup_append.mpr ⟨hok.distinct, by simp, ?_⟩
    rintro k hk j hj rfl
    rw [List.mem_singleton.mp hj] at hk
    exact hnot hk
  case live_entered =>
    intro k hk
    rcases (hmem k).mp hk with rfl | hk
    · simp
    · simp [hok.live_entered k hk]
  case completed_entered =>
    intro k hk
    simp [hok.completed_entered k hk]
  case bounded =>
    intro k hk
    have hi : i < L.flights.length := (List.getElem?_eq_some_iff.mp hf).1
    rcases List.mem_append.mp hk with hk | hk
    · simpa using hok.bounded k hk
    · simpa [List.mem_singleton.mp hk] using hi
  case flight =>
    intro k g hg
    rw [List.getElem?_modify] at hg
    obtain ⟨f', hf', rfl⟩ := Option.map_eq_some_iff.mp hg
    by_cases hik : i = k
    · subst hik
      rw [hf] at hf'
      cases hf'
      cases hawaits : op.awaits <;>
        simp [FlightOk, Operation.afterAccept, hawaits, hmem]
    · have hki : k ≠ i := fun h => hik h.symm
      simp only [hik, if_false]
      refine (hok.flight k f' hf').frame ?_ (fun r => Iff.rfl) ?_
      · simp [hmem, hki]
      · simp [hki]

/-- A task leaves the mailbox or the loop: its oneshot gets `reply`, and it is recorded if it has
completed. -/
theorem Ok.leave (hok : L.Ok) {i : ℕ} {live : List ℕ} (hlive : L.live.Perm (i :: live))
    {reply : Reply ρ} {record : List (ℕ × Option ρ)}
    (hreply : (reply = .canceled ∧ record = []) ∨ ∃ r, reply = .ok r ∧ record = [(i, r)]) :
    Ok { L with
      flights := L.flights.modify i (Flight.resolve reply)
      live := live
      completed := L.completed ++ record } := by
  have hi : i ∈ L.live := by simp [hlive.mem_iff]
  have hnodup : (i :: live).Nodup := hlive.nodup_iff.mp hok.nodup
  obtain ⟨hout, hrest⟩ := List.nodup_cons.mp hnodup
  have hmem : ∀ k, k ≠ i → (k ∈ live ↔ k ∈ L.live) := fun k hk => by simp [hlive.mem_iff, hk]
  have hsub : ∀ k ∈ live, k ∈ L.live := fun k hk => by simp [hlive.mem_iff, hk]
  -- what is recorded is recorded of this task only
  have hrecord : ∀ p ∈ record, p.1 = i := by
    rcases hreply with ⟨-, rfl⟩ | ⟨r, -, rfl⟩ <;> simp
  constructor
  case nodup => exact hrest
  case fresh =>
    intro k hk hdone
    rw [List.map_append] at hdone
    rcases List.mem_append.mp hdone with hdone | hdone
    · exact hok.fresh k (hsub k hk) hdone
    · obtain ⟨p, hp, rfl⟩ := List.mem_map.mp hdone
      rw [hrecord p hp] at hk
      exact hout hk
  case once =>
    rw [List.map_append]
    refine List.nodup_append.mpr ⟨hok.once, ?_, ?_⟩
    · rcases hreply with ⟨-, rfl⟩ | ⟨r, -, rfl⟩ <;> simp
    · rintro k hk j hj rfl
      obtain ⟨p, hp, rfl⟩ := List.mem_map.mp hj
      rw [hrecord p hp] at hk
      exact hok.fresh i hi hk
  case distinct => exact hok.distinct
  case live_entered => exact fun k hk => hok.live_entered k (hsub k hk)
  case completed_entered =>
    intro k hdone
    rw [List.map_append] at hdone
    rcases List.mem_append.mp hdone with hdone | hdone
    · exact hok.completed_entered k hdone
    · obtain ⟨p, hp, rfl⟩ := List.mem_map.mp hdone
      rw [hrecord p hp]
      exact hok.live_entered i hi
  case bounded => exact fun k hk => by simpa using hok.bounded k hk
  case flight =>
    intro k g hg
    rw [List.getElem?_modify] at hg
    obtain ⟨f, hf, rfl⟩ := Option.map_eq_some_iff.mp hg
    have hflight := hok.flight k f hf
    by_cases hik : i = k
    · subst hik
      have hdone := hok.fresh i hi
      have hin := hok.live_entered i hi
      rw [if_pos rfl]
      -- a task that was live had not been answered before
      rcases f with ⟨op, st⟩
      rcases hreply with ⟨rfl, rfl⟩ | ⟨r, rfl, rfl⟩
      · cases st with
        | waiting reply => cases reply <;> simp_all [FlightOk, Flight.resolve]
        | returned res => cases res <;> simp_all [FlightOk, Flight.resolve]
        | _ => simp_all [FlightOk, Flight.resolve]
      · cases st with
        | waiting reply => cases reply <;> simp_all [FlightOk, Flight.resolve]
        | returned res => cases res <;> simp_all [FlightOk, Flight.resolve]
        | _ => simp_all [FlightOk, Flight.resolve]
    · have hki : k ≠ i := fun h => hik h.symm
      simp only [hik, if_false]
      refine hflight.frame (hmem k hki) (fun r => ?_) Iff.rfl
      rw [List.mem_append]
      exact or_iff_left fun h => hki (hrecord _ h)

/-- A control payload is popped; nobody awaits it. -/
theorem Ok.forget (hok : L.Ok) {i : ℕ} {live : List ℕ} (hlive : L.live.Perm (i :: live))
    (hawaits : ∀ f, L.flights[i]? = some f → f.op.awaits = false) : Ok { L with live := live } := by
  have hnodup : (i :: live).Nodup := hlive.nodup_iff.mp hok.nodup
  obtain ⟨hout, hrest⟩ := List.nodup_cons.mp hnodup
  have hsub : ∀ k ∈ live, k ∈ L.live := fun k hk => by simp [hlive.mem_iff, hk]
  refine ⟨hrest, fun k hk => hok.fresh k (hsub k hk), hok.once, hok.distinct,
    fun k hk => hok.live_entered k (hsub k hk), hok.completed_entered, hok.bounded, ?_⟩
  intro k f hf
  have hflight := hok.flight k f hf
  by_cases hik : k = i
  · subst hik
    have hno := hawaits f hf
    rcases f with ⟨op, st⟩
    cases st with
    | waiting reply => cases reply <;> simp_all [FlightOk]
    | returned res => cases res <;> simp_all [FlightOk]
    | _ => exact hflight
  · exact hflight.frame (by simp [hlive.mem_iff, hik]) (fun r => Iff.rfl) Iff.rfl

/-- What the mailbox has never accepted is nowhere. -/
theorem Ok.of_not_entered (hok : L.Ok) {k : ℕ} (h : k ∉ L.entered) :
    k ∉ L.live ∧ k ∉ L.completed.map Prod.fst :=
  ⟨fun hk => h (hok.live_entered k hk), fun hk => h (hok.completed_entered k hk)⟩

end Ledger

/-! ## The task the loop runs

At most one task is live in the loop, and it is answered in the step that leaves it. An input finds
the loop at its receive point, with no task. -/

/-- The task an input makes the loop run. -/
def Input.client : Input σ ρ → Option ℕ
  | .payload ⟨k, .task _⟩ => some k
  | _ => none

/-- Which task the loop runs after a step. -/
theorem client_of_step {E : EventLoop σ} {s s' : LoopState σ ρ} {i : Option (Input σ ρ)}
    (h : EventLoop.Step E s i s') : s'.pc.client = i.bind Input.client := by
  cases h <;> simp_all [Pc.client, Input.client]

/-- A loop that takes an input runs no task. -/
theorem no_client_of_input {E : EventLoop σ} {s s' : LoopState σ ρ} {i : Input σ ρ}
    (h : EventLoop.Step E s (some i) s') : s.pc.client = none := by
  cases h <;> simp_all [Pc.client]

/-- A loop that runs no task answers none. -/
theorem reply_of_no_client {s : LoopState σ ρ} (h : s.pc.client = none) : s.reply = none := by
  rcases s with ⟨pc, actor, clock, nextItem, streamEnded, trace⟩
  cases pc with
  | running c f => cases c <;> simp_all [Pc.client, LoopState.reply]
  | _ => rfl

/-- A loop that leaves a task answers it. -/
theorem reply_of_client {s : LoopState σ ρ} {k : ℕ} (h : s.pc.client = some k) :
    s.reply = some (k, .canceled) ∨ ∃ r, s.reply = some (k, .ok r) := by
  rcases s with ⟨pc, actor, clock, nextItem, streamEnded, trace⟩
  cases pc with
  | running c f =>
    cases c with
    | task j =>
      cases h
      cases hfut : f actor with
      | completed a r => exact .inr ⟨r, by simp [LoopState.reply, hfut]⟩
      | overruns a => exact .inl (by simp [LoopState.reply, hfut])
      | panicked => exact .inl (by simp [LoopState.reply, hfut])
    | hook h' => simp [Pc.client] at h
    | item n => simp [Pc.client] at h
  | _ => simp [Pc.client] at h

/-! ## Every step of the world is made of steps of the ledger

Most steps are one move of one operation. An acceptance on a full mailbox is two steps of the
ledger: the oldest task leaves, then the new one enters. -/

namespace World

variable [AsyncChannel Q]

/-- The tasks that are running or queued. -/
def live (w : World Q σ ρ) : List ℕ :=
  w.task.loop.pc.client.toList ++ w.queued.map Envelope.client

def ledger (w : World Q σ ρ) : Ledger σ ρ :=
  ⟨w.flights, w.live, w.completed, w.accepted.map Envelope.client⟩

/-- Operation `k` put the payload `p` into the mailbox. -/
def Sent (w : World Q σ ρ) (k : ℕ) (p : Payload σ ρ) : Prop :=
  (w.ops[k]?).map Operation.payload = some p

/-- The task of operation `k` was run to its end on some actor value, and `r` is its response. -/
def Ran (w : World Q σ ρ) (k : ℕ) (r : Option ρ) : Prop :=
  (k, r) ∈ w.completed ∧ ∃ f a a', w.Sent k (.task f) ∧ f a = .completed a' r

/-- The ledger is in order; what is queued, and what runs, is what the operations put into the
mailbox; what has completed has been run. -/
structure RequestInv (w : World Q σ ρ) : Prop where
  ok : w.ledger.Ok
  payloads : ∀ e ∈ w.queued, w.Sent e.client e.payload
  running : ∀ k f, w.task.loop.pc = .running (.task k) f → w.Sent k (.task f)
  ran : ∀ k r, (k, r) ∈ w.completed → w.Ran k r

theorem requestInv_init (capacity : Option ℕ+) (a : σ) : RequestInv (init Q ρ capacity a) where
  ok := by
    constructor <;>
      simp [ledger, init, live, queued, LoopTask.init, LoopState.init, Pc.client,
        ChannelState.fresh]
  payloads := by simp [queued, init, ChannelState.fresh]
  running k f h := by cases h
  ran k r h := by cases h

variable {E : EventLoop σ} {w v : World Q σ ρ} {l : Label σ ρ}

/-- An operation moves to another stage. -/
theorem ok_setStage (hok : w.ledger.Ok) {i : ℕ} {f : Flight σ ρ} {st : Stage ρ}
    (hf : w.flights[i]? = some f) (hst : w.ledger.FlightOk i { f with stage := st }) :
    (w.setStage i st).ledger.Ok :=
  hok.move hf hst

/-- What fails before the mailbox has accepted it was never live. -/
theorem ok_reject (hok : w.ledger.Ok) {i : ℕ} {f : Flight σ ρ} (hf : w.flights[i]? = some f)
    (hk : i ∉ w.ledger.entered) (e : ActorError) :
    (w.setStage i (.returned (.error e))).ledger.Ok := by
  obtain ⟨hlive, hdone⟩ := hok.of_not_entered hk
  exact ok_setStage hok hf ⟨hlive, hdone, .inr hk⟩

/-- The loop leaves the task of operation `i`. -/
theorem ok_answer (hok : w.ledger.Ok) {i : ℕ} {t : LoopTask σ ρ} {reply : Reply ρ}
    (hreply : reply = .canceled ∨ ∃ r, reply = .ok r) (hi : w.task.loop.pc.client = some i)
    (ht : t.loop.pc.client = none) : ((w.withTask t).answer (some (i, reply))).ledger.Ok := by
  have hlive : w.ledger.live.Perm (i :: (w.withTask t).live) := by
    simp [ledger, live, hi, ht, queued]
  rcases hreply with rfl | ⟨r, rfl⟩
  · have hleave := hok.leave hlive (.inl ⟨rfl, rfl⟩)
    simp only [List.append_nil] at hleave
    exact hleave
  · exact hok.leave hlive (.inr ⟨r, rfl, rfl⟩)

/-- The mailbox accepts a payload, and drops the oldest one for it if it is full. -/
theorem ok_accept (hok : w.ledger.Ok) {i : ℕ} {op : Operation σ ρ}
    (hf : w.flights[i]? = some ⟨op, .enqueuing⟩) {evicted : Option (Envelope σ ρ)}
    {q : Q (Envelope σ ρ)}
    (henq : op.primitive.enqueue w.mailbox ⟨i, op.payload⟩ = some (.ok (evicted, q))) :
    (w.accept i op evicted q).ledger.Ok := by
  obtain ⟨-, ⟨rfl, hstate, -⟩ | ⟨-, hfull, hev, hstate⟩⟩ := enqueue_ok henq
  · have hlive : (w.accept i op none q).live.Perm (i :: w.live) := by
      unfold live queued
      rw [accept_mailbox, accept_task, hstate, ChannelState.push_queued, List.map_append,
        ← List.append_assoc]
      exact List.perm_append_singleton _ _
    have hin := hok.enter hf hlive
    simpa [ledger, accept, evict, setStage] using hin
  · -- the oldest payload leaves first, then the new one enters
    obtain ⟨e, rest, hq⟩ := List.exists_cons_of_ne_nil (ChannelState.queued_ne_nil_of_full hfull)
    rw [hq, List.head?_cons] at hev
    subst hev
    have hout : w.ledger.live.Perm
        (e.client :: (w.task.loop.pc.client.toList ++ rest.map Envelope.client)) := by
      show (w.task.loop.pc.client.toList ++ (state w.mailbox).queued.map Envelope.client).Perm _
      rw [hq, List.map_cons]
      exact List.perm_middle
    have hleft := hok.leave hout (.inl ⟨rfl, rfl⟩)
    have hlive : (w.accept i op (some e) q).live.Perm
        (i :: (w.task.loop.pc.client.toList ++ rest.map Envelope.client)) := by
      unfold live queued
      rw [accept_mailbox, accept_task, hstate, ChannelState.push_queued,
        ChannelState.dropOldest_queued, hq, List.tail_cons, List.map_append, ← List.append_assoc]
      exact List.perm_append_singleton _ _
    have hin := hleft.enter (flight_evict hf (some e)) hlive
    simpa [ledger, accept, evict, setStage, resolve] using hin

/-- A step of the loop future that changes neither the queue nor the running task. -/
theorem ledger_withTask {t : LoopTask σ ρ} (h : t.loop.pc.client = w.task.loop.pc.client) :
    (w.withTask t).ledger = w.ledger := by
  simp [ledger, live, h, queued]

theorem client_of_silent {t t' : LoopTask σ ρ} {tl : TaskLabel σ ρ} (hl : l.silent = some tl)
    (ht : LoopTask.Step E t tl t') : t'.loop.pc.client = t.loop.pc.client := by
  cases ht with
  | receive i s' hs =>
    rw [no_client_of_input hs, client_of_step hs]
    cases l with
    | item f => cases hl; rfl
    | streamEnd => cases hl; rfl
    | _ => cases hl
  | lower hstop hrun hpc => rfl
  | fire hstop hrun hpc => rfl
  | dropCtx hend hctx => rfl
  | _ => cases l <;> simp_all [Label.silent]

/-- A popped control payload leaves the ledger. -/
theorem ok_forget (hinv : RequestInv w) {e : Envelope σ ρ}
    {q : Q (Envelope σ ρ)} {s' : LoopState σ ρ}
    (hqueue : (state w.mailbox).queued = e :: (state q).queued)
    (hs : EventLoop.Step E w.task.loop (some (.payload e)) s')
    (hcontrol : ∀ f, e.payload ≠ .task f) :
    (World.ledger { w with
      task := { w.task with loop := s' }, mailbox := q, popped := w.popped ++ [e] }).Ok := by
  have hbefore := no_client_of_input hs
  -- a control payload leaves the loop without a task of a client
  have hafter : s'.pc.client = none := by
    rw [client_of_step hs]
    rcases e with ⟨k, payload⟩
    cases payload with
    | task f => exact absurd rfl (hcontrol f)
    | stop => rfl
    | restart => rfl
  have hlive : w.ledger.live.Perm (e.client :: (state q).queued.map Envelope.client) := by
    simp [ledger, live, hbefore, queued, hqueue]
  have hout := hinv.ok.forget hlive fun f hf => ?_
  · simpa [ledger, live, hafter, queued] using hout
  · have hpayload := hinv.payloads e (by simp [queued, hqueue])
    have hf : w.flights[e.client]? = some f := hf
    simp only [Sent, ops, List.getElem?_map, hf, Option.map_some, Option.some.injEq] at hpayload
    by_contra hawaits
    obtain ⟨g, hg⟩ := f.op.awaits_task (by simpa using hawaits)
    exact hcontrol g (hpayload.symm.trans hg)

/-- The loop moves on by itself. -/
theorem ok_poll (hok : w.ledger.Ok) {s' : LoopState σ ρ}
    (hs : EventLoop.Step E w.task.loop none s') :
    ((w.withTask { w.task with loop := s' }).answer w.task.loop.reply).ledger.Ok := by
  have hnone : s'.pc.client = none := client_of_step hs
  cases hc : w.task.loop.pc.client with
  | none =>
    -- no task is being left, so nobody is answered
    rw [reply_of_no_client hc]
    show (w.withTask { w.task with loop := s' }).ledger.Ok
    rw [ledger_withTask (hnone.trans hc.symm)]
    exact hok
  | some k =>
    -- the task that is left answers its client, or drops the response sender
    rcases reply_of_client hc with hreply | ⟨r, hreply⟩
    · rw [hreply]
      exact ok_answer hok (.inl rfl) hc hnone
    · rw [hreply]
      exact ok_answer hok (.inr ⟨r, rfl⟩) hc hnone

/-- The loop takes the oldest payload. -/
theorem ok_pop (hinv : RequestInv w) {e : Envelope σ ρ} {q : Q (Envelope σ ρ)} {s' : LoopState σ ρ}
    (hqueue : (state w.mailbox).queued = e :: (state q).queued)
    (hs : EventLoop.Step E w.task.loop (some (.payload e)) s') :
    (World.ledger { w with
      task := { w.task with loop := s' }, mailbox := q, popped := w.popped ++ [e] }).Ok := by
  rcases e with ⟨k, payload⟩
  cases payload with
  | task f =>
    -- the task goes from the queue into the loop
    have hlive : World.live { w with
        task := { w.task with loop := s' }, mailbox := q,
        popped := w.popped ++ [⟨k, .task f⟩] } = w.live := by
      simp [live, client_of_step hs, no_client_of_input hs, Input.client, queued, hqueue]
    simpa [ledger, hlive] using hinv.ok
  -- nobody awaits a `Stop` or a restart
  | stop => exact ok_forget hinv hqueue hs (by simp)
  | restart => exact ok_forget hinv hqueue hs (by simp)

/-- **The step lemma of the ledger.** -/
theorem ok_act (hinv : RequestInv w) (h : Act E w l v) : v.ledger.Ok := by
  have hok := hinv.ok
  cases h with
  | begin op hvia =>
    refine hok.begin ⟨op, op.first⟩ fun k hk => ?_
    rcases op with ⟨via, checks, rejected, primitive, payload, awaits⟩
    cases via <;> cases checks <;> exact hk
  | upgraded i op hf hup =>
    -- an operation that is checked next has not entered the mailbox either
    have hk := hok.flight i _ hf
    refine ok_setStage hok hf ?_
    rcases op with ⟨via, checks, rejected, primitive, payload, awaits⟩
    cases checks <;> exact hk
  | dropped i op hf hup => exact ok_reject hok hf (hok.flight i _ hf) _
  | passed i op hf hrun =>
    have hk : i ∉ w.ledger.entered := hok.flight i _ hf
    exact ok_setStage hok hf hk
  | stopped i op hf hrun => exact ok_reject hok hf (hok.flight i _ hf) _
  | refused i op hf henq => exact ok_reject hok hf (hok.flight i _ hf) _
  | answered i op r hf =>
    have hk : (i, r) ∈ w.ledger.completed := hok.flight i _ hf
    exact ok_setStage hok hf fun _ => hk
  | canceled i op hf =>
    obtain ⟨hlive, hdone⟩ := hok.flight i _ hf
    exact ok_setStage hok hf ⟨hlive, hdone, .inl rfl⟩
  | abandon i f hf habandon => exact ok_setStage hok hf trivial
  | accepted i op hf evicted q henq => exact ok_accept hok hf henq
  | clone hpos => exact hok
  | upgrade hup => exact hok
  | drop hpos => exact hok
  | poll t ht =>
    cases ht with
    | advance s' hs hnotify => exact ok_poll hok hs
  | pop e q t hq ht =>
    obtain ⟨hqueue, -, -⟩ := AsyncChannel.tryRecv_ok hq
    cases ht with
    | receive i s' hs => exact ok_pop hinv hqueue hs
  | closed t hq ht =>
    cases ht with
    | receive i s' hs =>
      rw [ledger_withTask ((client_of_step hs).trans (no_client_of_input hs).symm)]
      exact hok
  | silent l tl hl t ht =>
    rw [ledger_withTask (client_of_silent hl ht)]
    exact hok
  -- the task inside the future is dropped with it, and its response is canceled
  | dropFuture t ht =>
    cases ht with
    | drop hend hnotify =>
      cases hc : w.task.loop.pc.client with
      | none =>
        show (w.withTask { w.task with loop := w.task.loop.goto .dropped }).ledger.Ok
        have hsame : (w.task.loop.goto .dropped).pc.client = w.task.loop.pc.client := hc.symm
        rw [ledger_withTask hsame]
        exact hok
      | some k => exact ok_answer hok (.inl rfl) hc rfl
  -- closing the mailbox leaves what is queued where it is
  | dropRx t ht =>
    cases ht with
    | dropRx hend hrx =>
      have hlive : World.live { w with
          task := { w.task with rx := false }, mailbox := AsyncChannel.close w.mailbox }
          = w.live := by
        simp [live, queued]
      simpa [ledger, hlive] using hok

/-- Operations are never forgotten. -/
theorem Sent.mono (h : Act E w l v) {k : ℕ} {p : Payload σ ρ} (hsent : w.Sent k p) :
    v.Sent k p := by
  obtain ⟨op, hop, rfl⟩ := Option.map_eq_some_iff.mp hsent
  unfold Sent
  rw [op_of_act h hop]
  rfl

/-- So a queued payload stays the payload of its operation. -/
theorem payloads_act (hinv : RequestInv w) (h : Act E w l v) :
    ∀ e ∈ v.queued, v.Sent e.client e.payload := by
  have hold : ∀ e ∈ w.queued, v.Sent e.client e.payload := fun e he => (hinv.payloads e he).mono h
  have hnew : ∀ (i : ℕ) (op : Operation σ ρ), w.flights[i]? = some ⟨op, .enqueuing⟩ →
      v.Sent i op.payload := by
    intro i op hf
    have hsent : w.Sent i op.payload := by simp [Sent, ops, hf]
    exact hsent.mono h
  intro e he
  -- what is queued was queued before, or has just been accepted
  cases traffic_of_act h with
  | kept hq ha hp => exact hold e (hq ▸ he)
  | accept i op hl hf hopen hfull hq ha hp =>
    rw [hq] at he
    rcases List.mem_append.mp he with he | he
    · exact hold e he
    · rw [List.mem_singleton.mp he]
      exact hnew i op hf
  | evict i op hl hf hforce hopen hfull hq ha hp =>
    rw [hq] at he
    rcases List.mem_append.mp he with he | he
    · exact hold e (List.mem_of_mem_tail he)
    · rw [List.mem_singleton.mp he]
      exact hnew i op hf
  | pop e' hl hq ha hp => exact hold e (hq ▸ List.mem_cons_of_mem e' he)

/-- The loop runs the task it popped. -/
theorem running_of_step {s s' : LoopState σ ρ} {i : Option (Input σ ρ)}
    (h : EventLoop.Step E s i s') {k : ℕ} {f : TaskFn σ ρ} (hpc : s'.pc = .running (.task k) f) :
    i = some (.payload ⟨k, .task f⟩) := by
  cases h <;> simp_all

theorem running_act (hinv : RequestInv w) (h : Act E w l v) (k : ℕ) (f : TaskFn σ ρ)
    (hpc : v.task.loop.pc = .running (.task k) f) : v.Sent k (.task f) := by
  -- the loop is where it was, or it has just taken the task from the queue
  have hcases : w.task.loop.pc = .running (.task k) f
      ∨ (⟨k, .task f⟩ : Envelope σ ρ) ∈ w.queued := by
    cases h with
    | poll t ht =>
      cases ht with
      | advance s' hs hnotify =>
        simp only [answer_task, withTask_task] at hpc
        cases running_of_step hs hpc
    | pop e q t hq ht =>
      cases ht with
      | receive i s' hs =>
        cases running_of_step hs hpc
        exact .inr (by simp [queued, (AsyncChannel.tryRecv_ok hq).1])
    | closed t hq ht =>
      cases ht with
      | receive i s' hs => cases running_of_step hs hpc
    | silent l tl hl t ht =>
      cases ht with
      | receive i s' hs =>
        cases running_of_step hs hpc
        cases l <;> cases hl
      | drop hend hnotify => cases hpc
      | advance s' hs hnotify => cases running_of_step hs hpc
      | _ => exact .inl hpc
    | dropFuture t ht =>
      cases ht with
      | drop hend hnotify =>
        simp only [answer_task, withTask_task] at hpc
        cases hpc
    | dropRx t ht =>
      cases ht with
      | dropRx hend hrx => exact .inl hpc
    | accepted i op hf evicted q henq => exact .inl (by simpa using hpc)
    | _ => exact .inl hpc
  -- either way its operation has sent it, and an operation keeps its payload
  rcases hcases with hrun | hqueued
  · exact (hinv.running k f hrun).mono h
  · exact (hinv.payloads _ hqueued).mono h

/-- A task that is answered with a response has completed with it. -/
theorem ran_of_reply {s : LoopState σ ρ} {k : ℕ} {r : Option ρ} (h : s.reply = some (k, .ok r)) :
    ∃ f a', s.pc = .running (.task k) f ∧ f s.actor = .completed a' r := by
  unfold LoopState.reply at h
  split at h
  · next j f hpc =>
    split at h
    · next a' r' hfut =>
      cases h
      exact ⟨f, a', hpc, hfut⟩
    · cases h
  · cases h

omit [AsyncChannel Q] in
/-- An answer with a response is recorded, and nothing else is. -/
theorem completed_answer {o : Option (ℕ × Reply ρ)} {k : ℕ} {r : Option ρ}
    (h : (k, r) ∈ (w.answer o).completed) : (k, r) ∈ w.completed ∨ o = some (k, .ok r) := by
  rcases o with _ | ⟨j, _ | r' | _⟩
  · exact .inl h
  · exact .inl h
  · rcases List.mem_append.mp h with hold | hnew
    · exact .inl hold
    · cases List.mem_singleton.mp hnew
      exact .inr rfl
  · exact .inl h

theorem ran_act (hinv : RequestInv w) (h : Act E w l v) (k : ℕ) (r : Option ρ)
    (hdone : (k, r) ∈ v.completed) : v.Ran k r := by
  refine ⟨hdone, ?_⟩
  have hold : (k, r) ∈ w.completed → ∃ f a a', v.Sent k (.task f) ∧ f a = .completed a' r := by
    intro hw
    obtain ⟨-, f, a, a', hsent, hend⟩ := hinv.ran k r hw
    exact ⟨f, a, a', hsent.mono h, hend⟩
  cases h with
  -- a response is recorded when the loop leaves the task with it
  | poll t ht =>
    rcases completed_answer hdone with hw | hreply
    · exact hold hw
    · obtain ⟨f, a', hpc, hend⟩ := ran_of_reply hreply
      have hsent := (hinv.running k f hpc).mono (.poll (E := E) t ht)
      exact ⟨f, _, a', hsent, hend⟩
  | accepted i op hf evicted q henq => exact hold (by simpa using hdone)
  | dropFuture t ht =>
    rcases completed_answer hdone with hw | hreply
    · exact hold hw
    · obtain ⟨j, -, hj⟩ := Option.map_eq_some_iff.mp hreply
      cases hj
  | _ => exact hold hdone

/-- **The step lemma.** -/
theorem requestInv_step {w' : World Q σ ρ} (hinv : RequestInv w) (h : step E w l = some w') :
    RequestInv w' := by
  obtain ⟨v, hact, rfl⟩ := step_cases h
  refine ⟨?_, ?_, ?_, ?_⟩
  · simpa [ledger, live] using ok_act hinv hact
  · simpa [Sent] using payloads_act hinv hact
  · simpa [Sent] using running_act hinv hact
  · simpa [Ran, Sent] using ran_act hinv hact

end World

end Hannibal
