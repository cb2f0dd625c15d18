import Hannibal.Client

/-!
# Hannibal.Agreement — typed and untyped handles

`Addr`, `Sender` and `Caller` implement sending and calling each for themselves, and so do their
weak counterparts. One operation is compared with another by letting each be begun in the same state
and go as far as it gets by itself, and then by what the rest of the world can make of it.

* **`World.attempt`** — an operation as far as it gets alone.
* **`World.vary`** — another operation in the place of one that has got so far; `step_vary`: the
  world does the same with either.
* **`Agree`** — the same decision, the same mailbox, and the same response after everything that may
  follow.
* **`agree_iff`** — the handles agree unless the mailbox of a running actor is open and full.
-/

namespace Hannibal

open Lts Chan
open AsyncChannel (state)

variable {Q : Type → Type} {σ ρ : Type}

/-! ## One operation in the place of another

`vary i op` lets the world be as if the `i`-th operation had been `op`, with its errors under `op`'s
names. The two may replace each other once the payload, the answer and the enqueueing are the same
(`Operation.Meets`); each operation on the world is shown to commute with `vary`. -/

/-- An error of one operation as the other one reports it. -/
def Stage.relabel (e e' : ActorError) : Stage ρ → Stage ρ
  | .returned (.error x) => .returned (.error (if x = e then e' else x))
  | st => st

/-- The operation `op` where `f` stands. -/
def Flight.as (op : Operation σ ρ) (f : Flight σ ρ) : Flight σ ρ :=
  ⟨op, f.stage.relabel f.op.rejected op.rejected⟩

@[simp] theorem Flight.as_op (op : Operation σ ρ) (f : Flight σ ρ) : (f.as op).op = op := rfl

@[simp] theorem Flight.as_holds (op : Operation σ ρ) (f : Flight σ ρ) :
    (f.as op).holds = f.holds := by
  rcases f with ⟨op', st⟩
  cases st with
  | returned res => cases res <;> rfl
  | _ => rfl

theorem Flight.as_resolve (op : Operation σ ρ) (reply : Reply ρ) (f : Flight σ ρ) :
    (f.resolve reply).as op = (f.as op).resolve reply := by
  rcases f with ⟨op', st⟩
  cases st with
  | waiting r => cases r <;> rfl
  | returned res => cases res <;> rfl
  | _ => rfl

/-- Only `send` waits for space. -/
theorem send_of_waits [AsyncChannel Q] {α : Type} {p : Primitive} {q : Q α} {a : α}
    (h : p.enqueue q a = none) : p = .send := by
  cases p with
  | send => rfl
  | trySend => cases htry : AsyncChannel.trySend q a <;> simp [Primitive.enqueue, htry] at h
  | forceSend =>
    cases hforce : AsyncChannel.forceSend q a <;> simp [Primitive.enqueue, hforce] at h

/-- The two operations differ no more once `op` has come to `st`. -/
structure Operation.Meets (op op' : Operation σ ρ) (st : Stage ρ) : Prop where
  payload : op'.payload = op.payload
  awaits : op'.awaits = op.awaits
  past : st ≠ .upgrading ∧ st ≠ .checking
  primitive : st = .enqueuing → op'.primitive = op.primitive

namespace World

/-- The same world, with `op` as its operation `i`. -/
def vary (i : ℕ) (op : Operation σ ρ) (w : World Q σ ρ) : World Q σ ρ :=
  { w with flights := w.flights.modify i (Flight.as op) }

section Vary

variable (w : World Q σ ρ) (i : ℕ) (op : Operation σ ρ)

@[simp] theorem vary_mailbox : (w.vary i op).mailbox = w.mailbox := rfl
@[simp] theorem vary_task : (w.vary i op).task = w.task := rfl
@[simp] theorem vary_handles : (w.vary i op).handles = w.handles := rfl

theorem vary_setStage {j : ℕ} (hj : j ≠ i) (st : Stage ρ) :
    (w.setStage j st).vary i op = (w.vary i op).setStage j st := by
  simp only [vary, setStage, List.modify_modify_ne _ _ _ hj]

theorem vary_resolve (j : ℕ) (reply : Reply ρ) :
    (w.resolve j reply).vary i op = (w.vary i op).resolve j reply := by
  -- an answer for another operation does not meet the one that was replaced
  by_cases hj : j = i
  · subst hj
    simp only [vary, resolve, List.modify_modify_eq]
    have hcomm : Flight.as op ∘ Flight.resolve reply
        = Flight.resolve reply ∘ Flight.as (σ := σ) (ρ := ρ) op :=
      funext fun f => Flight.as_resolve op reply f
    rw [hcomm]
  · simp only [vary, resolve, List.modify_modify_ne _ _ _ hj]

theorem vary_evict (ev : Option (Envelope σ ρ)) :
    (w.evict ev).vary i op = (w.vary i op).evict ev := by
  cases ev with
  | none => rfl
  | some e => exact vary_resolve w i op e.client .canceled

theorem vary_answer (o : Option (ℕ × Reply ρ)) :
    (w.answer o).vary i op = (w.vary i op).answer o := by
  rcases o with _ | ⟨k, _ | r | _⟩
  · rfl
  · exact vary_resolve w i op k .pending
  · have h := vary_resolve w i op k (.ok r)
    simp only [vary, resolve] at h
    simp only [answer, vary, resolve, World.mk.injEq] at h ⊢
    simpa using h
  · exact vary_resolve w i op k .canceled

theorem vary_accept {j : ℕ} (hj : j ≠ i) (o : Operation σ ρ) (ev : Option (Envelope σ ρ))
    (q : Q (Envelope σ ρ)) : (w.accept j o ev q).vary i op = (w.vary i op).accept j o ev q := by
  have h := vary_setStage (w.evict ev) i op hj o.afterAccept
  rw [vary_evict] at h
  simp only [vary, accept, World.mk.injEq] at h ⊢
  cases ev <;> simp_all [evict, resolve, setStage]

variable {w i op}

theorem vary_setStage_self {old : Operation σ ρ} {st : Stage ρ}
    (hf : w.flights[i]? = some ⟨old, st⟩) (st' : Stage ρ) : (w.setStage i st').vary i op
      = (w.vary i op).setStage i (st'.relabel old.rejected op.rejected) := by
  have hrow := Table.modify_congr (φ := Flight.as op ∘ fun f => { f with stage := st' })
    (ψ := (fun f => { f with stage := st'.relabel old.rejected op.rejected }) ∘ Flight.as op) hf rfl
  simp only [vary, setStage, List.modify_modify_eq, hrow]

theorem vary_accept_self {old : Operation σ ρ} (hf : w.flights[i]? = some ⟨old, .enqueuing⟩)
    (hpayload : op.payload = old.payload) (hawaits : op.awaits = old.awaits)
    (ev : Option (Envelope σ ρ)) (q : Q (Envelope σ ρ)) :
    (w.accept i old ev q).vary i op = (w.vary i op).accept i op ev q := by
  -- what follows an acceptance depends only on whether the answer is awaited
  have hstage : old.afterAccept.relabel old.rejected op.rejected = op.afterAccept := by
    rw [Operation.afterAccept, Operation.afterAccept, hawaits]
    cases old.awaits <;> rfl
  have h : ((w.evict ev).setStage i old.afterAccept).vary i op = _ :=
    vary_setStage_self (flight_evict hf ev) old.afterAccept
  rw [vary_evict, hstage] at h
  simp only [vary, accept, hpayload, World.mk.injEq] at h ⊢
  cases ev <;> simp_all [evict, resolve, setStage]

theorem flight_vary {old : Operation σ ρ} {st : Stage ρ} (hf : w.flights[i]? = some ⟨old, st⟩) :
    (w.vary i op).flights[i]? = some ⟨op, st.relabel old.rejected op.rejected⟩ :=
  Table.getElem?_modify_self hf

theorem flight_vary_of_ne {j : ℕ} (hj : j ≠ i) : (w.vary i op).flights[j]? = w.flights[j]? :=
  Table.getElem?_modify_of_ne (Ne.symm hj)

end Vary

/-! ## The world does the same with either

One case for each label. What is at the `i`-th operation itself needs `Operation.Meets`; everything
else does not look at it. `goesOn_vary` carries this over a whole continuation by the library's rule
for machines that commute with a map. -/

variable [AsyncChannel Q] {E : EventLoop σ} {w : World Q σ ρ} {i : ℕ} {old op : Operation σ ρ}
  {st : Stage ρ}

omit [AsyncChannel Q] in
@[simp] theorem vary_hasSender : (w.vary i op).hasSender = w.hasSender := by
  have hholds : (w.vary i op).flights.map Flight.holds = w.flights.map Flight.holds :=
    Table.map_modify (Flight.as_holds op)
  have hany : ∀ fs : List (Flight σ ρ), fs.any Flight.holds = (fs.map Flight.holds).any id := by
    intro fs
    rw [List.any_map]
    rfl
  rw [hasSender, hasSender, hany, hany, hholds]
  rfl

@[simp] theorem vary_upgradable : (w.vary i op).upgradable = w.upgradable := by
  rw [upgradable, upgradable, vary_hasSender]
  rfl

theorem vary_settle : w.settle.vary i op = (w.vary i op).settle := by
  unfold settle
  rw [vary_hasSender]
  cases w.hasSender <;> rfl

/-- A oneshot that is dropped is reported by both alike. -/
theorem relabel_canceled : Stage.relabel (ρ := ρ) old.rejected op.rejected
    (.returned (.error .canceled)) = .returned (.error .canceled) := by
  have hne : ActorError.canceled ≠ old.rejected := by
    rcases old.rejected_cases with h | h <;> rw [h] <;> nofun
  rw [Stage.relabel, if_neg hne]

theorem advance_vary (hf : w.flights[i]? = some ⟨old, st⟩) (hmeets : old.Meets op st) (j : ℕ) :
    (w.vary i op).advance j = (w.advance j).map (vary i op) := by
  unfold advance
  by_cases hj : j = i
  · subst hj
    -- `i` itself moves; where it waits for space, the two operations use the same primitive
    rw [flight_vary hf, hf]
    cases st with
    | upgrading => exact absurd rfl hmeets.past.1
    | checking => exact absurd rfl hmeets.past.2
    | enqueuing =>
      simp only [Stage.relabel, hmeets.primitive rfl, hmeets.payload, vary_mailbox]
      cases old.primitive.enqueue w.mailbox ⟨j, old.payload⟩ with
      | none => rfl
      | some r =>
        rcases r with _ | ⟨ev, q⟩
        · simp [vary_setStage_self hf, Stage.relabel]
        · simp [vary_accept_self hf hmeets.payload hmeets.awaits]
    | waiting reply =>
      cases reply with
      | pending => rfl
      | ok r => simp [Stage.relabel, vary_setStage_self hf]
      | canceled =>
        show some _ = some _
        rw [vary_setStage_self hf, relabel_canceled]
    | returned res => cases res <;> rfl
    | abandoned => rfl
  -- another one moves, which does not see what `i` is
  · rw [flight_vary_of_ne hj]
    cases w.flights[j]? with
    | none => rfl
    | some f =>
      rcases f with ⟨o, s⟩
      cases s with
      | upgrading =>
        simp only [vary_upgradable]
        cases w.upgradable <;> simp [vary_setStage _ _ _ hj]
      | checking =>
        simp only [vary_task]
        by_cases hrun : w.task.running = true <;> simp [hrun, vary_setStage _ _ _ hj]
      | enqueuing =>
        simp only [vary_mailbox]
        cases o.primitive.enqueue w.mailbox ⟨j, o.payload⟩ with
        | none => rfl
        | some r =>
          rcases r with _ | ⟨ev, q⟩
          · simp [vary_setStage _ _ _ hj]
          · simp [vary_accept _ _ _ hj]
      | waiting reply => cases reply <;> simp [vary_setStage _ _ _ hj]
      | returned res => rfl
      | abandoned => rfl

theorem receive_vary : (w.vary i op).receive E = (w.receive E).map (vary i op) := by
  unfold receive
  simp only [vary_mailbox, vary_task]
  cases AsyncChannel.tryRecv w.mailbox with
  | ok r =>
    rcases r with ⟨e, q⟩
    simp only [Option.map_map]
    rfl
  | error err =>
    cases err with
    | closed =>
      simp only [Option.map_map]
      rfl
    | empty => rfl

theorem abandonable_as (hmeets : old.Meets op st) :
    ((⟨old, st⟩ : Flight σ ρ).as op).abandonable = (⟨old, st⟩ : Flight σ ρ).abandonable := by
  cases st with
  | enqueuing => simp [Flight.as, Flight.abandonable, Stage.relabel, hmeets.primitive rfl]
  | returned res => cases res <;> rfl
  | _ => rfl

/-- **Whatever happens next, happens to either.** -/
theorem act_vary (hf : w.flights[i]? = some ⟨old, st⟩) (hmeets : old.Meets op st) (l : Label σ ρ) :
    (w.vary i op).act E l = (w.act E l).map (vary i op) := by
  cases l with
  | begin o =>
    simp only [act]
    have hoffers : (w.vary i op).offers o.via = w.offers o.via := rfl
    have hlt : i < w.flights.length := (List.getElem?_eq_some_iff.mp hf).1
    rw [hoffers]
    cases w.offers o.via with
    | false => rfl
    | true => simp [vary, Table.modify_snoc hlt]
  | advance j => exact advance_vary hf hmeets j
  | abandon j =>
    simp only [act]
    by_cases hj : j = i
    · subst hj
      have has : (w.vary j op).flights[j]? = some ((⟨old, st⟩ : Flight σ ρ).as op) := flight_vary hf
      simp only [has, hf, abandonable_as hmeets]
      cases Flight.abandonable ⟨old, st⟩ with
      | false => rfl
      | true => simp [vary_setStage_self hf, Stage.relabel]
    · rw [flight_vary_of_ne hj]
      cases w.flights[j]? with
      | none => rfl
      | some f => cases hab : f.abandonable <;> simp [hab, vary_setStage _ _ _ hj]
  -- the rest does not look at the operations in flight
  | clone | drop => by_cases hpos : 0 < w.handles <;> simp [act, hpos, vary]
  | upgrade =>
    simp only [act, vary_upgradable]
    cases w.upgradable <;> rfl
  | poll =>
    simp only [act, vary_task]
    rw [Option.map_map]
    congr 1
    funext t
    exact (vary_answer (w.withTask t) i op _).symm
  | receive => exact receive_vary
  | dropFuture =>
    simp only [act, vary_task]
    rw [Option.map_map]
    congr 1
    funext t
    exact (vary_answer (w.withTask t) i op _).symm
  | item f | streamEnd | lower | fire | dropRx | dropCtx =>
    simp only [act, vary_task]
    rw [Option.map_map]
    rfl

theorem step_vary (hf : w.flights[i]? = some ⟨old, st⟩) (hmeets : old.Meets op st)
    (l : Label σ ρ) : (w.vary i op).step E l = (w.step E l).map (vary i op) := by
  rw [step, act_vary hf hmeets, step, Option.map_map, Option.map_map]
  congr 1
  funext v
  exact vary_settle.symm

/-- What has got past its check does not come back to it, nor to its enqueueing. -/
theorem Moves.past {f g : Flight σ ρ} (h : Moves w f g) (hup : f.stage ≠ .upgrading)
    (hcheck : f.stage ≠ .checking) :
    g.op = f.op ∧ g.stage ≠ .upgrading ∧ g.stage ≠ .checking ∧ g.stage ≠ .enqueuing := by
  cases h with
  | upgraded | dropped => exact absurd rfl hup
  | passed | stopped => exact absurd rfl hcheck
  | accepted op hopen =>
    refine ⟨rfl, ?_⟩
    rw [Operation.afterAccept]
    cases op.awaits <;> simp
  | _ => simp

theorem meets_of_step {w' : World Q σ ρ} {l : Label σ ρ} (h : w.step E l = some w')
    (hf : w.flights[i]? = some ⟨old, st⟩) (hmeets : old.Meets op st) :
    ∃ st', w'.flights[i]? = some ⟨old, st'⟩ ∧ old.Meets op st' := by
  obtain ⟨v, hact, rfl⟩ := step_cases h
  rw [settle_flights]
  have hop : v.ops[i]? = some old := op_of_act hact (by simp [ops, hf])
  obtain ⟨g, hg, -⟩ := Option.map_eq_some_iff.mp (by simpa [ops] using hop)
  -- either the step leaves this operation alone, or it moves it on, or it began it
  rcases flight_of_act hact hg with hsame | ⟨f, hf', hmove⟩ | ⟨op', rfl, -⟩
  · exact ⟨st, by rw [hg, ← hsame, hf], hmeets⟩
  · rw [hf] at hf'
    cases hf'
    obtain ⟨hsame, hup, hcheck, henq⟩ := hmove.past hmeets.past.1 hmeets.past.2
    rcases g with ⟨gop, st'⟩
    cases hsame
    exact ⟨st', hg, hmeets.payload, hmeets.awaits, ⟨hup, hcheck⟩, fun h => absurd h henq⟩
  · cases hact with
    | begin _ hvia => exact ⟨st, Table.getElem?_snoc_of_some hf, hmeets⟩
    | silent tl t hl ht => cases hl

/-- What becomes of a world in which `ls` happens next. -/
def goesOn (E : EventLoop σ) (w : World Q σ ρ) (ls : List (Label σ ρ)) : Option (World Q σ ρ) :=
  (⟨w, step E⟩ : Machine (World Q σ ρ) (Label σ ρ)).execFrom w ls

theorem goesOn_vary (hf : w.flights[i]? = some ⟨old, st⟩) (hmeets : old.Meets op st)
    (ls : List (Label σ ρ)) : (w.vary i op).goesOn E ls = (w.goesOn E ls).map (vary i op) := by
  refine Machine.execFrom_map (M := ⟨w, step E⟩) (N := ⟨w.vary i op, step E⟩)
    (I := fun w => ∃ st, w.flights[i]? = some ⟨old, st⟩ ∧ old.Meets op st) (C := fun _ => True)
    ?_ ?_ ⟨st, hf, hmeets⟩ ls fun _ _ => trivial
  · rintro s l ⟨st, hf, hmeets⟩ -
    exact step_vary hf hmeets l
  · rintro s l s' ⟨st, hf, hmeets⟩ - hstep
    exact meets_of_step (E := E) hstep hf hmeets

theorem meets_of_execFrom {ls : List (Label σ ρ)} {u v : World Q σ ρ}
    (h : (⟨u, step E⟩ : Machine (World Q σ ρ) (Label σ ρ)).execFrom w ls = some v)
    (hf : w.flights[i]? = some ⟨old, st⟩) (hmeets : old.Meets op st) :
    ∃ st', v.flights[i]? = some ⟨old, st'⟩ ∧ old.Meets op st' := by
  -- over the run, with the stage generalised: `Meets` is what each step keeps
  induction ls generalizing w st with
  | nil =>
    cases h
    exact ⟨st, hf, hmeets⟩
  | cons l ls ih =>
    obtain ⟨w', hstep, hrest⟩ := Option.bind_eq_some_iff.mp h
    obtain ⟨st', hf', hmeets'⟩ := meets_of_step (E := E) hstep hf hmeets
    exact ih hrest hf' hmeets'

/-! ## An operation as far as it gets alone

An operation begun while an address exists takes its steps with nothing in between: the check of the
running flag, the attempt to enqueue, and then it waits. `attempted` is that outcome written out;
`attempt_strong` and `attempt_weak` show that both ways in come to it. -/

/-- Operation `i` takes up to `n` steps. -/
def proceed (E : EventLoop σ) (i : ℕ) : ℕ → World Q σ ρ → World Q σ ρ
  | 0, w => w
  | n + 1, w =>
    match w.step E (.advance i) with
    | some w' => proceed E i n w'
    | none => w

/-- The operation is begun, and upgrades, checks and enqueues, or waits for space. -/
def attempt (E : EventLoop σ) (w : World Q σ ρ) (op : Operation σ ρ) : Option (World Q σ ρ) :=
  (w.step E (.begin op)).map (proceed E w.flights.length 3)

/-- The world with one operation more. -/
def extend (w : World Q σ ρ) (op : Operation σ ρ) (st : Stage ρ) : World Q σ ρ :=
  { w with flights := w.flights ++ [⟨op, st⟩] }

/-- Where that gets an operation that checks the flag. -/
def attempted (w : World Q σ ρ) (op : Operation σ ρ) : World Q σ ρ :=
  if w.task.running then
    match op.primitive.enqueue w.mailbox ⟨w.flights.length, op.payload⟩ with
    | none => w.extend op .enqueuing
    | some (.error ()) => w.extend op (.returned (.error op.rejected))
    | some (.ok (evicted, q)) => (w.extend op .enqueuing).accept w.flights.length op evicted q
  else w.extend op (.returned (.error op.rejected))

omit [AsyncChannel Q] in
theorem flight_extend : (w.extend op st).flights[w.flights.length]? = some ⟨op, st⟩ :=
  List.getElem?_concat_length

omit [AsyncChannel Q] in
theorem setStage_extend (st' : Stage ρ) :
    (w.extend op st).setStage w.flights.length st' = w.extend op st' := by
  simp only [setStage, extend, Table.modify_snoc_self]

/-- While there is an address the channel does not close by itself. -/
theorem settle_of_handles (h : 0 < w.handles) : w.settle = w := by
  have hsender : w.hasSender = true := by simp [hasSender, h]
  rw [settle, if_pos hsender]

theorem step_extend (h : 0 < w.handles) {u : World Q σ ρ}
    (hadv : (w.extend op st).advance w.flights.length = some u) (hu : u.handles = w.handles) :
    (w.extend op st).step E (.advance w.flights.length) = some u := by
  show ((w.extend op st).advance w.flights.length).map settle = _
  rw [hadv, Option.map_some, settle_of_handles (hu ▸ h)]

theorem proceed_of_none {n : ℕ} (h : w.advance i = none) : proceed E i n w = w := by
  cases n with
  | zero => rfl
  | succ n =>
    have hstep : w.step E (.advance i) = none := by
      show (w.advance i).map settle = none
      rw [h]
      rfl
    rw [proceed, hstep]

theorem proceed_of_some {n : ℕ} {u : World Q σ ρ} (h : w.step E (.advance i) = some u) :
    proceed E i (n + 1) w = proceed E i n u := by
  rw [proceed, h]

/-- What has returned, or awaits its response, gets no further alone. -/
theorem proceed_returned {n : ℕ} {res : Except ActorError (Option ρ)} :
    proceed E w.flights.length n (w.extend op (.returned res)) = w.extend op (.returned res) :=
  proceed_of_none (by rw [advance, flight_extend])

omit [AsyncChannel Q] in
theorem handles_accept {ev : Option (Envelope σ ρ)} {q : Q (Envelope σ ρ)} :
    (w.accept i op ev q).handles = w.handles := by
  cases ev <;> rfl

omit [AsyncChannel Q] in
theorem flight_accept {ev : Option (Envelope σ ρ)} {q : Q (Envelope σ ρ)}
    (hf : w.flights[i]? = some ⟨op, .enqueuing⟩) :
    (w.accept i op ev q).flights[i]? = some ⟨op, op.afterAccept⟩ :=
  Table.getElem?_modify_self (flight_evict hf ev)

theorem proceed_enqueuing (h : 0 < w.handles) (hrun : w.task.running = true) {n : ℕ} :
    proceed E w.flights.length (n + 1) (w.extend op .enqueuing) = w.attempted op := by
  -- the one step left: the payload is handed over, or it is not
  have hadv : (w.extend op .enqueuing).advance w.flights.length =
      match op.primitive.enqueue w.mailbox ⟨w.flights.length, op.payload⟩ with
      | none => none
      | some (.error ()) =>
        some ((w.extend op .enqueuing).setStage w.flights.length (.returned (.error op.rejected)))
      | some (.ok (ev, q)) => some ((w.extend op .enqueuing).accept w.flights.length op ev q) := by
    rw [advance, flight_extend]
    rfl
  rw [attempted, if_pos hrun]
  cases henq : op.primitive.enqueue w.mailbox ⟨w.flights.length, op.payload⟩ with
  | none =>
    simp only [henq] at hadv
    exact proceed_of_none hadv
  | some r =>
    rcases r with _ | ⟨ev, q⟩
    · simp only [henq, setStage_extend] at hadv
      rw [proceed_of_some (step_extend h hadv rfl)]
      exact proceed_returned
    · simp only [henq] at hadv
      rw [proceed_of_some (step_extend h hadv handles_accept)]
      refine proceed_of_none ?_
      rw [advance, flight_accept flight_extend]
      cases hawaits : op.awaits <;> simp [Operation.afterAccept, hawaits]

theorem proceed_checking (h : 0 < w.handles) {n : ℕ} :
    proceed E w.flights.length (n + 2) (w.extend op .checking) = w.attempted op := by
  -- the step before: the flag is read
  have hadv : (w.extend op .checking).advance w.flights.length =
      if w.task.running then some (w.extend op .enqueuing)
      else some (w.extend op (.returned (.error op.rejected))) := by
    rw [advance, flight_extend]
    simp only [setStage_extend]
    rfl
  cases hrun : w.task.running with
  | true =>
    rw [hrun, if_pos rfl] at hadv
    rw [proceed_of_some (step_extend h hadv rfl)]
    exact proceed_enqueuing h hrun
  | false =>
    rw [hrun, if_neg Bool.false_ne_true] at hadv
    rw [proceed_of_some (step_extend h hadv rfl), proceed_returned, attempted, hrun,
      if_neg Bool.false_ne_true]

theorem step_begin (h : 0 < w.handles) (hoffer : w.offers op.via = true) :
    w.step E (.begin op) = some (w.extend op op.first) := by
  show (if w.offers op.via then some (w.extend op op.first) else none).map settle = _
  rw [if_pos hoffer, Option.map_some, settle_of_handles (w := w.extend op op.first) h]

/-- **How far an operation of a handle gets.** -/
theorem attempt_strong (h : 0 < w.handles) (hvia : op.via = .strong) (hchecks : op.checks = true) :
    w.attempt E op = some (w.attempted op) := by
  have hfirst : op.first = .checking := by simp [Operation.first, hvia, Operation.entry, hchecks]
  rw [attempt, step_begin h (by simp [hvia, offers, h]), hfirst, Option.map_some,
    proceed_checking (n := 1) h]

theorem attempt_weak (h : 0 < w.handles) (hup : w.upgradable = true) (hvia : op.via = .weak)
    (hchecks : op.checks = true) : w.attempt E op = some (w.attempted op) := by
  have hfirst : op.first = .upgrading := by simp [Operation.first, hvia]
  -- beginning the operation takes no sender away, so the upgrade still succeeds
  have hup' : (w.extend op .upgrading).upgradable = true := by
    have hopen : w.closed = false := by
      rw [upgradable, Bool.and_eq_true, Bool.not_eq_true'] at hup
      exact hup.1
    have hopen' : (w.extend op .upgrading).closed = false := hopen
    have hsender : (w.extend op .upgrading).hasSender = true := by
      have h' : 0 < (w.extend op .upgrading).handles := h
      simp [hasSender, h']
    rw [upgradable, hopen', hsender]
    rfl
  have hadv : (w.extend op .upgrading).advance w.flights.length = some (w.extend op .checking) := by
    rw [advance, flight_extend]
    simp only [hup', setStage_extend, Operation.entry, hchecks, if_true]
  rw [attempt, step_begin h (by simp [hvia, offers]), hfirst, Option.map_some,
    proceed_of_some (step_extend h hadv rfl), proceed_checking (n := 0) h]

end World

/-! ## Agreement

Two operations whose attempts enqueue alike end in states that differ by `vary` only, so the
previous sections give the same decision, the same mailbox, and the same response after any
continuation. -/

/-- What an operation has decided. -/
inductive Decision where
  | open
  | enqueued
  | waits
  | rejected
  deriving DecidableEq, Repr

def Stage.decision : Stage ρ → Decision
  | .enqueuing => .waits
  | .waiting _ | .returned (.ok _) => .enqueued
  | .returned (.error _) => .rejected
  | _ => .open

/-- `AlreadyStopped` and `ChannelClosed` are the same here. -/
def Stage.blur : Stage ρ → Stage ρ
  | .returned (.error .alreadyStopped) => .returned (.error .channelClosed)
  | st => st

theorem Stage.decision_relabel (e e' : ActorError) (st : Stage ρ) :
    (st.relabel e e').decision = st.decision := by
  cases st with
  | returned res => cases res <;> rfl
  | _ => rfl

theorem Stage.blur_relabel {e e' : ActorError} (he : e = .alreadyStopped ∨ e = .channelClosed)
    (he' : e' = .alreadyStopped ∨ e' = .channelClosed) (st : Stage ρ) :
    (st.relabel e e').blur = st.blur := by
  cases st with
  | returned res =>
    cases res with
    | ok r => rfl
    | error x =>
      rw [relabel]
      split
      · next hx =>
        subst hx
        rcases he with rfl | rfl <;> rcases he' with rfl | rfl <;> rfl
      · rfl
  | _ => rfl

namespace World

variable [AsyncChannel Q] {E : EventLoop σ} {w : World Q σ ρ} {op op' : Operation σ ρ}
  {f : TaskFn σ ρ}

/-- Where operation `i` stands. -/
def stageOf (w : World Q σ ρ) (i : ℕ) : Option (Stage ρ) := (w.flights[i]?).map Flight.stage

/-- Begun in the state `w`, the two operations decide the same and leave the same mailbox; and
whatever happens then, they have the same mailbox before them and come to the same response. -/
structure Agree (E : EventLoop σ) (w : World Q σ ρ) (op op' : Operation σ ρ) : Prop where
  decision : (w.attempt E op).map (fun u => (u.stageOf w.flights.length).map Stage.decision)
    = (w.attempt E op').map (fun u => (u.stageOf w.flights.length).map Stage.decision)
  mailbox : (w.attempt E op).map World.mailbox = (w.attempt E op').map World.mailbox
  response : ∀ ls, ((w.attempt E op).bind fun u => u.goesOn E ls).map
      (fun v => (v.mailbox, (v.stageOf w.flights.length).map Stage.blur))
    = ((w.attempt E op').bind fun u => u.goesOn E ls).map
      (fun v => (v.mailbox, (v.stageOf w.flights.length).map Stage.blur))

omit [AsyncChannel Q] in
theorem stageOf_vary {i : ℕ} (hop : w.ops[i]? = some op) :
    ((w.vary i op').stageOf i).map Stage.decision = (w.stageOf i).map Stage.decision
      ∧ ((w.vary i op').stageOf i).map Stage.blur = (w.stageOf i).map Stage.blur := by
  obtain ⟨⟨o, st⟩, hf, rfl⟩ := Option.map_eq_some_iff.mp (by simpa [ops] using hop)
  rw [stageOf, stageOf, flight_vary hf, hf]
  simp only [Option.map_some, Stage.decision_relabel,
    Stage.blur_relabel o.rejected_cases op'.rejected_cases, and_self]

/-- How far the other operation gets. -/
theorem attempted_vary (hpayload : op'.payload = op.payload) (hawaits : op'.awaits = op.awaits)
    (henq : w.task.running = true →
      op'.primitive.enqueue w.mailbox ⟨w.flights.length, op.payload⟩
        = op.primitive.enqueue w.mailbox ⟨w.flights.length, op.payload⟩) :
    w.attempted op' = (w.attempted op).vary w.flights.length op' := by
  have hextend : ∀ st, (w.extend op st).vary w.flights.length op'
      = w.extend op' (st.relabel op.rejected op'.rejected) := by
    intro st
    simp only [vary, extend, Table.modify_snoc_self]
    rfl
  unfold attempted
  cases hrun : w.task.running with
  | false => simp [hextend, Stage.relabel]
  | true =>
    simp only [if_true, hpayload, henq hrun]
    -- waiting for room, rejected, or accepted: three ways in which the attempt ends
    cases op.primitive.enqueue w.mailbox ⟨w.flights.length, op.payload⟩ with
    | none => exact (hextend .enqueuing).symm
    | some r =>
      rcases r with _ | ⟨ev, q⟩
      · simp [hextend, Stage.relabel]
      · show _ = ((w.extend op .enqueuing).accept w.flights.length op ev q).vary
          w.flights.length op'
        rw [vary_accept_self flight_extend hpayload hawaits, hextend]
        rfl

/-- Where an operation stands that has got as far as it gets alone: it still enqueues only if it
waits for space. -/
theorem flight_attempted (w : World Q σ ρ) (op : Operation σ ρ) :
    ∃ st, (w.attempted op).flights[w.flights.length]? = some ⟨op, st⟩
      ∧ (st ≠ .upgrading ∧ st ≠ .checking)
      ∧ (st = .enqueuing → w.task.running = true
          ∧ op.primitive.enqueue w.mailbox ⟨w.flights.length, op.payload⟩ = none) := by
  unfold attempted
  cases hrun : w.task.running with
  | false => exact ⟨_, flight_extend, ⟨nofun, nofun⟩, nofun⟩
  | true =>
    cases henq : op.primitive.enqueue w.mailbox ⟨w.flights.length, op.payload⟩ with
    | none => exact ⟨_, flight_extend, ⟨nofun, nofun⟩, fun _ => ⟨rfl, rfl⟩⟩
    | some r =>
      -- rejected at once, or accepted and past its enqueueing
      rcases r with _ | ⟨ev, q⟩
      · exact ⟨_, flight_extend, ⟨nofun, nofun⟩, nofun⟩
      · refine ⟨_, flight_accept flight_extend, ?_⟩
        cases hawaits : op.awaits <;> simp [Operation.afterAccept, hawaits]

/-- Two operations that get as far, and enqueue alike, agree. -/
theorem agree_of_enqueue (hop : w.attempt E op = some (w.attempted op))
    (hop' : w.attempt E op' = some (w.attempted op')) (hpayload : op'.payload = op.payload)
    (hawaits : op'.awaits = op.awaits)
    (henq : w.task.running = true →
      op'.primitive.enqueue w.mailbox ⟨w.flights.length, op.payload⟩
        = op.primitive.enqueue w.mailbox ⟨w.flights.length, op.payload⟩) : Agree E w op op' := by
  obtain ⟨st, hf, hpast, hwaits⟩ := flight_attempted w op
  have hvary := attempted_vary hpayload hawaits henq
  have hmeets : op.Meets op' st := by
    refine ⟨hpayload, hawaits, hpast, fun hst => ?_⟩
    -- both wait for space, which only `send` does
    obtain ⟨hrun, hnone⟩ := hwaits hst
    rw [send_of_waits hnone, send_of_waits ((henq hrun).trans hnone)]
  have hops : (w.attempted op).ops[w.flights.length]? = some op := by simp [ops, hf]
  refine ⟨?_, ?_, fun ls => ?_⟩
  -- the same decision, the same mailbox, and the same ever after
  · rw [hop, hop', hvary, Option.map_some, Option.map_some, (stageOf_vary hops).1]
  · rw [hop, hop', hvary]
    rfl
  · rw [hop, hop', hvary, Option.bind_some, Option.bind_some, goesOn_vary hf hmeets, Option.map_map]
    cases hrun : (w.attempted op).goesOn E ls with
    | none => rfl
    | some v =>
      have hopv : v.ops[w.flights.length]? = some op := by
        obtain ⟨st', hf', -⟩ := meets_of_execFrom hrun hf hmeets
        simp [ops, hf']
      have hblur : ((v.vary w.flights.length op').stageOf w.flights.length).map Stage.blur
          = (v.stageOf w.flights.length).map Stage.blur := (stageOf_vary hopv).2
      simp [hblur]

/-! ## All the handles

The only difference between the handles is `try_send` against `send`, and these differ exactly on a
mailbox that is open and full. A stopped actor hides even that, since the flag is read first. -/

/-- What is sent, or called with, agrees for all the handles it can be sent through. -/
structure AllAgree (E : EventLoop σ) (w : World Q σ ρ) (f : TaskFn σ ρ) : Prop where
  call : Agree E w (Addr.call f) (Caller.call f)
  weakCall : w.upgradable = true → Agree E w (Addr.call f) (WeakCaller.upgradeAndCall f)
  send : Agree E w (Addr.send f) (Sender.send f)
  weakSend : w.upgradable = true → Agree E w (Addr.send f) (WeakSender.upgradeAndSend f)
  trySend : Agree E w (Addr.trySend f) (Sender.trySend f)

/-- The mailbox of an actor that runs is open, and has no space left. -/
def Backpressured (w : World Q σ ρ) : Prop :=
  w.task.running = true ∧ w.closed = false ∧ w.full = true

/-- Unless it is full, `try_send` does what `send` does. -/
theorem enqueue_send_of_room (hroom : ¬ (w.closed = false ∧ w.full = true))
    (e : Envelope σ ρ) :
    Primitive.send.enqueue w.mailbox e = Primitive.trySend.enqueue w.mailbox e := by
  unfold Primitive.enqueue
  cases htry : AsyncChannel.trySend w.mailbox e with
  | ok q => rfl
  | error err =>
    cases err with
    | full => exact absurd (AsyncChannel.trySend_full htry) hroom
    | closed => rfl

theorem trySend_of_full (hopen : w.closed = false) (hfull : w.full = true) (e : Envelope σ ρ) :
    AsyncChannel.trySend w.mailbox e = .error .full := by
  cases htry : AsyncChannel.trySend w.mailbox e with
  | ok q =>
    obtain ⟨-, hroom, -⟩ := AsyncChannel.trySend_ok htry
    cases hfull.symm.trans hroom
  | error err =>
    cases err with
    | full => rfl
    | closed => cases hopen.symm.trans (AsyncChannel.trySend_closed htry)

/-- Under backpressure a call through an address is rejected, and one through a caller waits. -/
theorem call_backpressured (h : 0 < w.handles) (hback : w.Backpressured) :
    (w.attempt E (Addr.call f)).map (fun u => (u.stageOf w.flights.length).map Stage.decision)
        = some (some .rejected)
      ∧ (w.attempt E (Caller.call f)).map (fun u => (u.stageOf w.flights.length).map Stage.decision)
        = some (some .waits) := by
  obtain ⟨hrun, hopen, hfull⟩ := hback
  have htry := trySend_of_full hopen hfull
  -- `Addr::call` uses `try_send`, `Caller::call` uses `send`
  constructor
  · rw [attempt_strong h rfl rfl, attempted, if_pos hrun]
    simp [Addr.call, Primitive.enqueue, htry, stageOf, flight_extend, Stage.decision]
  · rw [attempt_strong h rfl rfl, attempted, if_pos hrun]
    simp [Caller.call, Primitive.enqueue, htry, stageOf, flight_extend, Stage.decision]

/-- **The handles agree exactly when there is no backpressure.** In every state in which there is an
address to call on: for each message, all ways to call, to send and to try to send it decide the
same, leave the same mailbox, and come to the same response whatever happens next, if and only if
the mailbox of a running actor is not both open and full. -/
theorem agree_iff (E : EventLoop σ) (w : World Q σ ρ) (f : TaskFn σ ρ) (haddr : 0 < w.handles) :
    AllAgree E w f ↔ ¬ w.Backpressured := by
  constructor
  -- a full mailbox tells a call through an address from one through a caller
  · intro hall hback
    obtain ⟨haddr', hcaller⟩ := call_backpressured (E := E) (f := f) haddr hback
    have hsame := hall.call.decision
    rw [haddr', hcaller] at hsame
    cases hsame
  -- without one `send` and `try_send` enqueue alike, and each pair is a case of the same lemma
  · intro hback
    have henq : w.task.running = true → ∀ e : Envelope σ ρ,
        Primitive.send.enqueue w.mailbox e = Primitive.trySend.enqueue w.mailbox e :=
      fun hrun => enqueue_send_of_room fun hfull => hback ⟨hrun, hfull⟩
    have hstrong : ∀ op : Operation σ ρ, op.via = .strong → op.checks = true →
        w.attempt E op = some (w.attempted op) := fun op => attempt_strong haddr
    have hweak : w.upgradable = true → ∀ op : Operation σ ρ, op.via = .weak → op.checks = true →
        w.attempt E op = some (w.attempted op) := fun hup op => attempt_weak haddr hup
    exact
      { call := agree_of_enqueue (hstrong _ rfl rfl) (hstrong _ rfl rfl) rfl rfl
          fun hrun => henq hrun _
        weakCall := fun hup => agree_of_enqueue (hstrong _ rfl rfl) (hweak hup _ rfl rfl) rfl rfl
          fun hrun => henq hrun _
        send := agree_of_enqueue (hstrong _ rfl rfl) (hstrong _ rfl rfl) rfl rfl fun _ => rfl
        weakSend := fun hup => agree_of_enqueue (hstrong _ rfl rfl) (hweak hup _ rfl rfl) rfl rfl
          fun _ => rfl
        trySend := agree_of_enqueue (hstrong _ rfl rfl) (hstrong _ rfl rfl) rfl rfl fun _ => rfl }

/-- A message arrives at an actor that has not been polled. -/
def fillRun : List (Label ℕ ℕ) :=
  [.begin (Addr.trySend fun n => .completed (n + 1) none), .advance 0, .advance 0]

/-- Where there is room for a second one, both ways to call enqueue it, and all handles agree; where
there is none, they do not. -/
theorem agree_filled :
    let w := (machine ChannelState ℕ (.fromChannel (.provided 0)) (some 2) 0).after fillRun rfl
    let v := (machine ChannelState ℕ (.fromChannel (.provided 0)) (some 1) 0).after fillRun rfl
    let f : TaskFn ℕ ℕ := fun n => .completed n (some n)
    AllAgree (.fromChannel (.provided 0)) w f
      ∧ (w.attempt (.fromChannel (.provided 0)) (Addr.call f)).map
        (fun u => u.queued.length) = some 2
      ∧ (w.attempt (.fromChannel (.provided 0)) (Caller.call f)).map
        (fun u => u.queued.length) = some 2
      ∧ ¬ AllAgree (.fromChannel (.provided 0)) v f :=
  ⟨(agree_iff _ _ _ (by decide)).mpr fun hback => Bool.false_ne_true hback.2.2, rfl, rfl,
    fun hall => (agree_iff _ _ _ (by decide)).mp hall ⟨rfl, rfl, rfl⟩⟩

/-- With room for one message, `Addr::call` then returns `AlreadyStopped`, and `Caller::call`
waits. -/
theorem fillRun_disagree :
    ∃ w : World ChannelState ℕ ℕ,
      (machine ChannelState ℕ (.fromChannel (.provided 0)) (some 1) 0).Run fillRun w
        ∧ 0 < w.handles
        ∧ (w.attempt (.fromChannel (.provided 0)) (Addr.call fun n => .completed n (some n))).bind
            (fun u => u.stageOf 1) = some (.returned (.error .alreadyStopped))
        ∧ (w.attempt (.fromChannel (.provided 0)) (Caller.call fun n => .completed n (some n))).bind
            (fun u => u.stageOf 1) = some .enqueuing
        ∧ ¬ AllAgree (.fromChannel (.provided 0)) w (fun n => .completed n (some n)) := by
  refine ⟨_, .of_exec rfl, by decide, rfl, rfl, fun hall => ?_⟩
  have hsame := hall.call.decision
  cases hsame

end World

end Hannibal
