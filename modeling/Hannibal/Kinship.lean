import Hannibal.Family

/-!
# Hannibal.Kinship — what holds of every family

* **`Moves`**, **`moves_of_act`** — what one step does to one actor.
* **`of_settle`** — and what the reaction of the channels adds; `attached_of_settle` says that what
  they leave allocated has a handle.
* **`Family.Inv`** — flags, tables, handles, mailboxes and queues agree; `inv_step` is its step
lemma. -/

namespace Hannibal

open Lts Chan
open AsyncChannel (state)

namespace Family

variable {Q : Type → Type} {κ σ ρ : Type} {E : ℕ → EventLoop σ} {w w' : Family Q κ σ ρ} {c p : ℕ}
  {l : FamilyLabel κ σ ρ} {m m' : Member Q κ σ ρ} {k : MessageType κ} {b : Child κ}
  {e : Parcel σ ρ} {D : Parcel σ ρ → Prop}

/-! ## What one step can do to an actor

`Moves` says of one actor how each of its parts may change in a step of the family; an actor that
only gets a message forwarded is `Delivered`. The invariants of the family are derived from
these. -/

/-- Only its mailbox gets something, of which `D` holds, while its flag is up. -/
structure Delivered [AsyncChannel Q] (D : Parcel σ ρ → Prop) (m m' : Member Q κ σ ρ) : Prop where
  task : m'.task = m.task
  others : m'.others = m.others
  weaks : m'.weaks = m.weaks
  children : m'.children = m.children
  allocated : m'.allocated = m.allocated
  capacity : (state m'.mailbox).capacity = (state m.mailbox).capacity
  closed : (state m'.mailbox).closed = (state m.mailbox).closed
  queued : ∀ x ∈ (state m'.mailbox).queued,
    x ∈ (state m.mailbox).queued ∨ (D x ∧ m.task.running = true)

/-- Only mailboxes get something. -/
structure Undisturbed [AsyncChannel Q] (D : Parcel σ ρ → Prop) (w w' : Family Q κ σ ρ) : Prop where
  contexts : w'.contexts = w.contexts
  calls : w'.calls = w.calls
  length : w'.members.length = w.members.length
  members : ∀ (c : ℕ) (m' : Member Q κ σ ρ), w'.members[c]? = some m' →
    ∃ m, w.members[c]? = some m ∧ Delivered D m m'

/-- A loop that waits has a message in its mailbox that owns a handle to `c`. -/
def Popping [AsyncChannel Q] (w : Family Q κ σ ρ) (c : ℕ) : Prop :=
  ∃ (i : ℕ) (n : Member Q κ σ ρ), w.members[i]? = some n ∧ n.task.loop.pc = .receiving
    ∧ ∃ e ∈ (state n.mailbox).queued, c ∈ e.owns

/-- Everything the step `l` can do to actor `c`, before the channels react. -/
structure Moves [AsyncChannel Q] [DecidableEq κ] (E : EventLoop σ) (w : Family Q κ σ ρ)
    (l : FamilyLabel κ σ ρ) (c : ℕ) (m m' : Member Q κ σ ρ) : Prop where
  task : m'.task = m.task ∨ ∃ k, m.task.step E k = some m'.task
  /-- a strong handle comes from another one, from an upgrade, or out of a message -/
  others : 0 < m'.others → 0 < m.others ∨ w.upgradable c = true ∨ w.Popping c
  /-- what gets into the table is a `Sender` for its key, of an actor one has a `Sender` of -/
  children : ∀ k, ∀ b ∈ m'.children.vec k, b ∈ m.children.vec k
    ∨ (m.task.loop.pc.inCall = true ∧ b.message = k ∧ w.atHand b.actor = true)
  /-- the table is dropped with the `Context` -/
  released : m'.task.ctx = false → m.task.ctx = false ∨ m'.children = ∅
  /-- without a reaction, a mailbox closes when its receiver is dropped, and only then -/
  closed : (state m'.mailbox).closed = true →
    (state m.mailbox).closed = true ∨ m'.task.rx = false
  staysClosed : (state m.mailbox).closed = true ∨ (m.task.rx = true ∧ m'.task.rx = false) →
    (state m'.mailbox).closed = true
  /-- what gets into the mailbox owns handles that are at hand; where the flag is down, it comes
  from an operation that has looked at it before -/
  queued : ∀ x ∈ (state m'.mailbox).queued, x ∈ (state m.mailbox).queued
    ∨ ((∀ d ∈ x.owns, w.handled d = true) ∧ (m.task.running = true ∨ ∃ op, l = .arrive c op x))
  allocated : m'.allocated = m.allocated

variable [AsyncChannel Q] [DecidableEq κ]

theorem Moves.of_delivered {F : EventLoop σ} (h : Delivered D m m')
    (hD : ∀ x, D x → ∀ d ∈ x.owns, w.handled d = true) : Moves F w l c m m' where
  task := .inl h.task
  others := by rw [h.others]; exact .inl
  children k b hb := by rw [h.children] at hb; exact .inl hb
  released := by rw [h.task]; exact .inl
  closed := by rw [h.closed]; exact .inl
  staysClosed := by
    rintro (hclosed | ⟨hrx, hrx'⟩)
    · rw [h.closed]
      exact hclosed
    · rw [h.task, hrx] at hrx'
      cases hrx'
  queued x hx := (h.queued x hx).imp_right fun ⟨hDx, hrun⟩ => ⟨hD x hDx, .inl hrun⟩
  allocated := h.allocated

omit [DecidableEq κ] in
theorem Delivered.refl : Delivered D m m := ⟨rfl, rfl, rfl, rfl, rfl, rfl, rfl, fun _ => .inl⟩

omit [DecidableEq κ] in
theorem Delivered.trans {m'' : Member Q κ σ ρ} (h : Delivered D m m') (h' : Delivered D m' m'') :
    Delivered D m m'' where
  task := h'.task.trans h.task
  others := h'.others.trans h.others
  weaks := h'.weaks.trans h.weaks
  children := h'.children.trans h.children
  allocated := h'.allocated.trans h.allocated
  capacity := h'.capacity.trans h.capacity
  closed := h'.closed.trans h.closed
  queued x hx := by
    rcases h'.queued x hx with hold | ⟨hD, hrun⟩
    · exact h.queued x hold
    · exact .inr ⟨hD, h.task ▸ hrun⟩

theorem Moves.refl {F : EventLoop σ} : Moves F w l c m m :=
  .of_delivered (D := fun _ => False) .refl fun _ hx => hx.elim

omit [DecidableEq κ] in
/-- `force_send` puts its message into the mailbox of an actor that is running, or does nothing. -/
theorem forceSend_cases (w : Family Q κ σ ρ) (c : ℕ) (e : Parcel σ ρ) : w.forceSend c e = w
    ∨ ∃ m ev q, w.members[c]? = some m ∧ m.task.running = true
      ∧ AsyncChannel.forceSend m.mailbox e = some (ev, q)
      ∧ w.forceSend c e
        = { w.update c (fun m => { m with mailbox := q }) with sent := w.sent ++ [(c, e)] } := by
  rw [forceSend]
  cases hm : w.members[c]? with
  | none => exact .inl rfl
  | some m =>
    cases hrun : m.task.running with
    | false => exact .inl (by simp [hrun])
    | true =>
      cases hsend : AsyncChannel.forceSend m.mailbox e with
      | none => exact .inl (by simp [hrun, hsend])
      | some p => exact .inr ⟨m, p.1, p.2, rfl, hrun, hsend, by simp [hrun, hsend]⟩

omit [DecidableEq κ] in
theorem forceSend_of_not_running (hrun : w.running c = false) : w.forceSend c e = w := by
  rcases forceSend_cases w c e with hsame | ⟨m, ev, q, hm, hup, -⟩
  · exact hsame
  · cases hrun.symm.trans (running_iff.mpr ⟨m, hm, hup⟩)

/-- What is queued where something was enqueued was there before, or is what was enqueued. -/
theorem mem_queued_of_push {α : Type} {q q' : ChannelState α} {a x : α} (hq : q' = q.push a)
    (hx : x ∈ q'.queued) : x ∈ q.queued ∨ x = a := by
  rw [hq, ChannelState.push_queued] at hx
  simpa using hx

/-- The same where the oldest had to make room. -/
theorem mem_queued_of_evict {α : Type} {q q' : ChannelState α} {a x : α}
    (hq : q' = q.dropOldest.push a) (hx : x ∈ q'.queued) : x ∈ q.queued ∨ x = a :=
  (mem_queued_of_push hq hx).imp_left List.mem_of_mem_tail

omit [DecidableEq κ] in
theorem undisturbed_forceSend (w : Family Q κ σ ρ) (i : ℕ) (e : Parcel σ ρ) (he : D e) :
    Undisturbed D w (w.forceSend i e) := by
  rcases forceSend_cases w i e with hsame | ⟨m, ev, q, hm, hrun, hsend, hw'⟩
  · rw [hsame]
    exact ⟨rfl, rfl, rfl, fun _ m' hm' => ⟨m', hm', .refl⟩⟩
  · rw [hw']
    refine ⟨rfl, rfl, List.length_modify .., fun c m' hm' => ?_⟩
    rcases Table.of_getElem?_modify hm' with ⟨-, hold⟩ | ⟨rfl, n, hn, rfl⟩
    · exact ⟨m', hold, .refl⟩
    · cases hm.symm.trans hn
      have hnew : ∀ {x}, x = e → D x ∧ m.task.running = true := fun hx => ⟨hx ▸ he, hrun⟩
      obtain ⟨hopen, ⟨-, -, hq⟩ | ⟨-, -, hq⟩⟩ := AsyncChannel.forceSend_some hsend
      · exact ⟨m, hm, rfl, rfl, rfl, rfl, rfl, by simp [hq], by simp [hq],
          fun x hx => (mem_queued_of_push hq hx).imp_right hnew⟩
      · exact ⟨m, hm, rfl, rfl, rfl, rfl, rfl, by simp [hq], by simp [hq],
          fun x hx => (mem_queued_of_evict hq hx).imp_right hnew⟩

omit [DecidableEq κ] in
theorem Undisturbed.refl : Undisturbed D w w := ⟨rfl, rfl, rfl, fun _ m' hm' => ⟨m', hm', .refl⟩⟩

omit [DecidableEq κ] in
theorem Undisturbed.trans {u v : Family Q κ σ ρ} (h : Undisturbed D w u) (h' : Undisturbed D u v) :
    Undisturbed D w v where
  contexts := h'.contexts.trans h.contexts
  calls := h'.calls.trans h.calls
  length := h'.length.trans h.length
  members c m'' hm'' := by
    obtain ⟨m', hm', hd'⟩ := h'.members c m'' hm''
    obtain ⟨m, hm, hd⟩ := h.members c m' hm'
    exact ⟨m, hm, hd.trans hd'⟩

omit [DecidableEq κ] in
theorem undisturbed_foldl {α : Type} (target : α → ℕ) (e : Family Q κ σ ρ → α → Parcel σ ρ)
    (bs : List α) (w : Family Q κ σ ρ) (he : ∀ w b, D (e w b)) :
    Undisturbed D w (bs.foldl (fun w b => w.forceSend (target b) (e w b)) w) := by
  induction bs generalizing w with
  | nil => exact .refl
  | cons b bs ih => exact (undisturbed_forceSend w (target b) (e w b) (he w b)).trans (ih _)

theorem forward_eq (w : Family Q κ σ ρ) (p : ℕ) (msg : Message κ σ ρ) : w.forward p msg
    = ((w.registered p msg.type).filterMap (Children.downcastRef msg.type)).foldl
        (fun w b => w.forceSend b.actor (msg.copy w.calls b.actor)) w := by
  rw [forward, registered]
  cases hm : w.members[p]? with
  | none => rfl
  | some m =>
    rw [Option.bind_some, Option.elim_some, Children.vec]
    cases m.children.lookup msg.type <;> rfl

/-- All copies of a message own what it owns. -/
theorem undisturbed_forward (w : Family Q κ σ ρ) (p : ℕ) (msg : Message κ σ ρ) :
    Undisturbed (fun x => x.owns = msg.owns) w (w.forward p msg) := by
  rw [forward_eq]
  exact undisturbed_foldl Child.actor (fun w b => msg.copy w.calls b.actor) _ w fun _ _ => rfl

/-! Each part of an actor is changed in a few ways only. -/

theorem moves_others {F : EventLoop σ} {n j : ℕ}
    (hn : 0 < n → 0 < m.others ∨ w.upgradable c = true) :
    Moves F w l c m { m with others := n, weaks := j } where
  task := .inl rfl
  others hpos := (hn hpos).imp_right .inl
  children _ _ hb := .inl hb
  released := .inl
  closed := .inl
  staysClosed hor := hor.elim id fun ⟨hrx, hrx'⟩ => by cases hrx.symm.trans hrx'
  queued _ := .inl
  allocated := rfl

/-- What a message owned is in the hands of a handler. -/
theorem Moves.unpack {F : EventLoop σ} (h : Moves F w l c m m') {n j : ℕ}
    (hpop : 0 < n → w.Popping c) :
    Moves F w l c m { m' with others := m'.others + n, weaks := j } where
  task := h.task
  others hpos := by
    rcases Nat.eq_zero_or_pos n with rfl | hn
    · exact h.others hpos
    · exact .inr (.inr (hpop hn))
  children := h.children
  released := h.released
  closed := h.closed
  staysClosed := h.staysClosed
  queued := h.queued
  allocated := h.allocated

theorem moves_push {F : EventLoop σ} {actor : ℕ} (hcall : m.task.loop.pc.inCall = true)
    (hhand : w.atHand actor = true) :
    Moves F w l c m { m with children := m.children.push k ⟨k, actor⟩ } where
  task := .inl rfl
  others := .inl
  children k' b hb := by
    rw [Children.vec_push] at hb
    -- only the list of that message type is extended
    by_cases hk : k' = k
    · subst hk
      rw [if_pos rfl, List.mem_append, List.mem_singleton] at hb
      rcases hb with hold | rfl
      · exact .inl hold
      · exact .inr ⟨hcall, rfl, hhand⟩
    · rw [if_neg hk] at hb
      exact .inl hb
  released := .inl
  closed := .inl
  staysClosed hor := hor.elim id fun ⟨hrx, hrx'⟩ => by cases hrx.symm.trans hrx'
  queued _ := .inl
  allocated := rfl

theorem moves_removeStopped {F : EventLoop σ} {isAlive : Child κ → Bool} :
    Moves F w l c m { m with children := m.children.removeStopped isAlive } where
  task := .inl rfl
  others := .inl
  children k b hb := by
    rw [Children.vec_removeStopped] at hb
    exact .inl (List.mem_of_mem_filter hb)
  released := .inl
  closed := .inl
  staysClosed hor := hor.elim id fun ⟨hrx, hrx'⟩ => by cases hrx.symm.trans hrx'
  queued _ := .inl
  allocated := rfl

/-- A payload is accepted, and may evict another; that does not close the mailbox. -/
theorem moves_arrive {F : EventLoop σ} {op : Primitive} {ev : Option (Parcel σ ρ)}
    {q : Q (Parcel σ ρ)} (howns : ∀ d ∈ e.owns, w.handled d = true)
    (henq : op.enqueue m.mailbox e = some (.ok (ev, q))) :
    Moves F w (.arrive c op e) c m { m with mailbox := q } := by
  have hq : (state q).closed = (state m.mailbox).closed
      ∧ ∀ x ∈ (state q).queued, x ∈ (state m.mailbox).queued ∨ x = e := by
    obtain ⟨-, ⟨-, hq, -⟩ | ⟨-, -, -, hq⟩⟩ := enqueue_ok henq
    · exact ⟨by simp [hq], fun x => mem_queued_of_push hq⟩
    · exact ⟨by simp [hq], fun x => mem_queued_of_evict hq⟩
  refine ⟨.inl rfl, .inl, fun _ _ => .inl, .inl, fun hclosed => .inl (hq.1 ▸ hclosed), ?_,
    fun x hx => (hq.2 x hx).imp_right ?_, rfl⟩
  · exact fun hor => hq.1.trans (hor.elim id fun ⟨hrx, hrx'⟩ => by cases hrx.symm.trans hrx')
  · rintro rfl
    exact ⟨howns, .inr ⟨op, rfl⟩⟩

/-- The loop makes a step, and drops nothing. -/
theorem moves_task {F : EventLoop σ} {k : TaskLabel σ ρ} {t : LoopTask σ ρ} {q : Q (Parcel σ ρ)}
    (ht : m.task.step F k = some t) (hk : k ≠ .dropCtx) (hrx : k ≠ .dropRx)
    (hq : (state q).closed = (state m.mailbox).closed)
    (hqueue : ∀ x ∈ (state q).queued, x ∈ (state m.mailbox).queued) :
    Moves F w l c m { m with task := t, mailbox := q } where
  task := .inr ⟨k, ht⟩
  others := .inl
  children _ _ hb := .inl hb
  released hctx := by
    refine .inl ?_
    cases LoopTask.step_cases ht <;> first | exact hctx | exact absurd rfl hk
  closed hclosed := .inl (hq ▸ hclosed)
  staysClosed hor := by
    refine hq.trans (hor.elim id fun ⟨hup, hdown⟩ => ?_)
    cases LoopTask.step_cases ht <;> first | cases hup.symm.trans hdown | exact absurd rfl hrx
  queued x hx := .inl (hqueue x hx)
  allocated := rfl

theorem moves_dropRx {F : EventLoop σ} {t : LoopTask σ ρ} (ht : m.task.step F .dropRx = some t) :
    Moves F w l c m { m with task := t, mailbox := AsyncChannel.close m.mailbox } where
  task := .inr ⟨_, ht⟩
  others := .inl
  children _ _ hb := .inl hb
  released hctx := by cases LoopTask.step_cases ht; exact .inl hctx
  closed _ := by cases LoopTask.step_cases ht; exact .inr rfl
  staysClosed _ := by simp
  queued x hx := .inl (by simpa using hx)
  allocated := rfl

theorem moves_dropCtx {F : EventLoop σ} {t : LoopTask σ ρ} (ht : m.task.step F .dropCtx = some t) :
    Moves F w l c m { m with task := t, children := ∅ } where
  task := .inr ⟨_, ht⟩
  others := .inl
  children k b hb := by
    rw [Children.vec_empty] at hb
    cases hb
  released _ := .inr rfl
  closed := .inl
  staysClosed hor := by
    refine hor.elim id fun ⟨hup, hdown⟩ => ?_
    cases LoopTask.step_cases ht
    cases hup.symm.trans hdown
  queued _ := .inl
  allocated := rfl

omit [AsyncChannel Q] [DecidableEq κ] in
/-- An actor after a message was unpacked. -/
theorem of_unpack (hm' : (w.unpack e).members[c]? = some m') : ∃ m, w.members[c]? = some m
    ∧ m' = { m with others := m.others + e.owns.count c, weaks := m.weaks + e.weakly.count c } := by
  obtain ⟨m, hm, hm'⟩ := Option.map_eq_some_iff.mp (List.getElem?_mapIdx.symm.trans hm')
  exact ⟨m, hm, hm'.symm⟩

omit [AsyncChannel Q] [DecidableEq κ] in
/-- Only a loop that waits takes something. -/
theorem receiving_of_receive {F : EventLoop σ} {j : Input σ ρ} {t : LoopTask σ ρ}
    (ht : m.task.step F (.receive j) = some t) : m.task.loop.pc = .receiving := by
  cases LoopTask.step_cases ht with
  | receive _ s' hs => exact hs.receiving

/-- **What one step can do to an actor**: it is new, or it `Moves`. -/
theorem moves_of_act (h : Act E w l w') (hm' : w'.members[c]? = some m') :
    (∃ m, w.members[c]? = some m ∧ Moves (E c) w l c m m')
      ∨ (c = w.members.length
        ∧ ∃ capacity a, m' = ⟨AsyncChannel.new capacity, 1, 0, .init a, ∅, true⟩) := by
  -- the other actors are left alone
  have hupdate : ∀ {i : ℕ} {n : Member Q κ σ ρ} {φ : Member Q κ σ ρ → Member Q κ σ ρ} {m'},
      w.members[i]? = some n → Moves (E i) w l i n (φ n) → (w.members.modify i φ)[c]? = some m' →
      ∃ m, w.members[c]? = some m ∧ Moves (E c) w l c m m' := by
    intro i n φ m' hn hφ hmodify
    rcases Table.of_getElem?_modify hmodify with ⟨-, hold⟩ | ⟨rfl, m, hm, rfl⟩
    · exact ⟨m', hold, .refl⟩
    · cases hm.symm.trans hn
      exact ⟨n, hn, hφ⟩
  -- by the step: one member is updated, and `hupdate` does the others
  cases h with
  | spawn capacity a =>
    -- only a spawn makes an actor that was not there
    exact (Table.getElem?_snoc.mp hm').imp (fun hm => ⟨m', hm, .refl⟩)
      fun ⟨hc, hnew⟩ => ⟨hc, capacity, a, hnew⟩
  | clone i m hm hpos => exact .inl (hupdate hm (moves_others fun _ => .inl hpos) hm')
  | upgrade i m hm hup hhand => exact .inl (hupdate hm (moves_others fun _ => .inr hup) hm')
  | drop i n hm hpos => exact .inl (hupdate hm (moves_others fun _ => .inl hpos) hm')
  | arrive i op e m ev q hm hpos hprovides henq =>
    rw [provides, Bool.and_eq_true, List.all_eq_true] at hprovides
    exact .inl (hupdate hm (moves_arrive hprovides.1 henq) hm')
  | downgrade i m hm hhand => exact .inl (hupdate hm (moves_others .inl) hm')
  | dropWeak i m hm hpos => exact .inl (hupdate hm (moves_others .inl) hm')
  | turn i k m t hm ht hown =>
    have hk : k ≠ .dropCtx ∧ k ≠ .dropRx := by
      constructor <;> rintro rfl <;> cases hown
    exact .inl (hupdate hm (moves_task ht hk.1 hk.2 rfl fun _ => id) hm')
  | receive i n t e q hn hrecv ht =>
    obtain ⟨hqueue, hclosed, -⟩ := AsyncChannel.tryRecv_ok hrecv
    obtain ⟨m₁, hm₁, rfl⟩ := of_unpack hm'
    have htake : Moves (E i) w (.receive i) i n { n with task := t, mailbox := q } :=
      moves_task ht nofun nofun hclosed fun x hx => hqueue ▸ List.mem_cons_of_mem _ hx
    obtain ⟨m, hm, hmoves⟩ := hupdate hn htake hm₁
    -- what the message owned was in a queue that its loop waits at
    exact .inl ⟨m, hm, hmoves.unpack fun hcount =>
      ⟨i, n, hn, receiving_of_receive ht, e, hqueue ▸ List.mem_cons_self,
        List.count_pos_iff.mp hcount⟩⟩
  | receiveClosed i m t hm hrecv ht =>
    exact .inl (hupdate hm (moves_task ht nofun nofun rfl fun _ => id) hm')
  | dropRx i m t hm ht => exact .inl (hupdate hm (moves_dropRx ht) hm')
  | dropCtx i m t hm ht => exact .inl (hupdate hm (moves_dropCtx ht) hm')
  | addChild p i m hm hcall hhand => exact .inl (hupdate hm (moves_push hcall hhand) hm')
  | registerChild p k i m hm hcall hhand => exact .inl (hupdate hm (moves_push hcall hhand) hm')
  | sendToChildren p msg hcall hprovides =>
    rw [provides, Bool.and_eq_true, List.all_eq_true] at hprovides
    obtain ⟨m, hm, hd⟩ := (undisturbed_forward w p msg).members c m' hm'
    exact .inl ⟨m, hm, .of_delivered hd fun x hx d hd => hprovides.1 d (hx ▸ hd)⟩
  | gc p m hm hcall => exact .inl (hupdate hm moves_removeStopped hm')
  | upgradeStopped i hdown => exact .inl ⟨m', hm', .refl⟩
  | spawnTask p hcall => exact .inl ⟨m', hm', .refl⟩
  | stopTask p h hcall => exact .inl ⟨m', hm', .refl⟩
  | finishTask i => exact .inl ⟨m', hm', .refl⟩

/-- A `Context` is dropped in one way only. -/
theorem drops_of_act (h : Act E w l w') (hm : w.members[c]? = some m)
    (hm' : w'.members[c]? = some m') (hctx : m.task.ctx = true) (hgone : m'.task.ctx = false) :
    l = .dropCtx c := by
  -- an update that leaves the `Context` of its actor alone drops none
  have hkept : ∀ {i : ℕ} {n : Member Q κ σ ρ} {φ : Member Q κ σ ρ → Member Q κ σ ρ},
      w.members[i]? = some n → (φ n).task.ctx = n.task.ctx →
      (w.members.modify i φ)[c]? = some m' → l = .dropCtx c := by
    intro i n φ hn hφ hmodify
    rcases Table.of_getElem?_modify hmodify with ⟨-, hold⟩ | ⟨rfl, m₀, hm₀, rfl⟩
    · cases hm.symm.trans hold
      cases hctx.symm.trans hgone
    · cases hm.symm.trans hm₀
      cases hm.symm.trans hn
      cases (hφ.trans hctx).symm.trans hgone
  have hsame : w.members[c]? = some m' → l = .dropCtx c := by
    intro hold
    cases hm.symm.trans hold
    cases hctx.symm.trans hgone
  -- of the steps of a loop future only this one drops its `Context`
  have htask : ∀ {F : EventLoop σ} {k : TaskLabel σ ρ} {s t : LoopTask σ ρ},
      s.step F k = some t → k ≠ .dropCtx → t.ctx = s.ctx := by
    intro F k s t ht hk
    cases LoopTask.step_cases ht <;> first | rfl | exact absurd rfl hk
  cases h with
  | spawn capacity a =>
    refine hsame ?_
    rw [List.getElem?_append_left (List.getElem?_eq_some_iff.mp hm).1] at hm'
    exact hm'
  | turn i k n t hn ht hown =>
    refine hkept hn (htask ht ?_) hm'
    rintro rfl
    cases hown
  | receive i n t e q hn hrecv ht =>
    obtain ⟨m₁, hm₁, rfl⟩ := of_unpack hm'
    rcases Table.of_getElem?_modify hm₁ with ⟨-, hold⟩ | ⟨rfl, m₀, hm₀, rfl⟩
    · cases hm.symm.trans hold
      cases hctx.symm.trans hgone
    · cases hm.symm.trans hm₀
      cases hm.symm.trans hn
      cases ((htask ht (by nofun)).trans hctx).symm.trans hgone
  | receiveClosed i n t hn hrecv ht => exact hkept hn (htask ht (by nofun)) hm'
  | dropRx i n t hn ht => exact hkept hn (htask ht (by nofun)) hm'
  | dropCtx i n t hn ht =>
    rcases Table.of_getElem?_modify hm' with ⟨-, hold⟩ | ⟨rfl, -⟩
    · exact hsame hold
    · rfl
  | sendToChildren p msg hcall hprovides =>
    obtain ⟨m₀, hm₀, hd⟩ := (undisturbed_forward w p msg).members c m' hm'
    cases hm.symm.trans hm₀
    rw [hd.task, hctx] at hgone
    cases hgone
  | upgradeStopped | spawnTask | stopTask | finishTask => exact hsame hm'
  | clone i n hn | upgrade i n hn | drop i n hn | downgrade i n hn | dropWeak i n hn
  | addChild i j n hn | registerChild i j k n hn | gc i n hn => exact hkept hn rfl hm'
  | arrive i op e n ev q hn => exact hkept hn rfl hm'

/-- No actor is taken away. -/
theorem length_of_act (h : Act E w l w') : w.members.length ≤ w'.members.length := by
  cases h with
  | spawn capacity a => simp
  | sendToChildren p msg hcall hprovides => exact (undisturbed_forward w p msg).length.ge
  | receive c m t e q hm hrecv ht =>
    rw [unpack, List.length_mapIdx]
    exact (List.length_modify ..).ge
  | upgradeStopped i hdown => exact le_rfl
  | spawnTask p hcall => exact le_rfl
  | stopTask p h hcall => exact le_rfl
  | finishTask i => exact le_rfl
  | _ => exact (List.length_modify ..).ge

/-! ## The reaction of the channels

`settle` frees queues until none is left without a handle, and then closes the mailboxes that have
no sender. Freeing one queue drops what its messages own, which may leave another without a handle;
the number of allocated queues bounds how often this happens. -/

section React

omit [DecidableEq κ]

theorem free_members : (free w).members[c]?
    = (w.members[c]?).map fun m => { m with allocated := m.allocated && w.attached c m } :=
  List.getElem?_mapIdx

theorem close_members :
    (close w).members[c]? = (w.members[c]?).map fun m => m.react (w.hasSender c) :=
  List.getElem?_mapIdx

/-- Where every queue has a handle, none is freed. -/
theorem free_eq_self (hkept : ∀ (c : ℕ) (m : Member Q κ σ ρ), w.members[c]? = some m →
    m.allocated = true → w.attached c m = true) : free w = w := by
  have hmembers : (free w).members = w.members := by
    refine List.ext_getElem? fun c => ?_
    rw [free_members]
    cases hm : w.members[c]? with
    | none => rfl
    | some m =>
      have hsame : (m.allocated && w.attached c m) = m.allocated := by
        cases halloc : m.allocated with
        | true => exact hkept c m hm halloc
        | false => rfl
      rw [Option.map_some, hsame]
  calc free w = { w with members := (free w).members } := rfl
    _ = w := by rw [hmembers]

/-- A queue that is freed is one less to free. -/
theorem free_cases (w : Family Q κ σ ρ) : free w = w
    ∨ (free w).members.countP Member.allocated < w.members.countP Member.allocated := by
  by_cases hkept : ∀ (c : ℕ) (m : Member Q κ σ ρ), w.members[c]? = some m →
      m.allocated = true → w.attached c m = true
  · exact .inl (free_eq_self hkept)
  · simp only [not_forall, Bool.not_eq_true] at hkept
    obtain ⟨c, m, hm, halloc, hnone⟩ := hkept
    refine .inr (Table.countP_mapIdx_lt (fun c m hfreed => ?_) hm halloc (by simp [hnone]))
    rw [Bool.and_eq_true] at hfreed
    exact hfreed.1

/-- **What is left has a handle**, so that nothing more is freed. -/
theorem free_release : free w.release = w.release :=
  Table.iterate_settled (fun w => w.members.countP Member.allocated) free_cases
    List.countP_le_length

/-- What no round of freeing changes, all of them do not. -/
theorem release_induct {P : Family Q κ σ ρ → Prop} (hw : P w) (hfree : ∀ v, P v → P (free v)) :
    P w.release :=
  Function.Iterate.rec P hw hfree _

theorem of_release (hm' : w.release.members[c]? = some m') : ∃ m a, w.members[c]? = some m
    ∧ m' = { m with allocated := a } ∧ (a = true → m.allocated = true) := by
  refine release_induct (P := fun v => ∀ m', v.members[c]? = some m' → ∃ m a, w.members[c]? = some m
    ∧ m' = { m with allocated := a } ∧ (a = true → m.allocated = true)) ?_
      (fun v hv m' hm' => ?_) m' hm'
  · exact fun m' hm' => ⟨m', m'.allocated, hm', rfl, id⟩
  · rw [free_members] at hm'
    obtain ⟨n, hn, rfl⟩ := Option.map_eq_some_iff.mp hm'
    obtain ⟨m, a, hm, rfl, ha⟩ := hv n hn
    refine ⟨m, _, hm, rfl, fun hfreed => ha ?_⟩
    rw [Bool.and_eq_true] at hfreed
    exact hfreed.1

/-- Only the mailbox reacts, and it loses nothing. -/
theorem react_cases (m : Member Q κ σ ρ) (sender : Bool) :
    ∃ q, m.react sender = { m with mailbox := q }
    ∧ (state q).queued = (state m.mailbox).queued ∧ (state q).capacity = (state m.mailbox).capacity
    ∧ (state q).closed = ((state m.mailbox).closed || !sender) := by
  rw [Member.react]
  cases sender with
  | true => exact ⟨m.mailbox, by simp⟩
  | false =>
    cases hclosed : (state m.mailbox).closed with
    | true => exact ⟨m.mailbox, by simp [hclosed]⟩
    | false => exact ⟨AsyncChannel.close m.mailbox, by simp⟩

/-! ### What looks at nothing that changes

The reaction changes mailboxes and the allocation of queues. What is read off the other parts of a
member is the same afterwards; these are the simp lemmas of `settle`. -/

theorem release_map {β : Type} {f : Member Q κ σ ρ → β}
    (hf : ∀ m a, f { m with allocated := a } = f m) :
    (w.release.members[c]?).map f = (w.members[c]?).map f := by
  refine release_induct (P := fun v => (v.members[c]?).map f = (w.members[c]?).map f) rfl
    fun v hv => ?_
  rw [free_members, Option.map_map, ← hv]
  exact congrArg (Option.map · _) (funext fun m => hf m _)

theorem close_map {β : Type} {f : Member Q κ σ ρ → β}
    (hf : ∀ m q, f { m with mailbox := q } = f m) :
    ((close w).members[c]?).map f = (w.members[c]?).map f := by
  rw [close_members, Option.map_map]
  congr 1
  funext m
  obtain ⟨q, hq, -⟩ := react_cases m (w.hasSender c)
  rw [Function.comp_apply, hq, hf]

theorem settle_map {β : Type} {f : Member Q κ σ ρ → β}
    (hf : ∀ m q a, f { m with mailbox := q, allocated := a } = f m) :
    ((settle w).members[c]?).map f = (w.members[c]?).map f :=
  (close_map fun m q => hf m q m.allocated).trans (release_map fun m a => hf m m.mailbox a)

omit [AsyncChannel Q] in
theorem any_of_map {f : Member Q κ σ ρ → Bool}
    (h : (w'.members[c]?).map f = (w.members[c]?).map f) :
    (w'.members[c]?).any f = (w.members[c]?).any f := by
  cases hm : w.members[c]? <;> cases hn : w'.members[c]? <;> simp_all

theorem settle_any {f : Member Q κ σ ρ → Bool}
    (hf : ∀ m q a, f { m with mailbox := q, allocated := a } = f m) :
    ((settle w).members[c]?).any f = (w.members[c]?).any f :=
  any_of_map (settle_map hf)

@[simp] theorem settle_length : (settle w).members.length = w.members.length := by
  refine List.length_mapIdx.trans
    (release_induct (P := fun v => v.members.length = w.members.length) rfl
    fun v hv => ?_)
  exact List.length_mapIdx.trans hv

@[simp] theorem settle_handled : (settle w).handled c = w.handled c := settle_any fun _ _ _ => rfl

@[simp] theorem settle_holds : (settle w).holds p c = w.holds p c := settle_any fun _ _ _ => rfl

@[simp] theorem settle_contexts : (settle w).contexts = w.contexts :=
  release_induct (P := fun v => v.contexts = w.contexts) rfl fun _ => id

@[simp] theorem settle_calls : (settle w).calls = w.calls :=
  release_induct (P := fun v => v.calls = w.calls) rfl fun _ => id

@[simp] theorem settle_sent : (settle w).sent = w.sent :=
  release_induct (P := fun v => v.sent = w.sent) rfl fun _ => id

/-! ### Who has a handle of whom

Senders can only be lost in the reaction, and a queue that is still allocated afterwards has a
handle: `free` is iterated to its fixed point. -/

variable {f : Parcel σ ρ → List ℕ}

/-- A message that is dropped takes its handles with it, and no handle comes from anywhere. -/
theorem carried_of_free (h : (free w).carried f c = true) : w.carried f c = true := by
  obtain ⟨i, m', hm', halloc, he⟩ := carried_iff.mp h
  rw [free_members] at hm'
  obtain ⟨m, hm, rfl⟩ := Option.map_eq_some_iff.mp hm'
  rw [Bool.and_eq_true] at halloc
  exact carried_iff.mpr ⟨i, m, hm, halloc.1, he⟩

theorem carried_of_release (h : w.release.carried f c = true) : w.carried f c = true :=
  release_induct (P := fun v => v.carried f c = true → w.carried f c = true) id
    (fun _ hv hfree => hv (carried_of_free hfree)) h

@[simp] theorem close_carried : (close w).carried f c = w.carried f c := by
  rw [Bool.eq_iff_iff, carried_iff, carried_iff]
  constructor
  · rintro ⟨i, m', hm', halloc, he⟩
    rw [close_members] at hm'
    obtain ⟨m, hm, rfl⟩ := Option.map_eq_some_iff.mp hm'
    obtain ⟨q, hq, hqueue, -⟩ := react_cases m (w.hasSender i)
    rw [hq] at halloc he
    exact ⟨i, m, hm, halloc, hqueue ▸ he⟩
  · rintro ⟨i, m, hm, halloc, he⟩
    obtain ⟨q, hq, hqueue, -⟩ := react_cases m (w.hasSender i)
    refine ⟨i, m.react (w.hasSender i), by rw [close_members, hm]; rfl, ?_, ?_⟩ <;> rw [hq]
    · exact halloc
    · exact hqueue ▸ he

@[simp] theorem close_handled : (close w).handled c = w.handled c :=
  any_of_map (close_map fun _ _ => rfl)

@[simp] theorem close_holds : (close w).holds p c = w.holds p c :=
  any_of_map (close_map fun _ _ => rfl)

@[simp] theorem close_hasSender : (close w).hasSender c = w.hasSender c := by
  rw [Bool.eq_iff_iff, hasSender_iff, hasSender_iff, outside_iff, outside_iff]
  simp

theorem outside_of_settle (h : (settle w).outside c = true) : w.outside c = true := by
  rw [outside_iff, settle_handled] at h
  refine outside_iff.mpr (h.imp_right fun hcarried => carried_of_release ?_)
  rwa [settle, close_carried] at hcarried

theorem hasSender_of_settle (h : (settle w).hasSender c = true) : w.hasSender c = true := by
  simp only [hasSender_iff, settle_holds] at h ⊢
  exact h.imp_left outside_of_settle

/-- An actor after the reaction. -/
theorem of_settle (hm' : (settle w).members[c]? = some m') :
    ∃ (m : Member Q κ σ ρ) (q : Q (Parcel σ ρ)) (a : Bool), w.members[c]? = some m
    ∧ m' = { m with mailbox := q, allocated := a } ∧ (state q).queued = (state m.mailbox).queued
    ∧ (state q).closed = ((state m.mailbox).closed || !(settle w).hasSender c) := by
  have hm' := hm'
  rw [settle, close_members] at hm'
  obtain ⟨n, hn, rfl⟩ := Option.map_eq_some_iff.mp hm'
  obtain ⟨m, a, hm, rfl, -⟩ := of_release hn
  rw [settle, close_hasSender]
  obtain ⟨q, hq, hqueue, -, hclosed⟩ :=
    react_cases { m with allocated := a } (w.release.hasSender c)
  exact ⟨m, q, a, hm, hq, hqueue, hclosed⟩

/-- No actor is lost. -/
theorem exists_settle (hm : w.members[c]? = some m) : ∃ (q : Q (Parcel σ ρ)) (a : Bool),
    (settle w).members[c]? = some { m with mailbox := q, allocated := a } := by
  have hlt : c < (settle w).members.length := by
    rw [settle_length]
    exact (List.getElem?_eq_some_iff.mp hm).1
  obtain ⟨m₀, q, a, hm₀, hsame, -⟩ := of_settle (List.getElem?_eq_getElem hlt)
  cases hm.symm.trans hm₀
  exact ⟨q, a, hsame ▸ List.getElem?_eq_getElem hlt⟩

/-- **What the reaction leaves allocated has a handle.** -/
theorem attached_of_settle (hm' : (settle w).members[c]? = some m') (halloc : m'.allocated = true) :
    (settle w).attached c m' = true := by
  rw [settle, close_members] at hm'
  obtain ⟨m, hm, rfl⟩ := Option.map_eq_some_iff.mp hm'
  obtain ⟨q, hq, -⟩ := react_cases m (w.release.hasSender c)
  rw [hq] at halloc ⊢
  have halloc : m.allocated = true := halloc
  have hfixed := free_members (w := w.release) (c := c)
  rw [free_release, hm, Option.map_some, Option.some.injEq] at hfixed
  have hattached := congrArg Member.allocated hfixed
  rw [halloc, Bool.true_and] at hattached
  rw [settle, attached, close_carried, close_hasSender]
  exact hattached.symm

/-- A queue whose receiver is there is not freed. -/
theorem backed_settle
    (hbacked : ∀ (c : ℕ) (m : Member Q κ σ ρ), w.members[c]? = some m → m.task.rx = true →
      m.allocated = true) (hm' : (settle w).members[c]? = some m') (hrx : m'.task.rx = true) :
    m'.allocated = true := by
  rw [settle, close_members] at hm'
  obtain ⟨m, hm, rfl⟩ := Option.map_eq_some_iff.mp hm'
  obtain ⟨q, hq, -⟩ := react_cases m (w.release.hasSender c)
  rw [hq] at hrx ⊢
  refine release_induct (P := fun v => ∀ (c : ℕ) (m : Member Q κ σ ρ), v.members[c]? = some m →
    m.task.rx = true → m.allocated = true) hbacked (fun v hv c m hm hrx => ?_) c m hm hrx
  rw [free_members] at hm
  obtain ⟨n, hn, rfl⟩ := Option.map_eq_some_iff.mp hm
  have hrx : n.task.rx = true := hrx
  simp [hv c n hn hrx, attached, hrx]

end React

/-! ## The background tasks

The family uses the tasks of its contexts as `ContextWorld` has them, so each of its steps is one of
theirs or leaves them alone. -/

/-- `l` drops the `Context` of `p`. -/
def drops (p : ℕ) : FamilyLabel κ σ ρ → Bool
  | .dropCtx q => q == p
  | _ => false

theorem dropped_of_drops (h : Act E w l w') (hdrops : drops p l = true) :
    ∃ m', w'.members[p]? = some m' ∧ m'.task.ctx = false := by
  cases h with
  | dropCtx c m t hm ht =>
    cases eq_of_beq hdrops
    refine ⟨_, Table.getElem?_modify_self hm, ?_⟩
    cases LoopTask.step_cases ht
    rfl
  | _ => cases hdrops

/-- What a step does to the background tasks. -/
def contextLabel : FamilyLabel κ σ ρ → Option ContextLabel
  | .dropCtx c => some (.dropContext c)
  | .gc p => some (.gc p)
  | .spawnTask p => some (.spawnTask p)
  | .stopTask p h => some (.stopTask p h)
  | .finishTask i => some (.finish i)
  | _ => none

theorem contexts_of_other (h : Act E w l w') (hl : contextLabel l = none) :
    w'.contexts = w.contexts := by
  cases h with
  | sendToChildren p msg hcall => exact (undisturbed_forward w p msg).contexts
  | dropCtx | gc | spawnTask | stopTask | finishTask => cases hl
  | _ => rfl

/-- Only the dropping of the `Context` marks it as dropped. -/
theorem dropped_of_act (h : Act E w l w') (hp : w'.contexts.dropped p = true) :
    w.contexts.dropped p = true ∨ l = .dropCtx p := by
  cases hl : contextLabel l with
  | none =>
    rw [contexts_of_other h hl] at hp
    exact .inl hp
  | some k =>
    cases h with
    | dropCtx c m t hm ht =>
      by_cases hc : p = c
      · exact .inr (hc ▸ rfl)
      · have hp : Function.update w.contexts.dropped c true p = true := hp
        rw [Function.update_of_ne hc] at hp
        exact .inl hp
    -- to stop a task is not to drop its `Context`
    | stopTask q h hcall =>
      have hp : (w.contexts.stopTask q h).dropped p = true := hp
      rw [ContextWorld.dropped_stopTask] at hp
      exact .inl hp
    | gc | spawnTask | finishTask => exact .inl hp
    | _ => cases hl

/-! ## What holds of every family

`Inv` says how the parts agree: an entry of a table is for an actor that exists, a closed mailbox
has a reason to be closed, a queue that is allocated has a handle. The step lemma goes field by
field, each from what `Moves` says of one actor, and then through the reaction. -/

/-- Tables, handles and mailboxes agree. -/
structure Inv (w : Family Q κ σ ρ) : Prop where
  task : ∀ (c : ℕ) (m : Member Q κ σ ρ), w.members[c]? = some m → m.task.Inv
  /-- the `Vec` under a key holds only `Sender`s for it, of actors that exist -/
  entries : ∀ (p : ℕ) (m : Member Q κ σ ρ), w.members[p]? = some m →
    ∀ k, ∀ b ∈ m.children.vec k, b.message = k ∧ b.actor < w.members.length
  /-- a `Context` that was dropped holds nothing -/
  released : ∀ (p : ℕ) (m : Member Q κ σ ρ), w.members[p]? = some m → m.task.ctx = false →
    ∀ k, m.children.vec k = []
  /-- a mailbox is closed without a sender, or when its receiver is gone -/
  closed : ∀ (c : ℕ) (m : Member Q κ σ ρ), w.members[c]? = some m →
    (state m.mailbox).closed = true →
      w.hasSender c = false ∨ m.task.rx = false ∨ m.task.running = false
  /-- and where one of these is so, it is -/
  deaf : ∀ (c : ℕ) (m : Member Q κ σ ρ), w.members[c]? = some m → m.task.rx = false →
    (state m.mailbox).closed = true
  unsent : ∀ (c : ℕ) (m : Member Q κ σ ρ), w.members[c]? = some m → w.hasSender c = false →
    (state m.mailbox).closed = true
  /-- a queue that is allocated has a handle; one whose receiver is there is allocated -/
  kept : ∀ (c : ℕ) (m : Member Q κ σ ρ), w.members[c]? = some m → m.allocated = true →
    w.attached c m = true
  backed : ∀ (c : ℕ) (m : Member Q κ σ ρ), w.members[c]? = some m → m.task.rx = true →
    m.allocated = true
  /-- a `Context` that was dropped is one of an actor that has dropped it -/
  dropped : ∀ p, w.contexts.dropped p = true →
    ∃ m, w.members[p]? = some m ∧ m.task.ctx = false
  bounded : w.contexts.Bounded

theorem inv_init : Inv (init Q κ σ ρ) where
  task _ _ hm := by cases hm
  entries _ _ hm := by cases hm
  released _ _ hm := by cases hm
  closed _ _ hm := by cases hm
  deaf _ _ hm := by cases hm
  unsent _ _ hm := by cases hm
  kept _ _ hm := by cases hm
  backed _ _ hm := by cases hm
  dropped _ hp := by cases hp
  bounded _ _ _ hi := by cases hi

theorem Inv.inCall_ctx (hinv : Inv w) (hm : w.members[p]? = some m)
    (hcall : m.task.loop.pc.inCall = true) : m.task.ctx = true := by
  refine ((hinv.task p m hm).owned ?_).2
  cases hpc : m.task.loop.pc <;> simp_all [Pc.inCall, Pc.ended]

/-- An actor of the new family is new, or it has moved. -/
theorem Inv.moved (hinv : Inv w) (h : Act E w l w') (hm' : w'.members[c]? = some m') :
    (∃ m, w.members[c]? = some m ∧ Moves (E c) w l c m m' ∧ m'.task.Inv)
      ∨ ∃ capacity a, m' = ⟨AsyncChannel.new capacity, 1, 0, .init a, ∅, true⟩ := by
  rcases moves_of_act h hm' with ⟨m, hm, hmoves⟩ | ⟨-, hnew⟩
  · have ht := hinv.task c m hm
    refine .inl ⟨m, hm, hmoves, ?_⟩
    rcases hmoves.task with hsame | ⟨k, hk⟩
    · rwa [hsame]
    · exact LoopTask.inv_step ht (LoopTask.step_cases hk)
  · exact .inr hnew

theorem Moves.mono {F : EventLoop σ} (h : Moves F w l c m m') :
    (m'.task.running = true → m.task.running = true) ∧ (m'.task.rx = true → m.task.rx = true)
      ∧ (m'.task.ctx = true → m.task.ctx = true) := by
  rcases h.task with hsame | ⟨k, hk⟩
  · rw [hsame]
    exact ⟨id, id, id⟩
  · exact (LoopTask.step_cases hk).mono

/-- An actor that is there was there, and has moved. -/
theorem moved_of_lt (h : Act E w l w') (hlt : c < w.members.length)
    (hm' : w'.members[c]? = some m') : ∃ m, w.members[c]? = some m ∧ Moves (E c) w l c m m' :=
  (moves_of_act h hm').resolve_right fun ⟨hc, _⟩ => absurd hlt hc.ge.not_gt

/-- What gets into a table comes from a call that has its `Context`. -/
theorem Inv.vec_of_released (hinv : Inv w) (h : Act E w l w') (hm' : w'.members[p]? = some m')
    (hctx : m'.task.ctx = false) : m'.children.vec k = [] := by
  rcases hinv.moved h hm' with ⟨m, hm, hmoves, -⟩ | ⟨capacity, a, rfl⟩
  · rcases hmoves.released hctx with hgone | hempty
    · refine List.eq_nil_iff_forall_not_mem.mpr fun b hb => ?_
      rcases hmoves.children k b hb with hold | ⟨hcall, -⟩
      · rw [hinv.released p m hm hgone k] at hold
        cases hold
      · cases hgone.symm.trans (hinv.inCall_ctx hm hcall)
    · rw [hempty, Children.vec_empty]
  · cases hctx

/-- What a loop that waits can take is in a queue that is allocated. -/
theorem Inv.carried_of_popping (hinv : Inv w) (h : w.Popping c) :
    w.carried Parcel.owns c = true := by
  obtain ⟨i, n, hn, hpc, e, he, hc⟩ := h
  have hrx := ((hinv.task i n hn).owned (by rw [hpc]; rfl)).1
  exact carried_iff.mpr ⟨i, n, hn, hinv.backed i n hn hrx, e, he, hc⟩

/-- **A handle comes from another one, or from an upgrade.** -/
theorem Inv.outside_of_act (hinv : Inv w) (h : Act E w l w') (hc : c < w.members.length)
    (hs : w'.outside c = true) : w.outside c = true ∨ w.upgradable c = true := by
  rcases outside_iff.mp hs with hhandled | hcarried
  · obtain ⟨m', hm', hpos⟩ := handled_iff.mp hhandled
    obtain ⟨m, hm, hmoves⟩ := moved_of_lt h hc hm'
    rcases hmoves.others hpos with hold | hup | hpop
    · exact .inl (outside_iff.mpr (.inl (handled_iff.mpr ⟨m, hm, hold⟩)))
    · exact .inr hup
    · exact .inl (outside_iff.mpr (.inr (hinv.carried_of_popping hpop)))
  · obtain ⟨i, n', hn', halloc, e, he, hce⟩ := carried_iff.mp hcarried
    rcases moves_of_act h hn' with ⟨n, hn, hmoves⟩ | ⟨-, capacity, a, rfl⟩
    · rcases hmoves.queued e he with hold | ⟨howns, -⟩
      · exact .inl (outside_iff.mpr (.inr (carried_iff.mpr
          ⟨i, n, hn, hmoves.allocated ▸ halloc, e, hold, hce⟩)))
      -- what is sent owns handles that somebody had
      · exact .inl (outside_iff.mpr (.inl (howns c hce)))
    · simp [ChannelState.fresh] at he

/-- A sender comes from another one, except that of an actor that has stopped. -/
theorem Inv.hasSender_of_act (hinv : Inv w) (h : Act E w l w') (hc : c < w.members.length)
    (hs : w'.hasSender c = true) : w.hasSender c = true ∨ w.stopped c = true := by
  rcases hasSender_iff.mp hs with houtside | ⟨p, hp⟩
  · rcases hinv.outside_of_act h hc houtside with hold | hup
    · exact .inl (hasSender_iff.mpr (.inl hold))
    · simp only [upgradable, Bool.and_eq_true] at hup
      exact .inl hup.1.2
  · obtain ⟨m', hm', k, b, hb, rfl⟩ := holds_iff.mp hp
    rcases moves_of_act h hm' with ⟨m, hm, hmoves⟩ | ⟨-, capacity, a, rfl⟩
    · rcases hmoves.children k b hb with hold | ⟨-, -, hnew⟩
      · exact .inl (hasSender_iff.mpr (.inr ⟨p, holds_iff.mpr ⟨m, hm, k, b, hold, rfl⟩⟩))
      · rw [atHand, Bool.or_eq_true] at hnew
        exact hnew.imp_left fun hh => hasSender_iff.mpr (.inl (outside_iff.mpr (.inl hh)))
    · cases hb

/-- A mailbox with a sender and a receiver is open until its actor stops. -/
theorem Inv.open_of_act (hinv : Inv w) (h : Act E w l w') (hm' : w'.members[c]? = some m')
    (hsender : w'.hasSender c = true) (hrx : m'.task.rx = true) (hrun : m'.task.running = true) :
    (state m'.mailbox).closed = false := by
  rw [← Bool.not_eq_true]
  intro hclosed
  rcases hinv.moved h hm' with ⟨m, hm, hmoves, -⟩ | ⟨capacity, a, rfl⟩
  -- if it is closed now it was closed before, or its receiver has gone in this step
  · rcases hmoves.closed hclosed with hold | hgone
    · have hrun := hmoves.mono.1 hrun
      rcases hinv.closed c m hm hold with hnone | hrx' | hrun'
      · -- a sender cannot come back while the flag is up
        have hlt := (List.getElem?_eq_some_iff.mp hm).1
        rcases hinv.hasSender_of_act h hlt hsender with hbefore | hstopped
        · cases hnone.symm.trans hbefore
        · obtain ⟨m₀, hm₀, hdown⟩ := stopped_iff.mp hstopped
          cases hm.symm.trans hm₀
          cases hdown.symm.trans hrun
      · cases hrx'.symm.trans (hmoves.mono.2.1 hrx)
      · cases hrun'.symm.trans hrun
    · cases hgone.symm.trans hrx
  · simp [ChannelState.fresh] at hclosed

/-- A `Context` that is there is not counted as dropped. -/
theorem Inv.live (hinv : Inv w) {p : ℕ} {m : Member Q κ σ ρ} (hm : w.members[p]? = some m)
    (hctx : m.task.ctx = true) : w.contexts.dropped p = false := by
  rw [← Bool.not_eq_true]
  intro hp
  obtain ⟨m₀, hm₀, hgone⟩ := hinv.dropped p hp
  cases hm.symm.trans hm₀
  cases hgone.symm.trans hctx

/-- A handler's `Context` is there. -/
theorem Inv.live_inCall (hinv : Inv w) {p : ℕ} (hp : w.inCall p = true) :
    w.contexts.dropped p = false := by
  obtain ⟨m, hm, hcall⟩ := inCall_iff.mp hp
  exact hinv.live hm (hinv.inCall_ctx hm hcall)

/-- A `Context` that is counted as dropped has been dropped: now, or before. -/
theorem Inv.dropped_act (hinv : Inv w) (h : Act E w l w') {p : ℕ}
    (hp : w'.contexts.dropped p = true) : ∃ m, w'.members[p]? = some m ∧ m.task.ctx = false := by
  rcases dropped_of_act h hp with hold | rfl
  · obtain ⟨m, hm, hctx⟩ := hinv.dropped p hold
    have hlt := (List.getElem?_eq_some_iff.mp hm).1
    have hm' := List.getElem?_eq_getElem (hlt.trans_le (length_of_act h))
    obtain ⟨m₀, hm₀, hmoves⟩ := moved_of_lt h hlt hm'
    cases hm.symm.trans hm₀
    refine ⟨_, hm', ?_⟩
    rw [← Bool.not_eq_true]
    intro hup
    cases hctx.symm.trans (hmoves.mono.2.2 hup)
  · exact dropped_of_drops h (beq_self_eq_true p)

/-- **The background tasks of a family are a `ContextWorld`**: a step is one of theirs, or none. -/
theorem contexts_step (hinv : Inv w) (h : Act E w l w') {k : ContextLabel}
    (hl : contextLabel l = some k) : w.contexts.step k = some w'.contexts := by
  -- `ContextWorld` refuses a `Context` that has been dropped; the family never asks for one
  cases h with
  | dropCtx c m t hm ht =>
    cases hl
    have hctx : m.task.ctx = true := by
      cases LoopTask.step_cases ht with
      | dropCtx hend hctx => exact hctx
    simp [ContextWorld.step, hinv.live hm hctx]
  | gc p m hm hcall =>
    cases hl
    simp [ContextWorld.step, hinv.live hm (hinv.inCall_ctx hm hcall), gc]
  | spawnTask p hcall =>
    cases hl
    simp [ContextWorld.step, hinv.live_inCall hcall]
  | stopTask p h hcall =>
    cases hl
    simp [ContextWorld.step, hinv.live_inCall hcall]
  | finishTask i =>
    cases hl
    rfl
  | _ => cases hl

/-- **The step lemma of the family.** -/
theorem inv_step (hinv : Inv w) (h : w.step E l = some w') : Inv w' := by
  obtain ⟨u, hact, rfl⟩ := Option.map_eq_some_iff.mp h
  have hact := act_cases hact
  have hlength := length_of_act hact
  constructor
  case task =>
    intro c n hn
    obtain ⟨m', q, a, hm', rfl, -⟩ := of_settle hn
    rcases hinv.moved hact hm' with ⟨m, -, -, ht⟩ | ⟨capacity, a, rfl⟩
    · exact ht
    · exact LoopTask.inv_init a
  -- an entry is new, and then its actor is at hand, or it was there
  case entries =>
    intro p n hn k b hb
    obtain ⟨m', q, a, hm', rfl, -⟩ := of_settle hn
    rw [settle_length]
    rcases hinv.moved hact hm' with ⟨m, hm, hmoves, -⟩ | ⟨capacity, a, rfl⟩
    · rcases hmoves.children k b hb with hold | ⟨-, hmessage, hhand⟩
      · obtain ⟨hmessage, hlt⟩ := hinv.entries p m hm k b hold
        exact ⟨hmessage, hlt.trans_le hlength⟩
      · exact ⟨hmessage, (atHand_lt hhand).trans_le hlength⟩
    · cases hb
  -- the table goes with the `Context`, and without one nothing is registered
  case released =>
    intro p n hn hctx k
    obtain ⟨m', q, a, hm', rfl, -⟩ := of_settle hn
    show m'.children.vec k = []
    exact hinv.vec_of_released hact hm' hctx
  case closed =>
    intro c n hn hclosed
    obtain ⟨m', q, a, hm', rfl, -, hreact⟩ := of_settle hn
    -- with a sender, a receiver and its flag up a mailbox does not close by itself
    by_contra! hlive
    simp only [ne_eq, Bool.not_eq_false] at hlive
    obtain ⟨hsender, hrx, hrun⟩ := hlive
    rw [hreact, hsender, hinv.open_of_act hact hm' (hasSender_of_settle hsender) hrx hrun]
      at hclosed
    cases hclosed
  case deaf =>
    intro c n hn hrx
    obtain ⟨m', q, a, hm', rfl, -, hreact⟩ := of_settle hn
    rw [hreact, Bool.or_eq_true]
    rcases hinv.moved hact hm' with ⟨m, hm, hmoves, -⟩ | ⟨capacity, a, rfl⟩
    -- dropping the receiver closes the mailbox, and nothing opens it again
    · refine .inl (hmoves.staysClosed ?_)
      cases hrx' : m.task.rx with
      | false => exact .inl (hinv.deaf c m hm hrx')
      | true => exact .inr ⟨rfl, hrx⟩
    · cases hrx
  -- `settle` has just closed the mailboxes without a sender
  case unsent =>
    intro c n hn hunsent
    obtain ⟨m', q, a, hm', rfl, -, hreact⟩ := of_settle hn
    simp [hreact, hunsent]
  case kept => exact fun c n hn halloc => attached_of_settle hn halloc
  case backed =>
    intro c n hn hrx
    refine backed_settle (fun c m' hm' hrx => ?_) hn hrx
    rcases hinv.moved hact hm' with ⟨m, hm, hmoves, -⟩ | ⟨capacity, a, rfl⟩
    -- a receiver that is there was there
    · rw [hmoves.allocated]
      exact hinv.backed c m hm (hmoves.mono.2.1 hrx)
    · rfl
  case dropped =>
    intro p hp
    rw [settle_contexts] at hp
    obtain ⟨m, hm, hctx⟩ := hinv.dropped_act hact hp
    obtain ⟨q, a, hm'⟩ := exists_settle hm
    exact ⟨_, hm', hctx⟩
  case bounded =>
    rw [settle_contexts]
    cases hl : contextLabel l with
    | none =>
      rw [contexts_of_other hact hl]
      exact hinv.bounded
    | some k =>
      have hstep := contexts_step hinv hact hl
      exact ContextWorld.bounded_act hinv.bounded (ContextWorld.act_cases hstep)

theorem inv_of_run {ls : List (FamilyLabel κ σ ρ)} (h : (machine Q κ ρ E).Run ls w) : Inv w :=
  h.invariant (I := Inv) inv_init fun _ _ _ hinv hstep => inv_step hinv hstep

/-- **The background tasks of a family go through a run of their own.** -/
theorem contexts_run {ls : List (FamilyLabel κ σ ρ)} (h : (machine Q κ ρ E).Run ls w) :
    ∃ ks, ContextWorld.machine.Run ks w.contexts := by
  induction h with
  | start => exact ⟨[], .start⟩
  | @snoc ls s l s' run hstep ih =>
    obtain ⟨ks, hks⟩ := ih
    obtain ⟨u, hact, rfl⟩ := Option.map_eq_some_iff.mp hstep
    have hact := act_cases hact
    rw [settle_contexts]
    cases hl : contextLabel l with
    | none => exact ⟨ks, contexts_of_other hact hl ▸ hks⟩
    | some k => exact ⟨ks ++ [k], hks.snoc (contexts_step (inv_of_run run) hact hl)⟩

/-- **So does the loop of each actor.** -/
theorem task_run {ls : List (FamilyLabel κ σ ρ)} (h : (machine Q κ ρ E).Run ls w)
    (hm : w.members[c]? = some m) : ∃ a ks, (LoopTask.machine ρ (E c) a).Run ks m.task := by
  induction h generalizing m with
  | start => cases hm
  | @snoc ls s l s' run hstep ih =>
    obtain ⟨u, hact, rfl⟩ := Option.map_eq_some_iff.mp hstep
    obtain ⟨m', q, a, hm', rfl, -⟩ := of_settle hm
    rcases moves_of_act (act_cases hact) hm' with ⟨n, hn, hmoves⟩ | ⟨-, capacity, a, rfl⟩
    · obtain ⟨a, ks, hks⟩ := ih hn
      rcases hmoves.task with hsame | ⟨k, hk⟩
      · exact ⟨a, ks, hsame ▸ hks⟩
      · exact ⟨a, ks ++ [k], hks.snoc hk⟩
    · exact ⟨a, [], .start⟩

/-- Actors that override no hook. -/
def quietLoops : ℕ → EventLoop Unit := fun _ => .fromChannel (.provided ())

end Family

end Hannibal
