import Hannibal.Registry

/-!
# Hannibal.Service — the registry is consistent

An operation on the registry is a lock section of several steps, in the middle of which instances
stop. Seen from outside it happens at once, at its write or at the step that lets it go; and no
address that was registered gets lost.

* **`ServiceCall.Atomic`** — what each operation does, had it the registry for itself.
* **`LockInv`** — who holds the lock, and what it relies on since it looked at the entry.
* **`Ledger`** — where each inserted address is.
* **`registry_consistent`** — the theorem about every run.
-/

namespace Hannibal

open Lts Custody

/-- What an operation does to its entry, at once: the entry before it, which instances run then, the
entry after it, and what is returned. An instance that is spawned is a `fresh` one. `try_read` finds
the lock contended only while somebody holds it. -/
inductive ServiceCall.Atomic (entry : Option ℕ) (runs : ℕ → Bool) (held : Prop) (fresh : ℕ → Prop) :
    ServiceCall → Option ℕ → ServiceReply → Prop where
  | found (A : TypeKey) (i : ℕ) (hentry : entry = some i) (hrun : runs i = true) :
      Atomic entry runs held fresh (.fromRegistry A) entry (.addr i)
  | spawned (A : TypeKey) (i : ℕ) (hvac : ∀ j, entry = some j → runs j = false) (hfresh : fresh i) :
      Atomic entry runs held fresh (.fromRegistry A) (some i) (.addr i)
  | registered (A : TypeKey) (i : ℕ) (hvac : ∀ j, entry = some j → runs j = false) :
      Atomic entry runs held fresh (.register A i) (some i) (.registered i entry)
  | stillRunning (A : TypeKey) (i j : ℕ) (hentry : entry = some j) (hrun : runs j = true) :
      Atomic entry runs held fresh (.register A i) entry .serviceStillRunning
  | replaced (A : TypeKey) (i : ℕ) :
      Atomic entry runs held fresh (.replace A i) (some i) (.removed entry)
  | unregisteredAddr (A : TypeKey) (i : ℕ) :
      Atomic entry runs held fresh (.unregisterAddr A i) none (.removed entry)
  | unregistered (A : TypeKey) :
      Atomic entry runs held fresh (.unregister A) none (.removed entry)
  | tried (A : TypeKey) :
      Atomic entry runs held fresh (.tryFromRegistry A) entry (.tried (entry.filter runs))
  | contended (A : TypeKey) (hheld : held) :
      Atomic entry runs held fresh (.tryFromRegistry A) entry (.tried none)
  | read (A : TypeKey) : Atomic entry runs held fresh (.alreadyRunning A) entry
      (.stopped (entry.map fun i => !runs i))

namespace RegistryCall

/-- What the write of a call says to the book. -/
def record (c : RegistryCall) : Record TypeKey AnyBox := ⟨c.call.key, c.inserted, c.displaced⟩

/-- The call hands what it has displaced to its caller, unless it is a `from_registry`, which has
displaced an instance that has stopped. -/
def Hands (c : RegistryCall) (runs : ℕ → Bool) : Prop :=
  match c.stage with
  | .done (.removed r) | .done (.registered _ r) => r = c.displaced.map fun e => e.item.addr
  | _ => ∀ e, c.displaced = some e → (∃ A, c.call = .fromRegistry A) ∧ runs e.item.addr = false

/-- An instance that has stopped does not start again. -/
theorem Hands.mono {c : RegistryCall} {runs runs' : ℕ → Bool} (h : c.Hands runs)
    (hle : ∀ e, c.displaced = some e → runs e.item.addr = false → runs' e.item.addr = false) :
    c.Hands runs' := by
  unfold Hands at h ⊢
  split at h
  · exact h
  · exact h
  · exact fun e he => ⟨(h e he).1, hle e he (h e he).2⟩

/-- What has displaced nothing has nothing to hand on, unless it says so. -/
theorem hands_of_none {c : RegistryCall} {runs : ℕ → Bool} (hnone : c.displaced = none)
    (hst : ∀ r i, c.stage ≠ .done (.removed r) ∧ c.stage ≠ .done (.registered i r)) :
    c.Hands runs := by
  unfold Hands
  split
  · next r hr => exact absurd hr (hst r 0).1
  · next i r hr => exact absurd hr (hst r i).2
  · intro e he
    rw [hnone] at he
    cases he

end RegistryCall

namespace RegistryWorld

variable {w w' : RegistryWorld} {k j : ℕ} {A : TypeKey} {c : RegistryCall}

/-! ## Types -/

/-- Every address is one of an instance of its own type: those in the map, those that are passed,
and those about to be inserted. -/
structure Typed (w : RegistryWorld) : Prop where
  registry : ∀ A e, w.registry A = some e → e.item.type = A ∧ w.typeOf e.item.addr = some A
  given : ∀ (k : ℕ) (c : RegistryCall) (i : ℕ), w.calls[k]? = some c → c.call.given = some i →
    w.typeOf i = some c.call.key
  inserting : ∀ (k : ℕ) (c : RegistryCall) (i : ℕ), w.calls[k]? = some c →
    c.stage = .inserting i → w.typeOf i = some c.call.key
  displaced : ∀ (k : ℕ) (c : RegistryCall) (e : Entry), w.calls[k]? = some c →
    c.displaced = some e → w.typeOf e.item.addr = some c.call.key

/-- So no downcast fails. -/
theorem Typed.entry (h : Typed w) {e : Entry} (hreg : w.registry A = some e) :
    w.entry A = some e.item.addr := by
  rw [entry_of_registry hreg, AnyBox.downcast, if_pos (h.registry A e hreg).1]

/-! ## What a step does to one call, and to the instances

`Moved` says how one call gets from a stage to the next, with what it has seen of the registry;
every other call stays as it is. The instances only grow in number and only stop. -/

theorem Decides.stages {d : ServiceCall} {st st' : CallStage} (h : Decides w d st st') :
    st = .locked ∧ w.vacant d.key
      ∧ (st' = .spawning ∨ ∃ i, d.given = some i ∧ st' = .inserting i) := by
  cases h with
  | spawning A hvac => exact ⟨rfl, hvac, .inl rfl⟩
  | absent A i hnone =>
    refine ⟨rfl, fun j hj => ?_, .inr ⟨i, rfl, rfl⟩⟩
    simp [entry, ServiceCall.key, hnone] at hj
  | stopped A i n hentry hstop =>
    refine ⟨rfl, fun j hj => ?_, .inr ⟨i, rfl, rfl⟩⟩
    have hj : w.entry A = some j := hj
    rw [hentry] at hj
    cases hj
    exact hstop

theorem Leaves.reply {d : ServiceCall} {o : ServiceReply} (h : Leaves w d o) :
    (∃ i, o = .addr i) ∨ o = .serviceStillRunning := by
  cases h with
  | found A i hentry hrun => exact .inl ⟨i, rfl⟩
  | refused A i e hreg hrun => exact .inr rfl

theorem Writes.stages {d : ServiceCall} {st st' : CallStage} {new : Option ℕ}
    (h : Writes w d st new st') : st.holding = true ∧ st'.pending = false := by
  cases h <;> exact ⟨rfl, rfl⟩

theorem Passes.stages {d : ServiceCall} {st st' : CallStage} (h : Passes w d st st') :
    st.holding = false ∧ st'.pending = false := by
  cases h <;> exact ⟨rfl, rfl⟩

@[simp] theorem registry_setStage (st : CallStage) : (w.setStage k st).registry = w.registry := rfl
@[simp] theorem lock_setStage (st : CallStage) : (w.setStage k st).lock = w.lock := rfl
@[simp] theorem instances_setStage (st : CallStage) :
    (w.setStage k st).instances = w.instances := rfl

theorem call_of_setStage {st : CallStage} (h : (w.setStage k st).calls[j]? = some c) :
    (k ≠ j ∧ w.calls[j]? = some c)
      ∨ (k = j ∧ ∃ d, w.calls[j]? = some d ∧ c = { d with stage := st }) :=
  Table.of_getElem?_modify h

theorem call_of_write {new : Option AnyBox} {st : CallStage}
    (h : ((w.write k A new).release.setStage k st).calls[j]? = some c) :
    (k ≠ j ∧ w.calls[j]? = some c)
      ∨ (k = j ∧ ∃ d, w.calls[j]? = some d
          ∧ c = { d with stage := st, inserted := new, displaced := w.registry A }) := by
  rcases call_of_setStage h with ⟨hne, h⟩ | ⟨rfl, d, hd, rfl⟩
  · rcases Table.of_getElem?_modify h with ⟨-, h⟩ | ⟨rfl, -⟩
    · exact .inl ⟨hne, h⟩
    · exact absurd rfl hne
  · rcases Table.of_getElem?_modify hd with ⟨hne, -⟩ | ⟨-, d', hd', rfl⟩
    · exact absurd rfl hne
    · exact .inr ⟨rfl, d', hd', rfl⟩

theorem typeOf_spawn {i : ℕ} {B : TypeKey} (h : w.typeOf i = some B) :
    (w.spawn A).typeOf i = some B := by
  obtain ⟨x, hx, rfl⟩ := Option.map_eq_some_iff.mp h
  show ((w.instances ++ [⟨A, true⟩])[i]?).map Instance.type = _
  rw [Table.getElem?_snoc_of_some hx]
  rfl

theorem typeOf_spawn_length (A : TypeKey) : (w.spawn A).typeOf w.instances.length = some A := by
  simp [typeOf, spawn]

theorem call_setStage_self {d : RegistryCall} {st : CallStage} (h : w.calls[k]? = some d) :
    (w.setStage k st).calls[k]? = some { d with stage := st } :=
  Table.getElem?_modify_self h

theorem call_write_self {d : RegistryCall} {new : Option AnyBox} {st : CallStage}
    (h : w.calls[k]? = some d) : ((w.write k A new).release.setStage k st).calls[k]?
      = some { d with stage := st, inserted := new, displaced := w.registry A } :=
  Table.getElem?_modify_self (Table.getElem?_modify_self h)

/-- The protocol of one call: what a step of its own makes of it. -/
inductive Moved (w w' : RegistryWorld) (k : ℕ) (d : RegistryCall) : RegistryCall → Prop where
  | entered (hst : d.stage = .waiting) (hlock : w'.lock = some k) :
      Moved w w' k d { d with stage := .locked }
  | decided (st : CallStage) (hd : Decides w d.call d.stage st) (hlock : w'.lock = w.lock)
      (hreg : w'.registry = w.registry) : Moved w w' k d { d with stage := st }
  | left (o : ServiceReply) (hst : d.stage = .locked) (hd : Leaves w d.call o) :
      Moved w w' k d { d with stage := .done o }
  | created (A : TypeKey) (hd : d.call = .fromRegistry A) (hst : d.stage = .spawning)
      (hnew : w'.typeOf w.instances.length = some A) (hlock : w'.lock = w.lock)
      (hreg : w'.registry = w.registry) :
      Moved w w' k d { d with stage := .inserting w.instances.length }
  | wrote (A : TypeKey) (new : Option ℕ) (st : CallStage) (hkey : d.call.key = A)
      (hd : Writes w d.call d.stage new st) : Moved w w' k d { d with
        stage := st, inserted := new.map (⟨A, ·⟩), displaced := w.registry A }
  | passed (st : CallStage) (hd : Passes w d.call d.stage st) :
      Moved w w' k d { d with stage := st }

theorem Moved.call_eq {d : RegistryCall} (h : Moved w w' k d c) : c.call = d.call := by
  cases h <;> rfl

/-- **Each call stays as it is, moves, or has just begun.** -/
theorem call_of_act (h : Act w w') (hc : w'.calls[j]? = some c) :
    w.calls[j]? = some c ∨ (∃ d, w.calls[j]? = some d ∧ Moved w w' j d c)
      ∨ (w.calls[j]? = none ∧ w.offers c.call = true ∧ c = ⟨c.call, .waiting, none, none⟩) := by
  have hset : ∀ {u : RegistryWorld} {k : ℕ} {d : RegistryCall} {st : CallStage}, u.calls = w.calls →
      w.calls[k]? = some d → Moved w w' k d { d with stage := st } →
      (u.setStage k st).calls[j]? = some c →
      w.calls[j]? = some c ∨ (∃ d, w.calls[j]? = some d ∧ Moved w w' j d c)
        ∨ (w.calls[j]? = none ∧ w.offers c.call = true ∧ c = ⟨c.call, .waiting, none, none⟩) := by
    intro u k d st hu hk hmove hc
    rcases call_of_setStage hc with ⟨-, hold⟩ | ⟨rfl, d', hd', rfl⟩
    · exact .inl (hu ▸ hold)
    · rw [hu, hk] at hd'
      cases hd'
      exact .inr (.inl ⟨d, hk, hmove⟩)
  cases h with
  | spawn A => exact .inl hc
  | stop i => exact .inl hc
  -- a call that begins has the next number
  | begin d hd =>
    rcases Table.getElem?_snoc.mp hc with hold | ⟨rfl, rfl⟩
    · exact .inl hold
    · exact .inr (.inr ⟨List.getElem?_eq_none le_rfl, hd, rfl⟩)
  | enter k d hk hst hwrites hfree => exact hset (u := w.acquire k) rfl hk (.entered hst rfl) hc
  | decide k d st hk hd => exact hset rfl hk (.decided st hd rfl rfl) hc
  | leave k d o hk hst hd => exact hset (u := w.release) rfl hk (.left o hst hd) hc
  | create k d A hk hd hst =>
    exact hset (u := w.spawn A) rfl hk (.created A hd hst (typeOf_spawn_length A) rfl rfl) hc
  | write k d A new st hk hkey hd =>
    rcases call_of_write hc with ⟨-, hold⟩ | ⟨rfl, d', hd', rfl⟩
    · exact .inl hold
    · rw [hk] at hd'
      cases hd'
      exact .inr (.inl ⟨d, hk, .wrote A new st hkey hd⟩)
  | pass k d st hk hd => exact hset rfl hk (.passed st hd) hc

/-- An instance keeps its type. -/
theorem typeOf_act {i : ℕ} {B : TypeKey} (h : Act w w') (hi : w.typeOf i = some B) :
    w'.typeOf i = some B := by
  cases h with
  | spawn A => exact typeOf_spawn hi
  | create k c A hk hc hst => exact typeOf_spawn hi
  | stop n =>
    obtain ⟨x, hx, rfl⟩ := Option.map_eq_some_iff.mp hi
    show ((w.instances.modify n _)[i]?).map Instance.type = _
    rw [List.getElem?_modify, hx]
    by_cases hn : n = i <;> simp [hn]
  | _ => exact hi

/-- An instance that has stopped does not start again. -/
theorem running_act {i : ℕ} {B : TypeKey} (h : Act w w') (hi : w.typeOf i = some B)
    (hrun : w.running i = false) : w'.running i = false := by
  obtain ⟨x, hx, -⟩ := Option.map_eq_some_iff.mp hi
  have hspawn : ∀ A, (w.spawn A).running i = false := by
    intro A
    show ((w.instances ++ [⟨A, true⟩])[i]?).any Instance.running = false
    rw [Table.getElem?_snoc_of_some hx, ← hx]
    exact hrun
  cases h with
  | spawn A => exact hspawn A
  | create k c A hk hc hst => exact hspawn A
  | stop n =>
    have hx' : x.running = false := by simpa [running, hx] using hrun
    show ((w.instances.modify n _)[i]?).any Instance.running = false
    rw [List.getElem?_modify, hx]
    by_cases hn : n = i <;> simp [hn, hx']
  | _ => exact hrun

/-- The instances are numbered. -/
theorem lt_of_typeOf {i : ℕ} (h : w.typeOf i = some A) : i < w.instances.length := by
  obtain ⟨x, hx, -⟩ := Option.map_eq_some_iff.mp h
  exact (List.getElem?_eq_some_iff.mp hx).1

theorem instances_le (hact : Act w w') : w.instances.length ≤ w'.instances.length := by
  cases hact with
  | spawn A | create k c A hk hc hst => simp [RegistryWorld.spawn, setStage]
  | stop i => simp [RegistryWorld.stop]
  | _ => exact le_rfl

/-! ## Typing is kept

An address comes from a spawn or from the caller, and either way with its type. So the downcast of
an entry succeeds for the key it is under. -/

theorem typeOf_of_writes (h : Typed w) (hk : w.calls[k]? = some c) {st : CallStage} {i : ℕ}
    (hc : Writes w c.call c.stage (some i) st) : w.typeOf i = some c.call.key := by
  rcases c with ⟨call, stage, ins, dis⟩
  generalize hnew : some i = new at hc
  cases hc with
  | spawned A n => cases hnew; exact h.inserting k _ i hk rfl
  | registered A n m => cases hnew; exact h.given k _ i hk rfl
  | replaced A n => cases hnew; exact h.given k _ i hk rfl
  | unregisteredAddr A n => cases hnew
  | unregistered A => cases hnew

theorem typed_act (h : Typed w) (hact : Act w w') : Typed w' where
  registry B e he := by
    have hsame : w.registry B = some e → e.item.type = B ∧ w'.typeOf e.item.addr = some B := by
      intro hreg
      obtain ⟨htype, haddr⟩ := h.registry B e hreg
      exact ⟨htype, typeOf_act hact haddr⟩
    cases hact with
    | write k c A new st hk hkey hc =>
      -- a write changes the entry of its own key
      by_cases hB : B = A
      · subst hB
        have he : (new.map (⟨B, ·⟩)).map (fun b => (⟨b, k⟩ : Entry)) = some e := by
          simpa [setStage, release, RegistryWorld.write] using he
        cases new with
        | none => cases he
        | some i =>
          cases he
          exact ⟨rfl, hkey ▸ typeOf_of_writes h hk hc⟩
      · exact hsame (by simpa [setStage, release, RegistryWorld.write, hB] using he)
    | _ => exact hsame he
  given j c i hj hgiven := by
    refine typeOf_act hact ?_
    rcases call_of_act hact hj with hold | ⟨d, hd, hmove⟩ | ⟨-, hoffer, -⟩
    · exact h.given j c i hold hgiven
    · rw [hmove.call_eq] at hgiven ⊢
      exact h.given j d i hd hgiven
    · simpa [offers, hgiven] using hoffer
  inserting j c i hj hst := by
    rcases call_of_act hact hj with hold | ⟨d, hd, hmove⟩ | ⟨-, -, hnew⟩
    · exact typeOf_act hact (h.inserting j c i hold hst)
    · cases hmove with
      | decided st hdec hlock hreg =>
        have hst : st = .inserting i := hst
        subst hst
        -- only `register` inserts what it was given; the others spawn first
        obtain ⟨-, -, hspawn | ⟨n, hgiven, hn⟩⟩ := hdec.stages
        · cases hspawn
        · cases hn
          exact typeOf_act hact (h.given j d i hd hgiven)
      | created A hcall hstage hnew hlock hreg =>
        cases hst
        show w'.typeOf w.instances.length = some d.call.key
        rw [hcall]
        exact hnew
      | entered hwait hlock => cases hst
      | left o hlocked hleave => cases hst
      | wrote A new st hkey hwrite =>
        have hst : st = .inserting i := hst
        subst hst
        cases hwrite.stages.2
      | passed st hpass =>
        have hst : st = .inserting i := hst
        subst hst
        cases hpass.stages.2
    · rw [hnew] at hst
      cases hst
  -- what a call has displaced stays what it was
  displaced j c e hj hdis := by
    refine typeOf_act hact ?_
    rcases call_of_act hact hj with hold | ⟨d, hd, hmove⟩ | ⟨-, -, hnew⟩
    · exact h.displaced j c e hold hdis
    · rw [hmove.call_eq]
      cases hmove with
      | wrote A new st hkey hwrite =>
        rw [hkey]
        -- the entry that a write displaces was in the registry under its key
        exact (h.registry A e hdis).2
      | _ => exact h.displaced j d e hd hdis
    · rw [hnew] at hdis
      cases hdis

/-! ## The lock

Between two steps of the holder nobody writes: a step of another call that changes the map would
have to hold the lock too. What the holder has seen of the entry is true until its write, but for an
instance that stops. -/

/-- One call at a time holds the lock, and what it has seen of its entry still holds when it writes:
nobody else writes, and an instance that has stopped stays so. -/
structure LockInv (w : RegistryWorld) : Prop where
  holder : ∀ (k : ℕ) (c : RegistryCall), w.calls[k]? = some c → c.stage.holding = true →
    w.lock = some k
  vacant : ∀ (k : ℕ) (c : RegistryCall), w.calls[k]? = some c → c.stage.holding = true →
    c.stage ≠ .locked → w.vacant c.call.key

/-- What a step leaves of the lock section of another call. -/
theorem other_section (h : LockInv w) (hact : Act w w') (hj : w.calls[j]? = some c)
    (hj' : w'.calls[j]? = some c) (hold : c.stage.holding = true) :
    w'.lock = w.lock ∧ w'.registry = w.registry := by
  have hlock := h.holder j c hj hold
  -- a step of a call that holds the lock is a step of this one, and would change its stage
  have hown : ∀ {k : ℕ} {d : RegistryCall}, w.calls[k]? = some d → d.stage.holding = true →
      j = k := by
    intro k d hk hst
    have := h.holder k d hk hst
    rw [hlock] at this
    exact Option.some.inj this
  cases hact with
  | spawn A | stop i | begin d hd => exact ⟨rfl, rfl⟩
  | pass k d st hk hd | decide k d st hk hd | create k d A hk hd hst => exact ⟨rfl, rfl⟩
  | enter k d hk hst hwrites hfree =>
    rw [hfree] at hlock
    cases hlock
  | leave k d o hk hst hd =>
    obtain rfl := hown hk (by rw [hst]; rfl)
    rw [call_setStage_self (w := w.release) hk] at hj'
    cases hj'
    cases hold
  | write k d A new st hk hkey hd =>
    obtain rfl := hown hk hd.stages.1
    rw [call_write_self hk] at hj'
    cases hj'
    have hpend := CallStage.pending_of_holding hold
    rw [hd.stages.2] at hpend
    cases hpend

theorem vacant_act {A : TypeKey} (h : Typed w) (hact : Act w w')
    (hreg : w'.registry A = w.registry A) (hvac : w.vacant A) : w'.vacant A := by
  intro i hentry
  have hentry : w.entry A = some i := by
    rw [← hentry, entry, entry, hreg]
  obtain ⟨e, he, hdown⟩ := Option.bind_eq_some_iff.mp hentry
  have haddr : e.item.addr = i := by
    rw [← entry_of_registry he, h.entry he] at hdown
    exact Option.some.inj hdown
  exact running_act hact (haddr ▸ (h.registry A e he).2) (hvac i hentry)

theorem lockInv_act (ht : Typed w) (h : LockInv w) (hact : Act w w') : LockInv w' where
  holder j c hj hold := by
    rcases call_of_act hact hj with hold' | ⟨d, hd, hmove⟩ | ⟨-, -, hnew⟩
    · rw [(other_section h hact hold' hj hold).1]
      exact h.holder j c hold' hold
    · cases hmove with
      | entered hst hlock => exact hlock
      | decided st hdec hlock hreg =>
        rw [hlock]
        exact h.holder j d hd (by rw [hdec.stages.1]; rfl)
      | created A hcall hst hnew hlock hreg =>
        rw [hlock]
        exact h.holder j d hd (by rw [hst]; rfl)
      | left o hst hleave => cases hold
      | wrote A new st hkey hwrite =>
        exact absurd (CallStage.pending_of_holding hold) (by simp [hwrite.stages.2])
      | passed st hpass =>
        exact absurd (CallStage.pending_of_holding hold) (by simp [hpass.stages.2])
    · rw [hnew] at hold
      cases hold
  -- a call relies on the entry being vacant from its decision on
  vacant j c hj hold hne := by
    rcases call_of_act hact hj with hold' | ⟨d, hd, hmove⟩ | ⟨-, -, hnew⟩
    · have hsame := (other_section h hact hold' hj hold).2
      exact vacant_act ht hact (congrFun hsame _) (h.vacant j c hold' hold hne)
    · cases hmove with
      | entered hst hlock => exact absurd rfl hne
      | decided st hdec hlock hreg =>
        exact vacant_act ht hact (congrFun hreg _) hdec.stages.2.1
      | created A hcall hst hnew hlock hreg =>
        have hvac := h.vacant j d hd (by rw [hst]; rfl) (by rw [hst]; nofun)
        exact vacant_act ht hact (congrFun hreg _) hvac
      | left o hst hleave => cases hold
      | wrote A new st hkey hwrite =>
        exact absurd (CallStage.pending_of_holding hold) (by simp [hwrite.stages.2])
      | passed st hpass =>
        exact absurd (CallStage.pending_of_holding hold) (by simp [hpass.stages.2])
    · rw [hnew] at hold
      cases hold

/-! ## The addresses

Each inserted address is accounted for by the library's book: a write enters the new one, and takes
over what it displaces. The calls hand on what they have displaced. -/

/-- The registry as a book: its map, and what each call has written. -/
def book (w : RegistryWorld) : Book TypeKey AnyBox := ⟨w.registry, w.calls.map RegistryCall.record⟩

theorem book_setStage (st : CallStage) : (w.setStage k st).book = w.book := by
  have hrecords : (w.setStage k st).calls.map RegistryCall.record
      = w.calls.map RegistryCall.record := by
    refine List.ext_getElem? fun i => ?_
    simp only [setStage, List.getElem?_map, List.getElem?_modify]
    by_cases hi : k = i
    · simp [hi, Function.comp_def, RegistryCall.record]
      rfl
    · simp [hi]
  rw [book, hrecords]
  rfl

theorem book_write (new : Option AnyBox) (st : CallStage) :
    ((w.write k A new).release.setStage k st).book = w.book.write k A new := by
  have hrecords : (w.write k A new).calls.map RegistryCall.record
      = (w.calls.map RegistryCall.record).modify k
          fun r => { r with inserted := new, displaced := w.registry A } := by
    refine List.ext_getElem? fun i => ?_
    simp only [RegistryWorld.write, List.getElem?_map, List.getElem?_modify]
    by_cases hi : k = i <;> simp [hi, Function.comp_def, RegistryCall.record]
  rw [book_setStage]
  show (⟨_, (w.write k A new).calls.map RegistryCall.record⟩ : Book TypeKey AnyBox) = _
  rw [hrecords]
  rfl

/-- Where every address that was ever registered is. -/
structure Ledger (w : RegistryWorld) : Prop where
  balanced : w.book.Balanced
  /-- a call writes at most once -/
  fresh : ∀ (k : ℕ) (c : RegistryCall), w.calls[k]? = some c →
    c.stage.pending = true → c.inserted = none ∧ c.displaced = none
  hands : ∀ (k : ℕ) (c : RegistryCall), w.calls[k]? = some c → c.Hands w.running

/-- What a write has displaced is handed on, or it had stopped. -/
theorem hands_of_writes (ht : Typed w) (hl : LockInv w) (hk : w.calls[k]? = some c)
    {new : Option ℕ} {st : CallStage} (hkey : c.call.key = A)
    (hc : Writes w c.call c.stage new st) {ins : Option AnyBox} :
    RegistryCall.Hands ⟨c.call, st, ins, w.registry A⟩ w.running := by
  have hentry : w.entry A = (w.registry A).map fun e => e.item.addr := by
    cases hreg : w.registry A with
    | none => simp [entry, hreg]
    | some e => rw [ht.entry hreg]; rfl
  rcases c with ⟨call, stage, ins', dis⟩
  -- only a spawn takes over an entry without returning it, and that instance had stopped
  cases hc with
  | spawned B i =>
    obtain rfl : B = A := hkey
    intro e he
    refine ⟨⟨B, rfl⟩, ?_⟩
    have hvac : w.vacant B := hl.vacant k _ hk rfl (by simp)
    exact hvac _ (ht.entry he)
  | registered B i n => obtain rfl : B = A := hkey; exact hentry
  | replaced B i => obtain rfl : B = A := hkey; exact hentry
  | unregisteredAddr B i => obtain rfl : B = A := hkey; exact hentry
  | unregistered B => obtain rfl : B = A := hkey; exact hentry

/-- A call that goes on outside of a lock section still hands on what it did. -/
theorem hands_of_passes {st : CallStage} (h : c.Hands w.running)
    (hfresh : c.stage.pending = true → c.inserted = none ∧ c.displaced = none)
    (hc : Passes w c.call c.stage st) : RegistryCall.Hands { c with stage := st } w.running := by
  rcases c with ⟨call, stage, ins, dis⟩
  cases hc with
  | pinged A i | unpinged d i => exact h
  | tried A | contended A | read A | abandoned d =>
    exact RegistryCall.hands_of_none (hfresh rfl).2 fun r i => ⟨nofun, nofun⟩

theorem ledger_act (ht : Typed w) (hl : LockInv w) (h : Ledger w) (hact : Act w w') :
    Ledger w' where
  balanced := by
    have hset : ∀ {u : RegistryWorld} {k : ℕ} {st : CallStage}, u.book = w.book →
        (u.setStage k st).book.Balanced := by
      intro u k st hu
      rw [book_setStage, hu]
      exact h.balanced
    cases hact with
    | spawn A | stop i => exact h.balanced
    | begin c hc =>
      have hbook : RegistryWorld.book { w with calls := w.calls ++ [⟨c, .waiting, none, none⟩] }
          = w.book.begin c.key := by
        simp [book, Book.begin, RegistryCall.record]
      rw [hbook]
      exact Book.balanced_begin h.balanced c.key
    | write k c A new st hk hkey hc =>
      -- a call writes at most once, so its record is empty until then
      have hfresh := h.fresh k c hk (CallStage.pending_of_holding hc.stages.1)
      have hrecord : w.book.records[k]? = some ⟨A, none, none⟩ := by
        simp [book, hk, RegistryCall.record, hkey, hfresh]
      rw [book_write]
      exact Book.balanced_write h.balanced hrecord _
    | enter k c hk hst hwrites hfree => exact hset (u := w.acquire k) rfl
    | leave k c o hk hst hc => exact hset (u := w.release) rfl
    | create k c A hk hc hst => exact hset (u := w.spawn A) rfl
    | decide k c st hk hc => exact hset rfl
    | pass k c st hk hc => exact hset rfl
  fresh j c hj hst := by
    rcases call_of_act hact hj with hold | ⟨d, hd, hmove⟩ | ⟨-, -, hnew⟩
    · exact h.fresh j c hold hst
    -- a call that is in its lock section still has displaced nothing
    · have hfresh := h.fresh j d hd
      cases hmove with
      | entered hwait hlock => exact hfresh (by rw [hwait]; rfl)
      | decided st hdec hlock hreg => exact hfresh (by rw [hdec.stages.1]; rfl)
      | created A hcall hspawn hnew hlock hreg => exact hfresh (by rw [hspawn]; rfl)
      | left o hlocked hleave => cases hst
      | wrote A new st hkey hwrite => exact absurd hst (by simp [hwrite.stages.2])
      | passed st hpass => exact absurd hst (by simp [hpass.stages.2])
    · rw [hnew]
      exact ⟨rfl, rfl⟩
  hands j c hj := by
    rcases call_of_act hact hj with hold | ⟨d, hd, hmove⟩ | ⟨-, -, hnew⟩
    · refine (h.hands j c hold).mono fun e he => ?_
      exact running_act hact (ht.displaced j c e hold he)
    · have hfresh := h.fresh j d hd
      cases hmove with
      | entered hwait hlock =>
        have hnone := (hfresh (by rw [hwait]; rfl)).2
        exact RegistryCall.hands_of_none hnone fun r i => ⟨nofun, nofun⟩
      | decided st hdec hlock hreg =>
        obtain ⟨hlocked, -, hst⟩ := hdec.stages
        have hnone := (hfresh (by rw [hlocked]; rfl)).2
        rcases hst with rfl | ⟨n, -, rfl⟩ <;>
          exact RegistryCall.hands_of_none hnone fun r i => ⟨nofun, nofun⟩
      | created A hcall hspawn hnew hlock hreg =>
        have hnone := (hfresh (by rw [hspawn]; rfl)).2
        exact RegistryCall.hands_of_none hnone fun r i => ⟨nofun, nofun⟩
      | left o hlocked hleave =>
        have hnone := (hfresh (by rw [hlocked]; rfl)).2
        rcases hleave.reply with ⟨n, rfl⟩ | rfl <;>
          exact RegistryCall.hands_of_none hnone fun r i => ⟨nofun, nofun⟩
      | wrote A new st hkey hwrite =>
        -- an instance that has stopped does not run again
        refine (hands_of_writes ht hl hd hkey hwrite).mono fun e he => ?_
        exact running_act hact (ht.registry A e he).2
      | passed st hpass =>
        have hhands : RegistryCall.Hands _ w.running :=
          hands_of_passes (h.hands j d hd) hfresh hpass
        exact hhands.mono fun e he => running_act hact (ht.displaced j d e hd he)
    · rw [hnew]
      intro e he
      cases he

/-! ## The operations are atomic

`NewInv` says of an instance that was created in a lock section that nobody else knows it yet. With
it each step either changes nothing that can be seen or is the whole effect of one call. -/

/-- What call `k` returns, once that is settled. -/
def answer (w : RegistryWorld) (k : ℕ) : Option ServiceReply :=
  w.calls[k]?.bind fun c => c.stage.answer

/-- An instance of `A` that is in nobody's hands yet. -/
def Fresh (w : RegistryWorld) (A : TypeKey) (i : ℕ) : Prop :=
  w.typeOf i = some A ∧ (∀ B, w.entry B ≠ some i) ∧ ∀ k, w.answer k ≠ some (.addr i)

/-- In this step call `k` takes effect, at once. -/
structure TakesEffect (w w' : RegistryWorld) (k : ℕ) (call : ServiceCall) (o : ServiceReply) :
    Prop where
  begun : (w.calls[k]?).map RegistryCall.call = some call
  before : w.answer k = none
  after : w'.answer k = some o
  atomic : call.Atomic (w.entry call.key) w.running (w.lock ≠ none) (w.Fresh call.key)
    (w'.entry call.key) o
  others : ∀ B, B ≠ call.key → w'.registry B = w.registry B
  refused : o = .serviceStillRunning → w'.registry = w.registry

/-- A step in which no call takes effect changes no entry and settles no answer. -/
structure Silent (w w' : RegistryWorld) : Prop where
  registry : w'.registry = w.registry
  answers : ∀ k o, w'.answer k = some o → w.answer k = some o

theorem answer_setStage {st : CallStage} (hk : w.calls[k]? = some c) :
    (w.setStage k st).answer j = if k = j then st.answer else w.answer j := by
  by_cases hj : k = j
  · subst hj
    rw [if_pos rfl, answer, call_setStage_self hk]
    rfl
  · rw [if_neg hj, answer, setStage, Table.getElem?_modify_of_ne hj]
    rfl

theorem answer_write {new : Option AnyBox} {st : CallStage} (hk : w.calls[k]? = some c) :
    ((w.write k A new).release.setStage k st).answer k = st.answer := by
  rw [answer, call_write_self hk]
  rfl

/-- What has been returned is there, and what a `from_registry` is about to insert is fresh. -/
structure NewInv (w : RegistryWorld) : Prop where
  returned : ∀ k i, w.answer k = some (.addr i) → i < w.instances.length
  fresh : ∀ (k : ℕ) (c : RegistryCall) (i : ℕ), w.calls[k]? = some c → c.stage = .inserting i →
    (∃ A, c.call = .fromRegistry A) → w.Fresh c.call.key i

theorem newInv_init : NewInv init where
  returned k i h := by simp [answer, init] at h
  fresh k c i h := by simp [init] at h

/-- An address is returned by the call that holds the lock. -/
theorem returned_act (ht : Typed w) (hact : Act w w') {i : ℕ} (h : w'.answer j = some (.addr i)) :
    w.answer j = some (.addr i) ∨ (i < w.instances.length ∧ ∃ c, w.calls[j]? = some c
      ∧ c.stage.holding = true ∧ ∀ c', w'.calls[j]? = some c' → c'.stage.pending = false) := by
  obtain ⟨c', hc', hanswer⟩ := Option.bind_eq_some_iff.mp h
  rcases call_of_act hact hc' with hold | ⟨d, hd, hmove⟩ | ⟨-, -, hnew⟩
  · exact .inl (by rw [answer, hold]; exact hanswer)
  · have hend : c'.stage.pending = false := by
      rw [Bool.eq_false_iff]
      intro hpending
      rw [CallStage.answer_of_pending hpending] at hanswer
      cases hanswer
    have hend' : ∀ c'', w'.calls[j]? = some c'' → c''.stage.pending = false := fun c'' hc'' => by
      rw [hc'] at hc''
      cases hc''
      exact hend
    -- three steps give a call its answer: its leave, its write, and a pass
    cases hmove with
    | entered hwait hlock => cases hanswer
    | decided st hdec hlock hreg =>
      obtain ⟨-, -, rfl | ⟨n, -, rfl⟩⟩ := hdec.stages <;> cases hanswer
    | created A hcall hspawn hnew hlock hreg => cases hanswer
    | left o hlocked hleave =>
      right
      refine ⟨?_, d, hd, by rw [hlocked]; rfl, hend'⟩
      cases hanswer
      generalize d.call = call at hleave
      cases hleave with
      | found A n hentry hrun =>
        obtain ⟨e, he, hitem⟩ := Option.bind_eq_some_iff.mp hentry
        rw [ht.entry he] at hentry
        cases hentry
        exact lt_of_typeOf (ht.registry A e he).2
    | wrote A new st hkey hwrite =>
      right
      obtain ⟨call, stage, ins, dis⟩ := d
      refine ⟨?_, _, hd, hwrite.stages.1, hend'⟩
      cases hwrite with
      | spawned B m =>
        cases hanswer
        exact lt_of_typeOf (ht.inserting j _ i hd rfl)
      | _ => cases hanswer
    | passed st hpass =>
      left
      obtain ⟨call, stage, ins, dis⟩ := d
      cases hpass with
      | pinged A n => exact (by rw [answer, hd]; exact hanswer)
      | _ => cases hanswer
  · rw [hnew] at hanswer
    cases hanswer

/-- The map is written by the call that holds the lock. -/
theorem registry_act_holder (hact : Act w w') : w'.registry = w.registry
    ∨ ∃ (k : ℕ) (c : RegistryCall), w.calls[k]? = some c ∧ c.stage.holding = true
      ∧ ∀ c' : RegistryCall, w'.calls[k]? = some c' → c'.stage.pending = false := by
  cases hact with
  | write k c A new st hk hkey hc =>
    refine .inr ⟨k, c, hk, hc.stages.1, fun c' hc' => ?_⟩
    rw [call_write_self hk] at hc'
    cases hc'
    exact hc.stages.2
  | _ => exact .inl rfl

theorem fresh_act (ht : Typed w) (hl : LockInv w) (hn : NewInv w) (hact : Act w w') {i : ℕ}
    (hk : w'.calls[k]? = some c) (hst : c.stage = .inserting i)
    (hcall : ∃ A, c.call = .fromRegistry A) :
    w'.Fresh c.call.key i := by
  -- whoever else could write or return an address holds the lock
  have hholder : ∀ {m : ℕ} {d : RegistryCall}, w.lock = some k → w.calls[m]? = some d →
      d.stage.holding = true → (∀ c', w'.calls[m]? = some c' → c'.stage.pending = false) →
        False := by
    intro m d hlock hm hhold hend
    cases (hl.holder m d hm hhold).symm.trans hlock
    have hpending := hend c hk
    rw [hst] at hpending
    cases hpending
  have hkeep : ∀ {A : TypeKey}, w.lock = some k → w.Fresh A i → w'.typeOf i = some A →
      w'.Fresh A i := by
    rintro A hlock ⟨-, hentry, hanswer⟩ htype
    refine ⟨htype, fun B hB => ?_, fun m hm => ?_⟩
    · rcases registry_act_holder hact with hsame | ⟨m, d, hm, hhold, hend⟩
      · rw [entry, hsame] at hB
        exact hentry B hB
      · exact hholder hlock hm hhold hend
    · rcases returned_act ht hact hm with hold | ⟨-, d, hd, hhold, hend⟩
      · exact hanswer m hold
      · exact hholder hlock hd hhold hend
  rcases call_of_act hact hk with hold | ⟨d, hd, hmove⟩ | ⟨-, -, hnew⟩
  · have hlock := hl.holder k c hold (by rw [hst]; rfl)
    have hfresh := hn.fresh k c i hold hst hcall
    exact hkeep hlock hfresh (typeOf_act hact hfresh.1)
  -- the instance was created in this step, or had been before and is untouched since
  · cases hmove with
    | entered hwait hlock => cases hst
    | decided st hdec hlock hreg =>
      obtain ⟨A, hcall⟩ := hcall
      obtain ⟨-, -, rfl | ⟨n, hgiven, rfl⟩⟩ := hdec.stages
      · cases hst
      · have hcall : d.call = .fromRegistry A := hcall
        rw [hcall] at hgiven
        cases hgiven
    | left o hlocked hleave => cases hst
    | created A hcreate hspawn hnew hlock hreg =>
      have hlen : w.instances.length = i := by simpa using hst
      subst hlen
      -- nobody knows of an instance that was not there
      have hkey : d.call.key = A := by rw [hcreate]; rfl
      refine ⟨by rw [show RegistryCall.call _ = d.call from rfl, hkey]; exact hnew, fun B hB => ?_,
        fun m hm => ?_⟩
      · rw [entry, hreg] at hB
        obtain ⟨e, he, hitem⟩ := Option.bind_eq_some_iff.mp hB
        have hentry := ht.entry he
        rw [show w.entry B = some w.instances.length from hB] at hentry
        have hlt := lt_of_typeOf (ht.registry B e he).2
        rw [← Option.some.inj hentry] at hlt
        exact lt_irrefl _ hlt
      · rcases returned_act ht hact hm with hold | ⟨hlt, -⟩
        · exact lt_irrefl _ (hn.returned m _ hold)
        · exact lt_irrefl _ hlt
    | wrote A new st hkey hwrite =>
      have hst : st = .inserting i := hst
      subst hst
      cases hwrite.stages.2
    | passed st hpass =>
      have hst : st = .inserting i := hst
      subst hst
      cases hpass.stages.2
  · rw [hnew] at hst
    cases hst

theorem newInv_act (ht : Typed w) (hl : LockInv w) (hn : NewInv w) (hact : Act w w') :
    NewInv w' where
  returned m i hm := by
    refine lt_of_lt_of_le ?_ (instances_le hact)
    rcases returned_act ht hact hm with hold | ⟨hlt, -⟩
    · exact hn.returned m i hold
    · exact hlt
  fresh _ _ _ := fresh_act ht hl hn hact

/-- A step that leaves the map alone, and in which a call settles no answer. -/
theorem silent_setStage {u : RegistryWorld} {st : CallStage} (hcalls : u.calls = w.calls)
    (hreg : u.registry = w.registry) (hk : w.calls[k]? = some c)
    (hst : ∀ o, st.answer = some o → c.stage.answer = some o) : Silent w (u.setStage k st) where
  registry := hreg
  answers j o hj := by
    have hk' : u.calls[k]? = some c := hcalls ▸ hk
    rw [answer_setStage hk'] at hj
    split at hj
    · next hkj =>
      subst hkj
      rw [answer, hk]
      exact hst o hj
    · rw [answer, ← hcalls]
      exact hj

theorem entry_write {new : Option ℕ} {st : CallStage} :
    ((w.write k A (new.map (⟨A, ·⟩))).release.setStage k st).entry A = new := by
  cases new <;> simp [entry, setStage, release, RegistryWorld.write, AnyBox.downcast]

/-- A call that lets go without writing has taken effect on what it saw. -/
theorem takesEffect_leave (ht : Typed w) (hk : w.calls[k]? = some c) (hst : c.stage = .locked)
    {o : ServiceReply} (hc : Leaves w c.call o) :
    TakesEffect w (w.release.setStage k (.done o)) k c.call o where
  begun := by simp [hk]
  before := by simp [answer, hk, hst, CallStage.answer]
  after := by rw [answer_setStage (w := w.release) hk, if_pos rfl]; rfl
  atomic := by
    show c.call.Atomic (w.entry c.call.key) w.running _ _ (w.entry c.call.key) o
    rcases c with ⟨call, stage, ins, dis⟩
    cases hc with
    | found A i hentry hrun => exact .found A i hentry hrun
    | refused A i e hreg hrun => exact .stillRunning A i _ (ht.entry hreg) (hrun _ (ht.entry hreg))
  others _ _ := rfl
  refused _ := rfl

/-- A write takes effect on what is there. -/
theorem takesEffect_write (hl : LockInv w) (hn : NewInv w) (hk : w.calls[k]? = some c)
    {new : Option ℕ}
    {st : CallStage} (hkey : c.call.key = A) (hc : Writes w c.call c.stage new st) :
    ∃ o, TakesEffect w ((w.write k A (new.map (⟨A, ·⟩))).release.setStage k st) k c.call o := by
  have hsettled : ∃ o, st.answer = some o ∧ o ≠ .serviceStillRunning ∧ c.stage.answer = none
      ∧ c.call.Atomic (w.entry A) w.running (w.lock ≠ none) (w.Fresh A) new o := by
    have hvac := hl.vacant k c hk
    have hfresh := hn.fresh k c
    rcases c with ⟨call, stage, ins, dis⟩
    -- what was decided in the lock section still holds: the entry is vacant, the instance new
    cases hc with
    | spawned B i =>
      obtain rfl : B = A := hkey
      exact ⟨_, rfl, nofun, rfl, .spawned B i (hvac rfl nofun) (hfresh i hk rfl ⟨B, rfl⟩)⟩
    | registered B i n =>
      obtain rfl : B = A := hkey
      exact ⟨_, rfl, nofun, rfl, .registered B i (hvac rfl nofun)⟩
    | replaced B i => obtain rfl : B = A := hkey; exact ⟨_, rfl, nofun, rfl, .replaced B i⟩
    | unregisteredAddr B i =>
      obtain rfl : B = A := hkey
      exact ⟨_, rfl, nofun, rfl, .unregisteredAddr B i⟩
    | unregistered B => obtain rfl : B = A := hkey; exact ⟨_, rfl, nofun, rfl, .unregistered B⟩
  obtain ⟨o, ho, hrefused, hbefore, hatomic⟩ := hsettled
  refine ⟨o, by simp [hk], by simpa [answer, hk] using hbefore, ?_, ?_, ?_, ?_⟩
  · rw [answer_write hk, ho]
  · rw [hkey, entry_write]
    exact hatomic
  · intro B hB
    rw [hkey] at hB
    simp [setStage, release, RegistryWorld.write, hB]
  · exact fun h => absurd h hrefused

/-- Outside of a lock section only readers take effect. -/
theorem linearized_pass (hk : w.calls[k]? = some c) {st : CallStage}
    (hc : Passes w c.call c.stage st) :
    Silent w (w.setStage k st) ∨ ∃ k' call o, TakesEffect w (w.setStage k st) k' call o := by
  have hread : ∀ o, c.stage.answer = none → o ≠ .serviceStillRunning →
      c.call.Atomic (w.entry c.call.key) w.running (w.lock ≠ none) (w.Fresh c.call.key)
        (w.entry c.call.key) o →
      TakesEffect w (w.setStage k (.done o)) k c.call o := by
    intro o hbefore hrefused hatomic
    refine ⟨by simp [hk], by simpa [answer, hk] using hbefore, ?_, hatomic, fun _ _ => rfl,
      fun _ => rfl⟩
    rw [answer_setStage hk, if_pos rfl]
    rfl
  rcases c with ⟨call, stage, ins, dis⟩
  cases hc with
  | pinged A i => exact .inl (silent_setStage rfl rfl hk fun o ho => ho)
  | unpinged d i => exact .inl (silent_setStage rfl rfl hk nofun)
  | abandoned d => exact .inl (silent_setStage rfl rfl hk nofun)
  | tried A => exact .inr ⟨k, _, _, hread _ rfl nofun (.tried A)⟩
  | contended A hheld => exact .inr ⟨k, _, _, hread _ rfl nofun (.contended A hheld)⟩
  | read A => exact .inr ⟨k, _, _, hread _ rfl nofun (.read A)⟩

/-- **Every step is silent, or one call takes effect in it.** -/
theorem linearized_act (ht : Typed w) (hl : LockInv w) (hn : NewInv w) (hact : Act w w') :
    Silent w w' ∨ ∃ k call o, TakesEffect w w' k call o := by
  -- a leave, a write and the pass of a reader are the moments at which an operation happens
  cases hact with
  | spawn A | stop i => exact .inl ⟨rfl, fun _ _ => id⟩
  | begin c hc =>
    refine .inl ⟨rfl, fun k o hk => ?_⟩
    obtain ⟨d, hd, ho⟩ := Option.bind_eq_some_iff.mp hk
    rcases Table.getElem?_snoc.mp hd with hold | ⟨-, rfl⟩
    · rw [answer, hold]
      exact ho
    · cases ho
  | enter k c hk hst hwrites hfree =>
    exact .inl (silent_setStage (u := w.acquire k) rfl rfl hk nofun)
  | decide k c st hk hc =>
    refine .inl (silent_setStage rfl rfl hk fun o ho => ?_)
    obtain ⟨-, -, rfl | ⟨i, -, rfl⟩⟩ := hc.stages <;> cases ho
  | create k c A hk hc hst => exact .inl (silent_setStage (u := w.spawn A) rfl rfl hk nofun)
  | leave k c o hk hst hc => exact .inr ⟨k, c.call, o, takesEffect_leave ht hk hst hc⟩
  | write k c A new st hk hkey hc =>
    obtain ⟨o, ho⟩ := takesEffect_write hl hn hk hkey hc
    exact .inr ⟨k, c.call, o, ho⟩
  | pass k c st hk hc => exact linearized_pass hk hc

/-! ## The theorem

The four properties of a step are lifted to runs by the library's rules, and the last one is the
balance of the book at the end. -/

/-- In a step in which a `from_registry` creates an instance it holds the lock, and its entry is
absent or has stopped. -/
def CreatesVacantly (w w' : RegistryWorld) : Prop :=
  w'.instances.length ≠ w.instances.length → (∃ A, w' = w.spawn A)
    ∨ ∃ k A, (w.calls[k]?).map RegistryCall.call = some (.fromRegistry A) ∧ w.lock = some k
        ∧ w.vacant A

/-- An instance that is registered and running stays registered, unless it is replaced or
unregistered in this step. -/
def KeepsRunning (w w' : RegistryWorld) : Prop :=
  ∀ A i, w.entry A = some i → w.running i = true → w'.entry A ≠ some i →
    ∃ k call o, TakesEffect w w' k call o ∧ call.key = A
      ∧ ((∃ j, call = .replace A j) ∨ (∃ j, call = .unregisterAddr A j) ∨ call = .unregister A)

theorem createsVacantly_act (hl : LockInv w) (hact : Act w w') : CreatesVacantly w w' := by
  intro hlen
  cases hact with
  | spawn A => exact .inl ⟨A, rfl⟩
  | create k c A hk hc hst =>
    have hlock := hl.holder k c hk (by rw [hst]; rfl)
    have hvac := hl.vacant k c hk (by rw [hst]; rfl) (by rw [hst]; nofun)
    rw [hc] at hvac
    exact .inr ⟨k, A, by simp [hk, hc], hlock, hvac⟩
  | stop i => exact absurd (by simp [stop]) hlen
  | _ => exact absurd rfl hlen

theorem keepsRunning_act (ht : Typed w) (hl : LockInv w) (hn : NewInv w) (hact : Act w w') :
    KeepsRunning w w' := by
  intro A i hentry hrun hgone
  rcases linearized_act ht hl hn hact with hsilent | ⟨k, call, o, heffect⟩
  · exact absurd (by rw [entry, hsilent.registry]; exact hentry) hgone
  · by_cases hkey : call.key = A
    · refine ⟨k, call, o, heffect, hkey, ?_⟩
      have hatomic := heffect.atomic
      rw [hkey, hentry] at hatomic
      generalize hafter : w'.entry A = after at hatomic hgone
      -- of the operations that may change an entry two find it vacant, and three are those named
      cases hatomic with
      | found B n h hr => exact absurd rfl hgone
      | spawned B n hvac hfresh | registered B n hvac =>
        rw [hvac i rfl] at hrun
        cases hrun
      | stillRunning B n m h hr => exact absurd rfl hgone
      | replaced B n => obtain rfl : B = A := hkey; exact .inl ⟨n, rfl⟩
      | unregisteredAddr B n => obtain rfl : B = A := hkey; exact .inr (.inl ⟨n, rfl⟩)
      | unregistered B => obtain rfl : B = A := hkey; exact .inr (.inr rfl)
      | tried B => exact absurd rfl hgone
      | contended B => exact absurd rfl hgone
      | read B => exact absurd rfl hgone
    · have hsame := heffect.others A (Ne.symm hkey)
      exact absurd (by rw [entry, hsame]; exact hentry) hgone

/-- What is settled stays so, until the call has returned it or its future is dropped. -/
def StaysSettled (w w' : RegistryWorld) : Prop :=
  ∀ k o, w.answer k = some o →
    w'.answer k = some o ∨ (w'.calls[k]?).map RegistryCall.stage = some .dropped

theorem length_act (hact : Act w w') : w.calls.length ≤ w'.calls.length := by
  cases hact <;> simp [setStage, acquire, release, spawn, stop, RegistryWorld.write]

theorem staysSettled_act (hact : Act w w') : StaysSettled w w' := by
  intro k o ho
  obtain ⟨c, hc, hco⟩ := Option.bind_eq_some_iff.mp ho
  have hlt : k < w'.calls.length := (List.getElem?_eq_some_iff.mp hc).1.trans_le (length_act hact)
  have hc' : w'.calls[k]? = some w'.calls[k] := List.getElem?_eq_getElem hlt
  have hsettled : c.stage.pending = true → False := fun hpend => by
    rw [CallStage.answer_of_pending hpend] at hco
    cases hco
  rcases call_of_act hact hc' with hold | ⟨d, hd, hmove⟩ | ⟨hnone, -, -⟩
  · exact .inl (by rw [answer, hc', ← hold]; exact ho)
  · rw [hc] at hd
    cases hd
    generalize w'.calls[k] = c' at hc' hmove
    -- an answer is given once; after it there is only the ping, which may be dropped
    cases hmove with
    | passed st hpass =>
      rcases c with ⟨call, stage, ins, dis⟩
      cases hpass with
      | pinged A i => exact .inl (by rw [answer, hc']; exact hco)
      | unpinged d i => exact .inr (by rw [hc']; rfl)
      | _ => exact (hsettled rfl).elim
    | entered hwait hlock => exact (hsettled (by rw [hwait]; rfl)).elim
    | decided st hdec hlock hreg => exact (hsettled (by rw [hdec.stages.1]; rfl)).elim
    | left o' hlocked hleave => exact (hsettled (by rw [hlocked]; rfl)).elim
    | created A hcall hspawn hnew hlock hreg => exact (hsettled (by rw [hspawn]; rfl)).elim
    | wrote A new st hkey hwrite =>
      exact (hsettled (CallStage.pending_of_holding hwrite.stages.1)).elim
  · rw [hc] at hnone
    cases hnone

/-- What holds of the registry in every state. -/
structure Consistent (w : RegistryWorld) : Prop where
  /-- no downcast fails -/
  typed : ∀ A e, w.registry A = some e →
    e.item.downcast A = some e.item.addr ∧ w.typeOf e.item.addr = some A
  /-- every address that was registered is registered, or has been displaced by one call -/
  custody : w.book.Balanced
  /-- that call hands it on, or it is a `from_registry` and the instance has stopped -/
  handed : ∀ (k : ℕ) (c : RegistryCall), w.calls[k]? = some c → c.Hands w.running

/-- What every step does. -/
structure Orderly (w w' : RegistryWorld) : Prop where
  linearized : Silent w w' ∨ ∃ k call o, TakesEffect w w' k call o
  settled : StaysSettled w w'
  creates : CreatesVacantly w w'
  keeps : KeepsRunning w w'

theorem inv_of_run {ls : List RegistryLabel} (h : machine.Run ls w) :
    Typed w ∧ LockInv w ∧ Ledger w := by
  refine h.invariant (I := fun w => Typed w ∧ LockInv w ∧ Ledger w) ⟨?_, ?_, ?_⟩ ?_
  · exact ⟨nofun, by simp [machine, init], by simp [machine, init], by simp [machine, init]⟩
  · exact ⟨by simp [machine, init], by simp [machine, init]⟩
  · exact ⟨Book.balanced_empty, by simp [machine, init], by simp [machine, init]⟩
  · rintro s l s' ⟨ht, hl, hb⟩ hstep
    have hact := act_cases hstep
    exact ⟨typed_act ht hact, lockInv_act ht hl hact, ledger_act ht hl hb hact⟩

theorem newInv_of_run {ls : List RegistryLabel} (h : machine.Run ls w) : NewInv w := by
  suffices hall : (Typed w ∧ LockInv w) ∧ NewInv w from hall.2
  induction h with
  | start => exact ⟨⟨(inv_of_run .start).1, (inv_of_run .start).2.1⟩, newInv_init⟩
  | snoc hrun hstep ih =>
    have hact := act_cases hstep
    exact ⟨⟨typed_act ih.1.1 hact, lockInv_act ih.1.1 ih.1.2 hact⟩,
      newInv_act ih.1.1 ih.1.2 ih.2 hact⟩

/-- **The registry is consistent**, for any number of clients and whenever instances stop. -/
theorem registry_consistent {ls : List RegistryLabel} (h : machine.Run ls w) :
    Consistent w ∧ ∀ s l s', machine.Takes ls s l s' → Orderly s s' := by
  obtain ⟨ht, -, hb⟩ := inv_of_run h
  refine ⟨⟨fun A e he => ?_, hb.balanced, hb.hands⟩, ?_⟩
  · exact ⟨(entry_of_registry he).symm.trans (ht.entry he), (ht.registry A e he).2⟩
  · rintro s l s' ⟨pre, -, hrun, hstep⟩
    obtain ⟨ht, hl, -⟩ := inv_of_run hrun
    have hn := newInv_of_run hrun
    have hact := act_cases hstep
    exact ⟨linearized_act ht hl hn hact, staysSettled_act hact, createsVacantly_act hl hact,
      keepsRunning_act ht hl hn hact⟩

/-- Two clients get the service at once, and only one spawns it. A registration is refused until the
instance has stopped, then it takes over; the instance that was spawned is handed on, and the new
one is unregistered through its own address. -/
def serviceRun : List RegistryLabel :=
  [.begin (.fromRegistry 5), .begin (.fromRegistry 5), .advance 0, .advance 0, .advance 0,
    .advance 0, .advance 1, .advance 1, .advance 0, .spawn 5, .begin (.register 5 1), .advance 2,
    .advance 2, .stop 0, .begin (.register 5 1), .advance 3, .advance 3, .advance 3,
    .begin (.unregisterAddr 5 1), .advance 4, .advance 4, .begin (.tryFromRegistry 5), .advance 5]

theorem registry_consistent_service :
    ((machine.after serviceRun rfl).answer 0 = some (.addr 0)
      ∧ (machine.after serviceRun rfl).answer 1 = some (.addr 0)
      ∧ (machine.after serviceRun rfl).answer 2 = some .serviceStillRunning
      ∧ (machine.after serviceRun rfl).answer 3 = some (.registered 1 (some 0))
      ∧ (machine.after serviceRun rfl).answer 4 = some (.removed (some 1))
      ∧ (machine.after serviceRun rfl).answer 5 = some (.tried none))
      ∧ Consistent (machine.after serviceRun rfl) :=
  ⟨⟨rfl, rfl, rfl, rfl, rfl, rfl⟩, (registry_consistent (machine.run_after serviceRun rfl)).1⟩

end RegistryWorld

end Hannibal
