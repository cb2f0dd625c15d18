import Mathlib.Data.List.AList

/-!
# Hannibal.Children — the table of children of a `Context`

`mod children` in `context.rs`: a table that is type-erased. `add` puts a `Sender<()>` under the key
of `()`, `register` a `Sender<M>` under that of `M`, and `forward` finds the `Sender<M>`s again by
downcasting. -/

namespace Hannibal

/-- The `TypeId` of a message type. -/
inductive MessageType (κ : Type) where
  /-- `()` -/
  | unit
  | named (k : κ)
  deriving DecidableEq, Repr

/-- `Box<dyn IsAlive>`: a `Sender<M>` of some actor, where `M` is forgotten by the table. -/
structure Child (κ : Type) where
  message : MessageType κ
  actor : ℕ
  deriving DecidableEq, Repr

/-- `HashMap<TypeId, Vec<Child>>`. -/
abbrev Children (κ : Type) := AList fun _ : MessageType κ => List (Child κ)

namespace Children

variable {κ : Type}

/-- `child.as_any().downcast_ref::<Sender<M>>()`. -/
def downcastRef [DecidableEq κ] (m : MessageType κ) (b : Child κ) : Option (Child κ) :=
  if b.message = m then some b else none

/-- The `Vec` under a key; there is none where nothing has been put. -/
def vec [DecidableEq κ] (t : Children κ) (m : MessageType κ) : List (Child κ) :=
  (t.lookup m).getD []

/-- `self.children.entry(key).or_default().push(child)`. -/
def push [DecidableEq κ] (t : Children κ) (m : MessageType κ) (b : Child κ) : Children κ :=
  t.insert m (t.vec m ++ [b])

/-- `Children::add`. -/
def add [DecidableEq κ] (t : Children κ) (actor : ℕ) : Children κ := t.push .unit ⟨.unit, actor⟩

/-- `Children::register`. -/
def register [DecidableEq κ] (t : Children κ) (m : MessageType κ) (actor : ℕ) : Children κ :=
  t.push m ⟨m, actor⟩

/-- `Children::remove_stopped`. -/
def removeStopped (t : Children κ) (isAlive : Child κ → Bool) : Children κ where
  entries := t.entries.map fun e => ⟨e.1, e.2.filter isAlive⟩
  nodupKeys := by
    have hkeys : (t.entries.map fun e => (⟨e.1, e.2.filter isAlive⟩ : Sigma fun _ => _)).keys
        = t.entries.keys := by
      rw [List.keys, List.map_map]
      rfl
    rw [List.NodupKeys, hkeys]
    exact t.nodupKeys

/-- A `Sender` of the actor is in the table. -/
def holds (t : Children κ) (actor : ℕ) : Bool :=
  t.entries.any fun e => e.2.any fun b => b.actor == actor

variable [DecidableEq κ] {t : Children κ} {m k : MessageType κ} {b : Child κ} {actor : ℕ}

@[simp] theorem vec_empty : vec (∅ : Children κ) m = [] := rfl

theorem vec_push : (t.push m b).vec k = if k = m then t.vec m ++ [b] else t.vec k := by
  by_cases hk : k = m
  · subst hk
    rw [vec, push, AList.lookup_insert, if_pos rfl]
    rfl
  · rw [vec, push, AList.lookup_insert_ne hk, if_neg hk]
    rfl

theorem lookup_removeStopped {isAlive : Child κ → Bool} :
    (t.removeStopped isAlive).lookup m = (t.lookup m).map (List.filter isAlive) := by
  have hmem := fun (t : Children κ) (v : List (Child κ)) =>
    AList.mem_lookup_iff (a := m) (b := v) (s := t)
  simp only [Option.mem_def] at hmem
  ext v
  rw [hmem, Option.map_eq_some_iff]
  simp only [hmem, removeStopped, List.mem_map]
  constructor
  · rintro ⟨⟨k, u⟩, hu, heq⟩
    cases heq
    exact ⟨u, hu, rfl⟩
  · rintro ⟨u, hu, rfl⟩
    exact ⟨⟨m, u⟩, hu, rfl⟩

theorem vec_removeStopped {isAlive : Child κ → Bool} :
    (t.removeStopped isAlive).vec m = (t.vec m).filter isAlive := by
  rw [vec, lookup_removeStopped, vec]
  cases t.lookup m <;> rfl

theorem holds_iff : t.holds actor = true ↔ ∃ m, ∃ b ∈ t.vec m, b.actor = actor := by
  have hentry : ∀ m v, (⟨m, v⟩ : Sigma fun _ => List (Child κ)) ∈ t.entries ↔ t.lookup m = some v :=
    fun m v => (AList.mem_lookup_iff (a := m) (b := v) (s := t)).symm
  simp only [holds, List.any_eq_true, beq_iff_eq]
  constructor
  · rintro ⟨⟨m, v⟩, hv, b, hb, hactor⟩
    exact ⟨m, b, by rw [vec, (hentry m v).mp hv]; exact hb, hactor⟩
  · rintro ⟨m, b, hb, hactor⟩
    cases hv : t.lookup m with
    | none =>
      rw [vec, hv] at hb
      cases hb
    | some v =>
      rw [vec, hv] at hb
      exact ⟨⟨m, v⟩, (hentry m v).mpr hv, b, hb, hactor⟩

end Children

end Hannibal
