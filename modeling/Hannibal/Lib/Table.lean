import Mathlib.Algebra.GroupWithZero.Nat
import Mathlib.Algebra.Order.BigOperators.Group.Finset
import Mathlib.Data.List.Forall2
import Mathlib.Data.List.Infix
import Mathlib.Order.Interval.Finset.Nat

/-!
# Hannibal.Lib.Table — tables that only grow

Calls, tasks and other things that are numbered as they are begun are kept in a list: a new row is
added at the end, and an old row is updated in place. These lemmas say where a row of the new table
comes from, what an update leaves as it was, what it changes of a total, how many numbers there can
be, what it takes out of a count, how two tables that agree row by row do so after an update, and
how many rounds of updates it takes until nothing changes any more. -/

namespace Table

variable {α : Type*} {xs : List α} {x y : α} {i k : ℕ}

/-- A row is an old one, or the one just added. -/
theorem getElem?_snoc : (xs ++ [x])[i]? = some y ↔ xs[i]? = some y ∨ (i = xs.length ∧ y = x) := by
  rcases Nat.lt_trichotomy i xs.length with hlt | rfl | hgt
  · rw [List.getElem?_append_left hlt]
    simp [hlt.ne]
  · rw [List.getElem?_concat_length]
    simp [eq_comm]
  · rw [List.getElem?_eq_none (by simp; omega), List.getElem?_eq_none hgt.le]
    simp [hgt.ne']

theorem getElem?_snoc_of_some (h : xs[i]? = some y) : (xs ++ [x])[i]? = some y :=
  getElem?_snoc.mpr (.inl h)

/-- A row is as it was, or it is the updated one. -/
theorem of_getElem?_modify {φ : α → α} (h : (xs.modify i φ)[k]? = some y) :
    (i ≠ k ∧ xs[k]? = some y) ∨ (i = k ∧ ∃ a, xs[k]? = some a ∧ y = φ a) := by
  rw [List.getElem?_modify] at h
  obtain ⟨a, ha, rfl⟩ := Option.map_eq_some_iff.mp h
  by_cases hik : i = k
  · exact .inr ⟨hik, a, ha, by simp [hik]⟩
  · exact .inl ⟨hik, by simp [hik, ha]⟩

theorem of_mem_modify {φ : α → α} (h : y ∈ xs.modify i φ) : y ∈ xs ∨ ∃ x ∈ xs, y = φ x := by
  obtain ⟨j, hj⟩ := List.mem_iff_getElem?.mp h
  rcases of_getElem?_modify hj with ⟨-, hold⟩ | ⟨-, x, hx, hy⟩
  · exact .inl (List.mem_of_getElem? hold)
  · exact .inr ⟨x, List.mem_of_getElem? hx, hy⟩

theorem getElem?_modify_self {φ : α → α} (h : xs[i]? = some x) :
    (xs.modify i φ)[i]? = some (φ x) := by
  rw [List.getElem?_modify, h]
  simp

theorem getElem?_modify_of_ne {φ : α → α} (hik : i ≠ k) : (xs.modify i φ)[k]? = xs[k]? := by
  simp [hik]

/-- Only what an update makes of the row that is there counts. -/
theorem modify_congr {φ ψ : α → α} (hx : xs[i]? = some x) (h : φ x = ψ x) :
    xs.modify i φ = xs.modify i ψ := by
  refine List.ext_getElem? fun j => ?_
  rw [List.getElem?_modify, List.getElem?_modify]
  by_cases hij : i = j
  · subst hij
    simp [hx, h]
  · simp [hij]

/-- An update of an old row does not see the one just added. -/
theorem modify_snoc {φ : α → α} (hi : i < xs.length) :
    (xs ++ [x]).modify i φ = xs.modify i φ ++ [x] := by
  refine List.ext_getElem? fun j => ?_
  simp only [List.getElem?_modify, List.getElem?_append, List.length_modify]
  by_cases hj : j < xs.length
  · simp [hj]
  · have hij : i ≠ j := by omega
    simp [hj, hij]

theorem modify_snoc_self {φ : α → α} : (xs ++ [x]).modify xs.length φ = xs ++ [φ x] := by
  induction xs with
  | nil => rfl
  | cons y xs ih => simpa using ih

/-- An update of a row is one of its column. -/
theorem map_modify_comm {β : Type*} {φ : α → α} {ψ : β → β} {g : α → β}
    (h : ∀ a, g (φ a) = ψ (g a)) :
    (xs.modify i φ).map g = (xs.map g).modify i ψ := by
  induction xs generalizing i with
  | nil => simp
  | cons x xs ih =>
    cases i with
    | zero => simp [h]
    | succ i => simp [ih]

/-- An update changes no column that `φ` leaves alone. -/
theorem filterMap_modify {β : Type*} {φ : α → α} {g : α → Option β} (h : ∀ a, g (φ a) = g a) :
    (xs.modify i φ).filterMap g = xs.filterMap g := by
  induction xs generalizing i with
  | nil => rw [List.modify_nil]
  | cons x xs ih =>
    cases i with
    | zero => simp only [List.modify_zero_cons, List.filterMap_cons, h]
    | succ i => simp only [List.modify_succ_cons, List.filterMap_cons, ih]

theorem map_modify {β : Type*} {φ : α → α} {g : α → β} (h : ∀ a, g (φ a) = g a) :
    (xs.modify i φ).map g = xs.map g := by
  rw [← List.filterMap_eq_map]
  exact filterMap_modify fun a => congrArg some (h a)

/-- An update changes a total by what it changes its row. -/
theorem sum_modify {φ : α → α} {g : α → ℕ} (h : xs[i]? = some x) :
    ((xs.modify i φ).map g).sum + g x = (xs.map g).sum + g (φ x) := by
  -- on the table; the row is its first, or a row of the rest
  induction xs generalizing i with
  | nil => cases h
  | cons y xs ih =>
    cases i with
    | zero =>
      cases h
      simp only [List.modify_zero_cons, List.map_cons, List.sum_cons]
      omega
    | succ i =>
      have hih := ih h
      simp only [List.modify_succ_cons, List.map_cons, List.sum_cons]
      omega

/-- A total without one of its rows. -/
theorem sum_drop {t : Finset α} {f g : α → ℕ} (hx : x ∈ t) (hle : ∀ y ∈ t, g y ≤ f y)
    (hgx : g x = 0) :
    ∑ y ∈ t, g y + f x ≤ ∑ y ∈ t, f y := by
  classical
  rw [← Finset.add_sum_erase t g hx, ← Finset.add_sum_erase t f hx, hgx]
  have hrest : ∑ y ∈ t.erase x, g y ≤ ∑ y ∈ t.erase x, f y :=
    Finset.sum_le_sum fun y hy => hle y (Finset.mem_of_mem_erase hy)
  omega

/-- At most `k` of each number from `1` to `m` are at most `k * m`. -/
theorem length_le_of_count {ns : List ℕ} {m : ℕ} (hmem : ∀ n ∈ ns, 1 ≤ n ∧ n ≤ m)
    (hcount : ∀ n, ns.count n ≤ k) : ns.length ≤ k * m := by
  have hsub : ns.toFinset ⊆ Finset.Icc 1 m := fun n hn =>
    Finset.mem_Icc.mpr (hmem n (List.mem_toFinset.mp hn))
  have hcard : ns.toFinset.card ≤ m := by simpa using Finset.card_le_card hsub
  calc ns.length = ∑ n ∈ ns.toFinset, ns.count n := ns.sum_toFinset_count_eq_length.symm
    _ ≤ ns.toFinset.card • k := Finset.sum_le_card_nsmul _ _ _ fun n _ => hcount n
    _ = k * ns.toFinset.card := by rw [Nat.nsmul_eq_mul, Nat.mul_comm]
    _ ≤ k * m := Nat.mul_le_mul_left k hcard

/-- An update of all rows that brings none into a count. -/
theorem countP_mapIdx_le {f : ℕ → α → α} {P : α → Bool} (h : ∀ i x, P (f i x) = true → P x = true) :
    (xs.mapIdx f).countP P ≤ xs.countP P := by
  induction xs generalizing f with
  | nil => simp
  | cons x xs ih =>
    have hrest := ih (f := fun i => f (i + 1)) fun i => h (i + 1)
    rw [List.mapIdx_cons, List.countP_cons, List.countP_cons]
    cases hP : P (f 0 x) with
    | false => exact Nat.add_le_add hrest (Nat.zero_le _)
    | true => simpa [h 0 x hP] using hrest

/-- And takes one out of it. -/
theorem countP_mapIdx_lt {f : ℕ → α → α} {P : α → Bool} (h : ∀ i x, P (f i x) = true → P x = true)
    (hx : xs[i]? = some x) (hin : P x = true) (hout : P (f i x) = false) :
    (xs.mapIdx f).countP P < xs.countP P := by
  induction xs generalizing f i with
  | nil => cases hx
  | cons y xs ih =>
    rw [List.mapIdx_cons, List.countP_cons, List.countP_cons]
    cases i with
    -- the row that leaves the count is the first; the others do not enter it
    | zero =>
      cases hx
      have hrest : (xs.mapIdx fun i => f (i + 1)).countP P ≤ xs.countP P :=
        countP_mapIdx_le fun i => h (i + 1)
      simp [hin, hout]
      omega
    | succ i =>
      have hrest := ih (f := fun i => f (i + 1)) (fun i => h (i + 1)) hx hout
      cases hP : P (f 0 y) with
      | false => exact Nat.add_lt_add_of_lt_of_le hrest (Nat.zero_le _)
      | true => simpa [h 0 y hP] using hrest

/-! ## Two tables, row by row

Two tables are grown and updated alike, and their rows stay related. Where only one of them is
updated the row it has there must be related to the row of the other as well. -/

section Rows

variable {β : Type*} {R : α → β → Prop} {ys : List β}

theorem forall₂_getElem? (h : List.Forall₂ R xs ys) (hx : xs[i]? = some x) :
    ∃ y, ys[i]? = some y ∧ R x y := by
  induction h generalizing i with
  | nil => simp at hx
  | cons hxy _ ih =>
    cases i with
    | zero =>
      cases hx
      exact ⟨_, rfl, hxy⟩
    | succ i => exact ih hx

theorem forall₂_snoc {y : β} (h : List.Forall₂ R xs ys) (hxy : R x y) :
    List.Forall₂ R (xs ++ [x]) (ys ++ [y]) := by
  induction h with
  | nil => exact .cons hxy .nil
  | cons hhead _ ih => exact .cons hhead ih

/-- The same row is updated in both. -/
theorem forall₂_modify {φ : α → α} {ψ : β → β} (h : List.Forall₂ R xs ys)
    (hrow : ∀ x y, R x y → R (φ x) (ψ y)) : List.Forall₂ R (xs.modify i φ) (ys.modify i ψ) := by
  induction h generalizing i with
  | nil => simp
  | cons hxy hrest ih =>
    cases i with
    | zero => exact .cons (hrow _ _ hxy) hrest
    | succ i => exact .cons hxy ih

/-- A row is updated in one of them only. -/
theorem forall₂_modify_left {φ : α → α} (h : List.Forall₂ R xs ys)
    (hrow : ∀ x y, xs[i]? = some x → R x y → R (φ x) y) : List.Forall₂ R (xs.modify i φ) ys := by
  induction h generalizing i with
  | nil => simp
  | cons hxy hrest ih =>
    cases i with
    | zero => exact .cons (hrow _ _ rfl hxy) hrest
    | succ i => exact .cons hxy (ih hrow)

end Rows

/-- Where each round changes nothing, or there is less left to do after it, nothing changes after as
many rounds as there was to do. -/
theorem iterate_settled {f : α → α} (μ : α → ℕ) (hf : ∀ x, f x = x ∨ μ (f x) < μ x) {n : ℕ}
    (hn : μ x ≤ n) : f (f^[n] x) = f^[n] x := by
  induction n generalizing x with
  | zero =>
    rcases hf x with hfix | hlt
    · exact hfix
    · omega
  | succ n ih =>
    rcases hf x with hfix | hlt
    · rw [Function.iterate_fixed hfix, hfix]
    · exact ih (by omega)

end Table
