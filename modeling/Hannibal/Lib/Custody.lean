import Hannibal.Lib.Table
import Mathlib.Logic.Function.Basic

/-!
# Hannibal.Lib.Custody — what becomes of the items of a map that many may write

Each slot of the map holds at most one item. A writer replaces what a slot holds, by an item of its
own or by nothing, and takes what it has displaced. The book keeps, beside the map, one record for
each writer.

* **`Book.Balanced`** — every item that was inserted is either still in its slot, or it has been
  displaced, by exactly one writer.
* **`balanced_begin`**, **`balanced_write`** — a book is balanced as it grows.
-/

namespace Custody

variable {κ β : Type*}

/-- An item in a slot, and the writer that put it there. -/
structure Slot (β : Type*) where
  item : β
  writer : ℕ
  deriving DecidableEq, Repr

/-- One writer: its slot, what it has inserted, and what it has displaced. -/
structure Record (κ β : Type*) where
  key : κ
  inserted : Option β
  displaced : Option (Slot β)

/-- The map and the records, in the order in which the writers came. -/
structure Book (κ β : Type*) where
  map : κ → Option (Slot β)
  records : List (Record κ β)

namespace Book

def empty : Book κ β := ⟨fun _ => none, []⟩

/-- A writer comes. -/
def begin (b : Book κ β) (key : κ) : Book κ β :=
  { b with records := b.records ++ [⟨key, none, none⟩] }

/-- Writer `k` replaces what its slot holds. -/
def write [DecidableEq κ] (b : Book κ β) (k : ℕ) (key : κ) (new : Option β) : Book κ β where
  map := Function.update b.map key (new.map (⟨·, k⟩))
  records := b.records.modify k fun r => { r with inserted := new, displaced := b.map key }

variable {b : Book κ β}

/-- The item of writer `k` has been displaced by writer `j`. -/
def DisplacedBy (b : Book κ β) (k : ℕ) (item : β) (j : ℕ) : Prop :=
  ∃ r, b.records[j]? = some r ∧ r.displaced = some ⟨item, k⟩

/-- The item of writer `k` is in its slot. -/
def Held (b : Book κ β) (k : ℕ) (item : β) : Prop := ∃ key, b.map key = some ⟨item, k⟩

structure Balanced (b : Book κ β) : Prop where
  /-- what a slot holds was inserted there by its writer -/
  held : ∀ key s, b.map key = some s →
    ∃ r, b.records[s.writer]? = some r ∧ r.key = key ∧ r.inserted = some s.item
  /-- what was displaced had been inserted -/
  displaced : ∀ (j : ℕ) (r : Record κ β) (s : Slot β), b.records[j]? = some r →
    r.displaced = some s → ∃ r', b.records[s.writer]? = some r' ∧ r'.inserted = some s.item
  /-- what was inserted is in its slot, or has been displaced once -/
  fate : ∀ (k : ℕ) (r : Record κ β) (item : β), b.records[k]? = some r → r.inserted = some item →
    (b.Held k item ∧ ∀ j, ¬ b.DisplacedBy k item j)
      ∨ (¬ b.Held k item ∧ ∃! j, b.DisplacedBy k item j)

theorem balanced_empty : Balanced (empty : Book κ β) where
  held key s h := by cases h
  displaced j r s h := by simp [empty] at h
  fate k r item h := by simp [empty] at h

/-- A record that was there is there; a new one has displaced nothing. -/
theorem displacedBy_begin {key : κ} {k j : ℕ} {item : β} :
    (b.begin key).DisplacedBy k item j ↔ b.DisplacedBy k item j := by
  constructor
  · rintro ⟨r, hr, hdis⟩
    rcases Table.getElem?_snoc.mp hr with hold | ⟨-, rfl⟩
    · exact ⟨r, hold, hdis⟩
    · cases hdis
  · rintro ⟨r, hr, hdis⟩
    exact ⟨r, Table.getElem?_snoc_of_some hr, hdis⟩

theorem balanced_begin (h : Balanced b) (key : κ) : Balanced (b.begin key) where
  held key' s hs := by
    obtain ⟨r, hr, hrest⟩ := h.held key' s hs
    exact ⟨r, Table.getElem?_snoc_of_some hr, hrest⟩
  displaced j r s hr hdis := by
    rcases Table.getElem?_snoc.mp hr with hold | ⟨-, rfl⟩
    · obtain ⟨r', hr', hins⟩ := h.displaced j r s hold hdis
      exact ⟨r', Table.getElem?_snoc_of_some hr', hins⟩
    · cases hdis
  fate k r item hr hins := by
    rcases Table.getElem?_snoc.mp hr with hold | ⟨-, rfl⟩
    · simp only [displacedBy_begin]
      exact h.fate k r item hold hins
    · cases hins

section Write

variable [DecidableEq κ] {k : ℕ} {key : κ} {new : Option β}

/-- The record of the writer itself. -/
theorem record_write_self (hk : b.records[k]? = some ⟨key, none, none⟩) :
    (b.write k key new).records[k]? = some ⟨key, new, b.map key⟩ :=
  Table.getElem?_modify_self hk

theorem record_write_of_ne {j : ℕ} (hne : k ≠ j) :
    (b.write k key new).records[j]? = b.records[j]? :=
  Table.getElem?_modify_of_ne hne

/-- Others keep what they have displaced; the writer has displaced what it found. -/
theorem displacedBy_write (hk : b.records[k]? = some ⟨key, none, none⟩) {i j : ℕ} {item : β} :
    (b.write k key new).DisplacedBy i item j
      ↔ b.DisplacedBy i item j ∨ (j = k ∧ b.map key = some ⟨item, i⟩) := by
  by_cases hj : k = j
  · subst hj
    have hself : (b.write k key new).records[k]? = some ⟨key, new, b.map key⟩ :=
      record_write_self hk
    constructor
    · rintro ⟨r, hr, hdis⟩
      rw [hself] at hr
      cases hr
      exact .inr ⟨rfl, hdis⟩
    · rintro (⟨r, hr, hdis⟩ | ⟨-, hmap⟩)
      · rw [hk] at hr
        cases hr
        cases hdis
      · exact ⟨_, hself, hmap⟩
  · constructor
    · rintro ⟨r, hr, hdis⟩
      rw [record_write_of_ne hj] at hr
      exact .inl ⟨r, hr, hdis⟩
    · rintro (⟨r, hr, hdis⟩ | ⟨rfl, -⟩)
      · exact ⟨r, (record_write_of_ne hj).trans hr, hdis⟩
      · exact absurd rfl hj

/-- What somebody else put into a slot is held as long as that slot is not the one written to. -/
theorem held_write (h : Balanced b) {i : ℕ} {item : β} (hi : i ≠ k) :
    (b.write k key new).Held i item ↔ b.Held i item ∧ b.map key ≠ some ⟨item, i⟩ := by
  constructor
  · rintro ⟨key', hmap⟩
    have hne : key' ≠ key := by
      rintro rfl
      have hnew : new.map (⟨·, k⟩) = some (⟨item, i⟩ : Slot β) := by simpa [write] using hmap
      obtain ⟨x, -, hx⟩ := Option.map_eq_some_iff.mp hnew
      exact hi (congrArg Slot.writer hx).symm
    have hold : b.map key' = some ⟨item, i⟩ := by simpa [write, hne] using hmap
    refine ⟨⟨key', hold⟩, fun hsame => hne ?_⟩
    -- the record of writer `i` knows its slot
    obtain ⟨r, hr, hkey, -⟩ := h.held key' _ hold
    obtain ⟨r', hr', hkey', -⟩ := h.held key _ hsame
    rw [hr] at hr'
    cases hr'
    exact hkey.symm.trans hkey'
  · rintro ⟨⟨key', hmap⟩, hother⟩
    have hne : key' ≠ key := by
      rintro rfl
      exact hother hmap
    exact ⟨key', by simpa [write, hne] using hmap⟩

/-- The writer's own item is in its slot, and nobody has displaced it. -/
theorem fate_write_self (h : Balanced b) (hk : b.records[k]? = some ⟨key, none, none⟩) {item : β}
    (hnew : new = some item) : (b.write k key new).Held k item
      ∧ ∀ j, ¬ (b.write k key new).DisplacedBy k item j := by
  refine ⟨⟨key, by simp [write, hnew]⟩, fun j hdis => ?_⟩
  rcases (displacedBy_write hk).mp hdis with ⟨r, hr, hold⟩ | ⟨-, hmap⟩
  · obtain ⟨r', hr', hins⟩ := h.displaced j r _ hr hold
    rw [hk] at hr'
    cases hr'
    cases hins
  · obtain ⟨r', hr', -, hins⟩ := h.held key _ hmap
    rw [hk] at hr'
    cases hr'
    cases hins

/-- Everybody else's item is where it was, unless the writer has displaced it. -/
theorem fate_write_other (h : Balanced b) (hk : b.records[k]? = some ⟨key, none, none⟩) {i : ℕ}
    {item : β} (hi : i ≠ k)
    (hfate : (b.Held i item ∧ ∀ j, ¬ b.DisplacedBy i item j)
      ∨ (¬ b.Held i item ∧ ∃! j, b.DisplacedBy i item j)) :
    ((b.write k key new).Held i item ∧ ∀ j, ¬ (b.write k key new).DisplacedBy i item j)
      ∨ (¬ (b.write k key new).Held i item ∧ ∃! j, (b.write k key new).DisplacedBy i item j) := by
  simp only [held_write h hi, displacedBy_write hk]
  by_cases hold : b.map key = some ⟨item, i⟩
  · -- it was in the slot that is written to
    have hnone : ∀ j, ¬ b.DisplacedBy i item j := by
      rcases hfate with ⟨-, hnone⟩ | ⟨hnot, -⟩
      · exact hnone
      · exact absurd ⟨key, hold⟩ hnot
    refine .inr ⟨fun hheld => hheld.2 hold, k, .inr ⟨rfl, hold⟩, ?_⟩
    rintro j (hdis | ⟨rfl, -⟩)
    · exact absurd hdis (hnone j)
    · rfl
  -- it was somewhere else, or gone already, and stays there
  · rcases hfate with ⟨hheld, hnone⟩ | ⟨hnot, j, hj, hunique⟩
    · refine .inl ⟨⟨hheld, hold⟩, ?_⟩
      rintro j (hdis | ⟨-, hmap⟩)
      · exact hnone j hdis
      · exact hold hmap
    · refine .inr ⟨fun hheld => hnot hheld.1, j, .inl hj, ?_⟩
      rintro j' (hdis | ⟨-, hmap⟩)
      · exact hunique j' hdis
      · exact absurd hmap hold

/-- **A write keeps the balance**, if the writer has not written before. -/
theorem balanced_write (h : Balanced b) (hk : b.records[k]? = some ⟨key, none, none⟩)
    (new : Option β) : Balanced (b.write k key new) where
  held key' s hs := by
    -- the slot that is written to holds the writer's item now, and the others what they held
    by_cases hkey : key' = key
    · subst hkey
      have hs : new.map (⟨·, k⟩) = some s := by simpa [write] using hs
      obtain ⟨x, rfl, rfl⟩ := Option.map_eq_some_iff.mp hs
      exact ⟨_, record_write_self hk, rfl, rfl⟩
    · have hold : b.map key' = some s := by simpa [write, hkey] using hs
      obtain ⟨r, hr, hrkey, hins⟩ := h.held key' s hold
      have hne : k ≠ s.writer := by
        rintro rfl
        rw [hk] at hr
        cases hr
        cases hins
      exact ⟨r, (record_write_of_ne hne).trans hr, hrkey, hins⟩
  displaced j r s hr hdis := by
    have hfrom : ∃ r', b.records[s.writer]? = some r' ∧ r'.inserted = some s.item := by
      rcases (displacedBy_write hk (i := s.writer)).mp ⟨r, hr, hdis⟩ with
        ⟨r', hr', hold⟩ | ⟨-, hmap⟩
      · exact h.displaced j r' _ hr' hold
      · obtain ⟨r', hr', -, hins⟩ := h.held key _ hmap
        exact ⟨r', hr', hins⟩
    obtain ⟨r', hr', hins⟩ := hfrom
    have hne : k ≠ s.writer := by
      rintro rfl
      rw [hk] at hr'
      cases hr'
      cases hins
    exact ⟨r', (record_write_of_ne hne).trans hr', hins⟩
  fate i r item hr hins := by
    -- by whose item it is: the writer's own, or one that was inserted before
    by_cases hi : i = k
    · subst hi
      rw [record_write_self hk] at hr
      cases hr
      exact .inl (fate_write_self h hk hins)
    · rw [record_write_of_ne (Ne.symm hi)] at hr
      exact fate_write_other h hk hi (h.fate i r item hr hins)

end Write

end Book

end Custody
