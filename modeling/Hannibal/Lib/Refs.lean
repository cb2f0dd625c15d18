import Mathlib.Data.List.Infix
import Mathlib.Order.Basic

/-!
# Hannibal.Lib.Refs — counted references to the sending side of a channel

The sending side of a channel is shared by strong references, which are counted, and weak ones,
which are not. When the last strong reference is dropped the channel is closed, as it is when its
receiver is dropped; a weak reference can be upgraded as long as the channel is open. The
implementation is not at hand, so a program that passes references around is read here as a state
transformer on any shared state that keeps the documented behaviour.

* **`Cell`** — what can be observed of the shared state: the counter, whether the receiver is there,
  and whether the channel is closed. Its operations state the documented behaviour.
* **`RefCounted C`** — an implementation `C` of these operations, with one law per operation.
* **`Balance e n P f`** — the triple: run where the program holds `n` references, `e` returns a
  value that satisfies `P` and leaves the program with `f` of it.
* **`Balance.bind`**, **`Balance.frame`**, **`balance_clone`** … — the rules.
-/

namespace Refs

/-- What can be observed of the sending side. -/
structure Cell where
  count : ℕ
  receiver : Bool
  closed : Bool
  deriving DecidableEq, Repr

namespace Cell

/-- A new channel, with its receiver and one strong reference. -/
def fresh : Cell := ⟨1, true, false⟩

def clone (c : Cell) : Cell := { c with count := c.count + 1 }

/-- The last strong reference closes the channel. -/
def drop (c : Cell) : Cell :=
  { c with count := c.count - 1, closed := c.closed || decide (c.count ≤ 1) }

/-- Upgrading fails on a closed channel, and when there is no strong reference to clone. -/
def upgrade (c : Cell) : Option Cell :=
  if c.closed || decide (c.count = 0) then none else some c.clone

/-- The receiver is dropped. -/
def dropReceiver (c : Cell) : Cell := { c with receiver := false, closed := true }

/-- The channel is closed exactly when one of its sides is gone. -/
def Ok (c : Cell) : Prop := c.closed = true ↔ c.count = 0 ∨ c.receiver = false

theorem ok_fresh : fresh.Ok := by simp [Ok, fresh]

theorem ok_dropReceiver (c : Cell) : c.dropReceiver.Ok := by simp [Ok, dropReceiver]

theorem Ok.clone {c : Cell} (hc : c.Ok) (hpos : 0 < c.count) : c.clone.Ok := by
  have hne : c.count ≠ 0 := by omega
  simpa [Ok, Cell.clone, hne] using hc

theorem Ok.drop {c : Cell} (hc : c.Ok) (hpos : 0 < c.count) : c.drop.Ok := by
  have hne : c.count ≠ 0 := by omega
  simp only [Ok, Cell.drop, Bool.or_eq_true, decide_eq_true_eq] at hc ⊢
  rw [hc]
  constructor
  · rintro ((h | h) | h)
    · exact absurd h hne
    · exact .inr h
    · exact .inl (by omega)
  · rintro (h | h)
    · exact .inr (by omega)
    · exact .inl (.inr h)

end Cell

/-- An implementation of the shared state. Each law says that an operation acts on what can be
observed as documented. -/
class RefCounted (C : Type) where
  state : C → Cell
  new : C
  clone : C → C
  drop : C → C
  upgrade : C → Option C
  dropReceiver : C → C
  state_new : state new = .fresh
  state_clone : ∀ c, state (clone c) = (state c).clone
  state_drop : ∀ c, state (drop c) = (state c).drop
  state_upgrade : ∀ c, (upgrade c).map state = (state c).upgrade
  state_dropReceiver : ∀ c, state (dropReceiver c) = (state c).dropReceiver

/-- What can be observed, with the documented operations, is itself an implementation. -/
instance : RefCounted Cell where
  state := id
  new := .fresh
  clone := Cell.clone
  drop := Cell.drop
  upgrade := Cell.upgrade
  dropReceiver := Cell.dropReceiver
  state_new := rfl
  state_clone _ := rfl
  state_drop _ := rfl
  state_upgrade _ := by rw [Option.map_id, id]; rfl
  state_dropReceiver _ := rfl

open RefCounted (state state_clone state_drop state_upgrade)

attribute [simp] RefCounted.state_new RefCounted.state_dropReceiver

/-- A strong reference. Holding one is what the counter counts. -/
structure Strong where
  deriving DecidableEq, Repr

/-- A weak reference. -/
structure Weak where
  deriving DecidableEq, Repr

/-- A program that passes references around. -/
abbrev Eff (C α : Type) := StateM C α

variable {C : Type} [RefCounted C]

namespace Strong

def clone (_ : Strong) : Eff C Strong := fun c => (⟨⟩, RefCounted.clone c)

def drop (_ : Strong) : Eff C Unit := fun c => ((), RefCounted.drop c)

def downgrade (_ : Strong) : Weak := ⟨⟩

end Strong

namespace Weak

def upgrade (_ : Weak) : Eff C (Option Strong) := fun c =>
  match RefCounted.upgrade c with
  | none => (none, c)
  | some c' => (some ⟨⟩, c')

/-- An upgrade that fails says so, and leaves what it has found. -/
theorem upgrade_cases (w : Weak) (c : C) :
    (w.upgrade c = (none, c) ∧ (state c).upgrade = none)
      ∨ ∃ c', w.upgrade c = (some ⟨⟩, c') ∧ (state c).upgrade = some (state c') := by
  have hlaw := state_upgrade c
  unfold upgrade
  cases hup : RefCounted.upgrade c with
  | none =>
    rw [hup] at hlaw
    exact .inl ⟨rfl, hlaw.symm⟩
  | some c' =>
    rw [hup] at hlaw
    exact .inr ⟨c', rfl, hlaw.symm⟩

end Weak

/-- The triple. Whatever else is held, the program gives up its `n` references for `f a`. -/
def Balance {α : Type} (e : Eff C α) (n : ℕ) (P : α → Prop) (f : α → ℕ) : Prop :=
  ∀ c : C, (state c).Ok → n ≤ (state c).count →
    P (e c).1 ∧ (state (e c).2).Ok ∧ (state (e c).2).count + n = (state c).count + f (e c).1
      ∧ (state (e c).2).receiver = (state c).receiver
      ∧ ((state c).closed = true → (state (e c).2).closed = true)

variable {α β : Type} {e : Eff C α} {g : α → Eff C β} {n k : ℕ} {P : α → Prop} {R : β → Prop}
  {f : α → ℕ} {h : β → ℕ}

theorem balance_pure {a : α} (ha : P a) (hn : n = f a) : Balance (C := C) (pure a) n P f := by
  intro c hc hle
  subst hn
  exact ⟨ha, hc, rfl, rfl, id⟩

/-- What the first part leaves, the second part is run with. -/
theorem Balance.bind (he : Balance e n P f) (hg : ∀ a, P a → Balance (g a) (f a) R h) :
    Balance (e >>= g) n R h := by
  intro c hc hle
  obtain ⟨hP, hok, hcount, hrx, hclosed⟩ := he c hc hle
  have hle' : f (e c).1 ≤ (state (e c).2).count := by omega
  obtain ⟨hR, hok', hcount', hrx', hclosed'⟩ := hg (e c).1 hP (e c).2 hok hle'
  have hrun : (e >>= g) c = g (e c).1 (e c).2 := rfl
  rw [hrun]
  exact ⟨hR, hok', by omega, hrx'.trans hrx, fun hcl => hclosed' (hclosed hcl)⟩

/-- References that are not touched are still held. -/
theorem Balance.frame (he : Balance e n P f) (k : ℕ) :
    Balance e (n + k) P fun a => f a + k := by
  intro c hc hle
  obtain ⟨hP, hok, hcount, hrest⟩ := he c hc (by omega)
  refine ⟨hP, hok, ?_, hrest⟩
  show (state (e c).2).count + (n + k) = (state c).count + (f (e c).1 + k)
  omega

theorem balance_clone (s : Strong) : Balance (C := C) s.clone 1 (fun _ => True) fun _ => 2 := by
  intro c hc hle
  have hlaw : state (s.clone c).2 = (state c).clone := state_clone c
  rw [hlaw]
  exact ⟨trivial, hc.clone hle, rfl, rfl, id⟩

theorem balance_drop (s : Strong) : Balance (C := C) s.drop 1 (fun _ => True) fun _ => 0 := by
  intro c hc hle
  have hlaw : state (s.drop c).2 = (state c).drop := state_drop c
  rw [hlaw]
  refine ⟨trivial, hc.drop hle, ?_, rfl, fun hcl => by simp [Cell.drop, hcl]⟩
  show (state c).count - 1 + 1 = (state c).count + 0
  omega

/-- An upgrade that succeeds clones a reference that is there. -/
theorem upgrade_eq_some {c c' : Cell} (h : c.upgrade = some c') :
    c.closed = false ∧ 0 < c.count ∧ c' = c.clone := by
  obtain ⟨hopen, ⟨⟩⟩ := Option.ite_none_left_eq_some.mp h
  simp only [Bool.or_eq_true, decide_eq_true_eq, not_or, Bool.not_eq_true] at hopen
  exact ⟨hopen.1, Nat.pos_of_ne_zero hopen.2, rfl⟩

/-- An upgrade yields a reference, or nothing. -/
theorem balance_upgrade (w : Weak) :
    Balance (C := C) w.upgrade 0 (fun _ => True) fun r => if r.isSome then 1 else 0 := by
  intro c hc hle
  rcases w.upgrade_cases c with ⟨hup, -⟩ | ⟨c', hup, hlaw⟩
  · rw [hup]
    exact ⟨trivial, hc, rfl, rfl, id⟩
  · obtain ⟨-, hpos, hclone⟩ := upgrade_eq_some hlaw
    rw [hup]
    dsimp only
    rw [hclone]
    exact ⟨trivial, hc.clone hpos, rfl, rfl, id⟩

/-- While the receiver is there, an upgrade succeeds exactly when somebody holds a reference. -/
theorem upgrade_isSome {c : C} (hc : (state c).Ok) (hrx : (state c).receiver = true) (w : Weak) :
    (w.upgrade c).1.isSome = decide (0 < (state c).count) := by
  rcases w.upgrade_cases c with ⟨hup, hlaw⟩ | ⟨c', hup, hlaw⟩
  · rw [hup]
    have hclosed : (state c).closed = true ∨ (state c).count = 0 := by
      by_contra hopen
      simp [Cell.upgrade, not_or.mp hopen] at hlaw
    have hzero : (state c).count = 0 := by
      rcases hclosed with hclosed | hzero
      -- a channel is closed because nobody holds a reference, or because the receiver is gone
      · rcases hc.mp hclosed with hzero | hgone
        · exact hzero
        · rw [hrx] at hgone
          cases hgone
      · exact hzero
    simp [hzero]
  · rw [hup]
    simp [(upgrade_eq_some hlaw).2.1]

end Refs
