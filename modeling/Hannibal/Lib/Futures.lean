import Hannibal.Lib.Table

/-!
# Hannibal.Lib.Futures — the clones of a shared future

A shared future hands the output of one inner future to each of its clones. A clone that has
returned the output gives up its reference to the inner future, a clone taken from it afterwards has
none either, and polling a clone without one panics. The implementation is not at hand, so programs
are written against any that keeps this documented behaviour.

* **`SharedState`** — what can be observed of a clone, and what polling it does.
* **`SharedFuture S`** — an implementation `S`, with one law per operation.
* **`Origin`**, **`UsedUp`** — where the clones in a table come from, and which of them come from
  one that had returned the output before they were taken. -/

namespace Futures

/-- How a poll ends. -/
inductive Polled (α : Type*) where
  | pending
  | ready (a : α)
  | panicked
  deriving DecidableEq, Repr

def Polled.isReady {α : Type*} : Polled α → Bool
  | .ready _ => true
  | .pending | .panicked => false

/-- What can be observed of a clone: whether it has its reference to the inner future. -/
structure SharedState where
  inner : Bool
  deriving DecidableEq, Repr

/-- One poll, where `r` is what the inner future has come to. -/
def SharedState.poll {α : Type} (s : SharedState) (r : Option α) : Polled α × SharedState :=
  if s.inner then
    match r with
    | none => (.pending, s)
    | some a => (.ready a, ⟨false⟩)
  else (.panicked, s)

/-- An implementation of the clones. Each law says that an operation acts on what can be observed as
documented. -/
class SharedFuture (S : Type) where
  state : S → SharedState
  shared : S
  clone : S → S
  poll : {α : Type} → S → Option α → Polled α × S
  state_shared : state shared = ⟨true⟩
  state_clone : ∀ s, state (clone s) = state s
  state_poll : ∀ {α : Type} (s : S) (r : Option α), Prod.map id state (poll s r) = (state s).poll r

/-- What can be observed, with the documented operations, is itself an implementation. -/
instance : SharedFuture SharedState where
  state := id
  shared := ⟨true⟩
  clone := id
  poll := SharedState.poll
  state_shared := rfl
  state_clone _ := rfl
  state_poll _ _ := rfl

namespace SharedFuture

variable {S α : Type} [SharedFuture S] {s : S} {r : Option α}

attribute [simp] state_shared state_clone

/-- It has its reference to the inner future. -/
def hasInner (s : S) : Bool := (state s).inner

@[simp] theorem hasInner_shared : hasInner (shared : S) = true := by simp [hasInner]

@[simp] theorem hasInner_clone : hasInner (clone s) = hasInner s := by simp [hasInner]

theorem poll_fst : (poll s r).1 = ((state s).poll r).1 := congrArg Prod.fst (state_poll s r)

theorem state_poll_snd : state (poll s r).2 = ((state s).poll r).2 :=
  congrArg Prod.snd (state_poll s r)

theorem poll_panicked : (poll s r).1 = .panicked ↔ hasInner s = false := by
  rw [poll_fst, hasInner]
  rcases state s with ⟨_ | _⟩
  · simp [SharedState.poll]
  · cases r <;> simp [SharedState.poll]

theorem poll_ready {a : α} (hs : hasInner s = true) : (poll s (some a)).1 = .ready a := by
  have hs : (state s).inner = true := hs
  rw [poll_fst, SharedState.poll, if_pos hs]

/-- What a poll leaves has no inner future exactly if there was none, or if the output was
returned. -/
theorem poll_hasInner :
    hasInner (poll s r).2 = false ↔ (poll s r).1.isReady = true ∨ hasInner s = false := by
  rw [hasInner, state_poll_snd, poll_fst, hasInner]
  rcases state s with ⟨_ | _⟩
  · simp [SharedState.poll]
  · cases r <;> simp [SharedState.poll, Polled.isReady]

end SharedFuture

/-! ## Where a clone comes from

A table holds, for each clone, which clone it was taken from. `UsedUp` follows these entries back;
it is inductive, and since a clone is taken from one before it in the table, a new entry at the end
does not change what is said of the old ones. -/

/-- The clone it was taken from, and whether that one had returned the output by then. -/
structure Origin where
  parent : ℕ
  done : Bool
  deriving DecidableEq, Repr

/-- Clone `i` comes, through any number of clones, from one that was taken of a future after that
had returned the output. -/
inductive UsedUp (os : List (Option Origin)) : ℕ → Prop where
  | taken {i : ℕ} {o : Origin} (ho : os[i]? = some (some o)) (hdone : o.done = true) : UsedUp os i
  | passed {i : ℕ} {o : Origin} (ho : os[i]? = some (some o)) (hparent : UsedUp os o.parent) :
      UsedUp os i

/-- A clone is younger than what it is taken from. -/
def Ordered (os : List (Option Origin)) : Prop :=
  ∀ (i : ℕ) (o : Origin), os[i]? = some (some o) → o.parent < i

variable {os : List (Option Origin)} {i j : ℕ} {o : Origin}

theorem usedUp_iff (ho : os[i]? = some (some o)) :
    UsedUp os i ↔ o.done = true ∨ UsedUp os o.parent := by
  constructor
  · rintro (⟨ho', hdone⟩ | ⟨ho', hparent⟩)
    · obtain rfl := Option.some.inj (Option.some.inj (ho.symm.trans ho'))
      exact .inl hdone
    · obtain rfl := Option.some.inj (Option.some.inj (ho.symm.trans ho'))
      exact .inr hparent
  · rintro (hdone | hparent)
    · exact .taken ho hdone
    · exact .passed ho hparent

/-- What is not a clone of anything is not used up. -/
theorem not_usedUp (ho : os[i]? = some none) : ¬ UsedUp os i := by
  rintro (⟨ho', -⟩ | ⟨ho', -⟩) <;> simp [ho] at ho'

theorem ordered_nil : Ordered [] := nofun

theorem ordered_snoc (hord : Ordered os) {new : Option Origin}
    (hnew : ∀ o, new = some o → o.parent < os.length) : Ordered (os ++ [new]) := by
  intro i o ho
  rcases Table.getElem?_snoc.mp ho with hold | ⟨rfl, hsame⟩
  · exact hord i o hold
  · exact hnew o hsame.symm

/-- A new clone changes nothing for the old ones. -/
theorem usedUp_snoc_of_lt (hord : Ordered os) (hi : i < os.length) {new : Option Origin} :
    UsedUp (os ++ [new]) i ↔ UsedUp os i := by
  -- the entries that `UsedUp` follows from `i` all lie before the new one
  have hold : ∀ {j : ℕ} {o : Origin}, j < os.length → (os ++ [new])[j]? = some (some o) →
      os[j]? = some (some o) := by
    intro j o hj ho
    rwa [List.getElem?_append_left hj] at ho
  constructor
  · intro h
    induction h with
    | taken ho hdone => exact .taken (hold hi ho) hdone
    | passed ho _ ih =>
      have hparent := hord _ _ (hold hi ho)
      exact .passed (hold hi ho) (ih (hparent.trans hi))
  · intro h
    induction h with
    | taken ho hdone => exact .taken (Table.getElem?_snoc_of_some ho) hdone
    | passed ho _ ih =>
      exact .passed (Table.getElem?_snoc_of_some ho) (ih ((hord _ _ ho).trans hi))

theorem usedUp_snoc (hord : Ordered os) (hj : j < os.length) (done : Bool) :
    UsedUp (os ++ [some ⟨j, done⟩]) os.length ↔ done = true ∨ UsedUp os j := by
  rw [usedUp_iff List.getElem?_concat_length, usedUp_snoc_of_lt hord hj]

end Futures
