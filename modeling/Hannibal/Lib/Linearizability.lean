import Hannibal.Lib.Machine

/-!
# Hannibal.Lib.Linearizability — concurrent histories and sequential objects

A sequential object takes one operation at a time. A concurrent history is *linearized* by a list of
its operations that the object can take one after the other with the same responses, and in which no
operation comes after one that was begun only when it was over.

* **`Object.Legal`** — what the object can take from its initial state on.
* **`Linearizes`** — a list of operations linearizes a history.
* **`Precedes`** — real-time order in a run of a machine.
* **`Run.log_respects`** — a log that operations enter while they are under way respects it.
* **`exists_growing`** — if each step can only add to a list, the lists for all runs can be chosen
  such that a run never takes back what a shorter one has.

Nothing here knows what the operations are.
-/

namespace Linearizability

open Lts

variable {S O R ι : Type*}

/-! ## Sequential objects -/

/-- A sequential object: what an operation makes of a state, with its response (`none` when the
object does not take it). -/
structure Object (S O R : Type*) where
  init : S
  apply : S → O → Option (S × R)

/-- One operation with its response. -/
structure Point (ι O R : Type*) where
  id : ι
  op : O
  res : R

/-- The object takes the operations one after the other, with these responses, and is left in
`s`. -/
inductive Object.Legal (A : Object S O R) : List (Point ι O R) → S → Prop where
  | start : Legal A [] A.init
  | snoc {lin : List (Point ι O R)} {s s' : S} (p : Point ι O R) (legal : Legal A lin s)
      (happly : A.apply s p.op = some (s', p.res)) : Legal A (lin ++ [p]) s'

/-! ## Concurrent histories -/

/-- What is known about operations that overlap. -/
structure History (ι O R : Type*) where
  /-- operation `i` was begun, and it is `o` -/
  invoked : ι → O → Prop
  /-- it has been answered with `r` -/
  answered : ι → R → Prop
  /-- it was over before the other one was begun -/
  before : ι → ι → Prop

/-- The operations of `lin`, one after the other, explain what the history shows: each of them was
begun, no two are the same, the object takes them with these responses, every answer that was given
is among them, and none comes after one that was begun only later. -/
structure Linearizes (A : Object S O R) (H : History ι O R) (lin : List (Point ι O R)) : Prop where
  legal : ∃ s, A.Legal lin s
  once : (lin.map Point.id).Nodup
  invoked : ∀ p ∈ lin, H.invoked p.id p.op
  answered : ∀ i r, H.answered i r → ∃ p ∈ lin, p.id = i ∧ p.res = r
  order : (lin.map Point.id).Pairwise fun i j => ¬ H.before j i

/-! ## Real-time order in a run

An operation is under way from the state in which it has begun to the one in which it has ended. If
it enters the log in between, the order of the log cannot contradict real time. -/

variable {σ ℓ : Type*} {M : Machine σ ℓ}

/-- In some state that the run over `ls` has reached, `i` was over and `j` was not begun. -/
def Precedes (M : Machine σ ℓ) (ls : List ℓ) (began ended : σ → ι → Prop) (i j : ι) : Prop :=
  ∃ u, M.Reaches ls u ∧ ended u i ∧ ¬ began u j

variable {log : σ → List ι} {began ended : σ → ι → Prop} {ls : List ℓ} {s : σ}

/-- What a log holds at some moment stands before all it gets later. -/
theorem log_le (hgrow : ∀ s l s', M.step s l = some s' → log s <+: log s') (h : M.Run ls s) {u : σ}
    (hu : M.Reaches ls u) : log u <+: log s := by
  obtain ⟨pre, hle, hrun⟩ := hu
  exact Machine.Run.related (r := fun s t => log s <+: log t) (fun _ => List.prefix_rfl)
    (fun _ _ _ => List.IsPrefix.trans) hgrow hle hrun h

/-- **Real-time order.** If each operation enters a log when it has begun, and does not enter it any
more once it is over, no operation of the log comes after one that was begun only later. -/
theorem Run.log_respects (h : M.Run ls s)
    (hgrow : ∀ s l s', M.step s l = some s' → log s <+: log s')
    (hbegan : ∀ u, M.Reaches ls u → ∀ i ∈ log u, began u i)
    (hended : ∀ u, M.Reaches ls u → ∀ i ∈ log s, ended u i → i ∈ log u)
    (hnodup : (log s).Nodup) : (log s).Pairwise fun i j => ¬ Precedes M ls began ended j i := by
  rw [List.pairwise_iff_forall_sublist]
  rintro i j hij ⟨u, hu, hj, hi⟩
  have hju : j ∈ log u := hended u hu j (hij.subset (by simp)) hj
  have hiu : i ∉ log u := fun hiu => hi (hbegan u hu i hiu)
  -- `j` entered the log before that moment, and `i` after it
  obtain ⟨rest, hrest⟩ := log_le hgrow h hu
  rw [← hrest] at hij hnodup
  obtain ⟨l₁, l₂, hcons, hl₁, hl₂⟩ := List.sublist_append_iff.mp hij
  have hjrest : j ∈ rest := by
    cases l₁ with
    | nil => exact hl₂.subset (by rw [← List.nil_append l₂, ← hcons]; simp)
    | cons i' l₁ =>
      obtain ⟨rfl, -⟩ := List.cons.inj hcons
      exact absurd (hl₁.subset List.mem_cons_self) hiu
  exact (List.nodup_append.mp hnodup).2.2 j hju j hjrest rfl

/-! ## Lists that grow along every run

The extensions a step may choose are chosen for each list of labels, by recursion on it. The choice
is classical; since a machine is deterministic in its labels, it fits the run it was made for. -/

section Growing

variable {α : Type*}

open Classical in
/-- A list for each run, by its labels, the last one first: what the list of the run before it is
extended by is any list that fits the state reached. -/
noncomputable def growing (M : Machine σ ℓ) (P : σ → List α → Prop) : List ℓ → List α
  | [] => []
  | l :: rev =>
    growing M P rev ++
      if h : ∃ ys s, M.Run (rev.reverse ++ [l]) s
        ∧ P s (growing M P rev ++ ys) then h.choose else []

variable {P : σ → List α → Prop}

theorem growing_le {pre ls : List ℓ} (hle : pre <+: ls) :
    growing M P pre.reverse <+: growing M P ls.reverse := by
  obtain ⟨post, rfl⟩ := hle
  induction post using List.reverseRecOn with
  | nil => rw [List.append_nil]
  | append_singleton post l ih =>
    rw [← List.append_assoc, List.reverse_concat]
    exact ih.trans (List.prefix_append _ _)

theorem growing_fits (hinit : P M.init [])
    (hstep : ∀ s l s' xs, P s xs → M.step s l = some s' → ∃ ys, P s' (xs ++ ys)) (h : M.Run ls s) :
    P s (growing M P ls.reverse) := by
  induction h with
  | start => exact hinit
  | @snoc ls s l s' run hnext ih =>
    obtain ⟨ys, hys⟩ := hstep s l s' _ ih hnext
    have hex : ∃ ys t, M.Run (ls.reverse.reverse ++ [l]) t ∧ P t (growing M P ls.reverse ++ ys) :=
      ⟨ys, s', by rw [List.reverse_reverse]; exact run.snoc hnext, hys⟩
    obtain ⟨t, hrun, ht⟩ := hex.choose_spec
    -- the labels determine the state, so the list that was chosen fits this one
    rw [List.reverse_reverse] at hrun
    obtain rfl := (run.snoc hnext).unique hrun
    rw [List.reverse_concat, growing, dif_pos hex]
    exact ht

/-- **One choice for all runs.** If a list that fits a state can be extended to one that fits the
next state, there is a list for each run, and the list of a run begins with those of all its
prefixes. -/
theorem exists_growing (hinit : P M.init [])
    (hstep : ∀ s l s' xs, P s xs → M.step s l = some s' → ∃ ys, P s' (xs ++ ys)) :
    ∃ f : List ℓ → List α, (∀ pre ls, pre <+: ls → f pre <+: f ls)
      ∧ ∀ ls s, M.Run ls s → P s (f ls) :=
  ⟨fun ls => growing M P ls.reverse, fun _ _ hle => growing_le hle,
    fun _ _ h => growing_fits hinit hstep h⟩

end Growing

end Linearizability
