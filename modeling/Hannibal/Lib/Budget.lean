import Hannibal.Lib.Machine
import Mathlib.Algebra.GroupWithZero.Nat
import Mathlib.Algebra.Order.Group.Nat

/-!
# Hannibal.Lib.Budget — how often something can happen in a run

Some steps of a machine use up a budget, and others raise it. What a run costs is then bounded by
what it started with and what was added on the way. A wait is over after a bounded number of steps
when the rule applies as long as somebody waits.

* **`Machine.spent`** — what the labels of a run add up to.
* **`Run.within_budget`** — the rule; `J` is an invariant of the run, and the budget is kept as long
  as `I` holds, which is given at the end of the run only. -/

namespace Lts

namespace Machine

variable {σ ℓ : Type*} {M : Machine σ ℓ}

/-- What a list of labels adds up to. -/
def spent (cost : ℓ → ℕ) (ls : List ℓ) : ℕ := (ls.map cost).sum

@[simp] theorem spent_nil (cost : ℓ → ℕ) : spent cost [] = 0 := rfl

@[simp] theorem spent_snoc (cost : ℓ → ℕ) (ls : List ℓ) (l : ℓ) :
    spent cost (ls ++ [l]) = spent cost ls + cost l := by
  simp [spent]

/-- **The rule of the budget.** -/
theorem Run.within_budget {ls : List ℓ} {s : σ} (h : M.Run ls s) (budget : σ → ℕ)
    (cost gain : ℓ → ℕ)
    {J I : σ → Prop} (hinit : J M.init) (hpres : ∀ s l s', J s → M.step s l = some s' → J s')
    (hpay : ∀ s l s', J s → M.step s l = some s' → I s' →
      I s ∧ cost l + budget s' ≤ budget s + gain l)
    (hs : I s) : spent cost ls + budget s ≤ budget M.init + spent gain ls := by
  induction h with
  | start => simp
  | snoc run hstep ih =>
    obtain ⟨hprev, hle⟩ := hpay _ _ _ (run.invariant hinit hpres) hstep hs
    have hbefore := ih hprev
    rw [spent_snoc, spent_snoc]
    omega

end Machine

end Lts
