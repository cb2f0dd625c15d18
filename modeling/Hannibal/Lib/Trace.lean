import Mathlib.Data.List.Infix

/-!
# Hannibal.Lib.Trace — past-time properties of traces

A trace grows at its newest end. `Past P t` says that every entry of `t` satisfies `P` together
with the entries before it. Such a property is checked entry by entry as the trace grows
(`past_append`), which is what an induction over the run of a program needs; it covers "never
before", "only directly after" and "not once … has happened".

`Merge` says of a trace that two sources have been merged into it, each in its own order.
-/

namespace Trace

variable {α : Type*}

/-- Every entry of the trace satisfies `P`, given the entries before it. -/
def Past (P : List α → α → Prop) (t : List α) : Prop :=
  ∀ pre x suf, t = pre ++ x :: suf → P pre x

/-- Nothing has happened yet. -/
@[simp] theorem past_nil (P : List α → α → Prop) : Past P [] := by
  intro pre x suf h
  simp at h

/-- **A trace is checked as it grows**: first what is there, then what is appended to it. -/
@[simp] theorem past_append (P : List α → α → Prop) (t es : List α) :
    Past P (t ++ es) ↔ Past P t ∧ Past (fun pre e => P (t ++ pre) e) es := by
  constructor
  · intro h
    refine ⟨fun pre x suf ht => h pre x (suf ++ es) (by simp [ht]), fun pre x suf hes => ?_⟩
    exact h (t ++ pre) x suf (by simp [hes])
  · rintro ⟨hold, hnew⟩ pre x suf h
    -- the entry lies in the new part or in the old one, and the cut may fall right before it
    rcases List.append_eq_append_iff.mp h with ⟨mid, hpre, hes⟩ | ⟨mid, ht, hx⟩
    · rw [hpre]
      exact hnew mid x suf hes
    · cases mid with
      | nil =>
        rw [List.append_nil] at ht
        rw [← ht]
        simpa using hnew [] x suf (by simpa using hx.symm)
      | cons y mid =>
        obtain ⟨rfl, -⟩ := List.cons_eq_cons.mp hx
        exact hold pre x mid ht

@[simp] theorem past_cons (P : List α → α → Prop) (a : α) (es : List α) :
    Past P (a :: es) ↔ P [] a ∧ Past (fun pre e => P (a :: pre) e) es := by
  constructor
  · intro h
    exact ⟨h [] a es rfl, fun pre x suf hes => h (a :: pre) x suf (by simp [hes])⟩
  · rintro ⟨hfirst, hrest⟩ pre x suf h
    cases pre with
    | nil =>
      obtain ⟨rfl, -⟩ := List.cons_eq_cons.mp h
      exact hfirst
    | cons y pre =>
      obtain ⟨rfl, hes⟩ := List.cons_eq_cons.mp h
      exact hrest pre x suf hes

/-- The last entry of a trace that satisfies `p`. -/
def last (p : α → Bool) (t : List α) : Option α := (t.filter p).getLast?

@[simp] theorem last_nil (p : α → Bool) : last p [] = none := rfl

/-- The last such entry is found among the new entries first. -/
@[simp] theorem last_append (p : α → Bool) (t es : List α) :
    last p (t ++ es) = (last p es).or (last p t) := by
  simp [last, List.getLast?_append]

@[simp] theorem last_cons (p : α → Bool) (a : α) (es : List α) :
    last p (a :: es) = (last p es).or (if p a then some a else none) := by
  rw [← List.singleton_append, last_append]
  by_cases ha : p a = true <;> simp [last, ha]

/-- `ws` is made of the entries of `us` and of `vs`, each in their order. -/
inductive Merge : List α → List α → List α → Prop where
  | nil : Merge [] [] []
  | left {us vs ws : List α} (h : Merge us vs ws) (a : α) : Merge (us ++ [a]) vs (ws ++ [a])
  | right {us vs ws : List α} (h : Merge us vs ws) (a : α) : Merge us (vs ++ [a]) (ws ++ [a])

/-- A trace merges the entries that satisfy `p` and those that do not. -/
theorem merge_filter (p : α → Bool) (t : List α) :
    Merge (t.filter p) (t.filter fun a => !p a) t := by
  induction t using List.reverseRecOn with
  | nil => exact .nil
  | append_singleton t a ih =>
    rw [List.filter_append, List.filter_append]
    cases ha : p a with
    | true => simpa [ha] using ih.left a
    | false => simpa [ha] using ih.right a

end Trace
