import Mathlib.Data.List.Infix

/-!
# Hannibal.Lib.PubSub — what a log of subscriptions and publications means for one party

A publish/subscribe service is specified by the log of the requests it has accepted. One party's
`View` of the log says which requests subscribe it, which unsubscribe it and what each publishes.
From this follow, by a fold over the log, whether the party is subscribed and which messages are
meant for it: those published while it was.

* **`View.due_append_le`** — what is meant for a party only grows.
* **`View.due_of_published`** — what is published between a subscription and the next
  unsubscription is meant for the subscriber.
-/

namespace PubSub

/-- How one party reads the requests. -/
structure View (ρ α : Type*) where
  joins : ρ → Bool
  leaves : ρ → Bool
  published : ρ → List α

namespace View

variable {ρ α : Type*} (V : View ρ α)

/-- Whether the party is subscribed, and what it has been told, after one more request. -/
def hear (h : Bool × List α) (r : ρ) : Bool × List α :=
  ((h.1 || V.joins r) && !V.leaves r, h.2 ++ if h.1 then V.published r else [])

def heard (log : List ρ) : Bool × List α := log.foldl V.hear (false, [])

/-- After these requests the party is subscribed. -/
def subscribed (log : List ρ) : Bool := (V.heard log).1

/-- The messages meant for the party. -/
def due (log : List ρ) : List α := (V.heard log).2

variable {V} {log log' : List ρ} {r : ρ}

@[simp] theorem subscribed_nil : V.subscribed [] = false := rfl
@[simp] theorem due_nil : V.due [] = [] := rfl

@[simp] theorem subscribed_snoc :
    V.subscribed (log ++ [r]) = ((V.subscribed log || V.joins r) && !V.leaves r) := by
  simp [subscribed, heard, hear]

@[simp] theorem due_snoc :
    V.due (log ++ [r]) = V.due log ++ if V.subscribed log then V.published r else [] := by
  rw [due, heard, List.foldl_append]
  rfl

theorem due_append_le (log log' : List ρ) : V.due log <+: V.due (log ++ log') := by
  induction log' using List.reverseRecOn with
  | nil => simp
  | append_singleton log' r ih =>
    rw [← List.append_assoc, due_snoc]
    exact ih.trans (List.prefix_append _ _)

/-- A longer log means the same messages first. -/
theorem due_le (h : log <+: log') : V.due log <+: V.due log' := by
  obtain ⟨rest, rfl⟩ := h
  exact due_append_le log rest

/-- Once subscribed, a party stays subscribed as long as no request unsubscribes it. -/
theorem subscribed_append (h : V.subscribed log = true)
    (hstay : ∀ r ∈ log', V.leaves r = false) : V.subscribed (log ++ log') = true := by
  induction log' using List.reverseRecOn with
  | nil => simpa using h
  | append_singleton log' r ih =>
    have hon := ih fun r hr => hstay r (List.mem_append_left _ hr)
    rw [← List.append_assoc, subscribed_snoc, hon, hstay r (by simp)]
    rfl

/-- Nothing is meant for a party that no request subscribes. -/
theorem heard_of_unjoined (h : ∀ r ∈ log, V.joins r = false) :
    V.subscribed log = false ∧ V.due log = [] := by
  induction log using List.reverseRecOn with
  | nil => exact ⟨rfl, rfl⟩
  | append_singleton log r ih =>
    obtain ⟨hoff, hnone⟩ := ih fun r hr => h r (List.mem_append_left _ hr)
    simp [hoff, hnone, h r (by simp)]

/-- What is published between a subscription `j` and the next unsubscription is meant for the
party, right after everything that was meant for it before. -/
theorem due_of_published {mid : List ρ} {j p : ρ} (hj : V.joins j = true)
    (hleave : V.leaves j = false) (hstay : ∀ r ∈ mid, V.leaves r = false) :
    V.due (log ++ [j] ++ mid ++ [p]) = V.due (log ++ [j] ++ mid) ++ V.published p := by
  have hon : V.subscribed (log ++ [j]) = true := by simp [hj, hleave]
  rw [due_snoc, subscribed_append hon hstay]
  rfl

end View

end PubSub
