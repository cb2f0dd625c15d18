import Hannibal.Broker
import Hannibal.Lib.PubSub
import Hannibal.Lib.Table

/-!
# Hannibal.Topic — the broker's log, its listeners and its calls

A topic, seen from outside, is the log of the requests the broker has accepted.

* **`Listener`** — an actor or the receiver of an external channel, and its view of the log.
* **`CallInv`** — each accepted request belongs to one call, and each external channel to one
  request.
* **`Later`** — the log only grows: what is accepted later comes behind.
-/

namespace Hannibal

open Lts Chan PubSub

variable {Q : Type → Type} {α : Type}

/-! ## Listeners

The broker's log decides what a listener is due: whatever is published while it is subscribed, from
the last request that let it join to the next one that lets it go. -/

/-- Whoever can be told: an actor, or the receiver of an external channel. -/
inductive Listener where
  | actor (a : ContextID)
  | outlet (e : ℕ)
  deriving DecidableEq, Repr

def Request.published : Request α → List α
  | .publish m => [m]
  | _ => []

namespace Listener

/-- The request subscribes the listener. -/
def joins : Listener → Request α → Bool
  | .actor a, .subscribe s => s.id == a
  | .outlet e, .subscribeExternal e' => e' == e
  | _, _ => false

/-- The request unsubscribes the listener. -/
def leaves : Listener → Request α → Bool
  | .actor a, .unsubscribe s => s.id == a
  | _, _ => false

def view (l : Listener) : View (Request α) α := ⟨l.joins, l.leaves, Request.published⟩

/-- After these requests the listener is subscribed. -/
def subscribed (l : Listener) (log : List (Request α)) : Bool := l.view.subscribed log

/-- The messages meant for the listener: those published while it was subscribed. -/
def due (l : Listener) (log : List (Request α)) : List α := l.view.due log

variable {l : Listener} {log log' : List (Request α)} {r : Request α}

@[simp] theorem subscribed_nil : l.subscribed ([] : List (Request α)) = false := rfl
@[simp] theorem due_nil : l.due ([] : List (Request α)) = [] := rfl

@[simp] theorem subscribed_snoc :
    l.subscribed (log ++ [r]) = ((l.subscribed log || l.joins r) && !l.leaves r) :=
  View.subscribed_snoc

@[simp] theorem due_snoc :
    l.due (log ++ [r]) = l.due log ++ if l.subscribed log then r.published else [] :=
  View.due_snoc

@[simp] theorem joins_publish (m : α) : l.joins (.publish m) = false := by cases l <;> rfl
@[simp] theorem leaves_publish (m : α) : l.leaves (.publish m) = false := by cases l <;> rfl

theorem due_append_le (log log' : List (Request α)) : l.due log <+: l.due (log ++ log') :=
  View.due_append_le log log'

/-- No request does both. -/
theorem leaves_of_joins (h : l.joins r = true) : l.leaves r = false := by
  cases l <;> cases r <;> first | rfl | cases h

end Listener

namespace BrokerWorld

/-! ## Which call a request belongs to

Requests in the log carry no name. A call knows at which place of the log it was accepted, and an
external subscription knows by its own number which call made it. -/

/-- The log of accepted requests, against the calls and against what the broker has done. -/
structure CallInv (w : BrokerWorld Q α) : Prop where
  log : w.accepted = w.handled ++ w.phase.current ++ w.inbox
  accepted_of_call : ∀ (i : ℕ) (r : Request α) (n : ℕ),
    w.calls[i]? = some ⟨r, some n⟩ → w.accepted[n]? = some r
  /-- an external channel is named by the call that made it -/
  named : ∀ (i e : ℕ) (o : Option ℕ), w.calls[i]? = some ⟨.subscribeExternal e, o⟩ → e = i
  external : ∀ e n : ℕ, w.accepted[n]? = some (.subscribeExternal e) →
    w.calls[e]? = some ⟨.subscribeExternal e, some n⟩

variable {w v : BrokerWorld Q α} {l : Listener}

/-- A step that leaves the calls and the log alone, and moves no request but to its next place. -/
theorem CallInv.frame (h : CallInv w) (hcalls : v.calls = w.calls) (hacc : v.accepted = w.accepted)
    (hlog : v.handled ++ v.phase.current ++ v.inbox = w.handled ++ w.phase.current ++ w.inbox) :
    CallInv v := by
  refine ⟨?_, ?_, ?_, ?_⟩
  · rw [hacc, hlog]
    exact h.log
  · rw [hcalls, hacc]
    exact h.accepted_of_call
  · rw [hcalls]
    exact h.named
  · rw [hcalls, hacc]
    exact h.external

theorem callInv_begin {r : Request α} (h : CallInv w)
    (hr : ∀ e, r = .subscribeExternal e → e = w.calls.length) : CallInv (w.begin r) where
  log := h.log
  accepted_of_call i r' n hi := by
    rcases Table.getElem?_snoc.mp hi with hold | ⟨-, hnew⟩
    · exact h.accepted_of_call i r' n hold
    · cases hnew
  named i e o hi := by
    rcases Table.getElem?_snoc.mp hi with hold | ⟨rfl, hnew⟩
    · exact h.named i e o hold
    · cases hnew
      exact hr e rfl
  external e n hn := Table.getElem?_snoc_of_some (h.external e n hn)

/-- The broker's mailbox accepts the message of a call that waited for it. -/
theorem callInv_send {i : ℕ} {r : Request α} (h : CallInv w)
    (hcall : w.calls[i]? = some ⟨r, none⟩) :
    CallInv { w with
      calls := w.calls.modify i fun c => { c with accepted := some w.accepted.length }
      inbox := w.inbox ++ [r], accepted := w.accepted ++ [r] } where
  log := by rw [h.log]; simp
  accepted_of_call k r' n hk := by
    rcases Table.of_getElem?_modify hk with ⟨-, hold⟩ | ⟨rfl, c, hc, hnew⟩
    · exact Table.getElem?_snoc_of_some (h.accepted_of_call k r' n hold)
    · rw [hcall] at hc
      cases hc
      cases hnew
      exact Table.getElem?_snoc.mpr (.inr ⟨rfl, rfl⟩)
  named k e o hk := by
    rcases Table.of_getElem?_modify hk with ⟨-, hold⟩ | ⟨rfl, c, hc, hnew⟩
    · exact h.named k e o hold
    · rw [hcall] at hc
      cases hc
      cases hnew
      exact h.named i e none hcall
  -- an outlet's number is that of the call that made it
  external e n hn := by
    rcases Table.getElem?_snoc.mp hn with hold | ⟨rfl, hnew⟩
    · -- the call of that channel has been accepted before, so it is another one
      have hrow := h.external e n hold
      have hne : i ≠ e := by
        rintro rfl
        rw [hcall] at hrow
        cases hrow
      exact (Table.getElem?_modify_of_ne hne).trans hrow
    · subst hnew
      have he : e = i := h.named i e none hcall
      subst he
      exact Table.getElem?_modify_self hcall

/-- Each external channel is accepted once. -/
theorem CallInv.external_fresh {e : ℕ} {rest : List (Request α)} (h : CallInv w)
    (hidle : w.phase = .idle) (hin : w.inbox = .subscribeExternal e :: rest) :
    Request.subscribeExternal e ∉ w.handled := by
  intro hmem
  have hlog : w.accepted = w.handled ++ .subscribeExternal e :: rest := by
    simpa [hidle, hin, Phase.current] using h.log
  obtain ⟨n, hn⟩ := List.getElem?_of_mem hmem
  have hlt : n < w.handled.length := (List.getElem?_eq_some_iff.mp hn).1
  have hold := h.external e n (by rw [hlog, List.getElem?_append_left hlt, hn])
  have hnow := h.external e w.handled.length (by rw [hlog]; simp)
  rw [hold] at hnow
  cases hnow
  omega

/-- No request has joined the channel of a call that has not begun. -/
theorem CallInv.unjoined (h : CallInv w) : ∀ r ∈ w.handled,
    (Listener.outlet w.calls.length).joins r = false := by
  intro r hr
  cases r with
  -- a request in the log has a call behind it, and this number has none yet
  | subscribeExternal e =>
    by_contra hjoin
    have he : e = w.calls.length := by simpa [Listener.joins] using hjoin
    have hmem : Request.subscribeExternal e ∈ w.accepted := by
      rw [h.log, List.append_assoc]
      exact List.mem_append_left _ hr
    obtain ⟨n, hn⟩ := List.getElem?_of_mem hmem
    have hcall := h.external e n hn
    rw [he, List.getElem?_eq_none le_rfl] at hcall
    cases hcall
  | publish m | subscribe s | unsubscribe s => rfl

variable [AsyncChannel Q]

theorem callInv_init (capacity : ContextID → Option ℕ+) : CallInv (init Q α capacity) where
  log := rfl
  accepted_of_call := by simp [init]
  named := by simp [init]
  external := by simp [init]

/-- A handler step moves no request, except that the last one finishes the message. -/
theorem callInv_publishStep (h : CallInv w) (hv : PublishStep w v) : CallInv v := by
  cases hv with
  | finished m live hp => exact h.frame rfl rfl (by simp [hp, Phase.current])
  | _ =>
    exact h.frame rfl rfl (by simp_all [withPhase, setInlet, setActor, setOutlet, Phase.current])

theorem callInv_act (h : CallInv w) (hv : Act w v) : CallInv v := by
  cases hv with
  | begin r hr => exact callInv_begin h fun e he => absurd he (hr e)
  -- the outlet is numbered like the call that is about to begin
  | subscribeTo capacity =>
    have hout : CallInv (w.setOutlet w.calls.length ⟨AsyncChannel.new capacity, []⟩) :=
      h.frame rfl rfl rfl
    exact callInv_begin hout fun e he => by cases he; rfl
  | send i r hcall => exact callInv_send h hcall
  | subscribe s rest hidle hin | subscribeExternal e rest hidle hin
  | unsubscribe s rest hidle hin | publish m rest order hidle hin horder =>
    exact h.frame rfl rfl (by simp [hidle, hin, Phase.current])
  | work v hv => exact callInv_publishStep h hv
  | actor a x hx hrun => exact h.frame rfl rfl rfl
  | outlet e x hx => exact h.frame rfl rfl rfl

/-! ## The log grows

Requests are only ever appended, so what was before a call when it was accepted stays before it. -/

variable {capacity : ContextID → Option ℕ+} {ls : List (BrokerLabel α)}

/-- The calls and the log of an earlier state, against those of a later one. -/
structure Later (u w : BrokerWorld Q α) : Prop where
  log : u.accepted <+: w.accepted
  /-- a call that is accepted in between comes behind all that had been accepted -/
  behind : ∀ (j : ℕ) (r : Request α) (k : ℕ), w.calls[j]? = some ⟨r, some k⟩ →
    u.calls[j]? = some ⟨r, some k⟩ ∨ u.accepted.length ≤ k

theorem later_act (hv : Act w v) : Later w v := by
  have hsame : ∀ u : BrokerWorld Q α, u.accepted = w.accepted → u.calls = w.calls → Later w u := by
    intro u hacc hcalls
    exact ⟨hacc ▸ List.prefix_rfl, fun j r k hj => .inl (hcalls ▸ hj)⟩
  cases hv with
  | begin r hr =>
    refine ⟨List.prefix_rfl, fun j r' k hj => ?_⟩
    rcases Table.getElem?_snoc.mp hj with hold | ⟨-, hnew⟩
    · exact .inl hold
    · cases hnew
  | subscribeTo capacity =>
    refine ⟨List.prefix_rfl, fun j r' k hj => ?_⟩
    rcases Table.getElem?_snoc.mp hj with hold | ⟨-, hnew⟩
    · exact .inl hold
    · cases hnew
  | send i r hcall =>
    refine ⟨List.prefix_append _ _, fun j r' k hj => ?_⟩
    rcases Table.of_getElem?_modify hj with ⟨-, hold⟩ | ⟨-, c, -, hnew⟩
    · exact .inl hold
    · cases hnew
      exact .inr le_rfl
  | work v hv => cases hv <;> exact hsame _ rfl rfl
  | _ => exact hsame _ rfl rfl

theorem later_of_run {pre : List (BrokerLabel α)} {u : BrokerWorld Q α} (hle : pre <+: ls)
    (hu : (machine Q α capacity).Run pre u) (hw : (machine Q α capacity).Run ls w) : Later u w := by
  refine Machine.Run.related (r := Later) (fun s => ⟨List.prefix_rfl, fun _ _ _ => .inl⟩) ?_ ?_
    hle hu hw
  · intro a b c hab hbc
    refine ⟨hab.log.trans hbc.log, fun j r k hj => ?_⟩
    rcases hbc.behind j r k hj with hb | hb
    · exact hab.behind j r k hb
    · exact .inr (hab.log.length_le.trans hb)
  · intro s l s' hstep
    obtain ⟨v, hv, rfl⟩ := step_cases hstep
    have hlater := later_act hv
    exact ⟨hlater.log, hlater.behind⟩

end BrokerWorld

end Hannibal
