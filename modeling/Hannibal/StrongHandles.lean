import Mathlib.Algebra.BigOperators.Group.List.Basic
import Mathlib.Algebra.GroupWithZero.Nat
import Mathlib.Data.List.Perm.Basic
import Hannibal.Handles

/-!
# Hannibal.StrongHandles — weak handles never keep an actor alive, strong ones always do

Every operation is a balance: it takes the senders of the handle it is used on and leaves those of
the handles that are there afterwards. So the channel's counter is the number of clones captured in
the handles that are alive, which is zero exactly when no strong handle is.

* **`balanced_use`** — the balance of one operation, from those of `Sender.new`, `Caller.new`, ….
* **`HandleInv`** — the counter counts what the handles hold, and all of them are the actor's.
* **`strong_handles`** — the theorem about every sequence of operations.
-/

namespace Hannibal

open Lts Refs
open RefCounted (state)

/-- The handle is one of the actor whose `Core` this is. -/
def Handle.Of (core : Core) (h : Handle) : Prop := ∀ x ∈ h.cores, x = core

/-- How many senders a handle holds. -/
def Handle.weight (h : Handle) : ℕ := h.txs.length

/-- A strong handle holds at least one, a weak one none. -/
theorem Handle.weight_pos_iff {h : Handle} : 0 < h.weight ↔ h.strong = true := by
  cases h <;> simp [weight, txs, strong]

variable {C : Type} [RefCounted C] {core : Core}

/-! ## The balance of each operation

Each operation is a program on the channel's reference counts. Its balance says how many senders it
gives up and how many the handle it returns holds; clones and upgrades add to the count, drops take
from it, and the balances compose like the programs. -/

theorem balance_txFn_clone (fn : TxFn) :
    Balance (C := C) fn.clone 1 (fun r => r.core = fn.core) fun _ => 2 :=
  (balance_clone fn.tx).bind fun _ _ => balance_pure rfl rfl

theorem balance_sender_new (tx : Tx) (core : Core) :
    Balance (C := C) (Sender.new tx core) 1 (fun s => (Handle.sender s).Of core) fun _ => 3 := by
  refine (balance_clone tx).bind fun tx₁ _ => ?_
  refine ((balance_clone tx).frame 1).bind fun tx₂ _ => ?_
  exact balance_pure (by simp [Handle.Of, Handle.cores]) rfl

theorem balance_caller_new (tx : Tx) (core : Core) :
    Balance (C := C) (Caller.new tx core) 1 (fun c => (Handle.caller c).Of core) fun _ => 1 :=
  balance_pure (by simp [Handle.Of, Handle.cores]) rfl

theorem balance_weakSender_new (tx : Tx) (core : Core) :
    Balance (C := C) (WeakSender.new tx core) 1 (fun w => (Handle.weakSender w).Of core)
      fun _ => 0 :=
  (balance_drop tx).bind fun _ _ =>
    balance_pure (by simp [WeakSender.fromWeakTx, Handle.Of, Handle.cores]) rfl

theorem balance_weakCaller_new (tx : Tx) (core : Core) :
    Balance (C := C) (WeakCaller.new tx core) 1 (fun w => (Handle.weakCaller w).Of core)
      fun _ => 0 :=
  (balance_drop tx).bind fun _ _ =>
    balance_pure (by simp [WeakCaller.fromWeakTx, Handle.Of, Handle.cores]) rfl

/-- The conversions of an `Addr` build the other handle from a clone. -/
theorem balance_convert {α : Type} {make : Tx → Core → Eff C α} {P : Core → α → Prop} {n : ℕ}
    (hmake : ∀ tx core, Balance (make tx core) 1 (P core) fun _ => n) (a : Addr) :
    Balance (C := C) (do make (← a.tx.clone) a.core) 1 (P a.core) fun _ => n + 1 :=
  (balance_clone a.tx).bind fun tx _ => (hmake tx a.core).frame 1

/-- … and the `Addr` itself ends, if it is consumed. -/
theorem balance_into {α : Type} {make : Tx → Core → Eff C α} {P : Core → α → Prop} {n : ℕ}
    (hmake : ∀ tx core, Balance (make tx core) 1 (P core) fun _ => n) (a : Addr) :
    Balance (C := C) (do let r ← make (← a.tx.clone) a.core; a.drop; return r) 1 (P a.core)
      fun _ => n := by
  refine (balance_clone a.tx).bind fun tx _ => ?_
  refine ((hmake tx a.core).frame 1).bind fun r hr => ?_
  rw [Nat.add_comm]
  refine ((balance_drop a.tx).frame n).bind fun _ _ => ?_
  exact balance_pure hr (Nat.zero_add n)

/-- A method of `&self` that makes a clone first. -/
theorem balance_clone_into {α : Type} {into : Addr → Eff C α} {P : α → Prop} {n : ℕ} (a : Addr)
    (hinto : ∀ b : Addr, b.core = a.core → Balance (into b) 1 P fun _ => n) :
    Balance (C := C) (do into (← a.clone)) 1 P fun _ => n + 1 := by
  have hclone : Balance (C := C) a.clone 1 (fun b => b.core = a.core) fun _ => 2 :=
    (balance_clone a.tx).bind fun tx _ => balance_pure rfl rfl
  exact hclone.bind fun b hb => (hinto b hb).frame 1

theorem balance_sender_clone {s : Sender} (hs : (Handle.sender s).Of core) :
    Balance (C := C) s.clone 3 (fun r => (Handle.sender r).Of core) fun _ => 6 := by
  refine ((balance_txFn_clone s.sendFn).frame 2).bind fun f₁ h₁ => ?_
  refine ((balance_txFn_clone s.trySendFn).frame 3).bind fun f₂ h₂ => ?_
  refine ((balance_txFn_clone s.forceSendFn).frame 4).bind fun f₃ h₃ => ?_
  refine balance_pure ?_ rfl
  simp only [Handle.Of, Handle.cores, List.forall_mem_cons] at hs ⊢
  exact ⟨hs.1, h₁.trans hs.2.1, h₂.trans hs.2.2.1, h₃.trans hs.2.2.2.1, hs.2.2.2.2⟩

theorem balance_sender_drop (s : Sender) :
    Balance (C := C) s.drop 3 (fun _ => True) fun _ => 0 := by
  refine ((balance_drop s.sendFn.tx).frame 2).bind fun _ _ => ?_
  refine ((balance_drop s.trySendFn.tx).frame 1).bind fun _ _ => ?_
  exact balance_drop s.forceSendFn.tx

theorem balance_caller_clone {c : Caller} (hc : (Handle.caller c).Of core) :
    Balance (C := C) c.clone 1 (fun r => (Handle.caller r).Of core) fun _ => 2 := by
  refine (balance_txFn_clone c.callFn).bind fun f hf => balance_pure ?_ rfl
  simp only [Handle.Of, Handle.cores, List.forall_mem_cons] at hc ⊢
  exact ⟨hc.1, hf.trans hc.2.1, hc.2.2⟩

/-- An upgrade builds the strong handle from the sender it has got, or nothing. -/
theorem balance_upgrade_make {α : Type} {make : Tx → Core → Eff C α} {P : Core → α → Prop} {n : ℕ}
    (hmake : ∀ tx core, Balance (make tx core) 1 (P core) fun _ => n) (fn : WeakTxFn) :
    Balance (do
        match ← fn.weakTx.upgrade with
        | some tx => return some (← make tx fn.core)
        | none => return none) 0
      (fun r => ∀ a ∈ r, P fn.core a) fun r => if r.isSome then n else 0 := by
  refine (balance_upgrade fn.weakTx).bind fun r _ => ?_
  cases r with
  | none => exact balance_pure nofun rfl
  | some tx =>
    refine (hmake tx fn.core).bind fun a ha => balance_pure ?_ rfl
    intro b hb
    cases hb
    exact ha

theorem balance_weakAddr_upgrade (w : WeakAddr) :
    Balance (C := C) w.upgrade 0 (fun r => ∀ a ∈ r, (Handle.addr a).Of w.core)
      fun r => if r.isSome then 1 else 0 := by
  refine (balance_upgrade w.weakTx).bind fun r _ => balance_pure ?_ (by cases r <;> rfl)
  intro a ha
  obtain ⟨tx, -, rfl⟩ := Option.map_eq_some_iff.mp ha
  simp [Handle.Of, Handle.cores]

/-! ## The balance of an operation on a handle

An operation keeps the handle it is called on or consumes it, and may return a new one. In either
case what it leaves weighs as much as the senders it has left, which is all that a run needs. -/

/-- What an operation should leave, for a handle of the actor: the handle itself, if it is kept, and
a new one, if there is one, with all that they hold. -/
def Use.Balanced (u : Use C) (core : Core) (n : ℕ) : Prop :=
  Balance u.effect n (fun r => ∀ h ∈ r, h.Of core)
    fun r => (if u.keeps then n else 0) + (r.map Handle.weight).getD 0

/-- An operation that makes a new handle and keeps the old one. -/
theorem balanced_make {α : Type} {e : Eff C α} {mk : α → Handle} {n m : ℕ}
    (he : Balance e n (fun a => (mk a).Of core) fun _ => m) (hm : ∀ a, m = n + (mk a).weight) :
    Use.Balanced ⟨true, do return some (mk (← e))⟩ core n := by
  refine he.bind fun a ha => balance_pure ?_ (hm a)
  intro h hh
  cases hh
  exact ha

/-- An operation that makes a new handle out of the old one. -/
theorem balanced_consume {α : Type} {e : Eff C α} {mk : α → Handle} {n m : ℕ}
    (he : Balance e n (fun a => (mk a).Of core) fun _ => m) (hm : ∀ a, m = (mk a).weight) :
    Use.Balanced ⟨false, do return some (mk (← e))⟩ core n := by
  refine he.bind fun a ha => balance_pure ?_ (by rw [hm a]; exact (Nat.zero_add _).symm)
  intro h hh
  cases hh
  exact ha

/-- An operation that only copies what it needs. -/
theorem balanced_copy {h : Handle} {n : ℕ} (hof : h.Of core) (hweak : h.weight = 0) :
    Use.Balanced (C := C) ⟨true, return some h⟩ core n := by
  refine balance_pure ?_ (by simp [hweak])
  intro h' hh
  cases hh
  exact hof

/-- An operation that only turns the old handle into the new one. -/
theorem balanced_become {h : Handle} (hof : h.Of core) :
    Use.Balanced (C := C) ⟨false, return some h⟩ core h.weight := by
  refine balance_pure ?_ (by simp)
  intro h' hh
  cases hh
  exact hof

theorem balanced_drop {e : Eff C Unit} {n : ℕ} (he : Balance e n (fun _ => True) fun _ => 0) :
    Use.Balanced ⟨false, do e; return none⟩ core n :=
  he.bind fun _ _ => balance_pure nofun rfl

/-- An upgrade of a weak handle. -/
theorem balanced_upgrade {α : Type} {e : Eff C (Option α)} {mk : α → Handle} {m : ℕ}
    (he : Balance e 0 (fun r => ∀ a ∈ r, (mk a).Of core) fun r => if r.isSome then m else 0)
    (hm : ∀ a, m = (mk a).weight) : Use.Balanced ⟨true, do return (← e).map mk⟩ core 0 := by
  refine he.bind fun r hr => balance_pure ?_ ?_
  · intro h hh
    obtain ⟨a, ha, rfl⟩ := Option.map_eq_some_iff.mp hh
    exact hr a ha
  · cases r with
    | none => rfl
    | some a => simp [hm a]

theorem balanced_useAddr {a : Addr} {op : HandleOp} {u : Use C} (hcore : a.core = core)
    (h : Handle.useAddr a op = some u) : u.Balanced core 1 := by
  subst hcore
  cases op with
  | clone =>
    cases h
    refine balanced_make (m := 2) ?_ fun _ => rfl
    exact (balance_clone a.tx).bind fun tx _ => balance_pure (by simp [Handle.Of, Handle.cores]) rfl
  | downgrade | toWeakAddr =>
    cases h
    exact balanced_copy (by simp [Addr.downgrade, Addr.toWeakAddr, Handle.Of, Handle.cores]) rfl
  -- a `Sender` holds three senders, and the `Addr` keeps its own
  | sender =>
    cases h
    refine balanced_make (m := 4) ?_ fun _ => rfl
    exact balance_clone_into a fun b hb => hb ▸ balance_into balance_sender_new b
  -- a `Caller` holds one
  | caller =>
    cases h
    refine balanced_make (m := 2) ?_ fun _ => rfl
    exact balance_clone_into a fun b hb => hb ▸ balance_into balance_caller_new b
  | weakSender =>
    cases h
    refine balanced_make (m := 1) ?_ fun _ => rfl
    exact balance_clone_into a fun b hb => hb ▸ balance_into balance_weakSender_new b
  | weakCaller =>
    cases h
    refine balanced_make (m := 1) ?_ fun _ => rfl
    exact balance_clone_into a fun b hb => hb ▸ balance_into balance_weakCaller_new b
  | toSender =>
    cases h
    exact balanced_make (m := 4) (balance_convert balance_sender_new a) fun _ => rfl
  | toWeakSender =>
    cases h
    exact balanced_make (m := 1) (balance_convert balance_weakSender_new a) fun _ => rfl
  | toWeakCaller =>
    cases h
    exact balanced_make (m := 1) (balance_convert balance_weakCaller_new a) fun _ => rfl
  | _ => cases h

theorem balanced_useSender {x : Sender} {op : HandleOp} {u : Use C}
    (hof : (Handle.sender x).Of core)
    (huse : (Handle.sender x).use op = some u) : u.Balanced core 3 := by
  cases op with
  | clone =>
    cases huse
    exact balanced_make (m := 6) (balance_sender_clone hof) fun _ => rfl
  | drop => cases huse; exact balanced_drop (balance_sender_drop x)
  | downgrade =>
    cases huse
    refine balanced_copy ?_ rfl
    simp only [Handle.Of, Handle.cores, List.forall_mem_cons] at hof
    simpa [Sender.downgrade, Handle.Of, Handle.cores] using hof.2.2.2.2.1
  | _ => cases huse

theorem balanced_useCaller {x : Caller} {op : HandleOp} {u : Use C}
    (hof : (Handle.caller x).Of core)
    (huse : (Handle.caller x).use op = some u) : u.Balanced core 1 := by
  cases op with
  | clone =>
    cases huse
    exact balanced_make (m := 2) (balance_caller_clone hof) fun _ => rfl
  | drop => cases huse; exact balanced_drop (balance_drop x.callFn.tx)
  | downgrade =>
    cases huse
    refine balanced_copy ?_ rfl
    simp only [Handle.Of, Handle.cores, List.forall_mem_cons] at hof
    simpa [Caller.downgrade, Handle.Of, Handle.cores] using ⟨hof.2.2.2.1, hof.2.2.1⟩
  | _ => cases huse

/-- The operations of a weak handle: it is copied, dropped or upgraded. -/
theorem balanced_useWeakAddr {x : WeakAddr} {op : HandleOp} {u : Use C}
    (hof : (Handle.weakAddr x).Of core) (huse : (Handle.weakAddr x).use op = some u) :
    u.Balanced core 0 := by
  have hcore : x.core = core := hof x.core (by simp [Handle.cores])
  cases op with
  | clone => cases huse; exact balanced_copy hof rfl
  | drop => cases huse; exact balance_pure nofun rfl
  | upgrade =>
    cases huse
    exact balanced_upgrade (m := 1) (hcore ▸ balance_weakAddr_upgrade x) fun _ => rfl
  | sender =>
    cases huse
    refine balanced_copy ?_ rfl
    simp [WeakAddr.sender, WeakSender.fromWeakTx, Handle.Of, Handle.cores, hcore]
  | caller =>
    cases huse
    refine balanced_copy ?_ rfl
    simp [WeakAddr.caller, WeakCaller.fromWeakTx, Handle.Of, Handle.cores, hcore]
  | _ => cases huse

theorem balanced_useWeakSender {x : WeakSender} {op : HandleOp} {u : Use C}
    (hof : (Handle.weakSender x).Of core) (huse : (Handle.weakSender x).use op = some u) :
    u.Balanced core 0 := by
  have hcore : x.upgradeFn.core = core := hof x.upgradeFn.core (by simp [Handle.cores])
  cases op with
  | clone => cases huse; exact balanced_copy hof rfl
  | drop => cases huse; exact balance_pure nofun rfl
  | upgrade =>
    cases huse
    refine balanced_upgrade (m := 3) ?_ fun _ => rfl
    exact hcore ▸ balance_upgrade_make balance_sender_new x.upgradeFn
  | _ => cases huse

theorem balanced_useWeakCaller {x : WeakCaller} {op : HandleOp} {u : Use C}
    (hof : (Handle.weakCaller x).Of core) (huse : (Handle.weakCaller x).use op = some u) :
    u.Balanced core 0 := by
  have hcore : x.upgradeFn.core = core := hof x.upgradeFn.core (by simp [Handle.cores])
  cases op with
  | clone => cases huse; exact balanced_copy hof rfl
  | drop => cases huse; exact balance_pure nofun rfl
  | upgrade =>
    cases huse
    refine balanced_upgrade (m := 1) ?_ fun _ => rfl
    exact hcore ▸ balance_upgrade_make balance_caller_new x.upgradeFn
  | _ => cases huse

/-- **Every operation is balanced**: it leaves the senders of the handles it leaves. -/
theorem balanced_use {h : Handle} {op : HandleOp} {u : Use C} (hof : h.Of core)
    (huse : h.use op = some u) : u.Balanced core h.weight := by
  cases h with
  | addr a =>
    have hcore : a.core = core := hof a.core (by simp [Handle.cores])
    cases op with
    | drop => cases huse; exact balanced_drop (balance_drop a.tx)
    -- the `Addr` is consumed, and its sender goes with it
    | intoSender =>
      cases huse
      exact balanced_consume (m := 3) (hcore ▸ balance_into balance_sender_new a) fun _ => rfl
    | intoCaller =>
      cases huse
      exact balanced_consume (m := 1) (hcore ▸ balance_into balance_caller_new a) fun _ => rfl
    | intoWeakSender =>
      cases huse
      exact balanced_consume (m := 0) (hcore ▸ balance_into balance_weakSender_new a) fun _ => rfl
    | intoWeakCaller =>
      cases huse
      exact balanced_consume (m := 0) (hcore ▸ balance_into balance_weakCaller_new a) fun _ => rfl
    | own => cases huse; exact balanced_become hof
    -- what remains does not consume the address, and an `OwningAddr` can do it, too
    | _ =>
      simp only [Handle.use] at huse
      exact balanced_useAddr hcore huse
  | owningAddr o =>
    have hcore : o.addr.core = core := hof o.addr.core (by simp [Handle.cores])
    cases op with
    | drop => cases huse; exact balanced_drop (balance_drop o.addr.tx)
    | detach => cases huse; exact balanced_become hof
    | _ =>
      simp only [Handle.use] at huse
      exact balanced_useAddr hcore huse
  | sender x => exact balanced_useSender hof huse
  | caller x => exact balanced_useCaller hof huse
  | weakAddr x => exact balanced_useWeakAddr hof huse
  | weakSender x => exact balanced_useWeakSender hof huse
  | weakCaller x => exact balanced_useWeakCaller hof huse

/-! ## Runs

The count of the channel is the sum of the weights of the handles that are alive. Each operation is
balanced, so the sum stays right; the `Context` only offers weak handles, of weight zero. -/

namespace HandleWorld

variable {w w' v : HandleWorld C} {l : HandleLabel} {ls : List HandleLabel}

/-- The counter counts what the handles hold, and all of them are the actor's. -/
structure HandleInv (core : Core) (w : HandleWorld C) : Prop where
  counted : (state w.cell).count = (w.handles.map Handle.weight).sum
  ok : (state w.cell).Ok
  handles : ∀ h ∈ w.handles, h.Of core
  context : ∀ x ∈ w.context, x.core = core

theorem handleInv_create (core : Core) : HandleInv core (create C core) where
  counted := by
    rw [create, RefCounted.state_new]
    rfl
  ok := by
    rw [create, RefCounted.state_new]
    exact Cell.ok_fresh
  handles h hh := by
    rw [List.mem_singleton.mp hh]
    simp [Handle.Of, Handle.cores]
  context x hx := by
    cases hx
    rfl

/-- The senders of the handles, with one of them set apart. -/
theorem sum_eraseIdx {hs : List Handle} {i : ℕ} {h : Handle} (hi : hs[i]? = some h) :
    (hs.map Handle.weight).sum = h.weight + ((hs.eraseIdx i).map Handle.weight).sum := by
  obtain ⟨hlt, rfl⟩ := List.getElem?_eq_some_iff.mp hi
  rw [← ((List.getElem_cons_eraseIdx_perm hlt).map Handle.weight).sum_eq]
  rfl

theorem handleInv_use {i : ℕ} {op : HandleOp} (hinv : HandleInv core w)
    (huse : w.use i op = some w') :
    HandleInv core w' ∧ ((state w.cell).closed = true → (state w'.cell).closed = true) := by
  unfold use at huse
  split at huse
  · cases huse
  · next h hi =>
    obtain ⟨u, hu, rfl⟩ := Option.map_eq_some_iff.mp huse
    have hof := hinv.handles h (List.mem_of_getElem? hi)
    have hsum := sum_eraseIdx hi
    have hle : h.weight ≤ (state w.cell).count := by
      rw [hinv.counted, hsum]
      exact Nat.le_add_right _ _
    obtain ⟨hnew, hok, hcount, -, hclosed⟩ := balanced_use hof hu w.cell hinv.ok hle
    refine ⟨⟨?_, hok, ?_, hinv.context⟩, hclosed⟩
    -- what the handles weigh afterwards: those that are left, and the new one
    · have hleft : ((u.effect w.cell).1.toList.map Handle.weight).sum
          = ((u.effect w.cell).1.map Handle.weight).getD 0 := by
        cases (u.effect w.cell).1 <;> simp
      have hcounted := hinv.counted
      show (state (u.effect w.cell).2).count
        = (((if u.keeps then w.handles else w.handles.eraseIdx i)
        ++ (u.effect w.cell).1.toList).map Handle.weight).sum
      rw [List.map_append, List.sum_append, hleft]
      cases hk : u.keeps <;> simp only [hk, if_true, Bool.false_eq_true, if_false] at hcount ⊢ <;>
        omega
    · intro h' hh'
      rcases List.mem_append.mp hh' with hold | hmade
      · refine hinv.handles h' ?_
        split at hold
        · exact hold
        · exact List.mem_of_mem_eraseIdx hold
      · exact hnew h' (by simpa using hmade)

theorem handleInv_offer {f : ContextRefs → Handle} (hinv : HandleInv core w)
    (hf : ∀ x : ContextRefs, x.core = core → (f x).Of core ∧ (f x).weight = 0)
    (hoffer : w.offer f = some w') :
    HandleInv core w' ∧ ((state w.cell).closed = true → (state w'.cell).closed = true) := by
  obtain ⟨x, hx, rfl⟩ := Option.map_eq_some_iff.mp hoffer
  obtain ⟨hof, hweight⟩ := hf x (hinv.context x hx)
  refine ⟨⟨?_, hinv.ok, ?_, hinv.context⟩, id⟩
  · simpa [hweight] using hinv.counted
  · intro h hh
    rcases List.mem_append.mp hh with hold | hnew
    · exact hinv.handles h hold
    · rw [List.mem_singleton.mp hnew]
      exact hof

/-- Every step keeps the count, and a closed channel closed. -/
theorem handleInv_step (hinv : HandleInv core w) (hstep : w.step l = some w') :
    HandleInv core w' ∧ ((state w.cell).closed = true → (state w'.cell).closed = true) := by
  cases l with
  | use i op => exact handleInv_use hinv hstep
  | weakAddress =>
    refine handleInv_offer hinv (fun x hx => ⟨?_, rfl⟩) hstep
    simp [ContextRefs.weakAddress, Handle.Of, Handle.cores, hx]
  | weakSender =>
    refine handleInv_offer hinv (fun x hx => ⟨?_, rfl⟩) hstep
    simp [ContextRefs.weakSender, WeakSender.fromWeakTx, Handle.Of, Handle.cores, hx]
  | weakCaller =>
    refine handleInv_offer hinv (fun x hx => ⟨?_, rfl⟩) hstep
    simp [ContextRefs.weakCaller, WeakCaller.fromWeakTx, Handle.Of, Handle.cores, hx]
  | finish =>
    cases hstep
    have hlaw := RefCounted.state_dropReceiver w.cell
    refine ⟨⟨?_, ?_, hinv.handles, nofun⟩, fun _ => ?_⟩
    · rw [hlaw]
      exact hinv.counted
    · rw [hlaw]
      exact Cell.ok_dropReceiver _
    · rw [hlaw]
      rfl

theorem handleInv_of_run (h : (machine C core).Run ls w) : HandleInv core w :=
  h.invariant (I := HandleInv core) (handleInv_create core)
    fun _ _ _ hs hstep => (handleInv_step hs hstep).1

/-- The counter is positive exactly when a strong handle is alive. -/
theorem count_pos_iff (hinv : HandleInv core w) :
    0 < (state w.cell).count ↔ ∃ h ∈ w.handles, h.strong = true := by
  rw [hinv.counted, List.sum_pos_iff_exists_pos_nat]
  constructor
  · rintro ⟨n, hn, hpos⟩
    obtain ⟨h, hh, rfl⟩ := List.mem_map.mp hn
    exact ⟨h, hh, Handle.weight_pos_iff.mp hpos⟩
  · rintro ⟨h, hh, hstrong⟩
    exact ⟨h.weight, List.mem_map_of_mem hh, Handle.weight_pos_iff.mpr hstrong⟩

theorem closed_iff (hinv : HandleInv core w) :
    (state w.cell).closed = true ↔ (∀ h ∈ w.handles, h.strong = false)
      ∨ (state w.cell).receiver = false := by
  have hzero : (state w.cell).count = 0 ↔ ∀ h ∈ w.handles, h.strong = false := by
    rw [← not_iff_not, ← Ne, ← Nat.pos_iff_ne_zero, count_pos_iff hinv]
    simp
  rw [← hzero]
  exact hinv.ok

/-! ## Upgrades

An upgrade asks for a sender and builds its handle from it: whether it succeeds depends only on
whether the channel still has one to give. -/

/-- What is built from the sender does not matter for whether there is one. -/
theorem map_upgrade_isSome {α : Type} {make : Tx → Core → Eff C α} {mk : α → Handle} {fn : WeakTxFn}
    (c : C) :
    ((do
      let r ← (do
        match ← fn.weakTx.upgrade with
        | some tx => return some (← make tx fn.core)
        | none => return none)
      return r.map mk : Eff C (Option Handle)) c).1.isSome = (fn.weakTx.upgrade c).1.isSome := by
  rcases hup : fn.weakTx.upgrade c with ⟨_ | tx, c'⟩ <;>
    simp only [bind, StateT.bind, hup] <;> rfl

theorem upgrade_effect {h : Handle} (hweak : h.strong = false) :
    ∃ u : Use C, h.use .upgrade = some u
      ∧ ∀ c, (u.effect c).1.isSome = ((⟨⟩ : Weak).upgrade c).1.isSome := by
  cases h with
  | addr | owningAddr | sender | caller => cases hweak
  | weakAddr w =>
    refine ⟨_, rfl, fun c => ?_⟩
    rcases hup : w.weakTx.upgrade c with ⟨_ | tx, c'⟩ <;>
      simp only [WeakAddr.upgrade, bind, StateT.bind, hup] <;> rfl
  | weakSender w => exact ⟨_, rfl, fun c => map_upgrade_isSome c⟩
  | weakCaller w => exact ⟨_, rfl, fun c => map_upgrade_isSome c⟩

/-- On a closed channel a weak handle only makes weak ones. -/
theorem weak_use {h : Handle} {op : HandleOp} {u : Use C} {c : C} (hweak : h.strong = false)
    (hcl : (state c).closed = true) (huse : h.use op = some u) :
    ∀ n ∈ (u.effect c).1, n.strong = false := by
  by_cases hop : op = .upgrade
  · subst hop
    obtain ⟨u', hu', hsome⟩ := upgrade_effect (C := C) hweak
    obtain rfl : u = u' := Option.some.inj (huse.symm.trans hu')
    have hnone : (u.effect c).1.isSome = false := by
      rw [hsome c]
      rcases Weak.upgrade_cases ⟨⟩ c with ⟨hup, -⟩ | ⟨c', -, hlaw⟩
      · rw [hup]
        rfl
      · rw [(upgrade_eq_some hlaw).1] at hcl
        cases hcl
    rw [Option.isSome_eq_false_iff, Option.isNone_iff_eq_none] at hnone
    rw [hnone]
    exact nofun
  · cases h with
    | addr | owningAddr | sender | caller => cases hweak
    | weakAddr | weakSender | weakCaller =>
      cases op <;> first | exact absurd rfl hop | cases huse
      all_goals
        intro n hn
        cases hn
        try rfl

/-- The last strong handle is gone. -/
structure Abandoned (w : HandleWorld C) : Prop where
  closed : (state w.cell).closed = true
  weak : ∀ h ∈ w.handles, h.strong = false

theorem abandoned_step (hinv : HandleInv core w) (hab : Abandoned w) (hstep : w.step l = some w') :
    Abandoned w' := by
  refine ⟨(handleInv_step hinv hstep).2 hab.closed, ?_⟩
  have hoffer : ∀ {f : ContextRefs → Handle}, (∀ x, (f x).strong = false) →
      w.offer f = some w' → ∀ h ∈ w'.handles, h.strong = false := by
    intro f hf hw h hh
    obtain ⟨x, -, rfl⟩ := Option.map_eq_some_iff.mp hw
    rcases List.mem_append.mp hh with hold | hnew
    · exact hab.weak h hold
    · rw [List.mem_singleton.mp hnew]
      exact hf x
  cases l with
  | use i op =>
    simp only [step, use] at hstep
    split at hstep
    · cases hstep
    · next h hi =>
      obtain ⟨u, hu, rfl⟩ := Option.map_eq_some_iff.mp hstep
      intro h' hh'
      rcases List.mem_append.mp hh' with hold | hmade
      · refine hab.weak h' ?_
        split at hold
        · exact hold
        · exact List.mem_of_mem_eraseIdx hold
      · have hweak := hab.weak h (List.mem_of_getElem? hi)
        exact weak_use hweak hab.closed hu h' (by simpa using hmade)
  | weakAddress => exact hoffer (fun _ => rfl) hstep
  | weakSender => exact hoffer (fun _ => rfl) hstep
  | weakCaller => exact hoffer (fun _ => rfl) hstep
  | finish =>
    cases hstep
    exact hab.weak

theorem abandoned_of_run {more : List HandleLabel} (h : (machine C core).Run ls w)
    (hab : Abandoned w) (hv : (machine C core).Run (ls ++ more) v) : Abandoned v := by
  refine (Machine.Run.related (r := fun s t => HandleInv core s →
    HandleInv core t ∧ (Abandoned s → Abandoned t)) ?_ ?_ ?_ (List.prefix_append ls more) h hv
    (handleInv_of_run h)).2 hab
  · exact fun s hs => ⟨hs, id⟩
  · intro a b c hab hbc ha
    exact ⟨(hbc (hab ha).1).1, fun h => (hbc (hab ha).1).2 ((hab ha).2 h)⟩
  · intro s l s' hstep hs
    exact ⟨(handleInv_step hs hstep).1, fun h => abandoned_step hs h hstep⟩

/-! ## The theorem

With the count known, the rest is arithmetic: it is positive exactly when a strong handle is alive,
and once it is zero it stays so, since weak handles do not upgrade any more. -/

/-- What a state that operations lead to looks like. -/
structure StrongHandles (core : Core) (w : HandleWorld C) : Prop where
  /-- the senders that are alive are those the handles hold -/
  counted : (state w.cell).count = (w.handles.map Handle.weight).sum
  /-- there is one exactly when a strong handle is alive -/
  alive : 0 < (state w.cell).count ↔ ∃ h ∈ w.handles, h.strong = true
  /-- the mailbox is open exactly when, besides, the receiver is -/
  isOpen : (state w.cell).closed = false ↔ (state w.cell).receiver = true
    ∧ ∃ h ∈ w.handles, h.strong = true
  /-- and then, and only then, each weak handle upgrades -/
  upgrades : (state w.cell).receiver = true → ∀ h ∈ w.handles, h.strong = false →
    ∃ u : Use C, h.use .upgrade = some u
      ∧ ((u.effect w.cell).1.isSome = true ↔ ∃ s ∈ w.handles, s.strong = true)
  /-- the handles are the actor's -/
  cores : ∀ h ∈ w.handles, ∀ x ∈ h.cores, x = core
  context : ∀ x ∈ w.context, x.core = core

/-- **Weak handles never keep an actor alive and strong ones always do**, whatever handles have been
made of the first `Addr` and of each other. Once the last strong one is gone the mailbox stays
closed and no strong one is made again. -/
theorem strong_handles (core : Core) (h : (machine C core).Run ls w) :
    StrongHandles core w
      ∧ ((∀ h ∈ w.handles, h.strong = false) → ∀ more v, (machine C core).Run (ls ++ more) v →
          (state v.cell).closed = true ∧ ∀ h ∈ v.handles, h.strong = false) := by
  have hinv := handleInv_of_run h
  have halive := count_pos_iff hinv
  have hclosed := closed_iff hinv
  refine ⟨⟨hinv.counted, halive, ?_, ?_, hinv.handles, hinv.context⟩, ?_⟩
  · rw [← Bool.not_eq_true, hclosed]
    simp [and_comm]
  · intro hrx s hs hweak
    obtain ⟨u, hu, hsome⟩ := upgrade_effect (C := C) hweak
    refine ⟨u, hu, ?_⟩
    rw [hsome, upgrade_isSome hinv.ok hrx, decide_eq_true_eq, halive]
  · intro hweak more v hv
    have hab := abandoned_of_run h ⟨hclosed.mpr (.inl hweak), hweak⟩ hv
    exact ⟨hab.closed, hab.weak⟩

/-- A sender outlives the address, and keeps the mailbox open until it is dropped. The weak handles
that are left do not upgrade. -/
def lastSenderRun : List HandleLabel :=
  [.use 0 .sender, .weakCaller, .use 0 .drop, .use 0 .downgrade, .use 1 .upgrade, .use 3 .drop,
    .use 0 .drop, .use 0 .upgrade]

theorem strong_handles_lastSender :
    ((machine Cell ⟨0, 0, 0⟩).after (lastSenderRun.take 5) rfl).cell.closed = false
      ∧ ((machine Cell ⟨0, 0, 0⟩).after lastSenderRun rfl).handles.length = 2
      ∧ StrongHandles ⟨0, 0, 0⟩ ((machine Cell ⟨0, 0, 0⟩).after lastSenderRun rfl) :=
  ⟨rfl, rfl, (strong_handles ⟨0, 0, 0⟩ ((machine Cell ⟨0, 0, 0⟩).run_after lastSenderRun rfl)).1⟩

end HandleWorld

end Hannibal
