import Hannibal.Handles
import Hannibal.Lib.Futures
import Hannibal.StopNotice

/-!
# Hannibal.Awaiting — awaiting the addresses of an actor

`impl Future for Addr` (`addr.rs`) polls its `Core`, which polls its own clone of the stop future
(`context/core.rs`). Every handle got by cloning, downgrading, upgrading or converting another one
has a clone of that one's `Core`, and with it a clone of its stop future as it is at that moment.
The loop future is driven with arbitrary inputs, as in `Hannibal.StopNotice`.

* **`AwaitWorld`** — the loop future, the channel, and all handles there have been.
* **`AwaitWorld.Inv`** — which handles have their inner future; `inv_step` is its step lemma.
* **`awaits_resolve_iff`** — which addresses can be awaited.
-/

namespace Hannibal

open Lts Refs Futures
open SharedFuture (hasInner)

/-- The `Addr` a handle is, or derefs to. -/
def Handle.isAddr : Handle → Bool
  | addr _ | owningAddr _ => true
  | sender _ | caller _ | weakAddr _ | weakSender _ | weakCaller _ => false

/-- A handle until it is dropped or converted, with the stop future in its `Core`. `origin` and
`awaited` record where it comes from, and whether it has been awaited to completion; no step of the
source reads them. -/
structure Holder (S : Type) where
  handle : Option Handle
  stopFuture : S
  origin : Option Origin
  awaited : Bool

variable {C S σ ρ : Type} [RefCounted C] [SharedFuture S]

/-- The handle that an operation on `x`, at `i`, has given. A conversion moves the `Core` of a
handle that is gone with it, which leaves the new one with the same stop future as a clone does. -/
def Holder.derived (x : Holder S) (i : ℕ) (h : Handle) : Holder S :=
  ⟨some h, SharedFuture.clone x.stopFuture, some ⟨i, x.awaited⟩, false⟩

/-- The loop future, the channel with the `Context`'s references, and all handles there have
been. -/
structure AwaitWorld (C S σ ρ : Type) where
  task : LoopTask σ ρ
  cell : C
  context : ContextRefs
  holders : List (Holder S)

/-- Everything that can happen next: the loop future takes a step, a handle is used, the `Context`
hands out a `WeakAddr`, or an address is polled. -/
inductive AwaitLabel (σ ρ : Type) where
  | task (l : TaskLabel σ ρ)
  | use (i : ℕ) (op : HandleOp)
  | weakAddress
  | poll (i : ℕ)

namespace AwaitWorld

/-- What `EventLoop::from_channel` and `EventLoop::create` leave. -/
def init (core : Core) (actor : σ) : AwaitWorld C S σ ρ :=
  let tx : Tx := ⟨⟩
  ⟨.init actor, RefCounted.new, ⟨core, tx.downgrade⟩,
    [⟨some (.addr ⟨tx, core⟩), SharedFuture.shared, none, false⟩]⟩

/-- Where the handles come from. -/
def origins (w : AwaitWorld C S σ ρ) : List (Option Origin) := w.holders.map Holder.origin

/-- `Future for Core`. -/
def polled (w : AwaitWorld C S σ ρ) (x : Holder S) : Polled (Except ActorError Unit) × S :=
  SharedFuture.poll x.stopFuture w.task.pollOneshot

/-- Handle `i` is polled; a poll that is ready completes the await. -/
def await (w : AwaitWorld C S σ ρ) (i : ℕ) : AwaitWorld C S σ ρ :=
  { w with holders := w.holders.modify i fun x => { x with
      stopFuture := (w.polled x).2
      awaited := x.awaited || (w.polled x).1.isReady } }

/-- The handles, less the one at `i` if it is gone. -/
def remaining (w : AwaitWorld C S σ ρ) (i : ℕ) (keeps : Bool) : List (Holder S) :=
  if keeps then w.holders else w.holders.modify i fun x => { x with handle := none }

/-- An operation on handle `i`. -/
def use (w : AwaitWorld C S σ ρ) (i : ℕ) (op : HandleOp) : Option (AwaitWorld C S σ ρ) :=
  match w.holders[i]? with
  | none => none
  | some x => (x.handle.bind fun h => h.use op).map fun u =>
    let (new, cell) := u.effect w.cell
    { w with cell, holders := w.remaining i u.keeps ++ (new.map (x.derived i)).toList }

/-- The channel sees its receiver being dropped. -/
def cellAfter (w : AwaitWorld C S σ ρ) : TaskLabel σ ρ → C
  | .dropRx => RefCounted.dropReceiver w.cell
  | _ => w.cell

def step (E : EventLoop σ) (w : AwaitWorld C S σ ρ) : AwaitLabel σ ρ → Option (AwaitWorld C S σ ρ)
  | .task l => (w.task.step E l).map fun t => { w with task := t, cell := w.cellAfter l }
  | .use i op => w.use i op
  | .weakAddress =>
    if w.task.ctx then some { w with
      holders :=
        w.holders ++ [⟨some (.weakAddr w.context.weakAddress), SharedFuture.shared, none, false⟩] }
    else none
  | .poll i =>
    match w.holders[i]? with
    | some ⟨some h, _, _, _⟩ => if h.isAddr then some (w.await i) else none
    | _ => none

def machine (C S ρ : Type) [RefCounted C] [SharedFuture S] (E : EventLoop σ) (core : Core)
    (actor : σ) :
    Machine (AwaitWorld C S σ ρ) (AwaitLabel σ ρ) :=
  ⟨init core actor, step E⟩

/-! ## What one step can do -/

/-- Everything one step can do to the loop future and the stop futures. -/
inductive Act (E : EventLoop σ) (w : AwaitWorld C S σ ρ) :
    AwaitLabel σ ρ → AwaitWorld C S σ ρ → Prop where
  | task (l : TaskLabel σ ρ) (t : LoopTask σ ρ) (c : C) (ht : LoopTask.Step E w.task l t) :
      Act E w (.task l) { w with task := t, cell := c }
  | spend (i : ℕ) (op : HandleOp) (keeps : Bool) (c : C) :
      Act E w (.use i op) { w with cell := c, holders := w.remaining i keeps }
  | derived (i : ℕ) (op : HandleOp) (keeps : Bool) (c : C) (x : Holder S) (h : Handle)
      (hx : w.holders[i]? = some x) :
      Act E w (.use i op) { w with cell := c, holders := w.remaining i keeps ++ [x.derived i h] }
  | offer (hctx : w.task.ctx = true) (h : Handle) :
      Act E w .weakAddress
        { w with holders := w.holders ++ [⟨some h, SharedFuture.shared, none, false⟩] }
  | poll (i : ℕ) (x : Holder S) (hx : w.holders[i]? = some x) : Act E w (.poll i) (w.await i)

variable {E : EventLoop σ} {w w' : AwaitWorld C S σ ρ} {l : AwaitLabel σ ρ}

theorem act_of_use {i : ℕ} {op : HandleOp} (h : w.use i op = some w') : Act E w (.use i op) w' := by
  unfold use at h
  split at h
  · cases h
  · next x hx =>
    obtain ⟨u, hu, rfl⟩ := Option.map_eq_some_iff.mp h
    generalize u.effect w.cell = r
    rcases r with ⟨_ | h', cell⟩
    · simpa using Act.spend (E := E) (w := w) i op u.keeps cell
    · exact .derived i op u.keeps cell x h' hx

/-- **Nothing else happens.** -/
theorem act_cases (h : w.step E l = some w') : Act E w l w' := by
  cases l with
  | task l =>
    obtain ⟨t, ht, rfl⟩ := Option.map_eq_some_iff.mp h
    exact .task l t _ (LoopTask.step_cases ht)
  | use i op => exact act_of_use h
  -- a context only has an address to offer while it has not been dropped
  | weakAddress =>
    simp only [step] at h
    split at h
    · next hctx => cases h; exact .offer hctx _
    · cases h
  | poll i =>
    simp only [step] at h
    split at h
    · next hx =>
      split at h
      · cases h; exact .poll i _ hx
      · cases h
    · cases h

/-! ## The invariant

A handle's clone of the stop future has lost its inner future exactly if the handle was awaited, or
goes back to one that had been awaited by then (`UsedUp`). New handles are added at the end, so what
is said of the old ones does not change. -/

/-- A handle has lost its inner future exactly if it was awaited to completion itself, or comes from
one that had been. -/
structure Accounted (hs : List (Holder S)) : Prop where
  ordered : Ordered (hs.map Holder.origin)
  spent : ∀ i x, hs[i]? = some x →
    (hasInner x.stopFuture = false ↔ x.awaited = true ∨ UsedUp (hs.map Holder.origin) i)

/-- A new handle has its inner future exactly if its origin says so. -/
theorem Accounted.snoc {hs : List (Holder S)} (h : Accounted hs) {new : Holder S}
    (hparent : ∀ o, new.origin = some o → o.parent < hs.length)
    (hnew : hasInner new.stopFuture = false ↔ new.awaited = true
      ∨ UsedUp (hs.map Holder.origin ++ [new.origin]) (hs.map Holder.origin).length) :
    Accounted (hs ++ [new]) := by
  have hmap : (hs ++ [new]).map Holder.origin = hs.map Holder.origin ++ [new.origin] := by simp
  constructor
  · rw [hmap]
    exact ordered_snoc h.ordered (by simpa using hparent)
  · intro i x hx
    rw [hmap]
    -- the handles there were keep their origins, and the new one has what `hnew` says
    rcases Table.getElem?_snoc.mp hx with hx | ⟨rfl, rfl⟩
    · have hi : i < (hs.map Holder.origin).length := by
        rw [List.length_map]
        exact (List.getElem?_eq_some_iff.mp hx).1
      rw [usedUp_snoc_of_lt h.ordered hi]
      exact h.spent i x hx
    · rwa [List.length_map] at hnew

/-- A clone has what the handle it is taken from has at that moment. -/
theorem Accounted.derived {hs : List (Holder S)} (h : Accounted hs) {i : ℕ} {x : Holder S}
    (hx : hs[i]? = some x) (new : Handle) : Accounted (hs ++ [x.derived i new]) := by
  have hi : i < hs.length := (List.getElem?_eq_some_iff.mp hx).1
  refine h.snoc (fun o ho => ?_) ?_
  · cases ho
    exact hi
  · show hasInner (SharedFuture.clone x.stopFuture) = false ↔ false = true
      ∨ UsedUp (hs.map Holder.origin ++ [some ⟨i, x.awaited⟩]) (hs.map Holder.origin).length
    rw [SharedFuture.hasInner_clone, h.spent i x hx, usedUp_snoc h.ordered (by simpa using hi)]
    simp

omit [RefCounted C] in
/-- A handle that is dropped or converted takes nothing from the others, nor from its own
history. -/
theorem Accounted.remaining (h : Accounted w.holders) (i : ℕ) (keeps : Bool) :
    Accounted (w.remaining i keeps) := by
  unfold AwaitWorld.remaining
  split
  · exact h
  · have hmap : (w.holders.modify i fun x => { x with handle := none }).map Holder.origin
        = w.holders.map Holder.origin := Table.map_modify fun _ => rfl
    refine ⟨hmap ▸ h.ordered, fun j y hy => ?_⟩
    rw [hmap]
    rcases Table.of_getElem?_modify hy with ⟨-, hold⟩ | ⟨-, x, hx, rfl⟩
    · exact h.spent j y hold
    · exact h.spent j x hx

omit [RefCounted C] in
theorem derived_of_remaining {i : ℕ} {x : Holder S} (hx : w.holders[i]? = some x) (keeps : Bool) :
    ∃ y, (w.remaining i keeps)[i]? = some y ∧ ∀ h, x.derived i h = y.derived i h := by
  unfold remaining
  split
  · exact ⟨x, hx, fun _ => rfl⟩
  · exact ⟨_, Table.getElem?_modify_self hx, fun _ => rfl⟩

omit [RefCounted C] in
/-- A poll takes the inner future from the handle it completes. -/
theorem Accounted.await (h : Accounted w.holders) (i : ℕ) : Accounted (w.await i).holders := by
  have hmap : (w.await i).holders.map Holder.origin = w.holders.map Holder.origin :=
    Table.map_modify fun _ => rfl
  refine ⟨hmap ▸ h.ordered, fun j y hy => ?_⟩
  rw [hmap]
  rcases Table.of_getElem?_modify hy with ⟨-, hold⟩ | ⟨-, x, hx, rfl⟩
  · exact h.spent j y hold
  · show hasInner (w.polled x).2 = false ↔ (x.awaited || (w.polled x).1.isReady) = true
      ∨ UsedUp (w.holders.map Holder.origin) j
    rw [polled, SharedFuture.poll_hasInner, h.spent j x hx, Bool.or_eq_true]
    tauto

structure Inv (w : AwaitWorld C S σ ρ) : Prop where
  task : w.task.Inv
  accounted : Accounted w.holders

theorem inv_init (core : Core) (actor : σ) : Inv (init core actor : AwaitWorld C S σ ρ) where
  task := LoopTask.inv_init actor
  accounted := by
    have hnone : Accounted ([] : List (Holder S)) := ⟨ordered_nil, nofun⟩
    have hroot : ¬ UsedUp [none] 0 := not_usedUp rfl
    exact hnone.snoc nofun (by simp [hroot])

omit [RefCounted C] in
/-- **The step lemma.** -/
theorem inv_step (hinv : w.Inv) (h : Act E w l w') : w'.Inv := by
  cases h with
  | task l t c ht => exact ⟨LoopTask.inv_step hinv.task ht, hinv.accounted⟩
  | spend i op keeps c => exact ⟨hinv.task, hinv.accounted.remaining i keeps⟩
  -- the parent may be given up in the same step, which does not change what is taken from it
  | derived i op keeps c x h hx =>
    obtain ⟨y, hy, hsame⟩ := derived_of_remaining hx keeps
    refine ⟨hinv.task, ?_⟩
    rw [hsame]
    exact (hinv.accounted.remaining i keeps).derived hy h
  -- the context's own `Core` has never been awaited
  | offer hctx h =>
    refine ⟨hinv.task, hinv.accounted.snoc nofun ?_⟩
    have hroot := not_usedUp (List.getElem?_concat_length (l := w.holders.map Holder.origin))
    simpa using hroot
  | poll i x hx => exact ⟨hinv.task, hinv.accounted.await i⟩

theorem inv_of_run {core : Core} {actor : σ} {ls : List (AwaitLabel σ ρ)}
    (h : (machine C S ρ E core actor).Run ls w) : w.Inv :=
  h.invariant (I := Inv) (inv_init core actor) fun _ _ _ hinv hstep =>
    inv_step hinv (act_cases hstep)

/-! ## Awaiting an address

By the invariant, whether the poll panics is read off the origins of the handle; whether it is ready
is a question of the loop future alone, which has sent or dropped its notification. -/

/-- **Observing the stop uses up an address for those taken from it afterwards, and for no others.**
For both loops, every run of the loop future, and any sequence of awaits, clones, downgrades,
upgrades and conversions: an address that is awaited for the first time panics if and only if it
goes back to a handle that was taken from an address after that had been awaited to completion; and
once the stop notification has been sent, every other one resolves with `Ok(())` at once. -/
theorem awaits_resolve_iff (E : EventLoop σ) (core : Core) (actor : σ)
    {ls : List (AwaitLabel σ ρ)} (h : (machine C S ρ E core actor).Run ls w) {i : ℕ} {x : Holder S}
    (hx : w.holders[i]? = some x) (hfirst : x.awaited = false) :
    ((w.polled x).1 = .panicked ↔ UsedUp w.origins i)
      ∧ (w.task.stop = false → ((w.polled x).1 = .ready (.ok ()) ↔ ¬ UsedUp w.origins i)) := by
  have hinv := inv_of_run h
  -- for an address that was not awaited itself only the origin is left
  have hspent : hasInner x.stopFuture = false ↔ UsedUp w.origins i := by
    simpa [hfirst, origins] using hinv.accounted.spent i x hx
  have hpanic : (w.polled x).1 = .panicked ↔ UsedUp w.origins i :=
    SharedFuture.poll_panicked.trans hspent
  refine ⟨hpanic, fun hstop => ⟨fun hready hused => ?_, fun hfresh => ?_⟩⟩
  -- a poll that panics is not ready
  · rw [hpanic.mpr hused] at hready
    cases hready
  · have hinner : hasInner x.stopFuture = true := by simpa using mt hspent.mp hfresh
    have hdone : w.task.pollOneshot = some (.ok ()) := by
      simp [LoopTask.pollOneshot, (hinv.task.fired hstop).2]
    rw [polled, hdone]
    exact SharedFuture.poll_ready hinner

/-- An actor with the provided hooks, and the steps in which it is stopped. -/
def awaitedActor : Machine (AwaitWorld Cell SharedState ℕ ℕ) (AwaitLabel ℕ ℕ) :=
  machine Cell SharedState ℕ (.fromChannel (.provided 0)) ⟨0, 0, 0⟩ 7

def stopped : List (AwaitLabel ℕ ℕ) :=
  [.task .advance, .task .advance, .task (.receive (.payload ⟨0, .stop⟩)), .task .advance,
    .task .lower, .task .fire]

/-- An address is cloned, the first one is awaited, and the clone is cloned again. -/
def freshRun : List (AwaitLabel ℕ ℕ) := [.use 0 .clone] ++ stopped ++ [.poll 0, .use 1 .clone]

theorem awaits_resolve_fresh :
    ¬ UsedUp (awaitedActor.after freshRun rfl).origins 2 := by
  have hx : (awaitedActor.after freshRun rfl).holders[2]?
      = some ⟨some (.addr ⟨⟨⟩, ⟨0, 0, 0⟩⟩), ⟨true⟩, some ⟨1, false⟩, false⟩ := rfl
  have hstop : (awaitedActor.after freshRun rfl).task.stop = false := rfl
  have hready : ((awaitedActor.after freshRun rfl).polled
      ⟨some (.addr ⟨⟨⟩, ⟨0, 0, 0⟩⟩), ⟨true⟩, some ⟨1, false⟩, false⟩).1 = .ready (.ok ()) := rfl
  have hrun := awaitedActor.run_after freshRun rfl
  exact ((awaits_resolve_iff _ _ _ hrun hx rfl).2 hstop).mp hready

/-- An address is awaited to completion; then it is cloned, downgraded, and upgraded again. -/
def spentRun : List (AwaitLabel ℕ ℕ) :=
  stopped ++ [.poll 0, .use 0 .clone, .use 0 .downgrade, .use 2 .upgrade]

/-- The clone and the upgraded address have never been awaited, and panic. -/
theorem await_of_clone_panics :
    ∃ w clone upgraded a b, awaitedActor.Run spentRun w ∧ w.task.stop = false
      ∧ w.holders[1]? = some clone ∧ clone.handle = some (.addr a) ∧ clone.awaited = false
      ∧ w.holders[3]? = some upgraded ∧ upgraded.handle = some (.addr b)
      ∧ upgraded.awaited = false
      ∧ (w.polled clone).1 = .panicked ∧ (w.polled upgraded).1 = .panicked :=
  ⟨awaitedActor.after spentRun rfl, ⟨some (.addr ⟨⟨⟩, ⟨0, 0, 0⟩⟩), ⟨false⟩, some ⟨0, true⟩, false⟩,
    ⟨some (.addr ⟨⟨⟩, ⟨0, 0, 0⟩⟩), ⟨false⟩, some ⟨2, false⟩, false⟩, _, _,
    awaitedActor.run_after spentRun rfl, rfl, rfl, rfl, rfl, rfl, rfl, rfl, rfl, rfl⟩

end AwaitWorld

end Hannibal
