import Hannibal.Lib.Custody
import Hannibal.Lib.Machine

/-!
# Hannibal.Registry — the registry of services

`REGISTRY` and the operations on it (`actor/service.rs`), called by any number of clients while the
instances of the services stop whenever they like. What an operation does between two accesses to
something shared is one step, so an instance may also stop in the middle of a lock section.

* **`AnyBox`** — the type-erased entry; `downcast` is the only way in.
* **`fromRegistryAndSpawn`**, **`register`**, **`replace`**, **`unregister`**, … — the operations.
* **`Act`** — what one step can do.
-/

namespace Hannibal

open Lts Custody

/-- `TypeId::of::<A>()`. -/
abbrev TypeKey := ℕ

/-- An instance of a service, named by its position. -/
structure Instance where
  type : TypeKey
  running : Bool
  deriving DecidableEq, Repr

/-- `Box<dyn Any>` around the `Addr<A>` of an instance. -/
structure AnyBox where
  type : TypeKey
  addr : ℕ
  deriving DecidableEq, Repr

def AnyBox.downcast (b : AnyBox) (A : TypeKey) : Option ℕ :=
  if b.type = A then some b.addr else none

/-- An entry of the map, with the call that inserted it. -/
abbrev Entry := Slot AnyBox

/-- The operations. An address that is passed is the number of its instance. -/
inductive ServiceCall where
  | fromRegistry (A : TypeKey)
  | register (A : TypeKey) (addr : ℕ)
  | replace (A : TypeKey) (addr : ℕ)
  | unregisterAddr (A : TypeKey) (addr : ℕ)
  | unregister (A : TypeKey)
  | tryFromRegistry (A : TypeKey)
  | alreadyRunning (A : TypeKey)
  deriving DecidableEq, Repr

namespace ServiceCall

def key : ServiceCall → TypeKey
  | fromRegistry A | register A _ | replace A _ | unregisterAddr A _ | unregister A
  | tryFromRegistry A | alreadyRunning A => A

/-- The address the call consumes. -/
def given : ServiceCall → Option ℕ
  | register _ i | replace _ i | unregisterAddr _ i => some i
  | _ => none

/-- The call takes the write lock. -/
def writes : ServiceCall → Bool
  | tryFromRegistry _ | alreadyRunning _ => false
  | _ => true

end ServiceCall

/-- What a call returns. -/
inductive ServiceReply where
  | addr (i : ℕ)
  | registered (i : ℕ) (replaced : Option ℕ)
  | serviceStillRunning
  | removed (old : Option ℕ)
  | tried (i : Option ℕ)
  | stopped (b : Option Bool)
  deriving DecidableEq, Repr

/-- Where a call stands: before its lock section, in it (`locked`, `spawning`, `inserting`), at the
ping of a debug build, or behind it. -/
inductive CallStage where
  | waiting
  | locked
  | spawning
  | inserting (i : ℕ)
  | pinging (i : ℕ)
  | done (o : ServiceReply)
  | dropped
  deriving DecidableEq, Repr

namespace CallStage

/-- The call holds the write lock. -/
def holding : CallStage → Bool
  | locked | spawning | inserting _ => true
  | _ => false

/-- The call has not taken effect. -/
def pending : CallStage → Bool
  | waiting | locked | spawning | inserting _ => true
  | _ => false

theorem pending_of_holding {st : CallStage} (h : st.holding = true) : st.pending = true := by
  cases st <;> first | rfl | cases h

/-- What the call returns, once that is settled. -/
def answer : CallStage → Option ServiceReply
  | pinging i => some (.addr i)
  | done o => some o
  | _ => none

theorem answer_of_pending {st : CallStage} (h : st.pending = true) : st.answer = none := by
  cases st <;> first | rfl | cases h

end CallStage

/-- A call in progress. `inserted` and `displaced` record what its write put into the map and what
it found there. -/
structure RegistryCall where
  call : ServiceCall
  stage : CallStage
  inserted : Option AnyBox
  displaced : Option Entry
  deriving DecidableEq, Repr

/-- The registry, its write lock, the instances and the calls. -/
structure RegistryWorld where
  registry : TypeKey → Option Entry
  lock : Option ℕ
  instances : List Instance
  calls : List RegistryCall

/-- Everything that can happen next: an actor is spawned, an instance stops, a call begins, goes on,
finds the lock contended, or its future is dropped. -/
inductive RegistryLabel where
  | spawn (A : TypeKey)
  | stop (i : ℕ)
  | begin (c : ServiceCall)
  | advance (k : ℕ)
  | contend (k : ℕ)
  | abandon (k : ℕ)
  deriving DecidableEq, Repr

namespace RegistryWorld

def init : RegistryWorld := ⟨fun _ => none, none, [], []⟩

def typeOf (w : RegistryWorld) (i : ℕ) : Option TypeKey := w.instances[i]?.map Instance.type

/-- `Addr::running`. -/
def running (w : RegistryWorld) (i : ℕ) : Bool := w.instances[i]?.any Instance.running

/-- What the registry holds for `A`, downcast to `Addr<A>`. -/
def entry (w : RegistryWorld) (A : TypeKey) : Option ℕ :=
  (w.registry A).bind fun e => e.item.downcast A

def setStage (w : RegistryWorld) (k : ℕ) (st : CallStage) : RegistryWorld :=
  { w with calls := w.calls.modify k fun c => { c with stage := st } }

/-- A new instance. -/
def spawn (w : RegistryWorld) (A : TypeKey) : RegistryWorld :=
  { w with instances := w.instances ++ [⟨A, true⟩] }

def stop (w : RegistryWorld) (i : ℕ) : RegistryWorld :=
  { w with instances := w.instances.modify i fun x => { x with running := false } }

/-- The lock is taken, and the guard is dropped. -/
def acquire (w : RegistryWorld) (k : ℕ) : RegistryWorld := { w with lock := some k }
def release (w : RegistryWorld) : RegistryWorld := { w with lock := none }

/-- `registry.insert(key, ..)` or `registry.remove(&key)` by call `k`. -/
def write (w : RegistryWorld) (k : ℕ) (A : TypeKey) (new : Option AnyBox) : RegistryWorld :=
  { w with
    registry := Function.update w.registry A (new.map fun b => ⟨b, k⟩)
    calls := w.calls.modify k fun c => { c with inserted := new, displaced := w.registry A } }

/-! ## The operations

Each operation is cut where it gives others a chance: at the lock, between its reads of the registry
and of an instance's flag, and at the ping. A lock section is several steps, but nobody else is in
one. -/

/-- `SpawnableService::from_registry_and_spawn`. In a debug build a ping follows the insertion; it
is somebody else's business whether it returns. -/
def fromRegistryAndSpawn (w : RegistryWorld) (k : ℕ) (A : TypeKey) :
    CallStage → Option RegistryWorld
  | .locked =>
    match (w.entry A).filter w.running with
    | some i => some (w.release.setStage k (.done (.addr i)))
    | none => some (w.setStage k .spawning)
  | .spawning => some ((w.spawn A).setStage k (.inserting w.instances.length))
  | .inserting i => some ((w.write k A (some ⟨A, i⟩)).release.setStage k (.pinging i))
  | .pinging i => some (w.setStage k (.done (.addr i)))
  | _ => none

/-- `Addr::register`. -/
def register (w : RegistryWorld) (k : ℕ) (A : TypeKey) (self : ℕ) : CallStage → Option RegistryWorld
  | .locked =>
    match w.registry A with
    | some existing =>
      if (existing.item.downcast A).any fun i => !w.running i then
        some (w.setStage k (.inserting self))
      else some (w.release.setStage k (.done .serviceStillRunning))
    | none => some (w.setStage k (.inserting self))
  | .inserting _ => some
      ((w.write k A (some ⟨A, self⟩)).release.setStage k (.done (.registered self (w.entry A))))
  | _ => none

/-- `Addr::replace`. -/
def replace (w : RegistryWorld) (k : ℕ) (A : TypeKey) (self : ℕ) : CallStage → Option RegistryWorld
  | .locked =>
    some ((w.write k A (some ⟨A, self⟩)).release.setStage k (.done (.removed (w.entry A))))
  | _ => none

/-- `Addr::unregister` and `Service::unregister`: the address is not looked at. -/
def unregister (w : RegistryWorld) (k : ℕ) (A : TypeKey) : CallStage → Option RegistryWorld
  | .locked => some ((w.write k A none).release.setStage k (.done (.removed (w.entry A))))
  | _ => none

/-- `Service::try_from_registry`, when `try_read` succeeds. -/
def tryFromRegistry (w : RegistryWorld) (k : ℕ) (A : TypeKey) : CallStage → Option RegistryWorld
  | .waiting =>
    if w.lock = none then some (w.setStage k (.done (.tried ((w.entry A).filter w.running))))
    else none
  | _ => none

/-- `Service::already_running`: what it says is whether the entry has stopped. -/
def alreadyRunning (w : RegistryWorld) (k : ℕ) (A : TypeKey) : CallStage → Option RegistryWorld
  | .waiting =>
    if w.lock = none then
      some (w.setStage k (.done (.stopped ((w.entry A).map fun i => !w.running i))))
    else none
  | _ => none

/-- A call goes on; the writers wait for the lock first. -/
def advance (w : RegistryWorld) (k : ℕ) : Option RegistryWorld :=
  match w.calls[k]? with
  | none => none
  | some c =>
    if c.call.writes ∧ c.stage = .waiting then
      if w.lock = none then some ((w.acquire k).setStage k .locked) else none
    else
      match c.call with
      | .fromRegistry A => w.fromRegistryAndSpawn k A c.stage
      | .register A i => w.register k A i c.stage
      | .replace A i => w.replace k A i c.stage
      | .unregisterAddr A _ | .unregister A => w.unregister k A c.stage
      | .tryFromRegistry A => w.tryFromRegistry k A c.stage
      | .alreadyRunning A => w.alreadyRunning k A c.stage

/-- An `Addr<A>` is the address of an instance of `A`. -/
def offers (w : RegistryWorld) (c : ServiceCall) : Bool :=
  match c.given with
  | none => true
  | some i => decide (w.typeOf i = some c.key)

def step (w : RegistryWorld) : RegistryLabel → Option RegistryWorld
  | .spawn A => some (w.spawn A)
  | .stop i => some (w.stop i)
  | .begin c =>
    if w.offers c then some { w with calls := w.calls ++ [⟨c, .waiting, none, none⟩] } else none
  | .advance k => w.advance k
  | .contend k =>
    match w.calls[k]? with
    | some ⟨.tryFromRegistry _, .waiting, _, _⟩ =>
      if w.lock = none then none else some (w.setStage k (.done (.tried none)))
    | _ => none
  | .abandon k =>
    match w.calls[k]? with
    | some ⟨_, .waiting, _, _⟩ | some ⟨_, .pinging _, _, _⟩ => some (w.setStage k .dropped)
    | _ => none

def machine : Machine RegistryWorld RegistryLabel := ⟨init, step⟩

/-! ## What one step can do

What is decided in a lock section (`Decides`), written (`Writes`), or passed on the way out
(`Passes`) are relations of their own, so that a proof which only needs to know that something is
written does not see the operations. -/

/-- The entry is absent or its instance has stopped. -/
def vacant (w : RegistryWorld) (A : TypeKey) : Prop := ∀ i, w.entry A = some i → w.running i = false

/-- A call that holds the lock goes on without touching the map. -/
inductive Decides (w : RegistryWorld) : ServiceCall → CallStage → CallStage → Prop where
  | spawning (A : TypeKey) (hvac : w.vacant A) : Decides w (.fromRegistry A) .locked .spawning
  | absent (A : TypeKey) (i : ℕ) (hnone : w.registry A = none) :
      Decides w (.register A i) .locked (.inserting i)
  | stopped (A : TypeKey) (i : ℕ) (j : ℕ) (hentry : w.entry A = some j)
      (hstop : w.running j = false) : Decides w (.register A i) .locked (.inserting i)

/-- A call leaves its lock section without having touched the map. -/
inductive Leaves (w : RegistryWorld) : ServiceCall → ServiceReply → Prop where
  | found (A : TypeKey) (i : ℕ) (hentry : w.entry A = some i) (hrun : w.running i = true) :
      Leaves w (.fromRegistry A) (.addr i)
  | refused (A : TypeKey) (i : ℕ) (e : Entry) (hreg : w.registry A = some e)
      (hrun : ∀ j, w.entry A = some j → w.running j = true) :
      Leaves w (.register A i) .serviceStillRunning

/-- A call writes, and leaves its lock section. -/
inductive Writes (w : RegistryWorld) : ServiceCall → CallStage → Option ℕ → CallStage → Prop where
  | spawned (A : TypeKey) (i : ℕ) :
      Writes w (.fromRegistry A) (.inserting i) (some i) (.pinging i)
  | registered (A : TypeKey) (i j : ℕ) :
      Writes w (.register A i) (.inserting j) (some i) (.done (.registered i (w.entry A)))
  | replaced (A : TypeKey) (i : ℕ) :
      Writes w (.replace A i) .locked (some i) (.done (.removed (w.entry A)))
  | unregisteredAddr (A : TypeKey) (i : ℕ) :
      Writes w (.unregisterAddr A i) .locked none (.done (.removed (w.entry A)))
  | unregistered (A : TypeKey) :
      Writes w (.unregister A) .locked none (.done (.removed (w.entry A)))

/-- A call goes on outside of any lock section. -/
inductive Passes (w : RegistryWorld) : ServiceCall → CallStage → CallStage → Prop where
  | pinged (A : TypeKey) (i : ℕ) : Passes w (.fromRegistry A) (.pinging i) (.done (.addr i))
  | tried (A : TypeKey) :
      Passes w (.tryFromRegistry A) .waiting (.done (.tried ((w.entry A).filter w.running)))
  | contended (A : TypeKey) (hheld : w.lock ≠ none) :
      Passes w (.tryFromRegistry A) .waiting (.done (.tried none))
  | read (A : TypeKey) : Passes w (.alreadyRunning A) .waiting
      (.done (.stopped ((w.entry A).map fun i => !w.running i)))
  | abandoned (c : ServiceCall) : Passes w c .waiting .dropped
  | unpinged (c : ServiceCall) (i : ℕ) : Passes w c (.pinging i) .dropped

/-- Everything one step can do. -/
inductive Act (w : RegistryWorld) : RegistryWorld → Prop where
  | spawn (A : TypeKey) : Act w (w.spawn A)
  | stop (i : ℕ) : Act w (w.stop i)
  | begin (c : ServiceCall) (hc : w.offers c = true) :
      Act w { w with calls := w.calls ++ [⟨c, .waiting, none, none⟩] }
  | enter (k : ℕ) (c : RegistryCall) (hk : w.calls[k]? = some c) (hst : c.stage = .waiting)
      (hwrites : c.call.writes = true) (hfree : w.lock = none) :
      Act w ((w.acquire k).setStage k .locked)
  | decide (k : ℕ) (c : RegistryCall) (st : CallStage) (hk : w.calls[k]? = some c)
      (hc : Decides w c.call c.stage st) : Act w (w.setStage k st)
  | leave (k : ℕ) (c : RegistryCall) (o : ServiceReply) (hk : w.calls[k]? = some c)
      (hst : c.stage = .locked) (hc : Leaves w c.call o) :
      Act w (w.release.setStage k (.done o))
  | create (k : ℕ) (c : RegistryCall) (A : TypeKey) (hk : w.calls[k]? = some c)
      (hc : c.call = .fromRegistry A) (hst : c.stage = .spawning) :
      Act w ((w.spawn A).setStage k (.inserting w.instances.length))
  | write (k : ℕ) (c : RegistryCall) (A : TypeKey) (new : Option ℕ) (st : CallStage)
      (hk : w.calls[k]? = some c) (hkey : c.call.key = A) (hc : Writes w c.call c.stage new st) :
      Act w ((w.write k A (new.map (⟨A, ·⟩))).release.setStage k st)
  | pass (k : ℕ) (c : RegistryCall) (st : CallStage) (hk : w.calls[k]? = some c)
      (hc : Passes w c.call c.stage st) : Act w (w.setStage k st)

variable {w w' : RegistryWorld} {k : ℕ} {A : TypeKey} {c : RegistryCall}

theorem entry_of_registry {e : Entry} (h : w.registry A = some e) :
    w.entry A = e.item.downcast A := by
  simp [entry, h]

theorem act_of_fromRegistry (hk : w.calls[k]? = some c) (hc : c.call = .fromRegistry A)
    (h : w.fromRegistryAndSpawn k A c.stage = some w') : Act w w' := by
  unfold fromRegistryAndSpawn at h
  split at h
  · next hst =>
    split at h
    -- an instance that is registered and running is found, and the lock given back
    · next i hfilter =>
      cases h
      obtain ⟨hentry, hrun⟩ := Option.filter_eq_some_iff.mp hfilter
      exact .leave k c _ hk hst (hc ▸ .found A i hentry hrun)
    · next hfilter =>
      cases h
      have hvac : w.vacant A := by
        intro i hentry
        simpa [hentry] using hfilter
      exact .decide k c _ hk (hc ▸ hst ▸ .spawning A hvac)
  · next hst => cases h; exact .create k c A hk hc hst
  · next i hst =>
    cases h
    exact .write k c A (some i) _ hk (hc ▸ rfl) (hc ▸ hst ▸ .spawned A i)
  · next i hst =>
    cases h
    exact .pass k c _ hk (hc ▸ hst ▸ .pinged A i)
  · cases h

theorem act_of_register {self : ℕ} (hk : w.calls[k]? = some c) (hc : c.call = .register A self)
    (h : w.register k A self c.stage = some w') : Act w w' := by
  unfold register at h
  split at h
  · next hst =>
    split at h
    · next e hreg =>
      -- what is registered may be replaced only if it has stopped
      split at h
      · next hany =>
        cases h
        obtain ⟨j, hj, hstop⟩ := (Option.any_eq_true _ _).mp hany
        rw [← entry_of_registry hreg] at hj
        exact .decide k c _ hk (hc ▸ hst ▸ .stopped A self j hj (by simpa using hstop))
      · next hany =>
        cases h
        refine .leave k c _ hk hst (hc ▸ .refused A self e hreg fun j hj => ?_)
        rw [entry_of_registry hreg] at hj
        simpa [hj] using hany
    · next hnone => cases h; exact .decide k c _ hk (hc ▸ hst ▸ .absent A self hnone)
  · next i hst =>
    cases h
    exact .write k c A (some self) _ hk (hc ▸ rfl) (hc ▸ hst ▸ .registered A self i)
  · cases h

theorem act_of_unregister (hk : w.calls[k]? = some c)
    (hc : (∃ i, c.call = .unregisterAddr A i) ∨ c.call = .unregister A)
    (h : w.unregister k A c.stage = some w') : Act w w' := by
  unfold unregister at h
  split at h
  · next hst =>
    cases h
    rcases hc with ⟨i, hc⟩ | hc
    · exact .write k c A none _ hk (hc ▸ rfl) (hc ▸ hst ▸ .unregisteredAddr A i)
    · exact .write k c A none _ hk (hc ▸ rfl) (hc ▸ hst ▸ .unregistered A)
  · cases h

theorem act_of_advance (h : w.advance k = some w') : Act w w' := by
  -- a call that waits enters its lock section if it can; each operation then has its own cases
  unfold advance at h
  split at h
  · cases h
  · next c hk =>
    split at h
    · next hwait =>
      split at h
      · next hfree => cases h; exact .enter k c hk hwait.2 hwait.1 hfree
      · cases h
    · split at h
      · next A hc => exact act_of_fromRegistry hk hc h
      · next A i hc => exact act_of_register hk hc h
      · next A i hc =>
        unfold replace at h
        split at h
        · next hst =>
          cases h
          exact .write k c A (some i) _ hk (hc ▸ rfl) (hc ▸ hst ▸ .replaced A i)
        · cases h
      · next A i hc => exact act_of_unregister hk (.inl ⟨i, hc⟩) h
      · next A hc => exact act_of_unregister hk (.inr hc) h
      · next A hc =>
        unfold tryFromRegistry at h
        split at h
        · next hst =>
          split at h
          · cases h; exact .pass k c _ hk (hc ▸ hst ▸ .tried A)
          · cases h
        · cases h
      · next A hc =>
        unfold alreadyRunning at h
        split at h
        · next hst =>
          split at h
          · cases h; exact .pass k c _ hk (hc ▸ hst ▸ .read A)
          · cases h
        · cases h

/-- **Nothing else happens.** -/
theorem act_cases {l : RegistryLabel} (h : w.step l = some w') : Act w w' := by
  cases l with
  | spawn A => cases h; exact .spawn A
  | stop i => cases h; exact .stop i
  | begin c =>
    simp only [step] at h
    split at h
    · next hc => cases h; exact .begin c hc
    · cases h
  | advance k => exact act_of_advance h
  -- a `try_read` fails only while somebody has the lock
  | contend k =>
    simp only [step] at h
    split at h
    · next A ins dis hk =>
      obtain ⟨hheld, ⟨⟩⟩ := Option.ite_none_left_eq_some.mp h
      exact .pass k _ _ hk (.contended A hheld)
    · cases h
  | abandon k =>
    simp only [step] at h
    split at h
    · next c ins dis hk => cases h; exact .pass k _ _ hk (.abandoned c)
    · next c i ins dis hk => cases h; exact .pass k _ _ hk (.unpinged c i)
    · cases h

end RegistryWorld

end Hannibal
