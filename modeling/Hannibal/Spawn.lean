import Hannibal.World

/-!
# Hannibal.Spawn — the spawn path of `from_registry`

What `SpawnableService::from_registry_and_spawn` (`actor/service.rs`) does once it has found no
running instance: it creates an event loop with an unbounded mailbox, spawns and detaches its
future, registers the address, releases the registry and, in a debug build, asserts that a ping of
the new instance succeeds. Meanwhile the loop runs, and as soon as the registry is released the
address is public.

* **`SpawnSetup`** — the service type and the build.
* **`SpawnWorld`** — the new instance with its clients, the registry's entry for the type, and where
  the call stands.
* **`SpawnWorld.Act`**, **`act_cases`** — everything one step can do.
-/

namespace Hannibal

open Lts Chan

/-- A service type, with what `Self::default()` gives; whether debug assertions are enabled; the
entry the call has found, if any, and the address that `EventLoop::create` returns, which is new. -/
structure SpawnSetup (σ : Type) where
  actor : Actor σ
  default : σ
  debug : Bool
  entry : Option ℕ
  addr : ℕ
  fresh : entry ≠ some addr

/-- `EventLoop::unbounded()`. -/
def SpawnSetup.eventLoop {σ : Type} (S : SpawnSetup σ) : EventLoop σ := .fromChannel S.actor

/-- Where the call stands. -/
inductive SpawnStage where
  /-- the loop is spawned, and the registry is still locked -/
  | inserting
  | unlocking
  /-- at `debug_assert!(addr.ping().await.is_ok(), "service failed ping")`, and in it, with the ping
  as operation `i` of the instance -/
  | asserting
  | pinging (i : ℕ)
  | returned (addr : ℕ)
  /-- the assertion has failed -/
  | failed
  /-- the call's future was dropped -/
  | dropped
  deriving DecidableEq, Repr

/-- The new instance and everyone who uses it, the registry's entry for the type, the address the
call has inserted, and where the call stands. -/
structure SpawnWorld (Q : Type → Type) (σ ρ : Type) where
  service : World Q σ ρ
  entry : Option ℕ
  inserted : Option ℕ
  stage : SpawnStage

/-- Everything that can happen next. -/
inductive SpawnLabel (σ ρ : Type) where
  /-- the instance's loop moves, or another client uses the address -/
  | service (l : Label σ ρ)
  /-- the call goes on, or its future is dropped -/
  | advance
  | giveUp
  /-- another client gets the address from the registry, or changes the entry -/
  | lookup
  | replace (addr : ℕ)
  | unregister

variable {Q : Type → Type} {σ ρ : Type}

namespace SpawnWorld

/-- The call holds the write lock. -/
def locked (w : SpawnWorld Q σ ρ) : Bool :=
  match w.stage with
  | .inserting | .unlocking => true
  | _ => false

/-- The call still has its `addr`. -/
def holdsAddr (w : SpawnWorld Q σ ρ) : Bool :=
  match w.stage with
  | .inserting | .unlocking | .asserting | .pinging _ => true
  | _ => false

/-- The handles of the instance that the call and the registry hold. -/
def reserved (S : SpawnSetup σ) (w : SpawnWorld Q σ ρ) : ℕ :=
  (if w.holdsAddr then 1 else 0) + (if w.entry = some S.addr then 1 else 0)

/-- Another client has a strong handle of the instance. -/
def spare (S : SpawnSetup σ) (w : SpawnWorld Q σ ρ) : Bool :=
  decide (w.reserved S < w.service.handles)

/-- Other clients use handles of their own, and leave the call's ping alone. -/
def permitted (S : SpawnSetup σ) (w : SpawnWorld Q σ ρ) : Label σ ρ → Bool
  | .drop | .clone => w.spare S
  | .begin op =>
    match op.via with
    | .strong => w.spare S
    | .weak | .context => true
  | .advance i | .abandon i => decide (w.stage ≠ .pinging i)
  | _ => true

variable [AsyncChannel Q]

/-- The new instance as `create` leaves it. -/
def init (Q : Type → Type) [AsyncChannel Q] (ρ : Type) (S : SpawnSetup σ) : SpawnWorld Q σ ρ :=
  ⟨.init Q ρ none S.default, S.entry, none, .inserting⟩

/-- The call goes on. A panic of the assertion drops its `addr`; so does the return, which hands it
to the caller. -/
def advance (S : SpawnSetup σ) (w : SpawnWorld Q σ ρ) : Option (SpawnWorld Q σ ρ) :=
  match w.stage with
  | .inserting => (w.service.step S.eventLoop .clone).map fun s =>
      ⟨s, some S.addr, some S.addr, .unlocking⟩
  | .unlocking => some { w with stage := if S.debug then .asserting else .returned S.addr }
  | .asserting => (w.service.step S.eventLoop (.begin Addr.ping)).map fun s =>
      { w with service := s, stage := .pinging w.service.flights.length }
  | .pinging i =>
    match w.service.flights[i]? with
    | none => none
    | some ⟨_, .returned (.ok _)⟩ => some { w with stage := .returned S.addr }
    | some ⟨_, .returned (.error _)⟩ => some { w with stage := .failed }
    | some _ => (w.service.step S.eventLoop (.advance i)).map fun s => { w with service := s }
  | _ => none

def step (S : SpawnSetup σ) (w : SpawnWorld Q σ ρ) : SpawnLabel σ ρ → Option (SpawnWorld Q σ ρ)
  | .service l =>
    if w.permitted S l then (w.service.step S.eventLoop l).map fun s => { w with service := s }
    else none
  | .advance => w.advance S
  | .giveUp =>
    match w.stage with
    | .pinging i => (w.service.step S.eventLoop (.abandon i)).map fun s =>
        { w with service := s, stage := .dropped }
    | _ => none
  | .lookup =>
    if !w.locked && decide (w.entry = some S.addr) && w.service.task.running then
      (w.service.step S.eventLoop .clone).map fun s => { w with service := s }
    else none
  | .replace addr =>
    if !w.locked && (decide (addr ≠ S.addr) || w.spare S) then some { w with entry := some addr }
    else none
  | .unregister => if !w.locked then some { w with entry := none } else none

def machine (Q : Type → Type) [AsyncChannel Q] (ρ : Type) (S : SpawnSetup σ) :
    Machine (SpawnWorld Q σ ρ) (SpawnLabel σ ρ) :=
  ⟨init Q ρ S, step S⟩

/-! ## What one step can do

`from_registry_and_spawn` runs next to whatever else uses the registry and the new address: its own
steps insert the address, give back the lock and, with debug assertions, ping; a lookup, a
replacement and an unregistration belong to other tasks. -/

/-- Everything one step can do. -/
inductive Act (S : SpawnSetup σ) (w : SpawnWorld Q σ ρ) :
    SpawnLabel σ ρ → SpawnWorld Q σ ρ → Prop where
  | service (l : Label σ ρ) (s : World Q σ ρ) (hl : w.permitted S l = true)
      (hs : w.service.step S.eventLoop l = some s) : Act S w (.service l) { w with service := s }
  | insert (s : World Q σ ρ) (hst : w.stage = .inserting)
      (hs : w.service.step S.eventLoop .clone = some s) :
      Act S w .advance ⟨s, some S.addr, some S.addr, .unlocking⟩
  | unlock (hst : w.stage = .unlocking) :
      Act S w .advance { w with stage := if S.debug then .asserting else .returned S.addr }
  | assert (s : World Q σ ρ) (hst : w.stage = .asserting)
      (hs : w.service.step S.eventLoop (.begin Addr.ping) = some s) :
      Act S w .advance { w with service := s, stage := .pinging w.service.flights.length }
  | ping (i : ℕ) (s : World Q σ ρ) (hst : w.stage = .pinging i)
      (hs : w.service.step S.eventLoop (.advance i) = some s) :
      Act S w .advance { w with service := s }
  | pinged (i : ℕ) (op : Operation σ ρ) (r : Option ρ) (hst : w.stage = .pinging i)
      (hf : w.service.flights[i]? = some ⟨op, .returned (.ok r)⟩) :
      Act S w .advance { w with stage := .returned S.addr }
  | fail (i : ℕ) (op : Operation σ ρ) (e : ActorError) (hst : w.stage = .pinging i)
      (hf : w.service.flights[i]? = some ⟨op, .returned (.error e)⟩) :
      Act S w .advance { w with stage := .failed }
  | giveUp (i : ℕ) (s : World Q σ ρ) (hst : w.stage = .pinging i)
      (hs : w.service.step S.eventLoop (.abandon i) = some s) :
      Act S w .giveUp { w with service := s, stage := .dropped }
  | lookup (s : World Q σ ρ) (hopen : w.locked = false)
      (hs : w.service.step S.eventLoop .clone = some s) : Act S w .lookup { w with service := s }
  | replace (addr : ℕ) (hopen : w.locked = false) (hspare : addr = S.addr → w.spare S = true) :
      Act S w (.replace addr) { w with entry := some addr }
  | unregister (hopen : w.locked = false) : Act S w .unregister { w with entry := none }

variable {S : SpawnSetup σ} {w w' : SpawnWorld Q σ ρ} {l : SpawnLabel σ ρ}

theorem act_of_advance (h : w.advance S = some w') : Act S w .advance w' := by
  unfold advance at h
  split at h
  · next hst =>
    obtain ⟨s, hs, rfl⟩ := Option.map_eq_some_iff.mp h
    exact .insert s hst hs
  · next hst => cases h; exact .unlock hst
  · next hst =>
    obtain ⟨s, hs, rfl⟩ := Option.map_eq_some_iff.mp h
    exact .assert s hst hs
  -- the ping of the debug assertion: answered, refused, or on its way
  · next i hst =>
    split at h
    · cases h
    · next op r hf => cases h; exact .pinged i op r hst hf
    · next op e hf => cases h; exact .fail i op e hst hf
    · obtain ⟨s, hs, rfl⟩ := Option.map_eq_some_iff.mp h
      exact .ping i s hst hs
  · cases h

/-- **Nothing else happens.** -/
theorem act_cases (h : w.step S l = some w') : Act S w l w' := by
  cases l with
  | service l =>
    simp only [step] at h
    split at h
    · next hl =>
      obtain ⟨s, hs, rfl⟩ := Option.map_eq_some_iff.mp h
      exact .service l s hl hs
    · cases h
  | advance => exact act_of_advance h
  | giveUp =>
    simp only [step] at h
    split at h
    · next i hst =>
      obtain ⟨s, hs, rfl⟩ := Option.map_eq_some_iff.mp h
      exact .giveUp i s hst hs
    · cases h
  -- the registry is read once its lock is free
  | lookup =>
    simp only [step, Bool.and_eq_true, Bool.not_eq_true'] at h
    split at h
    · next hguard =>
      obtain ⟨s, hs, rfl⟩ := Option.map_eq_some_iff.mp h
      exact .lookup s hguard.1.1 hs
    · cases h
  | replace addr =>
    simp only [step, Bool.and_eq_true, Bool.not_eq_true', Bool.or_eq_true, decide_eq_true_eq] at h
    split at h
    · next hguard =>
      cases h
      exact .replace addr hguard.1 fun heq => hguard.2.resolve_left (not_not_intro heq)
    · cases h
  | unregister =>
    simp only [step, Bool.not_eq_true'] at h
    split at h
    · next hopen => cases h; exact .unregister hopen
    · cases h

/-- Of a step the instance sees one of its own, or nothing. -/
theorem service_of_act (h : Act S w l w') :
    w'.service = w.service ∨ ∃ k, w.service.step S.eventLoop k = some w'.service := by
  cases h with
  | service k s hl hs => exact .inr ⟨k, hs⟩
  | insert s hst hs => exact .inr ⟨_, hs⟩
  | assert s hst hs => exact .inr ⟨_, hs⟩
  | ping i s hst hs => exact .inr ⟨_, hs⟩
  | giveUp i s hst hs => exact .inr ⟨_, hs⟩
  | lookup s hopen hs => exact .inr ⟨_, hs⟩
  | _ => exact .inl rfl

/-- **In every run the instance goes through a run of its own**, as any other actor with its
clients. -/
theorem service_run {ls : List (SpawnLabel σ ρ)} (h : (machine Q ρ S).Run ls w) :
    ∃ ks, (World.machine Q ρ S.eventLoop none S.default).Run ks w.service :=
  h.projects (π := service) rfl fun _ _ _ hstep => service_of_act (act_cases hstep)

end SpawnWorld

end Hannibal
