import Hannibal.Cancelling
import Hannibal.Client
import Hannibal.Mailbox

/-!
# Hannibal.Builder — what the settings of an actor come to

`setup_actor` (`actor/builder.rs`) returns an `ActorBuilder`, whose methods set the channel, the
timeout and the restart strategy; `on_stream` makes a `StreamActorBuilder` of it, with the same
methods but the last. Which methods there are is decided by their types: a builder that recreates
its actor has no `on_stream`, and one with a stream no `recreate_from_default`. `Spawnable`,
`DefaultSpawnable` and `StreamSpawnable` (`actor/spawnable.rs`) make the same event loops without a
builder.

* **`setupActor`** — the builder, as a machine whose labels are its methods.
* **`builds_iff`** — which chains of methods there are, and do not panic.
* **`settings_hold`** — what a chain comes to, in every run of the actor that it spawns.
* **`machine_agree`**, **`spawn_paths_agree`** — what makes no difference.
-/

namespace Hannibal

open Lts Chan
open AsyncChannel (state)
open Lts.Machine (lastOf)

/-- The methods of both builders. -/
inductive Setting where
  | bounded (capacity : ℕ)
  | unbounded
  | timeout (timeout : ℕ)
  | failOnTimeout (fail : Bool)
  | recreateFromDefault
  | onStream
  deriving DecidableEq, Repr

/-- The fields both builders have. A channel is known by its capacity. -/
structure BuilderFields (σ : Type) where
  actor : σ
  config : EventLoopConfig
  channel : Option (Option ℕ+)

/-- `ActorBuilder<A, R>`, with the type parameter `R`, and `StreamActorBuilder<A, S>`. -/
inductive Builder (σ : Type) where
  | actor (fields : BuilderFields σ) (restart : RestartStrategy)
  | stream (fields : BuilderFields σ)

/-- An `OwningAddr` fresh from `spawn_owning`: the event loop, and what it was created with. -/
structure Spawned (σ : Type) where
  loop : EventLoop σ
  capacity : Option ℕ+
  actor : σ

variable {σ : Type}

namespace BuilderFields

/-- `Channel::bounded`. `async_channel::bounded` panics if there is no room at all. -/
def bounded (b : BuilderFields σ) (capacity : ℕ) : Option (BuilderFields σ) :=
  if h : 0 < capacity then some { b with channel := some (some ⟨capacity, h⟩) } else none

def unbounded (b : BuilderFields σ) : BuilderFields σ := { b with channel := some none }

def timeout (b : BuilderFields σ) (timeout : ℕ) : BuilderFields σ :=
  { b with config := { b.config with timeout := some timeout } }

def failOnTimeout (b : BuilderFields σ) (fail : Bool) : BuilderFields σ :=
  { b with config := { b.config with failOnTimeout := fail } }

/-- `self.channel.unwrap_or_else(Channel::unbounded)`. -/
def resolveChannel (b : BuilderFields σ) : Option ℕ+ := b.channel.getD none

end BuilderFields

namespace Builder

/-- `ActorBuilder::new`. -/
def new (actor : σ) : Builder σ := .actor ⟨actor, .default, none⟩ .restartOnly

def fields : Builder σ → BuilderFields σ
  | .actor b _ => b
  | .stream b => b

def withFields (b : BuilderFields σ) : Builder σ → Builder σ
  | .actor _ r => .actor b r
  | .stream _ => .stream b

/-- `recreate_from_default`, which an `ActorBuilder` has. -/
def recreateFromDefault : Builder σ → Option (Builder σ)
  | .actor b _ => some (.actor b .recreateFromDefault)
  | .stream _ => none

/-- `on_stream`, which an `ActorBuilder<A, RestartOnly>` has. -/
def onStream : Builder σ → Option (Builder σ)
  | .actor b .restartOnly => some (.stream b)
  | _ => none

/-- One method call. `none`: the method does not exist, or panics. -/
def set (b : Builder σ) : Setting → Option (Builder σ)
  | .bounded capacity => (b.fields.bounded capacity).map fun f => b.withFields f
  | .unbounded => some (b.withFields b.fields.unbounded)
  | .timeout t => some (b.withFields (b.fields.timeout t))
  | .failOnTimeout fail => some (b.withFields (b.fields.failOnTimeout fail))
  | .recreateFromDefault => b.recreateFromDefault
  | .onStream => b.onStream

/-- `spawn_owning`, of an actor with these hooks. -/
def spawnOwning (hooks : Actor σ) : Builder σ → Spawned σ
  | .actor b r => ⟨⟨hooks, b.config, r, false⟩, b.resolveChannel, b.actor⟩
  | .stream b => ⟨⟨hooks, b.config, .nonRestartable, true⟩, b.resolveChannel, b.actor⟩

end Builder

/-- `setup_actor(actor)`, followed by any chain of methods. -/
def setupActor (actor : σ) : Machine (Builder σ) Setting := ⟨.new actor, Builder.set⟩

/-- `Spawnable::spawn_owning`. -/
def Spawnable.spawnOwning (hooks : Actor σ) (actor : σ) : Spawned σ :=
  ⟨.fromChannel hooks, none, actor⟩

/-- `DefaultSpawnable::spawn_default_owning`, if `Default::default` returns. -/
def DefaultSpawnable.spawnDefaultOwning (hooks : Actor σ) : Option (Spawned σ) :=
  match hooks.default 0 with
  | .returned d => some ⟨.fromChannel hooks, none, d⟩
  | .panicked | .pends => none

/-- `StreamSpawnable::spawn_owning_on_stream`. -/
def StreamSpawnable.spawnOwningOnStream (hooks : Actor σ) (actor : σ) : Spawned σ :=
  ⟨{ EventLoop.fromChannel hooks with onStream := true }, none, actor⟩

/-! ## What is set

A chain of methods is a run of `setupActor`. Each field is set by the last method that sets it
(`lastOf`), so what a builder spawns is read off the chain; which chains there are is decided by the
types alone, apart from the `assert` on the capacity. -/

namespace Setting

def channel : Setting → Option (Option ℕ+)
  | .bounded capacity => if h : 0 < capacity then some (some ⟨capacity, h⟩) else none
  | .unbounded => some none
  | _ => none

def time : Setting → Option (Option ℕ)
  | .timeout t => some (some t)
  | _ => none

def fail : Setting → Option Bool
  | .failOnTimeout fail => some fail
  | _ => none

/-- The typestate a method leads to. -/
def kind : Setting → Option (RestartStrategy × Bool)
  | .recreateFromDefault => some (.recreateFromDefault, false)
  | .onStream => some (.nonRestartable, true)
  | _ => none

end Setting

namespace Builder

/-- The restart strategy `spawn_owning` uses, and whether there is a stream. -/
def kind : Builder σ → RestartStrategy × Bool
  | .actor _ r => (r, false)
  | .stream _ => (.nonRestartable, true)

@[simp] theorem fields_withFields (b : Builder σ) (f : BuilderFields σ) :
    (b.withFields f).fields = f := by
  cases b <;> rfl

@[simp] theorem kind_withFields (b : Builder σ) (f : BuilderFields σ) :
    (b.withFields f).kind = b.kind := by
  cases b <;> rfl

theorem spawnOwning_eq (hooks : Actor σ) (b : Builder σ) : b.spawnOwning hooks
    = ⟨⟨hooks, b.fields.config, b.kind.1, b.kind.2⟩, b.fields.resolveChannel, b.fields.actor⟩ := by
  cases b <;> rfl

variable {b b' : Builder σ} {m : Setting}

/-- **One method sets one thing.** -/
theorem set_eq (h : b.set m = some b') :
    b'.fields.actor = b.fields.actor
      ∧ b'.fields.resolveChannel = m.channel.getD b.fields.resolveChannel
      ∧ b'.fields.config.timeout = m.time.getD b.fields.config.timeout
      ∧ b'.fields.config.failOnTimeout = m.fail.getD b.fields.config.failOnTimeout
      ∧ b'.kind = m.kind.getD b.kind := by
  cases m with
  -- a channel of capacity zero is not to be had: `async_channel::bounded` panics
  | bounded capacity =>
    obtain ⟨f, hf, rfl⟩ := Option.map_eq_some_iff.mp h
    unfold BuilderFields.bounded at hf
    split at hf
    · next hpos =>
      cases hf
      simp [Setting.channel, Setting.time, Setting.fail, Setting.kind,
        BuilderFields.resolveChannel, hpos]
    · cases hf
  | unbounded | timeout t | failOnTimeout fail =>
    cases h
    simp [Setting.channel, Setting.time, Setting.fail, Setting.kind, BuilderFields.unbounded,
      BuilderFields.timeout, BuilderFields.failOnTimeout, BuilderFields.resolveChannel]
  -- only a builder without a stream has this method
  | recreateFromDefault =>
    cases b with
    | actor f r => cases h; exact ⟨rfl, rfl, rfl, rfl, rfl⟩
    | stream f => cases h
  -- only a builder that has not been told to recreate its actor has this one
  | onStream =>
    cases b with
    | actor f r =>
      cases r with
      | restartOnly => cases h; exact ⟨rfl, rfl, rfl, rfl, rfl⟩
      | nonRestartable | recreateFromDefault => cases h
    | stream f => cases h

/-- Which methods there are. -/
theorem set_isSome : (b.set m).isSome = true ↔ m ≠ .bounded 0
    ∧ (m = .recreateFromDefault → b.kind.2 = false)
    ∧ (m = .onStream → b.kind = (.restartOnly, false)) := by
  cases m with
  | bounded capacity =>
    rcases Nat.eq_zero_or_pos capacity with rfl | hpos
    · simp [set, BuilderFields.bounded]
    · simp [set, BuilderFields.bounded, hpos, hpos.ne']
  | unbounded | timeout t | failOnTimeout fail => simp [set]
  | recreateFromDefault => cases b <;> simp [set, recreateFromDefault, kind]
  | onStream =>
    cases b with
    | actor f r => cases r <;> simp [set, onStream, kind]
    | stream f => simp [set, onStream, kind]

end Builder

section Chains

variable {a : σ} {b : Builder σ} {ms : List Setting} {m : Setting}

/-- The chains that compile and do not panic. -/
structure Chain (ms : List Setting) : Prop where
  room : .bounded 0 ∉ ms
  once : ms.count .onStream ≤ 1
  apart : .onStream ∈ ms → .recreateFromDefault ∉ ms

theorem chain_snoc : Chain (ms ++ [m]) ↔ Chain ms ∧ m ≠ .bounded 0
    ∧ (m = .recreateFromDefault → .onStream ∉ ms)
    ∧ (m = .onStream → .onStream ∉ ms ∧ .recreateFromDefault ∉ ms) := by
  constructor
  -- the last method against those before it
  · rintro ⟨hroom, honce, hapart⟩
    simp only [List.mem_append, List.mem_singleton, not_or] at hroom hapart
    rw [List.count_append] at honce
    refine ⟨⟨hroom.1, by omega, fun hs => (hapart (.inl hs)).1⟩, Ne.symm hroom.2, ?_, ?_⟩
    · rintro rfl hs
      exact (hapart (.inl hs)).2 rfl
    · rintro rfl
      have hnone : ms.count .onStream = 0 := by
        rw [List.count_singleton_self] at honce
        omega
      exact ⟨List.count_eq_zero.mp hnone, (hapart (.inr rfl)).1⟩
  · rintro ⟨⟨hroom, honce, hapart⟩, hm, hrecreate, hstream⟩
    refine ⟨?_, ?_, ?_⟩
    · simp only [List.mem_append, List.mem_singleton, not_or]
      exact ⟨hroom, Ne.symm hm⟩
    · rw [List.count_append]
      by_cases hms : m = .onStream
      · subst hms
        rw [List.count_eq_zero.mpr (hstream rfl).1, List.count_singleton_self]
      · rw [List.count_singleton, if_neg (by simpa using hms)]
        exact honce
    · simp only [List.mem_append, List.mem_singleton, not_or]
      rintro (hs | rfl)
      · exact ⟨hapart hs, fun heq => hrecreate heq.symm hs⟩
      · exact ⟨(hstream rfl).2, nofun⟩

/-- The restart strategy of a chain, and whether it has a stream. -/
def kindOf (ms : List Setting) : RestartStrategy × Bool :=
  if .onStream ∈ ms then (.nonRestartable, true)
  else if .recreateFromDefault ∈ ms then (.recreateFromDefault, false) else (.restartOnly, false)

theorem kind_of_run (h : (setupActor a).Run ms b) : b.kind = kindOf ms := by
  induction h with
  | start => rfl
  | @snoc ms b m b' run hset ih =>
    have hset : b.set m = some b' := hset
    obtain ⟨-, -, -, -, hkind⟩ := Builder.set_eq hset
    obtain ⟨-, hrecreate, hstream⟩ := Builder.set_isSome.mp (Option.isSome_of_eq_some hset)
    rw [hkind, ih]
    rw [ih] at hrecreate hstream
    unfold kindOf at hrecreate hstream ⊢
    cases m with
    -- its type excludes that a stream was attached before
    | recreateFromDefault =>
      have hnot : .onStream ∉ ms := fun hs => by simp [hs] at hrecreate
      simp [Setting.kind, hnot]
    | onStream => simp [Setting.kind]
    | _ => simp [Setting.kind]

/-- **A chain of methods compiles and does not panic** unless it asks for a mailbox without room,
for two streams, or for a stream and for `recreate_from_default`. -/
theorem builds_iff : (∃ b, (setupActor a).Run ms b) ↔ Chain ms := by
  -- over the chain from its end, as the methods are called one after the other
  induction ms using List.reverseRecOn with
  | nil => exact iff_of_true ⟨_, .start⟩ ⟨List.not_mem_nil, Nat.zero_le 1, nofun⟩
  | append_singleton ms m ih =>
    rw [chain_snoc, ← ih]
    constructor
    · rintro ⟨b', h⟩
      obtain ⟨b, hrun, hset⟩ := h.snoc_inv
      obtain ⟨hroom, hrecreate, hstream⟩ := Builder.set_isSome.mp (Option.isSome_of_eq_some hset)
      rw [kind_of_run hrun, kindOf] at hrecreate hstream
      refine ⟨⟨b, hrun⟩, hroom, fun hm hs => ?_, fun hm => ⟨fun hs => ?_, fun hr => ?_⟩⟩
      · simp [hs] at hrecreate
        exact hrecreate hm
      · simp [hs] at hstream
        exact hstream hm
      · have hstream := hstream hm
        by_cases hs : .onStream ∈ ms <;> simp [hs, hr] at hstream
    · rintro ⟨⟨b, hrun⟩, hroom, hrecreate, hstream⟩
      have hsome : (b.set m).isSome = true := by
        refine Builder.set_isSome.mpr ⟨hroom, fun hm => ?_, fun hm => ?_⟩
        · rw [kind_of_run hrun, kindOf, if_neg (hrecreate hm)]
          split <;> rfl
        · rw [kind_of_run hrun, kindOf, if_neg (hstream hm).1, if_neg (hstream hm).2]
      obtain ⟨b', hset⟩ := Option.isSome_iff_exists.mp hsome
      exact ⟨b', hrun.snoc hset⟩

/-- **Whatever is set last counts**, in whatever order different things are set. -/
theorem spawned_of_run (hooks : Actor σ) (h : (setupActor a).Run ms b) : b.spawnOwning hooks
    = { loop := ⟨hooks, ⟨(lastOf Setting.time ms).getD none, (lastOf Setting.fail ms).getD false⟩,
          (kindOf ms).1, (kindOf ms).2⟩
        capacity := (lastOf Setting.channel ms).getD none
        actor := a } := by
  have htime := h.register (f := Setting.time) (g := fun b => b.fields.config.timeout)
    fun _ _ _ hset => (Builder.set_eq hset).2.2.1
  have hfail := h.register (f := Setting.fail) (g := fun b => b.fields.config.failOnTimeout)
    fun _ _ _ hset => (Builder.set_eq hset).2.2.2.1
  have hchannel := h.register (f := Setting.channel) (g := fun b => b.fields.resolveChannel)
    fun _ _ _ hset => (Builder.set_eq hset).2.1
  have hactor : b.fields.actor = a := h.invariant (I := fun b => b.fields.actor = a) rfl
    fun _ _ _ hold hset => (Builder.set_eq hset).1.trans hold
  have hconfig : b.fields.config
      = ⟨(lastOf Setting.time ms).getD none, (lastOf Setting.fail ms).getD false⟩ :=
    congrArg₂ EventLoopConfig.mk htime hfail
  rw [Builder.spawnOwning_eq, kind_of_run h, hactor, hconfig, hchannel]
  rfl

end Chains

/-! ## Every run of the actor

`SettingsInv` says what the loop's configuration allows to appear in its trace. With the settings
read off the chain this is a statement about the methods that were called. -/

/-- A call is cut short only by a timeout that was set, `cancelled` is called only under
`fail_on_timeout`, and a loop on a stream does not get past a restart. -/
structure SettingsInv {ρ : Type} (E : EventLoop σ) (s : LoopState σ ρ) : Prop where
  expired : ∀ c, .leave c .expired ∈ s.trace → E.config.timeout ≠ none
  cancelled : .enter (.hook .cancelled) ∈ s.trace →
    E.config.timeout ≠ none ∧ E.config.failOnTimeout = true
  restarted : E.onStream = true → ∀ k, .taken (.restart k) ∈ s.trace → s.pc = .panicked

section Runs

variable {ρ : Type} {E : EventLoop σ} {s s' : LoopState σ ρ} {i : Option (Input σ ρ)}

theorem settingsInv_step (hinv : SettingsInv E s) (h : EventLoop.Step E s i s') :
    SettingsInv E s' := by
  -- a loop on a stream has not taken a Restart if it can still take a step
  have hno : E.onStream = true → ∀ k, .taken (.restart k) ∉ s.trace := fun hE k hk => by
    have hended : s.pc.ended = true := by rw [hinv.restarted hE k hk]; rfl
    simp [EventLoop.not_ended_of_step h] at hended
  cases h with
  | taskIgnored c f hpc a hend htimeout hfail =>
    exact ⟨fun _ _ => htimeout, fun hc => hinv.cancelled (by simpa using hc),
      fun hE k hk => absurd (by simpa using hk) (hno hE k)⟩
  | taskCancelled c f hpc a hend htimeout hfail =>
    exact ⟨fun _ _ => htimeout, fun _ => ⟨htimeout, hfail⟩,
      fun hE k hk => absurd (by simpa using hk) (hno hE k)⟩
  | takeRestart hpc hstream | keepRestart hpc hstream =>
    exact ⟨fun c hc => hinv.expired c (by simpa using hc),
      fun hc => hinv.cancelled (by simpa using hc), fun hE => by simp [hstream] at hE⟩
  | panicRestart hpc hstream =>
    exact ⟨fun c hc => hinv.expired c (by simpa using hc),
      fun hc => hinv.cancelled (by simpa using hc), fun _ _ _ => rfl⟩
  | _ =>
    exact ⟨fun c hc => hinv.expired c (by simpa using hc),
      fun hc => hinv.cancelled (by simpa using hc),
      fun hE k hk => absurd (by simpa using hk) (hno hE k)⟩

theorem settingsInv_task {t t' : LoopTask σ ρ} {l : TaskLabel σ ρ} (hinv : SettingsInv E t.loop)
    (h : LoopTask.Step E t l t') : SettingsInv E t'.loop := by
  cases h with
  | advance s' hs hnotify => exact settingsInv_step hinv hs
  | receive i s' hs => exact settingsInv_step hinv hs
  | drop hend hnotify =>
    refine ⟨hinv.expired, hinv.cancelled, fun hE k hk => ?_⟩
    simp [hinv.restarted hE k hk, Pc.ended] at hend
  | _ => exact hinv

variable {Q : Type → Type} [AsyncChannel Q]

theorem settingsInv_of_run {capacity : Option ℕ+} {a : σ} {ls : List (Label σ ρ)} {w : World Q σ ρ}
    (h : (World.machine Q ρ E capacity a).Run ls w) : SettingsInv E w.task.loop := by
  obtain ⟨ks, hrun⟩ := World.task_run h
  refine hrun.invariant (I := fun t => SettingsInv E t.loop) ⟨?_, ?_, ?_⟩ ?_
  · simp [LoopTask.machine, LoopTask.init, LoopState.init]
  · simp [LoopTask.machine, LoopTask.init, LoopState.init]
  · simp [LoopTask.machine, LoopTask.init, LoopState.init]
  · exact fun t l t' hinv hstep => settingsInv_task hinv (LoopTask.step_cases hstep)

theorem capacity_of_run {capacity : Option ℕ+} {a : σ} {ls : List (Label σ ρ)} {w : World Q σ ρ}
    (h : (World.machine Q ρ E capacity a).Run ls w) : (state w.mailbox).capacity = capacity := by
  refine h.invariant (I := fun w : World Q σ ρ => (state w.mailbox).capacity = capacity) ?_ ?_
  · simp [World.machine, World.init, ChannelState.fresh]
  · intro u l u' hcap hstep
    obtain ⟨v, hact, rfl⟩ := World.step_cases hstep
    rw [World.settle_capacity, World.capacity_of_act hact, hcap]

/-- The world of a fresh actor and its clients, and with the `OwningAddr` of `async_runtime`. -/
def Spawned.machine (S : Spawned σ) (Q : Type → Type) [AsyncChannel Q] (ρ : Type) :
    Machine (World Q σ ρ) (Label σ ρ) :=
  World.machine Q ρ S.loop S.capacity S.actor

def Spawned.owning (S : Spawned σ) (Q : Type → Type) [AsyncChannel Q] (ρ : Type) :
    Machine (TaskWorld Q σ ρ) (OwnerLabel σ ρ) :=
  TaskWorld.machine Q ρ S.loop S.capacity S.actor

omit [AsyncChannel Q] in
/-- What was detached is not cancelled. -/
theorem TaskWorld.Custody.kept_of_detached {w : TaskWorld Q σ ρ} (hw : w.Custody)
    (h : w.detached = true) : w.cancelled = false := by
  cases hw <;> simp_all

/-- The loop moves, or a client uses the actor: the `OwningAddr` is left alone. -/
def OwnerLabel.isActor : OwnerLabel σ ρ → Bool
  | .actor _ => true
  | _ => false

/-- What `spawn` does: `detach` is the first use of the `OwningAddr`, whenever it comes. -/
def DetachedFirst (ls : List (OwnerLabel σ ρ)) : Prop :=
  ∀ l, ls.find? (fun k => !k.isActor) = some l → l = .detach

/-- Before the `OwningAddr` is used, the `Task` is in its mutex. -/
theorem kept_of_actor {capacity : Option ℕ+} {a : σ} {ls : List (OwnerLabel σ ρ)}
    {w : TaskWorld Q σ ρ} (h : (TaskWorld.machine Q ρ E capacity a).Run ls w)
    (hactor : ∀ l ∈ ls, l.isActor = true) :
    w.owned = true ∧ w.slot = true ∧ w.cancelled = false := by
  refine h.reaches.invariant_of_steps (C := fun _ l _ => l.isActor = true)
    (I := fun u : TaskWorld Q σ ρ => u.owned = true ∧ u.slot = true ∧ u.cancelled = false)
    ⟨rfl, rfl, rfl⟩ (fun s l s' hs hstep hl => ?_) fun _ l _ ht => hactor l ht.mem
  obtain ⟨v, hact, rfl⟩ := TaskWorld.step_cases hstep
  cases hact with
  | actor k u hk hu =>
    -- the `OwningAddr` holds a clone of the `Arc`
    have hsame : TaskWorld.reap { s with actor := u } = { s with actor := u } := by
      simp [TaskWorld.reap, hs.1]
    rw [hsame]
    exact hs
  | _ => cases hl

/-- The loop future of an actor that was detached, or is about to be, is never dropped. -/
theorem detached_forever {capacity : Option ℕ+} {a : σ} {ls : List (OwnerLabel σ ρ)}
    {w : TaskWorld Q σ ρ} (h : (TaskWorld.machine Q ρ E capacity a).Run ls w)
      (hls : DetachedFirst ls) :
    w.cancelled = false ∧ w.actor.task.loop.pc ≠ .dropped := by
  have hinv := TaskWorld.custodyInv_of_run h
  have hcancelled : w.cancelled = false := by
    -- up to the first use of the `OwningAddr` the `Task` stays where it is; that use is `detach`
    cases hfirst : ls.find? (fun k => !k.isActor) with
    | none =>
      have hactor : ∀ l ∈ ls, l.isActor = true := by simpa using hfirst
      exact (kept_of_actor h hactor).2.2
    | some l =>
      obtain rfl := hls l hfirst
      obtain ⟨-, pre, post, rfl, hpre⟩ := List.find?_eq_some_iff_append.mp hfirst
      have hcut : pre ++ .detach :: post = (pre ++ [.detach]) ++ post := by simp
      obtain ⟨v, hv, -⟩ := Machine.Run.split (hcut ▸ h)
      obtain ⟨u, hu, hstep⟩ := hv.snoc_inv
      have hkept := kept_of_actor hu fun k hk => by simpa using hpre k hk
      have hdetached : w.detached = true :=
        (h.iff_takes (I := TaskWorld.CustodyInv) (P := fun w => w.detached = true)
          (C := fun u l _ => l = .detach ∧ u.slot = true) (TaskWorld.custodyInv_init capacity a)
          (fun _ _ _ hs hstep => TaskWorld.custodyInv_step hs hstep) Bool.false_ne_true
          fun _ _ _ hs hstep => TaskWorld.detached_step hs hstep).mpr
        ⟨u, _, v, ⟨pre, ⟨post, by simp⟩, hu, hstep⟩, rfl, hkept.2.1⟩
      exact hinv.custody.kept_of_detached hdetached
  exact ⟨hcancelled, fun hpc => by simp [hinv.dropped hpc] at hcancelled⟩

/-- **The settings mean what they say.** Take any chain of builder methods that there is, and any
run of the actor it spawns, with its clients. A call into the actor is cut short only if the chain
sets a timeout; `cancelled` is called only if, in addition, the last `fail_on_timeout` was `true`;
if the last channel was unbounded, or none was chosen, no operation waits for room in the mailbox,
and nothing is dropped to make room; a restart is the end of an actor on a stream; and with `spawn`,
which only ever detaches the actor, its loop future is never dropped, however far it came before the
`detach`. -/
theorem settings_hold (hooks : Actor σ) {a : σ} {b : Builder σ} {ms : List Setting}
    (h : (setupActor a).Run ms b) (ρ : Type) :
    (∀ (ls : List (Label σ ρ)) (w : World Q σ ρ), ((b.spawnOwning hooks).machine Q ρ).Run ls w →
      ((∀ c, .leave c .expired ∈ w.task.loop.trace → ∃ t, .timeout t ∈ ms)
        ∧ (.enter (.hook .cancelled) ∈ w.task.loop.trace →
          (∃ t, .timeout t ∈ ms) ∧ lastOf Setting.fail ms = some true))
      ∧ (lastOf Setting.channel ms = none ∨ lastOf Setting.channel ms = some none →
        ∀ j op, w.flights[j]? = some ⟨op, .enqueuing⟩ →
          (w.step (b.spawnOwning hooks).loop (.advance j)).isSome = true
            ∧ ¬ World.Evicts w (.advance j))
      ∧ (.onStream ∈ ms → ∀ k, .taken (.restart k) ∈ w.task.loop.trace →
        w.task.loop.pc = .panicked))
    ∧ ∀ (ls : List (OwnerLabel σ ρ)) (w : TaskWorld Q σ ρ),
      ((b.spawnOwning hooks).owning Q ρ).Run ls w → DetachedFirst ls →
      w.cancelled = false ∧ w.actor.task.loop.pc ≠ .dropped := by
  have hspawned := spawned_of_run hooks h
  refine ⟨fun ls w hrun => ?_, fun ls w hrun hls => detached_forever hrun hls⟩
  have hinv := settingsInv_of_run hrun
  -- a timeout that is in force was set by a method of the chain
  have htime : (b.spawnOwning hooks).loop.config.timeout ≠ none → ∃ t, .timeout t ∈ ms := by
    intro hne
    rw [hspawned] at hne
    cases hlast : lastOf Setting.time ms with
    | none => simp [hlast] at hne
    | some v =>
      obtain ⟨m, hm, hv⟩ := Machine.mem_of_lastOf hlast
      cases m with
      | timeout t => exact ⟨t, hm⟩
      | _ => cases hv
  refine ⟨⟨fun c hc => htime (hinv.expired c hc), fun hc => ⟨htime (hinv.cancelled hc).1, ?_⟩⟩,
    fun hchannel j op hf => ?_, fun hstream => hinv.restarted ?_⟩
  · have hfail : (lastOf Setting.fail ms).getD false = true := by
      have hyes := (hinv.cancelled hc).2
      rwa [hspawned] at hyes
    cases hlast : lastOf Setting.fail ms with
    | none => simp [hlast] at hfail
    | some v => simpa [hlast] using hfail
  -- no method but `bounded` limits the mailbox, and the limit stays as it was made
  · have hunbounded : (state w.mailbox).capacity = none := by
      rw [capacity_of_run hrun, hspawned]
      rcases hchannel with hlast | hlast <;> simp [hlast]
    refine ⟨?_, World.not_evicts_of_unbounded hunbounded⟩
    have hroom : w.full = false := ChannelState.full_of_unbounded hunbounded
    rw [Option.isSome_iff_ne_none]
    intro hblocked
    simp [World.full_of_blocked hf hblocked] at hroom
  · rw [hspawned]
    simp [kindOf, hstream]

end Runs

/-- Room for six messages, and a timeout that is fatal, on second thoughts. -/
def strictSettings : List Setting :=
  [.bounded 6, .failOnTimeout false, .timeout 5, .failOnTimeout true]

def strictActor : Builder ℕ := (setupActor 0).after strictSettings rfl

/-- A message whose handler does not return. -/
def strictRun : List (Label ℕ ℕ) :=
  [.begin (Addr.send fun n => .overruns n), .advance 0, .advance 0, .poll, .poll, .receive, .poll]

def strictWorld : Machine (World ChannelState ℕ ℕ) (Label ℕ ℕ) :=
  (strictActor.spawnOwning (.provided 0)).machine ChannelState ℕ

/-- The runtime polls the actor before `spawn` gets to the `detach`. -/
def polledBefore : List (OwnerLabel ℕ ℕ) := [.actor .poll, .actor .poll, .detach, .actor .drop]

def strictOwned : Machine (TaskWorld ChannelState ℕ ℕ) (OwnerLabel ℕ ℕ) :=
  (strictActor.spawnOwning (.provided 0)).owning ChannelState ℕ

theorem settings_hold_strict :
    (.enter (.hook .cancelled) ∈ (strictWorld.after strictRun rfl).task.loop.trace
      ∧ lastOf Setting.fail strictSettings = some true)
    ∧ (strictOwned.after polledBefore rfl).cancelled = false := by
  have hcancelled : .enter (.hook .cancelled) ∈
      (strictWorld.after strictRun rfl).task.loop.trace := by
    decide
  have hbuilt := (setupActor 0).run_after strictSettings rfl
  have hsettings := settings_hold (Q := ChannelState) (.provided 0) hbuilt ℕ
  have hdetached : DetachedFirst polledBefore := fun l hl => by cases hl; rfl
  exact ⟨⟨hcancelled, ((hsettings.1 _ _ (strictWorld.run_after strictRun rfl)).1.2 hcancelled).2⟩,
    (hsettings.2 _ _ (strictOwned.run_after polledBefore rfl) hdetached).1⟩

/-! ## What makes no difference

Two loops are compared by what they use of their parts: `SameLoop` does not ask for the same
`default` where nothing recreates the actor. Equal step functions have equal runs. -/

section Agreement

variable {ρ : Type} {E E' : EventLoop σ}

/-- Two event loops that differ in what neither of them uses: `fail_on_timeout` without a timeout,
the restart strategy on a stream, and `Default::default` if the actor is not recreated. -/
structure SameLoop (E E' : EventLoop σ) : Prop where
  started : E'.actor.started = E.actor.started
  stopped : E'.actor.stopped = E.actor.stopped
  cancelled : E'.actor.cancelled = E.actor.cancelled
  finished : E'.actor.finished = E.actor.finished
  default : E.strategy = .recreateFromDefault → E'.actor.default = E.actor.default
  timeout : E'.config.timeout = E.config.timeout
  fail : E.config.timeout ≠ none → E'.config.failOnTimeout = E.config.failOnTimeout
  onStream : E'.onStream = E.onStream
  strategy : E.onStream = false → E'.strategy = E.strategy

theorem afterStarted_agree (h : SameLoop E E') (s : LoopState σ ρ) :
    E'.afterStarted s = E.afterStarted s := by
  rw [EventLoop.afterStarted, EventLoop.afterStarted, h.started]

/-- Without a timeout nothing overruns. -/
theorem afterTask_agree (h : SameLoop E E') (s : LoopState σ ρ) (c : Call) (f : TaskFn σ ρ) :
    E'.afterTask s c f = E.afterTask s c f := by
  unfold EventLoop.afterTask
  rw [h.timeout]
  cases htime : E.config.timeout with
  | none => cases f s.actor <;> rfl
  | some t => rw [h.fail (by simp [htime])]

theorem refreshStopped_agree (h : SameLoop E E') (hE : E.onStream = false) (s : LoopState σ ρ) :
    E'.refreshStopped s = E.refreshStopped s := by
  unfold EventLoop.refreshStopped
  rw [h.stopped, h.strategy hE]
  cases hstrategy : E.strategy with
  | recreateFromDefault => rw [h.default hstrategy]
  | nonRestartable | restartOnly => rfl

theorem step_agree (h : SameLoop E E') (s : LoopState σ ρ) (i : Option (Input σ ρ)) :
    E'.step s i = E.step s i := by
  unfold EventLoop.step
  rw [h.onStream]
  -- the loop on a stream never looks at its restart strategy
  split
  · cases i with
    | none =>
      simp only [EventLoop.createOnStream, afterStarted_agree h, afterTask_agree h, h.stopped,
        h.cancelled, h.finished]
    | some i => rfl
  · next hE =>
    have hE : E.onStream = false := by simpa using hE
    cases i with
    | none =>
      simp only [EventLoop.create, afterStarted_agree h, afterTask_agree h,
        refreshStopped_agree h hE, h.stopped, h.cancelled]
    | some i => simp only [EventLoop.create, EventLoop.refresh, h.strategy hE]

variable {Q : Type → Type} [AsyncChannel Q]

theorem act_agree (h : SameLoop E E') (w : World Q σ ρ) (l : Label σ ρ) :
    w.act E' l = w.act E l := by
  have htask : ∀ (t : LoopTask σ ρ) tl, t.step E' tl = t.step E tl := fun t tl => by
    cases tl <;> simp only [LoopTask.step, step_agree h]
  cases l <;> simp only [World.act, World.receive, htask]

/-- Nobody can tell the actors of two such loops apart. -/
theorem machine_agree {S S' : Spawned σ} (hloop : SameLoop S.loop S'.loop)
    (hcapacity : S'.capacity = S.capacity) (hactor : S'.actor = S.actor) :
    S'.machine Q ρ = S.machine Q ρ := by
  unfold Spawned.machine World.machine
  rw [hcapacity, hactor]
  congr 1
  funext w l
  rw [World.step, World.step, act_agree hloop]

/-- Two chains of methods that come to the same mailbox, timeout and typestate and, if there is a
timeout, the same `fail_on_timeout`, for actors that differ in `Default::default` only, which they
use if they are recreated. -/
structure SameSettings (hooks hooks' : Actor σ) (ms ms' : List Setting) : Prop where
  others : hooks' = { hooks with default := hooks'.default }
  default : .recreateFromDefault ∈ ms → hooks' = hooks
  kind : kindOf ms' = kindOf ms
  channel : (lastOf Setting.channel ms').getD none = (lastOf Setting.channel ms).getD none
  time : (lastOf Setting.time ms').getD none = (lastOf Setting.time ms).getD none
  fail : (lastOf Setting.time ms).getD none ≠ none →
    (lastOf Setting.fail ms').getD false = (lastOf Setting.fail ms).getD false

theorem recreates_iff {ms : List Setting} : (kindOf ms).1 = .recreateFromDefault
    ↔ .onStream ∉ ms ∧ .recreateFromDefault ∈ ms := by
  unfold kindOf
  split
  · next hs => simp [hs]
  · next hs => split <;> simp_all

theorem sameLoop_of_settings {hooks hooks' : Actor σ} {a : σ} {ms ms' : List Setting}
    {b b' : Builder σ}
    (hb : (setupActor a).Run ms b) (hb' : (setupActor a).Run ms' b')
    (h : SameSettings hooks hooks' ms ms') :
    SameLoop (b.spawnOwning hooks).loop (b'.spawnOwning hooks').loop := by
  rw [spawned_of_run hooks hb, spawned_of_run hooks' hb', h.kind]
  exact {
    started := by rw [h.others]
    stopped := by rw [h.others]
    cancelled := by rw [h.others]
    finished := by rw [h.others]
    -- `default` matters only where a Restart recreates the actor
    default := fun hrecreate => by rw [h.default (recreates_iff.mp hrecreate).2]
    timeout := h.time
    fail := h.fail
    onStream := rfl
    strategy := fun _ => rfl }

/-- **What makes no difference.** The runs of an actor with its clients are the same however it was
spawned: by any two chains of builder methods with the same settings; by `Spawnable::spawn_owning`,
or a builder without settings; by `StreamSpawnable::spawn_owning_on_stream`, or `on_stream`; and by
`DefaultSpawnable`, or a builder of the default. -/
theorem spawn_paths_agree (hooks : Actor σ) (a : σ) (ls : List (Label σ ρ)) (w : World Q σ ρ) :
    (∀ (hooks' : Actor σ) (ms ms' : List Setting) (b b' : Builder σ), (setupActor a).Run ms b →
      (setupActor a).Run ms' b' → SameSettings hooks hooks' ms ms' →
      (((b'.spawnOwning hooks').machine Q ρ).Run ls w ↔
        ((b.spawnOwning hooks).machine Q ρ).Run ls w))
    ∧ (∀ b, (setupActor a).Run [] b →
      (((Spawnable.spawnOwning hooks a).machine Q ρ).Run ls w
        ↔ ((b.spawnOwning hooks).machine Q ρ).Run ls w))
    ∧ (∀ b, (setupActor a).Run [.onStream] b →
      (((StreamSpawnable.spawnOwningOnStream hooks a).machine Q ρ).Run ls w
        ↔ ((b.spawnOwning hooks).machine Q ρ).Run ls w))
    ∧ ∀ S b, DefaultSpawnable.spawnDefaultOwning hooks = some S → (setupActor S.actor).Run [] b →
      ((S.machine Q ρ).Run ls w ↔ ((b.spawnOwning hooks).machine Q ρ).Run ls w) := by
  refine ⟨fun hooks' ms ms' b b' hb hb' hsame => ?_, fun b hb => ?_, fun b hb => ?_,
    fun S b hS hb => ?_⟩
  · rw [machine_agree (sameLoop_of_settings hb hb' hsame)]
    · rw [spawned_of_run hooks hb, spawned_of_run hooks' hb']
      exact hsame.channel
    · rw [spawned_of_run hooks hb, spawned_of_run hooks' hb']
  · cases hb.unique .start
    rfl
  · rw [machine_agree (S := b.spawnOwning hooks)]
    all_goals rw [spawned_of_run hooks hb]
    · exact ⟨rfl, rfl, rfl, rfl, nofun, rfl, fun _ => rfl, rfl, nofun⟩
    · rfl
    · rfl
  · cases hb.unique .start
    unfold DefaultSpawnable.spawnDefaultOwning at hS
    split at hS
    · cases hS
      rfl
    · cases hS
    · cases hS

end Agreement

/-- A strict actor without a timeout is an actor with the defaults. -/
theorem spawn_paths_agree_lenient (ls : List (Label ℕ ℕ)) (w : World ChannelState ℕ ℕ) :
    ((((setupActor 0).after [.failOnTimeout true] rfl).spawnOwning (.provided 0)).machine
        ChannelState ℕ).Run ls w
      ↔ ((Spawnable.spawnOwning (.provided 0) 0).machine ChannelState ℕ).Run ls w := by
  have hagree := spawn_paths_agree (.provided 0) 0 ls w
  have hsame : SameSettings (.provided 0) (.provided 0) [] [.failOnTimeout true] :=
    ⟨rfl, nofun, rfl, rfl, rfl, fun hne => absurd rfl hne⟩
  exact (hagree.1 _ _ _ _ _ .start ((setupActor 0).run_after _ rfl) hsame).trans
    (hagree.2.1 _ .start).symm

end Hannibal
