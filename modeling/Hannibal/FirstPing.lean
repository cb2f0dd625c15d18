import Hannibal.Serving
import Hannibal.Spawn

/-!
# Hannibal.FirstPing — when `from_registry` delivers the service it has spawned

In a debug build the call that created an instance awaits a ping of it before it returns. The ping
races with the instance's own `started` and with everybody who has got the address meanwhile.

* **`SpawnWorld.spoils`** — the steps that lose the race: a call into the actor that does not return
  normally, the loop future being dropped, or a `Stop` that gets into the mailbox before the ping.
* **`SpawnInv`** — the invariant of the call; `spawnInv_step` is its step lemma.
* **`spawn_delivers`** — without such a step the call returns the address it registered, in a debug
  build as in a release build, after a bounded number of steps of the loop.
-/

namespace Hannibal

open Lts Chan
open AsyncChannel (state)

variable {Q : Type → Type} {σ ρ : Type}

namespace SpawnWorld

/-- How far the call has come: the ping is not accepted yet, it is, there is nothing to wait for. -/
def phase (w : SpawnWorld Q σ ρ) : ℕ :=
  match w.stage with
  | .inserting | .unlocking | .asserting => 0
  | .pinging i => (w.service.flights[i]?).elim 0 fun f => f.stage.phase
  | .returned _ | .failed | .dropped => 2

variable [AsyncChannel Q]

/-- The steps that keep a ping that has not been answered from being answered. -/
def spoils (S : SpawnSetup σ) (w : SpawnWorld Q σ ρ) : SpawnLabel σ ρ → Bool
  | .service l => S.debug && decide (w.phase < 2) && (w.service.misbehaves S.eventLoop l
      || decide (w.phase = 0) && w.service.stops l)
  | _ => false

/-! ## The invariant

As long as nothing has spoiled it, the call holds its address, its entry was inserted, and its ping
is on the way: `World.PingInv` follows it through the mailbox. The instance's own steps keep this by
what is known of one operation. -/

structure SpawnInv (S : SpawnSetup σ) (w : SpawnWorld Q σ ρ) : Prop where
  held : w.reserved S ≤ w.service.handles
  inserted : w.stage ≠ .inserting → w.inserted = some S.addr
  address : ∀ x, w.stage = .returned x → x = S.addr
  asserted : w.stage ≠ .failed
  /-- a release build pings nobody -/
  release : S.debug = false → w.stage ≠ .asserting ∧ ∀ i, w.stage ≠ .pinging i
  early : S.debug = true → (∀ i, w.stage ≠ .pinging i) → w.phase < 2 →
    w.service.Serving S.eventLoop ∧ w.service.Quiet
  ping : ∀ i, w.stage = .pinging i → ∃ st, w.service.PingInv S.eventLoop i st

theorem spawnInv_init (S : SpawnSetup σ) : SpawnInv S (init Q ρ S) where
  held := by simp [reserved, holdsAddr, init, World.init, S.fresh]
  inserted h := absurd rfl h
  address x h := by cases h
  asserted := nofun
  release _ := ⟨nofun, nofun⟩
  early _ _ _ := by
    refine ⟨World.serving_init S.default, ?_⟩
    simp [World.Quiet, World.queued, init, World.init, ChannelState.fresh]
  ping i h := by cases h

variable {S : SpawnSetup σ} {w w' v : SpawnWorld Q σ ρ} {l : SpawnLabel σ ρ} {s : World Q σ ρ}
  {k : Label σ ρ}

omit [AsyncChannel Q] in
theorem handles_answer (u : World Q σ ρ) (t : LoopTask σ ρ) (o : Option (ℕ × Reply ρ)) :
    ((u.withTask t).answer o).handles = u.handles := by
  rcases o with _ | ⟨k, _ | r | _⟩ <;> rfl

/-- Only `drop` gives up a handle. -/
theorem handles_step (h : w.service.step S.eventLoop k = some s) :
    (k ≠ .drop → w.service.handles ≤ s.handles)
      ∧ (k = .drop → w.service.handles - 1 ≤ s.handles)
      ∧ (k = .clone → s.handles = w.service.handles + 1) := by
  obtain ⟨u, hact, rfl⟩ := World.step_cases h
  rw [World.settle_handles]
  cases hact with
  | clone hpos => exact ⟨fun _ => Nat.le_succ _, nofun, fun _ => rfl⟩
  -- an upgrade adds a handle, as a clone does
  | upgrade hup => exact ⟨fun _ => Nat.le_succ _, nofun, nofun⟩
  | drop hpos => exact ⟨absurd rfl, fun _ => le_rfl, nofun⟩
  | accepted i op hf evicted q henq =>
    have hsame : (w.service.accept i op evicted q).handles = w.service.handles := by
      cases evicted <;> rfl
    exact ⟨fun _ => hsame.ge, nofun, nofun⟩
  | poll t ht =>
    rw [handles_answer]
    exact ⟨fun _ => le_rfl, nofun, nofun⟩
  | dropFuture t ht =>
    rw [handles_answer]
    exact ⟨fun _ => le_rfl, nofun, nofun⟩
  | silent l tl hl t ht =>
    refine ⟨fun _ => le_rfl, ?_, ?_⟩ <;> rintro rfl <;> cases hl
  | _ => exact ⟨fun _ => le_rfl, nofun, nofun⟩

omit [AsyncChannel Q] in
theorem reserved_pos (h : w.holdsAddr = true) : 0 < w.reserved S := by
  simp [reserved, h]

omit [AsyncChannel Q] in
/-- A call that is over holds nothing. -/
theorem reserved_le {n : ℕ} (hheld : w.reserved S ≤ n) (hentry : w'.entry = w.entry)
    (hholds : w'.holdsAddr = false) : w'.reserved S ≤ n := by
  simp only [reserved, hentry, hholds, Bool.false_eq_true, if_false] at hheld ⊢
  omega

/-- The other clients leave the call and the registry their handles. -/
theorem held_service (hinv : SpawnInv S w) (h : w.service.step S.eventLoop k = some s)
    (hspare : k = .drop → w.spare S = true) : w.reserved S ≤ s.handles := by
  obtain ⟨hmore, hless, -⟩ := handles_step h
  have hheld := hinv.held
  by_cases hdrop : k = .drop
  · have hlt : w.reserved S < w.service.handles := of_decide_eq_true (hspare hdrop)
    have hleft := hless hdrop
    omega
  · exact hheld.trans (hmore hdrop)

/-- What the instance does before there is a ping. -/
theorem early_service (hinv : SpawnInv S w) (hdebug : S.debug = true)
    (hearly : ∀ i, w.stage ≠ .pinging i) (hphase : w.phase < 2)
    (h : w.service.step S.eventLoop k = some s) (hspare : k = .drop → w.spare S = true)
    (hok : w.service.misbehaves S.eventLoop k = false) (hstops : w.service.stops k = false) :
    s.Serving S.eventLoop ∧ s.Quiet := by
  obtain ⟨hserving, hquiet⟩ := hinv.early hdebug hearly hphase
  have hholds : w.holdsAddr = true := by
    cases hst : w.stage <;> simp_all [holdsAddr, phase]
  have hpos : 0 < s.handles := (reserved_pos hholds).trans_le (held_service hinv h hspare)
  refine ⟨World.serving_step rfl hserving h hok ?_ hpos, World.quiet_step hquiet h hstops⟩
  exact fun _ e he => hquiet e (List.mem_of_head? he)

/-- What the instance does while the call is at the same place. -/
theorem inv_service (hinv : SpawnInv S w) (h : w.service.step S.eventLoop k = some s)
    (hspare : k = .drop → w.spare S = true) (habandon : ∀ i, w.stage = .pinging i → k ≠ .abandon i)
    (hok : S.debug = true → w.phase < 2 → w.service.misbehaves S.eventLoop k = false)
    (hstops : S.debug = true → w.phase = 0 → w.service.stops k = false) :
    SpawnInv S { w with service := s } where
  held := by
    have hheld := held_service hinv h hspare
    exact hheld
  inserted := hinv.inserted
  address := hinv.address
  asserted := hinv.asserted
  release := hinv.release
  early hdebug hearly hphase := by
    have hphase : w.phase < 2 := by
      cases hst : w.stage <;> simp_all [phase]
    have hzero : w.phase = 0 := by
      cases hst : w.stage <;> simp_all [phase]
    exact early_service hinv hdebug hearly hphase h hspare (hok hdebug hphase) (hstops hdebug hzero)
  ping i hst := by
    have hst : w.stage = .pinging i := hst
    obtain ⟨st, hping⟩ := hinv.ping i hst
    have hdebug : S.debug = true := by
      by_contra hrelease
      exact (hinv.release (by simpa using hrelease)).2 i hst
    have hphase : w.phase = st.phase := by simp [phase, hst, hping.flight]
    refine World.pingInv_step rfl hping h (habandon i hst) (fun _ => ?_)
      (fun hlt => hok hdebug (hphase ▸ hlt)) fun hzero => hstops hdebug (hphase.trans hzero)
    have hholds : w.holdsAddr = true := by simp [holdsAddr, hst]
    exact (reserved_pos hholds).trans_le (held_service hinv h hspare)

/-- The call has returned its address, or its future is dropped. -/
theorem spawnInv_over (hheld : w'.reserved S ≤ w'.service.handles)
    (hinserted : w'.inserted = some S.addr)
    (hst : w'.stage = .returned S.addr ∨ w'.stage = .dropped) : SpawnInv S w' where
  held := hheld
  inserted _ := hinserted
  address x hx := by
    rcases hst with hst | hst
    · exact (SpawnStage.returned.inj (hst.symm.trans hx)).symm
    · simp [hst] at hx
  asserted := by rcases hst with hst | hst <;> simp [hst]
  release _ := by rcases hst with hst | hst <;> simp [hst]
  early _ _ hphase := by rcases hst with hst | hst <;> simp [phase, hst] at hphase
  ping i hi := by rcases hst with hst | hst <;> simp [hst] at hi

/-- The call puts a clone of its address into the registry. -/
theorem spawnInv_insert (hinv : SpawnInv S w) (hst : w.stage = .inserting)
    (hs : w.service.step S.eventLoop .clone = some s) :
    SpawnInv S ⟨s, some S.addr, some S.addr, .unlocking⟩ where
  held := by
    have hhandles := (handles_step hs).2.2 rfl
    have hheld := hinv.held
    simp only [reserved, holdsAddr, hst] at hheld ⊢
    simp only [if_pos] at hheld ⊢
    omega
  inserted _ := rfl
  address x hx := by cases hx
  asserted := by simp
  release _ := by simp
  early hdebug _ _ :=
    early_service hinv hdebug (by simp [hst]) (by simp [phase, hst]) hs (by simp) rfl rfl
  ping i hi := by cases hi

/-- A release build returns the address now, a debug build pings first. -/
theorem spawnInv_unlock (hinv : SpawnInv S w) (hst : w.stage = .unlocking) :
    SpawnInv S { w with stage := if S.debug then .asserting else .returned S.addr } := by
  have hinserted := hinv.inserted (by simp [hst])
  cases hdebug : S.debug with
  | false => exact spawnInv_over (reserved_le hinv.held rfl rfl) hinserted (.inl rfl)
  | true =>
    constructor
    case held => simpa [reserved, holdsAddr, hst] using hinv.held
    case inserted => exact fun _ => hinserted
    case address => intro x hx; cases hx
    case asserted => simp
    case release => intro hrelease; simp [hdebug] at hrelease
    case early => exact fun _ _ _ => hinv.early hdebug (by simp [hst]) (by simp [phase, hst])
    case ping => intro i hi; cases hi

/-- The call begins its ping, which a release build does not evaluate. -/
theorem spawnInv_assert (hinv : SpawnInv S w) (hst : w.stage = .asserting)
    (hs : w.service.step S.eventLoop (.begin Addr.ping) = some s) :
    SpawnInv S { w with service := s, stage := .pinging w.service.flights.length } := by
  -- the assertion exists in a debug build only
  have hdebug : S.debug = true := by
    by_contra hrelease
    exact (hinv.release (by simpa using hrelease)).1 hst
  have hearly :=
    early_service hinv hdebug (by simp [hst]) (by simp [phase, hst]) hs (by simp) rfl rfl
  have hquiet := (hinv.early hdebug (by simp [hst]) (by simp [phase, hst])).2
  constructor
  case held => simpa [reserved, holdsAddr, hst] using held_service hinv hs (by simp)
  case inserted => exact fun _ => hinv.inserted (by simp [hst])
  case address => intro x hx; cases hx
  case asserted => simp
  case release => intro hrelease; simp [hdebug] at hrelease
  case early => exact fun _ hno => absurd rfl (hno _)
  case ping =>
    rintro i hi
    cases hi
    exact ⟨_, World.pingInv_begin hquiet hs hearly.1⟩

/-- The entry belongs to somebody else, or to a handle that was spare. -/
theorem spawnInv_entry (hinv : SpawnInv S w) {entry : Option ℕ}
    (hspare : entry = some S.addr → w.spare S = true) : SpawnInv S { w with entry := entry } := by
  refine ⟨?_, hinv.inserted, hinv.address, hinv.asserted, hinv.release, hinv.early, hinv.ping⟩
  have hheld := hinv.held
  by_cases haddr : entry = some S.addr
  · have hlt : w.reserved S < w.service.handles := of_decide_eq_true (hspare haddr)
    have hmore : reserved S { w with entry := entry } ≤ w.reserved S + 1 := by
      simp only [reserved, haddr, if_true]
      exact Nat.add_le_add_right (Nat.le_add_right _ _) 1
    exact hmore.trans hlt
  · have hless : reserved S { w with entry := entry } ≤ w.reserved S := by
      simp only [reserved, haddr, if_false]
      exact Nat.add_le_add_left (Nat.zero_le _) _
    exact hless.trans hheld

/-- **The step lemma.** -/
theorem spawnInv_step (hinv : SpawnInv S w) (h : w.step S l = some w')
    (hspoils : w.spoils S l = false) : SpawnInv S w' := by
  cases act_cases h with
  | service k s hl hs =>
    -- a step that does not spoil the spawn: up to the answer, and up to the ping
    have hok : S.debug = true → w.phase < 2 → w.service.misbehaves S.eventLoop k = false ∧
        (w.phase = 0 → w.service.stops k = false) := by
      intro hdebug hphase
      simp only [spoils, hdebug, hphase, decide_true, Bool.true_and, Bool.or_eq_false_iff,
        Bool.and_eq_false_iff, decide_eq_false_iff_not] at hspoils
      exact ⟨hspoils.1, fun hzero => hspoils.2.resolve_left (not_not_intro hzero)⟩
    refine inv_service hinv hs ?_ ?_ (fun hdebug hphase => (hok hdebug hphase).1)
      fun hdebug hzero => (hok hdebug (by omega)).2 hzero
    · rintro rfl
      exact hl
    · rintro i hst rfl
      simp [permitted, hst] at hl
  | insert s hst hs => exact spawnInv_insert hinv hst hs
  | unlock hst => exact spawnInv_unlock hinv hst
  | assert s hst hs => exact spawnInv_assert hinv hst hs
  | ping i s hst hs =>
    obtain ⟨st, hping⟩ := hinv.ping i hst
    refine inv_service hinv hs (by simp) (by simp) (fun _ _ => rfl) fun _ _ => ?_
    simp only [World.stops, hping.flight]
    split
    · next op heq => cases heq; rfl
    · rfl
  | pinged i op r hst hf =>
    exact spawnInv_over (reserved_le hinv.held rfl rfl) (hinv.inserted (by simp [hst])) (.inl rfl)
  | fail i op e hst hf =>
    -- a ping on track has not failed
    obtain ⟨st, hping⟩ := hinv.ping i hst
    have htrack := hping.onTrack
    rw [hping.flight] at hf
    cases hf
    cases htrack
  | giveUp i s hst hs =>
    exact spawnInv_over (reserved_le (held_service hinv hs (by simp)) rfl rfl)
      (hinv.inserted (by simp [hst])) (.inr rfl)
  | lookup s hopen hs =>
    exact inv_service hinv hs (by simp) (by simp) (fun _ _ => rfl) fun _ _ => rfl
  | replace addr hopen hspare =>
    -- whoever replaces the entry owns the address it puts there
    exact spawnInv_entry hinv fun haddr => hspare (Option.some.inj haddr)
  | unregister hopen => exact spawnInv_entry hinv (by simp)

/-! ## The call is never stuck

At each stage the call has a step, or its ping is in the mailbox and the loop has one. -/

/-- A step of the call or of the instance's loop. -/
def own : SpawnLabel σ ρ → Bool
  | .advance => true
  | .service l => World.ofLoop l
  | _ => false

/-- The steps of the instance's loop. -/
def ofLoop : SpawnLabel σ ρ → Bool
  | .service l => World.ofLoop l
  | _ => false

/-- The call has ended in one way or another. -/
def concluded (w : SpawnWorld Q σ ρ) : Bool :=
  match w.stage with
  | .returned _ | .failed | .dropped => true
  | _ => false

/-- What a call is like that is on its way to deliver the service. -/
structure Delivers (S : SpawnSetup σ) (w : SpawnWorld Q σ ρ) : Prop where
  /-- it returns the address it registered -/
  address : ∀ x, w.stage = .returned x → w.inserted = some x
  asserted : w.stage ≠ .failed
  /-- until it is over, it or the loop has a step to take -/
  moves : w.concluded = false → ∃ l, own l = true ∧ (w.step S l).isSome = true

/-- An accepted ping waits for the loop; else the call goes on by itself. -/
theorem moves_ping {i : ℕ} {st : Stage ρ} (hst : w.stage = .pinging i)
    (hping : w.service.PingInv S.eventLoop i st) :
    ∃ l, own l = true ∧ (w.step S l).isSome = true := by
  have hf := hping.flight
  have htrack := hping.onTrack
  have hadvance : (st = .checking ∨ st = .enqueuing ∨ ∃ r, st = .waiting (.ok r)) →
      ∃ l, own l = true ∧ (w.step S l).isSome = true := by
    intro hstage
    obtain ⟨s, hs⟩ := World.exists_advance (E := S.eventLoop) hf hstage
    refine ⟨.advance, rfl, ?_⟩
    rcases hstage with rfl | rfl | ⟨r, rfl⟩ <;> simp [step, advance, hst, hf, hs]
  -- by the stage of the ping; what it waits for in the mailbox is a step of the loop
  cases st with
  | checking => exact hadvance (.inl rfl)
  | enqueuing => exact hadvance (.inr (.inl rfl))
  | waiting reply =>
    cases reply with
    | pending =>
      obtain ⟨l, hl, hsome⟩ := World.exists_ofLoop rfl (hping.serving (by simp [Stage.phase])) hf
      refine ⟨.service l, hl, ?_⟩
      cases l <;> simp_all [World.ofLoop, step, permitted]
    | ok r => exact hadvance (.inr (.inr ⟨r, rfl⟩))
    | canceled => cases htrack
  | returned res =>
    cases res with
    | ok r => exact ⟨.advance, rfl, by simp [step, advance, hst, hf]⟩
    | error e => cases htrack
  | upgrading | abandoned => cases htrack

theorem delivers_of_inv (hinv : SpawnInv S w) : Delivers S w where
  address x hx := by
    rw [hinv.address x hx]
    exact hinv.inserted (by simp [hx])
  asserted := hinv.asserted
  moves hover := by
    have hpos : w.holdsAddr = true → 0 < w.service.handles := fun hholds =>
      (reserved_pos hholds).trans_le hinv.held
    -- by the stage of the call, each with the step that leaves it
    cases hst : w.stage with
    | inserting =>
      have hhandle := hpos (by simp [holdsAddr, hst])
      exact ⟨.advance, rfl, by simp [step, advance, hst, World.step, World.act, hhandle]⟩
    | unlocking => exact ⟨.advance, rfl, by simp [step, advance, hst]⟩
    | asserting =>
      have hhandle := hpos (by simp [holdsAddr, hst])
      refine ⟨.advance, rfl, ?_⟩
      simp [step, advance, hst, World.step, World.act, World.offers, Addr.ping, hhandle]
    | pinging i =>
      obtain ⟨st, hping⟩ := hinv.ping i hst
      exact moves_ping hst hping
    | returned | failed | dropped => simp [concluded, hst] at hover

/-! ## How long the ping takes

While the ping is awaited the queue ahead of it does not grow, and every step of the loop makes the
number of steps to go smaller. -/

/-- The mailbox has accepted the ping, which is not answered yet. -/
def awaits (w : SpawnWorld Q σ ρ) : Bool := decide (w.phase = 1)

/-- How many steps of its own the loop is away from having answered the ping. -/
def toGo (w : SpawnWorld Q σ ρ) : ℕ :=
  match w.stage with
  | .pinging i => w.service.toGo i
  | _ => 0

theorem phase_service (hinv : SpawnInv S w) (h : w.service.step S.eventLoop k = some s) :
    w.phase ≤ phase { w with service := s } := by
  cases hst : w.stage with
  | pinging i =>
    obtain ⟨st, hping⟩ := hinv.ping i hst
    obtain ⟨u, hact, rfl⟩ := World.step_cases h
    obtain ⟨g, hg, hle⟩ := World.phase_act hact hping.flight
    simp only [phase, hst, hping.flight, World.settle_flights, hg]
    exact hle
  | _ => simp [phase, hst]

omit [AsyncChannel Q] in
theorem phase_le (w : SpawnWorld Q σ ρ) : w.phase ≤ 2 := by
  cases hst : w.stage with
  | pinging i =>
    cases hf : w.service.flights[i]? with
    | none => simp [phase, hst, hf]
    | some f => simpa [phase, hst, hf] using f.stage.phase_le
  | _ => simp [phase, hst]

/-- The call never goes back. -/
theorem phase_step (hinv : SpawnInv S w) (h : w.step S l = some w') : w.phase ≤ w'.phase := by
  cases act_cases h with
  | service k s hl hs => exact phase_service hinv hs
  | ping i s hst hs => exact phase_service hinv hs
  | lookup s hopen hs => exact phase_service hinv hs
  | replace addr hopen hspare => exact le_rfl
  | unregister hopen => exact le_rfl
  | insert s hst hs => simp [phase, hst]
  | unlock hst => simp [phase, hst]
  | assert s hst hs => simp [phase, hst]
  | pinged i op r hst hf => exact w.phase_le
  | fail i op e hst hf => exact w.phase_le
  | giveUp i s hst hs => exact w.phase_le

/-- A call that awaits its ping is in a debug build, at that ping. -/
theorem pinging_of_awaits (hinv : SpawnInv S w) (h : w.awaits = true) :
    S.debug = true ∧ ∃ i, w.stage = .pinging i
      ∧ w.service.PingInv S.eventLoop i (.waiting .pending) := by
  have hphase : w.phase = 1 := of_decide_eq_true h
  cases hst : w.stage with
  | pinging i =>
    obtain ⟨st, hping⟩ := hinv.ping i hst
    have hone : st.phase = 1 := by simpa [phase, hst, hping.flight] using hphase
    have hpending : st = .waiting .pending := by
      cases st with
      | waiting reply => cases reply <;> simp_all [Stage.phase]
      | _ => simp_all [Stage.phase]
    subst hpending
    refine ⟨?_, i, rfl, hping⟩
    by_contra hrelease
    exact (hinv.release (by simpa using hrelease)).2 i hst
  | _ => simp [phase, hst] at hphase

/-- While the ping is awaited, every step of the loop brings it nearer and no other step puts it
off. -/
theorem toGo_step (hinv : SpawnInv S w) (hinv' : SpawnInv S w') (hw : w.awaits = true)
    (hw' : w'.awaits = true) (h : w.step S l = some w') (hspoils : w.spoils S l = false) :
    w'.toGo + (if ofLoop l then 1 else 0) ≤ w.toGo := by
  obtain ⟨hdebug, i, hst, hping⟩ := pinging_of_awaits hinv hw
  obtain ⟨-, i', hst', hping'⟩ := pinging_of_awaits hinv' hw'
  have hone : w.phase < 2 := by rw [of_decide_eq_true hw]; decide
  -- a step of the instance
  have hservice : ∀ {k s}, w.service.step S.eventLoop k = some s → w' = { w with service := s } →
      w.service.misbehaves S.eventLoop k = false →
      w'.toGo + (if World.ofLoop k then 1 else 0) ≤ w.toGo := by
    rintro k s hs rfl hok
    obtain rfl : i = i' := SpawnStage.pinging.inj (hst.symm.trans hst')
    have hnears := World.nears_step rfl (hping.serving (by simp [Stage.phase])) hping.flight hs
      hping'.flight hok
    simpa [toGo, hst] using World.toGo_step hnears
  -- of the steps that leave the call where it is only those of the instance matter
  cases act_cases h with
  | service k s hl hs =>
    refine hservice hs rfl ?_
    simp only [spoils, hdebug, hone, decide_true, Bool.true_and, Bool.or_eq_false_iff] at hspoils
    exact hspoils.1
  | ping j s hst'' hs => exact hservice hs rfl rfl
  | lookup s hopen hs => exact hservice hs rfl rfl
  | replace addr hopen hspare => exact le_rfl
  | unregister hopen => exact le_rfl
  | pinged | fail | giveUp => cases hst'
  | insert | unlock | assert => simp_all

/-! ## The theorem -/

theorem spawnInv_of_run {ls : List (SpawnLabel σ ρ)}
    (hsteps : (machine Q ρ S).AllSteps ls fun u l _ => u.spoils S l = false)
    (h : (machine Q ρ S).Reaches ls w) : SpawnInv S w :=
  h.invariant_of_steps (I := SpawnInv S) (spawnInv_init S)
    (fun _ _ _ hinv hstep hspoils => spawnInv_step hinv hstep hspoils) hsteps

/-- The call never goes back, and between two states in which the ping is awaited the loop takes a
bounded number of steps. -/
theorem waits_of_run {pre more : List (SpawnLabel σ ρ)}
    (hsteps : (machine Q ρ S).AllSteps (pre ++ more) fun u l _ => u.spoils S l = false)
    (hw : (machine Q ρ S).Run pre w) (hv : (machine Q ρ S).Run (pre ++ more) v) :
    w.phase ≤ v.phase
      ∧ (w.awaits = true → v.awaits = true → v.toGo + more.countP ofLoop ≤ w.toGo) := by
  -- over the rest of the run; `toGo` pays for each step of the loop
  induction more using List.reverseRecOn generalizing v with
  | nil =>
    rw [List.append_nil] at hv
    rw [hv.unique hw]
    exact ⟨le_rfl, fun _ _ => le_rfl⟩
  | append_singleton more l ih =>
    rw [← List.append_assoc] at hv hsteps
    obtain ⟨u, hu, hstep⟩ := hv.snoc_inv
    have hsteps' := hsteps.of_le (List.prefix_append (pre ++ more) [l])
    have hinv := spawnInv_of_run hsteps' hu.reaches
    obtain ⟨hbefore, hrest⟩ := ih hsteps' hu
    have hafter : u.phase ≤ v.phase := phase_step hinv hstep
    refine ⟨hbefore.trans hafter, fun hwait hwait' => ?_⟩
    -- a call that awaits its ping later on has not had the answer in between
    have hbetween : u.awaits = true := by
      simp only [awaits, decide_eq_true_eq] at hwait hwait' ⊢
      omega
    have hspoils := hsteps u l v ⟨pre ++ more, List.prefix_rfl, hu, hstep⟩
    have hnear := toGo_step hinv (spawnInv_of_run hsteps hv.reaches) hbetween hwait' hstep hspoils
    have hsofar := hrest hwait hbetween
    rw [List.countP_append, List.countP_singleton]
    omega

/-- **`from_registry` delivers the service it has spawned**: as long as every call the instance's
loop enters before the ping is answered returns normally, its future is not dropped, and no `Stop`
gets into its mailbox before the ping, the call returns the address it registered, in a debug build
as in a release build. Until then it or the loop has a step to take, and once the ping is accepted
the loop answers it within `toGo` steps. -/
theorem spawn_delivers (S : SpawnSetup σ) (ls : List (SpawnLabel σ ρ))
    (hsteps : (machine Q ρ S).AllSteps ls fun u l _ => u.spoils S l = false) :
    (∀ w, (machine Q ρ S).Reaches ls w → Delivers S w)
      ∧ ∀ pre more w v, pre ++ more <+: ls → (machine Q ρ S).Run pre w →
          (machine Q ρ S).Run (pre ++ more) v → w.awaits = true → v.awaits = true →
          v.toGo + more.countP ofLoop ≤ w.toGo := by
  refine ⟨fun w hw => delivers_of_inv (spawnInv_of_run hsteps hw), ?_⟩
  intro pre more w v hle hw hv hwait hwait'
  exact (waits_of_run (hsteps.of_le hle) hw hv).2 hwait hwait'

/-- A service with the provided hooks, in a debug build or in a release build. -/
def plainService (debug : Bool) : SpawnSetup ℕ := ⟨.provided 0, 7, debug, none, 0, nofun⟩

def plainSpawn (debug : Bool) : Machine (SpawnWorld ChannelState ℕ ℕ) (SpawnLabel ℕ ℕ) :=
  machine ChannelState ℕ (plainService debug)

/-- Another client gets the address, replaces the service and sends a message before the ping. -/
def servedRun : List (SpawnLabel ℕ ℕ) :=
  [.advance, .advance, .lookup, .replace 1,
    .service (.begin (Addr.send fun n => .completed (n + 1) none)),
    .service (.advance 0), .service (.advance 0), .advance, .advance, .service .poll, .advance,
    .service .poll, .service .receive, .service .poll, .service .receive, .service .poll, .advance,
    .advance]

theorem spawn_delivers_served :
    ((plainSpawn true).after servedRun rfl).stage = .returned 0
      ∧ Delivers (plainService true) ((plainSpawn true).after servedRun rfl) := by
  have hcheck : (plainSpawn true).checkFrom (fun u l _ => !u.spoils (plainService true) l)
      (plainSpawn true).init servedRun = true := by decide +kernel
  refine ⟨by decide +kernel, ?_⟩
  refine (spawn_delivers (plainService true) servedRun fun u l u' htakes => ?_).1 _
    ((plainSpawn true).run_after servedRun rfl).reaches
  simpa using Machine.AllSteps.of_check hcheck u l u' htakes

/-! ## A ping that is not answered

Once the loop will never answer the ping, the sender of its response may still be alive in the
closed queue; then nothing wakes the call, which waits until its own future is dropped. -/

/-- A call whose ping is lost waits forever, unless its future is dropped. -/
theorem lost_of_run {i : ℕ} {pre more : List (SpawnLabel σ ρ)} (hw : (machine Q ρ S).Run pre w)
    (hv : (machine Q ρ S).Run (pre ++ more) v) (hst : w.stage = .pinging i)
    (hlost : w.service.Lost i) : v.stage = .pinging i ∨ v.stage = .dropped := by
  have hstep : ∀ (u : SpawnWorld Q σ ρ) (l : SpawnLabel σ ρ) (u' : SpawnWorld Q σ ρ),
      u.step S l = some u' → (u.stage = .pinging i ∧ u.service.Lost i ∨ u.stage = .dropped) →
      (u'.stage = .pinging i ∧ u'.service.Lost i ∨ u'.stage = .dropped) := by
    intro u l u' h hu
    rcases hu with ⟨hst, hlost⟩ | hdropped
    -- while it waits, the response it waits for does not come; a dropped future stays dropped
    · cases act_cases h with
      | service k s hl hs =>
        refine .inl ⟨hst, World.lost_step hlost hs ?_⟩
        rintro rfl
        simp [permitted, hst] at hl
      | ping j s hst' hs => exact .inl ⟨hst, World.lost_step hlost hs nofun⟩
      | lookup s hopen hs => exact .inl ⟨hst, World.lost_step hlost hs nofun⟩
      | giveUp j s hst' hs => exact .inr rfl
      | replace addr hopen hspare => exact .inl ⟨hst, hlost⟩
      | unregister hopen => exact .inl ⟨hst, hlost⟩
      | pinged j op r hst' hf =>
        obtain ⟨-, -, op', hf'⟩ := hlost
        simp_all
      | fail j op e hst' hf =>
        obtain ⟨-, -, op', hf'⟩ := hlost
        simp_all
      | insert | unlock | assert => simp_all
    · cases act_cases h with
      | service k s hl hs => exact .inr hdropped
      | lookup s hopen hs => exact .inr hdropped
      | replace addr hopen hspare => exact .inr hdropped
      | unregister hopen => exact .inr hdropped
      | _ => simp_all
  have hrel := Machine.Run.related
    (r := fun u u' : SpawnWorld Q σ ρ =>
      (u.stage = .pinging i ∧ u.service.Lost i ∨ u.stage = .dropped) →
      (u'.stage = .pinging i ∧ u'.service.Lost i ∨ u'.stage = .dropped))
    (fun _ => id) (fun _ _ _ hab hbc => hbc ∘ hab) hstep (List.prefix_append pre more) hw hv
  exact (hrel (.inl ⟨hst, hlost⟩)).imp_left And.left

/-- A service whose `started` returns an error. -/
def failingService (debug : Bool) : SpawnSetup ℕ :=
  ⟨{ Actor.provided 0 with started := fun _ a => .returned (a, .error (.boxed 1)) }, 7, debug, none,
    0, nofun⟩

def failingSpawn (debug : Bool) : Machine (SpawnWorld ChannelState ℕ ℕ) (SpawnLabel ℕ ℕ) :=
  machine ChannelState ℕ (failingService debug)

/-- `started` fails before the registry is released. -/
def failedRun : List (SpawnLabel ℕ ℕ) :=
  [.advance, .service .poll, .service .poll, .service .lower, .service .fire, .advance]

/-- Another client stops the service before the ping. -/
def stoppedRun : List (SpawnLabel ℕ ℕ) :=
  [.advance, .advance, .lookup, .service (.begin Addr.stop), .service (.advance 0),
    .service (.advance 0), .advance, .advance, .advance, .service .poll, .service .poll,
    .service .receive, .service .poll, .service .lower, .service .fire, .service .poll,
    .service .dropRx, .service .dropCtx]

/-- When `started` fails, a release build returns the address and the assertion of a debug build
fails. Behind a `Stop` the ping is left waiting forever. -/
theorem spawn_fails_ping :
    ((failingSpawn false).after failedRun rfl).stage = .returned 0
      ∧ ((failingSpawn true).after (failedRun ++ [.advance, .advance, .advance]) rfl).stage
        = .failed
      ∧ ((plainSpawn true).after stoppedRun rfl).stage = .pinging 1
      ∧ ∀ more v, (plainSpawn true).Run (stoppedRun ++ more) v →
          v.stage = .pinging 1 ∨ v.stage = .dropped := by
  have hst : ((plainSpawn true).after stoppedRun rfl).stage = .pinging 1 := by decide +kernel
  refine ⟨by decide +kernel, by decide +kernel, hst, fun more v hv => ?_⟩
  refine lost_of_run ((plainSpawn true).run_after stoppedRun rfl) hv hst ⟨?_, ?_, _, rfl⟩
  · decide +kernel
  · decide +kernel

end SpawnWorld

end Hannibal
