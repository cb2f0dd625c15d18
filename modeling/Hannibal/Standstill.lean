import Hannibal.Startup

/-!
# Hannibal.Standstill — where services that start each other come to stand

Calls wait for hooks, hooks wait for calls, and all calls for one lock; and the services may ask for
each other in circles.

* **`Hangs`** — a call awaits a lost ping, or one of an instance whose hook is in such a call.
* **`StartInv.resolved_of_stuck`** — where nothing can go on, all that is not over hangs so: whoever
  waits for an instance has spawned it, and the instance that was spawned last waits for nobody.
* **`work_progress`** — and nothing goes on for ever.
* **`startup_terminates`** — so every call returns, whatever the order of the steps, unless a ping
  is lost; `loses` are the steps that lose one. -/

namespace Hannibal

open Lts

namespace StartWorld

variable {needs : TypeKey → List TypeKey} {debug : Bool} {w w' : StartWorld}
  {l : StartLabel} {i k : ℕ}

/-- The steps that lose a ping: it gets behind a `Stop`, or to a loop that has ended; or the loop
ends that has it in its mailbox. -/
def loses (w : StartWorld) : StartLabel → Bool
  | .ping k => (List.range w.hooks.length).any fun i => w.pings k i && (w.told i || w.ended i)
  | .stop i => w.queued.any fun k => w.pings k i
  | .fail k => (w.owner k).any fun i => w.queued.any fun k => w.pings k i
  | _ => false

/-- No step loses a ping; in a release build there is none. -/
def Lossless (needs : TypeKey → List TypeKey) (debug : Bool) (ls : List StartLabel) : Prop :=
  debug = false ∨ (machine needs debug).AllSteps ls fun s l _ => s.loses l = false

/-- Every call is over, and every `started` has returned or was cut short. -/
def settled (w : StartWorld) : Prop :=
  (∀ c ∈ w.registry.calls, c.ended = true) ∧ ∀ h ∈ w.hooks, h.busy = false

/-- Call `k` waits for good: for a ping that is lost, or for one of an instance whose hook does
so. -/
inductive Hangs (w : StartWorld) : ℕ → Prop where
  | lost (k : ℕ) (hk : k ∈ w.lost) : Hangs w k
  | waits (k i k' : ℕ) (h : StartHook) (hk : k ∈ w.queued) (hping : w.pings k i = true)
      (hi : w.hooks[i]? = some h) (hcur : h.current = some k') (hhangs : Hangs w k') : Hangs w k

/-- Whatever is not over hangs. -/
structure Resolved (w : StartWorld) : Prop where
  calls : ∀ (k : ℕ) (c : RegistryCall), w.registry.calls[k]? = some c → c.ended = true ∨ w.Hangs k
  hooks : ∀ (i : ℕ) (h : StartHook), w.hooks[i]? = some h →
    h.busy = false ∨ ∃ k, h.current = some k ∧ w.Hangs k

/-! ## Who cannot go on hangs

Suppose no call, hook or ping can take a step. The lock is free then, since its holder could go on,
so a call that is not over pings. Its ping has been accepted, and it waits for a hook that is busy
with a call of its own, or it is lost. The instances it leads to are younger and younger, and
younger instances are finitely many, so at the end of the chain there is a lost ping. -/

/-- No call and no hook can go on. -/
def Stuck (needs : TypeKey → List TypeKey) (debug : Bool) (w : StartWorld) : Prop :=
  ∀ l : StartLabel, l.progress = true → w.step needs debug l = none

variable {c : RegistryCall} {h : StartHook}

theorem not_stuck_of_advance (hstuck : Stuck needs debug w)
    (hk : w.registry.calls[k]? = some c) (hc : ∃ r, w.registry.advance k = some r)
    (hping : ∀ i, c.stage = .pinging i → debug = true → k ∈ w.queued ∧ w.answers i = true) :
    False := by
  obtain ⟨r, hr⟩ := hc
  have hnone := hstuck (.registry (.advance k)) rfl
  have hpermitted : w.permitted debug (.advance k) = true := by
    obtain ⟨call, stage, ins, dis⟩ := c
    simp only [permitted, hk]
    -- only the debug ping needs an answer; any other step of a call is permitted
    cases stage with
    | pinging i =>
      cases debug with
      | false => rfl
      | true =>
        obtain ⟨hqueued, hanswers⟩ := hping i rfl rfl
        simp [hqueued, hanswers]
    | _ => rfl
  simp [step, hpermitted, RegistryWorld.step, hr] at hnone

/-- A ping that has not been accepted is, or it is refused. -/
theorem StartInv.pinged_of_stuck (hinv : StartInv w) (hstuck : Stuck needs true w)
    (hk : w.registry.calls[k]? = some c) (hst : c.stage = .pinging i) : w.pinged k = true := by
  by_contra hnew
  rw [Bool.not_eq_true] at hnew
  obtain ⟨call, stage, ins, dis⟩ := c
  cases hst
  cases hrun : w.registry.running i with
  -- the instance takes the ping in, or loses it
  | true =>
    have hnone := hstuck (.ping k) rfl
    simp only [step, ping, hk, hnew, hrun] at hnone
    cases hlate : w.told i || w.ended i <;> simp [hlate] at hnone
  -- the ping is refused: the call fails, and the hook it belongs to panics with it
  | false =>
    have hnone := hstuck (.fail k) rfl
    simp only [step, fail, hk, hnew, hrun] at hnone
    cases howner : w.owner k with
    | none => simp [howner, RegistryWorld.step, hk] at hnone
    | some j =>
      obtain ⟨hook, hj, hcur⟩ := owner_eq_some howner
      have hon : hook.ended = false := by
        by_contra hended
        have hbusy := hinv.ended j hook hj (by simpa using hended)
        simp [StartHook.busy, hcur] at hbusy
      simp [howner, stop, hj, hcur, hk, hon, RegistryWorld.step] at hnone

/-- A call that cannot go on pings. -/
theorem StartInv.pinging_of_stuck (hinv : StartInv w) (hstuck : Stuck needs debug w)
    (hk : w.registry.calls[k]? = some c) (hover : c.ended = false) :
    debug = true ∧ ∃ j, c.stage = .pinging j := by
  -- whoever holds the lock can go on
  have hfree : w.registry.lock = none := by
    by_contra hlock
    obtain ⟨k', hk'⟩ := Option.ne_none_iff_exists'.mp hlock
    obtain ⟨c', hc', hold⟩ := hinv.calls.held k' hk'
    refine not_stuck_of_advance hstuck hc'
      (RegistryWorld.exists_advance_of_holding hinv.calls hc' hold) fun i hi _ => ?_
    rw [hi] at hold
    cases hold
  have hnot : c.stage.holding = false := by
    rw [Bool.eq_false_iff]
    intro hold
    cases hfree.symm.trans (hinv.lock.holder k c hk hold)
  cases hst : c.stage with
  | waiting =>
    exact (not_stuck_of_advance hstuck hk
      (RegistryWorld.exists_advance_of_waiting hk hst hfree) fun i hi _ => by simp [hst] at hi).elim
  | locked | spawning | inserting i =>
    rw [hst] at hnot
    cases hnot
  | done o | dropped => simp [RegistryCall.ended, hst] at hover
  | pinging j =>
    refine ⟨?_, j, rfl⟩
    by_contra hdebug
    exact not_stuck_of_advance hstuck hk (RegistryWorld.exists_advance_of_pinging hinv.calls hk hst)
      fun _ _ hyes => absurd hyes hdebug

/-- A call that cannot go on hangs, if the hooks do that are in its way. -/
theorem StartInv.hangs_of_stuck (hinv : StartInv w) (hping : PingInv w)
    (hstuck : Stuck needs debug w)
    (hk : w.registry.calls[k]? = some c) (hover : c.ended = false)
    (ih : ∀ j h, c.stage = .pinging j → w.hooks[j]? = some h → h.busy = true →
      ∃ k', h.current = some k' ∧ w.Hangs k') : w.Hangs k := by
  obtain ⟨rfl, j, hst⟩ := hinv.pinging_of_stuck hstuck hk hover
  rcases pinged_iff.mp (hinv.pinged_of_stuck hstuck hk hst) with hqueued | hlost
  · have hpings : w.pings k j = true := pings_iff.mpr ⟨c, hk, hst⟩
    have hon := hping.queued k j hqueued hpings
    have hlt : j < w.hooks.length := hinv.hooks ▸ hinv.calls.pinged k c j hk hst
    have hj : w.hooks[j]? = some w.hooks[j] := List.getElem?_eq_getElem hlt
    rw [ended_of_hook hj] at hon
    cases hbusy : (w.hooks[j]).busy with
    -- the instance is in its hook, which hangs by the induction over the instances
    | true =>
      obtain ⟨k', hcur, hhangs⟩ := ih j _ hst hj hbusy
      exact .waits k j k' _ hqueued hpings hj hcur hhangs
    | false =>
      -- the loop answers
      refine (not_stuck_of_advance hstuck hk
        (RegistryWorld.exists_advance_of_pinging hinv.calls hk hst)
        fun i hi _ => ?_).elim
      cases hst.symm.trans hi
      exact ⟨hqueued, by simp [answers, hj, StartHook.serving, hbusy, hon]⟩
  · exact .lost k hlost

/-- A hook that cannot go on is in a call that is not over; what that has spawned is younger. -/
theorem StartInv.calling_of_stuck (hinv : StartInv w) (hstuck : Stuck needs debug w)
    (hi : w.hooks[i]? = some h) (hbusy : h.busy = true) :
    ∃ k c, h.current = some k ∧ w.registry.calls[k]? = some c ∧ c.ended = false
      ∧ ∀ j, c.stage = .pinging j → i < j := by
  have hnone := hstuck (.hook i) rfl
  obtain ⟨rest, cur, told, ended⟩ := h
  cases cur with
  | none =>
    cases rest with
    | nil => simp [StartHook.busy] at hbusy
    | cons A rest => simp [step, hook, hi, RegistryWorld.step, RegistryWorld.offers,
        ServiceCall.given] at hnone
  | some k =>
    obtain ⟨c, A, hk, hcall, hdropped, hyoung⟩ := hinv.asks i _ k hi rfl
    refine ⟨k, c, rfl, hk, ?_, fun j hj => hyoung j (.inr hj)⟩
    obtain ⟨call, stage, ins, dis⟩ := c
    cases stage with
    -- a call that is over is taken in by its hook
    | done o => simp [step, hook, hi, hk] at hnone
    | dropped => exact absurd rfl hdropped
    | _ => rfl

/-- So a hook that cannot go on hangs: the instances are finitely many. -/
theorem StartInv.hook_hangs_of_stuck (hinv : StartInv w) (hping : PingInv w)
    (hstuck : Stuck needs debug w) (hi : w.hooks[i]? = some h) (hbusy : h.busy = true) :
    ∃ k, h.current = some k ∧ w.Hangs k := by
  induction hn : w.hooks.length - i using Nat.strong_induction_on generalizing i h with
  | _ n ih =>
    obtain ⟨k, c, hcur, hk, hover, hyoung⟩ := hinv.calling_of_stuck hstuck hi hbusy
    refine ⟨k, hcur, hinv.hangs_of_stuck hping hstuck hk hover fun j h' hst hj hbusy' => ?_⟩
    have hij := hyoung j hst
    have hjlt := (List.getElem?_eq_some_iff.mp hj).1
    exact ih (w.hooks.length - j) (by omega) hj hbusy' rfl

/-- **No other deadlock.** Where no call and no hook can go on, those that are not over hang. -/
theorem StartInv.resolved_of_stuck (hinv : StartInv w) (hping : PingInv w)
    (hstuck : Stuck needs debug w) : w.Resolved where
  calls k c hk := by
    cases hover : c.ended with
    | true => exact .inl rfl
    | false =>
      exact .inr (hinv.hangs_of_stuck hping hstuck hk hover fun j h _ hj hbusy =>
        hinv.hook_hangs_of_stuck hping hstuck hj hbusy)
  hooks i h hi := by
    cases hbusy : h.busy with
    | false => exact .inl rfl
    | true => exact .inr (hinv.hook_hangs_of_stuck hping hstuck hi hbusy)

/-! ### Where no ping is lost

Only two kinds of steps lose a ping: one reaches an instance that is told to stop or has ended, or
a loop ends with pings in its queue. Runs without them settle every call. -/

/-- Who hangs does so for a ping that is lost. -/
theorem Hangs.lost_ne_nil (h : w.Hangs k) : w.lost ≠ [] := by
  induction h with
  | lost k hk => exact List.ne_nil_of_mem hk
  | waits k i k' h hk hping hi hcur hhangs ih => exact ih

theorem Resolved.settled (hres : w.Resolved) (hlost : w.lost = []) : w.settled := by
  refine ⟨fun c hc => ?_, fun h hh => ?_⟩
  · obtain ⟨k, hk⟩ := List.getElem?_of_mem hc
    rcases hres.calls k c hk with hover | hhangs
    · exact hover
    · exact absurd hlost hhangs.lost_ne_nil
  · obtain ⟨i, hi⟩ := List.getElem?_of_mem hh
    rcases hres.hooks i h hi with hidle | ⟨k, -, hhangs⟩
    · exact hidle
    · exact absurd hlost hhangs.lost_ne_nil

theorem filter_pings_eq_nil {j : ℕ} (h : w.queued.any (fun k => w.pings k j) = false) :
    (w.queued.filter fun k => w.pings k j) = [] :=
  List.filter_eq_nil_iff.mpr fun k hk => by simpa using List.any_eq_false.mp h k hk

/-- A ping is lost by the steps that lose one. -/
theorem lost_of_act (hact : Act needs debug w l w') (hl : w.loses l = false) :
    w'.lost = w.lost := by
  cases hact with
  | lose k i c hdebug hk hst hnew hlate =>
    have hlt : i < w.hooks.length := by
      have hany : w.hooks[i]?.any (fun _ => true) = true := by
        rcases hlate with hlate | hlate
        all_goals
          obtain ⟨h, hi, -⟩ := (Option.any_eq_true _ _).mp hlate
          simp [hi]
      obtain ⟨h, hi, -⟩ := (Option.any_eq_true _ _).mp hany
      exact (List.getElem?_eq_some_iff.mp hi).1
    have hpings : w.pings k i = true := pings_iff.mpr ⟨c, hk, hst⟩
    have hnot := List.any_eq_false.mp hl i (List.mem_range.mpr hlt)
    simp [hpings] at hnot
    simp [hnot] at hlate
  -- the queue of the instance that stops holds no ping
  | stopIdle i h hi hcur =>
    show w.lost ++ _ = _
    rw [filter_pings_eq_nil hl, List.append_nil]
  | stopCalling l i h k c hi hon hcur hk hst hl' =>
    show w.lost ++ _ = _
    rcases hl' with rfl | ⟨rfl, -, howner, -⟩
    · rw [filter_pings_eq_nil hl, List.append_nil]
    · simp only [loses, howner, Option.any_some] at hl
      rw [filter_pings_eq_nil hl, List.append_nil]
  | _ => rfl

/-- In a release build nobody pings. -/
theorem lost_of_release {ls : List StartLabel} (h : (machine needs false).Run ls w) :
    w.queued = [] ∧ w.lost = [] := by
  refine h.invariant (I := fun w => w.queued = [] ∧ w.lost = []) ⟨rfl, rfl⟩
    fun s l s' hs hstep => ?_
  obtain ⟨hqueued, hlost⟩ := hs
  cases act_cases hstep with
  | queue k i c hdebug => cases hdebug
  | lose k i c hdebug => cases hdebug
  | stopIdle i h hi hcur => simp [endLoop, hqueued, hlost]
  | stopCalling l i h k c hi hon hcur hk hst hl => simp [endLoop, hqueued, hlost]
  | _ => exact ⟨hqueued, hlost⟩

theorem lost_of_run {ls : List StartLabel} (h : (machine needs debug).Run ls w)
    (hls : Lossless needs debug ls) : w.lost = [] := by
  rcases hls with rfl | hls
  · exact (lost_of_release h).2
  · refine h.reaches.invariant_of_steps (I := fun w => w.lost = []) rfl ?_ hls
    exact fun s l s' hlost hstep hl => (lost_of_act (act_cases hstep) hl).trans hlost

/-! ## Nothing goes on for ever

A hook that asks for a service may cause another instance to be spawned, whose hook asks in its
turn. The dependencies are ordered by a height, so what an instance can cost is bounded; an instance
that is doomed to panic gives its place up for another one, and it pays for that in advance. -/

/-- The hook of instance `i` is in a call that has spawned instance `j`, and that has not pinged
it. -/
def Awaits (w : StartWorld) (i j : ℕ) : Prop :=
  ∃ h k c, w.hooks[i]? = some h ∧ h.current = some k ∧ w.registry.calls[k]? = some c
    ∧ (c.stage = .inserting j ∨ c.stage = .pinging j) ∧ w.pinged k = false

/-- The hook awaits an instance whose loop has ended, or one whose hook does so: a ping may fail. -/
inductive Doomed (w : StartWorld) : ℕ → Prop where
  | ended {i j : ℕ} (hawaits : w.Awaits i j) (hj : w.ended j = true) : Doomed w i
  | awaits {i j : ℕ} (hawaits : w.Awaits i j) (hj : Doomed w j) : Doomed w i

/-- The instance is doomed, or its loop has ended: its flag will go down. -/
def Leaving (w : StartWorld) (i : ℕ) : Prop :=
  w.Doomed i ∨ (w.ended i = true ∧ w.registry.running i = true)

theorem Doomed.exists (h : w.Doomed i) : ∃ j, w.Awaits i j := by
  cases h with
  | ended hawaits hj => exact ⟨_, hawaits⟩
  | awaits hawaits hj => exact ⟨_, hawaits⟩

/-- A step after which no more hooks are doomed. -/
theorem doomed_of (h : w'.Doomed i) (hawaits : ∀ i j, w'.Awaits i j → w.Awaits i j
      ∨ (w'.ended j = false ∧ ∀ j', ¬ w'.Awaits j j'))
    (hended : ∀ j, w'.ended j = true → w.ended j = true ∨ w.Doomed j) : w.Doomed i := by
  induction h with
  | @ended i j hij hj =>
    rcases hawaits i j hij with hold | ⟨hnew, -⟩
    -- the instance it waits for has ended before, or is doomed itself
    · rcases hended j hj with hended | hdoomed
      · exact .ended hold hended
      · exact .awaits hold hdoomed
    · rw [hj] at hnew
      cases hnew
  | @awaits i j hij hj ih =>
    rcases hawaits i j hij with hold | ⟨-, hnone⟩
    · exact .awaits hold ih
    · obtain ⟨j', hj'⟩ := hj.exists
      exact absurd hj' (hnone j')

/-- What a call of a hook has spawned in a step. -/
theorem awaits_registry (hinv : StartInv w) {l : RegistryLabel} {r : RegistryWorld}
    (hr : w.registry.step l = some r) {j : ℕ} (h : (w.withRegistry needs r).Awaits i j) :
    w.Awaits i j ∨ ((w.withRegistry needs r).ended j = false
      ∧ ∀ j', ¬ (w.withRegistry needs r).Awaits j j') := by
  have hact := RegistryWorld.act_cases hr
  obtain ⟨hook, k, c, hi, hcur, hk, hst, hnew⟩ := h
  have hold : w.hooks[i]? = some hook := by
    rcases hook_withRegistry hi with hold | ⟨-, A, rfl⟩
    · exact hold
    · cases hcur
  rcases RegistryWorld.call_of_act hact hk with hsame | ⟨d, hd, hmoved⟩ | ⟨-, -, hfresh⟩
  · exact .inl ⟨hook, k, c, hold, hcur, hsame, hst, hnew⟩
  · cases hmoved with
    | entered | left => simp at hst
    | decided st hc =>
      obtain ⟨d', A, hd', hcall, -⟩ := hinv.asks i hook k hold hcur
      rw [hd] at hd'
      cases hd'
      rcases hc.stages with ⟨-, -, rfl | ⟨j', hgiven, rfl⟩⟩
      · simp at hst
      · rw [hcall] at hgiven
        cases hgiven
    -- the only step that makes a hook wait for an instance it did not wait for
    | created A hcall hspawn htype =>
      obtain rfl : w.registry.instances.length = j := by simpa using hst
      -- the new instance has not begun its hook
      have hbegin : ∀ hook', (w.withRegistry needs r).hooks[w.registry.instances.length]?
          = some hook' →
          ∃ B, hook' = .begin (needs B) := by
        intro hook' hj
        rcases hook_withRegistry hj with hold' | ⟨-, hbegin⟩
        · exact absurd (List.getElem?_eq_some_iff.mp hold').1
            (by rw [hinv.hooks]; exact lt_irrefl _)
        · exact hbegin
      refine .inr ⟨?_, ?_⟩
      · rw [Bool.eq_false_iff]
        intro hended
        obtain ⟨hook', hj, hended⟩ := (Option.any_eq_true _ _).mp hended
        obtain ⟨B, rfl⟩ := hbegin hook' hj
        cases hended
      · rintro j' ⟨hook', k', c', hj, hcur', -⟩
        obtain ⟨B, rfl⟩ := hbegin hook' hj
        cases hcur'
    | wrote A new st hkey hc =>
      left
      obtain ⟨call, stage, ins, dis⟩ := d
      cases hc with
      | spawned B j' =>
        obtain rfl : j' = j := by simpa using hst
        exact ⟨hook, k, _, hold, hcur, hd, .inl rfl, hnew⟩
      | _ => simp at hst
    | passed st hc =>
      obtain ⟨call, stage, ins, dis⟩ := d
      cases hc <;> simp at hst
  · rw [hfresh] at hst
    simp at hst

/-- A ping that is accepted takes its call from those that await. -/
theorem awaits_of_pinged {q m : List ℕ} {j : ℕ} (hq : ∀ k ∈ w.queued, k ∈ q)
    (hm : ∀ k ∈ w.lost, k ∈ m)
    (h : Awaits { w with queued := q, lost := m } i j) : w.Awaits i j := by
  obtain ⟨hook, k, c, hi, hcur, hk, hst, hnew⟩ := h
  refine ⟨hook, k, c, hi, hcur, hk, hst, ?_⟩
  rw [Bool.eq_false_iff] at hnew ⊢
  refine fun hold => hnew (pinged_iff.mpr ?_)
  exact (pinged_iff.mp hold).imp (hq k) (hm k)

/-- A loop that ends loses pings only. -/
theorem pinged_endLoop {r : RegistryWorld} : (w.endLoop r i).pinged k = w.pinged k := by
  rw [Bool.eq_iff_iff, pinged_iff, pinged_iff]
  simp only [endLoop, List.mem_filter, List.mem_append]
  by_cases hping : w.pings k i = true <;> simp [hping, or_comm]

/-- A ping that is refused is one of an instance whose loop has ended. -/
theorem StartInv.ended_of_refused (hinv : StartInv w) {c : RegistryCall} {j : ℕ}
    (hk : w.registry.calls[k]? = some c) (hst : c.stage = .pinging j)
    (hdown : w.registry.running j = false ∨ w.ended j = true) : w.ended j = true := by
  rcases hdown with hrun | hended
  · have hlt : j < w.hooks.length := hinv.hooks ▸ hinv.calls.pinged k c j hk hst
    have hj : w.hooks[j]? = some w.hooks[j] := List.getElem?_eq_getElem hlt
    rw [ended_of_hook hj]
    exact hinv.lowered j _ hj hrun
  · exact hended

/-- A hook whose ping is refused is doomed. -/
theorem StartInv.doomed_of_refused (hinv : StartInv w) {h : StartHook} (hi : w.hooks[i]? = some h)
    (hcur : h.current = some k) (href : w.Refused k) : w.Doomed i := by
  obtain ⟨c, j, hk, hst, hnew, hdown⟩ := href
  exact .ended ⟨h, k, c, hi, hcur, hk, .inr hst, hnew⟩ (hinv.ended_of_refused hk hst hdown)

/-- **No step of a call or a hook dooms one.** -/
theorem doomed_act (hinv : StartInv w) (hstep : w.step needs debug l = some w')
    (hl : l.progress = true)
    (h : w'.Doomed i) : w.Doomed i := by
  cases act_cases hstep with
  | registry l r hpermitted hr =>
    exact doomed_of h (fun i j => awaits_registry hinv hr) fun j hj => .inl (ended_withRegistry hj)
  | ask i₀ A rest told ended hi =>
    refine doomed_of h (fun i j => ?_) fun j hj => .inl (ended_set hj hi rfl)
    rintro ⟨hook, k, c, hj, hcur, hk, hst, hnew⟩
    left
    rcases Table.getElem?_snoc.mp hk with hold | ⟨-, rfl⟩
    · rcases hook_set hj with ⟨-, hj⟩ | ⟨rfl, rfl⟩
      · exact ⟨hook, k, c, hj, hcur, hold, hst, hnew⟩
      · cases hcur
        exact absurd (List.getElem?_eq_some_iff.mp hold).1 (lt_irrefl _)
    · simp at hst
  | got i₀ rest k₀ told ended c₀ o hi hk₀ hst₀ =>
    refine doomed_of h (fun i j => ?_) fun j hj => .inl (ended_set hj hi rfl)
    rintro ⟨hook, k, c, hj, hcur, hk, hst, hnew⟩
    rcases hook_set hj with ⟨-, hj⟩ | ⟨rfl, rfl⟩
    · exact .inl ⟨hook, k, c, hj, hcur, hk, hst, hnew⟩
    · cases hcur
  | queue k₀ i₀ c₀ hdebug hk₀ hst₀ hnew htold hended =>
    exact doomed_of h (fun i j hij => .inl (awaits_of_pinged (fun k hk => List.mem_append_left _ hk)
      (fun _ hk => hk) hij)) fun j hj => .inl hj
  | lose k₀ i₀ c₀ hdebug hk₀ hst₀ hnew hlate =>
    exact doomed_of h (fun i j hij => .inl (awaits_of_pinged (fun _ hk => hk)
      (fun k hk => List.mem_append_left _ hk) hij)) fun j hj => .inl hj
  | tell i₀ => cases hl
  | stopIdle i₀ h₀ hi hcur => cases hl
  | stopCalling l i₀ h₀ k₀ c₀ hi hon hcur₀ hk₀ hst₀ hl' =>
    rcases hl' with rfl | ⟨rfl, -, -, href⟩
    · cases hl
    refine doomed_of h (fun i j => ?_) fun j hj => ?_
    · rintro ⟨hook, k, c, hj, hcur, hk, hst, hnew⟩
      rw [pinged_endLoop] at hnew
      rcases Table.of_getElem?_modify hj with ⟨-, hj⟩ | ⟨-, x, -, rfl⟩
      · rcases RegistryWorld.call_of_setStage hk with ⟨-, hold⟩ | ⟨-, d, -, rfl⟩
        · exact .inl ⟨hook, k, c, hj, hcur, hold, hst, hnew⟩
        · simp at hst
      · cases hcur
    · -- the hook that panics is the one whose ping was refused
      rcases ended_endLoop hj with hended | rfl
      · exact .inl hended
      · exact .inr (hinv.doomed_of_refused hi hcur₀ href)
  | lower i₀ hended hrun => exact doomed_of h (fun i j hij => .inl hij) fun j hj => .inl hj
  | fail k₀ c₀ hk₀ j₀ hst₀ howner =>
    refine doomed_of h (fun i j => ?_) fun j hj => .inl hj
    rintro ⟨hook, k, c, hj, hcur, hk, hst, hnew⟩
    rcases RegistryWorld.call_of_setStage hk with ⟨-, hold⟩ | ⟨-, d, -, rfl⟩
    · exact .inl ⟨hook, k, c, hj, hcur, hold, hst, hnew⟩
    · simp at hst

/-- The registry, after any step. -/
theorem registry_of_act (hact : Act needs debug w l w') :
    w'.registry = w.registry ∨ RegistryWorld.Act w.registry w'.registry := by
  cases hact with
  | registry l r hl hr => exact .inr (RegistryWorld.act_cases hr)
  | ask i A rest told ended hi => exact .inr (.begin (.fromRegistry A) rfl)
  | stopCalling l i h k c hi hon hcur hk hst hl => exact .inr (dropped_of_ping hk hst)
  | lower i hended hrun => exact .inr (.stop i)
  | fail k c hk j hst howner => exact .inr (dropped_of_ping hk (.inr ⟨j, hst⟩))
  | _ => exact .inl rfl

theorem ended_lt (h : w.ended i = true) : i < w.hooks.length := by
  obtain ⟨hook, hi, -⟩ := (Option.any_eq_true _ _).mp h
  exact (List.getElem?_eq_some_iff.mp hi).1

theorem typeOf_of_lt {r : RegistryWorld} (hi : i < r.instances.length) : ∃ A, r.typeOf i = some A :=
  ⟨_, by rw [RegistryWorld.typeOf, List.getElem?_eq_getElem hi, Option.map_some]⟩

/-- Instances keep their type. -/
theorem typeOf_eq (hinv : StartInv w) (hact : Act needs debug w l w') (hi : i < w.hooks.length) :
    w'.registry.typeOf i = w.registry.typeOf i := by
  rcases registry_of_act hact with hsame | hreg
  · rw [hsame]
  · obtain ⟨A, hA⟩ := typeOf_of_lt (hinv.hooks ▸ hi)
    rw [hA]
    exact RegistryWorld.typeOf_act hreg hA

/-- A flag that is up has been so before. -/
theorem running_of_act (hinv : StartInv w) (hact : Act needs debug w l w') (hi : i < w.hooks.length)
    (hrun : w'.registry.running i = true) : w.registry.running i = true := by
  rcases registry_of_act hact with hsame | hreg
  · rwa [hsame] at hrun
  · by_contra hstop
    obtain ⟨A, hA⟩ := typeOf_of_lt (hinv.hooks ▸ hi)
    rw [RegistryWorld.running_act hreg hA (by simpa using hstop)] at hrun
    cases hrun

theorem leaving_act (hinv : StartInv w) (hstep : w.step needs debug l = some w')
    (hl : l.progress = true) (h : w'.Leaving i) : w.Leaving i := by
  rcases h with hdoomed | ⟨hended, hrun⟩
  · exact .inl (doomed_act hinv hstep hl hdoomed)
  have hact := act_cases hstep
  have hold : w.ended i = true → w.Leaving i := fun hold =>
    .inr ⟨hold, running_of_act hinv hact (ended_lt hold) hrun⟩
  cases hact with
  | registry l r hpermitted hr => exact hold (ended_withRegistry hended)
  | ask i₀ A rest told ended hi => exact hold (ended_set hended hi rfl)
  | got i₀ rest k₀ told ended c₀ o hi hk₀ hst₀ => exact hold (ended_set hended hi rfl)
  | tell i₀ => cases hl
  | stopIdle i₀ h₀ hi hcur => cases hl
  | stopCalling l i₀ h₀ k₀ c₀ hi hon hcur₀ hk₀ hst₀ hl' =>
    rcases hl' with rfl | ⟨rfl, -, -, href⟩
    · cases hl
    rcases ended_endLoop hended with hended | rfl
    · exact hold hended
    · exact .inl (hinv.doomed_of_refused hi hcur₀ href)
  | _ => exact hold hended

/-! ### The work that is left

The measure adds up what the calls have left, what the hooks have left, the pings that are still to
be accepted, and the charge of the instances that are leaving. -/

/-- What is left of a hook, with its calls. -/
def hookWork (h : StartHook) : ℕ := 8 * h.remaining.length + if h.current = none then 0 else 1

/-- What the hook of a new instance of `A` comes to. -/
def cost (needs : TypeKey → List TypeKey) (A : TypeKey) : ℕ := 8 * (needs A).length

def typeAt (w : StartWorld) (i : ℕ) : TypeKey := (w.registry.typeOf i).getD 0

open Classical in
/-- An instance that comes to its end lowers its flag, and makes room for another one. -/
noncomputable def charge (needs : TypeKey → List TypeKey) (w : StartWorld) : ℕ :=
  ∑ i ∈ Finset.range w.hooks.length, if w.Leaving i then cost needs (w.typeAt i) + 1 else 0

/-- The calls that may still ping. -/
def unpinged (w : StartWorld) : ℕ :=
  ((Finset.range w.registry.calls.length).filter fun k => w.pinged k = false).card

/-- All that is left to do, as far as it is about services of types in `T`. -/
noncomputable def work (needs : TypeKey → List TypeKey) (T : Finset TypeKey) (w : StartWorld) : ℕ :=
  w.registry.work (cost needs) T + (w.hooks.map hookWork).sum + w.charge needs + w.unpinged

theorem Doomed.lt (h : w.Doomed i) : i < w.hooks.length := by
  obtain ⟨j, hook, k, c, hi, -⟩ := h.exists
  exact (List.getElem?_eq_some_iff.mp hi).1

theorem Leaving.lt (h : w.Leaving i) : i < w.hooks.length := by
  rcases h with hdoomed | ⟨hended, -⟩
  · exact hdoomed.lt
  · exact ended_lt hended

open Classical in
theorem charge_eq_sum (hleaving : ∀ i, w'.Leaving i → w.Leaving i)
    (htype : ∀ i < w.hooks.length, w'.registry.typeOf i = w.registry.typeOf i) : w'.charge needs
      = ∑ i ∈ Finset.range w.hooks.length, if w'.Leaving i then cost needs (w.typeAt i)
        + 1 else 0 := by
  have hsame : w'.charge needs = ∑ i ∈ Finset.range w'.hooks.length,
      if w'.Leaving i then cost needs (w.typeAt i) + 1 else 0 := by
    refine Finset.sum_congr rfl fun i _ => ?_
    by_cases hi : w'.Leaving i
    · simp only [if_pos hi, typeAt, htype i (hleaving i hi).lt]
    · rw [if_neg hi, if_neg hi]
  rw [hsame]
  -- an instance beyond either table leaves in neither state
  refine Finset.sum_congr_of_eq_on_inter ?_ ?_ fun i _ _ => rfl
  · intro i _ hlt
    exact if_neg fun hi => hlt (Finset.mem_range.mpr (hleaving i hi).lt)
  · intro i _ hlt
    exact if_neg fun hi => hlt (Finset.mem_range.mpr hi.lt)

open Classical in
theorem charge_le (needs : TypeKey → List TypeKey) (hleaving : ∀ i, w'.Leaving i → w.Leaving i)
    (htype : ∀ i < w.hooks.length, w'.registry.typeOf i = w.registry.typeOf i) :
    w'.charge needs ≤ w.charge needs := by
  rw [charge_eq_sum hleaving htype]
  refine Finset.sum_le_sum fun i _ => ?_
  by_cases hi : w'.Leaving i
  · rw [if_pos hi, if_pos (hleaving i hi)]
  · rw [if_neg hi]
    exact Nat.zero_le _

open Classical in
/-- An instance that has gone has paid for the one that may come after it. -/
theorem charge_lower (needs : TypeKey → List TypeKey) (hi : w.Leaving i) (hnot : ¬ w'.Leaving i)
    (hleaving : ∀ i, w'.Leaving i → w.Leaving i)
    (htype : ∀ i < w.hooks.length, w'.registry.typeOf i = w.registry.typeOf i) :
    w'.charge needs + (cost needs (w.typeAt i) + 1) ≤ w.charge needs := by
  rw [charge_eq_sum hleaving htype]
  have hdrop :=
    Table.sum_drop (f := fun i => if w.Leaving i then cost needs (w.typeAt i) + 1 else 0)
    (g := fun i => if w'.Leaving i then cost needs (w.typeAt i) + 1 else 0)
    (Finset.mem_range.mpr hi.lt) (fun j _ => ?_) (if_neg hnot)
  · rw [if_pos hi] at hdrop
    exact hdrop
  · by_cases hj : w'.Leaving j
    · rw [if_pos hj, if_pos (hleaving j hj)]
    · rw [if_neg hj]
      exact Nat.zero_le _

theorem unpinged_le (hlen : w'.registry.calls.length = w.registry.calls.length)
    (hpinged : ∀ k, w.pinged k = true → w'.pinged k = true) : w'.unpinged ≤ w.unpinged := by
  unfold unpinged
  rw [hlen]
  refine Finset.card_le_card fun k hk => ?_
  rw [Finset.mem_filter] at hk ⊢
  refine ⟨hk.1, ?_⟩
  by_contra hold
  rw [hpinged k (by simpa using hold)] at hk
  cases hk.2

/-- A ping that is accepted. -/
theorem unpinged_lt (hlen : w'.registry.calls.length = w.registry.calls.length)
    (hpinged : ∀ k, w.pinged k = true → w'.pinged k = true) (hk : k < w.registry.calls.length)
    (hnew : w.pinged k = false) (hdone : w'.pinged k = true) : w'.unpinged < w.unpinged := by
  unfold unpinged
  rw [hlen]
  refine Finset.card_lt_card (Finset.ssubset_iff_subset_ne.mpr ⟨fun m hm => ?_, fun hsame => ?_⟩)
  · rw [Finset.mem_filter] at hm ⊢
    refine ⟨hm.1, ?_⟩
    by_contra hold
    rw [hpinged m (by simpa using hold)] at hm
    cases hm.2
  · have hmem : k ∈ (Finset.range w.registry.calls.length).filter fun k => w.pinged k = false :=
      Finset.mem_filter.mpr ⟨Finset.mem_range.mpr hk, hnew⟩
    rw [← hsame, Finset.mem_filter, hdone] at hmem
    cases hmem.2

theorem unpinged_ask (hlen : w'.registry.calls.length = w.registry.calls.length + 1)
    (hpinged : ∀ k, w'.pinged k = w.pinged k) : w'.unpinged ≤ w.unpinged + 1 := by
  unfold unpinged
  rw [hlen, Finset.range_add_one, Finset.filter_insert]
  simp only [hpinged]
  split
  · exact Finset.card_insert_le _ _
  · exact Nat.le_succ _

variable {T : Finset TypeKey}

/-- An instance that stops may make room for another one of its type. -/
theorem work_stop {cost : TypeKey → ℕ} {r : RegistryWorld} (ht : r.Typed) {i : ℕ} {A : TypeKey}
    (hi : r.typeOf i = some A) : (r.stop i).work cost T ≤ r.work cost T + cost A := by
  have hroom : (r.stop i).room cost T ≤ r.room cost T + cost A := by
    refine RegistryWorld.room_le_add fun B hne hB => ?_
    have hrun : ∀ j, r.typeOf j = some B → (r.stop i).running j = false → r.running j = false := by
      intro j hj hstop
      have hij : i ≠ j := by
        rintro rfl
        exact hne (Option.some.inj (hj.symm.trans hi))
      unfold RegistryWorld.running at hstop ⊢
      rwa [show (r.stop i).instances[j]? = r.instances[j]? from Table.getElem?_modify_of_ne hij]
        at hstop
    obtain ⟨hvac, hins⟩ := RegistryWorld.spawnable_iff.mp hB
    refine RegistryWorld.spawnable_iff.mpr ⟨fun j hj => ?_, fun k c j hk hst hkey => ?_⟩
    · refine hrun j ?_ (hvac j hj)
      obtain ⟨e, he, hitem⟩ := Option.bind_eq_some_iff.mp hj
      have hentry := ht.entry he
      rw [show r.entry B = some j from hj] at hentry
      cases hentry
      exact (ht.registry B e he).2
    · exact hrun j (hkey ▸ ht.inserting k c j hk hst) (hins k c j hk hst hkey)
  have hcalls : (r.stop i).calls = r.calls := rfl
  unfold RegistryWorld.work
  rw [hcalls]
  omega

/-- A hook's call. -/
theorem work_ask {cost : TypeKey → ℕ} {r : RegistryWorld} (A : TypeKey) :
    RegistryWorld.work cost T
      { r with calls := r.calls ++ [⟨.fromRegistry A, .waiting, none, none⟩] }
      ≤ r.work cost T + 5 := by
  have hroom : RegistryWorld.room cost T
      { r with calls := r.calls ++ [⟨.fromRegistry A, .waiting, none, none⟩] } ≤ r.room cost T :=
    RegistryWorld.room_le fun B hB => RegistryWorld.spawnable_of hB (fun j hj => hj)
      (fun j hj => .inl hj) fun j c i hj _ _ => .inl (Table.getElem?_snoc_of_some hj)
  simp only [RegistryWorld.work, List.map_append, List.sum_append, List.map_cons, List.map_nil,
    List.sum_cons, List.sum_nil, RegistryWorld.callWork, RegistryWorld.togo] at hroom ⊢
  omega

/-- A ping that has failed. -/
theorem work_drop {cost : TypeKey → ℕ} {r : RegistryWorld} {k j : ℕ} {c : RegistryCall}
    (hk : r.calls[k]? = some c) (hst : c.stage = .pinging j) :
    (r.setStage k .dropped).work cost T < r.work cost T := by
  have hless : RegistryWorld.newWork cost r (r.setStage k .dropped)
      + (r.setStage k .dropped).work cost T < r.work cost T :=
    RegistryWorld.work_setStage rfl rfl rfl hk (by simp [hst]) (by simp [hst, RegistryWorld.togo])
      fun hpending => by cases hpending
  omega

theorem sum_set (hi : w.hooks[i]? = some h) (h' : StartHook) :
    ((w.hooks.set i h').map hookWork).sum + hookWork h = (w.hooks.map hookWork).sum
      + hookWork h' := by
  rw [show w.hooks.set i h' = w.hooks.modify i fun _ => h' from List.set_eq_modify ..]
  exact Table.sum_modify hi

/-- All the services that are asked for are of types in `T`. -/
structure Within (T : Finset TypeKey) (w : StartWorld) : Prop where
  calls : ∀ c ∈ w.registry.calls, c.call.key ∈ T
  hooks : ∀ h ∈ w.hooks, ∀ A ∈ h.remaining, A ∈ T

/-- The hooks of new instances ask for what their types need. -/
theorem within_hooks {S : Finset TypeKey} (hS : ∀ A, ∀ B ∈ needs A, B ∈ S)
    (hw : ∀ h ∈ w.hooks, ∀ A ∈ h.remaining, A ∈ S) (hact : Act needs debug w l w') :
    ∀ h ∈ w'.hooks, ∀ A ∈ h.remaining, A ∈ S := by
  have hset : ∀ {i : ℕ} {h' : StartHook}, (∀ A ∈ h'.remaining, A ∈ S) →
      ∀ h ∈ w.hooks.set i h', ∀ A ∈ h.remaining, A ∈ S := by
    intro i h' hh' h hh
    rcases List.mem_or_eq_of_mem_set hh with hold | rfl
    · exact hw h hold
    · exact hh'
  have hmodify : ∀ {i : ℕ} {φ : StartHook → StartHook},
      (∀ h, ∀ A ∈ (φ h).remaining, A ∈ h.remaining) →
      ∀ h ∈ w.hooks.modify i φ, ∀ A ∈ h.remaining, A ∈ S := by
    intro i φ hφ h hh A hA
    rcases Table.of_mem_modify hh with hold | ⟨x, hx, rfl⟩
    · exact hw h hold A hA
    · exact hw x hx A (hφ x A hA)
  cases hact with
  | registry l r hl hr =>
    intro h hh
    obtain ⟨j, hj⟩ := List.getElem?_of_mem hh
    rcases hook_withRegistry hj with hold | ⟨-, A, rfl⟩
    · exact hw h (List.mem_of_getElem? hold)
    · exact hS A
  | ask i A rest told ended hi =>
    exact hset fun B hB => hw _ (List.mem_of_getElem? hi) B (List.mem_cons_of_mem A hB)
  | got i rest k told ended c o hi hk hst =>
    exact hset fun B hB => hw _ (List.mem_of_getElem? hi) B hB
  | tell i => exact hmodify fun h A hA => hA
  | stopIdle i h hi hcur => exact hmodify fun h A hA => absurd hA List.not_mem_nil
  | stopCalling l i h k c hi hon hcur hk hst hl =>
    exact hmodify fun h A hA => absurd hA List.not_mem_nil
  | _ => exact hw

/-- Calls and hooks that go on ask for nothing else. -/
theorem within_act (hS : ∀ A, ∀ B ∈ needs A, B ∈ T) (hw : w.Within T)
    (hact : Act needs debug w l w')
    (hl : l.progress = true) : w'.Within T := by
  refine ⟨fun c hc => ?_, within_hooks hS hw.hooks hact⟩
  obtain ⟨k, hk⟩ := List.getElem?_of_mem hc
  have hset : ∀ {k' : ℕ} {st : CallStage}, (w.registry.setStage k' st).calls[k]? = some c →
      c.call.key ∈ T := by
    intro k' st hk
    rcases RegistryWorld.call_of_setStage hk with ⟨-, hold⟩ | ⟨-, d, hd, rfl⟩
    · exact hw.calls c (List.mem_of_getElem? hold)
    · exact hw.calls d (List.mem_of_getElem? hd)
  cases hact with
  | registry l r hpermitted hr =>
    rcases RegistryWorld.call_of_act (RegistryWorld.act_cases hr) hk with hold
      | ⟨d, hd, hmoved⟩ | hnew
    · exact hw.calls c (List.mem_of_getElem? hold)
    · rw [hmoved.call_eq]
      exact hw.calls d (List.mem_of_getElem? hd)
    · cases l with
      | advance k' =>
        have hlt := (List.getElem?_eq_some_iff.mp hk).1
        rw [show (w.withRegistry needs r).registry.calls.length = w.registry.calls.length from
          (RegistryWorld.stage_of_advance hr).1] at hlt
        rw [List.getElem?_eq_getElem hlt] at hnew
        cases hnew.1
      | _ => cases hl
  | ask i A rest told ended hi =>
    rcases Table.getElem?_snoc.mp hk with hold | ⟨-, rfl⟩
    · exact hw.calls c (List.mem_of_getElem? hold)
    · exact hw.hooks _ (List.mem_of_getElem? hi) A List.mem_cons_self
  | stopCalling l i h k' d hi hon hcur hk' hst hl' => exact hset hk
  | fail k' d hk' j hst howner => exact hset hk
  | _ => exact hw.calls c hc

/-- A call goes on. The hook of an instance that it has spawned was part of its work. -/
theorem work_registry (hinv : StartInv w) (hw : w.Within T) {r : RegistryWorld}
    (hr : w.registry.step (.advance k) = some r)
    (hcharge : (w.withRegistry needs r).charge needs ≤ w.charge needs) :
    (w.withRegistry needs r).work needs T < w.work needs T := by
  have hact := RegistryWorld.act_cases hr
  obtain ⟨hlen, ⟨c, c', hc, hc', hne, -⟩, -⟩ := RegistryWorld.stage_of_advance hr
  have hhooks : ((w.withRegistry needs r).hooks.map hookWork).sum
      = (w.hooks.map hookWork).sum + RegistryWorld.newWork (cost needs) w.registry r := by
    simp [withRegistry, RegistryWorld.newWork, hinv.hooks, Function.comp_def, hookWork,
      StartHook.begin, cost]
  have hcalls : r.calls ≠ w.registry.calls := by
    intro hsame
    rw [hsame, hc] at hc'
    cases hc'
    exact hne rfl
  have hless : RegistryWorld.newWork (cost needs) w.registry r + r.work (cost needs) T
      < w.registry.work (cost needs) T :=
    RegistryWorld.work_act hinv.lock hw.calls hact hlen hcalls
  have hunpinged : (w.withRegistry needs r).unpinged ≤ w.unpinged :=
    unpinged_le hlen fun _ hk => hk
  unfold work
  rw [hhooks]
  simp only [withRegistry] at hcharge hunpinged ⊢
  omega

/-- A hook panics, since its ping was refused. -/
theorem work_panic (hi : w.hooks[i]? = some h) (hk : w.registry.calls[k]? = some c) {j : ℕ}
    (hst : c.stage = .pinging j)
    (hcharge : (w.endLoop (w.registry.setStage k .dropped) i).charge needs ≤ w.charge needs) :
    (w.endLoop (w.registry.setStage k .dropped) i).work needs T < w.work needs T := by
  have hdrop := @work_drop T (cost needs) _ _ _ _ hk hst
  have hhooks : ((w.hooks.modify i StartHook.stop).map hookWork).sum + hookWork h
      = (w.hooks.map hookWork).sum + 0 := Table.sum_modify hi
  have hunpinged : (w.endLoop (w.registry.setStage k .dropped) i).unpinged ≤ w.unpinged :=
    unpinged_le (List.length_modify ..) fun k hk => pinged_endLoop.trans hk
  simp only [work, endLoop] at hcharge hunpinged ⊢
  omega

/-- An instance lowers its flag. -/
theorem work_lower (hinv : StartInv w) (hended : w.ended i = true)
    (hrun : w.registry.running i = true)
    (hleaving : ∀ j, Leaving { w with registry := w.registry.stop i } j → w.Leaving j) :
    work needs T { w with registry := w.registry.stop i } < w.work needs T := by
  have hact : Act needs false w (.lower i) { w with registry := w.registry.stop i } :=
    .lower i hended hrun
  obtain ⟨A, hA⟩ := typeOf_of_lt (hinv.hooks ▸ ended_lt hended)
  have htype : w.registry.typeOf i = some (w.typeAt i) := by rw [typeAt, hA, Option.getD_some]
  have hroom : (w.registry.stop i).work (cost needs) T
      ≤ w.registry.work (cost needs) T + cost needs (w.typeAt i) := work_stop hinv.typed htype
  have hnot : ¬ Leaving { w with registry := w.registry.stop i } i := by
    rintro (hdoomed | ⟨-, hup⟩)
    · -- its hook awaits nothing any more
      obtain ⟨j, hook, k, c, hi, hcur, -⟩ := hdoomed.exists
      have hbusy := hinv.ended i hook hi (ended_of_hook hi ▸ hended)
      simp [StartHook.busy, hcur] at hbusy
    · have hdown : (w.registry.stop i).running i = false := by
        obtain ⟨x, hx, -⟩ := Option.map_eq_some_iff.mp hA
        show ((w.registry.instances.modify i _)[i]?).any _ = false
        rw [Table.getElem?_modify_self hx, Option.any_some]
      rw [show RegistryWorld.running _ i = false from hdown] at hup
      cases hup
  have hcharge := charge_lower needs (.inr ⟨hended, hrun⟩) hnot hleaving
    fun j hj => typeOf_eq hinv hact hj
  have hunpinged : unpinged { w with registry := w.registry.stop i } ≤ w.unpinged :=
    unpinged_le rfl fun _ hk => hk
  simp only [work] at hcharge hunpinged ⊢
  omega

/-- **Whatever goes on leaves less to do.** -/
theorem work_progress (hinv : StartInv w) (hw : w.Within T) (hstep : w.step needs debug l = some w')
    (hl : l.progress = true) : w'.work needs T < w.work needs T := by
  have hact := act_cases hstep
  have hleaving : ∀ i, w'.Leaving i → w.Leaving i := fun i => leaving_act hinv hstep hl
  have hcharge : w'.charge needs ≤ w.charge needs :=
    charge_le needs hleaving fun i hi => typeOf_eq hinv hact hi
  have hpings : ∀ {q m : List ℕ} {k i : ℕ} {c : RegistryCall}, w.registry.calls[k]? = some c →
      c.stage = .pinging i → w.pinged k = false → (∀ k ∈ w.queued, k ∈ q) → (∀ k ∈ w.lost, k ∈ m) →
      (k ∈ q ∨ k ∈ m) → unpinged { w with queued := q, lost := m } < w.unpinged := by
    intro q m k i c hk hst hnew hq hm hdone
    refine unpinged_lt rfl (fun k' hk' => ?_) (List.getElem?_eq_some_iff.mp hk).1 hnew
      (pinged_iff.mpr hdone)
    exact pinged_iff.mpr ((pinged_iff.mp hk').imp (hq k') (hm k'))
  cases hact with
  | registry l r hpermitted hr =>
    cases l with
    | advance k => exact work_registry hinv hw hr hcharge
    | _ => cases hl
  | ask i A rest told ended hi =>
    have hhooks := sum_set hi ⟨rest, some w.registry.calls.length, told, ended⟩
    have hask := @work_ask T (cost needs) w.registry A
    have hunpinged := @unpinged_ask w { w with
      registry := { w.registry with
        calls := w.registry.calls ++ [⟨.fromRegistry A, .waiting, none, none⟩] }
      hooks := w.hooks.set i ⟨rest, some w.registry.calls.length, told, ended⟩ }
      (List.length_append ..) fun _ => rfl
    unfold work
    simp only [hookWork, List.length_cons, reduceCtorEq, if_false, if_true] at hhooks ⊢
    simp only at hcharge hask hunpinged
    omega
  | got i rest k told ended c o hi hk hst =>
    have hhooks := sum_set hi ⟨rest, none, told, ended⟩
    have hunpinged := @unpinged_le w
      { w with hooks := w.hooks.set i ⟨rest, none, told, ended⟩ } rfl fun _ hk => hk
    simp only [work, hookWork, reduceCtorEq, if_false, if_true] at hhooks hcharge hunpinged ⊢
    omega
  | queue k i c hdebug hk hst hnew htold hended =>
    have hunpinged := hpings hk hst hnew (fun k' hk' => List.mem_append_left [k] hk')
      (fun _ hk' => hk') (.inl (List.mem_append_right _ (List.mem_singleton_self k)))
    simp only [work] at hcharge hunpinged ⊢
    omega
  | lose k i c hdebug hk hst hnew hlate =>
    have hunpinged := hpings hk hst hnew (fun _ hk' => hk')
      (fun k' hk' => List.mem_append_left [k] hk')
      (.inr (List.mem_append_right _ (List.mem_singleton_self k)))
    simp only [work] at hcharge hunpinged ⊢
    omega
  | tell i => cases hl
  | stopIdle i h hi hcur => cases hl
  | stopCalling l i h k c hi hon hcur hk hst hl' =>
    rcases hl' with rfl | ⟨rfl, -, -, c', j, hk', hst', -⟩
    · cases hl
    exact work_panic hi hk' hst' hcharge
  | lower i hended hrun => exact work_lower hinv hended hrun hleaving
  | fail k c hk j hst howner =>
    have hdrop := @work_drop T (cost needs) _ _ _ _ hk hst
    have hunpinged := @unpinged_le w { w with registry := w.registry.setStage k .dropped }
      (List.length_modify ..) fun _ hk => hk
    simp only [work] at hcharge hunpinged ⊢
    omega

theorem work_run (hS : ∀ A, ∀ B ∈ needs A, B ∈ T) (hinv : StartInv w) (hw : w.Within T)
    {ms : List StartLabel} {v : StartWorld} (h : ((machine needs debug).startingAt w).Run ms v)
    (hms : ∀ l ∈ ms, l.progress = true) :
    StartInv v ∧ v.Within T ∧ ms.length + v.work needs T ≤ w.work needs T := by
  induction h with
  | start => exact ⟨hinv, hw, by simp [Machine.startingAt]⟩
  | @snoc ms v l v' hrun hstep ih =>
    have hl := hms l (by simp)
    obtain ⟨hinv', hw', hle⟩ := ih fun l' hl' => hms l' (List.mem_append_left _ hl')
    have hact := act_cases hstep
    have hless := work_progress hinv' hw' hstep hl
    refine ⟨startInv_act hinv' hact, within_act hS hw' hact hl, ?_⟩
    rw [List.length_append, List.length_singleton]
    omega

/-- **The services come up, unless a ping is lost.** Let the `started` of every service ask for
services out of `S`, in whatever circles. From each state on, calls and hooks go on for a bounded
number of steps only, in whatever order. Where none of them can go on, whatever is not over hangs
for a lost ping; so without one, all is over. -/
theorem startup_terminates {S : Finset TypeKey} (hS : ∀ A, ∀ B ∈ needs A, B ∈ S)
    {ls : List StartLabel} (h : (machine needs debug).Run ls w) :
    ∃ n, ∀ (ms : List StartLabel) (v : StartWorld), ((machine needs debug).startingAt w).Run ms v →
      (∀ l ∈ ms, l.progress = true) → ms.length ≤ n
        ∧ ((∃ l : StartLabel, l.progress = true ∧ (v.step needs debug l).isSome = true)
          ∨ (v.Resolved ∧ (Lossless needs debug (ls ++ ms) → v.settled))) := by
  have hhooks : ∀ h ∈ w.hooks, ∀ A ∈ h.remaining, A ∈ S :=
    h.invariant (I := fun w => ∀ h ∈ w.hooks, ∀ A ∈ h.remaining, A ∈ S) (fun h hh => by cases hh)
      fun _ _ _ hw hstep => within_hooks hS hw (act_cases hstep)
  let T := S ∪ (w.registry.calls.map fun c => c.call.key).toFinset
  have hT : ∀ A, ∀ B ∈ needs A, B ∈ T := fun A B hB => Finset.mem_union_left _ (hS A B hB)
  have hw : w.Within T :=
    { calls := fun c hc => Finset.mem_union_right _ (List.mem_toFinset.mpr (List.mem_map_of_mem hc))
      hooks := fun h hh A hA => Finset.mem_union_left _ (hhooks h hh A hA) }
  refine ⟨w.work needs T, fun ms v hms hprogress => ?_⟩
  obtain ⟨hinv, -, hle⟩ := work_run hT (startInv_of_run h) hw hms hprogress
  refine ⟨by omega, ?_⟩
  have hrun := h.append hms
  by_cases hstuck : Stuck needs debug v
  · have hres := hinv.resolved_of_stuck (pingInv_of_run hrun) hstuck
    exact .inr ⟨hres, fun hlossless => hres.settled (lost_of_run hrun hlossless)⟩
  · left
    obtain ⟨l, hl⟩ := not_forall.mp hstuck
    obtain ⟨hprog, hsome⟩ := Classical.not_imp.mp hl
    exact ⟨l, hprog, Option.isSome_iff_ne_none.mpr hsome⟩

/-- Two services that ask for each other. -/
def circle : TypeKey → List TypeKey
  | 0 => [1]
  | 1 => [0]
  | _ => []

/-- A client calls `from_registry` for one of them, in a debug build; the other one is asked for. -/
theorem startup_terminates_circle :
    ∃ n, ∀ (ms : List StartLabel) (v : StartWorld),
      ((machine circle true).startingAt ((machine circle true).after
        [.registry (.begin (.fromRegistry 0)), .registry (.advance 0), .registry (.advance 0),
          .registry (.advance 0), .registry (.advance 0), .hook 0] (by decide))).Run ms v →
      (∀ l ∈ ms, l.progress = true) → ms.length ≤ n
        ∧ ((∃ l : StartLabel, l.progress = true ∧ (v.step circle true l).isSome = true)
          ∨ (v.Resolved
            ∧ (Lossless circle true ([.registry (.begin (.fromRegistry 0)), .registry (.advance 0),
                .registry (.advance 0), .registry (.advance 0), .registry (.advance 0), .hook 0]
                  ++ ms) →
              v.settled))) :=
  startup_terminates (S := {0, 1})
    (fun A B hB => by
      unfold circle at hB
      split at hB <;> simp_all)
    (Machine.run_after _ _)

/-- In the end both are up, and the client has its address. -/
example : ((machine circle true).exec
    [.registry (.begin (.fromRegistry 0)), .registry (.advance 0), .registry (.advance 0),
      .registry (.advance 0), .registry (.advance 0), .ping 0, .hook 0, .registry (.advance 1),
      .registry (.advance 1), .registry (.advance 1), .registry (.advance 1), .ping 1, .hook 1,
      .registry (.advance 2), .registry (.advance 2), .hook 1, .registry (.advance 1), .hook 0,
      .registry (.advance 0)]).map (fun w => (w.hooks.map StartHook.serving,
        w.registry.calls.map fun c => c.stage))
    = some ([true, true], [.done (.addr 0), .done (.addr 1), .done (.addr 0)]) := by decide

/-- A service is told to stop before the call that has spawned it pings it: the call hangs. -/
example : ((machine circle true).exec
    [.registry (.begin (.fromRegistry 2)), .registry (.advance 0), .registry (.advance 0),
      .registry (.advance 0), .registry (.advance 0), .tell 0, .ping 0, .stop 0, .lower 0]).map
      (fun w => (w.lost, (w.step circle true (.registry (.advance 0))).isSome,
        (w.step circle true (.fail 0)).isSome)) = some ([0], false, false) := by decide

end StartWorld

end Hannibal
