import Hannibal.Service
import Mathlib.Algebra.BigOperators.Group.Finset.Piecewise

/-!
# Hannibal.LockSection — calls of the registry that go on

A call of the registry waits for the write lock, and has it for a few steps of its own, which wait
for nothing (`actor/service.rs`). So whoever has the lock can go on, and comes to its end.

* **`CallInv`** — who has the lock is in its lock section; `callInv_act` is its step lemma.
* **`exists_advance_of_holding`**, **`exists_advance_of_waiting`** — who can go on.
* **`work`** — what is left to do, the instances that may still be spawned included.
* **`work_act`** — whatever goes on comes nearer to its end.
-/

namespace Hannibal

open Lts

namespace RegistryWorld

variable {w w' : RegistryWorld} {k j : ℕ} {A : TypeKey} {c : RegistryCall} {l : RegistryLabel}

/-- A call stands where its kind of call comes to. -/
def Fits (c : RegistryCall) : Prop :=
  match c.stage with
  | .locked => c.call.writes = true
  | .spawning | .pinging _ => ∃ A, c.call = .fromRegistry A
  | .inserting _ => (∃ A, c.call = .fromRegistry A) ∨ ∃ A i, c.call = .register A i
  | _ => True

/-- Who has the lock is in its lock section, each call stands where it can, and what is pinged is
there. -/
structure CallInv (w : RegistryWorld) : Prop where
  held : ∀ k, w.lock = some k → ∃ c, w.calls[k]? = some c ∧ c.stage.holding = true
  fits : ∀ (k : ℕ) (c : RegistryCall), w.calls[k]? = some c → Fits c
  pinged : ∀ (k : ℕ) (c : RegistryCall) (i : ℕ), w.calls[k]? = some c → c.stage = .pinging i →
    i < w.instances.length

theorem callInv_init : CallInv init where
  held k h := by cases h
  fits k c h := by simp [init] at h
  pinged k c i h := by simp [init] at h

theorem Decides.fits {st : CallStage} (hc : Decides w c.call c.stage st) :
    Fits { c with stage := st } := by
  rcases c with ⟨call, stage, ins, dis⟩
  cases hc with
  | spawning A hvac => exact ⟨A, rfl⟩
  | absent A i hnone => exact .inr ⟨A, i, rfl⟩
  | stopped A i j hentry hstop => exact .inr ⟨A, i, rfl⟩

theorem Passes.fits {st : CallStage} (hc : Passes w c.call c.stage st) :
    Fits { c with stage := st } := by
  rcases c with ⟨call, stage, ins, dis⟩
  cases hc <;> trivial

theorem Writes.fits {new : Option ℕ} {st : CallStage} (hc : Writes w c.call c.stage new st)
    {ins : Option AnyBox} {dis : Option Entry} : Fits ⟨c.call, st, ins, dis⟩ := by
  rcases c with ⟨call, stage, ins, dis⟩
  cases hc with
  | spawned A i => exact ⟨A, rfl⟩
  | _ => trivial

theorem fits_act (h : CallInv w) (hact : Act w w') (hj : w'.calls[j]? = some c) : Fits c := by
  -- the stage that is set fits the call, and the other calls are the same
  have hset : ∀ {u : RegistryWorld} {k : ℕ} {d : RegistryCall} (st : CallStage),
      u.calls = w.calls → w.calls[k]? = some d → Fits { d with stage := st } →
      (u.setStage k st).calls[j]? = some c → Fits c := by
    intro u k d st hu hd hfits hj
    rcases call_of_setStage hj with ⟨-, hold⟩ | ⟨rfl, d', hd', rfl⟩
    · exact h.fits j c (hu ▸ hold)
    · rw [hu, hd] at hd'
      cases hd'
      exact hfits
  cases hact with
  | spawn A => exact h.fits j c hj
  | stop i => exact h.fits j c hj
  | begin d hd =>
    rcases Table.getElem?_snoc.mp hj with hold | ⟨-, rfl⟩
    · exact h.fits j c hold
    · trivial
  | enter k d hk hst hwrites hfree => exact hset (u := w.acquire k) .locked rfl hk hwrites hj
  | decide k d st hk hc => exact hset st rfl hk hc.fits hj
  | leave k d o hk hst hc => exact hset (u := w.release) (.done o) rfl hk trivial hj
  | create k d A hk hc hst =>
    exact hset (u := w.spawn A) (.inserting w.instances.length) rfl hk (.inl ⟨A, hc⟩) hj
  | write k d A new st hk hkey hc =>
    rcases call_of_write hj with ⟨-, hold⟩ | ⟨rfl, d', hd', rfl⟩
    · exact h.fits j c hold
    · rw [hk] at hd'
      cases hd'
      exact hc.fits
  | pass k d st hk hc => exact hset st rfl hk hc.fits hj

theorem pinged_act (ht : Typed w) (h : CallInv w) (hact : Act w w') {i : ℕ}
    (hj : w'.calls[j]? = some c) (hst : c.stage = .pinging i) : i < w'.instances.length := by
  refine lt_of_lt_of_le ?_ (instances_le hact)
  rcases call_of_act hact hj with hold | ⟨d, hd, hmoved⟩ | ⟨-, -, hnew⟩
  · exact h.pinged j c i hold hst
  · cases hmoved with
    | wrote A new st hkey hc =>
      rcases d with ⟨call, stage, ins, dis⟩
      cases hc with
      | spawned A' i' =>
        cases hst
        exact lt_of_typeOf (ht.inserting j _ i hd rfl)
      | _ => cases hst
    | decided st hc =>
      rcases d with ⟨call, stage, ins, dis⟩
      cases hc <;> cases hst
    | passed st hc =>
      rcases d with ⟨call, stage, ins, dis⟩
      cases hc <;> cases hst
    | _ => cases hst
  · rw [hnew] at hst
    cases hst

theorem held_act (h : CallInv w) (hact : Act w w') (hlock : w'.lock = some j) :
    ∃ c, w'.calls[j]? = some c ∧ c.stage.holding = true := by
  -- a call that is not the holder leaves the holder alone
  have hother : ∀ {u : RegistryWorld} {k : ℕ} {st : CallStage}, u.calls = w.calls →
      u.lock = w.lock →
      (∀ c, w.calls[k]? = some c → c.stage.holding = true → st.holding = true) →
      (u.setStage k st).lock = some j →
      ∃ c, (u.setStage k st).calls[j]? = some c ∧ c.stage.holding = true := by
    intro u k st hu hlu hst hlock
    obtain ⟨c, hc, hold⟩ := h.held j (hlu ▸ hlock)
    by_cases hkj : k = j
    · subst hkj
      exact ⟨_, call_setStage_self (hu ▸ hc), hst c hc hold⟩
    · exact ⟨c, (Table.getElem?_modify_of_ne hkj).trans (hu ▸ hc), hold⟩
  -- a call gets the lock with its lock section before it, and gives it up when it leaves that
  cases hact with
  | spawn A => exact h.held j hlock
  | stop i => exact h.held j hlock
  | begin d hd =>
    obtain ⟨c, hc, hold⟩ := h.held j hlock
    exact ⟨c, Table.getElem?_snoc_of_some hc, hold⟩
  | enter k d hk hst hwrites hfree =>
    cases hlock
    exact ⟨_, call_setStage_self hk, rfl⟩
  | decide k d st hk hc =>
    refine hother rfl rfl (fun _ _ _ => ?_) hlock
    rcases hc.stages with ⟨-, -, rfl | ⟨i, -, rfl⟩⟩ <;> rfl
  | leave k d o hk hst hc => cases hlock
  | create k d A hk hc hst => exact hother (u := w.spawn A) rfl rfl (fun _ _ _ => rfl) hlock
  | write k d A new st hk hkey hc => cases hlock
  | pass k d st hk hc =>
    refine hother rfl rfl (fun c hc' hold => ?_) hlock
    rw [hk] at hc'
    cases hc'
    rw [hc.stages.1] at hold
    cases hold

theorem callInv_act (ht : Typed w) (h : CallInv w) (hact : Act w w') : CallInv w' where
  held _ := held_act h hact
  fits _ _ := fits_act h hact
  pinged _ _ _ := pinged_act ht h hact

theorem running_of_spawn {i : ℕ} (h : (w.spawn A).running i = false) : w.running i = false := by
  unfold running at h ⊢
  cases hi : w.instances[i]? with
  | none => rfl
  | some x =>
    rw [show (w.spawn A).instances[i]? = some x from Table.getElem?_snoc_of_some hi] at h
    exact h

/-- A new instance runs. -/
theorem running_new (hact : Act w w') {i : ℕ} (hnew : w.instances.length ≤ i)
    (hi : i < w'.instances.length) : w'.running i = true := by
  have hspawn : ∀ A, i < (w.spawn A).instances.length → (w.spawn A).running i = true := by
    intro A hi
    have hlen : i = w.instances.length := by
      simp only [RegistryWorld.spawn, List.length_append, List.length_singleton] at hi
      omega
    subst hlen
    simp [running, RegistryWorld.spawn]
  cases hact with
  | spawn A => exact hspawn A hi
  | create k c A hk hc hst => exact hspawn A hi
  | stop j =>
    simp only [RegistryWorld.stop, List.length_modify] at hi
    omega
  | _ => exact absurd hi (Nat.not_lt.mpr hnew)

/-! ### Calls that go on

`CallInv` says of each call what stage it may be at. So the holder of the lock finds a step at each
of its stages, and a call that waits can go on when the lock is free. -/

/-- Who has the lock goes on. -/
theorem exists_advance_of_holding (h : CallInv w) (hk : w.calls[k]? = some c)
    (hold : c.stage.holding = true) : ∃ w', w.advance k = some w' := by
  have hfits := h.fits k c hk
  obtain ⟨call, stage, ins, dis⟩ := c
  -- each stage of a lock section has one step, whatever the registry holds
  cases stage with
  | locked =>
    have hwrites : call.writes = true := hfits
    cases call with
    | fromRegistry A =>
      cases hfilter : (w.entry A).filter w.running <;>
        simp [advance, hk, fromRegistryAndSpawn, hfilter]
    | register A i =>
      cases hreg : w.registry A with
      | none => simp [advance, hk, register, hreg]
      | some e =>
        by_cases hany : ((e.item.downcast A).any fun i => !w.running i) = true
        · simp [advance, hk, register, hreg, hany]
        · simp [advance, hk, register, hreg, hany]
    | replace A i | unregisterAddr A i | unregister A =>
      simp [advance, hk, RegistryWorld.replace, RegistryWorld.unregister]
    | tryFromRegistry A | alreadyRunning A => cases hwrites
  | spawning =>
    obtain ⟨A, rfl⟩ := hfits
    simp [advance, hk, fromRegistryAndSpawn]
  | inserting i =>
    rcases hfits with ⟨A, hcall⟩ | ⟨A, j, hcall⟩
    · have hcall : call = .fromRegistry A := hcall
      subst hcall
      simp [advance, hk, fromRegistryAndSpawn]
    · have hcall : call = .register A j := hcall
      subst hcall
      simp [advance, hk, register]
  | _ => cases hold

/-- Who waits for the lock gets it when it is free. -/
theorem exists_advance_of_waiting (hk : w.calls[k]? = some c) (hst : c.stage = .waiting)
    (hfree : w.lock = none) : ∃ w', w.advance k = some w' := by
  obtain ⟨call, stage, ins, dis⟩ := c
  cases hst
  cases call <;>
    simp [advance, hk, ServiceCall.writes, hfree, tryFromRegistry, alreadyRunning]

theorem exists_advance_of_pinging (h : CallInv w) (hk : w.calls[k]? = some c) {i : ℕ}
    (hst : c.stage = .pinging i) : ∃ w', w.advance k = some w' := by
  have hfits := h.fits k c hk
  obtain ⟨call, stage, ins, dis⟩ := c
  cases hst
  obtain ⟨A, hcall⟩ := hfits
  have hcall : call = .fromRegistry A := hcall
  subst hcall
  simp [advance, hk, fromRegistryAndSpawn]

/-- A call that goes on comes to another stage, and is not dropped; the others stay where they
are. -/
theorem stage_of_advance (h : w.advance k = some w') : w'.calls.length = w.calls.length
    ∧ (∃ c c', w.calls[k]? = some c ∧ w'.calls[k]? = some c' ∧ c'.stage ≠ c.stage
      ∧ c'.stage ≠ .dropped)
    ∧ ∀ j, k ≠ j → w'.calls[j]? = w.calls[j]? := by
  have hset : ∀ {u : RegistryWorld} {c : RegistryCall} {st : CallStage}, u.calls = w.calls →
      w.calls[k]? = some c → st ≠ c.stage ∧ st ≠ .dropped →
      (u.setStage k st).calls.length = w.calls.length
        ∧ (∃ c c', w.calls[k]? = some c ∧ (u.setStage k st).calls[k]? = some c'
            ∧ c'.stage ≠ c.stage ∧ c'.stage ≠ .dropped)
        ∧ ∀ j, k ≠ j → (u.setStage k st).calls[j]? = w.calls[j]? := by
    intro u c st hu hk hne
    rw [← hu] at hk ⊢
    exact ⟨List.length_modify _ _ _, ⟨_, _, hk, call_setStage_self hk, hne⟩,
      fun j hj => Table.getElem?_modify_of_ne hj⟩
  -- a write changes the map, the lock and the stage at once
  have hwrite : ∀ {c : RegistryCall} {A : TypeKey} {new : Option AnyBox} {st : CallStage},
      w.calls[k]? = some c → st ≠ c.stage ∧ st ≠ .dropped →
      ((w.write k A new).release.setStage k st).calls.length = w.calls.length
        ∧ (∃ c c', w.calls[k]? = some c
            ∧ ((w.write k A new).release.setStage k st).calls[k]? = some c'
            ∧ c'.stage ≠ c.stage ∧ c'.stage ≠ .dropped)
        ∧ ∀ j, k ≠ j → ((w.write k A new).release.setStage k st).calls[j]? = w.calls[j]? := by
    intro c A new st hk hne
    exact ⟨(List.length_modify _ _ _).trans (List.length_modify _ _ _),
      ⟨_, _, hk, call_write_self hk, hne⟩,
      fun j hj => (Table.getElem?_modify_of_ne hj).trans (Table.getElem?_modify_of_ne hj)⟩
  unfold advance at h
  split at h
  · cases h
  · next c hk =>
    split at h
    · next hwait =>
      split at h
      · cases h
        exact hset (u := w.acquire k) rfl hk (by simp [hwait.2])
      · cases h
    · split at h
      · next A hcall =>
        unfold fromRegistryAndSpawn at h
        split at h
        · next hst =>
          split at h
          · cases h; exact hset (u := w.release) rfl hk (by simp [hst])
          · cases h; exact hset rfl hk (by simp [hst])
        · next hst => cases h; exact hset (u := w.spawn A) rfl hk (by simp [hst])
        · next i hst => cases h; exact hwrite hk (by simp [hst])
        · next i hst => cases h; exact hset rfl hk (by simp [hst])
        · cases h
      · next A i hcall =>
        unfold register at h
        split at h
        · next hst =>
          split at h
          · split at h
            · cases h; exact hset rfl hk (by simp [hst])
            · cases h; exact hset (u := w.release) rfl hk (by simp [hst])
          · cases h; exact hset rfl hk (by simp [hst])
        · next j hst => cases h; exact hwrite hk (by simp [hst])
        · cases h
      · next A i hcall =>
        unfold RegistryWorld.replace at h
        split at h
        · next hst => cases h; exact hwrite hk (by simp [hst])
        · cases h
      · unfold RegistryWorld.unregister at h
        split at h
        · next hst => cases h; exact hwrite hk (by simp [hst])
        · cases h
      · unfold RegistryWorld.unregister at h
        split at h
        · next hst => cases h; exact hwrite hk (by simp [hst])
        · cases h
      · unfold tryFromRegistry at h
        split at h
        · next hst =>
          split at h
          · cases h; exact hset rfl hk (by simp [hst])
          · cases h
        · cases h
      · unfold alreadyRunning at h
        split at h
        · next hst =>
          split at h
          · cases h; exact hset rfl hk (by simp [hst])
          · cases h
        · cases h

/-- It stops no instance. -/
theorem running_of_advance (h : w.advance k = some w') {i : ℕ} (hrun : w'.running i = false) :
    w.running i = false := by
  obtain ⟨-, ⟨c, c', hc, hc', hne, -⟩, -⟩ := stage_of_advance h
  cases act_of_advance h with
  | stop j =>
    rw [show (w.stop j).calls[k]? = some c from hc] at hc'
    cases hc'
    exact absurd rfl hne
  | spawn A => exact running_of_spawn hrun
  | create k c A hk hcall hst => exact running_of_spawn hrun
  | _ => exact hrun

/-- An instance stops by that step only. -/
theorem running_of_step (h : w.step l = some w') {i : ℕ} (hl : l ≠ .stop i)
    (hrun : w'.running i = false) : w.running i = false := by
  cases l with
  | spawn A => cases h; exact running_of_spawn hrun
  | stop j =>
    cases h
    have hij : j ≠ i := fun hji => hl (hji ▸ rfl)
    unfold running at hrun ⊢
    rwa [show (w.stop j).instances[i]? = w.instances[i]? from Table.getElem?_modify_of_ne
      hij] at hrun
  | begin d =>
    simp only [step] at h
    split at h
    · cases h; exact hrun
    · cases h
  | advance j => exact running_of_advance h hrun
  | contend j =>
    simp only [step] at h
    split at h
    · obtain ⟨-, ⟨⟩⟩ := Option.ite_none_left_eq_some.mp h
      exact hrun
    · cases h
  | abandon j =>
    simp only [step] at h
    split at h
    · cases h; exact hrun
    · cases h; exact hrun
    · cases h

/-- A call is dropped by that step only. -/
theorem drop_of_step (h : w.step l = some w') (hk : w'.calls[k]? = some c)
    (hst : c.stage = .dropped) :
    w.calls[k]? = some c ∨ l = .abandon k := by
  have hset : ∀ {j : ℕ} {st : CallStage}, st ≠ .dropped → (w.setStage j st).calls[k]? = some c →
      w.calls[k]? = some c := by
    intro j st hne hk
    rcases call_of_setStage hk with ⟨-, hold⟩ | ⟨-, d, -, rfl⟩
    · exact hold
    · exact absurd hst hne
  -- of all labels only `abandon` drops a call, and it drops its own
  cases l with
  | spawn A => cases h; exact .inl hk
  | stop i => cases h; exact .inl hk
  | begin d =>
    simp only [step] at h
    split at h
    · cases h
      rcases Table.getElem?_snoc.mp hk with hold | ⟨-, rfl⟩
      · exact .inl hold
      · cases hst
    · cases h
  | advance j =>
    obtain ⟨-, ⟨d, d', -, hd', -, hne⟩, hothers⟩ := stage_of_advance h
    by_cases hjk : j = k
    · subst hjk
      rw [hk] at hd'
      cases hd'
      exact absurd hst hne
    · exact .inl (hothers k hjk ▸ hk)
  | contend j =>
    simp only [step] at h
    split at h
    · obtain ⟨-, ⟨⟩⟩ := Option.ite_none_left_eq_some.mp h
      exact .inl (hset (by simp) hk)
    · cases h
  | abandon j =>
    by_cases hjk : j = k
    · exact .inr (hjk ▸ rfl)
    · simp only [step] at h
      split at h
      · cases h; exact .inl ((Table.getElem?_modify_of_ne hjk).symm.trans hk)
      · cases h; exact .inl ((Table.getElem?_modify_of_ne hjk).symm.trans hk)
      · cases h

/-! ### What is left to do

`work` adds up the stages that the calls have before them, and for each type what spawning an
instance would cost, as long as one can still be spawned. Every step that is not the environment's
makes it smaller; the case that needs care is a write that takes an entry away and leaves room for
an instance. -/

/-- A call of `A` that gets the lock spawns an instance, and no running one is about to be
inserted. -/
def spawnable (w : RegistryWorld) (A : TypeKey) : Bool :=
  ((w.entry A).all fun i => !w.running i) && w.calls.all fun c =>
    match c.stage with
    | .inserting i => decide (c.call.key ≠ A) || !w.running i
    | _ => true

/-- How many steps of its own a call is away from its end. -/
def togo : CallStage → ℕ
  | .waiting => 5
  | .locked => 4
  | .spawning => 3
  | .inserting _ => 2
  | .pinging _ => 1
  | .done _ | .dropped => 0

section Work

variable (cost : TypeKey → ℕ)

/-- The work of a call: its steps, and, unless it is a `from_registry`, another instance that it may
make room for. `cost A` is what the hook of an instance of `A` comes to. -/
def callWork (c : RegistryCall) : ℕ :=
  togo c.stage + match c.call with
    | .fromRegistry _ => 0
    | d => if c.stage.pending then cost d.key else 0

/-- The work of the instances of types in `T` that may still be spawned. -/
def room (T : Finset TypeKey) (w : RegistryWorld) : ℕ :=
  ∑ A ∈ T, if w.spawnable A then cost A else 0

/-- The work of all calls, and of the instances that they may spawn. -/
def work (T : Finset TypeKey) (w : RegistryWorld) : ℕ :=
  (w.calls.map (callWork cost)).sum + w.room cost T

/-- The work of the hooks of the instances that are new. -/
def newWork (w w' : RegistryWorld) : ℕ :=
  ((w'.instances.drop w.instances.length).map fun x => cost x.type).sum

end Work

theorem spawnable_iff : w.spawnable A = true ↔ w.vacant A ∧ ∀ (j : ℕ) (c : RegistryCall) (i : ℕ),
    w.calls[j]? = some c → c.stage = .inserting i → c.call.key = A → w.running i = false := by
  unfold spawnable vacant
  rw [Bool.and_eq_true, Option.all_eq_true, List.all_eq_true]
  refine and_congr (by simp) ⟨fun h j c i hj hst hkey => ?_, fun h c hc => ?_⟩
  · simpa [hst, hkey] using h c (List.mem_of_getElem? hj)
  · obtain ⟨j, hj⟩ := List.getElem?_of_mem hc
    cases hst : c.stage with
    | inserting i =>
      by_cases hkey : c.call.key = A
      · simp [h j c i hj hst hkey]
      · simp [hkey]
    | _ => rfl

/-- Nothing that was in the way of a spawn is gone. -/
theorem spawnable_of (hB : w'.spawnable A = true)
    (hrun : ∀ i, w'.running i = false → w.running i = false)
    (hentry : ∀ i, w.entry A = some i → w'.entry A = some i ∨ w.running i = false)
    (hcalls : ∀ (j : ℕ) (c : RegistryCall) (i : ℕ), w.calls[j]? = some c → c.stage = .inserting i →
      c.call.key = A → w'.calls[j]? = some c ∨ w.running i = false) : w.spawnable A = true := by
  obtain ⟨hvac, hins⟩ := spawnable_iff.mp hB
  refine spawnable_iff.mpr ⟨fun i hi => ?_, fun j c i hj hst hkey => ?_⟩
  · rcases hentry i hi with hsame | hstop
    · exact hrun i (hvac i hsame)
    · exact hstop
  · rcases hcalls j c i hj hst hkey with hsame | hstop
    · exact hrun i (hins j c i hsame hst hkey)
    · exact hstop

/-- A call at another stage. -/
theorem sum_setStage (f : RegistryCall → ℕ) {u : RegistryWorld} (st : CallStage)
    (hu : u.calls = w.calls)
    (hk : w.calls[k]? = some c) : ((u.setStage k st).calls.map f).sum + f c
      = (w.calls.map f).sum + f { c with stage := st } := by
  rw [← hu] at hk ⊢
  exact Table.sum_modify hk

section Room

variable {cost : TypeKey → ℕ} {T : Finset TypeKey}

theorem room_le (h : ∀ B, w'.spawnable B = true → w.spawnable B = true) :
    w'.room cost T ≤ w.room cost T := by
  refine Finset.sum_le_sum fun B _ => ?_
  by_cases hB : w'.spawnable B = true
  · simp [hB, h B hB]
  · simp [hB]

/-- Room may be made for one instance. -/
theorem room_le_add (h : ∀ B, B ≠ A → w'.spawnable B = true → w.spawnable B = true) :
    w'.room cost T ≤ w.room cost T + cost A := by
  have hle : w'.room cost T
      ≤ ∑ B ∈ T, ((if w.spawnable B then cost B else 0) + if B = A then cost A else 0) := by
    refine Finset.sum_le_sum fun B _ => ?_
    by_cases hBA : B = A
    · subst hBA
      rw [if_pos rfl]
      split_ifs <;> omega
    · by_cases hB : w'.spawnable B = true
      · simp [hB, h B hBA hB]
      · simp [hB]
  refine hle.trans ?_
  rw [Finset.sum_add_distrib, Finset.sum_ite_eq']
  unfold room
  split <;> omega

/-- An instance that is spawned takes its room. -/
theorem room_create (hA : A ∈ T) (hspawn : w.spawnable A = true) (hnot : w'.spawnable A = false)
    (h : ∀ B, w'.spawnable B = true → w.spawnable B = true) :
    w'.room cost T + cost A ≤ w.room cost T := by
  have hdrop := Table.sum_drop (f := fun B => if w.spawnable B then cost B else 0)
    (g := fun B => if w'.spawnable B then cost B else 0) hA (fun B _ => ?_) (by simp [hnot])
  · simpa [room, hspawn] using hdrop
  · by_cases hB : w'.spawnable B = true
    · simp [hB, h B hB]
    · simp [hB]

end Room

/-- A call that was not about to insert an instance is at another stage. -/
theorem spawnable_setStage {u : RegistryWorld} {st : CallStage} (hu : u.calls = w.calls)
    (hreg : u.registry = w.registry) (hrun : ∀ i, u.running i = false → w.running i = false)
    (hk : w.calls[k]? = some c) (hst : ∀ i, c.stage ≠ .inserting i)
    (hB : (u.setStage k st).spawnable A = true) : w.spawnable A = true := by
  refine spawnable_of hB hrun (fun i hi => .inl ?_) fun j d i hj hins hkey => ?_
  · rw [← hi]
    exact congrArg (fun r => (r A).bind fun e => e.item.downcast A) hreg
  · by_cases hkj : k = j
    · subst hkj
      rw [hk] at hj
      cases hj
      exact absurd hins (hst i)
    · exact .inl ((Table.getElem?_modify_of_ne hkj).trans (hu ▸ hj))

/-- A call that writes leaves room only for what it says. -/
theorem spawnable_write {new : Option ℕ} {st : CallStage} {B : TypeKey} (hk : w.calls[k]? = some c)
    (hkey : c.call.key = A) (hne : B ≠ A)
    (hB : ((w.write k A (new.map (⟨A, ·⟩))).release.setStage k st).spawnable B = true) :
    w.spawnable B = true := by
  refine spawnable_of hB (fun i h => h) (fun i hi => .inl ?_) fun j d i hj hins hkey' => .inl ?_
  · rw [← hi]
    show ((Function.update w.registry A _) B).bind _ = (w.registry B).bind _
    rw [Function.update_of_ne hne]
  · have hkj : k ≠ j := by
      rintro rfl
      rw [hk] at hj
      cases hj
      exact hne (hkey'.symm.trans hkey)
    exact (Table.getElem?_modify_of_ne hkj).trans ((Table.getElem?_modify_of_ne hkj).trans hj)

/-- A call that gets the lock or lets go of it, or goes on without it, moves one stage nearer to its
end. -/
theorem work_setStage {cost : TypeKey → ℕ} {T : Finset TypeKey} {u : RegistryWorld} {st : CallStage}
    (hu : u.calls = w.calls) (hreg : u.registry = w.registry) (hins : u.instances = w.instances)
    (hk : w.calls[k]? = some c) (hst : ∀ i, c.stage ≠ .inserting i) (hnear : togo st < togo c.stage)
    (hpending : st.pending = true → c.stage.pending = true) :
    newWork cost w (u.setStage k st) + (u.setStage k st).work cost T < w.work cost T := by
  have hsum := sum_setStage (callWork cost) st hu hk
  have hroom : (u.setStage k st).room cost T ≤ w.room cost T := by
    refine room_le fun B hB => spawnable_setStage hu hreg (fun i hi => ?_) hk hst hB
    unfold running at hi ⊢
    rwa [hins] at hi
  have hnew : newWork cost w (u.setStage k st) = 0 := by
    unfold newWork
    rw [show (u.setStage k st).instances = w.instances from hins]
    simp
  have hcall : callWork cost { c with stage := st } < callWork cost c := by
    unfold callWork
    refine Nat.add_lt_add_of_lt_of_le hnear ?_
    cases c.call with
    | fromRegistry A => exact le_rfl
    | _ =>
      by_cases hp : st.pending = true
      · simp [hp, hpending hp]
      · simp [hp]
  unfold work
  omega

/-- One call at a time is in its lock section. -/
theorem LockInv.eq_of_holding (hl : LockInv w) {d : RegistryCall} (hk : w.calls[k]? = some c)
    (hj : w.calls[j]? = some d) (hc : c.stage.holding = true)
    (hd : d.stage.holding = true) : j = k :=
  Option.some.inj ((hl.holder j d hj hd).symm.trans (hl.holder k c hk hc))

/-- A call that has found its entry vacant, and inserts nothing that runs, leaves it so. -/
theorem spawnable_of_holding (hl : LockInv w) (hk : w.calls[k]? = some c)
    (hc : c.stage.holding = true)
    (hlocked : c.stage ≠ .locked) (hins : ∀ i, c.stage = .inserting i → w.running i = false) :
    w.spawnable c.call.key = true := by
  refine spawnable_iff.mpr ⟨hl.vacant k c hk hc hlocked, fun j d i hj hst _ => ?_⟩
  obtain rfl := hl.eq_of_holding hk hj hc (by rw [hst]; rfl)
  rw [hk] at hj
  cases hj
  exact hins i hst

theorem work_create {cost : TypeKey → ℕ} {T : Finset TypeKey} (hl : LockInv w) (hA : A ∈ T)
    (hk : w.calls[k]? = some c) (hcall : c.call = .fromRegistry A) (hst : c.stage = .spawning) :
    newWork cost w ((w.spawn A).setStage k (.inserting w.instances.length))
      + ((w.spawn A).setStage k (.inserting w.instances.length)).work cost T < w.work cost T := by
  have hsum :=
    sum_setStage (callWork cost) (w := w) (u := w.spawn A) (.inserting w.instances.length)
    rfl hk
  have hcallWork : callWork cost { c with stage := .inserting w.instances.length } + 1
      = callWork cost c := by
    simp [callWork, hcall, hst, togo]
  have hnew : newWork cost w ((w.spawn A).setStage k (.inserting w.instances.length)) = cost A := by
    simp [newWork, RegistryWorld.spawn, setStage]
  have hnone : ∀ i, c.stage ≠ .inserting i := fun i hi => by cases hst.symm.trans hi
  -- nobody else is in the lock section, so an instance could be spawned
  have hspawn : w.spawnable A = true := by
    have hspawn := spawnable_of_holding hl hk (by rw [hst]; rfl) (by simp [hst])
      fun i hi => absurd hi (hnone i)
    rwa [hcall] at hspawn
  -- and now there is one that runs and is about to be inserted
  have hnot : ((w.spawn A).setStage k (.inserting w.instances.length)).spawnable A = false := by
    rw [Bool.eq_false_iff]
    intro hyes
    have hrun := (spawnable_iff.mp hyes).2 k _ w.instances.length (call_setStage_self hk) rfl
      (by rw [hcall]; rfl)
    simp [running, RegistryWorld.spawn, setStage] at hrun
  have hroom : ((w.spawn A).setStage k (.inserting w.instances.length)).room cost T + cost A
      ≤ w.room cost T := room_create hA hspawn hnot fun B hB =>
    spawnable_setStage (u := w.spawn A) rfl rfl (fun _ => running_of_spawn) hk hnone hB
  unfold work
  omega

/-- The sum over the calls after a write. -/
theorem sum_write {f : RegistryCall → ℕ} (A : TypeKey) (new : Option AnyBox) (st : CallStage)
    (hf : ∀ (d : RegistryCall) ins dis, f { d with inserted := ins, displaced := dis } = f d)
    (hk : w.calls[k]? = some c) :
    (((w.write k A new).release.setStage k st).calls.map f).sum + f c
      = (w.calls.map f).sum + f { c with stage := st } := by
  have hwrite := Table.sum_modify (g := f)
    (φ := fun d => { d with inserted := new, displaced := w.registry A }) hk
  have hset :=
    sum_setStage f (w := (w.write k A new).release) st rfl (Table.getElem?_modify_self hk)
  have hcalls : (w.write k A new).release.calls
      = w.calls.modify k fun d => { d with inserted := new, displaced := w.registry A } := rfl
  rw [hcalls] at hset
  have h₁ := hf c new (w.registry A)
  have h₂ := hf { c with stage := st } new (w.registry A)
  simp only at h₁ h₂ hset
  omega

theorem work_write {cost : TypeKey → ℕ} {T : Finset TypeKey} (hl : LockInv w)
    (hk : w.calls[k]? = some c) {new : Option ℕ} {st : CallStage} (hkey : c.call.key = A)
    (hc : Writes w c.call c.stage new st) :
    newWork cost w ((w.write k A (new.map (⟨A, ·⟩))).release.setStage k st)
      + ((w.write k A (new.map (⟨A, ·⟩))).release.setStage k st).work cost T < w.work cost T := by
  have hsum := sum_write (f := callWork cost) A (new.map (⟨A, ·⟩)) st (fun _ _ _ => rfl) hk
  have hnew : newWork cost w ((w.write k A (new.map (⟨A, ·⟩))).release.setStage k st) = 0 := by
    simp [newWork, RegistryWorld.write, release, setStage]
  have hother : ∀ B, B ≠ A →
      ((w.write k A (new.map (⟨A, ·⟩))).release.setStage k st).spawnable B = true →
      w.spawnable B = true := fun B hne hB => spawnable_write hk hkey hne hB
  have hadd : ((w.write k A (new.map (⟨A, ·⟩))).release.setStage k st).room cost T
      ≤ w.room cost T + cost A := room_le_add hother
  -- all but `from_registry` may leave room for another instance, and pay for it
  have hpays : (∀ B, c.call ≠ .fromRegistry B) →
      callWork cost { c with stage := st } + cost A < callWork cost c := by
    intro hcall
    obtain ⟨call, stage, ins, dis⟩ := c
    subst hkey
    cases hc with
    | spawned B i => exact absurd rfl (hcall B)
    | _ => simp [callWork, CallStage.pending, togo]
  -- `from_registry` puts in what it has spawned; the others may take out what is there
  by_cases hcall : ∀ B, c.call ≠ .fromRegistry B
  · have := hpays hcall
    unfold work
    omega
  · obtain ⟨B, hB⟩ := not_forall_not.mp hcall
    obtain ⟨i, hst, rfl, rfl⟩ : ∃ i, c.stage = .inserting i ∧ new = some i ∧ st = .pinging i := by
      obtain ⟨call, stage, ins, dis⟩ := c
      cases hB
      cases hc with
      | spawned B i => exact ⟨i, rfl, rfl, rfl⟩
    have hroom : ((w.write k A (some ⟨A, i⟩)).release.setStage k (.pinging i)).room cost T
        ≤ w.room cost T := by
      refine room_le fun B hB => ?_
      by_cases hBA : B = A
      · -- what was inserted has stopped meanwhile
        subst hBA
        have hentry : ((w.write k B (some ⟨B, i⟩)).release.setStage k (.pinging i)).entry B
            = some i := @entry_write w k B (some i) (.pinging i)
        have hrun := (spawnable_iff.mp hB).1 i hentry
        rw [← hkey]
        refine spawnable_of_holding hl hk (by rw [hst]; rfl) (by simp [hst]) fun i' hi' => ?_
        cases hst.symm.trans hi'
        exact hrun
      · exact hother B hBA hB
    have hless : callWork cost { c with stage := .pinging i } + 1 = callWork cost c := by
      simp [callWork, hB, hst, togo]
    unfold work
    simp only [Option.map_some] at hsum hnew ⊢
    omega

/-- **Whatever goes on comes nearer to its end.** -/
theorem work_act {cost : TypeKey → ℕ} {T : Finset TypeKey} (hl : LockInv w)
    (hT : ∀ c ∈ w.calls, c.call.key ∈ T) (hact : Act w w') (hlen : w'.calls.length = w.calls.length)
    (hne : w'.calls ≠ w.calls) : newWork cost w w' + w'.work cost T < w.work cost T := by
  cases hact with
  | spawn A => exact absurd rfl hne
  | stop i => exact absurd rfl hne
  | begin d hd => simp at hlen
  | enter k c hk hst hwrites hfree =>
    exact work_setStage (u := w.acquire k) rfl rfl rfl hk (by simp [hst]) (by simp [hst, togo])
      fun _ => by rw [hst]; rfl
  | decide k c st hk hc =>
    obtain ⟨hst, -, hst'⟩ := hc.stages
    refine work_setStage rfl rfl rfl hk (by simp [hst]) ?_ fun _ => by rw [hst]; rfl
    rcases hst' with rfl | ⟨i, -, rfl⟩ <;> simp [hst, togo]
  | leave k c o hk hst hc =>
    exact work_setStage (u := w.release) rfl rfl rfl hk (by simp [hst]) (by simp [hst, togo])
      fun hpending => by cases hpending
  -- the step that spawns is paid by the room for an instance
  | create k c A hk hc hst =>
    have hkey := hT c (List.mem_of_getElem? hk)
    rw [hc] at hkey
    exact work_create hl hkey hk hc hst
  | write k c A new st hk hkey hc => exact work_write hl hk hkey hc
  | pass k c st hk hc =>
    obtain ⟨hst, hst'⟩ := hc.stages
    refine work_setStage rfl rfl rfl hk (fun i hi => ?_) ?_ fun hpending => ?_
    · rw [hi] at hst
      cases hst
    · obtain ⟨call, stage, ins, dis⟩ := c
      cases hc <;> simp [togo]
    · rw [hst'] at hpending
      cases hpending

end RegistryWorld

end Hannibal
