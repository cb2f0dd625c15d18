import Hannibal.Service

/-!
# Hannibal.Continuity — a registered service stays registered

What an instance of a service can rely on once it is in the registry, and what it cannot: the map is
keyed by the type, and no operation asks which instance it takes away.

* **`addr_of_answer`** — a `from_registry` settles on the instance that is registered then.
* **`continuity`** — a running instance stays registered, and every `from_registry` gets it, until
  the service is replaced or unregistered.
* **`continuity_stale`** — the address of an instance that was replaced long ago is enough for that.
-/

namespace Hannibal

open Lts

/-- The call takes the entry of its type away, whichever instance it holds. -/
def ServiceCall.displaces : ServiceCall → Bool
  | replace _ _ | unregisterAddr _ _ | unregister _ => true
  | _ => false

namespace RegistryWorld

variable {w w' v : RegistryWorld} {k j : ℕ} {A : TypeKey} {c : RegistryCall}

theorem answer_write_of_ne {new : Option AnyBox} {st : CallStage} (hj : k ≠ j) :
    ((w.write k A new).release.setStage k st).answer j = w.answer j := by
  rw [answer, setStage, Table.getElem?_modify_of_ne hj]
  show (((w.calls.modify k _)[j]?).bind _) = _
  rw [Table.getElem?_modify_of_ne hj]
  rfl

/-- **A `from_registry` settles on the instance that is registered then.** -/
theorem addr_of_answer (hact : Act w w')
    (hcall : (w'.calls[k]?).map RegistryCall.call = some (.fromRegistry A))
    (hbefore : w.answer k = none) {o : ServiceReply} (ho : w'.answer k = some o) :
    ∃ i, o = .addr i ∧ w'.entry A = some i := by
  -- only a step of call `k` itself can settle its answer
  have hother : w'.answer k ≠ w.answer k := by
    rw [ho, hbefore]
    exact nofun
  obtain ⟨c', hc', hfrom⟩ := Option.map_eq_some_iff.mp hcall
  cases hact with
  | spawn B | stop i => exact absurd rfl hother
  | begin d hd =>
    rcases Table.getElem?_snoc.mp hc' with hold | ⟨-, rfl⟩
    · exact absurd (by rw [answer, answer, hc', hold]) hother
    · rw [answer, hc'] at ho
      cases ho
  | enter j d hj hst hwrites hfree =>
    rw [answer_setStage (w := w.acquire j) hj] at ho
    split at ho
    · cases ho
    · exact absurd (ho.symm.trans hbefore) nofun
  | decide j d st hj hd =>
    rw [answer_setStage hj] at ho
    split at ho
    · obtain ⟨-, -, rfl | ⟨i, -, rfl⟩⟩ := hd.stages <;> cases ho
    · exact absurd (ho.symm.trans hbefore) nofun
  | create j d B hj hd hst =>
    rw [answer_setStage (w := w.spawn B) hj] at ho
    split at ho
    · cases ho
    · exact absurd (ho.symm.trans hbefore) nofun
  -- a `from_registry` that leaves with an address has found a running instance
  | leave j d o' hj hst hd =>
    rw [answer_setStage (w := w.release) hj] at ho
    split at ho
    · next hjk =>
      subst hjk
      cases ho
      rw [call_setStage_self (w := w.release) hj] at hc'
      cases hc'
      have hfrom : d.call = .fromRegistry A := hfrom
      rw [hfrom] at hd
      cases hd with
      | found _ i hentry hrun => exact ⟨i, rfl, hentry⟩
    · exact absurd (ho.symm.trans hbefore) nofun
  -- or it has spawned one itself, and put it into the map in the same step
  | write j d B new st hj hkey hd =>
    by_cases hjk : j = k
    · subst hjk
      rw [call_write_self hj] at hc'
      cases hc'
      have hfrom : d.call = .fromRegistry A := hfrom
      rw [answer_write hj] at ho
      rw [hfrom] at hkey hd
      obtain rfl : A = B := hkey
      generalize d.stage = stage at hd
      cases hd with
      | spawned _ i => cases ho; exact ⟨i, rfl, entry_write⟩
    · exact absurd (answer_write_of_ne hjk) hother
  | pass j d st hj hd =>
    rw [answer_setStage hj] at ho
    split at ho
    · next hjk =>
      subst hjk
      rw [call_setStage_self hj] at hc'
      cases hc'
      have hfrom : d.call = .fromRegistry A := hfrom
      rw [answer, hj] at hbefore
      have hbefore : d.stage.answer = none := hbefore
      rw [hfrom] at hd
      generalize d.stage = stage at hd hbefore
      cases hd with
      | pinged _ i => cases hbefore
      | abandoned | unpinged => cases ho
    · exact absurd (ho.symm.trans hbefore) nofun

/-- A call that has its answer keeps it, as long as it has one. -/
theorem answer_stays (hact : Act w w') {d : ServiceCall} {o o' : ServiceReply}
    (hsettled : w.answer k = some o) (hcall : (w'.calls[k]?).map RegistryCall.call = some d)
    (ho : w'.answer k = some o') : (w.calls[k]?).map RegistryCall.call = some d ∧ o = o' := by
  obtain ⟨c', hc', rfl⟩ := Option.map_eq_some_iff.mp hcall
  obtain ⟨c, hc, -⟩ := Option.bind_eq_some_iff.mp hsettled
  refine ⟨?_, ?_⟩
  · rcases call_of_act hact hc' with hold | ⟨d, hd, hmove⟩ | ⟨hnone, -, -⟩
    · rw [hold, Option.map_some]
    · rw [hd, Option.map_some, hmove.call_eq]
    · rw [hc] at hnone
      cases hnone
  -- an answer is final, unless the future of the call was dropped
  · rcases staysSettled_act hact k o hsettled with hsame | hdropped
    · exact Option.some.inj (hsame.symm.trans ho)
    · rw [hc', Option.map_some, Option.some.injEq] at hdropped
      rw [answer, hc', Option.bind_some, hdropped] at ho
      cases ho

/-- In this step no call takes the entry of `A` away. -/
def Undisturbed (A : TypeKey) (w w' : RegistryWorld) : Prop :=
  ∀ k call o, TakesEffect w w' k call o → call.key = A → call.displaces = false

/-- A running instance keeps its entry. -/
theorem entry_of_undisturbed {X : ℕ} (ht : Typed w) (hl : LockInv w) (hn : NewInv w)
    (hact : Act w w') (hkept : Undisturbed A w w') (hentry : w.entry A = some X)
    (hrun : w.running X = true) :
    w'.entry A = some X := by
  by_contra hgone
  obtain ⟨k, call, o, heffect, hkey, hwhich⟩ := keepsRunning_act ht hl hn hact A X hentry hrun hgone
  have hfalse := hkept k call o heffect hkey
  rcases hwhich with ⟨i, rfl⟩ | ⟨i, rfl⟩ | rfl <;> cases hfalse

/-- The instance of an entry is one of its type. -/
theorem Typed.typeOf_entry {X : ℕ} (ht : Typed w) (hentry : w.entry A = some X) :
    w.typeOf X = some A := by
  obtain ⟨e, he, -⟩ := Option.bind_eq_some_iff.mp hentry
  have haddr : e.item.addr = X := Option.some.inj ((ht.entry he).symm.trans hentry)
  exact haddr ▸ (ht.registry A e he).2

/-- An instance that runs after the step ran before it. -/
theorem running_of_act {X : ℕ} (hact : Act w w') (htype : w.typeOf X = some A)
    (hrun : w'.running X = true) : w.running X = true := by
  by_contra hstop
  rw [running_act hact htype (by simpa using hstop)] at hrun
  cases hrun

/-- Each call that may still take effect satisfies `P`. -/
def allUnanswered (w : RegistryWorld) (P : ServiceCall → Bool) : Bool :=
  (List.range w.calls.length).all fun k =>
    (w.answer k).isSome || (w.calls[k]?).all fun c => P c.call

theorem TakesEffect.of_allUnanswered {P : ServiceCall → Bool} {call : ServiceCall}
    {o : ServiceReply}
    (heffect : TakesEffect w w' k call o) (h : w.allUnanswered P = true) : P call = true := by
  obtain ⟨c, hc, rfl⟩ := Option.map_eq_some_iff.mp heffect.begun
  have hk := List.all_eq_true.mp h k (List.mem_range.mpr (List.getElem?_eq_some_iff.mp hc).1)
  simpa [heffect.before, hc] using hk

theorem undisturbed_of_allUnanswered
    (h : w.allUnanswered (fun call => call.key != A || !call.displaces) = true) :
    Undisturbed A w w' := by
  intro k call o heffect hkey
  simpa [hkey] using heffect.of_allUnanswered h

/-- **Continuity.** As long as a registered instance runs and no call replaces or unregisters its
service, it stays registered, and every `from_registry` that settles on an instance gets this
one. -/
theorem continuity {X : ℕ} {pre more : List RegistryLabel} (hw : machine.Run pre w)
    (hentry : w.entry A = some X) (hv : (machine.startingAt w).Run more v)
    (hrun : v.running X = true)
    (hkept : (machine.startingAt w).AllSteps more fun s _ s' => Undisturbed A s s') :
    v.entry A = some X ∧ ∀ k, (v.calls[k]?).map RegistryCall.call = some (.fromRegistry A) →
      w.answer k = none → ∀ o, v.answer k = some o → o = .addr X := by
  have htype : ∀ {ls s}, (machine.startingAt w).Run ls s → s.typeOf X = some A := fun hs =>
    hs.invariant (I := fun s => s.typeOf X = some A) ((inv_of_run hw).1.typeOf_entry hentry)
      fun _ _ _ h hstep => typeOf_act (act_cases hstep) h
  -- over the run, with its last step: before it the instance ran and was registered
  induction hv with
  | start =>
    refine ⟨hentry, fun k _ hnone o ho => ?_⟩
    have ho : w.answer k = some o := ho
    rw [hnone] at ho
    cases ho
  | @snoc ls s l s' hs hstep ih =>
    obtain ⟨ht, hl, -⟩ := inv_of_run (hw.append hs)
    have hact : Act s s' := act_cases hstep
    have hnow : Undisturbed A s s' := hkept s l s' ⟨ls, List.prefix_rfl, hs, hstep⟩
    -- the instance ran before the step as well, so it was registered then
    have hran : s.running X = true := running_of_act hact (htype hs) hrun
    obtain ⟨hbefore, hgot⟩ := ih hran (hkept.of_le (List.prefix_append ls [l]))
    have hafter : s'.entry A = some X :=
      entry_of_undisturbed ht hl (newInv_of_run (hw.append hs)) hact hnow hbefore hran
    refine ⟨hafter, fun k hcall hnone o ho => ?_⟩
    -- the call has just been answered, or it had its answer before
    cases hsettled : s.answer k with
    | none =>
      obtain ⟨i, rfl, hi⟩ := addr_of_answer hact hcall hsettled ho
      rw [hafter] at hi
      cases hi
      rfl
    | some o' =>
      obtain ⟨hcall', hsame⟩ := answer_stays hact hsettled hcall ho
      exact hsame ▸ hgot k hcall' hnone o' hsettled

/-- Two instances, the second one replaces the first. -/
def replacedRun : List RegistryLabel :=
  [.begin (.fromRegistry 5), .advance 0, .advance 0, .advance 0, .advance 0, .advance 0, .spawn 5,
    .begin (.replace 5 1), .advance 1, .advance 1]

/-- The service is asked for while the instance that was replaced tries to register again. -/
def askedRun : List RegistryLabel :=
  [.begin (.fromRegistry 5), .advance 2, .begin (.register 5 0), .advance 2, .advance 3, .advance 3]

theorem continuity_asked :
    (machine.startingAt (machine.after replacedRun rfl)).AllSteps askedRun
        (fun s _ s' => Undisturbed 5 s s')
      ∧ ((machine.startingAt (machine.after replacedRun rfl)).after askedRun
          (by decide)).entry 5 = some 1
      ∧ ∀ o, ((machine.startingAt (machine.after replacedRun rfl)).after askedRun
          (by decide)).answer 2 = some o → o = .addr 1 := by
  have hcheck : (machine.startingAt (machine.after replacedRun rfl)).AllSteps askedRun
      fun s _ _ => s.allUnanswered (fun call => call.key != 5 || !call.displaces) = true :=
    Machine.AllSteps.of_check (by decide)
  have hkept : (machine.startingAt (machine.after replacedRun rfl)).AllSteps askedRun
      fun s _ s' => Undisturbed 5 s s' :=
    fun s l s' htakes => undisturbed_of_allUnanswered (hcheck s l s' htakes)
  obtain ⟨hentry, hgot⟩ := continuity (machine.run_after replacedRun rfl) (A := 5) (X := 1)
    (by decide) (Machine.run_after askedRun (by decide)) (by decide) hkept
  exact ⟨hkept, hentry, hgot 2 (by decide) (by decide)⟩

/-! ## What the entry does not say

`unregister` through an address and `replace` do not compare what they take away with what they were
called on. So a call that means an old instance displaces the new one as well. -/

/-- In this step the service is not replaced, and not unregistered either, except through the
address of an instance other than `X`. -/
def SparedAs (A : TypeKey) (X : ℕ) (w w' : RegistryWorld) : Prop :=
  ∀ k call o, TakesEffect w w' k call o →
    (∀ i, call ≠ .replace A i) ∧ call ≠ .unregister A ∧ call ≠ .unregisterAddr A X

/-- The instance that was replaced is unregistered through its own address; then the service is
asked for. -/
def staleRun : List RegistryLabel :=
  [.begin (.unregisterAddr 5 0), .advance 2, .advance 2, .begin (.fromRegistry 5), .advance 3,
    .advance 3, .advance 3, .advance 3, .advance 3]

theorem sparedAs_of_allUnanswered {X : ℕ} (h : w.allUnanswered (fun call =>
    call.key != A || !call.displaces || call == .unregisterAddr A 0 && X != 0) = true) :
    SparedAs A X w w' := by
  intro k call o heffect
  have hcall := heffect.of_allUnanswered h
  simp only [Bool.or_eq_true, Bool.and_eq_true, beq_iff_eq, bne_iff_ne] at hcall
  refine ⟨?_, ?_, ?_⟩
  · rintro i rfl
    simp [ServiceCall.key, ServiceCall.displaces] at hcall
  · rintro rfl
    simp [ServiceCall.key, ServiceCall.displaces] at hcall
  · rintro rfl
    simp [ServiceCall.key, ServiceCall.displaces] at hcall

/-- **The address of an old instance unregisters the new one.** With instance 1 registered and
running, nothing that spares it as `SparedAs` says keeps a later `from_registry` from returning
another instance. -/
theorem continuity_stale :
    ¬ ∀ (A : TypeKey) (X : ℕ) (pre more : List RegistryLabel) (w v : RegistryWorld),
      machine.Run pre w → w.entry A = some X → (machine.startingAt w).Run more v →
      v.running X = true → ((machine.startingAt w).AllSteps more fun s _ s' => SparedAs A X s s') →
      ∀ k, (v.calls[k]?).map RegistryCall.call = some (.fromRegistry A) → w.answer k = none →
        ∀ o, v.answer k = some o → o = .addr X := by
  intro h
  have hspared : (machine.startingAt (machine.after replacedRun rfl)).AllSteps staleRun
      fun s _ _ => s.allUnanswered (fun call =>
        call.key != 5 || !call.displaces || call == .unregisterAddr 5 0 && 1 != 0) = true :=
    Machine.AllSteps.of_check (by decide)
  -- the old address unregisters instance 1, and the next `from_registry` spawns instance 2
  have hlost := h 5 1 replacedRun staleRun _ _ (machine.run_after replacedRun rfl) (by decide)
    (Machine.run_after staleRun (by decide)) (by decide)
    (fun s l s' htakes => sparedAs_of_allUnanswered (hspared s l s' htakes)) 3 (by decide)
    (by decide)
    (.addr 2) (by decide)
  cases hlost

end RegistryWorld

end Hannibal
