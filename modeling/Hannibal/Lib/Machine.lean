import Mathlib.Data.List.Infix
import Mathlib.Data.List.TakeWhile

/-!
# Hannibal.Lib.Machine — labelled machines, their runs and their invariants

A concurrent program is read here as a *labelled machine*: a state type, a label for everything
that can happen next (which party moves, and what the environment decides), and a partial step
function. Nondeterminism is entirely in the choice of the next label, so a finite run is a list of
labels and the step function stays executable.

* **`Machine.Run`** — the runs, built at their newest end, so that an induction on a run peels off
  its *last* step.
* **`Machine.startingAt`** — the machine from a later state on; a run is cut there by `Run.split`.
* **`Machine.Reaches`** — the states a run passes through.
* **`Machine.AllSteps`** — a condition on every step a run takes, the state before it included.
* **`Run.invariant`**, **`Reaches.invariant_of_steps`** — the induction, packaged once: what the
  initial state satisfies and one step preserves holds in every state reached; the second form may
  use a condition that each step of the run meets.
* **`Run.iff_takes`**, **`Run.register`** — what a state remembers of the steps that led to it.
* **`Run.simulates`** — forward simulation: if every step of one machine is matched by steps of a
  second one, every run is. `Run.erases`: only the steps with certain labels are. `Run.projects`: a
  machine is part of another one if the steps of the other are steps of its own, or none.

Nothing here knows what the states are.
-/

namespace Lts

/-- A labelled machine: where it starts, and what a label does in a state (`none` when the label
is not enabled there). -/
structure Machine (σ ℓ : Type*) where
  init : σ
  step : σ → ℓ → Option σ

namespace Machine

variable {σ ℓ τ κ : Type*} {M : Machine σ ℓ} {N : Machine τ κ}

/-! ## Runs

A run is the same as an execution of its labels: `Run.of_exec` makes one by computation,
`Run.exec_eq` turns it back, and from there a run is seen to be unique for its labels. -/

/-- `M.Run ls s`: taking the labels `ls` one after the other leads from the initial state to `s`. -/
inductive Run (M : Machine σ ℓ) : List ℓ → σ → Prop where
  | start : Run M [] M.init
  | snoc {ls : List ℓ} {s : σ} {l : ℓ} {s' : σ}
      (run : Run M ls s) (hstep : M.step s l = some s') : Run M (ls ++ [l]) s'

/-- Executing a list of labels from a state; the computable twin of `Run`. -/
def execFrom (M : Machine σ ℓ) (s : σ) : List ℓ → Option σ
  | [] => some s
  | l :: ls => (M.step s l).bind fun s' => M.execFrom s' ls

/-- Executing a list of labels from the initial state. -/
def exec (M : Machine σ ℓ) (ls : List ℓ) : Option σ := M.execFrom M.init ls

/-- Execution of a concatenation is execution of the parts in order. -/
theorem execFrom_append (s : σ) (ls ms : List ℓ) :
    M.execFrom s (ls ++ ms) = (M.execFrom s ls).bind fun s' => M.execFrom s' ms := by
  induction ls generalizing s with
  | nil => rfl
  | cons l ls ih =>
    simp only [List.cons_append, execFrom]
    cases M.step s l with
    | none => rfl
    | some s' => simpa using ih s'

/-- A run is what `exec` computes. -/
theorem Run.exec_eq {ls : List ℓ} {s : σ} (h : M.Run ls s) : M.exec ls = some s := by
  induction h with
  | start => rfl
  | snoc _ hstep ih =>
    unfold exec at ih ⊢
    rw [execFrom_append, ih]
    simp [execFrom, hstep]

/-- What `exec` computes is a run; so a concrete run is checked by evaluation. -/
theorem Run.of_exec {ls : List ℓ} {s : σ} (h : M.exec ls = some s) : M.Run ls s := by
  induction ls using List.reverseRecOn generalizing s with
  | nil =>
    cases h
    exact .start
  | append_singleton ls l ih =>
    unfold exec at h
    rw [execFrom_append] at h
    obtain ⟨s₀, hs₀, hlast⟩ := Option.bind_eq_some_iff.mp h
    exact .snoc (ih hs₀) (by simpa [execFrom] using hlast)

/-- The state a list of labels leads to. -/
def after (M : Machine σ ℓ) (ls : List ℓ) (h : (M.exec ls).isSome = true) : σ := (M.exec ls).get h

theorem run_after (ls : List ℓ) (h : (M.exec ls).isSome = true) : M.Run ls (M.after ls h) :=
  .of_exec (Option.some_get h).symm

/-- The labels determine the state. -/
theorem Run.unique {ls : List ℓ} {s s' : σ} (h : M.Run ls s) (h' : M.Run ls s') : s = s' :=
  Option.some.inj (h.exec_eq.symm.trans h'.exec_eq)

/-- A run that ends with label `l` took a step with it from a state it had reached before. -/
theorem Run.snoc_inv {ls : List ℓ} {l : ℓ} {s' : σ} (h : M.Run (ls ++ [l]) s') :
    ∃ s, M.Run ls s ∧ M.step s l = some s' := by
  generalize hms : ls ++ [l] = ms at h
  cases h with
  | start => simp at hms
  | snoc run hstep =>
    obtain ⟨rfl, hl⟩ := List.append_inj' hms rfl
    cases hl
    exact ⟨_, run, hstep⟩

/-- The same machine, started in another state: what happens from there on. -/
def startingAt (M : Machine σ ℓ) (s : σ) : Machine σ ℓ := ⟨s, M.step⟩

/-- A run goes on where it stands. -/
theorem Run.append {ls ms : List ℓ} {s t : σ} (h : M.Run ls s) (h' : (M.startingAt s).Run ms t) :
    M.Run (ls ++ ms) t := by
  induction h' with
  | start => rwa [List.append_nil]
  | snoc _ hstep ih =>
    rw [← List.append_assoc]
    exact ih.snoc hstep

/-- A run can be cut anywhere. -/
theorem Run.split {ls ms : List ℓ} {t : σ} (h : M.Run (ls ++ ms) t) :
    ∃ s, M.Run ls s ∧ (M.startingAt s).Run ms t := by
  induction ms using List.reverseRecOn generalizing t with
  | nil =>
    rw [List.append_nil] at h
    exact ⟨t, h, .start⟩
  | append_singleton ms l ih =>
    rw [← List.append_assoc] at h
    obtain ⟨u, hu, hstep⟩ := h.snoc_inv
    obtain ⟨s, hs, hrun⟩ := ih hu
    exact ⟨s, hs, hrun.snoc hstep⟩

/-! ## The states and the steps of a run

`Takes ls s l s'` says that the run over `ls` takes this step somewhere. Both it and `AllSteps` are
taken apart at the last step, which is what inductions on a run need. -/

/-- `M.Reaches ls s`: some prefix of the labels `ls` leads to `s`. -/
def Reaches (M : Machine σ ℓ) (ls : List ℓ) (s : σ) : Prop :=
  ∃ pre, pre <+: ls ∧ M.Run pre s

/-- `M.Takes ls s l s'`: the run over `ls` takes a step with label `l` from `s` to `s'`. -/
def Takes (M : Machine σ ℓ) (ls : List ℓ) (s : σ) (l : ℓ) (s' : σ) : Prop :=
  ∃ pre, (pre ++ [l]) <+: ls ∧ M.Run pre s ∧ M.step s l = some s'

/-- Every step the run over `ls` takes meets `C`. -/
def AllSteps (M : Machine σ ℓ) (ls : List ℓ) (C : σ → ℓ → σ → Prop) : Prop :=
  ∀ s l s', M.Takes ls s l s' → C s l s'

/-- The end of a run is one of the states it reaches. -/
theorem Run.reaches {ls : List ℓ} {s : σ} (h : M.Run ls s) : M.Reaches ls s :=
  ⟨ls, List.prefix_rfl, h⟩

/-- The state before a step of the run is reached. -/
theorem Takes.reaches_source {ls : List ℓ} {s s' : σ} {l : ℓ} (h : M.Takes ls s l s') :
    M.Reaches ls s := by
  obtain ⟨pre, hpre, hrun, -⟩ := h
  exact ⟨pre, (List.prefix_append pre [l]).trans hpre, hrun⟩

/-- The state after a step of the run is reached. -/
theorem Takes.reaches_target {ls : List ℓ} {s s' : σ} {l : ℓ} (h : M.Takes ls s l s') :
    M.Reaches ls s' := by
  obtain ⟨pre, hpre, hrun, hstep⟩ := h
  exact ⟨pre ++ [l], hpre, hrun.snoc hstep⟩

/-- The labels of the steps are those of the run. -/
theorem Takes.mem {ls : List ℓ} {s s' : σ} {l : ℓ} (h : M.Takes ls s l s') : l ∈ ls := by
  obtain ⟨pre, hpre, -, -⟩ := h
  exact hpre.subset (List.mem_append_right pre List.mem_cons_self)

/-- A longer run reaches the states of a shorter one. -/
theorem Reaches.mono {ls ms : List ℓ} {s : σ} (h : M.Reaches ls s) (hle : ls <+: ms) :
    M.Reaches ms s := by
  obtain ⟨pre, hpre, hrun⟩ := h
  exact ⟨pre, hpre.trans hle, hrun⟩

/-- The condition on the steps of a run passes to its prefixes. -/
theorem AllSteps.of_le {ls ms : List ℓ} {C : σ → ℓ → σ → Prop}
    (h : M.AllSteps ms C) (hle : ls <+: ms) : M.AllSteps ls C := by
  rintro s l s' ⟨pre, hpre, hrun, hstep⟩
  exact h s l s' ⟨pre, hpre.trans hle, hrun, hstep⟩

/-- A run without steps meets every condition. -/
theorem allSteps_nil {C : σ → ℓ → σ → Prop} : M.AllSteps [] C := by
  rintro s l s' ⟨pre, hpre, -⟩
  simp at hpre

/-- The last step of a run is one more condition. -/
theorem Run.allSteps_snoc {ls : List ℓ} {l : ℓ} {s s' : σ} {C : σ → ℓ → σ → Prop} (h : M.Run ls s)
    (hstep : M.step s l = some s') : M.AllSteps (ls ++ [l]) C ↔ M.AllSteps ls C ∧ C s l s' := by
  constructor
  · intro hall
    exact ⟨hall.of_le (List.prefix_append ls [l]), hall s l s' ⟨ls, List.prefix_rfl, h, hstep⟩⟩
  · rintro ⟨hall, hlast⟩ u k u' ⟨pre, hpre, hrun, hk⟩
    rcases List.prefix_concat_iff.mp hpre with heq | hle
    · obtain ⟨rfl, hkl⟩ := List.append_inj' heq rfl
      cases hkl
      obtain rfl := h.unique hrun
      obtain rfl := Option.some.inj (hk.symm.trans hstep)
      exact hlast
    · exact hall u k u' ⟨pre, hle, hrun, hk⟩

/-- The last step of a run is one more step it takes. -/
theorem Run.takes_snoc {ls : List ℓ} {l k : ℓ} {s s' u u' : σ} (h : M.Run ls s)
    (hstep : M.step s l = some s') :
    M.Takes (ls ++ [l]) u k u' ↔ M.Takes ls u k u' ∨ (u = s ∧ k = l ∧ u' = s') := by
  constructor
  · rintro ⟨pre, hpre, hrun, hk⟩
    rcases List.prefix_concat_iff.mp hpre with heq | hle
    · obtain ⟨rfl, hkl⟩ := List.append_inj' heq rfl
      cases hkl
      obtain rfl := h.unique hrun
      exact .inr ⟨rfl, rfl, Option.some.inj (hk.symm.trans hstep)⟩
    · exact .inl ⟨pre, hle, hrun, hk⟩
  · rintro (⟨pre, hpre, hrun, hk⟩ | ⟨rfl, rfl, rfl⟩)
    · exact ⟨pre, hpre.trans (List.prefix_append ls [l]), hrun, hk⟩
    · exact ⟨ls, List.prefix_rfl, h, hstep⟩

/-- A test on steps, evaluated along the execution of a list of labels. -/
def checkFrom (M : Machine σ ℓ) (C : σ → ℓ → σ → Bool) (s : σ) : List ℓ → Bool
  | [] => true
  | l :: ls =>
    match M.step s l with
    | none => true
    | some s' => C s l s' && M.checkFrom C s' ls

theorem checkFrom_step {C : σ → ℓ → σ → Bool} {s t t' : σ} {pre post : List ℓ} {l : ℓ}
    (h : M.checkFrom C s (pre ++ l :: post) = true) (hpre : M.execFrom s pre = some t)
    (hstep : M.step t l = some t') : C t l t' = true := by
  induction pre generalizing s with
  | nil =>
    cases hpre
    simp only [List.nil_append, checkFrom, hstep, Bool.and_eq_true] at h
    exact h.1
  | cons k pre ih =>
    obtain ⟨s', hs', hpre'⟩ := Option.bind_eq_some_iff.mp hpre
    simp only [List.cons_append, checkFrom, hs', Bool.and_eq_true] at h
    exact ih h.2 hpre'

/-- So a condition on the steps of a concrete run is checked by evaluation. -/
theorem AllSteps.of_check {C : σ → ℓ → σ → Bool} {ls : List ℓ}
    (h : M.checkFrom C M.init ls = true) : M.AllSteps ls fun s l s' => C s l s' = true := by
  rintro s l s' ⟨pre, ⟨post, rfl⟩, hrun, hstep⟩
  rw [List.append_assoc, List.singleton_append] at h
  exact checkFrom_step h hrun.exec_eq hstep

/-! ## Invariants

The inductions on runs, each stated once. A development that uses them states what one step does,
and has what a run does from the rule. -/

/-- **Invariant induction.** What the initial state satisfies and every step preserves holds at
the end of every run. -/
theorem Run.invariant {I : σ → Prop} (hinit : I M.init)
    (hpres : ∀ s l s', I s → M.step s l = some s' → I s') {ls : List ℓ} {s : σ}
    (h : M.Run ls s) : I s := by
  induction h with
  | start => exact hinit
  | snoc _ hstep ih => exact hpres _ _ _ ih hstep

/-- Invariant induction for every state a run reaches. -/
theorem Reaches.invariant {I : σ → Prop} (hinit : I M.init)
    (hpres : ∀ s l s', I s → M.step s l = some s' → I s') {ls : List ℓ} {s : σ}
    (h : M.Reaches ls s) : I s := by
  obtain ⟨pre, -, hrun⟩ := h
  exact hrun.invariant hinit hpres

/-- **Invariant induction under a condition on the steps.** If every step of the run meets `C`,
the invariant only has to survive steps that meet `C`. -/
theorem Reaches.invariant_of_steps {I : σ → Prop} {C : σ → ℓ → σ → Prop} (hinit : I M.init)
    (hpres : ∀ s l s', I s → M.step s l = some s' → C s l s' → I s') {ls : List ℓ} {s : σ}
    (hC : M.AllSteps ls C) (h : M.Reaches ls s) : I s := by
  obtain ⟨pre, hpre, hrun⟩ := h
  induction hrun with
  | start => exact hinit
  | snoc run hstep ih =>
    have hprev := ih ((List.prefix_append _ _).trans hpre)
    exact hpres _ _ _ hprev hstep (hC _ _ _ ⟨_, hpre, run, hstep⟩)

/-- **What a state remembers of its run.** If each step makes `P` true exactly when it meets `C`,
and nothing makes it false again, `P` says that some step of the run has met `C`. -/
theorem Run.iff_takes {I P : σ → Prop} {C : σ → ℓ → σ → Prop} (hinit : I M.init)
    (hpres : ∀ s l s', I s → M.step s l = some s' → I s') (hnone : ¬ P M.init)
    (hP : ∀ s l s', I s → M.step s l = some s' → (P s' ↔ P s ∨ C s l s'))
    {ls : List ℓ} {s : σ} (h : M.Run ls s) : P s ↔ ∃ u l u', M.Takes ls u l u' ∧ C u l u' := by
  -- over the run: the last step meets the condition, or `P` says so of the steps before it
  induction h with
  | start =>
    refine ⟨fun hstart => absurd hstart hnone, ?_⟩
    rintro ⟨u, l, u', ⟨pre, hpre, -⟩, -⟩
    simp at hpre
  | snoc run hstep ih =>
    rw [hP _ _ _ (run.invariant hinit hpres) hstep, ih]
    constructor
    · rintro (⟨u, l, u', htakes, hC⟩ | hC)
      · exact ⟨u, l, u', (run.takes_snoc hstep).mpr (.inl htakes), hC⟩
      · exact ⟨_, _, _, (run.takes_snoc hstep).mpr (.inr ⟨rfl, rfl, rfl⟩), hC⟩
    · rintro ⟨u, l, u', htakes, hC⟩
      rcases (run.takes_snoc hstep).mp htakes with htakes | ⟨rfl, rfl, rfl⟩
      · exact .inl ⟨u, l, u', htakes, hC⟩
      · exact .inr hC

/-- The last of the values that `f` reads off a list of labels. -/
def lastOf {β : Type*} (f : ℓ → Option β) (ls : List ℓ) : Option β := (ls.filterMap f).getLast?

@[simp] theorem lastOf_nil {β : Type*} (f : ℓ → Option β) : lastOf f [] = none := rfl

theorem lastOf_snoc {β : Type*} (f : ℓ → Option β) (ls : List ℓ) (l : ℓ) :
    lastOf f (ls ++ [l]) = (f l).or (lastOf f ls) := by
  unfold lastOf
  rw [List.filterMap_append, List.getLast?_append]
  cases h : f l <;> simp [h]

theorem mem_of_lastOf {β : Type*} {f : ℓ → Option β} {ls : List ℓ} {b : β}
    (h : lastOf f ls = some b) :
    ∃ l ∈ ls, f l = some b :=
  List.mem_filterMap.mp (List.mem_of_getLast? h)

/-- **Registers.** What every step either overwrites or keeps is what was written last. -/
theorem Run.register {β : Type*} {g : σ → β} {f : ℓ → Option β}
    (hg : ∀ s l s', M.step s l = some s' → g s' = (f l).getD (g s)) {ls : List ℓ} {s : σ}
    (h : M.Run ls s) : g s = (lastOf f ls).getD (g M.init) := by
  induction h with
  | start => rfl
  | @snoc ls s l s' run hstep ih =>
    rw [hg s l s' hstep, ih, lastOf_snoc]
    cases f l <;> rfl

/-- **History only grows.** A reflexive and transitive relation that every step respects relates
each state of a run to all later ones. -/
theorem Run.related {r : σ → σ → Prop} (hrefl : ∀ s, r s s)
    (htrans : ∀ a b c, r a b → r b c → r a c)
    (hpres : ∀ s l s', M.step s l = some s' → r s s') {pre ls : List ℓ} {s t : σ}
    (hle : pre <+: ls) (hs : M.Run pre s) (ht : M.Run ls t) : r s t := by
  obtain ⟨post, rfl⟩ := hle
  -- over what the longer run has more, from its end
  induction post using List.reverseRecOn generalizing t with
  | nil =>
    rw [List.append_nil] at ht
    rw [hs.unique ht]
    exact hrefl t
  | append_singleton post l ih =>
    rw [← List.append_assoc] at ht
    obtain ⟨u, hu, hstep⟩ := ht.snoc_inv
    exact htrans _ _ _ (ih hu) (hpres _ _ _ hstep)

/-! ## Simulation

Rules that carry a run of one machine over to another one: step for several steps, step for step
with some labels left out, and along a map of the states. -/

/-- **Forward simulation.** If every step of `M` from a related state is matched by a (possibly
empty) sequence of steps of `N`, every run of `M` is matched by a run of `N`. -/
theorem Run.simulates {R : σ → τ → Prop} (hinit : R M.init N.init)
    (hmatch : ∀ s l s' t, R s t → M.step s l = some s' →
      ∃ ks t', N.execFrom t ks = some t' ∧ R s' t')
    {ls : List ℓ} {s : σ} (h : M.Run ls s) : ∃ ks t, N.Run ks t ∧ R s t := by
  induction h with
  | start => exact ⟨[], N.init, .start, hinit⟩
  | snoc _ hstep ih =>
    obtain ⟨ks, t, hrun, hR⟩ := ih
    obtain ⟨ks', t', hexec, hR'⟩ := hmatch _ _ _ _ hR hstep
    refine ⟨ks ++ ks', t', .of_exec ?_, hR'⟩
    have hks : N.execFrom N.init ks = some t := hrun.exec_eq
    unfold exec
    rw [execFrom_append, hks]
    exact hexec

/-- **Erasure.** If `N` matches the steps of `M` with labels in `p` by the same step, and the others
by none, as long as `C` holds, each run of `M` is matched by that of `N` over its labels in `p`. -/
theorem Run.erases {N : Machine τ ℓ} {R : σ → τ → Prop} {C : σ → Prop} (p : ℓ → Bool)
    (hinit : R M.init N.init)
    (hkeep : ∀ s l s' t, C s → C s' → R s t → M.step s l = some s' → p l = true →
      ∃ t', N.step t l = some t' ∧ R s' t')
    (hdrop : ∀ s l s' t, C s → C s' → R s t → M.step s l = some s' → p l = false → R s' t)
    {ls : List ℓ} {s : σ} (h : M.Run ls s) (hC : ∀ u, M.Reaches ls u → C u) :
    ∃ t, N.Run (ls.filter p) t ∧ R s t := by
  -- over the run of `M`; `C` holds of both ends of each of its steps
  induction h with
  | start => exact ⟨N.init, .start, hinit⟩
  | snoc run hstep ih =>
    obtain ⟨t, hrun, hR⟩ := ih fun u hu => hC u (hu.mono (List.prefix_append _ _))
    have hs := hC _ (run.reaches.mono (List.prefix_append _ _))
    have hs' := hC _ (run.snoc hstep).reaches
    rw [List.filter_append, List.filter_singleton]
    cases hp : p _ with
    | true =>
      obtain ⟨t', hstep', hR'⟩ := hkeep _ _ _ _ hs hs' hR hstep hp
      exact ⟨t', hrun.snoc hstep', hR'⟩
    | false =>
      rw [cond_false, List.append_nil]
      exact ⟨t, hrun, hdrop _ _ _ _ hs hs' hR hstep hp⟩

/-- **Homomorphisms.** If `φ` takes each step of `M` to the same step of `N`, as long as `I` holds
and the labels satisfy `C`, it takes executions to executions. -/
theorem execFrom_map {N : Machine τ ℓ} {φ : σ → τ} {I : σ → Prop} {C : ℓ → Prop}
    (hstep : ∀ s l, I s → C l → N.step (φ s) l = (M.step s l).map φ)
    (hpres : ∀ s l s', I s → C l → M.step s l = some s' → I s') {s : σ} (hs : I s) (ls : List ℓ)
    (hls : ∀ l ∈ ls, C l) : N.execFrom (φ s) ls = (M.execFrom s ls).map φ := by
  induction ls generalizing s with
  | nil => rfl
  | cons l ls ih =>
    have hl : C l := hls l List.mem_cons_self
    simp only [execFrom, hstep s l hs hl]
    cases hstepl : M.step s l with
    | none => rfl
    | some s' => exact ih (hpres s l s' hs hl hstepl) fun k hk => hls k (List.mem_cons_of_mem l hk)

/-- **A part of a machine is a machine.** If each step of `M` leaves the part `π` alone or is a step
of `N` there, each run of `M` leads this part through a run of `N`. -/
theorem Run.projects {π : σ → τ} (hinit : π M.init = N.init)
    (hpart : ∀ s l s', M.step s l = some s' → π s' = π s ∨ ∃ k, N.step (π s) k = some (π s'))
    {ls : List ℓ} {s : σ} (h : M.Run ls s) : ∃ ks, N.Run ks (π s) := by
  obtain ⟨ks, t, hrun, rfl⟩ :=
    h.simulates (R := fun s t => π s = t) hinit fun s l s' t ht hstep => by
    subst ht
    rcases hpart s l s' hstep with hsame | ⟨k, hk⟩
    · exact ⟨[], π s, rfl, hsame⟩
    · exact ⟨[k], π s', by simp [execFrom, hk], rfl⟩
  exact ⟨ks, hrun⟩

end Machine

end Lts
