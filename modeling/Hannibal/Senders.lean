import Hannibal.Client

/-!
# Hannibal.Senders — who keeps the mailbox open

Strong handles that nobody uses, and the operations that have a strong sender in their hands, keep
the mailbox of an actor open. Once none of them is left it is closed for good; otherwise only its
receiver closes it.

* **`hasSender_of_act`** — no step makes a sender where there is none.
* **`World.SenderInv`** — when a mailbox is closed; `senderInv_step` is its step lemma.
-/

namespace Hannibal

open Lts Chan
open AsyncChannel (state)

variable {Q : Type → Type} [AsyncChannel Q] {σ ρ : Type}

namespace World

variable {E : EventLoop σ} {w v w' : World Q σ ρ} {l : Label σ ρ}

theorem hasSender_of_upgradable (h : w.upgradable = true) : w.hasSender = true := by
  unfold upgradable at h
  exact (Bool.and_eq_true_iff.mp h).2

omit [AsyncChannel Q] in
theorem hasSender_of_holds {f : Flight σ ρ} (hf : f ∈ w.flights) (hholds : f.holds = true) :
    w.hasSender = true := by
  simp only [hasSender, Bool.or_eq_true, List.any_eq_true]
  exact .inr ⟨f, hf, hholds⟩

/-- An operation has its sender already, or gets it where there is one. -/
theorem holds_of_moves {f g : Flight σ ρ} (h : Moves w f g) (hg : g.holds = true) :
    f.holds = true ∨ w.hasSender = true := by
  cases h with
  | upgraded op hup => exact .inr (hasSender_of_upgradable hup)
  | abandon f habandon => cases hg
  | dropped op hup => cases hg
  | stopped op hrun => cases hg
  | refused op hno => cases hg
  | answered op r => cases hg
  | canceled op => cases hg
  | _ => exact .inl rfl

/-- **No step makes a sender where there is none.** -/
theorem hasSender_of_act (h : Act E w l v) (hv : v.hasSender = true) : w.hasSender = true := by
  have hhandles : 0 < w.handles → w.hasSender = true := fun hpos => by simp [hasSender, hpos]
  rw [hasSender, Bool.or_eq_true, decide_eq_true_eq, List.any_eq_true] at hv
  rcases hv with hpos | ⟨g, hg, hholds⟩
  · cases h with
    | clone hpos' => exact hhandles hpos'
    | upgrade hup => exact hasSender_of_upgradable hup
    | drop hpos' => exact hhandles hpos'
    | accepted i op hf evicted q henq => exact hhandles (by simpa using hpos)
    | poll t ht => exact hhandles (by simpa using hpos)
    | dropFuture t ht => exact hhandles (by simpa using hpos)
    | _ => exact hhandles hpos
  · obtain ⟨k, hk⟩ := List.mem_iff_getElem?.mp hg
    rcases flight_of_act h hk with hold | ⟨f, hf, hmove⟩ | ⟨op, rfl, rfl⟩
    · exact hasSender_of_holds (List.mem_of_getElem? hold) hholds
    · rcases holds_of_moves hmove hholds with hf' | hsender
      · exact hasSender_of_holds (List.mem_of_getElem? hf) hf'
      · exact hsender
    · -- an operation that begins with a sender was called on a strong handle
      cases h with
      | begin op hvia =>
        cases hop : op.via with
        | strong =>
          rw [hop] at hvia
          exact hhandles (by simpa [offers] using hvia)
        | weak => simp [Operation.first, hop, Flight.holds] at hholds
        | context => simp [Operation.first, hop, Flight.holds] at hholds
      | silent l tl hl t ht => cases hl

/-- Before the channel reacts, only the receiver has closed it. -/
theorem closed_cases_of_act (h : Act E w l v) (hv : v.closed = true) :
    w.closed = true ∨ v.task.rx = false := by
  cases h with
  | accepted i op hf evicted q henq =>
    obtain ⟨hopen, ⟨-, hstate, -⟩ | ⟨-, -, -, hstate⟩⟩ := enqueue_ok henq
    · exact .inl (by simpa [World.closed, hstate] using hv)
    · exact .inl (by simpa [World.closed, hstate] using hv)
  | pop e q t hq ht => exact .inl ((AsyncChannel.tryRecv_ok hq).2.1.symm.trans hv)
  | poll t ht => exact .inl (by simpa [World.closed] using hv)
  | dropFuture t ht => exact .inl (by simpa [World.closed] using hv)
  | dropRx t ht =>
    cases ht with
    | dropRx hend hrx => exact .inr rfl
  | _ => exact .inl hv

/-- The mailbox is closed once its senders or its receiver are gone. -/
structure SenderInv (w : World Q σ ρ) : Prop where
  settled : w.hasSender = false → w.closed = true
  cause : w.closed = true → w.hasSender = false ∨ w.task.rx = false

theorem senderInv_init (capacity : Option ℕ+) (a : σ) : SenderInv (init Q ρ capacity a) where
  settled h := by simp [hasSender, init] at h
  cause h := by simp [World.closed, init, ChannelState.fresh] at h

theorem rx_of_act (h : Act E w l v) (hrx : w.task.rx = false) : v.task.rx = false := by
  rcases task_of_act h with hsame | ⟨tl, ht⟩
  · rwa [hsame]
  · rw [← Bool.not_eq_true] at hrx ⊢
    exact mt ht.mono.2.1 hrx

theorem running_of_act (h : Act E w l v) (hrun : w.task.running = false) :
    v.task.running = false := by
  rcases task_of_act h with hsame | ⟨tl, ht⟩
  · rwa [hsame]
  · rw [← Bool.not_eq_true] at hrun ⊢
    exact mt ht.mono.1 hrun

theorem senderInv_step (hinv : SenderInv w) (h : step E w l = some w') : SenderInv w' := by
  obtain ⟨v, hact, rfl⟩ := step_cases h
  constructor
  · intro hnone
    rw [settle_hasSender] at hnone
    simp [settle_closed, hnone]
  · intro hclosed
    rw [settle_hasSender, settle_task]
    rw [settle_closed, Bool.or_eq_true, Bool.not_eq_true'] at hclosed
    rcases hclosed with hclosed | hnone
    · rcases closed_cases_of_act hact hclosed with hwas | hrx
      · rcases hinv.cause hwas with hnone | hrx
        · refine .inl ?_
          rw [← Bool.not_eq_true] at hnone ⊢
          exact mt (hasSender_of_act hact) hnone
        · exact .inr (rx_of_act hact hrx)
      · exact .inr hrx
    · exact .inl hnone

end World

end Hannibal
