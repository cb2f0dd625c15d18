import Hannibal.Client

/-!
# Hannibal.Abandonment — operations whose futures are dropped

Who drops the future of a `call`, a `ping` or a `send` where it waits takes nothing back that the
mailbox has accepted, and nobody else can tell it from a future that is kept and never polled again,
as long as the strong sender that goes with it is not the last one.

* **`Idles`** — a dropped operation, next to the same operation as it would stand.
* **`Shadows`** — two worlds that differ in this only; `shadows_step` is the step lemma.
* **`abandonment_unnoticed`** — each run is matched by that without its drops.
-/

namespace Hannibal

open Lts Chan
open AsyncChannel (state)

variable {Q : Type → Type} {σ ρ : Type}

/-- The label drops the future of an operation. -/
def Label.abandons : Label σ ρ → Bool
  | .abandon _ => true
  | _ => false

/-- An operation, and where it would stand if its future had been kept but not polled again. -/
inductive Idles : Flight σ ρ → Flight σ ρ → Prop where
  | same (f : Flight σ ρ) : Idles f f
  | sending (op : Operation σ ρ) (hop : op.primitive = .send) :
      Idles ⟨op, .abandoned⟩ ⟨op, .enqueuing⟩
  | waiting (op : Operation σ ρ) (reply : Reply ρ) : Idles ⟨op, .abandoned⟩ ⟨op, .waiting reply⟩

namespace Idles

variable {f g : Flight σ ρ}

/-- What is not dropped stands where it stands. -/
theorem eq_of_not_abandoned (h : Idles f g) (hf : f.stage ≠ .abandoned) : g = f := by
  cases h with
  | same => rfl
  | sending op hop => exact absurd rfl hf
  | waiting op reply => exact absurd rfl hf

/-- A dropped operation does not see its oneshot resolved. -/
theorem resolve (h : Idles f g) (reply : Reply ρ) : Idles (f.resolve reply) (g.resolve reply) := by
  cases h with
  | same => exact .same _
  | sending op hop => exact .sending op hop
  | waiting op r => cases r <;> exact .waiting op _

/-- A future is dropped where its operation waits for space or for its response. -/
theorem abandon (h : Idles f g) (hf : f.abandonable = true) :
    Idles { f with stage := .abandoned } g := by
  obtain ⟨op, st⟩ := f
  cases st with
  | enqueuing =>
    rw [h.eq_of_not_abandoned (by simp)]
    exact .sending op (by simpa [Flight.abandonable] using hf)
  | waiting reply =>
    rw [h.eq_of_not_abandoned (by simp)]
    exact .waiting op reply
  | _ => cases hf

theorem holds (h : Idles f g) (hf : f.holds = true) : g.holds = true := by
  cases h with
  | same => exact hf
  | sending op hop => cases hf
  | waiting op reply => cases hf

end Idles

namespace World

/-- The same world, but for operations that were dropped in `w` and idle in `w'`. -/
structure Shadows (w w' : World Q σ ρ) : Prop where
  mailbox : w'.mailbox = w.mailbox
  handles : w'.handles = w.handles
  task : w'.task = w.task
  accepted : w'.accepted = w.accepted
  popped : w'.popped = w.popped
  completed : w'.completed = w.completed
  flights : List.Forall₂ Idles w.flights w'.flights

namespace Shadows

variable {w w' : World Q σ ρ} {i : ℕ} {op : Operation σ ρ} {st : Stage ρ}

theorem refl (w : World Q σ ρ) : Shadows w w :=
  ⟨rfl, rfl, rfl, rfl, rfl, rfl, List.forall₂_same.mpr fun f _ => .same f⟩

/-- An operation that is not dropped stands there as well. -/
theorem flight (h : Shadows w w') (hf : w.flights[i]? = some ⟨op, st⟩) (hst : st ≠ .abandoned) :
    w'.flights[i]? = some ⟨op, st⟩ := by
  obtain ⟨g, hg, hidles⟩ := Table.forall₂_getElem? h.flights hf
  rw [hg, hidles.eq_of_not_abandoned hst]

theorem setStage (h : Shadows w w') (st' : Stage ρ) :
    Shadows (w.setStage i st') (w'.setStage i st') where
  __ := h
  flights := Table.forall₂_modify h.flights fun _ _ hfg => by cases hfg <;> exact .same _

theorem resolve (h : Shadows w w') (k : ℕ) (reply : Reply ρ) :
    Shadows (w.resolve k reply) (w'.resolve k reply) where
  __ := h
  flights := Table.forall₂_modify h.flights fun _ _ hfg => hfg.resolve reply

theorem evict (h : Shadows w w') (ev : Option (Envelope σ ρ)) :
    Shadows (w.evict ev) (w'.evict ev) := by
  cases ev with
  | none => exact h
  | some e => exact h.resolve e.client .canceled

theorem answer (h : Shadows w w') (o : Option (ℕ × Reply ρ)) :
    Shadows (w.answer o) (w'.answer o) := by
  rcases o with _ | ⟨k, _ | r | _⟩
  · exact h
  · exact h.resolve k .pending
  · exact { h.resolve k (.ok r) with completed := congrArg (· ++ [(k, r)]) h.completed }
  · exact h.resolve k .canceled

theorem accept (h : Shadows w w') (i : ℕ) (op : Operation σ ρ) (ev : Option (Envelope σ ρ))
    (q : Q (Envelope σ ρ)) : Shadows (w.accept i op ev q) (w'.accept i op ev q) :=
  { (h.evict ev).setStage op.afterAccept with
    mailbox := rfl
    accepted := by
      show w'.accepted ++ _ = w.accepted ++ _
      rw [h.accepted] }

theorem withTask (h : Shadows w w') (t : LoopTask σ ρ) : Shadows (w.withTask t) (w'.withTask t) :=
  { h with task := rfl }

theorem abandon (h : Shadows w w') {f : Flight σ ρ} (hf : w.flights[i]? = some f)
    (habandon : f.abandonable = true) : Shadows (w.setStage i .abandoned) w' where
  __ := h
  flights := Table.forall₂_modify_left h.flights fun g g' hg hidles => by
    cases hf.symm.trans hg
    exact hidles.abandon habandon

/-- A future that is kept keeps its sender. -/
theorem hasSender (h : Shadows w w') (hw : w.hasSender = true) : w'.hasSender = true := by
  rw [World.hasSender, Bool.or_eq_true, List.any_eq_true] at hw ⊢
  rcases hw with hpos | ⟨f, hf, hholds⟩
  · exact .inl (h.handles ▸ hpos)
  · obtain ⟨k, hk⟩ := List.mem_iff_getElem?.mp hf
    obtain ⟨g, hg, hidles⟩ := Table.forall₂_getElem? h.flights hk
    exact .inr ⟨g, List.mem_of_getElem? hg, hidles.holds hholds⟩

variable [AsyncChannel Q] {E : EventLoop σ} {v : World Q σ ρ} {l : Label σ ρ}

theorem upgradable (h : Shadows w w') (hw : w.hasSender = true) : w'.upgradable = w.upgradable := by
  rw [World.upgradable, World.upgradable, hw, h.hasSender hw, closed, closed, h.mailbox]

theorem advance (h : Shadows w w') (hw : w.hasSender = true) (hact : Act E w (.advance i) v) :
    ∃ v', w'.advance i = some v' ∧ Shadows v v' := by
  have hup' : ∀ b, w.upgradable = b → w'.upgradable = b := fun b hb => (h.upgradable hw).trans hb
  have hrun' : ∀ b, w.task.running = b → w'.task.running = b := fun b hb =>
    (congrArg LoopTask.running h.task).trans hb
  -- one case for each way an operation moves on: it finds the same mailbox and flag in both worlds
  cases hact with
  | upgraded _ op hf hup =>
    exact ⟨_, by simp [World.advance, h.flight hf, hup' _ hup], h.setStage _⟩
  | dropped _ op hf hup =>
    exact ⟨_, by simp [World.advance, h.flight hf, hup' _ hup], h.setStage _⟩
  | passed _ op hf hrun =>
    exact ⟨_, by simp [World.advance, h.flight hf, hrun' _ hrun], h.setStage _⟩
  | stopped _ op hf hrun =>
    exact ⟨_, by simp [World.advance, h.flight hf, hrun' _ hrun], h.setStage _⟩
  | accepted _ op hf ev q henq =>
    rw [← h.mailbox] at henq
    exact ⟨_, by simp [World.advance, h.flight hf, henq], h.accept i op ev q⟩
  | refused _ op hf henq =>
    rw [← h.mailbox] at henq
    exact ⟨_, by simp [World.advance, h.flight hf, henq], h.setStage _⟩
  | answered _ op r hf => exact ⟨_, by simp [World.advance, h.flight hf], h.setStage _⟩
  | canceled _ op hf => exact ⟨_, by simp [World.advance, h.flight hf], h.setStage _⟩
  | silent _ tl hl t ht => cases hl

theorem receive (h : Shadows w w') (hv : w.receive E = some v) :
    ∃ v', w'.receive E = some v' ∧ Shadows v v' := by
  rw [World.receive, h.mailbox, h.task]
  rw [World.receive] at hv
  cases hrecv : AsyncChannel.tryRecv w.mailbox with
  | ok r =>
    simp only [hrecv] at hv ⊢
    obtain ⟨t, ht, rfl⟩ := Option.map_eq_some_iff.mp hv
    refine ⟨_, by rw [ht]; rfl, ?_⟩
    exact { h with mailbox := rfl, task := rfl, popped := congrArg (· ++ [r.1]) h.popped }
  | error err =>
    cases err with
    | closed =>
      simp only [hrecv] at hv ⊢
      obtain ⟨t, ht, rfl⟩ := Option.map_eq_some_iff.mp hv
      exact ⟨_, by rw [ht]; rfl, h.withTask t⟩
    -- the loop waits on an empty mailbox
    | empty => simp [hrecv] at hv

/-- **Whatever happens next, happens in both**, but for a future that is dropped. -/
theorem act (h : Shadows w w') (hw : w.hasSender = true) (hv : w.act E l = some v)
    (hl : l.abandons = false) : ∃ v', w'.act E l = some v' ∧ Shadows v v' := by
  cases l with
  | advance i => exact h.advance hw (act_cases hv)
  | receive => exact h.receive hv
  -- the label the other world leaves out
  | abandon i => cases hl
  -- whether a handle is there to call on does not depend on the dropped operations
  | begin op =>
    have hoffers : w'.offers op.via = w.offers op.via := by
      cases hop : op.via <;> simp [World.offers, h.handles, h.task]
    simp only [World.act, hoffers] at hv ⊢
    split at hv
    · next hvia =>
      cases hv
      refine ⟨_, if_pos hvia, ?_⟩
      exact { h with flights := Table.forall₂_snoc h.flights (.same _) }
    · cases hv
  | clone | drop =>
    simp only [World.act, h.handles] at hv ⊢
    split at hv
    · next hyes =>
      cases hv
      refine ⟨_, if_pos hyes, ?_⟩
      exact { h with handles := rfl }
    · cases hv
  -- here the sender that keeps the channel open is needed: an upgrade may count on a dropped one
  | upgrade =>
    simp only [World.act, h.upgradable hw, h.handles] at hv ⊢
    split at hv
    · next hyes =>
      cases hv
      refine ⟨_, if_pos hyes, ?_⟩
      exact { h with handles := rfl }
    · cases hv
  | poll =>
    simp only [World.act, h.task] at hv ⊢
    obtain ⟨t, ht, rfl⟩ := Option.map_eq_some_iff.mp hv
    exact ⟨_, by rw [ht]; rfl, (h.withTask t).answer _⟩
  | dropFuture =>
    simp only [World.act, h.task] at hv ⊢
    obtain ⟨t, ht, rfl⟩ := Option.map_eq_some_iff.mp hv
    exact ⟨_, by rw [ht]; rfl, (h.withTask t).answer _⟩
  | dropRx =>
    simp only [World.act, h.task, h.mailbox] at hv ⊢
    obtain ⟨t, ht, rfl⟩ := Option.map_eq_some_iff.mp hv
    refine ⟨_, by rw [ht]; rfl, ?_⟩
    exact { h with mailbox := rfl, task := rfl }
  | item f | streamEnd | lower | fire | dropCtx =>
    simp only [World.act, h.task] at hv ⊢
    obtain ⟨t, ht, rfl⟩ := Option.map_eq_some_iff.mp hv
    exact ⟨_, by rw [ht]; rfl, h.withTask t⟩

/-- The channel sees no difference, as long as there is another sender. -/
theorem settled (h : Shadows w w') (hw : w.hasSender = true) : Shadows w.settle w'.settle := by
  rw [settle, settle, if_pos hw, if_pos (h.hasSender hw)]
  exact h

end Shadows

variable [AsyncChannel Q] {E : EventLoop σ} {w u w' : World Q σ ρ} {l : Label σ ρ}

theorem shadows_step (h : Shadows w u) (hw : w.hasSender = true) (hw' : w'.hasSender = true)
    (hstep : w.step E l = some w') (hl : l.abandons = false) :
    ∃ u', u.step E l = some u' ∧ Shadows w' u' := by
  obtain ⟨v, hv, rfl⟩ := Option.map_eq_some_iff.mp hstep
  rw [settle_hasSender] at hw'
  obtain ⟨u', hu', hshadows⟩ := h.act hw hv hl
  exact ⟨u'.settle, by rw [step, hu', Option.map_some], hshadows.settled hw'⟩

/-- **A dropped future leaves no trace.** -/
theorem shadows_abandon (h : Shadows w u) (hw' : w'.hasSender = true) (hstep : w.step E l = some w')
    (hl : l.abandons = true) : Shadows w' u := by
  obtain ⟨v, hact, rfl⟩ := step_cases hstep
  rw [settle_hasSender] at hw'
  rw [settle, if_pos hw']
  cases hact with
  | abandon i f hf habandon => exact h.abandon hf habandon
  | silent l tl hsilent t ht =>
    cases l with
    | abandon i => cases hsilent
    | _ => cases hl
  | _ => cases hl

/-- **Dropping a future is the same as not polling it again.** For both loops, every mailbox and
every run in which somebody else always has a strong sender: the run without the steps that drop a
future leads to the same mailbox, loop future and history, and all operations stand where they
stood, but for those whose future was dropped: they wait where they did. -/
theorem abandonment_unnoticed (E : EventLoop σ) (capacity : Option ℕ+) (a : σ)
    {ls : List (Label σ ρ)}
    (h : (machine Q ρ E capacity a).Run ls w)
    (hsender : ∀ u, (machine Q ρ E capacity a).Reaches ls u → u.hasSender = true) :
    ∃ w', (machine Q ρ E capacity a).Run (ls.filter fun l => !l.abandons) w' ∧ Shadows w w' :=
  h.erases (R := Shadows) (C := fun u => u.hasSender = true) _ (.refl _)
    (fun _ _ _ _ hs hs' hR hstep hp => shadows_step hR hs hs' hstep (by simpa using hp))
    (fun _ _ _ _ _ hs' hR hstep hp => shadows_abandon hR hs' hstep (by simpa using hp)) hsender

/-- A `call` is dropped while it awaits its response; its task is run all the same. -/
def droppedCall : List (Label ℕ ℕ) :=
  [.begin (Addr.call fun n => .completed (n + 1) (some n)), .advance 0, .advance 0, .poll, .poll,
    .abandon 0, .receive, .poll]

/-- An actor with an unbounded mailbox, which starts from `n`. -/
def counting (n : ℕ) : Machine (World ChannelState ℕ ℕ) (Label ℕ ℕ) :=
  machine ChannelState ℕ (.fromChannel (.provided 0)) none n

theorem abandonment_unnoticed_call :
    (∃ w', (counting 7).Run (droppedCall.filter fun l => !l.abandons) w'
        ∧ Shadows ((counting 7).after droppedCall rfl) w')
      ∧ ((counting 7).after droppedCall rfl).completed = [(0, some 7)] :=
  ⟨abandonment_unnoticed (.fromChannel (.provided 0)) none 7
    ((counting 7).run_after droppedCall rfl) fun _ hu =>
      hu.invariant_of_steps (I := fun u => u.hasSender = true) rfl (fun _ _ _ _ _ hC => hC)
        (Machine.AllSteps.of_check
          (C := fun _ _ (u : World ChannelState ℕ ℕ) => u.hasSender) rfl), rfl⟩

end World

end Hannibal
