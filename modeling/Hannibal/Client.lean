import Hannibal.Lib.Table
import Hannibal.World

/-!
# Hannibal.Client — one operation among all the others

What a step of the world does to one operation, whoever takes the step.

* **`Moves`** — the protocol of a single operation: every change of its stage, with what it has seen
  of the actor and the mailbox at that moment.
* **`flight_of_act`** — whatever happens, each operation stays as it is, moves, or has just begun.
* **`own_step`** — nobody else moves it, unless it awaits its response.
-/

namespace Hannibal

open Lts Chan
open AsyncChannel (state)

variable {Q : Type → Type} [AsyncChannel Q] {σ ρ : Type}

namespace World

/-- Every change of the stage of an operation. -/
inductive Moves (w : World Q σ ρ) : Flight σ ρ → Flight σ ρ → Prop where
  | upgraded (op : Operation σ ρ) (hup : w.upgradable = true) :
      Moves w ⟨op, .upgrading⟩ ⟨op, op.entry⟩
  | dropped (op : Operation σ ρ) (hup : w.upgradable = false) :
      Moves w ⟨op, .upgrading⟩ ⟨op, .returned (.error .actorDropped)⟩
  | passed (op : Operation σ ρ) (hrun : w.task.running = true) :
      Moves w ⟨op, .checking⟩ ⟨op, .enqueuing⟩
  | stopped (op : Operation σ ρ) (hrun : w.task.running = false) :
      Moves w ⟨op, .checking⟩ ⟨op, .returned (.error op.rejected)⟩
  | accepted (op : Operation σ ρ) (hopen : w.closed = false) :
      Moves w ⟨op, .enqueuing⟩ ⟨op, op.afterAccept⟩
  | refused (op : Operation σ ρ)
      (hno : w.closed = true ∨ (op.primitive = .trySend ∧ w.full = true)) :
      Moves w ⟨op, .enqueuing⟩ ⟨op, .returned (.error op.rejected)⟩
  | resolved (op : Operation σ ρ) (reply : Reply ρ) (hreply : reply ≠ .pending) :
      Moves w ⟨op, .waiting .pending⟩ ⟨op, .waiting reply⟩
  | answered (op : Operation σ ρ) (r : Option ρ) :
      Moves w ⟨op, .waiting (.ok r)⟩ ⟨op, .returned (.ok r)⟩
  | canceled (op : Operation σ ρ) :
      Moves w ⟨op, .waiting .canceled⟩ ⟨op, .returned (.error .canceled)⟩
  | abandon (f : Flight σ ρ) (habandon : f.abandonable = true) :
      Moves w f { f with stage := .abandoned }

omit [AsyncChannel Q]

variable {w : World Q σ ρ} {k : ℕ} {g : Flight σ ρ}

/-- Setting a stage moves one operation. -/
theorem flight_of_setStage {i : ℕ} {st : Stage ρ} (h : (w.setStage i st).flights[k]? = some g) :
    w.flights[k]? = some g ∨ (i = k ∧ ∃ f, w.flights[k]? = some f ∧ g = { f with stage := st }) :=
  (Table.of_getElem?_modify h).imp_left And.right

/-- Resolving a oneshot moves at most the operation that awaits it. -/
theorem flight_of_resolve {i : ℕ} {reply : Reply ρ}
    (h : (w.resolve i reply).flights[k]? = some g) :
    w.flights[k]? = some g
      ∨ ∃ op, w.flights[k]? = some ⟨op, .waiting .pending⟩ ∧ g = ⟨op, .waiting reply⟩ := by
  rcases Table.of_getElem?_modify h with ⟨-, hsame⟩ | ⟨rfl, f, hf, rfl⟩
  · exact .inl hsame
  · rcases f with ⟨op, st⟩
    unfold Flight.resolve
    split
    · next hst =>
      have hst : st = .waiting .pending := hst
      subst hst
      exact .inr ⟨op, hf, rfl⟩
    · exact .inl hf

theorem flight_of_evict {ev : Option (Envelope σ ρ)} (h : (w.evict ev).flights[k]? = some g) :
    w.flights[k]? = some g
      ∨ ∃ op, w.flights[k]? = some ⟨op, .waiting .pending⟩ ∧ g = ⟨op, .waiting .canceled⟩ := by
  cases ev with
  | none => exact .inl h
  | some e => exact flight_of_resolve h

theorem flight_of_answer {o : Option (ℕ × Reply ρ)} (ho : ∀ j, o ≠ some (j, .pending))
    (h : (w.answer o).flights[k]? = some g) :
    w.flights[k]? = some g ∨ ∃ op reply, reply ≠ .pending
      ∧ w.flights[k]? = some ⟨op, .waiting .pending⟩ ∧ g = ⟨op, .waiting reply⟩ := by
  rcases o with _ | ⟨j, _ | r | _⟩
  · exact .inl h
  · exact absurd rfl (ho j)
  · exact (flight_of_resolve h).imp_right fun ⟨op, hop⟩ => ⟨op, _, by simp, hop⟩
  · exact (flight_of_resolve h).imp_right fun ⟨op, hop⟩ => ⟨op, _, by simp, hop⟩

/-- A task that is left is answered or canceled. -/
theorem reply_ne_pending (s : LoopState σ ρ) (j : ℕ) : s.reply ≠ some (j, .pending) := by
  unfold LoopState.reply
  split
  · split <;> simp
  · simp

variable [AsyncChannel Q] {E : EventLoop σ} {v : World Q σ ρ} {l : Label σ ρ}

/-- **Each operation stays as it is, moves, or has just begun.** -/
theorem flight_of_act (h : Act E w l v) (hg : v.flights[k]? = some g) :
    w.flights[k]? = some g ∨ (∃ f, w.flights[k]? = some f ∧ Moves w f g)
      ∨ ∃ op, l = .begin op ∧ g = ⟨op, op.first⟩ := by
  -- the operation the step is about moves; the others stay
  have hset : ∀ {i : ℕ} {f : Flight σ ρ} {st : Stage ρ}, w.flights[i]? = some f →
      Moves w f { f with stage := st } → (w.setStage i st).flights[k]? = some g →
      w.flights[k]? = some g ∨ (∃ f, w.flights[k]? = some f ∧ Moves w f g)
        ∨ ∃ op, l = .begin op ∧ g = ⟨op, op.first⟩ := by
    intro i f st hf hmove hg
    rcases flight_of_setStage hg with hsame | ⟨rfl, f', hf', rfl⟩
    · exact .inl hsame
    · rw [hf] at hf'
      cases hf'
      exact .inr (.inl ⟨f, hf, hmove⟩)
  cases h with
  | begin op hvia =>
    have hg : (w.flights ++ [⟨op, op.first⟩])[k]? = some g := hg
    rcases Table.getElem?_snoc.mp hg with hold | ⟨-, rfl⟩
    · exact .inl hold
    · exact .inr (.inr ⟨op, rfl, rfl⟩)
  | upgraded i op hf hup => exact hset hf (.upgraded op hup) hg
  | dropped i op hf hup => exact hset hf (.dropped op hup) hg
  | passed i op hf hrun => exact hset hf (.passed op hrun) hg
  | stopped i op hf hrun => exact hset hf (.stopped op hrun) hg
  | refused i op hf henq => exact hset hf (.refused op (enqueue_error henq)) hg
  | answered i op r hf => exact hset hf (.answered op r) hg
  | canceled i op hf => exact hset hf (.canceled op) hg
  | abandon i f hf habandon => exact hset hf (.abandon f habandon) hg
  | accepted i op hf evicted q henq =>
    have hopen : w.closed = false := (enqueue_ok henq).1
    rcases flight_of_setStage (w := w.evict evicted) hg with hold | ⟨rfl, f, hf', rfl⟩
    · rcases flight_of_evict hold with hsame | ⟨op', hop', rfl⟩
      · exact .inl hsame
      · exact .inr (.inl ⟨_, hop', .resolved op' _ (by simp)⟩)
    · -- an operation that is still enqueuing awaits nothing, so it is not the evicted one
      rcases flight_of_evict hf' with hsame | ⟨op', hop', rfl⟩
      · rw [hf] at hsame
        cases hsame
        exact .inr (.inl ⟨_, hf, .accepted op hopen⟩)
      · rw [hf] at hop'
        cases hop'
  -- leaving a task answers its request
  | poll t ht =>
    rcases flight_of_answer (w := w.withTask t) (reply_ne_pending _) hg with
      hsame | ⟨op, reply, hreply, hop, rfl⟩
    · exact .inl hsame
    · exact .inr (.inl ⟨_, hop, .resolved op reply hreply⟩)
  | dropFuture t ht =>
    rcases flight_of_answer (w := w.withTask t) (by simp) hg with
      hsame | ⟨op, reply, hreply, hop, rfl⟩
    · exact .inl hsame
    · exact .inr (.inl ⟨_, hop, .resolved op reply hreply⟩)
  | _ => exact .inl hg

/-- **An operation that awaits no response moves by its own steps only.** -/
theorem own_step (h : Act E w l v) {f : Flight σ ρ} (hf : w.flights[k]? = some f)
    (hpending : f.pending = false) (hmoved : v.flights[k]? ≠ some f) :
    l = .advance k ∨ l = .abandon k := by
  -- a change of another operation's stage does not move this one
  have hset : ∀ {i : ℕ} {st : Stage ρ}, v = w.setStage i st → k = i := by
    rintro i st rfl
    by_contra hne
    exact hmoved ((Table.getElem?_modify_of_ne (Ne.symm hne)).trans hf)
  have hresolve : ∀ {u : World Q σ ρ} {j : ℕ} {reply : Reply ρ}, u.flights[k]? = some f →
      (u.resolve j reply).flights[k]? = some f := by
    intro u j reply hu
    show (u.flights.modify j _)[k]? = _
    rw [List.getElem?_modify, hu]
    by_cases hj : j = k
    · have hsame : f.resolve reply = f := by
        rcases f with ⟨op, st⟩
        unfold Flight.resolve
        split
        · next hst =>
          have hst : st = .waiting .pending := hst
          subst hst
          cases hpending
        · rfl
      simp [hj, hsame]
    · simp [hj]
  -- an answer only moves an operation that awaits it
  have hanswer : ∀ {t : LoopTask σ ρ} {o : Option (ℕ × Reply ρ)},
      ((w.withTask t).answer o).flights[k]? = some f := by
    intro t o
    rcases o with _ | ⟨j, _ | r | _⟩
    · exact hf
    all_goals exact hresolve (u := w.withTask t) hf
  cases h with
  | upgraded i | dropped i | passed i | stopped i | refused i | answered i | canceled i =>
    rw [hset rfl]
    exact .inl rfl
  | abandon i =>
    rw [hset rfl]
    exact .inr rfl
  | accepted i op hf' evicted q henq =>
    -- the one that is accepted may evict another, but only one that awaits its response is told
    by_cases hki : k = i
    · exact .inl (hki ▸ rfl)
    · refine absurd ?_ hmoved
      show ((w.evict evicted).setStage i _).flights[k]? = _
      refine (Table.getElem?_modify_of_ne (Ne.symm hki)).trans ?_
      cases evicted with
      | none => exact hf
      | some e => exact hresolve hf
  | begin op hvia => exact absurd (Table.getElem?_snoc_of_some hf) hmoved
  | poll t ht => exact absurd hanswer hmoved
  | dropFuture t ht => exact absurd hanswer hmoved
  | _ => exact absurd hf hmoved

theorem kept_of_step (h : step E w l = some v) {f : Flight σ ρ} (hf : w.flights[k]? = some f)
    (hpending : f.pending = false) (hadvance : l ≠ .advance k) (habandon : l ≠ .abandon k) :
    v.flights[k]? = some f := by
  obtain ⟨u, hact, rfl⟩ := step_cases h
  rw [settle_flights]
  by_contra hmoved
  exact (own_step hact hf hpending hmoved).elim hadvance habandon

/-! ## The steps of one operation

The same facts from the client's side: what its own next step can come to at each stage, and what it
leaves as it was. The proofs in which a client takes step after step use these. -/

theorem begin_of_step {op : Operation σ ρ} (h : step E w (.begin op) = some v) :
    v.flights = w.flights ++ [⟨op, op.first⟩] ∧ v.accepted = w.accepted ∧ v.task = w.task := by
  obtain ⟨u, hact, rfl⟩ := step_cases h
  cases hact with
  | begin op hvia => simp
  | silent tl t hl ht => cases hl

theorem abandon_of_step {i : ℕ} (h : step E w (.abandon i) = some v) :
    v.accepted = w.accepted ∧ v.task = w.task
      ∧ ∃ f, w.flights[i]? = some f ∧ v.flights[i]? = some { f with stage := .abandoned } := by
  obtain ⟨u, hact, rfl⟩ := step_cases h
  cases hact with
  | abandon i f hf habandon =>
    refine ⟨by simp, by simp, f, hf, ?_⟩
    rw [settle_flights]
    exact Table.getElem?_modify_self hf
  | silent tl t hl ht => cases hl

/-- An operation of a weak handle has upgraded it, or has failed. -/
theorem upgrade_of_step {i : ℕ} {op : Operation σ ρ} (h : step E w (.advance i) = some v)
    (hf : w.flights[i]? = some ⟨op, .upgrading⟩) :
    v.accepted = w.accepted ∧ v.task = w.task
      ∧ ((w.upgradable = true ∧ v.flights[i]? = some ⟨op, op.entry⟩)
        ∨ (w.upgradable = false
          ∧ v.flights[i]? = some ⟨op, .returned (.error .actorDropped)⟩)) := by
  obtain ⟨u, hact, rfl⟩ := step_cases h
  have hset : ∀ st, (w.setStage i st).settle.flights[i]? = some ⟨op, st⟩ := fun st => by
    rw [settle_flights]
    exact Table.getElem?_modify_self hf
  -- by its stage, of all the steps of an operation only the two results of an upgrade are left
  cases hact with
  | upgraded i op' hf' hup =>
    cases hf.symm.trans hf'
    exact ⟨by simp, by simp, .inl ⟨hup, hset _⟩⟩
  | dropped i op' hf' hup =>
    cases hf.symm.trans hf'
    exact ⟨by simp, by simp, .inr ⟨hup, hset _⟩⟩
  | silent tl t hl ht => cases hl
  | _ => simp_all

/-- An operation that has returned makes no step. -/
theorem advance_returned {i : ℕ} {op : Operation σ ρ} {res : Except ActorError (Option ρ)}
    (hf : w.flights[i]? = some ⟨op, .returned res⟩) : step E w (.advance i) = none := by
  simp [step, act, advance, hf]

/-- The check of the flag never waits. -/
theorem advance_checking {i : ℕ} {op : Operation σ ρ} (hf : w.flights[i]? = some ⟨op, .checking⟩) :
    ∃ v, step E w (.advance i) = some v := by
  cases hrun : w.task.running <;> simp [step, act, advance, hf, hrun]

/-- Handing over a payload only waits where the mailbox is full. -/
theorem full_of_blocked {i : ℕ} {op : Operation σ ρ} (hf : w.flights[i]? = some ⟨op, .enqueuing⟩)
    (h : step E w (.advance i) = none) : w.full = true := by
  have henq : op.primitive.enqueue w.mailbox ⟨i, op.payload⟩ = none := by
    cases hq : op.primitive.enqueue w.mailbox ⟨i, op.payload⟩ with
    | none => rfl
    | some r => rcases r with e | r <;> simp [step, act, advance, hf, hq] at h
  unfold Primitive.enqueue at henq
  split at henq
  · split at henq
    · cases henq
    · next hsend => exact (AsyncChannel.trySend_full hsend).2
    · cases henq
  · split at henq <;> cases henq
  · split at henq <;> cases henq

/-- What one step of a `send` that awaits no response comes to, once it has its sender: it has
passed the check, was rejected, or its payload is in the mailbox. -/
inductive Sends (w v : World Q σ ρ) (i : ℕ) (op : Operation σ ρ) : Prop where
  | passed (hold : w.flights[i]? = some ⟨op, .checking⟩)
      (hnew : v.flights[i]? = some ⟨op, .enqueuing⟩) (haccepted : v.accepted = w.accepted)
  | rejected (hwhy : w.task.running = false ∨ w.closed = true)
      (hnew : v.flights[i]? = some ⟨op, .returned (.error op.rejected)⟩)
      (haccepted : v.accepted = w.accepted)
  | accepted (hold : w.flights[i]? = some ⟨op, .enqueuing⟩)
      (hnew : v.flights[i]? = some ⟨op, .returned (.ok none)⟩)
      (haccepted : v.accepted = w.accepted ++ [⟨i, op.payload⟩])

theorem sends_of_step {i : ℕ} {op : Operation σ ρ} {st : Stage ρ}
    (h : step E w (.advance i) = some v) (hf : w.flights[i]? = some ⟨op, st⟩)
    (hst : st = .checking ∨ st = .enqueuing) (hsend : op.primitive = .send)
    (hawaits : op.awaits = false) : v.task = w.task ∧ Sends w v i op := by
  obtain ⟨u, hact, rfl⟩ := step_cases h
  have hset : ∀ st', (w.setStage i st').settle.flights[i]? = some ⟨op, st'⟩ := fun st' => by
    rw [settle_flights]
    exact Table.getElem?_modify_self hf
  cases hact with
  | passed i op' hf' hrun =>
    cases hf.symm.trans hf'
    exact ⟨by simp, .passed hf' (hset _) (by simp)⟩
  | stopped i op' hf' hrun =>
    cases hf.symm.trans hf'
    exact ⟨by simp, .rejected (.inl hrun) (hset _) (by simp)⟩
  | refused i op' hf' henq =>
    cases hf.symm.trans hf'
    refine ⟨by simp, .rejected (.inr ?_) (hset _) (by simp)⟩
    -- `send` is not refused because a mailbox is full: it waits
    rcases enqueue_error henq with hclosed | ⟨htry, -⟩
    · exact hclosed
    · simp [hsend] at htry
  | accepted i op' hf' evicted q henq =>
    cases hf.symm.trans hf'
    refine ⟨by simp, .accepted hf' ?_ (by simp)⟩
    rw [settle_flights]
    have hafter : op.afterAccept = .returned (.ok none) := by simp [Operation.afterAccept, hawaits]
    rw [← hafter]
    exact Table.getElem?_modify_self (flight_evict hf' evicted)
  | upgraded i op' hf' hup => cases hf.symm.trans hf'; simp at hst
  | dropped i op' hf' hup => cases hf.symm.trans hf'; simp at hst
  | answered i op' r hf' => cases hf.symm.trans hf'; simp at hst
  | canceled i op' hf' => cases hf.symm.trans hf'; simp at hst
  | silent tl t hl ht => cases hl

end World

end Hannibal
