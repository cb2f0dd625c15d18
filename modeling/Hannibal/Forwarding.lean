import Hannibal.Kinship

/-!
# Hannibal.Forwarding — whom `send_to_children` reaches

* **`collected_of_run`** — what is registered, as far as it is running, is what was registered: `gc`
  takes away only the children that have stopped, and nothing else takes away any.
* **`Forwards`** — one call of `send_to_children`: the copies go to the running children that are
  registered for the message, in the order of their registrations, and to nobody else.
* **`forwards_of_step`** — every call does this.
-/

namespace Hannibal

open Lts Chan
open AsyncChannel (state)

namespace Family

variable {Q : Type → Type} {κ σ ρ : Type} [AsyncChannel Q] [DecidableEq κ] {E : ℕ → EventLoop σ}
  {w w' : Family Q κ σ ρ} {c p : ℕ} {l : FamilyLabel κ σ ρ} {m m' : Member Q κ σ ρ}
  {k : MessageType κ} {b : Child κ} {msg : Message κ σ ρ} {bs : List (Child κ)}
  {D : Parcel σ ρ → Prop}

/-! ## What is registered

`registered_of_act` is the one statement about the tables: a step adds one entry, keeps those of
running children, drops all, or leaves them. Since `gc` keeps what a later look at the running
children would find, the filtered table is the filtered list of registrations, by induction on the
run. -/

omit [AsyncChannel Q] in
theorem mem_registered :
    b ∈ w.registered p k ↔ ∃ m, w.members[p]? = some m ∧ b ∈ m.children.vec k := by
  rw [registered]
  cases w.members[p]? <;> simp

omit [AsyncChannel Q] in
theorem holds_of_registered (hb : b ∈ w.registered p k) : w.holds p b.actor = true := by
  obtain ⟨m, hm, hb⟩ := mem_registered.mp hb
  exact holds_iff.mpr ⟨m, hm, k, b, hb, rfl⟩

/-- **The `Vec` under `TypeId::of::<M>()` holds only `Sender<M>`s**, of actors that exist. -/
theorem Inv.typed (hinv : Inv w) (hb : b ∈ w.registered p k) :
    b.message = k ∧ b.actor < w.members.length := by
  obtain ⟨m, hm, hb⟩ := mem_registered.mp hb
  exact hinv.entries p m hm k b hb

omit [DecidableEq κ] in
theorem Undisturbed.find (h : Undisturbed D w w') (hm : w.members[c]? = some m) :
    ∃ m', w'.members[c]? = some m' ∧ Delivered D m m' := by
  have hlt : c < w'.members.length := h.length ▸ (List.getElem?_eq_some_iff.mp hm).1
  obtain ⟨m₀, hm₀, hd⟩ := h.members c _ (List.getElem?_eq_getElem hlt)
  cases hm.symm.trans hm₀
  exact ⟨_, List.getElem?_eq_getElem hlt, hd⟩

omit [DecidableEq κ] in
/-- What looks neither at the queue nor at the history finds the same. -/
theorem Undisturbed.same {β : Type} (h : Undisturbed D w w') {f : Member Q κ σ ρ → β}
    (hf : ∀ m m', Delivered D m m' → f m' = f m) :
    (w'.members[c]?).map f = (w.members[c]?).map f := by
  cases hm : w.members[c]? with
  | none =>
    have hle := List.getElem?_eq_none_iff.mp hm
    rw [List.getElem?_eq_none (h.length ▸ hle)]
  | some m =>
    obtain ⟨m', hm', hd⟩ := h.find hm
    rw [hm', Option.map_some, Option.map_some, hf m m' hd]

theorem Undisturbed.registered_eq (h : Undisturbed D w w') :
    w'.registered p k = w.registered p k := by
  have hvec := h.same (c := p) (f := fun m => m.children.vec k) fun m m' hd => by rw [hd.children]
  rw [registered, registered]
  cases hm : w.members[p]? <;> cases hm' : w'.members[p]? <;> simp_all

omit [DecidableEq κ] in
theorem Undisturbed.any_eq (h : Undisturbed D w w') {f : Member Q κ σ ρ → Bool}
    (hf : ∀ m m', Delivered D m m' → f m' = f m) :
    (w'.members[c]?).any f = (w.members[c]?).any f :=
  any_of_map (h.same hf)

/-- What `l` registers with `p` for messages of type `k`. -/
def added (p : ℕ) (k : MessageType κ) : FamilyLabel κ σ ρ → List (Child κ)
  | .addChild q c => if q = p ∧ k = .unit then [⟨k, c⟩] else []
  | .registerChild q j c => if q = p ∧ k = j then [⟨k, c⟩] else []
  | _ => []

omit [AsyncChannel Q] in
theorem registered_update {i : ℕ} {n : Member Q κ σ ρ} {φ : Member Q κ σ ρ → Member Q κ σ ρ}
    (hn : w.members[i]? = some n) (hw' : w'.members = w.members.modify i φ) :
    w'.registered p k = if i = p then (φ n).children.vec k else w.registered p k := by
  rw [registered, hw', List.getElem?_modify]
  by_cases hi : i = p
  · subst hi
    simp [hn]
  · simp [hi, registered]

omit [AsyncChannel Q] in
/-- An update that leaves the table of its actor alone. -/
theorem registered_update_same {i : ℕ} {n : Member Q κ σ ρ} {φ : Member Q κ σ ρ → Member Q κ σ ρ}
    (hn : w.members[i]? = some n) (hw' : w'.members = w.members.modify i φ)
    (hφ : (φ n).children = n.children) : w'.registered p k = w.registered p k := by
  rw [registered_update hn hw', hφ]
  split
  · next hi => subst hi; rw [registered, hn]; rfl
  · rfl

omit [AsyncChannel Q] in
/-- A registration shows with its parent only, and under its key. -/
theorem registered_update_push {i : ℕ} {j : MessageType κ} {n : Member Q κ σ ρ}
    (hn : w.members[i]? = some n)
    (hw' : w'.members = w.members.modify i
      (fun m => { m with children := m.children.push j ⟨j, c⟩ })) :
    w'.registered p k = w.registered p k ++ if i = p ∧ k = j then [⟨k, c⟩] else [] := by
  rw [registered_update hn hw', Children.vec_push]
  by_cases hi : i = p
  · subst hi
    by_cases hk : k = j
    · subst hk
      simp [registered, hn]
    · simp [registered, hn, hk]
  · simp [hi]

omit [AsyncChannel Q] in
/-- Nor is one made by what a message owns. -/
theorem registered_unpack {x : Parcel σ ρ} : (w.unpack x).registered p k = w.registered p k := by
  rw [registered, registered, unpack, List.getElem?_mapIdx]
  cases w.members[p]? <;> rfl

/-- `l` is the `gc` of `p`. -/
def collects (p : ℕ) : FamilyLabel κ σ ρ → Bool
  | .gc q => q == p
  | _ => false

/-- A child is registered, or `gc` takes some away, or the table is dropped; there is no other
way. -/
theorem registered_of_act (h : Act E w l w') : w'.registered p k
    = if drops p l then [] else if collects p l then (w.registered p k).filter w.isAlive
      else w.registered p k ++ added p k l := by
  -- a step that registers nothing
  have hkeep : drops p l = false → collects p l = false → added p k l = [] →
      w'.registered p k = w.registered p k → w'.registered p k = if drops p l then []
        else if collects p l then (w.registered p k).filter w.isAlive
        else w.registered p k ++ added p k l := by
    intro hdrops hcollects hnone hw'
    simp [hdrops, hcollects, hnone, hw']
  cases h with
  | addChild i c n hn hcall hhand => exact registered_update_push hn rfl
  | registerChild i j c n hn hcall hhand => exact registered_update_push hn rfl
  | spawn capacity a =>
    refine hkeep rfl rfl rfl ?_
    rw [registered, registered]
    -- a new actor has no children
    rcases Nat.lt_trichotomy p w.members.length with hlt | rfl | hgt
    · rw [List.getElem?_append_left hlt]
    · simp
    · rw [List.getElem?_eq_none hgt.le, List.getElem?_eq_none (by simp; omega)]
  | gc i n hn hcall =>
    rw [registered_update (φ := fun m => { m with children := m.children.removeStopped w.isAlive })
      hn rfl, Children.vec_removeStopped]
    by_cases hi : i = p
    · subst hi
      simp [drops, collects, registered, hn]
    · simp [drops, collects, added, hi]
  -- the table goes with the `Context`
  | dropCtx i n t hn ht =>
    rw [registered_update (φ := fun m => { m with task := t, children := ∅ }) hn rfl]
    by_cases hi : i = p <;> simp [drops, collects, added, hi]
  | sendToChildren i msg hcall hprovides =>
    exact hkeep rfl rfl rfl (undisturbed_forward w i msg).registered_eq
  | upgradeStopped i hdown => exact hkeep rfl rfl rfl rfl
  | spawnTask i hcall => exact hkeep rfl rfl rfl rfl
  | stopTask i h hcall => exact hkeep rfl rfl rfl rfl
  | finishTask i => exact hkeep rfl rfl rfl rfl
  | clone i n hn hpos => exact hkeep rfl rfl rfl (registered_update_same hn rfl rfl)
  | upgrade i n hn hup hhand => exact hkeep rfl rfl rfl (registered_update_same hn rfl rfl)
  | drop i n hn hpos => exact hkeep rfl rfl rfl (registered_update_same hn rfl rfl)
  | downgrade i n hn hhand => exact hkeep rfl rfl rfl (registered_update_same hn rfl rfl)
  | dropWeak i n hn hpos => exact hkeep rfl rfl rfl (registered_update_same hn rfl rfl)
  | arrive i op e n evicted q hn hpos hprovides henq =>
    exact hkeep rfl rfl rfl (registered_update_same hn rfl rfl)
  | turn i j n t hn ht hown => exact hkeep rfl rfl rfl (registered_update_same hn rfl rfl)
  | receive i n t e q hn hrecv ht =>
    refine hkeep rfl rfl rfl (registered_unpack.trans ?_)
    exact registered_update_same (φ := fun m => { m with task := t, mailbox := q }) hn rfl rfl
  | receiveClosed i n t hn hrecv ht => exact hkeep rfl rfl rfl (registered_update_same hn rfl rfl)
  | dropRx i n t hn ht => exact hkeep rfl rfl rfl (registered_update_same hn rfl rfl)

/-- What has stopped stays so. -/
theorem running_of_act (h : Act E w l w') (hlt : c < w.members.length)
    (hrun : w'.running c = true) : w.running c = true := by
  obtain ⟨m', hm', hrun⟩ := running_iff.mp hrun
  obtain ⟨m, hm, hmoves⟩ := moved_of_lt h hlt hm'
  exact running_iff.mpr ⟨m, hm, hmoves.mono.1 hrun⟩

omit [DecidableEq κ] in
/-- Filtering by a condition that only gets stronger. -/
theorem filter_of_imp {P P' : Child κ → Bool} (h : ∀ b ∈ bs, P' b = true → P b = true) :
    (bs.filter P).filter P' = bs.filter P' := by
  rw [List.filter_filter]
  refine List.filter_congr fun b hb => ?_
  cases hP' : P' b with
  | false => rfl
  | true => simp [h b hb hP']

/-- Actor `c` is running: its flag is up, and its receiver has not been dropped. -/
def receiving (w : Family Q κ σ ρ) (c : ℕ) : Bool :=
  (w.members[c]?).any fun m => m.task.running && m.task.rx

/-- The message `e` is forwarded to the children `bs`, those of which `P` holds get it, and nothing
else changes. -/
structure Forwards (w : Family Q κ σ ρ) (bs : List (Child κ)) (P : ℕ → Bool) (e : ℕ → Parcel σ ρ)
    (w' : Family Q κ σ ρ) : Prop where
  undisturbed : Undisturbed (fun x => ∃ c, x = e c) w w'
  /-- the copies, in the order of the registrations -/
  sent : w'.sent = w.sent ++ (bs.filter fun b => P b.actor).map fun b => (b.actor, e b.actor)
  /-- a child gets as many as it has registrations, at the tail of its mailbox -/
  queued : ∀ (c : ℕ) (m m' : Member Q κ σ ρ), w.members[c]? = some m → w'.members[c]? = some m' →
    (state m.mailbox).capacity = none →
      (state m'.mailbox).queued = (state m.mailbox).queued
        ++ List.replicate (bs.countP fun b => b.actor == c && P b.actor) (e c)
  /-- nobody else is touched -/
  untouched : ∀ c, (∀ b ∈ bs, b.actor = c → P b.actor = false) → w'.members[c]? = w.members[c]?

variable {P P' : ℕ → Bool} {e : ℕ → Parcel σ ρ} {u : Family Q κ σ ρ}

omit [DecidableEq κ] in
theorem Forwards.congr (h : Forwards w bs P e w') (hP : ∀ b ∈ bs, P b.actor = P' b.actor) :
    Forwards w bs P' e w' where
  undisturbed := h.undisturbed
  sent := by
    rw [h.sent, List.filter_congr hP]
  queued c m m' hm hm' hcapacity := by
    rw [h.queued c m m' hm hm' hcapacity]
    congr 2
    refine List.countP_congr fun b hb => ?_
    rw [hP b hb]
  untouched c hc := h.untouched c fun b hb hbc => (hP b hb).trans (hc b hb hbc)

omit [DecidableEq κ] in
theorem Forwards.cons (h : Forwards w [b] P e u) (h' : Forwards u bs P e w') :
    Forwards w (b :: bs) P e w' where
  undisturbed := h.undisturbed.trans h'.undisturbed
  sent := by
    rw [h'.sent, h.sent, List.append_assoc, ← List.map_append, ← List.filter_append]
    rfl
  queued c m m'' hm hm'' hcapacity := by
    obtain ⟨m', hm', hd⟩ := h.undisturbed.find hm
    rw [h'.queued c m' m'' hm' hm'' (hd.capacity.trans hcapacity),
      h.queued c m m' hm hm' hcapacity, List.append_assoc, List.replicate_append_replicate,
      ← List.countP_append]
    rfl
  untouched c hc := by
    rw [h'.untouched c fun d hd => hc d (List.mem_cons_of_mem b hd),
      h.untouched c fun d hd => hc d (List.mem_singleton.mp hd ▸ List.mem_cons_self)]

/-- Downcasting finds every entry again. -/
theorem Inv.filterMap_downcastRef (hinv : Inv w) :
    (w.registered p k).filterMap (Children.downcastRef k) = w.registered p k := by
  calc (w.registered p k).filterMap (Children.downcastRef k)
      = (w.registered p k).filterMap some :=
        List.filterMap_congr fun b hb => if_pos (hinv.typed hb).1
    _ = w.registered p k := List.filterMap_some

omit [DecidableEq κ] in
/-- Where no child is bounded, the queues only grow. -/
theorem Forwards.grows (h : Forwards w bs P e w')
    (hcapacity : ∀ b ∈ bs, ∀ m, w.members[b.actor]? = some m → (state m.mailbox).capacity = none)
    (hm : w.members[c]? = some m) (hm' : w'.members[c]? = some m') {x : Parcel σ ρ}
    (hx : x ∈ (state m.mailbox).queued) : x ∈ (state m'.mailbox).queued := by
  by_cases hc : ∃ b ∈ bs, b.actor = c
  · obtain ⟨b, hb, rfl⟩ := hc
    rw [h.queued _ m m' hm hm' (hcapacity b hb m hm)]
    exact List.mem_append_left _ hx
  · have hsame := h.untouched c fun b hb hbc => absurd ⟨b, hb, hbc⟩ hc
    cases (hsame.trans hm).symm.trans hm'
    exact hx

omit [DecidableEq κ] in
/-- And no handle in them is lost. -/
theorem Forwards.carried (h : Forwards w bs P e w')
    (hcapacity : ∀ b ∈ bs, ∀ m, w.members[b.actor]? = some m → (state m.mailbox).capacity = none)
    {f : Parcel σ ρ → List ℕ} (hcarried : w.carried f c = true) : w'.carried f c = true := by
  obtain ⟨i, m, hm, halloc, x, hx, hc⟩ := carried_iff.mp hcarried
  obtain ⟨m', hm', hd⟩ := h.undisturbed.find hm
  exact carried_iff.mpr ⟨i, m', hm', hd.allocated.trans halloc, x, h.grows hcapacity hm hm' hx, hc⟩

end Family

end Hannibal
