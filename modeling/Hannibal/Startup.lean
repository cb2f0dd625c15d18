import Hannibal.LockSection

/-!
# Hannibal.Startup — services that start each other

`started` of a service may ask for other services, as `ctx.subscribe` does for a broker, and may so
spawn them. In a debug build the call that has spawned an instance pings it (`actor/service.rs`). A
ping is refused where the flag of the instance is down, or its receiver is gone. Otherwise it is
queued, and the loop answers it behind its own `started`; but behind a `Stop`, or where the loop has
ended, nobody answers it, and the call that awaits it keeps the queue with its own address.

What a hook does besides, and what the handlers do, comes to an end. Restarts are left out.

* **`StartWorld`** — the registry with its calls and instances, where the `started` of each instance
  stands, and the pings that are queued, or lost.
* **`Act`** — what one step can do.
* **`StartInv`** — whoever waits for an instance has spawned it, so it is older than that instance.
* **`PingInv`** — a queued ping is in the mailbox of a loop that is on.
-/

namespace Hannibal

open Lts

/-- The `started` of an instance, as far as it is about services: what it still asks for, and the
call it is in. Then its loop: a `Stop` has been accepted, and it has ended. -/
structure StartHook where
  remaining : List TypeKey
  current : Option ℕ
  told : Bool
  ended : Bool
  deriving DecidableEq, Repr

namespace StartHook

def begin (needs : List TypeKey) : StartHook := ⟨needs, none, false, false⟩

/-- The loop ends: it takes the `Stop`, its future is dropped, or it panics. -/
def stop (h : StartHook) : StartHook := ⟨[], none, h.told, true⟩

/-- `started` still has something to do. -/
def busy (h : StartHook) : Bool := decide (h.remaining ≠ [] ∨ h.current ≠ none)

/-- `started` has returned, and the loop is on. -/
def serving (h : StartHook) : Bool := !h.busy && !h.ended

end StartHook

/-- The registry, a hook for each instance, and the calls whose pings have been accepted: those that
may be answered, and those that will not be. -/
structure StartWorld where
  registry : RegistryWorld
  hooks : List StartHook
  queued : List ℕ
  lost : List ℕ

/-- Everything that can happen next. -/
inductive StartLabel where
  /-- a client's call, or one of a hook, begins, goes on, or is dropped -/
  | registry (l : RegistryLabel)
  /-- the hook of instance `i` goes on -/
  | hook (i : ℕ)
  /-- the ping of call `k` is accepted, or is refused -/
  | ping (k : ℕ)
  | fail (k : ℕ)
  /-- instance `i` is told to stop; its loop ends; its flag goes down -/
  | tell (i : ℕ)
  | stop (i : ℕ)
  | lower (i : ℕ)
  deriving DecidableEq, Repr

namespace StartLabel

/-- The steps with which calls and hooks go on, and with which an instance comes to its end. -/
def progress : StartLabel → Bool
  | .registry (.advance _) | .hook _ | .ping _ | .fail _ | .lower _ => true
  | _ => false

end StartLabel

namespace RegistryCall

/-- The call has returned, or was dropped. -/
def ended (c : RegistryCall) : Bool :=
  match c.stage with
  | .done _ | .dropped => true
  | _ => false

end RegistryCall

namespace StartWorld

def init : StartWorld := ⟨.init, [], [], []⟩

def told (w : StartWorld) (i : ℕ) : Bool := w.hooks[i]?.any StartHook.told

def ended (w : StartWorld) (i : ℕ) : Bool := w.hooks[i]?.any StartHook.ended

/-- The loop of instance `i` takes what is in its mailbox. -/
def answers (w : StartWorld) (i : ℕ) : Bool := w.hooks[i]?.any StartHook.serving

/-- The hook that is in call `k`. -/
def owner (w : StartWorld) (k : ℕ) : Option ℕ := w.hooks.findIdx? fun h =>
    decide (h.current = some k)

/-- Call `k` has come to the ping of instance `i`. -/
def pings (w : StartWorld) (k i : ℕ) : Bool :=
  w.registry.calls[k]?.any fun c => decide (c.stage = .pinging i)

/-- The ping of call `k` has been accepted. -/
def pinged (w : StartWorld) (k : ℕ) : Bool := decide (k ∈ w.queued) || decide (k ∈ w.lost)

/-- In a debug build a ping is awaited; a hook drops its call only with its loop future, and the
instances stop by steps of their own. -/
def permitted (debug : Bool) (w : StartWorld) : RegistryLabel → Bool
  | .advance k =>
    match w.registry.calls[k]? with
    | some ⟨_, .pinging i, _, _⟩ => !debug || (decide (k ∈ w.queued) && w.answers i)
    | _ => true
  | .abandon k => decide (w.owner k = none)
  | .stop _ => false
  | _ => true

/-- The registry is now `r`; an instance that is new begins its `started`. -/
def withRegistry (needs : TypeKey → List TypeKey) (w : StartWorld) (r : RegistryWorld) :
    StartWorld :=
  { w with
    registry := r
    hooks := w.hooks ++ (r.instances.drop w.hooks.length).map fun x => .begin (needs x.type) }

/-- The hook of instance `i` goes on: it asks for the next service, or gets one. -/
def hook (w : StartWorld) (i : ℕ) : Option StartWorld :=
  match w.hooks[i]? with
  | some ⟨rest, some k, told, ended⟩ =>
    match w.registry.calls[k]? with
    | some ⟨_, .done _, _, _⟩ => some { w with hooks := w.hooks.set i ⟨rest, none, told, ended⟩ }
    | _ => none
  | some ⟨A :: rest, none, told, ended⟩ => (w.registry.step (.begin (.fromRegistry A))).map fun r =>
      { w with
        registry := r
        hooks := w.hooks.set i ⟨rest, some w.registry.calls.length, told, ended⟩ }
  | _ => none

/-- `addr.ping()`: the flag is up, and the mailbox takes the payload. -/
def ping (debug : Bool) (w : StartWorld) (k : ℕ) : Option StartWorld :=
  match w.registry.calls[k]? with
  | some ⟨_, .pinging i, _, _⟩ =>
    if debug && !w.pinged k && w.registry.running i then
      if w.told i || w.ended i then some { w with lost := w.lost ++ [k] }
      else some { w with queued := w.queued ++ [k] }
    else none
  | _ => none

/-- The loop of instance `i` has ended, and with it the call its hook was in: the pings in its
mailbox are lost. -/
def endLoop (w : StartWorld) (r : RegistryWorld) (i : ℕ) : StartWorld :=
  ⟨r, w.hooks.modify i StartHook.stop, w.queued.filter fun k => !w.pings k i,
    w.lost ++ w.queued.filter fun k => w.pings k i⟩

/-- The loop of instance `i` ends. A future is dropped only where it awaits something, so not in a
lock section. -/
def stop (w : StartWorld) (i : ℕ) : Option StartWorld :=
  match w.hooks[i]? with
  | none => none
  | some h =>
    if h.ended then none
    else
      match h.current with
      | some k => (w.registry.step (.abandon k)).map fun r => w.endLoop r i
      | none => some (w.endLoop w.registry i)

/-- `debug_assert!(addr.ping().await.is_ok(), "service failed ping")` fails in call `k`, which
panics, and so does the hook that is in it. -/
def fail (debug : Bool) (w : StartWorld) (k : ℕ) : Option StartWorld :=
  match w.registry.calls[k]? with
  | some ⟨_, .pinging i, _, _⟩ =>
    if debug && !w.pinged k && (!w.registry.running i || w.ended i) then
      match w.owner k with
      | some j => w.stop j
      | none => (w.registry.step (.abandon k)).map fun r => { w with registry := r }
    else none
  | _ => none

def step (needs : TypeKey → List TypeKey) (debug : Bool) (w : StartWorld) :
    StartLabel → Option StartWorld
  | .registry l =>
    if w.permitted debug l then (w.registry.step l).map (w.withRegistry needs) else none
  | .hook i => w.hook i
  | .ping k => w.ping debug k
  | .fail k => w.fail debug k
  | .tell i =>
    if w.registry.running i then
      some { w with hooks := w.hooks.modify i fun h => { h with told := true } }
    else none
  | .stop i => w.stop i
  | .lower i =>
    if w.ended i && w.registry.running i then some { w with registry := w.registry.stop i }
      else none

/-- The services of a program: `started` of an instance of `A` asks for those of `needs A`, one
after the other. -/
def machine (needs : TypeKey → List TypeKey) (debug : Bool) : Machine StartWorld StartLabel :=
  ⟨init, step needs debug⟩

/-! ## What one step can do

A loop ends in one of two ways, whatever the reason: no call of its hook is on its way, or one is,
and it is dropped with the hook. Everything else is a step of a call, of a hook or of a ping. -/

/-- The ping of call `k` finds the flag down, or the mailbox closed. -/
def Refused (w : StartWorld) (k : ℕ) : Prop :=
  ∃ c j, w.registry.calls[k]? = some c ∧ c.stage = .pinging j ∧ w.pinged k = false
    ∧ (w.registry.running j = false ∨ w.ended j = true)

/-- Everything one step can do. -/
inductive Act (needs : TypeKey → List TypeKey) (debug : Bool) (w : StartWorld) :
    StartLabel → StartWorld → Prop where
  | registry (l : RegistryLabel) (r : RegistryWorld) (hl : w.permitted debug l = true)
      (hr : w.registry.step l = some r) : Act needs debug w (.registry l) (w.withRegistry needs r)
  | ask (i : ℕ) (A : TypeKey) (rest : List TypeKey) (told ended : Bool)
      (hi : w.hooks[i]? = some ⟨A :: rest, none, told, ended⟩) :
      Act needs debug w (.hook i) { w with
        registry := { w.registry with
          calls := w.registry.calls ++ [⟨.fromRegistry A, .waiting, none, none⟩] }
        hooks := w.hooks.set i ⟨rest, some w.registry.calls.length, told, ended⟩ }
  | got (i : ℕ) (rest : List TypeKey) (k : ℕ) (told ended : Bool) (c : RegistryCall)
      (o : ServiceReply)
      (hi : w.hooks[i]? = some ⟨rest, some k, told, ended⟩) (hk : w.registry.calls[k]? = some c)
      (hst : c.stage = .done o) :
      Act needs debug w (.hook i) { w with hooks := w.hooks.set i ⟨rest, none, told, ended⟩ }
  | queue (k i : ℕ) (c : RegistryCall) (hdebug : debug = true) (hk : w.registry.calls[k]? = some c)
      (hst : c.stage = .pinging i) (hnew : w.pinged k = false) (htold : w.told i = false)
      (hended : w.ended i = false) :
      Act needs debug w (.ping k) { w with queued := w.queued ++ [k] }
  | lose (k i : ℕ) (c : RegistryCall) (hdebug : debug = true) (hk : w.registry.calls[k]? = some c)
      (hst : c.stage = .pinging i) (hnew : w.pinged k = false)
      (hlate : w.told i = true ∨ w.ended i = true) :
      Act needs debug w (.ping k) { w with lost := w.lost ++ [k] }
  | tell (i : ℕ) : Act needs debug w (.tell i)
      { w with hooks := w.hooks.modify i fun h => { h with told := true } }
  | stopIdle (i : ℕ) (h : StartHook) (hi : w.hooks[i]? = some h) (hcur : h.current = none) :
      Act needs debug w (.stop i) (w.endLoop w.registry i)
  | stopCalling (l : StartLabel) (i : ℕ) (h : StartHook) (k : ℕ) (c : RegistryCall)
      (hi : w.hooks[i]? = some h) (hon : h.ended = false) (hcur : h.current = some k)
      (hk : w.registry.calls[k]? = some c) (hst : c.stage = .waiting ∨ ∃ j, c.stage = .pinging j)
      (hl : l = .stop i ∨ (l = .fail k ∧ debug = true ∧ w.owner k = some i ∧ w.Refused k)) :
      Act needs debug w l (w.endLoop (w.registry.setStage k .dropped) i)
  | lower (i : ℕ) (hended : w.ended i = true) (hrun : w.registry.running i = true) :
      Act needs debug w (.lower i) { w with registry := w.registry.stop i }
  | fail (k : ℕ) (c : RegistryCall) (hk : w.registry.calls[k]? = some c) (j : ℕ)
      (hst : c.stage = .pinging j) (howner : w.owner k = none) :
      Act needs debug w (.fail k) { w with registry := w.registry.setStage k .dropped }

variable {needs : TypeKey → List TypeKey} {debug : Bool} {w w' : StartWorld}
  {l : StartLabel} {i k : ℕ}

theorem step_abandon {r r' : RegistryWorld} {k : ℕ} (h : r.step (.abandon k) = some r') :
    ∃ c, r.calls[k]? = some c ∧ (c.stage = .waiting ∨ ∃ j, c.stage = .pinging j)
      ∧ r' = r.setStage k .dropped := by
  simp only [RegistryWorld.step] at h
  split at h
  · next hk => cases h; exact ⟨_, hk, .inl rfl, rfl⟩
  · next j _ _ hk => cases h; exact ⟨_, hk, .inr ⟨j, rfl⟩, rfl⟩
  · cases h

/-- A loop that ends. -/
theorem stop_cases (h : w.stop i = some w') : ∃ hook, w.hooks[i]? = some hook ∧ hook.ended = false
    ∧ ((hook.current = none ∧ w' = w.endLoop w.registry i)
      ∨ ∃ k c, hook.current = some k ∧ w.registry.calls[k]? = some c
        ∧ (c.stage = .waiting ∨ ∃ j, c.stage = .pinging j)
        ∧ w' = w.endLoop (w.registry.setStage k .dropped) i) := by
  unfold stop at h
  split at h
  · cases h
  · next hook hi =>
    obtain ⟨hon, h⟩ := Option.ite_none_left_eq_some.mp h
    refine ⟨hook, hi, by simpa using hon, ?_⟩
    -- the hook drops the call it is in
    cases hcur : hook.current with
    | none =>
      rw [hcur] at h
      cases h
      exact .inl ⟨rfl, rfl⟩
    | some k =>
      rw [hcur] at h
      obtain ⟨r, hr, rfl⟩ := Option.map_eq_some_iff.mp h
      obtain ⟨c, hk, hst, rfl⟩ := step_abandon hr
      exact .inr ⟨k, c, rfl, hk, hst, rfl⟩

/-- The hook that is in a call. -/
theorem owner_eq_some (h : w.owner k = some i) :
    ∃ hook, w.hooks[i]? = some hook ∧ hook.current = some k := by
  obtain ⟨hlt, hcur⟩ := List.findIdx?_eq_some_iff_getElem.mp h |>.imp fun _ h => h.1
  exact ⟨w.hooks[i], List.getElem?_eq_getElem hlt, by simpa using hcur⟩

theorem owner_eq_none {hook : StartHook} (h : w.owner k = none)
    (hi : w.hooks[i]? = some hook) : hook.current ≠ some k := by
  have := List.findIdx?_eq_none_iff.mp h hook (List.mem_of_getElem? hi)
  simpa using this

/-- The assertion fails for a client, or for a hook, which panics. -/
theorem act_of_fail (h : w.fail debug k = some w') : Act needs debug w (.fail k) w' := by
  unfold fail at h
  split at h
  · next j _ _ hk =>
    split at h
    · next hguard =>
      simp only [Bool.and_eq_true, Bool.or_eq_true, Bool.not_eq_true'] at hguard
      obtain ⟨⟨hdebug, hnew⟩, hdown⟩ := hguard
      split at h
      -- the call belongs to a hook, which panics with the assertion
      · next i howner =>
        obtain ⟨hook, hi, hcur⟩ := owner_eq_some howner
        obtain ⟨hook', hi', hon, ⟨hnone, -⟩ | ⟨k', c, hcur', hk', hst, rfl⟩⟩ := stop_cases h
        · rw [hi] at hi'
          cases hi'
          cases hcur.symm.trans hnone
        · rw [hi] at hi'
          cases hi'
          cases hcur.symm.trans hcur'
          exact .stopCalling _ i hook k c hi hon hcur hk' hst
            (.inr ⟨rfl, hdebug, howner, _, j, hk, rfl, hnew, hdown⟩)
      -- it belongs to a client
      · next howner =>
        obtain ⟨r, hr, rfl⟩ := Option.map_eq_some_iff.mp h
        obtain ⟨c, hc, -, rfl⟩ := step_abandon hr
        exact .fail k _ hk j rfl howner
    · cases h
  · cases h

/-- A ping that is accepted, in time or not. -/
theorem act_of_ping (h : w.ping debug k = some w') : Act needs debug w (.ping k) w' := by
  unfold ping at h
  split at h
  · next i _ _ hk =>
    split at h
    · next hguard =>
      simp only [Bool.and_eq_true, Bool.not_eq_true'] at hguard
      obtain ⟨⟨hdebug, hnew⟩, -⟩ := hguard
      split at h
      -- behind a `Stop`, or in the queue of a loop that has ended
      · next hlate =>
        cases h
        exact .lose k i _ hdebug hk rfl hnew (by simpa using hlate)
      · next htime =>
        cases h
        simp only [Bool.or_eq_true, not_or, Bool.not_eq_true] at htime
        exact .queue k i _ hdebug hk rfl hnew htime.1 htime.2
    · cases h
  · cases h

/-- **Nothing else happens.** -/
theorem act_cases (h : w.step needs debug l = some w') : Act needs debug w l w' := by
  cases l with
  | registry l =>
    obtain ⟨hl, h⟩ := Option.ite_none_right_eq_some.mp h
    obtain ⟨r, hr, rfl⟩ := Option.map_eq_some_iff.mp h
    exact .registry l r hl hr
  | hook i =>
    simp only [step, hook] at h
    split at h
    · next rest k told ended hi =>
      split at h
      · next o _ _ hk => cases h; exact .got i rest k told ended _ o hi hk rfl
      · cases h
    · next A rest told ended hi =>
      cases h
      exact .ask i A rest told ended hi
    · cases h
  | ping k => exact act_of_ping h
  | fail k => exact act_of_fail h
  | tell i =>
    obtain ⟨-, ⟨⟩⟩ := Option.ite_none_right_eq_some.mp h
    exact .tell i
  | stop i =>
    obtain ⟨hook, hi, hon, ⟨hcur, rfl⟩ | ⟨k, c, hcur, hk, hst, rfl⟩⟩ := stop_cases h
    · exact .stopIdle i hook hi hcur
    · exact .stopCalling _ i hook k c hi hon hcur hk hst (.inl rfl)
  | lower i =>
    obtain ⟨hguard, ⟨⟩⟩ := Option.ite_none_right_eq_some.mp h
    rw [Bool.and_eq_true] at hguard
    exact .lower i hguard.1 hguard.2

/-! ## Who waits for whom

A hook in a call waits for that call, the call for the instance it has spawned, and that instance
for its own hook. The instance is younger than the one that waits for it, which is what makes the
chain finite; the rest of the invariant says that no two hooks share a call. -/

/-- The call of a hook that asks for a service. It is under way or has returned; what it has spawned
is younger than instance `i`. -/
def Asks (r : RegistryWorld) (i k : ℕ) : Prop :=
  ∃ c A, r.calls[k]? = some c ∧ c.call = .fromRegistry A ∧ c.stage ≠ .dropped
    ∧ ∀ j, c.stage = .inserting j ∨ c.stage = .pinging j → i < j

/-- The invariant. -/
structure StartInv (w : StartWorld) : Prop where
  typed : w.registry.Typed
  lock : w.registry.LockInv
  calls : w.registry.CallInv
  hooks : w.hooks.length = w.registry.instances.length
  asks : ∀ (i : ℕ) (h : StartHook) (k : ℕ), w.hooks[i]? = some h → h.current = some k →
    Asks w.registry i k
  unique : ∀ (i j : ℕ) (h h' : StartHook) (k : ℕ), w.hooks[i]? = some h → w.hooks[j]? = some h' →
    h.current = some k → h'.current = some k → i = j
  /-- the loop has gone with its hook -/
  ended : ∀ (i : ℕ) (h : StartHook), w.hooks[i]? = some h → h.ended = true → h.busy = false
  /-- the flag goes down after the loop -/
  lowered : ∀ (i : ℕ) (h : StartHook), w.hooks[i]? = some h → w.registry.running i = false →
    h.ended = true

theorem startInv_init : StartInv init where
  typed := (RegistryWorld.inv_of_run .start).1
  lock := (RegistryWorld.inv_of_run .start).2.1
  calls := RegistryWorld.callInv_init
  hooks := rfl
  asks i h k hi := by simp [init] at hi
  unique i j h h' k hi := by simp [init] at hi
  ended i h hi := by simp [init] at hi
  lowered i h hi := by simp [init] at hi

/-- A step of the registry in which no hook drops its call. -/
theorem Asks.step {r r' : RegistryWorld} {i k : ℕ} (hasks : Asks r i k)
    (hi : i < r.instances.length)
    {l : RegistryLabel} (h : r.step l = some r') (hl : l ≠ .abandon k) : Asks r' i k := by
  obtain ⟨c, A, hk, hcall, hst, hyoung⟩ := hasks
  have hact := RegistryWorld.act_cases h
  have hlt : k < r'.calls.length :=
    (List.getElem?_eq_some_iff.mp hk).1.trans_le (RegistryWorld.length_act hact)
  obtain ⟨c', hk'⟩ : ∃ c', r'.calls[k]? = some c' := ⟨_, List.getElem?_eq_getElem hlt⟩
  have hdropped : c'.stage ≠ .dropped := by
    intro hdrop
    rcases RegistryWorld.drop_of_step h hk' hdrop with hold | rfl
    · rw [hk] at hold
      cases hold
      exact hst hdrop
    · exact hl rfl
  -- the call is as it was, or has moved on; it is not a new one
  rcases RegistryWorld.call_of_act hact hk' with hold | ⟨d, hd, hmoved⟩ | ⟨hnone, -, -⟩
  · rw [hk] at hold
    cases hold
    exact ⟨c, A, hk', hcall, hst, hyoung⟩
  · rw [hk] at hd
    cases hd
    refine ⟨c', A, hk', hmoved.call_eq.trans hcall, hdropped, ?_⟩
    cases hmoved with
    | entered | left => simp
    | decided st hc =>
      rcases hc.stages with ⟨-, -, rfl | ⟨j, hgiven, rfl⟩⟩
      · simp
      · rw [hcall] at hgiven
        cases hgiven
    -- the new instance comes last in the table
    | created B hcreate hspawn hnew =>
      rintro j (hj | hj) <;> cases hj
      exact hi
    | wrote B new st hkey hc =>
      obtain ⟨call, stage, ins, dis⟩ := c
      cases hcall
      cases hc with
      | spawned B j =>
        rintro j' (hj | hj) <;> cases hj
        exact hyoung j (.inl rfl)
    | passed st hc =>
      obtain ⟨call, stage, ins, dis⟩ := c
      cases hc <;> simp at hdropped ⊢
  · rw [hk] at hnone
    cases hnone

theorem Asks.frame {r r' : RegistryWorld} {i k : ℕ} (hasks : Asks r i k)
    (hsame : r'.calls[k]? = r.calls[k]?) : Asks r' i k := by
  obtain ⟨c, A, hk, hrest⟩ := hasks
  exact ⟨c, A, hsame.trans hk, hrest⟩

/-- What holds of the registry, whoever calls. -/
theorem registry_act {r r' : RegistryWorld} (h : r.Typed ∧ r.LockInv ∧ r.CallInv)
    (hact : RegistryWorld.Act r r') : r'.Typed ∧ r'.LockInv ∧ r'.CallInv :=
  ⟨RegistryWorld.typed_act h.1 hact, RegistryWorld.lockInv_act h.1 h.2.1 hact,
    RegistryWorld.callInv_act h.1 h.2.2 hact⟩

theorem StartInv.registry (hinv : StartInv w) :
    w.registry.Typed ∧ w.registry.LockInv ∧ w.registry.CallInv :=
      ⟨hinv.typed, hinv.lock, hinv.calls⟩

/-! ### What a step leaves of a hook

Each step changes the entry of one hook, or appends new ones: an entry found afterwards is an old
one, the changed one, or fresh. -/

theorem ended_of_hook {h : StartHook} (hi : w.hooks[i]? = some h) : w.ended i = h.ended := by
  simp [ended, hi]

theorem pings_iff {j : ℕ} :
    w.pings k j = true ↔ ∃ c, w.registry.calls[k]? = some c ∧ c.stage = .pinging j := by
  simp [pings, Option.any_eq_true]

/-- A hook is an old one, or that of a new instance. -/
theorem hook_withRegistry {r : RegistryWorld} {h : StartHook}
    (hi : (w.withRegistry needs r).hooks[i]? = some h) :
    w.hooks[i]? = some h ∨ (w.hooks.length ≤ i ∧ ∃ A, h = .begin (needs A)) := by
  rcases lt_or_ge i w.hooks.length with hlt | hge
  · exact .inl ((List.getElem?_append_left hlt).symm.trans hi)
  · have hi : (w.hooks ++ _)[i]? = some h := hi
    rw [List.getElem?_append_right hge, List.getElem?_map] at hi
    obtain ⟨x, -, rfl⟩ := Option.map_eq_some_iff.mp hi
    exact .inr ⟨hge, _, rfl⟩

/-- A hook is an old one, or the one that was set. -/
theorem hook_set {hooks : List StartHook} {i j : ℕ} {h h' : StartHook}
    (hj : (hooks.set i h)[j]? = some h') : (i ≠ j ∧ hooks[j]? = some h') ∨ (i = j ∧ h' = h) := by
  by_cases hij : i = j
  · subst hij
    rw [List.getElem?_set_self'] at hj
    obtain ⟨x, -, rfl⟩ := Option.map_eq_some_iff.mp hj
    exact .inr ⟨rfl, rfl⟩
  · exact .inl ⟨hij, (List.getElem?_set_ne hij).symm.trans hj⟩

/-- A hook that is told to stop goes on as it is. -/
theorem hook_tell {hooks : List StartHook} {j : ℕ} {h : StartHook}
    (hj : (hooks.modify i fun h => { h with told := true })[j]? = some h) :
    ∃ x, hooks[j]? = some x ∧ h.current = x.current ∧ h.remaining = x.remaining
      ∧ h.ended = x.ended := by
  rcases Table.of_getElem?_modify hj with ⟨-, hold⟩ | ⟨-, x, hx, rfl⟩
  · exact ⟨h, hold, rfl, rfl, rfl⟩
  · exact ⟨x, hx, rfl, rfl, rfl⟩

theorem ended_withRegistry {r : RegistryWorld} (h : (w.withRegistry needs r).ended i = true) :
    w.ended i = true := by
  obtain ⟨hook, hi, hended⟩ := (Option.any_eq_true _ _).mp h
  rcases hook_withRegistry hi with hold | ⟨-, A, rfl⟩
  · rw [ended_of_hook hold, hended]
  · cases hended

/-- A hook that goes on keeps its flags. -/
theorem ended_set {hooks : List StartHook} {h h' : StartHook} {j : ℕ}
    (hj : (hooks.set i h')[j]?.any StartHook.ended = true) (hi : hooks[i]? = some h)
    (hsame : h'.ended = h.ended) : hooks[j]?.any StartHook.ended = true := by
  by_cases hij : i = j
  · subst hij
    simpa [List.getElem?_set_self', hi, hsame] using hj
  · rwa [List.getElem?_set_ne hij] at hj

theorem ended_endLoop {r : RegistryWorld} {j : ℕ} (h : (w.endLoop r i).ended j = true) :
    w.ended j = true ∨ j = i := by
  obtain ⟨hook, hj, hended⟩ := (Option.any_eq_true _ _).mp h
  rcases Table.of_getElem?_modify hj with ⟨-, hold⟩ | ⟨hij, -⟩
  · exact .inl (by rw [ended_of_hook hold, hended])
  · exact .inr hij.symm

/-! ### Calls and hooks

One lemma for each kind of step: a loop that ends, a step of the registry, a hook that asks for its
next service. The rest of them touch neither the calls nor what the hooks wait for. -/

/-- One hook goes on, and no instance is spawned or lowers its flag. It is enough that the hook waits
for a call of its own, if for any, and that the others' calls stand as they stood. -/
theorem StartInv.replace {φ : StartHook → StartHook} (hinv : StartInv w)
    (hhooks : w'.hooks = w.hooks.modify i φ)
    (hr : w'.registry.Typed ∧ w'.registry.LockInv ∧ w'.registry.CallInv)
    (hinst : w'.registry.instances = w.registry.instances)
    (hcalls : ∀ j h k, i ≠ j → w.hooks[j]? = some h → h.current = some k →
      w'.registry.calls[k]? = w.registry.calls[k]?)
    (hown : ∀ h k, w.hooks[i]? = some h → (φ h).current = some k →
      Asks w'.registry i k ∧ ∀ j h', i ≠ j → w.hooks[j]? = some h' → h'.current ≠ some k)
    (hended : ∀ h, w.hooks[i]? = some h → (φ h).ended = true → (φ h).busy = false)
    (hstays : ∀ h, w.hooks[i]? = some h → h.ended = true → (φ h).ended = true) :
    StartInv w' where
  typed := hr.1
  lock := hr.2.1
  calls := hr.2.2
  hooks := by rw [hhooks, List.length_modify, hinst, hinv.hooks]
  asks j h k hj hcur := by
    rw [hhooks] at hj
    rcases Table.of_getElem?_modify hj with ⟨hij, hold⟩ | ⟨rfl, x, hx, rfl⟩
    · exact (hinv.asks j h k hold hcur).frame (hcalls j h k hij hold hcur)
    · exact (hown x k hx hcur).1
  unique j j' h h' k hj hj' hcur hcur' := by
    rw [hhooks] at hj hj'
    rcases Table.of_getElem?_modify hj with ⟨hij, hold⟩ | ⟨rfl, x, hx, rfl⟩
    · rcases Table.of_getElem?_modify hj' with ⟨-, hold'⟩ | ⟨rfl, x', hx', rfl⟩
      · exact hinv.unique j j' h h' k hold hold' hcur hcur'
      · exact absurd hcur ((hown x' k hx' hcur').2 j h hij hold)
    · rcases Table.of_getElem?_modify hj' with ⟨hij', hold'⟩ | ⟨hij', -⟩
      · exact absurd hcur' ((hown x k hx hcur).2 j' h' hij' hold')
      · exact hij'
  ended j h hj hend := by
    rw [hhooks] at hj
    rcases Table.of_getElem?_modify hj with ⟨-, hold⟩ | ⟨rfl, x, hx, rfl⟩
    · exact hinv.ended j h hold hend
    · exact hended x hx hend
  lowered j h hj hrun := by
    unfold RegistryWorld.running at hrun
    rw [hinst] at hrun
    rw [hhooks] at hj
    rcases Table.of_getElem?_modify hj with ⟨-, hold⟩ | ⟨rfl, x, hx, rfl⟩
    · exact hinv.lowered j h hold hrun
    · exact hstays x hx (hinv.lowered i x hx hrun)

/-- A loop ends, and what its hook was doing is over. -/
theorem startInv_endLoop (hinv : StartInv w) {h : StartHook} {r : RegistryWorld}
    (hi : w.hooks[i]? = some h) (hr : r.Typed ∧ r.LockInv ∧ r.CallInv)
    (hinst : r.instances = w.registry.instances)
    (hcalls : ∀ k, h.current ≠ some k → r.calls[k]? = w.registry.calls[k]?) :
    StartInv (w.endLoop r i) := by
  refine hinv.replace rfl hr hinst (fun j h' k hij hj hcur => ?_) (fun _ _ _ hcur => ?_)
    (fun _ _ _ => rfl) fun _ _ _ => rfl
  · exact hcalls k fun hik => hij (hinv.unique i j h h' k hi hj hik hcur)
  · -- the hook that ended waits for nothing
    cases hcur

/-- The calls go on; new instances begin their hooks. -/
theorem startInv_registry (hinv : StartInv w) {l : RegistryLabel} {r : RegistryWorld}
    (hl : w.permitted debug l = true) (hr : w.registry.step l = some r) :
    StartInv (w.withRegistry needs r) := by
  have hact := RegistryWorld.act_cases hr
  obtain ⟨ht, hl', hc⟩ := registry_act hinv.registry hact
  have hle := RegistryWorld.instances_le hact
  have hlt : ∀ {i h}, w.hooks[i]? = some h → i < w.registry.instances.length := fun hi =>
    hinv.hooks ▸ (List.getElem?_eq_some_iff.mp hi).1
  have hlen : (w.withRegistry needs r).hooks.length = r.instances.length := by
    show (w.hooks ++ _).length = r.instances.length
    rw [List.length_append, List.length_map, List.length_drop, hinv.hooks]
    omega
  refine ⟨ht, hl', hc, hlen, fun i h k hi hcur => ?_, fun i j h h' k hi hj hcur hcur' => ?_,
    fun i h hi hended => ?_, fun i h hi hrun => ?_⟩
  · rcases hook_withRegistry hi with hold | ⟨-, A, rfl⟩
    · refine (hinv.asks i h k hold hcur).step (hlt hold) hr ?_
      -- nobody else drops the call of a hook
      rintro rfl
      exact owner_eq_none (by simpa [permitted] using hl) hold hcur
    · cases hcur
  · rcases hook_withRegistry hi with hold | ⟨-, A, rfl⟩
    · rcases hook_withRegistry hj with hold' | ⟨-, A, rfl⟩
      · exact hinv.unique i j h h' k hold hold' hcur hcur'
      · cases hcur'
    · cases hcur
  · rcases hook_withRegistry hi with hold | ⟨-, A, rfl⟩
    · exact hinv.ended i h hold hended
    · cases hended
  · rcases hook_withRegistry hi with hold | ⟨hge, A, rfl⟩
    · refine hinv.lowered i h hold (RegistryWorld.running_of_step hr ?_ hrun)
      -- the instances stop by steps of their own
      rintro rfl
      cases hl
    -- a new instance is running
    · have hi : i < r.instances.length := hlen ▸ (List.getElem?_eq_some_iff.mp hi).1
      rw [show (w.withRegistry needs r).registry.running i = true from
        RegistryWorld.running_new hact (hinv.hooks ▸ hge) hi] at hrun
      cases hrun

/-- A hook asks for the next service. -/
theorem startInv_ask (hinv : StartInv w) {A : TypeKey} {rest : List TypeKey} {told ended : Bool}
    (hi : w.hooks[i]? = some ⟨A :: rest, none, told, ended⟩) : StartInv { w with
      registry := { w.registry with
        calls := w.registry.calls ++ [⟨.fromRegistry A, .waiting, none, none⟩] }
      hooks := w.hooks.set i ⟨rest, some w.registry.calls.length, told, ended⟩ } := by
  have hact : RegistryWorld.Act w.registry { w.registry with
      calls := w.registry.calls ++ [⟨.fromRegistry A, .waiting, none, none⟩] } :=
    .begin (.fromRegistry A) rfl
  have hold_lt : ∀ {j : ℕ} {h : StartHook} {k : ℕ}, w.hooks[j]? = some h → h.current = some k →
      k < w.registry.calls.length := fun hj hcur => by
    obtain ⟨c, -, hk, -⟩ := hinv.asks _ _ _ hj hcur
    exact (List.getElem?_eq_some_iff.mp hk).1
  refine hinv.replace (List.set_eq_modify ..) (registry_act hinv.registry hact) rfl
    (fun j h k _ hj hcur => List.getElem?_append_left (hold_lt hj hcur))
    (fun h k _ hcur => ?_) (fun h hi' hend => ?_) fun h hi' hend => ?_
  · -- its call is the new one, which nobody else has
    cases hcur
    refine ⟨⟨_, A, Table.getElem?_snoc.mpr (.inr ⟨rfl, rfl⟩), rfl, by simp, by simp⟩, ?_⟩
    intro j h' _ hj hcur'
    exact absurd (hold_lt hj hcur') (lt_irrefl _)
  · have hbusy := hinv.ended i _ hi hend
    simp [StartHook.busy] at hbusy
  · cases hi.symm.trans hi'
    exact hend

/-- An instance whose loop has ended lowers its flag. -/
theorem startInv_lower (hinv : StartInv w) (hended : w.ended i = true) :
    StartInv { w with registry := w.registry.stop i } := by
  obtain ⟨ht, hl, hc⟩ := registry_act hinv.registry (.stop i)
  have hlen : w.hooks.length = (w.registry.stop i).instances.length :=
    hinv.hooks.trans (List.length_modify ..).symm
  refine ⟨ht, hl, hc, hlen, hinv.asks, hinv.unique, hinv.ended, fun j h hj hrun => ?_⟩
  by_cases hij : i = j
  · rw [← ended_of_hook (w := w) hj, ← hij, hended]
  · refine hinv.lowered j h hj ?_
    unfold RegistryWorld.running at hrun ⊢
    rwa [show (w.registry.stop i).instances[j]? = w.registry.instances[j]?
      from Table.getElem?_modify_of_ne hij] at hrun

theorem dropped_of_ping {c : RegistryCall} (hk : w.registry.calls[k]? = some c)
    (hst : c.stage = .waiting ∨ ∃ j, c.stage = .pinging j) :
    RegistryWorld.Act w.registry (w.registry.setStage k .dropped) := by
  refine .pass k c _ hk ?_
  rcases hst with hst | ⟨j, hst⟩ <;> rw [hst]
  · exact .abandoned c.call
  · exact .unpinged c.call j

/-- **The step lemma.** -/
theorem startInv_act (hinv : StartInv w) (hact : Act needs debug w l w') : StartInv w' := by
  cases hact with
  | registry l r hl hr => exact startInv_registry hinv hl hr
  | ask i A rest told ended hi => exact startInv_ask hinv hi
  -- the hook has its answer and waits for nothing
  | got i rest k told ended c o hi hk hst =>
    refine hinv.replace (List.set_eq_modify ..) hinv.registry rfl (fun _ _ _ _ _ _ => rfl)
      (fun _ _ _ hcur => by cases hcur) (fun h hi' hend => ?_) fun h hi' hend => ?_
    · have hbusy := hinv.ended i _ hi hend
      simp [StartHook.busy] at hbusy
    · cases hi.symm.trans hi'
      exact hend
  -- pings are in no table the invariant is about
  | queue k i c hdebug hk hst hnew htold hended =>
    exact ⟨hinv.typed, hinv.lock, hinv.calls, hinv.hooks, hinv.asks, hinv.unique, hinv.ended,
      hinv.lowered⟩
  | lose k i c hdebug hk hst hnew hlate =>
    exact ⟨hinv.typed, hinv.lock, hinv.calls, hinv.hooks, hinv.asks, hinv.unique, hinv.ended,
      hinv.lowered⟩
  -- being told to stop does not interrupt the hook
  | tell i =>
    refine hinv.replace rfl hinv.registry rfl (fun _ _ _ _ _ _ => rfl) (fun h k hi hcur => ?_)
      (fun h hi hend => hinv.ended i h hi hend) fun _ _ hend => hend
    exact ⟨hinv.asks i h k hi hcur, fun j h' hij hj hcur' =>
      hij (hinv.unique i j h h' k hi hj hcur hcur')⟩
  | stopIdle i h hi hcur => exact startInv_endLoop hinv hi hinv.registry rfl fun _ _ => rfl
  -- the call the hook was in is dropped with it, and no other hook is in that call
  | stopCalling l i h k c hi hon hcur hk hst hl =>
    refine startInv_endLoop hinv hi (registry_act hinv.registry (dropped_of_ping hk hst)) rfl
      fun k' hne => ?_
    exact Table.getElem?_modify_of_ne fun hkk => hne (hkk ▸ hcur)
  | lower i hended hrun => exact startInv_lower hinv hended
  -- the call of a client is dropped, so no hook waits for it
  | fail k c hk j hst howner =>
    obtain ⟨ht, hl', hc⟩ := registry_act hinv.registry (dropped_of_ping hk (.inr ⟨j, hst⟩))
    refine ⟨ht, hl', hc, hinv.hooks, fun i h k' hi hcur => ?_, hinv.unique, hinv.ended,
      hinv.lowered⟩
    refine (hinv.asks i h k' hi hcur).frame (Table.getElem?_modify_of_ne fun hkk => ?_)
    exact owner_eq_none howner hi (hkk ▸ hcur)

theorem startInv_of_run {ls : List StartLabel} (h : (machine needs debug).Run ls w) : StartInv w :=
  h.invariant (I := StartInv) startInv_init fun _ _ _ hinv hstep =>
    startInv_act hinv (act_cases hstep)

/-! ### Pings

The pings of the debug assertions are in a queue or lost; a queued one belongs to an instance that
has not ended, for a loop that ends moves the pings in its queue to the lost ones. -/

/-- The pings that have been accepted are those of calls that have taken effect; one that may be
answered is in the mailbox of a loop that is on. -/
structure PingInv (w : StartWorld) : Prop where
  sent : ∀ k, w.pinged k = true → ∃ c, w.registry.calls[k]? = some c ∧ c.stage.pending = false
  queued : ∀ k i, k ∈ w.queued → w.pings k i = true → w.ended i = false

theorem pingInv_init : PingInv init where
  sent k hk := by simp [pinged, init] at hk
  queued k i hk := by simp [init] at hk

theorem pinged_iff : w.pinged k = true ↔ k ∈ w.queued ∨ k ∈ w.lost := by simp [pinged]

/-- A call that has taken effect does not take it again, and pings nobody else. -/
theorem sent_act {r r' : RegistryWorld} (hact : RegistryWorld.Act r r') {c : RegistryCall}
    (hk : r.calls[k]? = some c) (hst : c.stage.pending = false) :
    ∃ c', r'.calls[k]? = some c' ∧ c'.stage.pending = false
      ∧ ∀ j, c'.stage = .pinging j → c.stage = .pinging j := by
  have hlt : k < r'.calls.length :=
    (List.getElem?_eq_some_iff.mp hk).1.trans_le (RegistryWorld.length_act hact)
  have hk' : r'.calls[k]? = some r'.calls[k] := List.getElem?_eq_getElem hlt
  refine ⟨_, hk', ?_⟩
  rcases RegistryWorld.call_of_act hact hk' with hold | ⟨d, hd, hmoved⟩ | ⟨hnone, -, -⟩
  · rw [hk] at hold
    cases hold
    exact ⟨hst, fun _ hj => hj⟩
  · rw [hk] at hd
    cases hd
    generalize r'.calls[k] = c' at hmoved
    obtain ⟨call, stage, ins, dis⟩ := c
    -- a call that has taken effect has passed the lock: only the last case is left
    cases hmoved with
    | entered hwait =>
      cases hwait
      cases hst
    | decided st hc => cases hc <;> cases hst
    | left o hlocked =>
      cases hlocked
      cases hst
    | created A hcall hspawning =>
      cases hspawning
      cases hst
    | wrote A new st hkey hc => cases hc <;> cases hst
    | passed st hc => cases hc <;> simp [CallStage.pending]
  · rw [hk] at hnone
    cases hnone

/-- A step with which the calls go on, and which accepts no ping. -/
theorem PingInv.frame (hinv : PingInv w)
    (hact : w'.registry = w.registry ∨ RegistryWorld.Act w.registry w'.registry)
    (hpinged : ∀ k, w'.pinged k = true → w.pinged k = true)
    (hqueued : ∀ k ∈ w'.queued, k ∈ w.queued)
    (hended : ∀ k i, k ∈ w'.queued → w.pings k i = true → w'.ended i = true → w.ended i = true) :
    PingInv w' := by
  have hcall : ∀ (k : ℕ) (c : RegistryCall), w.registry.calls[k]? = some c →
      c.stage.pending = false → ∃ c' : RegistryCall, w'.registry.calls[k]? = some c'
        ∧ c'.stage.pending = false ∧ ∀ j, c'.stage = .pinging j → c.stage = .pinging j := by
    intro k c hk hst
    rcases hact with hsame | hact
    · exact ⟨c, hsame ▸ hk, hst, fun _ hj => hj⟩
    · exact sent_act hact hk hst
  refine ⟨fun k hk => ?_, fun k i hk hping => ?_⟩
  · obtain ⟨c, hc, hst⟩ := hinv.sent k (hpinged k hk)
    obtain ⟨c', hc', hst', -⟩ := hcall k c hc hst
    exact ⟨c', hc', hst'⟩
  · obtain ⟨c, hc, hst⟩ := hinv.sent k (pinged_iff.mpr (.inl (hqueued k hk)))
    obtain ⟨c', hc', -, hback⟩ := hcall k c hc hst
    obtain ⟨d, hd, hdst⟩ := pings_iff.mp hping
    rw [hc'] at hd
    cases hd
    have hold : w.pings k i = true := pings_iff.mpr ⟨c, hc, hback i hdst⟩
    by_contra hon
    have hended' := hended k i hk hold (by simpa using hon)
    rw [hinv.queued k i (hqueued k hk) hold] at hended'
    cases hended'

/-- A loop that ends takes the pings with it. -/
theorem PingInv.endLoop (hinv : PingInv w) {r : RegistryWorld} (i : ℕ)
    (hact : r = w.registry ∨ RegistryWorld.Act w.registry r) : PingInv (w.endLoop r i) := by
  refine hinv.frame hact (fun k hk => ?_) (fun k hk => List.mem_of_mem_filter hk)
    fun k j hk hping hended => ?_
  · rcases pinged_iff.mp hk with hqueued | hlost
    · exact pinged_iff.mpr (.inl (List.mem_of_mem_filter hqueued))
    · rcases List.mem_append.mp hlost with hlost | hqueued
      · exact pinged_iff.mpr (.inr hlost)
      · exact pinged_iff.mpr (.inl (List.mem_of_mem_filter hqueued))
  · rcases ended_endLoop hended with hended | rfl
    · exact hended
    · have hnot := (List.mem_filter.mp hk).2
      rw [hping] at hnot
      cases hnot

/-- **The step lemma for the pings.** -/
theorem pingInv_act (hinv : PingInv w) (hact : Act needs debug w l w') : PingInv w' := by
  cases hact with
  | registry l r hl hr =>
    exact hinv.frame (.inr (RegistryWorld.act_cases hr)) (fun _ hk => hk) (fun _ hk => hk)
      fun _ _ _ _ => ended_withRegistry
  | ask i A rest told ended hi =>
    exact hinv.frame (.inr (.begin (.fromRegistry A) rfl)) (fun _ hk => hk) (fun _ hk => hk)
      fun _ _ _ _ hended => ended_set hended hi rfl
  | got i rest k told ended c o hi hk hst =>
    refine hinv.frame (.inl rfl) (fun _ hk => hk) (fun _ hk => hk) fun _ _ _ _ hended => ?_
    exact ended_set hended hi rfl
  -- the ping is accepted by an instance that is on
  | queue k i c hdebug hk hst hnew htold hended =>
    refine ⟨fun k' hk' => ?_, fun k' j hk' hping => ?_⟩
    · rcases pinged_iff.mp hk' with hqueued | hlost
      · rcases List.mem_append.mp hqueued with hold | hnew
        · exact hinv.sent k' (pinged_iff.mpr (.inl hold))
        · obtain rfl := List.mem_singleton.mp hnew
          exact ⟨c, hk, by rw [hst]; rfl⟩
      · exact hinv.sent k' (pinged_iff.mpr (.inr hlost))
    · rcases List.mem_append.mp hk' with hold | hnew
      · exact hinv.queued k' j hold hping
      · obtain rfl := List.mem_singleton.mp hnew
        obtain ⟨d, hd, hdst⟩ := pings_iff.mp hping
        rw [show w.registry.calls[k']? = some d from hd] at hk
        cases hk
        cases hdst.symm.trans hst
        exact hended
  | lose k i c hdebug hk hst hnew hlate =>
    refine ⟨fun k' hk' => ?_, hinv.queued⟩
    rcases pinged_iff.mp hk' with hqueued | hlost
    · exact hinv.sent k' (pinged_iff.mpr (.inl hqueued))
    · rcases List.mem_append.mp hlost with hold | hnew
      · exact hinv.sent k' (pinged_iff.mpr (.inr hold))
      · obtain rfl := List.mem_singleton.mp hnew
        exact ⟨c, hk, by rw [hst]; rfl⟩
  | tell i =>
    refine hinv.frame (.inl rfl) (fun _ hk => hk) (fun _ hk => hk) fun k j _ _ hended => ?_
    obtain ⟨h, hj, hh⟩ := (Option.any_eq_true _ _).mp hended
    obtain ⟨x, hx, -, -, hsame⟩ := hook_tell hj
    rw [ended_of_hook hx, ← hsame, hh]
  | stopIdle i h hi hcur => exact hinv.endLoop i (.inl rfl)
  | stopCalling l i h k c hi hon hcur hk hst hl =>
    exact hinv.endLoop i (.inr (dropped_of_ping hk hst))
  | lower i hended hrun =>
    exact hinv.frame (.inr (.stop i)) (fun _ hk => hk) (fun _ hk => hk) fun _ _ _ _ h => h
  | fail k c hk j hst howner =>
    exact hinv.frame (.inr (dropped_of_ping hk (.inr ⟨j, hst⟩))) (fun _ hk => hk) (fun _ hk => hk)
      fun _ _ _ _ h => h

theorem pingInv_of_run {ls : List StartLabel} (h : (machine needs debug).Run ls w) : PingInv w :=
  h.invariant (I := PingInv) pingInv_init fun _ _ _ hinv hstep => pingInv_act hinv (act_cases hstep)

end StartWorld

end Hannibal
