import Hannibal.Lifecycle
import Hannibal.Mailbox
import Hannibal.StreamRestart

/-!
# Hannibal.StreamLoop — a stream and a mailbox, merged

What `EventLoop::create_on_stream` does with its two sources, for every stream, finite or not, every
sequence of operations and every choice `select!` makes between them.

* **`Drawn`**, **`Finishes`**, **`Stops`** — what holds of the loop at any moment: the items it has
  drawn, the call of `finished`, the call of `stopped`.
* **`drawn_step`**, **`finishes_step`**, **`stops_step`** — one step of the loop preserves them.
* **`merges`** — in every run the events handled merge a prefix of the stream and a prefix of what
  the mailbox accepted; the stream's end is noticed once; and the mailbox is served until the loop
  ends. -/

namespace Hannibal

open Lts Chan
open AsyncChannel (state)

variable {σ ρ : Type}

/-! ## What has been handled

The trace of a loop is read in two ways: which handlers were entered, in their order, and whether
the loop has taken its end, a `Stop` or the closed mailbox. The end of the stream does not end the
loop. -/

/-- The handler of a stream item, not a task from the mailbox. -/
def Call.ofStream : Call → Bool
  | .item _ => true
  | _ => false

/-- The handler that is entered. -/
def Event.handles : Event → Option Call
  | .enter (.task k) => some (.task k)
  | .enter (.item n) => some (.item n)
  | _ => none

/-- The handlers entered so far. -/
def handled (t : List Event) : List Call := t.filterMap Event.handles

@[simp] theorem handled_append (t es : List Event) : handled (t ++ es) = handled t ++ handled es :=
  List.filterMap_append

/-- The handler a payload leads to. -/
def Envelope.handler : Envelope σ ρ → List Call
  | ⟨k, .task _⟩ => [.task k]
  | _ => []

/-- The handler an input leads to, by the items drawn before. -/
def Input.handler (n : ℕ) : Option (Input σ ρ) → List Call
  | some (.payload e) => e.handler
  | some (.item _) => [.item n]
  | _ => []

/-- The loop takes what ends it. -/
def Event.endsLoop : Event → Bool
  | .taken k => k.endsLoop
  | _ => false

/-- What ends the loop has been taken. -/
def endTaken (t : List Event) : Bool := t.any Event.endsLoop

@[simp] theorem endsLoop_taken (k : Taken) : (Event.taken k).endsLoop = k.endsLoop := rfl
@[simp] theorem endsLoop_enter (c : Call) : (Event.enter c).endsLoop = false := rfl
@[simp] theorem endsLoop_leave (c : Call) (x : Exit) : (Event.leave c x).endsLoop = false := rfl
@[simp] theorem endTaken_nil : endTaken [] = false := rfl
@[simp] theorem endTaken_cons (e : Event) (es : List Event) :
    endTaken (e :: es) = (e.endsLoop || endTaken es) := rfl
@[simp] theorem endTaken_append (t es : List Event) :
    endTaken (t ++ es) = (endTaken t || endTaken es) := List.any_append

variable {E : EventLoop σ} {s s' : LoopState σ ρ} {i : Option (Input σ ρ)}

/-- **One input, one handler.** -/
theorem handled_of_step (h : EventLoop.Step E s i s') :
    handled s'.trace = handled s.trace ++ Input.handler s.nextItem i := by
  cases h with
  | takeTask | takeItem =>
    rw [LoopState.call_trace, LoopState.take_trace, List.append_assoc, handled_append]
    rfl
  | _ => simp [handled, Event.handles, Input.handler, Envelope.handler]

theorem entered_of_handled {t : List Event} {c : Call} (h : c ∈ handled t) : .enter c ∈ t := by
  obtain ⟨e, he, hc⟩ := List.mem_filterMap.mp h
  rcases e with k | d | ⟨d, x⟩
  · cases hc
  · cases d <;> cases hc <;> exact he
  · cases hc

/-- The stream gives the loop its next item, or has come to its end. -/
def FromStream (S : ℕ → Option (TaskFn σ ρ)) (n : ℕ) : Option (Input σ ρ) → Prop
  | some (.item f) => S n = some f
  | some .streamEnd => S n = none
  | _ => True

/-! ## What holds of the loop at any moment

Three records about the trace: the items entered are the first ones of the stream, `finished` is
called once and only at its end, and after a `Stop` or the closed mailbox only `stopped` is
called. -/

/-- The items drawn from the stream `S` so far. -/
structure Drawn (S : ℕ → Option (TaskFn σ ρ)) (s : LoopState σ ρ) : Prop where
  /-- they have been handled in order -/
  items : (handled s.trace).filter Call.ofStream = (List.range s.nextItem).map .item
  drawn : ∀ n < s.nextItem, (S n).isSome = true
  ended : s.streamEnded = true → S s.nextItem = none
  /-- a handler is run with its own item -/
  current : ∀ n f, s.pc = .running (.item n) f → S n = some f
  /-- no handler is left half-way -/
  left : s.pc.ended = false → ∀ n, .enter (.item n) ∈ s.trace →
    (∃ x, .leave (.item n) x ∈ s.trace) ∨ ∃ f, s.pc = .running (.item n) f

/-- The trace `pre` has handled all items of the stream `S`. -/
def Exhausts (S : ℕ → Option (TaskFn σ ρ)) (pre : List Event) : Prop :=
  ∃ m, (handled pre).filter Call.ofStream = (List.range m).map .item
    ∧ (∀ n < m, (S n).isSome = true ∧ ∃ x, .leave (.item n) x ∈ pre) ∧ S m = none

/-- The call of `finished`. -/
structure Finishes (S : ℕ → Option (TaskFn σ ρ)) (s : LoopState σ ρ) : Prop where
  /-- it is called when the stream ends -/
  once : s.trace.count (.enter (.hook .finished)) = s.streamEnded.toNat
  /-- after the last item -/
  at_end : Trace.Past (fun pre e => e = .enter (.hook .finished) →
    pre.getLast? = some (.taken .streamEnd) ∧ Exhausts S pre) s.trace
  /-- and no item comes after it -/
  last : Trace.Past (fun pre e =>
    .enter (.hook .finished) ∈ pre → ∀ n, e ≠ .enter (.item n)) s.trace

/-- The call of `stopped`. -/
structure Stops (s : LoopState σ ρ) : Prop where
  /-- it is called when a `Stop` or the end of the mailbox is taken -/
  once : s.trace.count (.enter (.hook .stopped)) = (endTaken s.trace).toNat
  /-- and nothing else is called after that -/
  last : Trace.Past (fun pre e => endTaken pre = true →
    e = .enter (.hook .stopped) ∨ e = .leave (.hook .stopped) .ok) s.trace
  ending : endTaken s.trace = true →
    s.pc = .stopping ∨ s.pc = .notifying ∨ s.pc.ended = true

theorem drawn_init (S : ℕ → Option (TaskFn σ ρ)) (a : σ) : Drawn S (LoopState.init a) where
  items := rfl
  drawn n h := by cases h
  ended h := by cases h
  current n f h := by cases h
  left _ n h := by cases h

theorem finishes_init (S : ℕ → Option (TaskFn σ ρ)) (a : σ) : Finishes S (LoopState.init a) where
  once := rfl
  at_end := Trace.past_nil _
  last := Trace.past_nil _

theorem stops_init (a : σ) : Stops (LoopState.init a : LoopState σ ρ) where
  once := rfl
  last := Trace.past_nil _
  ending h := by cases h

/-! ## One step

A step of the loop takes an item, the end of the stream, or neither; the lemmas on `nextItem` and on
the trace say so once, and the records follow from them. -/

variable {S : ℕ → Option (TaskFn σ ρ)}

/-- The items drawn, and the end of the stream. -/
theorem source_of_step (h : EventLoop.Step E s i s') :
    (s'.nextItem = s.nextItem ∧ s'.streamEnded = s.streamEnded
        ∧ (∀ f, i ≠ some (.item f)) ∧ i ≠ some .streamEnd)
      ∨ ((∃ f, i = some (.item f)) ∧ s.streamEnded = false ∧ s'.nextItem = s.nextItem + 1
        ∧ s'.streamEnded = false)
      ∨ (i = some .streamEnd ∧ s.streamEnded = false ∧ s'.nextItem = s.nextItem
        ∧ s'.streamEnded = true) := by
  cases h with
  | takeItem hpc hstream hopen f => exact .inr (.inl ⟨⟨f, rfl⟩, hopen, rfl, hopen⟩)
  | takeStreamEnd hpc hstream hopen => exact .inr (.inr ⟨rfl, hopen, rfl, rfl⟩)
  | _ => exact .inl ⟨rfl, rfl, nofun, nofun⟩

/-- The trace only grows. -/
theorem trace_of_step (h : EventLoop.Step E s i s') : s.trace <+: s'.trace := by
  cases h <;> simp

/-- A handler of an item is entered by being run. -/
theorem entered_of_step (h : EventLoop.Step E s i s') {n : ℕ}
    (hentered : .enter (.item n) ∈ s'.trace) :
    .enter (.item n) ∈ s.trace ∨ ∃ f, s'.pc = .running (.item n) f := by
  cases h with
  | takeItem hpc hstream hopen f =>
    simp only [LoopState.call_trace, LoopState.take_trace, List.append_assoc, List.mem_append]
      at hentered
    rcases hentered with hold | hnew
    · exact .inl hold
    · simp at hnew
      subst hnew
      exact .inr ⟨f, rfl⟩
  | _ => simp_all

/-- And it is left before the loop goes on. -/
theorem left_of_step (h : EventLoop.Step E s i s') {n : ℕ} {f : TaskFn σ ρ}
    (hpc : s.pc = .running (.item n) f) :
    s'.pc.ended = true ∨ ∃ x, .leave (.item n) x ∈ s'.trace := by
  cases h with
  | taskDone c g hpc' =>
    rw [hpc] at hpc'
    cases hpc'
    exact .inr ⟨.ok, by simp⟩
  | taskIgnored c g hpc' | taskCancelled c g hpc' =>
    rw [hpc] at hpc'
    cases hpc'
    exact .inr ⟨.expired, by simp⟩
  | panic => exact .inl rfl
  | _ => simp_all

theorem drawn_step (hdrawn : Drawn S s) (h : EventLoop.Step E s i s')
    (hstream : FromStream S s.nextItem i) : Drawn S s' where
  items := by
    rw [handled_of_step h, List.filter_append, hdrawn.items]
    -- no item is drawn, or the next one is, or the stream ends
    rcases source_of_step h with ⟨hnext, -, hitem, -⟩ | ⟨⟨f, rfl⟩, -, hnext, -⟩ | ⟨rfl, -, hnext, -⟩
    · have hnil : (Input.handler s.nextItem i).filter Call.ofStream = [] := by
        rcases i with _ | ⟨⟨k, f | _ | _⟩⟩ | _ | f | _ <;> first | rfl | exact absurd rfl (hitem f)
      rw [hnil, hnext, List.append_nil]
    · rw [hnext, List.range_succ, List.map_append]
      rfl
    · rw [hnext]
      exact List.append_nil _
  drawn n hn := by
    rcases source_of_step h with ⟨hnext, -⟩ | ⟨⟨f, rfl⟩, -, hnext, -⟩ | ⟨rfl, -, hnext, -⟩
    · exact hdrawn.drawn n (hnext ▸ hn)
    · rw [hnext] at hn
      rcases Nat.lt_succ_iff_lt_or_eq.mp hn with hold | rfl
      · exact hdrawn.drawn n hold
      · have hnew : S s.nextItem = some f := hstream
        rw [hnew]
        rfl
    · exact hdrawn.drawn n (hnext ▸ hn)
  ended hend := by
    rcases source_of_step h with ⟨hnext, hsame, -⟩ | ⟨-, -, -, hopen⟩ | ⟨rfl, -, hnext, -⟩
    · rw [hnext]
      exact hdrawn.ended (hsame ▸ hend)
    · cases hopen.symm.trans hend
    · rw [hnext]
      exact hstream
  current n f hpc := by
    cases h with
    | takeItem hpc' hstream' hopen g =>
      cases hpc
      exact hstream
    | panic | startedOk | startedErr | taskDone | taskIgnored | keepRestart => simp_all
    | _ => cases hpc
  left hend n hentered := by
    rcases entered_of_step h hentered with hold | hnew
    -- an item whose handler is not left yet is the one that is running
    · rcases hdrawn.left (EventLoop.not_ended_of_step h) n hold with ⟨x, hx⟩ | ⟨f, hpc⟩
      · exact .inl ⟨x, (trace_of_step h).subset hx⟩
      · rcases left_of_step h hpc with hended | hleft
        · cases hend.symm.trans hended
        · exact .inl hleft
    · exact .inr hnew

/-- At its end all items of the stream have been handled. -/
theorem exhausts_of_end (hdrawn : Drawn S s) (hpc : s.pc = .receiving)
    (hend : S s.nextItem = none) :
    Exhausts S (s.trace ++ [.taken .streamEnd]) := by
  have hitems : (handled (s.trace ++ [.taken .streamEnd])).filter Call.ofStream
      = (List.range s.nextItem).map .item := by
    rw [handled_append, List.filter_append, hdrawn.items]
    exact List.append_nil _
  -- each item's handler was left, since the loop waits again
  refine ⟨s.nextItem, hitems, fun n hn => ⟨hdrawn.drawn n hn, ?_⟩, hend⟩
  have hmem : Call.item n ∈ (handled s.trace).filter Call.ofStream := by
    rw [hdrawn.items]
    exact List.mem_map_of_mem (List.mem_range.mpr hn)
  rcases hdrawn.left (by rw [hpc]; rfl) n (entered_of_handled (List.mem_filter.mp hmem).1) with
    ⟨x, hx⟩ | ⟨f, hrun⟩
  · exact ⟨x, List.mem_append_left _ hx⟩
  · -- the loop waits, and runs no handler
    rw [hpc] at hrun
    cases hrun

theorem Finishes.not_finished (hfin : Finishes S s) (hopen : s.streamEnded = false) :
    .enter (.hook .finished) ∉ s.trace := by
  rw [← List.count_eq_zero, hfin.once, hopen]
  rfl

theorem finishes_step (hfin : Finishes S s) (hdrawn : Drawn S s) (h : EventLoop.Step E s i s')
    (hstream : FromStream S s.nextItem i) : Finishes S s' where
  once := by
    have honce := hfin.once
    cases h with
    | _ => simp_all
  at_end := by
    have hat := hfin.at_end
    cases h with
    -- only here is `finished` entered
    | takeStreamEnd hpc hstream' hopen =>
      have hexhausts := exhausts_of_end hdrawn hpc hstream
      simp_all
    | _ => simp_all
  last := by
    have hlast := hfin.last
    cases h with
    | takeItem hpc hstream' hopen f =>
      have hnot := hfin.not_finished hopen
      simp_all
    | _ => simp_all

theorem stops_step (hstops : Stops s) (h : EventLoop.Step E s i s') (hE : E.onStream = true)
    (hrefresh : s.pc ≠ .refreshStopping) : Stops s' where
  once := by
    have honce := hstops.once
    have hending := hstops.ending
    cases h <;> simp_all [Taken.endsLoop, Pc.ended]
  last := by
    have hlast := hstops.last
    have hending := hstops.ending
    cases h with
    | startedOk hpc | startedErr hpc => rcases hpc with hpc | hpc <;> simp_all [Pc.ended]
    | _ => simp_all [Taken.endsLoop, Pc.ended]
  ending hany := by
    have hending := hstops.ending
    cases h with
    | startedOk hpc | startedErr hpc => rcases hpc with hpc | hpc <;> simp_all [Pc.ended]
    | _ => simp_all [Taken.endsLoop, Pc.ended]


/-- Only `create` refreshes. -/
theorem no_refresh_step (hE : E.onStream = true) (hno : s.pc ≠ .refreshStopping)
    (h : EventLoop.Step E s i s') : s'.pc ≠ .refreshStopping := by
  cases h with
  | takeRestart hpc hstream => cases hE.symm.trans hstream
  | keepRestart hpc hstream => cases hE.symm.trans hstream
  | _ => simp_all

/-- A future that is dropped makes no calls. -/
theorem drawn_dropped (hdrawn : Drawn S s) : Drawn S (s.goto .dropped) where
  items := hdrawn.items
  drawn := hdrawn.drawn
  ended := hdrawn.ended
  current n f h := by cases h
  left h := by cases h

theorem stops_dropped (hstops : Stops s) : Stops (s.goto .dropped) where
  once := hstops.once
  last := hstops.last
  ending _ := .inr (.inr rfl)

/-! ## Every run

The loop's records need the stream to be the same throughout, and the world's invariants that no
payload is lost; no restart is ever queued, since none is asked for. -/

namespace World

variable {Q : Type → Type} [AsyncChannel Q] {w w' v : World Q σ ρ} {l : Label σ ρ} {a : σ}

/-- What the stream `S` gives the loop, it gives in its order. -/
def Streams (S : ℕ → Option (TaskFn σ ρ)) (w : World Q σ ρ) : Label σ ρ → Prop
  | .item f => S w.task.loop.nextItem = some f
  | .streamEnd => S w.task.loop.nextItem = none
  | _ => True

/-- What holds of a stream-handling actor at any moment. -/
structure StreamInv (S : ℕ → Option (TaskFn σ ρ)) (w : World Q σ ρ) : Prop where
  drawn : Drawn S w.task.loop
  finishes : Finishes S w.task.loop
  stops : Stops w.task.loop
  no_refresh : w.task.loop.pc ≠ .refreshStopping
  /-- the tasks run are those popped -/
  tasks : (handled w.task.loop.trace).filter (fun c => !c.ofStream)
    = w.popped.flatMap Envelope.handler
  noLoss : NoLoss w
  capacity : (state w.mailbox).capacity = none
  requests : RequestInv w
  no_restart : ∀ op ∈ w.ops, op.payload ≠ .restart

theorem streamInv_init (S : ℕ → Option (TaskFn σ ρ)) (a : σ) : StreamInv S (init Q ρ none a) where
  drawn := drawn_init S a
  finishes := finishes_init S a
  stops := stops_init a
  no_refresh := nofun
  tasks := rfl
  noLoss := noLoss_init none a
  capacity := by simp [init, ChannelState.fresh]
  requests := requestInv_init none a
  no_restart op h := by simp [init, ops] at h

/-- What the loop is fed with comes from the stream. -/
theorem fromStream_of_feeds (hfeeds : Feeds w l i v) (hstreams : Streams S w l) :
    FromStream S w.task.loop.nextItem i := by
  cases hfeeds with
  | item f => exact hstreams
  | streamEnd => exact hstreams
  | _ => trivial

/-- A payload that is popped is handled. -/
theorem tasks_of_feeds (hfeeds : Feeds w l i v) (n : ℕ) :
    v.popped.flatMap Envelope.handler
      = w.popped.flatMap Envelope.handler ++ (Input.handler n i).filter fun c => !c.ofStream := by
  cases hfeeds with
  | payload e hqueue hpopped =>
    have htask : e.handler.filter (fun c => !c.ofStream) = e.handler := by
      rcases e with ⟨k, f | _ | _⟩ <;> rfl
    rw [hpopped, List.flatMap_append, Input.handler, htask, List.flatMap_singleton]
  | poll hpopped | closed _ _ hpopped | item _ hpopped | streamEnd hpopped =>
    rw [hpopped]
    exact (List.append_nil _).symm

/-- **The step lemma of a stream-handling actor.** -/
theorem streamInv_step (hinv : StreamInv S w) (hE : E.onStream = true) (h : w.step E l = some w')
    (hstreams : Streams S w l) (hrestart : ∀ op, l = .begin op → op.payload ≠ .restart) :
    StreamInv S w' := by
  have hnoLoss := noLoss_step hinv.noLoss h (not_evicts_of_unbounded hinv.capacity)
  have hrequests := requestInv_step hinv.requests h
  have hops := ops_restart_of_step hinv.no_restart h hrestart
  obtain ⟨v, hact, rfl⟩ := step_cases h
  have hcapacity : (state v.settle.mailbox).capacity = none := by
    rw [settle_capacity, capacity_of_act hact, hinv.capacity]
  -- the future stays, or is dropped where it stands, or takes a step of its own
  rcases loop_of_act hact with ⟨hpopped, hsame | hdropped⟩ | ⟨i, hs, hfeeds⟩
  · constructor <;> try assumption
    all_goals rw [settle_task, hsame]
    · exact hinv.drawn
    · exact hinv.finishes
    · exact hinv.stops
    · exact hinv.no_refresh
    · rw [settle_popped, hpopped]
      exact hinv.tasks
  · constructor <;> try assumption
    all_goals rw [settle_task, hdropped]
    · exact drawn_dropped hinv.drawn
    · exact ⟨hinv.finishes.once, hinv.finishes.at_end, hinv.finishes.last⟩
    · exact stops_dropped hinv.stops
    · exact nofun
    · rw [settle_popped, hpopped]
      exact hinv.tasks
  -- a step of the loop draws from the stream `S`
  · have hstream := fromStream_of_feeds hfeeds hstreams
    constructor <;> try assumption
    all_goals rw [settle_task]
    · exact drawn_step hinv.drawn hs hstream
    · exact finishes_step hinv.finishes hinv.drawn hs hstream
    · exact stops_step hinv.stops hs hE hinv.no_refresh
    · exact no_refresh_step hE hinv.no_refresh hs
    · rw [settle_popped, tasks_of_feeds hfeeds w.task.loop.nextItem, handled_of_step hs,
        List.filter_append, hinv.tasks]

theorem streamInv_of_run {ls : List (Label σ ρ)} (hE : E.onStream = true)
    (hstreams : (machine Q ρ E none a).AllSteps ls fun u l _ => Streams S u l)
    (hrestart : (machine Q ρ E none a).AllSteps ls
      fun _ l _ => ∀ op, l = .begin op → op.payload ≠ .restart)
    (hw : (machine Q ρ E none a).Reaches ls w) : StreamInv S w := by
  refine hw.invariant_of_steps (I := StreamInv S) (streamInv_init S a) ?_
    (C := fun u l _ => Streams S u l ∧ ∀ op, l = .begin op → op.payload ≠ .restart) ?_
  · rintro u l u' hinv hstep ⟨hs, hr⟩
    exact streamInv_step hinv hE hstep hs hr
  · exact fun u l u' htakes => ⟨hstreams u l u' htakes, hrestart u l u' htakes⟩

/-! ### What `select!` can take

The branches of `select!` that are ready in a state, as steps of the world: a payload, an item, the
end of the stream. -/

variable (hE : E.onStream = true) (hpc : w.task.loop.pc = .receiving)

include hE hpc

/-- The oldest payload of the mailbox, whether the stream has ended or not. -/
theorem stream_receive {e : Envelope σ ρ} {rest : List (Envelope σ ρ)}
    (hqueue : w.queued = e :: rest) (hne : e.payload ≠ .restart) :
    ∃ w', w.step E .receive = some w' ∧ w'.popped = w.popped ++ [e]
      ∧ w'.task.loop.pc ≠ .panicked := by
  have htakes : ∃ s', E.step w.task.loop (some (.payload e)) = some s' ∧ s'.pc ≠ .panicked := by
    simp only [EventLoop.step, hE, if_true, EventLoop.createOnStream, hpc]
    rcases e with ⟨k, f | _ | _⟩
    · exact ⟨_, rfl, by simp⟩
    · exact ⟨_, rfl, by simp⟩
    · exact absurd rfl hne
  obtain ⟨s', hs, hpanic⟩ := htakes
  obtain ⟨w', hstep, hpop, rfl⟩ := receive_queued hqueue hs
  exact ⟨w', hstep, hpop, hpanic⟩

/-- An item of the stream. -/
theorem stream_item (hopen : w.task.loop.streamEnded = false) (f : TaskFn σ ρ) :
    ∃ w', w.step E (.item f) = some w'
      ∧ w'.task.loop.pc = .running (.item w.task.loop.nextItem) f := by
  have htakes : ∃ s', E.step w.task.loop (some (.item f)) = some s'
      ∧ s'.pc = .running (.item w.task.loop.nextItem) f := by
    simp only [EventLoop.step, hE, if_true, EventLoop.createOnStream, hpc, hopen]
    exact ⟨_, rfl, rfl⟩
  obtain ⟨s', hs, hpc'⟩ := htakes
  refine ⟨_, by simp only [step, act, LoopTask.step, hs]; rfl, ?_⟩
  rw [settle_task]
  exact hpc'

/-- The end of the stream. -/
theorem stream_end (hopen : w.task.loop.streamEnded = false) :
    ∃ w', w.step E .streamEnd = some w' ∧ w'.task.loop.pc = .finishing := by
  have htakes : ∃ s', E.step w.task.loop (some .streamEnd) = some s' ∧ s'.pc = .finishing := by
    simp only [EventLoop.step, hE, if_true, EventLoop.createOnStream, hpc, hopen]
    exact ⟨_, rfl, rfl⟩
  obtain ⟨s', hs, hpc'⟩ := htakes
  refine ⟨_, by simp only [step, act, LoopTask.step, hs]; rfl, ?_⟩
  rw [settle_task]
  exact hpc'

omit hpc

/-- After `finished` the loop waits again. -/
theorem stream_finished (hfin : w.task.loop.pc = .finishing) {b : σ}
    (hend : E.actor.finished w.task.loop.clock w.task.loop.actor = .returned b) :
    ∃ w', w.step E .poll = some w' ∧ w'.task.loop.pc = .receiving := by
  have hs : E.step w.task.loop none
      = some (w.task.loop.leave (.hook .finished) .ok b .receiving) := by
    simp only [EventLoop.step, hE, if_true, EventLoop.createOnStream, hfin,
      EventLoop.afterHook, hend]
  have hat : (w.task.loop.pc.atNotify && w.task.stop) = false := by rw [hfin]; rfl
  refine ⟨_, by simp only [step, act, LoopTask.step, hat, hs]; rfl, ?_⟩
  rw [settle_task, answer_task]
  rfl

omit hE

/-- The stream `S` and the mailbox, merged. -/
structure Merged (E : EventLoop σ) (S : ℕ → Option (TaskFn σ ρ)) (w : World Q σ ρ) : Prop where
  /-- what has been handled are the items drawn and the tasks popped, each in their order -/
  merged : Trace.Merge ((List.range w.task.loop.nextItem).map .item)
    (w.popped.flatMap Envelope.handler) (handled w.task.loop.trace)
  /-- the items are the first ones of the stream -/
  items : ∀ n < w.task.loop.nextItem, (S n).isSome = true
  own_item : ∀ n f, w.task.loop.pc = .running (.item n) f → S n = some f
  /-- the tasks are the first ones the mailbox has accepted -/
  accepted : w.popped <+: w.accepted
  own_task : ∀ k f, w.task.loop.pc = .running (.task k) f → w.Sent k (.task f)
  /-- and none is accepted twice -/
  once : (w.accepted.map Envelope.client).Nodup
  finishes : Finishes S w.task.loop
  stops : Stops w.task.loop
  /-- at `select!` the mailbox is served, also when the stream has ended -/
  serves : w.task.loop.pc = .receiving → ∀ e rest, w.queued = e :: rest →
    ∃ w', w.step E .receive = some w' ∧ w'.popped = w.popped ++ [e] ∧ w'.task.loop.pc ≠ .panicked
  closes : w.task.loop.pc = .receiving → w.queued = [] → w.closed = true →
    ∃ w', w.step E .receive = some w' ∧ w'.task.loop.pc = .stopping
  /-- and so is the stream, until it has ended -/
  yields : w.task.loop.pc = .receiving → w.task.loop.streamEnded = false →
    ∀ f, S w.task.loop.nextItem = some f → ∃ w', w.step E (.item f) = some w'
      ∧ w'.task.loop.pc = .running (.item w.task.loop.nextItem) f
  ends : w.task.loop.pc = .receiving → w.task.loop.streamEnded = false →
    S w.task.loop.nextItem = none → ∃ w', w.step E .streamEnd = some w'
      ∧ w'.task.loop.pc = .finishing
  resumes : w.task.loop.pc = .finishing →
    ∀ b, E.actor.finished w.task.loop.clock w.task.loop.actor = .returned b →
      ∃ w', w.step E .poll = some w' ∧ w'.task.loop.pc = .receiving

/-- **A stream and a mailbox are merged without loss.** For every actor, every stream, finite or
not, every sequence of operations without a restart on an unbounded mailbox and every choice of
`select!`. -/
theorem merges (E : EventLoop σ) (hE : E.onStream = true) (S : ℕ → Option (TaskFn σ ρ)) (a : σ)
    (ls : List (Label σ ρ))
    (hstreams : (machine Q ρ E none a).AllSteps ls fun u l _ => Streams S u l)
    (hrestart : (machine Q ρ E none a).AllSteps ls
      fun _ l _ => ∀ op, l = .begin op → op.payload ≠ .restart) (w : World Q σ ρ)
    (hw : (machine Q ρ E none a).Reaches ls w) : Merged E S w := by
  have hinv := streamInv_of_run hE hstreams hrestart hw
  exact
    { merged := by
        have hmerge := Trace.merge_filter Call.ofStream (handled w.task.loop.trace)
        rwa [hinv.drawn.items, hinv.tasks] at hmerge
      items := hinv.drawn.drawn
      own_item := hinv.drawn.current
      accepted := hinv.noLoss.in_order
      own_task := hinv.requests.running
      once := hinv.requests.ok.distinct
      finishes := hinv.finishes
      stops := hinv.stops
      serves := fun hpc e rest hqueue => stream_receive hE hpc hqueue
        (hinv.requests.restart_not_queued hinv.no_restart e (hqueue ▸ List.mem_cons_self))
      closes := receive_closed
      yields := fun hpc hopen f _ => stream_item hE hpc hopen f
      ends := fun hpc hopen _ => stream_end hE hpc hopen
      resumes := fun hfin _ => stream_finished hE hfin }

/-- The item of a stream of one. -/
def addTen : TaskFn ℕ ℕ := fun n => .completed (n + 10) none

def oneItem : ℕ → Option (TaskFn ℕ ℕ)
  | 0 => some addTen
  | _ => none

/-- A message is sent, but the item comes first; then the message, the stream's end and a `Stop`. -/
def mergedRun : List (Label ℕ ℕ) :=
  [.poll, .poll, .begin (Addr.send fun n => .completed (n + 1) none), .advance 0, .advance 0,
    .item addTen, .poll, .receive, .poll, .streamEnd, .poll, .begin Addr.stop, .advance 1,
    .advance 1, .receive, .poll]

theorem merges_oneItem :
    ∃ w : World ChannelState ℕ ℕ, (machine ChannelState ℕ streamActor none 0).Run mergedRun w
      ∧ Merged streamActor oneItem w ∧ handled w.task.loop.trace = [.item 0, .task 0]
      ∧ w.task.loop.actor = 11 := by
  have hcheck : (machine ChannelState ℕ streamActor none 0).checkFrom
      (fun u l _ => match l with
        | .item _ => u.task.loop.nextItem == 0
        | .streamEnd => u.task.loop.nextItem == 1
        | _ => true)
      (init ChannelState ℕ none 0) mergedRun = true := rfl
  refine ⟨_, .of_exec rfl, ?_, rfl, rfl⟩
  refine merges streamActor rfl oneItem 0 mergedRun (fun u l u' htakes => ?_)
    (fun u l u' htakes op hl => ?_) _ (Machine.Run.of_exec rfl).reaches
  · have hnext := Machine.AllSteps.of_check hcheck u l u' htakes
    have hmem := htakes.mem
    cases l with
    | item f =>
      have hf : f = addTen := by simpa [mergedRun] using hmem
      have hnext : u.task.loop.nextItem = 0 := by simpa using hnext
      show oneItem _ = some f
      rw [hnext, hf]
      rfl
    | streamEnd =>
      have hnext : u.task.loop.nextItem = 1 := by simpa using hnext
      show oneItem _ = none
      rw [hnext]
      rfl
    | _ => trivial
  · subst hl
    have hmem := htakes.mem
    have hop : op = (Addr.send fun n => .completed (n + 1) none) ∨ op = Addr.stop := by
      simpa [mergedRun] using hmem
    rcases hop with rfl | rfl <;> nofun

end World

end Hannibal
