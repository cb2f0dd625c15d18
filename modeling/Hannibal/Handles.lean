import Hannibal.Lib.Machine
import Hannibal.Lib.Refs

/-!
# Hannibal.Handles — what the handles of an actor hold

`Addr`, `OwningAddr`, `Sender`, `Caller`, their weak counterparts and the `Context`, with the clones
of the channel's sending side that each of them and each closure in it has captured (`addr.rs`,
`addr/*.rs`, `context.rs`). A boxed closure is the record of what it has captured.

* **`Sender.new`**, **`Caller.new`** — where the closures are built.
* **`Handle.use`** — one operation on one handle.
* **`HandleWorld.step`** — an operation on one of the handles that are alive.
-/

namespace Hannibal

open Lts Refs

/-- `Tx` and `WeakTx` (`channel.rs`). -/
abbrev Tx := Strong
abbrev WeakTx := Weak

/-- `Core` (`context/core.rs`): the id of the actor, and which flag and which future it shares. -/
structure Core where
  id : ℕ
  runningFlag : ℕ
  stopFuture : ℕ
  deriving DecidableEq, Repr

structure Addr where
  tx : Tx
  core : Core
  deriving DecidableEq, Repr

structure WeakAddr where
  core : Core
  weakTx : WeakTx
  deriving DecidableEq, Repr

/-- `Addr` together with the join handle of the loop; the latter holds no sender. -/
structure OwningAddr where
  addr : Addr
  deriving DecidableEq, Repr

/-- A closure that has captured a `Tx` and a `Core`. -/
structure TxFn where
  tx : Tx
  core : Core
  deriving DecidableEq, Repr

/-- A closure that has captured a `WeakTx` and a `Core`. -/
structure WeakTxFn where
  weakTx : WeakTx
  core : Core
  deriving DecidableEq, Repr

structure Sender where
  core : Core
  sendFn : TxFn
  trySendFn : TxFn
  forceSendFn : TxFn
  downgradeFn : WeakTxFn
  deriving DecidableEq, Repr

structure WeakSender where
  core : Core
  upgradeFn : WeakTxFn
  deriving DecidableEq, Repr

/-- `Caller`. The closure that downgrades has captured the one that upgrades. -/
structure Caller where
  core : Core
  callFn : TxFn
  downgradeFn : WeakTxFn × Core
  deriving DecidableEq, Repr

structure WeakCaller where
  core : Core
  upgradeFn : WeakTxFn
  deriving DecidableEq, Repr

/-- What of the `Context` matters here. -/
structure ContextRefs where
  core : Core
  weakTx : WeakTx
  deriving DecidableEq, Repr

variable {C : Type} [RefCounted C]

def TxFn.clone (fn : TxFn) : Eff C TxFn := do return ⟨← fn.tx.clone, fn.core⟩

namespace Sender

def new (tx : Tx) (core : Core) : Eff C Sender := do
  let weakTx := tx.downgrade
  let sendFn : TxFn := ⟨← tx.clone, core⟩
  let trySendFn : TxFn := ⟨← tx.clone, core⟩
  let forceSendFn : TxFn := ⟨tx, core⟩
  let downgradeFn : WeakTxFn := ⟨weakTx, core⟩
  return ⟨core, sendFn, trySendFn, forceSendFn, downgradeFn⟩

def clone (s : Sender) : Eff C Sender := do
  return ⟨s.core, ← s.sendFn.clone, ← s.trySendFn.clone, ← s.forceSendFn.clone, s.downgradeFn⟩

def drop (s : Sender) : Eff C Unit := do
  s.sendFn.tx.drop
  s.trySendFn.tx.drop
  s.forceSendFn.tx.drop

/-- `downgrade_fn`. -/
def downgrade (s : Sender) : WeakSender := ⟨s.downgradeFn.core, s.downgradeFn⟩

end Sender

namespace WeakSender

def fromWeakTx (weakTx : WeakTx) (core : Core) : WeakSender := ⟨core, ⟨weakTx, core⟩⟩

/-- `WeakSender::new`: the `Tx` it is given ends here. -/
def new (tx : Tx) (core : Core) : Eff C WeakSender := do
  let weak := fromWeakTx tx.downgrade core
  tx.drop
  return weak

def upgrade (w : WeakSender) : Eff C (Option Sender) := do
  match ← w.upgradeFn.weakTx.upgrade with
  | some tx => return some (← Sender.new tx w.upgradeFn.core)
  | none => return none

end WeakSender

namespace Caller

def new (tx : Tx) (core : Core) : Eff C Caller := do
  let weakTx := tx.downgrade
  let callFn : TxFn := ⟨tx, core⟩
  let upgrade : WeakTxFn := ⟨weakTx, core⟩
  return ⟨core, callFn, (upgrade, core)⟩

def clone (c : Caller) : Eff C Caller := do return ⟨c.core, ← c.callFn.clone, c.downgradeFn⟩

def drop (c : Caller) : Eff C Unit := c.callFn.tx.drop

def downgrade (c : Caller) : WeakCaller := ⟨c.downgradeFn.2, c.downgradeFn.1⟩

end Caller

namespace WeakCaller

def fromWeakTx (weakTx : WeakTx) (core : Core) : WeakCaller := ⟨core, ⟨weakTx, core⟩⟩

def new (tx : Tx) (core : Core) : Eff C WeakCaller := do
  let weak := fromWeakTx tx.downgrade core
  tx.drop
  return weak

def upgrade (w : WeakCaller) : Eff C (Option Caller) := do
  match ← w.upgradeFn.weakTx.upgrade with
  | some tx => return some (← Caller.new tx w.upgradeFn.core)
  | none => return none

end WeakCaller

namespace Addr

def clone (a : Addr) : Eff C Addr := do return ⟨← a.tx.clone, a.core⟩

def drop (a : Addr) : Eff C Unit := a.tx.drop

/-- `From<Addr<A>> for Sender<M>`: a clone goes on, the address itself ends here. -/
def intoSender (a : Addr) : Eff C Sender := do
  let s ← Sender.new (← a.tx.clone) a.core
  a.drop
  return s

def intoCaller (a : Addr) : Eff C Caller := do
  let c ← Caller.new (← a.tx.clone) a.core
  a.drop
  return c

def intoWeakSender (a : Addr) : Eff C WeakSender := do
  let w ← WeakSender.new (← a.tx.clone) a.core
  a.drop
  return w

def intoWeakCaller (a : Addr) : Eff C WeakCaller := do
  let w ← WeakCaller.new (← a.tx.clone) a.core
  a.drop
  return w

/-- `From<&Addr<A>> for Sender<M>`, and so on. -/
def toSender (a : Addr) : Eff C Sender := do Sender.new (← a.tx.clone) a.core
def toWeakSender (a : Addr) : Eff C WeakSender := do WeakSender.new (← a.tx.clone) a.core
def toWeakCaller (a : Addr) : Eff C WeakCaller := do WeakCaller.new (← a.tx.clone) a.core
def toWeakAddr (a : Addr) : WeakAddr := ⟨a.core, a.tx.downgrade⟩

def downgrade (a : Addr) : WeakAddr := a.toWeakAddr
def sender (a : Addr) : Eff C Sender := do (← a.clone).intoSender
def caller (a : Addr) : Eff C Caller := do (← a.clone).intoCaller
def weakSender (a : Addr) : Eff C WeakSender := do (← a.clone).intoWeakSender
def weakCaller (a : Addr) : Eff C WeakCaller := do (← a.clone).intoWeakCaller

end Addr

namespace WeakAddr

def upgrade (w : WeakAddr) : Eff C (Option Addr) := do
  return (← w.weakTx.upgrade).map fun tx => ⟨tx, w.core⟩

def sender (w : WeakAddr) : WeakSender := .fromWeakTx w.weakTx w.core
def caller (w : WeakAddr) : WeakCaller := .fromWeakTx w.weakTx w.core

end WeakAddr

namespace ContextRefs

def weakAddress (x : ContextRefs) : WeakAddr := ⟨x.core, x.weakTx⟩
def weakSender (x : ContextRefs) : WeakSender := .fromWeakTx x.weakTx x.core
def weakCaller (x : ContextRefs) : WeakCaller := .fromWeakTx x.weakTx x.core

end ContextRefs

/-- A handle of the actor. -/
inductive Handle where
  | addr (a : Addr)
  | owningAddr (o : OwningAddr)
  | sender (s : Sender)
  | caller (c : Caller)
  | weakAddr (w : WeakAddr)
  | weakSender (w : WeakSender)
  | weakCaller (w : WeakCaller)
  deriving DecidableEq, Repr

/-- The operations on a handle. `into…` consumes an `Addr`, `to…` borrows it; `own` and `detach` go
to an `OwningAddr` and back. -/
inductive HandleOp where
  | clone | drop | downgrade | upgrade
  | sender | caller | weakSender | weakCaller
  | intoSender | intoCaller | intoWeakSender | intoWeakCaller
  | toSender | toWeakSender | toWeakCaller | toWeakAddr
  | own | detach
  deriving DecidableEq, Repr

namespace Handle

/-- The clones of the sending side a handle holds. -/
def txs : Handle → List Tx
  | addr a => [a.tx]
  | owningAddr o => [o.addr.tx]
  | sender s => [s.sendFn.tx, s.trySendFn.tx, s.forceSendFn.tx]
  | caller c => [c.callFn.tx]
  | weakAddr _ | weakSender _ | weakCaller _ => []

/-- The `Core`s it holds, itself and in its closures. -/
def cores : Handle → List Core
  | addr a => [a.core]
  | owningAddr o => [o.addr.core]
  | sender s => [s.core, s.sendFn.core, s.trySendFn.core, s.forceSendFn.core, s.downgradeFn.core]
  | caller c => [c.core, c.callFn.core, c.downgradeFn.1.core, c.downgradeFn.2]
  | weakAddr w => [w.core]
  | weakSender w => [w.core, w.upgradeFn.core]
  | weakCaller w => [w.core, w.upgradeFn.core]

/-- `Addr`, `OwningAddr`, `Sender` and `Caller` are the strong handles. -/
def strong : Handle → Bool
  | addr _ | owningAddr _ | sender _ | caller _ => true
  | weakAddr _ | weakSender _ | weakCaller _ => false

end Handle

/-- What an operation does to the handle it is used on: whether that one is still there, and the
effect, with the new handle if there is one. -/
structure Use (C : Type) where
  keeps : Bool
  effect : Eff C (Option Handle)

namespace Handle

/-- The operations of an `&Addr`. -/
def useAddr (a : Addr) : HandleOp → Option (Use C)
  | .clone => some ⟨true, return some (.addr (← a.clone))⟩
  | .downgrade => some ⟨true, return some (.weakAddr a.downgrade)⟩
  | .sender => some ⟨true, return some (.sender (← a.sender))⟩
  | .caller => some ⟨true, return some (.caller (← a.caller))⟩
  | .weakSender => some ⟨true, return some (.weakSender (← a.weakSender))⟩
  | .weakCaller => some ⟨true, return some (.weakCaller (← a.weakCaller))⟩
  | .toSender => some ⟨true, return some (.sender (← a.toSender))⟩
  | .toWeakSender => some ⟨true, return some (.weakSender (← a.toWeakSender))⟩
  | .toWeakCaller => some ⟨true, return some (.weakCaller (← a.toWeakCaller))⟩
  | .toWeakAddr => some ⟨true, return some (.weakAddr a.toWeakAddr)⟩
  | _ => none

/-- One operation on one handle; `none` where the type has no such operation. -/
def use : Handle → HandleOp → Option (Use C)
  | addr a, .drop => some ⟨false, do a.drop; return none⟩
  | addr a, .intoSender => some ⟨false, return some (.sender (← a.intoSender))⟩
  | addr a, .intoCaller => some ⟨false, return some (.caller (← a.intoCaller))⟩
  | addr a, .intoWeakSender => some ⟨false, return some (.weakSender (← a.intoWeakSender))⟩
  | addr a, .intoWeakCaller => some ⟨false, return some (.weakCaller (← a.intoWeakCaller))⟩
  | addr a, .own => some ⟨false, return some (.owningAddr ⟨a⟩)⟩
  | addr a, op => useAddr a op
  | owningAddr o, .drop => some ⟨false, do o.addr.drop; return none⟩
  | owningAddr o, .detach => some ⟨false, return some (.addr o.addr)⟩
  | owningAddr o, op => useAddr o.addr op
  | sender s, .clone => some ⟨true, return some (.sender (← s.clone))⟩
  | sender s, .drop => some ⟨false, do s.drop; return none⟩
  | sender s, .downgrade => some ⟨true, return some (.weakSender s.downgrade)⟩
  | caller c, .clone => some ⟨true, return some (.caller (← c.clone))⟩
  | caller c, .drop => some ⟨false, do c.drop; return none⟩
  | caller c, .downgrade => some ⟨true, return some (.weakCaller c.downgrade)⟩
  | weakAddr w, .clone => some ⟨true, return some (.weakAddr w)⟩
  | weakAddr _, .drop => some ⟨false, return none⟩
  | weakAddr w, .upgrade => some ⟨true, return (← w.upgrade).map .addr⟩
  | weakAddr w, .sender => some ⟨true, return some (.weakSender w.sender)⟩
  | weakAddr w, .caller => some ⟨true, return some (.weakCaller w.caller)⟩
  | weakSender w, .clone => some ⟨true, return some (.weakSender w)⟩
  | weakSender _, .drop => some ⟨false, return none⟩
  | weakSender w, .upgrade => some ⟨true, return (← w.upgrade).map .sender⟩
  | weakCaller w, .clone => some ⟨true, return some (.weakCaller w)⟩
  | weakCaller _, .drop => some ⟨false, return none⟩
  | weakCaller w, .upgrade => some ⟨true, return (← w.upgrade).map .caller⟩
  | _, _ => none

end Handle

/-- The handles that are alive, the `Context` while the loop owns it, and the channel. -/
structure HandleWorld (C : Type) where
  cell : C
  handles : List Handle
  context : Option ContextRefs

/-- Everything that can happen next: an operation on a handle, a weak handle from the `Context`, or
the loop future is gone, with the receiver and the `Context`. -/
inductive HandleLabel where
  | use (i : ℕ) (op : HandleOp)
  | weakAddress
  | weakSender
  | weakCaller
  | finish
  deriving DecidableEq, Repr

namespace HandleWorld

/-- What `EventLoop::from_channel` and `EventLoop::create` leave: one `Addr`, and in the loop future
the receiver and the `Context`. -/
def create (C : Type) [RefCounted C] (core : Core) : HandleWorld C :=
  let tx : Tx := ⟨⟩
  ⟨RefCounted.new, [.addr ⟨tx, core⟩], some ⟨core, tx.downgrade⟩⟩

/-- An operation on handle `i`. -/
def use (w : HandleWorld C) (i : ℕ) (op : HandleOp) : Option (HandleWorld C) :=
  match w.handles[i]? with
  | none => none
  | some h => (h.use op).map fun u =>
    let (new, cell) := u.effect w.cell
    { w with
      cell, handles := (if u.keeps then w.handles else w.handles.eraseIdx i) ++ new.toList }

/-- The `Context` hands out a weak handle. -/
def offer (w : HandleWorld C) (f : ContextRefs → Handle) : Option (HandleWorld C) :=
  w.context.map fun x => { w with handles := w.handles ++ [f x] }

def step (w : HandleWorld C) : HandleLabel → Option (HandleWorld C)
  | .use i op => w.use i op
  | .weakAddress => w.offer fun x => .weakAddr x.weakAddress
  | .weakSender => w.offer fun x => .weakSender x.weakSender
  | .weakCaller => w.offer fun x => .weakCaller x.weakCaller
  | .finish => some { w with cell := RefCounted.dropReceiver w.cell, context := none }

def machine (C : Type) [RefCounted C] (core : Core) : Machine (HandleWorld C) HandleLabel :=
  ⟨create C core, step⟩

end HandleWorld

end Hannibal
