import KvRaft.LTS.Basic
import Mathlib.Data.Finset.Erase
import Mathlib.Data.Finset.SDiff
import Mathlib.Data.Finset.Lattice.Basic
import Mathlib.Logic.Function.Basic

/-!
# Descriptor contexts of the I/O manager

`IOManager::addEvent`, `delEvent`, `cancelEvent`, `cancelAll` and the part of `idle` that processes
one result of `epoll_wait`, from the point where they hold `FdContext::mutex` on.  A context is
named by its address; which one a descriptor leads to is the matter of `fdContexts_`.

A failed `CondPanic` is an error (`Panic`), as is the call of a scheduler that is a null pointer.
The two bits of an event mask are a set of events, and `EPOLLIN` and `EPOLLOUT` are the events
`READ` and `WRITE`, which have the same values.
-/

namespace KvRaft

/-- `Event`, without `NONE`. -/
inductive Event where
  | read
  | write
  deriving DecidableEq

/-- What a scheduler runs. -/
inductive Task where
  | fiber (id : ℕ)
  | cb (id : ℕ)
  deriving DecidableEq

/-- Where the process ends. -/
inductive Panic where
  /-- `triggerEvent` : "event hasn't been registed". -/
  | notRegistered
  /-- `addEvent` : "addevent error, fd = ". -/
  | addEvent
  /-- `addEvent` : "event_ctx is nullptr". -/
  | contextInUse
  /-- `cancelAll` : "fd not totally clear". -/
  | notClear
  /-- `ctx.scheduler` is a null pointer. -/
  | nullScheduler
  deriving DecidableEq

/-- `EventContext`.  The number of the registration it belongs to is a record of the model, which
the code does not have and nothing depends on. -/
structure EventContext where
  scheduler : Option ℕ := none
  fiber : Option ℕ := none
  cb : Option ℕ := none
  registration : Option ℕ := none
  deriving DecidableEq

/-- What `triggerEvent` hands to the scheduler: the callback, or else the fiber. -/
def EventContext.task (ctx : EventContext) : Option Task :=
  match ctx.cb with
  | some cb => some (.cb cb)
  | none => ctx.fiber.map .fiber

structure FdContext where
  read : EventContext := {}
  write : EventContext := {}
  fd : ℕ
  events : Finset Event := ∅
  deriving DecidableEq

namespace FdContext

def getEveContext (c : FdContext) : Event → EventContext
  | .read => c.read
  | .write => c.write

/-- Assignment to what `getEveContext` returns a reference to. -/
def setEveContext (c : FdContext) (event : Event) (ctx : EventContext) : FdContext :=
  match event with
  | .read => { c with read := ctx }
  | .write => { c with write := ctx }

def resetEveContext (c : FdContext) (event : Event) : FdContext := c.setEveContext event {}

/-- The context afterwards, and the event context whose task goes to its scheduler. -/
def triggerEvent (c : FdContext) (event : Event) : Except Panic (FdContext × EventContext) :=
  if event ∉ c.events then .error .notRegistered
  else
    let c := { c with events := c.events.erase event }
    let ctx := c.getEveContext event
    if ctx.scheduler = none then .error .nullScheduler
    else .ok (c.resetEveContext event, ctx)

end FdContext

/-- A call of `addEvent` that has registered an event. -/
structure Registration where
  context : ℕ
  event : Event
  scheduler : ℕ
  task : Task
  deriving DecidableEq

/-- The operations of `epoll_ctl`. -/
inductive EpollOp where
  | add
  | mod
  | del
  deriving DecidableEq

/-- `epoll_event`, as it is in `idle`: the events that are ready, and whether one of the bits
`EPOLLERR` and `EPOLLHUP` is set. -/
structure EpollEvent where
  events : Finset Event
  errHup : Bool
  deriving DecidableEq

structure IOManager where
  /-- The contexts, by address. -/
  contexts : ℕ → FdContext
  /-- What the kernel watches a descriptor for, `none` if it is not in the epoll set. -/
  interest : ℕ → Option (Finset Event)
  pendingEventCnt : ℤ
  /-- What was handed to the schedulers: the event contexts that were triggered, in order. -/
  triggered : List EventContext
  /-- The calls of `addEvent` that have registered an event, in order. -/
  registrations : List Registration

namespace IOManager

variable (io : IOManager)

def setContext (a : ℕ) (c : FdContext) : IOManager :=
  { io with contexts := Function.update io.contexts a c }

/-- A successful call of `epoll_ctl`. -/
def epollCtl (op : EpollOp) (fd : ℕ) (events : Finset Event) : IOManager :=
  { io with
    interest := Function.update io.interest fd
      (match op with
      | .add | .mod => some events
      | .del => none) }

/-- `triggerEvent` and the decrement of `pendingEventCnt_` behind it. -/
def trigger (a : ℕ) (event : Event) : Except Panic IOManager := do
  let (c, ctx) ← (io.contexts a).triggerEvent event
  return { io.setContext a c with
    pendingEventCnt := io.pendingEventCnt - 1
    triggered := io.triggered ++ [ctx] }

/-- `addEvent` from the lock on, by a fiber of a thread that has a scheduler; `epoll` tells if
`epoll_ctl` succeeds. -/
def addEvent (a fd : ℕ) (event : Event) (scheduler fiber : ℕ) (cb : Option ℕ) (epoll : Bool) :
    Except Panic (ℤ × IOManager) :=
  let c := io.contexts a
  if event ∈ c.events then .error .addEvent
  else if !epoll then .ok (-1, io)
  else
    let ctx := c.getEveContext event
    if ctx.scheduler.isSome || ctx.fiber.isSome || ctx.cb.isSome then .error .contextInUse
    else
      let op := if c.events = ∅ then .add else .mod
      let ctx : EventContext :=
        { scheduler := some scheduler
          fiber := if cb.isNone then some fiber else none
          cb := cb
          registration := some io.registrations.length }
      let c := { c with events := insert event c.events }
      .ok (0, { (io.epollCtl op fd c.events).setContext a (c.setEveContext event ctx) with
        pendingEventCnt := io.pendingEventCnt + 1
        registrations := io.registrations ++
          [⟨a, event, scheduler, (cb.map .cb).getD (.fiber fiber)⟩] })

/-- The operation with which an event is taken out of the epoll set. -/
def removeOp (left : Finset Event) : EpollOp := if left = ∅ then .del else .mod

/-- `delEvent` from the lock on. -/
def delEvent (a fd : ℕ) (event : Event) (epoll : Bool) : Bool × IOManager :=
  let c := io.contexts a
  if event ∉ c.events then (false, io)
  else if !epoll then (false, io)
  else
    let newEvents := c.events.erase event
    let io := io.epollCtl (removeOp newEvents) fd newEvents
    (true, { io.setContext a ({ c with events := newEvents }.resetEveContext event) with
      pendingEventCnt := io.pendingEventCnt - 1 })

/-- `cancelEvent` from the lock on. -/
def cancelEvent (a fd : ℕ) (event : Event) (epoll : Bool) : Except Panic (Bool × IOManager) :=
  let c := io.contexts a
  if event ∉ c.events then .ok (false, io)
  else if !epoll then .ok (false, io)
  else do
    let newEvents := c.events.erase event
    let io ← (io.epollCtl (removeOp newEvents) fd newEvents).trigger a event
    return (true, io)

/-- `if (events & event) { triggerEvent(event); --pendingEventCnt_; }`. -/
def triggerIf (events : Finset Event) (a : ℕ) (event : Event) : Except Panic IOManager :=
  if event ∈ events then io.trigger a event else .ok io

/-- `cancelAll` from the lock on. -/
def cancelAll (a fd : ℕ) (epoll : Bool) : Except Panic (Bool × IOManager) :=
  if (io.contexts a).events = ∅ then .ok (false, io)
  else if !epoll then .ok (false, io)
  else do
    let io := io.epollCtl .del fd ∅
    let io ← io.triggerIf (io.contexts a).events a .read
    let io ← io.triggerIf (io.contexts a).events a .write
    if (io.contexts a).events = ∅ then return (true, io) else throw .notClear

/-- The events that `idle` takes for those that happened.  After an error or a hang-up these are
also the ones registered. -/
def realEvents (event : EpollEvent) (registered : Finset Event) : Finset Event :=
  if event.errHup then event.events ∪ registered else event.events

/-- What `idle` does with one result of `epoll_wait`, from the lock on. -/
def processEvent (a : ℕ) (event : EpollEvent) (epoll : Bool) : Except Panic IOManager :=
  let c := io.contexts a
  let real := realEvents event c.events
  if c.events ∩ real = ∅ then .ok io
  else if !epoll then .ok io
  else do
    let leftEvents := c.events \ real
    let io := io.epollCtl (removeOp leftEvents) c.fd leftEvents
    let io ← io.triggerIf real a .read
    io.triggerIf real a .write

end IOManager

end KvRaft
