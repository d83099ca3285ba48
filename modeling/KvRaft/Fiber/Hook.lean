import KvRaft.Fiber.Context

/-!
# Hooked calls

The hooked I/O calls run in `do_io`, which tries the system call and suspends the fiber in the I/O
manager when it returns `EAGAIN`.  A hooked `close` wakes the calls that are suspended on its
descriptor through `cancelAll` and frees the number.  A woken call goes back to `retry` when its
fiber is scheduled again.  It does not look at its `FdCtx` a second time, and `m_isClosed` is never
set.

* `Hook.Spares` : a call that was suspended at a close makes no system call on a later file and
  returns an error.
* `Hook.Settled` : the number is not given out, and the calls do not try again, before the close is
  over and the calls that it found suspended have returned; and `close` does reach these calls.
-/

namespace KvRaft

/-- `FdCtx`.  A timeout of -1 is `none`. -/
structure FdCtx where
  isSocket : Bool
  userNonblock : Bool := false
  isClosed : Bool := false
  recvTimeout : Option ℕ := none
  sendTimeout : Option ℕ := none
  deriving DecidableEq

namespace FdCtx

/-- `FdCtx::FdCtx`.  `fstat` fails if no file has the number. -/
def init (file : Option ℕ) : FdCtx := { isSocket := file.isSome }

/-- The timeout of `SO_RCVTIMEO` or `SO_SNDTIMEO`, which go with `READ` and `WRITE`. -/
def getTimeout (ctx : FdCtx) : Event → Option ℕ
  | .read => ctx.recvTimeout
  | .write => ctx.sendTimeout

def setTimeout (ctx : FdCtx) (event : Event) (v : Option ℕ) : FdCtx :=
  match event with
  | .read => { ctx with recvTimeout := v }
  | .write => { ctx with sendTimeout := v }

end FdCtx

/-- Where a call of `do_io` is. -/
inductive IoPc where
  /-- Before `fun`, of whose result it makes nothing. -/
  | direct
  | retry
  /-- `fun` has returned `EAGAIN`. -/
  | again
  /-- Before `addEvent`. -/
  | adding
  | suspended
  /-- Its fiber is a task of the scheduler. -/
  | woken
  | returned (ok : Bool)
  deriving DecidableEq

/-- A result of a system call. -/
inductive SysResult where
  | ok
  | eintr
  | eagain
  | error
  deriving DecidableEq

/-- A call of `do_io`. -/
structure IoCall where
  fd : ℕ
  event : Event
  timeout : Option ℕ := none
  pc : IoPc
  /-- `tinfo->cnacelled`. -/
  cancelled : Bool := false
  /-- A timer has been added. -/
  timed : Bool := false
  /-- The files that it has made system calls on, a record. -/
  touched : List ℕ := []
  /-- The files that there had been when a close first found it suspended, a record. -/
  closed : Option ℕ := none
  deriving DecidableEq

/-- The section of `close` that comes next. -/
inductive CloseStage where
  | cancelAll
  | del
  | closeF
  | done
  deriving DecidableEq

/-- A call of `close`. -/
structure CloseCall where
  fd : ℕ
  stage : CloseStage
  deriving DecidableEq

/-- The hooked calls, with what they use of the kernel, `FdManager` and `IOManager`. -/
structure Hook where
  /-- The file that has a number.  Files are numbered as they are created. -/
  files : ℕ → Option ℕ
  nextFile : ℕ
  /-- The descriptors in the epoll set. -/
  interest : ℕ → Bool
  /-- `FdManager::m_datas`. -/
  datas : ℕ → Option FdCtx
  /-- The calls that are registered in the contexts of the I/O manager. -/
  events : ℕ → Event → Option ℕ
  calls : List IoCall
  closes : List CloseCall

inductive HookAction where
  /-- The kernel creates a socket, for `socket` or `accept`. -/
  | socket (fd : ℕ)
  /-- `FdMgr::GetInstance()->get(fd, true)`. -/
  | get (fd : ℕ)
  /-- `fcntl` and `ioctl`. -/
  | setUserNonblock (fd : ℕ) (v : Bool)
  /-- `setsockopt`. -/
  | setTimeout (fd : ℕ) (event : Event) (v : Option ℕ)
  | doIo (fd : ℕ) (event : Event)
  | syscall (c : ℕ) (r : SysResult)
  | addTimer (c : ℕ)
  | addEvent (c : ℕ)
  /-- The callback of a timer sets `cnacelled`. -/
  | expire (c : ℕ)
  /-- `idle` or `cancelEvent` trigger an event. -/
  | trigger (fd : ℕ) (event : Event)
  | resume (c : ℕ)
  /-- `close` is called, on a thread of an I/O manager or not. -/
  | close (fd : ℕ) (iom : Bool)
  | closeNext (k : ℕ)
  deriving DecidableEq

namespace IoCall

/-- The system call of a call at `direct` or `retry`. -/
def syscall (call : IoCall) (file : Option ℕ) (r : SysResult) : IoCall :=
  match file with
  | none => { call with pc := .returned false }
  | some g =>
    { call with
      touched := call.touched ++ [g]
      pc := match r with
        | .ok => .returned true
        | .eintr => if call.pc = .retry then .retry else .returned false
        | .eagain => if call.pc = .retry then .again else .returned false
        | .error => .returned false }

/-- The call after `yield`. -/
def resume (call : IoCall) : IoCall :=
  { call with pc := if call.cancelled then .returned false else .retry }

/-- A close of `fd` finds the call. -/
def mark (fd files : ℕ) (call : IoCall) : IoCall :=
  if call.fd = fd ∧ (call.pc = .suspended ∨ call.pc = .woken) then
    { call with closed := call.closed.or (some files) }
  else call

theorem mark_eq (fd files : ℕ) (call : IoCall) :
    (call.mark fd files).fd = call.fd ∧ (call.mark fd files).event = call.event ∧
      (call.mark fd files).pc = call.pc := by
  unfold mark
  split_ifs <;> exact ⟨rfl, rfl, rfl⟩

end IoCall

namespace Hook

variable (h : Hook)

def init : Hook where
  files := fun _ => none
  nextFile := 0
  interest := fun _ => false
  datas := fun _ => none
  events := fun _ _ => none
  calls := []
  closes := []

/-- Whether `epoll_ctl` succeeds. -/
def epollOk (fd : ℕ) : EpollOp → Bool
  | .add => (h.files fd).isSome && !h.interest fd
  | .mod | .del => (h.files fd).isSome && h.interest fd

/-- An event is registered for the descriptor. -/
def registered (fd : ℕ) : Bool := (h.events fd .read).isSome || (h.events fd .write).isSome

def setEvent (fd : ℕ) (event : Event) (c : Option ℕ) : Hook :=
  { h with
    events := Function.update h.events fd (Function.update (h.events fd) event c) }

def modifyCall (c : ℕ) (f : IoCall → IoCall) : Hook := { h with calls := h.calls.modify c f }

def setInterest (fd : ℕ) (v : Bool) : Hook :=
  { h with interest := Function.update h.interest fd v }

/-- The kernel gives a free number to a new socket. -/
def socket (fd : ℕ) : Option Hook :=
  if h.files fd = none then
    some { h with
      files := Function.update h.files fd (some h.nextFile)
      nextFile := h.nextFile + 1 }
  else none

/-- `FdManager::get` with `auto_create`. -/
def get (fd : ℕ) : Hook :=
  { h with
    datas := Function.update h.datas fd (some ((h.datas fd).getD (.init (h.files fd)))) }

/-- The update of a context that is there, open and a socket. -/
def setUserNonblock (fd : ℕ) (v : Bool) : Hook :=
  match h.datas fd with
  | none => h
  | some ctx =>
    if ctx.isClosed || !ctx.isSocket then h
    else { h with datas := Function.update h.datas fd (some { ctx with userNonblock := v }) }

def setTimeout (fd : ℕ) (event : Event) (v : Option ℕ) : Hook :=
  match h.datas fd with
  | none => h
  | some ctx => { h with datas := Function.update h.datas fd (some (ctx.setTimeout event v)) }

/-- `do_io` up to its first system call. -/
def enter (fd : ℕ) (event : Event) : IoCall :=
  match h.datas fd with
  | none => { fd, event, pc := .direct }
  | some ctx =>
    if ctx.isClosed then { fd, event, pc := .returned false }
    else if !ctx.isSocket || ctx.userNonblock then { fd, event, pc := .direct }
    else { fd, event, timeout := ctx.getTimeout event, pc := .retry }

def doIo (fd : ℕ) (event : Event) : Hook := { h with calls := h.calls ++ [h.enter fd event] }

/-- Call `c` goes on, which is possible if `p` holds of it. -/
def onCall (c : ℕ) (p : IoCall → Bool) (body : IoCall → Option Hook) : Option Hook :=
  match h.calls[c]? with
  | some call => if p call then body call else none
  | none => none

def syscall (c : ℕ) (r : SysResult) : Option Hook :=
  h.onCall c (fun call => call.pc = .direct ∨ call.pc = .retry) fun call =>
    some (h.modifyCall c fun call' => call'.syscall (h.files call.fd) r)

def addTimer (c : ℕ) : Option Hook :=
  h.onCall c (fun call => call.pc = .again) fun _ =>
    some (h.modifyCall c fun call =>
      { call with timed := call.timed || call.timeout.isSome, pc := .adding })

/-- `addEvent` and what `do_io` does with its result.  The process ends if the event is registered
already. -/
def addEvent (c : ℕ) : Option Hook :=
  h.onCall c (fun call => call.pc = .adding) fun call =>
    if (h.events call.fd call.event).isSome then none
    else if h.epollOk call.fd (if h.registered call.fd then .mod else .add) then
      some (((h.setInterest call.fd true).setEvent call.fd call.event (some c)).modifyCall c
        fun call => { call with pc := .suspended })
    else some (h.modifyCall c fun call => { call with pc := .returned false })

/-- `idle` may have collected the callback before the timer was cancelled, so that it can come late.
It does nothing once the call has returned. -/
def expire (c : ℕ) : Option Hook :=
  h.onCall c (fun call => call.timed && !(call.pc matches .returned _)) fun _ =>
    some (h.modifyCall c fun call => { call with cancelled := true })

/-- `triggerEvent`, if the event is registered. -/
def triggerEvent (fd : ℕ) (event : Event) : Hook :=
  match h.events fd event with
  | some c => (h.setEvent fd event none).modifyCall c fun call => { call with pc := .woken }
  | none => h

/-- `idle` and `cancelEvent` with a registered event, once `epoll_ctl` has succeeded. -/
def trigger (fd : ℕ) (event : Event) : Option Hook :=
  if (h.events fd event).isSome && h.epollOk fd .mod then
    let h' := h.triggerEvent fd event
    some (h'.setInterest fd (h'.registered fd))
  else none

def resume (c : ℕ) : Option Hook :=
  h.onCall c (fun call => call.pc = .woken) fun _ => some (h.modifyCall c IoCall.resume)

/-- The calls that are suspended on the descriptor now are recorded. -/
def markCalls (fd : ℕ) : Hook := { h with calls := h.calls.map (.mark fd h.nextFile) }

/-- `close` up to its first section, which depends on the `FdCtx` and on the I/O manager of the
thread. -/
def close (fd : ℕ) (iom : Bool) : Hook :=
  { h.markCalls fd with
    closes := h.closes ++ [{ fd, stage := match h.datas fd with
      | none => .closeF
      | some _ => if iom then .cancelAll else .del }] }

/-- `IOManager::cancelAll`. -/
def cancelAll (fd : ℕ) : Hook :=
  if h.registered fd && h.epollOk fd .del then
    ((h.setInterest fd false).triggerEvent fd .read).triggerEvent fd .write
  else h

/-- `FdManager::del`. -/
def del (fd : ℕ) : Hook := { h with datas := Function.update h.datas fd none }

/-- `close_f`. -/
def closeF (fd : ℕ) : Hook :=
  { h.markCalls fd with
    files := Function.update h.files fd none
    interest := Function.update h.interest fd false }

def setStage (k : ℕ) (stage : CloseStage) : Hook :=
  { h with closes := h.closes.modify k fun close => { close with stage } }

/-- `close` goes on with its next section. -/
def closeNext (k : ℕ) : Option Hook :=
  match h.closes[k]? with
  | some ⟨fd, .cancelAll⟩ => some ((h.cancelAll fd).setStage k .del)
  | some ⟨fd, .del⟩ => some ((h.del fd).setStage k .closeF)
  | some ⟨fd, .closeF⟩ => some ((h.closeF fd).setStage k .done)
  | _ => none

def step (h : Hook) : HookAction → Option Hook
  | .socket fd => h.socket fd
  | .get fd => some (h.get fd)
  | .setUserNonblock fd v => some (h.setUserNonblock fd v)
  | .setTimeout fd event v => some (h.setTimeout fd event v)
  | .doIo fd event => some (h.doIo fd event)
  | .syscall c r => h.syscall c r
  | .addTimer c => h.addTimer c
  | .addEvent c => h.addEvent c
  | .expire c => h.expire c
  | .trigger fd event => h.trigger fd event
  | .resume c => h.resume c
  | .close fd iom => some (h.close fd iom)
  | .closeNext k => h.closeNext k

/-- Hooked calls on any threads as a machine. -/
def machine : Machine Hook HookAction := ⟨step⟩

/-- **A call that was suspended at a close is spared the later files.** -/
structure Spares (h : Hook) : Prop where
  /-- It has made no system call on a file that came after the close. -/
  touched : ∀ (c : ℕ) call n, h.calls[c]? = some call → call.closed = some n →
    ∀ g ∈ call.touched, g < n
  /-- It returns an error. -/
  returned : ∀ (c : ℕ) call, h.calls[c]? = some call → call.closed.isSome → call.pc ≠ .returned true
  /-- It does not stay suspended: as long as it is, a close is still to wake it. -/
  suspended : ∀ (c : ℕ) call, h.calls[c]? = some call → call.closed.isSome → call.pc = .suspended →
    ∃ close ∈ h.closes, close.fd = call.fd ∧ close.stage = .cancelAll

/-- **The condition on a step.**
* A number is not given to a new socket before the calls that were suspended on it at a close have
  returned, unless they have only to be resumed after their timeout.
* None of these calls makes its system call while a close of its descriptor is not over.
* No call registers an event between `cancelAll` and `close_f`.
* A close that goes past `cancelAll`, for want of an `FdCtx` or of an I/O manager, finds no call
  registered. -/
def Settled (h : Hook) : HookAction → Prop
  | .socket fd => ∀ call ∈ h.calls, call.fd = fd → call.closed.isSome → call.pc ≠ .retry ∧
      (call.pc = .woken → call.cancelled)
  | .syscall c _ => ∀ call ∈ h.calls[c]?, call.closed.isSome →
      ∀ close ∈ h.closes, close.fd = call.fd → close.stage = .done
  | .addEvent c => ∀ call ∈ h.calls[c]?, ∀ close ∈ h.closes, close.fd = call.fd →
      close.stage ≠ .del ∧ close.stage ≠ .closeF
  | .close fd iom => h.datas fd = none ∨ iom = false → h.registered fd = false
  | _ => True

instance (h : Hook) (a : HookAction) : Decidable (h.Settled a) := by
  unfold Settled
  split <;> infer_instance

end Hook

end KvRaft
