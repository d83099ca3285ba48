import KvRaft.Fiber.Hook
import Mathlib.Data.List.Induction

/-!
# Non-blocking sockets

A socket that is registered with `FdManager` is non-blocking for the kernel, so that `do_io` can
suspend the fiber, while the caller may see it as blocking: `m_userNonblock` is what he asked for.
The hooked `fcntl` keeps `O_NONBLOCK` set in the kernel whatever is asked for.  The hooked `ioctl`
passes `FIONBIO` on as it is.

* `HookedSocket.staysNonblock_iff` : the kernel's flag stays set, and `F_GETFL` reports what was
  asked for last, exactly if no `FIONBIO` with zero is carried out.
-/

namespace KvRaft

/-! ### The kernel -/

namespace FileFlags

/-- `O_NONBLOCK` -/
def oNonblock : BitVec 32 := 0x800

/-- What `F_SETFL` can change: `O_APPEND`, `O_NONBLOCK`, `O_ASYNC`, `O_DIRECT` and `O_NOATIME`. -/
def settable : BitVec 32 := 0x400 ||| 0x800 ||| 0x2000 ||| 0x4000 ||| 0x40000

/-- `O_NONBLOCK` is set. -/
def nonblock (flags : BitVec 32) : Bool := flags &&& oNonblock ≠ 0

/-- `fcntl_f` with `F_SETFL`.  A call that fails changes nothing. -/
def setfl (flags arg : BitVec 32) (ok : Bool) : BitVec 32 :=
  if ok then flags &&& ~~~settable ||| arg &&& settable else flags

/-- `ioctl_f` with `FIONBIO`. -/
def fionbio (flags : BitVec 32) (v : Int32) (ok : Bool) : BitVec 32 :=
  if ok then if v ≠ 0 then flags ||| oNonblock else flags &&& ~~~oNonblock else flags

/-- What a system call returns on a socket, with data or without; `none` if it blocks. -/
def io (flags : BitVec 32) (ready : Bool) : Option SysResult :=
  if ready then some .ok else if nonblock flags then some .eagain else none

variable (flags arg : BitVec 32)

theorem nonblock_eq : nonblock flags = flags.getLsbD 11 := by
  have hand : flags &&& oNonblock = if flags.getLsbD 11 then BitVec.twoPow 32 11 else 0#32 :=
    BitVec.and_twoPow flags 11
  rw [nonblock, hand]
  cases flags.getLsbD 11 <;> rfl

@[simp] theorem nonblock_or : nonblock (flags ||| oNonblock) = true := by
  rw [nonblock_eq, BitVec.getLsbD_or]
  exact Bool.or_true _

@[simp] theorem nonblock_and_not : nonblock (flags &&& ~~~oNonblock) = false := by
  rw [nonblock_eq, BitVec.getLsbD_and]
  exact Bool.and_false _

@[simp] theorem nonblock_setfl (ok : Bool) :
    nonblock (setfl flags arg ok) = if ok then nonblock arg else nonblock flags := by
  unfold setfl
  split_ifs
  · rw [nonblock_eq, nonblock_eq, BitVec.getLsbD_or, BitVec.getLsbD_and, BitVec.getLsbD_and]
    change (flags.getLsbD 11 && false || arg.getLsbD 11 && true) = arg.getLsbD 11
    rw [Bool.and_false, Bool.false_or, Bool.and_true]
  · rfl

@[simp] theorem nonblock_fionbio (v : Int32) (ok : Bool) :
    nonblock (fionbio flags v ok) = if ok then decide (v ≠ 0) else nonblock flags := by
  unfold fionbio
  split_ifs with hok hv <;> simp [*]

/-- **No system call blocks** on a socket with the flag. -/
theorem io_isSome_iff : (∀ ready, (io flags ready).isSome) ↔ nonblock flags = true := by
  simp [io]

end FileFlags

/-! ### The hooked calls -/

open FileFlags

/-- A descriptor with an `FdCtx`, and its flags in the kernel. -/
structure HookedSocket extends FdCtx where
  sysNonblock : Bool
  flags : BitVec 32

/-- A hooked call that changes the mode; `ok` says whether the system call in it succeeds. -/
inductive ModeCall where
  /-- `fcntl` with `F_SETFL`. -/
  | setfl (arg : BitVec 32) (ok : Bool)
  /-- `ioctl` with `FIONBIO`, and the number behind its argument. -/
  | fionbio (v : Int32) (ok : Bool)
  deriving DecidableEq

/-- The call asks for non-blocking mode. -/
def ModeCall.asks : ModeCall → Bool
  | .setfl arg _ => nonblock arg
  | .fionbio v _ => v ≠ 0

/-- An `ioctl` that the kernel carries out turns the mode off. -/
def ModeCall.Clears (c : ModeCall) : Prop := c = .fionbio 0 true

namespace HookedSocket

/-- `FdCtx::init` on a socket. -/
def init (flags : BitVec 32) : HookedSocket where
  isSocket := true
  sysNonblock := true
  flags := if nonblock flags then flags else setfl flags (flags ||| oNonblock) true

section Calls

variable (s : HookedSocket)

/-- The hooked calls do not leave the descriptor alone. -/
def hooked : Bool := !s.isClosed && s.isSocket

def fcntlSetfl (arg : BitVec 32) (ok : Bool) : HookedSocket :=
  if ¬ s.hooked then { s with flags := setfl s.flags arg ok }
  else
    let s := { s with userNonblock := nonblock arg }
    let arg := if s.sysNonblock then arg ||| oNonblock else arg &&& ~~~oNonblock
    { s with flags := setfl s.flags arg ok }

def fcntlGetfl : BitVec 32 :=
  let arg := s.flags
  if ¬ s.hooked then arg
  else if s.userNonblock then arg ||| oNonblock
  else arg &&& ~~~oNonblock

def ioctlFionbio (v : Int32) (ok : Bool) : HookedSocket :=
  let s := if ¬ s.hooked then s else { s with userNonblock := v ≠ 0 }
  { s with flags := fionbio s.flags v ok }

def call : ModeCall → HookedSocket
  | .setfl arg ok => s.fcntlSetfl arg ok
  | .fionbio v ok => s.ioctlFionbio v ok

/-- The descriptor after some calls. -/
def calls (cs : List ModeCall) : HookedSocket := cs.foldl call s

end Calls

/-- **The socket is non-blocking for the kernel**, so that no system call blocks, and `F_GETFL`
reports what was asked for. -/
structure StaysNonblock (s : HookedSocket) (asked : Bool) : Prop where
  kernel : nonblock s.flags = true
  io : ∀ ready, (FileFlags.io s.flags ready).isSome
  reported : nonblock s.fcntlGetfl = asked

/-- What the latest call asked for. -/
def asked (cs : List ModeCall) : Bool := (cs.getLast?.map ModeCall.asks).getD false

/-! ### Results -/

variable {s : HookedSocket} {c : ModeCall} {cs : List ModeCall}

/-- The descriptor is a registered socket. -/
structure Registered (s : HookedSocket) : Prop where
  hooked : s.hooked = true
  sysNonblock : s.sysNonblock = true

theorem registered_init (flags : BitVec 32) : (init flags).Registered := ⟨rfl, rfl⟩

theorem nonblock_init (flags : BitVec 32) : nonblock (init flags).flags = true := by
  unfold init
  dsimp only
  split_ifs with h
  · exact h
  · simp

/-- The hooked calls change the context in what the user asked for only. -/
theorem Registered.call_toFdCtx (h : s.Registered) (c : ModeCall) :
    (s.call c).toFdCtx = { s.toFdCtx with userNonblock := c.asks } ∧
      (s.call c).sysNonblock = s.sysNonblock := by
  cases c <;> simp [call, fcntlSetfl, ioctlFionbio, h.hooked, ModeCall.asks]

/-- So do they where only the contexts are modelled. -/
theorem Registered.setUserNonblock (h : s.Registered) {hook : Hook} {fd : ℕ}
    (hctx : hook.datas fd = some s.toFdCtx) (c : ModeCall) :
    (hook.setUserNonblock fd c.asks).datas fd = some (s.call c).toFdCtx := by
  have hopen : (s.isClosed || !s.isSocket) = false := by
    have := h.hooked
    rw [HookedSocket.hooked] at this
    simpa using this
  simp [Hook.setUserNonblock, hctx, hopen, (h.call_toFdCtx c).1]

theorem Registered.call (h : s.Registered) (c : ModeCall) : (s.call c).Registered := by
  obtain ⟨hctx, hsys⟩ := h.call_toFdCtx c
  refine ⟨?_, hsys.trans h.sysNonblock⟩
  rw [HookedSocket.hooked, hctx]
  exact h.hooked

/-- **What a call does to the flag in the kernel.** -/
theorem Registered.nonblock_call (h : s.Registered) (hs : nonblock s.flags = true) :
    nonblock (s.call c).flags = true ↔ ¬ c.Clears := by
  cases c with
  | setfl arg ok =>
    simp [HookedSocket.call, fcntlSetfl, h.hooked, h.sysNonblock, hs, ModeCall.Clears]
  | fionbio v ok =>
    cases ok <;> simp [HookedSocket.call, ioctlFionbio, h.hooked, hs, ModeCall.Clears]

/-- `F_GETFL` reports what the user asked for. -/
theorem Registered.nonblock_fcntlGetfl (h : s.Registered) :
    nonblock s.fcntlGetfl = s.userNonblock := by
  cases hu : s.userNonblock <;> simp [fcntlGetfl, h.hooked, hu]

theorem Registered.staysNonblock (h : s.Registered) :
    s.StaysNonblock s.userNonblock ↔ nonblock s.flags = true :=
  ⟨StaysNonblock.kernel, fun hk => ⟨hk, (io_isSome_iff _).2 hk, h.nonblock_fcntlGetfl⟩⟩

/-- After any calls the socket is registered, and the context says what was asked for. -/
theorem registered_calls (flags : BitVec 32) (cs : List ModeCall) :
    ((init flags).calls cs).Registered ∧ ((init flags).calls cs).userNonblock = asked cs := by
  induction cs using List.reverseRecOn with
  | nil => exact ⟨registered_init flags, rfl⟩
  | append_singleton cs c ih =>
    rw [calls, List.foldl_append, List.foldl_cons, List.foldl_nil]
    refine ⟨ih.1.call c, ?_⟩
    rw [asked, List.getLast?_concat]
    exact congrArg FdCtx.userNonblock (ih.1.call_toFdCtx c).1

/-- **The flag of a registered socket stays set in the kernel, and `F_GETFL` reports what was asked
for last**, in every state that the calls go through, exactly if none of them is an `ioctl` that
turns the mode off. -/
theorem staysNonblock_iff (flags : BitVec 32) (cs : List ModeCall) :
    (∀ cs', cs' <+: cs → ((init flags).calls cs').StaysNonblock (asked cs')) ↔
      ∀ c ∈ cs, ¬ c.Clears := by
  have hstate : ∀ cs', ((init flags).calls cs').StaysNonblock (asked cs') ↔
      nonblock ((init flags).calls cs').flags = true := by
    intro cs'
    obtain ⟨hreg, hasked⟩ := registered_calls flags cs'
    rw [← hasked]
    exact hreg.staysNonblock
  simp only [hstate]
  induction cs using List.reverseRecOn with
  | nil =>
    refine iff_of_true (fun cs' h => ?_) (fun c hc => (List.not_mem_nil hc).elim)
    rw [List.prefix_nil.1 h]
    exact nonblock_init flags
  | append_singleton cs c ih =>
    have hcall : (init flags).calls (cs ++ [c]) = ((init flags).calls cs).call c := by
      rw [calls, calls, List.foldl_append]
      rfl
    simp only [List.prefix_concat_iff, List.mem_append, List.mem_singleton, or_imp, forall_and,
      forall_eq, ih, hcall]
    rw [and_comm]
    refine and_congr_right fun hcs => ?_
    exact (registered_calls flags cs).1.nonblock_call (ih.2 hcs cs (List.prefix_refl cs))

/-- Turning the mode off makes the kernel's socket block. -/
theorem not_staysNonblock : ¬ ∀ (flags : BitVec 32) (cs : List ModeCall),
    ((init flags).calls cs).StaysNonblock (asked cs) := by
  intro h
  exact absurd (h 2 [.fionbio 0 true]).kernel (by decide)

end HookedSocket

end KvRaft
