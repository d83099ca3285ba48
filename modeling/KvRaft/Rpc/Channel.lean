import KvRaft.LTS.Basic
import KvRaft.Rpc.Framing
import KvRaft.Rpc.Messages
import Mathlib.Data.List.Basic
import Mathlib.Logic.Function.Basic

/-!
# Calls on a channel

Several threads make calls on one `MprpcChannel`, whose socket they share.  A call sends its
request, waits in `recv` for at most 1024 bytes and parses what it got.  The peer answers requests
with `SendRpcResponse`, in whatever order, and closes connections.  Responses are bytes in a
stream: nothing says where one ends or which call it belongs to.

`MprpcChannel.step` follows `CallMethod` from one access to `m_clientFd` or to the socket to the
next.  Descriptors are those of the operating system, so one that was closed may be opened again
for another connection, while a thread in `recv` stays with the connection it has.

## Main results

* `MprpcChannel.inTurn_parse` : a call that receives its response and nothing else parses it.
* `MprpcChannel.belong` : if all calls do so, responses belong to their requests.
-/

namespace KvRaft

/-- The calls on a channel: the request of each, and its response message, which protocol buffers
serialize and parse. -/
class RpcCalls (ι : Type) where
  serviceName : ι → Bytes
  methodName : ι → Bytes
  argsStr : ι → Bytes
  Response : ι → Type
  serializeToString (i : ι) : Response i → Option Bytes
  parseFromArray (i : ι) : Bytes → Option (Response i)
  /-- A message that was serialized is parsed. -/
  parse_serialize (i : ι) {response : Response i} {bs : Bytes} :
    serializeToString i response = some bs → parseFromArray i bs = some response

open RpcCalls

/-- Where a call is in `CallMethod`. -/
inductive CallPhase (R : Type) where
  /-- At the test of `m_clientFd`. -/
  | start
  /-- Before the `newConnect` of the test. -/
  | connect
  | serialize
  | send
  /-- `send` failed, before `close`. -/
  | sendFailed
  /-- Before `m_clientFd = -1`. -/
  | sendClosed
  | reconnect
  | recv
  /-- In `recv` on the connection. -/
  | receiving (conn : ℕ)
  /-- `recv` failed, before `close`. -/
  | recvFailed
  /-- Before `m_clientFd = -1`. -/
  | recvClosed
  /-- The call has ended with `SetFailed`. -/
  | failed
  /-- The call has ended without, and has filled in the response. -/
  | returned (response : R)
  deriving DecidableEq

/-- The call has not sent its request. -/
def CallPhase.beforeSend {R : Type} : CallPhase R → Bool
  | .start | .connect | .serialize | .send | .sendFailed | .sendClosed | .reconnect => true
  | .recv | .receiving _ | .recvFailed | .recvClosed | .failed | .returned _ => false

/-- The request of a call at the peer. -/
inductive RequestState (R : Type) where
  | unsent
  /-- The request was sent on the connection. -/
  | sent (conn : ℕ)
  /-- The message was passed to `SendRpcResponse`. -/
  | answered (response : R)
  deriving DecidableEq

/-- A connection to the peer. -/
structure Connection (ι : Type) where
  /-- What the peer has sent and no call has received. -/
  stream : Bytes := []
  /-- The peer has closed the connection. -/
  closed : Bool := false
  /-- All responses the peer has sent. -/
  sent : List (ι × Bytes) := []
  /-- How many bytes calls have received. -/
  received : ℕ := 0

/-- A channel with its calls, in the process of the caller. -/
structure MprpcChannel (ι : Type) [RpcCalls ι] where
  /-- `m_clientFd`; `none` is -1. -/
  clientFd : Option ℕ := none
  /-- The open descriptors of the process. -/
  descriptors : ℕ → Option ℕ := fun _ => none
  conns : List (Connection ι) := []
  phase : (i : ι) → CallPhase (Response i) := fun _ => .start
  request : (i : ι) → RequestState (Response i) := fun _ => .unsent

/-- The actions of a channel, with what the system calls return. -/
inductive ChannelAction (ι : Type) [RpcCalls ι] where
  /-- Call `i` goes on. -/
  | run (i : ι)
  /-- `newConnect`, with the new descriptor if the peer is reached. -/
  | newConnect (i : ι) (fd : Option ℕ)
  /-- `send` takes the request, or returns -1. -/
  | send (i : ι) (ok : Bool)
  /-- `recv` returns a number of bytes, or -1. -/
  | recv (i : ι) (size : Option ℕ)
  /-- The method that call `i` has called is done. -/
  | sendRpcResponse (i : ι) (response : Response i)
  /-- The peer closes a connection; all but the first `n` bytes on their way are lost. -/
  | close (conn n : ℕ)

namespace Connection

variable {ι : Type}

/-- All bytes the peer has sent. -/
def bytes (c : Connection ι) : Bytes := c.sent.flatMap Prod.snd

/-- `conn->send`, which does nothing on a closed connection. -/
def send (c : Connection ι) (i : ι) (responseStr : Bytes) : Connection ι :=
  if c.closed then c
  else { c with stream := c.stream ++ responseStr, sent := c.sent ++ [(i, responseStr)] }

/-- `recv` may return `n` bytes: some that have arrived, up to the size of the buffer, or none if
there are no more. -/
def CanRecv (c : Connection ι) (n : ℕ) : Prop :=
  if n = 0 then c.closed = true ∧ c.stream = [] else n ≤ 1024 ∧ n ≤ c.stream.length

instance (c : Connection ι) (n : ℕ) : Decidable (c.CanRecv n) := by
  unfold CanRecv
  infer_instance

def recv (c : Connection ι) (n : ℕ) : Connection ι :=
  { c with stream := c.stream.drop n, received := c.received + n }

def close (c : Connection ι) (n : ℕ) : Connection ι :=
  { c with stream := c.stream.take n, closed := true }

/-- **A connection carries the bytes of the peer**: some were received, some can be, and some are
lost if the peer has closed the connection. -/
def Carries (c : Connection ι) : Prop :=
  ∃ taken lost, c.bytes = taken ++ c.stream ++ lost ∧ taken.length = c.received ∧
    (c.closed = false → lost = [])

theorem carries_new : ({} : Connection ι).Carries := ⟨[], [], rfl, rfl, fun _ => rfl⟩

theorem CanRecv.le {c : Connection ι} {n : ℕ} (h : c.CanRecv n) : n ≤ c.stream.length := by
  unfold CanRecv at h
  split_ifs at h with hn
  · omega
  · exact h.2

theorem Carries.send {c : Connection ι} (h : c.Carries) (i : ι) (responseStr : Bytes) :
    (c.send i responseStr).Carries := by
  unfold Connection.send
  split_ifs with hclosed
  · exact h
  · obtain ⟨taken, lost, hbytes, hlen, hlost⟩ := h
    obtain rfl := hlost (Bool.eq_false_iff.2 hclosed)
    refine ⟨taken, [], ?_, hlen, fun _ => rfl⟩
    simp only [bytes] at hbytes ⊢
    simp [hbytes]

theorem Carries.recv {c : Connection ι} (h : c.Carries) {n : ℕ} (hn : n ≤ c.stream.length) :
    (c.recv n).Carries := by
  obtain ⟨taken, lost, hbytes, hlen, hlost⟩ := h
  refine ⟨taken ++ c.stream.take n, lost, ?_, ?_, hlost⟩
  · change c.bytes = taken ++ c.stream.take n ++ c.stream.drop n ++ lost
    rw [hbytes, List.append_assoc taken (c.stream.take n), List.take_append_drop]
  · rw [List.length_append, List.length_take, Nat.min_eq_left hn, hlen]
    rfl

theorem Carries.close {c : Connection ι} (h : c.Carries) (n : ℕ) : (c.close n).Carries := by
  obtain ⟨taken, lost, hbytes, hlen, -⟩ := h
  refine ⟨taken, c.stream.drop n ++ lost, ?_, hlen, nofun⟩
  change c.bytes = taken ++ c.stream.take n ++ (c.stream.drop n ++ lost)
  rw [hbytes, List.append_assoc taken (c.stream.take n), ← List.append_assoc (c.stream.take n),
    List.take_append_drop, List.append_assoc]

/-- **The next bytes are a response**: the first `n` bytes nobody has received are the response to
call `i`, whole and alone. -/
def NextResponse (c : Connection ι) (i : ι) (n : ℕ) : Prop :=
  ∃ k < c.sent.length, ((c.sent.take k).flatMap Prod.snd).length = c.received ∧
    c.sent[k]?.map (fun e => (e.1, e.2.length)) = some (i, n)

instance [DecidableEq ι] (c : Connection ι) (i : ι) (n : ℕ) : Decidable (c.NextResponse i n) := by
  unfold NextResponse
  infer_instance

/-- A call that is next in turn receives its response. -/
theorem Carries.take_eq {c : Connection ι} (h : c.Carries) {i : ι} {n : ℕ}
    (hnext : c.NextResponse i n) (hn : n ≤ c.stream.length) : (i, c.stream.take n) ∈ c.sent := by
  obtain ⟨taken, lost, hbytes, hlen, -⟩ := h
  obtain ⟨k, hk, hreceived, hentry⟩ := hnext
  obtain ⟨⟨i, responseStr⟩, hget, heq⟩ := Option.map_eq_some_iff.1 hentry
  obtain ⟨rfl, rfl⟩ := Prod.mk.inj heq
  have hsplit : c.sent = c.sent.take k ++ (i, responseStr) :: c.sent.drop (k + 1) := by
    obtain ⟨hlt, hget⟩ := List.getElem?_eq_some_iff.1 hget
    rw [← hget, List.getElem_cons_drop, List.take_append_drop]
  have hparts : (c.sent.take k).flatMap Prod.snd ++
      (responseStr ++ (c.sent.drop (k + 1)).flatMap Prod.snd) = taken ++ (c.stream ++ lost) := by
    rw [← List.append_assoc taken, ← hbytes, bytes]
    conv_rhs => rw [hsplit]
    rw [List.flatMap_append, List.flatMap_cons]
  have hrest := List.append_inj_right hparts (hreceived.trans hlen.symm)
  have htake := congrArg (List.take responseStr.length) hrest
  rw [List.take_left, List.take_append_of_le_length hn] at htake
  rw [← htake]
  exact List.mem_of_getElem? hget

end Connection

namespace MprpcChannel

variable {ι : Type} [DecidableEq ι] [RpcCalls ι]

def setPhase (S : MprpcChannel ι) (i : ι) (p : CallPhase (Response i)) : MprpcChannel ι :=
  { S with phase := Function.update S.phase i p }

def setRequest (S : MprpcChannel ι) (i : ι) (r : RequestState (Response i)) : MprpcChannel ι :=
  { S with request := Function.update S.request i r }

@[simp] theorem phase_setPhase_self (S : MprpcChannel ι) (i : ι) (p : CallPhase (Response i)) :
    (S.setPhase i p).phase i = p := Function.update_self ..

theorem phase_setPhase_of_ne (S : MprpcChannel ι) {i j : ι} (h : j ≠ i)
    (p : CallPhase (Response i)) : (S.setPhase i p).phase j = S.phase j :=
  Function.update_of_ne h ..

@[simp] theorem request_setRequest_self (S : MprpcChannel ι) (i : ι)
    (r : RequestState (Response i)) : (S.setRequest i r).request i = r := Function.update_self ..

theorem request_setRequest_of_ne (S : MprpcChannel ι) {i j : ι} (h : j ≠ i)
    (r : RequestState (Response i)) : (S.setRequest i r).request j = S.request j :=
  Function.update_of_ne h ..

def setConn (S : MprpcChannel ι) (k : ℕ) (c : Connection ι) : MprpcChannel ι :=
  { S with conns := S.conns.set k c }

/-- The connection of `m_clientFd`. -/
def conn (S : MprpcChannel ι) : Option ℕ := S.clientFd.bind S.descriptors

/-- `newConnect`, where `fd` is the descriptor if the peer is reached. -/
def newConnect (S : MprpcChannel ι) : Option ℕ → MprpcChannel ι
  | some fd =>
    { S with
      clientFd := some fd
      descriptors := Function.update S.descriptors fd (some S.conns.length)
      conns := S.conns ++ [{}] }
  | none => { S with clientFd := none }

/-- `close(m_clientFd)`. -/
def closeFd (S : MprpcChannel ι) : MprpcChannel ι :=
  match S.clientFd with
  | some fd => { S with descriptors := Function.update S.descriptors fd none }
  | none => S

/-- The constructor, where `fd` is the descriptor if it connects. -/
def create (fd : Option ℕ) : MprpcChannel ι := newConnect {} fd

/-- A call goes on to the next system call. -/
def runCall (S : MprpcChannel ι) (i : ι) : Option (MprpcChannel ι) :=
  match S.phase i with
  | .start => some (S.setPhase i (if S.clientFd = some 1 then .connect else .serialize))
  | .serialize =>
    match sendRpcStr (serviceName i) (methodName i) (argsStr i) with
    | some _ => some (S.setPhase i .send)
    | none => some (S.setPhase i .failed)
  | .sendFailed => some (S.closeFd.setPhase i .sendClosed)
  | .sendClosed => some ({ S with clientFd := none }.setPhase i .reconnect)
  | .recv =>
    match S.conn with
    | some k => some (S.setPhase i (.receiving k))
    | none => some (S.setPhase i .recvFailed)
  | .recvFailed => some (S.closeFd.setPhase i .recvClosed)
  | .recvClosed => some ({ S with clientFd := none }.setPhase i .failed)
  | _ => none

def step (S : MprpcChannel ι) : ChannelAction ι → Option (MprpcChannel ι)
  | .run i => S.runCall i
  | .newConnect i fd =>
    if fd.bind S.descriptors = none then
      match S.phase i with
      | .connect => some ((S.newConnect fd).setPhase i (if fd = none then .failed else .serialize))
      | .reconnect => some ((S.newConnect fd).setPhase i (if fd = none then .failed else .send))
      | _ => none
    else none
  | .send i ok =>
    match S.phase i with
    | .send =>
      if ok then S.conn.map fun k => (S.setRequest i (.sent k)).setPhase i .recv
      else some (S.setPhase i .sendFailed)
    | _ => none
  | .recv i size =>
    match S.phase i with
    | .receiving k =>
      match size with
      | none => some (S.setPhase i .recvFailed)
      | some n => S.conns[k]?.bind fun c =>
        if c.CanRecv n then
          some ((S.setConn k (c.recv n)).setPhase i
            (match parseFromArray i (c.stream.take n) with
              | some response => .returned response
              | none => .failed))
        else none
    | _ => none
  | .sendRpcResponse i response =>
    match S.request i with
    | .sent k => S.conns[k]?.map fun c =>
      match serializeToString i response with
      | some responseStr =>
        (S.setConn k (c.send i responseStr)).setRequest i (.answered response)
      | none => S.setRequest i (.answered response)
    | _ => none
  | .close k n => S.conns[k]?.map fun c => S.setConn k (c.close n)

variable (ι) in
/-- A channel as a machine. -/
def machine : Machine (MprpcChannel ι) (ChannelAction ι) := ⟨step⟩

/-! ### Replies and requests -/

/-- **Responses belong to their requests**: a call that ends without `SetFailed` has filled in the
message that was passed to `SendRpcResponse` for its request. -/
def Belong (S : MprpcChannel ι) : Prop :=
  ∀ i response, S.phase i = .returned response → S.request i = .answered response

/-- **Calls take turns**: a call whose `recv` returns bytes receives the response to its own
request, whole and alone.  Calls made one at a time do so if they receive whole responses
(`reaches_inTurn`). -/
def InTurn (S : MprpcChannel ι) : ChannelAction ι → Prop
  | .recv i (some n) => match S.phase i with
    | .receiving k => ∃ c ∈ S.conns[k]?, c.NextResponse i n
    | _ => True
  | _ => True

instance (S : MprpcChannel ι) (a : ChannelAction ι) : Decidable (S.InTurn a) := by
  unfold InTurn
  split
  · split <;> infer_instance
  · infer_instance

/-! ### What a step does -/

/-- A call goes on without the peer: it may open a connection, and it does not end. -/
structure GoesOn (S : MprpcChannel ι) (i : ι) (S' : MprpcChannel ι) : Prop where
  request : S'.request = S.request
  conns : S'.conns = S.conns ∨ S'.conns = S.conns ++ [({} : Connection ι)]
  phase : ∃ p, S'.phase = Function.update S.phase i p ∧ (∀ response, p ≠ .returned response) ∧
    (p.beforeSend = true → (S.phase i).beforeSend = true)

theorem goesOn_setPhase (S : MprpcChannel ι) {i : ι} {p : CallPhase (Response i)}
    (hp : ∀ response, p ≠ .returned response)
    (hb : p.beforeSend = true → (S.phase i).beforeSend = true) : S.GoesOn i (S.setPhase i p) :=
  ⟨rfl, Or.inl rfl, p, rfl, hp, hb⟩

theorem goesOn_newConnect (S : MprpcChannel ι) {i : ι} {p : CallPhase (Response i)}
    (fd : Option ℕ) (hp : ∀ response, p ≠ .returned response)
    (hb : p.beforeSend = true → (S.phase i).beforeSend = true) :
    S.GoesOn i ((S.newConnect fd).setPhase i p) := by
  cases fd with
  | none => exact ⟨rfl, Or.inl rfl, p, rfl, hp, hb⟩
  | some fd => exact ⟨rfl, Or.inr rfl, p, rfl, hp, hb⟩

theorem goesOn_closeFd (S : MprpcChannel ι) {i : ι} {p : CallPhase (Response i)}
    (hp : ∀ response, p ≠ .returned response)
    (hb : p.beforeSend = true → (S.phase i).beforeSend = true) :
    S.GoesOn i (S.closeFd.setPhase i p) := by
  unfold closeFd
  split
  · exact ⟨rfl, Or.inl rfl, p, rfl, hp, hb⟩
  · exact goesOn_setPhase S hp hb

theorem goesOn_runCall {S S' : MprpcChannel ι} {i : ι} (h : S.runCall i = some S') :
    S.GoesOn i S' := by
  unfold runCall at h
  split at h
  case h_1 hphase =>
    obtain rfl := Option.some.inj h
    refine goesOn_setPhase S ?_ fun _ => by rw [hphase]; rfl
    split_ifs <;> nofun
  case h_2 hphase =>
    split at h <;> obtain rfl := Option.some.inj h
    · exact goesOn_setPhase S nofun fun _ => by rw [hphase]; rfl
    · exact goesOn_setPhase S nofun nofun
  case h_3 hphase =>
    obtain rfl := Option.some.inj h
    exact goesOn_closeFd S nofun fun _ => by rw [hphase]; rfl
  case h_4 hphase =>
    obtain rfl := Option.some.inj h
    exact ⟨rfl, Or.inl rfl, _, rfl, nofun, fun _ => by rw [hphase]; rfl⟩
  case h_5 =>
    split at h <;> obtain rfl := Option.some.inj h <;> exact goesOn_setPhase S nofun nofun
  case h_6 =>
    obtain rfl := Option.some.inj h
    exact goesOn_closeFd S nofun nofun
  case h_7 =>
    obtain rfl := Option.some.inj h
    exact ⟨rfl, Or.inl rfl, _, rfl, nofun, nofun⟩
  case h_8 => cases h

/-- **What a step does**: a call goes on, sends its request or receives something, or the peer
answers a request or closes a connection. -/
theorem step_cases {S S' : MprpcChannel ι} {a : ChannelAction ι} (h : S.step a = some S') :
    (∃ i, S.GoesOn i S') ∨
    (∃ i k, S.phase i = .send ∧ S' = (S.setRequest i (.sent k)).setPhase i .recv) ∨
    (∃ i k c n, a = .recv i (some n) ∧ S.phase i = .receiving k ∧ S.conns[k]? = some c ∧
      c.CanRecv n ∧ S' = (S.setConn k (c.recv n)).setPhase i
        (match parseFromArray i (c.stream.take n) with
          | some response => .returned response
          | none => .failed)) ∨
    (∃ i k c response, S.request i = .sent k ∧ S.conns[k]? = some c ∧
      (serializeToString i response = none ∧ S' = S.setRequest i (.answered response) ∨
        ∃ responseStr, serializeToString i response = some responseStr ∧
          S' = (S.setConn k (c.send i responseStr)).setRequest i (.answered response))) ∨
    ∃ k c n, S.conns[k]? = some c ∧ S' = S.setConn k (c.close n) := by
  cases a with
  | run i => exact Or.inl ⟨i, goesOn_runCall h⟩
  | newConnect i fd =>
    refine Or.inl ⟨i, ?_⟩
    rw [step, Option.ite_none_right_eq_some] at h
    obtain ⟨-, h⟩ := h
    split at h
    · rename_i hphase
      obtain rfl := Option.some.inj h
      refine goesOn_newConnect S fd ?_ fun _ => by rw [hphase]; rfl
      split_ifs <;> nofun
    · rename_i hphase
      obtain rfl := Option.some.inj h
      refine goesOn_newConnect S fd ?_ fun _ => by rw [hphase]; rfl
      split_ifs <;> nofun
    · cases h
  | send i ok =>
    simp only [step] at h
    split at h
    · rename_i hphase
      split_ifs at h
      · obtain ⟨k, -, rfl⟩ := Option.map_eq_some_iff.1 h
        exact Or.inr (Or.inl ⟨i, k, hphase, rfl⟩)
      · obtain rfl := Option.some.inj h
        exact Or.inl ⟨i, goesOn_setPhase S nofun fun _ => by rw [hphase]; rfl⟩
    · cases h
  | recv i size =>
    simp only [step] at h
    split at h
    · rename_i k hphase
      cases size with
      | none =>
        obtain rfl := Option.some.inj h
        exact Or.inl ⟨i, goesOn_setPhase S nofun nofun⟩
      | some n =>
        obtain ⟨c, hc, h⟩ := Option.bind_eq_some_iff.1 h
        split_ifs at h with hcan
        obtain rfl := Option.some.inj h
        exact Or.inr (Or.inr (Or.inl ⟨i, k, c, n, rfl, hphase, hc, hcan, rfl⟩))
    · cases h
  | sendRpcResponse i response =>
    simp only [step] at h
    split at h
    · rename_i k hrequest
      obtain ⟨c, hc, h⟩ := Option.map_eq_some_iff.1 h
      refine Or.inr (Or.inr (Or.inr (Or.inl ⟨i, k, c, response, hrequest, hc, ?_⟩)))
      split at h
      · rename_i responseStr hser
        exact Or.inr ⟨responseStr, hser, h.symm⟩
      · rename_i hser
        exact Or.inl ⟨hser, h.symm⟩
    · cases h
  | close k n =>
    obtain ⟨c, hc, rfl⟩ := Option.map_eq_some_iff.1 h
    exact Or.inr (Or.inr (Or.inr (Or.inr ⟨k, c, n, hc, rfl⟩)))

/-! ### Runs -/

/-- **The requests and the bytes of a channel**: what a connection carries are the responses
passed to `SendRpcResponse`, each for a request that was sent before. -/
structure Consistent (S : MprpcChannel ι) : Prop where
  unsent : ∀ i, (S.phase i).beforeSend = true → S.request i = .unsent
  carries : ∀ c ∈ S.conns, c.Carries
  sent : ∀ c ∈ S.conns, ∀ i responseStr, (i, responseStr) ∈ c.sent →
    ∃ response, S.request i = .answered response ∧
      serializeToString i response = some responseStr

theorem Consistent.goesOn {S S' : MprpcChannel ι} {i : ι} (hS : S.Consistent)
    (h : S.GoesOn i S') : S'.Consistent := by
  obtain ⟨hrequest, hconns, p, hphase, -, hbefore⟩ := h
  have hmem : ∀ c ∈ S'.conns, c ∈ S.conns ∨ c = {} := by
    rcases hconns with hconns | hconns
    · exact fun c hc => Or.inl (hconns ▸ hc)
    · intro c hc
      rw [hconns, List.mem_append, List.mem_singleton] at hc
      exact hc
  refine ⟨fun j hj => ?_, fun c hc => ?_, fun c hc j responseStr hmemSent => ?_⟩
  · rw [hphase] at hj
    rw [hrequest]
    refine hS.unsent j ?_
    by_cases hji : j = i
    · obtain rfl := hji
      rw [Function.update_self] at hj
      exact hbefore hj
    · rwa [Function.update_of_ne hji] at hj
  · rcases hmem c hc with hc | rfl
    · exact hS.carries c hc
    · exact Connection.carries_new
  · rw [hrequest]
    rcases hmem c hc with hc | rfl
    · exact hS.sent c hc j responseStr hmemSent
    · cases hmemSent

/-- Answers stay. -/
theorem answered_setRequest {S : MprpcChannel ι} {i j : ι} {response : Response j}
    (hi : ∀ response, S.request i ≠ .answered response) (r : RequestState (Response i))
    (h : S.request j = .answered response) : (S.setRequest i r).request j = .answered response := by
  by_cases hji : j = i
  · obtain rfl := hji
    exact absurd h (hi _)
  · exact (request_setRequest_of_ne S hji r).trans h

theorem Consistent.setPhase {S : MprpcChannel ι} (hS : S.Consistent) {i : ι}
    {p : CallPhase (Response i)} (hp : p.beforeSend = false) : (S.setPhase i p).Consistent := by
  refine ⟨fun j hj => hS.unsent j ?_, hS.carries, hS.sent⟩
  by_cases hji : j = i
  · obtain rfl := hji
    rw [phase_setPhase_self, hp] at hj
    cases hj
  · rwa [phase_setPhase_of_ne _ hji] at hj

theorem Consistent.setRequest {S : MprpcChannel ι} (hS : S.Consistent) {i : ι}
    (hphase : (S.phase i).beforeSend = false) (hi : ∀ response, S.request i ≠ .answered response)
    (r : RequestState (Response i)) : (S.setRequest i r).Consistent := by
  refine ⟨fun j hj => ?_, hS.carries, fun c hc j responseStr hmem => ?_⟩
  · by_cases hji : j = i
    · obtain rfl := hji
      exact absurd (hj.symm.trans hphase) nofun
    · exact (request_setRequest_of_ne S hji _).trans (hS.unsent j hj)
  · obtain ⟨response, hrequest, hser⟩ := hS.sent c hc j responseStr hmem
    exact ⟨response, answered_setRequest hi r hrequest, hser⟩

omit [DecidableEq ι] in
theorem Consistent.setConn {S : MprpcChannel ι} (hS : S.Consistent) {k : ℕ} {c : Connection ι}
    (hc : c.Carries) (hsent : ∀ i responseStr, (i, responseStr) ∈ c.sent →
      ∃ response, S.request i = .answered response ∧
        serializeToString i response = some responseStr) : (S.setConn k c).Consistent := by
  refine ⟨hS.unsent, fun c' hc' => ?_, fun c' hc' => ?_⟩
  · rcases List.mem_or_eq_of_mem_set hc' with hc' | rfl
    · exact hS.carries c' hc'
    · exact hc
  · rcases List.mem_or_eq_of_mem_set hc' with hc' | rfl
    · exact hS.sent c' hc'
    · exact hsent

theorem Consistent.step {S S' : MprpcChannel ι} {a : ChannelAction ι} (hS : S.Consistent)
    (h : S.step a = some S') : S'.Consistent := by
  rcases step_cases h with ⟨i, hgo⟩ | ⟨i, k, hphase, rfl⟩ |
    ⟨i, k, c, n, -, hphase, hc, hcan, rfl⟩ | ⟨i, k, c, response, hrequest, hc, hanswer⟩ |
    ⟨k, c, n, hc, rfl⟩
  · exact hS.goesOn hgo
  · have hunsent := hS.unsent i (by rw [hphase]; rfl)
    change ((S.setPhase i .recv).setRequest i (.sent k)).Consistent
    refine (hS.setPhase rfl).setRequest ?_ (fun response hresponse => ?_) _
    · rw [phase_setPhase_self]
      rfl
    · exact absurd (hunsent.symm.trans hresponse) nofun
  · have hmem := List.mem_of_getElem? hc
    refine Consistent.setPhase (hS.setConn ((hS.carries c hmem).recv hcan.le) (hS.sent c hmem)) ?_
    split <;> rfl
  · have hmem := List.mem_of_getElem? hc
    have hne : ∀ response, S.request i ≠ .answered response := by
      intro response hresponse
      exact absurd (hrequest.symm.trans hresponse) nofun
    have hphase : (S.phase i).beforeSend = false := by
      refine Bool.eq_false_iff.2 fun hbefore => ?_
      exact absurd (hrequest.symm.trans (hS.unsent i hbefore)) nofun
    have hanswered := hS.setRequest hphase hne (.answered response)
    rcases hanswer with ⟨-, rfl⟩ | ⟨responseStr, hser, rfl⟩
    · exact hanswered
    · refine hanswered.setConn ((hS.carries c hmem).send i responseStr) fun j str hstr => ?_
      by_cases hold : (j, str) ∈ c.sent
      · exact hanswered.sent c hmem j str hold
      · unfold Connection.send at hstr
        split_ifs at hstr
        · exact absurd hstr hold
        · rcases List.mem_append.1 hstr with hstr | hstr
          · exact absurd hstr hold
          · obtain ⟨rfl, rfl⟩ := Prod.mk.inj (List.mem_singleton.1 hstr)
            exact ⟨response, request_setRequest_self .., hser⟩
  · have hmem := List.mem_of_getElem? hc
    exact hS.setConn ((hS.carries c hmem).close n) (hS.sent c hmem)

omit [DecidableEq ι] in
theorem consistent_create (fd : Option ℕ) : (create fd : MprpcChannel ι).Consistent := by
  have hinit : ({} : MprpcChannel ι).Consistent := ⟨fun _ _ => rfl, nofun, nofun⟩
  cases fd with
  | none => exact ⟨fun _ _ => rfl, nofun, nofun⟩
  | some fd =>
    refine ⟨fun _ _ => rfl, fun c hc => ?_, fun c hc => ?_⟩
    · obtain rfl := List.mem_singleton.1 hc
      exact Connection.carries_new
    · obtain rfl := List.mem_singleton.1 hc
      nofun

omit [DecidableEq ι] in
/-- **A call whose turn it is parses its response.** -/
theorem inTurn_parse {S : MprpcChannel ι} (hS : S.Consistent) {i : ι} {k n : ℕ}
    {c : Connection ι} (hc : S.conns[k]? = some c) (hn : n ≤ c.stream.length)
    (hnext : c.NextResponse i n) : ∃ response, S.request i = .answered response ∧
      parseFromArray i (c.stream.take n) = some response := by
  have hmem := List.mem_of_getElem? hc
  obtain ⟨response, hrequest, hser⟩ := hS.sent c hmem i _ ((hS.carries c hmem).take_eq hnext hn)
  exact ⟨response, hrequest, parse_serialize i hser⟩

theorem Belong.goesOn {S S' : MprpcChannel ι} {i : ι} (hS : S.Belong) (h : S.GoesOn i S') :
    S'.Belong := by
  obtain ⟨hrequest, -, p, hphase, hp, -⟩ := h
  intro j response hj
  rw [hphase] at hj
  rw [hrequest]
  by_cases hji : j = i
  · obtain rfl := hji
    rw [Function.update_self] at hj
    exact absurd hj (hp _)
  · rw [Function.update_of_ne hji] at hj
    exact hS j response hj

/-- Responses that belong to their requests do so after a step in turn. -/
theorem Belong.step {S S' : MprpcChannel ι} {a : ChannelAction ι} (hS : S.Consistent)
    (hbelong : S.Belong) (hturn : S.InTurn a) (h : S.step a = some S') : S'.Belong := by
  rcases step_cases h with ⟨i, hgo⟩ | ⟨i, k, hphase, rfl⟩ |
    ⟨i, k, c, n, rfl, hphase, hc, hcan, rfl⟩ | ⟨i, k, c, response, hrequest, hc, hanswer⟩ |
    ⟨k, c, n, hc, rfl⟩
  · exact hbelong.goesOn hgo
  · intro j response hj
    have hunsent := hS.unsent i (by rw [hphase]; rfl)
    by_cases hji : j = i
    · obtain rfl := hji
      rw [phase_setPhase_self] at hj
      cases hj
    · rw [phase_setPhase_of_ne _ hji] at hj
      exact (request_setRequest_of_ne S hji _).trans (hbelong j response hj)
  · -- what is received is the response to the call
    rw [InTurn, hphase] at hturn
    obtain ⟨c', hc', hnext⟩ := hturn
    obtain rfl := Option.mem_unique hc hc'
    obtain ⟨response, hrequest, hparse⟩ := inTurn_parse hS hc hcan.le hnext
    intro j response' hj
    by_cases hji : j = i
    · obtain rfl := hji
      rw [phase_setPhase_self, hparse] at hj
      obtain rfl := CallPhase.returned.inj hj
      exact hrequest
    · rw [phase_setPhase_of_ne _ hji] at hj
      exact hbelong j response' hj
  · intro j response' hj
    have hne : ∀ response, S.request i ≠ .answered response := by
      intro response hresponse
      exact absurd (hrequest.symm.trans hresponse) nofun
    rcases hanswer with ⟨-, rfl⟩ | ⟨responseStr, -, rfl⟩
    · exact answered_setRequest hne _ (hbelong j response' hj)
    · exact answered_setRequest (S := S) hne _ (hbelong j response' hj)
  · exact hbelong

/-- **If calls take turns, responses belong to their requests.** -/
theorem belong (fd : Option ℕ) {S : MprpcChannel ι}
    (h : (machine ι).Reaches InTurn (create fd) S) : S.Belong := by
  have hinv : S.Consistent ∧ S.Belong := by
    refine h.invariant (I := fun S => S.Consistent ∧ S.Belong) ⟨consistent_create fd, ?_⟩ ?_
    · cases fd <;> nofun
    · rintro S a S' ⟨hS, hbelong⟩ hturn hst
      exact ⟨hS.step hst, hbelong.step hS hturn hst⟩
  exact hinv.2

end MprpcChannel

/-! ### Calls of `InstallSnapshot` -/

/-- A call of `InstallSnapshot` with its serialized arguments. -/
structure InstallSnapshotCall where
  id : ℕ
  args : Bytes := []
  deriving DecidableEq

instance : RpcCalls InstallSnapshotCall where
  serviceName _ := [0x72, 0x61, 0x66, 0x74, 0x52, 0x70, 0x63]
  methodName _ :=
    [0x49, 0x6e, 0x73, 0x74, 0x61, 0x6c, 0x6c, 0x53, 0x6e, 0x61, 0x70, 0x73, 0x68, 0x6f, 0x74]
  argsStr call := call.args
  Response _ := RaftRpcProctoc.InstallSnapshotResponse
  serializeToString _ := RaftRpcProctoc.InstallSnapshotResponse.type.serializeToString
  parseFromArray _ := RaftRpcProctoc.InstallSnapshotResponse.type.parseFromString
  parse_serialize _ _ _ := RaftRpcProctoc.InstallSnapshotResponse.parse_serialize

namespace MprpcChannel

def someCall : InstallSnapshotCall := ⟨0, []⟩

def nextCall : InstallSnapshotCall := ⟨1, []⟩

/-- The response of a follower in term 5. -/
def responseInTerm5 : RaftRpcProctoc.InstallSnapshotResponse := ⟨5⟩

/-- Its response when it has seen term 6. -/
def responseInTerm6 : RaftRpcProctoc.InstallSnapshotResponse := ⟨6⟩

/-- A follower answers two calls on one connection, one after the other. -/
theorem belong_installSnapshot : ∃ S : MprpcChannel InstallSnapshotCall,
    (machine InstallSnapshotCall).Reaches InTurn (create (some 4)) S ∧
      S.phase someCall = .returned responseInTerm5 ∧
      S.request someCall = .answered responseInTerm5 ∧
      S.phase nextCall = .returned responseInTerm6 ∧
      S.request nextCall = .answered responseInTerm6 := by
  have hrun : ((machine InstallSnapshotCall).runWhere InTurn (create (some 4))
      [.run someCall, .run someCall, .send someCall true, .run someCall,
        .sendRpcResponse someCall responseInTerm5, .recv someCall (some 2),
        .run nextCall, .run nextCall, .send nextCall true, .run nextCall,
        .sendRpcResponse nextCall responseInTerm6, .recv nextCall (some 2)]).map
      (fun S => ((S.phase someCall : CallPhase RaftRpcProctoc.InstallSnapshotResponse),
        (S.phase nextCall : CallPhase RaftRpcProctoc.InstallSnapshotResponse))) =
        some (.returned responseInTerm5, .returned responseInTerm6) := by
    decide +kernel
  obtain ⟨S, hS, hphases⟩ := Option.map_eq_some_iff.1 hrun
  obtain ⟨hphase, hphase'⟩ := Prod.mk.inj hphases
  have hreach := Machine.reaches_of_runWhere hS
  have hbelong := belong (some 4) hreach
  exact ⟨S, hreach, hphase, hbelong _ _ hphase, hphase', hbelong _ _ hphase'⟩

/-- The follower closes the connection without an answer, and the leader takes it for one. -/
theorem not_belong : ¬ ∀ (ι : Type) [DecidableEq ι] [RpcCalls ι] (fd : Option ℕ)
    (S : MprpcChannel ι), (machine ι).Reachable (create fd) S → S.Belong := by
  intro h
  have hrun : ((machine InstallSnapshotCall).run (create (some 4))
      [.run someCall, .run someCall, .send someCall true, .run someCall, .close 0 0,
        .recv someCall (some 0)]).map
      (fun S => ((S.phase someCall : CallPhase RaftRpcProctoc.InstallSnapshotResponse),
        (S.request someCall : RequestState RaftRpcProctoc.InstallSnapshotResponse))) =
        some (.returned ⟨0⟩, .sent 0) := by
    decide +kernel
  obtain ⟨S, hS, hstate⟩ := Option.map_eq_some_iff.1 hrun
  obtain ⟨hphase, hrequest⟩ := Prod.mk.inj hstate
  have hbelong := h InstallSnapshotCall (some 4) S (Machine.reachable_of_run hS) _ _ hphase
  cases hrequest.symm.trans hbelong

end MprpcChannel

end KvRaft
