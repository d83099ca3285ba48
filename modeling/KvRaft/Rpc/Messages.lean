import KvRaft.Protobuf.Message

/-!
# The messages of the services

The messages of `raftRPC.proto` and `kvServerRPC.proto` with the code that is generated for them,
and the methods of the two services.  All fields are of type `int32`, `bool` or `bytes`, but for the
entries of `AppendEntriesArgs`, which are messages themselves.

## Main results

* `RpcMessage.message_roundTrip` : a message is read back, and two of them are read as one.
* `RpcMessage.message_received` : a message is read back from the buffer of a channel if it fits.
-/

namespace KvRaft

open Wire

/-! ### `raftRPC.proto` -/

namespace RaftRpcProctoc

structure LogEntry where
  command : Bytes := []
  logterm : BitVec 32 := 0
  logindex : BitVec 32 := 0
  deriving DecidableEq

def LogEntry.type : MessageType LogEntry where
  Values := Bytes × BitVec 32 × BitVec 32 × Unit
  fields := .cons .bytes (.cons .int32 (.cons .int32 .nil))
  count_le := by decide
  values m := (m.command, m.logterm, m.logindex, ())
  ofValues v := ⟨v.1, v.2.1, v.2.2.1⟩
  ofValues_values _ := rfl
  values_ofValues _ := rfl

structure AppendEntriesArgs where
  term : BitVec 32 := 0
  leaderid : BitVec 32 := 0
  prevlogindex : BitVec 32 := 0
  prevlogterm : BitVec 32 := 0
  entries : List LogEntry := []
  leadercommit : BitVec 32 := 0
  deriving DecidableEq

def AppendEntriesArgs.type : MessageType AppendEntriesArgs where
  Values := BitVec 32 × BitVec 32 × BitVec 32 × BitVec 32 × List LogEntry × BitVec 32 × Unit
  fields := .cons .int32 (.cons .int32 (.cons .int32 (.cons .int32
    (.cons (.messages LogEntry.type) (.cons .int32 .nil)))))
  count_le := by decide
  values m :=
    (m.term, m.leaderid, m.prevlogindex, m.prevlogterm, m.entries, m.leadercommit, ())
  ofValues v := ⟨v.1, v.2.1, v.2.2.1, v.2.2.2.1, v.2.2.2.2.1, v.2.2.2.2.2.1⟩
  ofValues_values _ := rfl
  values_ofValues _ := rfl

structure AppendEntriesReply where
  term : BitVec 32 := 0
  success : Bool := false
  updatenextindex : BitVec 32 := 0
  appstate : BitVec 32 := 0
  deriving DecidableEq

def AppendEntriesReply.type : MessageType AppendEntriesReply where
  Values := BitVec 32 × Bool × BitVec 32 × BitVec 32 × Unit
  fields := .cons .int32 (.cons .bool (.cons .int32 (.cons .int32 .nil)))
  count_le := by decide
  values m := (m.term, m.success, m.updatenextindex, m.appstate, ())
  ofValues v := ⟨v.1, v.2.1, v.2.2.1, v.2.2.2.1⟩
  ofValues_values _ := rfl
  values_ofValues _ := rfl

structure RequestVoteArgs where
  term : BitVec 32 := 0
  candidateid : BitVec 32 := 0
  lastlogindex : BitVec 32 := 0
  lastlogterm : BitVec 32 := 0
  deriving DecidableEq

def RequestVoteArgs.type : MessageType RequestVoteArgs where
  Values := BitVec 32 × BitVec 32 × BitVec 32 × BitVec 32 × Unit
  fields := .cons .int32 (.cons .int32 (.cons .int32 (.cons .int32 .nil)))
  count_le := by decide
  values m := (m.term, m.candidateid, m.lastlogindex, m.lastlogterm, ())
  ofValues v := ⟨v.1, v.2.1, v.2.2.1, v.2.2.2.1⟩
  ofValues_values _ := rfl
  values_ofValues _ := rfl

structure RequestVoteReply where
  term : BitVec 32 := 0
  votegranted : Bool := false
  votestate : BitVec 32 := 0
  deriving DecidableEq

def RequestVoteReply.type : MessageType RequestVoteReply where
  Values := BitVec 32 × Bool × BitVec 32 × Unit
  fields := .cons .int32 (.cons .bool (.cons .int32 .nil))
  count_le := by decide
  values m := (m.term, m.votegranted, m.votestate, ())
  ofValues v := ⟨v.1, v.2.1, v.2.2.1⟩
  ofValues_values _ := rfl
  values_ofValues _ := rfl

structure InstallSnapshotRequest where
  leaderid : BitVec 32 := 0
  term : BitVec 32 := 0
  lastsnapshotincludeindex : BitVec 32 := 0
  lastsnapshotincludeterm : BitVec 32 := 0
  data : Bytes := []
  deriving DecidableEq

def InstallSnapshotRequest.type : MessageType InstallSnapshotRequest where
  Values := BitVec 32 × BitVec 32 × BitVec 32 × BitVec 32 × Bytes × Unit
  fields := .cons .int32 (.cons .int32 (.cons .int32 (.cons .int32 (.cons .bytes .nil))))
  count_le := by decide
  values m :=
    (m.leaderid, m.term, m.lastsnapshotincludeindex, m.lastsnapshotincludeterm, m.data, ())
  ofValues v := ⟨v.1, v.2.1, v.2.2.1, v.2.2.2.1, v.2.2.2.2.1⟩
  ofValues_values _ := rfl
  values_ofValues _ := rfl

structure InstallSnapshotResponse where
  term : BitVec 32 := 0
  deriving DecidableEq

namespace InstallSnapshotResponse

def type : MessageType InstallSnapshotResponse where
  Values := BitVec 32 × Unit
  fields := .cons .int32 .nil
  count_le := by decide
  values m := (m.term, ())
  ofValues v := ⟨v.1⟩
  ofValues_values _ := rfl
  values_ofValues _ := rfl

/-- A negative term is written with 64 bits, in ten bytes. -/
theorem byteSize_le (r : InstallSnapshotResponse) : type.byteSize r ≤ 11 := by
  have hlen := length_writeVarint_le 9 (r.term.signExtend 64).toNat
  rw [length_writeVarint (FieldType.signExtend_lt r.term)] at hlen
  change (if r.term = 0 then 0 else 1 + varintSize (r.term.signExtend 64).toNat) + 0 ≤ 11
  split_ifs <;> omega

/-- A response that is serialized is read back. -/
theorem parse_serialize {r : InstallSnapshotResponse} {bs : Bytes}
    (h : type.serializeToString r = some bs) : type.parseFromString bs = some r := by
  have hsize := r.byteSize_le
  rw [MessageType.serializeToString, if_pos (hsize.trans (by decide))] at h
  rw [← Option.some.inj h]
  exact MessageType.parseFromString_write r (hsize.trans (by decide))

end InstallSnapshotResponse

end RaftRpcProctoc

/-! ### `kvServerRPC.proto` -/

namespace RaftKVRpcProctoc

structure GetArgs where
  key : Bytes := []
  clientid : Bytes := []
  requestid : BitVec 32 := 0
  deriving DecidableEq

def GetArgs.type : MessageType GetArgs where
  Values := Bytes × Bytes × BitVec 32 × Unit
  fields := .cons .bytes (.cons .bytes (.cons .int32 .nil))
  count_le := by decide
  values m := (m.key, m.clientid, m.requestid, ())
  ofValues v := ⟨v.1, v.2.1, v.2.2.1⟩
  ofValues_values _ := rfl
  values_ofValues _ := rfl

structure GetReply where
  err : Bytes := []
  value : Bytes := []
  deriving DecidableEq

def GetReply.type : MessageType GetReply where
  Values := Bytes × Bytes × Unit
  fields := .cons .bytes (.cons .bytes .nil)
  count_le := by decide
  values m := (m.err, m.value, ())
  ofValues v := ⟨v.1, v.2.1⟩
  ofValues_values _ := rfl
  values_ofValues _ := rfl

structure PutAppendArgs where
  key : Bytes := []
  value : Bytes := []
  op : Bytes := []
  clientid : Bytes := []
  requestid : BitVec 32 := 0
  deriving DecidableEq

def PutAppendArgs.type : MessageType PutAppendArgs where
  Values := Bytes × Bytes × Bytes × Bytes × BitVec 32 × Unit
  fields := .cons .bytes (.cons .bytes (.cons .bytes (.cons .bytes (.cons .int32 .nil))))
  count_le := by decide
  values m := (m.key, m.value, m.op, m.clientid, m.requestid, ())
  ofValues v := ⟨v.1, v.2.1, v.2.2.1, v.2.2.2.1, v.2.2.2.2.1⟩
  ofValues_values _ := rfl
  values_ofValues _ := rfl

structure PutAppendReply where
  err : Bytes := []
  deriving DecidableEq

def PutAppendReply.type : MessageType PutAppendReply where
  Values := Bytes × Unit
  fields := .cons .bytes .nil
  count_le := by decide
  values m := (m.err, ())
  ofValues v := ⟨v.1⟩
  ofValues_values _ := rfl
  values_ofValues _ := rfl

end RaftKVRpcProctoc

/-! ### All of them -/

/-- The messages that are sent as arguments or responses. -/
inductive RpcMessage where
  | appendEntriesArgs
  | appendEntriesReply
  | requestVoteArgs
  | requestVoteReply
  | installSnapshotRequest
  | installSnapshotResponse
  | getArgs
  | getReply
  | putAppendArgs
  | putAppendReply

namespace RpcMessage

def Message : RpcMessage → Type
  | appendEntriesArgs => RaftRpcProctoc.AppendEntriesArgs
  | appendEntriesReply => RaftRpcProctoc.AppendEntriesReply
  | requestVoteArgs => RaftRpcProctoc.RequestVoteArgs
  | requestVoteReply => RaftRpcProctoc.RequestVoteReply
  | installSnapshotRequest => RaftRpcProctoc.InstallSnapshotRequest
  | installSnapshotResponse => RaftRpcProctoc.InstallSnapshotResponse
  | getArgs => RaftKVRpcProctoc.GetArgs
  | getReply => RaftKVRpcProctoc.GetReply
  | putAppendArgs => RaftKVRpcProctoc.PutAppendArgs
  | putAppendReply => RaftKVRpcProctoc.PutAppendReply

def type : (k : RpcMessage) → MessageType k.Message
  | appendEntriesArgs => RaftRpcProctoc.AppendEntriesArgs.type
  | appendEntriesReply => RaftRpcProctoc.AppendEntriesReply.type
  | requestVoteArgs => RaftRpcProctoc.RequestVoteArgs.type
  | requestVoteReply => RaftRpcProctoc.RequestVoteReply.type
  | installSnapshotRequest => RaftRpcProctoc.InstallSnapshotRequest.type
  | installSnapshotResponse => RaftRpcProctoc.InstallSnapshotResponse.type
  | getArgs => RaftKVRpcProctoc.GetArgs.type
  | getReply => RaftKVRpcProctoc.GetReply.type
  | putAppendArgs => RaftKVRpcProctoc.PutAppendArgs.type
  | putAppendReply => RaftKVRpcProctoc.PutAppendReply.type

variable {k : RpcMessage}

theorem serializeToString_type {m : k.Message} (h : k.type.byteSize m ≤ intMax - 16) :
    k.type.serializeToString m = some (k.type.write m) :=
  if_pos (Nat.le_trans h (Nat.sub_le _ _))

/-- **Messages are read back**, each from as many bytes as `ByteSizeLong` says; and two messages
that arrive together are taken for one, their `MergeFrom`. -/
theorem message_roundTrip (m m' : k.Message) (h : k.type.byteSize m ≤ intMax - 16)
    (h' : k.type.byteSize m' ≤ intMax - 16) :
    ∃ bs bs', k.type.serializeToString m = some bs ∧ k.type.serializeToString m' = some bs' ∧
      bs.length = k.type.byteSize m ∧ k.type.parseFromString bs = some m ∧
        k.type.parseFromString (bs ++ bs') = some (k.type.mergeFrom m m') := by
  refine ⟨_, _, serializeToString_type h, serializeToString_type h',
    MessageType.length_write (Nat.le_trans h (Nat.sub_le _ _)),
    MessageType.parseFromString_write m h, ?_⟩
  rw [MessageType.parseFromString, MessageType.mergeFromString_write_append _ _ _ h,
    MessageType.mergeFrom_default, MessageType.mergeFromString_write _ _ h']

/-- Two entries. -/
def twoEntries : RaftRpcProctoc.AppendEntriesArgs where
  term := 3
  prevlogindex := 7
  prevlogterm := 2
  entries := [⟨[0x61], 2, 8⟩, ⟨[], 3, 9⟩]
  leadercommit := 7

/-- A heartbeat of a later term. -/
def noEntries : RaftRpcProctoc.AppendEntriesArgs where
  term := 4
  leaderid := 1
  prevlogindex := 9

theorem message_roundTrip_entries : ∃ bs bs',
    (type appendEntriesArgs).serializeToString twoEntries = some bs ∧
      (type appendEntriesArgs).serializeToString noEntries = some bs' ∧
      bs.length = (type appendEntriesArgs).byteSize twoEntries ∧
      (type appendEntriesArgs).parseFromString bs = some twoEntries ∧
      (type appendEntriesArgs).parseFromString (bs ++ bs') =
        some { twoEntries with term := 4, leaderid := 1, prevlogindex := 9 } :=
  message_roundTrip (k := appendEntriesArgs) twoEntries noEntries (by decide +kernel)
    (by decide +kernel)

/-- **A message that arrives in part is never taken for the whole**: of a response `recv` returns
the first `n` bytes, at most 1024, and the response is read back only if it has no more.  What is
read of a longer one, if anything, is written as just these bytes. -/
theorem message_received (m : k.Message) (n : ℕ) (h : k.type.byteSize m ≤ intMax - 16) :
    (k.type.parseFromString ((k.type.write m).take n) = some m ↔ k.type.byteSize m ≤ n) ∧
      ∀ m', k.type.parseFromString ((k.type.write m).take n) = some m' →
        k.type.write m' = (k.type.write m).take n :=
  ⟨MessageType.parse_take_iff h n, fun _ => MessageType.write_of_parse_take h⟩

/-- The reply to an AppendEntries call, cut off behind its first field. -/
theorem message_received_reply :
    RaftRpcProctoc.AppendEntriesReply.type.parseFromString [8, 3] = some { term := 3 } ∧
      RaftRpcProctoc.AppendEntriesReply.type.write { term := 3 } = [8, 3] := by
  have hparse : RaftRpcProctoc.AppendEntriesReply.type.parseFromString [8, 3] =
      some { term := 3 } := by
    decide +kernel
  exact ⟨hparse, (message_received (k := appendEntriesReply) { term := 3, success := true } 2
    (by decide +kernel)).2 _ hparse⟩

end RpcMessage

end KvRaft
