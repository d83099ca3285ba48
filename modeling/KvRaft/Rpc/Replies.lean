import KvRaft.Kv.Server
import KvRaft.Raft.Effects
import KvRaft.Rpc.Messages

/-!
# Requests and replies as messages

The handlers work on numbers, positions and strings; what is sent are messages with fields of 32
bits and strings of bytes.  `SendRpcResponse` sends what a reply is serialized to, and if that is
empty it sends nothing, so that the caller waits in `recv` for an answer that never comes.

## Main results

* `RaftMessage.carried` : messages between nodes whose numbers have 32 bits are carried as they are.
* `Raft.replies_sent` : the replies of a node to its peers are never empty, but for one.
* `Reply.received` : what a clerk makes of the part of a reply to a Get that it receives.
-/

namespace KvRaft

open Wire

/-! ### The fields -/

/-- A number that an `int` can hold. -/
def IsInt (x : ℤ) : Prop := -2147483648 ≤ x ∧ x ≤ 2147483647

instance (x : ℤ) : Decidable (IsInt x) := by
  unfold IsInt
  infer_instance

/-- An `int` keeps its numbers. -/
theorem IsInt.toInt_ofInt {x : ℤ} (h : IsInt x) : (BitVec.ofInt 32 x).toInt = x := by
  rw [BitVec.toInt_ofInt]
  exact Int.bmod_eq_of_le (by unfold IsInt at h; omega) (by unfold IsInt at h; omega)

/-- The node an `int` stands for. -/
def nodeOfInt (n : ℕ) (x : BitVec 32) : Option (Fin n) :=
  if h : x.toNat < n then some ⟨x.toNat, h⟩ else none

theorem nodeOfInt_ofNat {n : ℕ} (hn : n ≤ 2147483648) (i : Fin n) :
    nodeOfInt n (BitVec.ofNat 32 i) = some i := by
  have hi := i.isLt
  have hmod : (BitVec.ofNat 32 i).toNat = i := by
    rw [BitVec.toNat_ofNat, Nat.mod_eq_of_lt (by omega)]
  simp only [nodeOfInt, hmod, dif_pos hi]

/-- The constants `Disconnected` and `AppNormal`. -/
def AppState.toInt : AppState → BitVec 32
  | disconnected => 0
  | appNormal => 1

def AppState.ofInt (x : BitVec 32) : Option AppState :=
  if x = 0 then some disconnected else if x = 1 then some appNormal else none

theorem AppState.ofInt_toInt (x : AppState) : ofInt x.toInt = some x := by cases x <;> rfl

/-- The constants `Killed`, `Voted`, `Expire` and `Normal`. -/
def VoteState.toInt : VoteState → BitVec 32
  | killed => 0
  | voted => 1
  | expire => 2
  | normal => 3

def VoteState.ofInt (x : BitVec 32) : Option VoteState :=
  if x = 0 then some killed else if x = 1 then some voted else if x = 2 then some expire
  else if x = 3 then some normal else none

theorem VoteState.ofInt_toInt (x : VoteState) : ofInt x.toInt = some x := by cases x <;> rfl

/-! ### Messages between Raft nodes -/

namespace RaftRpcProctoc

/-- An entry with its fields as they are sent. -/
def LogEntry.of (log : KvRaft.LogEntry Bytes) : LogEntry where
  command := log.command
  logterm := .ofInt 32 log.logterm
  logindex := .ofInt 32 log.logindex

/-- The entry a message stands for. -/
def LogEntry.get (log : LogEntry) : KvRaft.LogEntry Bytes where
  command := log.command
  logterm := log.logterm.toInt
  logindex := log.logindex.toInt

end RaftRpcProctoc

/-- The messages between Raft nodes, as the handlers see them. -/
inductive RaftMessage (n : ℕ) where
  | appendEntriesArgs (args : AppendEntriesArgs n Bytes)
  | appendEntriesReply (reply : AppendEntriesReply)
  | requestVoteArgs (args : RequestVoteArgs n)
  | requestVoteReply (reply : RequestVoteReply)
  | installSnapshotRequest (args : InstallSnapshotRequest n Bytes)
  | installSnapshotResponse (reply : InstallSnapshotResponse)
  deriving DecidableEq

namespace RaftMessage

variable {n : ℕ}

def kind : RaftMessage n → RpcMessage
  | appendEntriesArgs _ => .appendEntriesArgs
  | appendEntriesReply _ => .appendEntriesReply
  | requestVoteArgs _ => .requestVoteArgs
  | requestVoteReply _ => .requestVoteReply
  | installSnapshotRequest _ => .installSnapshotRequest
  | installSnapshotResponse _ => .installSnapshotResponse

/-- The message with its fields as they are sent. -/
def message : (x : RaftMessage n) → x.kind.Message
  | appendEntriesArgs args =>
    { term := .ofInt 32 args.term
      leaderid := .ofNat 32 args.leaderid
      prevlogindex := .ofInt 32 args.prevlogindex
      prevlogterm := .ofInt 32 args.prevlogterm
      entries := args.entries.map RaftRpcProctoc.LogEntry.of
      leadercommit := .ofInt 32 args.leadercommit : RaftRpcProctoc.AppendEntriesArgs }
  | appendEntriesReply reply =>
    { term := .ofInt 32 reply.term
      success := reply.success
      updatenextindex := .ofInt 32 reply.updatenextindex
      appstate := reply.appstate.toInt : RaftRpcProctoc.AppendEntriesReply }
  | requestVoteArgs args =>
    { term := .ofInt 32 args.term
      candidateid := .ofNat 32 args.candidateid
      lastlogindex := .ofInt 32 args.lastlogindex
      lastlogterm := .ofInt 32 args.lastlogterm : RaftRpcProctoc.RequestVoteArgs }
  | requestVoteReply reply =>
    { term := .ofInt 32 reply.term
      votegranted := reply.votegranted
      votestate := reply.votestate.toInt : RaftRpcProctoc.RequestVoteReply }
  | installSnapshotRequest args =>
    { leaderid := .ofNat 32 args.leaderid
      term := .ofInt 32 args.term
      lastsnapshotincludeindex := .ofInt 32 args.lastsnapshotincludeindex
      lastsnapshotincludeterm := .ofInt 32 args.lastsnapshotincludeterm
      data := args.data : RaftRpcProctoc.InstallSnapshotRequest }
  | installSnapshotResponse reply =>
    { term := .ofInt 32 reply.term : RaftRpcProctoc.InstallSnapshotResponse }

/-- What the receiver makes of a message. -/
def ofMessage (n : ℕ) : (k : RpcMessage) → k.Message → Option (RaftMessage n)
  | .appendEntriesArgs, (m : RaftRpcProctoc.AppendEntriesArgs) =>
    (nodeOfInt n m.leaderid).map fun leaderid => appendEntriesArgs
      { term := m.term.toInt
        leaderid := leaderid
        prevlogindex := m.prevlogindex.toInt
        prevlogterm := m.prevlogterm.toInt
        entries := m.entries.map RaftRpcProctoc.LogEntry.get
        leadercommit := m.leadercommit.toInt }
  | .appendEntriesReply, (m : RaftRpcProctoc.AppendEntriesReply) =>
    (AppState.ofInt m.appstate).map fun appstate => appendEntriesReply
      { term := m.term.toInt
        success := m.success
        updatenextindex := m.updatenextindex.toInt
        appstate := appstate }
  | .requestVoteArgs, (m : RaftRpcProctoc.RequestVoteArgs) =>
    (nodeOfInt n m.candidateid).map fun candidateid => requestVoteArgs
      { term := m.term.toInt
        candidateid := candidateid
        lastlogindex := m.lastlogindex.toInt
        lastlogterm := m.lastlogterm.toInt }
  | .requestVoteReply, (m : RaftRpcProctoc.RequestVoteReply) =>
    (VoteState.ofInt m.votestate).map fun votestate => requestVoteReply
      { term := m.term.toInt
        votegranted := m.votegranted
        votestate := votestate }
  | .installSnapshotRequest, (m : RaftRpcProctoc.InstallSnapshotRequest) =>
    (nodeOfInt n m.leaderid).map fun leaderid => installSnapshotRequest
      { leaderid := leaderid
        term := m.term.toInt
        lastsnapshotincludeindex := m.lastsnapshotincludeindex.toInt
        lastsnapshotincludeterm := m.lastsnapshotincludeterm.toInt
        data := m.data }
  | .installSnapshotResponse, (m : RaftRpcProctoc.InstallSnapshotResponse) =>
    some (installSnapshotResponse { term := m.term.toInt })
  | .getArgs, _ | .getReply, _ | .putAppendArgs, _ | .putAppendReply, _ => none

/-- The numbers of a message. -/
def numbers : RaftMessage n → List ℤ
  | appendEntriesArgs args =>
    [args.term, args.prevlogindex, args.prevlogterm, args.leadercommit] ++
      args.entries.flatMap fun log => [log.logterm, log.logindex]
  | appendEntriesReply reply => [reply.term, reply.updatenextindex]
  | requestVoteArgs args => [args.term, args.lastlogindex, args.lastlogterm]
  | requestVoteReply reply => [reply.term]
  | installSnapshotRequest args =>
    [args.term, args.lastsnapshotincludeindex, args.lastsnapshotincludeterm]
  | installSnapshotResponse reply => [reply.term]

theorem get_of_entry {log : LogEntry Bytes} (hterm : IsInt log.logterm)
    (hindex : IsInt log.logindex) : (RaftRpcProctoc.LogEntry.of log).get = log := by
  simp only [RaftRpcProctoc.LogEntry.of, RaftRpcProctoc.LogEntry.get, hterm.toInt_ofInt,
    hindex.toInt_ofInt]

theorem ofMessage_message (x : RaftMessage n) (hn : n ≤ 2147483648)
    (h : ∀ v ∈ x.numbers, IsInt v) : ofMessage n x.kind x.message = some x := by
  cases x with
  | appendEntriesArgs args =>
    simp only [numbers, List.mem_append, List.mem_cons, List.mem_flatMap, List.not_mem_nil,
      or_false] at h
    have hentries : (args.entries.map RaftRpcProctoc.LogEntry.of).map RaftRpcProctoc.LogEntry.get =
        args.entries := by
      rw [List.map_map]
      refine (List.map_congr_left fun log hlog => ?_).trans (List.map_id _)
      exact get_of_entry (h _ (Or.inr ⟨log, hlog, Or.inl rfl⟩))
        (h _ (Or.inr ⟨log, hlog, Or.inr rfl⟩))
    simp only [message, kind, ofMessage, nodeOfInt_ofNat hn, hentries, Option.map_some,
      (h args.term (by simp)).toInt_ofInt, (h args.prevlogindex (by simp)).toInt_ofInt,
      (h args.prevlogterm (by simp)).toInt_ofInt, (h args.leadercommit (by simp)).toInt_ofInt]
  | appendEntriesReply reply =>
    simp only [message, kind, ofMessage, AppState.ofInt_toInt, Option.map_some,
      (h reply.term (by simp [numbers])).toInt_ofInt,
      (h reply.updatenextindex (by simp [numbers])).toInt_ofInt]
  | requestVoteArgs args =>
    simp only [message, kind, ofMessage, nodeOfInt_ofNat hn, Option.map_some,
      (h args.term (by simp [numbers])).toInt_ofInt,
      (h args.lastlogindex (by simp [numbers])).toInt_ofInt,
      (h args.lastlogterm (by simp [numbers])).toInt_ofInt]
  | requestVoteReply reply =>
    simp only [message, kind, ofMessage, VoteState.ofInt_toInt, Option.map_some,
      (h reply.term (by simp [numbers])).toInt_ofInt]
  | installSnapshotRequest args =>
    simp only [message, kind, ofMessage, nodeOfInt_ofNat hn, Option.map_some,
      (h args.term (by simp [numbers])).toInt_ofInt,
      (h args.lastsnapshotincludeindex (by simp [numbers])).toInt_ofInt,
      (h args.lastsnapshotincludeterm (by simp [numbers])).toInt_ofInt]
  | installSnapshotResponse reply =>
    simp only [message, kind, ofMessage, (h reply.term (by simp [numbers])).toInt_ofInt]

/-- **What a Raft node sends is what its peer receives**, as long as the numbers have 32 bits. -/
theorem carried (x : RaftMessage n) (hn : n ≤ 2147483648) (h : ∀ v ∈ x.numbers, IsInt v)
    (hsize : x.kind.type.byteSize x.message ≤ intMax - 16) :
    ∃ bs, x.kind.type.serializeToString x.message = some bs ∧
      (x.kind.type.parseFromString bs).bind (ofMessage n x.kind) = some x := by
  refine ⟨_, RpcMessage.serializeToString_type hsize, ?_⟩
  rw [MessageType.parseFromString_write _ hsize]
  exact ofMessage_message x hn h

def oneEntry : RaftMessage 3 :=
  appendEntriesArgs ⟨3, 2, 7, -1, [⟨[0x61], 3, 8⟩], 7⟩

theorem carried_oneEntry : ∃ bs, oneEntry.kind.type.serializeToString oneEntry.message = some bs ∧
    (oneEntry.kind.type.parseFromString bs).bind (ofMessage 3 oneEntry.kind) = some oneEntry :=
  carried oneEntry (by decide) (by decide) (by decide +kernel)

/-- What is sent. -/
def bytes (x : RaftMessage n) : Bytes := x.kind.type.write x.message

end RaftMessage

/-! ### Empty replies -/

namespace Raft

variable {n : ℕ} {C D : Type} {rf rf' : Raft n C D}

/-- A vote reply has a reason. -/
theorem requestVote_votestate {args : RequestVoteArgs n} {reply : RequestVoteReply}
    (h : rf.requestVote args = .ok (rf', reply)) : reply.votestate ≠ .killed := by
  unfold requestVote at h
  split_ifs at h
  · obtain ⟨-, rfl⟩ := Prod.mk.inj (pure_eq_ok.1 h)
    simp
  obtain ⟨_, -, h⟩ := bind_eq_ok.1 h
  split_ifs at h <;> obtain ⟨-, rfl⟩ := Prod.mk.inj (pure_eq_ok.1 h) <;> simp

/-- A reply to an AppendEntries call says that the network works. -/
theorem appendEntries1_appstate [DecidableEq C] {args : AppendEntriesArgs n C}
    {reply : AppendEntriesReply} (h : rf.appendEntries1 args = .ok (rf', reply)) :
    reply.appstate = .appNormal := by
  by_cases hlt : args.term < rf.currentTerm
  · obtain ⟨-, rfl⟩ : _ ∧ _ := by simpa [appendEntries1, hlt] using h
    rfl
  simp only [appendEntries1, if_neg hlt, bind_eq_ok] at h
  obtain ⟨_, -, h⟩ := h
  split_ifs at h
  · obtain ⟨-, rfl⟩ := Prod.mk.inj (pure_eq_ok.1 h)
    rfl
  all_goals
    obtain ⟨b, -, h'⟩ := bind_eq_ok.1 h
    cases b with
    | false =>
      obtain ⟨found, -, h''⟩ := bind_eq_ok.1 h'
      obtain ⟨-, rfl⟩ := Prod.mk.inj (pure_eq_ok.1 h'')
      rfl
    | true =>
      simp only [if_true, bind_eq_ok] at h'
      obtain ⟨rf₂, -, _, -, _, -, h''⟩ := h'
      obtain ⟨-, rfl⟩ := Prod.mk.inj (pure_eq_ok.1 h'')
      rfl

/-- The term of a reply to an InstallSnapshot call: none if the node has the snapshot already. -/
theorem installSnapshot_term {args : InstallSnapshotRequest n D}
    {reply : InstallSnapshotResponse} {msg : Option (ApplyMsg C D)}
    (h : rf.installSnapshot args = .ok (rf', reply, msg)) :
    reply.term = if rf.currentTerm ≤ args.term ∧
      args.lastsnapshotincludeindex ≤ rf.lastSnapshotIncludeIndex then 0
      else max rf.currentTerm args.term := by
  by_cases hlt : args.term < rf.currentTerm
  · obtain ⟨-, rfl, -⟩ : _ ∧ _ ∧ _ := by simpa [installSnapshot, hlt] using h
    rw [if_neg (by omega), max_eq_left (by omega)]
  simp only [installSnapshot, if_neg hlt] at h
  generalize hrf₁ : (if args.term > rf.currentTerm then (rf.stepDown args.term).persist else rf) =
    rf₁ at h
  have hfields : rf₁.currentTerm = args.term ∧
      rf₁.lastSnapshotIncludeIndex = rf.lastSnapshotIncludeIndex := by
    rw [← hrf₁]
    split_ifs
    · exact ⟨rfl, rfl⟩
    · exact ⟨by omega, rfl⟩
  rw [hfields.2] at h
  split_ifs at h with hold
  · obtain ⟨-, hreply⟩ := Prod.mk.inj (pure_eq_ok.1 h)
    obtain ⟨rfl, -⟩ := Prod.mk.inj hreply
    rw [if_pos ⟨not_lt.1 hlt, hold⟩]
  all_goals
    obtain ⟨logs, -, h'⟩ := bind_eq_ok.1 h
    obtain ⟨-, hreply⟩ := Prod.mk.inj (pure_eq_ok.1 h')
    obtain ⟨rfl, -⟩ := Prod.mk.inj hreply
    rw [if_neg (fun hc => hold hc.2), max_eq_right (not_lt.1 hlt)]
    exact hfields.1

theorem ofInt_eq_zero_iff {x : ℤ} (h : 0 ≤ x) (hle : x ≤ 2147483647) :
    BitVec.ofInt 32 x = 0 ↔ x = 0 := by
  have hx : IsInt x := by
    unfold IsInt
    omega
  rw [← BitVec.toInt_inj, hx.toInt_ofInt]
  rfl

/-- **Which replies are sent**: those to votes and entries always are, but no answer is sent to the
leader whose snapshot the node has already. -/
theorem replies_sent [DecidableEq C] (rf : Raft n C D) :
    (∀ args rf' reply, rf.requestVote args = .ok (rf', reply) →
      (RaftMessage.requestVoteReply reply : RaftMessage n).bytes ≠ []) ∧
    (∀ args rf' reply, rf.appendEntries1 args = .ok (rf', reply) →
      (RaftMessage.appendEntriesReply reply : RaftMessage n).bytes ≠ []) ∧
    ∀ args rf' reply msg, rf.installSnapshot args = .ok (rf', reply, msg) →
      0 < args.term → max rf.currentTerm args.term ≤ 2147483647 →
        ((RaftMessage.installSnapshotResponse reply : RaftMessage n).bytes = [] ↔
          rf.currentTerm ≤ args.term ∧
            args.lastsnapshotincludeindex ≤ rf.lastSnapshotIncludeIndex) := by
  refine ⟨fun args rf' reply h hnil => ?_, fun args rf' reply h hnil => ?_,
    fun args rf' reply msg h hpos hmax => ?_⟩
  · have hstate : reply.votestate.toInt = 0 :=
      congrArg RaftRpcProctoc.RequestVoteReply.votestate (MessageType.write_eq_nil.1 hnil)
    have hreason := requestVote_votestate h
    cases hvote : reply.votestate <;> simp [hvote, VoteState.toInt] at hstate hreason
  · have hstate : reply.appstate.toInt = 0 :=
      congrArg RaftRpcProctoc.AppendEntriesReply.appstate (MessageType.write_eq_nil.1 hnil)
    rw [appendEntries1_appstate h] at hstate
    cases hstate
  · have hterm := installSnapshot_term h
    have hbytes : (RaftMessage.installSnapshotResponse reply : RaftMessage n).bytes = [] ↔
        BitVec.ofInt 32 reply.term = 0 := by
      refine MessageType.write_eq_nil.trans ⟨fun heq => ?_, fun heq => ?_⟩
      · exact congrArg RaftRpcProctoc.InstallSnapshotResponse.term heq
      · exact congrArg RaftRpcProctoc.InstallSnapshotResponse.mk heq
    rw [hbytes, hterm]
    split_ifs with hold
    · exact iff_of_true rfl hold
    · rw [ofInt_eq_zero_iff (by omega) hmax]
      exact iff_of_false (by omega) hold

/-- A node of a cluster of two whose log is compacted up to index 5. -/
def compactedNode : Raft 2 Bytes Bytes :=
  { fresh 0 {} with currentTerm := 2, lastSnapshotIncludeIndex := 5, lastSnapshotIncludeTerm := 2 }

theorem replies_sent_compactedNode :
    ∃ rf' reply, compactedNode.installSnapshot ⟨1, 2, 5, 2, []⟩ = .ok (rf', reply, none) ∧
      (RaftMessage.installSnapshotResponse reply : RaftMessage 2).bytes = [] :=
  ⟨_, _, rfl, ((replies_sent compactedNode).2.2 ⟨1, 2, 5, 2, []⟩ _ _ none rfl (by decide)
    (by decide)).2 (by decide)⟩

end Raft

/-! ### Replies to clerks -/

/-- The constants `OK`, `ErrNoKey` and `ErrWrongLeader`. -/
def Err.text : Err → Bytes
  | ok => [0x4f, 0x4b]
  | errNoKey => [0x45, 0x72, 0x72, 0x4e, 0x6f, 0x4b, 0x65, 0x79]
  | errWrongLeader =>
    [0x45, 0x72, 0x72, 0x57, 0x72, 0x6f, 0x6e, 0x67, 0x4c, 0x65, 0x61, 0x64, 0x65, 0x72]

/-- The reply to a Get as it is sent. -/
def Reply.getReply (r : Reply) : RaftKVRpcProctoc.GetReply where
  err := r.err.text
  value := r.value.toUTF8.data.toList

namespace RaftKVRpcProctoc.GetReply

/-- The size of the first field of a reply. -/
def errSize (err : Err) : ℕ := FieldType.bytes.byteSize err.text

theorem length_errField (err : Err) :
    (FieldType.bytes.write 10 err.text).length = errSize err := by
  cases err <;> rfl

theorem write_eq (err : Err) (value : Bytes) : type.write ⟨err.text, value⟩ =
    FieldType.bytes.write 10 err.text ++ FieldType.bytes.write 18 value := by
  change _ ++ (_ ++ []) = _
  rw [List.append_nil]
  rfl

theorem field_err (value a bs : Bytes) : type.field ⟨a, value⟩ (10 : UInt8).toNat bs =
    (readBytes bs).map fun x => (⟨x.1, value⟩, x.2) := by
  change (((readBytes bs).map _).map _) = _
  cases readBytes bs <;> rfl

theorem field_value (err a bs : Bytes) : type.field ⟨err, a⟩ (18 : UInt8).toNat bs =
    (readBytes bs).map fun x => (⟨err, x.1⟩, x.2) := by
  change ((((readBytes bs).map _).map _).map _) = _
  cases readBytes bs <;> rfl

theorem fieldTag_err : FieldTag 10 := ⟨by decide, by decide, by decide⟩

theorem fieldTag_value : FieldTag 18 := ⟨by decide, by decide, by decide⟩

/-- Bytes of a field that are cut off fail, unless nothing is left. -/
theorem fails_take {tag : UInt8} (htag : FieldTag tag) {f : Bytes → GetReply}
    (hput : ∀ a bs, type.field (f a) tag.toNat bs =
      (readBytes bs).map fun x => (f x.1, x.2)) {a v : Bytes} {n : ℕ}
    (hv : FieldType.bytes.byteSize v ≤ intMax) (hn : n < (FieldType.bytes.write tag v).length)
    (hpos : n ≠ 0) : Fails type.field (f a) ((FieldType.bytes.write tag v).take n) := by
  obtain ⟨n, rfl⟩ := Nat.exists_eq_succ_of_ne_zero hpos
  change _ < (if v = [] then [] else tag :: (writeVarint 4 v.length ++ v)).length at hn
  change Fails type.field _ ((if v = [] then [] else tag :: (writeVarint 4 v.length ++ v)).take _)
  change (if v = [] then 0 else 1 + varintSize v.length + v.length) ≤ _ at hv
  split_ifs at hn hv ⊢
  · cases hn
  · exact fails_bytes htag hput (Nat.lt_of_succ_lt_succ hn) (by omega)

/-- The error of a reply is read. -/
theorem reads_err (err : Err) (rest : Bytes) : Reads type.field type.default
    (FieldType.bytes.write 10 err.text ++ rest) ⟨err.text, []⟩ rest := by
  have hreads := FieldType.bytes.reads type.consumes_field fieldTag_err (f := fun a => ⟨a, []⟩)
    (field_err []) [] err.text rest (by cases err <;> decide)
  have hmerge : FieldType.bytes.mergeFrom [] err.text = err.text := by cases err <;> rfl
  rwa [hmerge] at hreads

/-- What is parsed of a part of a reply. -/
theorem parse_take (err : Err) (value : Bytes) (n : ℕ)
    (h : type.byteSize ⟨err.text, value⟩ ≤ intMax - 16) :
    type.parseFromString ((type.write ⟨err.text, value⟩).take n) =
      if type.byteSize ⟨err.text, value⟩ ≤ n then some ⟨err.text, value⟩
      else if n = errSize err then some ⟨err.text, []⟩
      else if n = 0 then some {} else none := by
  have hlen := MessageType.length_write (Nat.le_trans h (Nat.sub_le _ _))
  have herr := length_errField err
  have hsize : type.byteSize ⟨err.text, value⟩ =
      errSize err + FieldType.bytes.byteSize value := by
    change _ + (_ + 0) = _
    rw [Nat.add_zero]
    rfl
  split_ifs with hall hcut hzero
  · exact (MessageType.parse_take_iff h n).2 hall
  all_goals rw [write_eq]
  · -- the value is missing
    subst hcut
    have hreads := reads_err err []
    rw [List.append_nil] at hreads
    rw [← herr, List.take_left]
    exact parseMessage_of_reads hreads
  · subst hzero
    rfl
  · rw [write_eq, List.length_append, herr] at hlen
    by_cases hfirst : n < errSize err
    · -- the error is cut off
      rw [List.take_append_of_le_length (by omega)]
      exact parseMessage_of_fails (fails_take (f := fun a => ⟨a, []⟩) fieldTag_err (field_err [])
        (by cases err <;> decide) (by omega) hzero)
    · -- the value is cut off
      rw [List.take_append, List.take_of_length_le (by omega)]
      refine parseMessage_of_fails ((reads_err err _).fails ?_)
      exact fails_take (f := fun a => ⟨err.text, a⟩) fieldTag_value (field_value err.text)
        (by omega) (by omega) (by omega)

end RaftKVRpcProctoc.GetReply

/-- **How the reply to a Get is received**, if the first `n` bytes of it are: whole if these are
all, and not at all otherwise, unless just the value is missing, which is then taken for empty. -/
theorem Reply.received (r : Reply) (n : ℕ)
    (h : RaftKVRpcProctoc.GetReply.type.byteSize r.getReply ≤ intMax - 16) :
    RaftKVRpcProctoc.GetReply.type.parseFromString
        ((RaftKVRpcProctoc.GetReply.type.write r.getReply).take n) =
      if RaftKVRpcProctoc.GetReply.type.byteSize r.getReply ≤ n then some r.getReply
      else if n = RaftKVRpcProctoc.GetReply.errSize r.err then some ⟨r.err.text, []⟩
      else if n = 0 then some {} else none :=
  RaftKVRpcProctoc.GetReply.parse_take r.err _ n h

/-- The first four bytes of a reply with a value. -/
theorem Reply.received_fourBytes : RaftKVRpcProctoc.GetReply.type.parseFromString
    ((RaftKVRpcProctoc.GetReply.type.write (Reply.getReply ⟨.ok, "v"⟩)).take 4) =
      some ⟨Err.ok.text, []⟩ :=
  (received ⟨.ok, "v"⟩ 4 (by decide +kernel)).trans (by decide +kernel)

end KvRaft
