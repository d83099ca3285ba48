import KvRaft.Raft.Types
import Mathlib.Logic.Function.Basic

/-!
# The key/value server

`KvServer` holds the fields of class `KvServer` that its functions read or write.  Every function
below is the source function of its name as a function of the server, or one of the sections
under `m_mtx` into which a source function divides.

The skip list is its map from keys to values and a snapshot string is what it serializes; the
empty string is `none`.  Request numbers and indices, of type `int` in the source, are integers
that do not overflow, as in `KvRaft.Raft.Types`.
-/

namespace KvRaft

/-- The operation of a command: `"Get"`, `"Put"` or `"Append"`. -/
inductive Operation where
  | get
  | put
  | append
  deriving DecidableEq

/-- A command, as the servers hand it to Raft. -/
structure Op where
  operation : Operation
  key : String
  value : String
  clientId : String
  requestId : ℤ
  deriving DecidableEq

/-- The command is a Put or an Append. -/
def Op.isWrite (op : Op) : Bool := op.operation ≠ .get

/-- Arguments of the Get call. -/
structure GetArgs where
  key : String
  clientid : String
  requestid : ℤ
  deriving DecidableEq

/-- Arguments of the PutAppend call. -/
structure PutAppendArgs where
  key : String
  value : String
  op : Operation
  clientid : String
  requestid : ℤ
  deriving DecidableEq

/-- A call of one of the two methods of the service. -/
inductive Request where
  | get (args : GetArgs)
  | putAppend (args : PutAppendArgs)
  deriving DecidableEq

/-- The command that the handler of a request builds. -/
def Request.op : Request → Op
  | .get args =>
    { operation := .get
      key := args.key
      value := ""
      clientId := args.clientid
      requestId := args.requestid }
  | .putAppend args =>
    { operation := args.op
      key := args.key
      value := args.value
      clientId := args.clientid
      requestId := args.requestid }

/-- The error field of a reply. -/
inductive Err where
  | ok
  | errNoKey
  | errWrongLeader
  deriving DecidableEq

/-- A reply; that of PutAppend has no value. -/
structure Reply where
  err : Err
  value : String := ""
  deriving DecidableEq

/-- What a snapshot string holds. -/
structure Snapshot where
  serializedKVData : String → Option String
  lastRequestId : String → Option ℤ

/-- A key/value server. -/
structure KvServer where
  /-- The contents of the skip list. -/
  skipList : String → Option String
  lastRequestId : String → Option ℤ
  /-- The wait channels, by their places in `chans`. -/
  waitApplyCh : ℤ → Option ℕ
  lastSnapShotRaftLogIndex : ℤ
  /-- The queues allocated for `waitApplyCh`; a deleted one keeps its place. -/
  chans : List (List Op)

namespace KvServer

/-- A server as its constructor leaves it when there is no snapshot. -/
def init : KvServer where
  skipList _ := none
  lastRequestId _ := none
  waitApplyCh _ := none
  lastSnapShotRaftLogIndex := 0
  chans := []

/-! ### The store -/

/-- Write the key and record the request. -/
def insertAndRecord (kv : KvServer) (op : Op) : KvServer :=
  { kv with
    skipList := Function.update kv.skipList op.key (some op.value)
    lastRequestId := Function.update kv.lastRequestId op.clientId (some op.requestId) }

def executePutOpOnKVDB (kv : KvServer) (op : Op) : KvServer := kv.insertAndRecord op

def executeAppendOpOnKVDB (kv : KvServer) (op : Op) : KvServer := kv.insertAndRecord op

/-- Look the key up and record the request.  Returns the server, the value and whether the key
exists. -/
def executeGetOpOnKVDB (kv : KvServer) (op : Op) : KvServer × String × Bool :=
  ({ kv with lastRequestId := Function.update kv.lastRequestId op.clientId (some op.requestId) },
    (kv.skipList op.key).getD "", (kv.skipList op.key).isSome)

def ifRequestDuplicate (kv : KvServer) (clientId : String) (requestId : ℤ) : Bool :=
  match kv.lastRequestId clientId with
  | none => false
  | some last => requestId ≤ last

/-- The part of `GetCommandFromRaft` after a request that is not a duplicate. -/
def execute (kv : KvServer) (op : Op) : KvServer :=
  match op.operation with
  | .put => kv.executePutOpOnKVDB op
  | .append => kv.executeAppendOpOnKVDB op
  | .get => kv

/-! ### Wait channels -/

/-- Find or allocate the wait channel for an index. -/
def openChan (kv : KvServer) (raftIndex : ℤ) : KvServer × ℕ :=
  match kv.waitApplyCh raftIndex with
  | some ch => (kv, ch)
  | none =>
    ({ kv with
      waitApplyCh := Function.update kv.waitApplyCh raftIndex (some kv.chans.length)
      chans := kv.chans ++ [[]] }, kv.chans.length)

/-- `timeOutPop` finding a command. -/
def popChan (kv : KvServer) (ch : ℕ) : Option (Op × KvServer) :=
  match kv.chans.getD ch [] with
  | [] => none
  | op :: ops => some (op, { kv with chans := kv.chans.set ch ops })

/-- The end of the handlers: erase the wait channel of the index. -/
def closeChan (kv : KvServer) (raftIndex : ℤ) : KvServer :=
  { kv with waitApplyCh := Function.update kv.waitApplyCh raftIndex none }

def sendMessageToWaitChan (kv : KvServer) (op : Op) (raftIndex : ℤ) : KvServer :=
  match kv.waitApplyCh raftIndex with
  | none => kv
  | some ch => { kv with chans := kv.chans.set ch (kv.chans.getD ch [] ++ [op]) }

/-! ### Snapshots -/

def makeSnapShot (kv : KvServer) : Snapshot where
  serializedKVData := kv.skipList
  lastRequestId := kv.lastRequestId

def readSnapShotToInstall (kv : KvServer) : Option Snapshot → KvServer
  | none => kv
  | some snapshot =>
    { kv with
      skipList := snapshot.serializedKVData
      lastRequestId := snapshot.lastRequestId }

/-- `GetSnapShotFromRaft`, where `installed` is the answer of `CondInstallSnapshot`. -/
def getSnapShotFromRaft (kv : KvServer) (snapshot : Option Snapshot) (snapshotIndex : ℤ)
    (installed : Bool) : KvServer :=
  if installed then
    { kv.readSnapShotToInstall snapshot with lastSnapShotRaftLogIndex := snapshotIndex }
  else kv

/-! ### What the sections leave alone -/

variable {kv : KvServer}

theorem execute_of_isWrite {op : Op} (h : op.isWrite = true) : kv.execute op =
    kv.insertAndRecord op := by
  obtain ⟨operation, key, value, clientId, requestId⟩ := op
  cases operation with
  | get => cases h
  | put => rfl
  | append => rfl

theorem execute_of_not_isWrite {op : Op} (h : op.isWrite = false) : kv.execute op = kv := by
  obtain ⟨operation, key, value, clientId, requestId⟩ := op
  cases operation with
  | get => rfl
  | put => cases h
  | append => cases h

theorem execute_skipList (kv : KvServer) (op : Op) : (kv.execute op).skipList =
    if op.isWrite then Function.update kv.skipList op.key (some op.value) else kv.skipList := by
  cases h : op.isWrite with
  | true => rw [execute_of_isWrite h]; rfl
  | false => rw [execute_of_not_isWrite h]; rfl

@[simp] theorem execute_chans (op : Op) : (kv.execute op).chans = kv.chans := by
  cases h : op.isWrite with
  | true => rw [execute_of_isWrite h]; rfl
  | false => rw [execute_of_not_isWrite h]

theorem ifRequestDuplicate_eq_true {clientId : String} {requestId : ℤ} :
    kv.ifRequestDuplicate clientId requestId = true ↔
      ∃ last, kv.lastRequestId clientId = some last ∧ requestId ≤ last := by
  unfold ifRequestDuplicate
  cases kv.lastRequestId clientId with
  | none => simp
  | some last => simp

/-- Store, request table and snapshot index, which the wait channels do not touch. -/
structure SameStore (kv kv' : KvServer) : Prop where
  skipList : kv'.skipList = kv.skipList
  lastRequestId : kv'.lastRequestId = kv.lastRequestId
  lastSnapShotRaftLogIndex : kv'.lastSnapShotRaftLogIndex = kv.lastSnapShotRaftLogIndex

theorem sameStore_openChan (raftIndex : ℤ) : kv.SameStore (kv.openChan raftIndex).1 := by
  unfold openChan
  split <;> exact ⟨rfl, rfl, rfl⟩

theorem sameStore_sendMessageToWaitChan (op : Op) (raftIndex : ℤ) :
    kv.SameStore (kv.sendMessageToWaitChan op raftIndex) := by
  unfold sendMessageToWaitChan
  split <;> exact ⟨rfl, rfl, rfl⟩

/-- The command is in some queue. -/
def Queued (kv : KvServer) (op : Op) : Prop := ∃ ops ∈ kv.chans, op ∈ ops

/-- The server has applied the request as far as its wait channels and its table tell. -/
def Reports (kv : KvServer) (req : Request) : Prop :=
  (∃ op, kv.Queued op ∧ op.clientId = req.op.clientId ∧ op.requestId = req.op.requestId) ∨
    kv.ifRequestDuplicate req.op.clientId req.op.requestId = true

theorem queued_openChan {raftIndex : ℤ} {op : Op} (h : (kv.openChan raftIndex).1.Queued op) :
    kv.Queued op := by
  unfold openChan at h
  split at h
  · exact h
  · obtain ⟨ops, hops, hop⟩ := h
    rcases List.mem_append.1 hops with hops | hops
    · exact ⟨ops, hops, hop⟩
    · rw [List.mem_singleton.1 hops] at hop
      cases hop

theorem queued_sendMessageToWaitChan {raftIndex : ℤ} {op x : Op}
    (h : (kv.sendMessageToWaitChan op raftIndex).Queued x) : kv.Queued x ∨ x = op := by
  unfold sendMessageToWaitChan at h
  split at h
  · exact Or.inl h
  · rename_i ch _
    obtain ⟨ops, hops, hx⟩ := h
    rcases List.mem_or_eq_of_mem_set hops with hops | rfl
    · exact Or.inl ⟨ops, hops, hx⟩
    · rcases List.mem_append.1 hx with hx | hx
      · cases hget : kv.chans[ch]? with
        | none => simp [hget] at hx
        | some ops =>
          exact Or.inl ⟨ops, List.mem_of_getElem? hget, by simpa [hget] using hx⟩
      · exact Or.inr (List.mem_singleton.1 hx)

/-- A command that is popped was in a queue, and the others stay where they are. -/
theorem popChan_eq {ch : ℕ} {op : Op} {kv' : KvServer} (h : kv.popChan ch = some (op, kv')) :
    kv.Queued op ∧ kv.SameStore kv' ∧ ∀ x, kv'.Queued x → kv.Queued x := by
  unfold popChan at h
  cases hget : kv.chans[ch]? with
  | none => simp [hget] at h
  | some ops =>
    have hmem := List.mem_of_getElem? hget
    rw [List.getD_eq_getElem?_getD, hget] at h
    cases ops with
    | nil => simp at h
    | cons op₁ ops =>
      obtain ⟨rfl, rfl⟩ : op₁ = op ∧ { kv with chans := kv.chans.set ch ops } = kv' := by
        simpa using h
      refine ⟨⟨_, hmem, List.mem_cons_self⟩, ⟨rfl, rfl, rfl⟩, fun x ⟨ops', hops', hx⟩ => ?_⟩
      rcases List.mem_or_eq_of_mem_set hops' with hops' | rfl
      · exact ⟨ops', hops', hx⟩
      · exact ⟨_, hmem, List.mem_cons_of_mem _ hx⟩

end KvServer

end KvRaft
