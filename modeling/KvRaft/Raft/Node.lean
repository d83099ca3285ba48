import KvRaft.Raft.Types
import Mathlib.Data.List.FinRange
import Mathlib.Data.Int.Order.Basic

/-!
# The handlers of a Raft node

`Raft n C D` holds the fields of class `Raft` that its handlers read or write; the election and
heartbeat clocks are left out, since timeouts may happen at any time.  Every function below is
the source function of its name, as a function of the node.  A failed `myAssert` is an `error`.

An RPC is split where the source waits for the reply: `sendRequestVote`, `sendAppendEntries` and
`leaderSendSnapShotReply` are the sections that process a reply that arrived, `doElection`,
`doHeartBeat` and `leaderSendSnapShot` produce the requests.
-/

namespace KvRaft

/-- A Raft node of a cluster of `n` nodes. -/
structure Raft (n : ℕ) (C D : Type) where
  me : Fin n
  currentTerm : ℤ
  votedFor : Option (Fin n)
  logs : List (LogEntry C)
  commitIndex : ℤ
  lastApplied : ℤ
  nextIndex : Fin n → ℤ
  matchIndex : Fin n → ℤ
  status : Status
  lastSnapshotIncludeIndex : ℤ
  lastSnapshotIncludeTerm : ℤ
  /-- What was last handed to the persister. -/
  persister : Saved n C D

namespace Raft

variable {n : ℕ} {C D : Type}

/-! ### Log access -/

/-- Index and term of the last entry, or of the snapshot point when the log is empty. -/
def getLastLogIndexAndTerm (rf : Raft n C D) : ℤ × ℤ :=
  match rf.logs.getLast? with
  | none => (rf.lastSnapshotIncludeIndex, rf.lastSnapshotIncludeTerm)
  | some log => (log.logindex, log.logterm)

def getLastLogIndex (rf : Raft n C D) : ℤ := rf.getLastLogIndexAndTerm.1

def getLastLogTerm (rf : Raft n C D) : ℤ := rf.getLastLogIndexAndTerm.2

def getNewCommandIndex (rf : Raft n C D) : ℤ := rf.getLastLogIndex + 1

/-- The position in `logs` of the entry with index `logIndex`. -/
def getSlicesIndexFromLogIndex (rf : Raft n C D) (logIndex : ℤ) : Except Fault ℕ := do
  myAssert (logIndex > rf.lastSnapshotIncludeIndex) .slicesRange
  myAssert (logIndex ≤ rf.getLastLogIndex) .slicesRange
  return (logIndex - rf.lastSnapshotIncludeIndex - 1).toNat

/-- `m_logs[slice]`. -/
def logAt (rf : Raft n C D) (slice : ℕ) : Except Fault (LogEntry C) :=
  match rf.logs[slice]? with
  | some log => .ok log
  | none => .error .outOfRange

/-- `m_logs[getSlicesIndexFromLogIndex(logIndex)]`. -/
def logOf (rf : Raft n C D) (logIndex : ℤ) : Except Fault (LogEntry C) := do
  rf.logAt (← rf.getSlicesIndexFromLogIndex logIndex)

def getLogTermFromLogIndex (rf : Raft n C D) (logIndex : ℤ) : Except Fault ℤ := do
  myAssert (logIndex ≥ rf.lastSnapshotIncludeIndex) .logTermRange
  myAssert (logIndex ≤ rf.getLastLogIndex) .logTermRange
  if logIndex = rf.lastSnapshotIncludeIndex then
    return rf.lastSnapshotIncludeTerm
  else
    return (← rf.logOf logIndex).logterm

/-- Whether the node's entry at `logIndex` has term `logTerm`. -/
def matchLog (rf : Raft n C D) (logIndex logTerm : ℤ) : Except Fault Bool := do
  myAssert (logIndex ≥ rf.lastSnapshotIncludeIndex ∧ logIndex ≤ rf.getLastLogIndex)
    .matchLogRange
  return logTerm = (← rf.getLogTermFromLogIndex logIndex)

/-- Whether a log ending with `index` and `term` is at least as up to date as the node's. -/
def upToDate (rf : Raft n C D) (index term : ℤ) : Bool :=
  term > rf.getLastLogTerm ∨ term = rf.getLastLogTerm ∧ index ≥ rf.getLastLogIndex

/-! ### Persistence and start-up -/

def persistData (rf : Raft n C D) : BoostPersistRaftNode n C where
  currentTerm := rf.currentTerm
  votedFor := rf.votedFor
  lastSnapshotIncludeIndex := rf.lastSnapshotIncludeIndex
  lastSnapshotIncludeTerm := rf.lastSnapshotIncludeTerm
  logs := rf.logs

/-- `SaveRaftState(persistData())`. -/
def persist (rf : Raft n C D) : Raft n C D :=
  { rf with persister := { rf.persister with raftState := some rf.persistData } }

/-- `Save(persistData(), snapshot)`. -/
def save (rf : Raft n C D) (snapshot : D) : Raft n C D :=
  { rf with persister := ⟨some rf.persistData, some snapshot⟩ }

/-- Restore the persisted fields; without data nothing changes. -/
def readPersist (rf : Raft n C D) : Option (BoostPersistRaftNode n C) → Raft n C D
  | none => rf
  | some data =>
    { rf with
      currentTerm := data.currentTerm
      votedFor := data.votedFor
      lastSnapshotIncludeIndex := data.lastSnapshotIncludeIndex
      lastSnapshotIncludeTerm := data.lastSnapshotIncludeTerm
      logs := data.logs }

/-- A node before `readPersist`. -/
def fresh (me : Fin n) (persister : Saved n C D) : Raft n C D where
  me := me
  currentTerm := 0
  votedFor := none
  logs := []
  commitIndex := 0
  lastApplied := 0
  nextIndex _ := 0
  matchIndex _ := 0
  status := .follower
  lastSnapshotIncludeIndex := 0
  lastSnapshotIncludeTerm := 0
  persister := persister

/-- A node right after `init`, started on what the persister holds. -/
def init (me : Fin n) (persister : Saved n C D) : Raft n C D :=
  let rf := (fresh me persister).readPersist persister.raftState
  if rf.lastSnapshotIncludeIndex > 0 then
    { rf with lastApplied := rf.lastSnapshotIncludeIndex }
  else rf

/-! ### Terms -/

/-- Become a follower of term `T` that has not voted. -/
def stepDown (rf : Raft n C D) (T : ℤ) : Raft n C D :=
  { rf with status := .follower, currentTerm := T, votedFor := none }

/-- Step down if `T` is a newer term. -/
def meetTerm (rf : Raft n C D) (T : ℤ) : Raft n C D :=
  if T > rf.currentTerm then rf.stepDown T else rf

/-! ### Elections -/

/-- The other nodes, in the order of `m_peers`. -/
def peers (me : Fin n) : List (Fin n) := (List.finRange n).filter (· ≠ me)

/-- Become a candidate of the next term and ask all others for their votes; `none` when the
node is the leader, where nothing happens. -/
def doElection (rf : Raft n C D) : Option (Raft n C D × List (Fin n × RequestVoteArgs n)) :=
  if rf.status = .leader then none
  else
    let rf := { rf with
      status := .candidate
      currentTerm := rf.currentTerm + 1
      votedFor := some rf.me }
    let rf := rf.persist
    some (rf, (peers rf.me).map fun i =>
      (i, { term := rf.currentTerm
            candidateid := rf.me
            lastlogindex := rf.getLastLogIndex
            lastlogterm := rf.getLastLogTerm }))

def requestVote (rf : Raft n C D) (args : RequestVoteArgs n) :
    Except Fault (Raft n C D × RequestVoteReply) := do
  if args.term < rf.currentTerm then
    return (rf.persist, { term := rf.currentTerm, votestate := .expire, votegranted := false })
  let rf := rf.meetTerm args.term
  myAssert (args.term = rf.currentTerm) .termMismatch
  if ¬ rf.upToDate args.lastlogindex args.lastlogterm then
    return (rf.persist, { term := rf.currentTerm, votestate := .voted, votegranted := false })
  if rf.votedFor ≠ none ∧ rf.votedFor ≠ some args.candidateid then
    return (rf.persist, { term := rf.currentTerm, votestate := .voted, votegranted := false })
  else
    let rf := { rf with votedFor := some args.candidateid }
    return (rf.persist, { term := rf.currentTerm, votestate := .normal, votegranted := true })

/-- Process a vote reply; `votedNum` is the counter shared by the calls of one election.
Returns the node, the counter and whether the node has just become leader. -/
def sendRequestVote (rf : Raft n C D) (votedNum : ℕ) (reply : RequestVoteReply) :
    Except Fault (Raft n C D × ℕ × Bool) := do
  if reply.term > rf.currentTerm then
    return ((rf.stepDown reply.term).persist, votedNum, false)
  else if reply.term < rf.currentTerm then
    return (rf, votedNum, false)
  myAssert (reply.term = rf.currentTerm) .termMismatch
  if ¬ reply.votegranted then
    return (rf, votedNum, false)
  let votedNum := votedNum + 1
  if votedNum ≥ n / 2 + 1 then
    myAssert (rf.status ≠ .leader) .electedTwice
    let rf := { rf with
      status := .leader
      nextIndex := fun _ => rf.getLastLogIndex + 1
      matchIndex := fun _ => 0 }
    return (rf.persist, 0, true)
  return (rf, votedNum, false)

/-! ### Log replication -/

/-- Index and term of the entry before the next one for `server`. -/
def getPrevLogInfo (rf : Raft n C D) (server : Fin n) : Except Fault (ℤ × ℤ) := do
  if rf.nextIndex server = rf.lastSnapshotIncludeIndex + 1 then
    return (rf.lastSnapshotIncludeIndex, rf.lastSnapshotIncludeTerm)
  else
    let preIndex := rf.nextIndex server - 1
    return (preIndex, (← rf.logOf preIndex).logterm)

/-- What a heartbeat starts for one peer. -/
inductive HeartBeat (n : ℕ) (C : Type) where
  | leaderSendSnapShot (server : Fin n)
  | sendAppendEntries (server : Fin n) (args : AppendEntriesArgs n C)

/-- The body of the loop of `doHeartBeat`. -/
def heartBeatTo (rf : Raft n C D) (i : Fin n) : Except Fault (HeartBeat n C) := do
  myAssert (rf.nextIndex i ≥ 1) .nextIndexNotPositive
  if rf.nextIndex i ≤ rf.lastSnapshotIncludeIndex then
    return .leaderSendSnapShot i
  let (preLogIndex, prevLogTerm) ← rf.getPrevLogInfo i
  let entries ← if preLogIndex ≠ rf.lastSnapshotIncludeIndex then
      (fun slice => rf.logs.drop (slice + 1)) <$> rf.getSlicesIndexFromLogIndex preLogIndex
    else pure rf.logs
  myAssert (preLogIndex + entries.length = rf.getLastLogIndex) .heartbeatNotToEnd
  return .sendAppendEntries i
    { term := rf.currentTerm
      leaderid := rf.me
      prevlogindex := preLogIndex
      prevlogterm := prevLogTerm
      entries := entries
      leadercommit := rf.commitIndex }

/-- The requests of a heartbeat of the leader; `none` when the node is not the leader. -/
def doHeartBeat (rf : Raft n C D) : Except Fault (Option (List (HeartBeat n C))) :=
  if rf.status = .leader then some <$> (peers rf.me).mapM rf.heartBeatTo
  else return none

/-- The body of the loop over `args->entries` in `AppendEntries1`: append the entry, or compare
it with the entry the node has at its index and replace that if the terms differ. -/
def mergeEntry [DecidableEq C] (rf : Raft n C D) (log : LogEntry C) :
    Except Fault (Raft n C D) := do
  if log.logindex > rf.getLastLogIndex then
    return { rf with logs := rf.logs ++ [log] }
  else
    let slice ← rf.getSlicesIndexFromLogIndex log.logindex
    let own ← rf.logAt slice
    myAssert (¬ (own.logterm = log.logterm ∧ own.command ≠ log.command)) .sameEntryOtherCommand
    if own.logterm ≠ log.logterm then
      return { rf with logs := rf.logs.set slice log }
    else
      return rf

/-- The loop that answers a mismatch: from `index` downwards, at most `k` indices, the first one
whose term is not that of `prev`. -/
def otherTermBelow (rf : Raft n C D) (prev : ℤ) : ℕ → ℤ → Except Fault (Option ℤ)
  | 0, _ => return none
  | k + 1, index => do
    if (← rf.getLogTermFromLogIndex index) ≠ (← rf.getLogTermFromLogIndex prev) then
      return some index
    else
      rf.otherTermBelow prev k (index - 1)

def appendEntries1 [DecidableEq C] (rf : Raft n C D) (args : AppendEntriesArgs n C) :
    Except Fault (Raft n C D × AppendEntriesReply) := do
  let reply : AppendEntriesReply := { appstate := .appNormal }
  if args.term < rf.currentTerm then
    return (rf, { reply with success := false, term := rf.currentTerm, updatenextindex := -100 })
  let rf := rf.meetTerm args.term
  myAssert (args.term = rf.currentTerm) .termMismatch
  let rf := { rf with status := .follower }
  if args.prevlogindex > rf.getLastLogIndex then
    return (rf.persist, { reply with
      success := false, term := rf.currentTerm, updatenextindex := rf.getLastLogIndex + 1 })
  -- there is no return after this reply is filled
  let reply := if args.prevlogindex < rf.lastSnapshotIncludeIndex then
    { reply with
      success := false
      term := rf.currentTerm
      updatenextindex := rf.lastSnapshotIncludeIndex + 1 } else reply
  if ← rf.matchLog args.prevlogindex args.prevlogterm then
    let rf ← args.entries.foldlM mergeEntry rf
    myAssert (rf.getLastLogIndex ≥ args.prevlogindex + args.entries.length) .entriesNotStored
    let rf := { rf with
      commitIndex := if args.leadercommit > rf.commitIndex then
        min args.leadercommit rf.getLastLogIndex else rf.commitIndex }
    myAssert (rf.getLastLogIndex ≥ rf.commitIndex) .commitBeyondLog
    return (rf.persist, { reply with success := true, term := rf.currentTerm })
  else
    let found ← rf.otherTermBelow args.prevlogindex
      (args.prevlogindex - rf.lastSnapshotIncludeIndex + 1).toNat args.prevlogindex
    let updatenextindex := match found with
      | some index => index + 1
      | none => args.prevlogindex
    return (rf.persist, { reply with
      updatenextindex := updatenextindex, success := false, term := rf.currentTerm })

/-- Process an AppendEntries reply; `appendNums` is the counter shared by the calls of one
heartbeat.  Returns the node and the counter. -/
def sendAppendEntries (rf : Raft n C D) (server : Fin n) (args : AppendEntriesArgs n C)
    (reply : AppendEntriesReply) (appendNums : ℕ) : Except Fault (Raft n C D × ℕ) := do
  if reply.appstate = .disconnected then
    return (rf, appendNums)
  if reply.term > rf.currentTerm then
    return (rf.stepDown reply.term, appendNums)
  else if reply.term < rf.currentTerm then
    return (rf, appendNums)
  if rf.status ≠ .leader then
    return (rf, appendNums)
  myAssert (reply.term = rf.currentTerm) .termMismatch
  if ¬ reply.success then
    if reply.updatenextindex ≠ -100 then
      return ({ rf with
        nextIndex := Function.update rf.nextIndex server reply.updatenextindex }, appendNums)
    else
      return (rf, appendNums)
  else
    let appendNums := appendNums + 1
    let matched := max (rf.matchIndex server) (args.prevlogindex + args.entries.length)
    let rf : Raft n C D := { rf with
      matchIndex := Function.update rf.matchIndex server matched
      nextIndex := Function.update rf.nextIndex server (matched + 1) }
    let lastLogIndex := rf.getLastLogIndex
    myAssert (rf.nextIndex server ≤ lastLogIndex + 1) .nextIndexBeyondLog
    if appendNums ≥ 1 + n / 2 then
      let rf := { rf with
        commitIndex := if args.entries.getLast?.map (·.logterm) = some rf.currentTerm then
          max rf.commitIndex (args.prevlogindex + args.entries.length) else rf.commitIndex }
      myAssert (rf.commitIndex ≤ lastLogIndex) .commitBeyondLog
      return (rf, 0)
    else
      return (rf, appendNums)

/-- How many nodes have the entry at `index`, as far as the leader knows. -/
def replicas (rf : Raft n C D) (index : ℤ) : ℕ :=
  (List.finRange n).countP fun i => i = rf.me ∨ rf.matchIndex i ≥ index

/-- The loop of `leaderUpdateCommitIndex`: from `index` downwards, at most `k` indices, the first
one whose entry a majority has and the current term has made. -/
def committableBelow (rf : Raft n C D) : ℕ → ℤ → Except Fault (Option ℤ)
  | 0, _ => return none
  | k + 1, index => do
    if rf.replicas index ≥ n / 2 + 1 then
      if (← rf.getLogTermFromLogIndex index) = rf.currentTerm then
        return some index
      else
        rf.committableBelow k (index - 1)
    else
      rf.committableBelow k (index - 1)

/-- Recompute the commit index of a leader (no handler calls this). -/
def leaderUpdateCommitIndex (rf : Raft n C D) : Except Fault (Raft n C D) := do
  let found ← rf.committableBelow (rf.getLastLogIndex - rf.lastSnapshotIncludeIndex).toNat
    rf.getLastLogIndex
  return { rf with commitIndex := found.getD rf.lastSnapshotIncludeIndex }

/-- Append a command to the leader's log.  Returns the node, the new index and term, and whether
the node is the leader. -/
def start (rf : Raft n C D) (command : C) : Raft n C D × ℤ × ℤ × Bool :=
  if rf.status ≠ .leader then (rf, -1, -1, false)
  else
    let newLogEntry : LogEntry C :=
      { command := command, logterm := rf.currentTerm, logindex := rf.getNewCommandIndex }
    let rf := { rf with logs := rf.logs ++ [newLogEntry] }
    (rf.persist, newLogEntry.logindex, newLogEntry.logterm, true)

/-! ### Applying and compacting -/

/-- The loop of `getApplyLogs`, `k` entries from `lastApplied + 1`. -/
def applyNext (rf : Raft n C D) : ℕ → Except Fault (Raft n C D × List (ApplyMsg C D))
  | 0 => return (rf, [])
  | k + 1 => do
    let rf := { rf with lastApplied := rf.lastApplied + 1 }
    let log ← rf.logOf rf.lastApplied
    myAssert (log.logindex = rf.lastApplied) .appliedIndexMismatch
    let msg := .command log.command rf.lastApplied
    let (rf, msgs) ← rf.applyNext k
    return (rf, msg :: msgs)

def getApplyLogs (rf : Raft n C D) : Except Fault (Raft n C D × List (ApplyMsg C D)) := do
  myAssert (rf.commitIndex ≤ rf.getLastLogIndex) .commitBeyondLog
  rf.applyNext (rf.commitIndex - rf.lastApplied).toNat

/-- Compact the log up to `index`, of which `snapshot` is the state. -/
def snapshot (rf : Raft n C D) (index : ℤ) (snapshot : D) : Except Fault (Raft n C D) := do
  if rf.lastSnapshotIncludeIndex ≥ index ∨ index > rf.commitIndex then
    return rf
  let lastLogIndex := rf.getLastLogIndex
  let newLastSnapshotIncludeTerm := (← rf.logOf index).logterm
  let trunckedLogs ← (List.range (lastLogIndex - index).toNat).mapM fun (k : ℕ) =>
    rf.logOf (index + 1 + k)
  let rf := { rf with
    lastSnapshotIncludeIndex := index
    lastSnapshotIncludeTerm := newLastSnapshotIncludeTerm
    logs := trunckedLogs
    commitIndex := max rf.commitIndex index
    lastApplied := max rf.lastApplied index }
  let rf := rf.save snapshot
  myAssert (rf.logs.length + rf.lastSnapshotIncludeIndex = lastLogIndex) .snapshotLength
  return rf

/-- Returns the node, the reply, and the message that a thread is started to push. -/
def installSnapshot (rf : Raft n C D) (args : InstallSnapshotRequest n D) :
    Except Fault (Raft n C D × InstallSnapshotResponse × Option (ApplyMsg C D)) := do
  if args.term < rf.currentTerm then
    return (rf, { term := rf.currentTerm }, none)
  let rf := if args.term > rf.currentTerm then (rf.stepDown args.term).persist else rf
  let rf := { rf with status := .follower }
  if args.lastsnapshotincludeindex ≤ rf.lastSnapshotIncludeIndex then
    return (rf, {}, none)
  let logs ← if rf.getLastLogIndex > args.lastsnapshotincludeindex then
      (fun slice => rf.logs.drop (slice + 1)) <$>
        rf.getSlicesIndexFromLogIndex args.lastsnapshotincludeindex
    else pure []
  let rf := { rf with
    logs := logs
    commitIndex := max rf.commitIndex args.lastsnapshotincludeindex
    lastApplied := max rf.lastApplied args.lastsnapshotincludeindex
    lastSnapshotIncludeIndex := args.lastsnapshotincludeindex
    lastSnapshotIncludeTerm := args.lastsnapshotincludeterm }
  return (rf.save args.data, { term := rf.currentTerm },
    some (.snapshot args.data args.lastsnapshotincludeterm args.lastsnapshotincludeindex))

/-- Asked by the state machine whether it may switch to a snapshot.
(`persistStateAndSnapshot` is taken to save state and snapshot.) -/
def condInstallSnapshot (rf : Raft n C D) (lastIncludedTerm lastIncludedIndex : ℤ)
    (snapshot : D) : Except Fault (Raft n C D × Bool) := do
  if lastIncludedIndex ≤ rf.commitIndex then
    return (rf, false)
  let logs ← if lastIncludedIndex > rf.getLastLogIndex then pure []
    else (fun slice => rf.logs.take slice) <$>
      rf.getSlicesIndexFromLogIndex (lastIncludedIndex + 1)
  let rf := { rf with
    logs := logs
    lastSnapshotIncludeIndex := lastIncludedIndex
    lastSnapshotIncludeTerm := lastIncludedTerm
    lastApplied := lastIncludedIndex
    commitIndex := lastIncludedIndex }
  return (rf.save snapshot, true)

/-- The request of `leaderSendSnapShot`; `data` is what `ReadSnapshot` returned. -/
def leaderSendSnapShot (rf : Raft n C D) (data : D) : InstallSnapshotRequest n D where
  leaderid := rf.me
  term := rf.currentTerm
  lastsnapshotincludeindex := rf.lastSnapshotIncludeIndex
  lastsnapshotincludeterm := rf.lastSnapshotIncludeTerm
  data := data

/-- The part of `leaderSendSnapShot` after the call. -/
def leaderSendSnapShotReply (rf : Raft n C D) (server : Fin n)
    (args : InstallSnapshotRequest n D) (reply : InstallSnapshotResponse) : Raft n C D :=
  if rf.status ≠ .leader ∨ rf.currentTerm ≠ args.term then rf
  else if reply.term > rf.currentTerm then (rf.stepDown reply.term).persist
  else
    { rf with
      matchIndex := Function.update rf.matchIndex server args.lastsnapshotincludeindex
      nextIndex := Function.update rf.nextIndex server (args.lastsnapshotincludeindex + 1) }

end Raft

end KvRaft
