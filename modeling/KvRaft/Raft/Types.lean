import Mathlib.Algebra.GroupWithZero.Nat
import Mathlib.Data.Int.Notation
import Mathlib.Data.Nat.Notation

/-!
# Data of the Raft layer

The messages of `raftRPC.proto`, `ApplyMsg`, the status of a node and the persisted record.
Nodes are numbered by `Fin n`; an absent vote (`-1` in the source) is `none`.  Commands are of
an arbitrary type `C` and snapshots of an arbitrary type `D` (both are strings in the source).
Terms and indices, of type `int` in the source, are integers: a run in which one of them overflows
has no defined meaning in C++ and is not modelled.
-/

namespace KvRaft

/-! The sizes of the clusters in the runs.  The instances have names, so that a literal of `Fin`
is the same term in all modules. -/

instance neZero_two : NeZero 2 := ⟨Nat.succ_ne_zero 1⟩

instance neZero_three : NeZero 3 := ⟨Nat.succ_ne_zero 2⟩

instance neZero_five : NeZero 5 := ⟨Nat.succ_ne_zero 4⟩

/-- A log entry. -/
structure LogEntry (C : Type) where
  command : C
  logterm : ℤ
  logindex : ℤ
  deriving DecidableEq

/-- Arguments of the AppendEntries call. -/
structure AppendEntriesArgs (n : ℕ) (C : Type) where
  term : ℤ
  leaderid : Fin n
  prevlogindex : ℤ
  prevlogterm : ℤ
  entries : List (LogEntry C)
  leadercommit : ℤ
  deriving DecidableEq

/-- The network state field of a reply: an unfilled reply says `disconnected`. -/
inductive AppState where
  | disconnected
  | appNormal
  deriving DecidableEq

/-- Reply to AppendEntries, with the defaults of an empty message. -/
structure AppendEntriesReply where
  term : ℤ := 0
  success : Bool := false
  updatenextindex : ℤ := 0
  appstate : AppState := .disconnected
  deriving DecidableEq

/-- Arguments of the RequestVote call. -/
structure RequestVoteArgs (n : ℕ) where
  term : ℤ
  candidateid : Fin n
  lastlogindex : ℤ
  lastlogterm : ℤ
  deriving DecidableEq

/-- The reason given in a vote reply. -/
inductive VoteState where
  | killed
  | voted
  | expire
  | normal
  deriving DecidableEq

/-- Reply to RequestVote, with the defaults of an empty message. -/
structure RequestVoteReply where
  term : ℤ := 0
  votegranted : Bool := false
  votestate : VoteState := .killed
  deriving DecidableEq

/-- Arguments of the InstallSnapshot call. -/
structure InstallSnapshotRequest (n : ℕ) (D : Type) where
  leaderid : Fin n
  term : ℤ
  lastsnapshotincludeindex : ℤ
  lastsnapshotincludeterm : ℤ
  data : D
  deriving DecidableEq

/-- Reply to InstallSnapshot, with the default of an empty message. -/
structure InstallSnapshotResponse where
  term : ℤ := 0
  deriving DecidableEq

/-- What Raft hands to the state machine; the two valid flags of the source class are the two
constructors. -/
inductive ApplyMsg (C D : Type) where
  | command (Command : C) (CommandIndex : ℤ)
  | snapshot (Snapshot : D) (SnapshotTerm SnapshotIndex : ℤ)
  deriving DecidableEq

/-- The role of a node. -/
inductive Status where
  | follower
  | candidate
  | leader
  deriving DecidableEq

/-- The record that `persistData` archives. -/
structure BoostPersistRaftNode (n : ℕ) (C : Type) where
  currentTerm : ℤ
  votedFor : Option (Fin n)
  lastSnapshotIncludeIndex : ℤ
  lastSnapshotIncludeTerm : ℤ
  logs : List (LogEntry C)
  deriving DecidableEq

/-- What was last handed to the persister. -/
structure Saved (n : ℕ) (C D : Type) where
  /-- Last argument of `SaveRaftState` or first argument of `Save`. -/
  raftState : Option (BoostPersistRaftNode n C) := none
  /-- Last second argument of `Save`. -/
  snapshot : Option D := none
  deriving DecidableEq

/-- The failures that end the process: the assertions of `raft.cpp` by what they check, and an
access beyond the end of `m_logs`. -/
inductive Fault where
  /-- A handler works in the term of its request, a reply is processed in its own term. -/
  | termMismatch
  /-- Entries with equal index and term hold equal commands. -/
  | sameEntryOtherCommand
  /-- After appending, the log covers the entries of the request. -/
  | entriesNotStored
  /-- The commit index stays within the log. -/
  | commitBeyondLog
  /-- A heartbeat needs a next index of at least one. -/
  | nextIndexNotPositive
  /-- A heartbeat reaches to the end of the leader's log. -/
  | heartbeatNotToEnd
  /-- The next index stays within one of the log's end. -/
  | nextIndexBeyondLog
  /-- An applied entry carries its own index. -/
  | appliedIndexMismatch
  /-- A node is not elected twice in a term. -/
  | electedTwice
  /-- `matchLog` is asked about an index in its range. -/
  | matchLogRange
  /-- `getLogTermFromLogIndex` is asked about an index in its range. -/
  | logTermRange
  /-- `getSlicesIndexFromLogIndex` is asked about an index in its range. -/
  | slicesRange
  /-- A snapshot keeps the end of the log. -/
  | snapshotLength
  /-- Access beyond the end of `m_logs`. -/
  | outOfRange
  deriving DecidableEq

/-- `myAssert`: go on if the condition holds, end the process otherwise. -/
def myAssert (condition : Prop) [Decidable condition] (fault : Fault) : Except Fault Unit :=
  if condition then .ok () else .error fault

end KvRaft
