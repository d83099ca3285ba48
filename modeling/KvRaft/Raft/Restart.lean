import KvRaft.Raft.Node
import KvRaft.Raft.Persister
import Mathlib.Data.List.Induction

/-!
# Restarting a node

A node saves its state through its persister, its process ends, and a new process is started on
the files it left.  The files hold what was last saved (`Restart.filesAfter_eq`), but the
constructor of the new persister empties them before `init` reads: a node recovers what it saved
exactly if that is what a new node starts with (`Restart.recovers_iff`).

Emptying the files is not the only loss.  Were they kept, `ReadRaftState` would still return only the
first word of the archive, which is all of it exactly if it has no white space
(`Restart.readRaftState_filesAfter_iff`, a result of its own).

The boost archive is a parameter, of which nothing is used.
-/

namespace KvRaft

open Storage Persister

/-- The text archive of a persisted record; an exception while reading is `none`. -/
structure Archive (n : ℕ) (C : Type) where
  encode : BoostPersistRaftNode n C → Bytes
  decode : Bytes → Option (BoostPersistRaftNode n C)

/-- A call of the persister by a node: `SaveRaftState(persistData())`, or
`Save(persistData(), snapshot)`. -/
inductive SaveCall (n : ℕ) (C : Type) where
  | saveRaftState (state : BoostPersistRaftNode n C)
  | save (state : BoostPersistRaftNode n C) (snapshot : Bytes)

/-- The record that is saved. -/
def SaveCall.state {n : ℕ} {C : Type} : SaveCall n C → BoostPersistRaftNode n C
  | .saveRaftState state | .save state _ => state

namespace Restart

variable {n : ℕ} {C : Type}

/-! ### What was last saved -/

/-- The record of a node that has saved nothing. -/
def initialState : BoostPersistRaftNode n C where
  currentTerm := 0
  votedFor := none
  lastSnapshotIncludeIndex := 0
  lastSnapshotIncludeTerm := 0
  logs := []

/-- The record last saved. -/
def lastState (calls : List (SaveCall n C)) : BoostPersistRaftNode n C :=
  (calls.getLast?.map SaveCall.state).getD initialState

/-- The snapshot last saved. -/
def lastSnapshot (calls : List (SaveCall n C)) : Bytes :=
  calls.foldl (fun last call => match call with
    | .saveRaftState _ => last
    | .save _ snapshot => snapshot) []

/-! ### The processes -/

def perform (archive : Archive n C) (s : Persister × Disk) : SaveCall n C → Persister × Disk
  | .saveRaftState state => s.1.saveRaftState (archive.encode state) s.2
  | .save state snapshot => s.1.save (archive.encode state) snapshot s.2

/-- The files after a process of node `me` that makes the calls and ends. -/
def filesAfter (archive : Archive n C) (me : Fin n) (d : Disk) (calls : List (SaveCall n C)) :
    Disk :=
  let (p, d) := calls.foldl (perform archive) (create me d)
  p.destroy d

/-- A new process of node `me`: the persister is constructed, `init` reads the Raft state, the
server reads the snapshot.  `none` if the archive throws. -/
def start (archive : Archive n C) (me : Fin n) (d : Disk) : Option (Raft n C Bytes × Bytes) :=
  let (p, d) := create me d
  let data := p.readRaftState d
  let state := if data = [] then some none else (archive.decode data).map some
  state.map fun state => (Raft.init me { raftState := state }, (p.readSnapshot d).2.2)

/-- **Durable restart**: the new process has the term, the vote, the log, the snapshot point and
the snapshot that were last saved. -/
def Recovers (archive : Archive n C) (me : Fin n) (d : Disk) (calls : List (SaveCall n C)) : Prop :=
  ∃ rf snapshot, start archive me (filesAfter archive me d calls) = some (rf, snapshot) ∧
    rf.persistData = lastState calls ∧ snapshot = lastSnapshot calls

/-! ### Results -/

variable {archive : Archive n C} {me : Fin n} {d : Disk} {calls : List (SaveCall n C)}

/-- One call. -/
theorem saving_perform {s : Persister × Disk} {r snapshot : Bytes}
    (h : s.1.Saving s.2 me r snapshot) (call : SaveCall n C) :
    (perform archive s call).1.Saving (perform archive s call).2 me (archive.encode call.state)
      (match call with
        | .saveRaftState _ => snapshot
        | .save _ snapshot => snapshot) := by
  cases call with
  | saveRaftState state => exact h.saveRaftState _
  | save state snapshot => exact h.save _ _

/-- The streams hold what was last saved. -/
theorem saving_calls (archive : Archive n C) (me : Fin n) (d : Disk) (calls : List (SaveCall n C)) :
    (calls.foldl (perform archive) (create me d)).1.Saving
      (calls.foldl (perform archive) (create me d)).2 me
      ((calls.getLast?.map fun call => archive.encode call.state).getD [])
      (lastSnapshot calls) := by
  induction calls using List.reverseRecOn with
  | nil => exact saving_create me d
  | append_singleton calls call ih =>
    rw [List.foldl_append, List.getLast?_concat, lastSnapshot, List.foldl_append]
    exact saving_perform ih call

/-- **The files hold what was last saved.** -/
theorem filesAfter_eq (h : calls ≠ []) :
    filesAfter archive me d calls (raftStateFile me) = some (archive.encode (lastState calls)) ∧
      filesAfter archive me d calls (snapshotFile me) = some (lastSnapshot calls) := by
  have hs := (saving_calls archive me d calls).destroy
  rw [lastState]
  rw [List.getLast?_eq_some_getLast h] at hs ⊢
  exact hs

/-- Reading a file that was kept would return the archive only if it had no white space. -/
theorem readRaftState_filesAfter_iff (h : calls ≠ []) {p : Persister}
    (hp : p.raftStateFileName = raftStateFile me) :
    p.readRaftState (filesAfter archive me d calls) = archive.encode (lastState calls) ↔
      ∀ b ∈ archive.encode (lastState calls), Bytes.isSpace b = false := by
  rw [readRaftState, hp, readWord_eq (filesAfter_eq h).1]
  exact Bytes.firstWord_eq_self_iff

/-- **A new process finds empty files**, whatever was there. -/
theorem start_eq (archive : Archive n C) (me : Fin n) (d : Disk) :
    start archive me d = some (Raft.init me {}, []) := by
  have hs := saving_create me d
  have hread : (create me d).1.readRaftState (create me d).2 = [] := by
    rw [readRaftState, hs.raftStateFileName, readWord_eq hs.raftState.file]
    rfl
  have hsnap : ((create me d).1.readSnapshot (create me d).2).2.2 = [] := by
    simp only [readSnapshot]
    rw [hs.snapshotFileName, readWord_eq hs.snapshot.close]
    rfl
  simp only [start]
  rw [hread, hsnap]
  rfl

/-- **A node recovers what it last saved exactly if that is the state of a new node.** -/
theorem recovers_iff (archive : Archive n C) (me : Fin n) (d : Disk)
    (calls : List (SaveCall n C)) : Recovers archive me d calls ↔
      lastState calls = initialState ∧ lastSnapshot calls = [] := by
  rw [Recovers, start_eq]
  constructor
  · rintro ⟨rf, snapshot, h, hstate, hsnap⟩
    obtain ⟨rfl, rfl⟩ := Prod.mk.inj (Option.some.inj h)
    exact ⟨hstate.symm, hsnap.symm⟩
  · rintro ⟨hstate, hsnap⟩
    exact ⟨_, _, rfl, hstate.symm, hsnap.symm⟩

/-- A node that has voted for itself in term 1 forgets it. -/
theorem not_recovers : ¬ ∃ archive : Archive 3 String, ∀ (me : Fin 3) (d : Disk)
    (calls : List (SaveCall 3 String)), Recovers archive me d calls := by
  rintro ⟨archive, h⟩
  obtain ⟨rf, snapshot, hstart, hstate, -⟩ :=
    h 0 (fun _ => none) [.saveRaftState ⟨1, some 0, 0, 0, []⟩]
  rw [start_eq] at hstart
  obtain ⟨rfl, -⟩ := Prod.mk.inj (Option.some.inj hstart)
  -- the new node is in term 0
  cases congrArg BoostPersistRaftNode.currentTerm hstate

end Restart

end KvRaft
