import KvRaft.Storage.Files

/-!
# The persister

Class `Persister`: a node keeps its Raft state and its snapshot in two files, each written through
an output stream that stays open.  Every function below is the source function of its name as a
function of the persister and the files of the machine.  Files can always be opened.

`Persister.Saving` is what the streams hold after any saves, and `Persister.Saving.destroy` what
the files hold when the process ends: the writing side loses nothing.
-/

namespace KvRaft

open Storage

/-- Class `Persister`. -/
structure Persister where
  raftStateFileName : String
  snapshotFileName : String
  raftStateOutStream : OutStream
  snapshotOutStream : OutStream
  raftStateSize : ℕ

namespace Persister

def raftStateFile (me : ℕ) : String := "raftstatePersist" ++ toString me ++ ".txt"

def snapshotFile (me : ℕ) : String := "snapshotPersist" ++ toString me ++ ".txt"

/-- The constructor. -/
def create (me : ℕ) (d : Disk) : Persister × Disk :=
  -- the two files are emptied
  let d := Function.update d (raftStateFile me) (some [])
  let d := Function.update d (snapshotFile me) (some [])
  -- the streams are bound
  let (raftStateOutStream, d) := OutStream.openFile (raftStateFile me) d
  let (snapshotOutStream, d) := OutStream.openFile (snapshotFile me) d
  ({ raftStateFileName := raftStateFile me
     snapshotFileName := snapshotFile me
     raftStateOutStream := raftStateOutStream
     snapshotOutStream := snapshotOutStream
     raftStateSize := 0 }, d)

/-- The destructor. -/
def destroy (p : Persister) (d : Disk) : Disk :=
  let d := p.raftStateOutStream.close d
  p.snapshotOutStream.close d

def clearRaftState (p : Persister) (d : Disk) : Persister × Disk :=
  let d := p.raftStateOutStream.close d
  let (raftStateOutStream, d) := OutStream.openFile p.raftStateFileName d
  ({ p with raftStateSize := 0, raftStateOutStream := raftStateOutStream }, d)

def clearSnapshot (p : Persister) (d : Disk) : Persister × Disk :=
  let d := p.snapshotOutStream.close d
  let (snapshotOutStream, d) := OutStream.openFile p.snapshotFileName d
  ({ p with snapshotOutStream := snapshotOutStream }, d)

def clearRaftStateAndSnapshot (p : Persister) (d : Disk) : Persister × Disk :=
  let (p, d) := p.clearRaftState d
  p.clearSnapshot d

def save (p : Persister) (raftstate snapshot : Bytes) (d : Disk) : Persister × Disk :=
  let (p, d) := p.clearRaftStateAndSnapshot d
  ({ p with
    raftStateOutStream := p.raftStateOutStream.write raftstate
    snapshotOutStream := p.snapshotOutStream.write snapshot }, d)

def saveRaftState (p : Persister) (data : Bytes) (d : Disk) : Persister × Disk :=
  let (p, d) := p.clearRaftState d
  ({ p with
    raftStateOutStream := p.raftStateOutStream.write data
    raftStateSize := p.raftStateSize + data.length }, d)

def readRaftState (p : Persister) (d : Disk) : Bytes := d.readWord p.raftStateFileName

/-- Returns the persister, the files and the word read; the stream is closed before reading and
opened again at the end. -/
def readSnapshot (p : Persister) (d : Disk) : Persister × Disk × Bytes :=
  let d := p.snapshotOutStream.close d
  let snapshot := d.readWord p.snapshotFileName
  let (snapshotOutStream, d) := OutStream.openFile p.snapshotFileName d
  ({ p with snapshotOutStream := snapshotOutStream }, d, snapshot)

/-! ### What is saved -/

theorem raftStateFile_ne_snapshotFile (me : ℕ) : raftStateFile me ≠ snapshotFile me := by
  intro h
  change "raftstatePersist" ++ toString me ++ ".txt" =
    "snapshotPersist" ++ toString me ++ ".txt" at h
  have hlen := congrArg String.utf8ByteSize h
  have hraft : "raftstatePersist".utf8ByteSize = 16 := rfl
  have hsnap : "snapshotPersist".utf8ByteSize = 15 := rfl
  rw [String.utf8ByteSize_append, String.utf8ByteSize_append, String.utf8ByteSize_append,
    String.utf8ByteSize_append, hraft, hsnap] at hlen
  omega

/-- **What the persister of node `me` holds**: the Raft state and the snapshot last saved, in its
streams. -/
structure Saving (p : Persister) (d : Disk) (me : ℕ) (raftstate snapshot : Bytes) : Prop where
  raftStateFileName : p.raftStateFileName = raftStateFile me
  snapshotFileName : p.snapshotFileName = snapshotFile me
  raftState : p.raftStateOutStream.Holds d (raftStateFile me) raftstate
  snapshot : p.snapshotOutStream.Holds d (snapshotFile me) snapshot

variable {p : Persister} {d : Disk} {me : ℕ} {r s : Bytes}

theorem saving_create (me : ℕ) (d : Disk) :
    (create me d).1.Saving (create me d).2 me [] [] where
  raftStateFileName := rfl
  snapshotFileName := rfl
  raftState := (OutStream.holds_openFile ..).of_eq
    (OutStream.openFile_of_ne (raftStateFile_ne_snapshotFile me) _)
  snapshot := OutStream.holds_openFile ..

theorem Saving.clearRaftState (h : p.Saving d me r s) :
    (p.clearRaftState d).1.Saving (p.clearRaftState d).2 me [] s := by
  have hne := (raftStateFile_ne_snapshotFile me).symm
  refine ⟨h.raftStateFileName, h.snapshotFileName, ?_, h.snapshot.of_eq ?_⟩
  · rw [← h.raftStateFileName]
    exact OutStream.holds_openFile ..
  · simp only [Persister.clearRaftState, h.raftState.stream, h.raftStateFileName]
    rw [OutStream.openFile_of_ne hne, OutStream.close_of_ne hne]

theorem Saving.clearSnapshot (h : p.Saving d me r s) :
    (p.clearSnapshot d).1.Saving (p.clearSnapshot d).2 me r [] := by
  have hne := raftStateFile_ne_snapshotFile me
  refine ⟨h.raftStateFileName, h.snapshotFileName, h.raftState.of_eq ?_, ?_⟩
  · simp only [Persister.clearSnapshot, h.snapshot.stream, h.snapshotFileName]
    rw [OutStream.openFile_of_ne hne, OutStream.close_of_ne hne]
  · rw [← h.snapshotFileName]
    exact OutStream.holds_openFile ..

theorem Saving.saveRaftState (h : p.Saving d me r s) (data : Bytes) :
    (p.saveRaftState data d).1.Saving (p.saveRaftState data d).2 me data s :=
  have h := h.clearRaftState
  ⟨h.raftStateFileName, h.snapshotFileName, h.raftState.write data, h.snapshot⟩

theorem Saving.save (h : p.Saving d me r s) (raftstate snapshot : Bytes) :
    (p.save raftstate snapshot d).1.Saving (p.save raftstate snapshot d).2 me
      raftstate snapshot :=
  have h := h.clearRaftState.clearSnapshot
  ⟨h.raftStateFileName, h.snapshotFileName, h.raftState.write _, h.snapshot.write _⟩

/-- **When the process ends, the files hold what was last saved.** -/
theorem Saving.destroy (h : p.Saving d me r s) :
    p.destroy d (raftStateFile me) = some r ∧ p.destroy d (snapshotFile me) = some s := by
  have hne := raftStateFile_ne_snapshotFile me
  constructor
  · simp only [Persister.destroy, h.snapshot.stream]
    rw [OutStream.close_of_ne hne, h.raftState.close]
  · refine (h.snapshot.of_eq ?_).close
    rw [h.raftState.stream, OutStream.close_of_ne hne.symm]

end Persister

end KvRaft
