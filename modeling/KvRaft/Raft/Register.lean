import KvRaft.Raft.Persister

/-!
# The persister as a register

A register returns what was last saved.  The persister reads from the files while what was saved is
in the buffers of its streams: `ReadRaftState` never flushes, so it returns nothing at all, and
`ReadSnapshot` closes the stream, reads one word and then opens the stream again, which empties the
file (the comment there says that opening appends).

## Main results

* `Persister.returns_eq_iff` : a sequence of calls returns what a register returns exactly if each
  read comes at a time when there is nothing to lose (`Register.Served`).
-/

namespace KvRaft

open Storage

namespace Persister

/-- The calls of the persister that save and read. -/
inductive Call where
  | save (raftstate snapshot : Bytes)
  | saveRaftState (data : Bytes)
  | readSnapshot
  | readRaftState

/-- A call and what it returns, if it is a read. -/
def call (p : Persister) (d : Disk) : Call → Persister × Disk × Option Bytes
  | .save raftstate snapshot =>
    let (p, d) := p.save raftstate snapshot d
    (p, d, none)
  | .saveRaftState data =>
    let (p, d) := p.saveRaftState data d
    (p, d, none)
  | .readSnapshot =>
    let (p, d, snapshot) := p.readSnapshot d
    (p, d, some snapshot)
  | .readRaftState => (p, d, some (p.readRaftState d))

/-- What the calls of a sequence return. -/
def returns (p : Persister) (d : Disk) : List Call → List (Option Bytes)
  | [] => []
  | c :: cs =>
    let (p, d, r) := p.call d c
    r :: returns p d cs

/-! ### The register -/

/-- What was last saved of each kind. -/
structure Register where
  raftState : Bytes
  snapshot : Bytes
  deriving DecidableEq

namespace Register

/-- Nothing has been saved. -/
def initial : Register := ⟨[], []⟩

def call (reg : Register) : Call → Register × Option Bytes
  | .save raftstate snapshot => (⟨raftstate, snapshot⟩, none)
  | .saveRaftState data => ({ reg with raftState := data }, none)
  | .readSnapshot => (reg, some reg.snapshot)
  | .readRaftState => (reg, some reg.raftState)

def returns (reg : Register) : List Call → List (Option Bytes)
  | [] => []
  | c :: cs => (reg.call c).2 :: (reg.call c).1.returns cs

/-- **The reads that are served.**  The Raft state is read only while the one last saved is empty;
the snapshot only while the one last saved is empty, or when it has no white space and is read for
the first time since it was saved.  `wasRead` says that it has been read. -/
def Served (reg : Register) (wasRead : Bool) : List Call → Prop
  | [] => True
  | .save raftstate snapshot :: cs => Served ⟨raftstate, snapshot⟩ false cs
  | .saveRaftState data :: cs => Served { reg with raftState := data } wasRead cs
  | .readSnapshot :: cs =>
    (reg.snapshot = [] ∨ wasRead = false ∧ ∀ b ∈ reg.snapshot, Bytes.isSpace b = false) ∧
      Served reg true cs
  | .readRaftState :: cs => reg.raftState = [] ∧ Served reg wasRead cs

end Register

/-! ### What a read does -/

variable {p : Persister} {d : Disk} {me : ℕ} {r s : Bytes}

/-- The Raft state is never in its file. -/
theorem Saving.readRaftState (h : p.Saving d me r s) : p.readRaftState d = [] := by
  rw [Persister.readRaftState, h.raftStateFileName, readWord_eq h.raftState.file]
  rfl

/-- The snapshot is read up to the first white space, and is lost. -/
theorem Saving.readSnapshot (h : p.Saving d me r s) :
    ∃ p' d', p.readSnapshot d = (p', d', s.firstWord) ∧ p'.Saving d' me r [] := by
  have hne := raftStateFile_ne_snapshotFile me
  let opened := OutStream.openFile (snapshotFile me) (p.snapshotOutStream.close d)
  refine ⟨{ p with snapshotOutStream := opened.1 }, opened.2, ?_, h.raftStateFileName,
    h.snapshotFileName, h.raftState.of_eq ?_, OutStream.holds_openFile ..⟩
  · simp only [Persister.readSnapshot, h.snapshotFileName, readWord_eq h.snapshot.close, opened]
  · rw [OutStream.openFile_of_ne hne, h.snapshot.stream, OutStream.close_of_ne hne]

theorem firstWord_eq_held_iff {wasRead : Bool} :
    Bytes.firstWord (if wasRead then [] else s) = s ↔
      s = [] ∨ wasRead = false ∧ ∀ b ∈ s, Bytes.isSpace b = false := by
  cases wasRead with
  | false =>
    simp only [Bool.false_eq_true, if_false, Bytes.firstWord_eq_self_iff, true_and]
    refine ⟨.inr, ?_⟩
    rintro (rfl | h)
    · simp
    · exact h
  | true =>
    simp only [if_true, Bool.true_eq_false, false_and, or_false]
    exact eq_comm

/-- The streams hold what the register holds, apart from a snapshot that was read. -/
theorem Saving.returns_eq_iff {reg : Register} {wasRead : Bool} {cs : List Call}
    (h : p.Saving d me reg.raftState (if wasRead then [] else reg.snapshot)) :
    p.returns d cs = reg.returns cs ↔ reg.Served wasRead cs := by
  induction cs generalizing p d reg wasRead with
  | nil => exact iff_of_true rfl trivial
  | cons c cs ih =>
    cases c with
    | save raftstate snapshot =>
      have hnext : returns (p.save raftstate snapshot d).1 (p.save raftstate snapshot d).2 cs =
          Register.returns ⟨raftstate, snapshot⟩ cs ↔
            Register.Served ⟨raftstate, snapshot⟩ false cs :=
        ih (h.save raftstate snapshot)
      simpa [returns, call, Register.returns, Register.call, Register.Served] using hnext
    | saveRaftState data =>
      have hnext : returns (p.saveRaftState data d).1 (p.saveRaftState data d).2 cs =
          Register.returns { reg with raftState := data } cs ↔
            Register.Served { reg with raftState := data } wasRead cs := ih (h.saveRaftState data)
      simpa [returns, call, Register.returns, Register.call, Register.Served] using hnext
    | readSnapshot =>
      obtain ⟨p', d', heq, h'⟩ := h.readSnapshot
      have hnext : p'.returns d' cs = reg.returns cs ↔ reg.Served true cs := ih h'
      simp only [returns, call, heq, Register.returns, Register.call, Register.Served,
        List.cons.injEq, Option.some.injEq, hnext, firstWord_eq_held_iff]
    | readRaftState =>
      have hnext := ih h
      simp only [returns, call, h.readRaftState, Register.returns, Register.call, Register.Served,
        List.cons.injEq, Option.some.injEq, hnext]
      rw [eq_comm]

/-- **The calls on a new persister return what was last saved exactly if every read is served.** -/
theorem returns_eq_register_iff (me : ℕ) (d : Disk) (cs : List Call) :
    (create me d).1.returns (create me d).2 cs = Register.initial.returns cs ↔
      Register.initial.Served false cs :=
  Saving.returns_eq_iff (saving_create me d)

/-- A saved snapshot is cut at a blank and read empty the second time, and the Raft state is read
empty at once. -/
theorem saved_not_returned :
    (create 0 fun _ => none).1.returns (create 0 fun _ => none).2
        [.save [0x61] [0x62, 0x20, 0x63], .readRaftState, .readSnapshot, .readSnapshot] ≠
      Register.initial.returns
        [.save [0x61] [0x62, 0x20, 0x63], .readRaftState, .readSnapshot, .readSnapshot] := by
  have hcalls : (create 0 fun _ => none).1.returns (create 0 fun _ => none).2
      [.save [0x61] [0x62, 0x20, 0x63], .readRaftState, .readSnapshot, .readSnapshot] =
        [none, some [], some [0x62], some []] := by decide +kernel
  have hregister : Register.initial.returns
      [.save [0x61] [0x62, 0x20, 0x63], .readRaftState, .readSnapshot, .readSnapshot] =
        [none, some [0x61], some [0x62, 0x20, 0x63], some [0x62, 0x20, 0x63]] := by decide
  rw [hcalls, hregister]
  decide

end Persister

end KvRaft
