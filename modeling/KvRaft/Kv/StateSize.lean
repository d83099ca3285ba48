import KvRaft.Kv.Process
import KvRaft.Raft.Register
import Mathlib.Algebra.Group.Nat.Defs
import Mathlib.Data.List.Induction

/-!
# The size of the Raft state

A persister counts the bytes of the Raft state that it holds, and the server makes a snapshot when
they are more than a tenth of `m_maxRaftState`.  `SaveRaftState` counts what it writes.  `Save`,
which compaction uses, sets the count to 0 and writes without counting
(`Persister.raftStateSize_afterCalls`).  `GetRaftStateSize` then narrows the count to an `int`.

* `KvProcess.sizeExact_iff` : when the count is the length of the state last saved, and the
  decision to make a snapshot is right.
-/

namespace KvRaft

open Storage

namespace Persister

/-- The call saves a Raft state. -/
def Call.saves : Call → Bool
  | .save _ _ | .saveRaftState _ => true
  | .readSnapshot | .readRaftState => false

/-- The call that saved last. -/
def lastSave (cs : List Call) : Option Call := (cs.filter Call.saves).getLast?

/-- The persister and the files after some calls. -/
def afterCalls (p : Persister) (d : Disk) (cs : List Call) : Persister × Disk :=
  cs.foldl (fun s c => ((s.1.call s.2 c).1, (s.1.call s.2 c).2.1)) (p, d)

/-- What was last saved after some calls. -/
def Register.afterCalls (reg : Register) (cs : List Call) : Register :=
  cs.foldl (fun reg c => (reg.call c).1) reg

variable {me : ℕ} {d : Disk} {cs : List Call}

theorem lastSave_concat (cs : List Call) (c : Call) :
    lastSave (cs ++ [c]) = if c.saves then some c else lastSave cs := by
  unfold lastSave
  rw [List.filter_append]
  split_ifs with hc
  · rw [List.filter_cons_of_pos hc, List.filter_nil, List.getLast?_concat]
  · rw [List.filter_cons_of_neg hc, List.filter_nil, List.append_nil]

theorem Register.afterCalls_concat (reg : Register) (cs : List Call) (c : Call) :
    reg.afterCalls (cs ++ [c]) = ((reg.afterCalls cs).call c).1 := by
  simp [Register.afterCalls]

theorem afterCalls_concat (p : Persister) (d : Disk) (cs : List Call) (c : Call) :
    (p.afterCalls d (cs ++ [c])).1 =
      ((p.afterCalls d cs).1.call (p.afterCalls d cs).2 c).1 := by
  simp [afterCalls]

/-- What a call does to the count. -/
theorem raftStateSize_call (p : Persister) (d : Disk) (c : Call) :
    (p.call d c).1.raftStateSize =
      match c with
      | .save _ _ => 0
      | .saveRaftState data => data.length
      | .readSnapshot | .readRaftState => p.raftStateSize := by
  cases c with
  | saveRaftState data => exact Nat.zero_add _
  | save | readSnapshot | readRaftState => rfl

/-- **The count**: what the last `SaveRaftState` wrote, and nothing after a `Save`. -/
theorem raftStateSize_afterCalls (me : ℕ) (d : Disk) (cs : List Call) :
    ((create me d).1.afterCalls (create me d).2 cs).1.raftStateSize =
      match lastSave cs with
      | some (.saveRaftState data) => data.length
      | _ => 0 := by
  induction cs using List.reverseRecOn with
  | nil => rfl
  | append_singleton cs c ih =>
    rw [lastSave_concat, afterCalls_concat, raftStateSize_call]
    cases c with
    | save | saveRaftState => rfl
    | readSnapshot | readRaftState => exact ih

/-- The Raft state last saved. -/
theorem raftState_afterCalls (cs : List Call) :
    (Register.initial.afterCalls cs).raftState =
      match lastSave cs with
      | some (.saveRaftState data) => data
      | some (.save raftstate _) => raftstate
      | _ => [] := by
  induction cs using List.reverseRecOn with
  | nil => rfl
  | append_singleton cs c ih =>
    rw [lastSave_concat, Register.afterCalls_concat]
    cases c with
    | save | saveRaftState => rfl
    | readSnapshot | readRaftState => exact ih

/-- No `Save` of a Raft state that is not empty came last. -/
def Counted (cs : List Call) : Prop :=
  ∀ raftstate snapshot, lastSave cs = some (.save raftstate snapshot) → raftstate = []

/-- **The count is right exactly if no `Save` came last.** -/
theorem raftStateSize_eq_iff (me : ℕ) (d : Disk) (cs : List Call) :
    ((create me d).1.afterCalls (create me d).2 cs).1.raftStateSize =
      (Register.initial.afterCalls cs).raftState.length ↔ Counted cs := by
  rw [raftStateSize_afterCalls, raftState_afterCalls, Counted]
  cases lastSave cs with
  | none => simp
  | some c =>
    cases c with
    | save raftstate snapshot =>
      simp only [Option.some.injEq, Call.save.injEq]
      constructor
      · rintro h r s ⟨rfl, -⟩
        exact List.length_eq_zero_iff.1 h.symm
      · exact fun h => by rw [h raftstate snapshot ⟨rfl, rfl⟩, List.length_nil]
    | saveRaftState | readSnapshot | readRaftState => simp

end Persister

/-- `Raft::GetRaftStateSize`, which returns an `int`. -/
def Raft.getRaftStateSize (persister : Persister) : Int32 := Int32.ofNat persister.raftStateSize

namespace KvProcess

open Persister

/-- The size is more than a tenth of the maximum.  The source divides a double, and the quotient is
rounded by less than its distance from the next integer. -/
def exceeds (size : ℤ) (maxRaftState : Int32) : Bool := maxRaftState.toInt < 10 * size

theorem exceeds_iff {size : ℤ} {maxRaftState : Int32} :
    exceeds size maxRaftState = true ↔ maxRaftState.toInt < 10 * size := decide_eq_true_iff

/-- `IfNeedToSendSnapShotCommand` -/
def ifNeedToSendSnapShotCommand (maxRaftState : Int32) (persister : Persister) (p : KvProcess) :
    Option KvProcess :=
  if exceeds (Raft.getRaftStateSize persister).toInt maxRaftState then p.step .apply
  else p.step .skipSnapShot

/-- **The size is exact**: after the calls the count is the length of the Raft state last saved,
and the server makes a snapshot exactly if that is more than a tenth of the maximum. -/
structure SizeExact (me : ℕ) (d : Disk) (cs : List Persister.Call) (maxRaftState : Int32) :
    Prop where
  size : ((create me d).1.afterCalls (create me d).2 cs).1.raftStateSize =
    (Register.initial.afterCalls cs).raftState.length
  snapshot : ∀ (p : KvProcess) op index, p.loop = .compact op index →
    ∃ p', p.ifNeedToSendSnapShotCommand maxRaftState
        ((create me d).1.afterCalls (create me d).2 cs).1 = some p' ∧
      ((∃ data, p'.loop = .snapshot op index data) ↔
        exceeds (Register.initial.afterCalls cs).raftState.length maxRaftState = true)

/-- What the server does before it sends the result. -/
theorem ifNeedToSendSnapShotCommand_eq {p : KvProcess} {op : Op} {index : ℤ}
    (hp : p.loop = .compact op index) (maxRaftState : Int32) (persister : Persister) :
    ∃ p', p.ifNeedToSendSnapShotCommand maxRaftState persister = some p' ∧
      ((∃ data, p'.loop = .snapshot op index data) ↔
        exceeds (Raft.getRaftStateSize persister).toInt maxRaftState = true) := by
  unfold ifNeedToSendSnapShotCommand
  split_ifs with hsize
  · exact ⟨_, by rw [step, apply, hp], iff_of_true ⟨_, rfl⟩ hsize⟩
  · refine ⟨_, by rw [step, hp], iff_of_false ?_ hsize⟩
    rintro ⟨data, h⟩
    cases h

/-- The narrowed size exceeds a tenth of an `int` exactly if the size does, unless it is narrowed
to a smaller number. -/
theorem exceeds_ofNat_iff (size : ℕ) (maxRaftState : Int32) :
    (exceeds (Int32.ofNat size).toInt maxRaftState = true ↔ exceeds size maxRaftState = true) ↔
      size < 2 ^ 31 ∨ maxRaftState.toInt < 10 * (Int32.ofNat size).toInt := by
  simp only [exceeds_iff]
  by_cases hsize : size < 2 ^ 31
  · rw [Int32.toInt_ofNat_of_lt hsize]
    exact iff_of_true Iff.rfl (.inl hsize)
  · have hmax := maxRaftState.toInt_lt
    have hlarge : maxRaftState.toInt < 10 * (size : ℤ) := by omega
    simp only [hlarge, hsize, iff_true, false_or]

/-- **The size is exact** unless a `Save` came last, or the size does not fit in an `int` and is
narrowed to less than a tenth of the maximum. -/
theorem sizeExact_iff (me : ℕ) (d : Disk) (cs : List Persister.Call) (maxRaftState : Int32) :
    SizeExact me d cs maxRaftState ↔ Counted cs ∧
      ((Register.initial.afterCalls cs).raftState.length < 2 ^ 31 ∨ maxRaftState.toInt <
        10 * (Int32.ofNat (Register.initial.afterCalls cs).raftState.length).toInt) := by
  rw [← raftStateSize_eq_iff me d, ← exceeds_ofNat_iff]
  constructor
  · intro h
    refine ⟨h.size, ?_⟩
    -- a server that has executed some command
    let p : KvProcess := { loop := .compact ⟨.get, "", "", "", 0⟩ 1 }
    obtain ⟨p', hp', hdecision⟩ := h.snapshot p _ _ rfl
    obtain ⟨p'', hp'', hsize⟩ := ifNeedToSendSnapShotCommand_eq (p := p) rfl maxRaftState
      ((create me d).1.afterCalls (create me d).2 cs).1
    obtain rfl := Option.some.inj (hp'.symm.trans hp'')
    rw [← h.size] at hdecision ⊢
    exact hsize.symm.trans hdecision
  · rintro ⟨hsize, hnarrow⟩
    refine ⟨hsize, fun p op index hp => ?_⟩
    obtain ⟨p', hp', hdecision⟩ := ifNeedToSendSnapShotCommand_eq hp maxRaftState
      ((create me d).1.afterCalls (create me d).2 cs).1
    rw [Raft.getRaftStateSize, hsize] at hdecision
    exact ⟨p', hp', hdecision.trans hnarrow⟩

/-- A compaction saves a state of one byte, and the count is 0. -/
theorem not_sizeExact : ¬ ∀ (me : ℕ) (d : Disk) (cs : List Persister.Call)
    (maxRaftState : Int32), SizeExact me d cs maxRaftState := by
  intro h
  have hsize := (h 0 (fun _ => none) [.saveRaftState [0x61, 0x62], .save [0x61] [0x63]] 5).size
  rw [raftStateSize_afterCalls] at hsize
  exact absurd hsize (by decide)

end KvProcess

end KvRaft
