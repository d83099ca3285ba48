import KvRaft.SkipList.Snapshot
import Mathlib.Data.FinEnum

/-!
# Dumps that cannot be read

`load_file` empties the list before it reads the dump.  When the archive throws, it writes a message
and returns, and the old contents are gone.

## Main results

* `SkipList.failsAtomically_iff` : a failing `load_file` leaves a list as it was exactly if there is
  nothing to lose, or the string is empty and nothing is read.
* `KvStore.parseFromString_empties` : what that means for a server, and a result of its own: a
  snapshot whose dump cannot be read empties the store, and its table of the last requests is taken
  over nevertheless.
-/

namespace KvRaft

open Heap

namespace SkipList

variable {K V : Type} [LinearOrder K]

/-- The message of `load_file` for an exception. -/
def loadFailure (what : String) : String := "load_file failed during deserialization: " ++ what

/-- `load_file` with what it writes to the error stream; `what` gives the texts of the exceptions of
the archive. -/
def loadReport (archive : TextArchive (SkipListDump K V)) (what : Bytes → String) (heads : ℕ → ℕ)
    (dumpStr : Bytes) (s : SkipList K V) : Except Stop (Option String × SkipList K V) := do
  if dumpStr = [] then return (none, s)
  s.locked fun s => do
    let s ← s.reset
    match archive.decode dumpStr with
    | none => return (some (loadFailure (what dumpStr)), s)
    | some dumper =>
      let s ← s.insertAll heads dumper
      return (none, s)

variable {archive : TextArchive (SkipListDump K V)} {what : Bytes → String} {heads : ℕ → ℕ}
  {dumpStr : Bytes} {L : ℕ} {s s' : SkipList K V} {m : K → Option V}

/-- Apart from the message this is `load_file`. -/
theorem loadReport_snd (archive : TextArchive (SkipListDump K V)) (what : Bytes → String)
    (heads : ℕ → ℕ) (dumpStr : Bytes) (s : SkipList K V) :
    Prod.snd <$> s.loadReport archive what heads dumpStr = s.loadFile archive heads dumpStr := by
  by_cases hne : dumpStr = []
  · simp [loadReport, loadFile, hne]
  cases hmtx : s.mtx with
  | true => simp [loadReport, loadFile, hne, locked, hmtx]
  | false =>
    simp only [loadReport, loadFile, hne, locked, hmtx, loadBody]
    cases reset { s with mtx := true } with
    | error e => rfl
    | ok s₁ =>
      cases archive.decode dumpStr with
      | none => rfl
      | some dumper =>
        simp only [ok_bind]
        cases insertAll heads dumper s₁ <;> rfl

/-- **The lists look the same**: levels, counters, and what every search finds. -/
structure Unchanged (s s' : SkipList K V) : Prop where
  levels : ∀ i ≤ s.maxLevel, s'.levelNodes i = s.levelNodes i
  skipListLevel : s'.skipListLevel = s.skipListLevel
  elementCount : s'.elementCount = s.elementCount
  pairs : ∀ key, Prod.fst <$> s'.searchElement key = Prod.fst <$> s.searchElement key

/-- **The failure is atomic**: `load_file` returns, reports an exception of the archive, which does
not get to see an empty string, and leaves everything as it was. -/
def FailsAtomically (archive : TextArchive (SkipListDump K V)) (what : Bytes → String)
    (heads : ℕ → ℕ) (dumpStr : Bytes) (s : SkipList K V) : Prop :=
  ∃ report s', s.loadReport archive what heads dumpStr = .ok (report, s') ∧
    (dumpStr ≠ [] → report = some (loadFailure (what dumpStr))) ∧ s.Unchanged s'

omit [LinearOrder K] in
theorem reset_skipListLevel (h : s.reset = .ok s') :
    s'.skipListLevel = 0 ∧ s'.elementCount = 0 := by
  unfold reset at h
  generalize (List.range (s.skipListLevel + 1)).foldlM
    (fun heap i => Memory.setForward heap i s.header none) s.heap = cleared at h
  cases cleared with
  | error e => cases h
  | ok heap =>
    cases h
    exact ⟨rfl, rfl⟩

/-- What a failing `load_file` leaves. -/
theorem loadReport_eq (h : IsMap L s m) (what : Bytes → String) (heads : ℕ → ℕ)
    (hne : dumpStr ≠ []) (hd : archive.decode dumpStr = none) :
    ∃ s', s.loadReport archive what heads dumpStr = .ok (some (loadFailure (what dumpStr)), s') ∧
      s'.skipListLevel = 0 ∧ s'.elementCount = 0 ∧ IsMap L s' fun _ => none := by
  obtain ⟨hfree, hL, ts, hts, -⟩ := h
  obtain ⟨s₁, hreset, hs₁, -, hL₁⟩ := reset_eq (hts.setMtx true)
  obtain ⟨hlevel, hcount⟩ := reset_skipListLevel hreset
  exact ⟨{ s₁ with mtx := false }, by simp [loadReport, hne, locked, hfree, hreset, hd], hlevel,
    hcount, rfl, hL₁.trans hL, [], hs₁.setMtx false, rfl⟩

theorem IsMap.searchResult (h : IsMap L s m) (key : K) :
    Prod.fst <$> s.searchElement key = .ok (m key) := by
  obtain ⟨s', heq, -⟩ := h.searchElement key
  rw [heq]
  rfl

/-- The levels and the count of a list without keys. -/
theorem IsMap.empty (h : IsMap L s fun _ => none) :
    (∀ i ≤ s.maxLevel, s.levelNodes i = .ok []) ∧ s.elementCount = 0 := by
  obtain ⟨-, -, ts, hts, hlookup⟩ := h
  obtain rfl := lookup_eq_empty_iff.1 hlookup
  exact ⟨fun i hi => hts.levelNodes_eq hi, hts.count⟩

/-- **When `load_file` fails atomically** on a string that the archive cannot read: exactly if the
string is empty, and is not looked at, or the list has neither keys nor levels to lose. -/
theorem failsAtomically_iff (h : IsMap L s m) (what : Bytes → String) (heads : ℕ → ℕ)
    (hd : archive.decode dumpStr = none) : FailsAtomically archive what heads dumpStr s ↔
      dumpStr = [] ∨ (∀ key, m key = none) ∧ s.skipListLevel = 0 := by
  by_cases hne : dumpStr = []
  · refine iff_of_true ⟨none, s, ?_, fun hne' => absurd hne hne', ?_⟩ (Or.inl hne)
    · simp [loadReport, hne]
    · exact ⟨fun _ _ => rfl, rfl, rfl, fun _ => rfl⟩
  rw [or_iff_right hne]
  obtain ⟨s₁, heq, hlevel, hcount, h₁⟩ := loadReport_eq h what heads hne hd
  constructor
  · rintro ⟨report, s', heq', -, hsame⟩
    obtain ⟨-, rfl⟩ := Prod.mk.inj (Except.ok.inj (heq.symm.trans heq'))
    refine ⟨fun key => ?_, hsame.skipListLevel.symm.trans hlevel⟩
    have hpair := hsame.pairs key
    rw [h.searchResult, h₁.searchResult] at hpair
    exact (Except.ok.inj hpair).symm
  · rintro ⟨hempty, hzero⟩
    obtain rfl : m = fun _ => none := funext hempty
    obtain ⟨hnodes, hnone⟩ := h.empty
    obtain ⟨hnodes₁, -⟩ := h₁.empty
    refine ⟨_, s₁, heq, fun _ => rfl, fun i hi => ?_, hlevel.trans hzero.symm,
      hcount.trans hnone.symm, fun key => ?_⟩
    · rw [hnodes i hi, hnodes₁ i (by rwa [h₁.maxLevel, ← h.maxLevel])]
    · rw [h.searchResult, h₁.searchResult]

/-! ### A dump that cannot be read -/

section Corrupt

open KvStore

/-- The unary archive, which reads no other bytes than it has written. -/
def checkedArchive (A : Type) [Encodable A] : TextArchive A where
  encode := (unaryArchive A).encode
  decode str := if str ≠ [] ∧ ∀ b ∈ str, b = 0 then (unaryArchive A).decode str else none
  decode_encode a := by
    rw [if_pos ⟨(unaryArchive A).encode_ne_nil a, fun b hb => List.eq_of_mem_replicate hb⟩]
    exact (unaryArchive A).decode_encode a
  encode_ne_nil := (unaryArchive A).encode_ne_nil

theorem checkedArchive_one (A : Type) [Encodable A] : (checkedArchive A).decode [1] = none := by
  simp [checkedArchive]

theorem failsAtomically_emptyStore :
    FailsAtomically (checkedArchive (SkipListDump String String))
      (fun _ => "input stream error") (fun _ => 0) [1] emptyStore.skipList :=
  (failsAtomically_iff isMap_emptyStore _ _ (checkedArchive_one _)).2
    (Or.inr ⟨fun _ => rfl, rfl⟩)

/-- A list with one key does not find it again after a dump that cannot be read. -/
theorem not_failsAtomically : ¬ ∀ (s : SkipList String String) (m : String → Option String)
    (dumpStr : Bytes), IsMap 6 s m →
      (checkedArchive (SkipListDump String String)).decode dumpStr = none →
      FailsAtomically (checkedArchive (SkipListDump String String))
        (fun _ => "input stream error") (fun _ => 0) dumpStr s := by
  intro hall
  obtain ⟨s, -, hs⟩ := isMap_emptyStore.insertElement "x" "1" 0
  obtain ⟨report, s', heq, -, hsame⟩ := hall s _ [1] hs (checkedArchive_one _)
  obtain ⟨s₁, heq₁, -, -, h₁⟩ := loadReport_eq hs (fun _ => "input stream error") (fun _ => 0)
    (by simp) (checkedArchive_one _)
  obtain ⟨-, rfl⟩ := Prod.mk.inj (Except.ok.inj (heq.symm.trans heq₁))
  have hpair := hsame.pairs "x"
  rw [hs.searchResult, h₁.searchResult] at hpair
  simp at hpair

end Corrupt

end SkipList

namespace KvStore

variable {K V : Type} [LinearOrder K] {archives : SnapshotArchives K V} {heads : ℕ → ℕ} {L : ℕ}
  {kv : KvStore K V} {m : K → Option V}

/-- **The loss is silent**: `parseFromString` returns, with an empty store and the table of the
snapshot. -/
theorem parseFromString_empties (h : SkipList.IsMap L kv.skipList m) {data : Bytes}
    (hne : data ≠ []) (hd : archives.dump.decode data = none) (table : List (String × ℤ)) :
    ∃ kv', kv.parseFromString archives heads (archives.server.encode (data, table)) = .ok kv' ∧
      SkipList.IsMap L kv'.skipList (fun _ => none) ∧ kv'.lastRequestId = table := by
  obtain ⟨s', heq, -, -, hs'⟩ := SkipList.loadReport_eq h (fun _ => "") heads hne hd
  have hload : kv.skipList.loadFile archives.dump heads data = .ok s' := by
    rw [← SkipList.loadReport_snd archives.dump (fun _ => ""), heq]
    rfl
  exact ⟨⟨[], s', table⟩, by simp [parseFromString_encode, hload], hs', rfl⟩

end KvStore

end KvRaft
