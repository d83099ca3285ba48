import KvRaft.Bytes.Basic
import KvRaft.SkipList.Refinement
import Mathlib.Data.String.Basic
import Mathlib.Logic.Equiv.List

/-!
# Snapshots of the skip list

`dump_file` writes the keys and values of level 0 into a text archive.  `load_file` empties the
list by resetting the pointers of the header and inserts what it reads, all under the mutex of the
list, which `insert_element` locks as well: it returns only when there is nothing to insert
(`SkipList.loadFile_eq_blocked`, `SkipList.loadFile_nil`).  The server wraps the dump, together
with the table of the last requests, in an archive of its own.

## Main results

* `KvStore.snapshot_roundTrips_iff` : what was dumped is restored exactly if the dumped list is
  empty.
-/

namespace KvRaft

open Heap

/-- `boost::archive::text_oarchive` and `text_iarchive` for values of a type.  Reading gives back
what was written, an archive starts with a header, and an exception while reading is `none`. -/
structure TextArchive (A : Type) where
  encode : A → Bytes
  decode : Bytes → Option A
  decode_encode : ∀ a, decode (encode a) = some a
  encode_ne_nil : ∀ a, encode a ≠ []

/-- What is serialized of a skip list. -/
structure SkipListDump (K V : Type) where
  keyDumpVt : List K
  valDumpVt : List V

namespace SkipList

variable {K V : Type}

/-- The body of `dump_file`. -/
def dumpBody (archive : TextArchive (SkipListDump K V)) (s : SkipList K V) :
    Except Stop (Bytes × SkipList K V) := do
  let nodes ← cells (s.heap.forward 0) .outOfFuel s.fuel s.header
  let keyDumpVt ← nodes.mapM fun a => return (← s.heap.node a).key
  let valDumpVt ← nodes.mapM fun a => return (← s.heap.node a).value
  return (archive.encode { keyDumpVt := keyDumpVt, valDumpVt := valDumpVt }, s)

/-- `dump_file`. -/
def dumpFile (archive : TextArchive (SkipListDump K V)) (s : SkipList K V) :
    Except Stop (Bytes × SkipList K V) :=
  s.locked (dumpBody archive)

/-- Clear the old data: the levels in use of the header are reset. -/
def reset (s : SkipList K V) : Except Stop (SkipList K V) := do
  let heap ← (List.range (s.skipListLevel + 1)).foldlM
    (fun heap i => Memory.setForward heap i s.header none) s.heap
  return { s with heap := heap, skipListLevel := 0, elementCount := 0 }

/-- Element `i` of a vector. -/
def element {α : Type} (xs : List α) (i : ℕ) : Except Stop α :=
  match xs[i]? with
  | some x => .ok x
  | none => .error .invalidAccess

variable [LinearOrder K]

/-- Insert what was read; `heads i` is drawn for element `i`. -/
def insertAll (heads : ℕ → ℕ) (dumper : SkipListDump K V) (s : SkipList K V) :
    Except Stop (SkipList K V) :=
  (List.range dumper.keyDumpVt.length).foldlM (fun s i => do
    let key ← element dumper.keyDumpVt i
    let value ← element dumper.valDumpVt i
    let (_, s) ← s.insertElement key value (heads i)
    return s) s

/-- The body of `load_file`. -/
def loadBody (archive : TextArchive (SkipListDump K V)) (heads : ℕ → ℕ) (dumpStr : Bytes)
    (s : SkipList K V) : Except Stop (Unit × SkipList K V) := do
  let s ← s.reset
  match archive.decode dumpStr with
  | none => return ((), s)
  | some dumper =>
    let s ← s.insertAll heads dumper
    return ((), s)

/-- `load_file`. -/
def loadFile (archive : TextArchive (SkipListDump K V)) (heads : ℕ → ℕ) (dumpStr : Bytes)
    (s : SkipList K V) : Except Stop (SkipList K V) := do
  if dumpStr = [] then return s
  let (_, s) ← s.locked (loadBody archive heads dumpStr)
  return s

end SkipList

/-- The fields of `KvServer` that a snapshot is made of; keys and values are strings there. -/
structure KvStore (K V : Type) where
  serializedKVData : Bytes
  skipList : SkipList K V
  /-- The last request of every client, in the order of the table. -/
  lastRequestId : List (String × ℤ)

/-- The archives of the two classes that are serialized. -/
structure SnapshotArchives (K V : Type) where
  dump : TextArchive (SkipListDump K V)
  server : TextArchive (Bytes × List (String × ℤ))

namespace KvStore

variable {K V : Type} [LinearOrder K]

/-- `getSnapshotData`. -/
def getSnapshotData (archives : SnapshotArchives K V) (kv : KvStore K V) :
    Except Stop (Bytes × KvStore K V) := do
  let (data, skipList) ← kv.skipList.dumpFile archives.dump
  let kv := { kv with serializedKVData := data, skipList := skipList }
  let str := archives.server.encode (kv.serializedKVData, kv.lastRequestId)
  return (str, { kv with serializedKVData := [] })

/-- `parseFromString`. -/
def parseFromString (archives : SnapshotArchives K V) (heads : ℕ → ℕ) (str : Bytes)
    (kv : KvStore K V) : Except Stop (KvStore K V) := do
  match archives.server.decode str with
  | none => .error .exception
  | some (serializedKVData, lastRequestId) =>
    let skipList ← kv.skipList.loadFile archives.dump heads serializedKVData
    return { serializedKVData := [], skipList := skipList, lastRequestId := lastRequestId }

end KvStore

/-! ### Dumping -/

namespace SkipList

variable {K V : Type} [LinearOrder K] {archive : TextArchive (SkipListDump K V)} {L : ℕ}
  {s : SkipList K V} {m m' : K → Option V} {ts : List (Tower K V)}

/-- The dump of a list of towers. -/
def dumpOf (ts : List (Tower K V)) : SkipListDump K V where
  keyDumpVt := ts.map fun t => t.key
  valDumpVt := ts.map fun t => t.value

theorem dumpBody_eq (h : s.Represents ts) :
    dumpBody archive s = .ok (archive.encode (dumpOf ts), s) := by
  have hnode : ∀ t ∈ ts, ∃ n, s.heap t.addr = some n ∧ n.key = t.key ∧ n.value = t.value := by
    intro t ht
    obtain ⟨n, hn, he⟩ := Option.map_eq_some_iff.1 (h.entry t ht)
    simp only [Prod.mk.injEq] at he
    exact ⟨n, hn, he⟩
  have hcells := h.levelNodes_eq (Nat.zero_le _)
  rw [levelNodes, chain_zero] at hcells
  have hkeys : (ts.map fun t => t.addr).mapM
      (fun a => (do return (← s.heap.node a).key : Except Stop K)) =
        .ok (ts.map fun t => t.key) := by
    refine mapM_map_eq fun t ht => ?_
    obtain ⟨n, hn, hk, -⟩ := hnode t ht
    simp [Memory.node, hn, hk]
  have hvalues : (ts.map fun t => t.addr).mapM
      (fun a => (do return (← s.heap.node a).value : Except Stop V)) =
        .ok (ts.map fun t => t.value) := by
    refine mapM_map_eq fun t ht => ?_
    obtain ⟨n, hn, -, hv⟩ := hnode t ht
    simp [Memory.node, hn, hv]
  rw [dumpBody, hcells, ok_bind, hkeys, ok_bind, hvalues]
  rfl

theorem lookup_eq_empty_iff : lookup ts = (fun _ => none) ↔ ts = [] := by
  refine ⟨fun h => ?_, fun h => by subst h; rfl⟩
  cases ts with
  | nil => rfl
  | cons t ts =>
    have ht := congrFun h t.key
    simp [lookup] at ht

/-- The dump of a list, which is without keys exactly if the list is empty. -/
theorem IsMap.dumpFile (h : IsMap L s m) (archive : TextArchive (SkipListDump K V)) :
    ∃ ts s', s.dumpFile archive = .ok (archive.encode (dumpOf ts), s') ∧
      ((∀ key, m key = none) ↔ ts = []) := by
  obtain ⟨hfree, hL, ts, hts, rfl⟩ := h
  refine ⟨ts, { s with mtx := false },
    by simp [SkipList.dumpFile, SkipList.locked, hfree, dumpBody_eq (hts.setMtx true)], ?_⟩
  rw [← lookup_eq_empty_iff, funext_iff]

/-! ### Loading -/

/-- Resetting the pointers of the header below level `n`. -/
theorem reset_fold_eq (h : s.Represents ts) {n : ℕ} (hn : n ≤ s.maxLevel + 1) :
    ∃ heap : Memory K V,
      (List.range n).foldlM (fun heap i => Memory.setForward heap i s.header none) s.heap =
        .ok heap ∧ (∀ i < n, heap.forward i s.header = .ok none) ∧
      ∀ i ≥ n, heap.forward i = s.heap.forward i := by
  induction n with
  | zero => exact ⟨s.heap, rfl, fun i hi => absurd hi (by omega), fun i _ => rfl⟩
  | succ n ih =>
    obtain ⟨heap₁, hfold, hlow, hhigh⟩ := ih (by omega)
    have hnext := (h.linked n (by omega)).next_eq
    rw [← hhigh n le_rfl] at hnext
    obtain ⟨heap₂, hset, -, hfwd, hother⟩ := Memory.setForward_eq hnext none
    refine ⟨heap₂, by simp [List.range_succ, List.foldlM_append, hfold, hset], fun i hi => ?_,
      fun i hi => ?_⟩
    · rcases eq_or_ne i n with rfl | hne
      · rw [hfwd, Function.update_self]
      · rw [hother i hne]
        exact hlow i (by omega)
    · rw [hother i (by omega)]
      exact hhigh i (by omega)

theorem reset_eq (h : s.Represents ts) :
    ∃ s', s.reset = .ok s' ∧ s'.Represents [] ∧ s'.mtx = s.mtx ∧ s'.maxLevel = s.maxLevel := by
  have hle := h.level_le
  obtain ⟨heap, heq, hlow, hhigh⟩ := reset_fold_eq h (n := s.skipListLevel + 1) (by omega)
  refine ⟨{ s with heap := heap, skipListLevel := 0, elementCount := 0 }, by simp [reset, heq],
    ⟨⟨by simp, fun i hi => ?_, by simp, .nil⟩, fun a ha => ?_, by simp, Nat.zero_le _, rfl⟩,
    rfl, rfl⟩
  · rcases Nat.lt_or_ge i (s.skipListLevel + 1) with hlt | hge
    · exact hlow i hlt
    · have hlinked := h.linked i hi
      rw [chain_eq_nil fun t ht => lt_of_le_of_lt (h.level t ht) hge] at hlinked
      simp only [hhigh i hge]
      exact hlinked
  · simp only [List.map_nil, List.mem_singleton] at ha
    subst ha
    exact h.fresh s.header List.mem_cons_self

variable {heads : ℕ → ℕ}

/-- An empty dump empties the list. -/
theorem loadFile_nil (h : IsMap L s m) (archive : TextArchive (SkipListDump K V)) (heads : ℕ → ℕ) :
    ∃ s', s.loadFile archive heads (archive.encode (dumpOf [])) = .ok s' ∧
      IsMap L s' fun _ => none := by
  obtain ⟨s', heq, hs'⟩ : ∃ s', s.locked (loadBody archive heads (archive.encode (dumpOf []))) =
      .ok ((), s') ∧ IsMap L s' fun _ => none := by
    refine h.locked fun s₁ ts hts _ => ?_
    obtain ⟨s₂, hreset, hs₂, -, hL⟩ := reset_eq hts
    exact ⟨s₂, [], by simp [loadBody, hreset, archive.decode_encode, insertAll, dumpOf],
      hs₂, rfl, hL⟩
  exact ⟨s', by simp [loadFile, archive.encode_ne_nil, heq], hs'⟩

/-- A dump with keys is never loaded: the first insertion waits for the mutex that `load_file`
holds. -/
theorem loadFile_eq_blocked (h : IsMap L s m) (hts : ts ≠ []) :
    s.loadFile archive heads (archive.encode (dumpOf ts)) = .error .blocked := by
  obtain ⟨hfree, -, us, hus, -⟩ := h
  obtain ⟨s', hreset, -, hmtx, -⟩ := reset_eq (hus.setMtx true)
  obtain ⟨t, ts, rfl⟩ := List.exists_cons_of_ne_nil hts
  have hinsert : s'.insertAll heads (dumpOf (t :: ts)) = .error .blocked := by
    simp [insertAll, dumpOf, List.range_succ_eq_map, element, insertElement, SkipList.locked, hmtx]
  simp [loadFile, archive.encode_ne_nil, SkipList.locked, hfree, loadBody, hreset,
    archive.decode_encode, hinsert]

/-- `load_file(dump_file())` of `s` into `r` returns and leaves the map `m` there. -/
def RoundTrips (archive : TextArchive (SkipListDump K V)) (heads : ℕ → ℕ) (L : ℕ)
    (s r : SkipList K V) (m : K → Option V) : Prop :=
  ∃ dumpStr s' r', s.dumpFile archive = .ok (dumpStr, s') ∧
    r.loadFile archive heads dumpStr = .ok r' ∧ IsMap L r' m

theorem roundTrips_iff_empty {M : ℕ} {r : SkipList K V} (hs : IsMap L s m) (hr : IsMap M r m') :
    RoundTrips archive heads M s r m ↔ ∀ key, m key = none := by
  obtain ⟨ts, s', hdump, hempty⟩ := hs.dumpFile archive
  rw [hempty]
  constructor
  · rintro ⟨dumpStr, s'', r', hdump', hload, -⟩
    obtain ⟨rfl, -⟩ : archive.encode (dumpOf ts) = dumpStr ∧ s' = s'' := by
      simpa [hdump] using hdump'
    by_contra hts
    simp [loadFile_eq_blocked hr hts] at hload
  · rintro rfl
    obtain ⟨r', hload, hr'⟩ := loadFile_nil hr archive heads
    have hm : m = fun _ => none := funext (hempty.2 rfl)
    exact ⟨_, s', r', hdump, hload, hm ▸ hr'⟩

end SkipList

namespace KvStore

variable {K V : Type} [LinearOrder K] {archives : SnapshotArchives K V} {heads : ℕ → ℕ} {L M : ℕ}
  {kv receiver : KvStore K V} {m m' : K → Option V}

/-- `parseFromString(getSnapshotData())` of `kv` into `receiver` returns and leaves the map `m` and
the table of `kv` there. -/
def RoundTrips (archives : SnapshotArchives K V) (heads : ℕ → ℕ) (M : ℕ) (kv receiver : KvStore K V)
    (m : K → Option V) : Prop :=
  ∃ str kv' receiver', kv.getSnapshotData archives = .ok (str, kv') ∧
    receiver.parseFromString archives heads str = .ok receiver' ∧
    SkipList.IsMap M receiver'.skipList m ∧ receiver'.lastRequestId = kv.lastRequestId

omit [LinearOrder K] in
theorem getSnapshotData_eq {data : Bytes} {skipList : SkipList K V}
    (h : kv.skipList.dumpFile archives.dump = .ok (data, skipList)) :
    kv.getSnapshotData archives = .ok (archives.server.encode (data, kv.lastRequestId),
      { kv with serializedKVData := [], skipList := skipList }) := by
  simp [getSnapshotData, h]

theorem parseFromString_encode (data : Bytes) (lastRequestId : List (String × ℤ)) :
    receiver.parseFromString archives heads (archives.server.encode (data, lastRequestId)) = do
      let skipList ← receiver.skipList.loadFile archives.dump heads data
      return { serializedKVData := [], skipList := skipList, lastRequestId := lastRequestId } := by
  simp only [parseFromString, archives.server.decode_encode]

/-- The round trip of the server is that of its skip list. -/
theorem roundTrips_iff_skipList (hs : SkipList.IsMap L kv.skipList m) :
    RoundTrips archives heads M kv receiver m ↔
      SkipList.RoundTrips archives.dump heads M kv.skipList receiver.skipList m := by
  obtain ⟨ts, s', hdump, -⟩ := hs.dumpFile archives.dump
  constructor
  · rintro ⟨str, kv', receiver', hget, hparse, hmap, -⟩
    simp only [getSnapshotData_eq hdump, Except.ok.injEq, Prod.mk.injEq] at hget
    obtain ⟨rfl, -⟩ := hget
    rw [parseFromString_encode] at hparse
    cases hload : receiver.skipList.loadFile archives.dump heads
        (archives.dump.encode (SkipList.dumpOf ts)) with
    | error e => simp [hload] at hparse
    | ok r' =>
      simp only [hload, ok_bind, pure_except, Except.ok.injEq] at hparse
      subst hparse
      exact ⟨_, s', r', hdump, hload, hmap⟩
  · rintro ⟨dumpStr, s'', r', hdump', hload, hmap⟩
    refine ⟨_, _, { serializedKVData := [], skipList := r', lastRequestId := kv.lastRequestId },
      getSnapshotData_eq hdump', ?_, hmap, rfl⟩
    simp [parseFromString_encode, hload]

/-- A snapshot of a server, or a dump of a skip list, is restored exactly if it has no keys,
whatever the receiver held before. -/
theorem snapshot_roundTrips_iff (archives : SnapshotArchives K V) (heads : ℕ → ℕ)
    (hs : SkipList.IsMap L kv.skipList m) (hr : SkipList.IsMap M receiver.skipList m') :
    (RoundTrips archives heads M kv receiver m ↔ ∀ key, m key = none) ∧
      (SkipList.RoundTrips archives.dump heads M kv.skipList receiver.skipList m ↔
        ∀ key, m key = none) :=
  ⟨(roundTrips_iff_skipList hs).trans (SkipList.roundTrips_iff_empty hs hr),
    SkipList.roundTrips_iff_empty hs hr⟩

/-! ### A snapshot with one key -/

/-- An archive that writes the code number of a value in unary. -/
def unaryArchive (A : Type) [Encodable A] : TextArchive A where
  encode a := List.replicate (Encodable.encode a + 1) 0
  decode str := Encodable.decode (str.length - 1)
  decode_encode a := by simp
  encode_ne_nil a := by simp

instance : Encodable UInt8 := .ofLeftInverse UInt8.toNat UInt8.ofNat fun a => by simp

instance : Encodable String :=
  .ofLeftInverse (fun str => str.toList.map Char.toNat)
    (fun codes => String.ofList (codes.map Char.ofNat)) fun str => by simp [Function.comp_def]

instance : Encodable (SkipListDump String String) :=
  .ofLeftInverse (fun d => (d.keyDumpVt, d.valDumpVt)) (fun p => ⟨p.1, p.2⟩) fun _ => rfl

/-- Unary archives for the classes of the server. -/
def unaryArchives : SnapshotArchives String String := ⟨unaryArchive _, unaryArchive _⟩

/-- A server without data. -/
def emptyStore : KvStore String String where
  serializedKVData := []
  skipList := SkipList.create 6 "" ""
  lastRequestId := []

theorem isMap_emptyStore : SkipList.IsMap 6 emptyStore.skipList fun _ => none :=
  SkipList.isMap_create 6 "" ""

/-- The snapshot of a server that stores one key stops a server that parses it. -/
theorem snapshot_of_one_key_blocks :
    ∃ (kv : KvStore String String) (str : Bytes) (kv' : KvStore String String),
      emptyStore.skipList.insertElement "x" "1" 0 = .ok (true, kv.skipList) ∧
      kv.getSnapshotData unaryArchives = .ok (str, kv') ∧
      emptyStore.parseFromString unaryArchives (fun _ => 0) str = .error .blocked := by
  obtain ⟨s, hinsert, hs⟩ := isMap_emptyStore.insertElement "x" "1" 0
  obtain ⟨ts, s', hdump, hempty⟩ := hs.dumpFile unaryArchives.dump
  have hts : ts ≠ [] := by
    intro h
    have hx := hempty.2 h "x"
    simp at hx
  refine ⟨{ emptyStore with skipList := s }, _, _, hinsert, getSnapshotData_eq hdump, ?_⟩
  rw [parseFromString_encode, SkipList.loadFile_eq_blocked isMap_emptyStore hts]
  rfl

/-- The snapshot of a server without data empties a server that stores one key. -/
theorem snapshot_of_no_keys_restored : ∃ kv : KvStore String String,
    emptyStore.skipList.insertElement "x" "1" 0 = .ok (true, kv.skipList) ∧
      RoundTrips unaryArchives (fun _ => 0) 6 emptyStore kv (fun _ => none) ∧
      SkipList.RoundTrips unaryArchives.dump (fun _ => 0) 6 emptyStore.skipList kv.skipList
        (fun _ => none) := by
  obtain ⟨s, hinsert, hs⟩ := isMap_emptyStore.insertElement "x" "1" 0
  obtain ⟨kv, hkv⟩ : ∃ kv : KvStore String String, kv.skipList = s :=
    ⟨{ emptyStore with skipList := s }, rfl⟩
  rw [← hkv] at hinsert hs
  have hiff : (RoundTrips unaryArchives (fun _ => 0) 6 emptyStore kv (fun _ => none) ↔
      String → (none : Option String) = none) ∧
      (SkipList.RoundTrips unaryArchives.dump (fun _ => 0) 6 emptyStore.skipList
        kv.skipList (fun _ => none) ↔ String → (none : Option String) = none) :=
    snapshot_roundTrips_iff unaryArchives (fun _ => 0) isMap_emptyStore hs
  exact ⟨kv, hinsert, hiff.1.2 fun _ => rfl, hiff.2.2 fun _ => rfl⟩

end KvStore

end KvRaft
