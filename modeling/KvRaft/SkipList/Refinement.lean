import KvRaft.SkipList.Operations

/-!
# The skip list is a finite map

`SkipList.IsMap s m` says that `s`, with its mutex free, stores towers whose keys and values are
the finite map `m`.  Every operation gives the result it has on the map and keeps the relation
(`IsMap.apply`), whatever random levels are drawn.

## Main results

* `SkipList.run_refines` : every sequence of operations on a new skip list returns, with the
  results of the finite map, and leaves the levels well formed (`SkipList.Levelled`).
-/

namespace KvRaft

open Heap

variable {K V : Type}

/-- The operations of the skip list; an insertion draws `heads` odd numbers before an even one. -/
inductive MapOp (K V : Type) where
  | insertElement (key : K) (value : V) (heads : ℕ)
  | insertSetElement (key : K) (value : V) (heads : ℕ)
  | deleteElement (key : K)
  | searchElement (key : K)

/-- What an operation returns. -/
inductive MapResult (V : Type) where
  | inserted (isNew : Bool)
  | done
  | found (value : Option V)

section Map

variable [DecidableEq K]

/-- An operation on a finite map. -/
def MapOp.onMap (m : K → Option V) : MapOp K V → MapResult V × (K → Option V)
  | insertElement key value _ =>
    match m key with
    | some _ => (.inserted false, m)
    | none => (.inserted true, Function.update m key (some value))
  | insertSetElement key value _ => (.done, Function.update m key (some value))
  | deleteElement key => (.done, Function.update m key none)
  | searchElement key => (.found (m key), m)

/-- The results of operations on a finite map, and the map after them. -/
def runMap (m : K → Option V) : List (MapOp K V) → List (MapResult V) × (K → Option V)
  | [] => ([], m)
  | op :: ops =>
    let (r, m) := op.onMap m
    let (rs, m) := runMap m ops
    (r :: rs, m)

end Map

namespace SkipList

/-- The levels: sorted by key, each a part of the one below, empty above the level of the list,
and as many nodes on the lowest one as the list counts. -/
structure Levelled [LT K] (s : SkipList K V) : Prop where
  increasing : ∀ i ≤ s.maxLevel, ∃ keys, s.levelKeys i = .ok keys ∧ keys.Pairwise (· < ·)
  sublist : ∀ i < s.maxLevel, ∃ upper lower, s.levelNodes (i + 1) = .ok upper ∧
    s.levelNodes i = .ok lower ∧ upper.Sublist lower
  empty : ∀ i ≤ s.maxLevel, s.skipListLevel < i → s.levelNodes i = .ok []
  count : ∃ nodes, s.levelNodes 0 = .ok nodes ∧ s.elementCount = nodes.length

theorem Represents.levelled [LT K] {s : SkipList K V} {ts : List (Tower K V)}
    (h : s.Represents ts) : s.Levelled where
  increasing i hi := by
    have hmem : ∀ t ∈ ts.filter fun t => i ≤ t.level,
        (do return (← s.heap.node t.addr).key : Except Stop K) = .ok t.key := by
      intro t ht
      obtain ⟨n, hn, he⟩ := Option.map_eq_some_iff.1 (h.entry t (List.mem_of_mem_filter ht))
      simp only [Prod.mk.injEq] at he
      simp [Memory.node, hn, he.1]
    refine ⟨(ts.filter fun t => i ≤ t.level).map fun t => t.key, ?_, ?_⟩
    · rw [levelKeys, h.levelNodes_eq hi]
      exact mapM_map_eq hmem
    · rw [List.pairwise_map]
      exact h.sorted.filter _
  sublist i hi := ⟨_, _, h.levelNodes_eq hi, h.levelNodes_eq hi.le, chain_succ_sublist⟩
  empty i hi hlt := by
    rw [h.levelNodes_eq hi, chain_eq_nil fun t ht => lt_of_le_of_lt (h.level t ht) hlt]
  count := by
    refine ⟨_, h.levelNodes_eq (Nat.zero_le _), ?_⟩
    rw [chain_zero, List.length_map]
    exact h.count

variable [LinearOrder K]

/-- One operation. -/
def apply (s : SkipList K V) : MapOp K V → Except Stop (MapResult V × SkipList K V)
  | .insertElement key value heads => do
    let (isNew, s) ← s.insertElement key value heads
    return (.inserted isNew, s)
  | .insertSetElement key value heads => do
    let s ← s.insertSetElement key value heads
    return (.done, s)
  | .deleteElement key => do
    let (_, s) ← s.deleteElement key
    return (.done, s)
  | .searchElement key => do
    let (value, s) ← s.searchElement key
    return (.found value, s)

/-- Operations one after the other. -/
def run (s : SkipList K V) : List (MapOp K V) → Except Stop (List (MapResult V) × SkipList K V)
  | [] => return ([], s)
  | op :: ops => do
    let (r, s) ← s.apply op
    let (rs, s) ← run s ops
    return (r :: rs, s)

/-- The skip list with levels up to `L`, not in use by anyone, stores the map. -/
structure IsMap (L : ℕ) (s : SkipList K V) (m : K → Option V) : Prop where
  free : s.mtx = false
  maxLevel : s.maxLevel = L
  towers : ∃ ts, s.Represents ts ∧ lookup ts = m

variable {L : ℕ} {s : SkipList K V} {m : K → Option V}

theorem isMap_create (maxLevel : ℕ) (k : K) (v : V) :
    IsMap maxLevel (create maxLevel k v : SkipList K V) fun _ => none := by
  refine ⟨rfl, rfl, [], ⟨⟨by simp, fun i hi => ?_, by simp, List.Pairwise.nil⟩, ?_, by simp,
    Nat.zero_le _, rfl⟩, rfl⟩
  · exact Memory.forward_create hi
  · simp [create]

theorem Represents.setMtx {ts : List (Tower K V)} (h : s.Represents ts) (b : Bool) :
    { s with mtx := b }.Represents ts :=
  ⟨h.toHolds, h.fresh, h.level, h.level_le, h.count⟩

/-- An operation under the lock, from what its body does while the lock is held. -/
theorem IsMap.locked {R : Type} {body : SkipList K V → Except Stop (R × SkipList K V)} {r : R}
    {m' : K → Option V} (h : IsMap L s m)
    (hbody : ∀ s₁ ts, s₁.Represents ts → lookup ts = m → ∃ s' ts', body s₁ = .ok (r, s') ∧
      s'.Represents ts' ∧ lookup ts' = m' ∧ s'.maxLevel = s₁.maxLevel) :
    ∃ s', s.locked body = .ok (r, s') ∧ IsMap L s' m' := by
  obtain ⟨hfree, hL, ts, hts, hm⟩ := h
  obtain ⟨s', ts', heq, hts', hm', hL'⟩ := hbody _ ts (hts.setMtx true) hm
  exact ⟨{ s' with mtx := false }, by simp [SkipList.locked, hfree, heq],
    rfl, hL'.trans hL, ts', hts'.setMtx false, hm'⟩

theorem IsMap.insertElement (h : IsMap L s m) (key : K) (value : V) (heads : ℕ) :
    ∃ s', s.insertElement key value heads = .ok ((m key).isNone, s') ∧
      IsMap L s' (if (m key).isNone then Function.update m key (some value) else m) := by
  refine h.locked fun s₁ ts hts hm => ?_
  subst hm
  obtain ⟨xs, ys, hxs, hys, rfl | ⟨t, rfl, rfl⟩⟩ := exists_place hts.sorted key
  · obtain ⟨s', t, heq, hts', rfl, rfl, -, hL⟩ := insertBody_absent hts hxs hys value heads
    have hnone := lookup_absent hxs hys
    exact ⟨s', xs ++ t :: ys, by simp [heq, hnone], hts', by simp [hnone, lookup_insert hxs], hL⟩
  · have hsome : lookup (xs ++ t :: ys) t.key = some t.value := lookup_middle hxs
    exact ⟨_, _, by simp [insertBody_present hts hxs hys, hsome], hts, by simp [hsome], rfl⟩

theorem IsMap.deleteElement (h : IsMap L s m) (key : K) :
    ∃ s', s.deleteElement key = .ok ((), s') ∧ IsMap L s' (Function.update m key none) := by
  refine h.locked fun s₁ ts hts hm => ?_
  subst hm
  obtain ⟨xs, ys, hxs, hys, rfl | ⟨t, rfl, rfl⟩⟩ := exists_place hts.sorted key
  · exact ⟨_, _, deleteBody_absent hts hxs hys, hts,
      (Function.update_eq_self_iff.2 (lookup_absent hxs hys).symm).symm, rfl⟩
  · obtain ⟨s', heq, hts', -, hL⟩ := deleteBody_present hts hxs hys
    exact ⟨s', xs ++ ys, heq, hts', lookup_remove hxs hys, hL⟩

theorem IsMap.searchElement (h : IsMap L s m) (key : K) :
    ∃ s', s.searchElement key = .ok (m key, s') ∧ IsMap L s' m := by
  refine h.locked fun s₁ ts hts hm => ?_
  subst hm
  obtain ⟨xs, ys, hxs, hys, rfl | ⟨t, rfl, rfl⟩⟩ := exists_place hts.sorted key
  · exact ⟨_, _, by rw [searchBody_absent hts hxs hys, lookup_absent hxs hys], hts, rfl, rfl⟩
  · exact ⟨_, _, by rw [searchBody_present hts hxs hys, lookup_middle hxs], hts, rfl, rfl⟩

/-- A present key is deleted first, so that the insertion always inserts. -/
theorem IsMap.insertSetElement (h : IsMap L s m) (key : K) (value : V) (heads : ℕ) :
    ∃ s', s.insertSetElement key value heads = .ok s' ∧
      IsMap L s' (Function.update m key (some value)) := by
  obtain ⟨s₁, hsearch, h₁⟩ := h.searchElement key
  cases hm : m key with
  | none =>
    obtain ⟨s₂, hinsert, h₂⟩ := h₁.insertElement key value heads
    rw [hm] at hsearch hinsert h₂
    exact ⟨s₂, by simp [SkipList.insertSetElement, hsearch, hinsert], h₂⟩
  | some old =>
    obtain ⟨s₂, hdelete, h₂⟩ := h₁.deleteElement key
    obtain ⟨s₃, hinsert, h₃⟩ := h₂.insertElement key value heads
    rw [hm] at hsearch
    refine ⟨s₃, by simp [SkipList.insertSetElement, hsearch, hdelete, hinsert], ?_⟩
    simpa using h₃

/-- One operation does on the skip list what it does on the map. -/
theorem IsMap.apply (h : IsMap L s m) (op : MapOp K V) :
    ∃ s', s.apply op = .ok ((op.onMap m).1, s') ∧ IsMap L s' (op.onMap m).2 := by
  cases op with
  | insertElement key value heads =>
    obtain ⟨s', heq, h'⟩ := h.insertElement key value heads
    refine ⟨s', ?_, ?_⟩
    · cases hm : m key <;> simp [SkipList.apply, MapOp.onMap, heq, hm]
    · cases hm : m key <;> simpa [MapOp.onMap, hm] using h'
  | insertSetElement key value heads =>
    obtain ⟨s', heq, h'⟩ := h.insertSetElement key value heads
    exact ⟨s', by simp [SkipList.apply, heq, MapOp.onMap], h'⟩
  | deleteElement key =>
    obtain ⟨s', heq, h'⟩ := h.deleteElement key
    exact ⟨s', by simp [SkipList.apply, heq, MapOp.onMap], h'⟩
  | searchElement key =>
    obtain ⟨s', heq, h'⟩ := h.searchElement key
    exact ⟨s', by simp [SkipList.apply, heq, MapOp.onMap], h'⟩

theorem IsMap.run (h : IsMap L s m) (ops : List (MapOp K V)) :
    ∃ s', s.run ops = .ok ((runMap m ops).1, s') ∧ IsMap L s' (runMap m ops).2 := by
  induction ops generalizing s m with
  | nil => exact ⟨s, rfl, h⟩
  | cons op ops ih =>
    obtain ⟨s₁, heq, h₁⟩ := h.apply op
    obtain ⟨s₂, hrun, h₂⟩ := ih h₁
    exact ⟨s₂, by simp [SkipList.run, heq, hrun, runMap], h₂⟩

/-- Every sequence of operations on a new skip list returns what a finite map returns, and leaves
the levels well formed. -/
theorem run_refines (maxLevel : ℕ) (k : K) (v : V) (ops : List (MapOp K V)) :
    ∃ s, (create maxLevel k v).run ops = .ok ((runMap (fun _ => none) ops).1, s) ∧
      s.maxLevel = maxLevel ∧ s.Levelled := by
  obtain ⟨s, heq, -, hL, ts, hts, -⟩ := (isMap_create maxLevel k v).run ops
  exact ⟨s, heq, hL, hts.levelled⟩

end SkipList

end KvRaft
