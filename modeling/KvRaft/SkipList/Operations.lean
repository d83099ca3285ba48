import KvRaft.SkipList.Links
import Mathlib.Tactic.Ring

/-!
# The operations of the skip list on its towers

Each operation finds the place of its key in the sorted list of towers (`Represents.place`) and
then leaves the list as it is, inserts a tower there or removes the one it found, whatever level
is drawn.
-/

namespace KvRaft

open Heap

variable {K V : Type} [LinearOrder K]

/-- The value that a list of towers gives to a key. -/
def lookup (ts : List (Tower K V)) (k : K) : Option V :=
  (ts.find? fun t => t.key = k).map fun t => t.value

section Lookup

variable {xs ys ts : List (Tower K V)} {t : Tower K V} {key : K}

theorem lookup_eq_none (h : ∀ t ∈ ts, t.key ≠ key) : lookup ts key = none := by
  rw [lookup, List.find?_eq_none.2, Option.map_none]
  intro t ht
  simpa using h t ht

theorem lookup_absent (hxs : ∀ u ∈ xs, u.key < key) (hys : ∀ u ∈ ys, key < u.key) :
    lookup (xs ++ ys) key = none := by
  refine lookup_eq_none fun u hu => ?_
  rcases List.mem_append.1 hu with hu | hu
  · exact (hxs u hu).ne
  · exact (hys u hu).ne'

theorem lookup_middle (hxs : ∀ u ∈ xs, u.key < t.key) :
    lookup (xs ++ t :: ys) t.key = some t.value := by
  have hnone : xs.find? (fun u => decide (u.key = t.key)) = none := by
    rw [List.find?_eq_none]
    intro u hu
    simpa using (hxs u hu).ne
  simp [lookup, List.find?_append, hnone]

theorem lookup_of_ne {k : K} (h : k ≠ t.key) :
    lookup (xs ++ t :: ys) k = lookup (xs ++ ys) k := by
  simp [lookup, List.find?_append, h.symm]

theorem lookup_insert (hxs : ∀ u ∈ xs, u.key < t.key) :
    lookup (xs ++ t :: ys) = Function.update (lookup (xs ++ ys)) t.key (some t.value) := by
  funext k
  rcases eq_or_ne k t.key with rfl | hk
  · rw [Function.update_self, lookup_middle hxs]
  · rw [Function.update_of_ne hk, lookup_of_ne hk]

theorem lookup_remove (hxs : ∀ u ∈ xs, u.key < t.key) (hys : ∀ u ∈ ys, t.key < u.key) :
    lookup (xs ++ ys) = Function.update (lookup (xs ++ t :: ys)) t.key none := by
  funext k
  rcases eq_or_ne k t.key with rfl | hk
  · rw [Function.update_self, lookup_absent hxs hys]
  · rw [Function.update_of_ne hk, lookup_of_ne hk]

end Lookup

theorem getRandomLevel_le (maxLevel heads : ℕ) : getRandomLevel maxLevel heads ≤ maxLevel := by
  simp only [getRandomLevel]
  split_ifs with h
  · exact h.le
  · exact le_rfl

/-- What happens elsewhere in the heap does not matter. -/
theorem Memory.Holds.of_agree {heap heap' : Memory K V} {header : Addr} {maxLevel : ℕ}
    {ts : List (Tower K V)} (h : heap.Holds header maxLevel ts)
    (ha : ∀ a ∈ header :: ts.map (fun t => t.addr), heap' a = heap a) :
    heap'.Holds header maxLevel ts where
  entry t ht := by
    rw [Memory.entry, ha t.addr (by simp; exact .inr ⟨t, ht, rfl⟩)]
    exact h.entry t ht
  linked i hi := by
    refine (h.linked i hi).congr fun a hmem => Memory.forward_congr (ha a ?_)
    exact (chain_sublist.cons_cons header).subset hmem
  nodup := h.nodup
  sorted := h.sorted

namespace SkipList

variable {s : SkipList K V} {xs ys ts : List (Tower K V)} {t : Tower K V} {key : K} {value : V}
  {heads : ℕ}

/-! ### Finding the place of a key -/

/-- The way down of `insert_element` and `delete_element`, up to the next node. -/
theorem Represents.place (h : s.Represents (xs ++ ys)) (hxs : ∀ t ∈ xs, t.key < key)
    (hys : ∀ t ∈ ys, key ≤ t.key) :
    ∃ update, s.descend key (s.skipListLevel + 1) s.header (List.replicate (s.maxLevel + 1) none)
        = .ok (lastAt s.header xs 0, update) ∧
      update.length = s.maxLevel + 1 ∧
      ∀ i ≤ s.skipListLevel, update.pointer i = .ok (lastAt s.header xs i) := by
  obtain ⟨update, hdesc, hlen, hp, -⟩ := descend_eq h hxs hys h.level_le
    List.mem_cons_self List.length_replicate
  exact ⟨update, hdesc, hlen, hp⟩

theorem Represents.next (h : s.Represents (xs ++ ys)) :
    s.heap.forward 0 (lastAt s.header xs 0) = .ok (ys.head?.map fun t => t.addr) := by
  have hlinked := h.linked 0 (Nat.zero_le _)
  rw [chain_append] at hlinked
  rw [lastAt, hlinked.drop.next_eq, chain_zero, List.head?_map]

theorem Represents.found_none (h : s.Represents (xs ++ ys)) (hys : ∀ t ∈ ys, key < t.key) :
    s.heap.found key (ys.head?.map fun t => t.addr) = .ok none := by
  cases ys with
  | nil => rfl
  | cons t ys =>
    obtain ⟨n, -, hfound⟩ := Memory.found_eq (h.entry t (by simp)) key
    simpa [(hys t (by simp)).ne'] using hfound

theorem Represents.found_some (h : s.Represents (xs ++ t :: ys)) :
    ∃ n : Node K V, n.value = t.value ∧
      s.heap.found t.key (some t.addr) = .ok (some (t.addr, n)) := by
  obtain ⟨n, hn, hfound⟩ := Memory.found_eq (h.entry t (by simp)) t.key
  exact ⟨n, hn, by simpa using hfound⟩

/-- A key is either absent, and belongs between two parts of the list, or the key of a tower. -/
theorem exists_place (h : ts.Pairwise fun t u => t.key < u.key) (key : K) :
    ∃ xs ys, (∀ t ∈ xs, t.key < key) ∧ (∀ t ∈ ys, key < t.key) ∧
      (ts = xs ++ ys ∨ ∃ t, t.key = key ∧ ts = xs ++ t :: ys) := by
  obtain ⟨xs, ys, rfl, hxs, hys⟩ := exists_split h key
  cases ys with
  | nil => exact ⟨xs, [], hxs, by simp, .inl rfl⟩
  | cons t ys =>
    have htail : ∀ u ∈ ys, t.key < u.key := (List.pairwise_cons.1 (List.pairwise_append.1 h).2.1).1
    have ht : key ≤ t.key := hys t List.mem_cons_self
    rcases ht.eq_or_lt with heq | hlt
    · exact ⟨xs, ys, hxs, fun u hu => heq ▸ htail u hu, .inr ⟨t, heq.symm, rfl⟩⟩
    · refine ⟨xs, t :: ys, hxs, ?_, .inl rfl⟩
      simpa using ⟨hlt, fun u hu => hlt.trans (htail u hu)⟩

/-! ### Insertion -/

/-- Key and value, sorted, of one more tower. -/
theorem sorted_insert (h : (xs ++ ys).Pairwise fun t u => t.key < u.key)
    (hxs : ∀ u ∈ xs, u.key < t.key) (hys : ∀ u ∈ ys, t.key < u.key) :
    (xs ++ t :: ys).Pairwise fun t u => t.key < u.key := by
  obtain ⟨hx, hy, hxy⟩ := List.pairwise_append.1 h
  refine List.pairwise_append.2 ⟨hx, List.pairwise_cons.2 ⟨hys, hy⟩, fun u hu v hv => ?_⟩
  rcases List.mem_cons.1 hv with rfl | hv
  · exact hxs u hu
  · exact hxy u hu v hv

omit [LinearOrder K] in
theorem nodup_middle {header : Addr} :
    (header :: (xs ++ t :: ys).map fun t => t.addr).Nodup ↔
      t.addr ∉ header :: ((xs ++ ys).map fun t => t.addr) ∧
        (header :: (xs ++ ys).map fun t => t.addr).Nodup := by
  rw [← List.nodup_cons]
  refine List.Perm.nodup_iff ?_
  rw [List.map_append, List.map_append, List.map_cons, ← List.cons_append, ← List.cons_append]
  exact List.perm_middle

/-- The state after linking a new node on all its levels. -/
theorem Represents.insert (h : s.Represents (xs ++ ys)) (hxs : ∀ u ∈ xs, u.key < t.key)
    (hys : ∀ u ∈ ys, t.key < u.key) (haddr : t.addr = s.fresh) (hlevel : t.level ≤ s.maxLevel)
    {heap : Memory K V} (hentry : heap.entry = Memory.entry
      (Function.update s.heap t.addr (some (Node.create t.key t.value t.level))))
    (hin : ∀ i ≤ t.level, Linked (heap.forward i) s.header (chain (xs ++ t :: ys) i))
    (hout : ∀ i ≤ s.maxLevel, t.level < i →
      Linked (heap.forward i) s.header (chain (xs ++ ys) i)) :
    { s with
      skipListLevel := max s.skipListLevel t.level
      heap := heap
      fresh := s.fresh + 1
      elementCount := s.elementCount + 1 : SkipList K V }.Represents (xs ++ t :: ys) := by
  have hfresh : t.addr ∉ s.header :: (xs ++ ys).map fun t => t.addr :=
    fun hmem => (h.fresh _ hmem).ne haddr
  have hmem : ∀ u ∈ xs ++ t :: ys, u = t ∨ u ∈ xs ++ ys := by grind
  refine ⟨⟨fun u hu => ?_, fun i hi => ?_, nodup_middle.2 ⟨hfresh, h.nodup⟩,
    sorted_insert h.sorted hxs hys⟩, fun a ha => ?_, fun u hu => ?_, ?_, ?_⟩
  · rw [hentry]
    rcases hmem u hu with rfl | hu
    · simp [Memory.entry, Node.create]
    · have hne : u.addr ≠ t.addr := by
        intro heq
        exact hfresh (List.mem_cons_of_mem _ (List.mem_map.2 ⟨u, hu, heq⟩))
      simpa [Memory.entry, hne] using h.entry u hu
  · rcases Nat.lt_or_ge t.level i with hlt | hge
    · have heq : chain (xs ++ t :: ys) i = chain (xs ++ ys) i := by
        rw [chain_append, chain_cons_of_lt hlt, ← chain_append]
      rw [heq]
      exact hout i hi hlt
    · exact hin i hge
  · have hold : a = t.addr ∨ a ∈ s.header :: (xs ++ ys).map fun t => t.addr := by grind
    rcases hold with rfl | hold
    · exact haddr ▸ Nat.lt_succ_self _
    · exact (h.fresh a hold).trans (Nat.lt_succ_self _)
  · rcases hmem u hu with rfl | hu
    · exact le_max_right ..
    · exact (h.level u hu).trans (le_max_left ..)
  · exact max_le h.level_le hlevel
  · simp only [h.count, List.length_append, List.length_cons, Nat.cast_add, Nat.cast_one]
    ring

theorem insertBody_absent (h : s.Represents (xs ++ ys)) (hxs : ∀ t ∈ xs, t.key < key)
    (hys : ∀ t ∈ ys, key < t.key) (value : V) (heads : ℕ) :
    ∃ s' t, s.insertBody key value heads = .ok (true, s') ∧ s'.Represents (xs ++ t :: ys) ∧
      t.key = key ∧ t.value = value ∧ s'.mtx = s.mtx ∧ s'.maxLevel = s.maxLevel := by
  have hrandom := getRandomLevel_le s.maxLevel heads
  generalize hlevel : getRandomLevel s.maxLevel heads = level at hrandom
  obtain ⟨t, haddr, rfl, rfl, rfl⟩ : ∃ t : Tower K V, t.addr = s.fresh ∧ t.key = key ∧
    t.value = value ∧ t.level = level := ⟨⟨s.fresh, key, value, level⟩, rfl, rfl, rfl, rfl⟩
  obtain ⟨update, hdesc, hlen, hp⟩ := h.place hxs fun t ht => (hys t ht).le
  obtain ⟨update', hraise, hp'⟩ := raise_eq (s := s) (show t.level < update.length by omega)
    (fun t ht => h.level t (by simp [ht])) hp
  have hfresh : t.addr ∉ s.header :: (xs ++ ys).map fun t => t.addr :=
    fun hmem => (h.fresh _ hmem).ne haddr
  have hagree : ∀ a ∈ s.header :: (xs ++ ys).map fun t => t.addr,
      Function.update s.heap t.addr (some (Node.create t.key t.value t.level)) a = s.heap a :=
    fun a ha => Function.update_of_ne (ne_of_mem_of_not_mem ha hfresh) ..
  have hholds := h.toHolds.of_agree hagree
  obtain ⟨heap, hlink, hentry, hin, hout⟩ := link_eq (t := t) le_rfl
    (fun i hi => hholds.linked i (by omega)) h.nodup hfresh
    (fun i hi => Memory.forward_create (Nat.lt_succ_iff.1 hi))
    fun i hi => hp' i (Nat.lt_succ_iff.1 hi)
  refine ⟨_, t, ?_, h.insert hxs hys haddr hrandom hentry
    (fun i hi => hin i (Nat.lt_succ_iff.2 hi)) fun i hi hlt => ?_, rfl, rfl, rfl, rfl⟩
  · simp [insertBody, hdesc, h.next, h.found_none hys, hlevel, hraise, createNode, ← haddr, hlink]
  · rw [hout i hlt]
    exact hholds.linked i hi

theorem key_le_of_mem_cons (hys : ∀ u ∈ ys, t.key < u.key) : ∀ u ∈ t :: ys, t.key ≤ u.key := by
  intro u hu
  rcases List.mem_cons.1 hu with rfl | hu
  · exact le_rfl
  · exact (hys u hu).le

theorem insertBody_present (h : s.Represents (xs ++ t :: ys)) (hxs : ∀ u ∈ xs, u.key < t.key)
    (hys : ∀ u ∈ ys, t.key < u.key) : s.insertBody t.key value heads = .ok (false, s) := by
  obtain ⟨update, hdesc, -, -⟩ := h.place hxs (key_le_of_mem_cons hys)
  obtain ⟨n, -, hfound⟩ := h.found_some
  simp [insertBody, hdesc, h.next, hfound]

/-! ### Deletion -/

theorem deleteBody_absent (h : s.Represents (xs ++ ys)) (hxs : ∀ t ∈ xs, t.key < key)
    (hys : ∀ t ∈ ys, key < t.key) : s.deleteBody key = .ok ((), s) := by
  obtain ⟨update, hdesc, -, -⟩ := h.place hxs fun t ht => (hys t ht).le
  simp [deleteBody, hdesc, h.next, h.found_none hys]

/-- The state after taking a tower out of all its levels. -/
theorem Represents.remove (h : s.Represents (xs ++ t :: ys)) {heap : Memory K V} {level : ℕ}
    (hentry : heap.entry = s.heap.entry)
    (hlinked : ∀ i ≤ s.maxLevel, Linked (heap.forward i) s.header (chain (xs ++ ys) i))
    (hle : level ≤ s.skipListLevel) (hlevel : ∀ u ∈ xs ++ ys, u.level ≤ level) :
    { s with
      heap := heap.deleteNode t.addr
      skipListLevel := level
      elementCount := s.elementCount - 1 : SkipList K V }.Represents (xs ++ ys) := by
  obtain ⟨hnew, hnodup⟩ := nodup_middle.1 h.nodup
  have hmem : ∀ u ∈ xs ++ ys, u ∈ xs ++ t :: ys := by grind
  have hsub : (xs ++ ys).Sublist (xs ++ t :: ys) :=
    (List.Sublist.refl xs).append (List.sublist_cons_self t ys)
  have hholds : heap.Holds s.header s.maxLevel (xs ++ ys) :=
    ⟨fun u hu => hentry ▸ h.entry u (hmem u hu), hlinked, hnodup, h.sorted.sublist hsub⟩
  refine ⟨hholds.of_agree fun a ha => Function.update_of_ne (ne_of_mem_of_not_mem ha hnew) ..,
    fun a ha => h.fresh a ?_, hlevel, hle.trans h.level_le, ?_⟩
  · exact ((hsub.map _).cons_cons s.header).subset ha
  · simp only [h.count, List.length_append, List.length_cons, Nat.cast_add, Nat.cast_one]
    ring

theorem deleteBody_present (h : s.Represents (xs ++ t :: ys)) (hxs : ∀ u ∈ xs, u.key < t.key)
    (hys : ∀ u ∈ ys, t.key < u.key) :
    ∃ s', s.deleteBody t.key = .ok ((), s') ∧ s'.Represents (xs ++ ys) ∧ s'.mtx = s.mtx ∧
      s'.maxLevel = s.maxLevel := by
  obtain ⟨update, hdesc, hlen, hp⟩ := h.place hxs (key_le_of_mem_cons hys)
  obtain ⟨n, -, hfound⟩ := h.found_some
  have htlevel : t.level ≤ s.skipListLevel := h.level t (by simp)
  have hmax := h.level_le
  obtain ⟨heap, hunlink, hentry, hlinked, -⟩ := unlink_eq (n := s.skipListLevel + 1) (i := 0)
    (by omega) (by omega) (by omega) (fun j hj _ => h.linked j hj)
    h.nodup fun j hj => hp j (by omega)
  obtain ⟨level, hle, hlowered, hlevel⟩ := lowered_eq (n := s.skipListLevel)
    (fun i hi => hlinked i (hi.trans hmax) (Nat.zero_le i))
    fun u hu => h.level u (by grind)
  refine ⟨_, ?_, h.remove hentry (fun i hi => hlinked i hi (Nat.zero_le i)) hle hlevel, rfl, rfl⟩
  simp [deleteBody, hdesc, h.next, hfound, hunlink, hlowered]

/-! ### Search -/

theorem searchBody_absent (h : s.Represents (xs ++ ys)) (hxs : ∀ t ∈ xs, t.key < key)
    (hys : ∀ t ∈ ys, key < t.key) : s.searchBody key = .ok (none, s) := by
  have hdesc := descendOnly_eq h hxs (fun t ht => (hys t ht).le) h.level_le List.mem_cons_self
  simp [searchBody, hdesc, h.next, h.found_none hys]

theorem searchBody_present (h : s.Represents (xs ++ t :: ys)) (hxs : ∀ u ∈ xs, u.key < t.key)
    (hys : ∀ u ∈ ys, t.key < u.key) : s.searchBody t.key = .ok (some t.value, s) := by
  have hdesc := descendOnly_eq h hxs (key_le_of_mem_cons hys) h.level_le List.mem_cons_self
  obtain ⟨n, hn, hfound⟩ := h.found_some
  simp [searchBody, hdesc, h.next, hfound, hn]

end SkipList

end KvRaft
