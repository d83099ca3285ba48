import KvRaft.SkipList.Basic
import Mathlib.Data.Finset.Card
import Mathlib.Data.Finset.Range

/-!
# The towers of a skip list

A list of towers, sorted by key, determines what every level of the list should be: level `i` links
the towers of level at least `i` (`chain`).  `Memory.Holds` says that the heap stores the towers
that way, and `SkipList.Represents` adds the bookkeeping of the list.  The way down ends at the
last tower with a smaller key of each level (`SkipList.descend_eq`).
-/

namespace KvRaft

open Heap

/-- A node of the list as the operations see it. -/
structure Tower (K V : Type) where
  addr : Addr
  key : K
  value : V
  level : ℕ

variable {K V : Type}

/-- The addresses of the towers that reach level `i`. -/
def chain (ts : List (Tower K V)) (i : ℕ) : List Addr :=
  (ts.filter fun t => i ≤ t.level).map fun t => t.addr

section Chain

variable {ts us : List (Tower K V)} {t : Tower K V} {i : ℕ} {a : Addr}

theorem chain_append : chain (ts ++ us) i = chain ts i ++ chain us i := by
  simp [chain]

theorem chain_cons_of_le (h : i ≤ t.level) : chain (t :: ts) i = t.addr :: chain ts i := by
  simp [chain, h]

theorem chain_cons_of_lt (h : t.level < i) : chain (t :: ts) i = chain ts i := by
  simp [chain, h]

theorem mem_chain : a ∈ chain ts i ↔ ∃ t ∈ ts, i ≤ t.level ∧ t.addr = a := by
  simp [chain, and_assoc]

theorem chain_sublist : (chain ts i).Sublist (ts.map fun t => t.addr) :=
  List.filter_sublist.map _

theorem chain_zero : chain ts 0 = ts.map fun t => t.addr := by
  simp [chain]

/-- Each level is a part of the level below. -/
theorem chain_succ_sublist : (chain ts (i + 1)).Sublist (chain ts i) := by
  refine List.Sublist.map _ ?_
  have h : ts.filter (fun t => decide (i + 1 ≤ t.level)) =
      (ts.filter fun t => decide (i ≤ t.level)).filter fun t => decide (i + 1 ≤ t.level) := by
    rw [List.filter_filter]
    refine List.filter_congr fun t _ => ?_
    grind
  rw [h]
  exact List.filter_sublist

theorem chain_eq_nil (h : ∀ t ∈ ts, t.level < i) : chain ts i = [] := by
  rw [chain, List.filter_eq_nil_iff.2, List.map_nil]
  intro t ht
  simpa using h t ht

end Chain

/-! ### The heap -/

namespace Memory

/-- Key and value of the node at an address. -/
def entry (heap : Memory K V) (a : Addr) : Option (K × V) :=
  (heap a).map fun n => (n.key, n.value)

variable {heap : Memory K V} {a b : Addr} {i j : ℕ} {q r : Option Addr} {n : Node K V}
  {k key : K} {v : V}

theorem forward_eq_ok_iff :
    heap.forward i a = .ok q ↔ ∃ n, heap a = some n ∧ n.forward[i]? = some q := by
  cases h : heap a with
  | none => simp [forward, node, h]
  | some n =>
    cases hq : n.forward[i]? with
    | none => simp [forward, node, h, hq]
    | some r => simp [forward, node, h, hq]

theorem forward_congr {heap' : Memory K V} (h : heap' a = heap a) :
    heap'.forward i a = heap.forward i a := by
  simp [forward, node, h]

/-- Assigning a forward pointer that exists changes this pointer and nothing else. -/
theorem setForward_eq (h : heap.forward i a = .ok r) (q : Option Addr) :
    ∃ heap', heap.setForward i a q = .ok heap' ∧ heap'.entry = heap.entry ∧
      heap'.forward i = Function.update (heap.forward i) a (.ok q) ∧
      ∀ j ≠ i, heap'.forward j = heap.forward j := by
  obtain ⟨n, hn, hr⟩ := forward_eq_ok_iff.1 h
  have hi : i < n.forward.length := (List.getElem?_eq_some_iff.1 hr).1
  refine ⟨_, by simp [setForward, node, hn, hi]; rfl, ?_, ?_, fun j hj => ?_⟩
  · funext b
    rcases eq_or_ne b a with rfl | hb
    · simp [entry, hn]
    · simp [entry, hb]
  · funext b
    rcases eq_or_ne b a with rfl | hb
    · simp [forward, node, hi]
    · simp [forward, node, hb]
  · funext b
    rcases eq_or_ne b a with rfl | hb
    · simp [forward, node, hn, Ne.symm hj]
    · simp [forward, node, hb]

theorem forward_create {level : ℕ} (h : i ≤ level) :
    forward (Function.update heap a (some (Node.create k v level))) i a = .ok none := by
  rw [forward_eq_ok_iff]
  exact ⟨_, Function.update_self .., by simp [Node.create, List.getElem?_replicate]; omega⟩

theorem precedes_eq [LinearOrder K] (h : heap.entry a = some (k, v)) :
    heap.precedes key a = .ok (decide (k < key)) := by
  obtain ⟨n, hn, he⟩ := Option.map_eq_some_iff.1 h
  cases he
  simp [precedes, node, hn]

theorem found_eq [LinearOrder K] (h : heap.entry a = some (k, v)) (key : K) :
    ∃ n : Node K V, n.value = v ∧
      heap.found key (some a) = .ok (if k = key then some (a, n) else none) := by
  obtain ⟨n, hn, he⟩ := Option.map_eq_some_iff.1 h
  cases he
  exact ⟨n, rfl, by simp [found, node, hn]⟩

/-- The heap stores the towers: every level links the towers that reach it, and the towers are
sorted by key. -/
structure Holds [LT K] (heap : Memory K V) (header : Addr) (maxLevel : ℕ)
    (ts : List (Tower K V)) : Prop where
  entry : ∀ t ∈ ts, heap.entry t.addr = some (t.key, t.value)
  linked : ∀ i ≤ maxLevel, Linked (heap.forward i) header (chain ts i)
  nodup : (header :: ts.map fun t => t.addr).Nodup
  sorted : ts.Pairwise fun t u => t.key < u.key

end Memory

namespace Update

variable {update : Update} {i j : ℕ} {a : Addr}

theorem assign_eq (h : i < update.length) (a : Addr) :
    update.assign i a = .ok (update.set i (some a)) := by
  simp [assign, h]

theorem pointer_set_self (h : i < update.length) : pointer (update.set i (some a)) i = .ok a := by
  simp [pointer, h]

theorem pointer_set_of_ne (h : i ≠ j) : pointer (update.set i (some a)) j = update.pointer j := by
  simp [pointer, h]

end Update

/-- The last tower of level `i`, the header if there is none. -/
def lastAt (header : Addr) (xs : List (Tower K V)) (i : ℕ) : Addr := (chain xs i).getLastD header

theorem lastAt_mem (header : Addr) (xs : List (Tower K V)) (i : ℕ) :
    lastAt header xs i ∈ header :: chain xs i := List.getLastD_mem_cons ..

theorem lastAt_succ_mem (header : Addr) (xs : List (Tower K V)) (i : ℕ) :
    lastAt header xs (i + 1) ∈ header :: chain xs i :=
  (chain_succ_sublist.cons_cons header).subset (lastAt_mem header xs (i + 1))

/-- The skip list stores the towers. -/
structure SkipList.Represents [LT K] (s : SkipList K V) (ts : List (Tower K V)) : Prop extends
    s.heap.Holds s.header s.maxLevel ts where
  fresh : ∀ a ∈ s.header :: ts.map (fun t => t.addr), a < s.fresh
  level : ∀ t ∈ ts, t.level ≤ s.skipListLevel
  level_le : s.skipListLevel ≤ s.maxLevel
  count : s.elementCount = ts.length

namespace SkipList

variable {s : SkipList K V} {ts xs ys : List (Tower K V)} {key : K} {i : ℕ}

/-- The loops have enough fuel. -/
theorem Represents.length_lt [LT K] (h : s.Represents ts) : ts.length < s.fuel := by
  have hsub : (s.header :: ts.map fun t => t.addr).toFinset ⊆ Finset.range s.fresh := by
    intro a ha
    exact Finset.mem_range.2 (h.fresh a (List.mem_toFinset.1 ha))
  have hcard := Finset.card_le_card hsub
  rw [List.toFinset_card_of_nodup h.nodup, Finset.card_range] at hcard
  simp only [List.length_cons, List.length_map] at hcard
  rw [fuel]
  omega

theorem Represents.chain_length_lt [LT K] (h : s.Represents ts) (i : ℕ) :
    (chain ts i).length < s.fuel := by
  refine lt_of_le_of_lt ?_ h.length_lt
  have hle := (chain_sublist : (chain ts i).Sublist _).length_le
  simpa using hle

theorem Represents.levelNodes_eq [LT K] (h : s.Represents ts) (hi : i ≤ s.maxLevel) :
    s.levelNodes i = .ok (chain ts i) :=
  cells_eq (h.linked i hi) (h.chain_length_lt i)

/-! ### The way down -/

variable [LinearOrder K]

/-- Where a key belongs in a sorted list of towers. -/
theorem exists_split (h : ts.Pairwise fun t u => t.key < u.key) (key : K) :
    ∃ xs ys, ts = xs ++ ys ∧ (∀ t ∈ xs, t.key < key) ∧ ∀ t ∈ ys, key ≤ t.key := by
  induction ts with
  | nil => exact ⟨[], [], rfl, by simp, by simp⟩
  | cons t ts ih =>
    obtain ⟨htail, h⟩ := List.pairwise_cons.1 h
    rcases lt_or_ge t.key key with ht | ht
    · obtain ⟨xs, ys, rfl, hxs, hys⟩ := ih h
      exact ⟨t :: xs, ys, rfl, by simpa using ⟨ht, hxs⟩, hys⟩
    · refine ⟨[], t :: ts, rfl, by simp, ?_⟩
      simpa using ⟨ht, fun u hu => ht.trans (htail u hu).le⟩

variable (h : s.Represents (xs ++ ys)) (hxs : ∀ t ∈ xs, t.key < key)
  (hys : ∀ t ∈ ys, key ≤ t.key)

include h hxs hys

/-- From the header or a tower before the key, level `i` is left at the last such tower. -/
theorem advanceAt_eq (hi : i ≤ s.maxLevel) {current : Addr}
    (hcur : current ∈ s.header :: chain xs i) :
    s.advanceAt key i current = .ok (lastAt s.header xs i) := by
  have hlinked := h.linked i hi
  rw [chain_append] at hlinked
  refine advance_of_mem hlinked hcur (fun a ha => ?_) (fun b hb => ?_) ?_
  · obtain ⟨t, ht, -, rfl⟩ := mem_chain.1 ha
    rw [Memory.precedes_eq (h.entry t (by simp [ht])), decide_eq_true (hxs t ht)]
  · obtain ⟨t, ht, -, rfl⟩ := mem_chain.1 (List.mem_of_mem_head? hb)
    rw [Memory.precedes_eq (h.entry t (by simp [ht])), decide_eq_false (not_lt.2 (hys t ht))]
  · have hlen := h.chain_length_lt i
    rw [chain_append, List.length_append] at hlen
    omega

/-- The way down from level `n` ends at the last tower before the key and remembers the last such
tower of every level. -/
theorem descend_eq {n : ℕ} (hn : n ≤ s.maxLevel) {current : Addr} {update : Update}
    (hcur : current ∈ s.header :: chain xs n) (hlen : update.length = s.maxLevel + 1) :
    ∃ update', s.descend key (n + 1) current update = .ok (lastAt s.header xs 0, update') ∧
      update'.length = s.maxLevel + 1 ∧
      (∀ i ≤ n, update'.pointer i = .ok (lastAt s.header xs i)) ∧
      ∀ i > n, update'.pointer i = update.pointer i := by
  induction n generalizing current update with
  | zero =>
    have hpos : 0 < update.length := by omega
    have hassign := Update.assign_eq hpos (lastAt s.header xs 0)
    refine ⟨_, by simp [descend, advanceAt_eq h hxs hys hn hcur, hassign]; rfl, by simpa using hlen,
      fun i hi => ?_, fun i hi => ?_⟩
    · obtain rfl : i = 0 := by omega
      exact Update.pointer_set_self (by omega)
    · exact Update.pointer_set_of_ne (by omega)
  | succ n ih =>
    have hset : (update.set (n + 1) (some (lastAt s.header xs (n + 1)))).length =
        s.maxLevel + 1 := by simpa using hlen
    obtain ⟨update', hdesc, hlen', hlow, hhigh⟩ :=
      ih (by omega) (lastAt_succ_mem s.header xs n) hset
    refine ⟨update', ?_, hlen', fun i hi => ?_, fun i hi => ?_⟩
    · rw [descend, advanceAt_eq h hxs hys hn hcur]
      simpa [Update.assign_eq (show n + 1 < update.length by omega)] using hdesc
    · rcases Nat.lt_or_ge n i with hni | hni
      · obtain rfl : i = n + 1 := by omega
        rw [hhigh _ hni, Update.pointer_set_self (by omega)]
      · exact hlow i hni
    · rw [hhigh i (by omega), Update.pointer_set_of_ne (by omega)]

/-- The way down of `search_element` ends at the same tower. -/
theorem descendOnly_eq {n : ℕ} (hn : n ≤ s.maxLevel) {current : Addr}
    (hcur : current ∈ s.header :: chain xs n) :
    s.descendOnly key (n + 1) current = .ok (lastAt s.header xs 0) := by
  induction n generalizing current with
  | zero => simp [descendOnly, advanceAt_eq h hxs hys hn hcur]
  | succ n ih =>
    have hlow := ih (by omega) (lastAt_succ_mem s.header xs n)
    rw [descendOnly, advanceAt_eq h hxs hys hn hcur]
    exact hlow

end SkipList

end KvRaft
