import Mathlib.Data.List.Nodup
import Mathlib.Data.List.TakeWhile
import Mathlib.Order.Lattice

/-!
# Ordered sets

An ordered set, kept by a comparison `less`, is the list of its elements in order.  A position in
the set is the list of the elements from there on, so that the one behind the last element is the
empty list.  The operations compare and never look at an element otherwise, as those of a search
tree do: on a list that is out of order they may miss an element.

* `OrderedSet.insert`, `OrderedSet.find`, `OrderedSet.erase` : the operations.
* `OrderedSet.Sorted` : the elements are in order.
* `OrderedSet.Sorted.insert`, `OrderedSet.Sorted.find`, `OrderedSet.Sorted.erase_find` : what they
  do to a set that is in order, where `less` compares the keys of the elements.
-/

namespace KvRaft

namespace OrderedSet

variable {α κ : Type*} (less : α → α → Bool)

/-- The first position whose element is not `before`. -/
def lowerBound (before : α → Bool) (s : List α) : List α := s.dropWhile before

/-- The position of the element equivalent to `x`. -/
def find (x : α) (s : List α) : List α :=
  match lowerBound (less · x) s with
  | [] => []
  | y :: rest => if less x y then [] else y :: rest

/-- Insert `x` unless there is an element equivalent to it. -/
def insert (x : α) (s : List α) : List α :=
  match lowerBound (less · x) s with
  | [] => s ++ [x]
  | y :: rest => if less x y then s.takeWhile (less · x) ++ x :: y :: rest else s

/-- Remove the element at a position; there is none at the end. -/
def erase (position s : List α) : Option (List α) :=
  match position with
  | [] => none
  | _ :: rest => some (s.take (s.length - position.length) ++ rest)

/-- The elements are in order. -/
def Sorted (s : List α) : Prop := s.Pairwise fun x y => less x y = true

variable {less} {s : List α} {x y : α}

/-- The elements of a set are compared as before. -/
theorem Sorted.congr {less' : α → α → Bool} (h : Sorted less s)
    (heq : ∀ x ∈ s, ∀ y ∈ s, less' x y = less x y) : Sorted less' s :=
  List.Pairwise.imp_of_mem (fun hx hy hxy => (heq _ hx _ hy).trans hxy) h

theorem Sorted.sublist {s' : List α} (h : Sorted less s) (hs : s'.Sublist s) : Sorted less s' :=
  List.Pairwise.sublist hs h

theorem dropWhile_congr {p q : α → Bool} (h : ∀ x ∈ s, p x = q x) :
    s.dropWhile p = s.dropWhile q := by
  induction s with
  | nil => rfl
  | cons x s ih =>
    rw [List.dropWhile_cons, List.dropWhile_cons, h x List.mem_cons_self,
      ih fun y hy => h y (List.mem_cons_of_mem x hy)]

/-- The elements before a position. -/
theorem take_before {xs ys : List α} (h : s = xs ++ ys) : s.take (s.length - ys.length) = xs := by
  rw [h, List.length_append, Nat.add_sub_cancel, List.take_left]

section Keys

variable [LinearOrder κ] {key : α → κ}

/-- The comparison is that of the keys. -/
def ByKey (less : α → α → Bool) (key : α → κ) : Prop := ∀ x y, less x y = true ↔ key x < key y

theorem ByKey.nodup (hk : ByKey less key) (h : Sorted less s) : s.Nodup := by
  refine List.Pairwise.imp (fun {x y} hxy heq => ?_) h
  rw [hk x y, heq] at hxy
  exact lt_irrefl _ hxy

/-- Behind the elements with keys below `k` there are only others. -/
theorem Sorted.le_of_mem_lowerBound (h : Sorted less s) (hk : ByKey less key) {before : α → Bool}
    {k : κ} (hb : ∀ y, before y = true ↔ key y < k) (hy : y ∈ lowerBound before s) :
    k ≤ key y := by
  induction s with
  | nil => cases hy
  | cons z s ih =>
    obtain ⟨hz, hs⟩ := List.pairwise_cons.1 h
    unfold lowerBound at hy
    cases hzk : before z with
    | true =>
      rw [List.dropWhile_cons_of_pos hzk] at hy
      exact ih hs hy
    | false =>
      rw [List.dropWhile_cons_of_neg (by simp [hzk])] at hy
      have hkz : k ≤ key z := by
        rw [← not_lt, ← hb z, hzk]
        exact Bool.false_ne_true
      rcases List.mem_cons.1 hy with rfl | hy
      · exact hkz
      · exact hkz.trans ((hk z y).1 (hz y hy)).le

/-- A set in order, cut before the first element whose key is not below that of `x`. -/
theorem ByKey.cut (hk : ByKey less key) (h : Sorted less s) (x : α) :
    ∃ xs ys, s = xs ++ ys ∧ s.takeWhile (less · x) = xs ∧ lowerBound (less · x) s = ys ∧
      (∀ y ∈ xs, key y < key x) ∧ ∀ y ∈ ys, key x ≤ key y :=
  ⟨_, _, (List.takeWhile_append_dropWhile (p := (less · x))).symm, rfl, rfl,
    fun y hy => (hk y x).1 (List.mem_takeWhile_imp (p := (less · x)) hy),
    fun _ hy => h.le_of_mem_lowerBound hk (fun y => hk y x) hy⟩

/-- The elements that are scanned behind those with keys below `k`: all those with keys below
`k'`. -/
theorem Sorted.dropWhile_lowerBound (h : Sorted less s) (hk : ByKey less key)
    {before scan before' : α → Bool} {k k' : κ} (hb : ∀ y, before y = true ↔ key y < k)
    (hb' : ∀ y, before' y = true ↔ key y < k') (hle : k ≤ k')
    (hscan : ∀ y ∈ s, k ≤ key y → scan y = before' y) :
    (lowerBound before s).dropWhile scan = lowerBound before' s := by
  induction s with
  | nil => rfl
  | cons z s ih =>
    obtain ⟨-, hs⟩ := List.pairwise_cons.1 h
    unfold lowerBound
    cases hzk : before z with
    | true =>
      have hz : before' z = true := (hb' z).2 (((hb z).1 hzk).trans_le hle)
      rw [List.dropWhile_cons_of_pos hzk, List.dropWhile_cons_of_pos hz]
      exact ih hs fun y hy => hscan y (List.mem_cons_of_mem z hy)
    | false =>
      -- nothing is left with a key below `k`
      have hrest : ∀ y ∈ z :: s, scan y = before' y := fun y hy => hscan y hy <|
        h.le_of_mem_lowerBound hk hb (by
          unfold lowerBound
          rwa [List.dropWhile_cons_of_neg (by simp [hzk])])
      rw [List.dropWhile_cons_of_neg (by simp [hzk])]
      exact dropWhile_congr hrest

/-- **Insertion** of an element whose key no other element has. -/
theorem Sorted.insert (h : Sorted less s) (hk : ByKey less key) (hx : ∀ y ∈ s, key y ≠ key x) :
    Sorted less (insert less x s) ∧ ∀ y, y ∈ OrderedSet.insert less x s ↔ y = x ∨ y ∈ s := by
  obtain ⟨xs, ys, rfl, htake, hdrop, hxs, hys⟩ := hk.cut h x
  have hins : OrderedSet.insert less x (xs ++ ys) = xs ++ x :: ys := by
    unfold OrderedSet.insert
    rw [hdrop, htake]
    cases ys with
    | nil => rw [List.append_nil]
    | cons y ys =>
      have hlt : key x < key y := lt_of_le_of_ne (hys y List.mem_cons_self)
        (hx y (List.mem_append_right _ List.mem_cons_self)).symm
      simp only [(hk x y).2 hlt, if_true]
  rw [hins]
  obtain ⟨hsxs, hsys, hcross⟩ := List.pairwise_append.1 h
  refine ⟨List.pairwise_append.2 ⟨hsxs, List.pairwise_cons.2 ⟨fun y hy => ?_, hsys⟩, ?_⟩,
    fun y => ?_⟩
  · exact (hk x y).2 (lt_of_le_of_ne (hys y hy) (hx y (List.mem_append_right _ hy)).symm)
  · intro z hz y hy
    rcases List.mem_cons.1 hy with rfl | hy
    · exact (hk z y).2 (hxs z hz)
    · exact hcross z hz y hy
  · simp only [List.mem_append, List.mem_cons]
    exact or_left_comm

/-- **Search** for an element of the set finds it where it is. -/
theorem Sorted.find (h : Sorted less s) (hk : ByKey less key) (hx : x ∈ s) :
    ∃ xs ys, s = xs ++ x :: ys ∧ find less x s = x :: ys := by
  obtain ⟨xs, ys, rfl, -, hdrop, hxs, hys⟩ := hk.cut h x
  have hmem : x ∈ ys := by
    rcases List.mem_append.1 hx with hx | hx
    · exact absurd (hxs x hx) (lt_irrefl _)
    · exact hx
  obtain ⟨-, hsys, -⟩ := List.pairwise_append.1 h
  cases ys with
  | nil => cases hmem
  | cons y ys =>
    -- nothing that is before `x` comes behind the position
    obtain rfl : x = y := by
      rcases List.mem_cons.1 hmem with rfl | hmem
      · rfl
      · have hlt := (hk y x).1 ((List.pairwise_cons.1 hsys).1 x hmem)
        exact absurd (hys y List.mem_cons_self) (not_le.2 hlt)
    refine ⟨xs, ys, rfl, ?_⟩
    unfold OrderedSet.find
    rw [hdrop]
    exact if_neg (by rw [hk x x]; exact lt_irrefl _)

theorem erase_middle (xs ys : List α) : erase (x :: ys) (xs ++ x :: ys) = some (xs ++ ys) := by
  simp [erase]

/-- **Removal** of an element that is searched for. -/
theorem Sorted.erase_find (h : Sorted less s) (hk : ByKey less key) (hx : x ∈ s) :
    ∃ s', erase (OrderedSet.find less x s) s = some s' ∧ Sorted less s' ∧
      ∀ y, y ∈ s' ↔ y ∈ s ∧ y ≠ x := by
  obtain ⟨xs, ys, rfl, hfind⟩ := h.find hk hx
  have hnodup := hk.nodup h
  rw [List.nodup_middle, List.nodup_cons, List.mem_append, not_or] at hnodup
  refine ⟨xs ++ ys, by rw [hfind, erase_middle], h.sublist ?_, fun y => ?_⟩
  · exact (List.Sublist.refl xs).append (List.sublist_cons_self x ys)
  · simp only [List.mem_append, List.mem_cons]
    constructor
    · rintro (hy | hy)
      · exact ⟨Or.inl hy, fun heq => hnodup.1.1 (heq ▸ hy)⟩
      · exact ⟨Or.inr (Or.inr hy), fun heq => hnodup.1.2 (heq ▸ hy)⟩
    · rintro ⟨hy | rfl | hy, hne⟩
      · exact Or.inl hy
      · exact absurd rfl hne
      · exact Or.inr hy

end Keys

end OrderedSet

end KvRaft
