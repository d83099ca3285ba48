import KvRaft.SkipList.Towers

/-!
# The loops that change the links

Inserting a tower runs over its levels from the bottom and puts it behind the last tower before its
key (`link_eq`).  Deleting one runs upwards as well, until a level it does not reach (`unlink_eq`),
and then lowers the list to the highest level in use (`lowered_eq`).
-/

namespace KvRaft

open Heap

namespace SkipList

variable {K V : Type} {heap : Memory K V} {header : Addr} {xs ys ts : List (Tower K V)}
  {t : Tower K V} {update : Update} {i : ℕ}

/-! ### Raising the list -/

theorem assign_range_eq {n start : ℕ} {a : Addr} (h : start + n ≤ update.length) :
    ∃ update', (List.range' start n).foldlM (fun u i => Update.assign u i a) update =
        .ok update' ∧
      (∀ i, start ≤ i → i < start + n → update'.pointer i = .ok a) ∧
      ∀ i < start, update'.pointer i = update.pointer i := by
  induction n generalizing start update with
  | zero => exact ⟨update, rfl, fun i h₁ h₂ => absurd h₂ (by omega), fun i _ => rfl⟩
  | succ n ih =>
    have hlen : start + 1 + n ≤ (update.set start (some a)).length := by
      rw [List.length_set]
      omega
    obtain ⟨update', hfold, hin, hlow⟩ := ih hlen
    refine ⟨update', ?_, fun i h₁ h₂ => ?_, fun i hi => ?_⟩
    · rw [List.range'_succ, List.foldlM_cons, Update.assign_eq (by omega)]
      exact hfold
    · rcases h₁.eq_or_lt with rfl | h₁
      · rw [hlow _ (by omega), Update.pointer_set_self (by omega)]
      · exact hin i h₁ (by omega)
    · rw [hlow i (by omega), Update.pointer_set_of_ne (by omega)]

/-- After raising the list to the level of the new node, every level of the node has its
predecessor. -/
theorem raise_eq {s : SkipList K V} {randomLevel : ℕ} (hle : randomLevel < update.length)
    (hxs : ∀ t ∈ xs, t.level ≤ s.skipListLevel)
    (hp : ∀ i ≤ s.skipListLevel, update.pointer i = .ok (lastAt s.header xs i)) :
    ∃ update', s.raise randomLevel update =
        .ok ({ s with skipListLevel := max s.skipListLevel randomLevel }, update') ∧
      ∀ i ≤ randomLevel, update'.pointer i = .ok (lastAt s.header xs i) := by
  rcases Nat.lt_or_ge s.skipListLevel randomLevel with hlt | hge
  · have hlen : s.skipListLevel + 1 + (randomLevel - s.skipListLevel) ≤ update.length := by omega
    obtain ⟨update', hfold, hin, hlow⟩ := assign_range_eq (a := s.header) hlen
    refine ⟨update', by simp [raise, hlt, hfold, max_eq_right hlt.le], fun i hi => ?_⟩
    rcases Nat.lt_or_ge s.skipListLevel i with hi' | hi'
    · have hnil : chain xs i = [] := chain_eq_nil fun t ht => lt_of_le_of_lt (hxs t ht) hi'
      rw [hin i hi' (by omega), lastAt, hnil, List.getLastD_nil]
    · rw [hlow i (by omega), hp i hi']
  · exact ⟨update, by simp [raise, hge], fun i hi => hp i (hi.trans hge)⟩

/-! ### Insertion -/

theorem linkLevel_eq (hi : i ≤ t.level)
    (hlinked : Linked (heap.forward i) header (chain (xs ++ ys) i))
    (hn : (header :: chain (xs ++ ys) i).Nodup) (ht : t.addr ∉ header :: chain (xs ++ ys) i)
    (hnew : heap.forward i t.addr = .ok none)
    (hp : update.pointer i = .ok (lastAt header xs i)) :
    ∃ heap', linkLevel t.addr update heap i = .ok heap' ∧ heap'.entry = heap.entry ∧
      Linked (heap'.forward i) header (chain (xs ++ t :: ys) i) ∧
      ∀ j ≠ i, heap'.forward j = heap.forward j := by
  rw [chain_append] at hlinked hn ht
  have hlast : heap.forward i (lastAt header xs i) = .ok (chain ys i).head? :=
    hlinked.drop.next_eq
  have hne : lastAt header xs i ≠ t.addr := by
    intro heq
    refine ht (heq ▸ ?_)
    have := lastAt_mem header xs i
    grind
  obtain ⟨heap₁, hset₁, hentry₁, hfwd₁, hother₁⟩ := Memory.setForward_eq hnew (chain ys i).head?
  have hlast₁ : heap₁.forward i (lastAt header xs i) = .ok (chain ys i).head? := by
    rw [hfwd₁, Function.update_of_ne hne, hlast]
  obtain ⟨heap₂, hset₂, hentry₂, hfwd₂, hother₂⟩ := Memory.setForward_eq hlast₁ (some t.addr)
  refine ⟨heap₂, by simp [linkLevel, hp, hlast, hset₁, hset₂], hentry₂.trans hentry₁, ?_,
    fun j hj => (hother₂ j hj).trans (hother₁ j hj)⟩
  rw [hfwd₂, hfwd₁, chain_append, chain_cons_of_le hi]
  exact hlinked.insert hn ht

/-- The loop of the insertion puts the new tower into the levels below `n` and leaves the others
alone. -/
theorem link_eq {n : ℕ} (hle : n ≤ t.level + 1)
    (hlinked : ∀ i < n, Linked (heap.forward i) header (chain (xs ++ ys) i))
    (hn : (header :: (xs ++ ys).map fun t => t.addr).Nodup)
    (ht : t.addr ∉ header :: (xs ++ ys).map fun t => t.addr)
    (hnew : ∀ i < n, heap.forward i t.addr = .ok none)
    (hp : ∀ i < n, update.pointer i = .ok (lastAt header xs i)) :
    ∃ heap', (List.range n).foldlM (linkLevel t.addr update) heap = .ok heap' ∧
      heap'.entry = heap.entry ∧
      (∀ i < n, Linked (heap'.forward i) header (chain (xs ++ t :: ys) i)) ∧
      ∀ i ≥ n, heap'.forward i = heap.forward i := by
  induction n with
  | zero => exact ⟨heap, rfl, rfl, fun i hi => absurd hi (by omega), fun i _ => rfl⟩
  | succ n ih =>
    obtain ⟨heap₁, hfold, hentry, hin, hout⟩ := ih (by omega)
      (fun i hi => hlinked i (by omega)) (fun i hi => hnew i (by omega))
      fun i hi => hp i (by omega)
    have hsub : (header :: chain (xs ++ ys) n).Sublist (header :: (xs ++ ys).map fun t => t.addr) :=
      chain_sublist.cons_cons header
    obtain ⟨heap₂, hstep, hentry₂, hlevel, hother⟩ := linkLevel_eq (i := n)
      (by omega) (hout n le_rfl ▸ hlinked n (by omega)) (hn.sublist hsub)
      (fun hmem => ht (hsub.subset hmem)) (hout n le_rfl ▸ hnew n (by omega)) (hp n (by omega))
    refine ⟨heap₂, ?_, hentry₂.trans hentry, fun i hi => ?_, fun i hi => ?_⟩
    · rw [List.range_succ, List.foldlM_append, hfold]
      simp [hstep]
    · rcases eq_or_ne i n with rfl | hne
      · exact hlevel
      · rw [hother i hne]
        exact hin i (by omega)
    · rw [hother i (by omega), hout i (by omega)]

/-! ### Deletion -/

/-- The loop of the deletion takes the tower out of the levels from `i` on that it reaches. -/
theorem unlink_eq {n maxLevel : ℕ} (hi : i ≤ t.level + 1) (hin : t.level < i + n)
    (hmax : i + n ≤ maxLevel + 1)
    (hlinked : ∀ j ≤ maxLevel, i ≤ j →
      Linked (heap.forward j) header (chain (xs ++ t :: ys) j))
    (hn : (header :: (xs ++ t :: ys).map fun t => t.addr).Nodup)
    (hp : ∀ j < i + n, update.pointer j = .ok (lastAt header xs j)) :
    ∃ heap', unlink t.addr update n i heap = .ok heap' ∧ heap'.entry = heap.entry ∧
      (∀ j ≤ maxLevel, i ≤ j → Linked (heap'.forward j) header (chain (xs ++ ys) j)) ∧
      ∀ j < i, heap'.forward j = heap.forward j := by
  -- above its level the tower is in no chain, so nothing is left to do
  have habove : t.level < i → ∀ j ≤ maxLevel, i ≤ j →
      Linked (heap.forward j) header (chain (xs ++ ys) j) := by
    intro hlt j hj hij
    have h := hlinked j hj hij
    rwa [chain_append, chain_cons_of_lt (by omega), ← chain_append] at h
  induction n generalizing i heap with
  | zero => exact ⟨heap, rfl, rfl, habove (by omega), fun j _ => rfl⟩
  | succ n ih =>
    have hlevel := hlinked i (by omega) le_rfl
    rw [chain_append] at hlevel
    have hlast : heap.forward i (lastAt header xs i) = .ok (chain (t :: ys) i).head? :=
      hlevel.drop.next_eq
    rcases Nat.lt_or_ge t.level i with hlt | hge
    · -- the next tower of this level is another one
      have hne : (chain (t :: ys) i).head? ≠ some t.addr := by
        rw [chain_cons_of_lt hlt]
        intro hhead
        obtain ⟨u, hu, -, heq⟩ := mem_chain.1 (List.mem_of_mem_head? hhead)
        have hnodup : t.addr ∉ ys.map fun t => t.addr := by
          simp only [List.map_append, List.map_cons, List.nodup_cons, List.nodup_append] at hn
          exact hn.2.2.1.1
        exact hnodup (List.mem_map.2 ⟨u, hu, heq⟩)
      exact ⟨heap, by simp [unlink, hp i (by omega), hlast, hne], rfl, habove hlt, fun j _ => rfl⟩
    · rw [chain_cons_of_le hge] at hlast hlevel
      have hnext : heap.forward i t.addr = .ok (chain ys i).head? := hlevel.drop.2.next_eq
      have hsub : (header :: (chain xs i ++ t.addr :: chain ys i)).Nodup := by
        have hs : (header :: chain (xs ++ t :: ys) i).Nodup :=
          hn.sublist (chain_sublist.cons_cons header)
        rwa [chain_append, chain_cons_of_le hge] at hs
      obtain ⟨heap₁, hset, hentry, hfwd, hother⟩ := Memory.setForward_eq hlast (chain ys i).head?
      have hlinked₁ : Linked (heap₁.forward i) header (chain (xs ++ ys) i) := by
        rw [hfwd, chain_append]
        exact hlevel.remove hsub
      have hrest : ∀ j ≤ maxLevel, i + 1 ≤ j →
          Linked (heap₁.forward j) header (chain (xs ++ t :: ys) j) := by
        intro j hj hij
        rw [hother j (by omega)]
        exact hlinked j hj (by omega)
      obtain ⟨heap', hrec, hentry', hin', hout'⟩ := ih (i := i + 1) (by omega)
        (by omega) (by omega) hrest (fun j hj => hp j (by omega)) fun hlt j hj hij => by
          have h := hrest j hj hij
          rwa [chain_append, chain_cons_of_lt (by omega), ← chain_append] at h
      refine ⟨heap', ?_, hentry'.trans hentry, fun j hj hij => ?_, fun j hj => ?_⟩
      · simpa [unlink, hp i (by omega), hlast, hnext, hset] using hrec
      · rcases hij.eq_or_lt with rfl | hij
        · rw [hout' i (by omega)]
          exact hlinked₁
        · exact hin' j hj hij
      · rw [hout' j (by omega), hother j (by omega)]

/-- Lowering the list stops above every tower. -/
theorem lowered_eq {n : ℕ} (hlinked : ∀ i ≤ n, Linked (heap.forward i) header (chain ts i))
    (hlevel : ∀ t ∈ ts, t.level ≤ n) :
    ∃ level ≤ n, lowered heap header n = .ok level ∧ ∀ t ∈ ts, t.level ≤ level := by
  induction n with
  | zero => exact ⟨0, le_rfl, rfl, hlevel⟩
  | succ n ih =>
    have hnext := (hlinked (n + 1) le_rfl).next_eq
    rcases hts : chain ts (n + 1) with _ | ⟨a, as⟩
    · have hlow : ∀ t ∈ ts, t.level ≤ n := by
        intro t ht
        by_contra hlt
        have hmem : t.addr ∈ chain ts (n + 1) := mem_chain.2 ⟨t, ht, by omega, rfl⟩
        simp [hts] at hmem
      obtain ⟨level, hle, heq, hall⟩ := ih (fun i hi => hlinked i (by omega)) hlow
      exact ⟨level, by omega, by simpa [lowered, hnext, hts] using heq, hall⟩
    · exact ⟨n + 1, le_rfl, by simp [lowered, hnext, hts], hlevel⟩

end SkipList

end KvRaft
