import KvRaft.LTS.Linearizable
import Mathlib.Data.List.Range

/-!
# Linearizability by a log

An object may be kept by way of a log: each entry is the effect of one call, or of none, and the
other calls read the state after some entry.  If a call that returns has its place behind all
entries from before it was invoked, the calls are linearizable in the order of the log.

* `LogPlaces` : calls with their places in a log.
* `LogPlaces.isSequentialOrder` : the calls are linearizable.
-/

namespace KvRaft

variable {O R S : Type*} (step : S → O → R × S) (calls : List (CallRecord O R))

/-- The call whose effect is entry `k`, with its result. -/
def writesAt (store : ℕ → S) (writer : ℕ → Option ℕ) (k : ℕ) : List (ℕ × R) :=
  ((writer k).bind fun i => calls[i]?.map fun c => (i, (step (store k) c.op).1)).toList

/-- The calls that have read the state after entry `k`, with their results. -/
def readsAt (writer : ℕ → Option ℕ) (place : ℕ → ℕ) (k : ℕ) : List (ℕ × R) :=
  (List.range calls.length).filterMap fun i =>
    if place i = k ∧ writer k ≠ some i then
      (calls[i]?.bind fun c => c.returned).map fun x => (i, x.1)
    else none

/-- **Calls with places in a log** of `n` entries: `store k` is the state after the first `k`
entries, `writer k` is the call whose effect the next one is. -/
structure LogPlaces (store : ℕ → S) (n : ℕ) (writer : ℕ → Option ℕ) (place : ℕ → ℕ) : Prop where
  idle : ∀ k < n, writer k = none → store (k + 1) = store k
  write : ∀ k < n, ∀ i, writer k = some i → place i = k ∧ ∃ c, calls[i]? = some c ∧
    (step (store k) c.op).2 = store (k + 1) ∧
    ∀ r t, c.returned = some (r, t) → (step (store k) c.op).1 = r
  read : ∀ i c r t, calls[i]? = some c → c.returned = some (r, t) → place i < n ∧
    (writer (place i) ≠ some i → step (store (place i + 1)) c.op = (r, store (place i + 1)))
  realTime : ∀ i j c d r t, calls[i]? = some c → calls[j]? = some d →
    (c.returned.isSome = true ∨ ∃ k < n, writer k = some i) →
    d.returned = some (r, t) → t < c.invoked → place j < place i

variable {step calls} {store : ℕ → S} {n : ℕ} {writer : ℕ → Option ℕ} {place : ℕ → ℕ}

theorem mem_writesAt {k : ℕ} {x : ℕ × R} : x ∈ writesAt step calls store writer k ↔
    writer k = some x.1 ∧ ∃ c, calls[x.1]? = some c ∧ (step (store k) c.op).1 = x.2 := by
  rw [writesAt, Option.mem_toList, Option.bind_eq_some_iff]
  constructor
  · rintro ⟨i, hi, h⟩
    obtain ⟨c, hc, rfl⟩ := Option.map_eq_some_iff.1 h
    exact ⟨hi, c, hc, rfl⟩
  · rintro ⟨hw, c, hc, hr⟩
    exact ⟨x.1, hw, Option.map_eq_some_iff.2 ⟨c, hc, Prod.ext rfl hr⟩⟩

theorem mem_readsAt {k : ℕ} {x : ℕ × R} : x ∈ readsAt calls writer place k ↔
    place x.1 = k ∧ writer k ≠ some x.1 ∧
      ∃ c t, calls[x.1]? = some c ∧ c.returned = some (x.2, t) := by
  obtain ⟨i, r⟩ := x
  simp only [readsAt, List.mem_filterMap, List.mem_range]
  constructor
  · rintro ⟨j, -, hj⟩
    split_ifs at hj with hplace
    obtain ⟨⟨r', t⟩, hr, heq⟩ := Option.map_eq_some_iff.1 hj
    obtain ⟨rfl, rfl⟩ := Prod.mk.inj heq
    obtain ⟨c, hc, hret⟩ := Option.bind_eq_some_iff.1 hr
    exact ⟨hplace.1, hplace.2, c, t, hc, hret⟩
  · rintro ⟨hplace, hw, c, t, hc, hret⟩
    refine ⟨i, (List.getElem?_eq_some_iff.1 hc).1, ?_⟩
    rw [if_pos ⟨hplace, hw⟩, hc]
    simp [hret]

theorem nodup_readsAt (k : ℕ) : ((readsAt calls writer place k).map Prod.fst).Nodup := by
  have hfilter : ∀ l : List ℕ, ((l.filterMap fun i =>
      if place i = k ∧ writer k ≠ some i then
        (calls[i]?.bind fun c => c.returned).map fun x => (i, x.1)
      else none).map Prod.fst).Sublist l := by
    intro l
    induction l with
    | nil => exact .slnil
    | cons i l ih =>
      rw [List.filterMap_cons]
      split
      · exact ih.cons i
      · rename_i x hx
        split_ifs at hx
        obtain ⟨y, -, rfl⟩ := Option.map_eq_some_iff.1 hx
        exact ih.cons_cons i
  exact (hfilter _).nodup List.nodup_range

/-- The calls that have their places at entry `k`. -/
def callsAt (step : S → O → R × S) (calls : List (CallRecord O R)) (store : ℕ → S)
    (writer : ℕ → Option ℕ) (place : ℕ → ℕ) (k : ℕ) : List (ℕ × R) :=
  writesAt step calls store writer k ++ readsAt calls writer place k

/-! ### Sequential runs along the log -/

theorem legal_flatMap {parts : ℕ → List (ℕ × R)}
    (h : ∀ k < n, Legal step calls (store k) (parts k) (store (k + 1))) :
    Legal step calls (store 0) ((List.range n).flatMap parts) (store n) := by
  induction n with
  | zero => exact rfl
  | succ n ih =>
    rw [List.range_succ, List.flatMap_append, List.flatMap_singleton]
    exact legal_append.2 ⟨store n, ih fun k hk => h k (Nat.lt_succ_of_lt hk),
      h n (Nat.lt_succ_self n)⟩

/-- Calls that only read. -/
theorem legal_reads {s : S} {order : List (ℕ × R)}
    (h : ∀ x ∈ order, ∃ c, calls[x.1]? = some c ∧ step s c.op = (x.2, s)) :
    Legal step calls s order s := by
  induction order with
  | nil => exact rfl
  | cons x order ih =>
    obtain ⟨c, hc, hstep⟩ := h x List.mem_cons_self
    refine ⟨c, hc, by rw [hstep], ?_⟩
    rw [hstep]
    exact ih fun y hy => h y (List.mem_cons_of_mem _ hy)

namespace LogPlaces

variable (h : LogPlaces step calls store n writer place)
include h

theorem legal_callsAt {k : ℕ} (hk : k < n) : Legal step calls (store k)
    (callsAt step calls store writer place k) (store (k + 1)) := by
  refine legal_append.2 ⟨store (k + 1), ?_, legal_reads fun x hx => ?_⟩
  · cases hw : writer k with
    | none =>
      rw [writesAt, hw]
      exact (h.idle k hk hw).symm
    | some i =>
      obtain ⟨-, c, hc, hstep, -⟩ := h.write k hk i hw
      rw [writesAt, hw, Option.bind_some, hc]
      exact ⟨c, hc, rfl, hstep⟩
  · obtain ⟨rfl, hw, c, t, hc, hret⟩ := mem_readsAt.1 hx
    exact ⟨c, hc, (h.read _ c _ t hc hret).2 hw⟩

/-- A call stands at its place. -/
theorem place_eq {k : ℕ} (hk : k < n) {x : ℕ × R}
    (hx : x ∈ callsAt step calls store writer place k) : place x.1 = k ∧
      ∃ c, calls[x.1]? = some c ∧ (c.returned.isSome = true ∨ ∃ k < n, writer k = some x.1) := by
  rcases List.mem_append.1 hx with hx | hx
  · obtain ⟨hw, c, hc, -⟩ := mem_writesAt.1 hx
    exact ⟨(h.write k hk _ hw).1, c, hc, Or.inr ⟨k, hk, hw⟩⟩
  · obtain ⟨hplace, -, c, t, hc, hret⟩ := mem_readsAt.1 hx
    exact ⟨hplace, c, hc, Or.inl (by rw [hret]; rfl)⟩

/-- A call does not stand before one that had returned when it was invoked. -/
theorem overlap {j k : ℕ} (hj : j < n) (hk : k < n) {x y : ℕ × R}
    (hx : x ∈ callsAt step calls store writer place j)
    (hy : y ∈ callsAt step calls store writer place k) (hle : j ≤ k) {c d : CallRecord O R} {r : R}
    {t : ℕ} (hc : calls[x.1]? = some c) (hd : calls[y.1]? = some d)
    (hr : d.returned = some (r, t)) : c.invoked ≤ t := by
  obtain ⟨hxj, c', hc', hplaced⟩ := h.place_eq hj hx
  obtain rfl := Option.some.inj (hc.symm.trans hc')
  by_contra hlt
  have := h.realTime _ _ c d r t hc hd hplaced hr (Nat.lt_of_not_le hlt)
  rw [hxj, (h.place_eq hk hy).1] at this
  omega

omit h in
theorem nodup_callsAt (k : ℕ) :
    ((callsAt step calls store writer place k).map Prod.fst).Nodup := by
  rw [callsAt, List.map_append]
  refine List.Nodup.append ?_ (nodup_readsAt k) fun i hi hi' => ?_
  · rw [writesAt]
    cases (writer k).bind fun i => calls[i]?.map fun c => (i, (step (store k) c.op).1) with
    | none => exact List.nodup_nil
    | some x => exact List.nodup_singleton _
  · obtain ⟨x, hx, rfl⟩ := List.mem_map.1 hi
    obtain ⟨y, hy, heq⟩ := List.mem_map.1 hi'
    exact (mem_readsAt.1 hy).2.1 (heq ▸ (mem_writesAt.1 hx).1)

/-- **Calls with places in a log have the results of a sequential order.** -/
theorem isSequentialOrder : IsSequentialOrder step calls (store 0)
    ((List.range n).flatMap (callsAt step calls store writer place)) (store n) where
  nodup := by
    rw [List.map_flatMap]
    refine List.nodup_flatMap.2 ⟨fun k _ => nodup_callsAt k, ?_⟩
    refine List.pairwise_lt_range.imp_of_mem fun {j k} hj hk hlt => ?_
    intro i hi hi'
    obtain ⟨x, hx, rfl⟩ := List.mem_map.1 hi
    obtain ⟨y, hy, heq⟩ := List.mem_map.1 hi'
    have hxj := (h.place_eq (List.mem_range.1 hj) hx).1
    have hyk := (h.place_eq (List.mem_range.1 hk) hy).1
    rw [heq, hxj] at hyk
    omega
  complete i c r t hc hr := by
    obtain ⟨hlt, -⟩ := h.read i c r t hc hr
    refine List.mem_flatMap.2 ⟨place i, List.mem_range.2 hlt, List.mem_append.2 ?_⟩
    by_cases hw : writer (place i) = some i
    · obtain ⟨-, c', hc', -, hres⟩ := h.write _ hlt i hw
      obtain rfl := Option.some.inj (hc.symm.trans hc')
      exact Or.inl (mem_writesAt.2 ⟨hw, c, hc, hres r t hr⟩)
    · exact Or.inr (mem_readsAt.2 ⟨rfl, hw, c, t, hc, hr⟩)
  realTime := by
    refine List.pairwise_flatMap.2 ⟨fun k hk => ?_, ?_⟩
    · -- two calls with one place overlap
      refine List.pairwise_of_forall_mem_list fun x hx y hy c d r t hc hd hr => ?_
      exact h.overlap (List.mem_range.1 hk) (List.mem_range.1 hk) hx hy (Nat.le_refl k) hc hd hr
    · refine List.pairwise_lt_range.imp_of_mem fun {j k} hj hk hlt x hx y hy c d r t hc hd hr => ?_
      exact h.overlap (List.mem_range.1 hj) (List.mem_range.1 hk) hx hy (Nat.le_of_lt hlt) hc hd hr
  legal := legal_flatMap fun k hk => h.legal_callsAt hk

end LogPlaces

end KvRaft
