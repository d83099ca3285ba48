import Mathlib.Data.List.Nodup
import Mathlib.Data.Nat.Basic
import Mathlib.Order.Basic
import Mathlib.Tactic.SplitIfs
import Mathlib.Tactic.Tauto

/-!
# Linearizability

Calls of an object overlap in time.  They are linearizable when some sequential order of them
explains all their results and keeps two calls of which one returned before the other was invoked
in that order.

## Main definitions

* `CallRecord` : a call with the times of its invocation and of its return.
* `IsSequentialOrder`, `Linearizable` : the definition.
* `Linearizes` : the calls so far with their linearization points, in the order of time.

## Main results

* `Linearizes.isSequentialOrder` : calls with linearization points are linearizable.
* `Linearizes.invoke`, `Linearizes.effect`, `Linearizes.effectBefore` : how the points go on.  A
  call that was without effect is put right before another one that overwrites what it would have
  done (`Absorbed`).
-/

namespace KvRaft

variable {O R S : Type*}

/-- A call of an object; `returned` is its result and the time of its return. -/
structure CallRecord (O R : Type*) where
  op : O
  invoked : ℕ
  returned : Option (R × ℕ)

/-- Calls one after the other, given by their numbers and results, lead from a state to another. -/
def Legal (step : S → O → R × S) (calls : List (CallRecord O R)) : S → List (ℕ × R) → S → Prop
  | s, [], s' => s = s'
  | s, (k, r) :: order, s' =>
    ∃ c, calls[k]? = some c ∧ (step s c.op).1 = r ∧ Legal step calls (step s c.op).2 order s'

/-- **The calls have the results of a sequential order.**  The order contains all calls that have
returned, with their results, and possibly some that have not; no call stands before one that had
returned when it was invoked. -/
structure IsSequentialOrder (step : S → O → R × S) (calls : List (CallRecord O R)) (s₀ : S)
    (order : List (ℕ × R)) (s : S) : Prop where
  nodup : (order.map Prod.fst).Nodup
  complete : ∀ k c r t, calls[k]? = some c → c.returned = some (r, t) → (k, r) ∈ order
  realTime : order.Pairwise fun p q => ∀ c d r t, calls[p.1]? = some c → calls[q.1]? = some d →
    d.returned = some (r, t) → c.invoked ≤ t
  legal : Legal step calls s₀ order s

/-- The calls are linearizable. -/
def Linearizable (step : S → O → R × S) (calls : List (CallRecord O R)) (s₀ : S) : Prop :=
  ∃ order s, IsSequentialOrder step calls s₀ order s

/-- When and with which result a call takes effect. -/
structure Point (R : Type*) where
  call : ℕ
  result : R
  time : ℕ

/-- The order of the points. -/
def orderOf (points : List (Point R)) : List (ℕ × R) := points.map fun p => (p.call, p.result)

/-- **The calls and their linearization points up to time `now`**: one for each call that has
returned, between its invocation and its return. -/
structure Linearizes (step : S → O → R × S) (calls : List (CallRecord O R)) (now : ℕ) (s₀ : S)
    (points : List (Point R)) (s : S) : Prop where
  nodup : (points.map fun p => p.call).Nodup
  sorted : points.Pairwise fun p q => p.time ≤ q.time
  point : ∀ p ∈ points, ∃ c t, calls[p.call]? = some c ∧ c.returned = some (p.result, t) ∧
    c.invoked ≤ p.time ∧ p.time ≤ t ∧ t < now
  complete : ∀ k c r t, calls[k]? = some c → c.returned = some (r, t) → ∃ p ∈ points, p.call = k
  legal : Legal step calls s₀ (orderOf points) s

/-- Calls are added, or return. -/
def Extends (calls calls' : List (CallRecord O R)) : Prop :=
  ∀ (k : ℕ) (c : CallRecord O R), calls[k]? = some c → ∃ c', calls'[k]? = some c' ∧
    c'.op = c.op ∧ c'.invoked = c.invoked ∧ ∀ x, c.returned = some x → c'.returned = some x

/-- After `op` with result `r`, the operation `op'` does what it would have done before. -/
def Absorbed (step : S → O → R × S) (op : O) (r : R) (op' : O) : Prop :=
  ∀ s, (step s op).1 = r ∧ step (step s op).2 op' = step s op'

variable {step : S → O → R × S} {calls calls' : List (CallRecord O R)} {s₀ s s' : S}
  {order order' : List (ℕ × R)} {points pre post : List (Point R)} {now now' : ℕ}

/-! ### Sequential runs -/

theorem legal_append : Legal step calls s (order ++ order') s' ↔
    ∃ s₁, Legal step calls s order s₁ ∧ Legal step calls s₁ order' s' := by
  induction order generalizing s with
  | nil => simp [Legal]
  | cons p order ih =>
    simp only [List.cons_append, Legal, ih]
    constructor
    · rintro ⟨c, hc, hr, s₁, h, h'⟩
      exact ⟨s₁, ⟨c, hc, hr, h⟩, h'⟩
    · rintro ⟨s₁, ⟨c, hc, hr, h⟩, h'⟩
      exact ⟨c, hc, hr, s₁, h, h'⟩

theorem Legal.mono (h : Legal step calls s order s') (he : Extends calls calls') :
    Legal step calls' s order s' := by
  induction order generalizing s with
  | nil => exact h
  | cons p order ih =>
    obtain ⟨c, hc, hr, h⟩ := h
    obtain ⟨c', hc', hop, -⟩ := he p.1 c hc
    exact ⟨c', hc', by rwa [hop], by rw [hop]; exact ih h⟩

/-- A call is put in front of one that overwrites what it does. -/
theorem Legal.before (h : Legal step calls s order s') {j k : ℕ} {r r' : R} {c d : CallRecord O R}
    {rest : List (ℕ × R)} (horder : order = (j, r') :: rest) (hk : calls[k]? = some c)
    (hj : calls[j]? = some d) (ha : Absorbed step c.op r d.op) :
    Legal step calls s ((k, r) :: order) s' := by
  subst horder
  obtain ⟨d', hd', hr, h⟩ := h
  obtain rfl := Option.some.inj (hj.symm.trans hd')
  obtain ⟨hres, hnext⟩ := ha s
  exact ⟨c, hk, hres, d, hj, by rw [hnext, hr], by rwa [hnext]⟩

/-! ### Points -/

/-- **Calls with linearization points are linearizable.** -/
theorem Linearizes.isSequentialOrder (h : Linearizes step calls now s₀ points s) :
    IsSequentialOrder step calls s₀ (orderOf points) s where
  nodup := by
    rw [orderOf, List.map_map]
    exact h.nodup
  complete k c r t hc hr := by
    obtain ⟨p, hp, rfl⟩ := h.complete k c r t hc hr
    obtain ⟨c', t', hc', hr', -⟩ := h.point p hp
    obtain rfl := Option.some.inj (hc.symm.trans hc')
    obtain ⟨rfl, -⟩ := Prod.mk.inj (Option.some.inj (hr.symm.trans hr'))
    exact List.mem_map.2 ⟨p, hp, rfl⟩
  realTime := by
    refine List.pairwise_map.2 (h.sorted.imp_of_mem ?_)
    intro p q hp hq hle c d r t hc hd hr
    obtain ⟨c', -, hc', -, hinv, -⟩ := h.point p hp
    obtain ⟨d', t', hd', hr', -, hret, -⟩ := h.point q hq
    obtain rfl := Option.some.inj (hc.symm.trans hc')
    obtain rfl := Option.some.inj (hd.symm.trans hd')
    obtain ⟨-, rfl⟩ := Prod.mk.inj (Option.some.inj (hr.symm.trans hr'))
    exact hinv.trans (hle.trans hret)
  legal := h.legal

theorem Linearizes.nil (s₀ : S) : Linearizes step ([] : List (CallRecord O R)) 0 s₀ [] s₀ :=
  ⟨.nil, .nil, by simp, by simp, rfl⟩

/-- A step that neither invokes a call nor lets one take effect. -/
theorem Linearizes.later (h : Linearizes step calls now s₀ points s) (hnow : now ≤ now') :
    Linearizes step calls now' s₀ points s :=
  { h with
    point := fun p hp => by
      obtain ⟨c, t, hc, hr, hinv, hret, ht⟩ := h.point p hp
      exact ⟨c, t, hc, hr, hinv, hret, ht.trans_le hnow⟩ }

theorem extends_append (c : CallRecord O R) : Extends calls (calls ++ [c]) := by
  intro k d hd
  have hk := (List.getElem?_eq_some_iff.1 hd).1
  exact ⟨d, by rw [List.getElem?_append_left hk, hd], rfl, rfl, fun x hx => hx⟩

/-- A new call. -/
theorem Linearizes.invoke (h : Linearizes step calls now s₀ points s) (op : O) (t : ℕ) :
    Linearizes step (calls ++ [⟨op, t, none⟩]) now s₀ points s :=
  { h with
    point := fun p hp => by
      obtain ⟨c, t', hc, hr, hinv, hret, hlt⟩ := h.point p hp
      obtain ⟨c', hc', -, hi, hx⟩ := extends_append _ _ _ hc
      exact ⟨c', t', hc', hx _ hr, by rwa [hi], hret, hlt⟩
    complete := fun k c r t' hc hr => by
      rcases lt_or_ge k calls.length with hk | hk
      · rw [List.getElem?_append_left hk] at hc
        exact h.complete k c r t' hc hr
      · rw [List.getElem?_append_right hk, List.getElem?_singleton] at hc
        split_ifs at hc
        cases Option.some.inj hc
        cases hr
    legal := h.legal.mono (extends_append _) }

theorem extends_set {k : ℕ} {op : O} {t : ℕ} (hk : calls[k]? = some ⟨op, t, none⟩)
    (x : Option (R × ℕ)) : Extends calls (calls.set k ⟨op, t, x⟩) := by
  intro j d hd
  rcases eq_or_ne k j with rfl | hne
  · obtain rfl := Option.some.inj (hk.symm.trans hd)
    have hlt := (List.getElem?_eq_some_iff.1 hk).1
    exact ⟨_, List.getElem?_set_self hlt, rfl, rfl, fun x hx => by cases hx⟩
  · exact ⟨d, by rw [List.getElem?_set_ne hne, hd], rfl, rfl, fun x hx => hx⟩

/-- A pending call returns; its point is put somewhere between its invocation and now. -/
theorem Linearizes.insert (h : Linearizes step calls now s₀ (pre ++ post) s) {k : ℕ} {op : O}
    {t time : ℕ} {r : R} (hk : calls[k]? = some ⟨op, t, none⟩) (hinv : t ≤ time) (hnow : time ≤ now)
    (hpre : ∀ p ∈ pre, p.time ≤ time) (hpost : ∀ p ∈ post, time ≤ p.time)
    (hlegal : Legal step (calls.set k ⟨op, t, some (r, now)⟩) s₀
      (orderOf (pre ++ ⟨k, r, time⟩ :: post)) s') :
    Linearizes step (calls.set k ⟨op, t, some (r, now)⟩) (now + 1) s₀
      (pre ++ ⟨k, r, time⟩ :: post) s' where
  nodup := by
    have hmid : ((pre ++ ⟨k, r, time⟩ :: post).map fun p => p.call).Perm
        (k :: (pre ++ post).map fun p => p.call) := by
      rw [List.map_append, List.map_append, List.map_cons]
      exact List.perm_middle
    refine hmid.nodup_iff.2 (List.nodup_cons.2 ⟨fun hmem => ?_, h.nodup⟩)
    -- a call with a point has returned
    obtain ⟨p, hp, hpk⟩ := List.mem_map.1 hmem
    obtain ⟨c, t', hc, hr, -⟩ := h.point p hp
    obtain rfl := Option.some.inj (hk.symm.trans (hpk ▸ hc))
    cases hr
  sorted := by
    obtain ⟨hpp, hqq, hpq⟩ := List.pairwise_append.1 h.sorted
    refine List.pairwise_append.2 ⟨hpp, List.pairwise_cons.2 ⟨hpost, hqq⟩, fun p hp q hq => ?_⟩
    rcases List.mem_cons.1 hq with rfl | hq
    · exact hpre p hp
    · exact hpq p hp q hq
  point p hp := by
    have hlt := (List.getElem?_eq_some_iff.1 hk).1
    obtain rfl | hp : p = ⟨k, r, time⟩ ∨ p ∈ pre ++ post := by
      simpa [or_left_comm] using hp
    · exact ⟨_, now, List.getElem?_set_self hlt, rfl, hinv, hnow, Nat.lt_succ_self now⟩
    · obtain ⟨c, t', hc, hr, hi, hret, ht⟩ := h.point p hp
      obtain ⟨c', hc', -, hinv', hx⟩ := extends_set hk (some (r, now)) _ _ hc
      exact ⟨c', t', hc', hx _ hr, by rwa [hinv'], hret, ht.trans (Nat.lt_succ_self now)⟩
  complete j c r' t' hc hr := by
    rcases eq_or_ne k j with rfl | hne
    · exact ⟨⟨k, r, time⟩, by simp, rfl⟩
    · rw [List.getElem?_set_ne hne] at hc
      obtain ⟨p, hp, hpj⟩ := h.complete j c r' t' hc hr
      refine ⟨p, ?_, hpj⟩
      simp only [List.mem_append, List.mem_cons] at hp ⊢
      tauto
  legal := hlegal

/-- **A call takes effect and returns.** -/
theorem Linearizes.effect (h : Linearizes step calls now s₀ points s) {k : ℕ} {op : O} {t : ℕ}
    {r : R} (hk : calls[k]? = some ⟨op, t, none⟩) (ht : t ≤ now) (hstep : step s op = (r, s')) :
    Linearizes step (calls.set k ⟨op, t, some (r, now)⟩) (now + 1) s₀
      (points ++ [⟨k, r, now⟩]) s' := by
  have hlt := (List.getElem?_eq_some_iff.1 hk).1
  have hpast : ∀ p ∈ points, p.time ≤ now := by
    intro p hp
    obtain ⟨c, t', -, -, -, hret, hlt⟩ := h.point p hp
    exact hret.trans hlt.le
  have hpoints : Linearizes step calls now s₀ (points ++ []) s := by rwa [List.append_nil]
  refine hpoints.insert hk ht le_rfl hpast (by simp) ?_
  rw [orderOf, List.map_append]
  refine legal_append.2 ⟨s, h.legal.mono (extends_set hk _), _, List.getElem?_set_self hlt, ?_⟩
  exact ⟨congrArg Prod.fst hstep, congrArg Prod.snd hstep⟩

/-- **A call returns that was without effect**, because of a later one that overwrites what it
would have done. -/
theorem Linearizes.effectBefore (h : Linearizes step calls now s₀ points s) {k : ℕ} {op : O}
    {t : ℕ} {r : R} (hk : calls[k]? = some ⟨op, t, none⟩) {p : Point R} (hp : p ∈ points)
    (ht : t ≤ p.time) {c : CallRecord O R} (hc : calls[p.call]? = some c)
    (ha : Absorbed step op r c.op) :
    ∃ points', Linearizes step (calls.set k ⟨op, t, some (r, now)⟩) (now + 1) s₀ points' s ∧
      points ⊆ points' := by
  obtain ⟨pre, post, rfl⟩ := List.append_of_mem hp
  obtain ⟨-, t', -, -, -, hret, hnow⟩ := h.point p hp
  obtain ⟨hpp, hqq, hpq⟩ := List.pairwise_append.1 h.sorted
  have hext := extends_set hk (some (r, now))
  have hlt := (List.getElem?_eq_some_iff.1 hk).1
  refine ⟨pre ++ ⟨k, r, p.time⟩ :: p :: post, h.insert hk ht (hret.trans hnow.le)
    (fun q hq => hpq q hq p List.mem_cons_self) (fun q hq => ?_) ?_, fun q hq => ?_⟩
  · rcases List.mem_cons.1 hq with rfl | hq
    · exact le_rfl
    · exact (List.pairwise_cons.1 hqq).1 q hq
  · obtain ⟨c', hc', hop, -⟩ := hext _ _ hc
    have hlegal := h.legal.mono hext
    rw [orderOf, List.map_append] at hlegal ⊢
    obtain ⟨s₁, h₁, h₂⟩ := legal_append.1 hlegal
    exact legal_append.2 ⟨s₁, h₁, h₂.before rfl (List.getElem?_set_self hlt) hc' (hop ▸ ha)⟩
  · simp only [List.mem_append, List.mem_cons] at hq ⊢
    tauto

end KvRaft
