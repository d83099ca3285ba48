import Mathlib.Data.List.Infix
import Mathlib.Data.Int.Order.Basic
import Mathlib.Tactic.Common

/-!
# Replicated logs with terms

A log is a list of entries, each carrying the term of the leader that created it.  `lead T` is
the log of the leader of term `T`, if the term has one.

* `Coherent tm lead l` : whatever entry `l` holds at a position, the leader of the entry's term
  holds the same log up to that position.  `Coherent.take_eq` is log matching.
* `AtLeast tm l l'` : `l` is at least as up to date as `l'` (higher last term, or equal last
  terms and at least the same length).
* `Coherent.prefix_of_atLeast` : a coherent log that is at least as up to date as one holding a
  committed prefix holds that prefix as well, provided the leaders of the terms in between do.
-/

namespace KvRaft

namespace Consensus

variable {E : Type*} (tm : E → ℤ)

/-- Every entry of `l` comes with the log its term's leader had up to that entry. -/
def Coherent (lead : ℤ → Option (List E)) (l : List E) : Prop :=
  ∀ p e, l[p]? = some e → ∃ L, lead (tm e) = some L ∧ l.take (p + 1) <+: L

/-- The term of the last entry, `0` for the empty log. -/
def lastTerm (l : List E) : ℤ := (l.getLast?.map tm).getD 0

/-- `l` is at least as up to date as `l'`. -/
def AtLeast (l l' : List E) : Prop :=
  lastTerm tm l' < lastTerm tm l ∨ lastTerm tm l' = lastTerm tm l ∧ l'.length ≤ l.length

/-- The terms of a log do not decrease. -/
def Sorted (l : List E) : Prop := l.Pairwise fun e e' => tm e ≤ tm e'

variable {tm} {lead lead' : ℤ → Option (List E)} {l l' L : List E} {T T' : ℤ}

@[simp] theorem lastTerm_nil : lastTerm tm [] = 0 := rfl

@[simp] theorem lastTerm_concat (l : List E) (e : E) : lastTerm tm (l ++ [e]) = tm e := by
  simp [lastTerm]

theorem lastTerm_take {p : ℕ} {e : E} (he : l[p]? = some e) :
    lastTerm tm (l.take (p + 1)) = tm e := by
  rw [List.take_add_one, he]
  exact lastTerm_concat _ _

theorem AtLeast.refl (l : List E) : AtLeast tm l l := Or.inr ⟨rfl, le_rfl⟩

/-- Two prefixes of the same list of the same length are equal. -/
theorem take_eq_of_isPrefix {n : ℕ} (h : l <+: L) (hn : n ≤ l.length) : l.take n = L.take n := by
  obtain ⟨t, rfl⟩ := h
  rw [List.take_append_of_le_length hn]

theorem take_eq_of_take_isPrefix {n : ℕ} (h : L.take n <+: l) (hn : n ≤ L.length) :
    l.take n = L.take n := by
  have := take_eq_of_isPrefix h (n := n) (by simp [hn])
  rw [← this, List.take_take, min_self]

theorem getElem?_of_isPrefix {p : ℕ} {e : E} (h : l <+: L) (he : l[p]? = some e) :
    L[p]? = some e := by
  obtain ⟨t, rfl⟩ := h
  have hp := (List.getElem?_eq_some_iff.1 he).1
  rw [List.getElem?_append_left hp, he]

/-! ### Coherence -/

theorem Coherent.nil : Coherent tm lead [] := by
  intro p e h
  simp at h

/-- Leaders only ever extend their logs, which keeps every log coherent. -/
theorem Coherent.mono (h : Coherent tm lead l)
    (hle : ∀ T L, lead T = some L → ∃ L', lead' T = some L' ∧ L <+: L') :
    Coherent tm lead' l := by
  intro p e he
  obtain ⟨L, hL, hp⟩ := h p e he
  obtain ⟨L', hL', hLL'⟩ := hle _ _ hL
  exact ⟨L', hL', hp.trans hLL'⟩

theorem Coherent.of_isPrefix (h : Coherent tm lead L) (hl : l <+: L) : Coherent tm lead l := by
  intro p e he
  have hp := (List.getElem?_eq_some_iff.1 he).1
  obtain ⟨L', hL', hpre⟩ := h p e (getElem?_of_isPrefix hl he)
  refine ⟨L', hL', ?_⟩
  rwa [take_eq_of_isPrefix hl (by omega)]

/-- Appending an entry keeps a log coherent if the new log is the log of the entry's leader. -/
theorem Coherent.concat {e : E} (h : Coherent tm lead l)
    (he : ∃ L, lead (tm e) = some L ∧ l ++ [e] <+: L) : Coherent tm lead (l ++ [e]) := by
  intro p x hx
  rcases lt_trichotomy p l.length with hp | hp | hp
  · rw [List.getElem?_append_left hp] at hx
    rw [List.take_append_of_le_length hp]
    exact h p x hx
  · subst hp
    simp only [List.getElem?_append_right le_rfl, Nat.sub_self, List.getElem?_cons_zero,
      Option.some.injEq] at hx
    subst hx
    rwa [List.take_of_length_le (by simp)]
  · rw [List.getElem?_eq_none (by simp; omega)] at hx
    cases hx

/-- **Log matching**: two coherent logs with entries of the same term at the same position are
equal up to that position. -/
theorem Coherent.take_eq {p : ℕ} {e e' : E} (h : Coherent tm lead l) (h' : Coherent tm lead l')
    (he : l[p]? = some e) (he' : l'[p]? = some e') (ht : tm e = tm e') :
    l.take (p + 1) = l'.take (p + 1) := by
  have hp := (List.getElem?_eq_some_iff.1 he).1
  have hp' := (List.getElem?_eq_some_iff.1 he').1
  obtain ⟨L, hL, hpre⟩ := h p e he
  obtain ⟨L', hL', hpre'⟩ := h' p e' he'
  rw [ht, hL'] at hL
  obtain rfl := Option.some.inj hL
  have h₁ := take_eq_of_isPrefix hpre (n := p + 1) (by simp; omega)
  have h₂ := take_eq_of_isPrefix hpre' (n := p + 1) (by simp; omega)
  rw [List.take_take, min_self] at h₁ h₂
  rw [h₁, h₂]

/-- A non-empty coherent log is a prefix of the log of the leader of its last term. -/
theorem Coherent.prefix_lead (h : Coherent tm lead l) (hl : l ≠ []) :
    ∃ L, lead (lastTerm tm l) = some L ∧ l <+: L := by
  obtain ⟨l₀, e, rfl⟩ := List.eq_nil_or_concat l |>.resolve_left hl
  obtain ⟨L, hL, hp⟩ := h l₀.length e (by simp)
  refine ⟨L, by simpa using hL, ?_⟩
  rwa [List.take_of_length_le (by simp)] at hp

theorem Coherent.lead_of_mem {e : E} (h : Coherent tm lead l) (he : e ∈ l) :
    ∃ L, lead (tm e) = some L ∧ e ∈ L := by
  obtain ⟨p, hp⟩ := List.mem_iff_getElem?.1 he
  obtain ⟨L, hL, hpre⟩ := h p e hp
  refine ⟨L, hL, hpre.subset ?_⟩
  refine List.mem_of_getElem? (i := p) ?_
  rwa [List.getElem?_take_of_lt (Nat.lt_succ_self p)]

theorem Sorted.of_isPrefix (h : Sorted tm L) (hl : l <+: L) : Sorted tm l :=
  h.sublist hl.sublist

theorem Sorted.concat {e : E} (h : Sorted tm l) (he : ∀ x ∈ l, tm x ≤ tm e) :
    Sorted tm (l ++ [e]) := by
  refine List.pairwise_append.2 ⟨h, List.pairwise_singleton _ _, ?_⟩
  intro x hx y hy
  obtain rfl := List.mem_singleton.1 hy
  exact he x hx

theorem Sorted.le_lastTerm (h : Sorted tm l) {e : E} (he : e ∈ l) : tm e ≤ lastTerm tm l := by
  obtain ⟨l₀, x, rfl⟩ := List.eq_nil_or_concat l |>.resolve_left (List.ne_nil_of_mem he)
  rw [List.concat_eq_append] at he h ⊢
  rw [lastTerm_concat]
  rcases List.mem_append.1 he with he | he
  · exact (List.pairwise_append.1 h).2.2 e he x (by simp)
  · obtain rfl := List.mem_singleton.1 he
    exact le_rfl

/-- Coherent logs inherit the order of the leaders' logs. -/
theorem Coherent.sorted (h : Coherent tm lead l) (hs : ∀ T L, lead T = some L → Sorted tm L) :
    Sorted tm l := by
  by_cases hl : l = []
  · subst hl
    exact List.Pairwise.nil
  · obtain ⟨L, hL, hp⟩ := h.prefix_lead hl
    exact (hs _ _ hL).of_isPrefix hp

theorem lastTerm_mem (hl : l ≠ []) : ∃ e ∈ l, tm e = lastTerm tm l := by
  obtain ⟨l₀, x, rfl⟩ := List.eq_nil_or_concat l |>.resolve_left hl
  exact ⟨x, by simp, by simp [List.concat_eq_append]⟩

/-! ### Elections and committed prefixes -/

/-- **Voting for an up-to-date log preserves committed prefixes.**  `L` is the log of the leader
of term `T`, whose entry `i` has term `T`; the voter's log `l'` holds `L` up to `i`, and `l` is
at least as up to date as `l'`.  If the logs that the leaders of the terms between `T` and the
terms of `l` were elected with hold `L` up to `i`, then so does `l`. -/
theorem Coherent.prefix_of_atLeast {i : ℕ} {e : E} (h : Coherent tm lead l)
    (h' : Coherent tm lead l') (hs : ∀ T L, lead T = some L → Sorted tm L)
    (hL : lead T = some L) (he : L[i]? = some e) (heT : tm e = T) (hpos : 0 < T)
    (hv : L.take (i + 1) <+: l') (hup : AtLeast tm l l')
    (hmid : ∀ x ∈ l, T < tm x → ∃ L', lead (tm x) = some L' ∧ L.take (i + 1) <+: L') :
    L.take (i + 1) <+: l := by
  have hi := (List.getElem?_eq_some_iff.1 he).1
  have heL : e ∈ L.take (i + 1) :=
    List.mem_of_getElem? (i := i) (by rwa [List.getElem?_take_of_lt (Nat.lt_succ_self i)])
  have hT' : T ≤ lastTerm tm l' := heT ▸ (h'.sorted hs).le_lastTerm (hv.subset heL)
  have hT : T ≤ lastTerm tm l := by
    rcases hup with hlt | ⟨heq, -⟩ <;> omega
  have hne : l ≠ [] := by
    rintro rfl
    simp at hT
    omega
  obtain ⟨L₁, hL₁, hpre⟩ := h.prefix_lead hne
  rcases hT.eq_or_lt with hT | hT
  · -- both logs end in the block of the leader of `T`
    rw [← hT, hL] at hL₁
    obtain rfl := Option.some.inj hL₁
    have hlen : i + 1 ≤ l.length := by
      have := hv.length_le
      rw [List.length_take] at this
      rcases hup with hlt | ⟨-, hle⟩ <;> omega
    have htake : L.take (i + 1) <+: L := List.take_prefix _ _
    exact List.prefix_of_prefix_length_le htake hpre (by simp; omega)
  · -- the last entry of `l` belongs to a later leader, which holds the prefix
    obtain ⟨x, hx, hxt⟩ : ∃ x ∈ l, tm x = lastTerm tm l := lastTerm_mem hne
    obtain ⟨L', hL', hpre'⟩ := hmid x hx (by omega)
    rw [hxt, hL₁] at hL'
    obtain rfl := Option.some.inj hL'
    rcases le_total (i + 1) l.length with hlen | hlen
    · exact List.prefix_of_prefix_length_le hpre' hpre (by simp; omega)
    · exfalso
      have hsub := List.prefix_of_prefix_length_le hpre hpre' (by simp; omega)
      have htake : L.take (i + 1) <+: L := List.take_prefix _ _
      have hxL := (hs _ _ hL).of_isPrefix htake
      have hle := hxL.le_lastTerm (hsub.subset hx)
      have hlast : lastTerm tm (L.take (i + 1)) = T := by
        rw [List.take_add_one, he]
        simpa using heT
      omega

end Consensus

end KvRaft
