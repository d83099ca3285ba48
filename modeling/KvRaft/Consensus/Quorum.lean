import Mathlib.Data.Fintype.Card

/-!
# Majorities

A majority of a finite set of nodes is a set holding more than half of them; any two
majorities meet.
-/

namespace KvRaft

namespace Consensus

variable {N : Type*} [Fintype N]

/-- `Q` holds more than half of the nodes. -/
def Majority (Q : Finset N) : Prop := Fintype.card N < 2 * Q.card

/-- Two majorities have a node in common. -/
theorem Majority.inter [DecidableEq N] {Q Q' : Finset N} (h : Majority Q) (h' : Majority Q') :
    ∃ v, v ∈ Q ∧ v ∈ Q' := by
  by_contra hne
  push Not at hne
  have hd : Disjoint Q Q' := Finset.disjoint_left.2 hne
  have hle : (Q ∪ Q').card ≤ Fintype.card N := Finset.card_le_univ _
  rw [Finset.card_union_of_disjoint hd] at hle
  unfold Majority at h h'
  omega

/-- Reaching the threshold `n / 2 + 1` makes a majority. -/
theorem majority_of_le {Q : Finset N} (h : Fintype.card N / 2 + 1 ≤ Q.card) : Majority Q := by
  unfold Majority
  omega

end Consensus

end KvRaft
