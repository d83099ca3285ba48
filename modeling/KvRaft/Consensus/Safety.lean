import KvRaft.Consensus.Invariant

/-!
# Safety of leader-based replication

* `Committed s T i` : a majority has acknowledged entry `i` of the leader of term `T`, and the
  entry is of that term.
* `Inv.leader_completeness` : every leader of a later term was elected with that entry and
  everything before it.
* `Inv.committed_agree` : the logs of two leaders agree on everything that is committed in the
  term of either.

The majority that acknowledged and the majority that voted meet in a node.  It voted with a log
that still held the committed prefix, unless a leader in between was elected without it; by
induction on the term there is no such leader.
-/

namespace KvRaft

namespace Consensus

variable {N E : Type*} [Fintype N] {tm : E → ℤ} {s s' : State N E}

variable (tm) in
/-- Entry `i` of the leader of term `T` is committed: it is of term `T` and a majority has
acknowledged it. -/
def Committed (s : State N E) (T : ℤ) (i : ℕ) : Prop :=
  ∃ r e Q, s.reign T = some r ∧ r.log[i]? = some e ∧ tm e = T ∧ Majority Q ∧
    ∀ v ∈ Q, i + 1 ≤ s.ack v T

/-- Commitment is never taken back. -/
theorem Committed.mono {T : ℤ} {i : ℕ} (h : Committed tm s T i) (hg : Grows s s') :
    Committed tm s' T i := by
  obtain ⟨r, e, Q, hr, he, ht, hQ, hack⟩ := h
  obtain ⟨r', hr', -, -, hp⟩ := hg.reign T r hr
  exact ⟨r', e, Q, hr', getElem?_of_isPrefix hp he, ht, hQ,
    fun v hv => (hack v hv).trans (hg.ack v T)⟩

/-- **Leader completeness.** -/
theorem Inv.leader_completeness [DecidableEq N] (hi : Inv tm s) {T : ℤ} {i : ℕ}
    (hc : Committed tm s T i) {r : Reign N E} (hr : s.reign T = some r) :
    ∀ (d : ℕ) (T' : ℤ) (r' : Reign N E), (T' - T).toNat = d → T < T' → s.reign T' = some r' →
      r.log.take (i + 1) <+: r'.base := by
  obtain ⟨r₀, e, Q, hr₀, he, ht, hQ, hack⟩ := hc
  obtain rfl : r = r₀ := by simpa [hr] using hr₀
  intro d
  induction d using Nat.strong_induction_on with
  | _ d ih =>
    intro T' r' hd hlt hr'
    have hr'inv := hi.reign T' r' hr'
    obtain ⟨Q', hQ', hvotes⟩ := hr'inv.majority
    obtain ⟨v, hvQ, hvQ'⟩ := hQ.inter hQ'
    obtain ⟨l, hl, hup⟩ := hvotes v hvQ'
    have hvote := hi.vote v T' r'.leader l hl
    -- the voter held the committed prefix when it voted
    have hheld : r.log.take (i + 1) <+: l := by
      rcases hvote.holds T r (i + 1) hr hlt (hack v hvQ) with hp | ⟨T₁, r₁, h₁, h₂, hr₁, hn⟩
      · exact hp
      · exact absurd (ih (T₁ - T).toNat (by omega) T₁ r₁ rfl h₁ hr₁) hn
    refine (hr'inv.coherent.of_isPrefix hr'inv.base_isPrefix).prefix_of_atLeast hvote.coherent
      hi.lead_sorted (State.lead_eq_some.2 ⟨r, hr, rfl⟩) he ht (hi.reign T r hr).pos hheld hup
      fun x hx hTx => ?_
    have hxT := hr'inv.base_lt x hx
    obtain ⟨L, hL, -⟩ := (hr'inv.coherent.of_isPrefix hr'inv.base_isPrefix).lead_of_mem hx
    obtain ⟨r₁, hr₁, rfl⟩ := State.lead_eq_some.1 hL
    exact ⟨r₁.log, hL, (ih (tm x - T).toNat (by omega) (tm x) r₁ rfl hTx hr₁).trans
      (hi.reign _ r₁ hr₁).base_isPrefix⟩

/-- Leaders of the same and of later terms hold what is committed. -/
theorem Inv.committed_isPrefix [DecidableEq N] (hi : Inv tm s) {T T' : ℤ} {i : ℕ}
    {r r' : Reign N E} (hc : Committed tm s T i) (hr : s.reign T = some r)
    (hr' : s.reign T' = some r') (hle : T ≤ T') : r.log.take (i + 1) <+: r'.log := by
  rcases hle.eq_or_lt with rfl | hlt
  · obtain rfl : r = r' := by simpa [hr] using hr'
    exact List.take_prefix _ _
  · exact (hi.leader_completeness hc hr _ T' r' rfl hlt hr').trans
      (hi.reign T' r' hr').base_isPrefix

/-- **Committed entries agree**: what is committed in the terms of two leaders is the same at
every position committed in both. -/
theorem Inv.committed_agree [DecidableEq N] (hi : Inv tm s) {T T' : ℤ} {i i' j : ℕ}
    {r r' : Reign N E} (hc : Committed tm s T i) (hc' : Committed tm s T' i')
    (hr : s.reign T = some r) (hr' : s.reign T' = some r') (hj : j ≤ i) (hj' : j ≤ i') :
    r.log[j]? = r'.log[j]? := by
  have key : ∀ {T T' : ℤ} {i : ℕ} {r r' : Reign N E}, Committed tm s T i →
      s.reign T = some r → s.reign T' = some r' → j ≤ i → T ≤ T' → r.log[j]? = r'.log[j]? := by
    intro T T' i r r' hc hr hr' hj hle
    have hp := hi.committed_isPrefix hc hr hr' hle
    obtain ⟨r₀, e, -, hr₀, he, -⟩ := hc
    obtain rfl : r = r₀ := by simpa [hr] using hr₀
    have hi' := (List.getElem?_eq_some_iff.1 he).1
    have heq := take_eq_of_take_isPrefix hp (by omega)
    have := congrArg (fun l => l[j]?) heq
    simpa [List.getElem?_take_of_lt (show j < i + 1 by omega)] using this.symm
  rcases le_total T T' with h | h
  · exact key hc hr hr' hj h
  · exact (key hc' hr' hr hj' h).symm

end Consensus

end KvRaft
