import KvRaft.Consensus.Quorum
import Mathlib.Data.Fintype.Basic
import Mathlib.Data.Finset.Card
import Mathlib.Data.List.NodupEquivFin

/-!
# Polls and their counters

A poll asks some nodes for an answer, each at most once, and counts the positive ones in a
counter of its own, which starts at one for the node that asks.  The calls of all polls are kept
in one list, in any order; calls that belong to no poll are `none`.

* `Tally bs counts used` : no poll asks a node twice, and every counter, together with what has
  been taken off it, is backed by positive answers of distinct nodes.
* `Tally.ask`, `Tally.answer` : opening a poll and counting an answer.
* `Tally.majority` : when the counter reaches the threshold, a majority has answered.
-/

namespace KvRaft

namespace Consensus

/-- How a call takes part in a poll. -/
structure Ballot (N : Type*) where
  poll : ℕ
  /-- The node that is asked. -/
  voter : N
  /-- A positive answer has been processed. -/
  yes : Bool
  deriving DecidableEq

variable {N : Type*} [Fintype N] [DecidableEq N]

/-- The nodes whose positive answers in poll `p` have been processed. -/
def voters (bs : List (Option (Ballot N))) (p : ℕ) : Finset N :=
  Finset.univ.filter fun v => some ⟨p, v, true⟩ ∈ bs

theorem mem_voters {bs : List (Option (Ballot N))} {p : ℕ} {v : N} :
    v ∈ voters bs p ↔ some ⟨p, v, true⟩ ∈ bs := by
  simp [voters]

/-- The counters are backed by answers; `used p` has been taken off the counter of poll `p`. -/
structure Tally (bs : List (Option (Ballot N))) (counts : List ℕ) (used : ℕ → ℕ) : Prop where
  /-- Every call belongs to a poll that has a counter. -/
  poll_lt : ∀ b, some b ∈ bs → b.poll < counts.length
  /-- A poll asks a node once. -/
  once : ∀ (k k' : ℕ) (b b' : Ballot N), bs[k]? = some (some b) → bs[k']? = some (some b') →
    b.poll = b'.poll → b.voter = b'.voter → k = k'
  count : ∀ (p x : ℕ), counts[p]? = some x → x + used p ≤ 1 + (voters bs p).card

variable {bs : List (Option (Ballot N))} {counts : List ℕ} {used used' : ℕ → ℕ}

theorem Tally.nil : Tally ([] : List (Option (Ballot N))) [] used :=
  ⟨by simp, by simp, by simp⟩

/-- Calls that belong to no poll may be added. -/
theorem Tally.skip (h : Tally bs counts used) {l : List (Option (Ballot N))}
    (hl : ∀ b ∈ l, b = none) : Tally (bs ++ l) counts used := by
  have hmem : ∀ b, some b ∈ bs ++ l ↔ some b ∈ bs := by
    intro b
    rw [List.mem_append, or_iff_left]
    intro hb
    cases hl _ hb
  have hget : ∀ (k : ℕ) (b : Ballot N), (bs ++ l)[k]? = some (some b) → bs[k]? = some (some b) := by
    intro k b hk
    rcases lt_or_ge k bs.length with hlt | hge
    · rwa [List.getElem?_append_left hlt] at hk
    · rw [List.getElem?_append_right hge] at hk
      cases hl _ (List.mem_of_getElem? hk)
  refine ⟨fun b hb => h.poll_lt b ((hmem b).1 hb),
    fun k k' b b' hk hk' => h.once k k' b b' (hget k b hk) (hget k' b' hk'), fun p x hx => ?_⟩
  have : voters (bs ++ l) p = voters bs p := by
    ext v
    simp only [mem_voters, hmem]
  rw [this]
  exact h.count p x hx

/-- Calls that belong to no poll may be left out. -/
theorem Tally.of_sublist (h : Tally bs counts used) {bs' : List (Option (Ballot N))}
    (hs : bs'.Sublist bs) (hmem : ∀ b, some b ∈ bs → some b ∈ bs') : Tally bs' counts used := by
  obtain ⟨f, hf⟩ := List.sublist_iff_exists_orderEmbedding_getElem?_eq.1 hs
  refine ⟨fun b hb => h.poll_lt b (hs.subset hb), fun k k' b b' hk hk' hp hv => ?_,
    fun p x hx => ?_⟩
  · rw [hf] at hk hk'
    exact f.injective (h.once _ _ b b' hk hk' hp hv)
  · have : voters bs' p = voters bs p := by
      ext v
      simp only [mem_voters]
      exact ⟨fun hv => hs.subset hv, hmem _⟩
    rw [this]
    exact h.count p x hx

/-- A poll is opened with the calls `l`, among which may be some that belong to no poll. -/
theorem Tally.openPoll (h : Tally bs counts used) {l : List (Option (Ballot N))}
    (hl : ∀ b, some b ∈ l → b = ⟨counts.length, b.voter, false⟩)
    (honce : ∀ (k k' : ℕ) (b b' : Ballot N), l[k]? = some (some b) → l[k']? = some (some b') →
      b.voter = b'.voter → k = k')
    (hnew : used' counts.length = 0) (hold : ∀ p < counts.length, used' p ≤ used p) :
    Tally (bs ++ l) (counts ++ [1]) used' := by
  have hcalls : ∀ (k : ℕ) (b : Ballot N), (bs ++ l)[k]? = some (some b) →
      k < bs.length ∧ bs[k]? = some (some b) ∨
        bs.length ≤ k ∧ l[k - bs.length]? = some (some b) ∧ b.poll = counts.length := by
    intro k b hk
    rcases lt_or_ge k bs.length with hlt | hge
    · exact Or.inl ⟨hlt, by rwa [List.getElem?_append_left hlt] at hk⟩
    · rw [List.getElem?_append_right hge] at hk
      exact Or.inr ⟨hge, hk, congrArg Ballot.poll (hl b (List.mem_of_getElem? hk))⟩
  have hpoll : ∀ (k : ℕ) (b : Ballot N), bs[k]? = some (some b) → b.poll < counts.length :=
    fun k b hk => h.poll_lt b (List.mem_of_getElem? hk)
  refine ⟨fun b hb => ?_, fun k k' b b' hk hk' hp hv => ?_, fun p x hx => ?_⟩
  · obtain ⟨k, hk⟩ := List.mem_iff_getElem?.1 hb
    rw [List.length_append, List.length_singleton]
    rcases hcalls k b hk with ⟨-, hk⟩ | ⟨-, -, hb⟩
    · exact (hpoll k b hk).trans (Nat.lt_succ_self _)
    · rw [hb]
      exact Nat.lt_succ_self _
  · rcases hcalls k b hk with ⟨-, hk⟩ | ⟨hge, hk, hb⟩ <;>
      rcases hcalls k' b' hk' with ⟨-, hk'⟩ | ⟨hge', hk', hb'⟩
    · exact h.once k k' b b' hk hk' hp hv
    · have := hpoll k b hk
      omega
    · have := hpoll k' b' hk'
      omega
    · have := honce _ _ b b' hk hk' hv
      omega
  · have hv : voters bs p ⊆ voters (bs ++ l) p := by
      intro v hv
      rw [mem_voters] at hv ⊢
      exact List.mem_append_left _ hv
    have hcard := Finset.card_le_card hv
    rcases lt_or_ge p counts.length with hlt | hge
    · rw [List.getElem?_append_left hlt] at hx
      have := h.count p x hx
      have := hold p hlt
      omega
    · rw [List.getElem?_append_right hge] at hx
      obtain ⟨hp, rfl⟩ := List.getElem?_eq_some_iff.1 hx
      obtain rfl : p = counts.length := by
        simp only [List.length_singleton] at hp
        omega
      simp [hnew]

/-- A poll is opened that asks the nodes `l`. -/
theorem Tally.ask (h : Tally bs counts used) {l : List N} (hl : l.Nodup)
    (hnew : used' counts.length = 0) (hold : ∀ p < counts.length, used' p ≤ used p) :
    Tally (bs ++ l.map fun v => some ⟨counts.length, v, false⟩) (counts ++ [1]) used' := by
  have hvoter : ∀ (k : ℕ) (b : Ballot N),
      (l.map fun v => some (⟨counts.length, v, false⟩ : Ballot N))[k]? = some (some b) →
      l[k]? = some b.voter := by
    intro k b hk
    obtain ⟨v, hv, hb⟩ := Option.map_eq_some_iff.1 (List.getElem?_map ▸ hk)
    obtain rfl := Option.some.inj hb
    exact hv
  refine h.openPoll (fun b hb => ?_) (fun k k' b b' hk hk' hv => ?_) hnew hold
  · obtain ⟨v, -, hb⟩ := List.mem_map.1 hb
    obtain rfl := Option.some.inj hb
    rfl
  · obtain ⟨hi, hik⟩ := List.getElem?_eq_some_iff.1 (hvoter k b hk)
    obtain ⟨hj, hjk⟩ := List.getElem?_eq_some_iff.1 (hvoter k' b' hk')
    exact hl.getElem_inj_iff.1 ((hik.trans hv).trans hjk.symm)

/-- A call that has not been answered positively is not among the voters. -/
theorem Tally.not_mem_voters (h : Tally bs counts used) {k p : ℕ} {v : N}
    (hk : bs[k]? = some (some ⟨p, v, false⟩)) : v ∉ voters bs p := by
  intro hv
  obtain ⟨k', hk'⟩ := List.mem_iff_getElem?.1 (mem_voters.1 hv)
  obtain rfl := h.once k k' _ _ hk hk' rfl rfl
  simp [hk] at hk'

/-- Together with the node that asks and the one that has just answered, the voters are a majority
when their number reaches the threshold. -/
theorem Tally.majority (h : Tally bs counts used) {k p : ℕ} {me v : N}
    (hk : bs[k]? = some (some ⟨p, v, false⟩)) (hv : v ≠ me) (hme : me ∉ voters bs p)
    (hnum : 1 + Fintype.card N / 2 ≤ counts.getD p 0 + 1) :
    Majority (insert me (insert v (voters bs p))) := by
  have hp : p < counts.length := h.poll_lt _ (List.mem_of_getElem? hk)
  have hcount := h.count p _ (List.getElem?_eq_getElem hp)
  rw [List.getD_eq_getElem?_getD, List.getElem?_eq_getElem hp, Option.getD_some] at hnum
  refine majority_of_le ?_
  rw [Finset.card_insert_of_notMem, Finset.card_insert_of_notMem (h.not_mem_voters hk)]
  · omega
  · rw [Finset.mem_insert, not_or]
    exact ⟨hv.symm, hme⟩

/-- A positive answer is processed. -/
theorem voters_answer {k p : ℕ} {v : N}
    (hk : bs[k]? = some (some ⟨p, v, false⟩)) (q : ℕ) :
    voters (bs.set k (some ⟨p, v, true⟩)) q =
      if q = p then insert v (voters bs p) else voters bs q := by
  have hlt := (List.getElem?_eq_some_iff.1 hk).1
  have hmem : ∀ b : Ballot N, b.yes = true →
      (some b ∈ bs.set k (some ⟨p, v, true⟩) ↔ b = ⟨p, v, true⟩ ∨ some b ∈ bs) := by
    intro b hb
    constructor
    · intro hm
      rcases List.mem_or_eq_of_mem_set hm with hm | hm
      · exact Or.inr hm
      · exact Or.inl (Option.some.inj hm)
    · rintro (rfl | hm)
      · exact List.mem_set hlt _
      · obtain ⟨k', hk'⟩ := List.mem_iff_getElem?.1 hm
        have hne : k ≠ k' := by
          rintro rfl
          rw [hk] at hk'
          cases hk'
          cases hb
        exact List.mem_iff_getElem?.2 ⟨k', by rwa [List.getElem?_set_ne hne]⟩
  ext w
  rw [mem_voters, hmem _ rfl]
  split_ifs with hq
  · subst hq
    simp [mem_voters]
  · simp [mem_voters, hq]

/-- A positive answer is counted, or the counter is reset. -/
theorem Tally.answer (h : Tally bs counts used) {k p x x' : ℕ} {v : N}
    (hk : bs[k]? = some (some ⟨p, v, false⟩)) (hx : counts[p]? = some x)
    (hp : x' + used' p ≤ x + used p + 1) (hother : ∀ q, q ≠ p → used' q ≤ used q) :
    Tally (bs.set k (some ⟨p, v, true⟩)) (counts.set p x') used' := by
  have hset : ∀ (j : ℕ) (b : Ballot N), (bs.set k (some ⟨p, v, true⟩))[j]? = some (some b) →
      ∃ b₀ : Ballot N, bs[j]? = some (some b₀) ∧ b₀.poll = b.poll ∧ b₀.voter = b.voter := by
    intro j b hj
    by_cases hjk : k = j
    · subst hjk
      rw [List.getElem?_set_self (List.getElem?_eq_some_iff.1 hk).1] at hj
      obtain rfl := Option.some.inj (Option.some.inj hj)
      exact ⟨_, hk, rfl, rfl⟩
    · rw [List.getElem?_set_ne hjk] at hj
      exact ⟨b, hj, rfl, rfl⟩
  refine ⟨fun b hb => ?_, fun j j' b b' hj hj' hpoll hvoter => ?_, fun q y hy => ?_⟩
  · obtain ⟨j, hj⟩ := List.mem_iff_getElem?.1 hb
    obtain ⟨b₀, hj₀, hp₀, -⟩ := hset j b hj
    rw [List.length_set, ← hp₀]
    exact h.poll_lt b₀ (List.mem_of_getElem? hj₀)
  · obtain ⟨b₀, hj₀, hp₀, hv₀⟩ := hset j b hj
    obtain ⟨b₁, hj₁, hp₁, hv₁⟩ := hset j' b' hj'
    exact h.once j j' b₀ b₁ hj₀ hj₁ (by rw [hp₀, hp₁, hpoll]) (by rw [hv₀, hv₁, hvoter])
  · rw [voters_answer hk]
    by_cases hqp : q = p
    · subst hqp
      rw [List.getElem?_set_self (List.getElem?_eq_some_iff.1 hx).1] at hy
      obtain rfl := Option.some.inj hy
      rw [if_pos rfl, Finset.card_insert_of_notMem (h.not_mem_voters hk)]
      have := h.count q x hx
      omega
    · rw [List.getElem?_set_ne (Ne.symm hqp)] at hy
      rw [if_neg hqp]
      exact (Nat.add_le_add_left (hother q hqp) y).trans (h.count q y hy)

/-- An answer is processed: only a positive one may raise the counter, by one. -/
theorem Tally.processed (h : Tally bs counts used) {k p x : ℕ} {v : N} {yes : Bool}
    (hk : bs[k]? = some (some ⟨p, v, false⟩)) (hx : x ≤ counts.getD p 0 + 1)
    (hyes : x ≠ counts.getD p 0 → yes = true) :
    Tally (bs.set k (some ⟨p, v, yes⟩)) (counts.set p x) used := by
  have hp : p < counts.length := h.poll_lt _ (List.mem_of_getElem? hk)
  have hget := List.getElem?_eq_getElem hp
  rw [List.getD_eq_getElem?_getD, hget, Option.getD_some] at hx hyes
  cases yes with
  | true => exact h.answer hk hget (by omega) fun _ _ => le_rfl
  | false =>
    -- a negative answer leaves the counter and the call as they are
    obtain rfl : x = counts[p] := by
      by_contra hne
      cases hyes hne
    obtain ⟨hlt, hget'⟩ := List.getElem?_eq_some_iff.1 hk
    rw [List.set_getElem_self, ← hget', List.set_getElem_self]
    exact h

end Consensus

end KvRaft
