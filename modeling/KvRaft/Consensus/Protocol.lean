import KvRaft.Consensus.Log
import KvRaft.Consensus.Quorum
import Mathlib.Logic.Function.Basic

/-!
# Leader-based replication of a log

An abstract protocol for replicating a log under elected leaders, over an arbitrary finite set
of nodes and arbitrary entries.  Next to the terms and logs of the nodes, the state remembers
what happened: every vote with the log the voter had, every reign (the leader of a term, the
log it was elected with and its log now), and how far every node has acknowledged every leader.

* `Step` : a node advances its term, votes, is elected by a majority, appends to its log as
  leader, or accepts the leader's log up to some length.
* `Inv` : the inductive invariant, `Inv.step` its preservation.
* `Grows` : votes, reigns and acknowledgements are never taken back.
-/

namespace KvRaft

namespace Consensus

/-- The leadership of a term. -/
structure Reign (N E : Type*) where
  /-- The leader of the term. -/
  leader : N
  /-- The log it was elected with. -/
  base : List E
  /-- Its log now, or when it left the term. -/
  log : List E

/-- States of the abstract protocol. -/
structure State (N E : Type*) where
  /-- The current term of a node. -/
  term : N → ℤ
  /-- The log of a node. -/
  log : N → List E
  /-- Whom a node voted for in a term, and the log it had then. -/
  vote : N → ℤ → Option (N × List E)
  /-- The leadership of a term. -/
  reign : ℤ → Option (Reign N E)
  /-- How many entries of the log of a term's leader a node has acknowledged. -/
  ack : N → ℤ → ℕ

variable {N E : Type*} (tm : E → ℤ)

namespace State

/-- The log of the leader of a term. -/
def lead (s : State N E) (T : ℤ) : Option (List E) := (s.reign T).map (·.log)

theorem lead_eq_some {s : State N E} {T : ℤ} {L : List E} :
    s.lead T = some L ↔ ∃ r, s.reign T = some r ∧ r.log = L := by
  simp [lead]

end State

/-- Nothing that was recorded in `s` is taken back in `s'`. -/
structure Grows (s s' : State N E) : Prop where
  /-- Terms do not decrease. -/
  term : ∀ v, s.term v ≤ s'.term v
  /-- Votes stay. -/
  vote : ∀ v T x, s.vote v T = some x → s'.vote v T = some x
  /-- Leaders and the logs they were elected with stay, their logs are only extended. -/
  reign : ∀ T r, s.reign T = some r → ∃ r', s'.reign T = some r' ∧ r'.leader = r.leader ∧
    r'.base = r.base ∧ r.log <+: r'.log
  /-- Acknowledgements stay. -/
  ack : ∀ v T, s.ack v T ≤ s'.ack v T

/-- Some leader of a term strictly between `T` and `B` was elected without the entries `p`. -/
def Lost (s : State N E) (T : ℤ) (p : List E) (B : ℤ) : Prop :=
  ∃ T₁ r₁, T < T₁ ∧ T₁ < B ∧ s.reign T₁ = some r₁ ∧ ¬ p <+: r₁.base

/-- The log `l` holds everything that `v` acknowledged in the terms below `B`, except for what
a later leader below `B` did not have. -/
def Holds (s : State N E) (v : N) (B : ℤ) (l : List E) : Prop :=
  ∀ T r i, s.reign T = some r → T < B → i ≤ s.ack v T →
    r.log.take i <+: l ∨ Lost s T (r.log.take i) B

variable [Fintype N]

/-- What is known about the leadership of a term. -/
structure ReignInv (s : State N E) (T : ℤ) (r : Reign N E) : Prop where
  pos : 0 < T
  base_isPrefix : r.base <+: r.log
  base_lt : ∀ e ∈ r.base, tm e < T
  log_le : ∀ e ∈ r.log, tm e ≤ T
  sorted : Sorted tm r.log
  coherent : Coherent tm s.lead r.log
  term_le : T ≤ s.term r.leader
  log_eq : s.term r.leader = T → s.log r.leader = r.log
  majority : ∃ Q, Majority Q ∧ ∀ v ∈ Q, ∃ l, s.vote v T = some (r.leader, l) ∧
    AtLeast tm r.base l

/-- What is known about a vote of `v` for `c` in term `T`, cast with the log `l`. -/
structure VoteInv (s : State N E) (v : N) (T : ℤ) (c : N) (l : List E) : Prop where
  term_le : T ≤ s.term v
  coherent : Coherent tm s.lead l
  log_lt : ∀ e ∈ l, tm e < T
  candidate : ∃ lc, s.vote c T = some (c, lc) ∧ AtLeast tm lc l
  own : c = v → s.term v = T → s.reign T = none → s.log v = l
  holds : Holds s v T l

/-- The inductive invariant of the protocol. -/
structure Inv (s : State N E) : Prop where
  reign : ∀ T r, s.reign T = some r → ReignInv tm s T r
  vote : ∀ v T c l, s.vote v T = some (c, l) → VoteInv tm s v T c l
  coherent : ∀ v, Coherent tm s.lead (s.log v)
  log_le : ∀ v, ∀ e ∈ s.log v, tm e ≤ s.term v
  ack_le : ∀ v T, s.ack v T ≠ 0 →
    T ≤ s.term v ∧ ∃ r, s.reign T = some r ∧ s.ack v T ≤ r.log.length
  holds : ∀ v, Holds s v (s.term v + 1) (s.log v)

/-- The state in which nothing has happened yet. -/
def State.init : State N E where
  term _ := 0
  log _ := []
  vote _ _ := none
  reign _ := none
  ack _ _ := 0

variable {tm} {s s' : State N E}

omit [Fintype N] in
theorem Grows.refl (s : State N E) : Grows s s :=
  ⟨fun _ => le_rfl, fun _ _ _ h => h, fun _ r h => ⟨r, h, rfl, rfl, List.prefix_rfl⟩,
    fun _ _ => le_rfl⟩

omit [Fintype N] in
theorem Grows.trans {s₁ s₂ s₃ : State N E} (h : Grows s₁ s₂) (h' : Grows s₂ s₃) :
    Grows s₁ s₃ where
  term v := (h.term v).trans (h'.term v)
  vote v T x hx := h'.vote v T x (h.vote v T x hx)
  reign T r hr := by
    obtain ⟨r₁, hr₁, hl₁, hb₁, hp₁⟩ := h.reign T r hr
    obtain ⟨r₂, hr₂, hl₂, hb₂, hp₂⟩ := h'.reign T r₁ hr₁
    exact ⟨r₂, hr₂, hl₂.trans hl₁, hb₂.trans hb₁, hp₁.trans hp₂⟩
  ack v T := (h.ack v T).trans (h'.ack v T)

omit [Fintype N] in
theorem Grows.lead (h : Grows s s') :
    ∀ T L, s.lead T = some L → ∃ L', s'.lead T = some L' ∧ L <+: L' := by
  intro T L hL
  obtain ⟨r, hr, rfl⟩ := State.lead_eq_some.1 hL
  obtain ⟨r', hr', -, -, hp⟩ := h.reign T r hr
  exact ⟨r'.log, State.lead_eq_some.2 ⟨r', hr', rfl⟩, hp⟩

omit [Fintype N] in
theorem Lost.mono {T B B' : ℤ} {p : List E} (hg : Grows s s') (hB : B ≤ B')
    (h : Lost s T p B) : Lost s' T p B' := by
  obtain ⟨T₁, r₁, h₁, h₂, hr, hp⟩ := h
  obtain ⟨r', hr', -, hb, -⟩ := hg.reign T₁ r₁ hr
  exact ⟨T₁, r', h₁, h₂.trans_le hB, hr', hb ▸ hp⟩

/-- An old acknowledgement still speaks about the same entries. -/
theorem Inv.take_eq (hi : Inv tm s) (hg : Grows s s') {v : N} {T : ℤ} {r' : Reign N E} {i : ℕ}
    (hr' : s'.reign T = some r') (hle : i ≤ s.ack v T) (h0 : i ≠ 0) :
    ∃ r, s.reign T = some r ∧ i ≤ r.log.length ∧ r'.log.take i = r.log.take i := by
  obtain ⟨-, r, hr, hlen⟩ := hi.ack_le v T (by omega)
  obtain ⟨r'', hr'', -, -, hp⟩ := hg.reign T r hr
  rw [hr'] at hr''
  obtain rfl := Option.some.inj hr''
  exact ⟨r, hr, hle.trans hlen, (take_eq_of_isPrefix hp (hle.trans hlen)).symm⟩

/-- What a log holds stays held by its extensions. -/
theorem Inv.held_mono (hi : Inv tm s) (hg : Grows s s') {v : N} {B B' T : ℤ} {l l' : List E}
    {r' : Reign N E} {i : ℕ} (h : Holds s v B l) (hl : l <+: l') (hB : B ≤ B')
    (hr' : s'.reign T = some r') (hT : s.ack v T ≠ 0 → T < B) (hle : i ≤ s.ack v T) :
    r'.log.take i <+: l' ∨ Lost s' T (r'.log.take i) B' := by
  by_cases h0 : i = 0
  · subst h0
    exact Or.inl (by simp)
  obtain ⟨r, hr, -, heq⟩ := hi.take_eq hg hr' hle h0
  rw [heq]
  rcases h T r i hr (hT (by omega)) hle with hp | hlost
  · exact Or.inl (hp.trans hl)
  · exact Or.inr (hlost.mono hg hB)

/-- As long as `v` acknowledges nothing new below `B`, what its log holds stays held. -/
theorem Inv.holds_mono (hi : Inv tm s) (hg : Grows s s') {v : N} {B B' : ℤ} {l : List E}
    (h : Holds s v B l) (hB : B ≤ B') (hack : ∀ T, T < B' → s'.ack v T = s.ack v T)
    (hT : ∀ T, s.ack v T ≠ 0 → T < B' → T < B) : Holds s' v B' l := by
  intro T r' i hr' hlt hle
  rw [hack T hlt] at hle
  exact hi.held_mono hg h List.prefix_rfl hB hr' (fun h0 => hT T h0 hlt) hle

theorem Inv.ack_eq_zero_of_reign (hi : Inv tm s) {v : N} {T : ℤ} (h : s.reign T = none) :
    s.ack v T = 0 := by
  by_contra h0
  obtain ⟨-, r, hr, -⟩ := hi.ack_le v T h0
  simp [h] at hr

/-- Acknowledgements stay within the log of the leader. -/
theorem Inv.ack_le_length (hi : Inv tm s) {T : ℤ} {r : Reign N E} (hr : s.reign T = some r)
    (v : N) : s.ack v T ≤ r.log.length := by
  by_cases h0 : s.ack v T = 0
  · omega
  · obtain ⟨-, r', hr', hlen⟩ := hi.ack_le v T h0
    rw [hr] at hr'
    obtain rfl := Option.some.inj hr'
    exact hlen

theorem Inv.lead_sorted (hi : Inv tm s) : ∀ T L, s.lead T = some L → Sorted tm L := by
  intro T L hL
  obtain ⟨r, hr, rfl⟩ := State.lead_eq_some.1 hL
  exact (hi.reign T r hr).sorted

theorem inv_init : Inv tm (State.init : State N E) where
  reign T r h := by simp [State.init] at h
  vote v T c l h := by simp [State.init] at h
  coherent v := Coherent.nil
  log_le v e he := by simp [State.init] at he
  ack_le v T h := by simp [State.init] at h
  holds v T r i h := by simp [State.init] at h

/-! ### Steps -/

namespace State

omit [Fintype N]

variable [DecidableEq N]

/-- Move `v` to term `T`. -/
def advance (s : State N E) (v : N) (T : ℤ) : State N E :=
  { s with term := Function.update s.term v T }

/-- Record the vote of `v` in its current term. -/
def castVote (s : State N E) (v c : N) : State N E :=
  { s with
    vote := Function.update s.vote v
      (Function.update (s.vote v) (s.term v) (some (c, s.log v))) }

/-- Record that `v` has acknowledged `m` entries of the leader of its current term. -/
def setAck (s : State N E) (v : N) (m : ℕ) : State N E :=
  { s with
    ack := Function.update s.ack v
      (Function.update (s.ack v) (s.term v) (max (s.ack v (s.term v)) m)) }

end State

variable (tm) [DecidableEq N]

/-- The steps of the abstract protocol. -/
inductive Step : State N E → State N E → Prop
  /-- A node learns of a term that is not older than its own. -/
  | advance {s : State N E} (v : N) (T : ℤ) : s.term v ≤ T →
      Step s (s.advance v T)
  /-- A node that has not voted yet votes, for itself or for a candidate whose log is at least
  as up to date. -/
  | vote {s : State N E} (v c : N) : s.vote v (s.term v) = none → s.reign (s.term v) = none →
      (c = v ∨ ∃ lc, s.vote c (s.term v) = some (c, lc) ∧ AtLeast tm lc (s.log v)) →
      Step s (s.castVote v c)
  /-- A node with the votes of a majority becomes the leader of its term. -/
  | elect {s : State N E} (c : N) (lc : List E) (Q : Finset N) : 0 < s.term c →
      s.reign (s.term c) = none → s.vote c (s.term c) = some (c, lc) → Majority Q →
      (∀ v ∈ Q, ∃ l, s.vote v (s.term c) = some (c, l)) →
      Step s (State.setAck
        { s with reign := Function.update s.reign (s.term c) (some ⟨c, s.log c, s.log c⟩) }
        c (s.log c).length)
  /-- The leader of a term appends an entry of that term. -/
  | append {s : State N E} (c : N) (r : Reign N E) (e : E) : s.reign (s.term c) = some r →
      r.leader = c → tm e = s.term c →
      Step s (State.setAck
        { s with
          log := Function.update s.log c (s.log c ++ [e])
          reign := Function.update s.reign (s.term c) (some { r with log := s.log c ++ [e] }) }
        c ((s.log c).length + 1))
  /-- A node accepts the first `m` entries of the leader's log: it has them already, or its log
  is not longer and is replaced. -/
  | accept {s : State N E} (v : N) (r : Reign N E) (m : ℕ) (l : List E) :
      s.reign (s.term v) = some r → m ≤ r.log.length →
      (l = s.log v ∧ r.log.take m <+: s.log v ∨
        r.leader ≠ v ∧ l = r.log.take m ∧ (s.log v).length ≤ m) →
      Step s (State.setAck { s with log := Function.update s.log v l } v m)

end Consensus

end KvRaft
