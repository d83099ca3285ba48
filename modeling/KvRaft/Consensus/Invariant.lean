import KvRaft.Consensus.Protocol

/-!
# Preservation of the protocol invariant

`Inv.step` : every step of the abstract protocol preserves `Inv`; `Inv.grows` : it takes nothing
back.  A step changes one node, so each part of the invariant is carried over by a monotonicity
lemma (`ReignInv.mono`, `VoteInv.mono`, `Inv.holds_mono`) except at that node.
-/

namespace KvRaft

namespace Consensus

variable {N E : Type*} {tm : E → ℤ} {s s' : State N E}

namespace State

variable [DecidableEq N]

theorem advance_term (s : State N E) (v w : N) (T : ℤ) :
    (s.advance v T).term w = if w = v then T else s.term w := by
  simp [advance, Function.update_apply]

theorem castVote_vote (s : State N E) (v c w : N) (T : ℤ) :
    (s.castVote v c).vote w T =
      if w = v ∧ T = s.term v then some (c, s.log v) else s.vote w T := by
  by_cases hw : w = v
  · subst hw
    by_cases hT : T = s.term w
    · subst hT; simp [castVote]
    · simp [castVote, hT]
  · simp [castVote, hw]

theorem setAck_ack (s : State N E) (v w : N) (m : ℕ) (T : ℤ) :
    (s.setAck v m).ack w T =
      if w = v ∧ T = s.term v then max (s.ack v (s.term v)) m else s.ack w T := by
  by_cases hw : w = v
  · subst hw
    by_cases hT : T = s.term w
    · subst hT; simp [setAck]
    · simp [setAck, hT]
  · simp [setAck, hw]

@[simp] theorem advance_log (s : State N E) (v : N) (T : ℤ) : (s.advance v T).log = s.log := rfl
@[simp] theorem advance_vote (s : State N E) (v : N) (T : ℤ) : (s.advance v T).vote = s.vote := rfl
@[simp] theorem advance_reign (s : State N E) (v : N) (T : ℤ) :
    (s.advance v T).reign = s.reign := rfl
@[simp] theorem advance_ack (s : State N E) (v : N) (T : ℤ) : (s.advance v T).ack = s.ack := rfl
@[simp] theorem castVote_term (s : State N E) (v c : N) : (s.castVote v c).term = s.term := rfl
@[simp] theorem castVote_log (s : State N E) (v c : N) : (s.castVote v c).log = s.log := rfl
@[simp] theorem castVote_reign (s : State N E) (v c : N) : (s.castVote v c).reign = s.reign := rfl
@[simp] theorem castVote_ack (s : State N E) (v c : N) : (s.castVote v c).ack = s.ack := rfl
@[simp] theorem setAck_term (s : State N E) (v : N) (m : ℕ) : (s.setAck v m).term = s.term := rfl
@[simp] theorem setAck_log (s : State N E) (v : N) (m : ℕ) : (s.setAck v m).log = s.log := rfl
@[simp] theorem setAck_reign (s : State N E) (v : N) (m : ℕ) :
    (s.setAck v m).reign = s.reign := rfl
@[simp] theorem setAck_vote (s : State N E) (v : N) (m : ℕ) : (s.setAck v m).vote = s.vote := rfl

end State

/-- Acknowledgements of the current term concern no earlier term. -/
theorem setAck_of_lt [DecidableEq N] {v w : N} {m : ℕ} {T B : ℤ} (h : T < B)
    (hB : B ≤ s.term w) : (s.setAck v m).ack w T = s.ack w T := by
  rw [State.setAck_ack, if_neg]
  rintro ⟨rfl, rfl⟩
  omega

variable [Fintype N]

theorem ReignInv.mono {T : ℤ} {r : Reign N E} (h : ReignInv tm s T r) (hg : Grows s s')
    (hlog : s'.term r.leader = T → s'.log r.leader = r.log) : ReignInv tm s' T r where
  pos := h.pos
  base_isPrefix := h.base_isPrefix
  base_lt := h.base_lt
  log_le := h.log_le
  sorted := h.sorted
  coherent := h.coherent.mono hg.lead
  term_le := h.term_le.trans (hg.term _)
  log_eq := hlog
  majority := by
    obtain ⟨Q, hQ, hv⟩ := h.majority
    refine ⟨Q, hQ, fun v hvQ => ?_⟩
    obtain ⟨l, hl, hup⟩ := hv v hvQ
    exact ⟨l, hg.vote _ _ _ hl, hup⟩

theorem VoteInv.mono {v c : N} {T : ℤ} {l : List E} (hi : Inv tm s) (h : VoteInv tm s v T c l)
    (hg : Grows s s') (hterm : s'.term v = T → s.term v = T)
    (hlog : s'.term v = T → s'.reign T = none → s'.log v = s.log v)
    (hack : ∀ T₀, T₀ < T → s'.ack v T₀ = s.ack v T₀) : VoteInv tm s' v T c l where
  term_le := h.term_le.trans (hg.term _)
  coherent := h.coherent.mono hg.lead
  log_lt := h.log_lt
  candidate := by
    obtain ⟨lc, hlc, hup⟩ := h.candidate
    exact ⟨lc, hg.vote _ _ _ hlc, hup⟩
  own hc hT hr := by
    have hr₀ : s.reign T = none := by
      cases hs : s.reign T with
      | none => rfl
      | some r =>
        obtain ⟨r', hr', -⟩ := hg.reign T r hs
        simp [hr] at hr'
    rw [hlog hT hr]
    exact h.own hc (hterm hT) hr₀
  holds := hi.holds_mono hg h.holds le_rfl hack fun _ _ hT => hT

/-- What a node holds after a step of its own in its current term: `hnow` says that it holds
what it has acknowledged of the current leader, `hlog` what became of its old log. -/
theorem Inv.holds_act (hi : Inv tm s) (hg : Grows s s') {v : N} {l : List E}
    (hack : ∀ T, T < s.term v → s'.ack v T = s.ack v T)
    (hnow : ∀ r i, s'.reign (s.term v) = some r → i ≤ s'.ack v (s.term v) →
      r.log.take i <+: l)
    (hlog : ∀ T p, T < s.term v → p <+: s.log v → p <+: l ∨ Lost s' T p (s.term v + 1)) :
    Holds s' v (s.term v + 1) l := by
  intro T r' i hr' hlt hle
  rcases (show T ≤ s.term v by omega).eq_or_lt with rfl | hT
  · exact Or.inl (hnow r' i hr' hle)
  rw [hack T hT] at hle
  have hheld := hi.held_mono hg (hi.holds v) List.prefix_rfl le_rfl hr' (fun _ => hlt) hle
  rcases hheld with hp | hlost
  · exact hlog T _ hT hp
  · exact Or.inr hlost

/-- The first `m` entries of the leader's log hold everything that the leader was elected with,
so what a node loses by taking them over was lost at that election. -/
theorem Inv.prefix_take_or_lost (hi : Inv tm s) {T T₁ : ℤ} {r : Reign N E} {m : ℕ}
    {p : List E} (hr : s.reign T = some r) (hT₁ : T₁ < T) (hp : p.length ≤ m) :
    p <+: r.log.take m ∨ Lost s T₁ p (T + 1) := by
  by_cases hb : p <+: r.base
  · refine Or.inl (List.prefix_take_iff.2 ⟨hb.trans (hi.reign T r hr).base_isPrefix, hp⟩)
  · exact Or.inr ⟨T, r, hT₁, by omega, hr, hb⟩

variable [DecidableEq N]

/-! ### One step -/

/-- **No step takes anything back.** -/
theorem Inv.grows (hi : Inv tm s) (h : Step tm s s') : Grows s s' := by
  have hack : ∀ (s : State N E) v m w T, s.ack w T ≤ (s.setAck v m).ack w T := by
    intro s v m w T
    rw [State.setAck_ack]
    split_ifs with hw
    · obtain ⟨rfl, rfl⟩ := hw
      exact le_max_left _ _
    · exact le_rfl
  cases h with
  | advance v T hT =>
    refine { Grows.refl s with term := fun w => ?_ }
    by_cases hw : w = v
    · subst hw; simpa [State.advance_term] using hT
    · simp [State.advance_term, hw]
  | vote v c hv _ _ =>
    refine { Grows.refl s with vote := fun w T x hx => ?_ }
    rw [State.castVote_vote]
    split_ifs with hw
    · obtain ⟨rfl, rfl⟩ := hw
      simp [hv] at hx
    · exact hx
  | elect c lc Q _ hr _ _ _ =>
    refine ⟨fun _ => le_rfl, fun _ _ _ h => h, fun T r hT => ⟨r, ?_, rfl, rfl, List.prefix_rfl⟩,
      fun w T => hack _ _ _ w T⟩
    have : T ≠ s.term c := by rintro rfl; simp [hr] at hT
    simpa [this] using hT
  | append c r e hr hl _ =>
    refine ⟨fun _ => le_rfl, fun _ _ _ h => h, fun T r' hT => ?_, fun w T => hack _ _ _ w T⟩
    by_cases hTc : T = s.term c
    · subst hTc
      obtain rfl : r = r' := by simpa [hr] using hT
      refine ⟨{ r with log := s.log c ++ [e] }, by simp, rfl, rfl, ?_⟩
      have hlog := (hi.reign _ r hr).log_eq (by rw [hl])
      rw [← hlog, hl]
      exact List.prefix_append _ _
    · exact ⟨r', by simpa [hTc] using hT, rfl, rfl, List.prefix_rfl⟩
  | accept v r m l _ _ _ =>
    exact { Grows.refl s with ack := fun w T => hack _ _ _ w T }

theorem Inv.advance (hi : Inv tm s) {v : N} {T : ℤ} (hT : s.term v ≤ T) :
    Inv tm (s.advance v T) := by
  have hg := hi.grows (Step.advance v T hT)
  refine ⟨fun T' r hr => ?_, fun w T' c l hl => ?_, hi.coherent, fun w e he => ?_,
    fun w T' h0 => ?_, fun w => ?_⟩
  · refine (hi.reign T' r hr).mono hg fun hterm => (hi.reign T' r hr).log_eq ?_
    exact le_antisymm (hterm ▸ hg.term _) (hi.reign T' r hr).term_le
  · have hv := hi.vote w T' c l hl
    exact hv.mono hi hg (fun h => le_antisymm (h ▸ hg.term _) hv.term_le) (fun _ _ => rfl)
      fun _ _ => rfl
  · exact (hi.log_le w e he).trans (hg.term w)
  · obtain ⟨hle, hr⟩ := hi.ack_le w T' h0
    exact ⟨hle.trans (hg.term w), hr⟩
  · have := hg.term w
    refine hi.holds_mono hg (hi.holds w) (by omega) (fun _ _ => rfl) fun T₀ h0 _ => ?_
    have := (hi.ack_le w T₀ h0).1
    omega

theorem Inv.castVote (hi : Inv tm s) {v c : N} (hv : s.vote v (s.term v) = none)
    (hr : s.reign (s.term v) = none)
    (hc : c = v ∨ ∃ lc, s.vote c (s.term v) = some (c, lc) ∧ AtLeast tm lc (s.log v)) :
    Inv tm (s.castVote v c) := by
  have hg := hi.grows (Step.vote v c hv hr hc)
  refine ⟨fun T r h => (hi.reign T r h).mono hg (hi.reign T r h).log_eq,
    fun w T c' l hl => ?_, hi.coherent, hi.log_le, hi.ack_le, fun w => ?_⟩
  · rw [State.castVote_vote] at hl
    split_ifs at hl with hw
    · -- the new vote: the voter's log has no entry of the term yet
      obtain ⟨rfl, rfl⟩ := hw
      obtain ⟨rfl, rfl⟩ : c = c' ∧ s.log w = l := by simpa using hl
      refine ⟨le_rfl, hi.coherent w, fun e he => lt_of_le_of_ne (hi.log_le w e he) ?_, ?_,
        fun _ _ _ => rfl, ?_⟩
      · intro heq
        obtain ⟨L, hL, -⟩ := (hi.coherent w).lead_of_mem he
        obtain ⟨r, hr', -⟩ := State.lead_eq_some.1 hL
        simp [heq, hr] at hr'
      · rcases hc with rfl | ⟨lc, hlc, hup⟩
        · exact ⟨s.log c, by simp [State.castVote_vote], AtLeast.refl _⟩
        · exact ⟨lc, hg.vote _ _ _ hlc, hup⟩
      · intro T r i hT hlt hle
        rcases hi.holds w T r i hT (by omega) hle with hp | ⟨T₁, r₁, h₁, h₂, hr₁, hn⟩
        · exact Or.inl hp
        · have : T₁ ≠ s.term w := by rintro rfl; simp [hr] at hr₁
          exact Or.inr ⟨T₁, r₁, h₁, by omega, hr₁, hn⟩
    · exact (hi.vote w T c' l hl).mono hi hg id (fun _ _ => rfl) fun _ _ => rfl
  · exact hi.holds_mono hg (hi.holds w) le_rfl (fun _ _ => rfl) fun _ _ h => h

theorem Inv.elect (hi : Inv tm s) {c : N} {lc : List E} {Q : Finset N} (hpos : 0 < s.term c)
    (hr : s.reign (s.term c) = none) (hv : s.vote c (s.term c) = some (c, lc))
    (hQ : Majority Q) (hQv : ∀ v ∈ Q, ∃ l, s.vote v (s.term c) = some (c, l)) :
    Inv tm (State.setAck
      { s with reign := Function.update s.reign (s.term c) (some ⟨c, s.log c, s.log c⟩) }
      c (s.log c).length) := by
  have hg := hi.grows (Step.elect c lc Q hpos hr hv hQ hQv)
  have hown := hi.vote _ _ _ _ hv
  have hlc : s.log c = lc := hown.own rfl rfl hr
  refine ⟨fun T r hT => ?_, fun w T c' l hl => ?_, fun w => (hi.coherent w).mono hg.lead,
    hi.log_le, fun w T h0 => ?_, fun w => ?_⟩
  · by_cases hTc : T = s.term c
    · subst hTc
      obtain rfl : (⟨c, s.log c, s.log c⟩ : Reign N E) = r := by simpa using hT
      refine ⟨hpos, List.prefix_rfl, fun e he => hown.log_lt e (hlc ▸ he), hi.log_le c,
        (hi.coherent c).sorted hi.lead_sorted, (hi.coherent c).mono hg.lead, le_rfl,
        fun _ => rfl, Q, hQ, fun v hvQ => ?_⟩
      obtain ⟨l, hl⟩ := hQv v hvQ
      obtain ⟨lc', hlc', hup⟩ := (hi.vote v _ c l hl).candidate
      obtain rfl : lc = lc' := by simpa [hv] using hlc'
      exact ⟨l, hl, hlc ▸ hup⟩
    · have hT' : s.reign T = some r := by simpa [hTc] using hT
      exact (hi.reign T r hT').mono hg (hi.reign T r hT').log_eq
  · have h := hi.vote w T c' l hl
    exact h.mono hi hg id (fun _ _ => rfl) fun T₀ hlt => setAck_of_lt hlt h.term_le
  · rw [State.setAck_ack] at h0 ⊢
    split_ifs at h0 ⊢ with hw
    · obtain ⟨rfl, rfl⟩ := hw
      exact ⟨le_rfl, ⟨w, s.log w, s.log w⟩, by simp, by simp [hi.ack_eq_zero_of_reign hr]⟩
    · obtain ⟨hle, r, hT, hlen⟩ := hi.ack_le w T h0
      have hTc : T ≠ s.term c := by rintro rfl; simp [hr] at hT
      exact ⟨hle, r, by simpa [hTc] using hT, hlen⟩
  · by_cases hw : w = c
    · subst hw
      refine hi.holds_act hg (fun T hT => setAck_of_lt hT le_rfl) (fun r i hT _ => ?_)
        fun T p _ hp => Or.inl hp
      obtain rfl : (⟨w, s.log w, s.log w⟩ : Reign N E) = r := by simpa using hT
      exact List.take_prefix _ _
    · refine hi.holds_mono hg (hi.holds w) le_rfl (fun T _ => ?_) fun _ _ h => h
      rw [State.setAck_ack, if_neg fun h => hw h.1]

theorem Inv.append (hi : Inv tm s) {c : N} {r : Reign N E} {e : E}
    (hr : s.reign (s.term c) = some r) (hl : r.leader = c) (he : tm e = s.term c) :
    Inv tm (State.setAck
      { s with
        log := Function.update s.log c (s.log c ++ [e])
        reign := Function.update s.reign (s.term c) (some { r with log := s.log c ++ [e] }) }
      c ((s.log c).length + 1)) := by
  have hg := hi.grows (Step.append c r e hr hl he)
  have hrc := hi.reign _ r hr
  have hlog : r.log = s.log c := by rw [← hrc.log_eq (by rw [hl]), hl]
  have hcoh : Coherent tm (State.lead (State.setAck
      { s with
        log := Function.update s.log c (s.log c ++ [e])
        reign := Function.update s.reign (s.term c) (some { r with log := s.log c ++ [e] }) }
      c ((s.log c).length + 1))) (s.log c ++ [e]) :=
    ((hi.coherent c).mono hg.lead).concat ⟨_, by simp [State.lead, he], List.prefix_rfl⟩
  refine ⟨fun T r' hT => ?_, fun w T c' l hv => ?_, fun w => ?_, fun w x hx => ?_,
    fun w T h0 => ?_, fun w => ?_⟩
  · by_cases hTc : T = s.term c
    · subst hTc
      obtain rfl : { r with log := s.log c ++ [e] } = r' := by simpa using hT
      refine ⟨hrc.pos, hlog ▸ hrc.base_isPrefix.trans (List.prefix_append _ _), hrc.base_lt,
        fun x hx => ?_, ?_, hcoh, hrc.term_le, fun _ => by simp [hl], ?_⟩
      · rcases List.mem_append.1 hx with hx | hx
        · exact hrc.log_le x (hlog ▸ hx)
        · obtain rfl := List.mem_singleton.1 hx
          exact he.le
      · exact Sorted.concat (hlog ▸ hrc.sorted) fun x hx => he ▸ hrc.log_le x (hlog ▸ hx)
      · exact hrc.majority
    · have hT' : s.reign T = some r' := by simpa [hTc] using hT
      have h := hi.reign T r' hT'
      refine h.mono hg fun hterm => ?_
      have : r'.leader ≠ c := fun heq => hTc (by rw [← hterm, heq]; rfl)
      simpa [this] using h.log_eq hterm
  · have h := hi.vote w T c' l hv
    refine h.mono hi hg id (fun hT hn => ?_) fun T₀ hlt => setAck_of_lt hlt h.term_le
    have : w ≠ c := by rintro rfl; subst hT; simp at hn
    simp [this]
  · by_cases hw : w = c
    · subst hw; simpa using hcoh
    · simpa [hw] using (hi.coherent w).mono hg.lead
  · by_cases hw : w = c
    · subst hw
      simp only [State.setAck_log, Function.update_self, List.mem_append,
        List.mem_singleton] at hx
      rcases hx with hx | rfl
      · exact hi.log_le w x hx
      · exact he.le
    · exact hi.log_le w x (by simpa [hw] using hx)
  · rw [State.setAck_ack] at h0 ⊢
    split_ifs at h0 ⊢ with hw
    · obtain ⟨rfl, rfl⟩ := hw
      refine ⟨le_rfl, { r with log := s.log w ++ [e] }, by simp, ?_⟩
      have := hi.ack_le_length hr w
      simp [← hlog]
      omega
    · obtain ⟨hle, r₁, hr₁, hlen⟩ := hi.ack_le w T h0
      obtain ⟨r₂, hr₂, -, -, hp⟩ := hg.reign T r₁ hr₁
      exact ⟨hle, r₂, hr₂, hlen.trans hp.length_le⟩
  · by_cases hw : w = c
    · subst hw
      refine hi.holds_act hg (fun T hT => setAck_of_lt hT le_rfl) (fun r' i hT _ => ?_)
        fun T p _ hp => Or.inl ?_
      · obtain rfl : { r with log := s.log w ++ [e] } = r' := by simpa using hT
        simpa using List.take_prefix i (s.log w ++ [e])
      · simpa using hp.trans (List.prefix_append _ _)
    · have := hi.holds_mono hg (hi.holds w) le_rfl (fun T _ => by
        rw [State.setAck_ack, if_neg fun h => hw h.1]) fun _ _ h => h
      simpa [hw] using this

theorem Inv.accept (hi : Inv tm s) {v : N} {r : Reign N E} {m : ℕ} {l : List E}
    (hr : s.reign (s.term v) = some r) (hm : m ≤ r.log.length)
    (hl : l = s.log v ∧ r.log.take m <+: s.log v ∨
      r.leader ≠ v ∧ l = r.log.take m ∧ (s.log v).length ≤ m) :
    Inv tm (State.setAck { s with log := Function.update s.log v l } v m) := by
  have hg := hi.grows (Step.accept v r m l hr hm hl)
  have hrv := hi.reign _ r hr
  have hml : r.log.take m <+: l := by
    rcases hl with ⟨rfl, hp⟩ | ⟨-, rfl, -⟩
    · exact hp
    · exact List.prefix_rfl
  refine ⟨fun T r' hT => ?_, fun w T c l' hv => ?_, fun w => ?_, fun w x hx => ?_,
    fun w T h0 => ?_, fun w => ?_⟩
  · refine (hi.reign T r' hT).mono hg fun hterm => ?_
    have h := (hi.reign T r' hT).log_eq hterm
    by_cases hw : r'.leader = v
    · -- the leader of the term keeps its own log
      have hT' : T = s.term v := by rw [← hw]; exact hterm.symm
      subst hT'
      obtain rfl : r = r' := by simpa [hr] using hT
      rcases hl with ⟨rfl, -⟩ | ⟨hne, -⟩
      · simpa using h
      · exact absurd hw hne
    · simpa [hw] using h
  · have h := hi.vote w T c l' hv
    refine h.mono hi hg id (fun hT hn => ?_) fun T₀ hlt => setAck_of_lt hlt h.term_le
    have : w ≠ v := by
      rintro rfl
      subst hT
      simp [hr] at hn
    simp [this]
  · by_cases hw : w = v
    · subst hw
      have hc : Coherent tm s.lead l := by
        rcases hl with ⟨rfl, -⟩ | ⟨-, rfl, -⟩
        · exact hi.coherent w
        · exact hrv.coherent.of_isPrefix <| List.take_prefix _ _
      simpa using hc.mono hg.lead
    · simpa [hw] using (hi.coherent w).mono hg.lead
  · by_cases hw : w = v
    · subst hw
      rcases hl with ⟨rfl, -⟩ | ⟨-, rfl, -⟩
      · exact hi.log_le w x (by simpa using hx)
      · exact hrv.log_le x (List.mem_of_mem_take (by simpa using hx))
    · exact hi.log_le w x (by simpa [hw] using hx)
  · rw [State.setAck_ack] at h0 ⊢
    split_ifs at h0 ⊢ with hw
    · obtain ⟨rfl, rfl⟩ := hw
      exact ⟨le_rfl, r, hr, max_le (hi.ack_le_length hr w) hm⟩
    · exact hi.ack_le w T h0
  · by_cases hw : w = v
    · subst hw
      simp only [State.setAck_log, Function.update_self]
      refine hi.holds_act hg (fun T hT => setAck_of_lt hT le_rfl) (fun r' i hT hle => ?_)
        fun T p hT hp => ?_
      · obtain rfl : r = r' := by simpa [hr] using hT
        rw [State.setAck_ack, if_pos ⟨rfl, rfl⟩] at hle
        rcases le_max_iff.1 hle with hle | hle
        · -- acknowledged before: the old log held it
          have hold : r.log.take i <+: s.log w := by
            rcases hi.holds w _ r i hr (by omega) hle with hp | ⟨T₁, _, h₁, h₂, -⟩
            · exact hp
            · omega
          rcases hl with ⟨rfl, -⟩ | ⟨-, rfl, hlen⟩
          · exact hold
          · have := hold.length_le
            refine List.prefix_take_iff.2 ⟨?_, by omega⟩
            exact List.take_prefix _ _
        · exact (List.take_prefix_take_left hle).trans hml
      · rcases hl with ⟨rfl, -⟩ | ⟨-, rfl, hlen⟩
        · exact Or.inl hp
        · rcases hi.prefix_take_or_lost hr hT (hp.length_le.trans hlen) with h | h
          · exact Or.inl h
          · exact Or.inr (h.mono hg le_rfl)
    · have := hi.holds_mono hg (hi.holds w) le_rfl (fun T _ => by
        rw [State.setAck_ack, if_neg fun h => hw h.1]) fun _ _ h => h
      simpa [hw] using this

/-- **The invariant is inductive.** -/
theorem Inv.step (hi : Inv tm s) (h : Step tm s s') : Inv tm s' := by
  cases h with
  | advance v T hT => exact hi.advance hT
  | vote v c hv hr hc => exact hi.castVote hv hr hc
  | elect c lc Q hpos hr hv hQ hQv => exact hi.elect hpos hr hv hQ hQv
  | append c r e hr hl he => exact hi.append hr hl he
  | accept v r m l hr hm hl => exact hi.accept hr hm hl

end Consensus

end KvRaft
