import KvRaft.Raft.Node

/-!
# What the handlers do

One lemma for each handler of `Raft`, saying everything that the proofs use of it:

* `Raft.Keeps` : what all sections do to the term, the vote and the role, except for winning an
  election.
* `Raft.requestVote_cases`, `Raft.sendRequestVote_cases`, `Raft.appendEntries1_cases`,
  `Raft.sendAppendEntries_cases` : the outcomes of the handlers.
* `Raft.Contiguous` : entries carry consecutive indices from the snapshot point on.
* `Raft.foldlM_mergeEntry` : the loop of `appendEntries1` writes the entries of the request over
  the log, and keeps what is behind them.
-/

namespace KvRaft

/-- A sequence of fallible operations succeeds when all of them do. -/
@[simp] theorem bind_eq_ok {ε α β : Type} {x : Except ε α} {f : α → Except ε β} {b : β} :
    (x >>= f) = .ok b ↔ ∃ a, x = .ok a ∧ f a = .ok b := by
  cases x <;> simp [bind, Except.bind]

@[simp] theorem map_eq_ok {ε α β : Type} {x : Except ε α} {f : α → β} {b : β} :
    (f <$> x) = .ok b ↔ ∃ a, x = .ok a ∧ f a = b := by
  cases x <;> simp [Functor.map, Except.map]

@[simp] theorem pure_eq_ok {ε α : Type} {a b : α} : (pure a : Except ε α) = .ok b ↔ a = b := by
  simp [pure, Except.pure]

@[simp] theorem myAssert_eq_ok {p : Prop} [Decidable p] {f : Fault} {u : Unit} :
    myAssert p f = .ok u ↔ p := by
  unfold myAssert
  split_ifs <;> simp_all

/-- The results of a successful `mapM` belong to the arguments one by one. -/
theorem forall₂_of_mapM {ε α β : Type} {f : α → Except ε β} :
    ∀ {l : List α} {l' : List β}, l.mapM f = .ok l' → List.Forall₂ (fun a b => f a = .ok b) l l'
  | [], l', h => by
    obtain rfl : [] = l' := by simpa [pure_eq_ok] using h
    exact .nil
  | a :: l, l', h => by
    rw [List.mapM_cons, bind_eq_ok] at h
    obtain ⟨b, hb, h⟩ := h
    obtain ⟨bs, hbs, h⟩ := bind_eq_ok.1 h
    obtain rfl := pure_eq_ok.1 h
    exact .cons hb (forall₂_of_mapM hbs)

theorem exists_of_forall₂ {α β : Type} {R : α → β → Prop} {l : List α} {l' : List β}
    (h : List.Forall₂ R l l') {b : β} (hb : b ∈ l') : ∃ a ∈ l, R a b := by
  induction h with
  | nil => cases hb
  | @cons a b' l l' hab _ ih =>
    rcases List.mem_cons.1 hb with rfl | hb
    · exact ⟨a, List.mem_cons_self, hab⟩
    · obtain ⟨a', ha', hR⟩ := ih hb
      exact ⟨a', List.mem_cons_of_mem _ ha', hR⟩

theorem map_eq_of_forall₂ {α β γ : Type} {f : β → γ} {g : α → γ} {l : List α} {l' : List β}
    (h : List.Forall₂ (fun a b => f b = g a) l l') : l'.map f = l.map g := by
  induction h with
  | nil => rfl
  | cons hab _ ih => rw [List.map_cons, List.map_cons, hab, ih]

namespace Raft

variable {n : ℕ} {C D : Type} {rf rf' : Raft n C D}

@[simp] theorem persist_getLastLogIndexAndTerm (rf : Raft n C D) :
    rf.persist.getLastLogIndexAndTerm = rf.getLastLogIndexAndTerm := rfl

@[simp] theorem persist_getLastLogIndex (rf : Raft n C D) :
    rf.persist.getLastLogIndex = rf.getLastLogIndex := rfl

/-! ### Term, vote and role -/

/-- What every section keeps: terms grow, and a vote is not changed within its term. -/
structure KeepsVote (rf rf' : Raft n C D) : Prop where
  me : rf'.me = rf.me
  term_le : rf.currentTerm ≤ rf'.currentTerm
  vote : rf'.currentTerm = rf.currentTerm → rf.votedFor ≠ none → rf'.votedFor = rf.votedFor

/-- What a section keeps that does not win an election: moreover nobody becomes leader. -/
structure Keeps (rf rf' : Raft n C D) : Prop extends KeepsVote rf rf' where
  leader : rf'.status = .leader → rf.status = .leader ∧ rf'.currentTerm = rf.currentTerm

theorem Keeps.refl (rf : Raft n C D) : rf.Keeps rf :=
  ⟨⟨rfl, le_rfl, fun _ _ => rfl⟩, fun h => ⟨h, rfl⟩⟩

theorem Keeps.trans {rf₁ rf₂ : Raft n C D} (h : rf.Keeps rf₁) (h' : rf₁.Keeps rf₂) :
    rf.Keeps rf₂ where
  me := h'.me.trans h.me
  term_le := h.term_le.trans h'.term_le
  vote ht hv := by
    have h₁ : rf₁.currentTerm = rf.currentTerm := le_antisymm (ht ▸ h'.term_le) h.term_le
    rw [h'.vote (ht.trans h₁.symm) (by rwa [h.vote h₁ hv]), h.vote h₁ hv]
  leader hl := by
    obtain ⟨hl₁, ht₁⟩ := h'.leader hl
    obtain ⟨hl₀, ht₀⟩ := h.leader hl₁
    exact ⟨hl₀, ht₁.trans ht₀⟩

/-- No vote is cast: a vote that is there afterwards was there before, in the same term. -/
def Abstains (rf rf' : Raft n C D) : Prop :=
  rf'.votedFor ≠ none → rf'.currentTerm = rf.currentTerm ∧ rf'.votedFor = rf.votedFor

theorem Abstains.of_eq (ht : rf'.currentTerm = rf.currentTerm) (hv : rf'.votedFor = rf.votedFor) :
    rf.Abstains rf' := fun _ => ⟨ht, hv⟩

theorem Abstains.congr (h : rf.Abstains rf₁) (ht : rf'.currentTerm = rf₁.currentTerm)
    (hv : rf'.votedFor = rf₁.votedFor) : rf.Abstains rf' := by
  intro hne
  rw [ht, hv]
  exact h (by rwa [← hv])

/-- Sections that touch neither term, nor vote, nor role. -/
theorem Keeps.of_eq (hme : rf'.me = rf.me) (ht : rf'.currentTerm = rf.currentTerm)
    (hv : rf'.votedFor = rf.votedFor) (hs : rf'.status = rf.status) : rf.Keeps rf' :=
  ⟨⟨hme, ht.ge, fun _ _ => hv⟩, fun h => ⟨hs ▸ h, ht⟩⟩

theorem keeps_stepDown {T : ℤ} (h : rf.currentTerm < T) : rf.Keeps (rf.stepDown T) where
  me := rfl
  term_le := h.le
  vote ht _ := absurd ht h.ne'
  leader h := by cases h

theorem keeps_meetTerm (rf : Raft n C D) (T : ℤ) : rf.Keeps (rf.meetTerm T) := by
  unfold meetTerm
  split_ifs with h
  · exact keeps_stepDown h
  · exact .refl rf

theorem keeps_persist (rf : Raft n C D) : rf.Keeps rf.persist := .of_eq rfl rfl rfl rfl

theorem meetTerm_currentTerm {T : ℤ} (h : rf.currentTerm ≤ T) :
    (rf.meetTerm T).currentTerm = T := by
  unfold meetTerm
  split_ifs with hT
  · rfl
  · omega

theorem abstains_stepDown (rf : Raft n C D) (T : ℤ) : rf.Abstains (rf.stepDown T) :=
  fun h => absurd rfl h

theorem abstains_meetTerm (rf : Raft n C D) (T : ℤ) : rf.Abstains (rf.meetTerm T) := by
  unfold meetTerm
  split_ifs
  · exact abstains_stepDown rf T
  · exact .of_eq rfl rfl

/-- The log and the snapshot point stay the same. -/
structure SameEntries (rf rf' : Raft n C D) : Prop where
  logs : rf'.logs = rf.logs
  lastSnapshotIncludeIndex : rf'.lastSnapshotIncludeIndex = rf.lastSnapshotIncludeIndex
  lastSnapshotIncludeTerm : rf'.lastSnapshotIncludeTerm = rf.lastSnapshotIncludeTerm

theorem SameEntries.trans {rf₁ rf₂ : Raft n C D} (h : rf.SameEntries rf₁)
    (h' : rf₁.SameEntries rf₂) : rf.SameEntries rf₂ where
  logs := h'.logs.trans h.logs
  lastSnapshotIncludeIndex := h'.lastSnapshotIncludeIndex.trans h.lastSnapshotIncludeIndex
  lastSnapshotIncludeTerm := h'.lastSnapshotIncludeTerm.trans h.lastSnapshotIncludeTerm

/-- Everything but term, vote, role and persister stays the same. -/
structure SameLog (rf rf' : Raft n C D) : Prop extends SameEntries rf rf' where
  me : rf'.me = rf.me
  commitIndex : rf'.commitIndex = rf.commitIndex
  lastApplied : rf'.lastApplied = rf.lastApplied

theorem SameLog.refl (rf : Raft n C D) : rf.SameLog rf := ⟨⟨rfl, rfl, rfl⟩, rfl, rfl, rfl⟩

theorem SameLog.trans {rf₁ rf₂ : Raft n C D} (h : rf.SameLog rf₁) (h' : rf₁.SameLog rf₂) :
    rf.SameLog rf₂ where
  toSameEntries := h.toSameEntries.trans h'.toSameEntries
  me := h'.me.trans h.me
  commitIndex := h'.commitIndex.trans h.commitIndex
  lastApplied := h'.lastApplied.trans h.lastApplied

theorem sameLog_stepDown (rf : Raft n C D) (T : ℤ) : rf.SameLog (rf.stepDown T) :=
  ⟨⟨rfl, rfl, rfl⟩, rfl, rfl, rfl⟩

theorem sameLog_persist (rf : Raft n C D) : rf.SameLog rf.persist :=
  ⟨⟨rfl, rfl, rfl⟩, rfl, rfl, rfl⟩

theorem sameLog_meetTerm (rf : Raft n C D) (T : ℤ) : rf.SameLog (rf.meetTerm T) := by
  unfold meetTerm
  split_ifs
  · exact sameLog_stepDown rf T
  · exact .refl rf

theorem SameEntries.getLastLogIndexAndTerm (h : rf.SameEntries rf') :
    rf'.getLastLogIndexAndTerm = rf.getLastLogIndexAndTerm := by
  simp only [Raft.getLastLogIndexAndTerm, h.logs, h.lastSnapshotIncludeIndex,
    h.lastSnapshotIncludeTerm]

theorem SameEntries.getLastLogIndex (h : rf.SameEntries rf') :
    rf'.getLastLogIndex = rf.getLastLogIndex := congrArg Prod.fst h.getLastLogIndexAndTerm

theorem SameEntries.logOf (h : rf.SameEntries rf') (i : ℤ) : rf'.logOf i = rf.logOf i := by
  simp only [Raft.logOf, logAt, getSlicesIndexFromLogIndex, h.getLastLogIndex,
    h.lastSnapshotIncludeIndex, h.logs]

theorem SameEntries.getLogTermFromLogIndex (h : rf.SameEntries rf') (i : ℤ) :
    rf'.getLogTermFromLogIndex i = rf.getLogTermFromLogIndex i := by
  simp only [Raft.getLogTermFromLogIndex, h.getLastLogIndex, h.lastSnapshotIncludeIndex,
    h.lastSnapshotIncludeTerm, h.logOf]

theorem SameEntries.matchLog (h : rf.SameEntries rf') (i t : ℤ) :
    rf'.matchLog i t = rf.matchLog i t := by
  simp only [Raft.matchLog, h.getLastLogIndex, h.lastSnapshotIncludeIndex,
    h.getLogTermFromLogIndex]

theorem SameLog.upToDate (h : rf.SameLog rf') (index term : ℤ) :
    rf'.upToDate index term = rf.upToDate index term := by
  unfold Raft.upToDate Raft.getLastLogTerm Raft.getLastLogIndex
  rw [h.getLastLogIndexAndTerm]

/-! ### Elections -/

theorem doElection_eq {calls : List (Fin n × RequestVoteArgs n)}
    (h : rf.doElection = some (rf', calls)) :
    rf.SameLog rf' ∧ rf.Keeps rf' ∧ rf'.currentTerm = rf.currentTerm + 1 ∧
      rf'.votedFor = some rf.me ∧ calls = (peers rf.me).map fun i =>
        (i, ⟨rf.currentTerm + 1, rf.me, rf.getLastLogIndex, rf.getLastLogTerm⟩) := by
  unfold doElection at h
  split_ifs at h with hs
  obtain ⟨rfl, rfl⟩ := Prod.mk.inj (Option.some.inj h)
  refine ⟨⟨⟨rfl, rfl, rfl⟩, rfl, rfl, rfl⟩, ⟨⟨rfl, ?_, fun ht => ?_⟩, fun hl => by cases hl⟩,
    rfl, rfl, rfl⟩
  · exact (Int.lt_succ _).le
  · exact absurd ht (Int.lt_succ _).ne'

/-- `requestVote` moves to the term of a request that is not older and answers with it.  A vote
is granted to a candidate whose log is up to date, when no other has it. -/
theorem requestVote_cases {args : RequestVoteArgs n} {reply : RequestVoteReply}
    (h : rf.requestVote args = .ok (rf', reply)) :
    rf.SameLog rf' ∧ rf.Keeps rf' ∧
      (reply.votegranted = true → reply.term = args.term ∧ rf'.currentTerm = args.term ∧
        rf'.votedFor = some args.candidateid ∧
        rf.upToDate args.lastlogindex args.lastlogterm = true) ∧
      (reply.votegranted = false → rf.Abstains rf') := by
  unfold requestVote at h
  split_ifs at h with hlt
  · obtain ⟨rfl, rfl⟩ := Prod.mk.inj (pure_eq_ok.1 h)
    exact ⟨sameLog_persist rf, keeps_persist rf, by simp, fun _ => .of_eq rfl rfl⟩
  have hsame := (sameLog_meetTerm rf args.term).trans (sameLog_persist _)
  have hkeep := (keeps_meetTerm rf args.term).trans (keeps_persist _)
  obtain ⟨_, hterm, h⟩ := bind_eq_ok.1 h
  have hterm := myAssert_eq_ok.1 hterm
  split_ifs at h with hu hv <;> obtain ⟨rfl, rfl⟩ := Prod.mk.inj (pure_eq_ok.1 h)
  · exact ⟨hsame, hkeep, by simp, fun _ => abstains_meetTerm rf args.term⟩
  · refine ⟨hsame.trans ⟨⟨rfl, rfl, rfl⟩, rfl, rfl, rfl⟩,
      (keeps_meetTerm rf args.term).trans ⟨⟨rfl, le_rfl, fun _ hne => ?_⟩, fun h => ⟨h, rfl⟩⟩,
      fun _ => ⟨hterm.symm, hterm.symm, rfl, ?_⟩, by simp⟩
    · -- the vote that is there is for this candidate
      by_contra hother
      exact hv ⟨hne, fun he => hother (by simp [persist, he])⟩
    · rw [← (sameLog_meetTerm rf args.term).upToDate]
      simpa using hu
  · exact ⟨hsame, hkeep, by simp, fun _ => abstains_meetTerm rf args.term⟩

/-- Processing a vote reply: an older or negative reply changes at most the term, a positive
one of the current term is counted, and the last one that is missing makes a leader. -/
theorem sendRequestVote_cases {votedNum num : ℕ} {reply : RequestVoteReply} {elected : Bool}
    (h : rf.sendRequestVote votedNum reply = .ok (rf', num, elected)) :
    rf.SameLog rf' ∧
      ((elected = false ∧ rf.Keeps rf' ∧ num ≤ votedNum + 1 ∧
          (num ≠ votedNum → reply.votegranted = true) ∧ rf.Abstains rf') ∨
        (elected = true ∧ num = 0 ∧ n / 2 + 1 ≤ votedNum + 1 ∧ reply.votegranted = true ∧
          reply.term = rf.currentTerm ∧ rf'.status = .leader ∧
          rf'.currentTerm = rf.currentTerm ∧ rf'.votedFor = rf.votedFor)) := by
  by_cases hgt : reply.term > rf.currentTerm
  · obtain ⟨rfl, rfl, rfl⟩ : _ ∧ _ ∧ _ := by
      simpa [sendRequestVote, hgt] using h
    exact ⟨(sameLog_stepDown rf _).trans (sameLog_persist _), Or.inl ⟨rfl,
      (keeps_stepDown hgt).trans (keeps_persist _), by omega, by simp,
      abstains_stepDown rf _⟩⟩
  by_cases hlt : reply.term < rf.currentTerm
  · obtain ⟨rfl, rfl, rfl⟩ : _ ∧ _ ∧ _ := by
      simpa [sendRequestVote, hgt, hlt] using h
    exact ⟨.refl rf, Or.inl ⟨rfl, .refl rf, by omega, by simp, .of_eq rfl rfl⟩⟩
  have hterm : reply.term = rf.currentTerm := by omega
  by_cases hg : reply.votegranted = true
  swap
  · obtain ⟨-, rfl, rfl, rfl⟩ : _ ∧ _ ∧ _ ∧ _ := by
      simpa [sendRequestVote, hgt, hlt, hg] using h
    exact ⟨.refl rf, Or.inl ⟨rfl, .refl rf, by omega, by simp, .of_eq rfl rfl⟩⟩
  by_cases hnum : votedNum + 1 ≥ n / 2 + 1
  · obtain ⟨-, -, rfl, rfl, rfl⟩ : _ ∧ _ ∧ _ ∧ _ ∧ _ := by
      simpa [sendRequestVote, hgt, hlt, hg, hnum] using h
    exact ⟨⟨⟨rfl, rfl, rfl⟩, rfl, rfl, rfl⟩, Or.inr ⟨rfl, rfl, hnum, hg, hterm, rfl, rfl, rfl⟩⟩
  · obtain ⟨-, rfl, rfl, rfl⟩ : _ ∧ _ ∧ _ ∧ _ := by
      simpa [sendRequestVote, hgt, hlt, hg, hnum] using h
    exact ⟨.refl rf, Or.inl ⟨rfl, .refl rf, le_rfl, fun _ => hg, .of_eq rfl rfl⟩⟩

/-- What fails when a node finds itself elected twice. -/
theorem sendRequestVote_electedTwice {votedNum : ℕ} {reply : RequestVoteReply}
    (h : rf.sendRequestVote votedNum reply = .error .electedTwice) :
    reply.votegranted = true ∧ reply.term = rf.currentTerm ∧ n / 2 + 1 ≤ votedNum + 1 ∧
      rf.status = .leader := by
  unfold sendRequestVote at h
  by_cases hgt : reply.term > rf.currentTerm
  · simp [hgt, pure, Except.pure] at h
  by_cases hlt : reply.term < rf.currentTerm
  · simp [hgt, hlt, pure, Except.pure] at h
  have hterm : reply.term = rf.currentTerm := by omega
  by_cases hg : reply.votegranted = true
  swap
  · simp [hterm, hg, pure, Except.pure, myAssert, bind, Except.bind] at h
  by_cases hnum : votedNum + 1 ≥ n / 2 + 1
  swap
  · simp [hterm, hg, hnum, pure, Except.pure, myAssert, bind, Except.bind] at h
  refine ⟨hg, hterm, hnum, ?_⟩
  by_contra hs
  simp [hterm, hg, hnum, hs, pure, Except.pure, myAssert, bind, Except.bind] at h

/-! ### Log access -/

/-- The entries of `l` carry consecutive indices, the first one `base + 1`. -/
def ContiguousFrom (base : ℤ) (l : List (LogEntry C)) : Prop :=
  ∀ (k : ℕ) (e : LogEntry C), l[k]? = some e → e.logindex = base + 1 + k

/-- The log starts right behind the snapshot point and has no gaps. -/
def Contiguous (rf : Raft n C D) : Prop := ContiguousFrom rf.lastSnapshotIncludeIndex rf.logs

theorem ContiguousFrom.nil (base : ℤ) : ContiguousFrom base ([] : List (LogEntry C)) := by
  intro k e he
  simp at he

theorem ContiguousFrom.singleton {base : ℤ} {e : LogEntry C} (h : e.logindex = base + 1) :
    ContiguousFrom base [e] := by
  intro k x hk
  cases k with
  | zero =>
    obtain rfl : e = x := by simpa using hk
    omega
  | succ k => simp at hk

theorem ContiguousFrom.append {base : ℤ} {l l' : List (LogEntry C)} (h : ContiguousFrom base l)
    (h' : ContiguousFrom (base + l.length) l') : ContiguousFrom base (l ++ l') := by
  intro k e he
  rcases lt_or_ge k l.length with hk | hk
  · rw [List.getElem?_append_left hk] at he
    exact h k e he
  · rw [List.getElem?_append_right hk] at he
    have := h' _ e he
    omega

theorem ContiguousFrom.take {base : ℤ} {l : List (LogEntry C)} (h : ContiguousFrom base l)
    (m : ℕ) : ContiguousFrom base (l.take m) := by
  intro k e he
  refine h k e ?_
  rw [List.getElem?_take] at he
  split_ifs at he
  exact he

theorem ContiguousFrom.drop {base : ℤ} {l : List (LogEntry C)} (h : ContiguousFrom base l)
    (m : ℕ) : ContiguousFrom (base + m) (l.drop m) := by
  intro k e he
  rw [List.getElem?_drop] at he
  have := h _ e he
  omega

theorem ContiguousFrom.tail {base : ℤ} {e : LogEntry C} {l : List (LogEntry C)}
    (h : ContiguousFrom base (e :: l)) : e.logindex = base + 1 ∧ ContiguousFrom (base + 1) l := by
  have h₀ := h 0 e rfl
  exact ⟨by simpa using h₀, by simpa using h.drop 1⟩

/-- On a log without gaps the last index counts the entries. -/
theorem Contiguous.getLastLogIndex (h : rf.Contiguous) :
    rf.getLastLogIndex = rf.lastSnapshotIncludeIndex + rf.logs.length := by
  unfold Raft.getLastLogIndex getLastLogIndexAndTerm
  rcases List.eq_nil_or_concat rf.logs with hnil | ⟨l, e, hl⟩
  · simp [hnil]
  · have := h l.length e (by simp [hl])
    simp [hl, this]
    omega

theorem logAt_eq_ok {slice : ℕ} {e : LogEntry C} :
    rf.logAt slice = .ok e ↔ rf.logs[slice]? = some e := by
  unfold logAt
  cases rf.logs[slice]? <;> simp

theorem getSlicesIndexFromLogIndex_eq_ok {i : ℤ} {slice : ℕ} :
    rf.getSlicesIndexFromLogIndex i = .ok slice ↔
      rf.lastSnapshotIncludeIndex < i ∧ i ≤ rf.getLastLogIndex ∧
        (i - rf.lastSnapshotIncludeIndex - 1).toNat = slice := by
  simp [getSlicesIndexFromLogIndex]

theorem logOf_eq_ok {i : ℤ} {e : LogEntry C} :
    rf.logOf i = .ok e ↔ rf.lastSnapshotIncludeIndex < i ∧ i ≤ rf.getLastLogIndex ∧
      rf.logs[(i - rf.lastSnapshotIncludeIndex - 1).toNat]? = some e := by
  simp only [logOf, bind_eq_ok, getSlicesIndexFromLogIndex_eq_ok, logAt_eq_ok]
  constructor
  · rintro ⟨_, ⟨h₁, h₂, rfl⟩, h⟩
    exact ⟨h₁, h₂, h⟩
  · rintro ⟨h₁, h₂, h⟩
    exact ⟨_, ⟨h₁, h₂, rfl⟩, h⟩

theorem getLogTermFromLogIndex_eq_ok {i t : ℤ} :
    rf.getLogTermFromLogIndex i = .ok t ↔
      rf.lastSnapshotIncludeIndex ≤ i ∧ i ≤ rf.getLastLogIndex ∧
        (i = rf.lastSnapshotIncludeIndex ∧ rf.lastSnapshotIncludeTerm = t ∨
          i ≠ rf.lastSnapshotIncludeIndex ∧ ∃ e, rf.logOf i = .ok e ∧ e.logterm = t) := by
  by_cases hi : i = rf.lastSnapshotIncludeIndex <;> simp [getLogTermFromLogIndex, hi]

theorem matchLog_eq_ok {i t : ℤ} {b : Bool} :
    rf.matchLog i t = .ok b ↔ rf.lastSnapshotIncludeIndex ≤ i ∧ i ≤ rf.getLastLogIndex ∧
      ∃ t', rf.getLogTermFromLogIndex i = .ok t' ∧ decide (t = t') = b := by
  simp [matchLog, and_assoc]

/-! ### Merging entries -/

section Splice

variable {α : Type} {l : List α} {p : ℕ}

theorem take_splice (hp : p ≤ l.length) (e : α) :
    (l.take p ++ e :: l.drop (p + 1)).take (p + 1) = l.take p ++ [e] := by
  rw [List.take_append, List.length_take_of_le hp, List.take_of_length_le (by simp)]
  simp

theorem drop_splice (hp : p ≤ l.length) (e : α) (m : ℕ) :
    (l.take p ++ e :: l.drop (p + 1)).drop (p + 1 + m) = l.drop (p + (m + 1)) := by
  rw [List.drop_append, List.length_take_of_le hp, List.drop_of_length_le (by simp; omega),
    List.nil_append, show p + 1 + m - p = m + 1 by omega, List.drop_succ_cons, List.drop_drop]
  congr 1
  omega

theorem getElem?_splice (hp : p ≤ l.length) (e : α) (m : ℕ) :
    (l.take p ++ e :: l.drop (p + 1))[p + 1 + m]? = l[p + (m + 1)]? := by
  have := congrArg (fun l => l[0]?) (drop_splice hp e m)
  simpa only [List.getElem?_drop, Nat.add_zero] using this

end Splice

/-- Writing an entry at its index leaves no gaps. -/
theorem ContiguousFrom.splice {base : ℤ} {l : List (LogEntry C)} {log : LogEntry C} {p : ℕ}
    (h : ContiguousFrom base l) (hp : p ≤ l.length) (hlog : log.logindex = base + p + 1) :
    ContiguousFrom base (l.take p ++ log :: l.drop (p + 1)) := by
  refine (h.take p).append fun k e hk => ?_
  rw [List.length_take_of_le hp]
  cases k with
  | zero =>
    obtain rfl : log = e := by simpa using hk
    simpa using by omega
  | succ k =>
    have := h.drop (p + 1) k e (by simpa using hk)
    push_cast at this ⊢
    omega

variable [DecidableEq C]

/-- Merging entries changes nothing but the log. -/
theorem foldlM_mergeEntry_logs : ∀ {entries : List (LogEntry C)} {rf rf' : Raft n C D},
    entries.foldlM mergeEntry rf = .ok rf' → rf' = { rf with logs := rf'.logs }
  | [], rf, rf', h => by
    obtain rfl : rf = rf' := by simpa using h
    rfl
  | log :: entries, rf, rf', h => by
    rw [List.foldlM_cons, bind_eq_ok] at h
    obtain ⟨rf₁, h₁, h⟩ := h
    have hrf₁ : rf₁ = { rf with logs := rf₁.logs } := by
      unfold mergeEntry at h₁
      split_ifs at h₁
      · obtain rfl := pure_eq_ok.1 h₁
        rfl
      · obtain ⟨_, -, h₁⟩ := bind_eq_ok.1 h₁
        obtain ⟨_, -, h₁⟩ := bind_eq_ok.1 h₁
        obtain ⟨_, -, h₁⟩ := bind_eq_ok.1 h₁
        split_ifs at h₁ <;> obtain rfl := pure_eq_ok.1 h₁ <;> rfl
    rw [foldlM_mergeEntry_logs h, hrf₁]

/-- On a log without gaps, `mergeEntry` puts the entry at its index and keeps the rest. -/
theorem mergeEntry_eq {log : LogEntry C} {p : ℕ} (hc : rf.Contiguous)
    (hp : p ≤ rf.logs.length) (hlog : log.logindex = rf.lastSnapshotIncludeIndex + p + 1)
    (h : rf.mergeEntry log = .ok rf') :
    rf' = { rf with logs := rf.logs.take p ++ log :: rf.logs.drop (p + 1) } ∧
      ∀ own, rf.logs[p]? = some own → own.logterm = log.logterm → own = log := by
  have hlast := hc.getLastLogIndex
  by_cases hnew : log.logindex > rf.getLastLogIndex
  · obtain rfl : p = rf.logs.length := by omega
    obtain rfl : _ = rf' := by simpa [mergeEntry, hnew] using h
    simp
  · have hlt : p < rf.logs.length := by omega
    have hslice : (log.logindex - rf.lastSnapshotIncludeIndex - 1).toNat = p := by omega
    simp only [mergeEntry, hnew, if_false, bind_eq_ok, getSlicesIndexFromLogIndex_eq_ok,
      logAt_eq_ok, myAssert_eq_ok] at h
    obtain ⟨_, ⟨-, -, rfl⟩, own, hown, _, hsame, h⟩ := h
    rw [hslice] at hown h
    have hindex : own.logindex = log.logindex := by
      rw [hc p own hown]
      omega
    have hget : rf.logs[p] = own := (List.getElem?_eq_some_iff.1 hown).2
    split_ifs at h with hterm
    · obtain rfl := pure_eq_ok.1 h
      refine ⟨by rw [List.set_eq_take_append_cons_drop, if_pos hlt], fun own' hown' ht => ?_⟩
      rw [hown] at hown'
      exact absurd (Option.some.inj hown' ▸ ht) hterm
    · -- equal index, term and command: the entry is there already
      have heq : own = log := by
        have hcmd : own.command = log.command := by
          by_contra hne
          exact hsame ⟨not_not.1 hterm, hne⟩
        cases own
        cases log
        simp_all
      obtain rfl := pure_eq_ok.1 h
      refine ⟨?_, fun own' hown' _ => ?_⟩
      · rw [← heq, ← hget, List.getElem_cons_drop, List.take_append_drop]
      · rw [hown] at hown'
        exact Option.some.inj hown' ▸ heq

/-- The loop of `appendEntries1` on a log without gaps, with entries that connect to it: they
are written over the log from position `p` on, what is behind them stays, and entries that were
there with the same term are the same. -/
theorem foldlM_mergeEntry : ∀ {entries : List (LogEntry C)} {rf rf' : Raft n C D} (p : ℕ),
    rf.Contiguous → p ≤ rf.logs.length →
    ContiguousFrom (rf.lastSnapshotIncludeIndex + p) entries →
    entries.foldlM mergeEntry rf = .ok rf' →
    rf' = { rf with
      logs := rf.logs.take p ++ entries ++ rf.logs.drop (p + entries.length) } ∧
    ∀ (k : ℕ) (own e : LogEntry C), rf.logs[p + k]? = some own → entries[k]? = some e →
      own.logterm = e.logterm → own = e
  | [], rf, rf', p, _, _, _, h => by
    obtain rfl : rf = rf' := by simpa using h
    simp
  | log :: entries, rf, rf', p, hc, hp, he, h => by
    rw [List.foldlM_cons, bind_eq_ok] at h
    obtain ⟨rf₁, h₁, h⟩ := h
    obtain ⟨hlog, htail⟩ := he.tail
    have hlog : log.logindex = rf.lastSnapshotIncludeIndex + p + 1 := hlog
    obtain ⟨hrf₁, hsame⟩ := mergeEntry_eq hc hp hlog h₁
    have hlogs : rf₁.logs = rf.logs.take p ++ log :: rf.logs.drop (p + 1) := by rw [hrf₁]
    have hsnap : rf₁.lastSnapshotIncludeIndex = rf.lastSnapshotIncludeIndex := by rw [hrf₁]
    have hc₁ : rf₁.Contiguous := by
      unfold Contiguous
      rw [hlogs, hsnap]
      exact ContiguousFrom.splice hc hp hlog
    have hp₁ : p + 1 ≤ rf₁.logs.length := by
      simp [hlogs, hp]
    have htail₁ : ContiguousFrom (rf₁.lastSnapshotIncludeIndex + (p + 1 : ℕ)) entries := by
      rw [hsnap]
      push_cast
      rwa [← Int.add_assoc]
    obtain ⟨hrf', hrest⟩ := foldlM_mergeEntry (p + 1) hc₁ hp₁ htail₁ h
    refine ⟨?_, fun k own e hown hk ht => ?_⟩
    · rw [hrf', hlogs, take_splice hp, drop_splice hp, hrf₁]
      simp
    · cases k with
      | zero =>
        obtain rfl : log = e := by simpa using hk
        exact hsame own (by simpa using hown) ht
      | succ k =>
        exact hrest k own e (by rwa [hlogs, getElem?_splice hp]) (by simpa using hk) ht

/-! ### Log replication -/

/-- `appendEntries1` refuses a request, which changes at most term, vote and role, or merges the
entries into the log and follows the commit index of the leader. -/
theorem appendEntries1_cases {args : AppendEntriesArgs n C} {reply : AppendEntriesReply}
    (h : rf.appendEntries1 args = .ok (rf', reply)) :
    (reply.success = false ∧ rf.SameLog rf' ∧ rf.Keeps rf' ∧ rf.Abstains rf') ∨
    (reply.success = true ∧ reply.term = args.term ∧ rf.currentTerm ≤ args.term ∧
      args.prevlogindex ≤ rf.getLastLogIndex ∧
      rf.matchLog args.prevlogindex args.prevlogterm = .ok true ∧
      ∃ rf₁ rf₂ : Raft n C D, rf.SameLog rf₁ ∧ rf.Keeps rf₁ ∧ rf.Abstains rf₁ ∧
        rf₁.currentTerm = args.term ∧ args.entries.foldlM mergeEntry rf₁ = .ok rf₂ ∧
        rf' = Raft.persist { rf₂ with
          commitIndex := if args.leadercommit > rf₂.commitIndex then
            min args.leadercommit rf₂.getLastLogIndex else rf₂.commitIndex }) := by
  by_cases hlt : args.term < rf.currentTerm
  · obtain ⟨rfl, rfl⟩ : _ ∧ _ := by simpa [appendEntries1, hlt] using h
    exact Or.inl ⟨rfl, .refl rf, .refl rf, .of_eq rfl rfl⟩
  rw [not_lt] at hlt
  -- the node as a follower in the term of the request
  obtain ⟨rf₁, hrf₁⟩ : ∃ rf₁, { rf.meetTerm args.term with status := .follower } = rf₁ :=
    ⟨_, rfl⟩
  have hterm := meetTerm_currentTerm hlt
  have hsame : rf.SameLog rf₁ := by
    have := sameLog_meetTerm rf args.term
    exact hrf₁ ▸ this.trans ⟨⟨rfl, rfl, rfl⟩, rfl, rfl, rfl⟩
  have hkeep : rf.Keeps rf₁ := (keeps_meetTerm rf args.term).trans <| by
    exact hrf₁ ▸ ⟨⟨rfl, le_rfl, fun _ _ => rfl⟩, fun h => by cases h⟩
  have habs : rf.Abstains rf₁ := hrf₁ ▸ abstains_meetTerm rf args.term
  have hterm₁ : rf₁.currentTerm = args.term := by rw [← hrf₁]; exact hterm
  have hrefuse : rf.SameLog rf₁.persist ∧ rf.Keeps rf₁.persist ∧ rf.Abstains rf₁.persist :=
    ⟨hsame.trans (sameLog_persist rf₁), hkeep.trans (keeps_persist rf₁), habs⟩
  simp only [appendEntries1, if_neg (not_lt.2 hlt), hrf₁, bind_eq_ok, myAssert_eq_ok,
    hsame.getLastLogIndex] at h
  obtain ⟨_, -, h⟩ := h
  by_cases hprev : args.prevlogindex > rf.getLastLogIndex
  · rw [if_pos hprev] at h
    obtain ⟨rfl, rfl⟩ := Prod.mk.inj (pure_eq_ok.1 h)
    exact Or.inl ⟨rfl, hrefuse⟩
  rw [if_neg hprev] at h
  obtain ⟨b, hb, h⟩ := bind_eq_ok.1 h
  cases b with
  | false =>
    obtain ⟨found, -, h⟩ := bind_eq_ok.1 h
    obtain ⟨rfl, rfl⟩ := Prod.mk.inj (pure_eq_ok.1 h)
    exact Or.inl ⟨rfl, hrefuse⟩
  | true =>
    simp only [if_true, bind_eq_ok, myAssert_eq_ok] at h
    obtain ⟨rf₂, hmerge, _, -, _, -, h⟩ := h
    obtain ⟨rfl, rfl⟩ := Prod.mk.inj (pure_eq_ok.1 h)
    have hterm₂ : rf₂.currentTerm = args.term := by
      rw [foldlM_mergeEntry_logs hmerge]
      exact hterm₁
    exact Or.inr ⟨rfl, hterm₂, hlt, by omega, hsame.matchLog _ _ ▸ hb, rf₁, rf₂, hsame, hkeep, habs,
      hterm₁, hmerge, rfl⟩

theorem keeps_appendEntries1 {args : AppendEntriesArgs n C} {reply : AppendEntriesReply}
    (h : rf.appendEntries1 args = .ok (rf', reply)) : rf.Keeps rf' := by
  rcases appendEntries1_cases h with ⟨-, -, hk, -⟩ | ⟨-, -, -, -, -, rf₁, rf₂, -, hk, -, -, hm, rfl⟩
  · exact hk
  · refine hk.trans (.of_eq ?_ ?_ ?_ ?_) <;> rw [foldlM_mergeEntry_logs hm] <;> rfl

omit [DecidableEq C]

/-- Processing an AppendEntries reply changes at most the term, or it counts a success of the
current term; the one that completes a majority may advance the commit index. -/
theorem sendAppendEntries_cases {server : Fin n} {args : AppendEntriesArgs n C}
    {reply : AppendEntriesReply} {appendNums num : ℕ}
    (h : rf.sendAppendEntries server args reply appendNums = .ok (rf', num)) :
    rf.SameEntries rf' ∧ rf'.lastApplied = rf.lastApplied ∧ rf.Keeps rf' ∧ rf.Abstains rf' ∧
      num ≤ appendNums + 1 ∧ (num ≠ appendNums → reply.success = true) ∧
      (rf'.commitIndex = rf.commitIndex ∨
        reply.success = true ∧ reply.term = rf.currentTerm ∧ rf.status = .leader ∧
          1 + n / 2 ≤ appendNums + 1 ∧
          args.entries.getLast?.map (·.logterm) = some rf.currentTerm ∧
          rf'.commitIndex = max rf.commitIndex (args.prevlogindex + args.entries.length) ∧
          rf'.commitIndex ≤ rf.getLastLogIndex) := by
  by_cases hstate : reply.appstate = .disconnected
  · obtain ⟨rfl, rfl⟩ : _ ∧ _ := by simpa [sendAppendEntries, hstate] using h
    exact ⟨⟨rfl, rfl, rfl⟩, rfl, .refl rf, .of_eq rfl rfl, by omega, by simp, Or.inl rfl⟩
  by_cases hgt : reply.term > rf.currentTerm
  · obtain ⟨rfl, rfl⟩ : _ ∧ _ := by simpa [sendAppendEntries, hstate, hgt] using h
    exact ⟨(sameLog_stepDown rf _).toSameEntries, rfl, keeps_stepDown hgt,
      abstains_stepDown rf _, by omega,
      by simp, Or.inl rfl⟩
  by_cases hlt : reply.term < rf.currentTerm
  · obtain ⟨rfl, rfl⟩ : _ ∧ _ := by simpa [sendAppendEntries, hstate, hgt, hlt] using h
    exact ⟨⟨rfl, rfl, rfl⟩, rfl, .refl rf, .of_eq rfl rfl, by omega, by simp, Or.inl rfl⟩
  have hterm : reply.term = rf.currentTerm := by omega
  by_cases hs : rf.status = .leader
  swap
  · obtain ⟨rfl, rfl⟩ : _ ∧ _ := by simpa [sendAppendEntries, hstate, hgt, hlt, hs] using h
    exact ⟨⟨rfl, rfl, rfl⟩, rfl, .refl rf, .of_eq rfl rfl, by omega, by simp, Or.inl rfl⟩
  by_cases hok : reply.success = true
  swap
  · by_cases hup : reply.updatenextindex = -100
    · obtain ⟨-, rfl, rfl⟩ : _ ∧ _ ∧ _ := by
        simpa [sendAppendEntries, hstate, hgt, hlt, hs, hok, hup] using h
      exact ⟨⟨rfl, rfl, rfl⟩, rfl, .refl rf, .of_eq rfl rfl, by omega, by simp, Or.inl rfl⟩
    · obtain ⟨-, rfl, rfl⟩ : _ ∧ _ ∧ _ := by
        simpa [sendAppendEntries, hstate, hgt, hlt, hs, hok, hup] using h
      exact ⟨⟨rfl, rfl, rfl⟩, rfl, .of_eq rfl rfl rfl hs.symm, .of_eq rfl rfl,
        by omega, by simp, Or.inl rfl⟩
  by_cases hnum : appendNums + 1 ≥ 1 + n / 2
  · obtain ⟨-, -, hle, rfl, rfl⟩ : _ ∧ _ ∧ _ ∧ _ ∧ _ := by
      simpa [sendAppendEntries, hstate, hgt, hlt, hs, hok, hnum] using h
    refine ⟨⟨rfl, rfl, rfl⟩, rfl, .of_eq rfl rfl rfl hs.symm, .of_eq rfl rfl,
      by omega, fun _ => hok, ?_⟩
    by_cases hlast : args.entries.getLast?.map (·.logterm) = some rf.currentTerm
    · exact Or.inr ⟨hok, hterm, hs, hnum, hlast, if_pos (by simpa using hlast), hle⟩
    · exact Or.inl (if_neg (by simpa using hlast))
  · obtain ⟨-, -, rfl, rfl⟩ : _ ∧ _ ∧ _ ∧ _ := by
      simpa [sendAppendEntries, hstate, hgt, hlt, hs, hok, hnum] using h
    exact ⟨⟨rfl, rfl, rfl⟩, rfl, .of_eq rfl rfl rfl hs.symm, .of_eq rfl rfl, by omega,
      fun _ => hok, Or.inl rfl⟩

/-- A heartbeat sends a peer that is behind the snapshot point the snapshot, and any other one
everything behind some entry the node has. -/
theorem heartBeatTo_cases {i : Fin n} {b : HeartBeat n C} (h : rf.heartBeatTo i = .ok b) :
    (b = .leaderSendSnapShot i ∧ 1 ≤ rf.nextIndex i ∧
      rf.nextIndex i ≤ rf.lastSnapshotIncludeIndex) ∨
    ∃ prevlogindex prevlogterm, rf.getLogTermFromLogIndex prevlogindex = .ok prevlogterm ∧
      b = .sendAppendEntries i
        { term := rf.currentTerm
          leaderid := rf.me
          prevlogindex := prevlogindex
          prevlogterm := prevlogterm
          entries := rf.logs.drop (prevlogindex - rf.lastSnapshotIncludeIndex).toNat
          leadercommit := rf.commitIndex } := by
  simp only [heartBeatTo, bind_eq_ok, myAssert_eq_ok] at h
  obtain ⟨_, hpos, h⟩ := h
  split_ifs at h with hsnap
  · exact Or.inl ⟨(pure_eq_ok.1 h).symm, hpos, hsnap⟩
  obtain ⟨⟨prev, term⟩, hprev, h⟩ := bind_eq_ok.1 h
  have hlt : rf.lastSnapshotIncludeIndex + 1 ≤ rf.nextIndex i := by omega
  by_cases hfirst : rf.nextIndex i = rf.lastSnapshotIncludeIndex + 1
  · -- everything is sent, behind the snapshot point
    obtain ⟨rfl, rfl⟩ : _ ∧ _ := by simpa [getPrevLogInfo, hfirst] using hprev
    obtain ⟨hlen, rfl⟩ : _ ∧ _ := by simpa using h
    refine Or.inr ⟨_, _, getLogTermFromLogIndex_eq_ok.2 ⟨le_rfl, ?_, Or.inl ⟨rfl, rfl⟩⟩, by simp⟩
    omega
  · obtain ⟨e, he, rfl, rfl⟩ : ∃ e, rf.logOf (rf.nextIndex i - 1) = .ok e ∧
        rf.nextIndex i - 1 = prev ∧ e.logterm = term := by
      simpa [getPrevLogInfo, hfirst] using hprev
    have hne : rf.nextIndex i - 1 ≠ rf.lastSnapshotIncludeIndex := by omega
    obtain ⟨h₁, h₂, -⟩ := logOf_eq_ok.1 he
    simp only [hne, ne_eq, not_false_eq_true, if_true, bind_eq_ok, map_eq_ok,
      getSlicesIndexFromLogIndex_eq_ok, myAssert_eq_ok, pure_eq_ok] at h
    obtain ⟨_, ⟨_, ⟨-, -, rfl⟩, rfl⟩, _, -, rfl⟩ := h
    refine Or.inr ⟨_, _, getLogTermFromLogIndex_eq_ok.2 ⟨h₁.le, h₂, Or.inr ⟨hne, e, he, rfl⟩⟩, ?_⟩
    congr 3
    omega

theorem doHeartBeat_eq {beats : List (HeartBeat n C)}
    (h : rf.doHeartBeat = .ok (some beats)) :
    rf.status = .leader ∧
      List.Forall₂ (fun i b => rf.heartBeatTo i = .ok b) (peers rf.me) beats := by
  unfold doHeartBeat at h
  split_ifs at h with hs
  · obtain ⟨_, hbeats, hsome⟩ := map_eq_ok.1 h
    obtain rfl := Option.some.inj hsome
    exact ⟨hs, forall₂_of_mapM hbeats⟩
  · cases pure_eq_ok.1 h

/-- `start` appends an entry of the current term on the leader and does nothing elsewhere. -/
theorem start_eq (rf : Raft n C D) (command : C) :
    (rf.start command).1 = rf ∧ rf.status ≠ .leader ∨
      rf.status = .leader ∧ (rf.start command).1 = Raft.persist
        { rf with logs := rf.logs ++ [⟨command, rf.currentTerm, rf.getLastLogIndex + 1⟩] } := by
  by_cases hs : rf.status = .leader <;> simp [start, hs, getNewCommandIndex]

theorem keeps_start (rf : Raft n C D) (command : C) : rf.Keeps (rf.start command).1 := by
  rcases rf.start_eq command with ⟨h, -⟩ | ⟨-, h⟩ <;> rw [h]
  · exact .refl rf
  · exact .of_eq rfl rfl rfl rfl

theorem abstains_start (rf : Raft n C D) (command : C) : rf.Abstains (rf.start command).1 := by
  rcases rf.start_eq command with ⟨h, -⟩ | ⟨-, h⟩ <;> rw [h] <;> exact .of_eq rfl rfl

/-! ### Applying -/

/-- The loop of `getApplyLogs` hands out the next `k` entries in order. -/
theorem applyNext_eq : ∀ {k : ℕ} {rf rf' : Raft n C D} {msgs : List (ApplyMsg C D)},
    rf.applyNext k = .ok (rf', msgs) →
    rf' = { rf with lastApplied := rf.lastApplied + k } ∧ msgs.length = k ∧
      ∀ (j : ℕ) (msg : ApplyMsg C D), msgs[j]? = some msg → ∃ log,
        rf.logOf (rf.lastApplied + 1 + j) = .ok log ∧
        msg = .command log.command (rf.lastApplied + 1 + j)
  | 0, rf, rf', msgs, h => by
    obtain ⟨rfl, rfl⟩ := Prod.mk.inj (pure_eq_ok.1 h)
    simp
  | k + 1, rf, rf', msgs, h => by
    simp only [applyNext, bind_eq_ok, myAssert_eq_ok] at h
    obtain ⟨log, hlog, _, -, ⟨rf₁, msgs₁⟩, h₁, h⟩ := h
    obtain ⟨rfl, rfl⟩ := Prod.mk.inj (pure_eq_ok.1 h)
    obtain ⟨rfl, hlen, hmsgs⟩ := applyNext_eq h₁
    refine ⟨by simp; omega, by simp [hlen], fun j msg hj => ?_⟩
    cases j with
    | zero =>
      obtain rfl : _ = msg := by simpa using hj
      refine ⟨log, ?_, by simp⟩
      rw [show rf.lastApplied + 1 + ((0 : ℕ) : ℤ) = rf.lastApplied + 1 by omega]
      exact hlog
    | succ j =>
      obtain ⟨log', hlog', rfl⟩ := hmsgs j msg (by simpa using hj)
      have hj' : rf.lastApplied + 1 + 1 + j = rf.lastApplied + 1 + (j + 1 : ℕ) := by
        push_cast
        omega
      exact ⟨log', hj' ▸ hlog', by rw [← hj']⟩

theorem getApplyLogs_eq {msgs : List (ApplyMsg C D)} (h : rf.getApplyLogs = .ok (rf', msgs)) :
    rf.commitIndex ≤ rf.getLastLogIndex ∧
      rf.applyNext (rf.commitIndex - rf.lastApplied).toNat = .ok (rf', msgs) := by
  simpa [getApplyLogs] using h

/-! ### Snapshots -/

theorem keeps_installSnapshot {args : InstallSnapshotRequest n D}
    {reply : InstallSnapshotResponse} {msg : Option (ApplyMsg C D)}
    (h : rf.installSnapshot args = .ok (rf', reply, msg)) : rf.Keeps rf' ∧ rf.Abstains rf' := by
  by_cases hlt : args.term < rf.currentTerm
  · obtain ⟨rfl, -, -⟩ : _ ∧ _ ∧ _ := by simpa [installSnapshot, hlt] using h
    exact ⟨.refl rf, .of_eq rfl rfl⟩
  simp only [installSnapshot, if_neg hlt] at h
  generalize hrf₁ : (if args.term > rf.currentTerm then (rf.stepDown args.term).persist else rf) =
    rf₁ at h
  -- the node in the term of the request
  have hkeep : rf.Keeps rf₁ ∧ rf.Abstains rf₁ := by
    rw [← hrf₁]
    split_ifs with hgt
    · exact ⟨(keeps_stepDown hgt).trans (keeps_persist _), abstains_stepDown rf _⟩
    · exact ⟨.refl rf, .of_eq rfl rfl⟩
  have hfollow : ∀ {rf₂ : Raft n C D}, rf₂.me = rf₁.me → rf₂.currentTerm = rf₁.currentTerm →
      rf₂.votedFor = rf₁.votedFor → rf₂.status = .follower → rf.Keeps rf₂ ∧ rf.Abstains rf₂ := by
    intro rf₂ hme ht hv hs
    refine ⟨hkeep.1.trans ⟨⟨hme, ht.ge, fun _ _ => hv⟩, fun hl => ?_⟩, fun hne => ?_⟩
    · rw [hs] at hl
      cases hl
    · rw [ht, hv]
      exact hkeep.2 (by rwa [← hv])
  split_ifs at h with hold hlast
  · obtain ⟨rfl, -⟩ := Prod.mk.inj (pure_eq_ok.1 h)
    exact hfollow rfl rfl rfl rfl
  · obtain ⟨logs, -, h⟩ := bind_eq_ok.1 h
    obtain ⟨rfl, -⟩ := Prod.mk.inj (pure_eq_ok.1 h)
    exact hfollow rfl rfl rfl rfl
  · obtain ⟨logs, -, h⟩ := bind_eq_ok.1 h
    obtain ⟨rfl, -⟩ := Prod.mk.inj (pure_eq_ok.1 h)
    exact hfollow rfl rfl rfl rfl

theorem keeps_condInstallSnapshot {term index : ℤ} {data : D} {b : Bool}
    (h : rf.condInstallSnapshot term index data = .ok (rf', b)) :
    rf.Keeps rf' ∧ rf.Abstains rf' := by
  unfold condInstallSnapshot at h
  split_ifs at h
  · obtain ⟨rfl, -⟩ := Prod.mk.inj (pure_eq_ok.1 h)
    exact ⟨.refl rf, .of_eq rfl rfl⟩
  all_goals
    obtain ⟨logs, -, h⟩ := bind_eq_ok.1 h
    obtain ⟨rfl, -⟩ := Prod.mk.inj (pure_eq_ok.1 h)
    exact ⟨.of_eq rfl rfl rfl rfl, .of_eq rfl rfl⟩

theorem keeps_snapshot {index : ℤ} {data : D} (h : rf.snapshot index data = .ok rf') :
    rf.Keeps rf' ∧ rf.Abstains rf' := by
  unfold snapshot at h
  split_ifs at h
  · obtain rfl := pure_eq_ok.1 h
    exact ⟨.refl rf, .of_eq rfl rfl⟩
  · simp only [bind_eq_ok, pure_eq_ok] at h
    obtain ⟨_, -, _, -, _, -, rfl⟩ := h
    exact ⟨.of_eq rfl rfl rfl rfl, .of_eq rfl rfl⟩

theorem keeps_leaderSendSnapShotReply (rf : Raft n C D) (server : Fin n)
    (args : InstallSnapshotRequest n D) (reply : InstallSnapshotResponse) :
    rf.Keeps (rf.leaderSendSnapShotReply server args reply) ∧
      rf.Abstains (rf.leaderSendSnapShotReply server args reply) := by
  unfold leaderSendSnapShotReply
  split_ifs with hs hgt
  · exact ⟨.refl rf, .of_eq rfl rfl⟩
  · exact ⟨(keeps_stepDown hgt).trans (keeps_persist _), abstains_stepDown rf _⟩
  · exact ⟨.of_eq rfl rfl rfl rfl, .of_eq rfl rfl⟩

end Raft

end KvRaft
