import KvRaft.LTS.Lifts
import KvRaft.Raft.Issued
import KvRaft.Raft.Refinement
import KvRaft.Raft.Snapshots

/-!
# A node and its whole log

`rf.whole pre saved` is the node `rf` as it would be had it dropped nothing: `pre` is what it has
dropped (`Raft.Dropped`), and `saved` is what it would have handed to its persister.

A node that has compacted its log acts like the node with the whole log, wherever it does not fail
(`Lifts`): it asks for votes, votes, leads, appends, accepts requests and hands out commands as
that node would (`Dropped.doElection`, ..., `Dropped.getApplyLogs`), and compacting changes nothing
of the whole log (`Dropped.snapshot`).  Only the hint of a refused request may differ.
-/

namespace KvRaft

open Consensus

namespace Raft

variable {n : ℕ} {C D : Type} {rf rf' : Raft n C D} {pre : List (LogEntry C)} {saved : Saved n C D}

/-- The node as it would be had it dropped nothing: `pre` is put in front of its log. -/
def whole (rf : Raft n C D) (pre : List (LogEntry C)) (saved : Saved n C D) : Raft n C D :=
  { rf with
    logs := pre ++ rf.logs
    lastSnapshotIncludeIndex := 0
    lastSnapshotIncludeTerm := 0
    persister := saved }

@[simp] theorem whole_currentTerm : (rf.whole pre saved).currentTerm = rf.currentTerm := rfl
@[simp] theorem whole_votedFor : (rf.whole pre saved).votedFor = rf.votedFor := rfl
@[simp] theorem whole_status : (rf.whole pre saved).status = rf.status := rfl
@[simp] theorem whole_commitIndex : (rf.whole pre saved).commitIndex = rf.commitIndex := rfl
@[simp] theorem whole_lastApplied : (rf.whole pre saved).lastApplied = rf.lastApplied := rfl
@[simp] theorem whole_nextIndex : (rf.whole pre saved).nextIndex = rf.nextIndex := rfl
@[simp] theorem whole_matchIndex : (rf.whole pre saved).matchIndex = rf.matchIndex := rfl
@[simp] theorem whole_lastSnapshotIncludeIndex :
    (rf.whole pre saved).lastSnapshotIncludeIndex = 0 := rfl
@[simp] theorem whole_logs : (rf.whole pre saved).logs = pre ++ rf.logs := rfl

/-- `pre` is what the node has dropped, up to its snapshot point. -/
structure Dropped (rf : Raft n C D) (pre : List (LogEntry C)) : Prop where
  length : (pre.length : ℤ) = rf.lastSnapshotIncludeIndex
  term : lastTerm LogEntry.logterm pre = rf.lastSnapshotIncludeTerm
  contiguous : ContiguousFrom 0 pre

/-- Only the snapshot point matters. -/
theorem Dropped.of_point (h : rf.Dropped pre)
    (hindex : rf'.lastSnapshotIncludeIndex = rf.lastSnapshotIncludeIndex)
    (hterm : rf'.lastSnapshotIncludeTerm = rf.lastSnapshotIncludeTerm) : rf'.Dropped pre :=
  ⟨h.length.trans hindex.symm, h.term.trans hterm.symm, h.contiguous⟩

theorem Dropped.of_sameEntries (h : rf.Dropped pre) (hs : rf.SameEntries rf') :
    rf'.Dropped pre :=
  h.of_point hs.lastSnapshotIncludeIndex hs.lastSnapshotIncludeTerm

/-! ### Reading the log -/

theorem Dropped.whole_contiguous (h : rf.Dropped pre) (hc : rf.Contiguous) (saved : Saved n C D) :
    (rf.whole pre saved).Contiguous := by
  refine h.contiguous.append ?_
  rw [h.length, Int.zero_add]
  exact hc

theorem getLastLogIndexAndTerm_eq (rf : Raft n C D) : rf.getLastLogIndexAndTerm =
    (rf.logs.getLast?.map fun log => (log.logindex, log.logterm)).getD
      (rf.lastSnapshotIncludeIndex, rf.lastSnapshotIncludeTerm) := by
  unfold Raft.getLastLogIndexAndTerm
  cases rf.logs.getLast? <;> rfl

theorem Dropped.getLastLogIndexAndTerm (h : rf.Dropped pre) (saved : Saved n C D) :
    (rf.whole pre saved).getLastLogIndexAndTerm = rf.getLastLogIndexAndTerm := by
  rw [getLastLogIndexAndTerm_eq, getLastLogIndexAndTerm_eq, whole_logs, List.getLast?_append]
  cases hl : rf.logs.getLast? with
  | some log => rfl
  | none =>
    -- the node answers with its snapshot point, which is the last entry that was dropped
    have hterm := h.term
    have hlen := h.length
    unfold lastTerm at hterm
    cases hp : pre.getLast? with
    | none =>
      rw [hp] at hterm
      rw [List.getLast?_eq_none_iff.1 hp] at hlen
      exact Prod.ext hlen hterm
    | some e =>
      rw [hp] at hterm
      rw [List.getLast?_eq_getElem?] at hp
      have hpos := (List.getElem?_eq_some_iff.1 hp).1
      have hindex := h.contiguous _ _ hp
      exact Prod.ext (show e.logindex = rf.lastSnapshotIncludeIndex by omega) hterm

theorem Dropped.getLastLogIndex (h : rf.Dropped pre) (saved : Saved n C D) :
    (rf.whole pre saved).getLastLogIndex = rf.getLastLogIndex :=
  congrArg Prod.fst (h.getLastLogIndexAndTerm saved)

theorem Dropped.upToDate (h : rf.Dropped pre) (saved : Saved n C D) (index term : ℤ) :
    (rf.whole pre saved).upToDate index term = rf.upToDate index term := by
  unfold Raft.upToDate Raft.getLastLogTerm Raft.getLastLogIndex
  rw [h.getLastLogIndexAndTerm]

theorem Dropped.slice (h : rf.Dropped pre) {index : ℤ} (hlo : rf.lastSnapshotIncludeIndex < index) :
    (index - 0 - 1).toNat = pre.length + (index - rf.lastSnapshotIncludeIndex - 1).toNat := by
  have := h.length
  omega

/-- An entry that is still there is found at the same index. -/
theorem Dropped.logOf (h : rf.Dropped pre) (saved : Saved n C D) {index : ℤ} {e : LogEntry C}
    (he : rf.logOf index = .ok e) : (rf.whole pre saved).logOf index = .ok e := by
  obtain ⟨hlo, hhi, hget⟩ := logOf_eq_ok.1 he
  have hlen := h.length
  refine logOf_eq_ok.2 ⟨?_, (h.getLastLogIndex saved).symm ▸ hhi, ?_⟩
  · change (0 : ℤ) < index
    omega
  · change (pre ++ rf.logs)[(index - 0 - 1).toNat]? = some e
    rw [h.slice hlo, List.getElem?_append_right (Nat.le_add_right _ _), Nat.add_sub_cancel_left]
    exact hget

theorem Dropped.getLogTermFromLogIndex (h : rf.Dropped pre) (saved : Saved n C D) {index T : ℤ}
    (hT : rf.getLogTermFromLogIndex index = .ok T) :
    (rf.whole pre saved).getLogTermFromLogIndex index = .ok T := by
  obtain ⟨hlo, hhi, hcase⟩ := getLogTermFromLogIndex_eq_ok.1 hT
  have hlen := h.length
  have hterm := h.term
  refine getLogTermFromLogIndex_eq_ok.2 ⟨?_, (h.getLastLogIndex saved).symm ▸ hhi, ?_⟩
  · change (0 : ℤ) ≤ index
    omega
  change index = 0 ∧ (0 : ℤ) = T ∨ index ≠ 0 ∧ _
  rcases hcase with ⟨rfl, rfl⟩ | ⟨-, e, he, hte⟩
  · -- the snapshot point is the last entry that was dropped
    rcases List.eq_nil_or_concat pre with rfl | ⟨l, e, rfl⟩
    · exact Or.inl ⟨hlen.symm, hterm⟩
    · rw [List.concat_eq_append] at h hlen hterm ⊢
      rw [lastTerm_concat] at hterm
      rw [List.length_append, List.length_singleton] at hlen
      refine Or.inr ⟨by omega, e, ?_, hterm⟩
      refine logOf_eq_ok.2 ⟨?_, (h.getLastLogIndex saved).symm ▸ hhi, ?_⟩
      · change (0 : ℤ) < _
        omega
      · change (l ++ [e] ++ rf.logs)[(rf.lastSnapshotIncludeIndex - 0 - 1).toNat]? = some e
        rw [show (rf.lastSnapshotIncludeIndex - 0 - 1).toNat = l.length by omega]
        simp
  · have hpos := (logOf_eq_ok.1 he).1
    exact Or.inr ⟨by omega, e, h.logOf saved he, hte⟩

theorem Dropped.matchLog (h : rf.Dropped pre) (saved : Saved n C D) {index T : ℤ} {b : Bool}
    (hb : rf.matchLog index T = .ok b) : (rf.whole pre saved).matchLog index T = .ok b := by
  obtain ⟨hlo, hhi, T', hT', heq⟩ := matchLog_eq_ok.1 hb
  have := h.length
  refine matchLog_eq_ok.2 ⟨?_, (h.getLastLogIndex saved).symm ▸ hhi, T',
    h.getLogTermFromLogIndex saved hT', heq⟩
  change (0 : ℤ) ≤ index
  omega

/-- The search for another term does not fail with the whole log: it may go on through the entries
that were dropped. -/
theorem Dropped.otherTermBelow (h : rf.Dropped pre) (hc : rf.Contiguous) (saved : Saved n C D)
    {prev : ℤ} (hlo : rf.lastSnapshotIncludeIndex ≤ prev) (hprev : prev ≤ rf.getLastLogIndex) :
    ∃ found, (rf.whole pre saved).otherTermBelow prev (prev - 0 + 1).toNat prev = .ok found := by
  have hlen := h.length
  refine (h.whole_contiguous hc saved).otherTermBelow ?_ _ prev le_rfl ?_
  · rw [h.getLastLogIndex]
    exact hprev
  · rw [whole_lastSnapshotIncludeIndex]
    omega

/-! ### Elections -/

theorem whole_meetTerm (rf : Raft n C D) (pre : List (LogEntry C)) (saved : Saved n C D) (T : ℤ) :
    (rf.whole pre saved).meetTerm T = (rf.meetTerm T).whole pre saved := by
  unfold meetTerm
  change (if T > rf.currentTerm then _ else _) = _
  split_ifs <;> rfl

theorem Dropped.doElection (h : rf.Dropped pre) (saved : Saved n C D)
    {calls : List (Fin n × RequestVoteArgs n)} (heq : rf.doElection = some (rf', calls)) :
    ∃ saved', (rf.whole pre saved).doElection = some (rf'.whole pre saved', calls) := by
  unfold Raft.doElection at heq ⊢
  change ∃ saved', (if rf.status = .leader then none else _) = _
  split_ifs at heq ⊢ with hl
  obtain ⟨rfl, rfl⟩ := Prod.mk.inj (Option.some.inj heq)
  refine ⟨_, congrArg some (Prod.ext rfl (List.map_congr_left fun i _ => Prod.ext rfl ?_))⟩
  change (⟨_, _, (rf.whole pre saved).getLastLogIndexAndTerm.1,
    (rf.whole pre saved).getLastLogIndexAndTerm.2⟩ : RequestVoteArgs n) = _
  rw [h.getLastLogIndexAndTerm]
  rfl

/-- The results of a section of a node and of the node with its whole log. -/
def Whole {α : Type} (pre : List (LogEntry C)) (r r' : Raft n C D × α) : Prop :=
  ∃ saved, r' = (r.1.whole pre saved, r.2)

theorem lifts_myAssert {p q : Prop} [Decidable p] [Decidable q] {f : Fault} (h : p → q) :
    Lifts (fun _ _ => True) (myAssert p f) (myAssert q f) := fun a ha =>
  ⟨a, myAssert_eq_ok.2 (h (myAssert_eq_ok.1 ha)), trivial⟩

theorem Dropped.requestVote (h : rf.Dropped pre) (saved : Saved n C D)
    (args : RequestVoteArgs n) :
    Lifts (Whole pre) (rf.requestVote args) ((rf.whole pre saved).requestVote args) := by
  unfold Raft.requestVote
  refine .ite Iff.rfl (fun _ => .pure ⟨_, rfl⟩) fun _ => ?_
  rw [whole_meetTerm]
  refine .bind (lifts_myAssert id) fun _ _ _ _ => ?_
  rw [(h.of_sameEntries (sameLog_meetTerm rf args.term).toSameEntries).upToDate]
  refine .ite Iff.rfl (fun _ => .pure ⟨_, rfl⟩) fun _ => ?_
  exact .ite Iff.rfl (fun _ => .pure ⟨_, rfl⟩) fun _ => .pure ⟨_, rfl⟩

theorem Dropped.sendRequestVote (h : rf.Dropped pre) (saved : Saved n C D) (votedNum : ℕ)
    (reply : RequestVoteReply) : Lifts (Whole pre) (rf.sendRequestVote votedNum reply)
      ((rf.whole pre saved).sendRequestVote votedNum reply) := by
  unfold Raft.sendRequestVote
  refine .ite Iff.rfl (fun _ => .pure ⟨_, rfl⟩) fun _ => ?_
  refine .ite Iff.rfl (fun _ => .pure ⟨_, rfl⟩) fun _ => ?_
  refine .bind (lifts_myAssert id) fun _ _ _ _ => ?_
  refine .ite Iff.rfl (fun _ => .pure ⟨_, rfl⟩) fun _ => ?_
  refine .ite Iff.rfl (fun _ => ?_) fun _ => .pure ⟨_, rfl⟩
  refine .bind (lifts_myAssert id) fun _ _ _ _ => .pure ?_
  simp only [h.getLastLogIndex]
  exact ⟨_, rfl⟩

/-! ### Log replication -/

theorem Dropped.start (h : rf.Dropped pre) (saved : Saved n C D) (command : C) :
    Whole pre (rf.start command) ((rf.whole pre saved).start command) := by
  unfold Raft.start
  change Whole pre _ (if rf.status ≠ .leader then _ else _)
  split_ifs with hl
  · exact ⟨saved, rfl⟩
  simp only [getNewCommandIndex, h.getLastLogIndex, whole_logs, List.append_assoc]
  exact ⟨_, rfl⟩

/-- A heartbeat that sends entries sends those that it would send with the whole log. -/
theorem Dropped.heartBeatTo (h : rf.Dropped pre) (hc : rf.Contiguous) (saved : Saved n C D)
    {j : Fin n} {args : AppendEntriesArgs n C}
    (hb : rf.heartBeatTo j = .ok (.sendAppendEntries j args)) :
    (rf.whole pre saved).heartBeatTo j = .ok (.sendAppendEntries j args) := by
  have hprev := heartBeatTo_prev hb
  rcases heartBeatTo_cases hb with ⟨hsnap, -⟩ | ⟨prev, term, hterm, hargs⟩
  · cases hsnap
  obtain ⟨-, rfl⟩ := HeartBeat.sendAppendEntries.inj hargs
  change prev = rf.nextIndex j - 1 at hprev
  obtain ⟨hlo, hhi, -⟩ := getLogTermFromLogIndex_eq_ok.1 hterm
  have hlen := h.length
  have hlast := h.getLastLogIndex saved
  -- the peer is ahead of the snapshot point, so the node with the whole log sends entries as well
  obtain ⟨hle, -⟩ | ⟨-, args, hwhole⟩ := (h.whole_contiguous hc saved).heartBeatTo_total (j := j)
    (show 1 ≤ rf.nextIndex j by omega) (show rf.nextIndex j ≤ _ by omega)
  · change rf.nextIndex j ≤ 0 at hle
    omega
  have hprev' := heartBeatTo_prev hwhole
  change args.prevlogindex = rf.nextIndex j - 1 at hprev'
  rcases heartBeatTo_cases hwhole with ⟨hsnap, -⟩ | ⟨prev', term', hterm', hargs⟩
  · cases hsnap
  obtain ⟨-, rfl⟩ := HeartBeat.sendAppendEntries.inj hargs
  obtain rfl : prev' = prev := hprev'.trans hprev.symm
  obtain rfl := Except.ok.inj (hterm'.symm.trans (h.getLogTermFromLogIndex saved hterm))
  have hentries : (pre ++ rf.logs).drop (prev' - 0).toNat =
      rf.logs.drop (prev' - rf.lastSnapshotIncludeIndex).toNat := by
    rw [List.drop_append, List.drop_of_length_le (by omega), List.nil_append]
    congr 1
    omega
  rw [hwhole]
  simp only [whole_logs, whole_lastSnapshotIncludeIndex, hentries]
  rfl

theorem Dropped.sendAppendEntries (h : rf.Dropped pre) (saved : Saved n C D) (server : Fin n)
    (args : AppendEntriesArgs n C) (reply : AppendEntriesReply) (appendNums : ℕ) :
    Lifts (Whole pre) (rf.sendAppendEntries server args reply appendNums)
      ((rf.whole pre saved).sendAppendEntries server args reply appendNums) := by
  have hlast : ∀ m f,
      Raft.getLastLogIndex { rf.whole pre saved with matchIndex := m, nextIndex := f } =
        Raft.getLastLogIndex { rf with matchIndex := m, nextIndex := f } :=
    fun _ _ => h.getLastLogIndex saved
  unfold Raft.sendAppendEntries
  refine .ite Iff.rfl (fun _ => .pure ⟨_, rfl⟩) fun _ => ?_
  refine .ite Iff.rfl (fun _ => .pure ⟨_, rfl⟩) fun _ => ?_
  refine .ite Iff.rfl (fun _ => .pure ⟨_, rfl⟩) fun _ => ?_
  refine .ite Iff.rfl (fun _ => .pure ⟨_, rfl⟩) fun _ => ?_
  refine .bind (lifts_myAssert id) fun _ _ _ _ => ?_
  refine .ite Iff.rfl (fun _ => ?_) fun _ => ?_
  · exact .ite Iff.rfl (fun _ => .pure ⟨_, rfl⟩) fun _ => .pure ⟨_, rfl⟩
  simp only [hlast]
  refine .bind (lifts_myAssert id) fun _ _ _ _ => ?_
  refine .ite Iff.rfl (fun _ => ?_) fun _ => .pure ⟨_, rfl⟩
  exact .bind (lifts_myAssert id) fun _ _ _ _ => .pure ⟨_, rfl⟩

/-- No entry of a request that is accepted meets one that was dropped. -/
theorem Dropped.leavesStaleSuffix (h : rf.Dropped pre) (saved : Saved n C D)
    {args : AppendEntriesArgs n C} (hargs : ContiguousFrom args.prevlogindex args.entries)
    (hmatch : rf.matchLog args.prevlogindex args.prevlogterm = .ok true)
    (hs : (rf.whole pre saved).LeavesStaleSuffix args) : rf.LeavesStaleSuffix args := by
  obtain ⟨hterm, hprev, -, hlast, own, hown, e, he, hindex, hne⟩ := hs
  rw [h.getLastLogIndex saved] at hprev hlast
  obtain ⟨hlo, -⟩ := matchLog_eq_ok.1 hmatch
  refine ⟨hterm, hprev, hmatch, hlast, own, ?_, e, he, hindex, hne⟩
  refine (List.mem_append.1 hown).resolve_left fun hpre => ?_
  obtain ⟨q, hq⟩ := List.mem_iff_getElem?.1 hpre
  have hbelow := h.contiguous q own hq
  have hlt := (List.getElem?_eq_some_iff.1 hq).1
  have habove := hargs.lt_logindex he
  have := h.length
  omega

section Merge

variable [DecidableEq C]

/-- The loop of `appendEntries1` touches nothing that was dropped. -/
theorem Dropped.mergeEntry (h : rf.Dropped pre) (saved : Saved n C D) (log : LogEntry C) :
    Lifts (fun rf x => rf.Dropped pre ∧ x = rf.whole pre saved) (rf.mergeEntry log)
      ((rf.whole pre saved).mergeEntry log) := by
  have hdropped : ∀ l, Dropped { rf with logs := l } pre :=
    fun _ => h.of_point rfl rfl
  have hslice : Lifts (fun k k' => k' = pre.length + k) (rf.getSlicesIndexFromLogIndex log.logindex)
      ((rf.whole pre saved).getSlicesIndexFromLogIndex log.logindex) := by
    rintro k hk
    obtain ⟨hlo, hhi, rfl⟩ := getSlicesIndexFromLogIndex_eq_ok.1 hk
    have hlen := h.length
    exact ⟨_, getSlicesIndexFromLogIndex_eq_ok.2 ⟨show (0 : ℤ) < _ by omega,
      h.getLastLogIndex saved ▸ hhi, h.slice hlo⟩, rfl⟩
  have hlogAt : ∀ k, Lifts (· = ·) (rf.logAt k) ((rf.whole pre saved).logAt (pre.length + k)) := by
    intro k e he
    refine ⟨e, logAt_eq_ok.2 ?_, rfl⟩
    rw [whole_logs, List.getElem?_append_right (Nat.le_add_right _ _), Nat.add_sub_cancel_left]
    exact logAt_eq_ok.1 he
  unfold Raft.mergeEntry
  rw [h.getLastLogIndex]
  refine .ite Iff.rfl (fun _ => .pure ⟨hdropped _, ?_⟩) fun _ => ?_
  · simp only [whole, List.append_assoc]
  refine .bind hslice ?_
  rintro k _ - rfl
  refine .bind (hlogAt k) ?_
  rintro own _ - rfl
  refine .bind (lifts_myAssert id) fun _ _ _ _ => ?_
  refine .ite Iff.rfl (fun _ => .pure ⟨hdropped _, ?_⟩) fun _ => .pure ⟨h, rfl⟩
  simp only [whole, List.set_append_right (pre.length + k) log (Nat.le_add_right _ _),
    Nat.add_sub_cancel_left]

/-- A request that is accepted is accepted with the whole log.  One that is refused may be refused
with another hint, as the search for it ends at the snapshot point. -/
theorem Dropped.appendEntries1 (h : rf.Dropped pre) (hc : rf.Contiguous) (saved : Saved n C D)
    (args : AppendEntriesArgs n C) :
    Lifts (fun r r' => r.2.success = true → Whole pre r r') (rf.appendEntries1 args)
      ((rf.whole pre saved).appendEntries1 args) := by
  unfold Raft.appendEntries1
  refine .ite Iff.rfl (fun _ => .pure fun hno => by cases hno) fun _ => ?_
  rw [whole_meetTerm]
  refine .bind (lifts_myAssert id) fun _ _ _ _ => ?_
  obtain ⟨rf₁, hrf₁⟩ : ∃ rf₁, { rf.meetTerm args.term with status := .follower } = rf₁ := ⟨_, rfl⟩
  have hwhole : { (rf.meetTerm args.term).whole pre saved with status := .follower } =
      rf₁.whole pre saved := by
    rw [← hrf₁]
    rfl
  have hsame : rf.SameEntries rf₁ := by
    have := (sameLog_meetTerm rf args.term).toSameEntries
    exact hrf₁ ▸ this.trans ⟨rfl, rfl, rfl⟩
  have h₁ := h.of_sameEntries hsame
  have hc₁ : rf₁.Contiguous := by
    unfold Contiguous
    rw [hsame.logs, hsame.lastSnapshotIncludeIndex]
    exact hc
  have hpoint : (rf.meetTerm args.term).lastSnapshotIncludeIndex =
      rf₁.lastSnapshotIncludeIndex := by
    rw [← hrf₁]
  simp only [hrf₁, hwhole, h₁.getLastLogIndex]
  refine .ite Iff.rfl (fun _ => .pure fun hno => by cases hno) fun hprev => ?_
  have hmatch : Lifts (· = ·) (rf₁.matchLog args.prevlogindex args.prevlogterm)
      ((rf₁.whole pre saved).matchLog args.prevlogindex args.prevlogterm) :=
    fun b hb => ⟨b, h₁.matchLog saved hb, rfl⟩
  refine .bind hmatch ?_
  rintro b _ hb rfl
  obtain ⟨hlo, -⟩ := matchLog_eq_ok.1 hb
  refine .ite Iff.rfl (fun _ => ?_) fun _ => ?_
  · refine .bind (Lifts.foldlM (R := fun a x => a.Dropped pre ∧ x = a.whole pre saved)
      (fun e _ a x hax => ?_) ⟨h₁, rfl⟩) ?_
    · obtain ⟨ha, rfl⟩ := hax
      exact ha.mergeEntry saved e
    rintro rf₂ _ - ⟨h₂, rfl⟩
    have hlast : ∀ i, Raft.getLastLogIndex { rf₂.whole pre saved with commitIndex := i } =
      Raft.getLastLogIndex { rf₂ with commitIndex := i } := fun _ => h₂.getLastLogIndex saved
    simp only [h₂.getLastLogIndex, hlast]
    refine .bind (lifts_myAssert id) fun _ _ _ _ => .bind (lifts_myAssert id) fun _ _ _ _ =>
      .pure fun _ => ?_
    have hzero : ¬ args.prevlogindex <
        ((rf.meetTerm args.term).whole pre saved).lastSnapshotIncludeIndex := by
      have hlen := h₁.length
      rw [whole_lastSnapshotIncludeIndex]
      omega
    simp only [if_neg (not_lt.2 (hpoint.trans_le hlo)), if_neg hzero]
    exact ⟨_, rfl⟩
  · -- both refuse, each with its own hint
    intro r hr
    obtain ⟨_, -, hr⟩ := bind_eq_ok.1 hr
    obtain rfl := pure_eq_ok.1 hr
    obtain ⟨found, hfound⟩ := h₁.otherTermBelow hc₁ saved hlo (not_lt.1 hprev)
    exact ⟨_, bind_eq_ok.2 ⟨found, hfound, rfl⟩, fun hno => by cases hno⟩

end Merge

/-! ### Applying and compacting -/

theorem Dropped.applyNext (h : rf.Dropped pre) (saved : Saved n C D) (k : ℕ) :
    Lifts (Whole pre) (rf.applyNext k) ((rf.whole pre saved).applyNext k) := by
  induction k generalizing rf with
  | zero => exact .pure ⟨saved, rfl⟩
  | succ k ih =>
    unfold Raft.applyNext
    have h₁ : Dropped { rf with lastApplied := rf.lastApplied + 1 } pre := h.of_point rfl rfl
    have hlog : Lifts (· = ·)
        (Raft.logOf { rf with lastApplied := rf.lastApplied + 1 } (rf.lastApplied + 1))
        (Raft.logOf { rf.whole pre saved with lastApplied := rf.lastApplied + 1 }
          (rf.lastApplied + 1)) := fun e he => ⟨e, h₁.logOf saved he, rfl⟩
    refine .bind hlog ?_
    rintro e _ - rfl
    refine .bind (lifts_myAssert id) fun _ _ _ _ => .bind (ih h₁) ?_
    rintro ⟨rf₂, msgs⟩ _ - ⟨saved', rfl⟩
    exact .pure ⟨saved', rfl⟩

theorem Dropped.getApplyLogs (h : rf.Dropped pre) (saved : Saved n C D) :
    Lifts (Whole pre) rf.getApplyLogs (rf.whole pre saved).getApplyLogs := by
  unfold Raft.getApplyLogs
  rw [h.getLastLogIndex]
  exact .bind (lifts_myAssert id) fun _ _ _ _ => h.applyNext saved _

/-- What a node has dropped that has the point of a snapshot of `l`. -/
theorem dropped_take {l : List (LogEntry C)} (hl : ContiguousFrom 0 l) {k : ℕ} (hk : k ≤ l.length)
    (hindex : rf.lastSnapshotIncludeIndex = k)
    (hterm : rf.lastSnapshotIncludeTerm = lastTerm LogEntry.logterm (l.take k)) :
    rf.Dropped (l.take k) where
  length := by rw [List.length_take_of_le hk, hindex]
  term := hterm.symm
  contiguous := hl.take k

/-- Compacting a log leaves the whole log as it is. -/
theorem Dropped.snapshot (h : rf.Dropped pre) (ho : rf.Ordered) {index : ℤ} {data : D}
    (heq : rf.snapshot index data = .ok rf') :
    ∃ pre', rf'.Dropped pre' ∧ ∀ saved,
      rf'.whole pre' saved = { rf.whole pre saved with lastApplied := rf'.lastApplied } := by
  by_cases hreject : rf.lastSnapshotIncludeIndex ≥ index ∨ index > rf.commitIndex
  · unfold Raft.snapshot at heq
    rw [if_pos hreject] at heq
    obtain rfl := pure_eq_ok.1 heq
    exact ⟨pre, h, fun _ => rfl⟩
  rw [not_or, not_le, not_lt] at hreject
  obtain ⟨hlo, hcommit⟩ := hreject
  have hhi := hcommit.trans ho.commit_le
  obtain ⟨log, hlog, heq'⟩ := ho.contiguous.snapshot_eq data hlo hcommit hhi
  obtain rfl := Except.ok.inj (heq.symm.trans heq')
  have hlen := h.length
  have hlast := ho.getLastLogIndex
  obtain ⟨k, hk⟩ : ∃ k : ℕ, index = k + 1 := ⟨(index - 1).toNat, by omega⟩
  -- the snapshot point is an entry of the whole log
  obtain ⟨-, -, hget⟩ := logOf_eq_ok.1 (h.logOf {} hlog)
  rw [whole_logs, whole_lastSnapshotIncludeIndex, show (index - 0 - 1).toNat = k by omega] at hget
  have hcont : ContiguousFrom 0 (pre ++ rf.logs) := h.whole_contiguous ho.contiguous {}
  refine ⟨(pre ++ rf.logs).take (k + 1), dropped_take hcont ?_ hk ?_, fun saved => ?_⟩
  · rw [List.length_append]
    omega
  · rw [lastTerm_take hget]
    rfl
  · have hdrop : (pre ++ rf.logs).take (k + 1) ++
        rf.logs.drop (index - rf.lastSnapshotIncludeIndex).toNat = pre ++ rf.logs := by
      conv_rhs => rw [← List.take_append_drop (k + 1) (pre ++ rf.logs)]
      rw [List.drop_append, List.drop_of_length_le (show pre.length ≤ k + 1 by omega),
        List.nil_append]
      congr 2
      omega
    simp only [whole, Raft.save, hdrop, max_eq_left hcommit]

end Raft

end KvRaft
