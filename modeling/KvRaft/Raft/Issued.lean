import KvRaft.Raft.LogIndices

/-!
# Which requests a follower answers

Entries are made by `start` only, on a leader, behind the end of its log.  So an index and a term
determine an entry, in all logs and in all requests that are on their way, with compaction or
without.

* `Cluster.Issued` : the entries that were ever made, as a set, and where they are.
* `Raft.Within.answers` : `appendEntries1` runs through if and only if the request is of an older
  term or does not start below the snapshot point.
* `Cluster.answers_iff` : the same for every node of a reachable cluster and every request that
  a heartbeat has built.

A request that starts below the snapshot point gets its reply filled in and then goes on to
`matchLog`, whose assertion ends the process; the branches around it return.
-/

namespace KvRaft

open Raft

namespace Raft

variable {n : ℕ} {C D : Type} [DecidableEq C] {rf rf' : Raft n C D}

/-! ### When `appendEntries1` runs through -/

/-- The handler returns, and has filled the reply. -/
def Answers (rf : Raft n C D) (args : AppendEntriesArgs n C) : Prop :=
  ∃ rf' reply, rf.appendEntries1 args = .ok (rf', reply) ∧ reply.appstate = .appNormal

/-- Entries with equal index and term are equal. -/
def Agree (l l' : List (LogEntry C)) : Prop :=
  ∀ e ∈ l, ∀ e' ∈ l', e.logindex = e'.logindex → e.logterm = e'.logterm → e = e'

omit [DecidableEq C] in
theorem Contiguous.getLogTermFromLogIndex (h : rf.Contiguous) {index : ℤ}
    (hlo : rf.lastSnapshotIncludeIndex ≤ index) (hhi : index ≤ rf.getLastLogIndex) :
    ∃ t, rf.getLogTermFromLogIndex index = .ok t := by
  by_cases heq : index = rf.lastSnapshotIncludeIndex
  · exact ⟨_, getLogTermFromLogIndex_eq_ok.2 ⟨hlo, hhi, Or.inl ⟨heq, rfl⟩⟩⟩
  obtain ⟨log, hlog⟩ := h.exists_logOf (by omega) hhi
  exact ⟨_, getLogTermFromLogIndex_eq_ok.2 ⟨hlo, hhi, Or.inr ⟨heq, log, hlog, rfl⟩⟩⟩

omit [DecidableEq C] in
/-- The search for another term stays above the snapshot point. -/
theorem Contiguous.otherTermBelow (h : rf.Contiguous) {prev : ℤ}
    (hprev : prev ≤ rf.getLastLogIndex) : ∀ (k : ℕ) (index : ℤ), index ≤ prev →
    rf.lastSnapshotIncludeIndex + k ≤ index + 1 → ∃ r, rf.otherTermBelow prev k index = .ok r
  | 0, _, _, _ => ⟨none, rfl⟩
  | k + 1, index, hle, hk => by
    push_cast at hk
    have hlo : rf.lastSnapshotIncludeIndex ≤ index := by omega
    obtain ⟨t, ht⟩ := h.getLogTermFromLogIndex hlo (hle.trans hprev)
    obtain ⟨t', ht'⟩ := h.getLogTermFromLogIndex (hlo.trans hle) hprev
    obtain ⟨r, hr⟩ := Contiguous.otherTermBelow h hprev k (index - 1) (by omega) (by omega)
    by_cases heq : t = t'
    · exact ⟨r, by simp [Raft.otherTermBelow, ht, ht', heq, hr, bind, Except.bind]⟩
    · exact ⟨some index, by
        simp [Raft.otherTermBelow, ht, ht', heq, bind, Except.bind, pure, Except.pure]⟩

theorem Contiguous.mergeEntry (h : rf.Contiguous) {log : LogEntry C}
    (hlog : rf.lastSnapshotIncludeIndex < log.logindex) (hsame : Agree rf.logs [log]) :
    ∃ rf', rf.mergeEntry log = .ok rf' := by
  by_cases hnew : log.logindex > rf.getLastLogIndex
  · refine ⟨{ rf with logs := rf.logs ++ [log] }, ?_⟩
    simp [Raft.mergeEntry, hnew]
  obtain ⟨slice, hs⟩ : ∃ slice, (log.logindex - rf.lastSnapshotIncludeIndex - 1).toNat = slice :=
    ⟨_, rfl⟩
  have hlt : slice < rf.logs.length := by
    rw [h.getLastLogIndex] at hnew
    omega
  obtain ⟨own, hown⟩ : ∃ own, rf.logs[slice]? = some own := ⟨_, List.getElem?_eq_getElem hlt⟩
  have hslice := getSlicesIndexFromLogIndex_eq_ok.2 ⟨hlog, not_lt.1 hnew, hs⟩
  have hagree : own.logterm = log.logterm → own = log := by
    have hindex := h slice own hown
    exact hsame own (List.mem_of_getElem? hown) log (List.mem_singleton_self _) (by omega)
  have hok : myAssert (¬ (own.logterm = log.logterm ∧ own.command ≠ log.command))
      .sameEntryOtherCommand = .ok () :=
    myAssert_eq_ok.2 fun hne => hne.2 (by rw [hagree hne.1])
  simp only [Raft.mergeEntry, if_neg hnew, bind_eq_ok]
  by_cases hterm : own.logterm = log.logterm
  · refine ⟨rf, slice, hslice, own, logAt_eq_ok.2 hown, (), hok, ?_⟩
    rw [if_neg (not_not.2 hterm)]
    rfl
  · exact ⟨_, slice, hslice, own, logAt_eq_ok.2 hown, (), hok, by rw [if_pos hterm]; rfl⟩

/-- The loop over the entries runs through when none of them contradicts the log. -/
theorem Contiguous.foldlM_mergeEntry : ∀ {entries : List (LogEntry C)} {rf : Raft n C D} {p : ℕ},
    rf.Contiguous → p ≤ rf.logs.length →
    ContiguousFrom (rf.lastSnapshotIncludeIndex + p) entries → Agree rf.logs entries →
    ∃ rf', entries.foldlM Raft.mergeEntry rf = .ok rf'
  | [], rf, _, _, _, _, _ => ⟨rf, rfl⟩
  | log :: entries, rf, p, hc, hp, he, hsame => by
    obtain ⟨hlog, htail⟩ := he.tail
    have hlog : log.logindex = rf.lastSnapshotIncludeIndex + p + 1 := hlog
    have hlo : rf.lastSnapshotIncludeIndex < log.logindex := by omega
    obtain ⟨rf₁, h₁⟩ := hc.mergeEntry hlo
      fun e he' e' hmem => hsame e he' e' (List.mem_of_mem_take (i := 1) hmem)
    obtain ⟨hrf₁, -⟩ := mergeEntry_eq hc hp hlog h₁
    have hlogs : rf₁.logs = rf.logs.take p ++ log :: rf.logs.drop (p + 1) := by rw [hrf₁]
    have hsnap : rf₁.lastSnapshotIncludeIndex = rf.lastSnapshotIncludeIndex := by rw [hrf₁]
    have hc₁ : rf₁.Contiguous := by
      unfold Contiguous
      rw [hlogs, hsnap]
      exact ContiguousFrom.splice hc hp hlog
    have htail₁ : ContiguousFrom (rf₁.lastSnapshotIncludeIndex + (p + 1 : ℕ)) entries := by
      rw [hsnap]
      push_cast
      rwa [← Int.add_assoc]
    -- what was written in this round is below all that is still to come
    have hsame₁ : Agree rf₁.logs entries := by
      intro e hmem e' hmem' hindex hterm
      have hold : e ∈ rf.logs → e = e' := fun hmem =>
        hsame e hmem e' (List.mem_cons_of_mem _ hmem') hindex hterm
      rw [hlogs, List.mem_append, List.mem_cons] at hmem
      rcases hmem with hmem | rfl | hmem
      · exact hold (List.mem_of_mem_take hmem)
      · obtain ⟨k, hk⟩ := List.mem_iff_getElem?.1 hmem'
        have := htail k e' hk
        omega
      · exact hold (List.mem_of_mem_drop hmem)
    obtain ⟨rf', h'⟩ := Contiguous.foldlM_mergeEntry hc₁ (by simp [hlogs, hp]) htail₁ hsame₁
    exact ⟨rf', by rw [List.foldlM_cons]; exact bind_eq_ok.2 ⟨rf₁, h₁, h'⟩⟩

/-- **When `appendEntries1` answers.**  On a log without gaps that covers what is committed, with
entries that contradict none of its own, it fails exactly on a request of its term or a newer one
that starts below the snapshot point. -/
theorem Within.answers (ho : rf.Within) {args : AppendEntriesArgs n C}
    (he : ContiguousFrom args.prevlogindex args.entries) (hsame : Agree rf.logs args.entries) :
    rf.Answers args ↔
      args.term < rf.currentTerm ∨ rf.lastSnapshotIncludeIndex ≤ args.prevlogindex := by
  by_cases hlt : args.term < rf.currentTerm
  · refine iff_of_true ⟨rf, ⟨rf.currentTerm, false, -100, .appNormal⟩, ?_, rfl⟩ (Or.inl hlt)
    simp [Raft.appendEntries1, hlt, pure, Except.pure]
  rw [or_iff_right hlt]
  -- the node as a follower in the term of the request
  obtain ⟨rf₁, hrf₁⟩ : ∃ rf₁, { rf.meetTerm args.term with status := .follower } = rf₁ :=
    ⟨_, rfl⟩
  have hs : rf.SameLog rf₁ := by
    have := sameLog_meetTerm rf args.term
    exact hrf₁ ▸ this.trans ⟨⟨rfl, rfl, rfl⟩, rfl, rfl, rfl⟩
  have hterm : args.term = (rf.meetTerm args.term).currentTerm :=
    (meetTerm_currentTerm (not_lt.1 hlt)).symm
  have ho₁ := ho.of_sameLog hs
  rw [← hs.lastSnapshotIncludeIndex]
  have hlast := ho₁.getLastLogIndex
  unfold Answers
  simp only [Raft.appendEntries1, if_neg hlt, hrf₁, bind_eq_ok, myAssert_eq_ok]
  by_cases hprev : args.prevlogindex > rf₁.getLastLogIndex
  · exact iff_of_true ⟨_, _, ⟨(), hterm, if_pos hprev⟩, rfl⟩ (by omega)
  simp only [if_neg hprev, bind_eq_ok]
  constructor
  · rintro ⟨rf', reply, ⟨_, -, b, hb, -⟩, -⟩
    exact (matchLog_eq_ok.1 hb).1
  intro hsnap
  obtain ⟨t, ht⟩ := ho₁.contiguous.getLogTermFromLogIndex hsnap (not_lt.1 hprev)
  have hmatch : rf₁.matchLog args.prevlogindex args.prevlogterm =
      .ok (decide (args.prevlogterm = t)) :=
    matchLog_eq_ok.2 ⟨hsnap, not_lt.1 hprev, t, ht, rfl⟩
  by_cases hpt : args.prevlogterm = t
  · -- the entries are merged
    obtain ⟨q, hq⟩ : ∃ q : ℕ, args.prevlogindex = rf₁.lastSnapshotIncludeIndex + q :=
      ⟨(args.prevlogindex - rf₁.lastSnapshotIncludeIndex).toNat, by omega⟩
    have hle : q ≤ rf₁.logs.length := by omega
    rw [hq] at he
    obtain ⟨rf₂, hm⟩ := ho₁.contiguous.foldlM_mergeEntry hle he (hs.logs ▸ hsame)
    obtain ⟨-, hgrow, hends⟩ := ho₁.contiguous.merged hle he hm
    have hcommit₂ : rf₂.commitIndex = rf₁.commitIndex := by rw [foldlM_mergeEntry_logs hm]
    have hcommit := ho₁.commit_le
    refine ⟨_, _, ⟨(), hterm, true, by rw [hmatch, decide_eq_true hpt],
      bind_eq_ok.2 ⟨rf₂, hm, bind_eq_ok.2 ⟨(), myAssert_eq_ok.2 (by omega),
        bind_eq_ok.2 ⟨(), myAssert_eq_ok.2 ?_, rfl⟩⟩⟩⟩, ?_⟩
    · change (if _ then _ else _) ≤ rf₂.getLastLogIndex
      split_ifs
      · exact min_le_right _ _
      · omega
    · dsimp only
      split_ifs <;> rfl
  · have hsnap₁ : (rf.meetTerm args.term).lastSnapshotIncludeIndex =
        rf₁.lastSnapshotIncludeIndex := by rw [← hrf₁]
    obtain ⟨r, hr⟩ := ho₁.contiguous.otherTermBelow (not_lt.1 hprev)
      (args.prevlogindex - (rf.meetTerm args.term).lastSnapshotIncludeIndex + 1).toNat
      args.prevlogindex le_rfl (by omega)
    refine ⟨_, _, ⟨(), hterm, false, by rw [hmatch, decide_eq_false hpt],
      bind_eq_ok.2 ⟨r, hr, rfl⟩⟩, ?_⟩
    dsimp only
    split_ifs <;> rfl

end Raft

namespace Cluster

variable {n : ℕ} {C D : Type} {c c' : Cluster n C D} {issued : Set (LogEntry C)}

/-! ### The entries that were made -/

/-- **Where entries are.**  All entries in logs and requests were issued; those of the term of a
leader are not behind its log. -/
structure Issued (c : Cluster n C D) (issued : Set (LogEntry C)) : Prop where
  unique : ∀ e ∈ issued, ∀ e' ∈ issued, e.logindex = e'.logindex → e.logterm = e'.logterm → e = e'
  log : ∀ i, ∀ e ∈ (c.raft i).logs, e ∈ issued
  call : ∀ (k : ℕ) (me server : Fin n) (args : AppendEntriesArgs n C) (p : ℕ)
    (phase : Phase AppendEntriesReply),
    c.threads[k]? = some (.sendAppendEntries me server args p phase) →
      ∀ e ∈ args.entries, e ∈ issued
  elected : ∀ e ∈ issued, ∃ i, (i, e.logterm) ∈ c.elections
  leader : ∀ i, (c.raft i).status = .leader → ∀ e ∈ issued, e.logterm = (c.raft i).currentTerm →
    e.logindex ≤ (c.raft i).getLastLogIndex

theorem issued_init : Issued (init : Cluster n C D) ∅ where
  unique e h := by cases h
  log i e h := by cases h
  call k me server args p phase h := by simp [init] at h
  elected e h := by cases h
  leader i hl e h := by cases h

/-- The entry that a leader has made in a step. -/
def Fresh (c c' : Cluster n C D) (e : LogEntry C) (i : Fin n) : Prop :=
  (c.raft i).status = .leader ∧ e.logterm = (c.raft i).currentTerm ∧
    e.logindex = (c.raft i).getLastLogIndex + 1 ∧ e ∈ (c'.raft i).logs

/-- After a step the entries of a log are issued or fresh. -/
theorem Issued.log_step (hs : c.Issued issued) {i : Fin n} (h : LogMoves c i (c'.raft i)) :
    ∀ e ∈ (c'.raft i).logs, e ∈ issued ∨ Fresh c c' e i := by
  intro e he
  cases h with
  | same hsame => exact Or.inl (hs.log i e (hsame.logs ▸ he))
  | start command hl hlogs hsnap =>
    rcases List.mem_append.1 (hlogs ▸ he) with hold | hnew
    · exact Or.inl (hs.log i e hold)
    · obtain rfl := List.mem_singleton.1 hnew
      exact Or.inr ⟨hl, rfl, rfl, he⟩
  | merge k q me args p hk _ _ hlogs =>
    rw [hlogs, List.mem_append, List.mem_append] at he
    rcases he with (he | he) | he
    · exact Or.inl (hs.log i e (List.mem_of_mem_take he))
    · exact Or.inl (hs.call k me i args p _ hk e he)
    · exact Or.inl (hs.log i e (List.mem_of_mem_drop he))
  | compact m _ hlogs => exact Or.inl (hs.log i e (List.mem_of_mem_drop (hlogs ▸ he)))
  | install _ hlogs =>
    rw [hlogs] at he
    cases he

variable [DecidableEq C] {a : Action n C D}

/-- **Every step keeps track of the entries.** -/
theorem Issued.step (h : (machine n C D).Reachable init c) (hs : c.Issued issued)
    (hst : c.step a = some c') : c'.Issued (issued ∪ {e | ∃ i, e ∈ (c'.raft i).logs}) := by
  have hi := indexed_of_reachable h
  have hm := moves_of_step hst
  have hi' := hi.step hm
  obtain ⟨-, hleader, -⟩ := election_safety h
  have hnew : ∀ e ∈ issued ∪ {e | ∃ i, e ∈ (c'.raft i).logs},
      e ∈ issued ∨ ∃ i, Fresh c c' e i := by
    rintro e (he | ⟨i, he⟩)
    · exact Or.inl he
    · exact (hs.log_step (hi.logMoves hm i) e he).imp id fun hf => ⟨i, hf⟩
  -- a fresh entry is behind all that its maker has issued in its term
  have hbehind : ∀ {e e' : LogEntry C} {i : Fin n}, Fresh c c' e i → e' ∈ issued →
      e'.logterm = e.logterm → e'.logindex < e.logindex := by
    intro e e' i hf he' hterm
    have := hs.leader i hf.1 e' he' (hterm.trans hf.2.1)
    have := hf.2.2.1
    omega
  have hsame : ∀ {e e' : LogEntry C} {i j : Fin n}, Fresh c c' e i → Fresh c c' e' j →
      e.logterm = e'.logterm → i = j := by
    intro e e' i j hf hf' hterm
    have hT : (c.raft j).currentTerm = (c.raft i).currentTerm := by
      rw [← hf.2.1, ← hf'.2.1, hterm]
    exact elections_unique h (hleader i hf.1) (hT ▸ hleader j hf'.1)
  refine ⟨fun e he e' he' hindex hterm => ?_, fun i e he => Or.inr ⟨i, he⟩,
    fun k me server args p phase hk e he => Or.inl ?_, fun e he => ?_, fun i hl e he hterm => ?_⟩
  · rcases hnew e he with he | ⟨i, hf⟩ <;> rcases hnew e' he' with he' | ⟨j, hf'⟩
    · exact hs.unique e he e' he' hindex hterm
    · exact absurd hindex (hbehind hf' he hterm).ne
    · exact absurd hindex (hbehind hf he' hterm.symm).ne'
    · obtain rfl := hsame hf hf' hterm
      obtain ⟨k, hk⟩ := List.mem_iff_getElem?.1 hf.2.2.2
      obtain ⟨k', hk'⟩ := List.mem_iff_getElem?.1 hf'.2.2.2
      have hc := (hi'.node i).contiguous
      obtain rfl : k = k' := by
        have := hc k e hk
        have := hc k' e' hk'
        omega
      exact Option.some.inj (hk.symm.trans hk')
  · rcases callMoves_request hm hk with ⟨_, hold⟩ | ⟨-, -, hb, -⟩
    · exact hs.call k me server args p _ hold e he
    · rcases heartBeatTo_cases hb with ⟨hb, -⟩ | ⟨prev, term, -, hb⟩
      · cases hb
      · obtain ⟨-, rfl⟩ := HeartBeat.sendAppendEntries.inj hb
        exact hs.log me e (List.mem_of_mem_drop he)
  · rcases hnew e he with he | ⟨i, hf⟩
    · obtain ⟨i, hi⟩ := hs.elected e he
      exact ⟨i, elections_subset hm hi⟩
    · exact ⟨i, elections_subset hm (hf.2.1 ▸ hleader i hf.1)⟩
  · rcases leader_of_step h hst hl with ⟨hl₀, hT⟩ | hnone
    · rcases hnew e he with he | ⟨j, hf⟩
      · exact (hs.leader i hl₀ e he (hterm.trans hT)).trans (getLastLogIndex_le_step hi hst i)
      · obtain rfl : i = j := elections_unique h (hleader i hl₀) <| by
          rw [← hT, ← hterm, hf.2.1]
          exact hleader j hf.1
        obtain ⟨k, hk⟩ := List.mem_iff_getElem?.1 hf.2.2.2
        have := (hi'.node i).contiguous k e hk
        have := (hi'.node i).getLastLogIndex
        have := (List.getElem?_eq_some_iff.1 hk).1
        omega
    · rw [← hterm] at hnone
      rcases hnew e he with he | ⟨j, hf⟩
      · obtain ⟨j, hj⟩ := hs.elected e he
        exact absurd hj (hnone j)
      · exact absurd (hf.2.1 ▸ hleader j hf.1) (hnone j)

theorem exists_issued (h : (machine n C D).Reachable init c) : ∃ issued, c.Issued issued := by
  induction h with
  | refl => exact ⟨∅, issued_init⟩
  | tail hr _ hst ih =>
    obtain ⟨issued, hs⟩ := ih
    exact ⟨_, hs.step hr hst⟩

/-! ### Aborts -/

/-- **When a node answers a request that was built in the run**, however late it arrives: unless
the request is of the node's term or a newer one and starts below its snapshot point.  Then the
assertion of `matchLog` fails. -/
theorem answers_iff (h : (machine n C D).Reachable init c) {k : ℕ} {me server : Fin n}
    {args : AppendEntriesArgs n C} {p : ℕ} {phase : Phase AppendEntriesReply}
    (hk : c.threads[k]? = some (.sendAppendEntries me server args p phase)) (j : Fin n) :
    (c.raft j).Answers args ↔ args.term < (c.raft j).currentTerm ∨
      (c.raft j).lastSnapshotIncludeIndex ≤ args.prevlogindex := by
  obtain ⟨issued, hs⟩ := exists_issued h
  have hi := indexed_of_reachable h
  refine (hi.node j).within.answers (hi.thread _ (List.mem_of_getElem? hk)) ?_
  intro e he e' he'
  exact hs.unique e (hs.log j e he) e' (hs.call k me server args p phase hk e' he')

/-- Node `0` sends its entry to node `1` twice; node `1` commits, applies and compacts it before
the second request arrives. -/
def lateRun : List (Action 3 String Unit) :=
  [.doElection 0, .deliver 0, .reply 0, .start 0 "x", .doHeartBeat 0, .doHeartBeat 0,
    .deliver 2, .reply 2, .doHeartBeat 0, .deliver 6,
    .getApplyLogs 1, .pushApplyMsg 1, .consume 1, .snapshot 1 ()]

/-- The request that arrives late. -/
def lateRequest : AppendEntriesArgs 3 String := ⟨1, 0, 0, 0, [⟨"x", 1, 1⟩], 0⟩

theorem lateRun_eq : ((machine 3 String Unit).run init lateRun).map (fun c =>
    (c.threads[4]?, (c.raft 1).appendEntries1 lateRequest matches .error .matchLogRange)) =
      some (some (.sendAppendEntries 0 1 lateRequest 1 .calling), true) := by decide +kernel

theorem answers_iff_lateRun : ∃ c, (machine 3 String Unit).run init lateRun = some c ∧
    c.threads[4]? = some (.sendAppendEntries 0 1 lateRequest 1 .calling) ∧
      ((c.raft 1).Answers lateRequest ↔ lateRequest.term < (c.raft 1).currentTerm ∨
        (c.raft 1).lastSnapshotIncludeIndex ≤ lateRequest.prevlogindex) := by
  obtain ⟨c, hc, h⟩ := Option.map_eq_some_iff.1 lateRun_eq
  have hk := (Prod.mk.inj h).1
  exact ⟨c, hc, hk, answers_iff (Machine.reachable_of_run hc) hk 1⟩

/-- A request that arrives late ends its receiver: it is of the receiver's term and starts below
its snapshot point, and the reply that says so is not returned. -/
theorem not_answers : ¬ ∀ c, (machine 3 String Unit).Reachable init c →
    ∀ (k : ℕ) (me server : Fin 3) (args : AppendEntriesArgs 3 String) (p : ℕ),
      c.threads[k]? = some (.sendAppendEntries me server args p .calling) →
        (c.raft server).Answers args := by
  intro hall
  obtain ⟨c, hc, h⟩ := Option.map_eq_some_iff.1 lateRun_eq
  obtain ⟨hk, herror⟩ := Prod.mk.inj h
  obtain ⟨rf', reply, heq, -⟩ := hall c (Machine.reachable_of_run hc) 4 0 1 lateRequest 1 hk
  rw [heq] at herror
  cases herror

end Cluster

end KvRaft
