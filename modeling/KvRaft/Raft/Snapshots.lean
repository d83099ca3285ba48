import KvRaft.Raft.Slices

/-!
# What the snapshot handlers leave of a log

* `Raft.Compacted` : a log was compacted: what is behind the new snapshot point can be asked for as
  before.
* `Crashing.snapshot_preserves` : in every reachable state `snapshot` does nothing or compacts the
  log, and no assertion fails.
* `Raft.installSnapshot_keeps_iff` : when `installSnapshot` keeps only what follows an entry that
  the snapshot agrees with.  It looks at indices only.
* `Raft.condInstallSnapshot_trims_iff` : when `condInstallSnapshot` leaves what is behind the
  snapshot.  It erases that part, and fails when the snapshot ends with the log.
-/

namespace KvRaft

open Raft

namespace Raft

variable {n : ℕ} {C D : Type} {rf rf' : Raft n C D}

/-! ### Suffixes of a log without gaps -/

theorem ContiguousFrom.lt_logindex {base : ℤ} {l : List (LogEntry C)} (h : ContiguousFrom base l)
    {e : LogEntry C} (he : e ∈ l) : base < e.logindex := by
  obtain ⟨k, hk⟩ := List.mem_iff_getElem?.1 he
  have := h k e hk
  omega

/-- The entries behind an index are those of greater indices. -/
theorem ContiguousFrom.drop_eq_filter {base index : ℤ} {l : List (LogEntry C)}
    (h : ContiguousFrom base l) (hle : base ≤ index) :
    l.drop (index - base).toNat = l.filter (index < ·.logindex) := by
  induction l generalizing base with
  | nil => simp
  | cons e l ih =>
    obtain ⟨he, htail⟩ := h.tail
    rcases hle.eq_or_lt with rfl | hlt
    · -- nothing is dropped
      rw [Int.sub_self, Int.toNat_zero, List.drop_zero]
      refine (List.filter_eq_self.2 fun e' he' => ?_).symm
      simpa using h.lt_logindex he'
    · rw [show (index - base).toNat = (index - (base + 1)).toNat + 1 by omega, List.drop_succ_cons,
        ih htail hlt, List.filter_cons_of_neg]
      simpa using by omega

/-- A log that ends beyond an index has entries behind it. -/
theorem Contiguous.filter_eq_nil_iff (h : rf.Contiguous) {index : ℤ}
    (hle : rf.lastSnapshotIncludeIndex ≤ index) :
    rf.logs.filter (index < ·.logindex) = [] ↔ rf.getLastLogIndex ≤ index := by
  rw [← ContiguousFrom.drop_eq_filter h hle, List.drop_eq_nil_iff, h.getLastLogIndex]
  omega

/-! ### Compacting -/

/-- **The log was compacted up to `index`.**  Terms from there on, entries behind it and the end of
the log are as before, the commit index has not moved, and the new state is saved together with
the snapshot. -/
structure Compacted (rf rf' : Raft n C D) (index : ℤ) (data : D) : Prop where
  point : rf'.lastSnapshotIncludeIndex = index
  terms : ∀ k, index ≤ k → k ≤ rf.getLastLogIndex →
    rf'.getLogTermFromLogIndex k = rf.getLogTermFromLogIndex k
  entries : ∀ k, index < k → k ≤ rf.getLastLogIndex → rf'.logOf k = rf.logOf k
  logs : rf'.logs = rf.logs.filter (index < ·.logindex)
  lastIndex : rf'.getLastLogIndex = rf.getLastLogIndex
  lastTerm : rf'.getLastLogTerm = rf.getLastLogTerm
  commitIndex : rf'.commitIndex = rf.commitIndex
  saved : rf'.persister = ⟨some rf'.persistData, some data⟩

/-- What `snapshot` does when it does not reject, on a log without gaps that covers the index. -/
theorem Contiguous.snapshot_eq (h : rf.Contiguous) {index : ℤ} (data : D)
    (hlo : rf.lastSnapshotIncludeIndex < index) (hcommit : index ≤ rf.commitIndex)
    (hhi : index ≤ rf.getLastLogIndex) : ∃ log, rf.logOf index = .ok log ∧
      rf.snapshot index data = .ok (Raft.save { rf with
        lastSnapshotIncludeIndex := index
        lastSnapshotIncludeTerm := log.logterm
        logs := rf.logs.drop (index - rf.lastSnapshotIncludeIndex).toNat
        commitIndex := max rf.commitIndex index
        lastApplied := max rf.lastApplied index } data) := by
  have hlast := h.getLastLogIndex
  obtain ⟨log, hlog⟩ := h.exists_logOf hlo hhi
  refine ⟨log, hlog, ?_⟩
  -- the copy loop finds every entry behind the index
  have hcopy : (List.range (rf.getLastLogIndex - index).toNat).mapM (fun (k : ℕ) =>
      rf.logOf (index + 1 + k)) =
        .ok (rf.logs.drop (index - rf.lastSnapshotIncludeIndex).toNat) :=
    mapM_eq_ok_of_map (h.drop_eq hlo.le).symm
  unfold Raft.snapshot
  rw [if_neg (by omega)]
  refine bind_eq_ok.2 ⟨log, hlog, bind_eq_ok.2 ⟨_, hcopy, bind_eq_ok.2 ⟨(), ?_, rfl⟩⟩⟩
  refine myAssert_eq_ok.2 ?_
  simp only [save, List.length_drop]
  omega

theorem Contiguous.compacted (h : rf.Contiguous) {index : ℤ} {data : D}
    (hlo : rf.lastSnapshotIncludeIndex < index) (hcommit : index ≤ rf.commitIndex)
    (hhi : index ≤ rf.getLastLogIndex) :
    ∃ rf', rf.snapshot index data = .ok rf' ∧ rf.Compacted rf' index data := by
  obtain ⟨log, hlog, heq⟩ := h.snapshot_eq data hlo hcommit hhi
  refine ⟨_, heq, ?_⟩
  generalize hrf' : Raft.save _ data = rf'
  have hpoint : rf'.lastSnapshotIncludeIndex = index := by rw [← hrf']; rfl
  have hlogs : rf'.logs = rf.logs.drop (index - rf.lastSnapshotIncludeIndex).toNat := by
    rw [← hrf']
    rfl
  have hlast := h.getLastLogIndex
  have hc : rf'.Contiguous := by
    rw [Contiguous, hpoint, hlogs]
    exact ContiguousFrom.drop_to h hlo.le
  have hend : rf'.getLastLogIndex = rf.getLastLogIndex := by
    rw [hc.getLastLogIndex, hpoint, hlogs, List.length_drop]
    omega
  -- positions are counted from the new snapshot point now
  have hentries : ∀ k, index < k → k ≤ rf.getLastLogIndex → rf'.logOf k = rf.logOf k := by
    intro k hk hle
    obtain ⟨e, he⟩ := h.exists_logOf (by omega) hle
    rw [he]
    refine logOf_eq_ok.2 ⟨hpoint ▸ hk, hend ▸ hle, ?_⟩
    rw [hlogs, List.getElem?_drop, hpoint, ← (logOf_eq_ok.1 he).2.2]
    congr 1
    omega
  have hterms : ∀ k, index ≤ k → k ≤ rf.getLastLogIndex →
      rf'.getLogTermFromLogIndex k = rf.getLogTermFromLogIndex k := by
    intro k hk hle
    rcases hk.eq_or_lt with rfl | hlt
    · -- the term of the last entry that is dropped is the term of the snapshot point
      rw [getLogTermFromLogIndex_eq_ok.2
        ⟨hlo.le, hhi, Or.inr ⟨hlo.ne', log, hlog, rfl⟩⟩]
      exact getLogTermFromLogIndex_eq_ok.2
        ⟨hpoint.le, hend ▸ hhi, Or.inl ⟨hpoint.symm, by rw [← hrf']; rfl⟩⟩
    · obtain ⟨e, he⟩ := h.exists_logOf (by omega) hle
      rw [getLogTermFromLogIndex_eq_ok.2
        ⟨by omega, hle, Or.inr ⟨by omega, e, he, rfl⟩⟩]
      exact getLogTermFromLogIndex_eq_ok.2 ⟨by omega, hend ▸ hle,
        Or.inr ⟨by omega, e, (hentries k hlt hle).trans he, rfl⟩⟩
  obtain ⟨T, hT⟩ := h.getLogTermFromLogIndex (hlo.le.trans hhi) le_rfl
  refine ⟨hpoint, hterms, hentries, ?_, hend, ?_, ?_, ?_⟩
  · rw [hlogs, ContiguousFrom.drop_eq_filter h hlo.le]
  · rw [h.getLogTerm_last hT]
    refine hc.getLogTerm_last ?_
    rw [hend, hterms _ hhi le_rfl]
    exact hT
  · rw [← hrf']
    exact max_eq_left hcommit
  · rw [← hrf']
    rfl

/-! ### Taking over a snapshot -/

/-- The node has an entry with the given index and term. -/
def HasEntry (rf : Raft n C D) (index term : ℤ) : Prop :=
  ∃ e ∈ rf.logs, e.logindex = index ∧ e.logterm = term

instance (rf : Raft n C D) (index term : ℤ) : Decidable (rf.HasEntry index term) := by
  unfold HasEntry
  infer_instance

/-- **Only a matching suffix is kept** behind a snapshot that ends with `index` and `term`. -/
structure KeepsMatching (rf rf' : Raft n C D) (index term : ℤ) : Prop where
  logs : rf'.logs = if rf.HasEntry index term then rf.logs.filter (index < ·.logindex) else []
  pointIndex : rf'.lastSnapshotIncludeIndex = index
  pointTerm : rf'.lastSnapshotIncludeTerm = term

/-- What `installSnapshot` does when it does not reject: it keeps the entries behind the index. -/
theorem Contiguous.installSnapshot_eq (h : rf.Contiguous) {args : InstallSnapshotRequest n D}
    (hterm : rf.currentTerm ≤ args.term)
    (hnew : rf.lastSnapshotIncludeIndex < args.lastsnapshotincludeindex) :
    ∃ rf' reply msg, rf.installSnapshot args = .ok (rf', reply, msg) ∧
      rf'.logs = rf.logs.filter (args.lastsnapshotincludeindex < ·.logindex) ∧
      rf'.lastSnapshotIncludeIndex = args.lastsnapshotincludeindex ∧
      rf'.lastSnapshotIncludeTerm = args.lastsnapshotincludeterm := by
  simp only [Raft.installSnapshot, if_neg (not_lt.2 hterm)]
  generalize hrf₁ : (if args.term > rf.currentTerm then (rf.stepDown args.term).persist else rf) =
    rf₁
  -- the node in the term of the request
  have hs : rf.SameLog rf₁ := by
    rw [← hrf₁]
    split_ifs
    · exact (sameLog_stepDown rf _).trans (sameLog_persist _)
    · exact .refl rf
  have hs₂ : rf.SameLog { rf₁ with status := .follower } :=
    hs.trans ⟨⟨rfl, rfl, rfl⟩, rfl, rfl, rfl⟩
  rw [if_neg (by rw [hs.lastSnapshotIncludeIndex]; exact not_le.2 hnew)]
  split_ifs with hmore <;> rw [hs₂.getLastLogIndex] at hmore
  · have hslice : Raft.getSlicesIndexFromLogIndex { rf₁ with status := .follower }
        args.lastsnapshotincludeindex =
          .ok (args.lastsnapshotincludeindex - rf.lastSnapshotIncludeIndex - 1).toNat :=
      getSlicesIndexFromLogIndex_eq_ok.2 ⟨by rw [hs₂.lastSnapshotIncludeIndex]; exact hnew,
        by rw [hs₂.getLastLogIndex]; exact hmore.le, by rw [hs₂.lastSnapshotIncludeIndex]⟩
    refine ⟨_, _, _, bind_eq_ok.2 ⟨_, map_eq_ok.2 ⟨_, hslice, rfl⟩, rfl⟩, ?_, rfl, rfl⟩
    rw [← ContiguousFrom.drop_eq_filter h hnew.le]
    simp only [save, hs.logs]
    congr 1
    omega
  · refine ⟨_, _, _, bind_eq_ok.2 ⟨_, rfl, rfl⟩, ?_, rfl, rfl⟩
    exact ((h.filter_eq_nil_iff hnew.le).2 (not_lt.1 hmore)).symm

/-- **When `installSnapshot` keeps only a matching suffix**: when its log does not go beyond the
snapshot, or its own entry at that index has the term of the snapshot. -/
theorem installSnapshot_keeps_iff (h : rf.Contiguous) {args : InstallSnapshotRequest n D}
    (hterm : rf.currentTerm ≤ args.term)
    (hnew : rf.lastSnapshotIncludeIndex < args.lastsnapshotincludeindex) :
    (∃ rf' reply msg, rf.installSnapshot args = .ok (rf', reply, msg) ∧
      rf.KeepsMatching rf' args.lastsnapshotincludeindex args.lastsnapshotincludeterm) ↔
    rf.getLastLogIndex ≤ args.lastsnapshotincludeindex ∨
      rf.HasEntry args.lastsnapshotincludeindex args.lastsnapshotincludeterm := by
  obtain ⟨rf', reply, msg, heq, hlogs, hindex, hpoint⟩ := h.installSnapshot_eq hterm hnew
  have hnil := h.filter_eq_nil_iff hnew.le
  constructor
  · rintro ⟨rf'', reply', msg', heq', hkeeps⟩
    rw [heq] at heq'
    obtain rfl : rf' = rf'' := congrArg Prod.fst (Except.ok.inj heq')
    by_cases hentry : rf.HasEntry args.lastsnapshotincludeindex args.lastsnapshotincludeterm
    · exact Or.inr hentry
    · -- what was kept must be nothing
      have := hkeeps.logs
      rw [if_neg hentry, hlogs] at this
      exact Or.inl (hnil.1 this)
  · intro hcond
    refine ⟨rf', reply, msg, heq, ?_, hindex, hpoint⟩
    rw [hlogs]
    split_ifs with hentry
    · rfl
    · exact hnil.2 (hcond.resolve_right hentry)

/-- A node in term `1` with two entries of that term, none of which it knows to be committed. -/
def twoEntries : Raft 3 String Unit :=
  { Raft.init 1 {} with currentTerm := 1, logs := [⟨"x", 1, 1⟩, ⟨"y", 1, 2⟩] }

theorem twoEntries_contiguous : twoEntries.Contiguous :=
  ContiguousFrom.append (l := [⟨"x", 1, 1⟩]) (.singleton rfl) (.singleton rfl)

/-- A snapshot that ends with the first entry. -/
theorem installSnapshot_keeps_twoEntries : ∃ rf' reply msg,
    twoEntries.installSnapshot ⟨0, 1, 1, 1, ()⟩ = .ok (rf', reply, msg) ∧
      twoEntries.KeepsMatching rf' 1 1 :=
  (installSnapshot_keeps_iff twoEntries_contiguous (by decide) (by decide)).2
    (Or.inr (by decide))

/-- The leader of term `2` has committed and compacted another first entry: the second entry of
the old leader survives behind its snapshot. -/
theorem not_installSnapshot_keeps : ¬ ∀ (rf : Raft 3 String Unit)
    (args : InstallSnapshotRequest 3 Unit), rf.Contiguous → rf.currentTerm ≤ args.term →
      rf.lastSnapshotIncludeIndex < args.lastsnapshotincludeindex →
      ∃ rf' reply msg, rf.installSnapshot args = .ok (rf', reply, msg) ∧
        rf.KeepsMatching rf' args.lastsnapshotincludeindex args.lastsnapshotincludeterm := by
  intro hall
  obtain ⟨rf', reply, msg, heq, hkeeps⟩ :=
    hall twoEntries ⟨0, 2, 1, 2, ()⟩ twoEntries_contiguous (by decide) (by decide)
  have hlogs : (twoEntries.installSnapshot ⟨0, 2, 1, 2, ()⟩).toOption.map (·.1.logs) =
      some [⟨"y", 1, 2⟩] := by decide
  rw [heq] at hlogs
  have hkept : rf'.logs = [⟨"y", 1, 2⟩] := Option.some.inj hlogs
  have hempty := hkeeps.logs
  rw [if_neg (by decide), hkept] at hempty
  cases hempty

/-! ### Switching to a snapshot -/

/-- **The node has switched to a snapshot** up to `index` and has the entries behind it. -/
structure SwitchedTo (rf rf' : Raft n C D) (index term : ℤ) (data : D) : Prop where
  logs : rf'.logs = rf.logs.filter (index < ·.logindex)
  contiguous : rf'.Contiguous
  pointIndex : rf'.lastSnapshotIncludeIndex = index
  pointTerm : rf'.lastSnapshotIncludeTerm = term
  lastApplied : rf'.lastApplied = index
  commitIndex : rf'.commitIndex = index
  saved : rf'.persister = ⟨some rf'.persistData, some data⟩

/-- The entries that are kept in front of a snapshot are not those behind it. -/
theorem Contiguous.take_ne_filter (h : rf.Contiguous) {index : ℤ}
    (hlo : rf.lastSnapshotIncludeIndex ≤ index) (hhi : index < rf.getLastLogIndex) :
    rf.logs.take (index - rf.lastSnapshotIncludeIndex).toNat ≠
      rf.logs.filter (index < ·.logindex) := by
  intro heq
  obtain ⟨e, he⟩ := List.exists_mem_of_ne_nil _ fun hnil =>
    absurd ((h.filter_eq_nil_iff hlo).1 hnil) (not_le.2 hhi)
  have hbehind : index < e.logindex := by simpa using (List.mem_filter.1 he).2
  rw [← heq] at he
  obtain ⟨k, hk⟩ := List.mem_iff_getElem?.1 he
  have hindex := ContiguousFrom.take h (index - rf.lastSnapshotIncludeIndex).toNat k e hk
  have hlt := (List.getElem?_eq_some_iff.1 hk).1
  rw [List.length_take] at hlt
  omega

/-- **When `condInstallSnapshot` trims the log**: when it declines, or the snapshot goes beyond
the log.  Otherwise it keeps the entries in front of the snapshot in place of those behind it, and
fails when there are none behind it. -/
theorem condInstallSnapshot_trims_iff (h : rf.Contiguous) (term index : ℤ) (data : D) :
    (if index ≤ rf.commitIndex then rf.condInstallSnapshot term index data = .ok (rf, false)
      else ∃ rf', rf.condInstallSnapshot term index data = .ok (rf', true) ∧
        rf.SwitchedTo rf' index term data) ↔
    index ≤ rf.commitIndex ∨ rf.getLastLogIndex < index := by
  by_cases hold : index ≤ rf.commitIndex
  · rw [if_pos hold]
    exact iff_of_true (condInstallSnapshot_eq hold) (Or.inl hold)
  rw [if_neg hold, or_iff_right hold]
  unfold condInstallSnapshot
  rw [if_neg hold]
  have hlast := h.getLastLogIndex
  by_cases hbeyond : index > rf.getLastLogIndex
  · refine iff_of_true ⟨_, by rw [if_pos hbeyond]; rfl, ?_, ?_, rfl, rfl, rfl, rfl, rfl⟩ hbeyond
    · exact ((h.filter_eq_nil_iff (by omega)).2 hbeyond.le).symm
    · exact .nil _
  · refine iff_of_false ?_ hbeyond
    rintro ⟨rf', heq, hswitched⟩
    rw [if_neg hbeyond] at heq
    obtain ⟨logs, hlogs, heq⟩ := bind_eq_ok.1 heq
    obtain ⟨rfl, -⟩ := Prod.mk.inj (pure_eq_ok.1 heq)
    obtain ⟨slice, hslice, rfl⟩ := map_eq_ok.1 hlogs
    obtain ⟨hlo, hhi, rfl⟩ := getSlicesIndexFromLogIndex_eq_ok.1 hslice
    refine h.take_ne_filter (show rf.lastSnapshotIncludeIndex ≤ index by omega) (by omega) ?_
    rw [← hswitched.logs]
    simp only [save]
    congr 1
    omega

/-- A snapshot that goes beyond both entries. -/
theorem condInstallSnapshot_trims_twoEntries : ∃ rf',
    twoEntries.condInstallSnapshot 2 3 () = .ok (rf', true) ∧ twoEntries.SwitchedTo rf' 3 2 () := by
  have h := (condInstallSnapshot_trims_iff twoEntries_contiguous 2 3 ()).2 (Or.inr (by decide))
  rwa [if_neg (by decide)] at h

/-- Behind a snapshot up to the first entry, that entry is kept and the second one is erased. -/
theorem not_condInstallSnapshot_trims :
    ¬ ∀ (rf : Raft 3 String Unit) (term index : ℤ) (data : Unit), rf.Contiguous →
      if index ≤ rf.commitIndex then rf.condInstallSnapshot term index data = .ok (rf, false)
      else ∃ rf', rf.condInstallSnapshot term index data = .ok (rf', true) ∧
        rf.SwitchedTo rf' index term data := by
  intro hall
  have h := hall twoEntries 1 1 () twoEntries_contiguous
  rw [if_neg (by decide)] at h
  obtain ⟨rf', heq, hswitched⟩ := h
  have hlogs : (twoEntries.condInstallSnapshot 1 1 ()).toOption.map (·.1.logs) =
      some [⟨"x", 1, 1⟩] := by decide
  rw [heq] at hlogs
  have hkept : rf'.logs = [⟨"x", 1, 1⟩] := Option.some.inj hlogs
  have hbehind := hswitched.logs
  rw [hkept] at hbehind
  exact absurd hbehind (by decide)

end Raft

namespace Crashing

variable {n : ℕ} {C D : Type} [DecidableEq C] {s : Crashing n C D}

/-- **Compaction keeps the logical log.**  In every reachable state, for every index and snapshot,
`snapshot` rejects an index that is not behind the snapshot point or not committed and changes
nothing, and compacts the log otherwise; no assertion fails. -/
theorem snapshot_preserves (h : (machine n C D).Reachable init s) (i : Fin n) (index : ℤ)
    (data : D) :
    if (s.cluster.raft i).lastSnapshotIncludeIndex ≥ index ∨
        index > (s.cluster.raft i).commitIndex then
      (s.cluster.raft i).snapshot index data = .ok (s.cluster.raft i)
    else ∃ rf', (s.cluster.raft i).snapshot index data = .ok rf' ∧
      (s.cluster.raft i).Compacted rf' index data := by
  have ht := (tidy_of_reachable h).cluster.node i
  split_ifs with hreject
  · unfold Raft.snapshot
    rw [if_pos hreject]
    rfl
  · rw [not_or, not_le, not_lt] at hreject
    exact ht.contiguous.compacted hreject.1 hreject.2 (hreject.2.trans ht.commit_le)

/-- Node `0` compacts all of its log. -/
theorem snapshot_preserves_appliedRun : ∃ s, (machine 3 String Unit).run init appliedRun = some s ∧
    ∃ rf', (s.cluster.raft 0).snapshot 1 () = .ok rf' ∧
      (s.cluster.raft 0).Compacted rf' 1 () := by
  have h : ((machine 3 String Unit).run init appliedRun).map (fun s =>
      ((s.cluster.raft 0).lastSnapshotIncludeIndex, (s.cluster.raft 0).commitIndex)) =
        some (0, 1) := by decide +kernel
  obtain ⟨s, hs, h⟩ := Option.map_eq_some_iff.1 h
  obtain ⟨hsnap, hcommit⟩ := Prod.mk.inj h
  have hcompact := snapshot_preserves (Machine.reachable_of_run hs) 0 1 ()
  rw [if_neg (by omega)] at hcompact
  exact ⟨s, hs, hcompact⟩

end Crashing

end KvRaft
