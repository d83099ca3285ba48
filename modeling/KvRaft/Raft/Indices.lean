import KvRaft.Raft.Cluster
import KvRaft.Raft.Spec

/-!
# The order of the indices

A log has no gaps behind the snapshot point and covers what is committed (`Raft.Within`).  Every
handler keeps this, and takes neither the commit index, nor the last index, nor the snapshot point
back (`Raft.Grows`).

With compaction on, the indices of a node stand in one order,

  `lastSnapshotIncludeIndex ≤ lastApplied ≤ commitIndex ≤ getLastLogIndex`,

and its log holds consecutive indices from the snapshot point on (`Raft.Ordered`).  All handlers
keep this, and none but `installSnapshot` and `getApplyLogs` moves `lastApplied`, up to a
snapshot of what was applied.

`Cluster.Indexed` is the invariant of a cluster: requests carry consecutive entries, and a
snapshot that is on its way to the state machine is never ahead of the commit index of its node,
so that `condInstallSnapshot` declines it.
-/

namespace KvRaft

open Raft

namespace Raft

variable {n : ℕ} {C D : Type} {rf rf' : Raft n C D}

/-! ### Logs without gaps -/

/-- **The log has no gap and covers what is committed.** -/
structure Within (rf : Raft n C D) : Prop where
  contiguous : rf.Contiguous
  commit_le : rf.commitIndex ≤ rf.getLastLogIndex

/-- The snapshot point stays, or goes up. -/
def PointGrows (rf rf' : Raft n C D) : Prop :=
  rf'.lastSnapshotIncludeIndex = rf.lastSnapshotIncludeIndex ∧
    rf'.lastSnapshotIncludeTerm = rf.lastSnapshotIncludeTerm ∨
  rf.lastSnapshotIncludeIndex < rf'.lastSnapshotIncludeIndex

/-- **A section after which the log has no gap and nothing was taken back.** -/
structure Grows (rf rf' : Raft n C D) : Prop extends Within rf' where
  last_le : rf.getLastLogIndex ≤ rf'.getLastLogIndex
  commitIndex_le : rf.commitIndex ≤ rf'.commitIndex
  point : rf.PointGrows rf'

theorem Within.getLastLogIndex (h : rf.Within) :
    rf.getLastLogIndex = rf.lastSnapshotIncludeIndex + rf.logs.length :=
  h.contiguous.getLastLogIndex

/-- Log, snapshot point and commit index stay. -/
theorem Within.of_sameLog (h : rf.Within) (hs : rf.SameLog rf') : rf.Grows rf' where
  contiguous := by
    rw [Contiguous, hs.logs, hs.lastSnapshotIncludeIndex]
    exact h.contiguous
  commit_le := by
    rw [hs.commitIndex, hs.getLastLogIndex]
    exact h.commit_le
  last_le := hs.getLastLogIndex.ge
  commitIndex_le := hs.commitIndex.ge
  point := Or.inl ⟨hs.lastSnapshotIncludeIndex, hs.lastSnapshotIncludeTerm⟩

theorem Within.refl (h : rf.Within) : rf.Grows rf := h.of_sameLog (.refl rf)

theorem Within.start (h : rf.Within) (command : C) : rf.Grows (rf.start command).1 := by
  rcases rf.start_eq command with ⟨heq, -⟩ | ⟨-, heq⟩
  · rw [heq]
    exact h.refl
  have hc : Contiguous { rf with
      logs := rf.logs ++ [⟨command, rf.currentTerm, rf.getLastLogIndex + 1⟩] } :=
    ContiguousFrom.append h.contiguous (.singleton (by rw [h.getLastLogIndex]))
  have hlast : rf.getLastLogIndex ≤ (rf.start command).1.getLastLogIndex := by
    rw [heq, persist_getLastLogIndex, hc.getLastLogIndex, h.getLastLogIndex, List.length_append]
    push_cast
    omega
  have hcommit : (rf.start command).1.commitIndex = rf.commitIndex := by rw [heq]; rfl
  exact ⟨⟨heq ▸ hc, hcommit ▸ h.commit_le.trans hlast⟩, hlast, hcommit.ge,
    Or.inl (by rw [heq]; exact ⟨rfl, rfl⟩)⟩

/-- Writing consecutive entries over a log without gaps leaves none. -/
theorem ContiguousFrom.merge {base : ℤ} {l entries : List (LogEntry C)} {p : ℕ}
    (h : ContiguousFrom base l) (hp : p ≤ l.length) (he : ContiguousFrom (base + p) entries) :
    ContiguousFrom base (l.take p ++ entries ++ l.drop (p + entries.length)) := by
  refine ((h.take p).append ?_).append ?_
  · rwa [List.length_take_of_le hp]
  · rw [List.length_append, List.length_take_of_le hp]
    exact h.drop _

theorem length_merge {α : Type} {l : List α} {p : ℕ} (hp : p ≤ l.length) (entries : List α) :
    l.length ≤ (l.take p ++ entries ++ l.drop (p + entries.length)).length := by
  simp only [List.length_append, List.length_take_of_le hp, List.length_drop]
  omega

/-- What is left behind an index that the log reaches or not. -/
theorem ContiguousFrom.drop_to {base index : ℤ} {l : List (LogEntry C)} (h : ContiguousFrom base l)
    (hle : base ≤ index) : ContiguousFrom index (l.drop (index - base).toNat) := by
  have := h.drop (index - base).toNat
  rwa [show base + ((index - base).toNat : ℤ) = index by omega] at this

/-- A node after the loop over the entries of a request: its log has no gap and covers the old one
and the entries. -/
theorem Contiguous.merged [DecidableEq C] (hc : rf.Contiguous) {entries : List (LogEntry C)}
    {p : ℕ} (hp : p ≤ rf.logs.length)
    (he : ContiguousFrom (rf.lastSnapshotIncludeIndex + p) entries)
    (hm : entries.foldlM mergeEntry rf = .ok rf') :
    rf'.Contiguous ∧ rf.getLastLogIndex ≤ rf'.getLastLogIndex ∧
      rf.lastSnapshotIncludeIndex + p + entries.length ≤ rf'.getLastLogIndex := by
  obtain ⟨hrf', -⟩ := foldlM_mergeEntry p hc hp he hm
  have hlogs : rf'.logs = rf.logs.take p ++ entries ++ rf.logs.drop (p + entries.length) := by
    rw [hrf']
  have hsnap : rf'.lastSnapshotIncludeIndex = rf.lastSnapshotIncludeIndex := by rw [hrf']
  have hc' : rf'.Contiguous := by
    rw [Contiguous, hlogs, hsnap]
    exact ContiguousFrom.merge hc hp he
  have hlen : rf'.logs.length = max rf.logs.length (p + entries.length) := by
    rw [hlogs, List.length_append, List.length_append, List.length_take_of_le hp,
      List.length_drop]
    omega
  refine ⟨hc', ?_, ?_⟩
  · rw [hc.getLastLogIndex, hc'.getLastLogIndex, hsnap, hlen]
    omega
  · rw [hc'.getLastLogIndex, hsnap, hlen]
    omega

/-- A request that passes `matchLog` starts at a position of the log. -/
theorem Contiguous.exists_position (h : rf.Contiguous) {prev t : ℤ} {b : Bool}
    (hmatch : rf.matchLog prev t = .ok b) : ∃ p : ℕ,
    prev = rf.lastSnapshotIncludeIndex + p ∧ p ≤ rf.logs.length := by
  obtain ⟨hlo, hhi, -⟩ := matchLog_eq_ok.1 hmatch
  rw [h.getLastLogIndex] at hhi
  exact ⟨(prev - rf.lastSnapshotIncludeIndex).toNat, by omega, by omega⟩

theorem Contiguous.exists_logOf (h : rf.Contiguous) {index : ℤ}
    (hlo : rf.lastSnapshotIncludeIndex < index) (hhi : index ≤ rf.getLastLogIndex) :
    ∃ log, rf.logOf index = .ok log := by
  have hlast := h.getLastLogIndex
  have hlt : (index - rf.lastSnapshotIncludeIndex - 1).toNat < rf.logs.length := by omega
  exact ⟨_, logOf_eq_ok.2 ⟨hlo, hhi, List.getElem?_eq_getElem hlt⟩⟩

theorem Within.appendEntries1 [DecidableEq C] (h : rf.Within) {args : AppendEntriesArgs n C}
    {reply : AppendEntriesReply} (he : ContiguousFrom args.prevlogindex args.entries)
    (heq : rf.appendEntries1 args = .ok (rf', reply)) :
    rf.Grows rf' ∧ rf'.lastApplied = rf.lastApplied ∧
      rf'.lastSnapshotIncludeIndex = rf.lastSnapshotIncludeIndex := by
  rcases appendEntries1_cases heq with
    ⟨-, hs, -⟩ | ⟨-, -, -, -, hmatch, rf₁, rf₂, hs, -, -, -, hm, rfl⟩
  · exact ⟨h.of_sameLog hs, hs.lastApplied, hs.lastSnapshotIncludeIndex⟩
  have h₁ := h.of_sameLog hs
  obtain ⟨p, hp, hlen⟩ := h.contiguous.exists_position hmatch
  rw [← hs.lastSnapshotIncludeIndex] at hp
  obtain ⟨hc, hgrow, -⟩ := h₁.contiguous.merged (hs.logs ▸ hlen) (hp ▸ he) hm
  have hcommit : rf₁.commitIndex ≤ rf₂.getLastLogIndex := h₁.commit_le.trans hgrow
  obtain ⟨l, hrf₂⟩ : ∃ l, rf₂ = { rf₁ with logs := l } := ⟨_, foldlM_mergeEntry_logs hm⟩
  subst hrf₂
  refine ⟨⟨⟨hc, ?_⟩, ?_, ?_, Or.inl ⟨hs.lastSnapshotIncludeIndex, hs.lastSnapshotIncludeTerm⟩⟩,
    hs.lastApplied, hs.lastSnapshotIncludeIndex⟩
  · rw [persist_getLastLogIndex]
    change (if _ then _ else _) ≤ Raft.getLastLogIndex { rf₁ with logs := l }
    split_ifs
    · exact min_le_right _ _
    · exact hcommit
  · rw [← hs.getLastLogIndex]
    exact hgrow
  · rw [← hs.commitIndex]
    simp only [persist]
    split_ifs with hlt
    · exact le_min hlt.le hcommit
    · exact le_rfl

theorem Within.sendAppendEntries (h : rf.Within) {server : Fin n}
    {args : AppendEntriesArgs n C} {reply : AppendEntriesReply} {appendNums num : ℕ}
    (heq : rf.sendAppendEntries server args reply appendNums = .ok (rf', num)) :
    rf.Grows rf' ∧ rf'.lastApplied = rf.lastApplied ∧ rf.SameEntries rf' := by
  obtain ⟨hs, happ, -, -, -, -, hcommit⟩ := sendAppendEntries_cases heq
  have hc : rf'.Contiguous := by
    rw [Contiguous, hs.logs, hs.lastSnapshotIncludeIndex]
    exact h.contiguous
  have hlast : rf'.getLastLogIndex = rf.getLastLogIndex := by
    rw [hc.getLastLogIndex, h.getLastLogIndex, hs.logs, hs.lastSnapshotIncludeIndex]
  have hpoint : rf.PointGrows rf' :=
    Or.inl ⟨hs.lastSnapshotIncludeIndex, hs.lastSnapshotIncludeTerm⟩
  rcases hcommit with hcommit | ⟨-, -, -, -, -, hcommit, hle⟩
  · exact ⟨⟨⟨hc, by rw [hlast, hcommit]; exact h.commit_le⟩, hlast.ge, hcommit.ge, hpoint⟩,
      happ, hs⟩
  · exact ⟨⟨⟨hc, by rw [hlast]; exact hle⟩, hlast.ge, hcommit ▸ le_max_left _ _, hpoint⟩,
      happ, hs⟩

theorem Within.getApplyLogs (h : rf.Within) {msgs : List (ApplyMsg C D)}
    (heq : rf.getApplyLogs = .ok (rf', msgs)) : rf.Grows rf' := by
  obtain ⟨rfl, -⟩ := applyNext_eq (getApplyLogs_eq heq).2
  exact ⟨⟨h.contiguous, h.commit_le⟩, le_rfl, le_rfl, Or.inl ⟨rfl, rfl⟩⟩

/-! ### Compacting -/

/-- What `snapshot` does: nothing, or it drops the entries up to `index`. -/
theorem snapshot_cases (h : rf.Contiguous) {index : ℤ} {data : D}
    (heq : rf.snapshot index data = .ok rf') :
    rf' = rf ∨ rf.lastSnapshotIncludeIndex < index ∧ index ≤ rf.commitIndex ∧
      rf'.lastSnapshotIncludeIndex = index ∧
      rf'.logs = rf.logs.drop (index - rf.lastSnapshotIncludeIndex).toNat ∧
      rf'.commitIndex = rf.commitIndex ∧ rf'.lastApplied = max rf.lastApplied index := by
  unfold Raft.snapshot at heq
  split_ifs at heq with hold
  · exact Or.inl (pure_eq_ok.1 heq).symm
  simp only [bind_eq_ok, pure_eq_ok] at heq
  obtain ⟨_, -, logs, hlogs, _, -, rfl⟩ := heq
  refine Or.inr ⟨by omega, by omega, rfl, ?_, max_eq_left (by omega), rfl⟩
  -- the entries behind `index`, one by one
  have hall := forall₂_of_mapM hlogs
  have hlen := hall.length_eq
  have hlast := h.getLastLogIndex
  rw [List.length_range] at hlen
  refine List.ext_getElem? fun k => ?_
  rw [List.getElem?_drop]
  rcases lt_or_ge k logs.length with hk | hk
  · have hget := (List.forall₂_iff_get.1 hall).2 k (by simp; omega) hk
    obtain ⟨-, -, hentry⟩ := logOf_eq_ok.1 hget
    simp only [List.get_eq_getElem, List.getElem_range] at hentry
    change logs[k]? = _
    rw [List.getElem?_eq_getElem hk, ← hentry]
    congr 1
    omega
  · change logs[k]? = _
    rw [List.getElem?_eq_none hk, List.getElem?_eq_none]
    omega

theorem Within.snapshot (h : rf.Within) {index : ℤ} {data : D}
    (heq : rf.snapshot index data = .ok rf') : rf.Grows rf' := by
  rcases snapshot_cases h.contiguous heq with rfl | ⟨hlt, hle, hsnap, hlogs, hcommit, -⟩
  · exact h.refl
  have hc : rf'.Contiguous := by
    rw [Contiguous, hsnap, hlogs]
    exact ContiguousFrom.drop_to h.contiguous hlt.le
  have hcle := h.commit_le
  rw [h.getLastLogIndex] at hcle
  have hlast : rf'.getLastLogIndex = rf.getLastLogIndex := by
    rw [hc.getLastLogIndex, h.getLastLogIndex, hsnap, hlogs, List.length_drop]
    omega
  refine ⟨⟨hc, ?_⟩, hlast.ge, hcommit.ge, Or.inr (hsnap ▸ hlt)⟩
  rw [hlast, hcommit]
  exact h.commit_le

/-- What `installSnapshot` does: it refuses the snapshot, or it takes over its point and keeps
the entries behind it. -/
theorem installSnapshot_cases {args : InstallSnapshotRequest n D}
    {reply : InstallSnapshotResponse} {msg : Option (ApplyMsg C D)}
    (heq : rf.installSnapshot args = .ok (rf', reply, msg)) :
    msg = none ∧ rf.SameLog rf' ∨
    msg = some (.snapshot args.data args.lastsnapshotincludeterm args.lastsnapshotincludeindex) ∧
      rf.currentTerm ≤ args.term ∧
      rf.lastSnapshotIncludeIndex < args.lastsnapshotincludeindex ∧
      rf'.lastSnapshotIncludeIndex = args.lastsnapshotincludeindex ∧
      rf'.logs = (if rf.getLastLogIndex > args.lastsnapshotincludeindex then
        rf.logs.drop (args.lastsnapshotincludeindex - rf.lastSnapshotIncludeIndex).toNat
        else []) ∧
      rf'.commitIndex = max rf.commitIndex args.lastsnapshotincludeindex ∧
      rf'.lastApplied = max rf.lastApplied args.lastsnapshotincludeindex := by
  by_cases hlt : args.term < rf.currentTerm
  · obtain ⟨rfl, -, rfl⟩ : _ ∧ _ ∧ _ := by simpa [Raft.installSnapshot, hlt] using heq
    exact Or.inl ⟨rfl, .refl rf⟩
  simp only [Raft.installSnapshot, if_neg hlt] at heq
  generalize hrf₁ : (if args.term > rf.currentTerm then (rf.stepDown args.term).persist else rf) =
    rf₁ at heq
  -- the node in the term of the request
  have hs : rf.SameLog rf₁ := by
    rw [← hrf₁]
    split_ifs
    · exact (sameLog_stepDown rf _).trans (sameLog_persist _)
    · exact .refl rf
  split_ifs at heq with hold hlast
  · obtain ⟨rfl, hr⟩ := Prod.mk.inj (pure_eq_ok.1 heq)
    obtain ⟨-, rfl⟩ := Prod.mk.inj hr
    exact Or.inl ⟨rfl, hs.trans ⟨⟨rfl, rfl, rfl⟩, rfl, rfl, rfl⟩⟩
  all_goals
    obtain ⟨logs, hlogs, heq'⟩ := bind_eq_ok.1 heq
    obtain ⟨rfl, hr⟩ := Prod.mk.inj (pure_eq_ok.1 heq')
    obtain ⟨-, rfl⟩ := Prod.mk.inj hr
    change ¬ args.lastsnapshotincludeindex ≤ rf₁.lastSnapshotIncludeIndex at hold
    rw [hs.lastSnapshotIncludeIndex] at hold
    refine Or.inr ⟨rfl, not_lt.1 hlt, not_le.1 hold, rfl, ?_, congrArg (max · _) hs.commitIndex,
      congrArg (max · _) hs.lastApplied⟩
  · change rf₁.getLastLogIndex > _ at hlast
    rw [hs.getLastLogIndex] at hlast
    obtain ⟨slice, hslice, rfl⟩ := map_eq_ok.1 hlogs
    obtain ⟨-, -, rfl⟩ := getSlicesIndexFromLogIndex_eq_ok.1 hslice
    change rf₁.logs.drop ((_ - rf₁.lastSnapshotIncludeIndex - 1).toNat + 1) = _
    rw [if_pos hlast, hs.logs, hs.lastSnapshotIncludeIndex]
    congr 1
    omega
  · change ¬ rf₁.getLastLogIndex > _ at hlast
    rw [hs.getLastLogIndex] at hlast
    rw [if_neg hlast]
    exact (pure_eq_ok.1 hlogs).symm

theorem Within.installSnapshot (h : rf.Within) {args : InstallSnapshotRequest n D}
    {reply : InstallSnapshotResponse} {msg : Option (ApplyMsg C D)}
    (heq : rf.installSnapshot args = .ok (rf', reply, msg)) : rf.Grows rf' := by
  rcases installSnapshot_cases heq with ⟨-, hs⟩ | ⟨-, -, hlt, hsnap, hlogs, hcommit, -⟩
  · exact h.of_sameLog hs
  have hcle := h.commit_le
  have hlast := h.getLastLogIndex
  have hc : rf'.Contiguous := by
    rw [Contiguous, hsnap, hlogs]
    split_ifs
    · exact ContiguousFrom.drop_to h.contiguous hlt.le
    · exact .nil _
  -- the log ends where it ended, or with the snapshot
  have hlast' : rf'.getLastLogIndex = max rf.getLastLogIndex args.lastsnapshotincludeindex := by
    rw [hc.getLastLogIndex, hsnap, hlogs]
    split_ifs
    · rw [List.length_drop]
      omega
    · simp
      omega
  refine ⟨⟨hc, ?_⟩, hlast' ▸ le_max_left _ _, hcommit ▸ le_max_left _ _, Or.inr (hsnap ▸ hlt)⟩
  rw [hcommit, hlast']
  exact max_le (hcle.trans (le_max_left _ _)) (le_max_right _ _)

/-- `condInstallSnapshot` declines what is not ahead of the commit index. -/
theorem condInstallSnapshot_eq {term index : ℤ} {data : D} (h : index ≤ rf.commitIndex) :
    rf.condInstallSnapshot term index data = .ok (rf, false) := by
  simp [condInstallSnapshot, h, pure, Except.pure]

theorem sameLog_leaderSendSnapShotReply (rf : Raft n C D) (server : Fin n)
    (args : InstallSnapshotRequest n D) (reply : InstallSnapshotResponse) :
    rf.SameLog (rf.leaderSendSnapShotReply server args reply) := by
  unfold leaderSendSnapShotReply
  split_ifs
  · exact .refl rf
  · exact (sameLog_stepDown rf _).trans (sameLog_persist _)
  · exact ⟨⟨rfl, rfl, rfl⟩, rfl, rfl, rfl⟩

/-! ### The order of the indices -/

/-- **The order of the indices of a node.** -/
structure Ordered (rf : Raft n C D) : Prop where
  contiguous : rf.Contiguous
  snapshot_le : rf.lastSnapshotIncludeIndex ≤ rf.lastApplied
  applied_le : rf.lastApplied ≤ rf.commitIndex
  commit_le : rf.commitIndex ≤ rf.getLastLogIndex

/-- A section after which the indices are ordered and none of them is lower. -/
structure Advances (rf rf' : Raft n C D) : Prop where
  ordered : rf'.Ordered
  applied_le : rf.lastApplied ≤ rf'.lastApplied
  commit_le : rf.commitIndex ≤ rf'.commitIndex

theorem Ordered.refl (h : rf.Ordered) : rf.Advances rf := ⟨h, le_rfl, le_rfl⟩

theorem ordered_init (i : Fin n) : (Raft.init i {} : Raft n C D).Ordered :=
  ⟨.nil _, le_rfl, le_rfl, le_rfl⟩

theorem Ordered.getLastLogIndex (h : rf.Ordered) :
    rf.getLastLogIndex = rf.lastSnapshotIncludeIndex + rf.logs.length :=
  h.contiguous.getLastLogIndex

theorem Ordered.within (h : rf.Ordered) : rf.Within := ⟨h.contiguous, h.commit_le⟩

/-- Neither the snapshot point nor what was applied moves. -/
theorem Ordered.of_grows (h : rf.Ordered) (hg : rf.Grows rf')
    (happ : rf'.lastApplied = rf.lastApplied)
    (hsnap : rf'.lastSnapshotIncludeIndex = rf.lastSnapshotIncludeIndex) : rf.Advances rf' where
  ordered := by
    refine ⟨hg.contiguous, ?_, ?_, hg.commit_le⟩
    · rw [hsnap, happ]
      exact h.snapshot_le
    · rw [happ]
      exact h.applied_le.trans hg.commitIndex_le
  applied_le := happ.ge
  commit_le := hg.commitIndex_le

/-- Log, snapshot point and indices stay. -/
theorem Ordered.of_sameLog (h : rf.Ordered) (hs : rf.SameLog rf') : rf.Advances rf' :=
  h.of_grows (h.within.of_sameLog hs) hs.lastApplied hs.lastSnapshotIncludeIndex

theorem Ordered.start (h : rf.Ordered) (command : C) : rf.Advances (rf.start command).1 ∧
    (rf.start command).1.lastApplied = rf.lastApplied := by
  have hg := h.within.start command
  rcases rf.start_eq command with ⟨heq, -⟩ | ⟨-, heq⟩ <;> rw [heq] at hg ⊢
  · exact ⟨h.refl, rfl⟩
  · exact ⟨h.of_grows hg rfl rfl, rfl⟩

theorem Ordered.appendEntries1 [DecidableEq C] (h : rf.Ordered) {args : AppendEntriesArgs n C}
    {reply : AppendEntriesReply} (he : ContiguousFrom args.prevlogindex args.entries)
    (heq : rf.appendEntries1 args = .ok (rf', reply)) :
    rf.Advances rf' ∧ rf'.lastApplied = rf.lastApplied := by
  obtain ⟨hg, happ, hsnap⟩ := h.within.appendEntries1 he heq
  exact ⟨h.of_grows hg happ hsnap, happ⟩

theorem Ordered.sendAppendEntries (h : rf.Ordered) {server : Fin n}
    {args : AppendEntriesArgs n C} {reply : AppendEntriesReply} {appendNums num : ℕ}
    (heq : rf.sendAppendEntries server args reply appendNums = .ok (rf', num)) :
    rf.Advances rf' ∧ rf'.lastApplied = rf.lastApplied := by
  obtain ⟨hg, happ, hs⟩ := h.within.sendAppendEntries heq
  exact ⟨h.of_grows hg happ hs.lastSnapshotIncludeIndex, happ⟩

/-- The entries of a heartbeat follow its `prevlogindex`. -/
theorem Contiguous.heartBeatTo (h : rf.Contiguous) {i j : Fin n} {args : AppendEntriesArgs n C}
    (hb : rf.heartBeatTo i = .ok (.sendAppendEntries j args)) :
    ContiguousFrom args.prevlogindex args.entries := by
  rcases heartBeatTo_cases hb with ⟨hb, -⟩ | ⟨prev, term, hget, hb⟩
  · cases hb
  · obtain ⟨-, rfl⟩ := HeartBeat.sendAppendEntries.inj hb
    exact ContiguousFrom.drop_to h (getLogTermFromLogIndex_eq_ok.1 hget).1

theorem Ordered.getApplyLogs (h : rf.Ordered) {msgs : List (ApplyMsg C D)}
    (heq : rf.getApplyLogs = .ok (rf', msgs)) :
    rf.Advances rf' ∧ rf'.lastApplied = rf.lastApplied + msgs.length ∧
      ∀ (k : ℕ) (msg : ApplyMsg C D), msgs[k]? = some msg →
        ∃ command, msg = .command command (rf.lastApplied + 1 + k) := by
  obtain ⟨-, happ⟩ := getApplyLogs_eq heq
  obtain ⟨rfl, hlen, hmsgs⟩ := applyNext_eq happ
  have := h.applied_le
  have hsnap := h.snapshot_le
  refine ⟨⟨⟨h.contiguous, ?_, ?_, h.commit_le⟩, ?_, le_rfl⟩, by rw [hlen], fun k msg hk => ?_⟩
  · simp only
    omega
  · simp only
    omega
  · simp only
    omega
  · obtain ⟨log, -, rfl⟩ := hmsgs k msg hk
    exact ⟨_, rfl⟩

theorem Ordered.snapshot (h : rf.Ordered) {index : ℤ} {data : D}
    (heq : rf.snapshot index data = .ok rf') :
    rf.Advances rf' ∧ (index ≤ rf.lastApplied → rf'.lastApplied = rf.lastApplied) := by
  have hg := h.within.snapshot heq
  rcases snapshot_cases h.contiguous heq with rfl | ⟨hlt, hle, hsnap, -, hcommit, happ⟩
  · exact ⟨h.refl, fun _ => rfl⟩
  refine ⟨⟨⟨hg.contiguous, ?_, ?_, hg.commit_le⟩, happ ▸ le_max_left _ _, hg.commitIndex_le⟩,
    fun hi => by rw [happ, max_eq_left hi]⟩
  · rw [hsnap, happ]
    exact le_max_right _ _
  · rw [happ, hcommit]
    exact max_le h.applied_le hle

theorem Ordered.installSnapshot (h : rf.Ordered) {args : InstallSnapshotRequest n D}
    {reply : InstallSnapshotResponse} {msg : Option (ApplyMsg C D)}
    (heq : rf.installSnapshot args = .ok (rf', reply, msg)) : rf.Advances rf' := by
  have hg := h.within.installSnapshot heq
  rcases installSnapshot_cases heq with ⟨-, hs⟩ | ⟨-, -, hlt, hsnap, -, hcommit, happ⟩
  · exact h.of_sameLog hs
  refine ⟨⟨hg.contiguous, ?_, ?_, hg.commit_le⟩, happ ▸ le_max_left _ _, hg.commitIndex_le⟩
  · rw [hsnap, happ]
    exact le_max_right _ _
  · rw [happ, hcommit]
    exact max_le (h.applied_le.trans (le_max_left _ _)) (le_max_right _ _)

end Raft

end KvRaft
