import KvRaft.Raft.Safety
import KvRaft.Raft.WholeStep

/-!
# Safety with log compaction

Nodes compact their logs at any time, and leaders send snapshots to nodes that are behind.  In
every run whose steps leave nothing stale (`Cluster.LeavesNoStale`)

* nobody is handed different commands under one index (`Cluster.compacted_agree`);
* a leader has everything that was taken to be committed in a term that is not newer, in its log or
  behind its snapshot point (`Cluster.leaders_keep_committed`);
* logs match as far as they have been kept, snapshot points included (`Cluster.kept_logs_match`).

The last two hold between nodes at different times of a run.
-/

namespace KvRaft

open Consensus Raft

namespace Cluster

variable {n : ℕ} {C D : Type} {c c₁ c₂ : Cluster n C D} {pre : Fin n → List (LogEntry C)}
  {saved : Fin n → Saved n C D} {votes : Fin n → ℤ → Option (Fin n)}
  {A A₁ A₂ : State (Fin n) (LogEntry C)}

/-! ### Reading the whole log -/

/-- The term that a node finds at an index is that of its whole log. -/
theorem RefinesWhole.getLogTermFromLogIndex (h : RefinesWhole c votes A pre saved) {i : Fin n}
    {k T : ℤ} (hT : (c.raft i).getLogTermFromLogIndex k = .ok T) :
    0 ≤ k ∧ k ≤ (A.log i).length ∧ T = lastTerm tm ((A.log i).take k.toNat) := by
  have hn := h.refines.node i
  rw [hn.log]
  exact hn.getLogTermFromLogIndex ((h.dropped i).getLogTermFromLogIndex (saved i) hT)

/-- The entry that a node finds at an index is that of its whole log. -/
theorem RefinesWhole.logOf (h : RefinesWhole c votes A pre saved) {i : Fin n} {k : ℕ}
    {e : LogEntry C} (he : (c.raft i).logOf (k + 1) = .ok e) : (A.log i)[k]? = some e := by
  have hn := h.refines.node i
  obtain ⟨-, -, hget⟩ := logOf_eq_ok.1 ((h.dropped i).logOf (saved i) he)
  rw [whole_lastSnapshotIncludeIndex, show ((k : ℤ) + 1 - 0 - 1).toNat = k by omega] at hget
  rwa [hn.log]

/-- What the whole log has behind the snapshot point is still there. -/
theorem RefinesWhole.exists_logOf (h : RefinesWhole c votes A pre saved) {i : Fin n} {k : ℕ}
    {e : LogEntry C} (he : (A.log i)[k]? = some e) :
    (k : ℤ) + 1 ≤ (c.raft i).lastSnapshotIncludeIndex ∨ (c.raft i).logOf (k + 1) = .ok e := by
  have hn := h.refines.node i
  have hlen := (h.dropped i).length
  have hwhole : A.log i = pre i ++ (c.raft i).logs := hn.log
  have hlast : (c.raft i).getLastLogIndex = ((pre i ++ (c.raft i).logs).length : ℤ) :=
    ((h.dropped i).getLastLogIndex (saved i)).symm.trans hn.getLastLogIndex
  rw [hwhole] at he
  have hlt := (List.getElem?_eq_some_iff.1 he).1
  refine or_iff_not_imp_left.2 fun hk => logOf_eq_ok.2 ⟨not_le.1 hk, by omega, ?_⟩
  rw [List.getElem?_append_right (by omega)] at he
  rw [← he]
  congr 1
  omega

/-! ### Log matching -/

/-- **Logs match as far as they have been kept.**  Where the terms at an index agree, so do all
terms and entries up to there that both nodes still have. -/
def KeptLogsMatch (rf rf' : Raft n C D) : Prop :=
  ∀ k T, rf.getLogTermFromLogIndex k = .ok T → rf'.getLogTermFromLogIndex k = .ok T → ∀ m ≤ k,
    (∀ U U', rf.getLogTermFromLogIndex m = .ok U → rf'.getLogTermFromLogIndex m = .ok U' →
      U = U') ∧
    ∀ e e', rf.logOf m = .ok e → rf'.logOf m = .ok e' → e = e'

theorem keptLogsMatch_of_coherent {votes₁ votes₂ : Fin n → ℤ → Option (Fin n)}
    {pre₁ pre₂ : Fin n → List (LogEntry C)} {saved₁ saved₂ : Fin n → Saved n C D}
    (h₁ : RefinesWhole c₁ votes₁ A₁ pre₁ saved₁) (h₂ : RefinesWhole c₂ votes₂ A₂ pre₂ saved₂)
    (hg : Grows A₁ A₂) (i j : Fin n) : KeptLogsMatch (c₁.raft i) (c₂.raft j) := by
  intro k T hi hj m hm
  obtain ⟨hk, hki, hTi⟩ := h₁.getLogTermFromLogIndex hi
  obtain ⟨-, hkj, hTj⟩ := h₂.getLogTermFromLogIndex hj
  obtain ⟨k, rfl⟩ := Int.eq_ofNat_of_zero_le hk
  rw [Int.toNat_natCast] at hTi hTj
  -- the whole logs agree up to the index
  have htake : (A₁.log i).take k = (A₂.log j).take k := by
    cases k with
    | zero => simp
    | succ q =>
      have he := List.getElem?_eq_getElem (show q < (A₁.log i).length by omega)
      have he' := List.getElem?_eq_getElem (show q < (A₂.log j).length by omega)
      rw [lastTerm_take he] at hTi
      rw [lastTerm_take he'] at hTj
      exact ((h₁.refines.inv.coherent i).mono hg.lead).take_eq (h₂.refines.inv.coherent j) he he'
        (hTi.symm.trans hTj)
  refine ⟨fun U U' hU hU' => ?_, fun e e' he he' => ?_⟩
  · obtain ⟨hm₀, -, rfl⟩ := h₁.getLogTermFromLogIndex hU
    obtain ⟨-, -, rfl⟩ := h₂.getLogTermFromLogIndex hU'
    have := congrArg (List.take m.toNat) htake
    rw [List.take_take, List.take_take, min_eq_left (by omega)] at this
    rw [this]
  · obtain ⟨hlo, -⟩ := logOf_eq_ok.1 he
    have hpos := (h₁.dropped i).length
    obtain ⟨q, rfl⟩ : ∃ q : ℕ, m = q + 1 := ⟨(m - 1).toNat, by omega⟩
    have := congrArg (fun l => l[q]?) htake
    simp only [List.getElem?_take_of_lt (show q < k by omega), h₁.logOf he, h₂.logOf he'] at this
    exact Option.some.inj this

variable [DecidableEq C]

/-- **Log matching with compaction**, between any two nodes at any two times of a run. -/
theorem kept_logs_match (h₁ : (machine n C D).Reaches LeavesNoStale init c₁)
    (h₂ : (machine n C D).Reaches LeavesNoStale c₁ c₂) (i j : Fin n) :
    KeptLogsMatch (c₁.raft i) (c₂.raft j) := by
  obtain ⟨A₁, hr₁, -⟩ := remembers_init.reaches h₁
  obtain ⟨A₂, ⟨_, _, _, _, -, -, -, hr₂⟩, hg⟩ := hr₁.reaches h₂
  obtain ⟨_, _, _, _, -, -, -, hr₁⟩ := hr₁
  exact keptLogsMatch_of_coherent hr₁ hr₂ hg i j

/-! ### Committed entries -/

/-- **Leader completeness with compaction.**  What a node takes to be committed at some time, a node
that leads a term that is not older, then or later, has in its log, with the same entry if the first
node has kept it, or behind its snapshot point. -/
theorem leaders_keep_committed (h₁ : (machine n C D).Reaches LeavesNoStale init c₁)
    (h₂ : (machine n C D).Reaches LeavesNoStale c₁ c₂) {i j : Fin n} {k : ℤ} (hk : 1 ≤ k)
    (hcommit : k ≤ (c₁.raft i).commitIndex) (hl : (c₂.raft j).status = .leader)
    (hT : (c₁.raft i).currentTerm ≤ (c₂.raft j).currentTerm) :
    k ≤ (c₂.raft j).lastSnapshotIncludeIndex ∨
      ∃ e, (c₂.raft j).logOf k = .ok e ∧ ∀ e', (c₁.raft i).logOf k = .ok e' → e' = e := by
  obtain ⟨A₁, hr₁, -⟩ := remembers_init.reaches h₁
  obtain ⟨A₂, ⟨_, _, _, _, hi, -, -, hr₂⟩, hg⟩ := hr₁.reaches h₂
  obtain ⟨_, _, _, _, -, -, -, hr₁⟩ := hr₁
  obtain ⟨q, rfl⟩ : ∃ q : ℕ, k = q + 1 := ⟨(k - 1).toNat, by omega⟩
  have hcert : Certified A₁ (c₁.raft i).currentTerm (A₁.log i) (c₁.raft i).commitIndex :=
    (hr₁.refines.node i).log ▸ (hr₁.refines.node i).commit
  have hlt : q < (A₁.log i).length := by
    have := hcert.le_length
    omega
  -- the entry stands in the log of the leader in whose term it was committed
  rcases hcert with hneg | ⟨T, r, m, hTi, hreign, hc, hm, htake⟩
  · omega
  have he := List.getElem?_eq_getElem hlt
  have hget : r.log[q]? = some (A₁.log i)[q] := by
    have := congrArg (fun l => l[q]?) htake
    simp only [List.getElem?_take_of_lt (show q < (c₁.raft i).commitIndex.toNat by omega)] at this
    rw [← this, he]
  obtain ⟨r₂, hreign₂, -, -, hp⟩ := hg.reign T r hreign
  obtain ⟨r', hreign', -, hlog⟩ := hr₂.refines.reign_of_leader hi.whole (i := j) hl
  have hTj : T ≤ A₂.term j := hTi.trans (hT.trans (hr₂.refines.node j).term.ge)
  have hpre := hr₂.refines.inv.committed_isPrefix (hc.mono hg) hreign₂ hreign' hTj
  have hgetj : (A₂.log j)[q]? = some (A₁.log i)[q] := by
    rw [← hlog]
    refine getElem?_of_isPrefix hpre ?_
    rw [List.getElem?_take_of_lt (by omega)]
    exact getElem?_of_isPrefix hp hget
  refine (hr₂.exists_logOf hgetj).imp id fun h => ⟨_, h, fun e' he' => ?_⟩
  exact Option.some.inj ((hr₁.logOf he').symm.trans he)

/-- **State machine safety with compaction.** -/
theorem compacted_agree (h : (machine n C D).Reaches LeavesNoStale init c) :
    StateMachineSafety c := by
  obtain ⟨A, ⟨_, _, _, _, -, -, -, hr⟩, -⟩ := remembers_init.reaches h
  intro i j command command' index hm hm'
  exact (hr.emitted i _ hm (Option.some_ne_none _)).agree hr.refines.inv
    (hr.emitted j _ hm' (Option.some_ne_none _))

/-! ### Runs -/

/-- Node `0` commits `"x"` with node `1`, compacts its log, and sends node `2`, which has missed
everything, its snapshot and then `"y"`. -/
def catchUpRun : List (Action 3 String Unit) :=
  snapshotThreadRun ++ [.start 0 "y", .leaderSendSnapShot 5 (), .deliver 5, .pushMsgToKvServer 6,
    .reply 5, .doHeartBeat 0, .deliver 8, .reply 8, .deliver 7, .doHeartBeat 0, .deliver 9,
    .deliver 10, .getApplyLogs 1, .getApplyLogs 2]

theorem catchUpRun_eq : ((machine 3 String Unit).runWhere LeavesNoStale init catchUpRun).map
    (fun c => ((c.procs 1).emitted, (c.procs 2).emitted, (c.raft 2).commitIndex,
      (c.raft 2).currentTerm)) =
      some ([.command "x" 1, .command "y" 2], [.snapshot () 1 1, .command "y" 2], 2, 1) := by
  decide +kernel

/-- Node `1` is elected by node `2`. -/
def nextLeaderRun : List (Action 3 String Unit) := [.doElection 1, .deliver 12, .reply 12]

theorem nextLeaderRun_eq :
    (((machine 3 String Unit).runWhere LeavesNoStale init catchUpRun).bind fun c =>
      ((machine 3 String Unit).runWhere LeavesNoStale c nextLeaderRun).map fun c' =>
        ((c'.raft 1).status, (c'.raft 1).currentTerm, (c'.raft 1).lastSnapshotIncludeIndex)) =
      some (.leader, 2, 0) := by
  decide +kernel

theorem compacted_agree_catchUpRun : ∃ c,
    (machine 3 String Unit).runWhere LeavesNoStale init catchUpRun = some c ∧
      (c.procs 1).emitted = [.command "x" 1, .command "y" 2] ∧
      (c.procs 2).emitted = [.snapshot () 1 1, .command "y" 2] ∧ StateMachineSafety c := by
  obtain ⟨c, hc, h⟩ := Option.map_eq_some_iff.1 catchUpRun_eq
  simp only [Prod.mk.injEq] at h
  exact ⟨c, hc, h.1, h.2.1, compacted_agree (Machine.reaches_of_runWhere hc)⟩

/-- Node `2` has compacted what comes before `"y"`, and node `1` has not. -/
theorem kept_logs_match_nextLeaderRun : ∃ c c',
    (machine 3 String Unit).runWhere LeavesNoStale init catchUpRun = some c ∧
      (machine 3 String Unit).runWhere LeavesNoStale c nextLeaderRun = some c' ∧
      KeptLogsMatch (c.raft 2) (c'.raft 1) := by
  obtain ⟨c, hc, h⟩ := Option.bind_eq_some_iff.1 nextLeaderRun_eq
  obtain ⟨c', hc', -⟩ := Option.map_eq_some_iff.1 h
  exact ⟨c, c', hc, hc', kept_logs_match (Machine.reaches_of_runWhere hc)
    (Machine.reaches_of_runWhere hc') 2 1⟩

theorem leaders_keep_committed_nextLeaderRun : ∃ c c',
    (machine 3 String Unit).runWhere LeavesNoStale init catchUpRun = some c ∧
      (machine 3 String Unit).runWhere LeavesNoStale c nextLeaderRun = some c' ∧
      ∃ e, (c'.raft 1).logOf 2 = .ok e ∧ ∀ e', (c.raft 2).logOf 2 = .ok e' → e' = e := by
  obtain ⟨c, hc, h⟩ := Option.bind_eq_some_iff.1 nextLeaderRun_eq
  obtain ⟨c', hc', h⟩ := Option.map_eq_some_iff.1 h
  have hcommit := catchUpRun_eq
  rw [hc] at hcommit
  simp only [Option.map_some, Option.some.injEq, Prod.mk.injEq] at hcommit h
  obtain ⟨-, -, hcommit, hterm⟩ := hcommit
  obtain ⟨hl, hterm', hsnap⟩ := h
  refine ⟨c, c', hc, hc', (leaders_keep_committed (Machine.reaches_of_runWhere hc)
    (Machine.reaches_of_runWhere hc') (i := 2) (j := 1) (k := 2) (by decide) hcommit.ge hl
    (by rw [hterm, hterm']; decide)).resolve_left ?_⟩
  rw [hsnap]
  decide

/-- Node `1` has two entries from node `0`.  Node `2`, which leads the next term, commits another
first entry, compacts it and sends node `1` its snapshot. -/
def staleInstallRun : List (Action 5 String Unit) :=
  [.doElection 0, .deliver 0, .reply 0, .deliver 1, .reply 1, .start 0 "x", .start 0 "y",
    .doHeartBeat 0, .deliver 4,
    .doElection 2, .deliver 10, .reply 10, .deliver 11, .reply 11, .start 2 "z",
    .doHeartBeat 2, .deliver 14, .reply 14, .deliver 15, .reply 15,
    .getApplyLogs 2, .pushApplyMsg 2, .consume 2, .snapshot 2 (), .doHeartBeat 2,
    .leaderSendSnapShot 17 (), .deliver 17]

theorem staleInstallRun_eq : ((machine 5 String Unit).runWhere
    (fun c a => c.NoStaleAppend a ∧ c.ReadsAsLeader a) init staleInstallRun).map (fun c =>
      (((c.raft 0).getLogTermFromLogIndex 1).toOption,
        ((c.raft 0).getLogTermFromLogIndex 2).toOption,
        ((c.raft 1).getLogTermFromLogIndex 1).toOption,
        ((c.raft 1).getLogTermFromLogIndex 2).toOption)) =
      some (some 1, some 1, some 2, some 1) := by
  decide +kernel

/-- Behind a snapshot that was put in front of a stale suffix logs do not match. -/
theorem not_kept_logs_match : ¬ ∀ c, (machine 5 String Unit).Reaches
    (fun c a => c.NoStaleAppend a ∧ c.ReadsAsLeader a) init c →
      KeptLogsMatch (c.raft 0) (c.raft 1) := by
  intro hall
  obtain ⟨c, hc, h⟩ := Option.map_eq_some_iff.1 staleInstallRun_eq
  have hok : ∀ {x : Except Fault ℤ} {T : ℤ}, x.toOption = some T → x = .ok T := by
    intro x T hx
    cases x with
    | ok a => exact congrArg Except.ok (Option.some.inj hx)
    | error f => cases hx
  simp only [Prod.mk.injEq] at h
  obtain ⟨h₀₁, h₀₂, h₁₁, h₁₂⟩ := h
  have hmatch := hall c (Machine.reaches_of_runWhere hc) 2 1 (hok h₀₂) (hok h₁₂) 1 (by decide)
  exact absurd (hmatch.1 1 2 (hok h₀₁) (hok h₁₁)) (by decide)

end Cluster

end KvRaft
