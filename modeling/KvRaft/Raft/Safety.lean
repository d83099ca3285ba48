import KvRaft.Raft.Replication

/-!
# Log matching and state machine safety

* `Cluster.log_matching`, `Cluster.state_machine_safety` : in every run without snapshots and
  stale suffixes, logs match, and nodes never hand out different commands under one index.
* `Cluster.not_log_matching`, `Cluster.not_state_machine_safety` : a stale suffix breaks both.

In `staleRun` node `0` replicates `"x"` and `"y"` to node `1` only, and node `2` overwrites the
first of them there.  Node `1` is left with an entry of term `1` behind one of term `2`, and by
its last term still votes for node `0`.  In `divergedRun` node `0` is elected so, and commits
and applies `"x"`, while node `1` applies `"z"` at the same index.
-/

namespace KvRaft

open Consensus Raft

/-- The entry that a log holds at an index. -/
def entryAt {C : Type} (logs : List (LogEntry C)) (index : ℤ) : Option (LogEntry C) :=
  logs.find? (·.logindex = index)

theorem entryAt_eq {C : Type} {logs : List (LogEntry C)} (h : ContiguousFrom 0 logs) {k : ℕ}
    (hk : k < logs.length) : entryAt logs (k + 1) = logs[k]? := by
  have hget := List.getElem?_eq_getElem hk
  rw [hget]
  refine List.find?_eq_some_iff_getElem.2 ⟨?_, k, hk, rfl, fun j hj => ?_⟩
  · have := h k _ hget
    simpa [this] using by omega
  · have := h j _ (List.getElem?_eq_getElem (hj.trans hk))
    simp only [Bool.not_eq_true', decide_eq_false_iff_not, this]
    omega

namespace Cluster

variable {n : ℕ} {C D : Type} {c : Cluster n C D}

/-- Logs that hold entries with the same index and term hold the same entries up to there. -/
def LogMatching (c : Cluster n C D) : Prop :=
  ∀ i j, ∀ e ∈ (c.raft i).logs, ∀ e' ∈ (c.raft j).logs,
    e.logindex = e'.logindex → e.logterm = e'.logterm → ∀ k, 1 ≤ k → k ≤ e.logindex →
      ∃ x, entryAt (c.raft i).logs k = some x ∧ entryAt (c.raft j).logs k = some x

/-- Nobody is handed different commands under one index. -/
def StateMachineSafety (c : Cluster n C D) : Prop :=
  ∀ i j command command' index, .command command index ∈ (c.procs i).emitted →
    .command command' index ∈ (c.procs j).emitted → command = command'

variable [DecidableEq C]

/-- **Log matching**, without stale suffixes. -/
theorem log_matching (h : (machine n C D).Reaches NoStaleSuffix init c) : LogMatching c := by
  obtain ⟨votes, A, hr⟩ := exists_refines h
  intro i j e he e' he' hidx hterm k hk hke
  have hi := hr.node i
  have hj := hr.node j
  rw [← procs_raft, ← hi.log] at he ⊢
  rw [← procs_raft, ← hj.log] at he' ⊢
  obtain ⟨p, hp⟩ := List.mem_iff_getElem?.1 he
  obtain ⟨p', hp'⟩ := List.mem_iff_getElem?.1 he'
  have hpi := hi.log_contiguous p e hp
  have hpj := hj.log_contiguous p' e' hp'
  obtain rfl : p = p' := by omega
  have htake := (hr.inv.coherent i).take_eq (hr.inv.coherent j) hp hp' hterm
  have hlt := (List.getElem?_eq_some_iff.1 hp).1
  have hlt' := (List.getElem?_eq_some_iff.1 hp').1
  obtain ⟨m, rfl⟩ : ∃ m : ℕ, k = m + 1 := ⟨(k - 1).toNat, by omega⟩
  have hm : m < p + 1 := by omega
  refine ⟨(A.log i)[m], ?_, ?_⟩
  · rw [entryAt_eq hi.log_contiguous (by omega), List.getElem?_eq_getElem]
  · have := congrArg (fun l => l[m]?) htake
    simp only [List.getElem?_take_of_lt hm] at this
    rw [entryAt_eq hj.log_contiguous (by omega), ← this, List.getElem?_eq_getElem]

/-- **State machine safety**, without stale suffixes. -/
theorem state_machine_safety (h : (machine n C D).Reaches NoStaleSuffix init c) :
    StateMachineSafety c := by
  obtain ⟨votes, A, hr⟩ := exists_refines h
  intro i j command command' index hm hm'
  obtain ⟨T, r, m, k, e, hreign, hc, hk, hidx, he, rfl⟩ := (hr.node i).emitted _ hm
  obtain ⟨T', r', m', k', e', hreign', hc', hk', hidx', he', rfl⟩ := (hr.node j).emitted _ hm'
  obtain rfl : k = k' := by omega
  have := hr.inv.committed_agree hc hc' hreign hreign' hk hk'
  rw [he, he'] at this
  rw [Option.some.inj this]

/-! ### Runs -/

/-- Node `1` overwrites an entry of node `0` that nobody else has, and nothing is behind it. -/
def overwriteRun : List (Action 3 String Unit) :=
  [.doElection 0, .deliver 0, .reply 0, .start 0 "x",
    .doElection 1, .deliver 3, .reply 3, .start 1 "y",
    .doHeartBeat 1, .deliver 4, .reply 4, .doHeartBeat 1, .deliver 6,
    .getApplyLogs 0, .getApplyLogs 1]

theorem overwriteRun_eq : ((machine 3 String Unit).runWhere NoStaleSuffix init overwriteRun).map
    (fun c => ((c.raft 0).logs, (c.procs 0).emitted, (c.procs 1).emitted)) =
      some ([⟨"y", 2, 1⟩], [.command "y" 1], [.command "y" 1]) := by
  decide +kernel

theorem log_matching_overwriteRun : ∃ c,
    (machine 3 String Unit).runWhere NoStaleSuffix init overwriteRun = some c ∧
      (c.raft 0).logs = [⟨"y", 2, 1⟩] ∧ LogMatching c := by
  obtain ⟨c, hc, h⟩ := Option.map_eq_some_iff.1 overwriteRun_eq
  exact ⟨c, hc, (Prod.mk.inj h).1, log_matching (Machine.reaches_of_runWhere hc)⟩

theorem state_machine_safety_overwriteRun : ∃ c,
    (machine 3 String Unit).runWhere NoStaleSuffix init overwriteRun = some c ∧
      (c.procs 0).emitted = [.command "y" 1] ∧ StateMachineSafety c := by
  obtain ⟨c, hc, h⟩ := Option.map_eq_some_iff.1 overwriteRun_eq
  exact ⟨c, hc, (Prod.mk.inj (Prod.mk.inj h).2).1,
    state_machine_safety (Machine.reaches_of_runWhere hc)⟩

/-- Node `2` overwrites the first of two entries that node `1` has from node `0`. -/
def staleRun : List (Action 5 String Unit) :=
  [.doElection 0, .deliver 0, .reply 0, .deliver 1, .reply 1, .start 0 "x", .start 0 "y",
    .doHeartBeat 0, .deliver 4,
    .doElection 2, .deliver 10, .reply 10, .deliver 11, .reply 11, .start 2 "z",
    .doHeartBeat 2, .deliver 13]

theorem staleRun_eq : ((machine 5 String Unit).runWhere SnapshotsOff init staleRun).map
    (fun c => ((c.raft 0).logs, (c.raft 1).logs)) =
      some ([⟨"x", 1, 1⟩, ⟨"y", 1, 2⟩], [⟨"z", 2, 1⟩, ⟨"y", 1, 2⟩]) := by
  decide +kernel

/-- Behind a stale suffix logs do not match: nodes `0` and `1` hold the same entry at index `2`
and different ones at index `1`. -/
theorem not_log_matching :
    ¬ ∀ c, (machine 5 String Unit).Reaches SnapshotsOff init c → LogMatching c := by
  intro hall
  obtain ⟨c, hc, h⟩ := Option.map_eq_some_iff.1 staleRun_eq
  obtain ⟨h₀, h₁⟩ := Prod.mk.inj h
  obtain ⟨x, hx, hx'⟩ := hall c (Machine.reaches_of_runWhere hc) 0 1 ⟨"y", 1, 2⟩ (by simp [h₀])
    ⟨"y", 1, 2⟩ (by simp [h₁]) rfl rfl 1 (by decide) (by decide)
  rw [h₀] at hx
  rw [h₁, ← hx] at hx'
  exact absurd hx' (by decide)

/-- Node `1` votes for node `0` again, which then commits `"x"` with the nodes that hold it. -/
def divergedRun : List (Action 5 String Unit) :=
  staleRun ++ [.deliver 8, .doElection 0, .deliver 18, .reply 18, .deliver 19, .reply 19,
    .start 0 "w", .doHeartBeat 0, .deliver 22, .reply 22, .doHeartBeat 0, .deliver 24, .deliver 26,
    .reply 24, .reply 26, .getApplyLogs 0, .doHeartBeat 0, .deliver 28, .getApplyLogs 1]

theorem divergedRun_eq : ((machine 5 String Unit).runWhere SnapshotsOff init divergedRun).map
    (fun c => ((c.procs 0).emitted.head?, (c.procs 1).emitted.head?)) =
      some (some (.command "x" 1), some (.command "z" 1)) := by
  decide +kernel

/-- Behind a stale suffix two nodes apply different commands under one index. -/
theorem not_state_machine_safety :
    ¬ ∀ c, (machine 5 String Unit).Reaches SnapshotsOff init c → StateMachineSafety c := by
  intro hall
  obtain ⟨c, hc, h⟩ := Option.map_eq_some_iff.1 divergedRun_eq
  obtain ⟨h₀, h₁⟩ := Prod.mk.inj h
  exact absurd (hall c (Machine.reaches_of_runWhere hc) 0 1 "x" "z" 1
    (List.mem_of_mem_head? h₀) (List.mem_of_mem_head? h₁)) (by decide)

end Cluster

end KvRaft
