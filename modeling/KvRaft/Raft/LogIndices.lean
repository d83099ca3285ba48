import KvRaft.Raft.Effects

/-!
# The representation of the log

The entry at position `k` of `m_logs` has the index `m_lastSnapshotIncludeIndex + 1 + k`, whatever
mixture of appending, overwriting, dropping and rebuilding has led there, and the last index never
goes back (`Cluster.log_representation`).

The first part is an invariant together with the shape of the requests in flight
(`Cluster.Indexed`); the second one is read off the moves of a log (`Cluster.LogMoves`).
-/

namespace KvRaft

open Raft

namespace Cluster

variable {n : ℕ} {C D : Type} {c c' : Cluster n C D} {i : Fin n}

/-- A move of a log that leaves no gaps does not take its end back. -/
theorem LogMoves.getLastLogIndex_le {rf : Raft n C D} (h : LogMoves c i rf)
    (hc : (c.raft i).Contiguous) (hc' : rf.Contiguous) :
    (c.raft i).getLastLogIndex ≤ rf.getLastLogIndex := by
  rw [hc'.getLastLogIndex]
  cases h with
  | same hs => rw [hc.getLastLogIndex, hs.logs, hs.lastSnapshotIncludeIndex]
  | start command _ hlogs hsnap =>
    rw [hc.getLastLogIndex, hlogs, hsnap, List.length_append]
    push_cast
    omega
  | merge k q me args p _ _ hq hlogs hsnap =>
    have hgrow := length_merge hq args.entries
    rw [hc.getLastLogIndex, hlogs, hsnap]
    omega
  | compact m hm hlogs hsnap =>
    rw [hc.getLastLogIndex, hlogs, hsnap, List.length_drop]
    omega
  | install hlast hlogs _ =>
    rw [hlogs, List.length_nil]
    omega

variable [DecidableEq C]

theorem getLastLogIndex_le_step (hi : c.Indexed) {a : Action n C D} (h : c.step a = some c')
    (i : Fin n) : (c.raft i).getLastLogIndex ≤ (c'.raft i).getLastLogIndex :=
  (hi.logMoves (moves_of_step h) i).getLastLogIndex_le (hi.node i).contiguous
    ((hi.step (moves_of_step h)).node i).contiguous

/-- **The representation of the log.**  In every reachable state of every node the entry at
position `k` carries the index that the slice computations expect there, and whatever happens
later, the last index is never lower. -/
theorem log_representation (h : (machine n C D).Reachable init c) (i : Fin n) :
    (∀ (k : ℕ) (e : LogEntry C), (c.raft i).logs[k]? = some e →
      e.logindex = (c.raft i).lastSnapshotIncludeIndex + 1 + k) ∧
    ∀ c', (machine n C D).Reachable c c' →
      (c.raft i).getLastLogIndex ≤ (c'.raft i).getLastLogIndex := by
  refine ⟨((indexed_of_reachable h).node i).contiguous, fun c' hc' => ?_⟩
  induction hc' with
  | refl => exact le_rfl
  | tail hr _ hst ih =>
    have hi := indexed_of_reachable (h.trans hr)
    exact ih.trans (getLastLogIndex_le_step hi hst i)

/-- A command is committed, applied and compacted away, and another one follows. -/
def compactRun : List (Action 3 String Unit) :=
  [.doElection 0, .deliver 0, .reply 0, .start 0 "x", .doHeartBeat 0, .deliver 2, .reply 2,
    .getApplyLogs 0, .pushApplyMsg 0, .consume 0, .snapshot 0 ()]

theorem log_representation_compactRun : ∃ c c',
    (machine 3 String Unit).run init compactRun = some c ∧
      (machine 3 String Unit).run c [.start 0 "y"] = some c' ∧ (c.raft 0).getLastLogIndex = 1 ∧
      (c'.raft 0).logs = [⟨"y", 1, 2⟩] ∧
      (∀ e, (c'.raft 0).logs[0]? = some e →
        e.logindex = (c'.raft 0).lastSnapshotIncludeIndex + 1 + (0 : ℕ)) ∧
      (c.raft 0).getLastLogIndex ≤ (c'.raft 0).getLastLogIndex := by
  have h : (((machine 3 String Unit).run init compactRun).bind fun c =>
      ((machine 3 String Unit).run c [.start 0 "y"]).map fun c' =>
        ((c.raft 0).getLastLogIndex, (c'.raft 0).logs)) =
        some (1, [⟨"y", 1, 2⟩]) := by decide +kernel
  obtain ⟨c, hc, h⟩ := Option.bind_eq_some_iff.1 h
  obtain ⟨c', hc', h⟩ := Option.map_eq_some_iff.1 h
  obtain ⟨hlast, hlogs⟩ := Prod.mk.inj h
  have hr := Machine.reachable_of_run hc
  have hr' := Machine.reachable_of_run hc'
  exact ⟨c, c', hc, hc', hlast, hlogs, fun e => (log_representation (hr.trans hr') 0).1 0 e,
    (log_representation hr 0).2 c' hr'⟩

end Cluster

end KvRaft
