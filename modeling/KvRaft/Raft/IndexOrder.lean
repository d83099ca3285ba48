import KvRaft.Raft.Durable

/-!
# The order of the indices across restarts

  `m_lastSnapshotIncludeIndex ≤ m_lastApplied ≤ m_commitIndex ≤ getLastLogIndex()`

`Cluster.Indexed` has this for every run without restarts.  A restart brings back the log and the
snapshot point, which every branch that changes them saves, and takes `m_lastApplied` up to the
snapshot point; `m_commitIndex` stays zero.

* `Crashing.RestoresNoSnapshot` : the condition on a restart, that the node has saved no snapshot
  point.
* `Crashing.index_order` : in every run that meets the condition the indices are in order, and
  neither `m_commitIndex` nor `m_lastApplied` goes back between the restarts of a node.
-/

namespace KvRaft

open Raft

namespace Raft

variable {n : ℕ} {C D : Type}

/-- **The order of the indices of a node.** -/
def InOrder (rf : Raft n C D) : Prop :=
  rf.lastSnapshotIncludeIndex ≤ rf.lastApplied ∧ rf.lastApplied ≤ rf.commitIndex ∧
    rf.commitIndex ≤ rf.getLastLogIndex

instance (rf : Raft n C D) : Decidable rf.InOrder := by
  unfold InOrder
  infer_instance

theorem Ordered.inOrder {rf : Raft n C D} (h : rf.Ordered) : rf.InOrder :=
  ⟨h.snapshot_le, h.applied_le, h.commit_le⟩

/-- The fields that hold the log. -/
def logFields (data : BoostPersistRaftNode n C) : List (LogEntry C) × ℤ :=
  (data.logs, data.lastSnapshotIncludeIndex)

theorem init_persistData (rf : Raft n C D) (i : Fin n) :
    (Raft.init i rf.persister : Raft n C D).persistData = rf.restored := by
  unfold Raft.init restored
  dsimp only
  split_ifs <;> cases rf.persister.raftState <;> rfl

theorem init_indices (i : Fin n) {saved : Saved n C D}
    (h : (Raft.init i saved).lastSnapshotIncludeIndex = 0) :
    (Raft.init i saved).lastApplied = 0 ∧ (Raft.init i saved).commitIndex = 0 := by
  obtain ⟨data, snapshot⟩ := saved
  unfold Raft.init at h ⊢
  dsimp only at h ⊢
  split_ifs at h ⊢ with hpos
  · exact absurd h hpos.ne'
  · cases data <;> exact ⟨rfl, rfl⟩

/-- A process that finds the log of its predecessor, not compacted, starts with its indices in
order. -/
theorem Ordered.init {rf : Raft n C D} (h : rf.Ordered) (hd : DurableOn logFields rf)
    (hsnap : rf.lastSnapshotIncludeIndex = 0) (i : Fin n) : (Raft.init i rf.persister).Ordered := by
  have hfields : logFields (Raft.init i rf.persister).persistData = logFields rf.persistData := by
    rw [init_persistData]
    exact hd
  have hlogs : (Raft.init i rf.persister).logs = rf.logs := congrArg Prod.fst hfields
  have hindex : (Raft.init i rf.persister).lastSnapshotIncludeIndex = 0 :=
    (congrArg Prod.snd hfields).trans hsnap
  obtain ⟨happlied, hcommit⟩ := init_indices i hindex
  have hc : (Raft.init i rf.persister).Contiguous := by
    unfold Contiguous
    rw [hlogs, hindex, ← hsnap]
    exact h.contiguous
  refine ⟨hc, by omega, by omega, ?_⟩
  rw [hcommit, hc.getLastLogIndex]
  omega

end Raft

namespace Crashing

variable {n : ℕ} {C D : Type} {s s' : Crashing n C D}

/-- The condition on a step: a node that restarts has not saved a compacted log. -/
def RestoresNoSnapshot (s : Crashing n C D) : CrashAction n C D → Prop
  | .restart i => ∀ data ∈ (s.cluster.raft i).persister.raftState,
    data.lastSnapshotIncludeIndex = 0
  | .act _ => True

instance (s : Crashing n C D) (a : CrashAction n C D) : Decidable (s.RestoresNoSnapshot a) := by
  induction a using CrashAction.casesOn <;> dsimp only [RestoresNoSnapshot] <;> infer_instance

/-- The indices are in order, and the logs are saved. -/
structure Sound (s : Crashing n C D) : Prop where
  indexed : s.cluster.Indexed
  saved : ∀ i, DurableOn logFields (s.cluster.raft i)

theorem sound_init : Sound (init : Crashing n C D) :=
  ⟨Cluster.indexed_init, fun i => durableOn_init i {}⟩

theorem Sound.restart (hs : s.Sound) {i : Fin n} (hg : s.RestoresNoSnapshot (.restart i)) :
    (s.restart i).Sound := by
  refine ⟨⟨fun j => ?_, fun t ht => ?_, fun j msg hmsg => ?_⟩, durableOn_restart hs.saved i⟩
  · rw [restart_raft]
    split_ifs
    · refine (hs.indexed.node i).init (hs.saved i) ?_ i
      -- what was saved is the snapshot point that the node has
      have hsame : (s.cluster.raft i).restored.lastSnapshotIncludeIndex =
        (s.cluster.raft i).lastSnapshotIncludeIndex := congrArg Prod.snd (hs.saved i)
      rw [← hsame, restored]
      cases hdata : (s.cluster.raft i).persister.raftState with
      | none => rfl
      | some data => exact hg data hdata
    · exact hs.indexed.node j
  · rcases mem_restart_threads ht with ⟨hold, hne⟩ | ⟨msg, rfl⟩
    · have := hs.indexed.thread t hold
      cases t with
      | pushMsgToKvServer me msg pushed =>
        intro hp
        subst hp
        have hme : me ≠ i := by
          rintro rfl
          exact hne msg rfl
        rw [restart_raft, if_neg hme]
        exact this rfl
      | sendRequestVote | sendAppendEntries | leaderSendSnapShot => exact this
    · exact fun hp => by cases hp
  · rw [restart_procs] at hmsg
    rw [restart_raft]
    split_ifs at hmsg ⊢
    · simp [Process.emitted] at hmsg
    · exact hs.indexed.emitted j msg hmsg

variable [DecidableEq C] {a : CrashAction n C D}

theorem Sound.step (hs : s.Sound) (hg : s.RestoresNoSnapshot a) (hst : s.step a = some s') :
    s'.Sound := by
  obtain ⟨b, c, rfl, hc, rfl⟩ | ⟨i, rfl, rfl⟩ := step_cases hst
  · have hm := Cluster.moves_of_step hc
    exact ⟨hs.indexed.step hm,
      Cluster.durableOn_step hs.saved (fun _ _ _ _ _ _ _ _ _ _ => rfl) hm⟩
  · exact hs.restart hg

/-- Between its restarts a node goes ahead. -/
theorem Sound.advances (hs : s.Sound) {i : Fin n} (ha : a ≠ .restart i)
    (hst : s.step a = some s') : (s.cluster.raft i).lastApplied ≤ (s'.cluster.raft i).lastApplied ∧
      (s.cluster.raft i).commitIndex ≤ (s'.cluster.raft i).commitIndex := by
  obtain ⟨b, c, rfl, hc, rfl⟩ | ⟨j, rfl, rfl⟩ := step_cases hst
  · have hadv := (hs.indexed.processMoves (Cluster.moves_of_step hc) i).advances hs.indexed
    exact ⟨hadv.applied_le, hadv.commit_le⟩
  · have hne : i ≠ j := by
      rintro rfl
      exact ha rfl
    rw [restart_raft, if_neg hne]
    exact ⟨le_rfl, le_rfl⟩

/-- **The order of the indices** holds in every state of every run in which no node restarts
that has saved a compacted log, and between its restarts the indices of a node only grow. -/
theorem index_order (h : (machine n C D).Reaches RestoresNoSnapshot init s) (i : Fin n) :
    (s.cluster.raft i).InOrder ∧ ∀ s', (machine n C D).Reaches
      (fun s a => s.RestoresNoSnapshot a ∧ a ≠ .restart i) s s' →
        (s.cluster.raft i).lastApplied ≤ (s'.cluster.raft i).lastApplied ∧
          (s.cluster.raft i).commitIndex ≤ (s'.cluster.raft i).commitIndex := by
  have hsound : ∀ {s : Crashing n C D}, (machine n C D).Reaches RestoresNoSnapshot init s →
      s.Sound := fun h => h.invariant sound_init fun _ _ _ hs hg hst => hs.step hg hst
  refine ⟨((hsound h).indexed.node i).inOrder, fun s' hs' => ?_⟩
  induction hs' with
  | refl => exact ⟨le_rfl, le_rfl⟩
  | tail hr hg hst ih =>
    have hmid := hsound (h.trans (hr.mono fun _ _ hp => hp.1))
    obtain ⟨happlied, hcommit⟩ := hmid.advances hg.2 hst
    exact ⟨ih.1.trans happlied, ih.2.trans hcommit⟩

/-- Node `0` commits and applies an entry. -/
def appliedRun : List (CrashAction 3 String Unit) :=
  [.act (.doElection 0), .act (.deliver 0), .act (.reply 0), .act (.start 0 "x"),
    .act (.doHeartBeat 0), .act (.deliver 2), .act (.reply 2), .act (.getApplyLogs 0),
    .act (.pushApplyMsg 0), .act (.consume 0)]

theorem index_order_appliedRun : ∃ s s',
    (machine 3 String Unit).runWhere RestoresNoSnapshot init (.restart 1 :: appliedRun) = some s ∧
      (machine 3 String Unit).step s (.act (.snapshot 0 ())) = some s' ∧
      (s'.cluster.raft 0).lastSnapshotIncludeIndex = 1 ∧ (s'.cluster.raft 0).InOrder ∧
      (s.cluster.raft 0).commitIndex ≤ (s'.cluster.raft 0).commitIndex := by
  have h : (((machine 3 String Unit).runWhere RestoresNoSnapshot init
      (.restart 1 :: appliedRun)).bind fun s =>
        ((machine 3 String Unit).step s (.act (.snapshot 0 ()))).map
          fun s' => (s'.cluster.raft 0).lastSnapshotIncludeIndex) = some 1 := by decide +kernel
  obtain ⟨s, hs, h⟩ := Option.bind_eq_some_iff.1 h
  obtain ⟨s', hs', hsnap⟩ := Option.map_eq_some_iff.1 h
  have hr := Machine.reaches_of_runWhere hs
  have hg : s.RestoresNoSnapshot (.act (.snapshot 0 ())) := trivial
  have hne : (.act (.snapshot 0 ()) : CrashAction 3 String Unit) ≠ .restart 0 := nofun
  exact ⟨s, s', hs, hs', hsnap, (index_order (hr.tail hg hs') 0).1,
    ((index_order hr 0).2 s' (.tail .refl ⟨hg, hne⟩ hs')).2⟩

/-- Node `0` restarts behind its snapshot: it has applied an entry that it does not know to be
committed. -/
theorem not_index_order : ¬ ∀ s, (machine 3 String Unit).Reachable init s →
    ∀ i, (s.cluster.raft i).InOrder := by
  intro hall
  have h : ((machine 3 String Unit).run init
      (appliedRun ++ [.act (.snapshot 0 ()), .restart 0])).map
        (fun s => decide (s.cluster.raft 0).InOrder) = some false := by decide +kernel
  obtain ⟨s, hs, hd⟩ := Option.map_eq_some_iff.1 h
  exact of_decide_eq_false hd (hall s (Machine.reachable_of_run hs) 0)

end Crashing

end KvRaft
