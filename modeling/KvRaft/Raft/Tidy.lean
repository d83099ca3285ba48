import KvRaft.Raft.IndexOrder
import KvRaft.Raft.Leading

/-!
# What holds across restarts

The order of the indices is lost when a process restarts behind a snapshot, since the commit
index is not saved.  What every handler keeps and a restart brings back is less:

* `Raft.Tidy` : the log has no gap and covers what is committed, behind a snapshot point of which
  index zero has term zero.
* `Raft.KnowsPeers` : the next index for a peer is within one of the log's end, and what a peer is
  known to have is in the log.
* `Cluster.Tidy`, `Cluster.Tidy.step` : the invariant of a cluster.  Requests start within the log
  of their sender and end there, a refusal says where to go on, and no snapshot that waits for the
  state machine is ahead of the commit index.
* `Crashing.tidy_of_reachable` : it holds in every state of every run, with restarts.
-/

namespace KvRaft

open Raft

namespace Raft

variable {n : ℕ} {C D : Type} {rf rf' : Raft n C D}

/-- **What every node keeps, restarts or not.** -/
structure Tidy (rf : Raft n C D) : Prop extends Within rf where
  snapshot_nonneg : 0 ≤ rf.lastSnapshotIncludeIndex
  no_snapshot : rf.lastSnapshotIncludeIndex = 0 → rf.lastSnapshotIncludeTerm = 0

theorem Tidy.grows (h : rf.Tidy) (hg : rf.Grows rf') : rf'.Tidy := by
  have hsnap := h.snapshot_nonneg
  rcases hg.point with ⟨hindex, hterm⟩ | hlt
  · refine ⟨hg.toWithin, hindex ▸ hsnap, fun hzero => ?_⟩
    rw [hterm]
    exact h.no_snapshot (hindex ▸ hzero)
  · exact ⟨hg.toWithin, by omega, fun hzero => by omega⟩

theorem tidy_init (i : Fin n) : (Raft.init i {} : Raft n C D).Tidy :=
  ⟨⟨.nil _, le_rfl⟩, le_rfl, fun _ => rfl⟩

theorem Tidy.last_nonneg (h : rf.Tidy) : 0 ≤ rf.getLastLogIndex := by
  have := h.snapshot_nonneg
  rw [h.getLastLogIndex]
  omega

/-- The log and the snapshot point. -/
def entryFields (data : BoostPersistRaftNode n C) : List (LogEntry C) × ℤ × ℤ :=
  (data.logs, data.lastSnapshotIncludeIndex, data.lastSnapshotIncludeTerm)

/-- A process finds the log of its predecessor. -/
theorem sameEntries_init (hd : DurableOn entryFields rf) (i : Fin n) :
    rf.SameEntries (Raft.init i rf.persister) := by
  have hfields :
      entryFields (Raft.init i rf.persister).persistData = entryFields rf.persistData := by
    rw [init_persistData]
    exact hd
  exact ⟨congrArg Prod.fst hfields, congrArg (fun x => x.2.1) hfields,
    congrArg (fun x => x.2.2) hfields⟩

theorem init_commitIndex (i : Fin n) (saved : Saved n C D) :
    (Raft.init i saved).commitIndex = 0 ∧ (Raft.init i saved).status = .follower := by
  obtain ⟨data, snapshot⟩ := saved
  unfold Raft.init
  dsimp only
  split_ifs <;> cases data <;> exact ⟨rfl, rfl⟩

theorem Tidy.init (h : rf.Tidy) (hd : DurableOn entryFields rf) (i : Fin n) :
    (Raft.init i rf.persister).Tidy := by
  have hs := sameEntries_init hd i
  refine ⟨⟨?_, ?_⟩, ?_, ?_⟩
  · rw [Contiguous, hs.logs, hs.lastSnapshotIncludeIndex]
    exact h.contiguous
  · rw [(init_commitIndex i rf.persister).1, hs.getLastLogIndex]
    exact h.last_nonneg
  · rw [hs.lastSnapshotIncludeIndex]
    exact h.snapshot_nonneg
  · rw [hs.lastSnapshotIncludeIndex, hs.lastSnapshotIncludeTerm]
    exact h.no_snapshot

/-! ### Requests and replies -/

/-- What a request of `rf` carries: consecutive entries, behind an index of which zero has term
zero, up to the end of the log or less. -/
structure Carries (rf : Raft n C D) (args : AppendEntriesArgs n C) : Prop where
  contiguous : ContiguousFrom args.prevlogindex args.entries
  prev_nonneg : 0 ≤ args.prevlogindex
  no_prev : args.prevlogindex = 0 → args.prevlogterm = 0
  last_le : args.lastIndex ≤ rf.getLastLogIndex

/-- A refusal says where to go on: not behind the index that was asked for. -/
def PointsBack (args : AppendEntriesArgs n C) (reply : AppendEntriesReply) : Prop :=
  reply.success = false → reply.updatenextindex ≠ -100 →
    1 ≤ reply.updatenextindex ∧ reply.updatenextindex ≤ args.prevlogindex

/-- A heartbeat of a tidy node. -/
theorem Tidy.carries (h : rf.Tidy) {j : Fin n} {args : AppendEntriesArgs n C}
    (hb : rf.heartBeatTo j = .ok (.sendAppendEntries j args)) : rf.Carries args := by
  have hcont := h.contiguous.heartBeatTo hb
  have hsnap := h.snapshot_nonneg
  have hlast := h.getLastLogIndex
  rcases heartBeatTo_cases hb with ⟨hb, -⟩ | ⟨prev, term, hget, hb⟩
  · cases hb
  obtain ⟨-, rfl⟩ := HeartBeat.sendAppendEntries.inj hb
  obtain ⟨hlo, hhi, hterm⟩ := getLogTermFromLogIndex_eq_ok.1 hget
  refine ⟨hcont, hsnap.trans hlo, fun hzero => ?_, ?_⟩
  · -- only the snapshot point can be zero
    dsimp only at hzero ⊢
    rcases hterm with ⟨hpoint, rfl⟩ | ⟨-, e, he, -⟩
    · exact h.no_snapshot (hpoint ▸ hzero)
    · have := (logOf_eq_ok.1 he).1
      omega
  · simp only [AppendEntriesArgs.lastIndex, List.length_drop]
    omega

/-- **Where a tidy node sends a leader back to.** -/
theorem Tidy.pointsBack [DecidableEq C] (h : rf.Tidy) {args : AppendEntriesArgs n C}
    {reply : AppendEntriesReply} (hprev : 0 ≤ args.prevlogindex)
    (hzero : args.prevlogindex = 0 → args.prevlogterm = 0)
    (heq : rf.appendEntries1 args = .ok (rf', reply)) : PointsBack args reply := by
  intro hno hup
  obtain ⟨-, ⟨-, -, hold⟩ | ⟨-, -, hback⟩⟩ := appendEntries1_replies heq
  · exact absurd hold hup
  refine ⟨?_, (hback hno).le⟩
  have hlast := h.last_nonneg
  have hsnap := h.snapshot_nonneg
  rcases hback hno with ⟨-, hnext⟩ | ⟨hmatch, -, hnext | hnext⟩
  · omega
  · -- index zero always matches
    by_contra hpos
    have hprev₀ : args.prevlogindex = 0 := by omega
    obtain ⟨hlo, -, t, ht, hne⟩ := matchLog_eq_ok.1 hmatch
    refine of_decide_eq_false hne ?_
    obtain ⟨-, -, ⟨hpoint, rfl⟩ | ⟨hother, -⟩⟩ := getLogTermFromLogIndex_eq_ok.1 ht
    · rw [hzero hprev₀, h.no_snapshot (by omega)]
    · omega
  · omega

/-- **What a leader knows about its peers is within its log.** -/
structure KnowsPeers (rf : Raft n C D) : Prop where
  next_pos : ∀ j, 1 ≤ rf.nextIndex j
  next_le : ∀ j, rf.nextIndex j ≤ rf.getLastLogIndex + 1
  match_nonneg : ∀ j, 0 ≤ rf.matchIndex j
  match_le : ∀ j, rf.matchIndex j ≤ rf.getLastLogIndex

/-- The log grows. -/
theorem KnowsPeers.mono (h : rf.KnowsPeers) (hlast : rf.getLastLogIndex ≤ rf'.getLastLogIndex)
    (hmatch : rf'.matchIndex = rf.matchIndex) (hnext : rf'.nextIndex = rf.nextIndex) :
    rf'.KnowsPeers where
  next_pos j := hnext ▸ h.next_pos j
  next_le j := by
    have := h.next_le j
    rw [hnext]
    omega
  match_nonneg j := hmatch ▸ h.match_nonneg j
  match_le j := by
    rw [hmatch]
    exact (h.match_le j).trans hlast

/-- Something within the log is learned about one peer. -/
theorem KnowsPeers.update (h : rf.KnowsPeers) (hlast : rf'.getLastLogIndex = rf.getLastLogIndex)
    {server : Fin n} {m k : ℤ} (hmatch : rf'.matchIndex = Function.update rf.matchIndex server m)
    (hnext : rf'.nextIndex = Function.update rf.nextIndex server k)
    (hm : 0 ≤ m ∧ m ≤ rf.getLastLogIndex) (hk : 1 ≤ k ∧ k ≤ rf.getLastLogIndex + 1) :
    rf'.KnowsPeers := by
  refine ⟨?_, ?_, ?_, ?_⟩
  · rw [hnext]
    exact (Function.forall_update_iff _ fun _ x => 1 ≤ x).2 ⟨hk.1, fun j _ => h.next_pos j⟩
  · rw [hnext, hlast]
    exact (Function.forall_update_iff _ fun _ x => x ≤ rf.getLastLogIndex + 1).2
      ⟨hk.2, fun j _ => h.next_le j⟩
  · rw [hmatch]
    exact (Function.forall_update_iff _ fun _ x => 0 ≤ x).2 ⟨hm.1, fun j _ => h.match_nonneg j⟩
  · rw [hmatch, hlast]
    exact (Function.forall_update_iff _ fun _ x => x ≤ rf.getLastLogIndex).2
      ⟨hm.2, fun j _ => h.match_le j⟩

end Raft

namespace Cluster

variable {n : ℕ} {C D : Type} {c c' : Cluster n C D} {a : Action n C D} {i : Fin n}

/-! ### Snapshots on their way to the state machine -/

/-- A snapshot up to `index` waits for the state machine of node `i`, or was popped by it. -/
def Pending (c : Cluster n C D) (i : Fin n) (index : ℤ) : Prop :=
  ∃ data term, .snapshot data term index ∈ (c.procs i).emitted ∨
    .pushMsgToKvServer i (.snapshot data term index) false ∈ c.threads

@[simp] theorem setRaft_emitted (c : Cluster n C D) (i j : Fin n) (rf : Raft n C D) :
    ((c.setRaft i rf).procs j).emitted = (c.procs j).emitted := by
  rw [setRaft_procs]
  split_ifs with hj
  · rw [hj]
    rfl
  · rfl

/-- Messages that process `i` has handed out, after a section of it. -/
theorem mem_emitted_of_setProc {p : Process n C D} {msg : ApplyMsg C D} {j : Fin n}
    (hp : msg ∈ p.emitted → msg ∈ (c.procs i).emitted)
    (hm : msg ∈ ((c.setProc i p).procs j).emitted) : msg ∈ (c.procs j).emitted := by
  rw [setProc_procs] at hm
  split_ifs at hm with hj
  · exact hj ▸ hp hm
  · exact hm

variable [DecidableEq C] {data : D} {term index : ℤ}

/-- A snapshot that was handed out was handed out before, or pushed by a thread. -/
theorem emitted_moves (h : Moves c a c')
    (hm : .snapshot data term index ∈ (c'.procs i).emitted) :
    .snapshot data term index ∈ (c.procs i).emitted ∨
      .pushMsgToKvServer i (.snapshot data term index) false ∈ c.threads := by
  cases h with
  | exit j f =>
    exact Or.inl (mem_emitted_of_setProc (p := { c.procs j with exited := some f }) id hm)
  | idle | doHeartBeat | loseVote | loseAppend | loseSnapshot | leaderSendSnapShot =>
    exact Or.inl hm
  | doElection | start | snapshot | requestVote | appendEntries1 | installSnapshot
  | sendRequestVote | sendAppendEntries | snapshotReply => exact Or.inl (by simpa using hm)
  | @getApplyLogs j rf msgs hempty h =>
    -- all that is taken are commands
    refine Or.inl (mem_emitted_of_setProc (fun hp => ?_) hm)
    simp only [Process.emitted, hempty, List.append_nil] at hp ⊢
    rcases List.mem_append.1 hp with hp | hp
    · exact hp
    · obtain ⟨k, hk⟩ := List.mem_iff_getElem?.1 hp
      obtain ⟨log, -, hlog⟩ := (applyNext_eq (getApplyLogs_eq h).2).2.2 k _ hk
      cases hlog
  | pushApplyMsg hmsgs =>
    exact Or.inl (mem_emitted_of_setProc (fun hp => by simpa [Process.emitted, hmsgs] using hp) hm)
  | consumeCommand hmsgs | consumeSnapshot hmsgs _ =>
    exact Or.inl (mem_emitted_of_setProc (fun hp => by simpa [Process.emitted, hmsgs] using hp) hm)
  | @pushMsgToKvServer k j msg hk =>
    rw [setThread_procs, setProc_procs] at hm
    split_ifs at hm with hj
    swap
    · exact Or.inl hm
    subst hj
    have hmem : .snapshot data term index ∈ (c.procs i).emitted ∨
        .snapshot data term index = msg := by
      simp only [Process.emitted, List.mem_append, List.mem_singleton] at hm ⊢
      tauto
    rcases hmem with hold | rfl
    · exact Or.inl hold
    · exact Or.inr (List.mem_of_getElem? hk)

/-- A thread that is to push a snapshot was there before, or `installSnapshot` has started it and
has advanced the commit index. -/
theorem push_moves (h : Moves c a c')
    (hm : .pushMsgToKvServer i (.snapshot data term index) false ∈ c'.threads) :
    .pushMsgToKvServer i (.snapshot data term index) false ∈ c.threads ∨
      index ≤ (c'.raft i).commitIndex := by
  -- a thread of another kind goes on
  have hset : ∀ {k : ℕ} {t : Thread n C D},
      .pushMsgToKvServer i (.snapshot data term index) false ∈ c.threads.set k t →
      t ≠ .pushMsgToKvServer i (.snapshot data term index) false →
      .pushMsgToKvServer i (.snapshot data term index) false ∈ c.threads := by
    intro k t hm ht
    exact (List.mem_or_eq_of_mem_set hm).resolve_right fun heq => ht heq.symm
  cases h with
  | exit | idle | start | getApplyLogs | pushApplyMsg | consumeCommand | consumeSnapshot
  | snapshot => exact Or.inl hm
  | doElection =>
    refine Or.inl ((List.mem_append.1 hm).resolve_right fun hnew => ?_)
    obtain ⟨call, -, hcall⟩ := List.mem_map.1 hnew
    cases hcall
  | doHeartBeat =>
    refine Or.inl ((List.mem_append.1 hm).resolve_right fun hnew => ?_)
    obtain ⟨b, -, hb⟩ := List.mem_map.1 hnew
    cases b <;> cases hb
  | requestVote | appendEntries1 | sendRequestVote | sendAppendEntries | snapshotReply | loseVote
  | loseAppend | loseSnapshot | leaderSendSnapShot => exact Or.inl (hset hm nofun)
  | pushMsgToKvServer => exact Or.inl (hset hm (by simp))
  | @installSnapshot k me server args rf r msg hk h =>
    rcases List.mem_append.1 hm with hold | hnew
    · exact Or.inl (hset hold nofun)
    obtain ⟨m, hmsg, hpush⟩ := List.mem_map.1 hnew
    obtain ⟨rfl, rfl⟩ : server = i ∧ m = .snapshot data term index := by simpa using hpush
    rcases installSnapshot_cases h with ⟨rfl, -⟩ | ⟨rfl, -, -, -, -, hcommit, -⟩
    · simp at hmsg
    · obtain ⟨-, -, rfl⟩ : _ ∧ _ ∧ _ := by simpa using hmsg
      exact Or.inr (by simp [hcommit])

theorem pending_moves (h : Moves c a c') (hp : c'.Pending i index) :
    c.Pending i index ∨ index ≤ (c'.raft i).commitIndex := by
  obtain ⟨data, term, hm | hm⟩ := hp
  · exact Or.inl ⟨data, term, emitted_moves h hm⟩
  · exact (push_moves h hm).imp_left fun hold => ⟨data, term, Or.inr hold⟩

/-! ### The invariant -/

omit [DecidableEq C] in
/-- **The invariant of a cluster**, restarts or not. -/
structure Tidy (c : Cluster n C D) : Prop where
  node : ∀ i, (c.raft i).Tidy
  pending : ∀ i index, c.Pending i index → index ≤ (c.raft i).commitIndex
  call : ∀ (k : ℕ) (me server : Fin n) (args : AppendEntriesArgs n C) (p : ℕ)
    (phase : Phase AppendEntriesReply),
    c.threads[k]? = some (.sendAppendEntries me server args p phase) →
      (c.raft me).Carries args ∧ ∀ reply, phase.reply? = some reply → PointsBack args reply
  snapshotCall : ∀ (k : ℕ) (me server : Fin n) (args : InstallSnapshotRequest n D)
    (phase : Phase InstallSnapshotResponse),
    c.threads[k]? = some (.leaderSendSnapShot me server (some (args, phase))) →
      0 ≤ args.lastsnapshotincludeindex ∧
        args.lastsnapshotincludeindex ≤ (c.raft me).getLastLogIndex
  leader : ∀ i, (c.raft i).status = .leader → (c.raft i).KnowsPeers

omit [DecidableEq C] in
theorem tidy_init : Tidy (init : Cluster n C D) where
  node i := Raft.tidy_init i
  pending i index h := by
    obtain ⟨data, term, h | h⟩ := h
    · simp [init, Process.emitted] at h
    · cases h
  call k me server args p phase h := by simp [init] at h
  snapshotCall k me server args phase h := by simp [init] at h
  leader i h := by cases h

omit [DecidableEq C] in
/-- The state machine declines every snapshot. -/
theorem Tidy.condInstallSnapshot (ht : c.Tidy) {msgs : List (ApplyMsg C D)}
    (h : (c.procs i).applyChan = .snapshot data term index :: msgs) :
    (c.raft i).condInstallSnapshot term index data = .ok (c.raft i, false) :=
  condInstallSnapshot_eq
    (ht.pending i index ⟨data, term, Or.inl (by simp [Process.emitted, h])⟩)

omit [DecidableEq C] in
theorem grows_of_update (ht : c.Tidy) {i : Fin n} {rf : Raft n C D} (h : (c.raft i).Grows rf)
    (hraft : ∀ j, c'.raft j = if j = i then rf else c.raft j) (j : Fin n) :
    (c.raft j).Grows (c'.raft j) :=
  forall_raft_of_update (P := fun j => (c.raft j).Grows) hraft h
    (fun j => (ht.node j).toWithin.refl) j

/-- **No step takes a log, a commit index or a snapshot point back.** -/
theorem Tidy.grows (ht : c.Tidy) (h : Moves c a c') (j : Fin n) :
    (c.raft j).Grows (c'.raft j) := by
  have hrefl : ∀ j, (c.raft j).Grows (c.raft j) := fun j => (ht.node j).toWithin.refl
  cases h with
  | exit i f =>
    rw [exit_raft]
    exact hrefl j
  | idle | doHeartBeat | loseVote | loseAppend | loseSnapshot | leaderSendSnapShot => exact hrefl j
  | @doElection i rf calls h =>
    exact grows_of_update ht ((ht.node i).of_sameLog (doElection_eq h).1) (by simp) j
  | @start i command => exact grows_of_update ht ((ht.node i).start command) (by simp) j
  | @getApplyLogs i rf msgs _ h => exact grows_of_update ht ((ht.node i).getApplyLogs h) (by simp) j
  | @pushApplyMsg i | @consumeCommand i => exact grows_of_update ht (hrefl i) (by simp) j
  | @consumeSnapshot i data term index msgs rf b hmsgs h =>
    rw [ht.condInstallSnapshot hmsgs] at h
    cases h
    exact grows_of_update ht (hrefl i) (by simp) j
  | @snapshot i command index data rf _ h =>
    exact grows_of_update ht ((ht.node i).snapshot h) (by simp) j
  | @requestVote k me server args p rf r _ h =>
    exact grows_of_update ht ((ht.node server).of_sameLog (requestVote_cases h).1) (by simp) j
  | @appendEntries1 k me server args p rf r hk h =>
    have hcarries := (ht.call k me server args p _ hk).1
    exact grows_of_update ht ((ht.node server).appendEntries1 hcarries.contiguous h).1 (by simp) j
  | @installSnapshot k me server args rf r msg _ h =>
    exact grows_of_update ht ((ht.node server).installSnapshot h) (by simp) j
  | @sendRequestVote k me server args p r rf num elected _ h =>
    exact grows_of_update ht ((ht.node me).of_sameLog (sendRequestVote_cases h).1) (by simp) j
  | @sendAppendEntries k me server args p r rf num _ h =>
    exact grows_of_update ht ((ht.node me).sendAppendEntries h).1 (by simp) j
  | @snapshotReply k me server args r _ =>
    have hs := (c.raft me).sameLog_leaderSendSnapShotReply server args r
    exact grows_of_update ht ((ht.node me).of_sameLog hs) (by simp) j
  | @pushMsgToKvServer k me msg _ => exact grows_of_update ht (hrefl me) (by simp) j

/-- What a request carries stays within the log of its sender, and its reply points back. -/
theorem Tidy.call_step (ht : c.Tidy) (h : Moves c a c') {k : ℕ} {me server : Fin n}
    {args : AppendEntriesArgs n C} {p : ℕ} {phase : Phase AppendEntriesReply}
    (hk : c'.threads[k]? = some (.sendAppendEntries me server args p phase)) :
    (c'.raft me).Carries args ∧ ∀ reply, phase.reply? = some reply → PointsBack args reply := by
  have hgrow : (c.raft me).Carries args → (c'.raft me).Carries args := fun hc =>
    ⟨hc.contiguous, hc.prev_nonneg, hc.no_prev, hc.last_le.trans (ht.grows h me).last_le⟩
  cases callMoves h hk with
  | stays hold =>
    obtain ⟨hc, hr⟩ := ht.call k me server args p _ hold
    exact ⟨hgrow hc, hr⟩
  | started _ _ _ hb => exact ⟨hgrow ((ht.node me).carries hb), nofun⟩
  | delivered rf reply _ hold hrf =>
    have hc := (ht.call k me server args p _ hold).1
    refine ⟨hgrow hc, fun r hr => ?_⟩
    obtain rfl := Option.some.inj hr
    exact (ht.node server).pointsBack hc.prev_nonneg hc.no_prev hrf
  | processed reply _ hold =>
    obtain ⟨hc, hr⟩ := ht.call k me server args p _ hold
    exact ⟨hgrow hc, hr⟩
  | lost hold => exact ⟨hgrow (ht.call k me server args p _ hold).1, nofun⟩

/-- A snapshot that is sent stays within the log of its sender. -/
theorem Tidy.snapshotCall_step (ht : c.Tidy) (h : Moves c a c') {k : ℕ} {me server : Fin n}
    {args : InstallSnapshotRequest n D} {phase : Phase InstallSnapshotResponse}
    (hk : c'.threads[k]? = some (.leaderSendSnapShot me server (some (args, phase)))) :
    0 ≤ args.lastsnapshotincludeindex ∧
      args.lastsnapshotincludeindex ≤ (c'.raft me).getLastLogIndex := by
  suffices hold : 0 ≤ args.lastsnapshotincludeindex ∧
      args.lastsnapshotincludeindex ≤ (c.raft me).getLastLogIndex from
    ⟨hold.1, hold.2.trans (ht.grows h me).last_le⟩
  generalize hcall : some (args, phase) = call at hk
  cases snapshotCallMoves h hk with
  | stays hold => exact ht.snapshotCall k me server args phase (hcall ▸ hold)
  | started => cases hcall
  | goesOn hold =>
    cases hcall
    exact ht.snapshotCall k me server args _ hold
  | reads data =>
    cases hcall
    have hlast := (ht.node me).getLastLogIndex
    refine ⟨(ht.node me).snapshot_nonneg, ?_⟩
    simp only [leaderSendSnapShot]
    omega

/-- **What a leader learns is within its log**, whatever reply it processes. -/
theorem Tidy.leader_step (ht : c.Tidy) (h : Moves c a c') (hl : (c'.raft i).status = .leader) :
    (c'.raft i).KnowsPeers := by
  have hlast := (ht.node i).last_nonneg
  cases peerMoves h hl with
  | same hl₀ _ hmatch hnext =>
    exact (ht.leader i hl₀).mono (ht.grows h i).last_le hmatch hnext
  | elected _ hs hmatch hnext =>
    refine ⟨fun j => ?_, fun j => ?_, fun j => ?_, fun j => ?_⟩
    · rw [hnext]
      omega
    · rw [hnext, hs.getLastLogIndex]
    · rw [hmatch]
    · rw [hmatch, hs.getLastLogIndex]
      exact hlast
  | snapshotReply k server args reply _ hk hl₀ _ _ heq =>
    obtain ⟨hlo, hhi⟩ := ht.snapshotCall k i server args _ hk
    exact (ht.leader i hl₀).update (by rw [heq]; rfl) (by rw [heq]) (by rw [heq]) ⟨hlo, hhi⟩
      ⟨by omega, by omega⟩
  | replied k server args p reply num _ hk hl₀ _ hreply =>
    obtain ⟨hc, hr⟩ := ht.call k i server args p _ hk
    have hle := hc.last_le
    have hknow := ht.leader i hl₀
    obtain ⟨hs, hpeers⟩ := hreply.peers hl
    have hsame : (c'.raft i).getLastLogIndex = (c.raft i).getLastLogIndex :=
      hs.getLastLogIndex.symm
    rcases hpeers with ⟨hmatch, hnext⟩ | ⟨-, hno, hup, hmatch, hnext⟩ | ⟨-, -, hmatch, hnext⟩
    · exact hknow.mono hsame.ge hmatch hnext
    · -- a refusal sends the leader back, but not below one
      obtain ⟨hlo, hhi⟩ := hr reply rfl hno hup
      have hprev : args.prevlogindex ≤ args.lastIndex := by
        unfold AppendEntriesArgs.lastIndex
        omega
      exact hknow.update hsame (by rw [hmatch, Function.update_eq_self]) hnext
        ⟨hknow.match_nonneg server, hknow.match_le server⟩ ⟨hlo, by omega⟩
    · have hmax : 0 ≤ max ((c.raft i).matchIndex server) args.lastIndex ∧
          max ((c.raft i).matchIndex server) args.lastIndex ≤ (c.raft i).getLastLogIndex :=
        ⟨(hknow.match_nonneg server).trans (le_max_left _ _), max_le (hknow.match_le server) hle⟩
      exact hknow.update hsame hmatch hnext hmax ⟨by omega, by omega⟩

theorem Tidy.step (ht : c.Tidy) (h : Moves c a c') : c'.Tidy where
  node i := (ht.node i).grows (ht.grows h i)
  pending i index hp := by
    rcases pending_moves h hp with hold | hle
    · exact (ht.pending i index hold).trans (ht.grows h i).commitIndex_le
    · exact hle
  call k me server args p phase hk := ht.call_step h hk
  snapshotCall k me server args phase hk := ht.snapshotCall_step h hk
  leader i hl := ht.leader_step h hl

end Cluster

namespace Crashing

variable {n : ℕ} {C D : Type} {s s' : Crashing n C D} {i : Fin n}

/-! ### Restarts -/

/-- The cluster is tidy, and its logs are saved. -/
structure Tidy (s : Crashing n C D) : Prop where
  cluster : s.cluster.Tidy
  saved : ∀ i, DurableOn entryFields (s.cluster.raft i)

theorem tidy_init : Tidy (init : Crashing n C D) :=
  ⟨Cluster.tidy_init, fun i => durableOn_init i {}⟩

/-- A restart leaves calls alone. -/
theorem getElem?_restart_threads {k : ℕ} {t : Thread n C D}
    (h : (s.restart i).cluster.threads[k]? = some t)
    (ht : ∀ me msg pushed, t ≠ .pushMsgToKvServer me msg pushed) :
    s.cluster.threads[k]? = some t := by
  obtain ⟨u, hu, rfl⟩ := Option.map_eq_some_iff.1 ((List.getElem?_map ..).symm.trans h)
  cases u with
  | pushMsgToKvServer me msg pushed => exact absurd rfl (ht _ _ _)
  | sendRequestVote | sendAppendEntries | leaderSendSnapShot => exact hu

/-- What a process finds that is started again. -/
theorem Tidy.sameEntries_restart (ht : s.Tidy) (i j : Fin n) :
    (s.cluster.raft j).SameEntries ((s.restart i).cluster.raft j) := by
  rw [restart_raft]
  split_ifs with hj
  · rw [hj]
    exact sameEntries_init (ht.saved i) i
  · exact ⟨rfl, rfl, rfl⟩

theorem Tidy.restart (ht : s.Tidy) (i : Fin n) : (s.restart i).Tidy := by
  have hlast : ∀ j, ((s.restart i).cluster.raft j).getLastLogIndex =
      (s.cluster.raft j).getLastLogIndex := fun j => (ht.sameEntries_restart i j).getLastLogIndex
  refine ⟨⟨fun j => ?_, fun j index hp => ?_, fun k me server args p phase hk => ?_,
    fun k me server args phase hk => ?_, fun j hl => ?_⟩, durableOn_restart ht.saved i⟩
  · rw [restart_raft]
    split_ifs
    · exact (ht.cluster.node i).init (ht.saved i) i
    · exact ht.cluster.node j
  · -- the queues of the node are gone, and its push threads have stopped
    obtain ⟨data, term, hm | hm⟩ := hp
    · rw [restart_procs] at hm
      rw [restart_raft]
      split_ifs at hm ⊢
      · simp [Process.emitted] at hm
      · exact ht.cluster.pending j index ⟨data, term, Or.inl hm⟩
    · rcases mem_restart_threads hm with ⟨hold, hne⟩ | ⟨msg, heq⟩
      · have hj : j ≠ i := fun hj => hne _ (by rw [hj])
        rw [restart_raft, if_neg hj]
        exact ht.cluster.pending j index ⟨data, term, Or.inr hold⟩
      · cases heq
  · have hold := getElem?_restart_threads hk (by simp)
    obtain ⟨hc, hr⟩ := ht.cluster.call k me server args p phase hold
    exact ⟨⟨hc.contiguous, hc.prev_nonneg, hc.no_prev, by rw [hlast]; exact hc.last_le⟩, hr⟩
  · rw [hlast]
    exact ht.cluster.snapshotCall k me server args phase (getElem?_restart_threads hk (by simp))
  · rw [restart_raft] at hl ⊢
    split_ifs at hl ⊢
    · rw [(init_commitIndex i _).2] at hl
      cases hl
    · exact ht.cluster.leader j hl

variable [DecidableEq C] {a : CrashAction n C D}

theorem Tidy.step (ht : s.Tidy) (hst : s.step a = some s') : s'.Tidy := by
  obtain ⟨b, c, rfl, hc, rfl⟩ | ⟨i, rfl, rfl⟩ := step_cases hst
  · have hm := Cluster.moves_of_step hc
    exact ⟨ht.cluster.step hm, Cluster.durableOn_step ht.saved (fun _ _ _ _ _ _ _ _ _ _ => rfl) hm⟩
  · exact ht.restart i

/-- **Every reachable state is tidy**, with restarts and compaction. -/
theorem tidy_of_reachable (h : (machine n C D).Reachable init s) : s.Tidy :=
  h.invariant tidy_init fun _ _ _ ht _ hst => ht.step hst

end Crashing

end KvRaft
