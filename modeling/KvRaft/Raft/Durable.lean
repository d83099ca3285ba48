import KvRaft.Raft.Crash
import KvRaft.Raft.Effects

/-!
# What a crash would lose

* `Raft.Durable` : reading back what was handed to the persister yields the persisted fields as
  they are; `Raft.DurableOn f` says so of what `f` reads of them.
* `Crashing.StepsDownDurably` : the condition under which every node is durable.  No AppendEntries
  reply of a newer term is processed: that is the only branch that changes a persisted field and
  does not save it.
* `Crashing.durable` : in every run that meets the condition all nodes are durable, all the time.
-/

namespace KvRaft

open Raft

namespace Raft

variable {n : ℕ} {C D : Type} {rf rf' : Raft n C D}

/-- What a process finds that is started on what `rf` has saved. -/
def restored (rf : Raft n C D) : BoostPersistRaftNode n C :=
  ((fresh rf.me rf.persister).readPersist rf.persister.raftState).persistData

/-- **The state is not ahead of the persister.** -/
def Durable (rf : Raft n C D) : Prop := rf.restored = rf.persistData

/-- What `f` reads of the state is not ahead of the persister. -/
def DurableOn {α : Type} (f : BoostPersistRaftNode n C → α) (rf : Raft n C D) : Prop :=
  f rf.restored = f rf.persistData

instance [DecidableEq C] (rf : Raft n C D) : Decidable rf.Durable := by
  unfold Durable
  infer_instance

variable {α : Type} {f : BoostPersistRaftNode n C → α}

theorem durableOn_init (i : Fin n) (saved : Saved n C D) : DurableOn f (Raft.init i saved) := by
  obtain ⟨data, snapshot⟩ := saved
  unfold DurableOn Raft.init
  dsimp only
  split_ifs <;> cases data <;> rfl

theorem durableOn_persist (rf : Raft n C D) : DurableOn f rf.persist := rfl

theorem durableOn_save (rf : Raft n C D) (data : D) : DurableOn f (rf.save data) := rfl

theorem restored_congr (hsaved : rf'.persister = rf.persister) : rf'.restored = rf.restored := by
  unfold restored
  rw [hsaved]
  cases rf.persister.raftState <;> rfl

/-- Neither what `f` reads nor the persister changes. -/
theorem DurableOn.of_eq (h : DurableOn f rf) (hdata : f rf'.persistData = f rf.persistData)
    (hsaved : rf'.persister = rf.persister) : DurableOn f rf' := by
  unfold DurableOn
  rw [restored_congr hsaved, hdata]
  exact h

/-! ### Elections -/

theorem durableOn_doElection {calls : List (Fin n × RequestVoteArgs n)}
    (h : rf.doElection = some (rf', calls)) : DurableOn f rf' := by
  unfold doElection at h
  split_ifs at h
  obtain ⟨rfl, -⟩ := Prod.mk.inj (Option.some.inj h)
  exact durableOn_persist _

/-- Every branch of `requestVote` persists. -/
theorem durableOn_requestVote {args : RequestVoteArgs n} {reply : RequestVoteReply}
    (h : rf.requestVote args = .ok (rf', reply)) : DurableOn f rf' := by
  unfold requestVote at h
  split_ifs at h
  · obtain ⟨rfl, -⟩ := Prod.mk.inj (pure_eq_ok.1 h)
    exact durableOn_persist rf
  obtain ⟨_, -, h⟩ := bind_eq_ok.1 h
  split_ifs at h <;> obtain ⟨rfl, -⟩ := Prod.mk.inj (pure_eq_ok.1 h) <;> exact durableOn_persist _

theorem DurableOn.sendRequestVote (hd : DurableOn f rf) {votedNum num : ℕ}
    {reply : RequestVoteReply} {elected : Bool}
    (h : rf.sendRequestVote votedNum reply = .ok (rf', num, elected)) :
    DurableOn f rf' := by
  unfold Raft.sendRequestVote at h
  split_ifs at h with hgt hlt hg
  · obtain ⟨rfl, -⟩ := Prod.mk.inj (pure_eq_ok.1 h)
    exact durableOn_persist _
  · obtain ⟨rfl, -⟩ := Prod.mk.inj (pure_eq_ok.1 h)
    exact hd
  · obtain ⟨_, -, hcount⟩ := bind_eq_ok.1 h
    dsimp only at hcount
    split_ifs at hcount
    · obtain ⟨_, -, hwon⟩ := bind_eq_ok.1 hcount
      obtain ⟨rfl, -⟩ := Prod.mk.inj (pure_eq_ok.1 hwon)
      exact durableOn_persist _
    · obtain ⟨rfl, -⟩ := Prod.mk.inj (pure_eq_ok.1 hcount)
      exact hd
  · obtain ⟨_, -, hrefused⟩ := bind_eq_ok.1 h
    obtain ⟨rfl, -⟩ := Prod.mk.inj (pure_eq_ok.1 hrefused)
    exact hd

/-- The node that wins an election persists. -/
theorem durableOn_elected {votedNum num : ℕ} {reply : RequestVoteReply}
    (h : rf.sendRequestVote votedNum reply = .ok (rf', num, true)) : DurableOn f rf' := by
  unfold Raft.sendRequestVote at h
  split_ifs at h with hgt hlt hg
  · simp at h
  · simp at h
  · obtain ⟨_, -, hcount⟩ := bind_eq_ok.1 h
    dsimp only at hcount
    split_ifs at hcount
    · obtain ⟨_, -, hwon⟩ := bind_eq_ok.1 hcount
      obtain ⟨rfl, -⟩ := Prod.mk.inj (pure_eq_ok.1 hwon)
      exact durableOn_persist _
    · simp at hcount
  · simp at h

/-! ### Replication -/

/-- `appendEntries1` persists unless it refuses an older term. -/
theorem DurableOn.appendEntries1 [DecidableEq C] (hd : DurableOn f rf)
    {args : AppendEntriesArgs n C} {reply : AppendEntriesReply}
    (h : rf.appendEntries1 args = .ok (rf', reply)) :
    DurableOn f rf' := by
  by_cases hlt : args.term < rf.currentTerm
  · obtain ⟨rfl, -⟩ : _ ∧ _ := by simpa [Raft.appendEntries1, hlt] using h
    exact hd
  simp only [Raft.appendEntries1, if_neg hlt, bind_eq_ok] at h
  obtain ⟨_, -, h⟩ := h
  split_ifs at h
  · obtain ⟨rfl, -⟩ := Prod.mk.inj (pure_eq_ok.1 h)
    exact durableOn_persist _
  all_goals
    obtain ⟨b, -, h'⟩ := bind_eq_ok.1 h
    cases b with
    | false =>
      obtain ⟨found, -, hrefused⟩ := bind_eq_ok.1 h'
      obtain ⟨rfl, -⟩ := Prod.mk.inj (pure_eq_ok.1 hrefused)
      exact durableOn_persist _
    | true =>
      simp only [if_true, bind_eq_ok] at h'
      obtain ⟨rf₂, -, _, -, _, -, hmerged⟩ := h'
      obtain ⟨rfl, -⟩ := Prod.mk.inj (pure_eq_ok.1 hmerged)
      exact durableOn_persist _

/-- Processing a reply changes no persisted field, unless the reply is of a newer term and the
node steps down. -/
theorem DurableOn.sendAppendEntries (hd : DurableOn f rf) {server : Fin n}
    {args : AppendEntriesArgs n C} {reply : AppendEntriesReply} {appendNums num : ℕ}
    (hnewer : reply.appstate ≠ .disconnected → rf.currentTerm < reply.term →
      f (rf.stepDown reply.term).persistData = f rf.persistData)
    (h : rf.sendAppendEntries server args reply appendNums = .ok (rf', num)) : DurableOn f rf' := by
  cases appendReply h with
  | ignored | refused | counted | completed => exact hd.of_eq rfl rfl
  | newer happ hgt => exact hd.of_eq (hnewer happ hgt) rfl

theorem DurableOn.start (hd : DurableOn f rf) (command : C) : DurableOn f (rf.start command).1 := by
  rcases rf.start_eq command with ⟨h, -⟩ | ⟨-, h⟩ <;> rw [h]
  · exact hd
  · exact durableOn_persist _

/-! ### Applying and compacting -/

theorem DurableOn.getApplyLogs (hd : DurableOn f rf) {msgs : List (ApplyMsg C D)}
    (h : rf.getApplyLogs = .ok (rf', msgs)) : DurableOn f rf' := by
  obtain ⟨rfl, -⟩ := applyNext_eq (getApplyLogs_eq h).2
  exact hd.of_eq rfl rfl

theorem DurableOn.snapshot (hd : DurableOn f rf) {index : ℤ} {data : D}
    (h : rf.snapshot index data = .ok rf') : DurableOn f rf' := by
  unfold Raft.snapshot at h
  split_ifs at h
  · obtain rfl := pure_eq_ok.1 h
    exact hd
  · simp only [bind_eq_ok, pure_eq_ok] at h
    obtain ⟨_, -, _, -, _, -, rfl⟩ := h
    exact durableOn_save _ data

theorem DurableOn.installSnapshot (hd : DurableOn f rf) {args : InstallSnapshotRequest n D}
    {reply : InstallSnapshotResponse} {msg : Option (ApplyMsg C D)}
    (h : rf.installSnapshot args = .ok (rf', reply, msg)) : DurableOn f rf' := by
  by_cases hlt : args.term < rf.currentTerm
  · obtain ⟨rfl, -, -⟩ : _ ∧ _ ∧ _ := by simpa [Raft.installSnapshot, hlt] using h
    exact hd
  simp only [Raft.installSnapshot, if_neg hlt] at h
  generalize hrf₁ : (if args.term > rf.currentTerm then (rf.stepDown args.term).persist else rf) =
    rf₁ at h
  have hd₁ : DurableOn f rf₁ := by
    rw [← hrf₁]
    split_ifs
    · exact durableOn_persist _
    · exact hd
  split_ifs at h
  · obtain ⟨rfl, -⟩ := Prod.mk.inj (pure_eq_ok.1 h)
    exact hd₁.of_eq rfl rfl
  all_goals
    obtain ⟨logs, -, h'⟩ := bind_eq_ok.1 h
    obtain ⟨rfl, -⟩ := Prod.mk.inj (pure_eq_ok.1 h')
    exact durableOn_save _ args.data

theorem DurableOn.condInstallSnapshot (hd : DurableOn f rf) {term index : ℤ} {data : D} {b : Bool}
    (h : rf.condInstallSnapshot term index data = .ok (rf', b)) : DurableOn f rf' := by
  unfold Raft.condInstallSnapshot at h
  split_ifs at h
  · obtain ⟨rfl, -⟩ := Prod.mk.inj (pure_eq_ok.1 h)
    exact hd
  all_goals
    obtain ⟨logs, -, h'⟩ := bind_eq_ok.1 h
    obtain ⟨rfl, -⟩ := Prod.mk.inj (pure_eq_ok.1 h')
    exact durableOn_save _ data

theorem DurableOn.leaderSendSnapShotReply (hd : DurableOn f rf) (server : Fin n)
    (args : InstallSnapshotRequest n D) (reply : InstallSnapshotResponse) :
    DurableOn f (rf.leaderSendSnapShotReply server args reply) := by
  unfold Raft.leaderSendSnapShotReply
  split_ifs
  · exact hd
  · exact durableOn_persist _
  · exact hd.of_eq rfl rfl

end Raft

namespace Cluster

variable {n : ℕ} {C D α : Type} {f : BoostPersistRaftNode n C → α} {c c' : Cluster n C D}
  {a : Action n C D}

/-! ### Steps -/

theorem durableOn_of_update {rf : Raft n C D} (hd : ∀ j, DurableOn f (c.raft j)) (i : Fin n)
    (h : DurableOn f rf) (hraft : ∀ j, c'.raft j = if j = i then rf else c.raft j) (j : Fin n) :
    DurableOn f (c'.raft j) :=
  forall_raft_of_update (P := fun _ => DurableOn f) hraft h hd j

/-- **A step leaves nothing behind** that it does not lose when a leader steps down. -/
theorem durableOn_step [DecidableEq C] (hd : ∀ j, DurableOn f (c.raft j))
    (hnewer : ∀ k me server args p reply, a = .reply k →
      c.threads[k]? = some (.sendAppendEntries me server args p (.replied reply)) →
      reply.appstate ≠ .disconnected → (c.raft me).currentTerm < reply.term →
      f ((c.raft me).stepDown reply.term).persistData = f (c.raft me).persistData)
    (h : Moves c a c') (j : Fin n) : DurableOn f (c'.raft j) := by
  cases h with
  | exit i f =>
    rw [exit_raft]
    exact hd j
  | idle | doHeartBeat | loseVote | loseAppend | loseSnapshot | leaderSendSnapShot => exact hd j
  | @doElection i rf calls h => exact durableOn_of_update hd i (durableOn_doElection h) (by simp) j
  | @start i command => exact durableOn_of_update hd i ((hd i).start command) (by simp) j
  | @getApplyLogs i rf msgs _ h =>
    exact durableOn_of_update hd i ((hd i).getApplyLogs h) (by simp) j
  | @pushApplyMsg i | @consumeCommand i => exact durableOn_of_update hd i (hd i) (by simp) j
  | @consumeSnapshot i data term index msgs rf b _ h =>
    exact durableOn_of_update hd i ((hd i).condInstallSnapshot h) (by simp) j
  | @snapshot i command index data rf _ h =>
    exact durableOn_of_update hd i ((hd i).snapshot h) (by simp) j
  | @requestVote k me server args p rf r _ h =>
    exact durableOn_of_update hd server (durableOn_requestVote h) (by simp) j
  | @appendEntries1 k me server args p rf r _ h =>
    exact durableOn_of_update hd server ((hd server).appendEntries1 h) (by simp) j
  | @installSnapshot k me server args rf r msg _ h =>
    exact durableOn_of_update hd server ((hd server).installSnapshot h) (by simp) j
  | @sendRequestVote k me server args p r rf num elected _ h =>
    exact durableOn_of_update hd me ((hd me).sendRequestVote h) (by simp) j
  | @sendAppendEntries k me server args p r rf num hk h =>
    have hme := (hd me).sendAppendEntries (hnewer k me server args p r rfl hk) h
    exact durableOn_of_update hd me hme (by simp) j
  | @snapshotReply k me server args r _ =>
    exact durableOn_of_update hd me ((hd me).leaderSendSnapShotReply server args r) (by simp) j
  | @pushMsgToKvServer k me msg _ => exact durableOn_of_update hd me (hd me) (by simp) j

end Cluster

namespace Crashing

variable {n : ℕ} {C D : Type} {s s' : Crashing n C D}

theorem durableOn_restart {α : Type} {f : BoostPersistRaftNode n C → α}
    (hd : ∀ j, DurableOn f (s.cluster.raft j)) (i j : Fin n) :
    DurableOn f ((s.restart i).cluster.raft j) := by
  rw [restart_raft]
  split_ifs
  · exact durableOn_init i _
  · exact hd j

/-! ### Runs -/

/-- The condition on a step: no AppendEntries reply is processed that is of a newer term than its
node. -/
def StepsDownDurably (s : Crashing n C D) : CrashAction n C D → Prop
  | .act (.reply k) => match s.cluster.threads[k]? with
    | some (.sendAppendEntries me _ _ _ (.replied reply)) =>
      reply.appstate ≠ .disconnected → reply.term ≤ (s.cluster.raft me).currentTerm
    | _ => True
  | _ => True

instance (s : Crashing n C D) (a : CrashAction n C D) : Decidable (s.StepsDownDurably a) := by
  unfold StepsDownDurably
  repeat' split
  all_goals infer_instance

variable [DecidableEq C]

/-- **Nothing is ahead of the disk** in any state of a run in which no AppendEntries reply of a
newer term is processed. -/
theorem durable (h : (machine n C D).Reaches StepsDownDurably init s) (i : Fin n) :
    (s.cluster.raft i).Durable := by
  refine h.invariant (I := fun s => ∀ i, DurableOn id (s.cluster.raft i))
    (fun i => durableOn_init i {}) (fun s a s' hd hg hst => ?_) i
  obtain ⟨b, c, rfl, hc, rfl⟩ | ⟨i, rfl, rfl⟩ := step_cases hst
  · refine Cluster.durableOn_step hd (fun k me server args p reply hb hk happ hlt => ?_)
      (Cluster.moves_of_step hc)
    subst hb
    simp only [StepsDownDurably, hk] at hg
    exact absurd (hg happ) (not_le.2 hlt)
  · exact durableOn_restart hd i

/-- Node `0` wins term `1` and its heartbeat reaches node `1`, which stands for term `2`. -/
def outdatedRun : List (CrashAction 3 String Unit) :=
  [.act (.doElection 0), .act (.deliver 0), .act (.reply 0), .act (.doHeartBeat 0),
    .act (.doElection 1), .act (.deliver 2)]

theorem durable_outdatedRun : ∃ s,
    (machine 3 String Unit).runWhere StepsDownDurably init outdatedRun = some s ∧
      (s.cluster.raft 1).currentTerm = 2 ∧ (s.cluster.raft 1).Durable := by
  have h : ((machine 3 String Unit).runWhere StepsDownDurably init outdatedRun).map
      (fun s => (s.cluster.raft 1).currentTerm) = some 2 := by decide +kernel
  obtain ⟨s, hs, ht⟩ := Option.map_eq_some_iff.1 h
  exact ⟨s, hs, ht, durable (Machine.reaches_of_runWhere hs) 1⟩

/-- The reply takes node `0` to term `2` in memory, and leaves it in term `1` on the disk. -/
theorem not_durable : ¬ ∀ s, (machine 3 String Unit).Reachable init s →
    ∀ i, (s.cluster.raft i).Durable := by
  intro hall
  have h : ((machine 3 String Unit).run init (outdatedRun ++ [.act (.reply 2)])).map
      (fun s => decide (s.cluster.raft 0).Durable) = some false := by decide +kernel
  obtain ⟨s, hs, hd⟩ := Option.map_eq_some_iff.1 h
  exact of_decide_eq_false hd (hall s (Machine.reachable_of_run hs) 0)

end Crashing

end KvRaft
