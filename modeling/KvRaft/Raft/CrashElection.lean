import KvRaft.Raft.Tidy

/-!
# Elections over restarts

* `Raft.Saves` : what a section leaves in memory is on the disk, or the section has changed nothing
  there and has cast no vote.
* `Crashing.Recorded` : the votes on the disks are those that were cast.  A node may be ahead of
  its disk, but then it has not voted in its term.
* `Crashing.votes_kept` : the invariant of elections and `Recorded` hold together in every run,
  whatever is restarted and whenever, and no recorded vote is changed.
* `Cluster.asks_step`, `Crashing.asks_kept` : a call that asks for a vote stays what it is, also when
  its answer is lost.
* `Crashing.crash_elections`, `Crashing.crash_votes` : in every term at most one node becomes
  leader, at most once, and a node votes for one candidate, all its processes taken together.

Unlike durability this needs no condition.  The term that a leader takes over from a reply and
does not save is forgotten by its next process, which may then stand for it; but nobody has
promised anything in it.
-/

namespace KvRaft

open Raft

/-- The request of a thread that asks for a vote. -/
def Thread.asks {n : ℕ} {C D : Type} :
    Thread n C D → Option (Fin n × Fin n × RequestVoteArgs n × ℕ)
  | .sendRequestVote me server args votedNum _ => some (me, server, args, votedNum)
  | _ => none

namespace Raft

variable {n : ℕ} {C D : Type} {rf rf' rf₁ : Raft n C D}

/-- A section that saves what it leaves, or changes nothing on the disk and casts no vote. -/
def Saves (rf rf' : Raft n C D) : Prop :=
  DurableOn id rf' ∨ rf'.persister = rf.persister ∧ rf.KeepsVote rf' ∧ rf.Abstains rf'

theorem Saves.of_eq (hme : rf'.me = rf.me) (ht : rf'.currentTerm = rf.currentTerm)
    (hv : rf'.votedFor = rf.votedFor) (hsaved : rf'.persister = rf.persister) : rf.Saves rf' :=
  Or.inr ⟨hsaved, ⟨hme, ht.ge, fun _ _ => hv⟩, .of_eq ht hv⟩

theorem Saves.refl (rf : Raft n C D) : rf.Saves rf := .of_eq rfl rfl rfl rfl

theorem saves_persist (rf rf₁ : Raft n C D) : rf.Saves rf₁.persist :=
  Or.inl (durableOn_persist rf₁)

theorem saves_save (rf rf₁ : Raft n C D) (data : D) : rf.Saves (rf₁.save data) :=
  Or.inl (durableOn_save rf₁ data)

theorem saves_sendRequestVote {votedNum num : ℕ} {reply : RequestVoteReply} {elected : Bool}
    (h : rf.sendRequestVote votedNum reply = .ok (rf', num, elected)) : rf.Saves rf' := by
  unfold sendRequestVote at h
  split_ifs at h with hgt hlt hg
  · obtain ⟨rfl, -⟩ := Prod.mk.inj (pure_eq_ok.1 h)
    exact saves_persist _ _
  · obtain ⟨rfl, -⟩ := Prod.mk.inj (pure_eq_ok.1 h)
    exact .refl _
  · obtain ⟨_, -, hcount⟩ := bind_eq_ok.1 h
    dsimp only at hcount
    split_ifs at hcount
    · obtain ⟨_, -, hwon⟩ := bind_eq_ok.1 hcount
      obtain ⟨rfl, -⟩ := Prod.mk.inj (pure_eq_ok.1 hwon)
      exact saves_persist _ _
    · obtain ⟨rfl, -⟩ := Prod.mk.inj (pure_eq_ok.1 hcount)
      exact .refl _
  · obtain ⟨_, -, hrefused⟩ := bind_eq_ok.1 h
    obtain ⟨rfl, -⟩ := Prod.mk.inj (pure_eq_ok.1 hrefused)
    exact .refl _

/-- Only the refusal of an older term does not save. -/
theorem saves_appendEntries1 [DecidableEq C] {args : AppendEntriesArgs n C}
    {reply : AppendEntriesReply} (h : rf.appendEntries1 args = .ok (rf', reply)) :
    rf.Saves rf' := by
  by_cases hlt : args.term < rf.currentTerm
  · obtain ⟨rfl, -⟩ : _ ∧ _ := by simpa [appendEntries1, hlt] using h
    exact .refl rf
  simp only [appendEntries1, if_neg hlt, bind_eq_ok] at h
  obtain ⟨_, -, h⟩ := h
  split_ifs at h
  · obtain ⟨rfl, -⟩ := Prod.mk.inj (pure_eq_ok.1 h)
    exact saves_persist _ _
  all_goals
    obtain ⟨b, -, h'⟩ := bind_eq_ok.1 h
    cases b with
    | false =>
      obtain ⟨found, -, hrefused⟩ := bind_eq_ok.1 h'
      obtain ⟨rfl, -⟩ := Prod.mk.inj (pure_eq_ok.1 hrefused)
      exact saves_persist _ _
    | true =>
      simp only [if_true, bind_eq_ok] at h'
      obtain ⟨rf₂, -, _, -, _, -, hmerged⟩ := h'
      obtain ⟨rfl, -⟩ := Prod.mk.inj (pure_eq_ok.1 hmerged)
      exact saves_persist _ _

/-- The branch that steps down without saving it casts no vote. -/
theorem saves_sendAppendEntries {server : Fin n} {args : AppendEntriesArgs n C}
    {reply : AppendEntriesReply} {appendNums num : ℕ}
    (h : rf.sendAppendEntries server args reply appendNums = .ok (rf', num)) : rf.Saves rf' := by
  cases appendReply h with
  | newer _ hgt => exact Or.inr ⟨rfl, (keeps_stepDown hgt).toKeepsVote, abstains_stepDown rf _⟩
  | ignored | refused | counted | completed => exact .of_eq rfl rfl rfl rfl

theorem saves_start (rf : Raft n C D) (command : C) : rf.Saves (rf.start command).1 := by
  rcases rf.start_eq command with ⟨h, -⟩ | ⟨-, h⟩ <;> rw [h]
  · exact .refl rf
  · exact saves_persist _ _

theorem saves_snapshot {index : ℤ} {data : D} (h : rf.snapshot index data = .ok rf') :
    rf.Saves rf' := by
  unfold snapshot at h
  split_ifs at h
  · obtain rfl := pure_eq_ok.1 h
    exact .refl _
  · simp only [bind_eq_ok, pure_eq_ok] at h
    obtain ⟨_, -, _, -, _, -, rfl⟩ := h
    exact saves_save _ _ data

theorem saves_installSnapshot {args : InstallSnapshotRequest n D}
    {reply : InstallSnapshotResponse} {msg : Option (ApplyMsg C D)}
    (h : rf.installSnapshot args = .ok (rf', reply, msg)) : rf.Saves rf' := by
  by_cases hlt : args.term < rf.currentTerm
  · obtain ⟨rfl, -, -⟩ : _ ∧ _ ∧ _ := by simpa [installSnapshot, hlt] using h
    exact .refl _
  simp only [installSnapshot, if_neg hlt] at h
  generalize hrf₁ : (if args.term > rf.currentTerm then (rf.stepDown args.term).persist else rf) =
    rf₁ at h
  have h₁ : rf.Saves rf₁ := by
    rw [← hrf₁]
    split_ifs
    · exact saves_persist _ _
    · exact .refl rf
  split_ifs at h
  · obtain ⟨rfl, -⟩ := Prod.mk.inj (pure_eq_ok.1 h)
    rcases h₁ with h₁ | ⟨hsaved, hkeep, habs⟩
    · exact Or.inl (h₁.of_eq rfl rfl)
    · exact Or.inr ⟨hsaved, ⟨hkeep.me, hkeep.term_le, hkeep.vote⟩, habs⟩
  all_goals
    obtain ⟨logs, -, h'⟩ := bind_eq_ok.1 h
    obtain ⟨rfl, -⟩ := Prod.mk.inj (pure_eq_ok.1 h')
    exact saves_save _ _ args.data

theorem saves_condInstallSnapshot {term index : ℤ} {data : D} {b : Bool}
    (h : rf.condInstallSnapshot term index data = .ok (rf', b)) : rf.Saves rf' := by
  unfold condInstallSnapshot at h
  split_ifs at h
  · obtain ⟨rfl, -⟩ := Prod.mk.inj (pure_eq_ok.1 h)
    exact .refl _
  all_goals
    obtain ⟨logs, -, h'⟩ := bind_eq_ok.1 h
    obtain ⟨rfl, -⟩ := Prod.mk.inj (pure_eq_ok.1 h')
    exact saves_save _ _ data

theorem saves_leaderSendSnapShotReply (rf : Raft n C D) (server : Fin n)
    (args : InstallSnapshotRequest n D) (reply : InstallSnapshotResponse) :
    rf.Saves (rf.leaderSendSnapShotReply server args reply) := by
  unfold leaderSendSnapShotReply
  split_ifs
  · exact .refl rf
  · exact saves_persist _ _
  · exact .of_eq rfl rfl rfl rfl

theorem init_me (i : Fin n) (saved : Saved n C D) : (Raft.init i saved).me = i := by
  unfold Raft.init
  dsimp only
  split_ifs <;> cases saved.raftState <;> rfl

end Raft

namespace Cluster

variable {n : ℕ} {C D : Type} {c c' : Cluster n C D} {a : Action n C D}
  {votes : Fin n → ℤ → Option (Fin n)} {polls : List (Fin n × ℤ)}

theorem saves_of_update {i : Fin n} {rf : Raft n C D} (h : (c.raft i).Saves rf)
    (hraft : ∀ j, c'.raft j = if j = i then rf else c.raft j) :
    ∀ j, (c.raft j).Saves (c'.raft j) :=
  forall_raft_of_update (P := fun j => (c.raft j).Saves) hraft h fun _ => .refl _

/-- **Every step saves what it leaves, or casts no vote.** -/
theorem saves_step [DecidableEq C] (h : Moves c a c') (j : Fin n) :
    (c.raft j).Saves (c'.raft j) := by
  cases h with
  | exit i f => rw [exit_raft]; exact .refl _
  | idle | doHeartBeat | loseVote | loseAppend | loseSnapshot | leaderSendSnapShot =>
    exact .refl _
  | @doElection i rf calls h =>
    have hs : (c.raft i).Saves rf := Or.inl (durableOn_doElection h)
    exact saves_of_update hs (by simp) j
  | @start i command => exact saves_of_update (saves_start (c.raft i) command) (by simp) j
  | @getApplyLogs i rf msgs _ h =>
    have hs : (c.raft i).Saves rf := by
      rw [(applyNext_eq (getApplyLogs_eq h).2).1]
      exact .of_eq rfl rfl rfl rfl
    exact saves_of_update hs (by simp) j
  | @pushApplyMsg i | @consumeCommand i =>
    exact saves_of_update (Saves.refl (c.raft i)) (by simp) j
  | consumeSnapshot _ h => exact saves_of_update (saves_condInstallSnapshot h) (by simp) j
  | snapshot _ h => exact saves_of_update (saves_snapshot h) (by simp) j
  | @requestVote k me server args p rf r _ h =>
    have hs : (c.raft server).Saves rf := Or.inl (durableOn_requestVote h)
    exact saves_of_update hs (by simp) j
  | appendEntries1 _ h => exact saves_of_update (saves_appendEntries1 h) (by simp) j
  | installSnapshot _ h => exact saves_of_update (saves_installSnapshot h) (by simp) j
  | sendRequestVote _ h => exact saves_of_update (saves_sendRequestVote h) (by simp) j
  | sendAppendEntries _ h => exact saves_of_update (saves_sendAppendEntries h) (by simp) j
  | @snapshotReply k me server args r =>
    exact saves_of_update (saves_leaderSendSnapShotReply (c.raft me) server args r) (by simp) j
  | @pushMsgToKvServer k me => exact saves_of_update (Saves.refl (c.raft me)) (by simp) j

/-- **A call that asks for a vote stays what it is**; only its answer comes, is processed or is
lost. -/
theorem asks_step [DecidableEq C] (h : Moves c a c') :
    c.threads.map Thread.asks <+: c'.threads.map Thread.asks := by
  have hset : ∀ {k : ℕ} {t : Thread n C D} (t' : Thread n C D) (l : List (Thread n C D)),
      c.threads[k]? = some t → t'.asks = t.asks →
      c.threads.map Thread.asks <+: (c.threads.set k t' ++ l).map Thread.asks := by
    intro k t t' l hk heq
    rw [List.map_append, map_set_of_eq Thread.asks hk heq]
    exact List.prefix_append _ _
  have hset' : ∀ {k : ℕ} {t : Thread n C D} (t' : Thread n C D), c.threads[k]? = some t →
      t'.asks = t.asks → c.threads.map Thread.asks <+: (c.threads.set k t').map Thread.asks := by
    intro k t t' hk heq
    simpa using hset t' [] hk heq
  cases h with
  | exit | idle | start | getApplyLogs | pushApplyMsg | consumeCommand | consumeSnapshot
  | snapshot => exact List.prefix_rfl
  | doElection | doHeartBeat =>
    rw [spawn_threads, List.map_append]
    exact List.prefix_append _ _
  | requestVote hk | appendEntries1 hk | sendRequestVote hk | sendAppendEntries hk
  | snapshotReply hk | loseVote hk | loseAppend hk | loseSnapshot hk | leaderSendSnapShot _ hk
  | pushMsgToKvServer hk => exact hset' _ hk rfl
  | installSnapshot hk => exact hset _ _ hk rfl

/-! ### Restarts -/

/-- The votes on the disks are those that were cast. -/
structure Recorded (c : Cluster n C D) (votes : Fin n → ℤ → Option (Fin n)) : Prop where
  term_le : ∀ i, (c.raft i).restored.currentTerm ≤ (c.raft i).currentTerm
  now : ∀ i, votes i (c.raft i).restored.currentTerm = (c.raft i).restored.votedFor
  future : ∀ i T, (c.raft i).restored.currentTerm < T → votes i T = none

/-- What a section records that casts no vote. -/
theorem Elections.record_eq (hi : Elections c votes polls) {i : Fin n}
    (hk : (c.raft i).KeepsVote (c'.raft i)) (ha : (c.raft i).Abstains (c'.raft i)) (T : ℤ) :
    recordVotes c' votes i T = votes i T := by
  unfold recordVotes
  split_ifs with hT
  swap
  · rfl
  subst hT
  by_cases hv : (c'.raft i).votedFor = none
  · rw [hv]
    rcases hk.term_le.lt_or_eq with hlt | heq
    · exact (hi.future i _ hlt).symm
    · rw [← heq, hi.now]
      by_contra hne
      exact absurd (hk.vote heq.symm (Ne.symm hne)) (by rw [hv]; exact hne)
  · obtain ⟨ht, hvote⟩ := ha hv
    rw [ht, hi.now, hvote]

theorem recorded_init : Recorded (init : Cluster n C D) fun _ _ => none where
  term_le _ := le_rfl
  now _ := rfl
  future _ _ _ := rfl

theorem Recorded.step [DecidableEq C] (hd : Recorded c votes) (hi : Elections c votes polls)
    {polls' : List (Fin n × ℤ)} (hi' : Elections c' (recordVotes c' votes) polls')
    (h : Moves c a c') : Recorded c' (recordVotes c' votes) := by
  have hcase : ∀ i, (c'.raft i).restored = (c'.raft i).persistData ∨
      (c'.raft i).restored = (c.raft i).restored ∧
        (c.raft i).currentTerm ≤ (c'.raft i).currentTerm ∧
        ∀ T, recordVotes c' votes i T = votes i T := by
    intro i
    refine (saves_step h i).imp id fun ⟨hsaved, hkeep, habs⟩ => ?_
    exact ⟨restored_congr hsaved, hkeep.term_le, hi.record_eq hkeep habs⟩
  refine ⟨fun i => ?_, fun i => ?_, fun i T hT => ?_⟩ <;>
    rcases hcase i with heq | ⟨heq, hle, hrec⟩
  · exact (congrArg BoostPersistRaftNode.currentTerm heq).le
  · exact heq ▸ (hd.term_le i).trans hle
  · rw [heq]
    exact hi'.now i
  · rw [hrec, heq]
    exact hd.now i
  · rw [heq] at hT
    exact hi'.future i T hT
  · rw [hrec]
    exact hd.future i T (heq ▸ hT)

end Cluster

namespace Crashing

open Cluster

variable {n : ℕ} {C D : Type} {s s' : Crashing n C D} {votes : Fin n → ℤ → Option (Fin n)}
  {polls : List (Fin n × ℤ)}

theorem stop_ballot (i : Fin n) (t : Thread n C D) : (Thread.stop i t).ballot = t.ballot := by
  cases t <;> rfl

theorem asks_stop (i : Fin n) (t : Thread n C D) : (Thread.stop i t).asks = t.asks := by
  cases t <;> rfl

theorem voteThread_stop {i : Fin n} {t : Thread n C D} (h : VoteThread votes polls t) :
    VoteThread votes polls (Thread.stop i t) := by
  cases t with
  | sendRequestVote | sendAppendEntries | leaderSendSnapShot | pushMsgToKvServer => exact h

/-- **A restart** changes neither votes nor polls: the next process continues where the disk
stands. -/
theorem elections_restart (hi : Elections s.cluster votes polls) (hd : Recorded s.cluster votes)
    (i : Fin n) : Elections (s.restart i).cluster votes polls ∧
      Recorded (s.restart i).cluster votes := by
  have hdata := init_persistData (s.cluster.raft i) i
  have hterm : (Raft.init i (s.cluster.raft i).persister).currentTerm =
      (s.cluster.raft i).restored.currentTerm :=
    congrArg BoostPersistRaftNode.currentTerm hdata
  have hvoted : (Raft.init i (s.cluster.raft i).persister).votedFor =
      (s.cluster.raft i).restored.votedFor :=
    congrArg BoostPersistRaftNode.votedFor hdata
  have hdisk : (Raft.init i (s.cluster.raft i).persister).restored =
      (s.cluster.raft i).restored :=
    (durableOn_init (f := id) i (s.cluster.raft i).persister).trans hdata
  have hraft := restart_raft s i
  have hballots : (s.restart i).cluster.threads.map Thread.ballot =
      s.cluster.threads.map Thread.ballot := by
    simp only [restart, List.map_map]
    exact List.map_congr_left fun t _ => stop_ballot i t
  refine ⟨⟨fun j => ?_, fun j => ?_, fun j T => ?_, fun t ht => ?_, hi.poll, hi.polls_nodup,
    hi.polls_length, hballots ▸ hi.tally, fun j hl => ?_, hi.majority, hi.nodup⟩,
    ⟨fun j => ?_, fun j => ?_, fun j T => ?_⟩⟩
  · rw [hraft]
    split_ifs with hj
    · rw [init_me, hj]
    · exact hi.me j
  · rw [hraft]
    split_ifs with hj
    · rw [hterm, hvoted, hj, hd.now]
    · exact hi.now j
  · rw [hraft]
    split_ifs with hj
    · rw [hterm, hj]
      exact hd.future i T
    · exact hi.future j T
  · obtain ⟨u, hu, rfl⟩ := List.mem_map.1 ht
    exact voteThread_stop (hi.thread u hu)
  · rw [hraft] at hl ⊢
    split_ifs at hl ⊢ with hj
    · rw [(init_commitIndex i _).2] at hl
      cases hl
    · exact hi.leader j hl
  all_goals
    rw [hraft]
    split_ifs with hj
  · rw [hdisk, hterm]
  · exact hd.term_le j
  · rw [hdisk, hj, hd.now]
  · exact hd.now j
  · rw [hdisk, hj]
    exact hd.future i T
  · exact hd.future j T

variable [DecidableEq C]

/-- **No vote is taken back** in a run, and what holds at its start goes on to hold. -/
theorem votes_kept (hi : Elections s.cluster votes polls) (hd : Recorded s.cluster votes)
    (h : (machine n C D).Reachable s s') :
    ∃ votes' polls', Elections s'.cluster votes' polls' ∧ Recorded s'.cluster votes' ∧
      ∀ v T x, votes v T = some x → votes' v T = some x := by
  refine h.invariant
    (I := fun s' => ∃ votes' polls', Elections s'.cluster votes' polls' ∧
      Recorded s'.cluster votes' ∧ ∀ v T x, votes v T = some x → votes' v T = some x)
    ⟨votes, polls, hi, hd, fun _ _ _ => id⟩
    fun s₁ a s₂ ⟨votes₁, polls₁, hi₁, hd₁, hmono⟩ _ hst => ?_
  obtain ⟨b, c, rfl, hc, rfl⟩ | ⟨i, rfl, rfl⟩ := step_cases hst
  · have hm := moves_of_step hc
    obtain ⟨polls₂, hi₂⟩ := hi₁.step hm
    exact ⟨_, polls₂, hi₂, hd₁.step hi₁ hi₂ hm, fun v T x hx =>
      hi₁.record_mono (keepsVote_step hm) (hmono v T x hx)⟩
  · obtain ⟨hi₂, hd₂⟩ := elections_restart hi₁ hd₁ i
    exact ⟨votes₁, polls₁, hi₂, hd₂, hmono⟩

/-- What holds in every state of a run. -/
theorem elections_recorded (h : (machine n C D).Reachable init s) :
    ∃ votes polls, Elections s.cluster votes polls ∧ Recorded s.cluster votes := by
  obtain ⟨votes, polls, hi, hd, -⟩ := votes_kept elections_init recorded_init h
  exact ⟨votes, polls, hi, hd⟩

/-- The calls that ask for votes stay in their places in a run. -/
theorem asks_kept (h : (machine n C D).Reachable s s') :
    s.cluster.threads.map Thread.asks <+: s'.cluster.threads.map Thread.asks := by
  refine h.invariant
    (I := fun s' => s.cluster.threads.map Thread.asks <+: s'.cluster.threads.map Thread.asks)
    List.prefix_rfl fun s₁ a s₂ hle _ hst => ?_
  obtain ⟨b, c, rfl, hc, rfl⟩ | ⟨i, rfl, rfl⟩ := step_cases hst
  · exact hle.trans (asks_step (moves_of_step hc))
  · have heq : (s₁.restart i).cluster.threads.map Thread.asks =
        s₁.cluster.threads.map Thread.asks := by
      simp only [restart, List.map_map]
      exact List.map_congr_left fun t _ => asks_stop i t
    rw [heq]
    exact hle

/-- A call that asks for a vote is there later on, with an answer or without. -/
theorem exists_call_of_reachable (h : (machine n C D).Reachable s s') {k p : ℕ} {me server : Fin n}
    {args : RequestVoteArgs n} {phase : Phase RequestVoteReply}
    (hk : s.cluster.threads[k]? = some (.sendRequestVote me server args p phase)) :
    ∃ phase', s'.cluster.threads[k]? = some (.sendRequestVote me server args p phase') := by
  have hasks : (s'.cluster.threads.map Thread.asks)[k]? = some (some (me, server, args, p)) := by
    refine Consensus.getElem?_of_isPrefix (asks_kept h) ?_
    rw [List.getElem?_map, hk]
    rfl
  rw [List.getElem?_map] at hasks
  obtain ⟨t, ht, heq⟩ := Option.map_eq_some_iff.1 hasks
  cases t with
  | sendRequestVote me' server' args' p' phase' =>
    cases heq
    exact ⟨phase', ht⟩
  | sendAppendEntries | leaderSendSnapShot | pushMsgToKvServer => cases heq

/-- **Election safety over restarts.**  Whatever nodes are restarted and whenever, the terms in
which nodes have become leader are distinct, and every node that is leader is one of them. -/
theorem crash_elections (h : (machine n C D).Reachable init s) :
    (s.cluster.elections.map Prod.snd).Nodup ∧
      (∀ i, (s.cluster.raft i).status = .leader →
        (i, (s.cluster.raft i).currentTerm) ∈ s.cluster.elections) ∧
      ∀ i j, (s.cluster.raft i).status = .leader → (s.cluster.raft j).status = .leader →
        (s.cluster.raft i).currentTerm = (s.cluster.raft j).currentTerm → i = j := by
  obtain ⟨votes, polls, hi, -⟩ := elections_recorded h
  refine ⟨hi.nodup, hi.leader, fun i j hl hl' hterm => ?_⟩
  have hj := hi.leader j hl'
  rw [← hterm] at hj
  exact hi.unique (hi.leader i hl) hj

/-- **A node votes once in a term**, all its processes taken together: of the calls that ask it
for its vote in a term, at most one is ever answered with it, whatever becomes of the answer. -/
theorem crash_votes (h : (machine n C D).Reachable init s) (h' : (machine n C D).Reachable s s')
    {k k' p p' : ℕ}
    {me me' server : Fin n} {args args' : RequestVoteArgs n}
    {phase phase' : Phase RequestVoteReply} {r r' : RequestVoteReply}
    (hk : s.cluster.threads[k]? = some (.sendRequestVote me server args p phase))
    (hk' : s'.cluster.threads[k']? = some (.sendRequestVote me' server args' p' phase'))
    (hr : phase.reply? = some r) (hr' : phase'.reply? = some r') (hg : r.votegranted = true)
    (hg' : r'.votegranted = true) (hterm : args.term = args'.term) : k = k' := by
  obtain ⟨votes, polls, hi, hd⟩ := elections_recorded h
  obtain ⟨votes', polls', hi', -, hmono⟩ := votes_kept hi hd h'
  -- the vote that was given is still recorded, and the call that asked for it is still there
  obtain ⟨-, -, -, hvote⟩ := hi.thread _ (List.mem_of_getElem? hk)
  have hgiven := hmono _ _ _ (hvote r hr hg).2
  obtain ⟨phase₁, hk₁⟩ := exists_call_of_reachable h' hk
  obtain ⟨-, -, hpoll, -⟩ := hi'.thread _ (List.mem_of_getElem? hk₁)
  obtain ⟨-, -, hpoll', hvote'⟩ := hi'.thread _ (List.mem_of_getElem? hk')
  have hme : some me' = some me := by
    rw [← (hvote' r' hr' hg').2, ← hterm, hgiven]
  obtain rfl := Option.some.inj hme
  -- a candidate holds one poll in a term, and a poll asks a node once
  rw [← hterm] at hpoll'
  obtain ⟨hp, hget⟩ := List.getElem?_eq_some_iff.1 hpoll
  obtain ⟨hp', hget'⟩ := List.getElem?_eq_some_iff.1 hpoll'
  have hpp : p = p' := hi'.polls_nodup.getElem_inj_iff.1 (hget.trans hget'.symm)
  have hb : (s'.cluster.threads.map Thread.ballot)[k]? =
      some (some ⟨p, server, phase₁.granted⟩) := by simp [hk₁, Thread.ballot]
  have hb' : (s'.cluster.threads.map Thread.ballot)[k']? =
      some (some ⟨p', server, phase'.granted⟩) := by simp [hk', Thread.ballot]
  exact hi'.tally.once k k' _ _ hb hb' hpp rfl

/-- Node `0` leads term `1` and steps down for term `2`, in which node `1` is a candidate.  It is
restarted, knows nothing of that, and stands for term `2` as well; but node `2` votes for node `1`
first. -/
def votedRun : List (CrashAction 3 String Unit) :=
  outdatedRun ++ [.act (.reply 2), .restart 0, .act (.doElection 0), .act (.deliver 5)]

/-- Node `0` is refused, and node `1` is elected. -/
def forgottenRun : List (CrashAction 3 String Unit) :=
  votedRun ++ [.act (.deliver 7), .act (.reply 5)]

theorem crash_elections_forgottenRun : ∃ s,
    (machine 3 String Unit).run init forgottenRun = some s ∧
      s.cluster.elections = [(0, 1), (1, 2)] ∧ (s.cluster.raft 0).currentTerm = 2 ∧
      (s.cluster.elections.map Prod.snd).Nodup := by
  have h : ((machine 3 String Unit).run init forgottenRun).map
      (fun s => (s.cluster.elections, (s.cluster.raft 0).currentTerm)) =
        some ([(0, 1), (1, 2)], 2) := by decide +kernel
  obtain ⟨s, hs, he⟩ := Option.map_eq_some_iff.1 h
  obtain ⟨he, ht⟩ := Prod.mk.inj he
  exact ⟨s, hs, he, ht, (crash_elections (Machine.reachable_of_run hs)).1⟩

/-- The answer of node `2` is lost and the node restarted, but it refuses node `0`. -/
theorem crash_votes_lostAnswer : ∃ s s' r,
    (machine 3 String Unit).run init votedRun = some s ∧
      s.cluster.threads[5]? =
        some (.sendRequestVote 1 2 ⟨2, 1, 0, 0⟩ 1 (.replied ⟨2, true, .normal⟩)) ∧
      (machine 3 String Unit).run s [.act (.lose 5), .restart 2, .act (.deliver 7)] = some s' ∧
      s'.cluster.threads[5]? = some (.sendRequestVote 1 2 ⟨2, 1, 0, 0⟩ 1 (.done none)) ∧
      s'.cluster.threads[7]? = some (.sendRequestVote 0 2 ⟨2, 0, 0, 0⟩ 2 (.replied r)) ∧
      r.votegranted = false := by
  have h : ((machine 3 String Unit).run init votedRun).bind (fun s =>
      ((machine 3 String Unit).run s [.act (.lose 5), .restart 2, .act (.deliver 7)]).map fun s' =>
        (s.cluster.threads[5]?, s'.cluster.threads[5]?, s'.cluster.threads[7]?)) =
      some (some (.sendRequestVote 1 2 ⟨2, 1, 0, 0⟩ 1 (.replied ⟨2, true, .normal⟩)),
        some (.sendRequestVote 1 2 ⟨2, 1, 0, 0⟩ 1 (.done none)),
        some (.sendRequestVote 0 2 ⟨2, 0, 0, 0⟩ 2 (.replied ⟨2, false, .voted⟩))) := by
    decide +kernel
  obtain ⟨s, hs, h⟩ := Option.bind_eq_some_iff.1 h
  obtain ⟨s', hs', h⟩ := Option.map_eq_some_iff.1 h
  obtain ⟨hk, h⟩ := Prod.mk.inj h
  obtain ⟨hlost, hk'⟩ := Prod.mk.inj h
  have hrefused : ∀ r,
      s'.cluster.threads[7]? = some (.sendRequestVote 0 2 ⟨2, 0, 0, 0⟩ 2 (.replied r)) →
      r.votegranted = false := by
    intro r hr
    by_contra hg
    have h57 : 5 = 7 := crash_votes (Machine.reachable_of_run hs) (Machine.reachable_of_run hs')
      hk hr rfl rfl rfl (by simpa using hg) rfl
    omega
  exact ⟨s, s', _, hs, hk, hs', hlost, hk', hrefused _ hk'⟩

end Crashing

end KvRaft
