import KvRaft.Raft.Effects

/-!
# Messages carry the term that their sender leads

* `Cluster.OwnTerms` : every AppendEntries and InstallSnapshot request was sent by the node that
  won the election of its term.
* `Cluster.ReadsAsLeader` : the condition under which this holds.  A snapshot thread reads its
  node while the node is leader.
* `Cluster.own_terms` : under the condition messages carry their sender's own terms, and no
  leader loses its role within its term.

`doHeartBeat` checks the role under the lock under which it builds its requests.  The snapshot
threads it starts build theirs later, and check the role only when the reply is there.
-/

namespace KvRaft

open Raft

namespace Raft

variable {n : ℕ} {C D : Type} {rf rf' rf₁ : Raft n C D}

/-- A section that takes no leadership away within a term. -/
def KeepsLeader (rf rf' : Raft n C D) : Prop :=
  rf.status = .leader → rf'.currentTerm = rf.currentTerm → rf'.status = .leader

theorem KeepsLeader.of_status (h : rf'.status = rf.status) : rf.KeepsLeader rf' :=
  fun hl _ => h.trans hl

theorem KeepsLeader.of_newer (h : rf.currentTerm < rf'.currentTerm) : rf.KeepsLeader rf' :=
  fun _ ht => absurd ht h.ne'

/-- What is done behind a section that touches neither term nor role. -/
theorem KeepsLeader.congr (h : rf.KeepsLeader rf₁) (ht : rf'.currentTerm = rf₁.currentTerm)
    (hs : rf'.status = rf₁.status) : rf.KeepsLeader rf' :=
  fun hl hterm => hs.trans (h hl (ht.symm.trans hterm))

theorem keepsLeader_meetTerm (rf : Raft n C D) (T : ℤ) : rf.KeepsLeader (rf.meetTerm T) := by
  unfold meetTerm
  split_ifs with h
  · exact .of_newer h
  · exact .of_status rfl

theorem keepsLeader_doElection {calls : List (Fin n × RequestVoteArgs n)}
    (h : rf.doElection = some (rf', calls)) : rf.KeepsLeader rf' :=
  .of_newer (by rw [(doElection_eq h).2.2.1]; exact Int.lt_succ _)

theorem keepsLeader_start (rf : Raft n C D) (command : C) :
    rf.KeepsLeader (rf.start command).1 := by
  rcases rf.start_eq command with ⟨h, -⟩ | ⟨-, h⟩ <;> rw [h] <;> exact .of_status rfl

theorem keepsLeader_requestVote {args : RequestVoteArgs n} {reply : RequestVoteReply}
    (h : rf.requestVote args = .ok (rf', reply)) : rf.KeepsLeader rf' := by
  unfold requestVote at h
  split_ifs at h
  · obtain ⟨rfl, -⟩ := Prod.mk.inj (pure_eq_ok.1 h)
    exact .of_status rfl
  obtain ⟨_, -, h⟩ := bind_eq_ok.1 h
  split_ifs at h <;> obtain ⟨rfl, -⟩ := Prod.mk.inj (pure_eq_ok.1 h) <;>
    exact (keepsLeader_meetTerm rf args.term).congr rfl rfl

theorem keepsLeader_sendRequestVote {votedNum num : ℕ} {reply : RequestVoteReply}
    {elected : Bool} (h : rf.sendRequestVote votedNum reply = .ok (rf', num, elected)) :
    rf.KeepsLeader rf' := by
  unfold sendRequestVote at h
  split_ifs at h with hgt hlt hg
  · obtain ⟨rfl, -⟩ := Prod.mk.inj (pure_eq_ok.1 h)
    exact .of_newer hgt
  · obtain ⟨rfl, -⟩ := Prod.mk.inj (pure_eq_ok.1 h)
    exact .of_status rfl
  · obtain ⟨_, -, hcount⟩ := bind_eq_ok.1 h
    dsimp only at hcount
    split_ifs at hcount
    · obtain ⟨_, -, hwon⟩ := bind_eq_ok.1 hcount
      obtain ⟨rfl, -⟩ := Prod.mk.inj (pure_eq_ok.1 hwon)
      exact fun _ _ => rfl
    · obtain ⟨rfl, -⟩ := Prod.mk.inj (pure_eq_ok.1 hcount)
      exact .of_status rfl
  · obtain ⟨_, -, hrefused⟩ := bind_eq_ok.1 h
    obtain ⟨rfl, -⟩ := Prod.mk.inj (pure_eq_ok.1 hrefused)
    exact .of_status rfl

theorem keepsLeader_sendAppendEntries {server : Fin n} {args : AppendEntriesArgs n C}
    {reply : AppendEntriesReply} {appendNums num : ℕ}
    (h : rf.sendAppendEntries server args reply appendNums = .ok (rf', num)) :
    rf.KeepsLeader rf' := by
  cases appendReply h with
  | ignored | refused | counted | completed => exact .of_status rfl
  | newer _ hgt => exact .of_newer hgt

theorem keepsLeader_leaderSendSnapShotReply (rf : Raft n C D) (server : Fin n)
    (args : InstallSnapshotRequest n D) (reply : InstallSnapshotResponse) :
    rf.KeepsLeader (rf.leaderSendSnapShotReply server args reply) := by
  unfold leaderSendSnapShotReply
  split_ifs with hs hgt
  · exact .of_status rfl
  · exact .of_newer hgt
  · exact .of_status rfl

theorem keepsLeader_snapshot {index : ℤ} {data : D} (h : rf.snapshot index data = .ok rf') :
    rf.KeepsLeader rf' := by
  unfold snapshot at h
  split_ifs at h
  · obtain rfl := pure_eq_ok.1 h
    exact .of_status rfl
  · simp only [bind_eq_ok, pure_eq_ok] at h
    obtain ⟨_, -, _, -, _, -, rfl⟩ := h
    exact .of_status rfl

theorem keepsLeader_getApplyLogs {msgs : List (ApplyMsg C D)}
    (h : rf.getApplyLogs = .ok (rf', msgs)) : rf.KeepsLeader rf' := by
  obtain ⟨rfl, -⟩ := applyNext_eq (getApplyLogs_eq h).2
  exact .of_status rfl

end Raft

namespace Cluster

variable {n : ℕ} {C D : Type} {c c' : Cluster n C D} {a : Action n C D}

/-- **Requests carry terms that their senders have won.** -/
def OwnTerms (c : Cluster n C D) : Prop :=
  ∀ (k : ℕ) (me server : Fin n),
    (∀ args p phase, c.threads[k]? = some (.sendAppendEntries me server args p phase) →
      (me, args.term) ∈ c.elections) ∧
    ∀ args phase, c.threads[k]? = some (.leaderSendSnapShot me server (some (args, phase))) →
      (me, args.term) ∈ c.elections

/-- The condition on a step: a snapshot thread reads its node while the node is leader. -/
def ReadsAsLeader (c : Cluster n C D) : Action n C D → Prop
  | .leaderSendSnapShot k _ => match c.threads[k]? with
    | some (.leaderSendSnapShot me _ none) => (c.raft me).status = .leader
    | _ => True
  | _ => True

instance (c : Cluster n C D) (a : Action n C D) : Decidable (c.ReadsAsLeader a) := by
  induction a using Action.casesOn with
  | leaderSendSnapShot k d =>
    dsimp only [ReadsAsLeader]
    rcases c.threads[k]? with _ | _ | _ | ⟨_, _, _ | _⟩ | _ <;> infer_instance
  | _ => dsimp only [ReadsAsLeader]; infer_instance

/-- Nobody calls itself. -/
def Apart (c : Cluster n C D) : Prop :=
  ∀ (k : ℕ) (me server : Fin n),
    (∀ args p phase, c.threads[k]? = some (.sendAppendEntries me server args p phase) →
      server ≠ me) ∧
    ∀ call, c.threads[k]? = some (.leaderSendSnapShot me server call) → server ≠ me

variable [DecidableEq C]

theorem me_eq (h : (machine n C D).Reachable init c) (i : Fin n) : (c.raft i).me = i := by
  obtain ⟨votes, polls, hi⟩ := exists_elections h
  exact hi.me i

theorem apart_of_reachable (h : (machine n C D).Reachable init c) : c.Apart := by
  have hpeer : ∀ {c : Cluster n C D} {me server : Fin n}, (machine n C D).Reachable init c →
      server ∈ peers (c.raft me).me → server ≠ me := by
    intro c me server hr hmem
    rw [me_eq hr] at hmem
    simpa using (List.mem_filter.1 hmem).2
  induction h with
  | refl => exact fun k me server => ⟨by simp [init], by simp [init]⟩
  | tail hr _ hst ih =>
    intro k me server
    refine ⟨fun args p phase hk => ?_, fun call hk => ?_⟩
    · rcases callMoves_request (moves_of_step hst) hk with ⟨_, hold⟩ | ⟨-, hmem, -⟩
      · exact (ih k me server).1 _ _ _ hold
      · exact hpeer hr hmem
    · cases snapshotCallMoves (moves_of_step hst) hk with
      | stays hold | goesOn hold => exact (ih k me server).2 _ hold
      | reads data _ hold => exact (ih k me server).2 _ hold
      | started _ hmem => exact hpeer hr hmem

/-- A request carries a term that its sender has won. -/
theorem sendAppendEntries_elected (h : (machine n C D).Reachable init c) {k : ℕ}
    {me server : Fin n} {args : AppendEntriesArgs n C} {p : ℕ} {phase : Phase AppendEntriesReply}
    (hk : c.threads[k]? = some (.sendAppendEntries me server args p phase)) :
    (me, args.term) ∈ c.elections := by
  induction h generalizing phase with
  | refl => simp [init] at hk
  | tail hr _ hst ih =>
    have hm := moves_of_step hst
    rcases callMoves_request hm hk with ⟨_, hold⟩ | ⟨hl, -, hb, -⟩
    · exact elections_subset hm (ih hold)
    · rcases heartBeatTo_cases hb with ⟨hb, -⟩ | ⟨prev, term, -, hb⟩
      · cases hb
      · obtain ⟨-, rfl⟩ := HeartBeat.sendAppendEntries.inj hb
        exact elections_subset hm ((election_safety hr).2.1 me hl)

/-- A step that meets the condition sends own terms only. -/
theorem OwnTerms.step (h : (machine n C D).Reachable init c) (ho : c.OwnTerms)
    (hg : c.ReadsAsLeader a) (hst : c.step a = some c') : c'.OwnTerms := by
  have hm := moves_of_step hst
  have hsub := elections_subset hm
  intro k me server
  refine ⟨fun args p phase hk => ?_, fun args phase hk => ?_⟩
  · exact sendAppendEntries_elected (h.trans (reachable_of_step hst)) hk
  · generalize hcall : some (args, phase) = call at hk
    cases snapshotCallMoves hm hk with
    | stays hold => exact hsub ((ho k me server).2 _ _ (hcall ▸ hold))
    | started => cases hcall
    | goesOn hold =>
      cases hcall
      exact hsub ((ho k me server).2 _ _ hold)
    | reads data ha hold =>
      cases hcall
      subst ha
      simp only [ReadsAsLeader, hold] at hg
      exact hsub ((election_safety h).2.1 me hg)

theorem currentTerm_le_step (hst : c.step a = some c') (i : Fin n) :
    (c.raft i).currentTerm ≤ (c'.raft i).currentTerm :=
  (keepsVote_step (moves_of_step hst) i).term_le

omit [DecidableEq C] in
/-- A section of one node keeps its leadership. -/
theorem keepsLeader_of_update {i : Fin n} {rf : Raft n C D} (h : (c.raft i).KeepsLeader rf)
    (hraft : ∀ j, c'.raft j = if j = i then rf else c.raft j) (j : Fin n) :
    (c.raft j).KeepsLeader (c'.raft j) :=
  forall_raft_of_update (P := fun j => (c.raft j).KeepsLeader) hraft h (fun _ => .of_status rfl) j

/-- **Own terms protect leaders**: a request of a leader's term comes from the leader itself. -/
theorem OwnTerms.keepsLeader (h : (machine n C D).Reachable init c) (ho : c.OwnTerms)
    (hst : c.step a = some c') (j : Fin n) : (c.raft j).KeepsLeader (c'.raft j) := by
  have hm := moves_of_step hst
  have hi := indexed_of_reachable h
  have hsame : (c.raft j).KeepsLeader (c.raft j) := .of_status rfl
  -- a node that meets a request of its own term does not lead that term
  have hrole : ∀ {me server : Fin n} {rf : Raft n C D} {T : ℤ}, server ≠ me →
      (me, T) ∈ c.elections →
      (T < (c.raft server).currentTerm ∧ rf = c.raft server ∨
        (c.raft server).currentTerm ≤ T ∧ rf.status = .follower ∧ rf.currentTerm = T) →
      (c.raft server).KeepsLeader rf := by
    rintro me server rf T hne hT (⟨-, rfl⟩ | ⟨-, -, hterm⟩)
    · exact .of_status rfl
    · intro hl heq
      refine absurd (elections_unique h ((election_safety h).2.1 server hl) ?_) hne
      rwa [← heq, hterm]
  cases hm with
  | exit i f =>
    rw [exit_raft]
    exact hsame
  | idle | doHeartBeat | loseVote | loseAppend | loseSnapshot | leaderSendSnapShot => exact hsame
  | doElection h => exact keepsLeader_of_update (keepsLeader_doElection h) (by simp) j
  | @start i command =>
    exact keepsLeader_of_update (keepsLeader_start (c.raft i) command) (by simp) j
  | getApplyLogs _ h => exact keepsLeader_of_update (keepsLeader_getApplyLogs h) (by simp) j
  | @pushApplyMsg i | @consumeCommand i =>
    exact keepsLeader_of_update (i := i) (.of_status rfl) (by simp) j
  | @consumeSnapshot i data term index msgs rf b hm h =>
    rw [hi.condInstallSnapshot hm] at h
    cases h
    exact keepsLeader_of_update (i := i) (.of_status rfl) (by simp) j
  | snapshot _ h => exact keepsLeader_of_update (keepsLeader_snapshot h) (by simp) j
  | requestVote _ h => exact keepsLeader_of_update (keepsLeader_requestVote h) (by simp) j
  | @appendEntries1 k me server args p rf r hk heq =>
    have hkeep : (c.raft server).KeepsLeader rf :=
      hrole ((apart_of_reachable h k me server).1 args p _ hk) ((ho k me server).1 args p _ hk)
        ((appendEntries1_role heq).imp (fun h => ⟨h.1, h.2.1⟩) id)
    exact keepsLeader_of_update hkeep (by simp) j
  | installSnapshot hk heq =>
    exact keepsLeader_of_update (hrole ((apart_of_reachable h _ _ _).2 _ hk)
      ((ho _ _ _).2 _ _ hk) (installSnapshot_role heq)) (by simp) j
  | sendRequestVote _ h => exact keepsLeader_of_update (keepsLeader_sendRequestVote h) (by simp) j
  | sendAppendEntries _ h =>
    exact keepsLeader_of_update (keepsLeader_sendAppendEntries h) (by simp) j
  | @snapshotReply k me server args r =>
    exact keepsLeader_of_update (keepsLeader_leaderSendSnapShotReply (c.raft me) server args r)
      (by simp) j
  | @pushMsgToKvServer k me => exact keepsLeader_of_update (i := me) (.of_status rfl) (by simp) j

/-- **Messages carry their sender's own terms** in every run in which snapshot threads read a
leader, and in such a run a node that leads a term does so for as long as the term is its
own. -/
theorem own_terms (h : (machine n C D).Reaches ReadsAsLeader init c) :
    c.OwnTerms ∧ ∀ c', (machine n C D).Reaches ReadsAsLeader c c' → ∀ i,
      (c.raft i).status = .leader → (c'.raft i).currentTerm = (c.raft i).currentTerm →
        (c'.raft i).status = .leader := by
  have hown : ∀ {c : Cluster n C D}, (machine n C D).Reaches ReadsAsLeader init c → c.OwnTerms := by
    intro c h
    induction h with
    | refl => exact fun k me server => ⟨by simp [init], by simp [init]⟩
    | tail hr hg hst ih => exact ih.step hr.reachable hg hst
  refine ⟨hown h, fun c' hc' i hl hterm => ?_⟩
  have hle : ∀ {c c' : Cluster n C D}, (machine n C D).Reaches ReadsAsLeader c c' →
      (c.raft i).currentTerm ≤ (c'.raft i).currentTerm := by
    intro c c' h
    induction h with
    | refl => exact le_rfl
    | tail _ _ hst ih => exact ih.trans (currentTerm_le_step hst i)
  induction hc' with
  | refl => exact hl
  | tail hr _ hst ih =>
    have h₁ := hle hr
    have h₂ := currentTerm_le_step hst i
    have hall := h.trans hr
    exact (hown hall).keepsLeader hall.reachable hst i (ih (by omega)) (by omega)

/-- Node `0` leads term `1`, compacts its log, and starts a snapshot thread for node `2`, of
whose log it does not know. -/
def snapshotThreadRun : List (Action 3 String Unit) :=
  [.doElection 0, .deliver 0, .reply 0, .start 0 "x", .doHeartBeat 0, .deliver 2, .reply 2,
    .deliver 3, .getApplyLogs 0, .pushApplyMsg 0, .consume 0, .snapshot 0 (), .doHeartBeat 0]

theorem own_terms_snapshotThreadRun : ∃ c,
    (machine 3 String Unit).runWhere ReadsAsLeader init
      (snapshotThreadRun ++ [.leaderSendSnapShot 5 ()]) = some c ∧
      c.threads[5]? = some (.leaderSendSnapShot 0 2 (some (⟨0, 1, 1, 1, ()⟩, .calling))) ∧
      c.OwnTerms := by
  have h : ((machine 3 String Unit).runWhere ReadsAsLeader init
      (snapshotThreadRun ++ [.leaderSendSnapShot 5 ()])).map (·.threads[5]?) =
        some (some (.leaderSendSnapShot 0 2 (some (⟨0, 1, 1, 1, ()⟩, .calling)))) := by
    decide +kernel
  obtain ⟨c, hc, hk⟩ := Option.map_eq_some_iff.1 h
  exact ⟨c, hc, hk, (own_terms (Machine.reaches_of_runWhere hc)).1⟩

/-- Node `2` wins term `2` with the vote of node `0`. -/
def nextTermRun : List (Action 3 String Unit) :=
  snapshotThreadRun ++ [.doElection 2, .deliver 6, .reply 6]

/-- Node `0`, which follows node `2` then, sends it a snapshot of term `2`; node `2` becomes a
follower of the term that it leads. -/
theorem not_own_terms :
    (¬ ∀ c, (machine 3 String Unit).Reachable init c → c.OwnTerms) ∧
      ¬ ∀ c c' : Cluster 3 String Unit, (machine 3 String Unit).Reachable init c →
        (machine 3 String Unit).Reachable c c' → ∀ i, (c.raft i).status = .leader →
          (c'.raft i).currentTerm = (c.raft i).currentTerm → (c'.raft i).status = .leader := by
  refine ⟨fun hall => ?_, fun hall => ?_⟩
  · have h : ((machine 3 String Unit).run init
        (nextTermRun ++ [.leaderSendSnapShot 5 ()])).map (fun c => (c.threads[5]?, c.elections)) =
        some (some (.leaderSendSnapShot 0 2 (some (⟨0, 2, 1, 1, ()⟩, .calling))),
          [(0, 1), (2, 2)]) := by decide +kernel
    obtain ⟨c, hc, h⟩ := Option.map_eq_some_iff.1 h
    obtain ⟨hk, he⟩ := Prod.mk.inj h
    have := (hall c (Machine.reachable_of_run hc) 5 0 2).2 _ _ hk
    rw [he] at this
    exact absurd this (by decide)
  · have h : (((machine 3 String Unit).run init nextTermRun).bind fun c =>
        ((machine 3 String Unit).run c [.leaderSendSnapShot 5 (), .deliver 5]).map fun c' =>
          ([(c.raft 2).status, (c'.raft 2).status],
            [(c.raft 2).currentTerm, (c'.raft 2).currentTerm])) =
        some ([.leader, .follower], [2, 2]) := by decide +kernel
    obtain ⟨c, hc, h⟩ := Option.bind_eq_some_iff.1 h
    obtain ⟨c', hc', h⟩ := Option.map_eq_some_iff.1 h
    simp only [Prod.mk.injEq, List.cons.injEq, and_true] at h
    obtain ⟨⟨hl, hf⟩, ht, ht'⟩ := h
    have := hall c c' (Machine.reachable_of_run hc) (Machine.reachable_of_run hc') 2 hl
      (ht'.trans ht.symm)
    rw [hf] at this
    cases this

end Cluster

end KvRaft
