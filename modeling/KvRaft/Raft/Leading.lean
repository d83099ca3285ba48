import KvRaft.Raft.LogIndices
import KvRaft.Raft.Terms
import KvRaft.Raft.Issued
import KvRaft.Raft.Heartbeats

/-!
# What a leader knows about its peers

* `Cluster.PeerMoves`, `Cluster.peerMoves` : what a step does to `matchIndex` and `nextIndex` of a
  leader, in any cluster.
* `Cluster.LeadMoves`, `Cluster.leadMoves` : the same in a reachable one, where a term that is
  won is new.
* `Cluster.own_suffix` : the entries that a leader has made in its term are the end of its log.
* `Cluster.match_le`, `Cluster.sent_le` : neither `matchIndex` nor a request is ahead of the log.
-/

namespace KvRaft

open Raft

namespace Raft

variable {n : ℕ} {C D : Type} {rf rf' rf₁ : Raft n C D}

/-- A section after which a leader knows about its peers what it knew before. -/
def KeepsPeers (rf rf' : Raft n C D) : Prop :=
  rf'.status = .leader → rf'.matchIndex = rf.matchIndex ∧ rf'.nextIndex = rf.nextIndex

theorem KeepsPeers.of_eq (hm : rf'.matchIndex = rf.matchIndex)
    (hn : rf'.nextIndex = rf.nextIndex) : rf.KeepsPeers rf' := fun _ => ⟨hm, hn⟩

theorem KeepsPeers.of_status {s : Status} (h : rf'.status = s) (hs : s ≠ .leader) :
    rf.KeepsPeers rf' := fun hl => absurd (h.symm.trans hl) hs

theorem keepsPeers_meetTerm (rf : Raft n C D) (T : ℤ) :
    (rf.meetTerm T).matchIndex = rf.matchIndex ∧ (rf.meetTerm T).nextIndex = rf.nextIndex := by
  unfold meetTerm
  split_ifs <;> exact ⟨rfl, rfl⟩

theorem keepsPeers_doElection {calls : List (Fin n × RequestVoteArgs n)}
    (h : rf.doElection = some (rf', calls)) : rf.KeepsPeers rf' := by
  unfold doElection at h
  split_ifs at h
  obtain ⟨rfl, -⟩ := Prod.mk.inj (Option.some.inj h)
  exact .of_eq rfl rfl

theorem keepsPeers_start (rf : Raft n C D) (command : C) :
    rf.KeepsPeers (rf.start command).1 := by
  rcases rf.start_eq command with ⟨h, -⟩ | ⟨-, h⟩ <;> rw [h] <;> exact .of_eq rfl rfl

theorem keepsPeers_requestVote {args : RequestVoteArgs n} {reply : RequestVoteReply}
    (h : rf.requestVote args = .ok (rf', reply)) : rf.KeepsPeers rf' := by
  obtain ⟨hm, hn⟩ := keepsPeers_meetTerm rf args.term
  unfold requestVote at h
  split_ifs at h
  · obtain ⟨rfl, -⟩ := Prod.mk.inj (pure_eq_ok.1 h)
    exact .of_eq rfl rfl
  obtain ⟨_, -, h⟩ := bind_eq_ok.1 h
  split_ifs at h <;> obtain ⟨rfl, -⟩ := Prod.mk.inj (pure_eq_ok.1 h) <;> exact .of_eq hm hn

/-- A vote that decides an election makes a leader that knows nothing about its peers. -/
theorem sendRequestVote_peers {votedNum num : ℕ} {reply : RequestVoteReply} {elected : Bool}
    (h : rf.sendRequestVote votedNum reply = .ok (rf', num, elected)) :
    elected = false ∧ rf.KeepsPeers rf' ∨ elected = true ∧ rf.status ≠ .leader ∧
      (∀ j, rf'.matchIndex j = 0) ∧ ∀ j, rf'.nextIndex j = rf.getLastLogIndex + 1 := by
  -- every branch but the one that wins
  have hlost : ∀ {rf₁ : Raft n C D}, (rf₁, votedNum, false) = (rf', num, elected) →
      rf₁.matchIndex = rf.matchIndex → rf₁.nextIndex = rf.nextIndex →
      elected = false ∧ rf.KeepsPeers rf' := by
    rintro rf₁ ⟨⟩ hm hn
    exact ⟨rfl, .of_eq hm hn⟩
  unfold sendRequestVote at h
  split_ifs at h with hgt hlt hg
  · exact Or.inl (hlost (pure_eq_ok.1 h) rfl rfl)
  · exact Or.inl (hlost (pure_eq_ok.1 h) rfl rfl)
  · obtain ⟨_, -, hcount⟩ := bind_eq_ok.1 h
    dsimp only at hcount
    split_ifs at hcount
    · obtain ⟨_, hrole, hwon⟩ := bind_eq_ok.1 hcount
      obtain ⟨rfl, hrest⟩ := Prod.mk.inj (pure_eq_ok.1 hwon)
      exact Or.inr ⟨(Prod.mk.inj hrest).2.symm, myAssert_eq_ok.1 hrole, fun _ => rfl, fun _ => rfl⟩
    · obtain ⟨rfl, hrest⟩ := Prod.mk.inj (pure_eq_ok.1 hcount)
      exact Or.inl ⟨(Prod.mk.inj hrest).2.symm, .of_eq rfl rfl⟩
  · obtain ⟨_, -, hrefused⟩ := bind_eq_ok.1 h
    exact Or.inl (hlost (pure_eq_ok.1 hrefused) rfl rfl)

theorem keepsPeers_appendEntries1 [DecidableEq C] {args : AppendEntriesArgs n C}
    {reply : AppendEntriesReply} (h : rf.appendEntries1 args = .ok (rf', reply)) :
    rf.KeepsPeers rf' := by
  obtain ⟨-, rfl, -⟩ | ⟨-, hs, -⟩ := appendEntries1_role h
  · exact .of_eq rfl rfl
  · exact .of_status hs nofun

theorem keepsPeers_installSnapshot {args : InstallSnapshotRequest n D}
    {reply : InstallSnapshotResponse} {msg : Option (ApplyMsg C D)}
    (h : rf.installSnapshot args = .ok (rf', reply, msg)) : rf.KeepsPeers rf' := by
  obtain ⟨-, rfl⟩ | ⟨-, hs, -⟩ := installSnapshot_role h
  · exact .of_eq rfl rfl
  · exact .of_status hs nofun

theorem keepsPeers_snapshot {index : ℤ} {data : D} (h : rf.snapshot index data = .ok rf') :
    rf.KeepsPeers rf' := by
  unfold snapshot at h
  split_ifs at h
  · obtain rfl := pure_eq_ok.1 h
    exact .of_eq rfl rfl
  · simp only [bind_eq_ok, pure_eq_ok] at h
    obtain ⟨_, -, _, -, _, -, rfl⟩ := h
    exact .of_eq rfl rfl

theorem keepsPeers_condInstallSnapshot {term index : ℤ} {data : D} {b : Bool}
    (h : rf.condInstallSnapshot term index data = .ok (rf', b)) : rf.KeepsPeers rf' := by
  unfold condInstallSnapshot at h
  split_ifs at h
  · obtain ⟨rfl, -⟩ := Prod.mk.inj (pure_eq_ok.1 h)
    exact .of_eq rfl rfl
  all_goals
    obtain ⟨logs, -, h⟩ := bind_eq_ok.1 h
    obtain ⟨rfl, -⟩ := Prod.mk.inj (pure_eq_ok.1 h)
    exact .of_eq rfl rfl

theorem keepsPeers_getApplyLogs {msgs : List (ApplyMsg C D)}
    (h : rf.getApplyLogs = .ok (rf', msgs)) : rf.KeepsPeers rf' := by
  obtain ⟨rfl, -⟩ := applyNext_eq (getApplyLogs_eq h).2
  exact .of_eq rfl rfl

/-- What the reply to a snapshot tells a leader. -/
theorem leaderSendSnapShotReply_peers (rf : Raft n C D) (server : Fin n)
    (args : InstallSnapshotRequest n D) (reply : InstallSnapshotResponse) :
    rf.KeepsPeers (rf.leaderSendSnapShotReply server args reply) ∨
      rf.status = .leader ∧ rf.currentTerm = args.term ∧ reply.term ≤ rf.currentTerm ∧
        rf.leaderSendSnapShotReply server args reply = { rf with
          matchIndex := Function.update rf.matchIndex server args.lastsnapshotincludeindex
          nextIndex :=
            Function.update rf.nextIndex server (args.lastsnapshotincludeindex + 1) } := by
  unfold leaderSendSnapShotReply
  split_ifs with hs hgt
  · exact Or.inl (.of_eq rfl rfl)
  · exact Or.inl (.of_eq rfl rfl)
  · rw [not_or, not_not, not_not] at hs
    exact Or.inr ⟨hs.1, hs.2, not_lt.1 hgt, rfl⟩

/-- The indices of a log without gaps. -/
theorem Contiguous.logindex_le (hc : rf.Contiguous) {e : LogEntry C} (he : e ∈ rf.logs) :
    rf.lastSnapshotIncludeIndex < e.logindex ∧ e.logindex ≤ rf.getLastLogIndex := by
  obtain ⟨k, hk⟩ := List.mem_iff_getElem?.1 he
  have hindex := hc k e hk
  have hlast := hc.getLastLogIndex
  have := (List.getElem?_eq_some_iff.1 hk).1
  omega

/-- The entry at an index beyond the snapshot point. -/
theorem Contiguous.exists_entry (hc : rf.Contiguous) {N T : ℤ}
    (hlo : rf.lastSnapshotIncludeIndex < N) (h : rf.getLogTermFromLogIndex N = .ok T) :
    ∃ e ∈ rf.logs, e.logindex = N ∧ e.logterm = T ∧ ∀ e' ∈ rf.logs, e'.logindex = N → e' = e := by
  obtain ⟨-, -, ⟨rfl, -⟩ | ⟨-, e, he, rfl⟩⟩ := getLogTermFromLogIndex_eq_ok.1 h
  · exact absurd hlo (lt_irrefl _)
  obtain ⟨-, -, hget⟩ := logOf_eq_ok.1 he
  have hindex := hc _ e hget
  refine ⟨e, List.mem_of_getElem? hget, by omega, rfl, fun e' he' hN => ?_⟩
  obtain ⟨k, hk⟩ := List.mem_iff_getElem?.1 he'
  have hindex' := hc k e' hk
  obtain rfl : k = (N - rf.lastSnapshotIncludeIndex - 1).toNat := by omega
  exact Option.some.inj (hk.symm.trans hget)

theorem update_le {f : Fin n → ℤ} {s j : Fin n} {x b : ℤ} (hf : f j ≤ b) (hx : x ≤ b) :
    Function.update f s x j ≤ b := by
  rw [Function.update_apply]
  split_ifs
  · exact hx
  · exact hf

/-- **What a reply tells a leader about the peer.** -/
theorem AppendReply.peers {server : Fin n} {args : AppendEntriesArgs n C}
    {reply : AppendEntriesReply} {appendNums num : ℕ}
    (h : AppendReply rf server args reply appendNums rf' num) (hl : rf'.status = .leader) :
    rf'.SameEntries rf ∧
    (rf'.matchIndex = rf.matchIndex ∧ rf'.nextIndex = rf.nextIndex ∨
      reply.term = rf.currentTerm ∧ reply.success = false ∧ reply.updatenextindex ≠ -100 ∧
        rf'.matchIndex = rf.matchIndex ∧
        rf'.nextIndex = Function.update rf.nextIndex server reply.updatenextindex ∨
      reply.term = rf.currentTerm ∧ reply.success = true ∧
        rf'.matchIndex = Function.update rf.matchIndex server
          (max (rf.matchIndex server) args.lastIndex) ∧
        rf'.nextIndex = Function.update rf.nextIndex server
          (max (rf.matchIndex server) args.lastIndex + 1)) := by
  cases h with
  | ignored => exact ⟨⟨rfl, rfl, rfl⟩, Or.inl ⟨rfl, rfl⟩⟩
  | newer => cases hl
  | refused hterm _ hno hup =>
    exact ⟨⟨rfl, rfl, rfl⟩, Or.inr (Or.inl ⟨hterm, hno, hup, rfl, rfl⟩)⟩
  | counted hterm _ hok | completed hterm _ hok =>
    exact ⟨⟨rfl, rfl, rfl⟩, Or.inr (Or.inr ⟨hterm, hok, rfl, rfl⟩)⟩

/-! ### Refusals -/

/-- The index that answers a mismatch lies between the snapshot point and the index that was asked
for, which it is not. -/
theorem otherTermBelow_spec {prev j : ℤ} : ∀ {k : ℕ} {index : ℤ},
    rf.otherTermBelow prev k index = .ok (some j) →
      rf.lastSnapshotIncludeIndex ≤ j ∧ j ≤ index ∧ j ≠ prev
  | 0, index, h => by cases pure_eq_ok.1 h
  | k + 1, index, h => by
    simp only [otherTermBelow, bind_eq_ok] at h
    obtain ⟨t, ht, t', ht', h⟩ := h
    split_ifs at h with hne
    · obtain rfl := Option.some.inj (pure_eq_ok.1 h)
      refine ⟨(getLogTermFromLogIndex_eq_ok.1 ht).1, le_rfl, ?_⟩
      rintro rfl
      rw [ht] at ht'
      exact hne (Except.ok.inj ht')
    · obtain ⟨hlo, hle, hj⟩ := otherTermBelow_spec h
      exact ⟨hlo, by omega, hj⟩

/-- **Where a refusal sends a leader back to**: to the end of the log, or within it. -/
def SendsBack (rf : Raft n C D) (args : AppendEntriesArgs n C) (next : ℤ) : Prop :=
  rf.getLastLogIndex < args.prevlogindex ∧ next = rf.getLastLogIndex + 1 ∨
    rf.matchLog args.prevlogindex args.prevlogterm = .ok false ∧ next ≤ args.prevlogindex ∧
      (next = args.prevlogindex ∨ rf.lastSnapshotIncludeIndex < next)

theorem SendsBack.le {args : AppendEntriesArgs n C} {next : ℤ} (h : rf.SendsBack args next) :
    next ≤ args.prevlogindex := by
  rcases h with ⟨hlt, rfl⟩ | ⟨-, hle, -⟩
  · omega
  · exact hle

/-- **What a reply says.** -/
theorem appendEntries1_replies [DecidableEq C] {args : AppendEntriesArgs n C}
    {reply : AppendEntriesReply} (h : rf.appendEntries1 args = .ok (rf', reply)) :
    reply.appstate = .appNormal ∧
      (args.term < rf.currentTerm ∧ reply.success = false ∧ reply.updatenextindex = -100 ∨
        rf.currentTerm ≤ args.term ∧ reply.term = args.term ∧
          (reply.success = false → rf.SendsBack args reply.updatenextindex)) := by
  by_cases hlt : args.term < rf.currentTerm
  · obtain ⟨rfl, rfl⟩ : _ ∧ _ := by simpa [appendEntries1, hlt] using h
    exact ⟨rfl, Or.inl ⟨hlt, rfl, rfl⟩⟩
  have hterm : (rf.meetTerm args.term).currentTerm = args.term :=
    meetTerm_currentTerm (not_lt.1 hlt)
  obtain ⟨rf₁, hrf₁⟩ : ∃ rf₁, { rf.meetTerm args.term with status := .follower } = rf₁ :=
    ⟨_, rfl⟩
  have hs : rf.SameLog rf₁ := by
    have := sameLog_meetTerm rf args.term
    exact hrf₁ ▸ this.trans ⟨⟨rfl, rfl, rfl⟩, rfl, rfl, rfl⟩
  simp only [appendEntries1, if_neg hlt, hrf₁, bind_eq_ok, hs.getLastLogIndex] at h
  obtain ⟨_, -, h⟩ := h
  split_ifs at h with hprev
  · obtain ⟨rfl, rfl⟩ := Prod.mk.inj (pure_eq_ok.1 h)
    exact ⟨rfl, Or.inr ⟨not_lt.1 hlt, hterm, fun _ => Or.inl ⟨hprev, rfl⟩⟩⟩
  all_goals
    obtain ⟨b, hb, h'⟩ := bind_eq_ok.1 h
    rw [hs.matchLog] at hb
    cases b with
    | true =>
      simp only [if_true, bind_eq_ok] at h'
      obtain ⟨rf₂, hm, _, -, _, -, h''⟩ := h'
      obtain ⟨-, rfl⟩ := Prod.mk.inj (pure_eq_ok.1 h'')
      refine ⟨rfl, Or.inr ⟨not_lt.1 hlt, ?_, fun hno => by cases hno⟩⟩
      rw [foldlM_mergeEntry_logs hm, ← hrf₁]
      exact hterm
    | false =>
      obtain ⟨found, hfound, h''⟩ := bind_eq_ok.1 h'
      obtain ⟨-, rfl⟩ := Prod.mk.inj (pure_eq_ok.1 h'')
      refine ⟨rfl, Or.inr ⟨not_lt.1 hlt, hterm, fun _ => Or.inr ⟨hb, ?_⟩⟩⟩
      cases found with
      | none => exact ⟨le_rfl, Or.inl rfl⟩
      | some j =>
        obtain ⟨hlo, hle, hne⟩ := otherTermBelow_spec hfound
        rw [hs.lastSnapshotIncludeIndex] at hlo
        dsimp only
        exact ⟨by omega, Or.inr (by omega)⟩

/-- **What a refusal says**: where to go on, which is before the point that was asked for. -/
theorem appendEntries1_reply [DecidableEq C] {args : AppendEntriesArgs n C}
    {reply : AppendEntriesReply} (h : rf.appendEntries1 args = .ok (rf', reply)) :
    reply.appstate = .appNormal ∧ (reply.success = false → reply.updatenextindex ≠ -100 →
      reply.term = args.term ∧ reply.updatenextindex ≤ args.prevlogindex) := by
  obtain ⟨hnormal, ⟨-, -, hold⟩ | ⟨-, hterm, hback⟩⟩ := appendEntries1_replies h
  · exact ⟨hnormal, fun _ hup => absurd hold hup⟩
  · exact ⟨hnormal, fun hno _ => ⟨hterm, (hback hno).le⟩⟩

/-- A heartbeat starts right before the next entry for its peer. -/
theorem heartBeatTo_prev {i : Fin n} {args : AppendEntriesArgs n C}
    (h : rf.heartBeatTo i = .ok (.sendAppendEntries i args)) :
    args.prevlogindex = rf.nextIndex i - 1 := by
  simp only [heartBeatTo, bind_eq_ok] at h
  obtain ⟨_, -, h⟩ := h
  split_ifs at h
  · cases pure_eq_ok.1 h
  obtain ⟨⟨prev, term⟩, hprev, h⟩ := bind_eq_ok.1 h
  obtain rfl : prev = rf.nextIndex i - 1 := by
    unfold getPrevLogInfo at hprev
    split_ifs at hprev with hfirst
    · have := (Prod.mk.inj (pure_eq_ok.1 hprev)).1
      omega
    · obtain ⟨e, -, hpair⟩ := bind_eq_ok.1 hprev
      exact (Prod.mk.inj (pure_eq_ok.1 hpair)).1.symm
  dsimp only at h
  split_ifs at h <;> simp only [bind_eq_ok] at h <;> obtain ⟨_, -, _, -, h⟩ := h <;>
    · obtain ⟨-, rfl⟩ := HeartBeat.sendAppendEntries.inj (pure_eq_ok.1 h)
      rfl

end Raft

namespace Cluster

variable {n : ℕ} {C D : Type} {c c' : Cluster n C D} {a : Action n C D} {i : Fin n}

theorem keepsPeers_of_update {i : Fin n} {rf : Raft n C D} (h : (c.raft i).KeepsPeers rf)
    (hraft : ∀ j, c'.raft j = if j = i then rf else c.raft j) (j : Fin n) :
    (c.raft j).KeepsPeers (c'.raft j) :=
  forall_raft_of_update (P := fun j => (c.raft j).KeepsPeers) hraft h (fun _ => .of_eq rfl rfl) j

variable [DecidableEq C]

/-- **What a step can do to a node `i` that leads afterwards.** -/
inductive PeerMoves (c : Cluster n C D) (a : Action n C D) (c' : Cluster n C D) (i : Fin n) : Prop
  | same : (c.raft i).status = .leader → (c'.raft i).currentTerm = (c.raft i).currentTerm →
      (c'.raft i).matchIndex = (c.raft i).matchIndex →
      (c'.raft i).nextIndex = (c.raft i).nextIndex → PeerMoves c a c' i
  | elected : (c.raft i).status ≠ .leader →
      (c.raft i).SameLog (c'.raft i) → (∀ j, (c'.raft i).matchIndex j = 0) →
      (∀ j, (c'.raft i).nextIndex j = (c.raft i).getLastLogIndex + 1) → PeerMoves c a c' i
  | replied (k : ℕ) (server : Fin n) (args : AppendEntriesArgs n C) (p : ℕ)
      (reply : AppendEntriesReply) (num : ℕ) : a = .reply k →
      c.threads[k]? = some (.sendAppendEntries i server args p (.replied reply)) →
      (c.raft i).status = .leader → (c'.raft i).currentTerm = (c.raft i).currentTerm →
      (c.raft i).AppendReply server args reply (c.appendNums.getD p 0) (c'.raft i) num →
      c'.threads = c.threads.set k (.sendAppendEntries i server args p (.done (some reply))) →
      PeerMoves c a c' i
  | snapshotReply (k : ℕ) (server : Fin n) (args : InstallSnapshotRequest n D)
      (reply : InstallSnapshotResponse) : a = .reply k →
      c.threads[k]? = some (.leaderSendSnapShot i server (some (args, .replied reply))) →
      (c.raft i).status = .leader → (c.raft i).currentTerm = args.term →
      reply.term ≤ (c.raft i).currentTerm →
      c'.raft i = { c.raft i with
        matchIndex :=
          Function.update (c.raft i).matchIndex server args.lastsnapshotincludeindex
        nextIndex :=
          Function.update (c.raft i).nextIndex server (args.lastsnapshotincludeindex + 1) } →
      PeerMoves c a c' i

theorem peerMoves (h : Moves c a c') (hl : (c'.raft i).status = .leader) : PeerMoves c a c' i := by
  -- nobody is elected
  have hrole : c'.elections = c.elections →
      (c.raft i).status = .leader ∧ (c'.raft i).currentTerm = (c.raft i).currentTerm := by
    intro helec
    obtain ⟨-, hkeep⟩ | ⟨j, heq, -⟩ := keeps_or_elected h
    · exact (hkeep i).leader hl
    · rw [helec] at heq
      simp at heq
  have hquiet : c'.elections = c.elections → (c.raft i).KeepsPeers (c'.raft i) →
      PeerMoves c a c' i := fun helec hkeep =>
    .same (hrole helec).1 (hrole helec).2 (hkeep hl).1 (hkeep hl).2
  cases h with
  | exit j f => exact hquiet rfl (by rw [exit_raft]; exact .of_eq rfl rfl)
  | idle | doHeartBeat | loseVote | loseAppend | loseSnapshot | leaderSendSnapShot =>
    exact hquiet rfl (.of_eq rfl rfl)
  | doElection h =>
    exact hquiet rfl (keepsPeers_of_update (keepsPeers_doElection h) (by simp) i)
  | @start j command =>
    exact hquiet rfl (keepsPeers_of_update (keepsPeers_start (c.raft j) command) (by simp) i)
  | getApplyLogs _ h =>
    exact hquiet rfl (keepsPeers_of_update (keepsPeers_getApplyLogs h) (by simp) i)
  | @pushApplyMsg j | @consumeCommand j =>
    exact hquiet rfl (keepsPeers_of_update (i := j) (.of_eq rfl rfl) (by simp) i)
  | consumeSnapshot _ h =>
    exact hquiet rfl (keepsPeers_of_update (keepsPeers_condInstallSnapshot h) (by simp) i)
  | snapshot _ h => exact hquiet rfl (keepsPeers_of_update (keepsPeers_snapshot h) (by simp) i)
  | requestVote _ h =>
    exact hquiet rfl (keepsPeers_of_update (keepsPeers_requestVote h) (by simp) i)
  | appendEntries1 _ h =>
    exact hquiet rfl (keepsPeers_of_update (keepsPeers_appendEntries1 h) (by simp) i)
  | installSnapshot _ h =>
    exact hquiet rfl (keepsPeers_of_update (keepsPeers_installSnapshot h) (by simp) i)
  | @pushMsgToKvServer k j =>
    exact hquiet rfl (keepsPeers_of_update (i := j) (.of_eq rfl rfl) (by simp) i)
  | @sendRequestVote k me server args p r rf num elected hk hrf =>
    by_cases hme : i = me
    swap
    · exact .same (by simpa [hme] using hl) (by simp [hme]) (by simp [hme]) (by simp [hme])
    subst hme
    obtain ⟨hs, -⟩ := sendRequestVote_cases hrf
    rcases sendRequestVote_peers hrf with ⟨rfl, hkeep⟩ | ⟨rfl, hnot, hmatch, hnext⟩
    · exact hquiet rfl (keepsPeers_of_update hkeep (by simp) i)
    · exact .elected hnot (by simpa using hs) (by simpa using hmatch) (by simpa using hnext)
  | @sendAppendEntries k me server args p r rf num hk hrf =>
    by_cases hme : i = me
    · subst hme
      obtain ⟨hl₀, hterm⟩ := hrole rfl
      refine .replied k server args p r num rfl hk hl₀ hterm ?_ rfl
      simpa using appendReply hrf
    · exact hquiet rfl (.of_eq (by simp [hme]) (by simp [hme]))
  | @snapshotReply k me server args r hk =>
    by_cases hme : i = me
    · subst hme
      rcases (c.raft i).leaderSendSnapShotReply_peers server args r with
        hkeep | ⟨hl₀, hterm, hle, heq⟩
      · exact hquiet rfl (keepsPeers_of_update hkeep (by simp) i)
      · exact .snapshotReply k server args r rfl hk hl₀ hterm hle (by simp [heq])
    · exact hquiet rfl (.of_eq (by simp [hme]) (by simp [hme]))

/-- **What a step can do to a node `i` that leads afterwards**, in a cluster whose terms are won
once. -/
inductive LeadMoves (c : Cluster n C D) (a : Action n C D) (c' : Cluster n C D) (i : Fin n) : Prop
  | same : (c.raft i).status = .leader → (c'.raft i).currentTerm = (c.raft i).currentTerm →
      (c'.raft i).matchIndex = (c.raft i).matchIndex →
      (c'.raft i).nextIndex = (c.raft i).nextIndex → LeadMoves c a c' i
  | elected : (∀ j, (j, (c'.raft i).currentTerm) ∉ c.elections) →
      (c.raft i).SameLog (c'.raft i) → (∀ j, (c'.raft i).matchIndex j = 0) →
      (∀ j, (c'.raft i).nextIndex j = (c.raft i).getLastLogIndex + 1) → LeadMoves c a c' i
  | replied (k : ℕ) (server : Fin n) (args : AppendEntriesArgs n C) (p : ℕ)
      (reply : AppendEntriesReply) (num : ℕ) : a = .reply k →
      c.threads[k]? = some (.sendAppendEntries i server args p (.replied reply)) →
      (c.raft i).status = .leader → (c'.raft i).currentTerm = (c.raft i).currentTerm →
      (c.raft i).AppendReply server args reply (c.appendNums.getD p 0) (c'.raft i) num →
      c'.threads = c.threads.set k (.sendAppendEntries i server args p (.done (some reply))) →
      LeadMoves c a c' i
  | snapshotReply (k : ℕ) (server : Fin n) (args : InstallSnapshotRequest n D)
      (phase : Phase InstallSnapshotResponse) :
      c.threads[k]? = some (.leaderSendSnapShot i server (some (args, phase))) →
      (c.raft i).status = .leader →
      c'.raft i = { c.raft i with
        matchIndex :=
          Function.update (c.raft i).matchIndex server args.lastsnapshotincludeindex
        nextIndex :=
          Function.update (c.raft i).nextIndex server (args.lastsnapshotincludeindex + 1) } →
      LeadMoves c a c' i

theorem leadMoves (h : (machine n C D).Reachable init c) (hst : c.step a = some c')
    (hl : (c'.raft i).status = .leader) : LeadMoves c a c' i := by
  cases peerMoves (moves_of_step hst) hl with
  | same hl₀ hterm hmatch hnext => exact .same hl₀ hterm hmatch hnext
  | elected hnot hs hmatch hnext =>
    rcases leader_of_step h hst hl with ⟨hl₀, -⟩ | hnone
    · exact absurd hl₀ hnot
    · exact .elected hnone hs hmatch hnext
  | replied k server args p reply num ha hk hl₀ hterm hreply hthreads =>
    exact .replied k server args p reply num ha hk hl₀ hterm hreply hthreads
  | snapshotReply k server args reply _ hk hl₀ _ _ heq =>
    exact .snapshotReply k server args _ hk hl₀ heq

omit [DecidableEq C] in
/-- A leader has led its term before, or nobody has and its log is as before. -/
theorem LeadMoves.role (h : LeadMoves c a c' i) :
    ((c.raft i).status = .leader ∧ (c'.raft i).currentTerm = (c.raft i).currentTerm) ∨
      ((∀ j, (j, (c'.raft i).currentTerm) ∉ c.elections) ∧ (c.raft i).SameLog (c'.raft i) ∧
        ∀ j, (c'.raft i).matchIndex j = 0) := by
  cases h with
  | same hl hterm => exact Or.inl ⟨hl, hterm⟩
  | elected hnone hs hmatch => exact Or.inr ⟨hnone, hs, hmatch⟩
  | replied _ _ _ _ _ _ _ _ hl hterm => exact Or.inl ⟨hl, hterm⟩
  | snapshotReply _ _ _ _ _ hl heq => exact Or.inl ⟨hl, by rw [heq]⟩

/-! ### The log of a leader -/

/-- No log has an entry of a term that nobody has won. -/
theorem logterm_elected (h : (machine n C D).Reachable init c) {e : LogEntry C}
    (he : e ∈ (c.raft i).logs) : ∃ j, (j, e.logterm) ∈ c.elections := by
  obtain ⟨issued, hs⟩ := exists_issued h
  exact hs.elected e (hs.log i e he)

/-- **The entries of a leader's own term are the end of its log.** -/
theorem own_suffix (h : (machine n C D).Reachable init c)
    (hl : (c.raft i).status = .leader) {e e' : LogEntry C} (he : e ∈ (c.raft i).logs)
    (hterm : e.logterm = (c.raft i).currentTerm) (he' : e' ∈ (c.raft i).logs)
    (hle : e.logindex ≤ e'.logindex) : e'.logterm = (c.raft i).currentTerm := by
  induction h with
  | refl => cases he
  | @tail c c' a hr _ hst ih =>
    rcases (leadMoves hr hst hl).role with ⟨hl₀, hT⟩ | ⟨hnone, hs, -⟩
    swap
    · -- there is no such entry yet
      rw [hs.logs] at he
      obtain ⟨j, hj⟩ := logterm_elected hr he
      exact absurd (hterm ▸ hj) (hnone j)
    have hi := indexed_of_reachable hr
    rw [hT] at hterm ⊢
    cases hi.logMoves (moves_of_step hst) i with
    | same hs =>
      rw [hs.logs] at he he'
      exact ih hl₀ he hterm he'
    | compact m _ hlogs =>
      rw [hlogs] at he he'
      exact ih hl₀ (List.mem_of_mem_drop he) hterm (List.mem_of_mem_drop he')
    | start command _ hlogs =>
      rw [hlogs, List.mem_append, List.mem_singleton] at he he'
      rcases he' with he' | rfl
      swap
      · rfl
      rcases he with he | rfl
      · exact ih hl₀ he hterm he'
      · -- the new entry is behind all others
        obtain ⟨k, hk⟩ := List.mem_iff_getElem?.1 he'
        have hindex := (hi.node i).contiguous k e' hk
        have hlast := (hi.node i).contiguous.getLastLogIndex
        have := (List.getElem?_eq_some_iff.1 hk).1
        dsimp only at hle
        omega
    | merge k q me args p _ _ _ _ _ hf | install _ _ hf =>
      rw [hl] at hf
      cases hf

theorem snapshot_nonneg (h : (machine n C D).Reachable init c) (i : Fin n) :
    0 ≤ (c.raft i).lastSnapshotIncludeIndex := by
  induction h with
  | refl => exact le_rfl
  | @tail c c' a hr _ hst ih =>
    have hi := indexed_of_reachable hr
    cases hi.logMoves (moves_of_step hst) i with
    | same hs => rwa [hs.lastSnapshotIncludeIndex]
    | start _ _ _ hsnap => rwa [hsnap]
    | merge _ _ _ _ _ _ _ _ _ hsnap => rwa [hsnap]
    | compact m _ _ hsnap => omega
    | install hle =>
      have := (hi.node i).contiguous.getLastLogIndex
      omega

theorem commitIndex_le_step (hi : c.Indexed) (hst : c.step a = some c') (i : Fin n) :
    (c.raft i).commitIndex ≤ (c'.raft i).commitIndex :=
  ((hi.processMoves (moves_of_step hst) i).advances hi).commit_le

/-! ### What is on its way -/

/-- No request is ahead of the log of its sender. -/
theorem sent_le (h : (machine n C D).Reachable init c) {k : ℕ} {server : Fin n}
    {args : AppendEntriesArgs n C} {p : ℕ} {phase : Phase AppendEntriesReply}
    (hk : c.threads[k]? = some (.sendAppendEntries i server args p phase)) :
    args.lastIndex ≤ (c.raft i).getLastLogIndex := by
  induction h generalizing phase with
  | refl => simp [init] at hk
  | @tail c c' a hr _ hst ih =>
    have hi := indexed_of_reachable hr
    rcases callMoves_request (moves_of_step hst) hk with ⟨_, hold⟩ | ⟨-, -, hb, hsame⟩
    · exact (ih hold).trans (getLastLogIndex_le_step hi hst i)
    · rw [hsame, ((hi.node i).heartBeatTo hb).2.1]

/-- A snapshot that is sent does not go beyond the commit index of its sender. -/
theorem snapshot_sent_le (h : (machine n C D).Reachable init c) {k : ℕ} {server : Fin n}
    {args : InstallSnapshotRequest n D} {phase : Phase InstallSnapshotResponse}
    (hk : c.threads[k]? = some (.leaderSendSnapShot i server (some (args, phase)))) :
    args.lastsnapshotincludeindex ≤ (c.raft i).commitIndex := by
  induction h generalizing phase with
  | refl => simp [init] at hk
  | @tail c c' a hr _ hst ih =>
    have hi := indexed_of_reachable hr
    have hle := commitIndex_le_step hi hst i
    generalize hcall : some (args, phase) = call at hk
    cases snapshotCallMoves (moves_of_step hst) hk with
    | stays hold => exact (ih (hcall ▸ hold)).trans hle
    | started => cases hcall
    | goesOn hold =>
      cases hcall
      exact (ih hold).trans hle
    | reads data =>
      cases hcall
      exact ((hi.node i).snapshot_le.trans (hi.node i).applied_le).trans hle

/-- What a reply says about its request. -/
theorem reply_of_call (h : (machine n C D).Reachable init c) {k : ℕ} {me server : Fin n}
    {args : AppendEntriesArgs n C} {p : ℕ} {phase : Phase AppendEntriesReply}
    (hk : c.threads[k]? = some (.sendAppendEntries me server args p phase))
    {reply : AppendEntriesReply} (hreply : phase.reply? = some reply) :
    reply.appstate = .appNormal ∧ (reply.success = false → reply.updatenextindex ≠ -100 →
      reply.term = args.term ∧ reply.updatenextindex ≤ args.prevlogindex) := by
  induction h generalizing phase with
  | refl => simp [init] at hk
  | tail hr _ hst ih =>
    cases callMoves (moves_of_step hst) hk with
    | stays hold => exact ih hold hreply
    | processed r _ hold => exact ih hold hreply
    | lost | started => cases hreply
    | delivered rf r _ _ hrf =>
      obtain rfl := Option.some.inj hreply
      exact appendEntries1_reply hrf

/-- **What a leader knows is not ahead of its log.** -/
theorem peers_le (h : (machine n C D).Reachable init c) (hl : (c.raft i).status = .leader) :
    ∀ j, (c.raft i).matchIndex j ≤ (c.raft i).getLastLogIndex ∧
      (c.raft i).nextIndex j ≤ (c.raft i).getLastLogIndex + 1 := by
  induction h with
  | refl => cases hl
  | @tail c c' a hr _ hst ih =>
    have hi := indexed_of_reachable hr
    have hlast := getLastLogIndex_le_step hi hst i
    have hlen := (hi.node i).contiguous.getLastLogIndex
    have hsnap := snapshot_nonneg hr i
    cases leadMoves hr hst hl with
    | same hl₀ _ hmatch hnext =>
      intro j
      have := ih hl₀ j
      rw [hmatch, hnext]
      omega
    | elected _ hs hmatch hnext =>
      intro j
      rw [hmatch, hnext, hs.getLastLogIndex]
      omega
    | snapshotReply k server args phase hk hl₀ heq =>
      intro j
      have hsent := (snapshot_sent_le hr hk).trans (hi.node i).commit_le
      rw [heq]
      exact ⟨update_le (ih hl₀ j).1 hsent, update_le (ih hl₀ j).2 (Int.add_le_add_right hsent 1)⟩
    | replied k server args p reply num _ hk hl₀ _ hreply =>
      have hsent := sent_le hr hk
      intro j
      obtain ⟨hm, hn⟩ := ih hl₀ j
      rcases (hreply.peers hl).2 with ⟨hmatch, hnext⟩ | ⟨-, hno, hup, hmatch, hnext⟩ |
          ⟨-, -, hmatch, hnext⟩ <;> rw [hmatch, hnext]
      · omega
      · have := ((reply_of_call hr hk rfl).2 hno hup).2
        unfold AppendEntriesArgs.lastIndex at hsent
        exact ⟨by omega, update_le (by omega) (by omega)⟩
      · have hmax := max_le (ih hl₀ server).1 hsent
        exact ⟨update_le (by omega) (by omega), update_le (by omega) (by omega)⟩

end Cluster

end KvRaft
