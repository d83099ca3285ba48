import KvRaft.Raft.Stream

/-!
# What a step does to one node and to one call

Many invariants of a cluster are about the log of a node, its role, or one call.  What a step
can do to each of these is said once here.

* `Raft.AppendReply`, `Raft.appendReply` : what processing an AppendEntries reply does.
* `Cluster.keeps_or_elected` : a step either wins an election, which touches nothing but the role
  of the winner, or makes nobody leader.
* `Cluster.LogMoves`, `Cluster.Indexed.logMoves` : what a step does to the log of a node.
* `Cluster.CallMoves`, `Cluster.callMoves` : what it does to an AppendEntries call.
* `Cluster.SnapshotCallMoves`, `Cluster.snapshotCallMoves` : what it does to a snapshot thread.
-/

namespace KvRaft

open Raft

namespace Raft

variable {n : ℕ} {C D : Type} {rf rf' : Raft n C D}

/-! ### Handlers that make followers -/

/-- `appendEntries1` answers an older term without touching the node, and makes the node a
follower in any other. -/
theorem appendEntries1_role [DecidableEq C] {args : AppendEntriesArgs n C}
    {reply : AppendEntriesReply} (h : rf.appendEntries1 args = .ok (rf', reply)) :
    args.term < rf.currentTerm ∧ rf' = rf ∧ reply.success = false ∨
      rf.currentTerm ≤ args.term ∧ rf'.status = .follower ∧ rf'.currentTerm = args.term := by
  by_cases hlt : args.term < rf.currentTerm
  · obtain ⟨rfl, rfl⟩ : _ ∧ _ := by simpa [appendEntries1, hlt] using h
    exact Or.inl ⟨hlt, rfl, rfl⟩
  refine Or.inr ⟨not_lt.1 hlt, ?_⟩
  obtain ⟨rf₁, hrf₁⟩ : ∃ rf₁, { rf.meetTerm args.term with status := .follower } = rf₁ :=
    ⟨_, rfl⟩
  have hs₁ : rf₁.status = .follower := by rw [← hrf₁]
  have ht₁ : rf₁.currentTerm = args.term := by
    rw [← hrf₁]
    exact meetTerm_currentTerm (not_lt.1 hlt)
  simp only [appendEntries1, if_neg hlt, hrf₁, bind_eq_ok] at h
  obtain ⟨_, -, h⟩ := h
  split_ifs at h
  · obtain ⟨rfl, -⟩ := Prod.mk.inj (pure_eq_ok.1 h)
    exact ⟨hs₁, ht₁⟩
  all_goals
    obtain ⟨b, -, h'⟩ := bind_eq_ok.1 h
    cases b with
    | false =>
      obtain ⟨found, -, h''⟩ := bind_eq_ok.1 h'
      obtain ⟨rfl, -⟩ := Prod.mk.inj (pure_eq_ok.1 h'')
      exact ⟨hs₁, ht₁⟩
    | true =>
      simp only [if_true, bind_eq_ok] at h'
      obtain ⟨rf₂, hmerge, _, -, _, -, h''⟩ := h'
      obtain ⟨rfl, -⟩ := Prod.mk.inj (pure_eq_ok.1 h'')
      rw [foldlM_mergeEntry_logs hmerge]
      exact ⟨hs₁, ht₁⟩

/-- The same for `installSnapshot`. -/
theorem installSnapshot_role {args : InstallSnapshotRequest n D}
    {reply : InstallSnapshotResponse} {msg : Option (ApplyMsg C D)}
    (h : rf.installSnapshot args = .ok (rf', reply, msg)) :
    args.term < rf.currentTerm ∧ rf' = rf ∨
      rf.currentTerm ≤ args.term ∧ rf'.status = .follower ∧ rf'.currentTerm = args.term := by
  by_cases hlt : args.term < rf.currentTerm
  · obtain ⟨rfl, -, -⟩ : _ ∧ _ ∧ _ := by simpa [installSnapshot, hlt] using h
    exact Or.inl ⟨hlt, rfl⟩
  simp only [installSnapshot, if_neg hlt] at h
  generalize hrf₁ : (if args.term > rf.currentTerm then (rf.stepDown args.term).persist else rf) =
    rf₁ at h
  have ht₁ : rf₁.currentTerm = args.term := by
    rw [← hrf₁]
    split_ifs
    · rfl
    · omega
  refine Or.inr ⟨not_lt.1 hlt, ?_⟩
  split_ifs at h
  · obtain ⟨rfl, -⟩ := Prod.mk.inj (pure_eq_ok.1 h)
    exact ⟨rfl, ht₁⟩
  all_goals
    obtain ⟨logs, -, h'⟩ := bind_eq_ok.1 h
    obtain ⟨rfl, -⟩ := Prod.mk.inj (pure_eq_ok.1 h')
    exact ⟨rfl, ht₁⟩

/-! ### AppendEntries replies -/

/-- The node after a successful reply, before the commit index is looked at. -/
def matched (rf : Raft n C D) (server : Fin n) (args : AppendEntriesArgs n C) : Raft n C D :=
  let index := max (rf.matchIndex server) (args.prevlogindex + args.entries.length)
  { rf with
    matchIndex := Function.update rf.matchIndex server index
    nextIndex := Function.update rf.nextIndex server (index + 1) }

/-- **What processing an AppendEntries reply does.** -/
inductive AppendReply (rf : Raft n C D) (server : Fin n) (args : AppendEntriesArgs n C)
    (reply : AppendEntriesReply) (appendNums : ℕ) : Raft n C D → ℕ → Prop
  | ignored : reply.appstate = .disconnected ∨ reply.term < rf.currentTerm ∨
      reply.term = rf.currentTerm ∧ (rf.status ≠ .leader ∨ reply.success = false) →
      AppendReply rf server args reply appendNums rf appendNums
  /-- The node steps down, and does not persist that. -/
  | newer : reply.appstate ≠ .disconnected → rf.currentTerm < reply.term →
      AppendReply rf server args reply appendNums (rf.stepDown reply.term) appendNums
  | refused : reply.term = rf.currentTerm → rf.status = .leader → reply.success = false →
      reply.updatenextindex ≠ -100 → AppendReply rf server args reply appendNums
        { rf with nextIndex := Function.update rf.nextIndex server reply.updatenextindex }
        appendNums
  | counted : reply.term = rf.currentTerm → rf.status = .leader → reply.success = true →
      appendNums + 1 < 1 + n / 2 →
      AppendReply rf server args reply appendNums (rf.matched server args) (appendNums + 1)
  /-- The reply completes a majority. -/
  | completed : reply.term = rf.currentTerm → rf.status = .leader → reply.success = true →
      1 + n / 2 ≤ appendNums + 1 →
      AppendReply rf server args reply appendNums
        { rf.matched server args with
          commitIndex := if args.entries.getLast?.map (·.logterm) = some rf.currentTerm then
            max rf.commitIndex (args.prevlogindex + args.entries.length) else rf.commitIndex } 0

theorem appendReply {server : Fin n} {args : AppendEntriesArgs n C} {reply : AppendEntriesReply}
    {appendNums num : ℕ} (h : rf.sendAppendEntries server args reply appendNums = .ok (rf', num)) :
    AppendReply rf server args reply appendNums rf' num := by
  by_cases hstate : reply.appstate = .disconnected
  · obtain ⟨rfl, rfl⟩ : _ ∧ _ := by simpa [sendAppendEntries, hstate] using h
    exact .ignored (Or.inl hstate)
  by_cases hgt : reply.term > rf.currentTerm
  · obtain ⟨rfl, rfl⟩ : _ ∧ _ := by simpa [sendAppendEntries, hstate, hgt] using h
    exact .newer hstate hgt
  by_cases hlt : reply.term < rf.currentTerm
  · obtain ⟨rfl, rfl⟩ : _ ∧ _ := by simpa [sendAppendEntries, hstate, hgt, hlt] using h
    exact .ignored (Or.inr (Or.inl hlt))
  have hterm : reply.term = rf.currentTerm := by omega
  by_cases hs : rf.status = .leader
  swap
  · obtain ⟨rfl, rfl⟩ : _ ∧ _ := by simpa [sendAppendEntries, hstate, hgt, hlt, hs] using h
    exact .ignored (Or.inr (Or.inr ⟨hterm, Or.inl hs⟩))
  by_cases hok : reply.success = true
  swap
  · have hno : reply.success = false := by simpa using hok
    by_cases hup : reply.updatenextindex = -100
    · obtain ⟨-, rfl, rfl⟩ : _ ∧ _ ∧ _ := by
        simpa [sendAppendEntries, hstate, hgt, hlt, hs, hok, hup] using h
      exact .ignored (Or.inr (Or.inr ⟨hterm, Or.inr hno⟩))
    · obtain ⟨-, rfl, rfl⟩ : _ ∧ _ ∧ _ := by
        simpa [sendAppendEntries, hstate, hgt, hlt, hs, hok, hup] using h
      have hmoves : rf.AppendReply server args reply appendNums _ _ := .refused hterm hs hno hup
      simpa [hs] using hmoves
  by_cases hnum : appendNums + 1 ≥ 1 + n / 2
  · obtain ⟨-, -, -, rfl, rfl⟩ : _ ∧ _ ∧ _ ∧ _ ∧ _ := by
      simpa [sendAppendEntries, hstate, hgt, hlt, hs, hok, hnum] using h
    have hmoves : rf.AppendReply server args reply appendNums _ _ :=
      .completed hterm hs hok hnum
    simpa [matched, hs] using hmoves
  · obtain ⟨-, -, rfl, rfl⟩ : _ ∧ _ ∧ _ ∧ _ := by
      simpa [sendAppendEntries, hstate, hgt, hlt, hs, hok, hnum] using h
    have hmoves : rf.AppendReply server args reply appendNums _ _ :=
      .counted hterm hs hok (not_le.1 hnum)
    simpa [matched, hs] using hmoves

end Raft

namespace Cluster

variable {n : ℕ} {C D : Type} {c c' : Cluster n C D} {a : Action n C D}

/-! ### Roles -/

/-- **A step wins an election or makes nobody leader.** -/
theorem keeps_or_elected [DecidableEq C] (h : Moves c a c') :
    c'.elections = c.elections ∧ (∀ i, (c.raft i).Keeps (c'.raft i)) ∨
      ∃ i, c'.elections = c.elections ++ [(i, (c.raft i).currentTerm)] ∧
        (c'.raft i).currentTerm = (c.raft i).currentTerm ∧ (c.raft i).KeepsVote (c'.raft i) ∧
        (∀ j, (c.raft j).SameLog (c'.raft j)) ∧ ∀ j, j ≠ i → c'.raft j = c.raft j := by
  have hrefl : ∀ j, (c.raft j).Keeps (c.raft j) := fun j => .refl _
  cases h with
  | exit i f => exact Or.inl ⟨rfl, fun j => by rw [exit_raft]; exact .refl _⟩
  | idle | doHeartBeat | loseVote | loseAppend | loseSnapshot | leaderSendSnapShot =>
    exact Or.inl ⟨rfl, hrefl⟩
  | doElection h => exact Or.inl ⟨rfl, keeps_of_update (doElection_eq h).2.1 (by simp)⟩
  | @start i command =>
    exact Or.inl ⟨rfl, keeps_of_update (keeps_start (c.raft i) command) (by simp)⟩
  | @getApplyLogs i rf msgs _ h =>
    have hkeep : (c.raft i).Keeps rf := by
      obtain ⟨rfl, -⟩ := applyNext_eq (getApplyLogs_eq h).2
      exact .of_eq rfl rfl rfl rfl
    exact Or.inl ⟨rfl, keeps_of_update hkeep (by simp)⟩
  | @pushApplyMsg i =>
    exact Or.inl ⟨rfl, keeps_of_update (.refl (c.raft i)) (by simp)⟩
  | @consumeCommand i => exact Or.inl ⟨rfl, keeps_of_update (.refl (c.raft i)) (by simp)⟩
  | consumeSnapshot _ h =>
    exact Or.inl ⟨rfl, keeps_of_update (keeps_condInstallSnapshot h).1 (by simp)⟩
  | snapshot _ h => exact Or.inl ⟨rfl, keeps_of_update (keeps_snapshot h).1 (by simp)⟩
  | requestVote _ h =>
    exact Or.inl ⟨rfl, keeps_of_update (requestVote_cases h).2.1 (by simp)⟩
  | appendEntries1 _ h =>
    exact Or.inl ⟨rfl, keeps_of_update (keeps_appendEntries1 h) (by simp)⟩
  | installSnapshot _ h =>
    exact Or.inl ⟨rfl, keeps_of_update (keeps_installSnapshot h).1 (by simp)⟩
  | @sendRequestVote k me server args p r rf num elected _ h =>
    obtain ⟨hs, ⟨rfl, hkeep, -⟩ | ⟨rfl, -, -, -, -, -, hterm, hvoted⟩⟩ := sendRequestVote_cases h
    · exact Or.inl ⟨rfl, keeps_of_update hkeep (by simp)⟩
    · have hkeep : (c.raft me).KeepsVote rf := ⟨hs.me, hterm.ge, fun _ _ => hvoted⟩
      refine Or.inr ⟨me, by simp [hterm], by simp [hterm], by simpa using hkeep, fun j => ?_,
        fun j hj => by simp [hj]⟩
      by_cases hj : j = me
      · subst hj
        simpa using hs
      · simpa [hj] using SameLog.refl (c.raft j)
  | sendAppendEntries _ h =>
    exact Or.inl ⟨rfl, keeps_of_update (sendAppendEntries_cases h).2.2.1 (by simp)⟩
  | @snapshotReply k me server args r =>
    exact Or.inl ⟨rfl, keeps_of_update
      ((c.raft me).keeps_leaderSendSnapShotReply server args r).1 (by simp)⟩
  | @pushMsgToKvServer k me =>
    exact Or.inl ⟨rfl, keeps_of_update (.refl (c.raft me)) (by simp)⟩

/-- **No step takes a vote back.** -/
theorem keepsVote_step [DecidableEq C] (h : Moves c a c') (j : Fin n) :
    (c.raft j).KeepsVote (c'.raft j) := by
  obtain ⟨-, hkeep⟩ | ⟨i, -, -, hkeep, -, hother⟩ := keeps_or_elected h
  · exact (hkeep j).toKeepsVote
  · by_cases hj : j = i
    · exact hj ▸ hkeep
    · rw [hother j hj]
      exact (Keeps.refl _).toKeepsVote

theorem elections_subset [DecidableEq C] (h : Moves c a c') : c.elections ⊆ c'.elections := by
  obtain ⟨heq, -⟩ | ⟨i, heq, -⟩ := keeps_or_elected h <;> rw [heq]
  · exact List.Subset.refl _
  · exact List.subset_append_left _ _

/-- A term has one leader. -/
theorem elections_unique [DecidableEq C] (h : (machine n C D).Reachable init c) {i j : Fin n}
    {T : ℤ} (hi : (i, T) ∈ c.elections) (hj : (j, T) ∈ c.elections) : i = j := by
  obtain ⟨votes, polls, he⟩ := exists_elections h
  exact he.unique hi hj

/-- Who leads after a step has led before, or nobody was elected in its term before. -/
theorem leader_of_step [DecidableEq C] (h : (machine n C D).Reachable init c)
    (hst : c.step a = some c') {i : Fin n} (hl : (c'.raft i).status = .leader) :
    ((c.raft i).status = .leader ∧ (c'.raft i).currentTerm = (c.raft i).currentTerm) ∨
      ∀ j, (j, (c'.raft i).currentTerm) ∉ c.elections := by
  obtain ⟨-, hkeep⟩ | ⟨j, heq, hterm, -, -, hother⟩ := keeps_or_elected (moves_of_step hst)
  · exact Or.inl ((hkeep i).leader hl)
  by_cases hij : i = j
  · -- the terms of the elections are distinct, also after this one
    subst hij
    refine Or.inr fun j hj => ?_
    have hr' : (machine n C D).Reachable init c' := h.tail trivial hst
    have hn := (election_safety hr').1
    rw [heq, List.map_append, List.nodup_append] at hn
    exact hn.2.2 _ (List.mem_map_of_mem hj) _ (List.mem_singleton_self _) hterm
  · rw [hother i hij] at hl ⊢
    exact Or.inl ⟨hl, rfl⟩

/-! ### Logs -/

/-- **What a step can do to the log of node `i`.** -/
inductive LogMoves (c : Cluster n C D) (i : Fin n) (rf : Raft n C D) : Prop
  | same : (c.raft i).SameEntries rf → LogMoves c i rf
  | start (command : C) : (c.raft i).status = .leader →
      rf.logs = (c.raft i).logs ++
        [⟨command, (c.raft i).currentTerm, (c.raft i).getLastLogIndex + 1⟩] →
      rf.lastSnapshotIncludeIndex = (c.raft i).lastSnapshotIncludeIndex → LogMoves c i rf
  /-- The entries of a request are written over the log from position `q` on. -/
  | merge (k q : ℕ) (me : Fin n) (args : AppendEntriesArgs n C) (p : ℕ) :
      c.threads[k]? = some (.sendAppendEntries me i args p .calling) →
      args.prevlogindex = (c.raft i).lastSnapshotIncludeIndex + q → q ≤ (c.raft i).logs.length →
      rf.logs = (c.raft i).logs.take q ++ args.entries ++
        (c.raft i).logs.drop (q + args.entries.length) →
      rf.lastSnapshotIncludeIndex = (c.raft i).lastSnapshotIncludeIndex →
      rf.status = .follower → LogMoves c i rf
  /-- The first `m` entries are dropped. -/
  | compact (m : ℕ) : m ≤ (c.raft i).logs.length → rf.logs = (c.raft i).logs.drop m →
      rf.lastSnapshotIncludeIndex = (c.raft i).lastSnapshotIncludeIndex + m → LogMoves c i rf
  /-- A snapshot replaces more than the log. -/
  | install : (c.raft i).getLastLogIndex ≤ rf.lastSnapshotIncludeIndex → rf.logs = [] →
      rf.status = .follower → LogMoves c i rf

theorem LogMoves.refl (c : Cluster n C D) (i : Fin n) : LogMoves c i (c.raft i) :=
  .same (SameLog.refl _).toSameEntries

/-- A section of node `i` moves its log only. -/
theorem LogMoves.update {i : Fin n} {rf : Raft n C D} (h : LogMoves c i rf)
    (hraft : ∀ j, c'.raft j = if j = i then rf else c.raft j) (j : Fin n) :
    LogMoves c j (c'.raft j) :=
  forall_raft_of_update hraft h (LogMoves.refl c) j

theorem LogMoves.appendEntries1 [DecidableEq C] (hi : c.Indexed) {k p : ℕ} {me i : Fin n}
    {args : AppendEntriesArgs n C} {rf : Raft n C D} {reply : AppendEntriesReply}
    (hk : c.threads[k]? = some (.sendAppendEntries me i args p .calling))
    (h : (c.raft i).appendEntries1 args = .ok (rf, reply)) : LogMoves c i rf := by
  rcases appendEntries1_cases h with
    ⟨-, hs, -⟩ | ⟨-, -, hterm, hprev, hmatch, rf₁, rf₂, hs, -, -, -, hm, rfl⟩
  · exact .same hs.toSameEntries
  obtain ⟨hsnap, -, -⟩ := matchLog_eq_ok.1 hmatch
  obtain ⟨q, hq⟩ : ∃ q : ℕ, args.prevlogindex = (c.raft i).lastSnapshotIncludeIndex + q :=
    ⟨(args.prevlogindex - (c.raft i).lastSnapshotIncludeIndex).toNat, by omega⟩
  have hle : q ≤ (c.raft i).logs.length := by
    rw [(hi.node i).getLastLogIndex, hq] at hprev
    omega
  have he : ContiguousFrom (rf₁.lastSnapshotIncludeIndex + q) args.entries := by
    rw [hs.lastSnapshotIncludeIndex, ← hq]
    exact hi.thread _ (List.mem_of_getElem? hk)
  have hc : rf₁.Contiguous := ((hi.node i).of_sameLog hs).ordered.contiguous
  obtain ⟨rfl, -⟩ := foldlM_mergeEntry q hc (hs.logs ▸ hle) he hm
  obtain ⟨hold, -⟩ | ⟨-, hstatus, -⟩ := appendEntries1_role h
  · exact absurd hold (not_lt.2 hterm)
  · refine .merge k q me args p hk hq hle ?_ hs.lastSnapshotIncludeIndex hstatus
    simp only [persist, hs.logs]

theorem LogMoves.snapshot {i : Fin n} (h : (c.raft i).Ordered) {index : ℤ} {data : D}
    {rf : Raft n C D} (heq : (c.raft i).snapshot index data = .ok rf) : LogMoves c i rf := by
  rcases snapshot_cases h.contiguous heq with rfl | ⟨hlt, hle, hsnap, hlogs, -⟩
  · exact .refl c i
  have hlast := h.commit_le
  rw [h.getLastLogIndex] at hlast
  exact .compact _ (by omega) hlogs (by omega)

theorem LogMoves.installSnapshot {i : Fin n} (h : (c.raft i).Ordered)
    {args : InstallSnapshotRequest n D} {rf : Raft n C D} {reply : InstallSnapshotResponse}
    {msg : Option (ApplyMsg C D)} (heq : (c.raft i).installSnapshot args = .ok (rf, reply, msg)) :
    LogMoves c i rf := by
  rcases installSnapshot_cases heq with ⟨-, hs⟩ | ⟨-, hterm, hlt, hsnap, hlogs, -⟩
  · exact .same hs.toSameEntries
  have hlast := h.getLastLogIndex
  split_ifs at hlogs with hmore
  · exact .compact _ (by omega) hlogs (by omega)
  · obtain ⟨hold, -⟩ | ⟨-, hstatus, -⟩ := installSnapshot_role heq
    · exact absurd hold (not_lt.2 hterm)
    · exact .install (by omega) hlogs hstatus

theorem Indexed.logMoves [DecidableEq C] (hi : c.Indexed) (h : Moves c a c') (j : Fin n) :
    LogMoves c j (c'.raft j) := by
  cases h with
  | exit i f =>
    rw [exit_raft]
    exact .refl c j
  | idle | doHeartBeat | loseVote | loseAppend | loseSnapshot | leaderSendSnapShot =>
    exact .refl c j
  | doElection h =>
    exact (LogMoves.same (doElection_eq h).1.toSameEntries).update (by simp) j
  | @start i command =>
    have hstart : LogMoves c i ((c.raft i).start command).1 := by
      rcases (c.raft i).start_eq command with ⟨heq, -⟩ | ⟨hs, heq⟩ <;> rw [heq]
      · exact .refl c i
      · exact .start command hs rfl rfl
    exact hstart.update (by simp) j
  | @getApplyLogs i rf msgs _ h =>
    have hs : (c.raft i).SameEntries rf := by
      obtain ⟨rfl, -⟩ := applyNext_eq (getApplyLogs_eq h).2
      exact ⟨rfl, rfl, rfl⟩
    exact (LogMoves.same hs).update (by simp) j
  | @pushApplyMsg i | @consumeCommand i => exact (LogMoves.refl c i).update (by simp) j
  | @consumeSnapshot i data term index msgs rf b hm h =>
    rw [hi.condInstallSnapshot hm] at h
    cases h
    exact (LogMoves.refl c i).update (by simp) j
  | @snapshot i command index data rf _ h =>
    exact (LogMoves.snapshot (hi.node i) h).update (by simp) j
  | requestVote _ h =>
    exact (LogMoves.same (requestVote_cases h).1.toSameEntries).update (by simp) j
  | appendEntries1 hk h => exact (LogMoves.appendEntries1 hi hk h).update (by simp) j
  | @installSnapshot k me i args rf r msg _ h =>
    exact (LogMoves.installSnapshot (hi.node i) h).update (by simp) j
  | sendRequestVote _ h =>
    exact (LogMoves.same (sendRequestVote_cases h).1.toSameEntries).update (by simp) j
  | sendAppendEntries _ h =>
    exact (LogMoves.same (sendAppendEntries_cases h).1).update (by simp) j
  | @snapshotReply k me server args r =>
    exact (LogMoves.same
      ((c.raft me).sameLog_leaderSendSnapShotReply server args r).toSameEntries).update (by simp) j
  | @pushMsgToKvServer k me => exact (LogMoves.refl c me).update (by simp) j

/-! ### Calls -/

/-- **What a step can do to thread `k`, that it is the AppendEntries call of `me` to `server` in
the given phase afterwards.** -/
inductive CallMoves [DecidableEq C] (c : Cluster n C D) (a : Action n C D) (c' : Cluster n C D)
    (k : ℕ) (me server : Fin n) (args : AppendEntriesArgs n C) (p : ℕ) :
    Phase AppendEntriesReply → Prop
  | stays {phase} : c.threads[k]? = some (.sendAppendEntries me server args p phase) →
      CallMoves c a c' k me server args p phase
  | started : a = .doHeartBeat me → (c.raft me).status = .leader →
      server ∈ peers (c.raft me).me →
      (c.raft me).heartBeatTo server = .ok (.sendAppendEntries server args) →
      p = c.appendNums.length → (∀ i, c'.raft i = c.raft i) → c.threads.length ≤ k →
      CallMoves c a c' k me server args p .calling
  | delivered (rf : Raft n C D) (reply : AppendEntriesReply) : a = .deliver k →
      c.threads[k]? = some (.sendAppendEntries me server args p .calling) →
      (c.raft server).appendEntries1 args = .ok (rf, reply) → c'.raft server = rf →
      CallMoves c a c' k me server args p (.replied reply)
  | processed (reply : AppendEntriesReply) : a = .reply k →
      c.threads[k]? = some (.sendAppendEntries me server args p (.replied reply)) →
      CallMoves c a c' k me server args p (.done (some reply))
  | lost {phase} : c.threads[k]? = some (.sendAppendEntries me server args p phase) →
      CallMoves c a c' k me server args p (.done none)

/-- A thread after one thread was changed and others were started. -/
theorem getElem?_threads {α : Type} {ts l : List α} {m k : ℕ} {t t' : α}
    (h : (ts.set m t' ++ l)[k]? = some t) :
    k = m ∧ t = t' ∨ ts[k]? = some t ∨ ts.length ≤ k ∧ t ∈ l := by
  rcases lt_or_ge k ts.length with hk | hk
  · rw [List.getElem?_append_left (by simpa using hk)] at h
    by_cases hm : m = k
    · subst hm
      rw [List.getElem?_set_self hk] at h
      exact Or.inl ⟨rfl, (Option.some.inj h).symm⟩
    · rw [List.getElem?_set_ne hm] at h
      exact Or.inr (Or.inl h)
  · rw [List.getElem?_append_right (by simpa using hk)] at h
    exact Or.inr (Or.inr ⟨hk, List.mem_of_getElem? h⟩)

theorem getElem?_append_threads {α : Type} {ts l : List α} {k : ℕ} {t : α}
    (h : (ts ++ l)[k]? = some t) : ts[k]? = some t ∨ ts.length ≤ k ∧ t ∈ l := by
  rcases lt_or_ge k ts.length with hk | hk
  · exact Or.inl (by rwa [List.getElem?_append_left hk] at h)
  · rw [List.getElem?_append_right hk] at h
    exact Or.inr ⟨hk, List.mem_of_getElem? h⟩

theorem callMoves [DecidableEq C] (h : Moves c a c') {k : ℕ} {me server : Fin n}
    {args : AppendEntriesArgs n C} {p : ℕ} {phase : Phase AppendEntriesReply}
    (hk : c'.threads[k]? = some (.sendAppendEntries me server args p phase)) :
    CallMoves c a c' k me server args p phase := by
  -- a step of another kind of thread
  have hother : ∀ {m : ℕ} {t' : Thread n C D} {l : List (Thread n C D)},
      (c.threads.set m t' ++ l)[k]? = some (.sendAppendEntries me server args p phase) →
      t' ≠ .sendAppendEntries me server args p phase →
      .sendAppendEntries me server args p phase ∉ l →
      CallMoves c a c' k me server args p phase := by
    intro m t' l hk ht' hl
    rcases getElem?_threads hk with ⟨-, heq⟩ | hk | ⟨-, hmem⟩
    · exact absurd heq.symm ht'
    · exact .stays hk
    · exact absurd hmem hl
  have hother' : ∀ {m : ℕ} {t' : Thread n C D},
      (c.threads.set m t')[k]? = some (.sendAppendEntries me server args p phase) →
      t' ≠ .sendAppendEntries me server args p phase →
      CallMoves c a c' k me server args p phase := by
    intro m t' hk ht'
    exact hother (l := []) (by simpa using hk) ht' (by simp)
  cases h with
  | exit | idle | start | getApplyLogs | pushApplyMsg | consumeCommand | consumeSnapshot
  | snapshot => exact .stays hk
  | doElection =>
    rcases getElem?_append_threads hk with hk | ⟨-, hmem⟩
    · exact .stays hk
    · obtain ⟨call, -, hcall⟩ := List.mem_map.1 hmem
      cases hcall
  | @doHeartBeat i beats h =>
    rcases getElem?_append_threads hk with hk | ⟨hlen, hmem⟩
    · exact .stays hk
    obtain ⟨b, hb, hthread⟩ := List.mem_map.1 hmem
    cases b with
    | leaderSendSnapShot => cases hthread
    | sendAppendEntries server' args' =>
      cases hthread
      obtain ⟨hs, hbeats⟩ := doHeartBeat_eq h
      obtain ⟨j, hj, hto⟩ := exists_of_forall₂ hbeats hb
      obtain rfl : j = server := by
        rcases heartBeatTo_cases hto with ⟨hb, -⟩ | ⟨_, _, -, hb⟩ <;> cases hb
        rfl
      exact .started rfl hs hj hto rfl (fun _ => rfl) hlen
  | requestVote | sendRequestVote | snapshotReply | loseVote | loseSnapshot
  | leaderSendSnapShot | pushMsgToKvServer => exact hother' hk nofun
  | installSnapshot =>
    refine hother hk nofun fun hmem => ?_
    obtain ⟨m, -, hm⟩ := List.mem_map.1 hmem
    cases hm
  | @appendEntries1 m me' server' args' p' rf r hm h =>
    rcases getElem?_threads (l := []) (by simpa using hk) with ⟨rfl, heq⟩ | hk | ⟨-, hmem⟩
    · cases heq
      exact .delivered rf r rfl hm h (by simp)
    · exact .stays hk
    · cases hmem
  | @sendAppendEntries m me' server' args' p' r rf num hm h =>
    rcases getElem?_threads (l := []) (by simpa using hk) with ⟨rfl, heq⟩ | hk | ⟨-, hmem⟩
    · cases heq
      exact .processed r rfl hm
    · exact .stays hk
    · cases hmem
  | @loseAppend m me' server' args' p' phase' hm hw =>
    rcases getElem?_threads (l := []) (by simpa using hk) with ⟨rfl, heq⟩ | hk | ⟨-, hmem⟩
    · cases heq
      exact .lost hm
    · exact .stays hk
    · cases hmem

/-- The request of a call was there before, or its sender was leader and has built it. -/
theorem callMoves_request [DecidableEq C] (h : Moves c a c') {k : ℕ} {me server : Fin n}
    {args : AppendEntriesArgs n C} {p : ℕ} {phase : Phase AppendEntriesReply}
    (hk : c'.threads[k]? = some (.sendAppendEntries me server args p phase)) :
    (∃ phase, c.threads[k]? = some (.sendAppendEntries me server args p phase)) ∨
      (c.raft me).status = .leader ∧ server ∈ peers (c.raft me).me ∧
        (c.raft me).heartBeatTo server = .ok (.sendAppendEntries server args) ∧
        ∀ i, c'.raft i = c.raft i := by
  cases callMoves h hk with
  | stays hold | lost hold => exact Or.inl ⟨_, hold⟩
  | delivered rf reply _ hold => exact Or.inl ⟨_, hold⟩
  | processed reply _ hold => exact Or.inl ⟨_, hold⟩
  | started _ hl hp hb _ hraft => exact Or.inr ⟨hl, hp, hb, hraft⟩

/-- **What a step can do to thread `k`, that it is the snapshot thread of `me` for `server` with
the given call afterwards.** -/
inductive SnapshotCallMoves (c : Cluster n C D) (a : Action n C D) (k : ℕ) (me server : Fin n) :
    Option (InstallSnapshotRequest n D × Phase InstallSnapshotResponse) → Prop
  | stays {call} : c.threads[k]? = some (.leaderSendSnapShot me server call) →
      SnapshotCallMoves c a k me server call
  | started : (c.raft me).status = .leader → server ∈ peers (c.raft me).me →
      SnapshotCallMoves c a k me server none
  /-- The thread reads its node. -/
  | reads (data : D) : a = .leaderSendSnapShot k data →
      c.threads[k]? = some (.leaderSendSnapShot me server none) →
      SnapshotCallMoves c a k me server (some ((c.raft me).leaderSendSnapShot data, .calling))
  | goesOn {args phase phase'} :
      c.threads[k]? = some (.leaderSendSnapShot me server (some (args, phase))) →
      SnapshotCallMoves c a k me server (some (args, phase'))

theorem snapshotCallMoves [DecidableEq C] (h : Moves c a c') {k : ℕ} {me server : Fin n}
    {call : Option (InstallSnapshotRequest n D × Phase InstallSnapshotResponse)}
    (hk : c'.threads[k]? = some (.leaderSendSnapShot me server call)) :
    SnapshotCallMoves c a k me server call := by
  -- a step of another kind of thread
  have hother : ∀ {m : ℕ} {t' : Thread n C D},
      (c.threads.set m t')[k]? = some (.leaderSendSnapShot me server call) →
      t' ≠ .leaderSendSnapShot me server call → SnapshotCallMoves c a k me server call := by
    intro m t' hk ht'
    rcases getElem?_threads (l := []) (by simpa using hk) with ⟨-, heq⟩ | hk | ⟨-, hmem⟩
    · exact absurd heq.symm ht'
    · exact .stays hk
    · cases hmem
  -- the call of a snapshot thread goes on
  have hset : ∀ {m : ℕ} {me' server' : Fin n} {args : InstallSnapshotRequest n D}
      {phase phase' : Phase InstallSnapshotResponse} {l : List (Thread n C D)},
      c.threads[m]? = some (.leaderSendSnapShot me' server' (some (args, phase))) →
      (c.threads.set m (.leaderSendSnapShot me' server' (some (args, phase'))) ++ l)[k]? =
        some (.leaderSendSnapShot me server call) →
      .leaderSendSnapShot me server call ∉ l → SnapshotCallMoves c a k me server call := by
    intro m me' server' args phase phase' l hm hk hl
    rcases getElem?_threads hk with ⟨rfl, heq⟩ | hk | ⟨-, hmem⟩
    · cases heq
      exact .goesOn hm
    · exact .stays hk
    · exact absurd hmem hl
  cases h with
  | exit | idle | start | getApplyLogs | pushApplyMsg | consumeCommand | consumeSnapshot
  | snapshot => exact .stays hk
  | doElection =>
    rcases getElem?_append_threads hk with hk | ⟨-, hmem⟩
    · exact .stays hk
    · obtain ⟨vote, -, hvote⟩ := List.mem_map.1 hmem
      cases hvote
  | @doHeartBeat i beats h =>
    rcases getElem?_append_threads hk with hk | ⟨-, hmem⟩
    · exact .stays hk
    obtain ⟨b, hb, hthread⟩ := List.mem_map.1 hmem
    cases b with
    | sendAppendEntries => cases hthread
    | leaderSendSnapShot server' =>
      cases hthread
      obtain ⟨hs, hbeats⟩ := doHeartBeat_eq h
      obtain ⟨j, hj, hto⟩ := exists_of_forall₂ hbeats hb
      obtain rfl : j = server := by
        rcases heartBeatTo_cases hto with ⟨hb, -⟩ | ⟨_, _, -, hb⟩ <;> cases hb
        rfl
      exact .started hs hj
  | requestVote | sendRequestVote | appendEntries1 | sendAppendEntries | loseVote | loseAppend
  | pushMsgToKvServer => exact hother hk nofun
  | installSnapshot hm =>
    refine hset hm hk fun hmem => ?_
    obtain ⟨m, -, hm⟩ := List.mem_map.1 hmem
    cases hm
  | snapshotReply hm | loseSnapshot hm => exact hset (l := []) hm (by simpa using hk) (by simp)
  | @leaderSendSnapShot m me' server' data hm =>
    rcases getElem?_threads (l := []) (by simpa using hk) with ⟨rfl, heq⟩ | hk | ⟨-, hmem⟩
    · cases heq
      exact .reads data rfl hm
    · exact .stays hk
    · cases hmem

end Cluster

end KvRaft
