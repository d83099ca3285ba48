import KvRaft.Raft.Leading

/-!
# The commit rule of a leader and the quorum rule

`leaderUpdateCommitIndex` finds the largest index whose entry is of the leader's term and which a
majority has by `matchIndex`.  Nobody calls it: `sendAppendEntries` counts the successes of each
heartbeat instead, and commits what the request asks for whose answer completes the count.

## Main definitions

* `Raft.Committable` : the index may be committed by the quorum rule.
* `Cluster.CompletesInTime` : the condition on a step in clusters of more than three nodes.  An
  answer that completes a quorum completes the count of its heartbeat, and its request carries
  entries.
* `Cluster.Prompt` : the invariant of leaders of at most three nodes.

`Cluster.commit_keeps_up` : under the condition, and always for at most three nodes, the commit
index of a leader is not behind the quorum rule.  `Cluster.not_commit_keeps_up` : with five nodes
it can be, without the condition.
-/

namespace KvRaft

open Raft Consensus

namespace Raft

variable {n : ℕ} {C D : Type} {rf rf' : Raft n C D}

/-! ### The quorum rule -/

/-- **The quorum rule allows to commit `N`**: the entry there is of the leader's term and a majority
has it. -/
def Committable (rf : Raft n C D) (N : ℤ) : Prop :=
  (∃ e ∈ rf.logs, e.logindex = N ∧ e.logterm = rf.currentTerm) ∧ n / 2 + 1 ≤ rf.replicas N

theorem replicas_eq_card (rf : Raft n C D) (N : ℤ) : rf.replicas N =
    (Finset.univ.filter fun i => i = rf.me ∨ N ≤ rf.matchIndex i).card := by
  have hfilter : (Finset.univ.filter fun i => i = rf.me ∨ N ≤ rf.matchIndex i) =
      ((List.finRange n).filter fun i => i = rf.me ∨ N ≤ rf.matchIndex i).toFinset := by
    ext i
    simp
  rw [hfilter, List.toFinset_card_of_nodup ((List.nodup_finRange n).filter _),
    ← List.countP_eq_length_filter]
  rfl

/-- The leader alone. -/
theorem replicas_le_one {N : ℤ} (h : ∀ j, rf.matchIndex j < N) : rf.replicas N ≤ 1 := by
  have hmem : ∀ j ∈ Finset.univ.filter (fun i => i = rf.me ∨ N ≤ rf.matchIndex i), j = rf.me :=
    fun j hj => (Finset.mem_filter.1 hj).2.resolve_right (not_le.2 (h j))
  rw [replicas_eq_card, Finset.card_le_one]
  exact fun j hj j' hj' => (hmem j hj).trans (hmem j' hj').symm

theorem replicas_mono {N : ℤ} (hme : rf'.me = rf.me)
    (h : ∀ j, N ≤ rf'.matchIndex j → N ≤ rf.matchIndex j) : rf'.replicas N ≤ rf.replicas N := by
  unfold replicas
  refine List.countP_mono_left fun j _ hj => ?_
  rw [decide_eq_true_iff] at hj ⊢
  rw [← hme]
  exact hj.imp id (h j)

/-- News from one peer raise the number by one at most. -/
theorem replicas_le_succ {N : ℤ} {s : Fin n} (hme : rf'.me = rf.me)
    (h : ∀ j, j ≠ s → rf'.matchIndex j = rf.matchIndex j) :
    rf'.replicas N ≤ rf.replicas N + 1 := by
  rw [replicas_eq_card, replicas_eq_card]
  refine (Finset.card_le_card ?_).trans (Finset.card_insert_le s _)
  intro j hj
  rw [Finset.mem_insert, Finset.mem_filter]
  by_cases hjs : j = s
  · exact Or.inl hjs
  · refine Or.inr ⟨Finset.mem_univ j, ?_⟩
    rw [← hme, ← h j hjs]
    exact (Finset.mem_filter.1 hj).2

/-- A majority of at least two nodes has a member that is not the leader. -/
theorem Committable.exists_peer {N : ℤ} (h : rf.Committable N) (hn : 2 ≤ n) :
    ∃ j, N ≤ rf.matchIndex j := by
  by_contra hno
  push Not at hno
  have := replicas_le_one hno
  have := h.2
  omega

theorem Contiguous.committableBelow (hc : rf.Contiguous) : ∀ (k : ℕ) (index : ℤ),
    index ≤ rf.getLastLogIndex → rf.lastSnapshotIncludeIndex ≤ index - k →
    ∃ found, rf.committableBelow k index = .ok found ∧ (∀ N, found = some N → rf.Committable N) ∧
      ∀ M, rf.Committable M → M ≤ index → index - k < M → ∃ N, found = some N ∧ M ≤ N
  | 0, index, _, _ => ⟨none, rfl, nofun, fun M _ hle hlt => by push_cast at hlt; omega⟩
  | k + 1, index, hhi, hlo => by
    push_cast at hlo
    obtain ⟨found, heq, hfound, hmax⟩ :=
      hc.committableBelow k (index - 1) (by omega) (by omega)
    -- the rest of the loop, when `index` itself is not committable
    have hrest : ¬ rf.Committable index →
        ∃ found', (rf.committableBelow k (index - 1)) = .ok found' ∧
        (∀ N, found' = some N → rf.Committable N) ∧
        ∀ M, rf.Committable M → M ≤ index → index - (k + 1 : ℕ) < M →
          ∃ N, found' = some N ∧ M ≤ N := by
      intro hno
      refine ⟨found, heq, hfound, fun M hM hle hlt => hmax M hM ?_ (by push_cast at hlt; omega)⟩
      have : M ≠ index := by
        rintro rfl
        exact hno hM
      omega
    by_cases hrep : rf.replicas index ≥ n / 2 + 1
    swap
    · obtain ⟨found', hloop, hspec⟩ := hrest fun hcom => hrep hcom.2
      exact ⟨found', by rw [Raft.committableBelow, if_neg hrep]; exact hloop, hspec⟩
    obtain ⟨t, ht⟩ := hc.getLogTermFromLogIndex (by omega) hhi
    obtain ⟨e, he, hindex, hlogterm, huniq⟩ := hc.exists_entry (by omega) ht
    by_cases hterm : t = rf.currentTerm
    · refine ⟨some index, ?_, ?_, fun M _ hle _ => ⟨index, rfl, hle⟩⟩
      · rw [Raft.committableBelow, if_pos hrep, ht]
        exact if_pos hterm
      · rintro N ⟨⟩
        exact ⟨⟨e, he, hindex, hlogterm.trans hterm⟩, hrep⟩
    · have hno : ¬ rf.Committable index := by
        rintro ⟨⟨e', he', hindex', hterm'⟩, -⟩
        rw [huniq e' he' hindex', hlogterm] at hterm'
        exact hterm hterm'
      obtain ⟨found', hloop, hspec⟩ := hrest hno
      refine ⟨found', ?_, hspec⟩
      rw [Raft.committableBelow, if_pos hrep, ht]
      exact (if_neg hterm).trans hloop

/-- **`leaderUpdateCommitIndex` chooses the largest index of the quorum rule**, or the snapshot
point when there is none. -/
theorem Contiguous.leaderUpdateCommitIndex (hc : rf.Contiguous) :
    ∃ rf', rf.leaderUpdateCommitIndex = .ok rf' ∧
      (rf'.commitIndex = rf.lastSnapshotIncludeIndex ∨ rf.Committable rf'.commitIndex) ∧
      ∀ N, rf.Committable N → N ≤ rf'.commitIndex := by
  have hlast := hc.getLastLogIndex
  obtain ⟨found, heq, hfound, hmax⟩ := hc.committableBelow
    (rf.getLastLogIndex - rf.lastSnapshotIncludeIndex).toNat rf.getLastLogIndex le_rfl (by omega)
  refine ⟨{ rf with commitIndex := found.getD rf.lastSnapshotIncludeIndex },
    bind_eq_ok.2 ⟨found, heq, rfl⟩, ?_, fun N hN => ?_⟩
  · cases found with
    | none => exact Or.inl rfl
    | some N => exact Or.inr (hfound N rfl)
  · obtain ⟨e, he, hindex, -⟩ := hN.1
    obtain ⟨hlo, hhi⟩ := hc.logindex_le he
    obtain ⟨M, hM, hle⟩ := hmax N hN (by omega) (by omega)
    rw [hM]
    exact hle

/-- The answer of `server` to a request gives the entry `e`, of the leader's term and not committed,
the one node that it lacks for a majority. -/
def LacksOnly (rf : Raft n C D) (server : Fin n) (args : AppendEntriesArgs n C) (e : LogEntry C) :
    Prop :=
  e.logterm = rf.currentTerm ∧ rf.commitIndex < e.logindex ∧ rf.matchIndex server < e.logindex ∧
    e.logindex ≤ args.prevlogindex + args.entries.length ∧ n / 2 ≤ rf.replicas e.logindex

instance (rf : Raft n C D) (server : Fin n) (args : AppendEntriesArgs n C) (e : LogEntry C) :
    Decidable (rf.LacksOnly server args e) := by
  unfold LacksOnly
  infer_instance

/-- A success that makes an entry committable was the one that it lacked. -/
theorem lacksOnly_of_replicas {server : Fin n} {args : AppendEntriesArgs n C} {e : LogEntry C}
    (hme : rf'.me = rf.me) (hmatch : rf'.matchIndex = Function.update rf.matchIndex server
      (max (rf.matchIndex server) args.lastIndex))
    (hterm : e.logterm = rf.currentTerm) (hcommit : rf.commitIndex < e.logindex)
    (hbefore : rf.replicas e.logindex < n / 2 + 1) (hafter : n / 2 + 1 ≤ rf'.replicas e.logindex) :
    rf.LacksOnly server args e := by
  have hserver : rf.matchIndex server < e.logindex ∧ e.logindex ≤ args.lastIndex := by
    by_contra hno
    have := replicas_mono hme fun j (hj : e.logindex ≤ rf'.matchIndex j) => by
      rw [hmatch, Function.update_apply] at hj
      split_ifs at hj with hjs
      · subst hjs
        rcases le_max_iff.1 hj with hle | hle
        · exact hle
        · by_contra hlt
          exact hno ⟨not_le.1 hlt, hle⟩
      · exact hj
    omega
  have hsucc : rf'.replicas e.logindex ≤ rf.replicas e.logindex + 1 :=
    replicas_le_succ hme fun j hj => by rw [hmatch, Function.update_of_ne hj]
  exact ⟨hterm, hcommit, hserver.1, hserver.2, by omega⟩

/-- A success that completes the count commits what was sent, when that ends in the leader's term
and is not empty. -/
theorem AppendReply.lastIndex_le {server : Fin n} {args : AppendEntriesArgs n C}
    {reply : AppendEntriesReply} {appendNums num : ℕ}
    (h : AppendReply rf server args reply appendNums rf' num) (happ : reply.appstate = .appNormal)
    (hok : reply.success = true) (hterm : reply.term = rf.currentTerm)
    (hl : rf.status = .leader) (hnum : 1 + n / 2 ≤ appendNums + 1) (hne : args.entries ≠ [])
    (hlast : args.lastTerm = rf.currentTerm) : args.lastIndex ≤ rf'.commitIndex := by
  cases h with
  | ignored hign =>
    rcases hign with hstate | hlt | ⟨-, hs | hno⟩
    · rw [happ] at hstate
      cases hstate
    · omega
    · exact absurd hl hs
    · rw [hok] at hno
      cases hno
  | newer _ hgt => omega
  | refused _ _ hno =>
    rw [hok] at hno
    cases hno
  | counted _ _ _ hlt => omega
  | completed =>
    obtain ⟨e, he⟩ : ∃ e, args.entries.getLast? = some e :=
      ⟨_, List.getLast?_eq_some_getLast hne⟩
    have hends : args.entries.getLast?.map (·.logterm) = some rf.currentTerm := by
      rw [AppendEntriesArgs.lastTerm, he] at hlast
      rw [he, ← hlast]
      rfl
    change args.lastIndex ≤ if _ then _ else _
    rw [if_pos hends]
    exact le_max_right _ _

end Raft

namespace Cluster

variable {n : ℕ} {C D : Type} [DecidableEq C] {c c' : Cluster n C D} {a : Action n C D} {i : Fin n}

/-- What a leader sends in its term ends in its term, if that goes beyond its commit index and over
an entry of its term. -/
theorem lastTerm_eq (h : (machine n C D).Reachable init c) (hl : (c.raft i).status = .leader)
    {k : ℕ} {server : Fin n} {args : AppendEntriesArgs n C} {p : ℕ}
    {phase : Phase AppendEntriesReply}
    (hk : c.threads[k]? = some (.sendAppendEntries i server args p phase))
    (hT : args.term = (c.raft i).currentTerm) {e : LogEntry C} (he : e ∈ (c.raft i).logs)
    (hterm : e.logterm = (c.raft i).currentTerm) (hle : e.logindex ≤ args.lastIndex)
    (hcommit : (c.raft i).commitIndex < args.lastIndex) :
    args.lastTerm = (c.raft i).currentTerm := by
  have hi := indexed_of_reachable h
  rcases sent_last h hk hl hT.symm with ⟨e', he', hindex, hlast⟩ | hsnap
  · rw [← hlast]
    exact own_suffix h hl he hterm he' (by omega)
  · have := (hi.node i).snapshot_le
    have := (hi.node i).applied_le
    omega

/-! ### At most three nodes -/

/-- **What a leader of at most three nodes achieves.**  It commits with the first answer. -/
structure Prompt (c : Cluster n C D) (i : Fin n) : Prop where
  /-- What was answered with success in its term is committed. -/
  acked : ∀ (k : ℕ) (server : Fin n) (args : AppendEntriesArgs n C) (p : ℕ)
    (reply : AppendEntriesReply),
    c.threads[k]? = some (.sendAppendEntries i server args p (.done (some reply))) →
    reply.success = true → args.term = (c.raft i).currentTerm →
    args.lastTerm = (c.raft i).currentTerm → args.lastIndex ≤ (c.raft i).commitIndex
  /-- A `matchIndex` is committed, or comes from an answer in its term. -/
  matched : ∀ j, (c.raft i).matchIndex j ≤ (c.raft i).commitIndex ∨
    ∃ (k : ℕ) (args : AppendEntriesArgs n C) (p : ℕ) (reply : AppendEntriesReply),
      c.threads[k]? = some (.sendAppendEntries i j args p (.done (some reply))) ∧
      reply.success = true ∧ args.term = (c.raft i).currentTerm ∧
      args.lastIndex = (c.raft i).matchIndex j
  /-- What is not to be sent to a peer any more is committed. -/
  next : ∀ j, ∀ e ∈ (c.raft i).logs, e.logterm = (c.raft i).currentTerm →
    e.logindex < (c.raft i).nextIndex j → e.logindex ≤ (c.raft i).commitIndex
  /-- What a request leaves out is committed. -/
  sent : ∀ (k : ℕ) (server : Fin n) (args : AppendEntriesArgs n C) (p : ℕ)
    (phase : Phase AppendEntriesReply),
    c.threads[k]? = some (.sendAppendEntries i server args p phase) →
    args.term = (c.raft i).currentTerm → ∀ e ∈ (c.raft i).logs,
    e.logterm = (c.raft i).currentTerm → e.logindex ≤ args.prevlogindex →
    e.logindex ≤ (c.raft i).commitIndex

theorem Prompt.match_le (hp : c.Prompt i) (h : (machine n C D).Reachable init c)
    (hl : (c.raft i).status = .leader) {e : LogEntry C} (he : e ∈ (c.raft i).logs)
    (hterm : e.logterm = (c.raft i).currentTerm) {j : Fin n}
    (hle : e.logindex ≤ (c.raft i).matchIndex j) : e.logindex ≤ (c.raft i).commitIndex := by
  rcases hp.matched j with hm | ⟨k, args, p, reply, hk, hok, hT, hm⟩
  · exact hle.trans hm
  · by_contra hlt
    have hcommit : (c.raft i).commitIndex < args.lastIndex := by omega
    have := hp.acked k j args p reply hk hok hT
      (lastTerm_eq h hl hk hT he hterm (by omega) hcommit)
    omega

/-- **The first answer commits.** -/
theorem Prompt.reply (hp : c.Prompt i) (hn : n ≤ 3) (h : (machine n C D).Reachable init c)
    (hl : (c.raft i).status = .leader) {k : ℕ} {server : Fin n} {args : AppendEntriesArgs n C}
    {p : ℕ} {reply : AppendEntriesReply}
    (hk : c.threads[k]? = some (.sendAppendEntries i server args p (.replied reply)))
    (hok : reply.success = true) (hrt : reply.term = (c.raft i).currentTerm)
    {rf : Raft n C D} {num : ℕ}
    (hreply : (c.raft i).AppendReply server args reply (c.appendNums.getD p 0) rf num)
    (hcommit : (c.raft i).commitIndex ≤ rf.commitIndex)
    {e : LogEntry C} (he : e ∈ (c.raft i).logs) (hterm : e.logterm = (c.raft i).currentTerm)
    (hle : e.logindex ≤ args.lastIndex) : e.logindex ≤ rf.commitIndex := by
  by_contra hlt
  have hT : args.term = (c.raft i).currentTerm :=
    ((sent_success h hk rfl hok).1).symm.trans hrt
  have hlast := lastTerm_eq h hl hk hT he hterm hle (by omega)
  have hb := beats_of_reachable h
  -- the request carries entries, since what it leaves out is committed
  have hne : args.entries ≠ [] := by
    intro hnil
    have := hp.sent k server args p _ hk hT e he hterm
      (by simpa [AppendEntriesArgs.lastIndex, hnil] using hle)
    omega
  -- the count of its heartbeat is still open
  have hcount : c.appendNums.getD p 0 ≠ 0 := by
    intro hzero
    have hlen : p < c.appendNums.length :=
      hb.tally.poll_lt ⟨p, server, false⟩ (List.mem_map.2 ⟨_, List.mem_of_getElem? hk, rfl⟩)
    rw [List.getD_eq_getElem?_getD, List.getElem?_eq_getElem hlen, Option.getD_some] at hzero
    obtain ⟨k', me, v, args', reply', hk', hok'⟩ :=
      succeeded_of_zero h (p := p) (by rw [List.getElem?_eq_getElem hlen, hzero])
    obtain ⟨-, rfl, hterm', hindex', hlast'⟩ := Beat.mk.inj <| hb.same _ _
      (List.mem_map.2 ⟨_, List.mem_of_getElem? hk', rfl⟩)
      (List.mem_map.2 ⟨_, List.mem_of_getElem? hk, rfl⟩) rfl
    have := hp.acked k' v args' p reply' hk' hok' (hterm'.trans hT) (hlast'.trans hlast)
    omega
  have := hreply.lastIndex_le (reply_of_call h hk rfl).1 hok hrt hl (by omega) hne hlast
  omega

/-- A leader's log grows at its end only. -/
theorem mem_logs_step (h : (machine n C D).Reachable init c) (hst : c.step a = some c')
    (hl : (c'.raft i).status = .leader) {e : LogEntry C} (he : e ∈ (c'.raft i).logs) :
    e ∈ (c.raft i).logs ∨ e.logindex = (c.raft i).getLastLogIndex + 1 := by
  cases (indexed_of_reachable h).logMoves (moves_of_step hst) i with
  | same hs => exact Or.inl (hs.logs ▸ he)
  | start command _ hlogs =>
    rw [hlogs, List.mem_append, List.mem_singleton] at he
    refine he.imp id ?_
    rintro rfl
    rfl
  | compact m _ hlogs => exact Or.inl (List.mem_of_mem_drop (hlogs ▸ he))
  | merge k q me args p _ _ _ _ _ hf | install _ _ hf =>
    rw [hl] at hf
    cases hf

/-- A node that was just elected has sent nothing in its term. -/
theorem not_sent_of_elected (h : (machine n C D).Reachable init c) (hst : c.step a = some c')
    (hnone : ∀ j, (j, (c'.raft i).currentTerm) ∉ c.elections) {k : ℕ} {server : Fin n}
    {args : AppendEntriesArgs n C} {p : ℕ} {phase : Phase AppendEntriesReply}
    (hk : c'.threads[k]? = some (.sendAppendEntries i server args p phase)) :
    args.term ≠ (c'.raft i).currentTerm := by
  intro hT
  rcases callMoves_request (moves_of_step hst) hk with ⟨_, hold⟩ | ⟨hl, -, -, hsame⟩
  · exact hnone i (hT ▸ sendAppendEntries_elected h hold)
  · refine hnone i ?_
    rw [hsame]
    exact (election_safety h).2.1 i hl

/-- Nothing has happened in a term that has just been won. -/
theorem prompt_of_elected (h : (machine n C D).Reachable init c) (hst : c.step a = some c')
    (hnone : ∀ j, (j, (c'.raft i).currentTerm) ∉ c.elections)
    (hs : (c.raft i).SameLog (c'.raft i)) (hmatch : ∀ j, (c'.raft i).matchIndex j = 0) :
    c'.Prompt i where
  acked k server args p reply hk _ hterm := absurd hterm (not_sent_of_elected h hst hnone hk)
  matched j := by
    have hi := ((indexed_of_reachable h).step (moves_of_step hst)).node i
    have hnonneg := snapshot_nonneg (h.trans (reachable_of_step hst)) i
    rw [hmatch]
    exact Or.inl (hnonneg.trans (hi.snapshot_le.trans hi.applied_le))
  next j e he hterm := by
    rw [hs.logs] at he
    obtain ⟨j, hj⟩ := logterm_elected h he
    exact absurd (hterm ▸ hj) (hnone j)
  sent k server args p phase hk hterm := absurd hterm (not_sent_of_elected h hst hnone hk)

/-! One field after the other, over a step in which the node leads its term before and after. -/

section Step

variable (hp : c.Prompt i) (hn : n ≤ 3) (h : (machine n C D).Reachable init c)
  (hst : c.step a = some c') (hl : (c.raft i).status = .leader)
  (hl' : (c'.raft i).status = .leader) (hT : (c'.raft i).currentTerm = (c.raft i).currentTerm)

include hp hn h hst hl in
/-- An answer that is processed in the step commits. -/
theorem Prompt.processed {k : ℕ} {server : Fin n} {args : AppendEntriesArgs n C} {p : ℕ}
    {reply : AppendEntriesReply} {num : ℕ}
    (hk : c.threads[k]? = some (.sendAppendEntries i server args p (.replied reply)))
    (hok : reply.success = true) (hterm : args.term = (c.raft i).currentTerm)
    (hrep : (c.raft i).AppendReply server args reply (c.appendNums.getD p 0) (c'.raft i) num)
    {e : LogEntry C} (he : e ∈ (c.raft i).logs) (hlog : e.logterm = (c.raft i).currentTerm)
    (hle : e.logindex ≤ args.lastIndex) : e.logindex ≤ (c'.raft i).commitIndex :=
  hp.reply hn h hl hk hok ((sent_success h hk rfl hok).1.trans hterm) hrep
    (commitIndex_le_step (indexed_of_reachable h) hst i) he hlog hle

include hp hn h hst hl hT in
theorem Prompt.acked_step {k : ℕ} {server : Fin n} {args : AppendEntriesArgs n C} {p : ℕ}
    {reply : AppendEntriesReply}
    (hk : c'.threads[k]? = some (.sendAppendEntries i server args p (.done (some reply))))
    (hok : reply.success = true) (hterm : args.term = (c'.raft i).currentTerm)
    (hlast : args.lastTerm = (c'.raft i).currentTerm) :
    args.lastIndex ≤ (c'.raft i).commitIndex := by
  have hi := indexed_of_reachable h
  have hcommit := commitIndex_le_step hi hst i
  rw [hT] at hterm hlast
  cases callMoves (moves_of_step hst) hk with
  | stays hold => exact (hp.acked k server args p reply hold hok hterm hlast).trans hcommit
  | processed _ ha hold =>
    subst ha
    rcases appendReply_of_step hold hst with ⟨-, hthreads⟩ | ⟨num, hrep, -⟩
    · rw [hthreads, hold] at hk
      cases hk
    rcases sent_last h hold hl hterm.symm with ⟨e, he, hindex, hlog⟩ | hsnap
    · rw [← hindex]
      exact hp.processed hn h hst hl hold hok hterm hrep he (hlog.trans hlast) hindex.le
    · have := (hi.node i).snapshot_le
      have := (hi.node i).applied_le
      omega

include hp h hst hl hl' hT in
theorem Prompt.matched_step (j : Fin n) : (c'.raft i).matchIndex j ≤ (c'.raft i).commitIndex ∨
    ∃ (k : ℕ) (args : AppendEntriesArgs n C) (p : ℕ) (reply : AppendEntriesReply),
      c'.threads[k]? = some (.sendAppendEntries i j args p (.done (some reply))) ∧
      reply.success = true ∧ args.term = (c'.raft i).currentTerm ∧
      args.lastIndex = (c'.raft i).matchIndex j := by
  have hcommit := commitIndex_le_step (indexed_of_reachable h) hst i
  have hold : (c.raft i).matchIndex j ≤ (c'.raft i).commitIndex ∨
      ∃ (k : ℕ) (args : AppendEntriesArgs n C) (p : ℕ) (reply : AppendEntriesReply),
        c'.threads[k]? = some (.sendAppendEntries i j args p (.done (some reply))) ∧
        reply.success = true ∧ args.term = (c'.raft i).currentTerm ∧
        args.lastIndex = (c.raft i).matchIndex j := by
    refine (hp.matched j).imp (fun hle => hle.trans hcommit) ?_
    rintro ⟨k, args, p, reply, hk, hok, hterm, hlast⟩
    exact ⟨k, args, p, reply, done_step (moves_of_step hst) hk, hok, hterm.trans hT.symm, hlast⟩
  cases leadMoves h hst hl' with
  | same _ _ hmatch => rwa [hmatch]
  | elected hnone => exact absurd ((election_safety h).2.1 i hl) (hT ▸ hnone i)
  | snapshotReply k server args phase hk _ heq =>
    have hmatch : (c'.raft i).matchIndex = Function.update (c.raft i).matchIndex server
        args.lastsnapshotincludeindex := by rw [heq]
    rw [hmatch, Function.update_apply]
    split_ifs with hj
    · exact Or.inl ((snapshot_sent_le h hk).trans hcommit)
    · exact hold
  | replied k server args p reply num _ hk _ _ hrep hthreads =>
    rcases (hrep.peers hl').2 with ⟨hmatch, -⟩ | ⟨-, -, -, hmatch, -⟩ | ⟨hrt, hok, hmatch, -⟩ <;>
      rw [hmatch]
    · exact hold
    · exact hold
    rw [Function.update_apply]
    split_ifs with hj
    swap
    · exact hold
    subst hj
    rcases le_total args.lastIndex ((c.raft i).matchIndex j) with hle | hle
    · rwa [max_eq_left hle]
    · -- the answer that is processed raises `matchIndex`
      refine Or.inr ⟨k, args, p, reply, ?_, hok, ?_, (max_eq_right hle).symm⟩
      · rw [hthreads]
        exact List.getElem?_set_self (List.getElem?_eq_some_iff.1 hk).1
      · exact ((sent_success h hk rfl hok).1.symm.trans hrt).trans hT.symm

include hp hn h hst hl hl' hT in
theorem Prompt.next_step {j : Fin n} {e : LogEntry C} (he : e ∈ (c'.raft i).logs)
    (hterm : e.logterm = (c'.raft i).currentTerm) (hlt : e.logindex < (c'.raft i).nextIndex j) :
    e.logindex ≤ (c'.raft i).commitIndex := by
  have hcommit := commitIndex_le_step (indexed_of_reachable h) hst i
  rw [hT] at hterm
  cases leadMoves h hst hl' with
  | same _ _ _ hnext =>
    rw [hnext] at hlt
    rcases mem_logs_step h hst hl' he with he | hindex
    · exact (hp.next j e he hterm hlt).trans hcommit
    · have := (peers_le h hl j).2
      omega
  | elected hnone => exact absurd ((election_safety h).2.1 i hl) (hT ▸ hnone i)
  | snapshotReply k server args phase hk _ heq =>
    have hlogs : (c'.raft i).logs = (c.raft i).logs := by rw [heq]
    have hnext : (c'.raft i).nextIndex = Function.update (c.raft i).nextIndex server
        (args.lastsnapshotincludeindex + 1) := by rw [heq]
    rw [hlogs] at he
    rw [hnext, Function.update_apply] at hlt
    split_ifs at hlt with hj
    · have := snapshot_sent_le h hk
      omega
    · exact (hp.next j e he hterm hlt).trans hcommit
  | replied k server args p reply num _ hk _ _ hrep =>
    obtain ⟨hs, hpeers⟩ := hrep.peers hl'
    rw [← hs.logs] at he
    have hold : e.logindex < (c.raft i).nextIndex j → e.logindex ≤ (c'.raft i).commitIndex :=
      fun hlt => (hp.next j e he hterm hlt).trans hcommit
    rcases hpeers with ⟨-, hnext⟩ | ⟨hrt, hno, hup, -, hnext⟩ | ⟨hrt, hok, -, hnext⟩ <;>
      rw [hnext] at hlt
    · exact hold hlt
    all_goals
      rw [Function.update_apply] at hlt
      split_ifs at hlt with hj
      swap
      · exact hold hlt
    · -- the refusal puts `nextIndex` back, at most over the request
      obtain ⟨hterm', hle⟩ := (reply_of_call h hk rfl).2 hno hup
      exact (hp.sent k server args p _ hk (hterm'.symm.trans hrt) e he hterm (by omega)).trans
        hcommit
    · have hterm' := (sent_success h hk rfl hok).1.symm.trans hrt
      rcases le_max_iff.1 (Int.lt_add_one_iff.1 hlt) with hle | hle
      · exact (hp.match_le h hl he hterm hle).trans hcommit
      · exact hp.processed hn h hst hl hk hok hterm' hrep he hterm hle

include hp h hst hl' hT in
theorem Prompt.sent_step {k : ℕ} {server : Fin n} {args : AppendEntriesArgs n C} {p : ℕ}
    {phase : Phase AppendEntriesReply}
    (hk : c'.threads[k]? = some (.sendAppendEntries i server args p phase))
    (hterm : args.term = (c'.raft i).currentTerm) {e : LogEntry C} (he : e ∈ (c'.raft i).logs)
    (hlog : e.logterm = (c'.raft i).currentTerm) (hle : e.logindex ≤ args.prevlogindex) :
    e.logindex ≤ (c'.raft i).commitIndex := by
  have hcommit := commitIndex_le_step (indexed_of_reachable h) hst i
  rw [hT] at hterm hlog
  rcases callMoves_request (moves_of_step hst) hk with ⟨_, hold⟩ | ⟨-, -, hb, hsame⟩
  · rcases mem_logs_step h hst hl' he with he | hindex
    · exact (hp.sent k server args p _ hold hterm e he hlog hle).trans hcommit
    · have hsent := sent_le h hold
      unfold AppendEntriesArgs.lastIndex at hsent
      omega
  · -- a new request starts below `nextIndex`
    rw [hsame] at he
    have hprev := heartBeatTo_prev hb
    exact (hp.next server e he hlog (by omega)).trans hcommit

end Step

theorem prompt_of_reachable (hn : n ≤ 3) (h : (machine n C D).Reachable init c)
    (hl : (c.raft i).status = .leader) : c.Prompt i := by
  induction h with
  | refl => cases hl
  | tail hr _ hst ih =>
    rcases (leadMoves hr hst hl).role with ⟨hl₀, hT⟩ | ⟨hnone, hs, hmatch⟩
    · have hp := ih hl₀
      exact {
        acked := fun _ _ _ _ _ => hp.acked_step hn hr hst hl₀ hT
        matched := hp.matched_step hr hst hl₀ hl hT
        next := fun _ _ => hp.next_step hn hr hst hl₀ hl hT
        sent := fun _ _ _ _ _ hk hterm _ => hp.sent_step hr hst hl hT hk hterm }
    · exact prompt_of_elected hr hst hnone hs hmatch

/-! ### Any number of nodes -/

/-- The condition on a step: in a cluster of more than three nodes, an answer that completes a
quorum for an entry of the leader's term completes the count of its heartbeat, too, and its
request carries entries. -/
def CompletesInTime (c : Cluster n C D) : Action n C D → Prop
  | .reply k => match c.threads[k]? with
    | some (.sendAppendEntries me server args p (.replied reply)) =>
      3 < n → reply.success = true → reply.term = (c.raft me).currentTerm →
      (c.raft me).status = .leader →
      (∃ e ∈ (c.raft me).logs, (c.raft me).LacksOnly server args e) →
      1 + n / 2 ≤ c.appendNums.getD p 0 + 1 ∧ args.entries ≠ []
    | _ => True
  | _ => True

instance (c : Cluster n C D) (a : Action n C D) : Decidable (c.CompletesInTime a) := by
  induction a using Action.casesOn with
  | reply k =>
    dsimp only [CompletesInTime]
    rcases c.threads[k]? with _ | _ | ⟨_, _, _, _, _ | _⟩ | _ | _ <;> infer_instance
  | _ => dsimp only [CompletesInTime]; infer_instance

theorem committable_le (hn : 3 < n) (h : (machine n C D).Reaches CompletesInTime init c)
    (hl : (c.raft i).status = .leader) {N : ℤ} (hN : (c.raft i).Committable N) :
    N ≤ (c.raft i).commitIndex := by
  induction h generalizing N with
  | refl => cases hl
  | @tail c c' a hg hc hst ih =>
    have hr := hg.reachable
    have hi := indexed_of_reachable hr
    have hcommit := commitIndex_le_step hi hst i
    have hme : (c'.raft i).me = (c.raft i).me := by
      rw [me_eq hr, me_eq (hr.trans (reachable_of_step hst))]
    obtain ⟨⟨e, he, rfl, hterm⟩, hmajority⟩ := hN
    have hmoves := leadMoves hr hst hl
    -- it was committable before
    have hold : (c.raft i).status = .leader →
        (c'.raft i).currentTerm = (c.raft i).currentTerm → e ∈ (c.raft i).logs →
        n / 2 + 1 ≤ (c.raft i).replicas e.logindex → e.logindex ≤ (c'.raft i).commitIndex :=
      fun hl₀ hT he hrep =>
        (ih hl₀ ⟨⟨e, he, rfl, hterm.trans hT⟩, hrep⟩).trans hcommit
    cases hmoves with
    | same hl₀ hT hmatch =>
      have hrep : (c'.raft i).replicas e.logindex ≤ (c.raft i).replicas e.logindex :=
        replicas_mono hme fun j hj => by rwa [hmatch] at hj
      rcases mem_logs_step hr hst hl he with he | hindex
      · exact hold hl₀ hT he (hmajority.trans hrep)
      · -- nobody else has the new entry yet
        have hnobody : ∀ j, (c.raft i).matchIndex j < e.logindex := by
          intro j
          have := (peers_le hr hl₀ j).1
          omega
        have := replicas_le_one hnobody
        omega
    | elected hnone hs =>
      rw [hs.logs] at he
      obtain ⟨j, hj⟩ := logterm_elected hr he
      exact absurd (hterm ▸ hj) (hnone j)
    | snapshotReply k server args phase hk hl₀ heq =>
      have hmatch : (c'.raft i).matchIndex = Function.update (c.raft i).matchIndex server
          args.lastsnapshotincludeindex := by rw [heq]
      have hsent := snapshot_sent_le hr hk
      by_contra hlt
      refine hlt (hold hl₀ (by rw [heq]) (by rwa [heq] at he) (hmajority.trans ?_))
      refine replicas_mono hme fun j hj => ?_
      rw [hmatch, Function.update_apply] at hj
      split_ifs at hj
      · omega
      · exact hj
    | replied k server args p reply num ha hk hl₀ hT hrep =>
      obtain ⟨hs, hpeers⟩ := hrep.peers hl
      rw [← hs.logs] at he
      have hsame : (c'.raft i).matchIndex = (c.raft i).matchIndex →
          e.logindex ≤ (c'.raft i).commitIndex := fun hmatch =>
        hold hl₀ hT he (hmajority.trans (replicas_mono hme fun j hj => by rwa [hmatch] at hj))
      rcases hpeers with ⟨hmatch, -⟩ | ⟨-, -, -, hmatch, -⟩ | ⟨hrt, hok, hmatch, -⟩
      · exact hsame hmatch
      · exact hsame hmatch
      by_contra hlt
      have hminor : (c.raft i).replicas e.logindex < n / 2 + 1 := by
        by_contra hge
        exact hlt (hold hl₀ hT he (not_lt.1 hge))
      -- the answer makes the difference
      rw [hT] at hterm
      have hlacks := lacksOnly_of_replicas hme hmatch hterm (by omega) hminor hmajority
      subst ha
      simp only [CompletesInTime, hk] at hc
      obtain ⟨hnum, hne⟩ := hc hn hok hrt hl₀ ⟨e, he, hlacks⟩
      have hterm' := (sent_success hr hk rfl hok).1.symm.trans hrt
      have hle : e.logindex ≤ args.lastIndex := hlacks.2.2.2.1
      have := hrep.lastIndex_le (reply_of_call hr hk rfl).1 hok hrt hl₀ hnum hne
        (lastTerm_eq hr hl₀ hk hterm' he hterm hle (by omega))
      omega

/-- **The incremental rule keeps up with the quorum rule.**  When `sendAppendEntries` has processed
a reply, the commit index of its node, if that still leads, is at least every index that the quorum
rule allows to commit, in particular the one that `leaderUpdateCommitIndex` chooses. -/
theorem commit_keeps_up (h : (machine n C D).Reaches CompletesInTime init c) {k : ℕ}
    {me server : Fin n} {args : AppendEntriesArgs n C} {p : ℕ} {reply : AppendEntriesReply}
    (hk : c.threads[k]? = some (.sendAppendEntries me server args p (.replied reply)))
    (hg : c.CompletesInTime (.reply k)) (hst : c.step (.reply k) = some c')
    (hl : (c'.raft me).status = .leader) :
    (∀ N, (c'.raft me).Committable N → N ≤ (c'.raft me).commitIndex) ∧
      ∃ rf, (c'.raft me).leaderUpdateCommitIndex = .ok rf ∧
        rf.commitIndex ≤ (c'.raft me).commitIndex := by
  have h' := h.tail hg hst
  have hr := h'.reachable
  have hi := indexed_of_reachable hr
  have hle : ∀ N, (c'.raft me).Committable N → N ≤ (c'.raft me).commitIndex := by
    intro N hN
    by_cases hn : 3 < n
    · exact committable_le hn h' hl hN
    · -- the leader and the node that has answered are two
      have hne := (apart_of_reachable h.reachable k me server).1 _ _ _ hk
      have htwo : 2 ≤ n := by
        have := me.isLt
        have := server.isLt
        have := Fin.val_ne_of_ne hne
        omega
      obtain ⟨j, hj⟩ := hN.exists_peer htwo
      obtain ⟨e, he, rfl, hterm⟩ := hN.1
      exact (prompt_of_reachable (not_lt.1 hn) hr hl).match_le hr hl he hterm hj
  obtain ⟨rf, heq, hsnap | hcom, -⟩ := (hi.node me).contiguous.leaderUpdateCommitIndex
  · refine ⟨hle, rf, heq, ?_⟩
    rw [hsnap]
    exact (hi.node me).snapshot_le.trans (hi.node me).applied_le
  · exact ⟨hle, rf, heq, hle _ hcom⟩

/-- Node `0` leads term `1`, and its entry has reached nodes `1` and `2` in one heartbeat. -/
def majorityRun : List (Action 5 String Unit) :=
  [.doElection 0, .deliver 0, .reply 0, .deliver 1, .reply 1, .start 0 "x", .doHeartBeat 0,
    .deliver 4, .reply 4, .deliver 5]

theorem commit_keeps_up_majorityRun : ∃ c c',
    (machine 5 String Unit).runWhere CompletesInTime init majorityRun = some c ∧
      c.step (.reply 5) = some c' ∧ (c'.raft 0).Committable 1 ∧ 1 ≤ (c'.raft 0).commitIndex := by
  have h : (((machine 5 String Unit).runWhere CompletesInTime init majorityRun).bind fun c =>
      (c.step (.reply 5)).map fun c' =>
        ((c.threads[5]?, decide (c.CompletesInTime (.reply 5))),
          ((c'.raft 0).status, (c'.raft 0).currentTerm),
          ((c'.raft 0).logs, (c'.raft 0).replicas 1))) =
      some ((some (.sendAppendEntries 0 2 ⟨1, 0, 0, 0, [⟨"x", 1, 1⟩], 0⟩ 0
          (.replied ⟨1, true, 0, .appNormal⟩)), true),
        (.leader, 1), ([⟨"x", 1, 1⟩], 3)) := by decide +kernel
  obtain ⟨c, hc, h⟩ := Option.bind_eq_some_iff.1 h
  obtain ⟨c', hc', h⟩ := Option.map_eq_some_iff.1 h
  simp only [Prod.mk.injEq, decide_eq_true_eq] at h
  obtain ⟨⟨hk, hg⟩, ⟨hl, hterm⟩, hlogs, hrep⟩ := h
  have hcom : (c'.raft 0).Committable 1 :=
    ⟨⟨⟨"x", 1, 1⟩, by rw [hlogs]; exact List.mem_singleton_self _, rfl, hterm.symm⟩, hrep.ge⟩
  have hle := (commit_keeps_up (Machine.reaches_of_runWhere hc) hk hg hc' hl).1 1 hcom
  exact ⟨c, c', hc, hc', hcom, hle⟩

/-- Nodes `1` and `2` answer to different heartbeats. -/
def twoHeartbeatsRun : List (Action 5 String Unit) :=
  [.doElection 0, .deliver 0, .reply 0, .deliver 1, .reply 1, .start 0 "x", .doHeartBeat 0,
    .deliver 4, .reply 4, .doHeartBeat 0, .deliver 9]

/-- The second answer gives the entry its majority, but is the first one of its heartbeat. -/
theorem not_commit_keeps_up : ¬ ∀ (n : ℕ) (c c' : Cluster n String Unit),
    (machine n String Unit).Reachable init c → ∀ (k : ℕ) (me server : Fin n)
      (args : AppendEntriesArgs n String) (p : ℕ) (reply : AppendEntriesReply),
      c.threads[k]? = some (.sendAppendEntries me server args p (.replied reply)) →
      reply.success = true → c.step (.reply k) = some c' → (c'.raft me).status = .leader →
      ∃ rf, (c'.raft me).leaderUpdateCommitIndex = .ok rf ∧
        rf.commitIndex ≤ (c'.raft me).commitIndex := by
  intro hall
  have h : (((machine 5 String Unit).run init twoHeartbeatsRun).bind fun c =>
      (c.step (.reply 9)).map fun c' =>
        ((c.threads[9]?, (c'.raft 0).status), ((c'.raft 0).commitIndex,
          (c'.raft 0).leaderUpdateCommitIndex.toOption.map (·.commitIndex)))) =
      some ((some (.sendAppendEntries 0 2 ⟨1, 0, 0, 0, [⟨"x", 1, 1⟩], 0⟩ 1
        (.replied ⟨1, true, 0, .appNormal⟩)), .leader), (0, some 1)) := by decide +kernel
  obtain ⟨c, hc, h⟩ := Option.bind_eq_some_iff.1 h
  obtain ⟨c', hc', h⟩ := Option.map_eq_some_iff.1 h
  simp only [Prod.mk.injEq] at h
  obtain ⟨⟨hk, hl⟩, hcommit, hrule⟩ := h
  obtain ⟨rf, heq, hle⟩ := hall 5 c c' (Machine.reachable_of_run hc) 9 0 2 _ 1 _ hk rfl hc' hl
  -- the quorum rule commits the entry, and the commit index is still zero
  rw [heq] at hrule
  have hone : rf.commitIndex = 1 := Option.some.inj hrule
  rw [hone, hcommit] at hle
  exact absurd hle (by decide)

end Cluster

end KvRaft
