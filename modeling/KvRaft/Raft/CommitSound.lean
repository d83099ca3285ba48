import KvRaft.Raft.Heartbeats
import KvRaft.Raft.Terms

/-!
# The commit index of a leader is backed by a majority

`sendAppendEntries` raises the commit index when a counter of successes reaches a majority, to the
end of the request whose answer has completed it.  The answers it counts belong to one heartbeat,
so all of them speak about the same last entry (`Cluster.Beats`), and each was sent by a node that
held this entry then (`Cluster.sent_success`).

* `Cluster.Acknowledged` : an answer that was counted, with the history of its call.
* `Cluster.commit_sound` : a raised commit index is acknowledged by a majority.
-/

namespace KvRaft

open Raft Consensus

namespace Cluster

variable {n : ℕ} {C D : Type} [DecidableEq C] {c c' : Cluster n C D}

/-- **Node `v` has acknowledged the entry `N` of term `T`** to its leader `me` in heartbeat `p`.  A
call of the heartbeat was answered with success when `v` held the entry, and the leader of the
term has counted the answer. -/
def Acknowledged (c : Cluster n C D) (me v : Fin n) (p : ℕ) (N T : ℤ) : Prop :=
  ∃ (k : ℕ) (args : AppendEntriesArgs n C) (reply : AppendEntriesReply)
    (c₀ c₁ c₂ c₃ : Cluster n C D),
    (machine n C D).Reachable init c₀ ∧ c₀.step (.deliver k) = some c₁ ∧
      c₁.threads[k]? = some (.sendAppendEntries me v args p (.replied reply)) ∧
      (c₁.raft v).Holds N T ∧
    (machine n C D).Reachable c₁ c₂ ∧ c₂.step (.reply k) = some c₃ ∧
      c₂.threads[k]? = some (.sendAppendEntries me v args p (.replied reply)) ∧
      reply.success = true ∧ reply.term = T ∧
      (c₂.raft me).status = .leader ∧ (c₂.raft me).currentTerm = T ∧
    (machine n C D).Reachable c₃ c

theorem Acknowledged.mono {me v : Fin n} {p : ℕ} {N T : ℤ} (h : c.Acknowledged me v p N T)
    (hr : (machine n C D).Reachable c c') : c'.Acknowledged me v p N T := by
  obtain ⟨k, args, reply, c₀, c₁, c₂, c₃, h₀, hdeliver, hk₁, hholds, h₁, hreply, hk₂, hok, hterm,
    hl, hT, h₃⟩ := h
  exact ⟨k, args, reply, c₀, c₁, c₂, c₃, h₀, hdeliver, hk₁, hholds, h₁, hreply, hk₂, hok, hterm,
    hl, hT, h₃.trans hr⟩

/-- A success that was processed is one that was counted, when its sender leads the term now. -/
theorem acknowledged_of_done (h : (machine n C D).Reachable init c) {k : ℕ} {me v : Fin n}
    {args : AppendEntriesArgs n C} {p : ℕ} {reply : AppendEntriesReply}
    (hk : c.threads[k]? = some (.sendAppendEntries me v args p (.done (some reply))))
    (hok : reply.success = true) (hl : (c.raft me).status = .leader)
    (hT : (c.raft me).currentTerm = args.term) (hlast : args.lastTerm = args.term) :
    c.Acknowledged me v p args.lastIndex args.term := by
  obtain ⟨c₂, c₃, h₂, hk₂, hreply, h₃⟩ := processed_reply h hk
  obtain ⟨hterm, c₀, c₁, h₀, hdeliver, hk₁, hholds, h₁⟩ := sent_success h₂ hk₂ rfl hok
  obtain ⟨hl₂, hT₂⟩ := leader_before h₂ ((reachable_of_step hreply).trans h₃) hl hT
    (sendAppendEntries_elected h₂ hk₂)
  exact ⟨k, args, reply, c₀, c₁, c₂, c₃, h₀, hdeliver, hk₁, hlast ▸ hholds, h₁, hreply, hk₂, hok,
    hterm, hl₂, hT₂, h₃⟩

/-- What a reply does that raises the commit index of its receiver. -/
theorem raised_of_step {k : ℕ} {me server : Fin n} {args : AppendEntriesArgs n C} {p : ℕ}
    {reply : AppendEntriesReply}
    (hk : c.threads[k]? = some (.sendAppendEntries me server args p (.replied reply)))
    (hst : c.step (.reply k) = some c')
    (hlt : (c.raft me).commitIndex < (c'.raft me).commitIndex) :
    reply.success = true ∧ reply.term = (c.raft me).currentTerm ∧
      (c.raft me).status = .leader ∧ 1 + n / 2 ≤ c.appendNums.getD p 0 + 1 ∧
      args.entries.getLast?.map (·.logterm) = some (c.raft me).currentTerm ∧
      (c'.raft me).commitIndex = args.lastIndex ∧ (c'.raft me).logs = (c.raft me).logs ∧
      (c'.raft me).status = .leader ∧ (c'.raft me).currentTerm = (c.raft me).currentTerm ∧
      c'.threads = c.threads.set k (.sendAppendEntries me server args p (.done (some reply))) := by
  rcases appendReply_of_step hk hst with ⟨hsame, -⟩ | ⟨num, hreply, hthreads⟩
  · rw [hsame] at hlt
    exact absurd hlt (lt_irrefl _)
  generalize c'.raft me = rf at hlt hreply ⊢
  cases hreply with
  | ignored | newer | refused | counted => exact absurd hlt (lt_irrefl _)
  | completed hterm hl hok hnum =>
    by_cases hlast : args.entries.getLast?.map (·.logterm) = some (c.raft me).currentTerm
    · have hmax : (c.raft me).commitIndex < args.lastIndex := by
        simpa [hlast, AppendEntriesArgs.lastIndex] using hlt
      refine ⟨hok, hterm, hl, hnum, hlast, ?_, rfl, hl, rfl, hthreads⟩
      rw [if_pos hlast]
      exact max_eq_right hmax.le
    · exact absurd hlt (by simp [hlast])

/-- **Commit soundness.**  Whenever `sendAppendEntries` raises the commit index of its node, the
entry there is of the node's term and in its log, and a majority, the node included, has
acknowledged it in one heartbeat. -/
theorem commit_sound (h : (machine n C D).Reachable init c) {k : ℕ} {me server : Fin n}
    {args : AppendEntriesArgs n C} {p : ℕ} {reply : AppendEntriesReply}
    (hk : c.threads[k]? = some (.sendAppendEntries me server args p (.replied reply)))
    (hst : c.step (.reply k) = some c')
    (hlt : (c.raft me).commitIndex < (c'.raft me).commitIndex) :
    (∃ e ∈ (c'.raft me).logs, e.logindex = (c'.raft me).commitIndex ∧
      e.logterm = (c'.raft me).currentTerm) ∧
    ∃ Q : Finset (Fin n), Majority Q ∧ me ∈ Q ∧ ∀ v ∈ Q, v ≠ me →
      c'.Acknowledged me v p (c'.raft me).commitIndex (c'.raft me).currentTerm := by
  obtain ⟨hok, hterm, hl, hnum, hlast, hcommit, hlogs, hl', hterm', hthreads⟩ :=
    raised_of_step hk hst hlt
  have h' := h.trans (reachable_of_step hst)
  have hi := indexed_of_reachable h
  have hb := beats_of_reachable h
  have hmem := List.mem_of_getElem? hk
  have hrt := (sent_success h hk rfl hok).1
  have hT : (c.raft me).currentTerm = args.term := hterm.symm.trans hrt
  rw [hcommit, hlogs, hterm', hT]
  have hlastTerm : args.lastTerm = args.term := by
    rw [AppendEntriesArgs.lastTerm, hlast, Option.getD_some, hT]
  refine ⟨?_, ?_⟩
  · -- the last entry lies beyond the commit index, hence beyond the snapshot point
    rw [← hlastTerm]
    refine (sent_last h hk hl hT).resolve_right fun hle => ?_
    have := (hi.node me).snapshot_le
    have := (hi.node me).applied_le
    omega
  have hball : (c.threads.map Thread.appendBallot)[k]? = some (some ⟨p, server, false⟩) := by
    simp [hk, Thread.appendBallot, Phase.succeeded]
  -- an answer that was counted before
  have hvoter : ∀ v ∈ voters (c.threads.map Thread.appendBallot) p, v ≠ me ∧
      c.Acknowledged me v p args.lastIndex args.term := by
    intro v hv
    obtain ⟨k', args', reply', hk', hok', hterm', hindex', hlast'⟩ := hb.exists_of_voter hk hv
    refine ⟨(apart_of_reachable h k' me v).1 _ _ _ hk', ?_⟩
    rw [← hindex', ← hterm']
    exact acknowledged_of_done h hk' hok' hl (hT.trans hterm'.symm)
      (by rw [hlast', hlastTerm, hterm'])
  refine ⟨_, hb.tally.majority hball ((apart_of_reachable h k me server).1 _ _ _ hk)
    (fun hme => (hvoter me hme).1 rfl) (by rwa [Fintype.card_fin]), Finset.mem_insert_self _ _,
    fun v hv hne => ?_⟩
  rcases Finset.mem_insert.1 ((Finset.mem_insert.1 hv).resolve_left hne) with rfl | hv
  · refine acknowledged_of_done h' (k := k) ?_ hok hl' (hterm'.trans hT) hlastTerm
    rw [hthreads]
    exact List.getElem?_set_self (List.getElem?_eq_some_iff.1 hk).1
  · exact (hvoter v hv).2.mono (reachable_of_step hst)

/-- Node `0` leads term `1` and its entry has reached node `1`. -/
def repliedRun : List (Action 3 String Unit) :=
  [.doElection 0, .deliver 0, .reply 0, .start 0 "x", .doHeartBeat 0, .deliver 2]

theorem commit_sound_repliedRun : ∃ c c',
    (machine 3 String Unit).run init repliedRun = some c ∧ c.step (.reply 2) = some c' ∧
      [(c.raft 0).commitIndex, (c'.raft 0).commitIndex] = [0, 1] ∧
      ∃ Q : Finset (Fin 3), Majority Q ∧ 0 ∈ Q ∧ ∀ v ∈ Q, v ≠ 0 →
        c'.Acknowledged 0 v 0 (c'.raft 0).commitIndex (c'.raft 0).currentTerm := by
  have h : (((machine 3 String Unit).run init repliedRun).bind fun c =>
      (c.step (.reply 2)).map fun c' =>
        ([(c.raft 0).commitIndex, (c'.raft 0).commitIndex], c.threads[2]?)) =
      some ([0, 1], some (.sendAppendEntries 0 1 ⟨1, 0, 0, 0, [⟨"x", 1, 1⟩], 0⟩ 0
        (.replied ⟨1, true, 0, .appNormal⟩))) := by decide +kernel
  obtain ⟨c, hc, h⟩ := Option.bind_eq_some_iff.1 h
  obtain ⟨c', hc', h⟩ := Option.map_eq_some_iff.1 h
  obtain ⟨hcommit, hk⟩ := Prod.mk.inj h
  refine ⟨c, c', hc, hc', hcommit, (commit_sound (Machine.reachable_of_run hc) hk hc' ?_).2⟩
  obtain ⟨h₀, h₁⟩ : (c.raft 0).commitIndex = 0 ∧ (c'.raft 0).commitIndex = 1 := by
    simpa using hcommit
  rw [h₀, h₁]
  decide

end Cluster

end KvRaft
