import KvRaft.Consensus.Local
import KvRaft.Raft.Durable
import KvRaft.Raft.Refinement

/-!
# Simulation of elections

A step of the cluster is followed by steps of one node of the protocol, which the node of the
cluster has saved unless it has only learned of a newer term (`Cluster.Follows`).

Most sections of a node only bring it to a newer term (`Cluster.Refines.quiet`).  Casting a vote
(`Cluster.Refines.cast`) and winning an election (`Cluster.Refines.winElection`) are steps of
the abstract protocol; a vote that is granted when the term has a leader already is none.
-/

namespace KvRaft

open Consensus Raft

namespace Cluster

variable {n : ℕ} {C D : Type} {c c' : Cluster n C D}
  {votes votes' : Fin n → ℤ → Option (Fin n)} {polls polls' : List (Fin n × ℤ)}
  {A A' : State (Fin n) (LogEntry C)}

/-- **How the protocol follows a step**: nothing happens, or node `i` takes steps of its own, and
has saved what it did unless it has only learned of a term. -/
inductive Follows (c c' : Cluster n C D) (A : State (Fin n) (LogEntry C)) :
    State (Fin n) (LogEntry C) → Prop
  | same : (∀ j, c'.raft j = c.raft j) → Follows c c' A A
  | node (i : Fin n) {A' : State (Fin n) (LogEntry C)} : Local tm i A A' →
      DurableOn id (c'.raft i) ∨ A' = A.advance i (A'.term i) →
      (∀ j, j ≠ i → c'.raft j = c.raft j) → Follows c c' A A'

/-- A node learns of a term. -/
theorem Follows.learn {i : Fin n} {T : ℤ} {rf : Raft n C D} (hT : A.term i ≤ T)
    (hraft : ∀ j, c'.raft j = if j = i then rf else c.raft j) :
    Follows c c' A (A.advance i T) := by
  refine .node i (.advance hT) (Or.inr ?_) fun j hj => by rw [hraft, if_neg hj]
  rw [State.advance_term, if_pos rfl]

/-- A node saves what it did. -/
theorem Follows.act {i : Fin n} {rf : Raft n C D} (h : Local tm i A A') (hd : DurableOn id rf)
    (hraft : ∀ j, c'.raft j = if j = i then rf else c.raft j) : Follows c c' A A' := by
  refine .node i h (Or.inl ?_) fun j hj => by rw [hraft, if_neg hj]
  rwa [hraft, if_pos rfl]

/-! ### Steps of one process -/

/-- A step of process `i`; `hreign` and `helected` say how leadership evolves. -/
theorem Refines.update (hr : Refines c votes A) (hinv : Inv tm A') (hg : Grows A A') (i : Fin n)
    (hprocs : ∀ j, j ≠ i → c'.procs j = c.procs j)
    (hother : ∀ j, j ≠ i → A'.term j = A.term j ∧ A'.log j = A.log j)
    (hnode : NodeRefines A' i (c'.procs i))
    (hthread : ∀ t ∈ c'.threads, t ∈ c.threads ∨ ThreadRefines A' t)
    (hreign : ∀ T r, A'.reign T = some r → (r.leader, T) ∈ c'.elections ∧
      ContiguousFrom 0 r.log ∧ r.log.length ≤ A'.ack r.leader T)
    (helected : ∀ j T, (j, T) ∈ c'.elections → A'.reign T ≠ none)
    (hmono : ∀ v T x, votes v T = some x → votes' v T = some x)
    (hvote : ∀ v T x, votes' v T = some x →
      votes v T = some x ∨ A'.reign T ≠ none ∨ ∃ l, A'.vote v T = some (x, l))
    (hrec : ∀ v T x l, A'.vote v T = some (x, l) →
      A.vote v T = some (x, l) ∨ 0 < T ∧ votes' v T = some x)
    (htally : Tally (c'.threads.map Thread.appendBallot) c'.appendNums fun _ => 0)
    (hround : Rounds (c'.threads.map Thread.round)) : Refines c' votes' A' where
  inv := hinv
  node j := by
    by_cases hj : j = i
    · exact hj ▸ hnode
    · rw [hprocs j hj]
      exact (hr.node j).mono hg (hother j hj).1 (hother j hj).2
  thread t ht := (hthread t ht).elim (fun h => (hr.thread t h).mono hg) id
  reign := hreign
  elected := helected
  vote v T x h := by
    rcases hvote v T x h with h | h
    · rcases hr.vote v T x h with hT | ⟨l, hl⟩
      · obtain ⟨r, hr⟩ := Option.ne_none_iff_exists'.1 hT
        obtain ⟨r', hr', -⟩ := hg.reign T r hr
        exact Or.inl (by simp [hr'])
      · exact Or.inr ⟨l, hg.vote _ _ _ hl⟩
    · exact h
  vote_recorded v T x l h := by
    rcases hrec v T x l h with h | h
    · obtain ⟨hT, hv⟩ := hr.vote_recorded v T x l h
      exact ⟨hT, hmono _ _ _ hv⟩
    · exact h
  tally := htally
  round := hround

/-- Leadership does not change. -/
theorem Refines.same_reign (hr : Refines c votes A) (hg : Grows A A')
    (hreign : A'.reign = A.reign) (helec : c'.elections = c.elections) :
    (∀ T r, A'.reign T = some r → (r.leader, T) ∈ c'.elections ∧
      ContiguousFrom 0 r.log ∧ r.log.length ≤ A'.ack r.leader T) ∧
    ∀ j T, (j, T) ∈ c'.elections → A'.reign T ≠ none := by
  rw [hreign, helec]
  refine ⟨fun T r h => ?_, hr.elected⟩
  obtain ⟨h₁, h₂, h₃⟩ := hr.reign T r h
  exact ⟨h₁, h₂, h₃.trans (hg.ack _ _)⟩

/-- A node that moves to a newer term and keeps its log. -/
theorem NodeRefines.learn {i : Fin n} {p p' : Process n C D} (h : NodeRefines A i p)
    (hg : Grows A A') (hterm : A'.term i = p'.raft.currentTerm) (hlogA : A'.log i = A.log i)
    (hT : p.raft.currentTerm ≤ p'.raft.currentTerm) (hlog : p.raft.SameEntries p'.raft)
    (hcommit : Certified A p'.raft.currentTerm p'.raft.logs p'.raft.commitIndex)
    (hemitted : ∀ msg ∈ p'.emitted, CommittedCommand A msg) : NodeRefines A' i p' where
  term := hterm
  log := by rw [hlogA, hlog.logs, h.log]
  term_nonneg := h.term_nonneg.trans hT
  snapshotIndex := hlog.lastSnapshotIncludeIndex.trans h.snapshotIndex
  snapshotTerm := hlog.lastSnapshotIncludeTerm.trans h.snapshotTerm
  contiguous := by
    unfold Contiguous
    rw [hlog.logs, hlog.lastSnapshotIncludeIndex]
    exact h.contiguous
  commit := hcommit.mono hg le_rfl
  emitted msg hm := (hemitted msg hm).mono hg

/-- A section of node `i` that only brings it to a newer term, and possibly extends what it
knows to be committed. -/
theorem Refines.quiet (hr : Refines c votes A) {i : Fin n} {p : Process n C D}
    (hprocs : ∀ j, c'.procs j = if j = i then p else c.procs j)
    (hT : (c.raft i).currentTerm ≤ p.raft.currentTerm) (hlog : (c.raft i).SameEntries p.raft)
    (hcommit : Certified A p.raft.currentTerm p.raft.logs p.raft.commitIndex)
    (hemitted : ∀ msg ∈ p.emitted, CommittedCommand A msg)
    (helec : c'.elections = c.elections)
    (hthread : ∀ t ∈ c'.threads, t ∈ c.threads ∨ ThreadRefines A t)
    (hmono : ∀ v T x, votes v T = some x → votes' v T = some x)
    (hvote : ∀ v T x, votes' v T = some x →
      votes v T = some x ∨ A.reign T ≠ none ∨ ∃ l, A.vote v T = some (x, l))
    (htally : Tally (c'.threads.map Thread.appendBallot) c'.appendNums fun _ => 0)
    (hround : Rounds (c'.threads.map Thread.round)) :
    Follows c c' A (A.advance i p.raft.currentTerm) ∧
      Refines c' votes' (A.advance i p.raft.currentTerm) := by
  have hn := hr.node i
  have hraft : ∀ j, c'.raft j = if j = i then p.raft else c.raft j := by
    intro j
    rw [raft, hprocs]
    split_ifs <;> rfl
  have hle : A.term i ≤ p.raft.currentTerm := hn.term.trans_le hT
  have hg := hr.inv.grows (.advance i _ hle)
  have hnode : NodeRefines (A.advance i p.raft.currentTerm) i p :=
    hn.learn hg (by rw [State.advance_term, if_pos rfl]) rfl hT hlog hcommit hemitted
  refine ⟨.learn hle hraft,
    hr.update (hr.inv.advance hle) hg i (fun j hj => by rw [hprocs, if_neg hj])
    (fun j hj => ⟨by rw [State.advance_term, if_neg hj], rfl⟩)
    (by rwa [hprocs, if_pos rfl]) (fun t ht => (hthread t ht).imp id fun h => h.mono hg)
    (hr.same_reign hg rfl helec).1 (hr.same_reign hg rfl helec).2 hmono hvote
    (fun v T x l h => Or.inl h) htally hround⟩

/-- What a node that learns of a newer term knows to be committed. -/
theorem NodeRefines.commit_of_sameLog {i : Fin n} {p : Process n C D} {rf : Raft n C D}
    (h : NodeRefines A i p) (hT : p.raft.currentTerm ≤ rf.currentTerm) (hlog : p.raft.SameLog rf) :
    Certified A rf.currentTerm rf.logs rf.commitIndex := by
  rw [hlog.logs, hlog.commitIndex]
  exact h.commit.mono (Grows.refl A) hT

/-! ### Votes -/

/-- After a section of node `i`, only its own vote in its current term may be new. -/
theorem Elections.record_cases (hi : Elections c votes polls) {i : Fin n} {rf : Raft n C D}
    (hraft : ∀ j, c'.raft j = if j = i then rf else c.raft j) {v : Fin n} {T : ℤ} {x : Fin n}
    (h : recordVotes c' votes v T = some x) :
    votes v T = some x ∨ v = i ∧ T = rf.currentTerm ∧ rf.votedFor = some x := by
  unfold recordVotes at h
  rw [hraft] at h
  split_ifs at h with hv hT hT
  · exact Or.inr ⟨hv, hT, h⟩
  · exact Or.inl h
  · rw [hT, hi.now]
    exact Or.inl h
  · exact Or.inl h

/-- A section of node `i` that brings it to a term without a leader and casts its vote there,
for itself or for a candidate whose log is at least as up to date. -/
theorem Refines.cast (hr : Refines c votes A) (hi : Elections c votes polls) {i x : Fin n}
    {p : Process n C D}
    (hprocs : ∀ j, c'.procs j = if j = i then p else c.procs j)
    (hk : ∀ j, (c.raft j).KeepsVote (c'.raft j)) (hlog : (c.raft i).SameLog p.raft)
    (hsaved : DurableOn id p.raft) (hemitted : ∀ msg ∈ p.emitted, CommittedCommand A msg)
    (helec : c'.elections = c.elections) (hpos : 0 < p.raft.currentTerm)
    (hvoted : p.raft.votedFor = some x) (hreign : A.reign p.raft.currentTerm = none)
    (hnone : A.vote i p.raft.currentTerm = none)
    (hx : x = i ∨ ∃ l, A.vote x p.raft.currentTerm = some (x, l) ∧ AtLeast tm l (A.log i))
    (hthread : ∀ t ∈ c'.threads, t ∈ c.threads ∨ ThreadRefines A t ∨
      ThreadRefines ((A.advance i p.raft.currentTerm).castVote i x) t)
    (htally : Tally (c'.threads.map Thread.appendBallot) c'.appendNums fun _ => 0)
    (hround : Rounds (c'.threads.map Thread.round)) :
    Follows c c' A ((A.advance i p.raft.currentTerm).castVote i x) ∧
      Refines c' (recordVotes c' votes) ((A.advance i p.raft.currentTerm).castVote i x) := by
  have hn := hr.node i
  have hraft : ∀ j, c'.raft j = if j = i then p.raft else c.raft j := by
    intro j
    rw [raft, hprocs]
    split_ifs <;> rfl
  have hT : (c.raft i).currentTerm ≤ p.raft.currentTerm := by
    have := (hk i).term_le
    rwa [hraft, if_pos rfl] at this
  have hle : A.term i ≤ p.raft.currentTerm := hn.term.trans_le hT
  have hterm : (A.advance i p.raft.currentTerm).term i = p.raft.currentTerm := by
    rw [State.advance_term, if_pos rfl]
  have hinv := hr.inv.advance hle
  have hstep : Step tm (A.advance i p.raft.currentTerm)
      ((A.advance i p.raft.currentTerm).castVote i x) :=
    .vote i x (by rwa [hterm]) (by rwa [hterm]) (by rwa [hterm])
  have hg := (hr.inv.grows (.advance i _ hle)).trans (hinv.grows hstep)
  have hnode : NodeRefines ((A.advance i p.raft.currentTerm).castVote i x) i p :=
    hn.learn hg hterm rfl hT hlog.toSameEntries (hn.commit_of_sameLog hT hlog) hemitted
  have hnew : recordVotes c' votes i p.raft.currentTerm = some x := by
    rw [recordVotes, hraft, if_pos rfl, if_pos rfl, hvoted]
  have hlocal : Local tm i A ((A.advance i p.raft.currentTerm).castVote i x) :=
    (Local.advance hle).trans (.vote (by rwa [hterm]) (by rwa [hterm]) (by rwa [hterm]))
  refine ⟨.act hlocal hsaved hraft,
    hr.update (hinv.step hstep) hg i (fun j hj => by rw [hprocs, if_neg hj])
    (fun j hj => ⟨by rw [State.castVote_term, State.advance_term, if_neg hj], rfl⟩)
    (by rwa [hprocs, if_pos rfl])
    (fun t ht => (hthread t ht).imp id fun h => h.elim (fun h => h.mono hg) id)
    (hr.same_reign hg rfl helec).1 (hr.same_reign hg rfl helec).2
    (fun v T y => hi.record_mono hk) (fun v T y h => ?_)
    (fun v T y l h => ?_) htally hround⟩
  · rcases hi.record_cases hraft h with h | ⟨rfl, rfl, hy⟩
    · exact Or.inl h
    · obtain rfl : x = y := Option.some.inj (hvoted.symm.trans hy)
      exact Or.inr (Or.inr ⟨_, by rw [State.castVote_vote, if_pos ⟨rfl, hterm.symm⟩]⟩)
  · rw [State.castVote_vote, hterm] at h
    split_ifs at h with hv
    · obtain ⟨rfl, rfl⟩ := hv
      obtain ⟨rfl, -⟩ := Prod.mk.inj (Option.some.inj h)
      exact Or.inr ⟨hpos, hnew⟩
    · exact Or.inl h

/-- Threads that belong to no heartbeat may be started. -/
theorem Refines.heartbeats_append (hr : Refines c votes A) {l : List (Thread n C D)}
    (hl : ∀ t ∈ l, t.appendBallot = none ∧ t.round = none) :
    Tally ((c.threads ++ l).map Thread.appendBallot) c.appendNums (fun _ => 0) ∧
      Rounds ((c.threads ++ l).map Thread.round) := by
  rw [List.map_append, List.map_append]
  refine ⟨hr.tally.skip fun b hb => ?_, fun x y hx hy => hr.round x y ?_ ?_⟩
  · obtain ⟨t, ht, rfl⟩ := List.mem_map.1 hb
    exact (hl t ht).1
  · refine (List.mem_append.1 hx).resolve_right fun hx => ?_
    obtain ⟨t, ht, hx⟩ := List.mem_map.1 hx
    simp [(hl t ht).2] at hx
  · refine (List.mem_append.1 hy).resolve_right fun hy => ?_
    obtain ⟨t, ht, hy⟩ := List.mem_map.1 hy
    simp [(hl t ht).2] at hy

/-- A thread may change without leaving its heartbeat. -/
theorem Refines.heartbeats_set (hr : Refines c votes A) {k : ℕ} {t : Thread n C D}
    (t' : Thread n C D)
    (hk : c.threads[k]? = some t) (hb : t'.appendBallot = t.appendBallot)
    (hround : t'.round = t.round) :
    Tally ((c.threads.set k t').map Thread.appendBallot) c.appendNums (fun _ => 0) ∧
      Rounds ((c.threads.set k t').map Thread.round) := by
  rw [map_set_of_eq _ hk hb, map_set_of_eq _ hk hround]
  exact ⟨hr.tally, hr.round⟩

theorem Refines.vote_none (hr : Refines c votes A) {v : Fin n} {T : ℤ} (h : votes v T = none) :
    A.vote v T = none := by
  cases hv : A.vote v T with
  | none => rfl
  | some x =>
    have := (hr.vote_recorded v T x.1 x.2 hv).2
    simp [h] at this

theorem Refines.doElection (hr : Refines c votes A) (hi : Elections c votes polls) {i : Fin n}
    {rf : Raft n C D} {calls : List (Fin n × RequestVoteArgs n)}
    (h : (c.raft i).doElection = some (rf, calls))
    (hc' : c' = { (c.setRaft i rf).spawn (voteThreads i c.votedNums.length calls) with
      votedNums := c.votedNums ++ [1] }) :
    ∃ A', Follows c c' A A' ∧ Refines c' (recordVotes c' votes) A' := by
  obtain ⟨hlog, hkeep, hterm, hvoted, hcalls⟩ := Raft.doElection_eq h
  rw [hi.me] at hvoted
  have hn := hr.node i
  have hprocs : ∀ j, c'.procs j = if j = i then { c.procs i with raft := rf } else c.procs j := by
    simp [hc', setRaft_procs]
  have hraft : ∀ j, c'.raft j = if j = i then rf else c.raft j := by simp [hc']
  have hk := keeps_of_update hkeep hraft
  have hnone : votes i rf.currentTerm = none := hi.future i _ (by omega)
  have hpos : 0 < rf.currentTerm := by
    have : 0 ≤ (c.raft i).currentTerm := hn.term_nonneg
    omega
  have hthreads : c'.threads = c.threads ++ voteThreads i c.votedNums.length calls := by
    rw [hc']
    rfl
  obtain ⟨htally, hround⟩ := hr.heartbeats_append (l := voteThreads i c.votedNums.length calls)
    fun t ht => by
      obtain ⟨call, -, rfl⟩ := List.mem_map.1 ht
      exact ⟨rfl, rfl⟩
  -- the requests carry the log the candidate votes with
  have hnew : ∀ {B : State (Fin n) (LogEntry C)},
      (B.reign rf.currentTerm ≠ none ∨ B.vote i rf.currentTerm = some (i, A.log i)) →
      ∀ t ∈ c'.threads, t ∈ c.threads ∨ ThreadRefines B t := by
    intro B hB t ht
    rw [hthreads, List.mem_append] at ht
    refine ht.imp id fun ht => ?_
    obtain ⟨call, hcall, rfl⟩ := List.mem_map.1 ht
    rw [hcalls] at hcall
    obtain ⟨j, -, rfl⟩ := List.mem_map.1 hcall
    refine hB.imp (by rw [hterm]; exact id) fun hv =>
      ⟨A.log i, by rw [hi.me, ← hterm]; exact hv, ?_, ?_⟩
    · rw [hn.log]
      exact hn.getLastLogIndex
    · rw [hn.log]
      exact hn.getLastLogTerm
  have htally' : Tally (c'.threads.map Thread.appendBallot) c'.appendNums fun _ => 0 := by
    rw [hthreads, hc']
    exact htally
  cases hreign : A.reign rf.currentTerm with
  | none =>
    exact ⟨_, hr.cast hi hprocs (fun j => (hk j).toKeepsVote) hlog (durableOn_doElection h)
      hn.emitted (by rw [hc']; rfl) hpos hvoted hreign (hr.vote_none hnone) (Or.inl rfl)
      (fun t ht => (hnew (Or.inr (by rw [State.castVote_vote, State.advance_term]; simp)) t ht).imp
        id Or.inr)
      htally' (hthreads ▸ hround)⟩
  | some r =>
    have hT : A.reign rf.currentTerm ≠ none := by simp [hreign]
    refine ⟨_, hr.quiet hprocs (by simpa using hkeep.term_le) hlog.toSameEntries
      (hn.commit_of_sameLog hkeep.term_le hlog) hn.emitted (by rw [hc']; rfl) (hnew (Or.inl hT))
      (fun v T x => hi.record_mono fun j => (hk j).toKeepsVote) (fun v T x hv => ?_)
      htally' (hthreads ▸ hround)⟩
    refine (hi.record_cases hraft hv).imp id ?_
    rintro ⟨rfl, rfl, -⟩
    exact Or.inl hT

/-- A vote request is handled: the voter refuses, repeats its vote, or casts a new one, which
the protocol only sees while the term has no leader. -/
theorem Refines.requestVote [DecidableEq C] (hr : Refines c votes A)
    (hi : Elections c votes polls) {k p : ℕ} {me server : Fin n} {args : RequestVoteArgs n}
    {rf : Raft n C D} {r : RequestVoteReply}
    (hk : c.threads[k]? = some (.sendRequestVote me server args p .calling))
    (h : (c.raft server).requestVote args = .ok (rf, r))
    (hc' : c' = (c.setRaft server rf).setThread k
      (.sendRequestVote me server args p (.replied r))) :
    ∃ A', Follows c c' A A' ∧ Refines c' (recordVotes c' votes) A' := by
  obtain ⟨hlog, hkeep, hgrant, hrefuse⟩ := Raft.requestVote_cases h
  have hn := hr.node server
  have hprocs : ∀ j, c'.procs j =
      if j = server then { c.procs server with raft := rf } else c.procs j := by
    simp [hc', setRaft_procs]
  have hraft : ∀ j, c'.raft j = if j = server then rf else c.raft j := by simp [hc']
  have hkeeps := keeps_of_update hkeep hraft
  have hthreads : c'.threads =
      c.threads.set k (.sendRequestVote me server args p (.replied r)) := by rw [hc']; rfl
  have hmem := List.mem_of_getElem? hk
  -- the thread keeps its request
  have hnew : ∀ t ∈ c'.threads, t ∈ c.threads ∨ ThreadRefines A t := by
    intro t ht
    rw [hthreads] at ht
    refine (List.mem_or_eq_of_mem_set ht).imp id ?_
    rintro rfl
    have := hr.thread _ hmem
    exact this
  obtain ⟨htally, hround⟩ : Tally (c'.threads.map Thread.appendBallot) c'.appendNums (fun _ => 0) ∧
      Rounds (c'.threads.map Thread.round) := by
    rw [hthreads, hc']
    exact hr.heartbeats_set _ hk rfl rfl
  have helec : c'.elections = c.elections := by rw [hc']; rfl
  have hmono := fun v T x => hi.record_mono (fun j => (hkeeps j).toKeepsVote) (v := v) (T := T)
    (x := x)
  have hquiet := hr.quiet hprocs (by simpa using hkeep.term_le) hlog.toSameEntries
    (hn.commit_of_sameLog hkeep.term_le hlog) hn.emitted helec hnew hmono
  cases hg : r.votegranted with
  | false =>
    refine ⟨_, hquiet (fun v T x hv => ?_) htally hround⟩
    rcases hi.record_cases hraft hv with hv | ⟨rfl, rfl, hx⟩
    · exact Or.inl hv
    · obtain ⟨ht, hvoted⟩ := hrefuse hg (by simp [hx])
      rw [ht, hi.now, ← hvoted, hx]
      exact Or.inl rfl
  | true =>
    obtain ⟨-, hterm, hvoted, hup⟩ := hgrant hg
    obtain ⟨-, hcand, -⟩ := hi.thread _ hmem
    rw [hcand] at hvoted
    by_cases hseen : A.reign rf.currentTerm ≠ none ∨
        ∃ l, A.vote server rf.currentTerm = some (me, l)
    · refine ⟨_, hquiet (fun v T x hv => (hi.record_cases hraft hv).imp id ?_) htally hround⟩
      rintro ⟨rfl, rfl, hx⟩
      obtain rfl := Option.some.inj (hvoted.symm.trans hx)
      exact hseen
    · rw [not_or, not_not] at hseen
      obtain ⟨hreign, hfresh⟩ := hseen
      -- the candidate's request speaks about the log it voted with
      obtain ⟨l, hl, hidx, hlast⟩ := (hr.thread _ hmem).resolve_left (by rw [← hterm, hreign]; simp)
      have hnone : A.vote server rf.currentTerm = none := by
        cases hv : A.vote server rf.currentTerm with
        | none => rfl
        | some x =>
          have := hmono _ _ _ (hr.vote_recorded _ _ x.1 x.2 hv).2
          rw [recordVotes, hraft, if_pos rfl, if_pos rfl, hvoted] at this
          obtain rfl : me = x.1 := Option.some.inj this
          exact absurd ⟨x.2, hv⟩ hfresh
      have hat : AtLeast tm l (A.log server) := by
        rw [hn.log]
        have hlt := hn.getLastLogTerm
        have hli := hn.getLastLogIndex
        simp only [procs_raft] at hlt hli
        simp only [Raft.upToDate, hidx, hlast, hlt, hli, decide_eq_true_eq] at hup
        refine hup.imp id fun h => ⟨h.1.symm, ?_⟩
        have := h.2
        simp only [procs_raft]
        omega
      exact ⟨_, hr.cast hi hprocs (fun j => (hkeeps j).toKeepsVote) hlog
        (durableOn_requestVote h) hn.emitted helec
        (by rw [hterm]; exact (hr.vote_recorded _ _ _ _ hl).1) hvoted hreign hnone
        (Or.inr ⟨l, by rw [hterm]; exact hl, hat⟩) (fun t ht => (hnew t ht).imp id Or.inl)
        htally hround⟩

theorem NodeRefines.log_contiguous {i : Fin n} {p : Process n C D} (h : NodeRefines A i p) :
    ContiguousFrom 0 (A.log i) := by
  rw [h.log, ← h.snapshotIndex]
  exact h.contiguous

/-- A candidate becomes leader: its term has no leader yet, and a majority has voted for it. -/
theorem Refines.winElection (hr : Refines c votes A) (hi : Elections c votes polls)
    (hi' : Elections c' (recordVotes c' votes) polls') {k p : ℕ} {me server : Fin n}
    {args : RequestVoteArgs n} {r : RequestVoteReply} {rf : Raft n C D}
    (hk : c.threads[k]? = some (.sendRequestVote me server args p (.replied r)))
    (hlog : (c.raft me).SameLog rf) (hterm : rf.currentTerm = (c.raft me).currentTerm)
    (hvoted : rf.votedFor = (c.raft me).votedFor) (hsaved : DurableOn id rf)
    (hc' : c' = { (c.setRaft me rf).setThread k
        (.sendRequestVote me server args p (.done (some r))) with
      votedNums := c.votedNums.set p 0
      elections := c.elections ++ [(me, rf.currentTerm)] }) :
    ∃ A', Follows c c' A A' ∧ Refines c' (recordVotes c' votes) A' := by
  have hn := hr.node me
  have hprocs : ∀ j, c'.procs j = if j = me then { c.procs me with raft := rf } else c.procs j := by
    simp [hc', setRaft_procs]
  have hraft : ∀ j, c'.raft j = if j = me then rf else c.raft j := by simp [hc']
  have hkeeps : ∀ j, (c.raft j).KeepsVote (c'.raft j) := by
    intro j
    rw [hraft]
    split_ifs with hj
    · exact hj ▸ ⟨hlog.me, hterm.ge, fun _ _ => hvoted⟩
    · exact (Raft.Keeps.refl _).toKeepsVote
  have habs : ∀ j, (c.raft j).Abstains (c'.raft j) :=
    abstains_of_update (.of_eq hterm hvoted) hraft
  have hthreads : c'.threads =
      c.threads.set k (.sendRequestVote me server args p (.done (some r))) := by rw [hc']; rfl
  have helec : c'.elections = c.elections ++ [(me, rf.currentTerm)] := by rw [hc']
  have hT : A.term me = rf.currentTerm := hn.term.trans hterm.symm
  have hreign : A.reign (A.term me) = none := by
    cases hs : A.reign (A.term me) with
    | none => rfl
    | some r₀ =>
      -- the histories of elections would name the term twice
      have hold := (hr.reign _ r₀ hs).1
      have hnodup := hi'.nodup
      rw [helec, List.map_append, List.nodup_append] at hnodup
      exact absurd (hnodup.2.2 _ (List.mem_map_of_mem hold) rf.currentTerm (by simp)) (by simp [hT])
  obtain ⟨hself, Q, hQ, hQv⟩ := hi'.majority me rf.currentTerm (by simp [helec])
  have hvotes : ∀ v, recordVotes c' votes v rf.currentTerm = some me →
      ∃ l, A.vote v (A.term me) = some (me, l) := by
    intro v hv
    rw [hT]
    refine (hr.vote v _ me (hi.record_of_abstains habs hv)).resolve_left ?_
    simp [← hT, hreign]
  obtain ⟨l, hl⟩ := hvotes me hself
  have hpos : 0 < A.term me := (hr.vote_recorded _ _ _ _ hl).1
  have hstep : Step tm A _ := .elect me l Q hpos hreign hl hQ fun v hv => hvotes v (hQv v hv)
  have hlocal : Local tm me A _ := .elect hpos hreign hl hQ fun v hv => hvotes v (hQv v hv)
  have hg := hr.inv.grows hstep
  obtain ⟨htally, hround⟩ := hr.heartbeats_set
    (.sendRequestVote me server args p (.done (some r))) hk rfl rfl
  refine ⟨_, .act hlocal hsaved hraft,
    hr.update (hr.inv.step hstep) hg me (fun j hj => by rw [hprocs, if_neg hj])
    (fun j _ => ⟨rfl, rfl⟩) ?_ (fun t ht => ?_) (fun T r₁ hr₁ => ?_) (fun j T hj => ?_)
    (fun v T x => hi.record_mono hkeeps) (fun v T x h => Or.inl (hi.record_of_abstains habs h))
    (fun v T x l h => Or.inl h) (by rw [hthreads, hc']; exact htally) (by rwa [hthreads])⟩
  · rw [hprocs, if_pos rfl]
    exact hn.learn hg hT rfl hterm.ge hlog.toSameEntries
      (hn.commit_of_sameLog hterm.ge hlog) hn.emitted
  · rw [hthreads] at ht
    refine (List.mem_or_eq_of_mem_set ht).imp id ?_
    rintro rfl
    exact (hr.thread _ (List.mem_of_getElem? hk)).mono hg
  · by_cases hTc : T = A.term me
    · subst hTc
      obtain rfl : (⟨me, A.log me, A.log me⟩ : Reign (Fin n) (LogEntry C)) = r₁ := by
        simpa using hr₁
      refine ⟨by simp [helec, hT], hn.log_contiguous, ?_⟩
      rw [State.setAck_ack, if_pos ⟨rfl, rfl⟩]
      exact le_max_right _ _
    · obtain ⟨h₁, h₂, h₃⟩ := hr.reign T r₁ (by simpa [hTc] using hr₁)
      exact ⟨by simp [helec, h₁], h₂, h₃.trans (hg.ack _ _)⟩
  · rw [helec, List.mem_append] at hj
    rcases hj with hj | hj
    · obtain ⟨r₁, hr₁⟩ := Option.ne_none_iff_exists'.1 (hr.elected j T hj)
      obtain ⟨r₂, hr₂, -⟩ := hg.reign T r₁ hr₁
      simp [hr₂]
    · obtain ⟨rfl, rfl⟩ := Prod.mk.inj (List.mem_singleton.1 hj)
      simp [hT]

end Cluster

end KvRaft
