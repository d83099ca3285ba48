import KvRaft.Raft.CrashElection
import KvRaft.Raft.Safety

/-!
# Safety over restarts

* `Crashing.Recovers` : the protocol stands where the disks stand, and seen from there the cluster
  refines it; nodes may be in newer terms than their disks.
* `Crashing.recovers_step`, `Crashing.recovers_restart` : steps and restarts keep this, and take
  nothing back of what the protocol remembers.
* `Crashing.leaders_hold_committed` : what a node takes to be committed is in the logs of all later
  leaders.
* `Crashing.applied_agree` : commands that are handed out under one index at any two times, by any
  two processes, are the same.

The condition on the runs is the one that a cluster without restarts needs.  That a node may forget
a term that it has not saved is no further condition: what it has done in that term it has saved,
so the protocol may let it stay in the older one.
-/

namespace KvRaft

open Consensus Raft

namespace Crashing

open Cluster

variable {n : ℕ} {C D : Type} {s s' s₁ s₂ : Crashing n C D}
  {votes : Fin n → ℤ → Option (Fin n)} {polls : List (Fin n × ℤ)}
  {A : State (Fin n) (LogEntry C)}

/-- The condition on a step: snapshots are not taken, and no request leaves a stale suffix. -/
def NoStaleSuffix (s : Crashing n C D) : CrashAction n C D → Prop
  | .act a => s.cluster.NoStaleSuffix a
  | .restart _ => True

instance (s : Crashing n C D) (a : CrashAction n C D) : Decidable (s.NoStaleSuffix a) := by
  induction a using CrashAction.casesOn <;> dsimp only [NoStaleSuffix] <;> infer_instance

/-- The terms that the nodes are in. -/
def terms (c : Cluster n C D) (i : Fin n) : ℤ := (c.raft i).currentTerm

/-- **The relation between a cluster whose nodes restart and the protocol.** -/
structure Recovers (c : Cluster n C D) (votes : Fin n → ℤ → Option (Fin n))
    (A : State (Fin n) (LogEntry C)) : Prop where
  inv : Inv tm A
  disk : ∀ i, A.term i = (c.raft i).restored.currentTerm
  term_nonneg : ∀ i, 0 ≤ A.term i
  entries : ∀ i, DurableOn entryFields (c.raft i)
  refines : Refines c votes (A.withTerm (terms c))

/-- What is known about a reachable state: the votes and the polls are those that were recorded, and
`A` is what the disks hold. -/
def Known (s : Crashing n C D) (A : State (Fin n) (LogEntry C)) : Prop :=
  ∃ votes polls, Elections s.cluster votes polls ∧ Recorded s.cluster votes ∧
    Recovers s.cluster votes A

theorem known_init : Known (init : Crashing n C D) State.init :=
  ⟨_, _, elections_init, recorded_init,
    ⟨inv_init, fun _ => rfl, fun _ => le_rfl, fun i => durableOn_init i {}, refines_init⟩⟩

/-! ### Steps -/

/-- **A step** is followed on the disks as well. -/
theorem recovers_step [DecidableEq C] {c c' : Cluster n C D} {a : Action n C D}
    {polls' : List (Fin n × ℤ)} (hi : Elections c votes polls) (hd : Recorded c votes)
    (hr : Recovers c votes A) (hi' : Elections c' (recordVotes c' votes) polls')
    (h : Moves c a c') (ha : c.NoStaleSuffix a) :
    ∃ A', Recovers c' (recordVotes c' votes) A' ∧ Grows A A' := by
  obtain ⟨B, hfollows, hB⟩ := hr.refines.step hi hi' h ha
  have hentries := Cluster.durableOn_step hr.entries (fun _ _ _ _ _ _ _ _ _ _ => rfl) h
  have hterms : B.term = terms c' := funext fun j => (hB.node j).term
  cases hfollows with
  | same hsame =>
    have hterms' : terms c' = terms c := funext fun j => by rw [terms, hsame, terms]
    refine ⟨A, ⟨hr.inv, fun j => by rw [hsame]; exact hr.disk j, hr.term_nonneg, hentries, ?_⟩,
      .refl A⟩
    rwa [hterms']
  | node i hlocal hcase hother =>
    have hle : A.term i ≤ (A.withTerm (terms c)).term i := by
      rw [hr.disk]
      exact hd.term_le i
    by_cases hsaved : DurableOn id (c'.raft i)
    · -- the disk of `i` catches up, the others stay where they are
      obtain ⟨hinv, hg⟩ := Inv.forget (s := A.withTerm (terms c)) (t := A.term) hr.inv hle hlocal
      have hBi : B.term i = (c'.raft i).restored.currentTerm :=
        (hB.node i).term.trans (congrArg BoostPersistRaftNode.currentTerm hsaved).symm
      refine ⟨_, ⟨hinv, fun j => ?_, fun j => ?_, hentries, ?_⟩, hg⟩
      · rw [State.withTerm_term]
        by_cases hj : j = i
        · subst hj
          rw [Function.update_self, hBi]
        · rw [Function.update_of_ne hj, hother j hj]
          exact hr.disk j
      · rw [State.withTerm_term]
        by_cases hj : j = i
        · subst hj
          rw [Function.update_self, (hB.node j).term]
          exact (hB.node j).term_nonneg
        · rw [Function.update_of_ne hj]
          exact hr.term_nonneg j
      · rw [State.withTerm_withTerm, ← hterms]
        exact hB
    · -- `i` has learned of a term that its disk does not know
      have hdisk : (c'.raft i).restored = (c.raft i).restored :=
        restored_congr ((saves_step h i).resolve_left hsaved).1
      have hadv := hcase.resolve_left hsaved
      refine ⟨A, ⟨hr.inv, fun j => ?_, hr.term_nonneg, hentries, ?_⟩, .refl A⟩
      · by_cases hj : j = i
        · rw [hj, hdisk]
          exact hr.disk i
        · rw [hother j hj]
          exact hr.disk j
      · have hBA : A.withTerm (terms c') = B := by
          rw [hadv, State.advance_eq, State.withTerm_withTerm, State.withTerm_term, ← hterms]
          congr 1
          funext j
          by_cases hj : j = i
          · rw [hj, Function.update_self]
          · rw [Function.update_of_ne hj, hterms, terms, hother j hj, terms]
        rwa [hBA]

/-! ### Restarts -/

theorem stop_appendBallot (i : Fin n) (t : Thread n C D) :
    (Thread.stop i t).appendBallot = t.appendBallot := by
  cases t <;> rfl

theorem stop_round (i : Fin n) (t : Thread n C D) : (Thread.stop i t).round = t.round := by
  cases t <;> rfl

/-- Threads do not look at the terms of the nodes. -/
theorem threadRefines_stop {i : Fin n} {t : Thread n C D} {f g : Fin n → ℤ}
    (h : ThreadRefines (A.withTerm f) t) : ThreadRefines (A.withTerm g) (Thread.stop i t) := by
  cases t with
  | sendAppendEntries me server args p phase =>
    obtain ⟨hne, r, q, hs, hreply⟩ := h
    exact ⟨hne, r, q, ⟨hs.reign, hs.leader, hs.prevlogindex, hs.le_length, hs.entries,
      hs.prevlogterm, hs.leadercommit, hs.certified⟩, hreply⟩
  | sendRequestVote | leaderSendSnapShot | pushMsgToKvServer => exact h

/-- The process that is started finds the log of its node, and knows nothing to be committed. -/
theorem nodeRefines_init (hr : Recovers s.cluster votes A) (i : Fin n) (f : Fin n → ℤ)
    (hf : f i = (s.cluster.raft i).restored.currentTerm) :
    NodeRefines (A.withTerm f) i
      ({ raft := Raft.init i (s.cluster.raft i).persister } : Process n C D) := by
  have hn := hr.refines.node i
  have hsame := sameEntries_init (hr.entries i) i
  have hterm : (Raft.init i (s.cluster.raft i).persister).currentTerm = f i :=
    (congrArg BoostPersistRaftNode.currentTerm (init_persistData (s.cluster.raft i) i)).trans
      hf.symm
  refine NodeRefines.of_log hterm.symm (hn.log.trans hsame.logs.symm) ?_
    (hsame.lastSnapshotIncludeIndex.trans hn.snapshotIndex)
    (hsame.lastSnapshotIncludeTerm.trans hn.snapshotTerm) ?_ ?_ (by simp [Process.emitted])
  · rw [hterm, hf, ← hr.disk]
    exact hr.term_nonneg i
  · rw [hsame.logs]
    exact hn.log ▸ hn.log_contiguous
  · exact Or.inl (init_commitIndex i _).1.le

/-- **A restart** changes nothing on the disks. -/
theorem recovers_restart (hd : Recorded s.cluster votes) (hr : Recovers s.cluster votes A)
    (i : Fin n) : Recovers (s.restart i).cluster votes A := by
  have hraft := restart_raft s i
  have hdisk : ∀ j, ((s.restart i).cluster.raft j).restored = (s.cluster.raft j).restored := by
    intro j
    rw [hraft]
    split_ifs with hj
    · subst hj
      exact (durableOn_init (f := id) j (s.cluster.raft j).persister).trans
        (init_persistData (s.cluster.raft j) j)
    · rfl
  have hterm : terms (s.restart i).cluster i = (s.cluster.raft i).restored.currentTerm := by
    rw [terms, hraft, if_pos rfl]
    exact congrArg BoostPersistRaftNode.currentTerm (init_persistData (s.cluster.raft i) i)
  refine ⟨hr.inv, fun j => by rw [hdisk]; exact hr.disk j, hr.term_nonneg,
    durableOn_restart hr.entries i, hr.inv.ahead fun j => ?_, fun j => ?_, fun t ht => ?_,
    hr.refines.reign, hr.refines.elected, hr.refines.vote, hr.refines.vote_recorded, ?_, ?_⟩
  · by_cases hj : j = i
    · rw [hj, hterm, hr.disk]
    · rw [terms, hraft, if_neg hj, hr.disk]
      exact hd.term_le j
  · rw [restart_procs]
    split_ifs with hj
    · subst hj
      exact nodeRefines_init hr j _ hterm
    · have hn := hr.refines.node j
      exact ⟨by rw [State.withTerm_term, terms, hraft, if_neg hj]; rfl, hn.log, hn.term_nonneg,
        hn.snapshotIndex, hn.snapshotTerm, hn.contiguous, hn.commit, hn.emitted⟩
  · obtain ⟨u, hu, rfl⟩ := List.mem_map.1 ht
    exact threadRefines_stop (hr.refines.thread u hu)
  · have hballots : (s.restart i).cluster.threads.map Thread.appendBallot =
        s.cluster.threads.map Thread.appendBallot := by
      simp only [restart, List.map_map]
      exact List.map_congr_left fun t _ => stop_appendBallot i t
    rw [hballots]
    exact hr.refines.tally
  · have hrounds : (s.restart i).cluster.threads.map Thread.round =
        s.cluster.threads.map Thread.round := by
      simp only [restart, List.map_map]
      exact List.map_congr_left fun t _ => stop_round i t
    rw [hrounds]
    exact hr.refines.round

/-! ### Runs -/

variable [DecidableEq C]

/-- What is known stays known along a run, and nothing is taken back. -/
theorem known_reaches (hk : Known s A) (h : (machine n C D).Reaches NoStaleSuffix s s') :
    ∃ A', Known s' A' ∧ Grows A A' := by
  refine h.invariant (I := fun s' => ∃ A', Known s' A' ∧ Grows A A') ⟨A, hk, .refl A⟩
    fun s a s' ⟨B, ⟨votes, polls, hi, hd, hr⟩, hg⟩ ha hst => ?_
  obtain ⟨b, c, rfl, hc, rfl⟩ | ⟨i, rfl, rfl⟩ := step_cases hst
  · have hm := moves_of_step hc
    obtain ⟨polls', hi'⟩ := hi.step hm
    obtain ⟨B', hr', hg'⟩ := recovers_step hi hd hr hi' hm ha
    exact ⟨B', ⟨_, polls', hi', hd.step hi hi' hm, hr'⟩, hg.trans hg'⟩
  · obtain ⟨hi', hd'⟩ := elections_restart hi hd i
    exact ⟨B, ⟨votes, polls, hi', hd', recovers_restart hd hr i⟩, hg⟩

/-- **Leader completeness over restarts.**  What a node takes to be committed at some time stands in
the log of every node that leads a term that is not older, then or later. -/
theorem leaders_hold_committed (h₁ : (machine n C D).Reaches NoStaleSuffix init s₁)
    (h₂ : (machine n C D).Reaches NoStaleSuffix s₁ s₂) {i j : Fin n} {k : ℤ} (hk : 1 ≤ k)
    (hcommit : k ≤ (s₁.cluster.raft i).commitIndex)
    (hl : (s₂.cluster.raft j).status = .leader)
    (hT : (s₁.cluster.raft i).currentTerm ≤ (s₂.cluster.raft j).currentTerm) :
    ∃ e, entryAt (s₁.cluster.raft i).logs k = some e ∧
      entryAt (s₂.cluster.raft j).logs k = some e := by
  obtain ⟨A, hknown, -⟩ := known_reaches known_init h₁
  obtain ⟨B, ⟨votes, polls, hi, -, hr⟩, hg⟩ := known_reaches hknown h₂
  obtain ⟨_, _, -, -, hr₁⟩ := hknown
  have hn := hr₁.refines.node i
  have hm := hr.refines.node j
  obtain hneg | ⟨T, r, m, hTi, hreign, hc, hm', htake⟩ := hn.commit
  · simp only [procs_raft] at hneg
    omega
  -- the leader of the term in which it was committed, and the one that leads now
  obtain ⟨r', hreign', -, -, hp⟩ := hg.reign T r hreign
  obtain ⟨R, hR, -, hlog⟩ := hr.refines.reign_of_leader hi hl
  rw [State.withTerm_term] at hR
  have hle : T ≤ terms s₂.cluster j := hTi.trans hT
  have hcA : Committed tm A T m := hc
  have hpre := hr.inv.committed_isPrefix (hcA.mono hg) hreign' hR hle
  obtain ⟨r₀, e₀, -, hr₀, he₀, -⟩ := id hc
  obtain rfl : r = r₀ := Option.some.inj (hreign.symm.trans hr₀)
  have hlt := (List.getElem?_eq_some_iff.1 he₀).1
  obtain ⟨p, rfl⟩ : ∃ p : ℕ, k = p + 1 := ⟨(k - 1).toNat, by omega⟩
  have hcommit' : ((p : ℤ) + 1).toNat ≤ (s₁.cluster.raft i).commitIndex.toNat := by omega
  have hpm : p < r.log.length := by
    simp only [procs_raft] at hm'
    omega
  have hget := List.getElem?_eq_getElem hpm
  have hin : (s₁.cluster.raft i).logs[p]? = some r.log[p] := by
    have := congrArg (fun l => l[p]?) htake
    simp only [procs_raft] at this
    rwa [List.getElem?_take_of_lt (by omega), List.getElem?_take_of_lt (by omega), hget] at this
  have hlead : (s₂.cluster.raft j).logs[p]? = some r.log[p] := by
    have hout : (s₂.cluster.raft j).logs = R.log := by
      rw [hlog]
      exact hm.log.symm
    rw [hout]
    refine getElem?_of_isPrefix hpre ?_
    simp only [procs_raft] at hm'
    rw [List.getElem?_take_of_lt (by omega)]
    exact getElem?_of_isPrefix hp hget
  refine ⟨r.log[p], ?_, ?_⟩
  · rw [entryAt_eq, hin]
    · exact hn.log ▸ hn.log_contiguous
    · exact (List.getElem?_eq_some_iff.1 hin).1
  · rw [entryAt_eq, hlead]
    · exact hm.log ▸ hm.log_contiguous
    · exact (List.getElem?_eq_some_iff.1 hlead).1

/-- **State machine safety over restarts.**  Commands that are handed out under one index, at two
times of a run and by whatever processes, are the same. -/
theorem applied_agree (h₁ : (machine n C D).Reaches NoStaleSuffix init s₁)
    (h₂ : (machine n C D).Reaches NoStaleSuffix s₁ s₂) {i j : Fin n} {command command' : C}
    {index : ℤ} (hm : .command command index ∈ (s₁.cluster.procs i).emitted)
    (hm' : .command command' index ∈ (s₂.cluster.procs j).emitted) : command = command' := by
  obtain ⟨A, hknown, -⟩ := known_reaches known_init h₁
  obtain ⟨B, ⟨votes, polls, hi, -, hr⟩, hg⟩ := known_reaches hknown h₂
  obtain ⟨_, _, -, -, hr₁⟩ := hknown
  have hA : CommittedCommand A (.command command index : ApplyMsg C D) :=
    (hr₁.refines.node i).emitted _ hm
  have hB : CommittedCommand (B.withTerm (terms s₂.cluster))
      (.command command' index : ApplyMsg C D) := (hr.refines.node j).emitted _ hm'
  exact (hA.mono hg).agree hr.inv hB

/-- Node `0` commits `"x"` with node `1` and applies it. -/
def commitRun : List (CrashAction 3 String Unit) :=
  [.act (.doElection 0), .act (.deliver 0), .act (.reply 0), .act (.start 0 "x"),
    .act (.doHeartBeat 0), .act (.deliver 2), .act (.reply 2), .act (.getApplyLogs 0)]

/-- Node `0` is restarted and votes for node `1`, which commits `"y"` with it; both are applied. -/
def takeoverRun : List (CrashAction 3 String Unit) :=
  [.restart 0, .act (.doElection 1), .act (.deliver 4), .act (.reply 4), .act (.start 1 "y"),
    .act (.doHeartBeat 1), .act (.deliver 6), .act (.reply 6), .act (.getApplyLogs 1)]

theorem commitRun_eq : ((machine 3 String Unit).runWhere NoStaleSuffix init commitRun).map
    (fun s => ((s.cluster.raft 0).commitIndex, (s.cluster.raft 0).currentTerm,
      (s.cluster.procs 0).emitted)) = some (1, 1, [.command "x" 1]) := by
  decide +kernel

theorem takeoverRun_eq : ((machine 3 String Unit).runWhere NoStaleSuffix init commitRun).bind
    (fun s => ((machine 3 String Unit).runWhere NoStaleSuffix s takeoverRun).map fun s =>
      ((s.cluster.raft 1).status, (s.cluster.raft 1).currentTerm, (s.cluster.procs 1).emitted)) =
        some (.leader, 2, [.command "x" 1, .command "y" 2]) := by
  decide +kernel

theorem leaders_hold_committed_takeoverRun : ∃ s₁ s₂,
    (machine 3 String Unit).runWhere NoStaleSuffix init commitRun = some s₁ ∧
      (machine 3 String Unit).runWhere NoStaleSuffix s₁ takeoverRun = some s₂ ∧
      ∃ e, entryAt (s₁.cluster.raft 0).logs 1 = some e ∧
        entryAt (s₂.cluster.raft 1).logs 1 = some e := by
  obtain ⟨s₁, h₁, h⟩ := Option.bind_eq_some_iff.1 takeoverRun_eq
  obtain ⟨s₂, h₂, h⟩ := Option.map_eq_some_iff.1 h
  have hcommit := commitRun_eq
  rw [h₁] at hcommit
  simp only [Option.map_some, Option.some.injEq, Prod.mk.injEq] at hcommit h
  exact ⟨s₁, s₂, h₁, h₂, leaders_hold_committed (Machine.reaches_of_runWhere h₁)
    (Machine.reaches_of_runWhere h₂) le_rfl hcommit.1.ge h.1
    (by rw [hcommit.2.1, h.2.1]; decide)⟩

theorem applied_agree_takeoverRun : ∃ s₁ s₂,
    (machine 3 String Unit).runWhere NoStaleSuffix init commitRun = some s₁ ∧
      (machine 3 String Unit).runWhere NoStaleSuffix s₁ takeoverRun = some s₂ ∧
      (s₂.cluster.procs 1).emitted = [.command "x" 1, .command "y" 2] ∧
      ∀ command, .command command 1 ∈ (s₂.cluster.procs 1).emitted → "x" = command := by
  obtain ⟨s₁, h₁, h⟩ := Option.bind_eq_some_iff.1 takeoverRun_eq
  obtain ⟨s₂, h₂, h⟩ := Option.map_eq_some_iff.1 h
  have hcommit := commitRun_eq
  rw [h₁] at hcommit
  simp only [Option.map_some, Option.some.injEq, Prod.mk.injEq] at hcommit h
  have hx : .command "x" 1 ∈ (s₁.cluster.procs 0).emitted := by
    rw [hcommit.2.2]
    exact List.mem_singleton_self _
  exact ⟨s₁, s₂, h₁, h₂, h.2.2, fun command hcommand => applied_agree
    (Machine.reaches_of_runWhere h₁) (Machine.reaches_of_runWhere h₂) hx hcommand⟩

end Crashing

end KvRaft
