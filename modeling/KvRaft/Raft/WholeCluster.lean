import KvRaft.Raft.Heartbeats
import KvRaft.Raft.Replication
import KvRaft.Raft.WholeLog

/-!
# A cluster and its whole logs

Log compaction is invisible to the protocol.  `c.whole pre saved` is the cluster `c` as it would be
had no node dropped anything, without the threads that send and push snapshots; `c` is related to
the protocol if that cluster refines it (`Cluster.RefinesWhole`).

The sections of elections and log replication are steps of the cluster with the whole logs
(`Cluster.RefinesWhole.of_moves`), compacting a log leaves the whole logs as they are
(`Cluster.RefinesWhole.snapshot`), and what only moves snapshots or queues does not touch them
(`Cluster.RefinesWhole.stutter`).
-/

namespace KvRaft

open Consensus Raft

/-- The threads of elections and of heartbeats that send entries. -/
def Thread.ofLog {n : ℕ} {C D : Type} : Thread n C D → Bool
  | .sendRequestVote _ _ _ _ _ | .sendAppendEntries _ _ _ _ _ => true
  | .leaderSendSnapShot _ _ _ | .pushMsgToKvServer _ _ _ => false

theorem Thread.ballot_of_not_ofLog {n : ℕ} {C D : Type} {t : Thread n C D} (h : ¬ t.ofLog) :
    t.ballot = none ∧ t.appendBallot = none := by
  cases t with
  | sendRequestVote | sendAppendEntries => exact absurd rfl h
  | leaderSendSnapShot | pushMsgToKvServer => exact ⟨rfl, rfl⟩

/-- A list without the elements that do not matter, after one that does has changed. -/
theorem filter_set {α : Type} {p : α → Bool} {l : List α} {k : ℕ} {a : α} (hk : l[k]? = some a)
    (ha : p a) : ∃ k', (l.filter p)[k']? = some a ∧
      ∀ a', p a' → (l.set k a').filter p = (l.filter p).set k' a' := by
  obtain ⟨hlt, rfl⟩ := List.getElem?_eq_some_iff.1 hk
  have hl : l = l.take k ++ l[k] :: l.drop (k + 1) := by simp
  refine ⟨((l.take k).filter p).length, ?_, fun a' ha' => ?_⟩
  · conv_lhs => rw [hl, List.filter_append, List.filter_cons_of_pos ha]
    simp
  · rw [List.set_eq_take_append_cons_drop, if_pos hlt, List.filter_append,
      List.filter_cons_of_pos ha']
    conv_rhs => rw [hl, List.filter_append, List.filter_cons_of_pos ha]
    simp

/-- The same after one that does not matter has changed into another such. -/
theorem filter_set_of_not {α : Type} {p : α → Bool} {l : List α} {k : ℕ} {a a' : α}
    (hk : l[k]? = some a) (ha : ¬ p a) (ha' : ¬ p a') : (l.set k a').filter p = l.filter p := by
  obtain ⟨hlt, rfl⟩ := List.getElem?_eq_some_iff.1 hk
  have hl : l = l.take k ++ l[k] :: l.drop (k + 1) := by simp
  rw [List.set_eq_take_append_cons_drop, if_pos hlt, List.filter_append,
    List.filter_cons_of_neg ha']
  conv_rhs => rw [hl, List.filter_append, List.filter_cons_of_neg ha]

namespace Cluster

variable {n : ℕ} {C D : Type} {c c' : Cluster n C D} {pre pre' : Fin n → List (LogEntry C)}
  {saved saved' : Fin n → Saved n C D} {votes votes' : Fin n → ℤ → Option (Fin n)}
  {polls polls' : List (Fin n × ℤ)} {A A' : State (Fin n) (LogEntry C)}

/-- **The cluster as it would be had no node dropped anything**, without its snapshots and its
queues. -/
def whole (c : Cluster n C D) (pre : Fin n → List (LogEntry C)) (saved : Fin n → Saved n C D) :
    Cluster n C D where
  procs i := { raft := (c.raft i).whole (pre i) (saved i) }
  threads := c.threads.filter Thread.ofLog
  votedNums := c.votedNums
  appendNums := c.appendNums
  elections := c.elections

@[simp] theorem whole_raft (i : Fin n) :
    (c.whole pre saved).raft i = (c.raft i).whole (pre i) (saved i) := rfl

@[simp] theorem whole_threads :
    (c.whole pre saved).threads = c.threads.filter Thread.ofLog := rfl

/-- A cluster is one with the whole logs. -/
theorem whole_eq {x : Cluster n C D}
    (hprocs : ∀ j, x.procs j = { raft := (c.raft j).whole (pre j) (saved j) })
    (hthreads : x.threads = c.threads.filter Thread.ofLog) (hvoted : x.votedNums = c.votedNums)
    (happend : x.appendNums = c.appendNums) (helec : x.elections = c.elections) :
    c.whole pre saved = x := by
  obtain ⟨procs, threads, votedNums, appendNums, elections⟩ := x
  obtain rfl := hthreads
  obtain rfl := hvoted
  obtain rfl := happend
  obtain rfl := helec
  obtain rfl : procs = _ := funext hprocs
  rfl

/-- A section of node `i`, with the whole logs. -/
theorem whole_section {i : Fin n} {rf : Raft n C D} {sv : Saved n C D}
    (hraft : ∀ j, c'.raft j = if j = i then rf else c.raft j) (j : Fin n) :
    ((c.whole pre saved).setRaft i (rf.whole (pre i) sv)).procs j =
      { raft := (c'.raft j).whole (pre j) (Function.update saved i sv j) } := by
  rw [setRaft_procs, hraft]
  by_cases hj : j = i
  · subst hj
    rw [if_pos rfl, if_pos rfl, Function.update_self]
    rfl
  · rw [if_neg hj, if_neg hj, Function.update_of_ne hj]
    rfl

/-- Threads that are left out take no part in elections. -/
theorem Elections.whole (hi : Elections c votes polls) :
    Elections (c.whole pre saved) votes polls where
  me := hi.me
  now := hi.now
  future := hi.future
  thread t ht := hi.thread t (List.mem_filter.1 ht).1
  poll := hi.poll
  polls_nodup := hi.polls_nodup
  polls_length := hi.polls_length
  tally := by
    refine hi.tally.of_sublist (List.filter_sublist.map _) fun b hb => ?_
    obtain ⟨t, ht, hb⟩ := List.mem_map.1 hb
    refine List.mem_map.2 ⟨t, List.mem_filter.2 ⟨ht, ?_⟩, hb⟩
    by_contra hno
    rw [(Thread.ballot_of_not_ofLog hno).1] at hb
    cases hb
  leader := hi.leader
  majority := hi.majority
  nodup := hi.nodup

/-- The heartbeats of the cluster with the whole logs. -/
theorem Beats.heartbeats_whole (hb : c.Beats) :
    Tally ((c.threads.filter Thread.ofLog).map Thread.appendBallot) c.appendNums (fun _ => 0) ∧
      Rounds ((c.threads.filter Thread.ofLog).map Thread.round) := by
  refine ⟨hb.tally.of_sublist (List.filter_sublist.map _) fun b hb => ?_, fun x y hx hy hxy => ?_⟩
  · obtain ⟨t, ht, hb⟩ := List.mem_map.1 hb
    refine List.mem_map.2 ⟨t, List.mem_filter.2 ⟨ht, ?_⟩, hb⟩
    by_contra hno
    rw [(Thread.ballot_of_not_ofLog hno).2] at hb
    cases hb
  · have hbeat : ∀ {z : Round n}, some z ∈ (c.threads.filter Thread.ofLog).map Thread.round →
        ∃ T, some ⟨z.appendNums, z.me, z.term, z.last, T⟩ ∈ c.threads.map Thread.beat := by
      intro z hz
      obtain ⟨t, ht, hz⟩ := List.mem_map.1 hz
      cases t with
      | sendAppendEntries me server args p phase =>
        obtain rfl := Option.some.inj hz
        exact ⟨args.lastTerm, List.mem_map.2 ⟨_, (List.mem_filter.1 ht).1, rfl⟩⟩
      | sendRequestVote | leaderSendSnapShot | pushMsgToKvServer => cases hz
    obtain ⟨T, hT⟩ := hbeat hx
    obtain ⟨T', hT'⟩ := hbeat hy
    have := hb.same _ _ hT hT' hxy
    obtain ⟨hnums, hme, hterm, hlast, -⟩ := Beat.mk.inj this
    cases x
    cases y
    exact Round.mk.injEq .. ▸ ⟨hnums, hme, hterm, hlast⟩

/-! ### The relation -/

/-- A snapshot that was sent is one of the log of the leader of its term. -/
def SnapshotSent (A : State (Fin n) (LogEntry C)) (me : Fin n) (args : InstallSnapshotRequest n D)
    (r : Reign (Fin n) (LogEntry C)) (k : ℕ) : Prop :=
  A.reign args.term = some r ∧ r.leader = me ∧ args.lastsnapshotincludeindex = k ∧
    k ≤ r.log.length ∧ args.lastsnapshotincludeterm = lastTerm tm (r.log.take k) ∧
    Certified A args.term r.log k

/-- What is known about the threads that are left out. -/
def SnapshotRefines (A : State (Fin n) (LogEntry C)) : Thread n C D → Prop
  | .leaderSendSnapShot me server call => server ≠ me ∧
      ∀ args phase, call = some (args, phase) → ∃ r k, SnapshotSent A me args r k
  | .sendRequestVote _ _ _ _ _ | .sendAppendEntries _ _ _ _ _ | .pushMsgToKvServer _ _ _ => True

/-- A command that is handed out is committed. -/
def Delivers (A : State (Fin n) (LogEntry C)) (msg : ApplyMsg C D) : Prop :=
  msg.command? ≠ none → CommittedCommand A msg

/-- **The refinement relation with compaction**: it is the one without for the cluster with the
whole logs. -/
structure RefinesWhole (c : Cluster n C D) (votes : Fin n → ℤ → Option (Fin n))
    (A : State (Fin n) (LogEntry C)) (pre : Fin n → List (LogEntry C))
    (saved : Fin n → Saved n C D) : Prop where
  refines : Refines (c.whole pre saved) votes A
  dropped : ∀ i, (c.raft i).Dropped (pre i)
  thread : ∀ t ∈ c.threads, SnapshotRefines A t
  emitted : ∀ i, ∀ msg ∈ (c.procs i).emitted, Delivers A msg

/-- The cluster is a compacted form of one that refines the protocol, which has taken nothing back
since `A`. -/
def Compacts (A : State (Fin n) (LogEntry C)) (c : Cluster n C D)
    (votes : Fin n → ℤ → Option (Fin n)) : Prop :=
  ∃ A' pre saved, Grows A A' ∧ RefinesWhole c votes A' pre saved

theorem SnapshotRefines.mono {t : Thread n C D} (h : SnapshotRefines A t) (hg : Grows A A') :
    SnapshotRefines A' t := by
  cases t with
  | leaderSendSnapShot me server call =>
    obtain ⟨hne, hcall⟩ := h
    refine ⟨hne, fun args phase heq => ?_⟩
    obtain ⟨r, k, hreign, hlead, hk, hle, hterm, hcert⟩ := hcall args phase heq
    obtain ⟨r', hr', hl, -, hp⟩ := hg.reign _ r hreign
    refine ⟨r', k, hr', hl.trans hlead, hk, hle.trans hp.length_le, ?_,
      (hcert.mono hg le_rfl).of_isPrefix hp⟩
    rw [hterm, take_eq_of_isPrefix hp hle]
  | sendRequestVote | sendAppendEntries | pushMsgToKvServer => trivial

theorem SnapshotRefines.of_ofLog {t : Thread n C D} (h : t.ofLog) : SnapshotRefines A t := by
  cases t with
  | sendRequestVote | sendAppendEntries => trivial
  | leaderSendSnapShot | pushMsgToKvServer => cases h

theorem refinesWhole_init : RefinesWhole (init : Cluster n C D) (fun _ _ => none) State.init
    (fun _ => []) (fun _ => {}) := by
  refine ⟨?_, fun i => ⟨rfl, rfl, .nil _⟩,
    fun t ht => ?_, fun i msg hm => ?_⟩
  · rw [whole_eq (x := init) (fun j => rfl) rfl rfl rfl rfl]
    exact refines_init
  · cases ht
  · simp [init, Process.emitted] at hm

/-- What the protocol does when it follows a step takes nothing back. -/
theorem Refines.grows_of_follows (hr : Refines c votes A) (hr' : Refines c' votes' A')
    (hf : Follows c c' A A') : Grows A A' := by
  cases hf with
  | same => exact .refl A
  | node i hlocal _ hsame =>
    have hterm : Function.update A.term i (A'.term i) = A'.term := by
      funext j
      by_cases hj : j = i
      · rw [hj, Function.update_self]
      · rw [Function.update_of_ne hj, (hr.node j).term, (hr'.node j).term, procs_raft, procs_raft,
          hsame j hj]
    have := (hr.inv.steps (hlocal A.term rfl)).2
    rwa [hterm] at this

theorem RefinesWhole.goOn (h : RefinesWhole c votes A pre saved)
    (hr : Refines (c'.whole pre' saved') votes' A') (hg : Grows A A')
    (hdropped : ∀ i, (c'.raft i).Dropped (pre' i))
    (hthread : ∀ t ∈ c'.threads, t ∈ c.threads ∨ SnapshotRefines A' t)
    (hemitted : ∀ i, ∀ msg ∈ (c'.procs i).emitted, msg ∈ (c.procs i).emitted ∨ Delivers A' msg) :
    Compacts A c' votes' := by
  refine ⟨A', pre', saved', hg, hr, hdropped, fun t ht => ?_, fun i msg hm => ?_⟩
  · exact (hthread t ht).elim (fun ht => (h.thread t ht).mono hg) id
  · exact (hemitted i msg hm).elim (fun hm hc => (h.emitted i msg hm hc).mono hg) id

/-- A step that the cluster with the whole logs takes as well. -/
theorem RefinesWhole.of_moves [DecidableEq C] (h : RefinesWhole c votes A pre saved)
    (hi : Elections c votes polls) (hi' : Elections c' (recordVotes c' votes) polls')
    {a : Action n C D} {x : Cluster n C D} (hm : Moves (c.whole pre saved) a x)
    (ha : (c.whole pre saved).NoStaleSuffix a) (hx : c'.whole pre saved' = x)
    (hdropped : ∀ i, (c'.raft i).Dropped (pre i))
    (hthread : ∀ t ∈ c'.threads, t ∈ c.threads ∨ t.ofLog)
    (hemitted : ∀ i, (c'.procs i).emitted = (c.procs i).emitted) :
    Compacts A c' (recordVotes c' votes) := by
  subst hx
  obtain ⟨A', hf, hr⟩ := h.refines.step hi.whole hi'.whole hm ha
  exact h.goOn hr (h.refines.grows_of_follows hr hf) hdropped
    (fun t ht => (hthread t ht).imp id SnapshotRefines.of_ofLog)
    fun i msg hmsg => Or.inl (hemitted i ▸ hmsg)

/-! ### Steps that the whole logs do not see -/

theorem recordVotes_of_raft (hi : Elections c votes polls) (hraft : ∀ j, c'.raft j = c.raft j) :
    recordVotes c' votes = votes := by
  funext v T
  unfold recordVotes
  rw [hraft]
  split_ifs with hT
  · rw [hT, hi.now]
  · rfl

/-- A step in which only snapshots and queues move. -/
theorem RefinesWhole.stutter (h : RefinesWhole c votes A pre saved) (hi : Elections c votes polls)
    (hraft : ∀ j, c'.raft j = c.raft j)
    (hofLog : c'.threads.filter Thread.ofLog = c.threads.filter Thread.ofLog)
    (hvoted : c'.votedNums = c.votedNums) (happend : c'.appendNums = c.appendNums)
    (helec : c'.elections = c.elections)
    (hthread : ∀ t ∈ c'.threads, t ∈ c.threads ∨ SnapshotRefines A t)
    (hemitted : ∀ i, ∀ msg ∈ (c'.procs i).emitted, msg ∈ (c.procs i).emitted ∨ Delivers A msg) :
    Compacts A c' (recordVotes c' votes) := by
  have hsame : c'.whole pre saved = c.whole pre saved :=
    whole_eq (fun j => by rw [hraft]; rfl) hofLog.symm hvoted.symm happend.symm helec.symm
  rw [recordVotes_of_raft hi hraft]
  exact h.goOn (hsame.symm ▸ h.refines) (.refl A) (fun j => (hraft j).symm ▸ h.dropped j) hthread
    hemitted

theorem emitted_setRaft (i j : Fin n) (rf : Raft n C D) :
    ((c.setRaft i rf).procs j).emitted = (c.procs j).emitted := by
  rw [setRaft_procs]
  split_ifs with hj
  · rw [hj]
    rfl
  · rfl

/-- A step of process `i` that moves its queues. -/
theorem RefinesWhole.queues (h : RefinesWhole c votes A pre saved) (hi : Elections c votes polls)
    {i : Fin n} {p : Process n C D} (hraft : p.raft = c.raft i)
    (hemitted : ∀ msg ∈ p.emitted, msg ∈ (c.procs i).emitted ∨ Delivers A msg) :
    Compacts A (c.setProc i p) (recordVotes (c.setProc i p) votes) := by
  refine h.stutter hi (fun j => ?_) rfl rfl rfl rfl (fun t ht => Or.inl ht) fun j msg hm => ?_
  · rw [setProc_raft]
    split_ifs with hj
    · rw [hj, hraft]
    · rfl
  · rw [setProc_procs] at hm
    split_ifs at hm with hj
    · rw [hj]
      exact hemitted msg hm
    · exact Or.inl hm

/-! ### Elections -/

theorem RefinesWhole.dropped_update (h : RefinesWhole c votes A pre saved) {i : Fin n}
    {rf : Raft n C D} (hrf : rf.Dropped (pre i))
    (hraft : ∀ j, c'.raft j = if j = i then rf else c.raft j) (j : Fin n) :
    (c'.raft j).Dropped (pre j) :=
  forall_raft_of_update (P := fun j rf => rf.Dropped (pre j)) hraft hrf h.dropped j

theorem filter_ofLog_voteThreads (i : Fin n) (p : ℕ) (calls : List (Fin n × RequestVoteArgs n)) :
    (voteThreads i p calls : List (Thread n C D)).filter Thread.ofLog = voteThreads i p calls := by
  refine List.filter_eq_self.2 fun t ht => ?_
  obtain ⟨call, -, rfl⟩ := List.mem_map.1 ht
  rfl

theorem RefinesWhole.doElection [DecidableEq C] (h : RefinesWhole c votes A pre saved)
    (hi : Elections c votes polls) (hi' : Elections c' (recordVotes c' votes) polls') {i : Fin n}
    {rf : Raft n C D} {calls : List (Fin n × RequestVoteArgs n)}
    (heq : (c.raft i).doElection = some (rf, calls))
    (hc' : c' = { (c.setRaft i rf).spawn (voteThreads i c.votedNums.length calls) with
      votedNums := c.votedNums ++ [1] }) : Compacts A c' (recordVotes c' votes) := by
  subst hc'
  obtain ⟨sv, hx⟩ := (h.dropped i).doElection (saved i) heq
  refine h.of_moves hi hi' (.doElection (i := i) hx) trivial
    (whole_eq (whole_section (setRaft_raft c i · rf)) ?_ rfl rfl rfl)
    (h.dropped_update ((h.dropped i).of_sameEntries (doElection_eq heq).1.toSameEntries)
      (setRaft_raft c i · rf)) (fun t ht => ?_) (emitted_setRaft i · rf)
  · change _ = (c.threads ++ voteThreads i c.votedNums.length calls).filter Thread.ofLog
    rw [List.filter_append, filter_ofLog_voteThreads]
    rfl
  · refine (List.mem_append.1 ht).imp id fun ht => ?_
    obtain ⟨call, -, rfl⟩ := List.mem_map.1 ht
    rfl

theorem RefinesWhole.start [DecidableEq C] (h : RefinesWhole c votes A pre saved)
    (hi : Elections c votes polls) (hi' : Elections c' (recordVotes c' votes) polls') {i : Fin n}
    (command : C) (hc' : c' = c.setRaft i ((c.raft i).start command).1) :
    Compacts A c' (recordVotes c' votes) := by
  subst hc'
  obtain ⟨sv, hx⟩ := (h.dropped i).start (saved i) command
  have hpoint : ((c.raft i).start command).1.Dropped (pre i) := by
    rcases (c.raft i).start_eq command with ⟨hsame, -⟩ | ⟨-, hnew⟩
    · exact hsame.symm ▸ h.dropped i
    · rw [hnew]
      exact (h.dropped i).of_point rfl rfl
  have hm : Moves (c.whole pre saved) (.start i command)
      ((c.whole pre saved).setRaft i (((c.raft i).start command).1.whole (pre i) sv)) := by
    have hfst : (((c.whole pre saved).raft i).start command).1 =
      ((c.raft i).start command).1.whole (pre i) sv := congrArg Prod.fst hx
    rw [← hfst]
    exact .start command
  exact h.of_moves hi hi' hm trivial
    (whole_eq (whole_section (setRaft_raft c i · _)) rfl rfl rfl rfl)
    (h.dropped_update hpoint (setRaft_raft c i · _)) (fun t ht => Or.inl ht)
    (emitted_setRaft i · _)

/-- A thread that is there with the whole logs as well changes. -/
theorem mem_set_ofLog {k : ℕ} {t' : Thread n C D} (ht' : t'.ofLog) :
    ∀ t ∈ c.threads.set k t', t ∈ c.threads ∨ t.ofLog := by
  intro t ht
  refine (List.mem_or_eq_of_mem_set ht).imp id ?_
  rintro rfl
  exact ht'

theorem RefinesWhole.requestVote [DecidableEq C] (h : RefinesWhole c votes A pre saved)
    (hi : Elections c votes polls) (hi' : Elections c' (recordVotes c' votes) polls') {k p : ℕ}
    {me server : Fin n} {args : RequestVoteArgs n} {rf : Raft n C D} {r : RequestVoteReply}
    (hk : c.threads[k]? = some (.sendRequestVote me server args p .calling))
    (heq : (c.raft server).requestVote args = .ok (rf, r))
    (hc' : c' = (c.setRaft server rf).setThread k
      (.sendRequestVote me server args p (.replied r))) : Compacts A c' (recordVotes c' votes) := by
  subst hc'
  obtain ⟨_, hx, sv, rfl⟩ := (h.dropped server).requestVote (saved server) args _ heq
  obtain ⟨k', hk', hset⟩ := filter_set (p := Thread.ofLog) hk rfl
  have hclean : (c.whole pre saved).NoStaleSuffix (.deliver k') := by
    simp only [NoStaleSuffix, whole_threads, hk']
  refine h.of_moves hi hi' (.requestVote hk' hx) hclean
    (whole_eq (whole_section (setRaft_raft c server · rf)) (hset _ rfl).symm rfl rfl rfl)
    (h.dropped_update ((h.dropped server).of_sameEntries (requestVote_cases heq).1.toSameEntries)
      (setRaft_raft c server · rf)) (mem_set_ofLog rfl) (emitted_setRaft server · rf)

theorem RefinesWhole.sendRequestVote [DecidableEq C] (h : RefinesWhole c votes A pre saved)
    (hi : Elections c votes polls) (hi' : Elections c' (recordVotes c' votes) polls')
    {k p num : ℕ} {me server : Fin n} {args : RequestVoteArgs n} {rf : Raft n C D}
    {r : RequestVoteReply} {elected : Bool}
    (hk : c.threads[k]? = some (.sendRequestVote me server args p (.replied r)))
    (heq : (c.raft me).sendRequestVote (c.votedNums.getD p 0) r = .ok (rf, num, elected))
    (hc' : c' = { (c.setRaft me rf).setThread k
        (.sendRequestVote me server args p (.done (some r))) with
      votedNums := c.votedNums.set p num
      elections := if elected then c.elections ++ [(me, rf.currentTerm)] else c.elections }) :
    Compacts A c' (recordVotes c' votes) := by
  subst hc'
  obtain ⟨_, hx, sv, rfl⟩ := (h.dropped me).sendRequestVote (saved me) _ r _ heq
  obtain ⟨k', hk', hset⟩ := filter_set (p := Thread.ofLog) hk rfl
  exact h.of_moves hi hi' (.sendRequestVote hk' hx) trivial
    (whole_eq (whole_section (setRaft_raft c me · rf)) (hset _ rfl).symm rfl rfl rfl)
    (h.dropped_update ((h.dropped me).of_sameEntries (sendRequestVote_cases heq).1.toSameEntries)
      (setRaft_raft c me · rf)) (mem_set_ofLog rfl) (emitted_setRaft me · rf)

theorem RefinesWhole.sendAppendEntries [DecidableEq C] (h : RefinesWhole c votes A pre saved)
    (hi : Elections c votes polls) (hi' : Elections c' (recordVotes c' votes) polls')
    {k p num : ℕ} {me server : Fin n} {args : AppendEntriesArgs n C} {rf : Raft n C D}
    {r : AppendEntriesReply}
    (hk : c.threads[k]? = some (.sendAppendEntries me server args p (.replied r)))
    (heq : (c.raft me).sendAppendEntries server args r (c.appendNums.getD p 0) = .ok (rf, num))
    (hc' : c' = { (c.setRaft me rf).setThread k
        (.sendAppendEntries me server args p (.done (some r))) with
      appendNums := c.appendNums.set p num }) : Compacts A c' (recordVotes c' votes) := by
  subst hc'
  obtain ⟨_, hx, sv, rfl⟩ := (h.dropped me).sendAppendEntries (saved me) server args r _ _ heq
  obtain ⟨k', hk', hset⟩ := filter_set (p := Thread.ofLog) hk rfl
  exact h.of_moves hi hi' (.sendAppendEntries hk' hx) trivial
    (whole_eq (whole_section (setRaft_raft c me · rf)) (hset _ rfl).symm rfl rfl rfl)
    (h.dropped_update ((h.dropped me).of_sameEntries (sendAppendEntries_cases heq).1)
      (setRaft_raft c me · rf)) (mem_set_ofLog rfl) (emitted_setRaft me · rf)

/-! ### Sections that keep the whole log -/

/-- A section of node `i` that changes neither its whole log nor its vote nor what it knows to be
committed. -/
theorem RefinesWhole.process (h : RefinesWhole c votes A pre saved) (hi : Elections c votes polls)
    {i : Fin n} (x : Raft n C D) (pre' : Fin n → List (LogEntry C))
    (hwhole : ∀ j, (c'.raft j).whole (pre' j) (saved j) =
      if j = i then x else (c.raft j).whole (pre j) (saved j))
    (hkeep : ((c.raft i).whole (pre i) (saved i)).Keeps x)
    (habs : ((c.raft i).whole (pre i) (saved i)).Abstains x)
    (hlog : ((c.raft i).whole (pre i) (saved i)).SameEntries x)
    (hcommit : x.commitIndex = (c.raft i).commitIndex) (helec : c'.elections = c.elections)
    (hb' : c'.Beats) (hofLog : ∀ t ∈ c'.threads.filter Thread.ofLog,
      t ∈ c.threads.filter Thread.ofLog ∨ ThreadRefines A t)
    (hdropped : ∀ j, (c'.raft j).Dropped (pre' j))
    (hthread : ∀ t ∈ c'.threads, t ∈ c.threads ∨ ∀ A', Grows A A' → SnapshotRefines A' t)
    (hemitted : ∀ j, ∀ msg ∈ (c'.procs j).emitted, msg ∈ (c.procs j).emitted ∨ Delivers A msg) :
    Compacts A c' (recordVotes c' votes) := by
  have hprocs : ∀ j, (c'.whole pre' saved).procs j =
      if j = i then { raft := x } else (c.whole pre saved).procs j := by
    intro j
    change ({ raft := (c'.raft j).whole (pre' j) (saved j) } : Process n C D) = _
    rw [hwhole]
    split_ifs <;> rfl
  obtain ⟨A', hf, hr⟩ := h.refines.process hi.whole hprocs hkeep habs
    hlog hcommit (by simp [Process.emitted]) helec hofLog hb'.heartbeats_whole
  have hg := h.refines.grows_of_follows hr hf
  exact h.goOn hr hg hdropped (fun t ht => (hthread t ht).imp id fun h => h A' hg)
    fun j msg hm => (hemitted j msg hm).imp id fun h hc => (h hc).mono hg

/-- The same where the node drops nothing. -/
theorem RefinesWhole.quiet (h : RefinesWhole c votes A pre saved) (hi : Elections c votes polls)
    {i : Fin n} {rf : Raft n C D} (hraft : ∀ j, c'.raft j = if j = i then rf else c.raft j)
    (hkeep : (c.raft i).Keeps rf) (habs : (c.raft i).Abstains rf)
    (hlog : (c.raft i).SameEntries rf) (hcommit : rf.commitIndex = (c.raft i).commitIndex)
    (helec : c'.elections = c.elections) (hb' : c'.Beats)
    (hofLog : ∀ t ∈ c'.threads.filter Thread.ofLog,
      t ∈ c.threads.filter Thread.ofLog ∨ ThreadRefines A t)
    (hthread : ∀ t ∈ c'.threads, t ∈ c.threads ∨ ∀ A', Grows A A' → SnapshotRefines A' t)
    (hemitted : ∀ j, ∀ msg ∈ (c'.procs j).emitted, msg ∈ (c.procs j).emitted ∨ Delivers A msg) :
    Compacts A c' (recordVotes c' votes) := by
  refine h.process hi (rf.whole (pre i) (saved i)) pre (fun j => ?_)
    ⟨⟨hkeep.me, hkeep.term_le, hkeep.vote⟩, hkeep.leader⟩ habs
    ⟨congrArg (pre i ++ ·) hlog.logs, rfl, rfl⟩ hcommit helec hb' hofLog
    (h.dropped_update ((h.dropped i).of_sameEntries hlog) hraft) hthread hemitted
  rw [hraft]
  split_ifs with hj
  · rw [hj]
  · rfl

/-- `applierTicker` takes committed entries. -/
theorem RefinesWhole.getApplyLogs (h : RefinesWhole c votes A pre saved)
    (hi : Elections c votes polls) (hb' : c'.Beats) {i : Fin n} {rf : Raft n C D}
    {msgs : List (ApplyMsg C D)}
    (heq : (c.raft i).getApplyLogs = .ok (rf, msgs))
    (hc' : c' = c.setProc i { c.procs i with raft := rf, applyMsgs := msgs }) :
    Compacts A c' (recordVotes c' votes) := by
  subst hc'
  obtain ⟨_, hx, sv, rfl⟩ := (h.dropped i).getApplyLogs (saved i) _ heq
  have hrf := (applyNext_eq (getApplyLogs_eq heq).2).1
  refine h.quiet hi (fun j => setProc_raft c i j _) ?_ ?_ ?_ ?_ rfl hb'
    (fun t ht => Or.inl ht) (fun t ht => Or.inl ht)
    fun j msg hm => ?_
  · rw [hrf]
    exact .of_eq rfl rfl rfl rfl
  · rw [hrf]
    exact .of_eq rfl rfl
  · rw [hrf]
    exact ⟨rfl, rfl, rfl⟩
  · rw [hrf]
  · rw [setProc_procs] at hm
    split_ifs at hm with hj
    · rw [hj]
      rcases List.mem_append.1 hm with hm | hm
      · exact Or.inl (List.mem_append_left _ hm)
      · exact Or.inr fun _ => (h.refines.node i).getApplyLogs hx msg hm
    · exact Or.inl hm

/-- The state machine compacts the log of a node. -/
theorem RefinesWhole.snapshot (h : RefinesWhole c votes A pre saved)
    (hi : Elections c votes polls) (hindexed : c.Indexed) (hb' : c'.Beats) {i : Fin n} {index : ℤ}
    {data : D}
    {rf : Raft n C D} (heq : (c.raft i).snapshot index data = .ok rf)
    (hc' : c' = c.setRaft i rf) : Compacts A c' (recordVotes c' votes) := by
  subst hc'
  obtain ⟨l, hl, hwhole⟩ := (h.dropped i).snapshot (hindexed.node i) heq
  refine h.process hi { (c.raft i).whole (pre i) (saved i) with lastApplied := rf.lastApplied }
    (Function.update pre i l) (fun j => ?_) (.of_eq rfl rfl rfl rfl) (.of_eq rfl rfl)
    ⟨rfl, rfl, rfl⟩ rfl rfl hb' (fun t ht => Or.inl ht) (fun j => ?_) (fun t ht => Or.inl ht)
    fun j msg hm => Or.inl (emitted_setRaft i j rf ▸ hm)
  · rw [setRaft_raft]
    split_ifs with hj
    · subst hj
      rw [Function.update_self]
      exact hwhole _
    · rw [Function.update_of_ne hj]
  · rw [setRaft_raft]
    split_ifs with hj
    · subst hj
      rwa [Function.update_self]
    · rw [Function.update_of_ne hj]
      exact h.dropped j

/-- The reply to a snapshot. -/
theorem RefinesWhole.snapshotReply (h : RefinesWhole c votes A pre saved)
    (hi : Elections c votes polls) (hb' : c'.Beats) {k : ℕ} {me server : Fin n}
    {args : InstallSnapshotRequest n D} {r : InstallSnapshotResponse}
    (hk : c.threads[k]? = some (.leaderSendSnapShot me server (some (args, .replied r))))
    (hc' : c' = (c.setRaft me ((c.raft me).leaderSendSnapShotReply server args r)).setThread k
      (.leaderSendSnapShot me server (some (args, .done (some r))))) :
    Compacts A c' (recordVotes c' votes) := by
  subst hc'
  have hsame := sameLog_leaderSendSnapShotReply (c.raft me) server args r
  have hkeep := keeps_leaderSendSnapShotReply (c.raft me) server args r
  have hskip : (c.threads.set k (.leaderSendSnapShot me server
      (some (args, .done (some r))))).filter Thread.ofLog = c.threads.filter Thread.ofLog :=
    filter_set_of_not hk Bool.false_ne_true Bool.false_ne_true
  refine h.quiet hi (setRaft_raft c me · _) hkeep.1 hkeep.2 hsame.toSameEntries hsame.commitIndex
    rfl hb' (fun t ht => Or.inl (hskip ▸ ht)) (fun t ht => ?_)
    fun j msg hm => Or.inl (emitted_setRaft me j _ ▸ hm)
  refine (List.mem_or_eq_of_mem_set ht).imp id ?_
  rintro rfl A' hg
  obtain ⟨hne, hcall⟩ := (h.thread _ (List.mem_of_getElem? hk)).mono hg
  refine ⟨hne, fun args' phase heq => ?_⟩
  obtain ⟨rfl, -⟩ := Prod.mk.inj (Option.some.inj heq)
  exact hcall args _ rfl

end Cluster

end KvRaft
