import KvRaft.Raft.WholeCluster

/-!
# Simulation with compaction

`Cluster.Remembers.reaches` : throughout every run whose steps leave nothing stale
(`Cluster.LeavesNoStale`) the cluster is a compacted form of one that refines the protocol.

A node that takes over a snapshot looks at indices only, and keeps the entries behind the index.
They are a stale suffix if its own entry there is not the one that the snapshot ends with
(`Raft.KeepsStaleSuffix`).  Otherwise the node does, with its whole log, what the protocol calls
accepting the log of the leader up to there (`Cluster.RefinesWhole.installed`).
-/

namespace KvRaft

open Consensus Raft

/-- The node takes over the snapshot, and keeps entries behind it although its own entry at the
snapshot point is another one. -/
def Raft.KeepsStaleSuffix {n : ℕ} {C D : Type} (rf : Raft n C D)
    (args : InstallSnapshotRequest n D) : Prop :=
  rf.currentTerm ≤ args.term ∧ rf.lastSnapshotIncludeIndex < args.lastsnapshotincludeindex ∧
    args.lastsnapshotincludeindex < rf.getLastLogIndex ∧
    ¬ rf.HasEntry args.lastsnapshotincludeindex args.lastsnapshotincludeterm

instance {n : ℕ} {C D : Type} (rf : Raft n C D) (args : InstallSnapshotRequest n D) :
    Decidable (rf.KeepsStaleSuffix args) := by
  unfold Raft.KeepsStaleSuffix
  infer_instance

namespace Cluster

variable {n : ℕ} {C D : Type} {c c' : Cluster n C D} {pre pre' : Fin n → List (LogEntry C)}
  {saved saved' : Fin n → Saved n C D} {votes votes' : Fin n → ℤ → Option (Fin n)}
  {polls polls' : List (Fin n × ℤ)} {A A' : State (Fin n) (LogEntry C)}

/-- The condition on a step: no request leaves a stale suffix. -/
def NoStaleAppend (c : Cluster n C D) : Action n C D → Prop
  | .deliver k => match c.threads[k]? with
    | some (.sendAppendEntries _ server args _ .calling) =>
      ¬ (c.raft server).LeavesStaleSuffix args
    | _ => True
  | _ => True

/-- The condition on a step: no snapshot is put in front of a stale suffix. -/
def NoStaleInstall (c : Cluster n C D) : Action n C D → Prop
  | .deliver k => match c.threads[k]? with
    | some (.leaderSendSnapShot _ server (some (args, .calling))) =>
      ¬ (c.raft server).KeepsStaleSuffix args
    | _ => True
  | _ => True

/-- The condition on a step: neither a request nor a snapshot leaves a stale suffix, and a snapshot
thread reads its node while the node is leader. -/
def LeavesNoStale (c : Cluster n C D) (a : Action n C D) : Prop :=
  c.NoStaleAppend a ∧ c.NoStaleInstall a ∧ c.ReadsAsLeader a

instance (c : Cluster n C D) (a : Action n C D) : Decidable (c.NoStaleAppend a) := by
  induction a using Action.casesOn with
  | deliver k =>
    dsimp only [NoStaleAppend]
    rcases c.threads[k]? with _ | _ | ⟨_, _, _, _, _ | _⟩ | _ | _ <;> infer_instance
  | _ => dsimp only [NoStaleAppend]; infer_instance

instance (c : Cluster n C D) (a : Action n C D) : Decidable (c.NoStaleInstall a) := by
  induction a using Action.casesOn with
  | deliver k =>
    dsimp only [NoStaleInstall]
    rcases c.threads[k]? with _ | _ | _ | ⟨_, _, _ | ⟨_, _ | _⟩⟩ | _ <;> infer_instance
  | _ => dsimp only [NoStaleInstall]; infer_instance

instance (c : Cluster n C D) (a : Action n C D) : Decidable (c.LeavesNoStale a) :=
  inferInstanceAs (Decidable (_ ∧ _ ∧ _))

/-! ### Heartbeats -/

/-- What a heartbeat starts: what the leader with the whole log would send as well, or a snapshot
thread. -/
theorem RefinesWhole.heartBeatThread (h : RefinesWhole c votes A pre saved)
    (hi : Elections c votes polls) (hindexed : c.Indexed) {i : Fin n}
    {beats : List (HeartBeat n C)} (heq : (c.raft i).doHeartBeat = .ok (some beats)) (p : ℕ)
    {t : Thread n C D} (ht : t ∈ beats.map (heartBeatThread i p)) :
    (t.ofLog → ThreadRefines A t) ∧ SnapshotRefines A t := by
  obtain ⟨hl, hbeats⟩ := doHeartBeat_eq heq
  obtain ⟨b, hb, rfl⟩ := List.mem_map.1 ht
  obtain ⟨j, hj, hto⟩ := exists_of_forall₂ hbeats hb
  have hne : j ≠ i := by
    rw [hi.me] at hj
    simpa [peers] using hj
  cases b with
  | leaderSendSnapShot server =>
    refine ⟨fun hlog => (Bool.false_ne_true hlog).elim, ?_, fun args phase hcall => by cases hcall⟩
    rcases heartBeatTo_cases hto with ⟨hb, -⟩ | ⟨prev, term, -, hb⟩
    · obtain rfl := HeartBeat.leaderSendSnapShot.inj hb
      exact hne
    · cases hb
  | sendAppendEntries server args =>
    refine ⟨fun _ => ?_, trivial⟩
    obtain rfl : server = j := by
      rcases heartBeatTo_cases hto with ⟨hb, -⟩ | ⟨prev, term, -, hb⟩
      · cases hb
      · exact (HeartBeat.sendAppendEntries.inj hb).1
    have hwhole := (h.dropped i).heartBeatTo (hindexed.node i).contiguous (saved i) hto
    obtain ⟨args', hthread, href, -⟩ := h.refines.heartBeatTo hi.whole (i := i) hl p hwhole
    change Cluster.heartBeatThread i p _ = _ at hthread
    rw [hthread]
    exact href hne

theorem RefinesWhole.doHeartBeat (h : RefinesWhole c votes A pre saved)
    (hi : Elections c votes polls) (hindexed : c.Indexed) (hb' : c'.Beats) {i : Fin n}
    {beats : List (HeartBeat n C)} (heq : (c.raft i).doHeartBeat = .ok (some beats))
    (hc' : c' = { c.spawn (beats.map (Cluster.heartBeatThread i c.appendNums.length)) with
      appendNums := c.appendNums ++ [1] }) : Compacts A c' (recordVotes c' votes) := by
  have hr := h.refines
  have hraft : ∀ j, c'.raft j = c.raft j := by simp [hc']
  have hthreads : c'.threads =
      c.threads ++ beats.map (Cluster.heartBeatThread i c.appendNums.length) := by
    rw [hc']
    rfl
  have helec : c'.elections = c.elections := by rw [hc']; rfl
  have hprocs : ∀ j, (c'.whole pre saved).procs j = (c.whole pre saved).procs j := by
    intro j
    change ({ raft := (c'.raft j).whole (pre j) (saved j) } : Process n C D) = _
    rw [hraft]
    rfl
  obtain ⟨htally, hround⟩ := hb'.heartbeats_whole
  rw [recordVotes_of_raft hi hraft]
  have hr' : Refines (c'.whole pre saved) votes A := by
    refine hr.update hr.inv (.refl A) i (fun j _ => hprocs j) (fun j _ => ⟨rfl, rfl⟩)
      (by rw [hprocs]; exact hr.node i) (fun t ht => ?_) (hr.same_reign (.refl A) rfl helec).1
      (hr.same_reign (.refl A) rfl helec).2 (fun v T x h => h) (fun v T x h => Or.inl h)
      (fun v T x l h => Or.inl h) htally hround
    obtain ⟨ht, hlog⟩ := List.mem_filter.1 ht
    rw [hthreads, List.mem_append] at ht
    exact ht.imp (fun ht => List.mem_filter.2 ⟨ht, hlog⟩) fun ht =>
      (h.heartBeatThread hi hindexed heq _ ht).1 hlog
  refine h.goOn hr' (.refl A) (fun j => (hraft j).symm ▸ h.dropped j) (fun t ht => ?_)
    fun j msg hm => ?_
  · rw [hthreads, List.mem_append] at ht
    exact ht.imp id fun ht => (h.heartBeatThread hi hindexed heq _ ht).2
  · subst hc'
    exact Or.inl hm

/-! ### Log replication -/

theorem RefinesWhole.appendEntries1 [DecidableEq C] (h : RefinesWhole c votes A pre saved)
    (hi : Elections c votes polls) (hi' : Elections c' (recordVotes c' votes) polls')
    (hindexed : c.Indexed) (hb' : c'.Beats) {k p : ℕ} {me server : Fin n}
    {args : AppendEntriesArgs n C} {rf : Raft n C D} {r : AppendEntriesReply}
    (hk : c.threads[k]? = some (.sendAppendEntries me server args p .calling))
    (heq : (c.raft server).appendEntries1 args = .ok (rf, r))
    (hclean : ¬ (c.raft server).LeavesStaleSuffix args)
    (hc' : c' = (c.setRaft server rf).setThread k
      (.sendAppendEntries me server args p (.replied r))) :
    Compacts A c' (recordVotes c' votes) := by
  subst hc'
  have hmem := List.mem_of_getElem? hk
  have hcont : ContiguousFrom args.prevlogindex args.entries := hindexed.thread _ hmem
  obtain ⟨k', hk', hset⟩ := filter_set (p := Thread.ofLog) hk rfl
  rcases appendEntries1_cases heq with ⟨hno, hlog, hkeep, habs⟩ |
    ⟨hok, -, -, -, hmatch, rf₁, rf₂, hlog, -, -, -, hm, hrf⟩
  · -- the reply may carry another hint than with the whole log
    refine h.quiet hi (setRaft_raft c server · rf) hkeep habs hlog.toSameEntries hlog.commitIndex
      rfl hb' (fun t ht => ?_) (fun t ht => ?_) fun j msg hm =>
        Or.inl (emitted_setRaft server j rf ▸ hm)
    · rw [setThread_threads, setRaft_threads, hset _ rfl] at ht
      refine (List.mem_or_eq_of_mem_set ht).imp id ?_
      rintro rfl
      obtain ⟨hne, r₀, q, hs, -⟩ := h.refines.thread _ (List.mem_of_getElem? hk')
      refine ⟨hne, r₀, q, hs, fun reply' hreply hok => ?_⟩
      obtain rfl := Option.some.inj hreply
      exact (Bool.false_ne_true (hno.symm.trans hok)).elim
    · refine (List.mem_or_eq_of_mem_set ht).imp id ?_
      rintro rfl A' -
      trivial
  · obtain ⟨_, hx, hsuccess⟩ := (h.dropped server).appendEntries1
      (hindexed.node server).contiguous (saved server) args _ heq
    obtain ⟨sv, rfl⟩ := hsuccess hok
    have hclean' : (c.whole pre saved).NoStaleSuffix (.deliver k') := by
      simp only [NoStaleSuffix, whole_threads, hk']
      exact fun hs => hclean ((h.dropped server).leavesStaleSuffix (saved server) hcont hmatch hs)
    have hdropped : rf.Dropped (pre server) := by
      rw [hrf, foldlM_mergeEntry_logs hm]
      exact (h.dropped server).of_point hlog.lastSnapshotIncludeIndex hlog.lastSnapshotIncludeTerm
    refine h.of_moves hi hi' (.appendEntries1 hk' hx) hclean'
      (whole_eq (whole_section (setRaft_raft c server · rf)) (hset _ rfl).symm rfl rfl rfl)
      (h.dropped_update hdropped (setRaft_raft c server · rf)) (mem_set_ofLog rfl)
      (emitted_setRaft server · rf)

/-! ### Snapshots -/

theorem Certified.of_le {T : ℤ} {l : List (LogEntry C)} {commit commit' : ℤ}
    (h : Certified A T l commit) (hle : commit' ≤ commit) : Certified A T l commit' := by
  rcases h with h | ⟨T', r, i, hT, hr, hc, hi, hl⟩
  · exact Or.inl (hle.trans h)
  · refine Or.inr ⟨T', r, i, hT, hr, hc, hle.trans hi, ?_⟩
    have := congrArg (List.take commit'.toNat) hl
    rwa [List.take_take, List.take_take, min_eq_left (by omega)] at this

/-- What a leader sends as a snapshot is committed. -/
theorem RefinesWhole.snapshotSent (h : RefinesWhole c votes A pre saved)
    (hi : Elections c votes polls) (hindexed : c.Indexed) {me : Fin n} (data : D)
    (hl : (c.raft me).status = .leader) :
    ∃ r k, SnapshotSent A me ((c.raft me).leaderSendSnapShot data) r k := by
  have hn := h.refines.node me
  have hd := h.dropped me
  have ho := hindexed.node me
  obtain ⟨r, hreign, hlead, hlog⟩ := h.refines.reign_of_leader hi.whole (i := me) hl
  have hterm : A.term me = (c.raft me).currentTerm := hn.term
  have hwhole : A.log me = pre me ++ (c.raft me).logs := hn.log
  have hcommit : Certified A (c.raft me).currentTerm (pre me ++ (c.raft me).logs)
    (c.raft me).commitIndex := hn.commit
  rw [hwhole] at hlog
  rw [hterm] at hreign
  refine ⟨r, (pre me).length, hreign, hlead, hd.length.symm, ?_, ?_, ?_⟩
  · rw [hlog, List.length_append]
    omega
  · rw [hlog, List.take_left]
    exact hd.term.symm
  · rw [hlog, hd.length]
    exact hcommit.of_le (ho.snapshot_le.trans ho.applied_le)

/-- The log of a node that has taken over a snapshot and keeps no stale suffix. -/
theorem RefinesWhole.installed (h : RefinesWhole c votes A pre saved) (hindexed : c.Indexed)
    {me server : Fin n} {args : InstallSnapshotRequest n D} {r : Reign (Fin n) (LogEntry C)}
    {k : ℕ} (hs : SnapshotSent A me args r k) (hterm : (c.raft server).currentTerm ≤ args.term)
    (hlo : (c.raft server).lastSnapshotIncludeIndex < args.lastsnapshotincludeindex)
    (hclean : ¬ (c.raft server).KeepsStaleSuffix args) {logs : List (LogEntry C)}
    (hlogs : logs = if (c.raft server).getLastLogIndex > args.lastsnapshotincludeindex then
      (c.raft server).logs.drop
        (args.lastsnapshotincludeindex - (c.raft server).lastSnapshotIncludeIndex).toNat else []) :
    r.log.take k ++ logs = A.log server ∧ r.log.take k <+: A.log server ∨
      r.log.take k ++ logs = r.log.take k ∧ (A.log server).length ≤ k := by
  have hr := h.refines
  obtain ⟨hreign, -, hidx, hk, hT, -⟩ := hs
  have hn := hr.node server
  have hd := h.dropped server
  have hlen := hd.length
  have hlast := (hindexed.node server).getLastLogIndex
  have hwhole : A.log server = pre server ++ (c.raft server).logs := hn.log
  have hcont : ContiguousFrom 0 (A.log server) := hn.log_contiguous
  rw [hlogs]
  split_ifs with hlt
  · -- the node has the entry at the snapshot point, and so the log up to there
    refine Or.inl ?_
    have hentry : (c.raft server).HasEntry args.lastsnapshotincludeindex
        args.lastsnapshotincludeterm := by
      by_contra hno
      exact hclean ⟨hterm, hlo, hlt, hno⟩
    obtain ⟨e, he, hindex, hte⟩ := hentry
    obtain ⟨j, rfl⟩ : ∃ j, k = j + 1 := ⟨k - 1, by omega⟩
    obtain ⟨q, hq⟩ := List.mem_iff_getElem?.1 (hwhole ▸ List.mem_append_right _ he)
    have hqj := hcont q e hq
    obtain rfl : q = j := by omega
    obtain ⟨e', he'⟩ : ∃ e', r.log[q]? = some e' := ⟨_, List.getElem?_eq_getElem (by omega)⟩
    have htake : (A.log server).take (q + 1) = r.log.take (q + 1) := by
      refine (hr.inv.coherent server).take_eq (hr.inv.reign _ r hreign).coherent hq he' ?_
      rw [lastTerm_take he'] at hT
      exact hte.trans hT
    rw [← htake]
    refine ⟨?_, List.take_prefix _ _⟩
    conv_rhs => rw [← List.take_append_drop (q + 1) (A.log server)]
    rw [hwhole, List.drop_append,
      List.drop_of_length_le (show (pre server).length ≤ q + 1 by omega), List.nil_append]
    congr 2
    omega
  · refine Or.inr ⟨List.append_nil _, ?_⟩
    rw [hwhole, List.length_append]
    omega

/-- The commit index of a node that has taken over a snapshot. -/
theorem SnapshotSent.commit (hinv : Inv tm A) {me : Fin n} {args : InstallSnapshotRequest n D}
    {r : Reign (Fin n) (LogEntry C)} {k : ℕ} (hs : SnapshotSent A me args r k) {T : ℤ}
    (hT : T ≤ args.term) {l l' : List (LogEntry C)} {commit : ℤ} (hcommit : Certified A T l commit)
    (hl : r.log.take k ++ l' = l ∧ r.log.take k <+: l ∨
      r.log.take k ++ l' = r.log.take k ∧ l.length ≤ k) :
    Certified A args.term (r.log.take k ++ l') (max commit args.lastsnapshotincludeindex) := by
  obtain ⟨hreign, -, hidx, hk, -, hcert⟩ := hs
  rw [hidx]
  rcases le_total commit k with hle | hle
  · rw [max_eq_right hle]
    refine hcert.congr ?_
    rw [Int.toNat_natCast, List.take_append_of_le_length (by rw [List.length_take_of_le hk]),
      List.take_take, min_self]
  · rw [max_eq_left hle]
    rcases hl with ⟨heq, -⟩ | ⟨heq, hlen⟩
    · rw [heq]
      exact hcommit.mono (.refl A) hT
    · rw [heq]
      exact hcommit.of_reign hinv hT hreign hlen

/-- A node takes over a snapshot: the protocol accepts what the snapshot stands for. -/
theorem RefinesWhole.acceptSnapshot (h : RefinesWhole c votes A pre saved)
    (hi : Elections c votes polls) (hindexed : c.Indexed) (hb' : c'.Beats) {me server : Fin n}
    {args : InstallSnapshotRequest n D} {r : Reign (Fin n) (LogEntry C)} {k : ℕ}
    (hs : SnapshotSent A me args r k) (hne : server ≠ me)
    (hterm : (c.raft server).currentTerm ≤ args.term)
    (hlo : (c.raft server).lastSnapshotIncludeIndex < args.lastsnapshotincludeindex)
    (hclean : ¬ (c.raft server).KeepsStaleSuffix args) {rf : Raft n C D}
    {reply : InstallSnapshotResponse} {msg : Option (ApplyMsg C D)}
    (heq : (c.raft server).installSnapshot args = .ok (rf, reply, msg))
    (hraft : ∀ j, c'.raft j = if j = server then rf else c.raft j)
    (hskip : c'.threads.filter Thread.ofLog = c.threads.filter Thread.ofLog)
    (helec : c'.elections = c.elections)
    (hthread : ∀ t ∈ c'.threads, t ∈ c.threads ∨ ∀ A', Grows A A' → SnapshotRefines A' t)
    (hemitted : ∀ j, (c'.procs j).emitted = (c.procs j).emitted) :
    Compacts A c' (recordVotes c' votes) := by
  have hr := h.refines
  have hn := hr.node server
  obtain ⟨hreign, hlead, hidx, hk, hT, -⟩ := id hs
  obtain ⟨rf', reply', msg', heq', -, hindex, hpoint⟩ :=
    (hindexed.node server).contiguous.installSnapshot_eq hterm hlo
  obtain rfl : rf' = rf := congrArg Prod.fst (Except.ok.inj (heq'.symm.trans heq))
  rcases installSnapshot_cases heq with ⟨-, hsame⟩ | ⟨-, -, -, -, hlogs, hcommit, -⟩
  · have := hsame.lastSnapshotIncludeIndex
    omega
  have hl := h.installed hindexed hs hterm hlo hclean hlogs
  have hrfT : rf'.currentTerm = args.term := by
    rcases installSnapshot_role heq with ⟨hlt, -⟩ | ⟨-, -, hT⟩
    · omega
    · exact hT
  -- what the node has dropped now
  have hcontr : ContiguousFrom 0 r.log := (hr.reign _ r hreign).2.1
  have hdropped : rf'.Dropped (r.log.take k) :=
    dropped_take hcontr hk (hindex.trans hidx) (hpoint.trans hT)
  have hcont : ContiguousFrom 0 (r.log.take k ++ rf'.logs) := by
    rcases hl with ⟨heq, -⟩ | ⟨heq, -⟩
    · rw [heq]
      exact hn.log_contiguous
    · rw [heq]
      exact hcontr.take k
  -- the step of the protocol
  have hle : A.term server ≤ args.term := hn.term.trans_le hterm
  have hAT : (A.advance server args.term).term server = args.term := by
    rw [State.advance_term, if_pos rfl]
  have hinv := hr.inv.advance hle
  have hstep : Step tm (A.advance server args.term) _ :=
    .accept server r k (r.log.take k ++ rf'.logs) (by rw [hAT]; exact hreign) hk
      (hl.imp id fun h => ⟨by rw [hlead]; exact hne.symm, h⟩)
  have hg := (hr.inv.grows (.advance server _ hle)).trans (hinv.grows hstep)
  obtain ⟨hkeep, habs⟩ := keeps_installSnapshot heq
  have hkeeps := keeps_of_update hkeep hraft
  have hwhole : ∀ j, (c'.whole (Function.update pre server (r.log.take k)) saved).procs j =
      if j = server then { raft := rf'.whole (r.log.take k) (saved server) }
      else (c.whole pre saved).procs j := by
    intro j
    change ({ raft := (c'.raft j).whole _ (saved j) } : Process n C D) = _
    rw [hraft]
    split_ifs with hj
    · rw [hj, Function.update_self]
    · rw [Function.update_of_ne hj]
      rfl
  have hcert := hs.commit hr.inv hterm (hn.log ▸ hn.commit) hl
  obtain ⟨htally, hround⟩ := hb'.heartbeats_whole
  refine h.goOn (show Refines (c'.whole (Function.update pre server (r.log.take k)) saved)
    (recordVotes c' votes) _ from ?_) hg (fun j => ?_)
    (fun t ht => (hthread t ht).imp id fun h => h _ hg) fun j msg hm => Or.inl (hemitted j ▸ hm)
  · refine hr.update (hinv.step hstep) hg server (fun j hj => by rw [hwhole, if_neg hj])
      (fun j hj => ⟨by rw [State.setAck_term, State.advance_term, if_neg hj], by simp [hj]⟩) ?_
      (fun t ht => Or.inl (by rwa [whole_threads, hskip] at ht)) (hr.same_reign hg rfl helec).1
      (hr.same_reign hg rfl helec).2 (fun v T x => hi.record_mono fun j => (hkeeps j).toKeepsVote)
      (fun v T x h => Or.inl (hi.record_of_abstains (abstains_of_update habs hraft) h))
      (fun v T x l h => Or.inl h) htally hround
    rw [hwhole, if_pos rfl]
    refine NodeRefines.of_log (hAT.trans hrfT.symm) (Function.update_self ..)
      (hrfT ▸ hn.term_nonneg.trans hterm) rfl rfl hcont ?_ (by simp [Process.emitted])
    change Certified _ rf'.currentTerm _ rf'.commitIndex
    rw [hrfT, hcommit]
    exact hcert.mono hg le_rfl
  · rw [hraft]
    split_ifs with hj
    · rwa [hj, Function.update_self]
    · rw [Function.update_of_ne hj]
      exact h.dropped j

theorem RefinesWhole.installSnapshot [DecidableEq C] (h : RefinesWhole c votes A pre saved)
    (hi : Elections c votes polls) (hindexed : c.Indexed) (hb' : c'.Beats) {k : ℕ}
    {me server : Fin n} {args : InstallSnapshotRequest n D} {rf : Raft n C D}
    {reply : InstallSnapshotResponse} {msg : Option (ApplyMsg C D)}
    (hk : c.threads[k]? = some (.leaderSendSnapShot me server (some (args, .calling))))
    (heq : (c.raft server).installSnapshot args = .ok (rf, reply, msg))
    (hclean : ¬ (c.raft server).KeepsStaleSuffix args)
    (hc' : c' = ((c.setRaft server rf).setThread k
      (.leaderSendSnapShot me server (some (args, .replied reply)))).spawn
        (msg.toList.map fun msg => .pushMsgToKvServer server msg false)) :
    Compacts A c' (recordVotes c' votes) := by
  have hraft : ∀ j, c'.raft j = if j = server then rf else c.raft j := by simp [hc']
  have hemitted : ∀ j, (c'.procs j).emitted = (c.procs j).emitted := by
    intro j
    rw [hc']
    exact emitted_setRaft server j rf
  have helec : c'.elections = c.elections := by rw [hc']; rfl
  have hthreads : c'.threads =
      c.threads.set k (.leaderSendSnapShot me server (some (args, .replied reply))) ++
        msg.toList.map fun msg => .pushMsgToKvServer server msg false := by rw [hc']; rfl
  have hskip : c'.threads.filter Thread.ofLog = c.threads.filter Thread.ofLog := by
    rw [hthreads, List.filter_append,
      filter_set_of_not hk Bool.false_ne_true Bool.false_ne_true, List.append_right_eq_self]
    refine List.filter_eq_nil_iff.2 fun t ht => ?_
    obtain ⟨m, -, rfl⟩ := List.mem_map.1 ht
    exact Bool.false_ne_true
  obtain ⟨hne, hcall⟩ := h.thread _ (List.mem_of_getElem? hk)
  -- the call goes on, and the message is a snapshot
  have hnew : ∀ t ∈ c'.threads, t ∈ c.threads ∨ ∀ A', Grows A A' → SnapshotRefines A' t := by
    intro t ht
    rw [hthreads] at ht
    rcases List.mem_append.1 ht with ht | ht
    · refine (List.mem_or_eq_of_mem_set ht).imp id ?_
      rintro rfl A' hg
      have href : SnapshotRefines A
          (.leaderSendSnapShot me server (some (args, .replied reply)) : Thread n C D) := by
        refine ⟨hne, fun args' phase heq => ?_⟩
        obtain ⟨rfl, -⟩ := Prod.mk.inj (Option.some.inj heq)
        exact hcall args _ rfl
      exact href.mono hg
    · obtain ⟨m, -, rfl⟩ := List.mem_map.1 ht
      exact Or.inr fun _ _ => trivial
  rcases installSnapshot_cases heq with ⟨-, hlog⟩ | ⟨-, hterm, hlo, -⟩
  · obtain ⟨hkeep, habs⟩ := keeps_installSnapshot heq
    exact h.quiet hi hraft hkeep habs hlog.toSameEntries hlog.commitIndex helec hb'
      (fun t ht => Or.inl (hskip ▸ ht)) hnew fun j msg hm => Or.inl (hemitted j ▸ hm)
  · obtain ⟨r, m, hs⟩ := hcall args _ rfl
    exact h.acceptSnapshot hi hindexed hb' hs hne hterm hlo hclean heq hraft hskip helec hnew
      hemitted

/-! ### All steps -/

/-- A thread that the whole logs do not see changes, and no node. -/
theorem RefinesWhole.setThread (h : RefinesWhole c votes A pre saved) (hi : Elections c votes polls)
    {k : ℕ} {t t' : Thread n C D} (hk : c.threads[k]? = some t) (ht : ¬ t.ofLog)
    (ht' : ¬ t'.ofLog) (href : SnapshotRefines A t') :
    Compacts A (c.setThread k t') (recordVotes (c.setThread k t') votes) := by
  refine h.stutter hi (fun j => rfl) (filter_set_of_not hk ht ht') rfl rfl rfl (fun x hx => ?_)
    fun i msg hm => Or.inl hm
  refine (List.mem_or_eq_of_mem_set hx).imp id ?_
  rintro rfl
  exact href

/-- **Simulation with compaction.**  Every step that leaves nothing stale keeps the cluster a
compacted form of one that refines the protocol. -/
theorem RefinesWhole.step [DecidableEq C] (h : RefinesWhole c votes A pre saved)
    (hi : Elections c votes polls) (hi' : Elections c' (recordVotes c' votes) polls')
    (hindexed : c.Indexed) (hb' : c'.Beats) {a : Action n C D} (hm : Moves c a c')
    (ha : c.LeavesNoStale a) : Compacts A c' (recordVotes c' votes) := by
  cases hm with
  | exit i f => exact h.queues hi rfl fun msg hm => Or.inl hm
  | idle =>
    exact h.stutter hi (fun _ => rfl) rfl rfl rfl rfl (fun t ht => Or.inl ht)
      fun i msg hm => Or.inl hm
  | doElection heq => exact h.doElection hi hi' heq rfl
  | doHeartBeat heq => exact h.doHeartBeat hi hindexed hb' heq rfl
  | start command => exact h.start hi hi' command rfl
  | getApplyLogs hm heq => exact h.getApplyLogs hi hb' heq rfl
  | @pushApplyMsg i msg msgs hm =>
    exact h.queues hi rfl fun m hmem => Or.inl (by simpa [Process.emitted, hm] using hmem)
  | @consumeCommand i command index msgs hm =>
    exact h.queues hi rfl fun m hmem => Or.inl (by simpa [Process.emitted, hm] using hmem)
  | @consumeSnapshot i data term index msgs rf b hm heq =>
    -- the snapshot is not ahead of the commit index, and is declined
    rw [hindexed.condInstallSnapshot hm] at heq
    obtain ⟨rfl, -⟩ := Prod.mk.inj (Except.ok.inj heq)
    exact h.queues hi rfl fun m hmem => Or.inl (by simpa [Process.emitted, hm] using hmem)
  | snapshot hm heq => exact h.snapshot hi hindexed hb' heq rfl
  | requestVote hk heq => exact h.requestVote hi hi' hk heq rfl
  | @appendEntries1 k me server args p rf r hk heq =>
    have hclean := ha.1
    simp only [NoStaleAppend, hk] at hclean
    exact h.appendEntries1 hi hi' hindexed hb' hk heq hclean rfl
  | @installSnapshot k me server args rf r msg hk heq =>
    have hclean := ha.2.1
    simp only [NoStaleInstall, hk] at hclean
    exact h.installSnapshot hi hindexed hb' hk heq hclean rfl
  | sendRequestVote hk heq => exact h.sendRequestVote hi hi' hk heq rfl
  | sendAppendEntries hk heq => exact h.sendAppendEntries hi hi' hk heq rfl
  | snapshotReply hk => exact h.snapshotReply hi hb' hk rfl
  | @loseVote k me server args p phase hk hw =>
    obtain ⟨k', hk', hset⟩ := filter_set (p := Thread.ofLog) hk rfl
    exact h.of_moves hi hi' (.loseVote hk' hw) trivial
      (whole_eq (fun _ => rfl) (hset _ rfl).symm rfl rfl rfl) h.dropped (mem_set_ofLog rfl)
      fun _ => rfl
  | @loseAppend k me server args p phase hk hw =>
    obtain ⟨k', hk', hset⟩ := filter_set (p := Thread.ofLog) hk rfl
    exact h.of_moves hi hi' (.loseAppend hk' hw) trivial
      (whole_eq (fun _ => rfl) (hset _ rfl).symm rfl rfl rfl) h.dropped (mem_set_ofLog rfl)
      fun _ => rfl
  | @loseSnapshot k me server args phase hk hw =>
    obtain ⟨hne, hcall⟩ := h.thread _ (List.mem_of_getElem? hk)
    refine h.setThread hi hk Bool.false_ne_true Bool.false_ne_true ⟨hne, fun args' phase' heq => ?_⟩
    obtain ⟨rfl, -⟩ := Prod.mk.inj (Option.some.inj heq)
    exact hcall args phase rfl
  | @leaderSendSnapShot k me server data hk =>
    have hlead := ha.2.2
    simp only [ReadsAsLeader, hk] at hlead
    obtain ⟨hne, -⟩ := h.thread _ (List.mem_of_getElem? hk)
    refine h.setThread hi hk Bool.false_ne_true Bool.false_ne_true ⟨hne, fun args' phase' heq => ?_⟩
    obtain ⟨rfl, -⟩ := Prod.mk.inj (Option.some.inj heq)
    exact h.snapshotSent hi hindexed data hlead
  | @pushMsgToKvServer k me msg hk =>
    obtain ⟨data, term, index, rfl, -⟩ := hindexed.thread _ (List.mem_of_getElem? hk) rfl
    refine h.stutter hi (fun j => ?_) (filter_set_of_not hk Bool.false_ne_true Bool.false_ne_true)
      rfl rfl rfl (fun t ht => ?_) fun j m hmem => ?_
    · rw [setThread_raft, setProc_raft]
      split_ifs with hj
      · rw [hj]
        rfl
      · rfl
    · refine (List.mem_or_eq_of_mem_set ht).imp id ?_
      rintro rfl
      trivial
    · rw [setThread_procs, setProc_procs] at hmem
      split_ifs at hmem with hj
      · have hcases : m ∈ (c.procs j).emitted ∨ m = .snapshot data term index := by
          rw [hj]
          simp only [Process.emitted, List.mem_append, List.mem_singleton] at hmem ⊢
          tauto
        rcases hcases with hm | rfl
        · exact Or.inl hm
        · exact Or.inr fun hno => absurd rfl hno
      · exact Or.inl hmem

/-! ### Runs -/

/-- What is known about a reachable cluster; `A` is what the protocol remembers. -/
def Remembers (c : Cluster n C D) (A : State (Fin n) (LogEntry C)) : Prop :=
  ∃ votes polls pre saved, Elections c votes polls ∧ c.Indexed ∧ c.Beats ∧
    RefinesWhole c votes A pre saved

theorem remembers_init : Remembers (init : Cluster n C D) State.init :=
  ⟨_, _, _, _, elections_init, indexed_init, beats_init, refinesWhole_init⟩

theorem Remembers.step [DecidableEq C] (h : Remembers c A) {a : Action n C D}
    (ha : c.LeavesNoStale a) (hst : c.step a = some c') : ∃ A', Remembers c' A' ∧ Grows A A' := by
  obtain ⟨votes, polls, pre, saved, hi, hindexed, hb, hr⟩ := h
  have hm := moves_of_step hst
  obtain ⟨polls', hi'⟩ := hi.step hm
  have hb' := hb.step hindexed hm
  obtain ⟨A', pre', saved', hg, hr'⟩ := hr.step hi hi' hindexed hb' hm ha
  exact ⟨A', ⟨_, polls', pre', saved', hi', hindexed.step hm, hb', hr'⟩, hg⟩

/-- Throughout every run that leaves nothing stale the cluster is a compacted form of one that
refines the protocol, and the protocol takes nothing back. -/
theorem Remembers.reaches [DecidableEq C] (h : Remembers c A)
    (hrun : (machine n C D).Reaches LeavesNoStale c c') :
    ∃ A', Remembers c' A' ∧ Grows A A' := by
  induction hrun with
  | refl => exact ⟨A, h, .refl A⟩
  | tail _ ha hst ih =>
    obtain ⟨A₁, h₁, hg₁⟩ := ih
    obtain ⟨A₂, h₂, hg₂⟩ := h₁.step ha hst
    exact ⟨A₂, h₂, hg₁.trans hg₂⟩

end Cluster

end KvRaft
