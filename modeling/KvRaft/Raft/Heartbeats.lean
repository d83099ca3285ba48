import KvRaft.Raft.Refinement
import KvRaft.Raft.Terms

/-!
# Heartbeats and what their answers mean

The calls of one heartbeat share a counter.  All of them send the log of the leader up to its end
at that moment, from different points on.

* `Raft.Holds` : a node has an entry with the index and term, in its log or as its snapshot point.
* `Cluster.Beats` : the invariant of heartbeats.  The counters are backed by processed successes,
  and calls that share a counter have sender, term, and index and term of the last entry in common.
* `Cluster.sent_success` : who has answered with success held the last entry when it answered.
* `Cluster.processed_reply` : every reply that was processed was once on its way.
* `Cluster.leader_before` : who leads a term has led it ever since it was elected.
-/

namespace KvRaft

open Raft Consensus

section Requests

variable {n : ℕ} {C D : Type}

/-- The index up to which a request goes. -/
def AppendEntriesArgs.lastIndex (args : AppendEntriesArgs n C) : ℤ :=
  args.prevlogindex + args.entries.length

/-- The term of the last entry of a request, or of the entry before it when it is empty. -/
def AppendEntriesArgs.lastTerm (args : AppendEntriesArgs n C) : ℤ :=
  (args.entries.getLast?.map (·.logterm)).getD args.prevlogterm

namespace Raft

variable {rf rf' : Raft n C D}

/-- **The node has an entry with index `N` and term `T`**, in its log or as its snapshot
point. -/
def Holds (rf : Raft n C D) (N T : ℤ) : Prop :=
  (∃ e ∈ rf.logs, e.logindex = N ∧ e.logterm = T) ∨
    rf.lastSnapshotIncludeIndex = N ∧ rf.lastSnapshotIncludeTerm = T

theorem Contiguous.holds (hc : rf.Contiguous) {N T : ℤ}
    (h : rf.getLogTermFromLogIndex N = .ok T) : rf.Holds N T := by
  obtain ⟨hlo, -, ⟨rfl, rfl⟩ | ⟨hne, e, he, rfl⟩⟩ := getLogTermFromLogIndex_eq_ok.1 h
  · exact Or.inr ⟨rfl, rfl⟩
  · obtain ⟨hlt, -, hget⟩ := logOf_eq_ok.1 he
    have := hc _ e hget
    exact Or.inl ⟨e, List.mem_of_getElem? hget, by omega, rfl⟩

theorem Holds.of_sameEntries {N T : ℤ} (h : rf.Holds N T) (hs : rf.SameEntries rf') :
    rf'.Holds N T := by
  unfold Holds
  rw [hs.logs, hs.lastSnapshotIncludeIndex, hs.lastSnapshotIncludeTerm]
  exact h

theorem getLastLogTerm_eq (rf : Raft n C D) : rf.getLastLogTerm =
    (rf.logs.getLast?.map (·.logterm)).getD rf.lastSnapshotIncludeTerm := by
  unfold getLastLogTerm getLastLogIndexAndTerm
  cases rf.logs.getLast? <;> rfl

/-- The term at the end of a log without gaps. -/
theorem Contiguous.getLogTerm_last (hc : rf.Contiguous) {T : ℤ}
    (h : rf.getLogTermFromLogIndex rf.getLastLogIndex = .ok T) : rf.getLastLogTerm = T := by
  have hlast := hc.getLastLogIndex
  rw [getLastLogTerm_eq]
  obtain ⟨-, -, ⟨heq, rfl⟩ | ⟨hne, e, he, rfl⟩⟩ := getLogTermFromLogIndex_eq_ok.1 h
  · have hnil : rf.logs = [] := List.length_eq_zero_iff.1 (by omega)
    rw [hnil]
    rfl
  · obtain ⟨hlt, -, hget⟩ := logOf_eq_ok.1 he
    have hlen : (rf.getLastLogIndex - rf.lastSnapshotIncludeIndex - 1).toNat =
      rf.logs.length - 1 := by omega
    rw [List.getLast?_eq_getElem?, ← hlen, hget]
    rfl

/-- **What a heartbeat sends**: the rest of the log. -/
theorem Ordered.heartBeatTo (ho : rf.Ordered) {i : Fin n} {args : AppendEntriesArgs n C}
    (h : rf.heartBeatTo i = .ok (.sendAppendEntries i args)) :
    args.term = rf.currentTerm ∧ args.lastIndex = rf.getLastLogIndex ∧
      args.lastTerm = rf.getLastLogTerm ∧ args.leadercommit = rf.commitIndex ∧
      args.entries = rf.logs.drop (args.prevlogindex - rf.lastSnapshotIncludeIndex).toNat := by
  rcases heartBeatTo_cases h with ⟨hb, -⟩ | ⟨prev, term, hprev, hb⟩
  · cases hb
  obtain ⟨-, rfl⟩ := HeartBeat.sendAppendEntries.inj hb
  obtain ⟨hlo, hhi, -⟩ := getLogTermFromLogIndex_eq_ok.1 hprev
  have hlast := ho.contiguous.getLastLogIndex
  refine ⟨rfl, ?_, ?_, rfl, rfl⟩
  · simp only [AppendEntriesArgs.lastIndex, List.length_drop]
    omega
  · simp only [AppendEntriesArgs.lastTerm, List.getLast?_drop]
    split_ifs with hlen
    · -- the request starts at the end of the log
      obtain rfl : prev = rf.getLastLogIndex := by omega
      exact (ho.contiguous.getLogTerm_last hprev).symm
    · obtain ⟨e, he⟩ : ∃ e, rf.logs.getLast? = some e := by
        cases hl : rf.logs.getLast? with
        | some e => exact ⟨e, rfl⟩
        | none => simp [List.getLast?_eq_none_iff.1 hl] at hlen
      rw [getLastLogTerm_eq, he]
      rfl

/-- **What a success says**: the node holds the last entry of the request. -/
theorem Ordered.success [DecidableEq C] (ho : rf.Ordered) {args : AppendEntriesArgs n C}
    {reply : AppendEntriesReply} (he : ContiguousFrom args.prevlogindex args.entries)
    (h : rf.appendEntries1 args = .ok (rf', reply)) (hok : reply.success = true) :
    reply.term = args.term ∧ rf'.Holds args.lastIndex args.lastTerm := by
  rcases appendEntries1_cases h with
    ⟨hno, -⟩ | ⟨-, hreply, -, hprev, hmatch, rf₁, rf₂, hs, -, -, -, hm, rfl⟩
  · rw [hok] at hno
    cases hno
  refine ⟨hreply, ?_⟩
  obtain ⟨hlo, hhi, t, ht, hterm⟩ := matchLog_eq_ok.1 hmatch
  obtain rfl : args.prevlogterm = t := by simpa using hterm
  obtain ⟨q, hq⟩ : ∃ q : ℕ, args.prevlogindex = rf.lastSnapshotIncludeIndex + q :=
    ⟨(args.prevlogindex - rf.lastSnapshotIncludeIndex).toNat, by omega⟩
  have hlast := ho.contiguous.getLastLogIndex
  have hle : q ≤ rf.logs.length := by omega
  have hc : rf₁.Contiguous := (ho.of_sameLog hs).ordered.contiguous
  have he₁ : ContiguousFrom (rf₁.lastSnapshotIncludeIndex + q) args.entries := by
    rwa [hs.lastSnapshotIncludeIndex, ← hq]
  obtain ⟨hrf₂, -⟩ := foldlM_mergeEntry q hc (hs.logs ▸ hle) he₁ hm
  have hlogs : rf₂.logs =
      rf.logs.take q ++ args.entries ++ rf.logs.drop (q + args.entries.length) := by
    rw [hrf₂, hs.logs]
  unfold AppendEntriesArgs.lastTerm AppendEntriesArgs.lastIndex
  rcases List.eq_nil_or_concat args.entries with hnil | ⟨l, e, hl⟩
  · -- the node had the entry before
    have hsame : rf.SameEntries (Raft.persist { rf₂ with
        commitIndex := if args.leadercommit > rf₂.commitIndex then
          min args.leadercommit rf₂.getLastLogIndex else rf₂.commitIndex }) := by
      refine ⟨?_, ?_, ?_⟩ <;> dsimp only [Raft.persist]
      · rw [hlogs, hnil, List.append_nil, List.length_nil, Nat.add_zero, List.take_append_drop]
      · rw [hrf₂]
        exact hs.lastSnapshotIncludeIndex
      · rw [hrf₂]
        exact hs.lastSnapshotIncludeTerm
    have := (ho.contiguous.holds ht).of_sameEntries hsame
    simpa [hnil] using this
  · -- the entry has been written
    have hindex := he l.length e (by simp [hl])
    refine Or.inl ⟨e, ?_, ?_, by simp [hl]⟩
    · change e ∈ rf₂.logs
      rw [hlogs, hl]
      simp
    · rw [hindex, hl, List.length_concat]
      push_cast
      omega

end Raft

end Requests

/-- The peer that a heartbeat turns to. -/
def Raft.HeartBeat.server {n : ℕ} {C : Type} : HeartBeat n C → Fin n
  | .leaderSendSnapShot server => server
  | .sendAppendEntries server _ => server

/-- What the calls of one heartbeat have in common. -/
structure Beat (n : ℕ) where
  appendNums : ℕ
  me : Fin n
  term : ℤ
  lastIndex : ℤ
  lastTerm : ℤ

/-- The heartbeat that started a thread. -/
def Thread.beat {n : ℕ} {C D : Type} : Thread n C D → Option (Beat n)
  | .sendAppendEntries me _ args appendNums _ =>
    some ⟨appendNums, me, args.term, args.lastIndex, args.lastTerm⟩
  | _ => none

namespace Cluster

variable {n : ℕ} {C D : Type} {c c' : Cluster n C D} {a : Action n C D} {i : Fin n}

theorem exists_of_beat {x : Beat n} (h : some x ∈ c.threads.map Thread.beat) :
    ∃ (k : ℕ) (server : Fin n) (args : AppendEntriesArgs n C) (phase : Phase AppendEntriesReply),
      c.threads[k]? = some (.sendAppendEntries x.me server args x.appendNums phase) ∧
        args.term = x.term ∧ args.lastIndex = x.lastIndex ∧ args.lastTerm = x.lastTerm := by
  obtain ⟨t, ht, hx⟩ := List.mem_map.1 h
  obtain ⟨k, hk⟩ := List.mem_iff_getElem?.1 ht
  cases t with
  | sendAppendEntries me server args p phase =>
    obtain rfl := Option.some.inj hx
    exact ⟨k, server, args, phase, hk, rfl, rfl, rfl⟩
  | sendRequestVote => cases hx
  | leaderSendSnapShot => cases hx
  | pushMsgToKvServer => cases hx

/-- **The invariant of heartbeats.** -/
structure Beats (c : Cluster n C D) : Prop where
  tally : Tally (c.threads.map Thread.appendBallot) c.appendNums fun _ => 0
  same : ∀ x y, some x ∈ c.threads.map Thread.beat → some y ∈ c.threads.map Thread.beat →
    x.appendNums = y.appendNums → x = y

theorem beats_init : Beats (init : Cluster n C D) where
  tally := .nil
  same x y h := by cases h

variable [DecidableEq C]

omit [DecidableEq C] in
/-- A heartbeat turns to every peer once. -/
theorem servers_doHeartBeat {rf : Raft n C D} {beats : List (HeartBeat n C)}
    (h : rf.doHeartBeat = .ok (some beats)) : beats.map HeartBeat.server = peers rf.me :=
  (map_eq_of_forall₂ ((doHeartBeat_eq h).2.imp fun i b hb => by
    rcases heartBeatTo_cases hb with ⟨rfl, -⟩ | ⟨_, _, -, rfl⟩ <;> rfl)).trans (List.map_id _)

omit [DecidableEq C] in
theorem tally_doHeartBeat {counts : List ℕ} {bs : List (Option (Ballot (Fin n)))}
    (h : Tally bs counts fun _ => 0) {i : Fin n} {beats : List (HeartBeat n C)}
    (hb : (c.raft i).doHeartBeat = .ok (some beats)) :
    Tally (bs ++ (beats.map (heartBeatThread (D := D) i counts.length)).map Thread.appendBallot)
      (counts ++ [1]) fun _ => 0 := by
  have hcall : ∀ (b : HeartBeat n C) (x : Ballot (Fin n)),
      (heartBeatThread (D := D) i counts.length b).appendBallot = some x →
      x = ⟨counts.length, b.server, false⟩ := by
    intro b x hx
    cases b with
    | leaderSendSnapShot => cases hx
    | sendAppendEntries server args => exact (Option.some.inj hx).symm
  have hget : ∀ (k : ℕ) (x : Ballot (Fin n)),
      ((beats.map (heartBeatThread (D := D) i counts.length)).map Thread.appendBallot)[k]? =
        some (some x) → (peers (c.raft i).me)[k]? = some x.voter := by
    intro k x hk
    rw [List.map_map, List.getElem?_map] at hk
    obtain ⟨b, hb', hx⟩ := Option.map_eq_some_iff.1 hk
    rw [← servers_doHeartBeat hb, List.getElem?_map, hb', hcall b x hx]
    rfl
  refine h.openPoll (fun x hx => ?_) (fun k k' x x' hk hk' hv => ?_) rfl fun _ _ => le_rfl
  · obtain ⟨t, ht, hx⟩ := List.mem_map.1 hx
    obtain ⟨b, -, rfl⟩ := List.mem_map.1 ht
    obtain rfl := hcall b x hx
    rfl
  · have hnodup : (peers (c.raft i).me).Nodup := (List.nodup_finRange n).filter _
    obtain ⟨hi, hik⟩ := List.getElem?_eq_some_iff.1 (hget k x hk)
    obtain ⟨hj, hjk⟩ := List.getElem?_eq_some_iff.1 (hget k' x' hk')
    exact hnodup.getElem_inj_iff.1 ((hik.trans hv).trans hjk.symm)

/-- **Every step keeps the counters backed.** -/
theorem Beats.tally_step (hb : c.Beats) (h : Moves c a c') :
    Tally (c'.threads.map Thread.appendBallot) c'.appendNums fun _ => 0 := by
  -- a call that goes on without a success, and threads that belong to no heartbeat
  have hset : ∀ {k : ℕ} {t : Thread n C D} (t' : Thread n C D), c.threads[k]? = some t →
      t'.appendBallot = t.appendBallot →
      Tally ((c.threads.set k t').map Thread.appendBallot) c.appendNums fun _ => 0 := by
    intro k t t' hk ht
    rw [map_set_of_eq _ hk ht]
    exact hb.tally
  have hspawn : ∀ {ts l : List (Thread n C D)},
      Tally (ts.map Thread.appendBallot) c.appendNums (fun _ => 0) →
      (∀ t ∈ l, t.appendBallot = none) →
      Tally ((ts ++ l).map Thread.appendBallot) c.appendNums fun _ => 0 := by
    intro ts l ht hl
    rw [List.map_append]
    refine ht.skip fun b hb => ?_
    obtain ⟨t, ht, rfl⟩ := List.mem_map.1 hb
    exact hl t ht
  cases h with
  | exit | idle | start | getApplyLogs | pushApplyMsg | consumeCommand | consumeSnapshot
  | snapshot => exact hb.tally
  | doElection =>
    refine hspawn hb.tally fun t ht => ?_
    obtain ⟨call, -, rfl⟩ := List.mem_map.1 ht
    rfl
  | doHeartBeat h =>
    have := tally_doHeartBeat hb.tally h
    rwa [← List.map_append] at this
  | requestVote hk | sendRequestVote hk | loseVote hk | snapshotReply hk | loseSnapshot hk
  | leaderSendSnapShot _ hk | pushMsgToKvServer hk | appendEntries1 hk => exact hset _ hk rfl
  | @loseAppend k me server args p phase hk hw =>
    refine hset _ hk ?_
    cases phase with
    | calling | replied => rfl
    | done => cases hw
  | installSnapshot hk =>
    refine hspawn (hset _ hk rfl) fun t ht => ?_
    obtain ⟨m, -, rfl⟩ := List.mem_map.1 ht
    rfl
  | @sendAppendEntries k me server args p r rf num hk h =>
    obtain ⟨-, -, -, -, hnum, hyes, -⟩ := sendAppendEntries_cases h
    have hball : (c.threads.map Thread.appendBallot)[k]? = some (some ⟨p, server, false⟩) := by
      simp [hk, Thread.appendBallot, Phase.succeeded]
    have := hb.tally.processed hball hnum hyes
    rwa [setThread_threads, setRaft_threads, List.map_set]

/-- The call of a heartbeat was there before, or the heartbeat has just started it. -/
theorem beat_step (hi : c.Indexed) (h : Moves c a c') {x : Beat n}
    (hx : some x ∈ c'.threads.map Thread.beat) :
    some x ∈ c.threads.map Thread.beat ∨ a = .doHeartBeat x.me ∧
      x = ⟨c.appendNums.length, x.me, (c.raft x.me).currentTerm, (c.raft x.me).getLastLogIndex,
        (c.raft x.me).getLastLogTerm⟩ := by
  obtain ⟨t, ht, hx⟩ := List.mem_map.1 hx
  obtain ⟨k, hk⟩ := List.mem_iff_getElem?.1 ht
  cases t with
  | sendAppendEntries me server args p phase =>
    obtain rfl := Option.some.inj hx
    have hold : ∀ {phase}, c.threads[k]? = some (.sendAppendEntries me server args p phase) →
        some ⟨p, me, args.term, args.lastIndex, args.lastTerm⟩ ∈ c.threads.map Thread.beat :=
      fun hk => List.mem_map.2 ⟨_, List.mem_of_getElem? hk, rfl⟩
    cases callMoves h hk with
    | stays hk₀ | lost hk₀ => exact Or.inl (hold hk₀)
    | delivered rf reply _ hk₀ => exact Or.inl (hold hk₀)
    | processed reply _ hk₀ => exact Or.inl (hold hk₀)
    | started ha _ _ hb hp =>
      obtain ⟨hterm, hindex, hlast, -⟩ := (hi.node me).heartBeatTo hb
      exact Or.inr ⟨ha, by rw [hp, hterm, hindex, hlast]⟩
  | sendRequestVote => cases hx
  | leaderSendSnapShot => cases hx
  | pushMsgToKvServer => cases hx

theorem Beats.step (hb : c.Beats) (hi : c.Indexed) (h : Moves c a c') : c'.Beats := by
  refine ⟨hb.tally_step h, fun x y hx hy hxy => ?_⟩
  -- the counter of a heartbeat is new
  have hold : ∀ {z : Beat n}, some z ∈ c.threads.map Thread.beat →
      z.appendNums < c.appendNums.length := by
    intro z hz
    obtain ⟨k, server, args, phase, hk, -⟩ := exists_of_beat hz
    exact hb.tally.poll_lt ⟨z.appendNums, server, phase.succeeded⟩
      (List.mem_map.2 ⟨_, List.mem_of_getElem? hk, rfl⟩)
  rcases beat_step hi h hx with hx | ⟨hax, hx⟩ <;> rcases beat_step hi h hy with hy | ⟨hay, hy⟩
  · exact hb.same x y hx hy hxy
  · have := hold hx
    rw [hxy, hy] at this
    exact absurd this (lt_irrefl _)
  · have := hold hy
    rw [← hxy, hx] at this
    exact absurd this (lt_irrefl _)
  · obtain hme : x.me = y.me := by
      rw [hax] at hay
      exact Action.doHeartBeat.inj hay
    rw [hx, hy, hme]

omit [DecidableEq C] in
/-- Who was counted in a heartbeat has answered a call for the same last entry. -/
theorem Beats.exists_of_voter (hb : c.Beats) {k : ℕ} {me server v : Fin n}
    {args : AppendEntriesArgs n C} {p : ℕ} {phase : Phase AppendEntriesReply}
    (hk : c.threads[k]? = some (.sendAppendEntries me server args p phase))
    (hv : v ∈ voters (c.threads.map Thread.appendBallot) p) :
    ∃ (k' : ℕ) (args' : AppendEntriesArgs n C) (reply : AppendEntriesReply),
      c.threads[k']? = some (.sendAppendEntries me v args' p (.done (some reply))) ∧
        reply.success = true ∧ args'.term = args.term ∧ args'.lastIndex = args.lastIndex ∧
        args'.lastTerm = args.lastTerm := by
  obtain ⟨t, ht, hball⟩ := List.mem_map.1 (mem_voters.1 hv)
  obtain ⟨k', hk'⟩ := List.mem_iff_getElem?.1 ht
  cases t with
  | sendAppendEntries me' v' args' p' phase' =>
    simp only [Thread.appendBallot, Option.some.injEq, Ballot.mk.injEq] at hball
    obtain ⟨rfl, rfl, hok⟩ := hball
    have hsame := hb.same _ _ (List.mem_map_of_mem ht)
      (List.mem_map_of_mem (List.mem_of_getElem? hk)) rfl
    obtain ⟨-, rfl, hterm, hindex, hlast⟩ := Beat.mk.inj hsame
    cases phase' with
    | done o =>
      cases o with
      | some reply => exact ⟨k', args', reply, hk', hok, hterm, hindex, hlast⟩
      | none => cases hok
    | calling => cases hok
    | replied => cases hok
  | sendRequestVote => cases hball
  | leaderSendSnapShot => cases hball
  | pushMsgToKvServer => cases hball

theorem beats_of_reachable (h : (machine n C D).Reachable init c) : c.Beats := by
  induction h with
  | refl => exact beats_init
  | tail hr _ hst ih => exact ih.step (indexed_of_reachable hr) (moves_of_step hst)

/-- A call that is done stays so. -/
theorem done_step (h : Moves c a c') {k : ℕ} {me server : Fin n} {args : AppendEntriesArgs n C}
    {p : ℕ} {r : Option AppendEntriesReply}
    (hk : c.threads[k]? = some (.sendAppendEntries me server args p (.done r))) :
    c'.threads[k]? = some (.sendAppendEntries me server args p (.done r)) := by
  have hlt := (List.getElem?_eq_some_iff.1 hk).1
  have hspawn : ∀ {ts l : List (Thread n C D)}, ts[k]? = c.threads[k]? → k < ts.length →
      (ts ++ l)[k]? = some (.sendAppendEntries me server args p (.done r)) := by
    intro ts l hts hlen
    rw [List.getElem?_append_left hlen, hts, hk]
  -- another thread moves
  have hset : ∀ {m : ℕ} {t t' : Thread n C D}, c.threads[m]? = some t →
      t ≠ .sendAppendEntries me server args p (.done r) →
      (c.threads.set m t')[k]? = c.threads[k]? := by
    intro m t t' hm hne
    refine List.getElem?_set_ne ?_
    rintro rfl
    exact hne (Option.some.inj (hm.symm.trans hk))
  cases h with
  | exit | idle | start | getApplyLogs | pushApplyMsg | consumeCommand | consumeSnapshot
  | snapshot => exact hk
  | doElection | doHeartBeat => exact hspawn rfl hlt
  | requestVote hm | sendRequestVote hm | loseVote hm | snapshotReply hm | loseSnapshot hm
  | leaderSendSnapShot _ hm | pushMsgToKvServer hm | appendEntries1 hm | sendAppendEntries hm =>
    exact (hset hm nofun).trans hk
  | loseAppend hm hw =>
    refine (hset hm ?_).trans hk
    rintro ⟨⟩
    cases hw
  | installSnapshot hm => exact hspawn (hset hm nofun) (by simpa using hlt)

/-- A success of heartbeat `p` has been processed. -/
def Succeeded (c : Cluster n C D) (p : ℕ) : Prop :=
  ∃ (k : ℕ) (me server : Fin n) (args : AppendEntriesArgs n C) (reply : AppendEntriesReply),
    c.threads[k]? = some (.sendAppendEntries me server args p (.done (some reply))) ∧
      reply.success = true

/-- **A counter at zero was reset by a success.** -/
theorem succeeded_of_zero (h : (machine n C D).Reachable init c) {p : ℕ}
    (hp : c.appendNums[p]? = some 0) : c.Succeeded p := by
  induction h with
  | refl => simp [init] at hp
  | @tail c c' a hr _ hst ih =>
    have hm := moves_of_step hst
    have hold : c.appendNums[p]? = some 0 → c'.Succeeded p := by
      intro hp
      obtain ⟨k, me, server, args, reply, hk, hok⟩ := ih hp
      exact ⟨k, me, server, args, reply, done_step hm hk, hok⟩
    cases hm with
    | exit | idle | start | getApplyLogs | pushApplyMsg | consumeCommand | consumeSnapshot
    | snapshot | doElection | requestVote | appendEntries1 | installSnapshot | sendRequestVote
    | snapshotReply | loseVote | loseAppend | loseSnapshot | leaderSendSnapShot
    | pushMsgToKvServer => exact hold hp
    | doHeartBeat =>
      rcases getElem?_append_threads hp with hp | ⟨-, hone⟩
      · exact hold hp
      · cases List.mem_singleton.1 hone
    | @sendAppendEntries k me server args q r rf num hk h =>
      rcases getElem?_threads (l := []) (by simpa using hp) with ⟨rfl, hnum⟩ | hp | ⟨-, hmem⟩
      · have hsame : num = c.appendNums.getD p 0 → c.appendNums[p]? = some 0 := by
          intro hsame
          have hlt : p < c.appendNums.length := by
            have := (List.getElem?_eq_some_iff.1 hp).1
            simpa using this
          rw [List.getD_eq_getElem?_getD, List.getElem?_eq_getElem hlt, Option.getD_some] at hsame
          rw [List.getElem?_eq_getElem hlt, ← hsame, hnum]
        generalize hcount : c.appendNums.getD p 0 = count at h
        cases appendReply h with
        | ignored | newer | refused => exact hold (hsame hcount.symm)
        | counted => cases hnum
        | completed _ _ hok =>
          refine ⟨k, me, server, args, r, ?_, hok⟩
          exact List.getElem?_set_self (List.getElem?_eq_some_iff.1 hk).1
      · exact hold hp
      · cases hmem

/-! ### Answers -/

/-- **Who has answered with success held the last entry** when it sent the answer. -/
theorem sent_success (h : (machine n C D).Reachable init c) {k : ℕ} {me server : Fin n}
    {args : AppendEntriesArgs n C} {p : ℕ} {phase : Phase AppendEntriesReply}
    (hk : c.threads[k]? = some (.sendAppendEntries me server args p phase))
    {reply : AppendEntriesReply} (hreply : phase.reply? = some reply)
    (hok : reply.success = true) : reply.term = args.term ∧
      ∃ c₀ c₁, (machine n C D).Reachable init c₀ ∧ c₀.step (.deliver k) = some c₁ ∧
        c₁.threads[k]? = some (.sendAppendEntries me server args p (.replied reply)) ∧
        (c₁.raft server).Holds args.lastIndex args.lastTerm ∧
        (machine n C D).Reachable c₁ c := by
  induction h generalizing phase with
  | refl => simp [init] at hk
  | @tail c c' a hr _ hst ih =>
    -- the answer was sent before
    have hgo : ∀ {phase : Phase AppendEntriesReply},
        c.threads[k]? = some (.sendAppendEntries me server args p phase) →
        phase.reply? = some reply → reply.term = args.term ∧
        ∃ c₀ c₁, (machine n C D).Reachable init c₀ ∧ c₀.step (.deliver k) = some c₁ ∧
          c₁.threads[k]? = some (.sendAppendEntries me server args p (.replied reply)) ∧
          (c₁.raft server).Holds args.lastIndex args.lastTerm ∧
          (machine n C D).Reachable c₁ c' := by
      intro phase hk hreply
      obtain ⟨hterm, c₀, c₁, h₀, hdeliver, hk₁, hholds, hr₁⟩ := ih hk hreply
      exact ⟨hterm, c₀, c₁, h₀, hdeliver, hk₁, hholds, hr₁.tail trivial hst⟩
    cases callMoves (moves_of_step hst) hk with
    | stays hk₀ => exact hgo hk₀ hreply
    | processed r _ hk₀ => exact hgo hk₀ hreply
    | lost | started => cases hreply
    | delivered rf r ha hk₀ hrf hc' =>
      obtain rfl := Option.some.inj hreply
      have hi := indexed_of_reachable hr
      obtain ⟨hterm, hholds⟩ :=
        (hi.node server).success (hi.thread _ (List.mem_of_getElem? hk₀)) hrf hok
      exact ⟨hterm, c, c', hr, ha ▸ hst, hk, hc' ▸ hholds, .refl⟩

/-- A reply that was processed was once on its way. -/
theorem processed_reply (h : (machine n C D).Reachable init c) {k : ℕ} {me server : Fin n}
    {args : AppendEntriesArgs n C} {p : ℕ} {reply : AppendEntriesReply}
    (hk : c.threads[k]? = some (.sendAppendEntries me server args p (.done (some reply)))) :
    ∃ c₀ c₁, (machine n C D).Reachable init c₀ ∧
      c₀.threads[k]? = some (.sendAppendEntries me server args p (.replied reply)) ∧
      c₀.step (.reply k) = some c₁ ∧ (machine n C D).Reachable c₁ c := by
  induction h with
  | refl => simp [init] at hk
  | @tail c c' a hr _ hst ih =>
    cases callMoves (moves_of_step hst) hk with
    | stays hk₀ =>
      obtain ⟨c₀, c₁, h₀, hk₁, hstep, hr₁⟩ := ih hk₀
      exact ⟨c₀, c₁, h₀, hk₁, hstep, hr₁.tail trivial hst⟩
    | processed r ha hk₀ => exact ⟨c, c', hr, hk₀, ha ▸ hst, .refl⟩

/-- A reply is processed, or ends its process. -/
theorem appendReply_of_step {k : ℕ} {me server : Fin n} {args : AppendEntriesArgs n C} {p : ℕ}
    {reply : AppendEntriesReply}
    (hk : c.threads[k]? = some (.sendAppendEntries me server args p (.replied reply)))
    (hst : c.step (.reply k) = some c') :
    (c'.raft me = c.raft me ∧ c'.threads = c.threads) ∨
      ∃ num, (c.raft me).AppendReply server args reply (c.appendNums.getD p 0) (c'.raft me) num ∧
        c'.threads =
          c.threads.set k (.sendAppendEntries me server args p (.done (some reply))) := by
  have hm := moves_of_step hst
  cases hm with
  | exit i f => exact Or.inl ⟨exit_raft c i me f, rfl⟩
  | idle => exact Or.inl ⟨rfl, rfl⟩
  | sendRequestVote hk' | snapshotReply hk' =>
    rw [hk] at hk'
    cases hk'
  | @sendAppendEntries _ _ _ _ _ _ rf num hk' h =>
    rw [hk] at hk'
    cases hk'
    exact Or.inr ⟨num, by simpa using appendReply h, rfl⟩

/-! ### Leaders -/

theorem elections_subset_run (h : (machine n C D).Reachable c c') :
    c.elections ⊆ c'.elections := by
  induction h with
  | refl => exact List.Subset.refl _
  | tail _ _ hst ih => exact List.Subset.trans ih (elections_subset (moves_of_step hst))

/-- **Who leads a term has led it** ever since it was elected. -/
theorem leader_before (h : (machine n C D).Reachable init c) (h' : (machine n C D).Reachable c c')
    {i : Fin n} (hl : (c'.raft i).status = .leader) {T : ℤ}
    (hT : (c'.raft i).currentTerm = T) (he : (i, T) ∈ c.elections) :
    (c.raft i).status = .leader ∧ (c.raft i).currentTerm = T := by
  induction h' with
  | refl => exact ⟨hl, hT⟩
  | tail hr _ hst ih =>
    rcases leader_of_step (h.trans hr) hst hl with ⟨hl₀, hterm⟩ | hnone
    · exact ih hl₀ (hterm.symm.trans hT)
    · exact absurd (elections_subset_run hr he) (hT ▸ hnone i)

omit [DecidableEq C] in
/-- The last entry of a log without gaps, or the snapshot point. -/
theorem last_mem (hc : (c.raft i).Contiguous) :
    (∃ e ∈ (c.raft i).logs, e.logindex = (c.raft i).getLastLogIndex ∧
      e.logterm = (c.raft i).getLastLogTerm) ∨
      (c.raft i).getLastLogIndex = (c.raft i).lastSnapshotIncludeIndex := by
  rw [getLastLogTerm_eq]
  cases hl : (c.raft i).logs.getLast? with
  | none =>
    refine Or.inr ?_
    rw [hc.getLastLogIndex, List.getLast?_eq_none_iff.1 hl, List.length_nil]
    omega
  | some e =>
    refine Or.inl ⟨e, List.mem_of_getLast? hl, ?_, rfl⟩
    rw [List.getLast?_eq_getElem?] at hl
    have hindex := hc _ e hl
    have hlen := (List.getElem?_eq_some_iff.1 hl).1
    rw [hc.getLastLogIndex]
    omega

/-- A leader still has the last entry that it sends in its term, unless it has compacted that
away. -/
theorem sent_last (h : (machine n C D).Reachable init c) {k : ℕ} {me server : Fin n}
    {args : AppendEntriesArgs n C} {p : ℕ} {phase : Phase AppendEntriesReply}
    (hk : c.threads[k]? = some (.sendAppendEntries me server args p phase))
    (hl : (c.raft me).status = .leader) (hT : (c.raft me).currentTerm = args.term) :
    (∃ e ∈ (c.raft me).logs, e.logindex = args.lastIndex ∧ e.logterm = args.lastTerm) ∨
      args.lastIndex ≤ (c.raft me).lastSnapshotIncludeIndex := by
  induction h generalizing phase with
  | refl => simp [init] at hk
  | @tail c c' a hr _ hst ih =>
    have hm := moves_of_step hst
    have hi := indexed_of_reachable hr
    rcases callMoves_request hm hk with ⟨_, hold⟩ | ⟨-, -, hb, hsame⟩
    · rcases leader_of_step hr hst hl with ⟨hl₀, hterm⟩ | hnone
      swap
      · exact absurd (sendAppendEntries_elected hr hold) (hT ▸ hnone me)
      have hhas := ih hold hl₀ (hterm.symm.trans hT)
      cases hi.logMoves hm me with
      | same hs =>
        rw [hs.logs, hs.lastSnapshotIncludeIndex]
        exact hhas
      | start command _ hlogs hsnap =>
        rw [hlogs, hsnap]
        rcases hhas with ⟨e, hmem, hlast⟩ | hle
        · exact Or.inl ⟨e, List.mem_append_left _ hmem, hlast⟩
        · exact Or.inr hle
      | compact m hle hlogs hsnap =>
        rw [hlogs, hsnap]
        rcases hhas with ⟨e, hmem, hlast⟩ | hle
        · obtain ⟨j, hj⟩ := List.mem_iff_getElem?.1 hmem
          have hindex := (hi.node me).contiguous j e hj
          rcases lt_or_ge j m with hjm | hjm
          · exact Or.inr (by omega)
          · refine Or.inl ⟨e, List.mem_iff_getElem?.2 ⟨j - m, ?_⟩, hlast⟩
            rw [List.getElem?_drop, Nat.add_sub_cancel' hjm, hj]
        · exact Or.inr (by omega)
      | merge k q me' args' p' _ _ _ _ _ hf | install _ _ hf =>
        rw [hl] at hf
        cases hf
    · obtain ⟨-, hindex, hlast, -⟩ := (hi.node me).heartBeatTo hb
      rw [hsame, hindex, hlast]
      exact (last_mem (hi.node me).contiguous).imp id fun heq => heq.le

end Cluster

end KvRaft
