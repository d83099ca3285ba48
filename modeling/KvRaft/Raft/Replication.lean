import KvRaft.Raft.Simulation

/-!
# Simulation of log replication

* `Cluster.Refines.start`, `Cluster.Refines.appendEntries1`, `Cluster.Refines.sendAppendEntries` :
  appending, accepting and committing entries.
* `Cluster.Refines.step` : every step of the cluster that takes no snapshot and leaves no stale
  suffix keeps it related to the protocol.
* `Cluster.exists_refines` : so the relation holds throughout every run of such steps.

The condition enters once, in `Cluster.Refines.merged`: it is what makes the log of a follower a
log of the protocol.
-/

namespace KvRaft

open Consensus Raft

namespace Cluster

variable {n : ℕ} {C D : Type} {c c' : Cluster n C D}
  {votes : Fin n → ℤ → Option (Fin n)} {polls polls' : List (Fin n × ℤ)}
  {A A' : State (Fin n) (LogEntry C)}

/-! ### Leaders -/

/-- A leader of the cluster is the leader of its term in the protocol. -/
theorem Refines.reign_of_leader (hr : Refines c votes A) (hi : Elections c votes polls) {i : Fin n}
    (hl : (c.raft i).status = .leader) :
    ∃ r, A.reign (A.term i) = some r ∧ r.leader = i ∧ r.log = A.log i := by
  have hmem := hi.leader i hl
  rw [← procs_raft, ← (hr.node i).term] at hmem
  obtain ⟨r, hreign⟩ := Option.ne_none_iff_exists'.1 (hr.elected _ _ hmem)
  have hlead := hi.unique (hr.reign _ r hreign).1 hmem
  refine ⟨r, hreign, hlead, ?_⟩
  rw [← (hr.inv.reign _ r hreign).log_eq (by rw [hlead]), hlead]

theorem Refines.start (hr : Refines c votes A) (hi : Elections c votes polls) {i : Fin n}
    (command : C) (hc' : c' = c.setRaft i ((c.raft i).start command).1) :
    ∃ A', Follows c c' A A' ∧ Refines c' (recordVotes c' votes) A' := by
  have hn := hr.node i
  have hkeep : (c.raft i).Keeps ((c.raft i).start command).1 := keeps_start _ _
  have hraft : ∀ j, c'.raft j = if j = i then ((c.raft i).start command).1 else c.raft j := by
    simp [hc']
  have hkeeps := keeps_of_update hkeep hraft
  have habs : ∀ j, (c.raft j).Abstains (c'.raft j) :=
    abstains_of_update (abstains_start _ _) hraft
  have hprocs : ∀ j, c'.procs j =
      if j = i then { c.procs i with raft := ((c.raft i).start command).1 } else c.procs j := by
    simp [hc', setRaft_procs]
  have hmono := fun v T x => hi.record_mono (fun j => (hkeeps j).toKeepsVote) (v := v) (T := T)
    (x := x)
  have hvote := fun v T x (h : recordVotes c' votes v T = some x) =>
    hi.record_of_abstains habs h
  rcases (c.raft i).start_eq command with ⟨hsame, -⟩ | ⟨hl, hnew⟩
  · rw [hsame] at hprocs
    exact ⟨_, hr.quiet hprocs le_rfl ⟨rfl, rfl, rfl⟩ hn.commit hn.emitted (by rw [hc']; rfl)
      (fun t ht => Or.inl (by rw [hc'] at ht; exact ht)) hmono
      (fun v T x h => Or.inl (hvote v T x h)) (by rw [hc']; exact hr.tally)
      (by rw [hc']; exact hr.round)⟩
  obtain ⟨r, hreign, hlead, hlog⟩ := hr.reign_of_leader hi hl
  have hlast : (c.raft i).getLastLogIndex = (c.raft i).logs.length := hn.getLastLogIndex
  obtain ⟨e, he⟩ : ∃ e : LogEntry C,
      (⟨command, (c.raft i).currentTerm, (c.raft i).getLastLogIndex + 1⟩ : LogEntry C) = e :=
    ⟨_, rfl⟩
  rw [he] at hnew
  have hte : tm e = A.term i := by rw [← he]; exact hn.term.symm
  have hie : e.logindex = (A.log i).length + 1 := by
    rw [← he, hn.log]
    simp [hlast]
  have hstep : Step tm A _ := .append i r e hreign hlead hte
  have hlocal : Local tm i A _ := .append hreign hlead hte
  have hsaved : DurableOn id ((c.raft i).start command).1 := by
    rw [hnew]
    exact durableOn_persist _
  have hg := hr.inv.grows hstep
  have hcont : ContiguousFrom 0 (A.log i ++ [e]) := by
    exact hn.log_contiguous.append (.singleton (by rw [hie]; omega))
  refine ⟨_, .act hlocal hsaved hraft,
    hr.update (hr.inv.step hstep) hg i (fun j hj => by rw [hprocs, if_neg hj])
    (fun j hj => ⟨rfl, by simp [hj]⟩) ?_ (fun t ht => Or.inl (by rw [hc'] at ht; exact ht))
    (fun T r' hr' => ?_) (fun j T hj => ?_) hmono (fun v T x h => Or.inl (hvote v T x h))
    (fun v T x l h => Or.inl h) (by rw [hc']; exact hr.tally) (by rw [hc']; exact hr.round)⟩
  · rw [hprocs, if_pos rfl, hnew]
    have hlogs : A.log i ++ [e] = (c.raft i).logs ++ [e] := congrArg (· ++ [e]) hn.log
    exact NodeRefines.of_log hn.term ((Function.update_self ..).trans hlogs) hn.term_nonneg
      hn.snapshotIndex hn.snapshotTerm (hlogs ▸ hcont)
      ((hn.commit.of_isPrefix (List.prefix_append _ _)).mono hg le_rfl)
      fun msg hm => (hn.emitted msg hm).mono hg
  · by_cases hTc : T = A.term i
    · subst hTc
      obtain rfl : { r with log := A.log i ++ [e] } = r' := by simpa using hr'
      refine ⟨?_, hcont, ?_⟩
      · rw [hc']
        exact (hr.reign _ r hreign).1
      · rw [State.setAck_ack, if_pos ⟨hlead, rfl⟩]
        simp
    · obtain ⟨h₁, h₂, h₃⟩ := hr.reign T r' (by simpa [hTc] using hr')
      exact ⟨by rw [hc']; exact h₁, h₂, h₃.trans (hg.ack _ _)⟩
  · obtain ⟨r₁, hr₁⟩ := Option.ne_none_iff_exists'.1 (hr.elected j T (by rw [hc'] at hj; exact hj))
    obtain ⟨r₂, hr₂, -⟩ := hg.reign T r₁ hr₁
    rw [hr₂]
    simp

/-- What a heartbeat of the leader `i` starts for the peer `j`. -/
theorem Refines.heartBeatTo (hr : Refines c votes A) (hi : Elections c votes polls) {i j : Fin n}
    (hl : (c.raft i).status = .leader) {b : HeartBeat n C} (p : ℕ)
    (h : (c.raft i).heartBeatTo j = .ok b) :
    ∃ args : AppendEntriesArgs n C,
      heartBeatThread (D := D) i p b = .sendAppendEntries i j args p .calling ∧
      (j ≠ i → ThreadRefines A (.sendAppendEntries i j args p .calling : Thread n C D)) ∧
      args.term = (c.raft i).currentTerm ∧
      args.prevlogindex + args.entries.length = (c.raft i).logs.length := by
  have hn := hr.node i
  have hsnap : (c.raft i).lastSnapshotIncludeIndex = 0 := hn.snapshotIndex
  rcases heartBeatTo_cases h with ⟨-, h₁, h₂⟩ | ⟨prev, term, hterm, rfl⟩
  · omega
  obtain ⟨h₁, h₂, hlast⟩ := hn.getLogTermFromLogIndex hterm
  obtain ⟨r, hreign, hlead, hlog⟩ := hr.reign_of_leader hi hl
  rw [hn.log] at hlog
  obtain ⟨q, rfl⟩ : ∃ q : ℕ, prev = q := ⟨prev.toNat, by omega⟩
  have hlen : ((c.raft i).logs.drop q).length = (c.raft i).logs.length - q := List.length_drop
  have hq : q ≤ (c.raft i).logs.length := by exact_mod_cast h₂
  have hdrop : ((q : ℤ) - (c.raft i).lastSnapshotIncludeIndex).toNat = q := by omega
  rw [hdrop]
  refine ⟨_, by rw [hi.me]; rfl, fun hj => ⟨hj, r, q,
    ⟨?_, hlead, rfl, ?_, ?_, ?_, ?_, ?_⟩, by simp [Phase.reply?]⟩, rfl, ?_⟩
  · exact hn.term ▸ hreign
  · rw [hlog]
    simp only [procs_raft]
    omega
  · rw [hlog]
    exact (List.take_of_length_le le_rfl).symm
  · rw [hlog]
    simpa using hlast
  · have := hn.commit.le_length
    simp only [procs_raft] at this
    simp only [hlen]
    omega
  · rw [hlog]
    exact hn.commit
  · simp only [hlen]
    omega

theorem Refines.doHeartBeat (hr : Refines c votes A) (hi : Elections c votes polls) {i : Fin n}
    {beats : List (HeartBeat n C)} (h : (c.raft i).doHeartBeat = .ok (some beats))
    (hc' : c' = { c.spawn (beats.map (heartBeatThread i c.appendNums.length)) with
      appendNums := c.appendNums ++ [1] }) : Refines c' (recordVotes c' votes) A := by
  obtain ⟨hl, hbeats⟩ := doHeartBeat_eq h
  rw [hi.me] at hbeats
  have hpeer : ∀ j, j ∈ peers i → j ≠ i := by
    intro j hj
    simpa [peers] using hj
  have hraft : ∀ j, c'.raft j = c.raft j := by simp [hc']
  have hprocs : ∀ j, c'.procs j = c.procs j := by simp [hc']
  have hthreads : c'.threads = c.threads ++ beats.map (heartBeatThread i c.appendNums.length) := by
    rw [hc']
    rfl
  have helec : c'.elections = c.elections := by rw [hc']; rfl
  have hbeat : ∀ b ∈ beats, ∃ j ∈ peers i, (c.raft i).heartBeatTo j = .ok b :=
    fun b hb => exists_of_forall₂ hbeats hb
  refine hr.update hr.inv (.refl A) i (fun j _ => hprocs j) (fun j _ => ⟨rfl, rfl⟩)
    (by rw [hprocs]; exact hr.node i) (fun t ht => ?_) (hr.same_reign (.refl A) rfl helec).1
    (hr.same_reign (.refl A) rfl helec).2
    (fun v T x => hi.record_mono fun j => by rw [hraft]; exact (Keeps.refl _).toKeepsVote)
    (fun v T x h => Or.inl (hi.record_of_abstains (fun j => by rw [hraft]; exact .of_eq rfl rfl) h))
    (fun v T x l h => Or.inl h) ?_ fun x y hx hy hxy => ?_
  · rw [hthreads, List.mem_append] at ht
    refine ht.imp id fun ht => ?_
    obtain ⟨b, hb, rfl⟩ := List.mem_map.1 ht
    obtain ⟨j, hj, hto⟩ := hbeat b hb
    obtain ⟨args, hthread, href, -⟩ := hr.heartBeatTo hi hl c.appendNums.length hto
    rw [hthread]
    exact href (hpeer j hj)
  · have hmap : (beats.map (heartBeatThread (D := D) i c.appendNums.length)).map
        Thread.appendBallot = (peers i).map fun v => some ⟨c.appendNums.length, v, false⟩ := by
      rw [List.map_map]
      refine map_eq_of_forall₂ (hbeats.imp fun j b hto => ?_)
      obtain ⟨args, hthread, -⟩ := hr.heartBeatTo hi hl c.appendNums.length hto
      rw [Function.comp_apply, hthread]
      rfl
    rw [hthreads, List.map_append, hmap, hc']
    exact hr.tally.ask ((List.nodup_finRange n).filter _) rfl fun _ _ => le_rfl
  · -- the new calls agree, and their heartbeat is not an old one
    have hold : ∀ z, some z ∈ c.threads.map Thread.round → z.appendNums < c.appendNums.length := by
      intro z hz
      obtain ⟨t, ht, hz⟩ := List.mem_map.1 hz
      cases t with
      | sendAppendEntries me server args p phase =>
        obtain rfl := Option.some.inj hz
        exact hr.tally.poll_lt ⟨p, server, phase.succeeded⟩ (List.mem_map.2 ⟨_, ht, rfl⟩)
      | sendRequestVote => cases hz
      | leaderSendSnapShot => cases hz
      | pushMsgToKvServer => cases hz
    have hnew : ∀ z, some z ∈ (beats.map (heartBeatThread (D := D) i c.appendNums.length)).map
        Thread.round → z =
        ⟨c.appendNums.length, i, (c.raft i).currentTerm, (c.raft i).logs.length⟩ := by
      intro z hz
      obtain ⟨t, ht, hz⟩ := List.mem_map.1 hz
      obtain ⟨b, hb, rfl⟩ := List.mem_map.1 ht
      obtain ⟨j, -, hto⟩ := hbeat b hb
      obtain ⟨args, hthread, -, hterm, hlast⟩ := hr.heartBeatTo hi hl c.appendNums.length hto
      rw [hthread] at hz
      obtain rfl := Option.some.inj hz
      rw [hterm, hlast]
    rw [hthreads, List.map_append, List.mem_append] at hx hy
    rcases hx with hx | hx <;> rcases hy with hy | hy
    · exact hr.round x y hx hy hxy
    · have := hold x hx
      rw [hxy, hnew y hy] at this
      exact absurd this (lt_irrefl _)
    · have := hold y hy
      rw [← hxy, hnew x hx] at this
      exact absurd this (lt_irrefl _)
    · rw [hnew x hx, hnew y hy]

/-! ### Log replication -/

/-- The log after an accepted request that leaves no stale suffix: it starts with everything the
leader has sent, and it is the old log or ends there. -/
theorem Refines.merged [DecidableEq C] (hr : Refines c votes A) {me server : Fin n}
    {args : AppendEntriesArgs n C} {r : Reign (Fin n) (LogEntry C)} {q : ℕ}
    (hs : SentBy A me args r q) {rf₁ rf₂ : Raft n C D} (hlog : (c.raft server).SameLog rf₁)
    (hterm : (c.raft server).currentTerm ≤ args.term)
    (hprev : args.prevlogindex ≤ (c.raft server).getLastLogIndex)
    (hmatch : (c.raft server).matchLog args.prevlogindex args.prevlogterm = .ok true)
    (hclean : ¬ (c.raft server).LeavesStaleSuffix args)
    (hmerge : args.entries.foldlM mergeEntry rf₁ = .ok rf₂) :
    rf₂ = { rf₁ with logs := rf₂.logs } ∧
      (rf₂.logs = A.log server ∧ r.log.take (q + args.entries.length) <+: A.log server ∨
        rf₂.logs = r.log.take (q + args.entries.length) ∧
          (A.log server).length ≤ q + args.entries.length) := by
  refine ⟨foldlM_mergeEntry_logs hmerge, ?_⟩
  have hn := hr.node server
  have hlogs : rf₁.logs = A.log server := hlog.logs.trans hn.log.symm
  have hcont : ContiguousFrom 0 (A.log server) := hn.log_contiguous
  have hsnap : rf₁.lastSnapshotIncludeIndex = 0 :=
    hlog.lastSnapshotIncludeIndex.trans hn.snapshotIndex
  have hlast : (c.raft server).getLastLogIndex = (A.log server).length := by
    rw [hn.log]
    exact hn.getLastLogIndex
  have hq : q ≤ (A.log server).length := by
    rw [hs.prevlogindex, hlast] at hprev
    exact_mod_cast hprev
  -- the logs agree up to the entry before the first one that is sent
  have hpre : (A.log server).take q = r.log.take q := by
    obtain ⟨-, -, t, ht, heq⟩ := matchLog_eq_ok.1 hmatch
    obtain ⟨-, -, ht⟩ := hn.getLogTermFromLogIndex ht
    rw [hs.prevlogindex, Int.toNat_natCast, ← hn.log] at ht
    rw [decide_eq_true_eq, hs.prevlogterm, ht] at heq
    cases q with
    | zero => simp
    | succ k =>
      have he := List.getElem?_eq_getElem (show k < (A.log server).length by omega)
      have hlen := hs.le_length
      have he' := List.getElem?_eq_getElem (show k < r.log.length by omega)
      rw [lastTerm_take he, lastTerm_take he'] at heq
      exact (hr.inv.coherent server).take_eq (hr.inv.reign _ r hs.reign).coherent he he' heq.symm
  have hsent : r.log.take q ++ args.entries = r.log.take (q + args.entries.length) := by
    rw [List.take_add, ← hs.entries]
  have hentries : ContiguousFrom (0 + (q : ℤ)) args.entries := by
    rw [hs.entries]
    exact ((hr.reign _ r hs.reign).2.1.drop q).take _
  obtain ⟨hrf₂, hsame⟩ := foldlM_mergeEntry q (by unfold Contiguous; rwa [hlogs, hsnap])
    (hlogs ▸ hq) (by rwa [hsnap]) hmerge
  have hlogs₂ : rf₂.logs =
      r.log.take (q + args.entries.length) ++ (A.log server).drop (q + args.entries.length) := by
    rw [hrf₂, hlogs, hpre, hsent]
  rcases le_or_gt (A.log server).length (q + args.entries.length) with hle | hlt
  · exact Or.inr ⟨by rw [hlogs₂, List.drop_of_length_le hle, List.append_nil], hle⟩
  -- the log goes on, so the entries are there already
  have hagree : args.entries = ((A.log server).drop q).take args.entries.length := by
    refine List.ext_getElem? fun k => ?_
    rcases lt_or_ge k args.entries.length with hk | hk
    · have he := List.getElem?_eq_getElem hk
      have hown := List.getElem?_eq_getElem (show q + k < (A.log server).length by omega)
      rw [List.getElem?_take_of_lt hk, List.getElem?_drop, hown, he]
      refine congrArg some (hsame k _ _ (by rw [hlogs, hown]) he ?_).symm
      by_contra hne
      refine hclean ⟨hterm, hprev, hmatch, by rw [hs.prevlogindex, hlast]; exact_mod_cast hlt,
        _, ?_, _, List.mem_of_getElem? he, ?_, hne⟩
      · rw [← procs_raft, ← hn.log]
        exact List.mem_of_getElem? hown
      · rw [hcont _ _ hown, hentries _ _ he]
        push_cast
        omega
    · rw [List.getElem?_eq_none hk, List.getElem?_eq_none (by simp; omega)]
  have hall : r.log.take (q + args.entries.length) =
      (A.log server).take (q + args.entries.length) := by
    rw [← hsent, List.take_add, ← hagree, hpre]
  rw [hlogs₂, hall, List.take_append_drop]
  exact Or.inl ⟨rfl, List.take_prefix _ _⟩

/-- What was known to be committed still is after the log was replaced by a longer piece of the
log of a leader of the same or a later term. -/
theorem Certified.of_reign (hinv : Inv tm A) {T T' : ℤ} {l : List (LogEntry C)} {commit : ℤ}
    (h : Certified A T l commit) (hT : T ≤ T') {r : Reign (Fin n) (LogEntry C)}
    (hr : A.reign T' = some r) {m : ℕ} (hm : l.length ≤ m) :
    Certified A T' (r.log.take m) commit := by
  have hle := h.le_length
  rcases h with h | ⟨T₀, r₀, i, hT₀, hr₀, hc, hi, hl⟩
  · exact Or.inl h
  refine Or.inr ⟨T₀, r₀, i, hT₀.trans hT, hr₀, hc, hi, ?_⟩
  have hp := hinv.committed_isPrefix hc hr₀ hr (hT₀.trans hT)
  obtain ⟨r₁, e, -, hr₁, he, -⟩ := id hc
  obtain rfl : r₀ = r₁ := by simpa [hr₀] using hr₁
  have hlt := (List.getElem?_eq_some_iff.1 he).1
  have := take_eq_of_isPrefix (n := commit.toNat) hp (by rw [List.length_take]; omega)
  rw [List.take_take, min_eq_left (by omega)] at this ⊢
  exact this.symm

/-- The commit index of a follower after an accepted request. -/
theorem Refines.commit_merged (hr : Refines c votes A) {me server : Fin n}
    {args : AppendEntriesArgs n C} {r : Reign (Fin n) (LogEntry C)} {q : ℕ}
    (hs : SentBy A me args r q) (hterm : (c.raft server).currentTerm ≤ args.term)
    {l : List (LogEntry C)} {last : ℤ} (hlast : last = l.length)
    (hl : l = A.log server ∧ r.log.take (q + args.entries.length) <+: A.log server ∨
      l = r.log.take (q + args.entries.length) ∧
        (A.log server).length ≤ q + args.entries.length) :
    Certified A args.term l (if args.leadercommit > (c.raft server).commitIndex then
      min args.leadercommit last else (c.raft server).commitIndex) := by
  have hn := hr.node server
  have hle := hs.le_length
  have hpre : r.log.take (q + args.entries.length) <+: l := by
    rcases hl with ⟨rfl, h⟩ | ⟨rfl, -⟩
    · exact h
    · exact List.prefix_rfl
  split_ifs with hnew
  · -- the leader sends everything, so its commit index lies within what was sent
    have hcover : q + args.entries.length ≤ l.length := by
      have := hpre.length_le
      rwa [List.length_take_of_le hle] at this
    have hcommit := hs.leadercommit
    rw [min_eq_left (by omega)]
    refine hs.certified.congr ?_
    have := take_eq_of_isPrefix (n := args.leadercommit.toNat) hpre
      (by rw [List.length_take_of_le hle]; omega)
    rw [← this, List.take_take, min_eq_left (by omega)]
  · have hold := hn.commit
    rw [← hn.log] at hold
    rcases hl with ⟨rfl, -⟩ | ⟨rfl, hm⟩
    · exact hold.mono (.refl A) hterm
    · exact hold.of_reign hr.inv hterm hs.reign hm

/-- The node that has merged what a leader has sent. -/
theorem Refines.node_merged (hr : Refines c votes A) {me server : Fin n}
    {args : AppendEntriesArgs n C} {r : Reign (Fin n) (LogEntry C)} {q : ℕ}
    (hs : SentBy A me args r q) (hterm : (c.raft server).currentTerm ≤ args.term)
    {rf rf₁ : Raft n C D} (hlog : (c.raft server).SameLog rf₁)
    (hterm₁ : rf₁.currentTerm = args.term) {l : List (LogEntry C)}
    (hl : l = A.log server ∧ r.log.take (q + args.entries.length) <+: A.log server ∨
      l = r.log.take (q + args.entries.length) ∧
        (A.log server).length ≤ q + args.entries.length)
    (hrf : rf = Raft.persist { rf₁ with
      logs := l
      commitIndex := if args.leadercommit > rf₁.commitIndex then
        min args.leadercommit (Raft.getLastLogIndex { rf₁ with logs := l }) else rf₁.commitIndex })
    (hg : Grows A A') (hAT : A'.term server = args.term) (hA : A'.log server = l) :
    NodeRefines A' server { c.procs server with raft := rf } := by
  have hn := hr.node server
  have hT : rf.currentTerm = args.term := by rw [hrf]; exact hterm₁
  have hindex : rf₁.lastSnapshotIncludeIndex = 0 :=
    hlog.lastSnapshotIncludeIndex.trans hn.snapshotIndex
  have hcont : ContiguousFrom 0 l := by
    rcases hl with ⟨rfl, -⟩ | ⟨rfl, -⟩
    · exact hn.log_contiguous
    · exact (hr.reign _ r hs.reign).2.1.take _
  have hlast : Raft.getLastLogIndex { rf₁ with logs := l } = l.length := by
    have : Contiguous { rf₁ with logs := l } := by
      unfold Contiguous
      rw [show _ = (0 : ℤ) from hindex]
      exact hcont
    rw [this.getLastLogIndex]
    simp [hindex]
  have hcommit := hr.commit_merged hs hterm hlast hl
  refine NodeRefines.of_log (hAT.trans hT.symm) ?_ ?_ ?_ ?_ ?_ ?_
    fun msg hm => (hn.emitted msg hm).mono hg
  · rw [hrf]
    exact hA
  · rw [hT]
    exact hn.term_nonneg.trans hterm
  · rw [hrf]
    exact hindex
  · rw [hrf]
    exact hlog.lastSnapshotIncludeTerm.trans hn.snapshotTerm
  · rw [hrf]
    exact hcont
  · rw [hT, hrf]
    rw [← hlog.commitIndex] at hcommit
    exact hcommit.mono hg le_rfl

theorem Refines.appendEntries1 [DecidableEq C] (hr : Refines c votes A)
    (hi : Elections c votes polls) {k p : ℕ} {me server : Fin n} {args : AppendEntriesArgs n C}
    {rf : Raft n C D} {reply : AppendEntriesReply}
    (hk : c.threads[k]? = some (.sendAppendEntries me server args p .calling))
    (h : (c.raft server).appendEntries1 args = .ok (rf, reply))
    (hclean : ¬ (c.raft server).LeavesStaleSuffix args)
    (hc' : c' = (c.setRaft server rf).setThread k
      (.sendAppendEntries me server args p (.replied reply))) :
    ∃ A', Follows c c' A A' ∧ Refines c' (recordVotes c' votes) A' := by
  have hn := hr.node server
  have hmem := List.mem_of_getElem? hk
  have hkeep := keeps_appendEntries1 h
  have hprocs : ∀ j, c'.procs j =
      if j = server then { c.procs server with raft := rf } else c.procs j := by
    simp [hc', setRaft_procs]
  have hraft : ∀ j, c'.raft j = if j = server then rf else c.raft j := by simp [hc']
  have hkeeps := keeps_of_update hkeep hraft
  have hthreads : c'.threads =
      c.threads.set k (.sendAppendEntries me server args p (.replied reply)) := by rw [hc']; rfl
  have helec : c'.elections = c.elections := by rw [hc']; rfl
  obtain ⟨htally, hround⟩ : Tally (c'.threads.map Thread.appendBallot) c'.appendNums (fun _ => 0) ∧
      Rounds (c'.threads.map Thread.round) := by
    rw [hthreads, hc']
    exact hr.heartbeats_set _ hk rfl rfl
  have hmono := fun v T x => hi.record_mono (fun j => (hkeeps j).toKeepsVote) (v := v) (T := T)
    (x := x)
  have hvote : (c.raft server).Abstains rf →
      ∀ v T x, recordVotes c' votes v T = some x → votes v T = some x := fun habs v T x h =>
    hi.record_of_abstains (abstains_of_update habs hraft) h
  obtain ⟨hne, r, q, hs, -⟩ := hr.thread _ hmem
  rcases appendEntries1_cases h with ⟨hno, hlog, -, habs⟩ |
    ⟨hok, hrt, hterm, hprev, hmatch, rf₁, rf₂, hlog, -, habs, hterm₁, hmerge, hrf⟩
  · refine ⟨_, hr.quiet hprocs (by simpa using hkeep.term_le) hlog.toSameEntries
      (hn.commit_of_sameLog hkeep.term_le hlog) hn.emitted helec (fun t ht => ?_) hmono
      (fun v T x h => Or.inl (hvote habs v T x h)) htally hround⟩
    rw [hthreads] at ht
    refine (List.mem_or_eq_of_mem_set ht).imp id ?_
    rintro rfl
    refine ⟨hne, r, q, hs, fun reply' hreply hok => ?_⟩
    obtain rfl := Option.some.inj hreply
    simp [hno] at hok
  · obtain ⟨hrf₂, hlogs⟩ := hr.merged hs hlog hterm hprev hmatch hclean hmerge
    obtain ⟨l, hl⟩ : ∃ l, rf₂.logs = l := ⟨_, rfl⟩
    rw [hl] at hrf₂ hlogs
    subst hrf₂
    have habs' : (c.raft server).Abstains rf := habs.congr (by rw [hrf]; rfl) (by rw [hrf]; rfl)
    have hle : A.term server ≤ args.term := hn.term.trans_le hterm
    have hAT : (A.advance server args.term).term server = args.term := by
      rw [State.advance_term, if_pos rfl]
    have hinv := hr.inv.advance hle
    have hstep : Step tm (A.advance server args.term) _ :=
      .accept server r (q + args.entries.length) l (by rw [hAT]; exact hs.reign) hs.le_length
        (hlogs.imp id fun h => ⟨by rw [hs.leader]; exact hne.symm, h⟩)
    have hlocal : Local tm server A _ := (Local.advance hle).trans
      (.accept (by rw [hAT]; exact hs.reign) hs.le_length
        (hlogs.imp id fun h => ⟨by rw [hs.leader]; exact hne.symm, h⟩))
    have hsaved : DurableOn id rf := by
      rw [hrf]
      exact durableOn_persist _
    have hg := (hr.inv.grows (.advance server _ hle)).trans (hinv.grows hstep)
    refine ⟨_, .act hlocal hsaved hraft, hr.update (hinv.step hstep) hg server
      (fun j hj => by rw [hprocs, if_neg hj])
      (fun j hj => ⟨by rw [State.setAck_term, State.advance_term, if_neg hj], by simp [hj]⟩) ?_
      (fun t ht => ?_) (hr.same_reign hg rfl helec).1 (hr.same_reign hg rfl helec).2 hmono
      (fun v T x h => Or.inl (hvote habs' v T x h))
      (fun v T x l h => Or.inl h) htally hround⟩
    · rw [hprocs, if_pos rfl]
      exact hr.node_merged hs hterm hlog hterm₁ hlogs hrf hg hAT (Function.update_self ..)
    · rw [hthreads] at ht
      refine (List.mem_or_eq_of_mem_set ht).imp id ?_
      rintro rfl
      obtain ⟨r', hs'⟩ := hs.mono hg
      refine ⟨hne, r', q, hs', fun reply' hreply _ => ?_⟩
      obtain rfl := Option.some.inj hreply
      refine ⟨hrt, ?_⟩
      rw [State.setAck_ack, if_pos ⟨rfl, hAT.symm⟩]
      exact le_max_right _ _

/-- The nodes that a heartbeat has counted hold everything it sends. -/
theorem Refines.voters_ack (hr : Refines c votes A) {me server : Fin n}
    {args : AppendEntriesArgs n C} {p : ℕ} {phase : Phase AppendEntriesReply}
    (hmem : (.sendAppendEntries me server args p phase : Thread n C D) ∈ c.threads)
    {r : Reign (Fin n) (LogEntry C)} {q : ℕ} (hs : SentBy A me args r q) {v : Fin n}
    (hv : v ∈ voters (c.threads.map Thread.appendBallot) p) :
    v ≠ me ∧ q + args.entries.length ≤ A.ack v args.term := by
  obtain ⟨t, ht, hb⟩ := List.mem_map.1 (mem_voters.1 hv)
  have hthread := hr.thread t ht
  cases t with
  | sendAppendEntries me' server' args' p' phase' =>
    simp only [Thread.appendBallot, Option.some.injEq, Ballot.mk.injEq] at hb
    obtain ⟨rfl, rfl, hok⟩ := hb
    obtain ⟨hne, r', q', hs', hreply⟩ := hthread
    have hround := hr.round _ _ (List.mem_map_of_mem ht) (List.mem_map_of_mem hmem) rfl
    simp only [Round.mk.injEq, true_and] at hround
    obtain ⟨rfl, hterm, hlast⟩ := hround
    cases phase' with
    | done o =>
      cases o with
      | some reply =>
        have := (hreply reply rfl hok).2
        rw [hs.prevlogindex, hs'.prevlogindex] at hlast
        rw [← hterm]
        exact ⟨hne, by omega⟩
      | none => cases hok
    | calling => cases hok
    | replied reply => cases hok
  | sendRequestVote => cases hb
  | leaderSendSnapShot => cases hb
  | pushMsgToKvServer => cases hb

/-- A success that completes a majority commits what was sent, when it ends with an entry of
the current term. -/
theorem Refines.committed (hr : Refines c votes A) {k p : ℕ} {me server : Fin n}
    {args : AppendEntriesArgs n C} {reply : AppendEntriesReply}
    (hk : c.threads[k]? = some (.sendAppendEntries me server args p (.replied reply)))
    (hok : reply.success = true) (hterm : reply.term = (c.raft me).currentTerm)
    (hnum : 1 + n / 2 ≤ c.appendNums.getD p 0 + 1)
    (hlast : args.entries.getLast?.map (·.logterm) = some (c.raft me).currentTerm) :
    Certified A (c.raft me).currentTerm (c.raft me).logs
      (args.prevlogindex + args.entries.length) := by
  have hn := hr.node me
  have hmem := List.mem_of_getElem? hk
  obtain ⟨hne, r, q, hs, hreply⟩ := hr.thread _ hmem
  obtain ⟨hrt, hack⟩ := hreply reply rfl hok
  have hT : args.term = (c.raft me).currentTerm := hrt.symm.trans hterm
  have hlog : r.log = (c.raft me).logs := by
    rw [← (hr.inv.reign _ r hs.reign).log_eq, hs.leader]
    · exact hn.log
    · rw [hs.leader, hT]
      exact hn.term
  obtain ⟨e, he, hterm_e⟩ := Option.map_eq_some_iff.1 hlast
  obtain ⟨j, hj⟩ : ∃ j, args.entries.length = j + 1 := by
    cases hl : args.entries with
    | nil => simp [hl] at he
    | cons x xs => exact ⟨xs.length, rfl⟩
  have hget : r.log[q + j]? = some e := by
    rw [List.getLast?_eq_getElem?, hj, Nat.add_sub_cancel, hs.entries,
      List.getElem?_take_of_lt (by omega), List.getElem?_drop] at he
    exact he
  -- the leader, the node that has just answered, and those counted before
  obtain ⟨V, hV⟩ : ∃ V, voters (c.threads.map Thread.appendBallot) p = V := ⟨_, rfl⟩
  have hVack := fun v (hv : v ∈ V) => hr.voters_ack hmem hs (hV ▸ hv)
  have hball : (c.threads.map Thread.appendBallot)[k]? = some (some ⟨p, server, false⟩) := by
    simp [hk, Thread.appendBallot, Phase.succeeded]
  have hQ : Majority (insert me (insert server V)) := hV ▸ hr.tally.majority hball hne
    (fun hme => (hVack me (hV ▸ hme)).1 rfl) (by rwa [Fintype.card_fin])
  have hcommitted : Committed tm A args.term (q + j) := by
    refine ⟨r, e, _, hs.reign, hget, hterm_e.trans hT.symm, hQ, fun v hv => ?_⟩
    have hle := hs.le_length
    rcases Finset.mem_insert.1 hv with rfl | hv
    · have := (hr.reign _ r hs.reign).2.2
      rw [hs.leader] at this
      omega
    rcases Finset.mem_insert.1 hv with rfl | hv
    · omega
    · have := (hVack v hv).2
      omega
  rw [hs.prevlogindex, ← hlog, ← hT]
  exact Or.inr ⟨_, r, q + j, le_rfl, hs.reign, hcommitted, by push_cast; omega, rfl⟩

theorem Refines.sendAppendEntries (hr : Refines c votes A) (hi : Elections c votes polls)
    {k p num : ℕ} {me server : Fin n} {args : AppendEntriesArgs n C}
    {reply : AppendEntriesReply} {rf : Raft n C D}
    (hk : c.threads[k]? = some (.sendAppendEntries me server args p (.replied reply)))
    (h : (c.raft me).sendAppendEntries server args reply (c.appendNums.getD p 0) = .ok (rf, num))
    (hc' : c' = { (c.setRaft me rf).setThread k
        (.sendAppendEntries me server args p (.done (some reply))) with
      appendNums := c.appendNums.set p num }) :
    ∃ A', Follows c c' A A' ∧ Refines c' (recordVotes c' votes) A' := by
  obtain ⟨hlog, -, hkeep, habs, hnum, hgrant, hcommit⟩ := sendAppendEntries_cases h
  have hn := hr.node me
  have hprocs : ∀ j, c'.procs j = if j = me then { c.procs me with raft := rf } else c.procs j := by
    simp [hc', setRaft_procs]
  have hraft : ∀ j, c'.raft j = if j = me then rf else c.raft j := by simp [hc']
  have hkeeps := keeps_of_update hkeep hraft
  have hthreads : c'.threads =
      c.threads.set k (.sendAppendEntries me server args p (.done (some reply))) := by rw [hc']; rfl
  have hball : (c.threads.map Thread.appendBallot)[k]? = some (some ⟨p, server, false⟩) := by
    simp [hk, Thread.appendBallot, Phase.succeeded]
  refine ⟨_, hr.quiet hprocs (by simpa using hkeep.term_le) hlog ?_ hn.emitted (by rw [hc']; rfl)
    (fun t ht => ?_) (fun v T x => hi.record_mono fun j => (hkeeps j).toKeepsVote)
    (fun v T x h => Or.inl (hi.record_of_abstains (abstains_of_update habs hraft) h)) ?_ ?_⟩
  · have hold := hn.commit.mono (.refl A) hkeep.term_le
    show Certified A rf.currentTerm rf.logs rf.commitIndex
    rw [hlog.logs]
    rcases hcommit with hsame | ⟨hok, hterm, -, hcnt, hlast, hmax, -⟩
    · rw [hsame]
      exact hold
    · rw [hmax]
      rcases le_total (c.raft me).commitIndex (args.prevlogindex + args.entries.length)
        with hle | hle
      · rw [max_eq_right hle]
        exact (hr.committed hk hok hterm hcnt hlast).mono (.refl A) hkeep.term_le
      · rw [max_eq_left hle]
        exact hold
  · rw [hthreads] at ht
    refine (List.mem_or_eq_of_mem_set ht).imp id ?_
    rintro rfl
    have := hr.thread _ (List.mem_of_getElem? hk)
    exact this
  · rw [hthreads, List.map_set, show c'.appendNums = c.appendNums.set p num by rw [hc']]
    exact hr.tally.processed hball hnum hgrant
  · rw [hthreads, map_set_of_eq _ hk]
    · exact hr.round
    · rfl

/-! ### All steps -/

/-- A step that leaves term, vote, log and commit index of process `i` alone. -/
theorem Refines.process (hr : Refines c votes A) (hi : Elections c votes polls) {i : Fin n}
    {p : Process n C D} (hprocs : ∀ j, c'.procs j = if j = i then p else c.procs j)
    (hkeep : (c.raft i).Keeps p.raft) (habs : (c.raft i).Abstains p.raft)
    (hlog : (c.raft i).SameEntries p.raft) (hcommit : p.raft.commitIndex = (c.raft i).commitIndex)
    (hemitted : ∀ msg ∈ p.emitted, CommittedCommand A msg) (helec : c'.elections = c.elections)
    (hthread : ∀ t ∈ c'.threads, t ∈ c.threads ∨ ThreadRefines A t)
    (hheart : Tally (c'.threads.map Thread.appendBallot) c'.appendNums (fun _ => 0) ∧
      Rounds (c'.threads.map Thread.round)) :
    ∃ A', Follows c c' A A' ∧ Refines c' (recordVotes c' votes) A' := by
  have hraft : ∀ j, c'.raft j = if j = i then p.raft else c.raft j := by
    intro j
    rw [raft, hprocs]
    split_ifs <;> rfl
  have hkeeps := keeps_of_update hkeep hraft
  refine ⟨_, hr.quiet hprocs hkeep.term_le hlog ?_ hemitted helec hthread
    (fun v T x => hi.record_mono fun j => (hkeeps j).toKeepsVote)
    (fun v T x h => Or.inl (hi.record_of_abstains (abstains_of_update habs hraft) h))
    hheart.1 hheart.2⟩
  rw [hlog.logs, hcommit]
  exact (hr.node i).commit.mono (.refl A) hkeep.term_le

/-- The messages that `getApplyLogs` hands out are committed. -/
theorem NodeRefines.getApplyLogs {i : Fin n} {p : Process n C D} (h : NodeRefines A i p)
    {rf : Raft n C D} {msgs : List (ApplyMsg C D)} (hget : p.raft.getApplyLogs = .ok (rf, msgs)) :
    ∀ msg ∈ msgs, CommittedCommand A msg := by
  obtain ⟨-, hlen, hmsgs⟩ := applyNext_eq (getApplyLogs_eq hget).2
  intro msg hmsg
  obtain ⟨j, hj⟩ := List.mem_iff_getElem?.1 hmsg
  obtain ⟨log, hlog, rfl⟩ := hmsgs j msg hj
  have hjlt := (List.getElem?_eq_some_iff.1 hj).1
  obtain ⟨hlo, -, hget⟩ := logOf_eq_ok.1 hlog
  rw [h.snapshotIndex] at hlo hget
  obtain ⟨k, hk⟩ : ∃ k : ℕ, p.raft.lastApplied + 1 + j = k + 1 :=
    ⟨(p.raft.lastApplied + j).toNat, by omega⟩
  rw [hk, show ((k : ℤ) + 1 - 0 - 1).toNat = k by omega] at hget
  have hle : (k : ℤ) + 1 ≤ p.raft.commitIndex := by omega
  rcases h.commit with hc | ⟨T, r, m, -, hr, hcommitted, hm, htake⟩
  · omega
  have hkr : r.log[k]? = some log := by
    rw [← hget]
    have := congrArg (fun l => l[k]?) htake
    simpa [List.getElem?_take_of_lt (show k < p.raft.commitIndex.toNat by omega)] using this.symm
  exact ⟨T, r, m, k, log, hr, hcommitted, by omega, hk, hkr, rfl⟩

/-- **Simulation.**  Every step without snapshots that leaves no stale suffix keeps the cluster
related to the protocol. -/
theorem Refines.step [DecidableEq C] (hr : Refines c votes A) (hi : Elections c votes polls)
    (hi' : Elections c' (recordVotes c' votes) polls') {a : Action n C D} (h : Moves c a c')
    (ha : c.NoStaleSuffix a) :
    ∃ A', Follows c c' A A' ∧ Refines c' (recordVotes c' votes) A' := by
  have hold : ∀ t ∈ c.threads, t ∈ c.threads ∨ ThreadRefines A t := fun _ => Or.inl
  have hheart := And.intro hr.tally hr.round
  cases h with
  | exit i f =>
    exact hr.process hi (fun j => setProc_procs c i j _) (.refl _) (.of_eq rfl rfl)
      ⟨rfl, rfl, rfl⟩ rfl (hr.node i).emitted rfl hold hheart
  | idle =>
    have hsame : recordVotes c votes = votes := by
      funext v T
      unfold recordVotes
      split_ifs with hT
      · rw [hT, hi.now]
      · rfl
    exact ⟨A, .same fun _ => rfl, by rwa [hsame]⟩
  | doElection h => exact hr.doElection hi h rfl
  | doHeartBeat h => exact ⟨A, .same fun _ => rfl, hr.doHeartBeat hi h rfl⟩
  | start command => exact hr.start hi command rfl
  | @getApplyLogs i rf msgs hm h =>
    have hget := applyNext_eq (getApplyLogs_eq h).2
    have hrf := hget.1
    refine hr.process hi (fun j => setProc_procs c i j _) ?_ ?_ ?_ ?_ (fun msg hmsg => ?_) rfl
      hold hheart
    · rw [hrf]
      exact .of_eq rfl rfl rfl rfl
    · rw [hrf]
      exact .of_eq rfl rfl
    · rw [hrf]
      exact ⟨rfl, rfl, rfl⟩
    · rw [hrf]
    · rcases List.mem_append.1 hmsg with hmsg | hmsg
      · exact (hr.node i).emitted msg (List.mem_append_left _ hmsg)
      · exact (hr.node i).getApplyLogs h msg hmsg
  | @pushApplyMsg i msg msgs hm =>
    refine hr.process hi (fun j => setProc_procs c i j _) (.refl _) (.of_eq rfl rfl)
      ⟨rfl, rfl, rfl⟩ rfl (fun m hmem => (hr.node i).emitted m ?_) rfl hold hheart
    simpa [Process.emitted, hm] using hmem
  | @consumeCommand i command index msgs hm =>
    refine hr.process hi (fun j => setProc_procs c i j _) (.refl _) (.of_eq rfl rfl)
      ⟨rfl, rfl, rfl⟩ rfl (fun m hmem => (hr.node i).emitted m ?_) rfl hold hheart
    simpa [Process.emitted, hm] using hmem
  | @consumeSnapshot i data term index msgs rf b hm h =>
    exact ((hr.node i).emitted (.snapshot data term index) (by simp [Process.emitted, hm])).elim
  | snapshot _ _ => exact ha.elim
  | requestVote hk h => exact hr.requestVote hi hk h rfl
  | @appendEntries1 k me server args p rf r hk h =>
    have hclean : ¬ (c.raft server).LeavesStaleSuffix args := by
      simpa only [NoStaleSuffix, hk] using ha
    exact hr.appendEntries1 hi hk h hclean rfl
  | installSnapshot hk h => exact (hr.thread _ (List.mem_of_getElem? hk)).elim
  | @sendRequestVote k me server args p r rf num elected hk h =>
    obtain ⟨hlog, hcase⟩ := sendRequestVote_cases h
    rcases hcase with ⟨rfl, hkeep, -, -, habs⟩ | ⟨rfl, rfl, -, -, -, -, hterm, hv⟩
    · refine hr.process hi (i := me) (p := { c.procs me with raft := rf }) ?_ hkeep habs
        hlog.toSameEntries hlog.commitIndex (hr.node me).emitted rfl (fun t ht => ?_)
        (hr.heartbeats_set _ hk rfl rfl)
      · simp [setRaft_procs]
      · refine (List.mem_or_eq_of_mem_set ht).imp id ?_
        rintro rfl
        have := hr.thread _ (List.mem_of_getElem? hk)
        exact this
    · exact hr.winElection hi hi' hk hlog hterm hv (durableOn_elected h) rfl
  | sendAppendEntries hk h => exact hr.sendAppendEntries hi hk h rfl
  | snapshotReply hk => exact (hr.thread _ (List.mem_of_getElem? hk)).elim
  | @loseVote k me server args p phase hk hw =>
    refine hr.process hi (i := me) (p := c.procs me) (fun j => by split_ifs with hj <;> simp [hj])
      (.refl _) (.of_eq rfl rfl) ⟨rfl, rfl, rfl⟩ rfl (hr.node me).emitted rfl (fun t ht => ?_)
      (hr.heartbeats_set _ hk rfl rfl)
    refine (List.mem_or_eq_of_mem_set ht).imp id ?_
    rintro rfl
    have := hr.thread _ (List.mem_of_getElem? hk)
    exact this
  | @loseAppend k me server args p phase hk hw =>
    refine hr.process hi (i := me) (p := c.procs me) (fun j => by split_ifs with hj <;> simp [hj])
      (.refl _) (.of_eq rfl rfl) ⟨rfl, rfl, rfl⟩ rfl (hr.node me).emitted rfl (fun t ht => ?_)
      (hr.heartbeats_set _ hk ?_ rfl)
    · refine (List.mem_or_eq_of_mem_set ht).imp id ?_
      rintro rfl
      obtain ⟨hne, r, q, hs, -⟩ := hr.thread _ (List.mem_of_getElem? hk)
      exact ⟨hne, r, q, hs, by simp [Phase.reply?]⟩
    · cases phase with
      | done o => cases hw
      | calling => rfl
      | replied o => rfl
  | loseSnapshot hk _ => exact (hr.thread _ (List.mem_of_getElem? hk)).elim
  | leaderSendSnapShot data hk => exact (hr.thread _ (List.mem_of_getElem? hk)).elim
  | pushMsgToKvServer hk => exact (hr.thread _ (List.mem_of_getElem? hk)).elim

/-- The cluster refines the protocol throughout every run without snapshots and stale
suffixes. -/
theorem exists_refines [DecidableEq C]
    (h : (machine n C D).Reaches NoStaleSuffix init c) : ∃ votes A, Refines c votes A := by
  obtain ⟨votes, polls, A, -, hr⟩ := h.invariant
    (I := fun c => ∃ votes polls A, Elections c votes polls ∧ Refines c votes A)
    ⟨_, _, _, elections_init, refines_init⟩ fun c a c' ⟨votes, polls, A, hi, hr⟩ ha hst => by
      have hm := moves_of_step hst
      obtain ⟨polls', hi'⟩ := hi.step hm
      obtain ⟨A', -, hr'⟩ := hr.step hi hi' hm ha
      exact ⟨_, polls', A', hi', hr'⟩
  exact ⟨votes, A, hr⟩

end Cluster

end KvRaft
