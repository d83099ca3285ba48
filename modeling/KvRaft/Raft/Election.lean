import KvRaft.Consensus.Quorum
import KvRaft.Consensus.Tally
import KvRaft.Raft.Cluster
import KvRaft.Raft.Spec

/-!
# Election safety

* `Cluster.Elections` : the invariant of elections.  It speaks about two histories, the votes
  that the nodes have cast (`recordVotes`) and the elections that were started.
* `Cluster.Elections.step` : every step preserves it.
* `Cluster.election_safety` : in every term at most one node becomes leader, and at most once.

`sendRequestVote` checks neither that the node is still a candidate nor that the reply belongs
to the latest election.  The counters of two elections cannot both reach a majority in a term
because the votes they count are cast by distinct nodes (`Consensus.Tally`), and a node votes
once in a term.
-/

namespace KvRaft

/-- The reply a call has got so far. -/
def Phase.reply? {R : Type} : Phase R → Option R
  | .calling => none
  | .replied r => some r
  | .done r => r

/-- Whether a granted vote has been processed. -/
def Phase.granted : Phase RequestVoteReply → Bool
  | .done (some r) => r.votegranted
  | _ => false

/-- The part of a thread in the election that started it. -/
def Thread.ballot {n : ℕ} {C D : Type} : Thread n C D → Option (Consensus.Ballot (Fin n))
  | .sendRequestVote _ server _ votedNum phase => some ⟨votedNum, server, phase.granted⟩
  | _ => none

namespace Cluster

open Consensus

variable {n : ℕ} {C D : Type} {c c' : Cluster n C D}

/-! ### The histories -/

/-- The votes by node and term, extended by those that stand in `c`. -/
def recordVotes (c : Cluster n C D) (votes : Fin n → ℤ → Option (Fin n)) (v : Fin n) (T : ℤ) :
    Option (Fin n) :=
  if T = (c.raft v).currentTerm then (c.raft v).votedFor else votes v T

/-- What is known about the thread `t` of an election: `polls` lists the elections by candidate
and term. -/
def VoteThread (votes : Fin n → ℤ → Option (Fin n)) (polls : List (Fin n × ℤ)) :
    Thread n C D → Prop
  | .sendRequestVote me server args votedNum phase =>
    server ≠ me ∧ args.candidateid = me ∧ polls[votedNum]? = some (me, args.term) ∧
      ∀ r, phase.reply? = some r → r.votegranted = true →
        r.term = args.term ∧ votes server args.term = some me
  | _ => True

/-- The votes a won election has taken off its counter when it reset it. -/
def taken (polls elections : List (Fin n × ℤ)) (p : ℕ) : ℕ :=
  if ∃ e ∈ elections, polls[p]? = some e then n / 2 + 1 else 0

/-- **The invariant of elections.** -/
structure Elections (c : Cluster n C D) (votes : Fin n → ℤ → Option (Fin n))
    (polls : List (Fin n × ℤ)) : Prop where
  me : ∀ i, (c.raft i).me = i
  now : ∀ i, votes i (c.raft i).currentTerm = (c.raft i).votedFor
  future : ∀ i T, (c.raft i).currentTerm < T → votes i T = none
  thread : ∀ t ∈ c.threads, VoteThread votes polls t
  /-- A candidate votes for itself and starts one election in a term. -/
  poll : ∀ i T, (i, T) ∈ polls → votes i T = some i
  polls_nodup : polls.Nodup
  polls_length : polls.length = c.votedNums.length
  tally : Tally (c.threads.map Thread.ballot) c.votedNums (taken polls c.elections)
  leader : ∀ i, (c.raft i).status = .leader → (i, (c.raft i).currentTerm) ∈ c.elections
  majority : ∀ i T, (i, T) ∈ c.elections →
    votes i T = some i ∧ ∃ Q, Majority Q ∧ ∀ v ∈ Q, votes v T = some i
  nodup : (c.elections.map Prod.snd).Nodup

variable {votes : Fin n → ℤ → Option (Fin n)} {polls : List (Fin n × ℤ)}

theorem elections_init : Elections (init : Cluster n C D) (fun _ _ => none) [] where
  me _ := rfl
  now _ := rfl
  future _ _ _ := rfl
  thread t ht := by cases ht
  poll i T h := by cases h
  polls_nodup := List.nodup_nil
  polls_length := rfl
  tally := .nil
  leader i h := by cases h
  majority i T h := by cases h
  nodup := List.nodup_nil

/-- Recorded votes are never changed. -/
theorem Elections.record_mono (hi : Elections c votes polls)
    (hk : ∀ i, (c.raft i).KeepsVote (c'.raft i)) {v : Fin n} {T : ℤ} {x : Fin n}
    (h : votes v T = some x) : recordVotes c' votes v T = some x := by
  unfold recordVotes
  split_ifs with hT
  · have hle : T ≤ (c.raft v).currentTerm := by
      by_contra hlt
      rw [hi.future v T (by omega)] at h
      cases h
    have ht : (c'.raft v).currentTerm = (c.raft v).currentTerm :=
      le_antisymm (hT ▸ hle) (hk v).term_le
    have hv : (c.raft v).votedFor = some x := by rw [← hi.now, ← ht, ← hT, h]
    rw [(hk v).vote ht (by simp [hv]), hv]
  · exact h

/-- Without a vote being cast, nothing is recorded. -/
theorem Elections.record_of_abstains (hi : Elections c votes polls)
    (ha : ∀ i, (c.raft i).Abstains (c'.raft i)) {v : Fin n} {T : ℤ} {x : Fin n}
    (h : recordVotes c' votes v T = some x) : votes v T = some x := by
  unfold recordVotes at h
  split_ifs at h with hT
  · obtain ⟨ht, hv⟩ := ha v (by simp [h])
    rw [hT, ht, hi.now, ← hv, h]
  · exact h

theorem VoteThread.mono {votes' : Fin n → ℤ → Option (Fin n)} {polls' : List (Fin n × ℤ)}
    {t : Thread n C D} (h : VoteThread votes polls t)
    (hv : ∀ v T x, votes v T = some x → votes' v T = some x) (hp : polls <+: polls') :
    VoteThread votes' polls' t := by
  cases t with
  | sendRequestVote me server args p phase =>
    obtain ⟨hne, hc, hpoll, hr⟩ := h
    obtain ⟨l, rfl⟩ := hp
    refine ⟨hne, hc, ?_, fun r hphase hg => ?_⟩
    · rw [List.getElem?_append_left (List.getElem?_eq_some_iff.1 hpoll).1]
      exact hpoll
    · obtain ⟨ht, hvote⟩ := hr r hphase hg
      exact ⟨ht, hv _ _ _ hvote⟩
  | sendAppendEntries => trivial
  | leaderSendSnapShot => trivial
  | pushMsgToKvServer => trivial

/-! ### Steps -/

/-- A step that starts no election. -/
theorem Elections.of_keepsVote (hi : Elections c votes polls)
    (hk : ∀ i, (c.raft i).KeepsVote (c'.raft i))
    (hlen : c'.votedNums.length = c.votedNums.length)
    (hthread : ∀ t ∈ c'.threads, VoteThread (recordVotes c' votes) polls t)
    (htally : Tally (c'.threads.map Thread.ballot) c'.votedNums (taken polls c'.elections))
    (hleader : ∀ i, (c'.raft i).status = .leader → (i, (c'.raft i).currentTerm) ∈ c'.elections)
    (hmajority : ∀ i T, (i, T) ∈ c'.elections → (i, T) ∈ c.elections ∨
      votes i T = some i ∧ ∃ Q, Majority Q ∧ ∀ v ∈ Q, votes v T = some i)
    (hnodup : (c'.elections.map Prod.snd).Nodup) :
    Elections c' (recordVotes c' votes) polls where
  me i := ((hk i).me).trans (hi.me i)
  now i := if_pos rfl
  future i T hT := by
    have := (hk i).term_le
    rw [recordVotes, if_neg (by omega)]
    exact hi.future i T (by omega)
  thread := hthread
  poll i T h := hi.record_mono hk (hi.poll i T h)
  polls_nodup := hi.polls_nodup
  polls_length := hi.polls_length.trans hlen.symm
  tally := htally
  leader := hleader
  majority i T h := by
    obtain ⟨hself, Q, hQ, hv⟩ := (hmajority i T h).elim (hi.majority i T) id
    exact ⟨hi.record_mono hk hself, Q, hQ, fun v hvQ => hi.record_mono hk (hv v hvQ)⟩
  nodup := hnodup

/-- A step in which no election is started or won. -/
theorem Elections.of_keeps (hi : Elections c votes polls)
    (hk : ∀ i, (c.raft i).Keeps (c'.raft i)) (helec : c'.elections = c.elections)
    (hlen : c'.votedNums.length = c.votedNums.length)
    (hthread : ∀ t ∈ c'.threads, VoteThread (recordVotes c' votes) polls t)
    (htally : Tally (c'.threads.map Thread.ballot) c'.votedNums (taken polls c.elections)) :
    Elections c' (recordVotes c' votes) polls := by
  refine hi.of_keepsVote (fun i => (hk i).toKeepsVote) hlen hthread (helec ▸ htally)
    (fun i hl => ?_) (fun i T h => Or.inl (helec ▸ h)) (helec ▸ hi.nodup)
  obtain ⟨hl₀, ht⟩ := (hk i).leader hl
  rw [helec, ht]
  exact hi.leader i hl₀

theorem voteThread_of_ballot {t : Thread n C D} (h : t.ballot = none) :
    VoteThread votes polls t := by
  cases t with
  | sendRequestVote => cases h
  | sendAppendEntries => trivial
  | leaderSendSnapShot => trivial
  | pushMsgToKvServer => trivial

/-- A step that changes no counter and no ballot; the threads `l` that it starts are in no
poll. -/
theorem Elections.of_ballots (hi : Elections c votes polls)
    (hk : ∀ i, (c.raft i).Keeps (c'.raft i)) (helec : c'.elections = c.elections)
    (hnums : c'.votedNums = c.votedNums) {ts l : List (Thread n C D)}
    (hthreads : c'.threads = ts ++ l) (hl : ∀ t ∈ l, t.ballot = none)
    (hts : ts.map Thread.ballot = c.threads.map Thread.ballot)
    (hold : ∀ t ∈ ts, t ∈ c.threads ∨ VoteThread (recordVotes c' votes) polls t) :
    Elections c' (recordVotes c' votes) polls := by
  refine hi.of_keeps hk helec (congrArg List.length hnums) (fun t ht => ?_) ?_
  · rw [hthreads, List.mem_append] at ht
    rcases ht with ht | ht
    · refine (hold t ht).elim (fun ht => (hi.thread t ht).mono (fun v T x => ?_) List.prefix_rfl) id
      exact hi.record_mono fun i => (hk i).toKeepsVote
    · exact voteThread_of_ballot (hl t ht)
  · rw [hthreads, List.map_append, hts, hnums]
    refine hi.tally.skip fun b hb => ?_
    obtain ⟨t, ht, rfl⟩ := List.mem_map.1 hb
    exact hl t ht

/-- A step that changes no thread. -/
theorem Elections.of_threads (hi : Elections c votes polls)
    (hk : ∀ i, (c.raft i).Keeps (c'.raft i)) (helec : c'.elections = c.elections)
    (hnums : c'.votedNums = c.votedNums) (hthreads : c'.threads = c.threads) :
    Elections c' (recordVotes c' votes) polls :=
  hi.of_ballots hk helec hnums (l := []) (by rw [hthreads, List.append_nil]) (by simp) rfl
    fun _ ht => Or.inl ht

/-- A step that changes thread `k` but not its ballot. -/
theorem Elections.of_thread (hi : Elections c votes polls)
    (hk : ∀ i, (c.raft i).Keeps (c'.raft i)) (helec : c'.elections = c.elections)
    (hnums : c'.votedNums = c.votedNums) {k : ℕ} {t : Thread n C D} (t' : Thread n C D)
    (l : List (Thread n C D)) (hget : c.threads[k]? = some t) (hballot : t'.ballot = t.ballot)
    (hthreads : c'.threads = c.threads.set k t' ++ l) (hl : ∀ t ∈ l, t.ballot = none)
    (ht' : VoteThread votes polls t → VoteThread (recordVotes c' votes) polls t') :
    Elections c' (recordVotes c' votes) polls := by
  refine hi.of_ballots hk helec hnums hthreads hl (map_set_of_eq _ hget hballot) fun u hu => ?_
  rcases List.mem_or_eq_of_mem_set hu with hu | rfl
  · exact Or.inl hu
  · exact Or.inr (ht' (hi.thread t (List.mem_of_getElem? hget)))

/-- A section of one node keeps what it keeps there. -/
theorem keeps_of_update {i : Fin n} {rf : Raft n C D} (h : (c.raft i).Keeps rf)
    (hraft : ∀ j, c'.raft j = if j = i then rf else c.raft j) :
    ∀ j, (c.raft j).Keeps (c'.raft j) :=
  forall_raft_of_update (P := fun j => (c.raft j).Keeps) hraft h fun _ => .refl _

/-- A section of one node casts no vote if it casts none there. -/
theorem abstains_of_update {i : Fin n} {rf : Raft n C D} (h : (c.raft i).Abstains rf)
    (hraft : ∀ j, c'.raft j = if j = i then rf else c.raft j) :
    ∀ j, (c.raft j).Abstains (c'.raft j) :=
  forall_raft_of_update (P := fun j => (c.raft j).Abstains) hraft h fun _ => .of_eq rfl rfl

/-- An election is started. -/
theorem Elections.doElection (hi : Elections c votes polls) {i : Fin n} {rf : Raft n C D}
    {calls : List (Fin n × RequestVoteArgs n)} (h : (c.raft i).doElection = some (rf, calls))
    (hc' : c' = { (c.setRaft i rf).spawn (voteThreads i c.votedNums.length calls) with
      votedNums := c.votedNums ++ [1] }) :
    Elections c' (recordVotes c' votes) (polls ++ [(i, rf.currentTerm)]) := by
  obtain ⟨-, hrf, hterm, hvoted, hcalls⟩ := Raft.doElection_eq h
  have hraft : ∀ j, c'.raft j = if j = i then rf else c.raft j := by simp [hc']
  have hk := keeps_of_update hrf hraft
  have hmono := fun {v T x} =>
    hi.record_mono (fun j => (hk j).toKeepsVote) (v := v) (T := T) (x := x)
  have hnew : votes i rf.currentTerm = none := hi.future i _ (by omega)
  have hthreads : c'.threads = c.threads ++ voteThreads i c.votedNums.length calls := by
    rw [hc']
    rfl
  have hvote : recordVotes c' votes i rf.currentTerm = some i := by
    rw [recordVotes, hraft, if_pos rfl, if_pos rfl, hvoted, hi.me]
  have hfresh : (i, rf.currentTerm) ∉ c.elections := by
    intro hmem
    rw [(hi.majority _ _ hmem).1] at hnew
    cases hnew
  refine ⟨fun j => ((hk j).me).trans (hi.me j), fun j => if_pos rfl, fun j T hT => ?_,
    fun t ht => ?_, fun j T hj => ?_, ?_, ?_, ?_, fun j hl => ?_, fun j T hj => ?_, ?_⟩
  · have := (hk j).term_le
    rw [recordVotes, if_neg (by omega)]
    exact hi.future j T (by omega)
  · rw [hthreads, List.mem_append] at ht
    rcases ht with ht | ht
    · exact (hi.thread t ht).mono (fun _ _ _ => hmono) (List.prefix_append _ _)
    · obtain ⟨call, hcall, rfl⟩ := List.mem_map.1 ht
      rw [hcalls] at hcall
      obtain ⟨j, hj, rfl⟩ := List.mem_map.1 hcall
      refine ⟨?_, hi.me i, ?_, by simp [Phase.reply?]⟩
      · have := (List.mem_filter.1 hj).2
        simpa [hi.me] using this
      · rw [← hi.polls_length, hterm]
        simp
  · rcases List.mem_append.1 hj with hj | hj
    · exact hmono (hi.poll j T hj)
    · obtain ⟨rfl, rfl⟩ := Prod.mk.inj (List.mem_singleton.1 hj)
      exact hvote
  · refine List.nodup_append.2 ⟨hi.polls_nodup, List.nodup_singleton _, fun e he e' he' => ?_⟩
    rintro rfl
    obtain rfl := List.mem_singleton.1 he'
    rw [hi.poll _ _ he] at hnew
    cases hnew
  · simp [hc', hi.polls_length]
  · have hmap : c'.threads.map Thread.ballot = c.threads.map Thread.ballot ++
        (Raft.peers i).map fun v => some ⟨c.votedNums.length, v, false⟩ := by
      rw [hthreads, List.map_append, hcalls, hi.me]
      simp [voteThreads, Function.comp_def, Thread.ballot, Phase.granted]
    rw [hmap, hc']
    refine hi.tally.ask ((List.nodup_finRange n).filter _) ?_ fun p hp => ?_
    · rw [taken, if_neg]
      rintro ⟨e, he, hpe⟩
      rw [← hi.polls_length, List.getElem?_concat_length] at hpe
      exact hfresh (Option.some.inj hpe ▸ he)
    · rw [taken, taken, List.getElem?_append_left (hi.polls_length ▸ hp)]
      rfl
  · obtain ⟨hl₀, ht⟩ := (hk j).leader hl
    rw [ht, hc']
    exact hi.leader j hl₀
  · have hj : (j, T) ∈ c.elections := by rw [hc'] at hj; exact hj
    obtain ⟨hself, Q, hQ, hv⟩ := hi.majority j T hj
    exact ⟨hmono hself, Q, hQ, fun v hvQ => hmono (hv v hvQ)⟩
  · rw [hc']
    exact hi.nodup

/-- The nodes that a poll has counted voted for its candidate in its term. -/
theorem Elections.voters_vote (hi : Elections c votes polls) {p : ℕ} {i : Fin n} {T : ℤ}
    (hp : polls[p]? = some (i, T)) {v : Fin n}
    (hv : v ∈ voters (c.threads.map Thread.ballot) p) : v ≠ i ∧ votes v T = some i := by
  obtain ⟨t, ht, hb⟩ := List.mem_map.1 (mem_voters.1 hv)
  have hthread := hi.thread t ht
  cases t with
  | sendRequestVote me server args p' phase =>
    simp only [Thread.ballot, Option.some.injEq, Ballot.mk.injEq] at hb
    obtain ⟨rfl, rfl, hg⟩ := hb
    obtain ⟨hne, -, hpoll, hr⟩ := hthread
    obtain ⟨rfl, rfl⟩ := Prod.mk.inj (Option.some.inj (hp.symm.trans hpoll))
    cases phase with
    | done r =>
      cases r with
      | some r => exact ⟨hne, (hr r rfl hg).2⟩
      | none => cases hg
    | calling => cases hg
    | replied r => cases hg
  | sendAppendEntries => cases hb
  | leaderSendSnapShot => cases hb
  | pushMsgToKvServer => cases hb

/-- When a granted vote completes a majority, the candidate has the votes of a majority, and
nobody has been elected in its term. -/
theorem Elections.not_elected (hi : Elections c votes polls) {k p : ℕ} {me server : Fin n}
    {args : RequestVoteArgs n} {r : RequestVoteReply}
    (hk : c.threads[k]? = some (.sendRequestVote me server args p (.replied r)))
    (hg : r.votegranted = true) (hnum : n / 2 + 1 ≤ c.votedNums.getD p 0 + 1) :
    (∃ Q, Majority Q ∧ ∀ v ∈ Q, votes v args.term = some me) ∧
      ∀ x, (x, args.term) ∉ c.elections := by
  obtain ⟨hne, -, hpoll, hr⟩ := hi.thread _ (List.mem_of_getElem? hk)
  have hserver := (hr r rfl hg).2
  have hme := hi.poll _ _ (List.mem_of_getElem? hpoll)
  have hball : (c.threads.map Thread.ballot)[k]? = some (some ⟨p, server, false⟩) := by
    simp [hk, Thread.ballot, Phase.granted]
  have hp : p < c.votedNums.length :=
    hi.tally.poll_lt _ (List.mem_of_getElem? hball)
  -- the candidate, the node that has just answered, and those counted before
  obtain ⟨V, hV⟩ : ∃ V, voters (c.threads.map Thread.ballot) p = V := ⟨_, rfl⟩
  have hVvote := fun v (hv : v ∈ V) => hi.voters_vote hpoll (hV ▸ hv)
  have hcount := hi.tally.count p _ (List.getElem?_eq_getElem hp)
  have hnot : server ∉ V := hV ▸ hi.tally.not_mem_voters hball
  have hcard : (insert me (insert server V)).card = V.card + 2 := by
    rw [Finset.card_insert_of_notMem, Finset.card_insert_of_notMem hnot]
    rw [Finset.mem_insert, not_or]
    exact ⟨hne.symm, fun h => (hVvote me h).1 rfl⟩
  have hle : (insert me (insert server V)).card ≤ n := by
    simpa using Finset.card_le_univ (insert me (insert server V))
  rw [hV] at hcount
  rw [List.getD_eq_getElem?_getD, List.getElem?_eq_getElem hp, Option.getD_some] at hnum
  have hQ : Majority (insert me (insert server V)) :=
    majority_of_le (by rw [Fintype.card_fin]; omega)
  have hQv : ∀ v ∈ insert me (insert server V), votes v args.term = some me := by
    intro v hv
    rcases Finset.mem_insert.1 hv with rfl | hv
    · exact hme
    rcases Finset.mem_insert.1 hv with rfl | hv
    · exact hserver
    · exact (hVvote v hv).2
  -- a won poll would have needed as many voters again
  have hwon : (me, args.term) ∉ c.elections := by
    intro hmem
    rw [taken, if_pos ⟨_, hmem, hpoll⟩] at hcount
    omega
  refine ⟨⟨_, hQ, hQv⟩, fun x hx => ?_⟩
  obtain ⟨-, Q', hQ', hv'⟩ := hi.majority x args.term hx
  obtain ⟨w, hw, hw'⟩ := hQ.inter hQ'
  obtain rfl : me = x := Option.some.inj ((hQv w hw).symm.trans (hv' w hw'))
  exact hwon hx

/-- What a processed vote reply leaves of its thread. -/
theorem Elections.voteThread_done (hi : Elections c votes polls)
    (hk : ∀ i, (c.raft i).KeepsVote (c'.raft i)) {k p : ℕ} {me server : Fin n}
    {args : RequestVoteArgs n} {r : RequestVoteReply}
    (hthread : c.threads[k]? = some (.sendRequestVote me server args p (.replied r)))
    (hthreads : c'.threads = c.threads.set k (.sendRequestVote me server args p (.done (some r)))) :
    ∀ t ∈ c'.threads, VoteThread (recordVotes c' votes) polls t := by
  intro t ht
  have hmono := fun v T x => hi.record_mono hk (v := v) (T := T) (x := x)
  rw [hthreads] at ht
  rcases List.mem_or_eq_of_mem_set ht with ht | rfl
  · exact (hi.thread t ht).mono hmono List.prefix_rfl
  · exact (hi.thread _ (List.mem_of_getElem? hthread)).mono hmono List.prefix_rfl

/-- A vote reply is processed that does not decide the election. -/
theorem Elections.voteReply (hi : Elections c votes polls) {k p num : ℕ} {me server : Fin n}
    {args : RequestVoteArgs n} {r : RequestVoteReply} {rf : Raft n C D}
    (hk : c.threads[k]? = some (.sendRequestVote me server args p (.replied r)))
    (hkeep : (c.raft me).Keeps rf) (hnum : num ≤ c.votedNums.getD p 0 + 1)
    (hgrant : num ≠ c.votedNums.getD p 0 → r.votegranted = true)
    (hc' : c' = { (c.setRaft me rf).setThread k
        (.sendRequestVote me server args p (.done (some r))) with
      votedNums := c.votedNums.set p num }) :
    Elections c' (recordVotes c' votes) polls := by
  have hkeeps : ∀ j, (c.raft j).Keeps (c'.raft j) := keeps_of_update hkeep (by simp [hc'])
  have hthreads : c'.threads =
      c.threads.set k (.sendRequestVote me server args p (.done (some r))) := by
    rw [hc']
    rfl
  have hball : (c.threads.map Thread.ballot)[k]? = some (some ⟨p, server, false⟩) := by
    simp [hk, Thread.ballot, Phase.granted]
  refine hi.of_keeps hkeeps (by rw [hc']; rfl) (by simp [hc'])
    (hi.voteThread_done (fun j => (hkeeps j).toKeepsVote) hk hthreads) ?_
  rw [hthreads, List.map_set, show c'.votedNums = c.votedNums.set p num by rw [hc']]
  exact hi.tally.processed hball hnum hgrant

/-- A vote reply is processed that makes its candidate the leader. -/
theorem Elections.elected (hi : Elections c votes polls) {k p : ℕ} {me server : Fin n}
    {args : RequestVoteArgs n} {r : RequestVoteReply} {rf : Raft n C D}
    (hk : c.threads[k]? = some (.sendRequestVote me server args p (.replied r)))
    (hg : r.votegranted = true) (hnum : n / 2 + 1 ≤ c.votedNums.getD p 0 + 1)
    (hrt : r.term = (c.raft me).currentTerm) (hme : rf.me = (c.raft me).me)
    (hterm : rf.currentTerm = (c.raft me).currentTerm)
    (hvoted : rf.votedFor = (c.raft me).votedFor)
    (hc' : c' = { (c.setRaft me rf).setThread k
        (.sendRequestVote me server args p (.done (some r))) with
      votedNums := c.votedNums.set p 0
      elections := c.elections ++ [(me, rf.currentTerm)] }) :
    Elections c' (recordVotes c' votes) polls := by
  have hraft : ∀ j, c'.raft j = if j = me then rf else c.raft j := by simp [hc']
  have hkeeps : ∀ j, (c.raft j).KeepsVote (c'.raft j) := by
    intro j
    rw [hraft]
    split_ifs with hj
    · exact hj ▸ ⟨hme, hterm.ge, fun _ _ => hvoted⟩
    · exact (Raft.Keeps.refl _).toKeepsVote
  have hthreads : c'.threads =
      c.threads.set k (.sendRequestVote me server args p (.done (some r))) := by
    rw [hc']
    rfl
  obtain ⟨-, -, hpoll, hr⟩ := hi.thread _ (List.mem_of_getElem? hk)
  have hT : args.term = rf.currentTerm := by
    rw [hterm, ← hrt, (hr r rfl hg).1]
  obtain ⟨hQ, hnone⟩ := hi.not_elected hk hg hnum
  have helec : c'.elections = c.elections ++ [(me, args.term)] := by rw [hc', hT]
  refine hi.of_keepsVote hkeeps (by simp [hc']) (hi.voteThread_done hkeeps hk hthreads) ?_ ?_ ?_ ?_
  · have hball : (c.threads.map Thread.ballot)[k]? = some (some ⟨p, server, false⟩) := by
      simp [hk, Thread.ballot, Phase.granted]
    have hp : p < c.votedNums.length := hi.tally.poll_lt _ (List.mem_of_getElem? hball)
    have hget := List.getElem?_eq_getElem hp
    have hb : (Thread.sendRequestVote me server args p (.done (some r)) : Thread n C D).ballot =
        some ⟨p, server, true⟩ := by simp [Thread.ballot, Phase.granted, hg]
    rw [List.getD_eq_getElem?_getD, hget, Option.getD_some] at hnum
    rw [hthreads, List.map_set, hb, show c'.votedNums = c.votedNums.set p 0 by rw [hc'], helec]
    refine hi.tally.answer hball hget ?_ fun q hq => ?_
    · -- the counter is reset, and the votes it had are what the victory takes
      rw [taken, if_pos ⟨_, List.mem_append_right _ (List.mem_singleton_self _), hpoll⟩]
      omega
    · rw [taken, taken]
      split_ifs with hnew hold hold
      · exact le_rfl
      · -- the election that is won now belongs to no other poll
        obtain ⟨e, he, hqe⟩ := hnew
        rcases List.mem_append.1 he with he | he
        · exact absurd ⟨e, he, hqe⟩ hold
        · obtain rfl := List.mem_singleton.1 he
          obtain ⟨hi₁, h₁⟩ := List.getElem?_eq_some_iff.1 hqe
          obtain ⟨hi₂, h₂⟩ := List.getElem?_eq_some_iff.1 hpoll
          exact absurd ((hi.polls_nodup.getElem_inj_iff).1 (h₁.trans h₂.symm)) hq
      · exact Nat.zero_le _
      · exact le_rfl
  · intro j hl
    rw [hraft] at hl ⊢
    rw [helec, List.mem_append]
    split_ifs at hl ⊢ with hj
    · subst hj
      exact Or.inr (by rw [hT]; exact List.mem_singleton_self _)
    · exact Or.inl (hi.leader j hl)
  · intro j T hj
    rw [helec, List.mem_append] at hj
    refine hj.imp id fun hj => ?_
    obtain ⟨rfl, rfl⟩ := Prod.mk.inj (List.mem_singleton.1 hj)
    exact ⟨hi.poll _ _ (List.mem_of_getElem? hpoll), hQ⟩
  · rw [helec, List.map_append, List.nodup_append]
    refine ⟨hi.nodup, List.nodup_singleton _, fun T hT' T' hT'' => ?_⟩
    rintro rfl
    obtain rfl := List.mem_singleton.1 hT''
    obtain ⟨⟨x, T⟩, hx, rfl⟩ := List.mem_map.1 hT'
    exact hnone x hx

theorem exit_raft (c : Cluster n C D) (i j : Fin n) (f : Fault) :
    (c.exit i f).raft j = c.raft j := by
  by_cases hj : j = i <;> simp [exit, hj]

/-- A term has one leader. -/
theorem Elections.unique (hi : Elections c votes polls) {i j : Fin n} {T : ℤ}
    (h : (i, T) ∈ c.elections) (h' : (j, T) ∈ c.elections) : i = j :=
  congrArg Prod.fst (List.inj_on_of_nodup_map hi.nodup h h' rfl)

/-- **Every step preserves the invariant of elections.** -/
theorem Elections.step [DecidableEq C] (hi : Elections c votes polls) {a : Action n C D}
    (h : Moves c a c') :
    ∃ polls', Elections c' (recordVotes c' votes) polls' := by
  have hrefl : ∀ j, (c.raft j).Keeps (c.raft j) := fun j => .refl _
  cases h with
  | exit i f =>
    exact ⟨polls, hi.of_threads (fun j => by rw [exit_raft]; exact .refl _) rfl rfl rfl⟩
  | idle => exact ⟨polls, hi.of_threads hrefl rfl rfl rfl⟩
  | doElection h => exact ⟨_, hi.doElection h rfl⟩
  | doHeartBeat h =>
    refine ⟨polls, hi.of_ballots hrefl rfl rfl rfl (fun t ht => ?_) rfl fun _ ht => Or.inl ht⟩
    obtain ⟨b, -, rfl⟩ := List.mem_map.1 ht
    cases b <;> rfl
  | @start i command =>
    exact ⟨polls, hi.of_threads (keeps_of_update (Raft.keeps_start (c.raft i) command) (by simp))
      rfl rfl rfl⟩
  | @getApplyLogs i rf msgs _ h =>
    have hkeep : (c.raft i).Keeps rf := by
      obtain ⟨rfl, -⟩ := Raft.applyNext_eq (Raft.getApplyLogs_eq h).2
      exact .of_eq rfl rfl rfl rfl
    exact ⟨polls, hi.of_threads (keeps_of_update hkeep (by simp)) rfl rfl rfl⟩
  | @pushApplyMsg i msg msgs _ =>
    exact ⟨polls, hi.of_threads (keeps_of_update (.refl (c.raft i)) (by simp)) rfl rfl rfl⟩
  | @consumeCommand i command index msgs _ =>
    exact ⟨polls, hi.of_threads (keeps_of_update (.refl (c.raft i)) (by simp)) rfl rfl rfl⟩
  | consumeSnapshot _ h =>
    exact ⟨polls, hi.of_threads
      (keeps_of_update (Raft.keeps_condInstallSnapshot h).1 (by simp)) rfl rfl rfl⟩
  | snapshot _ h =>
    exact ⟨polls, hi.of_threads (keeps_of_update (Raft.keeps_snapshot h).1 (by simp)) rfl rfl rfl⟩
  | @requestVote k me server args p rf r hk h =>
    obtain ⟨-, hkeep, hgrant, -⟩ := Raft.requestVote_cases h
    refine ⟨polls, hi.of_thread (keeps_of_update hkeep (by simp)) rfl rfl
      (.sendRequestVote me server args p (.replied r)) [] hk rfl (by simp) (by simp) ?_⟩
    rintro ⟨hne, hc, hpoll, -⟩
    refine ⟨hne, hc, hpoll, fun r' hr' hg => ?_⟩
    obtain rfl := Option.some.inj hr'
    obtain ⟨ht, hterm, hv, -⟩ := hgrant hg
    exact ⟨ht, by simp [recordVotes, hterm, hv, hc]⟩
  | @appendEntries1 k me server args p rf r hk h =>
    exact ⟨polls, hi.of_thread (keeps_of_update (Raft.keeps_appendEntries1 h) (by simp)) rfl rfl
      (.sendAppendEntries me server args p (.replied r)) [] hk rfl (by simp) (by simp) id⟩
  | @installSnapshot k me server args rf r msg hk h =>
    refine ⟨polls, hi.of_thread (keeps_of_update (Raft.keeps_installSnapshot h).1 (by simp)) rfl rfl
      (.leaderSendSnapShot me server (some (args, .replied r))) _ hk rfl rfl (fun t ht => ?_) id⟩
    obtain ⟨m, -, rfl⟩ := List.mem_map.1 ht
    rfl
  | @sendRequestVote k me server args p r rf num elected hk h =>
    rcases (Raft.sendRequestVote_cases h).2 with
      ⟨rfl, hkeep, hnum, hgrant, -⟩ | ⟨rfl, rfl, hnum, hg, hrt, -, hterm, hv⟩
    · exact ⟨polls, hi.voteReply hk hkeep hnum hgrant rfl⟩
    · exact ⟨polls, hi.elected hk hg hnum hrt (Raft.sendRequestVote_cases h).1.me hterm hv rfl⟩
  | @sendAppendEntries k me server args p r rf num hk h =>
    exact ⟨polls, hi.of_thread
      (keeps_of_update (Raft.sendAppendEntries_cases h).2.2.1 (by simp)) rfl rfl
      (.sendAppendEntries me server args p (.done (some r))) [] hk rfl (by simp) (by simp) id⟩
  | @snapshotReply k me server args r hk =>
    exact ⟨polls, hi.of_thread
      (keeps_of_update ((c.raft me).keeps_leaderSendSnapShotReply server args r).1 (by simp))
      rfl rfl (.leaderSendSnapShot me server (some (args, .done (some r)))) [] hk rfl (by simp)
      (by simp) id⟩
  | @loseVote k me server args p phase hk hw =>
    refine ⟨polls, hi.of_thread hrefl rfl rfl
      (.sendRequestVote me server args p (.done none)) [] hk ?_ (by simp) (by simp) ?_⟩
    · cases phase with
      | done r => cases hw
      | calling => rfl
      | replied r => rfl
    · rintro ⟨hne, hc, hpoll, -⟩
      exact ⟨hne, hc, hpoll, by simp [Phase.reply?]⟩
  | @loseAppend k me server args p phase hk _ =>
    exact ⟨polls, hi.of_thread hrefl rfl rfl
      (.sendAppendEntries me server args p (.done none)) [] hk rfl (by simp) (by simp) id⟩
  | @loseSnapshot k me server args phase hk _ =>
    exact ⟨polls, hi.of_thread hrefl rfl rfl
      (.leaderSendSnapShot me server (some (args, .done none))) [] hk rfl (by simp) (by simp) id⟩
  | @leaderSendSnapShot k me server data hk =>
    exact ⟨polls, hi.of_thread hrefl rfl rfl
      (.leaderSendSnapShot me server (some ((c.raft me).leaderSendSnapShot data, .calling))) []
      hk rfl (by simp) (by simp) id⟩
  | @pushMsgToKvServer k me msg hk =>
    exact ⟨polls, hi.of_thread (keeps_of_update (.refl (c.raft me)) (by simp)) rfl rfl
      (.pushMsgToKvServer me msg true) [] hk rfl (by simp) (by simp) id⟩

/-- The invariant holds in every reachable state. -/
theorem exists_elections [DecidableEq C] (h : (machine n C D).Reachable init c) :
    ∃ votes polls, Elections c votes polls :=
  h.invariant (I := fun c => ∃ votes polls, Elections c votes polls)
    ⟨_, _, elections_init⟩ fun _ _ _ ⟨_, _, hi⟩ _ hst =>
      ⟨_, hi.step (moves_of_step hst)⟩

/-! ### Safety -/

/-- **Election safety.**  In every reachable state the terms in which nodes have become leader
are distinct, so no two nodes become leader in a term, and no node does so twice; every node
that is leader is one of them.  No reply that can arrive makes `sendRequestVote` report that a
node is elected twice. -/
theorem election_safety [DecidableEq C] (h : (machine n C D).Reachable init c) :
    (c.elections.map Prod.snd).Nodup ∧
      (∀ i, (c.raft i).status = .leader → (i, (c.raft i).currentTerm) ∈ c.elections) ∧
      ∀ (k : ℕ) (me server : Fin n) (args : RequestVoteArgs n) (p : ℕ) (r : RequestVoteReply),
        c.threads[k]? = some (.sendRequestVote me server args p (.replied r)) →
        (c.raft me).sendRequestVote (c.votedNums.getD p 0) r ≠ .error .electedTwice := by
  obtain ⟨votes, polls, hi⟩ := exists_elections h
  refine ⟨hi.nodup, hi.leader, fun k me server args p r hk herr => ?_⟩
  obtain ⟨hg, hrt, hnum, hl⟩ := Raft.sendRequestVote_electedTwice herr
  obtain ⟨-, -, -, hr⟩ := hi.thread _ (List.mem_of_getElem? hk)
  refine (hi.not_elected hk hg hnum).2 me ?_
  rw [← (hr r rfl hg).1, hrt]
  exact hi.leader me hl

/-- Node `0` is elected by node `1` and has not seen the vote of node `2` yet when node `1` is
elected by node `2`. -/
def electionRun : List (Action 3 String Unit) :=
  [.doElection 0, .deliver 0, .deliver 1, .reply 0, .doElection 1, .deliver 3, .reply 3]

theorem election_safety_electionRun : ∃ c,
    (machine 3 String Unit).run init electionRun = some c ∧ c.elections = [(0, 1), (1, 2)] ∧
      (c.elections.map Prod.snd).Nodup ∧
      ∀ r, c.threads[1]? = some (.sendRequestVote 0 2 ⟨1, 0, 0, 0⟩ 0 (.replied r)) →
        (c.raft 0).sendRequestVote (c.votedNums.getD 0 0) r ≠ .error .electedTwice := by
  have h : ((machine 3 String Unit).run init electionRun).map (·.elections) =
      some [(0, 1), (1, 2)] := by decide +kernel
  obtain ⟨c, hc, he⟩ := Option.map_eq_some_iff.1 h
  obtain ⟨hn, -, hs⟩ := election_safety (Machine.reachable_of_run hc)
  exact ⟨c, hc, he, hn, fun r hr => hs 1 0 2 _ 0 r hr⟩

end Cluster

end KvRaft
