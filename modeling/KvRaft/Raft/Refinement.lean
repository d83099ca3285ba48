import KvRaft.Consensus.Safety
import KvRaft.Raft.Election

/-!
# The cluster refines the replication protocol

`Cluster.Refines c votes A` relates a cluster without snapshots to a state `A` of the abstract
protocol of `Consensus.Protocol`, and `Cluster.Refines.step` says that every step that leaves no
stale suffix is matched by steps of the protocol.

`appendEntries1` writes the entries of a request over the log one by one and never removes what
is behind them.  A request that overwrites a conflicting entry but does not reach the end of the
log leaves entries of other leaders there, a *stale suffix* (`Raft.LeavesStaleSuffix`); such a
log is not the log of any leader, and the protocol has no such step.
-/

namespace KvRaft

open Consensus Raft

/-! ### Stale suffixes -/

/-- The handler accepts the request, one of its entries replaces an entry of another term, and
the log of the node goes on behind the last one. -/
def Raft.LeavesStaleSuffix {n : ℕ} {C D : Type} (rf : Raft n C D)
    (args : AppendEntriesArgs n C) : Prop :=
  rf.currentTerm ≤ args.term ∧ args.prevlogindex ≤ rf.getLastLogIndex ∧
    rf.matchLog args.prevlogindex args.prevlogterm = .ok true ∧
    args.prevlogindex + args.entries.length < rf.getLastLogIndex ∧
    ∃ own ∈ rf.logs, ∃ e ∈ args.entries, own.logindex = e.logindex ∧ own.logterm ≠ e.logterm

instance {n : ℕ} {C D : Type} (rf : Raft n C D) (args : AppendEntriesArgs n C) :
    Decidable (rf.LeavesStaleSuffix args) := by
  unfold Raft.LeavesStaleSuffix
  infer_instance

/-- Whether a heartbeat call has been answered with success and the answer processed. -/
def Phase.succeeded : Phase AppendEntriesReply → Bool
  | .done (some r) => r.success
  | _ => false

/-- The part of a thread in the heartbeat that started it. -/
def Thread.appendBallot {n : ℕ} {C D : Type} : Thread n C D → Option (Ballot (Fin n))
  | .sendAppendEntries _ server _ appendNums phase => some ⟨appendNums, server, phase.succeeded⟩
  | _ => none

/-- What the calls of one heartbeat have in common. -/
structure Round (n : ℕ) where
  appendNums : ℕ
  me : Fin n
  term : ℤ
  /-- The index of the last entry that is sent. -/
  last : ℤ

/-- The heartbeat that started a thread. -/
def Thread.round {n : ℕ} {C D : Type} : Thread n C D → Option (Round n)
  | .sendAppendEntries me _ args appendNums _ =>
    some ⟨appendNums, me, args.term, args.prevlogindex + args.entries.length⟩
  | _ => none

namespace Cluster

variable {n : ℕ} {C D : Type}

/-- The state machines compact no log. -/
def SnapshotsOff (_ : Cluster n C D) : Action n C D → Prop
  | .snapshot _ _ => False
  | _ => True

instance (c : Cluster n C D) (a : Action n C D) : Decidable (c.SnapshotsOff a) := by
  -- unlike `cases`, this puts no equation into the instance
  induction a using Action.casesOn <;> dsimp only [SnapshotsOff] <;> infer_instance

/-- The condition on a step: snapshots are not taken, and no request leaves a stale suffix. -/
def NoStaleSuffix (c : Cluster n C D) : Action n C D → Prop
  | .snapshot _ _ => False
  | .deliver k => match c.threads[k]? with
    | some (.sendAppendEntries _ server args _ .calling) =>
      ¬ (c.raft server).LeavesStaleSuffix args
    | _ => True
  | _ => True

instance (c : Cluster n C D) (a : Action n C D) : Decidable (c.NoStaleSuffix a) := by
  induction a using Action.casesOn with
  | deliver k =>
    dsimp only [NoStaleSuffix]
    rcases c.threads[k]? with _ | _ | ⟨_, _, _, _, _ | _⟩ | _ | _ <;> infer_instance
  | _ => dsimp only [NoStaleSuffix]; infer_instance

/-! ### The relation -/

/-- The term of an entry, as the protocol sees it. -/
abbrev tm : LogEntry C → ℤ := LogEntry.logterm

/-- The first `commit` entries of `l` are those of the leader of a term up to `T` that has
committed them. -/
def Certified (A : State (Fin n) (LogEntry C)) (T : ℤ) (l : List (LogEntry C)) (commit : ℤ) :
    Prop :=
  commit ≤ 0 ∨ ∃ T' r i, T' ≤ T ∧ A.reign T' = some r ∧ Committed tm A T' i ∧ commit ≤ i + 1 ∧
    l.take commit.toNat = r.log.take commit.toNat

/-- The message hands out a committed command under its index. -/
def CommittedCommand (A : State (Fin n) (LogEntry C)) : ApplyMsg C D → Prop
  | .command command index => ∃ T r i k e, A.reign T = some r ∧ Committed tm A T i ∧ k ≤ i ∧
      index = (k : ℤ) + 1 ∧ r.log[k]? = some e ∧ e.command = command
  | .snapshot _ _ _ => False

/-- A node and its place in the protocol. -/
structure NodeRefines (A : State (Fin n) (LogEntry C)) (i : Fin n) (p : Process n C D) : Prop where
  term : A.term i = p.raft.currentTerm
  log : A.log i = p.raft.logs
  term_nonneg : 0 ≤ p.raft.currentTerm
  snapshotIndex : p.raft.lastSnapshotIncludeIndex = 0
  snapshotTerm : p.raft.lastSnapshotIncludeTerm = 0
  contiguous : p.raft.Contiguous
  commit : Certified A p.raft.currentTerm p.raft.logs p.raft.commitIndex
  emitted : ∀ msg ∈ p.emitted, CommittedCommand A msg

/-- The request holds what its sender's log holds behind its `q`-th entry, as far as it goes. -/
structure SentBy (A : State (Fin n) (LogEntry C)) (me : Fin n) (args : AppendEntriesArgs n C)
    (r : Reign (Fin n) (LogEntry C)) (q : ℕ) : Prop where
  reign : A.reign args.term = some r
  leader : r.leader = me
  prevlogindex : args.prevlogindex = q
  le_length : q + args.entries.length ≤ r.log.length
  entries : args.entries = (r.log.drop q).take args.entries.length
  prevlogterm : args.prevlogterm = lastTerm tm (r.log.take q)
  leadercommit : args.leadercommit ≤ q + args.entries.length
  certified : Certified A args.term r.log args.leadercommit

/-- What is known about a thread. -/
def ThreadRefines (A : State (Fin n) (LogEntry C)) : Thread n C D → Prop
  | .sendRequestVote me _ args _ _ => A.reign args.term ≠ none ∨
      ∃ l, A.vote me args.term = some (me, l) ∧ args.lastlogindex = l.length ∧
        args.lastlogterm = lastTerm tm l
  | .sendAppendEntries me server args _ phase => server ≠ me ∧
      ∃ r q, SentBy A me args r q ∧ ∀ reply, phase.reply? = some reply → reply.success = true →
        reply.term = args.term ∧ q + args.entries.length ≤ A.ack server args.term
  | .leaderSendSnapShot _ _ _ => False
  | .pushMsgToKvServer _ _ _ => False

/-- Two calls of one heartbeat come from one leader and send its log up to the same entry. -/
def Rounds (calls : List (Option (Round n))) : Prop :=
  ∀ x y, some x ∈ calls → some y ∈ calls → x.appendNums = y.appendNums → x = y

/-- **The refinement relation.** -/
structure Refines (c : Cluster n C D) (votes : Fin n → ℤ → Option (Fin n))
    (A : State (Fin n) (LogEntry C)) : Prop where
  inv : Inv tm A
  node : ∀ i, NodeRefines A i (c.procs i)
  thread : ∀ t ∈ c.threads, ThreadRefines A t
  reign : ∀ T r, A.reign T = some r → (r.leader, T) ∈ c.elections ∧ ContiguousFrom 0 r.log ∧
    r.log.length ≤ A.ack r.leader T
  elected : ∀ i T, (i, T) ∈ c.elections → A.reign T ≠ none
  vote : ∀ v T x, votes v T = some x → A.reign T ≠ none ∨ ∃ l, A.vote v T = some (x, l)
  vote_recorded : ∀ v T x l, A.vote v T = some (x, l) → 0 < T ∧ votes v T = some x
  tally : Tally (c.threads.map Thread.appendBallot) c.appendNums fun _ => 0
  round : Rounds (c.threads.map Thread.round)

variable {c c' : Cluster n C D} {votes votes' : Fin n → ℤ → Option (Fin n)}
  {polls polls' : List (Fin n × ℤ)} {A A' : State (Fin n) (LogEntry C)}

theorem refines_init : Refines (init : Cluster n C D) (fun _ _ => none) State.init where
  inv := inv_init
  node i := ⟨rfl, rfl, le_rfl, rfl, rfl, .nil _, Or.inl le_rfl, by simp [init, Process.emitted]⟩
  thread t ht := by cases ht
  reign T r h := by cases h
  elected i T h := by cases h
  vote v T x h := by cases h
  vote_recorded v T x l h := by cases h
  tally := .nil
  round x y hx := by cases hx

/-! ### Certificates -/

theorem Certified.congr {T : ℤ} {l l' : List (LogEntry C)} {commit : ℤ}
    (h : Certified A T l commit) (heq : l'.take commit.toNat = l.take commit.toNat) :
    Certified A T l' commit := by
  rcases h with h | ⟨T', r, i, hT, hr, hc, hi, hl⟩
  · exact Or.inl h
  · exact Or.inr ⟨T', r, i, hT, hr, hc, hi, heq.trans hl⟩

/-- Certified entries are there. -/
theorem Certified.le_length {T : ℤ} {l : List (LogEntry C)} {commit : ℤ}
    (h : Certified A T l commit) : commit ≤ l.length := by
  rcases h with h | ⟨T', r, i, -, hr, ⟨r₀, e, -, hr₀, he, -⟩, hi, hl⟩
  · omega
  · obtain rfl : r = r₀ := by simpa [hr] using hr₀
    have hlt := (List.getElem?_eq_some_iff.1 he).1
    have := congrArg List.length hl
    rw [List.length_take, List.length_take] at this
    omega

theorem Certified.mono {T T' : ℤ} {l : List (LogEntry C)} {commit : ℤ}
    (h : Certified A T l commit) (hg : Grows A A') (hT : T ≤ T') :
    Certified A' T' l commit := by
  rcases h with h | ⟨T₁, r, i, hT₁, hr, hc, hi, hl⟩
  · exact Or.inl h
  obtain ⟨r', hr', -, -, hp⟩ := hg.reign T₁ r hr
  obtain ⟨r₀, e, -, hr₀, he, -⟩ := id hc
  obtain rfl : r = r₀ := by simpa [hr] using hr₀
  have hlt := (List.getElem?_eq_some_iff.1 he).1
  refine Or.inr ⟨T₁, r', i, hT₁.trans hT, hr', hc.mono hg, hi, ?_⟩
  rw [hl]
  exact take_eq_of_isPrefix hp (by omega)

/-- What is certified stays so when the log is extended. -/
theorem Certified.of_isPrefix {T : ℤ} {l l' : List (LogEntry C)} {commit : ℤ}
    (h : Certified A T l commit) (hl : l <+: l') : Certified A T l' commit := by
  have := h.le_length
  exact h.congr (take_eq_of_isPrefix hl (by omega)).symm

theorem CommittedCommand.mono {msg : ApplyMsg C D} (h : CommittedCommand A msg)
    (hg : Grows A A') : CommittedCommand A' msg := by
  cases msg with
  | command command index =>
    obtain ⟨T, r, i, k, e, hr, hc, hk, hidx, he, hcmd⟩ := h
    obtain ⟨r', hr', -, -, hp⟩ := hg.reign T r hr
    exact ⟨T, r', i, k, e, hr', hc.mono hg, hk, hidx, getElem?_of_isPrefix hp he, hcmd⟩
  | snapshot => exact h

/-- **Committed commands with one index are the same.** -/
theorem CommittedCommand.agree (hinv : Inv tm A) {command command' : C} {index : ℤ}
    (h : CommittedCommand A (.command command index : ApplyMsg C D))
    (h' : CommittedCommand A (.command command' index : ApplyMsg C D)) : command = command' := by
  obtain ⟨T, r, m, k, e, hreign, hc, hk, hidx, he, rfl⟩ := h
  obtain ⟨T', r', m', k', e', hreign', hc', hk', hidx', he', rfl⟩ := h'
  obtain rfl : k = k' := by omega
  have := hinv.committed_agree hc hc' hreign hreign' hk hk'
  rw [he, he'] at this
  rw [Option.some.inj this]

theorem SentBy.mono {me : Fin n} {args : AppendEntriesArgs n C}
    {r : Reign (Fin n) (LogEntry C)} {q : ℕ} (h : SentBy A me args r q) (hg : Grows A A') :
    ∃ r', SentBy A' me args r' q := by
  obtain ⟨r', hr', hl, -, hp⟩ := hg.reign _ r h.reign
  have hle := h.le_length
  refine ⟨r', hr', hl.trans h.leader, h.prevlogindex, hle.trans hp.length_le, ?_, ?_,
    h.leadercommit, (h.certified.mono hg le_rfl).of_isPrefix hp⟩
  · rw [h.entries]
    obtain ⟨l, hl⟩ := hp
    rw [← hl, List.drop_append_of_le_length (by omega), List.take_append_of_le_length,
      List.length_take, List.length_drop]
    · congr 1
      omega
    · rw [List.length_take, List.length_drop]
      omega
  · rw [h.prevlogterm, take_eq_of_isPrefix hp (by omega)]

/-- What is known about a thread stays known. -/
theorem ThreadRefines.mono {t : Thread n C D} (h : ThreadRefines A t) (hg : Grows A A') :
    ThreadRefines A' t := by
  have hreign : ∀ T, A.reign T ≠ none → A'.reign T ≠ none := by
    intro T hT
    obtain ⟨r, hr⟩ := Option.ne_none_iff_exists'.1 hT
    obtain ⟨r', hr', -⟩ := hg.reign T r hr
    simp [hr']
  cases t with
  | sendRequestVote me server args p phase =>
    refine h.imp (hreign _) ?_
    rintro ⟨l, hl, hidx, hterm⟩
    exact ⟨l, hg.vote _ _ _ hl, hidx, hterm⟩
  | sendAppendEntries me server args p phase =>
    obtain ⟨hne, r, q, hs, hreply⟩ := h
    obtain ⟨r', hs'⟩ := hs.mono hg
    refine ⟨hne, r', q, hs', fun reply hphase hok => ?_⟩
    obtain ⟨ht, hack⟩ := hreply reply hphase hok
    exact ⟨ht, hack.trans (hg.ack _ _)⟩
  | leaderSendSnapShot => exact h
  | pushMsgToKvServer => exact h

/-- A node that takes no part in a step. -/
theorem NodeRefines.mono {i : Fin n} {p : Process n C D} (h : NodeRefines A i p)
    (hg : Grows A A') (hterm : A'.term i = A.term i) (hlog : A'.log i = A.log i) :
    NodeRefines A' i p :=
  ⟨hterm.trans h.term, hlog.trans h.log, h.term_nonneg, h.snapshotIndex, h.snapshotTerm,
    h.contiguous, h.commit.mono hg le_rfl, fun msg hm => (h.emitted msg hm).mono hg⟩

/-- A node that has taken over a log. -/
theorem NodeRefines.of_log {i : Fin n} {p : Process n C D} (hterm : A.term i = p.raft.currentTerm)
    (hlog : A.log i = p.raft.logs) (hpos : 0 ≤ p.raft.currentTerm)
    (hindex : p.raft.lastSnapshotIncludeIndex = 0) (hsnap : p.raft.lastSnapshotIncludeTerm = 0)
    (hcont : ContiguousFrom 0 p.raft.logs)
    (hcommit : Certified A p.raft.currentTerm p.raft.logs p.raft.commitIndex)
    (hemitted : ∀ msg ∈ p.emitted, CommittedCommand A msg) : NodeRefines A i p := by
  refine ⟨hterm, hlog, hpos, hindex, hsnap, ?_, hcommit, hemitted⟩
  unfold Contiguous
  rw [hindex]
  exact hcont

/-! ### Reading a node -/

theorem NodeRefines.getLastLogIndex {i : Fin n} {p : Process n C D} (h : NodeRefines A i p) :
    p.raft.getLastLogIndex = p.raft.logs.length := by
  rw [h.contiguous.getLastLogIndex, h.snapshotIndex, Int.zero_add]

theorem NodeRefines.getLastLogTerm {i : Fin n} {p : Process n C D} (h : NodeRefines A i p) :
    p.raft.getLastLogTerm = lastTerm tm p.raft.logs := by
  unfold Raft.getLastLogTerm Raft.getLastLogIndexAndTerm lastTerm
  cases p.raft.logs.getLast? <;> simp [h.snapshotTerm]

/-- The term at an index is the last term of the log up to there. -/
theorem NodeRefines.getLogTermFromLogIndex {i : Fin n} {p : Process n C D}
    (h : NodeRefines A i p) {index t : ℤ} (ht : p.raft.getLogTermFromLogIndex index = .ok t) :
    0 ≤ index ∧ index ≤ p.raft.logs.length ∧
      t = lastTerm tm (p.raft.logs.take index.toNat) := by
  obtain ⟨hlo, hhi, hcase⟩ := Raft.getLogTermFromLogIndex_eq_ok.1 ht
  rw [h.snapshotIndex] at hlo hcase
  rw [h.getLastLogIndex] at hhi
  refine ⟨hlo, hhi, ?_⟩
  rcases hcase with ⟨rfl, rfl⟩ | ⟨hne, e, he, rfl⟩
  · simp [h.snapshotTerm]
  · obtain ⟨-, -, he⟩ := Raft.logOf_eq_ok.1 he
    rw [h.snapshotIndex] at he
    obtain ⟨k, rfl⟩ : ∃ k : ℕ, index = k + 1 := ⟨(index - 1).toNat, by omega⟩
    rw [show ((k : ℤ) + 1 - 0 - 1).toNat = k by omega] at he
    rw [show ((k : ℤ) + 1).toNat = k + 1 by omega, List.take_add_one, he]
    simp

end Cluster

end KvRaft
