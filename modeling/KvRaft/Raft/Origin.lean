import KvRaft.Raft.LogIndices

/-!
# Where commands come from

Commands enter a cluster by `start` only, on a leader, which returns the index it will try to commit
them at.  Nodes pass them on in requests, write them over the logs of others and hand them out, but
under no other index, with compaction or without.

* `Cluster.starts` : the command that a step takes, with the index that `start` returns.
* `Cluster.Origin P c` : `P` holds of all commands in `c` and their indices.
* `Recording` : a cluster with the commands that were taken so far.
* `Recording.applied_started` : every command that is handed out was taken under its index.
-/

namespace KvRaft

open Raft

namespace Raft

variable {n : ℕ} {C D : Type} [DecidableEq C] {rf rf' : Raft n C D}

theorem mem_of_mergeEntry {log e : LogEntry C} (h : rf.mergeEntry log = .ok rf')
    (he : e ∈ rf'.logs) : e ∈ rf.logs ∨ e = log := by
  unfold mergeEntry at h
  split_ifs at h
  · obtain rfl := pure_eq_ok.1 h
    simpa using he
  · obtain ⟨slice, -, h⟩ := bind_eq_ok.1 h
    obtain ⟨own, -, h⟩ := bind_eq_ok.1 h
    obtain ⟨_, -, h⟩ := bind_eq_ok.1 h
    split_ifs at h <;> obtain rfl := pure_eq_ok.1 h
    · exact List.mem_or_eq_of_mem_set he
    · exact Or.inl he

/-- The loop over the entries of a request writes nothing else. -/
theorem mem_of_foldlM_mergeEntry {entries : List (LogEntry C)} {e : LogEntry C}
    (h : entries.foldlM mergeEntry rf = .ok rf') (he : e ∈ rf'.logs) :
    e ∈ rf.logs ∨ e ∈ entries := by
  induction entries generalizing rf with
  | nil =>
    obtain rfl : rf = rf' := by simpa using h
    exact Or.inl he
  | cons log entries ih =>
    rw [List.foldlM_cons] at h
    obtain ⟨rf₁, h₁, h⟩ := bind_eq_ok.1 h
    rcases ih h with hmem | hmem
    · rcases mem_of_mergeEntry h₁ hmem with hold | rfl
      · exact Or.inl hold
      · exact Or.inr List.mem_cons_self
    · exact Or.inr (List.mem_cons_of_mem _ hmem)

theorem mem_of_appendEntries1 {args : AppendEntriesArgs n C} {reply : AppendEntriesReply}
    (h : rf.appendEntries1 args = .ok (rf', reply)) {e : LogEntry C} (he : e ∈ rf'.logs) :
    e ∈ rf.logs ∨ e ∈ args.entries := by
  rcases appendEntries1_cases h with ⟨-, hs, -⟩ | ⟨-, -, -, -, -, rf₁, rf₂, hs, -, -, -, hm, rfl⟩
  · exact Or.inl (hs.logs ▸ he)
  · exact hs.logs ▸ mem_of_foldlM_mergeEntry hm he

omit [DecidableEq C] in
/-- An entry that is handed out has the index under which it is. -/
theorem Contiguous.logindex_eq (hc : rf.Contiguous) {index : ℤ} {e : LogEntry C}
    (h : rf.logOf index = .ok e) : e ∈ rf.logs ∧ e.logindex = index := by
  obtain ⟨hlo, -, hget⟩ := logOf_eq_ok.1 h
  have := hc _ e hget
  exact ⟨List.mem_of_getElem? hget, by omega⟩

end Raft

namespace Cluster

variable {n : ℕ} {C D : Type} {c c' : Cluster n C D} {a : Action n C D}

/-- The command that a step takes, with its index. -/
def starts (c : Cluster n C D) : Action n C D → List (ℤ × C)
  | .start i command =>
    match (c.raft i).start command with
    | (_, newLogIndex, _, isLeader) => if isLeader then [(newLogIndex, command)] else []
  | _ => []

/-- **All commands of a cluster satisfy `P` with their indices**: those in logs, in requests and
handed out. -/
structure Origin (P : ℤ → C → Prop) (c : Cluster n C D) : Prop where
  log : ∀ i, ∀ e ∈ (c.raft i).logs, P e.logindex e.command
  call : ∀ me server args p phase, .sendAppendEntries me server args p phase ∈ c.threads →
    ∀ e ∈ args.entries, P e.logindex e.command
  emitted : ∀ i command index, .command command index ∈ (c.procs i).emitted → P index command

theorem origin_init (P : ℤ → C → Prop) : Origin P (init : Cluster n C D) where
  log i e h := by cases h
  call me server args p phase h := by cases h
  emitted i command index h := by simp [init, Process.emitted] at h

theorem Origin.mono {P Q : ℤ → C → Prop} (ho : c.Origin P)
    (h : ∀ index command, P index command → Q index command) : c.Origin Q where
  log i e he := h _ _ (ho.log i e he)
  call me server args p phase hk e he := h _ _ (ho.call me server args p phase hk e he)
  emitted i command index hm := h _ _ (ho.emitted i command index hm)

/-- **Where the entries of a log come from.** -/
theorem mem_logs_of_moves [DecidableEq C] (hi : c.Indexed) (h : Moves c a c') {j : Fin n}
    {e : LogEntry C} (he : e ∈ (c'.raft j).logs) : e ∈ (c.raft j).logs ∨
      (∃ me server args p phase, .sendAppendEntries me server args p phase ∈ c.threads ∧
        e ∈ args.entries) ∨ (e.logindex, e.command) ∈ c.starts a := by
  -- a section of one node
  have key : ∀ {i : Fin n} {rf : Raft n C D}, (∀ e ∈ rf.logs, e ∈ (c.raft i).logs) →
      (∀ j, c'.raft j = if j = i then rf else c.raft j) → e ∈ (c.raft j).logs := by
    intro i rf hrf hraft
    rw [hraft] at he
    split_ifs at he with hj
    · exact hj ▸ hrf e he
    · exact he
  have hsame : ∀ {i : Fin n} {rf : Raft n C D}, (c.raft i).SameEntries rf →
      (∀ j, c'.raft j = if j = i then rf else c.raft j) → e ∈ (c.raft j).logs :=
    fun hs => key fun e he => hs.logs ▸ he
  cases h with
  | exit i f =>
    rw [exit_raft] at he
    exact Or.inl he
  | idle | doHeartBeat | loseVote | loseAppend | loseSnapshot | leaderSendSnapShot =>
    exact Or.inl he
  | doElection h => exact Or.inl (hsame (doElection_eq h).1.toSameEntries (by simp))
  | @start i command =>
    rw [setRaft_raft] at he
    split_ifs at he with hj
    · subst hj
      rcases (c.raft j).start_eq command with ⟨heq, -⟩ | ⟨hs, heq⟩
      · exact Or.inl (heq ▸ he)
      rw [heq] at he
      refine (List.mem_append.1 he).imp id fun hnew => Or.inr ?_
      obtain rfl := List.mem_singleton.1 hnew
      simp [starts, Raft.start, hs, getNewCommandIndex]
    · exact Or.inl he
  | @getApplyLogs i rf msgs _ h =>
    have hs : (c.raft i).SameEntries rf := by
      obtain ⟨rfl, -⟩ := applyNext_eq (getApplyLogs_eq h).2
      exact ⟨rfl, rfl, rfl⟩
    exact Or.inl (hsame hs (by simp))
  | @pushApplyMsg i | @consumeCommand i | @pushMsgToKvServer _ i =>
    exact Or.inl (key (i := i) (fun e he => he) (by simp))
  | @consumeSnapshot i data term index msgs rf b hm h =>
    rw [hi.condInstallSnapshot hm] at h
    cases h
    exact Or.inl (key (i := i) (fun e he => he) (by simp))
  | @snapshot i command index data rf _ h =>
    refine Or.inl (key (fun e he => ?_) fun j => setRaft_raft c i j rf)
    rcases snapshot_cases (hi.node i).contiguous h with rfl | ⟨-, -, -, hlogs, -⟩
    · exact he
    · exact List.mem_of_mem_drop (hlogs ▸ he)
  | requestVote _ h => exact Or.inl (hsame (requestVote_cases h).1.toSameEntries (by simp))
  | @appendEntries1 k me server args p rf r hk h =>
    rw [setThread_raft, setRaft_raft] at he
    split_ifs at he with hj
    · subst hj
      refine (mem_of_appendEntries1 h he).imp id fun hmem => Or.inl ?_
      exact ⟨me, j, args, p, _, List.mem_of_getElem? hk, hmem⟩
    · exact Or.inl he
  | @installSnapshot k me server args rf r msg _ h =>
    refine Or.inl (key (fun e he => ?_) fun j => setRaft_raft c server j rf)
    rcases installSnapshot_cases h with ⟨-, hs⟩ | ⟨-, -, -, -, hlogs, -⟩
    · exact hs.logs ▸ he
    · rw [hlogs] at he
      split_ifs at he
      · exact List.mem_of_mem_drop he
      · cases he
  | sendRequestVote _ h => exact Or.inl (hsame (sendRequestVote_cases h).1.toSameEntries (by simp))
  | sendAppendEntries _ h => exact Or.inl (hsame (sendAppendEntries_cases h).1 (by simp))
  | @snapshotReply k me server args r =>
    exact Or.inl (hsame
      ((c.raft me).sameLog_leaderSendSnapShotReply server args r).toSameEntries (by simp))

/-- **Where the commands come from that are handed out.** -/
theorem mem_emitted_of_moves [DecidableEq C] (hi : c.Indexed) (h : Moves c a c') {j : Fin n}
    {command : C} {index : ℤ} (hm : .command command index ∈ (c'.procs j).emitted) :
    .command command index ∈ (c.procs j).emitted ∨
      ∃ e ∈ (c.raft j).logs, e.logindex = index ∧ e.command = command := by
  -- a section of one process that hands out nothing new
  have key : ∀ {i : Fin n} {p : Process n C D},
      (∀ j, c'.procs j = if j = i then p else c.procs j) →
      (.command command index ∈ p.emitted → .command command index ∈ (c.procs i).emitted) →
      .command command index ∈ (c.procs j).emitted := by
    intro i p hprocs hp
    rw [hprocs] at hm
    split_ifs at hm with hj
    · exact hj ▸ hp hm
    · exact hm
  cases h with
  | exit i f => exact Or.inl (key (fun j => setProc_procs c i j _) id)
  | idle | doHeartBeat | loseVote | loseAppend | loseSnapshot | leaderSendSnapShot =>
    exact Or.inl hm
  | @doElection i rf | @start i | @snapshot i _ _ _ rf =>
    exact Or.inl (key (fun j => setRaft_procs c i j _) id)
  | @requestVote _ _ i | @appendEntries1 _ _ i | @installSnapshot _ _ i | @sendRequestVote _ i
  | @sendAppendEntries _ i | @snapshotReply _ i =>
    exact Or.inl (key (fun j => setRaft_procs c i j _) id)
  | @getApplyLogs i rf msgs hnone h =>
    rw [setProc_procs] at hm
    split_ifs at hm with hj
    · subst hj
      rcases List.mem_append.1 hm with hm | hm
      · exact Or.inl (List.mem_append_left _ hm)
      obtain ⟨k, hk⟩ := List.mem_iff_getElem?.1 hm
      obtain ⟨e, he, heq⟩ := (applyNext_eq (getApplyLogs_eq h).2).2.2 k _ hk
      obtain ⟨rfl, rfl⟩ := ApplyMsg.command.inj heq
      obtain ⟨hmem, hindex⟩ := (hi.node j).contiguous.logindex_eq he
      exact Or.inr ⟨e, hmem, hindex, rfl⟩
    · exact Or.inl hm
  | @pushApplyMsg i msg msgs hmsgs =>
    refine Or.inl (key (fun j => setProc_procs c i j _) fun hp => ?_)
    simpa [Process.emitted, hmsgs] using hp
  | @consumeCommand i command index msgs hmsgs =>
    refine Or.inl (key (fun j => setProc_procs c i j _) fun hp => ?_)
    simpa [Process.emitted, hmsgs] using hp
  | @consumeSnapshot i data term index msgs rf b hmsgs h =>
    refine Or.inl (key (fun j => setProc_procs c i j _) fun hp => ?_)
    simpa [Process.emitted, hmsgs] using hp
  | @pushMsgToKvServer k i msg hk =>
    -- what a thread pushes is a snapshot
    obtain ⟨data, term, index, rfl, -⟩ := hi.thread _ (List.mem_of_getElem? hk) rfl
    refine Or.inl (key (fun j => setProc_procs c i j _) fun hp => ?_)
    simpa [Process.emitted] using hp

/-- **Every step keeps the origin of commands.** -/
theorem Origin.step [DecidableEq C] {P : ℤ → C → Prop} (ho : c.Origin P) (hi : c.Indexed)
    (hP : ∀ x ∈ c.starts a, P x.1 x.2) (h : Moves c a c') : c'.Origin P where
  log i e he := by
    rcases mem_logs_of_moves hi h he with hold | ⟨me, server, args, p, phase, hk, hmem⟩ | hnew
    · exact ho.log i e hold
    · exact ho.call me server args p phase hk e hmem
    · exact hP _ hnew
  call me server args p phase hmem e he := by
    obtain ⟨k, hk⟩ := List.mem_iff_getElem?.1 hmem
    rcases callMoves_request h hk with ⟨phase', hold⟩ | ⟨-, -, hb, -⟩
    · exact ho.call me server args p phase' (List.mem_of_getElem? hold) e he
    · rcases heartBeatTo_cases hb with ⟨hb, -⟩ | ⟨prev, term, -, hb⟩
      · cases hb
      · obtain ⟨-, rfl⟩ := HeartBeat.sendAppendEntries.inj hb
        exact ho.log me e (List.mem_of_mem_drop he)
  emitted i command index hm := by
    rcases mem_emitted_of_moves hi h hm with hold | ⟨e, he, rfl, rfl⟩
    · exact ho.emitted i command index hold
    · exact ho.log i e he

end Cluster

/-! ### A cluster with the commands that were taken -/

/-- A cluster and the commands that its leaders have taken, with their indices. -/
structure Recording (n : ℕ) (C D : Type) where
  cluster : Cluster n C D
  started : List (ℤ × C)

namespace Recording

variable {n : ℕ} {C D : Type} [DecidableEq C]

def init : Recording n C D := ⟨.init, []⟩

def step (R : Recording n C D) (a : Action n C D) : Option (Recording n C D) :=
  (R.cluster.step a).map fun c => ⟨c, R.started ++ R.cluster.starts a⟩

variable (n C D) in
/-- A cluster with the commands that were taken as a machine. -/
def machine : Machine (Recording n C D) (Action n C D) := ⟨step⟩

/-- **Every command that is handed out under an index, and every entry of a log, was taken by a
leader that returned this index.** -/
theorem applied_started {R : Recording n C D} (h : (machine n C D).Reachable init R) :
    R.cluster.Origin fun index command => (index, command) ∈ R.started := by
  refine (h.invariant (I := fun R => R.cluster.Indexed ∧
      R.cluster.Origin fun index command => (index, command) ∈ R.started)
    ⟨Cluster.indexed_init, Cluster.origin_init _⟩ fun R a R' ⟨hi, ho⟩ _ hst => ?_).2
  obtain ⟨c, hc, rfl⟩ := Option.map_eq_some_iff.1 hst
  have hm := Cluster.moves_of_step hc
  refine ⟨hi.step hm, Cluster.Origin.step (a := a) ?_ hi (fun x hx => ?_) hm⟩
  · exact ho.mono fun index command hmem => List.mem_append_left _ hmem
  · exact List.mem_append_right _ hx

/-- Node `1` overwrites a command that node `0` has taken under the same index, and both hand out
what node `1` has taken. -/
def replacedRun : List (Action 3 String Unit) :=
  [.doElection 0, .deliver 0, .reply 0, .start 0 "x", .doElection 1, .deliver 3, .reply 3,
    .start 1 "y", .doHeartBeat 1, .deliver 4, .reply 4, .doHeartBeat 1, .deliver 6,
    .getApplyLogs 0, .getApplyLogs 1]

theorem replacedRun_eq : ((machine 3 String Unit).run init replacedRun).map
    (fun R => ((R.cluster.procs 0).emitted, R.started)) =
      some ([.command "y" 1], [(1, "x"), (1, "y")]) := by
  decide +kernel

theorem applied_started_replacedRun : ∃ R, (machine 3 String Unit).run init replacedRun = some R ∧
    (R.cluster.procs 0).emitted = [.command "y" 1] ∧ R.started = [(1, "x"), (1, "y")] ∧
      R.cluster.Origin fun index command => (index, command) ∈ R.started := by
  obtain ⟨R, hR, h⟩ := Option.map_eq_some_iff.1 replacedRun_eq
  exact ⟨R, hR, (Prod.mk.inj h).1, (Prod.mk.inj h).2,
    applied_started (Machine.reachable_of_run hR)⟩

end Recording

end KvRaft
