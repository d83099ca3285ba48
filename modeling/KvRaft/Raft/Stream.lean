import KvRaft.Raft.Election
import KvRaft.Raft.Indices

/-!
# What Raft hands to the state machine

## Main definitions

* `Cluster.ProcessMoves` : what a step can do to one process.
* `Cluster.Indexed` : the invariant of the indices of a cluster.  Requests carry consecutive
  entries, and no message is ahead of its node: a command not of `lastApplied`, a snapshot not of
  `commitIndex`.
* `Consecutive` : the commands of a stream of messages have the indices 1, 2, ..., and no
  snapshot is ahead of the commands before it.
* `Cluster.InstallsApplied` : the condition under which streams are consecutive.  A node accepts
  only snapshots of what it has applied, and pushes them behind the commands they cover.

`Cluster.Indexed` holds in every run.  Since `installSnapshot` advances the commit index before
the state machine is asked, `condInstallSnapshot` declines every snapshot in every run.
-/

namespace KvRaft

open Raft

/-! ### Streams of messages -/

section Stream

variable {C D : Type}

/-- The index of the command, or the one up to which the snapshot goes. -/
def ApplyMsg.index : ApplyMsg C D → ℤ
  | .command _ index => index
  | .snapshot _ _ index => index

def ApplyMsg.command? : ApplyMsg C D → Option C
  | .command c _ => some c
  | .snapshot _ _ _ => none

theorem ApplyMsg.eq_command {msg : ApplyMsg C D} {c : C} (h : msg.command? = some c) :
    msg = .command c msg.index := by
  cases msg with
  | command c' index =>
    obtain rfl := Option.some.inj h
    rfl
  | snapshot data term index => cases h

/-- The commands of a stream. -/
def commands (msgs : List (ApplyMsg C D)) : List C := msgs.filterMap ApplyMsg.command?

/-- **The stream goes on after `k` commands.**  Each command has the next index, and no snapshot
is ahead. -/
def Consecutive : ℕ → List (ApplyMsg C D) → Prop
  | _, [] => True
  | k, .command _ index :: msgs => index = k + 1 ∧ Consecutive (k + 1) msgs
  | k, .snapshot _ _ index :: msgs => index ≤ k ∧ Consecutive k msgs

@[simp] theorem commands_nil : commands ([] : List (ApplyMsg C D)) = [] := rfl

@[simp] theorem commands_cons_command (command : C) (index : ℤ) (msgs : List (ApplyMsg C D)) :
    commands (.command command index :: msgs) = command :: commands msgs := rfl

@[simp] theorem commands_cons_snapshot (data : D) (term index : ℤ) (msgs : List (ApplyMsg C D)) :
    commands (.snapshot data term index :: msgs) = commands msgs := rfl

@[simp] theorem commands_append (l l' : List (ApplyMsg C D)) :
    commands (l ++ l') = commands l ++ commands l' := List.filterMap_append

theorem consecutive_append {l l' : List (ApplyMsg C D)} {k : ℕ} : Consecutive k (l ++ l') ↔
    Consecutive k l ∧ Consecutive (k + (commands l).length) l' := by
  induction l generalizing k with
  | nil => simp [Consecutive]
  | cons msg l ih =>
    cases msg with
    | command command index =>
      simp only [List.cons_append, Consecutive, ih, and_assoc, commands_cons_command,
        List.length_cons, Nat.add_right_comm k 1, Nat.add_assoc]
    | snapshot data term index =>
      simp only [List.cons_append, Consecutive, ih, and_assoc, commands_cons_snapshot]

/-- The largest index of a consecutive stream is that of its last command. -/
theorem Consecutive.largest {l : List (ApplyMsg C D)} {k : ℕ} (h : Consecutive k l) :
    (l.map ApplyMsg.index).foldl max (k : ℤ) = k + (commands l).length := by
  induction l generalizing k with
  | nil => simp
  | cons msg l ih =>
    cases msg with
    | command command index =>
      obtain ⟨rfl, h⟩ := h
      have := ih h
      rw [List.map_cons, List.foldl_cons, ApplyMsg.index, max_eq_right (by omega)]
      push_cast at this
      rw [this, commands_cons_command, List.length_cons]
      push_cast
      omega
    | snapshot data term index =>
      obtain ⟨hle, h⟩ := h
      rw [List.map_cons, List.foldl_cons, ApplyMsg.index, max_eq_left hle]
      exact ih h

/-- A command of a consecutive stream comes under its index. -/
theorem Consecutive.mem {l : List (ApplyMsg C D)} {k : ℕ} (h : Consecutive k l) {m : ℕ}
    {command : C} (hm : (commands l)[m]? = some command) :
    ApplyMsg.command command (k + m + 1) ∈ l := by
  induction l generalizing k m with
  | nil => simp at hm
  | cons msg l ih =>
    cases msg with
    | command command' index =>
      obtain ⟨rfl, h⟩ := h
      cases m with
      | zero =>
        obtain rfl : command' = command := by simpa using hm
        simp
      | succ m =>
        have := ih h (m := m) (by simpa using hm)
        refine List.mem_cons_of_mem _ ?_
        push_cast at this ⊢
        rwa [show (k : ℤ) + (m + 1) + 1 = k + 1 + m + 1 by omega]
    | snapshot data term index => exact List.mem_cons_of_mem _ (ih h.2 (by simpa using hm))

end Stream

namespace Cluster

variable {n : ℕ} {C D : Type} {c c' : Cluster n C D}

/-! ### The steps of a process -/

/-- The message is not ahead of its node. -/
def MsgIndexed (rf : Raft n C D) : ApplyMsg C D → Prop
  | .command _ index => index ≤ rf.lastApplied
  | .snapshot _ _ index => index ≤ rf.commitIndex

/-- What is known about a thread: requests carry consecutive entries, and what is pushed is a
snapshot that is not ahead of its node. -/
def ThreadIndexed (c : Cluster n C D) : Thread n C D → Prop
  | .sendAppendEntries _ _ args _ _ => ContiguousFrom args.prevlogindex args.entries
  | .pushMsgToKvServer me msg pushed => pushed = false →
      ∃ data term index, msg = .snapshot data term index ∧ index ≤ (c.raft me).commitIndex
  | .sendRequestVote _ _ _ _ _ | .leaderSendSnapShot _ _ _ => True

/-- **The indices of a cluster.** -/
structure Indexed (c : Cluster n C D) : Prop where
  node : ∀ i, (c.raft i).Ordered
  thread : ∀ t ∈ c.threads, c.ThreadIndexed t
  emitted : ∀ i, ∀ msg ∈ (c.procs i).emitted, MsgIndexed (c.raft i) msg

theorem indexed_init : Indexed (init : Cluster n C D) where
  node i := ordered_init i
  thread t ht := by cases ht
  emitted i msg h := by simp [init, Process.emitted] at h

/-- **What a step can do to process `i`.** -/
inductive ProcessMoves (c : Cluster n C D) (a : Action n C D) (i : Fin n) :
    Process n C D → Prop
  /-- The node moves on, and hands out nothing. -/
  | quiet (p : Process n C D) : (c.raft i).Advances p.raft →
      p.raft.lastApplied = (c.raft i).lastApplied → p.applyMsgs = (c.procs i).applyMsgs →
      p.applyChan = (c.procs i).applyChan → p.consumed = (c.procs i).consumed →
      ProcessMoves c a i p
  | getApplyLogs (rf : Raft n C D) (msgs : List (ApplyMsg C D)) : (c.procs i).applyMsgs = [] →
      (c.raft i).Advances rf → rf.lastApplied = (c.raft i).lastApplied + msgs.length →
      (∀ (k : ℕ) (msg : ApplyMsg C D), msgs[k]? = some msg →
        ∃ command, msg = .command command ((c.raft i).lastApplied + 1 + k)) →
      ProcessMoves c a i { c.procs i with raft := rf, applyMsgs := msgs }
  | pushApplyMsg (msg : ApplyMsg C D) (msgs : List (ApplyMsg C D)) :
      (c.procs i).applyMsgs = msg :: msgs → ProcessMoves c a i { c.procs i with
        applyMsgs := msgs, applyChan := (c.procs i).applyChan ++ [msg] }
  | consume (msg : ApplyMsg C D) (msgs : List (ApplyMsg C D)) : a = .consume i →
      (c.procs i).applyChan = msg :: msgs → ProcessMoves c a i { c.procs i with
        applyChan := msgs, consumed := (c.procs i).consumed ++ [msg] }
  /-- A snapshot is accepted. -/
  | installSnapshot (k : ℕ) (me : Fin n) (args : InstallSnapshotRequest n D) (rf : Raft n C D) :
      a = .deliver k →
      c.threads[k]? = some (.leaderSendSnapShot me i (some (args, .calling))) →
      (c.raft i).currentTerm ≤ args.term →
      (c.raft i).lastSnapshotIncludeIndex < args.lastsnapshotincludeindex →
      (c.raft i).Advances rf →
      rf.lastApplied = max (c.raft i).lastApplied args.lastsnapshotincludeindex →
      ProcessMoves c a i { c.procs i with raft := rf }
  | pushMsgToKvServer (k : ℕ) (data : D) (term index : ℤ) : a = .pushMsgToKvServer k →
      c.threads[k]? = some (.pushMsgToKvServer i (.snapshot data term index) false) →
      index ≤ (c.raft i).commitIndex → ProcessMoves c a i { c.procs i with
        applyChan := (c.procs i).applyChan ++ [.snapshot data term index] }

variable {a : Action n C D} {i : Fin n} {p : Process n C D}

/-- A step that touches process `i` only. -/
theorem Indexed.update (hi : c.Indexed) (h : c.ProcessMoves a i p)
    (hprocs : ∀ j, c'.procs j = if j = i then p else c.procs j) (j : Fin n) :
    c.ProcessMoves a j (c'.procs j) := by
  rw [hprocs]
  split_ifs with hj
  · exact hj ▸ h
  · exact .quiet _ (hi.node j).refl rfl rfl rfl rfl

theorem Indexed.setRaft (hi : c.Indexed) {rf : Raft n C D} (h : (c.raft i).Advances rf)
    (happ : rf.lastApplied = (c.raft i).lastApplied)
    (hprocs : ∀ j, c'.procs j = if j = i then { c.procs i with raft := rf } else c.procs j)
    (j : Fin n) : c.ProcessMoves a j (c'.procs j) :=
  hi.update (.quiet { c.procs i with raft := rf } h happ rfl rfl rfl) hprocs j

/-- **No snapshot is installed by `condInstallSnapshot`**: `installSnapshot` has advanced the
commit index before. -/
theorem Indexed.condInstallSnapshot (hi : c.Indexed) {data : D} {term index : ℤ}
    {msgs : List (ApplyMsg C D)} (h : (c.procs i).applyChan = .snapshot data term index :: msgs) :
    (c.raft i).condInstallSnapshot term index data = .ok (c.raft i, false) :=
  condInstallSnapshot_eq
    (hi.emitted i (.snapshot data term index) (by simp [Process.emitted, h]))

theorem Indexed.processMoves [DecidableEq C] (hi : c.Indexed) (h : Moves c a c') (j : Fin n) :
    c.ProcessMoves a j (c'.procs j) := by
  have hsame : ∀ {i : Fin n} {rf : Raft n C D}, (c.raft i).SameLog rf →
      (∀ j, c'.procs j = if j = i then { c.procs i with raft := rf } else c.procs j) →
      c.ProcessMoves a j (c'.procs j) := fun hs hp =>
    hi.setRaft ((hi.node _).of_sameLog hs) hs.lastApplied hp j
  have hidle : c'.procs = c.procs → c.ProcessMoves a j (c'.procs j) := by
    intro hp
    rw [hp]
    exact .quiet _ (hi.node j).refl rfl rfl rfl rfl
  cases h with
  | exit i f =>
    exact hi.update (.quiet { c.procs i with exited := some f } (hi.node i).refl rfl rfl rfl rfl)
      (fun j => setProc_procs c i j _) j
  | idle | doHeartBeat | loseVote | loseAppend | loseSnapshot | leaderSendSnapShot =>
    exact hidle rfl
  | @doElection i rf calls h => exact hsame (doElection_eq h).1 fun j => setRaft_procs c i j rf
  | @start i command =>
    obtain ⟨hadv, happ⟩ := (hi.node i).start command
    exact hi.setRaft hadv happ (fun j => setRaft_procs c i j _) j
  | @getApplyLogs i rf msgs hm h =>
    obtain ⟨hadv, happ, hmsgs⟩ := (hi.node i).getApplyLogs h
    exact hi.update (.getApplyLogs rf msgs hm hadv happ hmsgs) (fun j => setProc_procs c i j _) j
  | @pushApplyMsg i msg msgs hm =>
    exact hi.update (.pushApplyMsg msg msgs hm) (fun j => setProc_procs c i j _) j
  | @consumeCommand i command index msgs hm =>
    exact hi.update (.consume _ msgs rfl hm) (fun j => setProc_procs c i j _) j
  | @consumeSnapshot i data term index msgs rf b hm h =>
    -- the snapshot is not ahead of the commit index, and is declined
    rw [hi.condInstallSnapshot hm] at h
    cases h
    exact hi.update (.consume _ msgs rfl hm) (fun j => setProc_procs c i j _) j
  | @snapshot i command index data rf hm h =>
    obtain ⟨hadv, happ⟩ := (hi.node i).snapshot h
    refine hi.setRaft hadv (happ ?_) (fun j => setRaft_procs c i j rf) j
    exact hi.emitted i (.command command index)
      (by simp [Process.emitted, List.mem_of_getLast? hm])
  | @requestVote k me server args p rf r hk h =>
    exact hsame (requestVote_cases h).1 fun j => setRaft_procs c server j rf
  | @appendEntries1 k me server args p rf r hk h =>
    obtain ⟨hadv, happ⟩ :=
      (hi.node server).appendEntries1 (hi.thread _ (List.mem_of_getElem? hk)) h
    exact hi.setRaft hadv happ (fun j => setRaft_procs c server j rf) j
  | @installSnapshot k me server args rf r msg hk h =>
    have hadv := (hi.node server).installSnapshot h
    rcases installSnapshot_cases h with ⟨-, hs⟩ | ⟨-, hterm, hlt, -, -, -, happ⟩
    · exact hsame hs fun j => setRaft_procs c server j rf
    · exact hi.update (.installSnapshot k me args rf rfl hk hterm hlt hadv happ)
        (fun j => setRaft_procs c server j rf) j
  | @sendRequestVote k me server args p r rf num elected hk h =>
    exact hsame (sendRequestVote_cases h).1 fun j => setRaft_procs c me j rf
  | @sendAppendEntries k me server args p r rf num hk h =>
    obtain ⟨hadv, happ⟩ := (hi.node me).sendAppendEntries h
    exact hi.setRaft hadv happ (fun j => setRaft_procs c me j rf) j
  | @snapshotReply k me server args r hk =>
    exact hsame (sameLog_leaderSendSnapShotReply _ server args r)
      fun j => setRaft_procs c me j _
  | @pushMsgToKvServer k me msg hk =>
    obtain ⟨data, term, index, rfl, hle⟩ := hi.thread _ (List.mem_of_getElem? hk) rfl
    exact hi.update (.pushMsgToKvServer k data term index rfl hk hle)
      (fun j => setProc_procs c me j _) j

/-- What the state machine has popped. -/
theorem ProcessMoves.consumed_eq (h : c.ProcessMoves a i p) (ha : a ≠ .consume i) :
    p.consumed = (c.procs i).consumed := by
  cases h with
  | quiet _ _ _ _ _ hcons => exact hcons
  | consume msg msgs hc => exact absurd hc ha
  | getApplyLogs | pushApplyMsg | installSnapshot | pushMsgToKvServer => rfl

theorem Indexed.consume_eq [DecidableEq C] (hi : c.Indexed) {msg : ApplyMsg C D}
    {msgs : List (ApplyMsg C D)} (hm : (c.procs i).applyChan = msg :: msgs)
    (h : c.step (.consume i) = some c') : c' = c.setProc i { c.procs i with
      applyChan := msgs, consumed := (c.procs i).consumed ++ [msg] } := by
  simp only [Cluster.step, hm, exec] at h
  split_ifs at h
  cases msg with
  | command command index => exact (Option.some.inj h).symm
  | snapshot data term index =>
    simp only [hi.condInstallSnapshot hm] at h
    exact (Option.some.inj h).symm

/-! ### The invariant -/

theorem ProcessMoves.advances (h : c.ProcessMoves a i p) (hi : c.Indexed) :
    (c.raft i).Advances p.raft := by
  cases h with
  | quiet _ hadv => exact hadv
  | getApplyLogs rf msgs _ hadv => exact hadv
  | installSnapshot k me args rf _ _ _ _ hadv => exact hadv
  | pushApplyMsg | consume | pushMsgToKvServer => exact (hi.node i).refl

theorem MsgIndexed.mono {rf rf' : Raft n C D} {msg : ApplyMsg C D} (h : MsgIndexed rf msg)
    (hadv : rf.Advances rf') : MsgIndexed rf' msg := by
  cases msg with
  | command command index => exact h.trans hadv.applied_le
  | snapshot data term index => exact h.trans hadv.commit_le

theorem ThreadIndexed.mono {t : Thread n C D} (h : c.ThreadIndexed t)
    (hadv : ∀ i, (c.raft i).Advances (c'.raft i)) : c'.ThreadIndexed t := by
  cases t with
  | pushMsgToKvServer me msg pushed =>
    intro hp
    obtain ⟨data, term, index, rfl, hle⟩ := h hp
    exact ⟨data, term, index, rfl, hle.trans (hadv me).commit_le⟩
  | sendAppendEntries => exact h
  | sendRequestVote | leaderSendSnapShot => trivial

/-- A message that is handed out is not ahead of its node. -/
theorem ProcessMoves.msgIndexed (h : c.ProcessMoves a i p) (hi : c.Indexed) :
    ∀ msg ∈ p.emitted, MsgIndexed p.raft msg := by
  have hadv := h.advances hi
  intro msg hmsg
  have hold : msg ∈ (c.procs i).emitted → MsgIndexed p.raft msg := fun hm =>
    (hi.emitted i msg hm).mono hadv
  cases h with
  | quiet p _ _ hmsgs hchan hcons =>
    exact hold (by rwa [Process.emitted, hmsgs, hchan, hcons] at hmsg)
  | getApplyLogs rf msgs hm _ happ hmsgs =>
    rcases List.mem_append.1 hmsg with hmsg | hmsg
    · exact hold (List.mem_append_left _ hmsg)
    · obtain ⟨k, hk⟩ := List.mem_iff_getElem?.1 hmsg
      obtain ⟨command, rfl⟩ := hmsgs k msg hk
      have hlt : k < msgs.length := (List.getElem?_eq_some_iff.1 hk).1
      simp only [MsgIndexed]
      omega
  | pushApplyMsg msg' msgs hm => exact hold (by simpa [Process.emitted, hm] using hmsg)
  | consume msg' msgs _ hm => exact hold (by simpa [Process.emitted, hm] using hmsg)
  | installSnapshot => exact hold hmsg
  | pushMsgToKvServer k data term index _ _ hle =>
    have : msg ∈ (c.procs i).emitted ∨ msg = .snapshot data term index := by
      simp only [Process.emitted, List.mem_append, List.mem_singleton] at hmsg ⊢
      tauto
    rcases this with hmsg | rfl
    · exact hold hmsg
    · exact hle

/-- The threads after a step. -/
theorem Indexed.threads [DecidableEq C] (hi : c.Indexed) (h : Moves c a c') :
    ∀ t ∈ c'.threads, t ∈ c.threads ∨ c'.ThreadIndexed t := by
  intro t ht
  -- a call that goes on keeps its request
  have hset : ∀ {k : ℕ} {t' : Thread n C D}, t ∈ c.threads.set k t' → c'.ThreadIndexed t' →
      t ∈ c.threads ∨ c'.ThreadIndexed t := by
    intro k t' hm ht'
    rcases List.mem_or_eq_of_mem_set hm with hm | rfl
    · exact Or.inl hm
    · exact Or.inr ht'
  cases h with
  | exit | idle | start | getApplyLogs | pushApplyMsg | consumeCommand | consumeSnapshot
  | snapshot => exact Or.inl ht
  | doElection =>
    refine (List.mem_append.1 ht).imp id fun ht => ?_
    obtain ⟨call, -, rfl⟩ := List.mem_map.1 ht
    trivial
  | @doHeartBeat i beats h =>
    refine (List.mem_append.1 ht).imp id fun ht => ?_
    obtain ⟨b, hb, rfl⟩ := List.mem_map.1 ht
    cases b with
    | leaderSendSnapShot server => trivial
    | sendAppendEntries server args =>
      obtain ⟨j, -, hj⟩ := exists_of_forall₂ (doHeartBeat_eq h).2 hb
      exact (hi.node i).contiguous.heartBeatTo hj
  | requestVote | sendRequestVote | loseVote | snapshotReply | loseSnapshot
  | leaderSendSnapShot => exact hset ht trivial
  | appendEntries1 hk | sendAppendEntries hk | loseAppend hk =>
    exact hset ht (hi.thread _ (List.mem_of_getElem? hk))
  | pushMsgToKvServer => exact hset ht fun h => by cases h
  | @installSnapshot k me server args rf r msg hk h =>
    rcases List.mem_append.1 ht with ht | ht
    · exact hset ht trivial
    obtain ⟨m, hm, rfl⟩ := List.mem_map.1 ht
    refine Or.inr fun _ => ?_
    rcases installSnapshot_cases h with ⟨rfl, -⟩ | ⟨rfl, -, -, -, -, hcommit, -⟩
    · simp at hm
    · obtain rfl : m = _ := by simpa using hm
      refine ⟨_, _, _, rfl, ?_⟩
      simp [hcommit]

theorem Indexed.step [DecidableEq C] (hi : c.Indexed) (h : Moves c a c') : c'.Indexed := by
  have hproc := hi.processMoves h
  have hadv : ∀ i, (c.raft i).Advances (c'.raft i) := fun i => (hproc i).advances hi
  refine ⟨fun i => (hadv i).ordered, fun t ht => ?_, fun i => (hproc i).msgIndexed hi⟩
  rcases hi.threads h t ht with ht | ht
  · exact (hi.thread t ht).mono hadv
  · exact ht

/-- **The indices of every reachable cluster are in order.** -/
theorem indexed_of_reachable [DecidableEq C] (h : (machine n C D).Reachable init c) :
    c.Indexed :=
  h.invariant indexed_init fun _ _ _ hi _ hst => hi.step (moves_of_step hst)

/-! ### Consecutive streams -/

/-- The condition on a step: a node accepts only snapshots of what it has applied, and pushes
them behind the commands they cover. -/
def InstallsApplied (c : Cluster n C D) : Action n C D → Prop
  | .deliver k => match c.threads[k]? with
    | some (.leaderSendSnapShot _ server (some (args, .calling))) =>
      (c.raft server).currentTerm ≤ args.term →
      (c.raft server).lastSnapshotIncludeIndex < args.lastsnapshotincludeindex →
      args.lastsnapshotincludeindex ≤ (c.raft server).lastApplied
    | _ => True
  | .pushMsgToKvServer k => match c.threads[k]? with
    | some (.pushMsgToKvServer me (.snapshot _ _ index) false) =>
      index ≤ (commands ((c.procs me).consumed ++ (c.procs me).applyChan)).length
    | _ => True
  | _ => True

instance (c : Cluster n C D) (a : Action n C D) : Decidable (c.InstallsApplied a) := by
  induction a using Action.casesOn with
  | deliver k =>
    dsimp only [InstallsApplied]
    rcases c.threads[k]? with _ | _ | _ | ⟨_, _, _ | ⟨_, _ | _⟩⟩ | _ <;> infer_instance
  | pushMsgToKvServer k =>
    dsimp only [InstallsApplied]
    rcases c.threads[k]? with _ | _ | _ | _ | ⟨_, _ | _, _ | _⟩ <;> infer_instance
  | _ => dsimp only [InstallsApplied]; infer_instance

/-- What a process has handed out is a consecutive stream up to `lastApplied`. -/
structure Streams (p : Process n C D) : Prop where
  consecutive : Consecutive 0 p.emitted
  applied : p.raft.lastApplied = (commands p.emitted).length

theorem streams_init (i : Fin n) : Streams ((init : Cluster n C D).procs i) :=
  ⟨trivial, rfl⟩

theorem Streams.consumed (h : Streams p) : Consecutive 0 p.consumed := by
  have := h.consecutive
  rw [Process.emitted, List.append_assoc] at this
  exact (consecutive_append.1 this).1

/-- The messages that `getApplyLogs` takes carry the stream on. -/
theorem consecutive_of_getElem {msgs : List (ApplyMsg C D)} {k : ℕ}
    (h : ∀ (m : ℕ) (msg : ApplyMsg C D), msgs[m]? = some msg →
      ∃ command, msg = .command command (k + 1 + m)) :
    Consecutive k msgs ∧ (commands msgs).length = msgs.length := by
  induction msgs generalizing k with
  | nil => exact ⟨trivial, rfl⟩
  | cons msg msgs ih =>
    obtain ⟨command, rfl⟩ := h 0 msg rfl
    have hrest : ∀ (m : ℕ) (msg : ApplyMsg C D), msgs[m]? = some msg →
        ∃ command, msg = .command command ((k + 1 : ℕ) + 1 + m) := by
      intro m msg hm
      obtain ⟨command, rfl⟩ := h (m + 1) msg (by simpa using hm)
      refine ⟨command, ?_⟩
      push_cast
      congr 1
      omega
    obtain ⟨hc, hlen⟩ := ih hrest
    exact ⟨⟨by simp, hc⟩, by simp [hlen]⟩

/-- **A step that meets the condition keeps the streams consecutive.** -/
theorem Streams.step (hs : Streams (c.procs i)) (hg : c.InstallsApplied a)
    (h : c.ProcessMoves a i p) : Streams p := by
  obtain ⟨hc, happ⟩ := hs
  -- the same messages were handed out
  have hsame : p.emitted = (c.procs i).emitted → p.raft.lastApplied = (c.raft i).lastApplied →
      Streams p := fun he ha => ⟨by rw [he]; exact hc, by rw [he, ha]; exact happ⟩
  cases h with
  | quiet p _ ha hmsgs hchan hcons =>
    exact hsame (by rw [Process.emitted, hmsgs, hchan, hcons]; rfl) ha
  | getApplyLogs rf msgs hm _ ha hmsgs =>
    rw [Process.emitted, hm, List.append_nil] at hc happ
    have happ' : (c.raft i).lastApplied = _ := happ
    rw [happ'] at hmsgs
    obtain ⟨hcons, hlen⟩ := consecutive_of_getElem hmsgs
    refine ⟨?_, ?_⟩
    · rw [Process.emitted, consecutive_append]
      exact ⟨hc, by rwa [Nat.zero_add]⟩
    · rw [Process.emitted, commands_append, List.length_append, hlen]
      push_cast
      exact ha.trans (by rw [happ'])
  | pushApplyMsg msg msgs hm => exact hsame (by simp [Process.emitted, hm]) rfl
  | consume msg msgs _ hm => exact hsame (by simp [Process.emitted, hm]) rfl
  | installSnapshot k me args rf ha hk hterm hlt _ hrf =>
    subst ha
    simp only [InstallsApplied, hk] at hg
    exact hsame rfl (hrf.trans (max_eq_left (hg hterm hlt)))
  | pushMsgToKvServer k data term index ha hk _ =>
    subst ha
    simp only [InstallsApplied, hk] at hg
    rw [Process.emitted, consecutive_append] at hc
    refine ⟨?_, ?_⟩
    · rw [Process.emitted, consecutive_append, ← List.append_assoc, consecutive_append]
      refine ⟨⟨hc.1, ?_, trivial⟩, ?_⟩
      · rw [Nat.zero_add]
        exact hg
      · rw [commands_append, commands_cons_snapshot, commands_nil, List.append_nil]
        exact hc.2
    · simpa [Process.emitted] using happ

end Cluster

end KvRaft
