import KvRaft.LTS.Basic
import KvRaft.Raft.Node
import Mathlib.Logic.Function.Basic

/-!
# A cluster of Raft nodes

The nodes run their handlers one at a time (each under its `m_mtx`) and call each other through
threads.  A thread of the source waits for one reply and then runs one more section under the
lock; its `Phase` says how far it is.  Requests and replies may be delayed for any time, lost
and overtaken by others: any thread may move at any time.  A request is handled at most once and
answered at most once.

`Cluster.step` executes an action, `Cluster.Moves` is the same as a relation with one
constructor for each kind of step (`Cluster.moves_of_step`).
-/

namespace KvRaft

/-- How far the call of a thread is. -/
inductive Phase (R : Type) where
  /-- The request is on its way. -/
  | calling
  /-- The request was handled, the reply is on its way. -/
  | replied (reply : R)
  /-- The reply was processed, or the call failed (`none`). -/
  | done (reply : Option R)
  deriving DecidableEq

/-- The caller still waits. -/
def Phase.waiting {R : Type} : Phase R → Bool
  | .calling | .replied _ => true
  | .done _ => false

/-- The threads that the nodes start. -/
inductive Thread (n : ℕ) (C D : Type) where
  | sendRequestVote (me server : Fin n) (args : RequestVoteArgs n) (votedNum : ℕ)
      (phase : Phase RequestVoteReply)
  | sendAppendEntries (me server : Fin n) (args : AppendEntriesArgs n C) (appendNums : ℕ)
      (phase : Phase AppendEntriesReply)
  /-- The call is `none` until the thread has read the node under the lock. -/
  | leaderSendSnapShot (me server : Fin n)
      (call : Option (InstallSnapshotRequest n D × Phase InstallSnapshotResponse))
  | pushMsgToKvServer (me : Fin n) (msg : ApplyMsg C D) (pushed : Bool)
  deriving DecidableEq

/-- A server process as far as Raft is concerned. -/
structure Process (n : ℕ) (C D : Type) where
  raft : Raft n C D
  /-- The local messages of `applierTicker`, taken but not yet pushed. -/
  applyMsgs : List (ApplyMsg C D) := []
  /-- The queue between Raft and the state machine. -/
  applyChan : List (ApplyMsg C D) := []
  /-- The messages the state machine has popped. -/
  consumed : List (ApplyMsg C D) := []
  /-- The assertion that ended the process. -/
  exited : Option Fault := none

/-- The messages that Raft has handed out so far, in order. -/
def Process.emitted {n : ℕ} {C D : Type} (p : Process n C D) : List (ApplyMsg C D) :=
  p.consumed ++ p.applyChan ++ p.applyMsgs

/-- A cluster: the processes, their threads and the counters that threads share. -/
structure Cluster (n : ℕ) (C D : Type) where
  procs : Fin n → Process n C D
  threads : List (Thread n C D)
  /-- The shared vote counters, one for each election. -/
  votedNums : List ℕ
  /-- The shared success counters, one for each heartbeat. -/
  appendNums : List ℕ
  /-- Who has become leader, and in which term. -/
  elections : List (Fin n × ℤ)

/-- The actions of a cluster. -/
inductive Action (n : ℕ) (C D : Type) where
  /-- The election timer of a node fires. -/
  | doElection (i : Fin n)
  /-- The heartbeat timer of a node fires, or the thread started at its election runs. -/
  | doHeartBeat (i : Fin n)
  /-- A command is handed to a node. -/
  | start (i : Fin n) (command : C)
  /-- `applierTicker` takes the committed entries. -/
  | getApplyLogs (i : Fin n)
  /-- `applierTicker` pushes the next message. -/
  | pushApplyMsg (i : Fin n)
  /-- The state machine pops the next message. -/
  | consume (i : Fin n)
  /-- The state machine compacts the log up to the command it has popped last. -/
  | snapshot (i : Fin n) (data : D)
  /-- The request of a thread reaches its server and is handled. -/
  | deliver (k : ℕ)
  /-- The reply of a thread arrives and is processed. -/
  | reply (k : ℕ)
  /-- The call of a thread fails. -/
  | lose (k : ℕ)
  /-- A snapshot thread reads its node. -/
  | leaderSendSnapShot (k : ℕ) (data : D)
  /-- A push thread pushes its message. -/
  | pushMsgToKvServer (k : ℕ)

namespace Cluster

variable {n : ℕ} {C D : Type}

def init : Cluster n C D where
  procs i := { raft := Raft.init i {} }
  threads := []
  votedNums := []
  appendNums := []
  elections := []

/-- The node of process `i`. -/
def raft (c : Cluster n C D) (i : Fin n) : Raft n C D := (c.procs i).raft

def setProc (c : Cluster n C D) (i : Fin n) (p : Process n C D) : Cluster n C D :=
  { c with procs := Function.update c.procs i p }

def setRaft (c : Cluster n C D) (i : Fin n) (rf : Raft n C D) : Cluster n C D :=
  c.setProc i { c.procs i with raft := rf }

def setThread (c : Cluster n C D) (k : ℕ) (t : Thread n C D) : Cluster n C D :=
  { c with threads := c.threads.set k t }

def spawn (c : Cluster n C D) (ts : List (Thread n C D)) : Cluster n C D :=
  { c with threads := c.threads ++ ts }

@[simp] theorem raft_mk (procs : Fin n → Process n C D) (ts : List (Thread n C D))
    (vs as : List ℕ) (es : List (Fin n × ℤ)) (i : Fin n) :
    (Cluster.mk procs ts vs as es).raft i = (procs i).raft := rfl

@[simp] theorem procs_raft (c : Cluster n C D) (i : Fin n) : (c.procs i).raft = c.raft i := rfl

theorem setProc_procs (c : Cluster n C D) (i j : Fin n) (p : Process n C D) :
    (c.setProc i p).procs j = if j = i then p else c.procs j := by
  simp [setProc, Function.update_apply]

theorem setRaft_procs (c : Cluster n C D) (i j : Fin n) (rf : Raft n C D) :
    (c.setRaft i rf).procs j = if j = i then { c.procs i with raft := rf } else c.procs j :=
  setProc_procs ..

@[simp] theorem setThread_procs (c : Cluster n C D) (k : ℕ) (t : Thread n C D) :
    (c.setThread k t).procs = c.procs := rfl

@[simp] theorem spawn_procs (c : Cluster n C D) (ts : List (Thread n C D)) :
    (c.spawn ts).procs = c.procs := rfl

@[simp] theorem setProc_raft (c : Cluster n C D) (i j : Fin n) (p : Process n C D) :
    (c.setProc i p).raft j = if j = i then p.raft else c.raft j := by
  simp only [raft, setProc_procs]
  split_ifs <;> rfl

@[simp] theorem setRaft_raft (c : Cluster n C D) (i j : Fin n) (rf : Raft n C D) :
    (c.setRaft i rf).raft j = if j = i then rf else c.raft j := setProc_raft ..

/-- A section of node `i` keeps what it keeps there, and what holds of the other nodes. -/
theorem forall_raft_of_update {P : Fin n → Raft n C D → Prop} {c c' : Cluster n C D} {i : Fin n}
    {rf : Raft n C D} (hraft : ∀ j, c'.raft j = if j = i then rf else c.raft j) (hrf : P i rf)
    (hrest : ∀ j, P j (c.raft j)) (j : Fin n) : P j (c'.raft j) := by
  rw [hraft]
  split_ifs with hj
  · exact hj ▸ hrf
  · exact hrest j

@[simp] theorem setThread_raft (c : Cluster n C D) (k : ℕ) (t : Thread n C D) (j : Fin n) :
    (c.setThread k t).raft j = c.raft j := rfl

@[simp] theorem spawn_raft (c : Cluster n C D) (ts : List (Thread n C D)) (j : Fin n) :
    (c.spawn ts).raft j = c.raft j := rfl

@[simp] theorem setProc_threads (c : Cluster n C D) (i : Fin n) (p : Process n C D) :
    (c.setProc i p).threads = c.threads := rfl

@[simp] theorem setRaft_threads (c : Cluster n C D) (i : Fin n) (rf : Raft n C D) :
    (c.setRaft i rf).threads = c.threads := rfl

@[simp] theorem setThread_threads (c : Cluster n C D) (k : ℕ) (t : Thread n C D) :
    (c.setThread k t).threads = c.threads.set k t := rfl

@[simp] theorem spawn_threads (c : Cluster n C D) (ts : List (Thread n C D)) :
    (c.spawn ts).threads = c.threads ++ ts := rfl

/-- A thread that changes in a way that `f` does not see. -/
theorem map_set_of_eq {α β : Type} {l : List α} {k : ℕ} {a a' : α} (f : α → β)
    (h : l[k]? = some a) (hf : f a' = f a) : (l.set k a').map f = l.map f := by
  obtain ⟨hlt, rfl⟩ := List.getElem?_eq_some_iff.1 h
  have hlt' : k < (l.map f).length := by simpa using hlt
  have : f a' = (l.map f)[k] := by simp [hf]
  rw [List.map_set, this, List.set_getElem_self]

/-- Process `i` ends with a failed assertion. -/
def exit (c : Cluster n C D) (i : Fin n) (f : Fault) : Cluster n C D :=
  c.setProc i { c.procs i with exited := some f }

/-- Run a section of process `i`, which ends the process if it fails. -/
def exec {α : Type} (c : Cluster n C D) (i : Fin n) (r : Except Fault α)
    (k : α → Cluster n C D) : Option (Cluster n C D) :=
  if (c.procs i).exited = none then
    match r with
    | .ok a => some (k a)
    | .error f => some (c.exit i f)
  else none

/-- A section either runs through or ends the process. -/
theorem exec_cases {α : Type} {c c' : Cluster n C D} {i : Fin n} {r : Except Fault α}
    {k : α → Cluster n C D} (h : c.exec i r k = some c') :
    (∃ a, r = .ok a ∧ k a = c') ∨ ∃ f, c.exit i f = c' := by
  unfold exec at h
  split_ifs at h
  cases r with
  | ok a => exact Or.inl ⟨a, rfl, by simpa using h⟩
  | error f => exact Or.inr ⟨f, by simpa using h⟩

/-- The thread that a heartbeat starts for one peer. -/
def heartBeatThread (me : Fin n) (appendNums : ℕ) : Raft.HeartBeat n C → Thread n C D
  | .leaderSendSnapShot server => .leaderSendSnapShot me server none
  | .sendAppendEntries server args => .sendAppendEntries me server args appendNums .calling

/-- The threads that an election starts. -/
def voteThreads (me : Fin n) (votedNum : ℕ) (calls : List (Fin n × RequestVoteArgs n)) :
    List (Thread n C D) :=
  calls.map fun call => .sendRequestVote me call.1 call.2 votedNum .calling

variable [DecidableEq C]

/-- Handle the request of thread `k`. -/
def deliver (c : Cluster n C D) (k : ℕ) : Option (Cluster n C D) :=
  match c.threads[k]? with
  | some (.sendRequestVote me server args p .calling) =>
    c.exec server ((c.raft server).requestVote args) fun (rf, reply) =>
      (c.setRaft server rf).setThread k (.sendRequestVote me server args p (.replied reply))
  | some (.sendAppendEntries me server args p .calling) =>
    c.exec server ((c.raft server).appendEntries1 args) fun (rf, reply) =>
      (c.setRaft server rf).setThread k (.sendAppendEntries me server args p (.replied reply))
  | some (.leaderSendSnapShot me server (some (args, .calling))) =>
    c.exec server ((c.raft server).installSnapshot args) fun (rf, reply, msg) =>
      ((c.setRaft server rf).setThread k
        (.leaderSendSnapShot me server (some (args, .replied reply)))).spawn
          (msg.toList.map fun msg => .pushMsgToKvServer server msg false)
  | _ => none

/-- Process the reply of thread `k`. -/
def reply (c : Cluster n C D) (k : ℕ) : Option (Cluster n C D) :=
  match c.threads[k]? with
  | some (.sendRequestVote me server args p (.replied r)) =>
    c.exec me ((c.raft me).sendRequestVote (c.votedNums.getD p 0) r) fun (rf, num, elected) =>
      { (c.setRaft me rf).setThread k (.sendRequestVote me server args p (.done (some r))) with
        votedNums := c.votedNums.set p num
        elections := if elected then c.elections ++ [(me, rf.currentTerm)] else c.elections }
  | some (.sendAppendEntries me server args p (.replied r)) =>
    c.exec me ((c.raft me).sendAppendEntries server args r (c.appendNums.getD p 0))
      fun (rf, num) =>
      { (c.setRaft me rf).setThread k
          (.sendAppendEntries me server args p (.done (some r))) with
        appendNums := c.appendNums.set p num }
  | some (.leaderSendSnapShot me server (some (args, .replied r))) =>
    c.exec me (.ok ((c.raft me).leaderSendSnapShotReply server args r)) fun rf =>
      (c.setRaft me rf).setThread k (.leaderSendSnapShot me server (some (args, .done (some r))))
  | _ => none

/-- The call of thread `k` fails, which leaves its node alone. -/
def lose (c : Cluster n C D) (k : ℕ) : Option (Cluster n C D) :=
  match c.threads[k]? with
  | some (.sendRequestVote me server args p phase) =>
    if phase.waiting then
      some (c.setThread k (.sendRequestVote me server args p (.done none))) else none
  | some (.sendAppendEntries me server args p phase) =>
    if phase.waiting then
      some (c.setThread k (.sendAppendEntries me server args p (.done none))) else none
  | some (.leaderSendSnapShot me server (some (args, phase))) =>
    if phase.waiting then
      some (c.setThread k (.leaderSendSnapShot me server (some (args, .done none)))) else none
  | _ => none

def step (c : Cluster n C D) : Action n C D → Option (Cluster n C D)
  | .doElection i =>
    c.exec i (.ok (c.raft i).doElection) fun
      | none => c
      | some (rf, calls) =>
        { (c.setRaft i rf).spawn (voteThreads i c.votedNums.length calls) with
          votedNums := c.votedNums ++ [1] }
  | .doHeartBeat i =>
    c.exec i (c.raft i).doHeartBeat fun
      | none => c
      | some beats =>
        { c.spawn (beats.map (heartBeatThread i c.appendNums.length)) with
          appendNums := c.appendNums ++ [1] }
  | .start i command =>
    c.exec i (.ok ((c.raft i).start command)) fun (rf, _) => c.setRaft i rf
  | .getApplyLogs i =>
    if (c.procs i).applyMsgs = [] then
      c.exec i (c.raft i).getApplyLogs fun (rf, msgs) =>
        c.setProc i { c.procs i with raft := rf, applyMsgs := msgs }
    else none
  | .pushApplyMsg i =>
    match (c.procs i).applyMsgs with
    | [] => none
    | msg :: msgs =>
      c.exec i (.ok ()) fun _ =>
        c.setProc i { c.procs i with
          applyMsgs := msgs, applyChan := (c.procs i).applyChan ++ [msg] }
  | .consume i =>
    match (c.procs i).applyChan with
    | [] => none
    | msg :: msgs =>
      let raft := match msg with
        | .command _ _ => .ok (c.raft i, false)
        | .snapshot data term index => (c.raft i).condInstallSnapshot term index data
      c.exec i raft fun (rf, _) =>
        c.setProc i { c.procs i with
          raft := rf, applyChan := msgs, consumed := (c.procs i).consumed ++ [msg] }
  | .snapshot i data =>
    match (c.procs i).consumed.getLast? with
    | some (.command _ index) =>
      c.exec i ((c.raft i).snapshot index data) fun rf => c.setRaft i rf
    | _ => none
  | .deliver k => c.deliver k
  | .reply k => c.reply k
  | .lose k => c.lose k
  | .leaderSendSnapShot k data =>
    match c.threads[k]? with
    | some (.leaderSendSnapShot me server none) =>
      c.exec me (.ok ((c.raft me).leaderSendSnapShot data)) fun args =>
        c.setThread k (.leaderSendSnapShot me server (some (args, .calling)))
    | _ => none
  | .pushMsgToKvServer k =>
    match c.threads[k]? with
    | some (.pushMsgToKvServer me msg false) =>
      c.exec me (.ok ()) fun _ =>
        (c.setProc me { c.procs me with
          applyChan := (c.procs me).applyChan ++ [msg] }).setThread k
          (.pushMsgToKvServer me msg true)
    | _ => none

variable (n C D) in
/-- The cluster as a machine. -/
def machine : Machine (Cluster n C D) (Action n C D) := ⟨step⟩

theorem reachable_of_step {c c' : Cluster n C D} {a : Action n C D} (h : c.step a = some c') :
    (machine n C D).Reachable c c' :=
  Machine.Reaches.refl.tail trivial h

/-! ### Kinds of steps -/

/-- What an action does, with one constructor for each kind of step. -/
inductive Moves (c : Cluster n C D) : Action n C D → Cluster n C D → Prop
  /-- An assertion fails. -/
  | exit {a} (i : Fin n) (f : Fault) : Moves c a (c.exit i f)
  /-- The timer of a node fires that has nothing to do. -/
  | idle {a} : Moves c a c
  | doElection {i rf calls} : (c.raft i).doElection = some (rf, calls) →
      Moves c (.doElection i) { (c.setRaft i rf).spawn (voteThreads i c.votedNums.length calls) with
        votedNums := c.votedNums ++ [1] }
  | doHeartBeat {i beats} : (c.raft i).doHeartBeat = .ok (some beats) →
      Moves c (.doHeartBeat i) { c.spawn (beats.map (heartBeatThread i c.appendNums.length)) with
        appendNums := c.appendNums ++ [1] }
  | start {i} (command : C) :
      Moves c (.start i command) (c.setRaft i ((c.raft i).start command).1)
  | getApplyLogs {i rf msgs} : (c.procs i).applyMsgs = [] →
      (c.raft i).getApplyLogs = .ok (rf, msgs) →
      Moves c (.getApplyLogs i) (c.setProc i { c.procs i with raft := rf, applyMsgs := msgs })
  | pushApplyMsg {i msg msgs} : (c.procs i).applyMsgs = msg :: msgs →
      Moves c (.pushApplyMsg i) (c.setProc i { c.procs i with
        applyMsgs := msgs, applyChan := (c.procs i).applyChan ++ [msg] })
  | consumeCommand {i command index msgs} :
      (c.procs i).applyChan = .command command index :: msgs →
      Moves c (.consume i) (c.setProc i { c.procs i with
        applyChan := msgs, consumed := (c.procs i).consumed ++ [.command command index] })
  | consumeSnapshot {i data term index msgs rf b} :
      (c.procs i).applyChan = .snapshot data term index :: msgs →
      (c.raft i).condInstallSnapshot term index data = .ok (rf, b) →
      Moves c (.consume i) (c.setProc i { c.procs i with
        raft := rf, applyChan := msgs,
        consumed := (c.procs i).consumed ++ [.snapshot data term index] })
  | snapshot {i command index data rf} :
      (c.procs i).consumed.getLast? = some (.command command index) →
      (c.raft i).snapshot index data = .ok rf →
      Moves c (.snapshot i data) (c.setRaft i rf)
  | requestVote {k me server args p rf r} :
      c.threads[k]? = some (.sendRequestVote me server args p .calling) →
      (c.raft server).requestVote args = .ok (rf, r) →
      Moves c (.deliver k) ((c.setRaft server rf).setThread k
        (.sendRequestVote me server args p (.replied r)))
  | appendEntries1 {k me server args p rf r} :
      c.threads[k]? = some (.sendAppendEntries me server args p .calling) →
      (c.raft server).appendEntries1 args = .ok (rf, r) →
      Moves c (.deliver k) ((c.setRaft server rf).setThread k
        (.sendAppendEntries me server args p (.replied r)))
  | installSnapshot {k me server args rf r msg} :
      c.threads[k]? = some (.leaderSendSnapShot me server (some (args, .calling))) →
      (c.raft server).installSnapshot args = .ok (rf, r, msg) →
      Moves c (.deliver k) (((c.setRaft server rf).setThread k
        (.leaderSendSnapShot me server (some (args, .replied r)))).spawn
          (msg.toList.map fun msg => .pushMsgToKvServer server msg false))
  | sendRequestVote {k me server args p r rf num elected} :
      c.threads[k]? = some (.sendRequestVote me server args p (.replied r)) →
      (c.raft me).sendRequestVote (c.votedNums.getD p 0) r = .ok (rf, num, elected) →
      Moves c (.reply k)
        { (c.setRaft me rf).setThread k (.sendRequestVote me server args p (.done (some r))) with
          votedNums := c.votedNums.set p num
          elections := if elected then c.elections ++ [(me, rf.currentTerm)] else c.elections }
  | sendAppendEntries {k me server args p r rf num} :
      c.threads[k]? = some (.sendAppendEntries me server args p (.replied r)) →
      (c.raft me).sendAppendEntries server args r (c.appendNums.getD p 0) = .ok (rf, num) →
      Moves c (.reply k)
        { (c.setRaft me rf).setThread k
            (.sendAppendEntries me server args p (.done (some r))) with
          appendNums := c.appendNums.set p num }
  | snapshotReply {k me server args r} :
      c.threads[k]? = some (.leaderSendSnapShot me server (some (args, .replied r))) →
      Moves c (.reply k)
        ((c.setRaft me ((c.raft me).leaderSendSnapShotReply server args r)).setThread k
          (.leaderSendSnapShot me server (some (args, .done (some r)))))
  | loseVote {k me server args p phase} :
      c.threads[k]? = some (.sendRequestVote me server args p phase) → phase.waiting = true →
      Moves c (.lose k) (c.setThread k (.sendRequestVote me server args p (.done none)))
  | loseAppend {k me server args p phase} :
      c.threads[k]? = some (.sendAppendEntries me server args p phase) → phase.waiting = true →
      Moves c (.lose k) (c.setThread k (.sendAppendEntries me server args p (.done none)))
  | loseSnapshot {k me server args phase} :
      c.threads[k]? = some (.leaderSendSnapShot me server (some (args, phase))) →
      phase.waiting = true →
      Moves c (.lose k) (c.setThread k (.leaderSendSnapShot me server (some (args, .done none))))
  | leaderSendSnapShot {k me server} (data : D) :
      c.threads[k]? = some (.leaderSendSnapShot me server none) →
      Moves c (.leaderSendSnapShot k data) (c.setThread k (.leaderSendSnapShot me server
        (some ((c.raft me).leaderSendSnapShot data, .calling))))
  | pushMsgToKvServer {k me msg} :
      c.threads[k]? = some (.pushMsgToKvServer me msg false) →
      Moves c (.pushMsgToKvServer k) ((c.setProc me { c.procs me with
        applyChan := (c.procs me).applyChan ++ [msg] }).setThread k
          (.pushMsgToKvServer me msg true))

theorem moves_of_deliver {c c' : Cluster n C D} {k : ℕ} (h : c.deliver k = some c') :
    Moves c (.deliver k) c' := by
  unfold deliver at h
  split at h
  · obtain ⟨⟨rf, r⟩, hr, rfl⟩ | ⟨f, rfl⟩ := exec_cases h
    · exact .requestVote ‹_› hr
    · exact .exit _ _
  · obtain ⟨⟨rf, r⟩, hr, rfl⟩ | ⟨f, rfl⟩ := exec_cases h
    · exact .appendEntries1 ‹_› hr
    · exact .exit _ _
  · obtain ⟨⟨rf, r, msg⟩, hr, rfl⟩ | ⟨f, rfl⟩ := exec_cases h
    · exact .installSnapshot ‹_› hr
    · exact .exit _ _
  · cases h

theorem moves_of_reply {c c' : Cluster n C D} {k : ℕ} (h : c.reply k = some c') :
    Moves c (.reply k) c' := by
  unfold reply at h
  split at h
  · obtain ⟨⟨rf, num, elected⟩, hr, rfl⟩ | ⟨f, rfl⟩ := exec_cases h
    · exact .sendRequestVote ‹_› hr
    · exact .exit _ _
  · obtain ⟨⟨rf, num⟩, hr, rfl⟩ | ⟨f, rfl⟩ := exec_cases h
    · exact .sendAppendEntries ‹_› hr
    · exact .exit _ _
  · obtain ⟨rf, hr, rfl⟩ | ⟨f, rfl⟩ := exec_cases h
    · cases hr
      exact .snapshotReply ‹_›
    · exact .exit _ _
  · cases h

theorem moves_of_lose {c c' : Cluster n C D} {k : ℕ} (h : c.lose k = some c') :
    Moves c (.lose k) c' := by
  unfold lose at h
  split at h
  · split_ifs at h with hw
    cases h
    exact .loseVote ‹_› hw
  · split_ifs at h with hw
    cases h
    exact .loseAppend ‹_› hw
  · split_ifs at h with hw
    cases h
    exact .loseSnapshot ‹_› hw
  · cases h

/-- **Every step is of one of the kinds of `Moves`.** -/
theorem moves_of_step {c c' : Cluster n C D} {a : Action n C D} (h : c.step a = some c') :
    Moves c a c' := by
  cases a with
  | doElection i =>
    simp only [step] at h
    obtain ⟨r, hr, hk⟩ | ⟨f, rfl⟩ := exec_cases h
    · cases hr
      cases he : (c.raft i).doElection with
      | none => rw [he] at hk; subst hk; exact .idle
      | some p => rw [he] at hk; subst hk; exact .doElection he
    · exact .exit _ _
  | doHeartBeat i =>
    obtain ⟨r, hr, hk⟩ | ⟨f, rfl⟩ := exec_cases h
    · cases r with
      | none => subst hk; exact .idle
      | some beats => subst hk; exact .doHeartBeat hr
    · exact .exit _ _
  | start i command =>
    simp only [step] at h
    obtain ⟨r, hr, rfl⟩ | ⟨f, rfl⟩ := exec_cases h
    · cases hr
      exact .start command
    · exact .exit _ _
  | getApplyLogs i =>
    simp only [step] at h
    split_ifs at h with hm
    obtain ⟨⟨rf, msgs⟩, hr, rfl⟩ | ⟨f, rfl⟩ := exec_cases h
    · exact .getApplyLogs hm hr
    · exact .exit _ _
  | pushApplyMsg i =>
    simp only [step] at h
    split at h
    · cases h
    · obtain ⟨r, hr, rfl⟩ | ⟨f, rfl⟩ := exec_cases h
      · exact .pushApplyMsg ‹_›
      · exact .exit _ _
  | consume i =>
    simp only [step] at h
    split at h
    · cases h
    · rename_i msg msgs hm
      cases msg with
      | command command index =>
        obtain ⟨r, hr, rfl⟩ | ⟨f, rfl⟩ := exec_cases h
        · cases hr
          exact .consumeCommand hm
        · exact .exit _ _
      | snapshot data term index =>
        obtain ⟨⟨rf, b⟩, hr, rfl⟩ | ⟨f, rfl⟩ := exec_cases h
        · exact .consumeSnapshot hm hr
        · exact .exit _ _
  | snapshot i data =>
    simp only [step] at h
    split at h
    · obtain ⟨rf, hr, rfl⟩ | ⟨f, rfl⟩ := exec_cases h
      · exact .snapshot ‹_› hr
      · exact .exit _ _
    · cases h
  | deliver k => exact moves_of_deliver h
  | reply k => exact moves_of_reply h
  | lose k => exact moves_of_lose h
  | leaderSendSnapShot k data =>
    simp only [step] at h
    split at h
    · obtain ⟨r, hr, rfl⟩ | ⟨f, rfl⟩ := exec_cases h
      · cases hr
        exact .leaderSendSnapShot data ‹_›
      · exact .exit _ _
    · cases h
  | pushMsgToKvServer k =>
    simp only [step] at h
    split at h
    · obtain ⟨r, hr, rfl⟩ | ⟨f, rfl⟩ := exec_cases h
      · exact .pushMsgToKvServer ‹_›
      · exact .exit _ _
    · cases h

end Cluster

end KvRaft
