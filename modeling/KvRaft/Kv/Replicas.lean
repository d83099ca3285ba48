import KvRaft.Kv.Once
import KvRaft.Raft.Stream

/-!
# Servers on a cluster

`Replicas n` is a cluster of `n` processes with all their parts: the Raft nodes with their threads
(`Cluster`), and on each of them a key/value server with its apply loop and handlers
(`KvProcess`).  The two meet in `applyChan`, in `Start` and `GetState`, in `CondInstallSnapshot`
and in `Raft::Snapshot`; all else goes on in one of the parts.

`Replicas.step` executes an action, and `Replicas.Moves` says which parts it moves
(`Replicas.moves_of_step`).
-/

namespace KvRaft

/-- Server processes on a cluster. -/
structure Replicas (n : ℕ) where
  cluster : Cluster n Op (Option Snapshot)
  kvs : Fin n → KvProcess

/-- The actions of server processes on a cluster. -/
inductive ReplicaAction (n : ℕ) where
  /-- A timer or a thread of Raft moves. -/
  | raft (a : Action n Op (Option Snapshot))
  /-- A snapshot thread reads its node and the snapshot its persister holds. -/
  | leaderSendSnapShot (k : ℕ)
  /-- The apply loop pops a message; if it is a snapshot, `CondInstallSnapshot` is asked. -/
  | receive (i : Fin n)
  /-- Handler `k` calls `Start`. -/
  | start (i : Fin n) (k : ℕ)
  /-- Handler `k` calls `GetState`. -/
  | getState (i : Fin n) (k : ℕ)
  /-- The apply loop hands a snapshot to Raft. -/
  | snapshot (i : Fin n)
  /-- The server goes on without Raft. -/
  | kv (i : Fin n) (a : KvAction)

/-- The actions of a cluster in which no server takes part. -/
def Action.ofRaft {n : ℕ} {C D : Type} : Action n C D → Bool
  | .doElection _ | .doHeartBeat _ | .getApplyLogs _ | .pushApplyMsg _ | .deliver _ | .reply _
  | .lose _ | .pushMsgToKvServer _ => true
  | .start _ _ | .consume _ | .snapshot _ _ | .leaderSendSnapShot _ _ => false

/-- The actions of a server in which Raft takes no part. -/
def KvProcess.ownAction (p : KvProcess) : KvAction → Bool
  | .receive _ _ => false
  | .apply => match p.loop with
    | .snapshot _ _ _ => false
    | _ => true
  | .skipSnapShot | .call _ | .handle _ .run | .handle _ .timeOut => true
  | .handle _ (.start _ _) | .handle _ (.getState _) => false

namespace Replicas

variable {n : ℕ}

def init : Replicas n where
  cluster := .init
  kvs _ := {}

def setKv (S : Replicas n) (i : Fin n) (p : KvProcess) : Replicas n :=
  { S with kvs := Function.update S.kvs i p }

/-- The answer of `CondInstallSnapshot` to a snapshot. -/
def installed (S : Replicas n) (i : Fin n) : ApplyMsg Op (Option Snapshot) → Bool
  | .command _ _ => false
  | .snapshot data term index =>
    match (S.cluster.raft i).condInstallSnapshot term index data with
    | .ok (_, b) => b
    | .error _ => false

/-- A step of the cluster. -/
def stepRaft (S : Replicas n) (a : Action n Op (Option Snapshot)) : Option (Replicas n) :=
  (S.cluster.step a).map fun c => { S with cluster := c }

/-- A step of server `i`. -/
def stepKv (S : Replicas n) (i : Fin n) (a : KvAction) : Option (Replicas n) :=
  if (S.cluster.procs i).exited = none then (S.kvs i).step a |>.map (S.setKv i) else none

/-- A step of server `i` and of the cluster below it. -/
def stepBoth (S : Replicas n) (i : Fin n) (a : Action n Op (Option Snapshot)) (b : KvAction) :
    Option (Replicas n) :=
  (S.stepKv i b).bind fun S => S.stepRaft a

def step (S : Replicas n) : ReplicaAction n → Option (Replicas n)
  | .raft a => if a.ofRaft then S.stepRaft a else none
  | .leaderSendSnapShot k =>
    match S.cluster.threads[k]? with
    | some (.leaderSendSnapShot me _ none) =>
      S.stepRaft (.leaderSendSnapShot k (S.cluster.raft me).persister.snapshot.join)
    | _ => none
  | .receive i =>
    match (S.cluster.procs i).applyChan with
    | [] => none
    | msg :: _ => S.stepBoth i (.consume i) (.receive msg (S.installed i msg))
  | .start i k =>
    match (S.kvs i).handlers[k]? with
    | none => none
    | some h =>
      let (_, newLogIndex, _, isLeader) := (S.cluster.raft i).start h.req.op
      S.stepBoth i (.start i h.req.op) (.handle k (.start newLogIndex isLeader))
  | .getState i k => S.stepKv i (.handle k (.getState ((S.cluster.raft i).status = .leader)))
  | .snapshot i =>
    match (S.kvs i).loop with
    | .snapshot _ _ data => S.stepBoth i (.snapshot i (some data)) .apply
    | _ => none
  | .kv i a => if (S.kvs i).ownAction a then S.stepKv i a else none

variable (n) in
/-- Servers on a cluster as a machine. -/
def machine : Machine (Replicas n) (ReplicaAction n) := ⟨step⟩

@[simp] theorem setKv_kvs (S : Replicas n) (i j : Fin n) (p : KvProcess) :
    (S.setKv i p).kvs j = if j = i then p else S.kvs j := by
  simp [setKv, Function.update_apply]

@[simp] theorem setKv_cluster (S : Replicas n) (i : Fin n) (p : KvProcess) :
    (S.setKv i p).cluster = S.cluster := rfl

/-! ### Conditions on steps -/

/-- The condition of `Cluster.InstallsApplied` on the steps of Raft. -/
def InstallsApplied (S : Replicas n) : ReplicaAction n → Prop
  | .raft a => S.cluster.InstallsApplied a
  | _ => True

/-- The condition of `KvProcess.NoRewind` on the steps of the servers. -/
def NoRewind (S : Replicas n) : ReplicaAction n → Prop
  | .kv i a => (S.kvs i).NoRewind a
  | _ => True

instance (S : Replicas n) (a : ReplicaAction n) : Decidable (S.InstallsApplied a) := by
  unfold InstallsApplied
  split <;> infer_instance

instance (S : Replicas n) (a : ReplicaAction n) : Decidable (S.NoRewind a) := by
  unfold NoRewind
  split <;> infer_instance

/-! ### Kinds of steps -/

/-- Which parts an action moves, with one constructor for each combination. -/
inductive Moves (S : Replicas n) : ReplicaAction n → Replicas n → Prop
  | raft {a} (x : Action n Op (Option Snapshot)) (c : Cluster n Op (Option Snapshot)) :
      (∀ i, x ≠ .consume i) → (S.InstallsApplied a → S.cluster.InstallsApplied x) →
      S.cluster.step x = some c → Moves S a { S with cluster := c }
  | receive (i : Fin n) (msg : ApplyMsg Op (Option Snapshot))
      (msgs : List (ApplyMsg Op (Option Snapshot))) (c : Cluster n Op (Option Snapshot))
      (p : KvProcess) : (S.cluster.procs i).applyChan = msg :: msgs →
      S.cluster.step (.consume i) = some c →
      (S.kvs i).step (.receive msg (S.installed i msg)) = some p →
      Moves S (.receive i) { S.setKv i p with cluster := c }
  | both {a} (i : Fin n) (x : Action n Op (Option Snapshot)) (b : KvAction)
      (c : Cluster n Op (Option Snapshot)) (p : KvProcess) : (∀ j, x ≠ .consume j) →
      S.cluster.InstallsApplied x → (∀ msg installed, b ≠ .receive msg installed) →
      (S.kvs i).NoRewind b → S.cluster.step x = some c → (S.kvs i).step b = some p →
      Moves S a { S.setKv i p with cluster := c }
  | kv {a} (i : Fin n) (b : KvAction) (p : KvProcess) :
      (∀ msg installed, b ≠ .receive msg installed) →
      (S.NoRewind a → (S.kvs i).NoRewind b) → (S.kvs i).step b = some p →
      Moves S a (S.setKv i p)

variable {S S' : Replicas n} {a : ReplicaAction n}

theorem stepKv_eq {i : Fin n} {b : KvAction} (h : S.stepKv i b = some S') :
    ∃ p, (S.kvs i).step b = some p ∧ S' = S.setKv i p := by
  unfold stepKv at h
  split_ifs at h
  obtain ⟨p, hp, rfl⟩ := Option.map_eq_some_iff.1 h
  exact ⟨p, hp, rfl⟩

theorem stepRaft_eq {x : Action n Op (Option Snapshot)} (h : S.stepRaft x = some S') :
    ∃ c, S.cluster.step x = some c ∧ S' = { S with cluster := c } := by
  obtain ⟨c, hc, rfl⟩ := Option.map_eq_some_iff.1 h
  exact ⟨c, hc, rfl⟩

theorem stepBoth_eq {i : Fin n} {x : Action n Op (Option Snapshot)} {b : KvAction}
    (h : S.stepBoth i x b = some S') : ∃ c p, S.cluster.step x = some c ∧
      (S.kvs i).step b = some p ∧ S' = { S.setKv i p with cluster := c } := by
  obtain ⟨S₁, h₁, h⟩ := Option.bind_eq_some_iff.1 h
  obtain ⟨p, hp, rfl⟩ := stepKv_eq h₁
  obtain ⟨c, hc, rfl⟩ := stepRaft_eq h
  exact ⟨c, p, hc, hp, rfl⟩

theorem moves_of_step (h : S.step a = some S') : S.Moves a S' := by
  cases a with
  | raft x =>
    simp only [step] at h
    split_ifs at h with hx
    obtain ⟨c, hc, rfl⟩ := stepRaft_eq h
    refine .raft x c (fun i hi => ?_) id hc
    rw [hi] at hx
    cases hx
  | leaderSendSnapShot k =>
    simp only [step] at h
    split at h
    · obtain ⟨c, hc, rfl⟩ := stepRaft_eq h
      refine .raft _ c (fun i hi => by cases hi) (fun _ => ?_) hc
      trivial
    · cases h
  | receive i =>
    simp only [step] at h
    split at h
    · cases h
    · obtain ⟨c, p, hc, hp, rfl⟩ := stepBoth_eq h
      exact .receive i _ _ c p ‹_› hc hp
  | start i k =>
    simp only [step] at h
    split at h
    · cases h
    · obtain ⟨c, p, hc, hp, rfl⟩ := stepBoth_eq h
      refine .both i _ _ c p (fun j hj => by cases hj) ?_ (fun _ _ hb => by cases hb) ?_ hc hp
      all_goals trivial
  | getState i k =>
    obtain ⟨p, hp, rfl⟩ := stepKv_eq h
    refine .kv i _ p (fun _ _ hb => by cases hb) (fun _ => ?_) hp
    trivial
  | snapshot i =>
    simp only [step] at h
    split at h
    · obtain ⟨c, p, hc, hp, rfl⟩ := stepBoth_eq h
      refine .both i _ _ c p (fun j hj => by cases hj) ?_ (fun _ _ hb => by cases hb) ?_ hc hp
      all_goals trivial
    · cases h
  | kv i b =>
    simp only [step] at h
    split_ifs at h with hb
    obtain ⟨p, hp, rfl⟩ := stepKv_eq h
    refine .kv i b p (fun msg installed heq => ?_) id hp
    rw [heq] at hb
    cases hb

end Replicas

end KvRaft
