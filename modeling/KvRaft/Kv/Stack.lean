import KvRaft.Kv.Compaction
import KvRaft.Kv.History
import KvRaft.Raft.Origin
import KvRaft.Raft.WholeStep

/-!
# Linearizability of the whole system

A `Stack` is the whole system: clerks, the key/value servers that they call, and the Raft nodes
below these.  Nothing is left open in it: what the apply loops are given is what the nodes hand out,
and the servers compact the logs of their nodes.

* `Replicas.Safe` : what holds as long as nothing stale is left and nodes install only what they
  have applied: the cluster is safe, and the servers follow the streams of their nodes.
* `Stack.Simulates` : the servers of a stack seen as a `Service`, whose committed log is the longest
  stream that an apply loop has consumed.
* `Stack.simulated` : every run of a stack is one of such a service, with the same calls.
* `Stack.calls_linearizable` : so the calls of all clerks are linearizable.
-/

namespace KvRaft

open Cluster

namespace Cluster

variable {n : ℕ} {C D : Type} {c c' : Cluster n C D} {a : Action n C D}

/-- Nothing that was handed out is taken back. -/
theorem ProcessMoves.emitted_subset {i : Fin n} {p : Process n C D} (h : c.ProcessMoves a i p) :
    ∀ msg ∈ (c.procs i).emitted, msg ∈ p.emitted := by
  intro msg hmsg
  cases h with
  | quiet _ _ _ hmsgs hchan hcons =>
    rwa [Process.emitted, hmsgs, hchan, hcons]
  | getApplyLogs rf msgs hnone =>
    rw [Process.emitted, hnone, List.append_nil] at hmsg
    exact List.mem_append_left _ hmsg
  | pushApplyMsg m msgs hm => simpa [Process.emitted, hm] using hmsg
  | consume m msgs _ hm => simpa [Process.emitted, hm] using hmsg
  | installSnapshot => exact hmsg
  | pushMsgToKvServer k data term index =>
    simp only [Process.emitted, List.mem_append] at hmsg ⊢
    tauto

end Cluster

namespace Replicas

variable {n : ℕ} {S S' : Replicas n} {a : ReplicaAction n}

/-- The condition of `Cluster.LeavesNoStale` on the steps of Raft. -/
def LeavesNoStale (S : Replicas n) : ReplicaAction n → Prop
  | .raft a => S.cluster.LeavesNoStale a
  | .leaderSendSnapShot k => S.cluster.LeavesNoStale (.leaderSendSnapShot k none)
  | _ => True

instance (S : Replicas n) (a : ReplicaAction n) : Decidable (S.LeavesNoStale a) := by
  induction a using ReplicaAction.casesOn <;> dsimp only [LeavesNoStale] <;> infer_instance

/-- A step moves the cluster by a step that meets the condition, or not at all. -/
theorem cluster_cases (hg : S.LeavesNoStale a) (hst : S.step a = some S') :
    S'.cluster = S.cluster ∨
      ∃ x, S.cluster.LeavesNoStale x ∧ S.cluster.step x = some S'.cluster := by
  cases a with
  | raft x =>
    simp only [step] at hst
    split_ifs at hst with hx
    obtain ⟨c, hc, rfl⟩ := stepRaft_eq hst
    exact Or.inr ⟨x, hg, hc⟩
  | leaderSendSnapShot k =>
    simp only [step] at hst
    split at hst
    · rename_i me server hk
      obtain ⟨c, hc, rfl⟩ := stepRaft_eq hst
      exact Or.inr ⟨.leaderSendSnapShot k (S.cluster.raft me).persister.snapshot.join, hg, hc⟩
    · cases hst
  | receive i =>
    simp only [step] at hst
    split at hst
    · cases hst
    · obtain ⟨c, p, hc, -, rfl⟩ := stepBoth_eq hst
      exact Or.inr ⟨.consume i, ⟨trivial, trivial, trivial⟩, hc⟩
  | start i k =>
    simp only [step] at hst
    split at hst
    · cases hst
    · obtain ⟨c, p, hc, -, rfl⟩ := stepBoth_eq hst
      exact Or.inr ⟨.start _ _, ⟨trivial, trivial, trivial⟩, hc⟩
  | getState i k =>
    obtain ⟨p, -, rfl⟩ := stepKv_eq hst
    exact Or.inl rfl
  | snapshot i =>
    simp only [step] at hst
    split at hst
    · obtain ⟨c, p, hc, -, rfl⟩ := stepBoth_eq hst
      exact Or.inr ⟨.snapshot _ _, ⟨trivial, trivial, trivial⟩, hc⟩
    · cases hst
  | kv i b =>
    simp only [step] at hst
    split_ifs at hst
    obtain ⟨p, -, rfl⟩ := stepKv_eq hst
    exact Or.inl rfl

/-- **What holds as long as nothing stale is left and nodes install what they have applied.** -/
structure Safe (S : Replicas n) : Prop where
  reaches : (Cluster.machine n Op (Option Snapshot)).Reaches Cluster.LeavesNoStale .init S.cluster
  linked : S.Linked

theorem safe_init : Safe (init : Replicas n) := ⟨.refl, linked_init⟩

theorem Safe.step (h : S.Safe) (hg : S.LeavesNoStale a) (hi : S.InstallsApplied a)
    (hr : S.NoRewind a) (hst : S.step a = some S') : S'.Safe := by
  refine ⟨?_, h.linked.step hi hr hst⟩
  obtain heq | ⟨x, hx, hc⟩ := cluster_cases hg hst
  · rw [heq]
    exact h.reaches
  · exact h.reaches.tail hx hc

/-- A request arrives at a server. -/
theorem Safe.call (h : S.Safe) (i : Fin n) (req : Request) : (S.setKv i
    { S.kvs i with handlers := (S.kvs i).handlers ++ [{ req := req }] }).Safe := by
  refine ⟨h.reaches, h.linked.indexed, h.linked.streams, fun j => ?_⟩
  rw [setKv_kvs]
  split_ifs with hj
  · subst hj
    have hr : (S.kvs j).NoRewind (.call req) := trivial
    exact (h.linked.follows j).step (a := .call req) (by simp) hr rfl
  · exact h.linked.follows j

/-- Commands that are handed out under one index are the same. -/
theorem Safe.agree (h : S.Safe) {i j : Fin n} {op op' : Op} {index : ℤ}
    (hm : .command op index ∈ (S.cluster.procs i).emitted)
    (hm' : .command op' index ∈ (S.cluster.procs j).emitted) : op = op' := by
  obtain ⟨A, ⟨_, _, _, _, -, -, -, hr⟩, -⟩ := remembers_init.reaches h.reaches
  exact (hr.emitted i _ hm (Option.some_ne_none _)).agree hr.refines.inv
    (hr.emitted j _ hm' (Option.some_ne_none _))

end Replicas

/-! ### The whole system -/

/-- `m` clerks and `s + 1` server processes, with the calls of the clerks. -/
structure Stack (m s : ℕ) extends CallLog m where
  clerks : Fin m → Clerk s
  replicas : Replicas (s + 1)

inductive StackAction (m s : ℕ) where
  /-- A clerk begins a call and sends its first RPC. -/
  | call (i : Fin m) (call : ClerkCall)
  /-- A clerk sends the RPC of its call again. -/
  | retry (i : Fin m)
  /-- The RPC of a clerk fails. -/
  | fail (i : Fin m)
  /-- The reply to the RPC of a clerk arrives. -/
  | reply (i : Fin m)
  /-- The server processes make a step. -/
  | replica (a : ReplicaAction (s + 1))

/-- Handlers are started by the RPCs of clerks only. -/
def ReplicaAction.fromClerk {n : ℕ} : ReplicaAction n → Bool
  | .kv _ (.call _) => true
  | _ => false

namespace Stack

variable {m s : ℕ}

def init (ids : Fin m → String) : Stack m s where
  clerks i := Clerk.init (ids i)
  replicas := .init

def setClerk (T : Stack m s) (i : Fin m) (c : Clerk s) : Stack m s :=
  { T with clerks := Function.update T.clerks i c }

/-- Clerk `i` sends an RPC for its call, which starts a handler. -/
def send (T : Stack m s) (i : Fin m) (call : Call s) : Stack m s :=
  let p := T.replicas.kvs call.server
  { T.setClerk i { T.clerks i with call := some { call with rpc := some p.handlers.length } } with
    replicas := T.replicas.setKv call.server
      { p with handlers := p.handlers ++ [{ req := call.req }] } }

def step (T : Stack m s) : StackAction m s → Option (Stack m s)
  | .call i call =>
    match (T.clerks i).call with
    | none =>
      let (clerk, call) := (T.clerks i).begin call
      some { (T.setClerk i clerk).send i call with toCallLog := T.invoke i call.req }
    | some _ => none
  | .retry i =>
    match (T.clerks i).call with
    | some ⟨req, server, none⟩ => some (T.send i ⟨req, server, none⟩)
    | _ => none
  | .fail i =>
    match (T.clerks i).call with
    | some ⟨req, server, some rpc⟩ =>
      some (T.setClerk i ((T.clerks i).tryNext ⟨req, server, some rpc⟩))
    | _ => none
  | .reply i =>
    match (T.clerks i).call with
    | some ⟨req, server, some rpc⟩ =>
      match (T.replicas.kvs server).handlers[rpc]? with
      | some ⟨_, .returned reply⟩ =>
        let clerk := (T.clerks i).onReply ⟨req, server, some rpc⟩ reply
        some { T.setClerk i clerk with
          toCallLog := if clerk.call.isNone then T.answer i (req.result reply)
            else T.toCallLog }
      | _ => none
    | _ => none
  | .replica a =>
    if a.fromClerk then none
    else (T.replicas.step a).map fun R => { T with replicas := R }

variable (m s) in
/-- The whole system as a machine. -/
def machine : Machine (Stack m s) (StackAction m s) := ⟨step⟩

/-- The condition on a step of the system: nothing stale is left, nodes install only snapshots of
what they have applied, and no Get lowers an entry of a request table. -/
def Careful (T : Stack m s) : StackAction m s → Prop
  | .replica a => T.replicas.LeavesNoStale a ∧ T.replicas.InstallsApplied a ∧ T.replicas.NoRewind a
  | _ => True

instance (T : Stack m s) (a : StackAction m s) : Decidable (T.Careful a) := by
  induction a using StackAction.casesOn <;> dsimp only [Careful] <;> infer_instance

/-! ### The servers as a service -/

variable {T T' : Stack m s} {H H' : History m s}

/-- **A stack seen as a service with open consensus.**  The committed log of the service is the
longest stream that an apply loop has consumed. -/
structure Simulates (T : Stack m s) (H : History m s) : Prop where
  log : H.toCallLog = T.toCallLog
  clerks : H.service.clerks = T.clerks
  servers : H.service.servers = T.replicas.kvs
  consumed : ∀ i, commands (T.replicas.cluster.procs i).consumed <+: H.service.committed
  emitted : ∀ (k : ℕ) (op : Op), H.service.committed[k]? = some op →
    ∃ i, .command op (k + 1) ∈ (T.replicas.cluster.procs i).emitted
  origin : T.replicas.cluster.Origin fun index op => (index, op) ∈ H.service.started

theorem simulates_init (ids : Fin m → String) :
    Simulates (init ids : Stack m s) (.init ids) where
  log := rfl
  clerks := rfl
  servers := rfl
  consumed i := List.prefix_refl _
  emitted k op h := by cases h
  origin := origin_init _

/-- Only the clerks and their RPCs move. -/
theorem Simulates.frame (h : T.Simulates H) (hlog : H'.toCallLog = T'.toCallLog)
    (hclerks : H'.service.clerks = T'.clerks) (hservers : H'.service.servers = T'.replicas.kvs)
    (hcommitted : H'.service.committed = H.service.committed)
    (hstarted : ∀ x ∈ H.service.started, x ∈ H'.service.started)
    (hcluster : T'.replicas.cluster = T.replicas.cluster) : T'.Simulates H' where
  log := hlog
  clerks := hclerks
  servers := hservers
  consumed := by
    rw [hcommitted, hcluster]
    exact h.consumed
  emitted := by
    rw [hcommitted, hcluster]
    exact h.emitted
  origin := by
    rw [hcluster]
    exact h.origin.mono fun index op hmem => hstarted _ hmem

/-- A clerk sends an RPC. -/
theorem send_eq {S : Service m s} (hclerks : S.clerks = T.clerks)
    (hservers : S.servers = T.replicas.kvs) (i : Fin m) (call : Call s) :
    (S.send i call).clerks = (T.send i call).clerks ∧
      (S.send i call).servers = (T.send i call).replicas.kvs := by
  unfold Service.send send
  rw [hservers]
  refine ⟨?_, ?_⟩
  · change Function.update S.clerks i _ = Function.update T.clerks i _
    rw [hclerks]
  · change Function.update S.servers call.server _ = Function.update T.replicas.kvs call.server _
    rw [hservers]

/-- The service can go on to a state that the stack is seen as. -/
def FollowedBy (T : Stack m s) (H : History m s) : Prop :=
  ∃ H', (History.machine m s).Reaches
    (fun H a => H.service.Consensus a ∧ H.service.NoRewind a) H H' ∧ T.Simulates H'

theorem Simulates.followedBy (h : T.Simulates H) : T.FollowedBy H := ⟨H, .refl, h⟩

theorem FollowedBy.of_step {b : ServiceAction m s} {S : Service m s}
    (hst : H.service.step b = some S) (hc : H.service.Consensus b) (hr : H.service.NoRewind b)
    (h : T.FollowedBy { H.record S b with service := S }) : T.FollowedBy H := by
  obtain ⟨H', hreach, hsim⟩ := h
  have hstep : H.step b = some { H.record S b with service := S } := by
    rw [History.step, hst, Option.map_some]
  exact ⟨H', (Machine.Reaches.refl.tail ⟨hc, hr⟩ hstep).trans hreach, hsim⟩

/-- **The steps of the clerks are the same.** -/
theorem Simulates.clerk (h : T.Simulates H) {a : StackAction m s}
    (ha : ∀ x, a ≠ .replica x) (hst : T.step a = some T') : T'.FollowedBy H := by
  cases a with
  | call i call =>
    simp only [step] at hst
    split at hst
    · rename_i hnone
      obtain rfl := Option.some.inj hst
      rw [← h.clerks] at hnone
      have hbegin : (H.service.begin i call).clerks =
          (T.setClerk i ((T.clerks i).begin call).1).clerks := by
        change Function.update H.service.clerks i ((H.service.clerks i).begin call).1 =
          Function.update T.clerks i ((T.clerks i).begin call).1
        rw [h.clerks]
      obtain ⟨hclerks, hservers⟩ := send_eq hbegin h.servers i ((T.clerks i).begin call).2
      have hS : H.service.step (.call i call) =
          some ((H.service.begin i call).send i ((T.clerks i).begin call).2) := by
        rw [← h.clerks]
        simp only [Service.step, hnone]
      refine .of_step hS trivial trivial (Simulates.followedBy ?_)
      refine h.frame ?_ hclerks hservers rfl (fun x hx => hx) rfl
      rw [History.record, h.log, h.clerks]
    · cases hst
  | retry i =>
    simp only [step] at hst
    split at hst
    · rename_i req server hcall
      obtain rfl := Option.some.inj hst
      rw [← h.clerks] at hcall
      have hS : H.service.step (.retry i) = some (H.service.send i ⟨req, server, none⟩) := by
        simp only [Service.step, hcall]
      obtain ⟨hclerks, hservers⟩ := send_eq h.clerks h.servers i ⟨req, server, none⟩
      refine .of_step hS trivial trivial (Simulates.followedBy ?_)
      exact h.frame h.log hclerks hservers rfl (fun x hx => hx) rfl
    · cases hst
  | fail i =>
    simp only [step] at hst
    split at hst
    · rename_i req server rpc hcall
      obtain rfl := Option.some.inj hst
      rw [← h.clerks] at hcall
      have hS : H.service.step (.fail i) = some (H.service.setClerk i
          ((T.clerks i).tryNext ⟨req, server, some rpc⟩)) := by
        rw [← h.clerks]
        simp only [Service.step, hcall]
      refine .of_step hS trivial trivial (Simulates.followedBy ?_)
      refine h.frame h.log ?_ h.servers rfl (fun x hx => hx) rfl
      exact congrArg (Function.update · i _) h.clerks
    · cases hst
  | reply i =>
    simp only [step] at hst
    split at hst
    · rename_i req server rpc hcall
      split at hst
      · rename_i req' reply hget
        obtain rfl := Option.some.inj hst
        rw [← h.clerks] at hcall
        rw [← h.servers] at hget
        obtain ⟨clerk, hclerk⟩ : ∃ clerk,
          (T.clerks i).onReply ⟨req, server, some rpc⟩ reply = clerk := ⟨_, rfl⟩
        have hS : H.service.step (.reply i) = some { H.service.setClerk i clerk with
            answers := if clerk.call.isNone then H.service.answers ++ [⟨req, server, reply⟩]
              else H.service.answers } := by
          rw [← hclerk, ← h.clerks]
          simp only [Service.step, hcall, hget]
          rfl
        rw [hclerk]
        refine .of_step hS trivial trivial (Simulates.followedBy ?_)
        refine h.frame ?_ ?_ h.servers rfl (fun x hx => hx) rfl
        · -- a call returns exactly if there is a new answer
          simp only [History.record]
          split_ifs with hnone
          · simp [h.log]
          · simp [h.log]
        · exact congrArg (Function.update · i clerk) h.clerks
      · cases hst
    · cases hst
  | replica x => exact absurd rfl (ha x)

/-! ### The steps of the processes -/

/-- The stack after a step of its processes. -/
def withReplicas (T : Stack m s) (R : Replicas (s + 1)) : Stack m s := { T with replicas := R }

/-- A server makes a step in which it consumes nothing. -/
theorem Simulates.server (h : T.Simulates H) {i : Fin (s + 1)} {b : KvAction} {p : KvProcess}
    (hb : ∀ msg installed, b ≠ .receive msg installed) (hcall : ∀ req, b ≠ .call req)
    (hr : (T.replicas.kvs i).NoRewind b) (hp : (T.replicas.kvs i).step b = some p) {T' : Stack m s}
    (hT : ∀ H', (T.withReplicas (T.replicas.setKv i p)).Simulates H' →
      (∀ x ∈ (T.replicas.kvs i).starts b, x ∈ H'.service.started) → T'.FollowedBy H') :
    T'.FollowedBy H := by
  rw [← h.servers] at hr hp
  have hall : H.service.allowed b = true := by
    cases b with
    | receive msg installed => exact absurd rfl (hb msg installed)
    | call req => exact absurd rfl (hcall req)
    | apply | skipSnapShot | handle => rfl
  have hS : H.service.step (.server i b) = some { H.service.setServer i p with
      started := H.service.started ++ (H.service.servers i).starts b
      acked := H.service.acked ++ (H.service.servers i).acks b } := by
    rw [Service.step, if_pos hall, hp]
    rfl
  have hc : H.service.Consensus (.server i b) := by
    cases b with
    | receive msg installed => exact absurd rfl (hb msg installed)
    | call | apply | skipSnapShot | handle => trivial
  refine .of_step hS hc hr (hT _ ?_ ?_)
  · refine h.frame h.log h.clerks ?_ rfl (fun x hx => List.mem_append_left _ hx) rfl
    exact congrArg (Function.update · i p) h.servers
  · rw [← h.servers]
    exact fun x hx => List.mem_append_right _ hx

/-- The cluster makes a step in which nothing is consumed. -/
theorem Simulates.cluster (h : T.Simulates H) (hi : T.replicas.cluster.Indexed)
    {x : Action (s + 1) Op (Option Snapshot)} {c : Cluster (s + 1) Op (Option Snapshot)}
    (hx : ∀ i, x ≠ .consume i) (hst : T.replicas.cluster.step x = some c)
    (hstarts : ∀ y ∈ T.replicas.cluster.starts x, y ∈ H.service.started) :
    (T.withReplicas { T.replicas with cluster := c }).Simulates H where
  log := h.log
  clerks := h.clerks
  servers := h.servers
  consumed i := by
    have hm := hi.processMoves (Cluster.moves_of_step hst) i
    change commands (c.procs i).consumed <+: _
    rw [hm.consumed_eq (hx i)]
    exact h.consumed i
  emitted k op hk := by
    obtain ⟨i, hmem⟩ := h.emitted k op hk
    exact ⟨i, (hi.processMoves (Cluster.moves_of_step hst) i).emitted_subset _ hmem⟩
  origin := h.origin.step hi hstarts (Cluster.moves_of_step hst)

/-- **A command that is handed out is committed**, at the latest now. -/
theorem Simulates.commit (h : T.Simulates H) (hs : T.replicas.Safe) {i : Fin (s + 1)} {n : ℕ}
    {op : Op} (hmem : .command op (n + 1) ∈ (T.replicas.cluster.procs i).emitted)
    (hn : n ≤ H.service.committed.length)
    (hT : ∀ H', T.Simulates H' → H'.service.committed[n]? = some op → T'.FollowedBy H') :
    T'.FollowedBy H := by
  rcases Nat.lt_or_eq_of_le hn with hlt | rfl
  · have hget := List.getElem?_eq_getElem hlt
    obtain ⟨j, hj⟩ := h.emitted n _ hget
    rw [hs.agree hj hmem] at hget
    exact hT H h hget
  · -- it was taken under this index
    obtain ⟨k, hk⟩ := List.mem_iff_getElem?.1 (h.origin.emitted i op _ hmem)
    have hS : H.service.step (.commit k) =
        some { H.service with committed := H.service.committed ++ [op] } := by
      simp only [Service.step, hk, if_true]
    refine .of_step hS trivial trivial (hT _ ⟨h.log, h.clerks, h.servers, fun j => ?_,
      fun k op' hk' => ?_, h.origin⟩ ?_)
    · exact (h.consumed j).trans (List.prefix_append _ _)
    · rcases getElem?_snoc hk' with hk' | ⟨rfl, rfl⟩
      · exact h.emitted k op' hk'
      · exact ⟨i, hmem⟩
    · exact List.getElem?_concat_length

/-- A server consumes a snapshot, which it declines. -/
theorem Simulates.receiveSnapshot (h : T.Simulates H) (hi : T.replicas.cluster.Indexed)
    {i : Fin (s + 1)} {data : Option Snapshot} {term index : ℤ}
    {msgs : List (ApplyMsg Op (Option Snapshot))} {c : Cluster (s + 1) Op (Option Snapshot)}
    {p : KvProcess}
    (hm : (T.replicas.cluster.procs i).applyChan = .snapshot data term index :: msgs)
    (hc : T.replicas.cluster.step (.consume i) = some c)
    (hp : (T.replicas.kvs i).step (.receive (.snapshot data term index) false) = some p) :
    (T.withReplicas { T.replicas.setKv i p with cluster := c }).Simulates H := by
  have hmoves := Cluster.moves_of_step hc
  obtain rfl := hi.consume_eq hm hc
  obtain rfl : T.replicas.kvs i = p := by
    simp only [KvProcess.step] at hp
    split at hp
    · cases ‹ApplyMsg.snapshot data term index = _›
    · exact Option.some.inj hp
    · cases hp
  refine ⟨h.log, h.clerks, ?_, fun j => ?_, fun k op hk => ?_, ?_⟩
  · rw [h.servers]
    exact (Function.update_eq_self i _).symm
  · change commands (((T.replicas.cluster.setProc i _).procs j).consumed) <+: H.service.committed
    rw [setProc_procs]
    split_ifs with hj
    · rw [commands_append, commands_cons_snapshot, commands_nil, List.append_nil]
      exact h.consumed i
    · exact h.consumed j
  · obtain ⟨j, hj⟩ := h.emitted k op hk
    exact ⟨j, (hi.processMoves hmoves j).emitted_subset _ hj⟩
  · exact h.origin.step hi (by simp [starts]) hmoves

/-- A server consumes a command. -/
theorem Simulates.receive (h : T.Simulates H) (hs : T.replicas.Safe) {i : Fin (s + 1)}
    {op : Op} {index : ℤ} {msgs : List (ApplyMsg Op (Option Snapshot))}
    {c : Cluster (s + 1) Op (Option Snapshot)} {p : KvProcess}
    (hm : (T.replicas.cluster.procs i).applyChan = .command op index :: msgs)
    (hc : T.replicas.cluster.step (.consume i) = some c)
    (hp : (T.replicas.kvs i).step (.receive (.command op index) false) = some p) :
    (T.withReplicas { T.replicas.setKv i p with cluster := c }).FollowedBy H := by
  have hmsg : .command op index ∈ (T.replicas.cluster.procs i).emitted := by
    simp [Process.emitted, hm]
  have hl := hs.linked
  have hmoves := Cluster.moves_of_step hc
  obtain rfl := hl.indexed.consume_eq hm hc
  have hcons : Consecutive 0 ((T.replicas.cluster.procs i).consumed ++ [.command op index]) := by
    have hs' := (hl.streams i).step (a := .consume i) trivial (hl.indexed.processMoves hmoves i)
    simpa [setProc_procs] using hs'.consumed
  obtain ⟨hpop, -, -⟩ := (hl.follows i).receive_eq hcons hp
  -- the server has applied all that it has consumed
  obtain ⟨n, hn⟩ : ∃ n, (T.replicas.kvs i).applied.length = n := ⟨_, rfl⟩
  have hops : (T.replicas.kvs i).ops = commands (T.replicas.cluster.procs i).consumed := by
    have := (hl.follows i).ops
    rwa [hpop, ApplyLoop.pending, Option.toList_none, List.append_nil] at this
  have hlen : (commands (T.replicas.cluster.procs i).consumed).length = n := by
    rw [← hops, KvProcess.length_ops, hn]
  obtain rfl : index = n + 1 := by
    have := (consecutive_append.1 hcons).2.1
    rwa [Nat.zero_add, hlen] at this
  refine h.commit hs hmsg (hlen ▸ (h.consumed i).length_le) fun H' h' hget => ?_
  rw [← h'.servers] at hp hn
  have hall : H'.service.allowed (.receive (.command op (n + 1)) false) = true :=
    decide_eq_true (List.mem_map_of_mem (h'.origin.emitted i op _ hmsg))
  have hS : H'.service.step (.server i (.receive (.command op (n + 1)) false)) =
      some { H'.service.setServer i p with
        started := H'.service.started ++ []
        acked := H'.service.acked ++ [] } := by
    rw [Service.step, if_pos hall, hp]
    rfl
  refine .of_step hS ⟨hn.symm ▸ hget, by rw [hn]⟩ trivial (Simulates.followedBy ?_)
  refine ⟨h'.log, h'.clerks, ?_, fun j => ?_, fun k op' hk => ?_, ?_⟩
  · change Function.update H'.service.servers i p = Function.update T.replicas.kvs i p
    rw [h'.servers]
  · change commands (((T.replicas.cluster.setProc i _).procs j).consumed) <+: H'.service.committed
    rw [setProc_procs]
    split_ifs with hj
    · rw [commands_append]
      exact isPrefix_snoc (h'.consumed i) (hlen.symm ▸ hget)
    · exact h'.consumed j
  · obtain ⟨j, hj⟩ := h'.emitted k op' hk
    exact ⟨j, (hl.indexed.processMoves hmoves j).emitted_subset _ hj⟩
  · refine Origin.step (c := T.replicas.cluster) (a := .consume i) ?_ hl.indexed (by simp [starts])
      hmoves
    exact h'.origin.mono fun index op hmem => List.mem_append_left _ hmem

theorem Simulates.replica (h : T.Simulates H) (hs : T.replicas.Safe) {a : ReplicaAction (s + 1)}
    (hr : T.replicas.NoRewind a) (hclerk : a.fromClerk = false)
    {R : Replicas (s + 1)} (hst : T.replicas.step a = some R) :
    (T.withReplicas R).FollowedBy H := by
  have hi := hs.linked.indexed
  cases a with
  | raft x =>
    simp only [Replicas.step] at hst
    split_ifs at hst with hx
    obtain ⟨c, hc, rfl⟩ := Replicas.stepRaft_eq hst
    refine (h.cluster hi (fun i hxi => ?_) hc fun y hy => ?_).followedBy
    · rw [hxi] at hx
      cases hx
    · cases x <;> first | cases hy | cases hx
  | leaderSendSnapShot k =>
    simp only [Replicas.step] at hst
    split at hst
    · obtain ⟨c, hc, rfl⟩ := Replicas.stepRaft_eq hst
      exact (h.cluster hi (by simp) hc (by simp [starts])).followedBy
    · cases hst
  | receive i =>
    simp only [Replicas.step] at hst
    split at hst
    · cases hst
    · rename_i msg msgs hm
      obtain ⟨c, p, hc, hp, rfl⟩ := Replicas.stepBoth_eq hst
      rw [Replicas.installed_eq hi hm] at hp
      cases msg with
      | command op index => exact h.receive hs hm hc hp
      | snapshot data term index => exact (h.receiveSnapshot hi hm hc hp).followedBy
  | start i k =>
    simp only [Replicas.step] at hst
    split at hst
    · cases hst
    · rename_i handler hk
      obtain ⟨c, p, hc, hp, rfl⟩ := Replicas.stepBoth_eq hst
      have hrew : ∀ index b, (T.replicas.kvs i).NoRewind (.handle k (.start index b)) :=
        fun _ _ => trivial
      refine h.server (by simp) (by simp) (hrew _ _) hp fun H' h' hstarted => ?_
      refine (h'.cluster hi (by simp) hc fun y hy => hstarted y ?_).followedBy
      -- the command is taken exactly if the node is leader
      have hy : y ∈ T.replicas.cluster.starts (.start i handler.req.op) := hy
      cases hl : ((T.replicas.cluster.raft i).start handler.req.op).2.2.2 with
      | true =>
        simp only [starts, hl, if_true] at hy
        simpa [KvProcess.starts, hk] using hy
      | false =>
        simp only [starts, hl] at hy
        cases hy
  | getState i k =>
    obtain ⟨p, hp, rfl⟩ := Replicas.stepKv_eq hst
    have hrew : ∀ b, (T.replicas.kvs i).NoRewind (.handle k (.getState b)) := fun _ => trivial
    exact h.server (by simp) (by simp) (hrew _) hp fun H' h' _ => h'.followedBy
  | snapshot i =>
    simp only [Replicas.step] at hst
    split at hst
    · obtain ⟨c, p, hc, hp, rfl⟩ := Replicas.stepBoth_eq hst
      have hrew : (T.replicas.kvs i).NoRewind .apply := trivial
      exact h.server (by simp) (by simp) hrew hp fun H' h' _ =>
        (h'.cluster hi (by simp) hc (by simp [starts])).followedBy
    · cases hst
  | kv i b =>
    simp only [Replicas.step] at hst
    split_ifs at hst with hb
    obtain ⟨p, hp, rfl⟩ := Replicas.stepKv_eq hst
    refine h.server (fun msg installed heq => ?_) (fun req heq => ?_) hr hp
      fun H' h' _ => h'.followedBy
    · rw [heq] at hb
      cases hb
    · rw [heq] at hclerk
      cases hclerk

/-! ### Runs -/

/-- Clerks only start handlers. -/
theorem safe_of_clerk (hs : T.replicas.Safe) {a : StackAction m s} (ha : ∀ x, a ≠ .replica x)
    (hst : T.step a = some T') : T'.replicas.Safe := by
  cases a with
  | call i call =>
    simp only [step] at hst
    split at hst
    · obtain rfl := Option.some.inj hst
      exact hs.call _ _
    · cases hst
  | retry i =>
    simp only [step] at hst
    split at hst
    · obtain rfl := Option.some.inj hst
      exact hs.call _ _
    · cases hst
  | fail i =>
    simp only [step] at hst
    split at hst
    · obtain rfl := Option.some.inj hst
      exact hs
    · cases hst
  | reply i =>
    simp only [step] at hst
    split at hst
    · split at hst
      · obtain rfl := Option.some.inj hst
        exact hs
      · cases hst
    · cases hst
  | replica x => exact absurd rfl (ha x)

/-- **Every run of a stack is one of its service**, with the same calls. -/
theorem simulated {ids : Fin m → String} (h : (machine m s).Reaches Careful (init ids) T) :
    T.replicas.Safe ∧ T.FollowedBy (.init ids) := by
  refine h.invariant (I := fun T => T.replicas.Safe ∧ T.FollowedBy (.init ids))
    ⟨Replicas.safe_init, (simulates_init ids).followedBy⟩
    fun T a T' ⟨hs, hfollow⟩ hcare hst => ?_
  obtain ⟨H, hreach, hsim⟩ := hfollow
  have hgo : T'.FollowedBy H → T'.FollowedBy (.init ids) := fun ⟨H', hreach', hsim'⟩ =>
    ⟨H', hreach.trans hreach', hsim'⟩
  by_cases ha : ∃ x, a = .replica x
  · obtain ⟨x, rfl⟩ := ha
    obtain ⟨hg, hi, hr⟩ := hcare
    simp only [machine, step] at hst
    split_ifs at hst with hclerk
    obtain ⟨R, hR, rfl⟩ := Option.map_eq_some_iff.1 hst
    exact ⟨hs.step hg hi hr hR, hgo (hsim.replica hs hr (Bool.eq_false_of_not_eq_true hclerk) hR)⟩
  · have hclerk : ∀ x, a ≠ .replica x := fun x hx => ha ⟨x, hx⟩
    exact ⟨safe_of_clerk hs hclerk hst, hgo (hsim.clerk hclerk hst)⟩

/-- **The whole system is linearizable**, with log compaction, as long as nothing stale is left,
nodes install only snapshots of what they have applied, and no Get lowers an entry of a request
table. -/
theorem calls_linearizable {ids : Fin m → String} (hids : Function.Injective ids)
    (h : (machine m s).Reaches Careful (init ids) T) :
    Linearizable Request.run T.calls fun _ => none := by
  obtain ⟨-, H, hreach, hsim⟩ := simulated h
  obtain ⟨hn, hr, ht, base, pos, hp⟩ := History.placed_of_reaches hids hreach
  have hcalls : H.calls = T.calls := congrArg CallLog.calls hsim.log
  rw [← hcalls]
  exact ⟨_, _, (History.logPlaces hids hn ht hr hp).isSequentialOrder⟩

/-- A Put and a Get overlap; the first node leads and commits both with the second, its log is
compacted, and the Get is answered first. -/
def overlappingCalls : List (StackAction 2 2) :=
  [raft (.doElection Service.first), raft (.deliver 0), raft (.reply 0), .call 0 (.put "k" "a"),
    .call 1 (.get "k"), .replica (.start Service.first 0), .replica (.start Service.first 1),
    runs 0, runs 1, raft (.doHeartBeat Service.first), raft (.deliver 2), raft (.reply 2),
    raft (.getApplyLogs Service.first), raft (.pushApplyMsg Service.first),
    raft (.pushApplyMsg Service.first)] ++
  executes ++ executes ++ [runs 1, runs 1, runs 1, .reply 1, runs 0, runs 0, .reply 0]
where
  raft (a : Action (2 + 1) Op (Option Snapshot)) : StackAction 2 2 := .replica (.raft a)
  /-- Handler `k` of the first server runs its next section. -/
  runs (k : ℕ) : StackAction 2 2 := .replica (.kv Service.first (.handle k .run))
  /-- The first server consumes a command, executes it, compacts the log and announces it. -/
  executes : List (StackAction 2 2) :=
    [.replica (.receive Service.first), .replica (.kv Service.first .apply),
      .replica (.kv Service.first .apply), .replica (.kv Service.first .apply),
      .replica (.snapshot Service.first), .replica (.kv Service.first .apply)]

set_option synthInstance.maxSize 256 in
theorem overlappingCalls_eq : ((machine 2 2).runWhere Careful (init Service.twoIds)
    overlappingCalls).map (fun T =>
      ((T.replicas.cluster.raft Service.first).lastSnapshotIncludeIndex,
        T.calls.map fun c => (c.invoked, c.returned))) =
      some (2, [(0, some (none, 3)), (1, some (some "a", 2))]) := by
  decide +kernel

theorem calls_linearizable_overlappingCalls : ∃ T, (machine 2 2).runWhere Careful
    (init Service.twoIds) overlappingCalls = some T ∧
      (T.replicas.cluster.raft Service.first).lastSnapshotIncludeIndex = 2 ∧
      T.calls.map (fun c => (c.invoked, c.returned)) =
        [(0, some (none, 3)), (1, some (some "a", 2))] ∧
      Linearizable Request.run T.calls fun _ => none := by
  obtain ⟨T, hT, h⟩ := Option.map_eq_some_iff.1 overlappingCalls_eq
  obtain ⟨hsnap, hcalls⟩ := Prod.mk.inj h
  exact ⟨T, hT, hsnap, hcalls,
    calls_linearizable Service.twoIds_injective (Machine.reaches_of_runWhere hT)⟩

end Stack

end KvRaft
