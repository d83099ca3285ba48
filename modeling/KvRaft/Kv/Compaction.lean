import KvRaft.Kv.Replicas

/-!
# The store of a replica

With compaction on, the store of a server between two messages should be what its log prefix
gives: the commands up to the largest index that its apply loop has consumed, applied in order
from the empty store (`Replicas.StoreIsReplay`).

This holds in every run in which nodes accept only snapshots of what they have applied
(`Replicas.InstallsApplied`), and in which no Get sets an entry of the request table back
(`Replicas.NoRewind`): `Replicas.store_is_replay`.  A node that lags behind accepts a snapshot
that it has not applied and moves `lastApplied` over the commands in it, but `CondInstallSnapshot`
declines to install it in the store (`Cluster.Indexed.condInstallSnapshot`), so that these
commands never reach the store: `Replicas.not_store_is_replay`.
-/

namespace KvRaft

open Session Cluster

namespace KvProcess

variable {p p' : KvProcess} {a : KvAction}
  {consumed : List (ApplyMsg Op (Option Snapshot))} {msg : ApplyMsg Op (Option Snapshot)}

/-! ### A server on its stream -/

/-- Only messages bring commands. -/
theorem ops_pending_eq (ha : ∀ msg installed, a ≠ .receive msg installed)
    (h : p.Moves a p') :
    p'.ops ++ p'.loop.pending.toList = p.ops ++ p.loop.pending.toList := by
  cases h with
  | skip | receive | getSnapShotFromRaft => exact absurd rfl (ha _ _)
  | duplicate op index hloop | execute op index hloop => simp [ops, hloop, ApplyLoop.pending]
  | fresh op index hloop => simp [ops, hloop, ApplyLoop.pending]
  | goOn a op kv' loop' hdone hpend =>
    have : p.loop.pending = none := by
      cases hl : p.loop <;> simp [hl, ApplyLoop.done, ApplyLoop.pending] at hdone ⊢
    simp [ops, hpend, this]
  | call | handle => rfl

/-- Only an installed snapshot moves the snapshot index of a server. -/
theorem lastSnapShotRaftLogIndex_eq
    (ha : ∀ data term index, a ≠ .receive (.snapshot data term index) true) (h : p.Moves a p') :
    p'.kv.lastSnapShotRaftLogIndex = p.kv.lastSnapShotRaftLogIndex := by
  cases h with
  | skip | receive | duplicate | fresh | call => rfl
  | getSnapShotFromRaft data term index installed =>
    cases installed with
    | true => exact absurd rfl (ha data term index)
    | false => rfl
  | execute op index =>
    cases hw : op.isWrite with
    | true => rw [KvServer.execute_of_isWrite hw]; rfl
    | false => rw [KvServer.execute_of_not_isWrite hw]
  | goOn a op kv' loop' _ _ _ hsame => exact hsame.lastSnapShotRaftLogIndex
  | handle k h input kv' pc hk hm =>
    cases hm with
    | goOn _ _ _ hsame | found _ _ _ _ hsame | acknowledge _ _ _ _ hsame =>
      exact hsame.lastSnapShotRaftLogIndex
    | read | close => rfl

/-- **A server follows the messages it has consumed.**  If their commands are in the order of the
requests, its request table goes with them. -/
structure Follows (p : KvProcess) (consumed : List (ApplyMsg Op (Option Snapshot))) : Prop where
  sound : p.Sound
  ops : p.ops ++ p.loop.pending.toList = commands consumed
  lastSnapShotRaftLogIndex : p.kv.lastSnapShotRaftLogIndex = 0
  once : Sequential Op.tag (commands consumed) → p.Once

theorem follows_init : Follows {} [] := ⟨sound_init, rfl, rfl, fun _ => once_init⟩

theorem Follows.sequential_pending (h : p.Follows consumed)
    (hseq : Sequential Op.tag (commands consumed)) {op : Op} (hp : p.loop.pending = some op) :
    Sequential Op.tag (p.ops ++ [op]) := by
  have := h.ops
  rw [hp] at this
  exact this ▸ hseq

theorem Follows.step (h : p.Follows consumed) (ha : ∀ msg installed, a ≠ .receive msg installed)
    (hr : p.NoRewind a) (hst : p.step a = some p') : p'.Follows consumed where
  sound := h.sound.step (fun _ _ _ => ha _ _) hst
  ops := (ops_pending_eq ha (moves_of_step hst)).trans h.ops
  lastSnapShotRaftLogIndex :=
    (lastSnapShotRaftLogIndex_eq (fun _ _ _ => ha _ _) (moves_of_step hst)).trans
      h.lastSnapShotRaftLogIndex
  once hseq := (h.once hseq).step h.sound hr (fun _ _ _ => ha _ _)
    (fun _ hp => h.sequential_pending hseq hp) hst

/-- A message is taken between two others; a command becomes pending. -/
theorem Follows.receive_eq (h : p.Follows consumed) (hc : Consecutive 0 (consumed ++ [msg]))
    (hst : p.step (.receive msg false) = some p') : p.loop = .pop ∧ p'.ops = p.ops ∧
      p'.loop.pending.toList = commands [msg] := by
  simp only [KvProcess.step] at hst
  split at hst
  case h_1 op index hloop =>
    -- the index of a command is positive
    have hpos : index = (0 + (commands consumed).length : ℕ) + 1 :=
      (consecutive_append.1 hc).2.1
    rw [h.lastSnapShotRaftLogIndex, if_neg (by omega)] at hst
    obtain rfl := Option.some.inj hst
    exact ⟨hloop, rfl, rfl⟩
  case h_2 hloop =>
    obtain rfl := Option.some.inj hst
    exact ⟨hloop, rfl, by simp [hloop, ApplyLoop.pending]⟩
  case h_3 => cases hst

theorem Follows.receive (h : p.Follows consumed) (hc : Consecutive 0 (consumed ++ [msg]))
    (hst : p.step (.receive msg false) = some p') : p'.Follows (consumed ++ [msg]) := by
  obtain ⟨hpop, hops, hpend⟩ := h.receive_eq hc hst
  have hnot : ∀ data term index,
      KvAction.receive msg false ≠ .receive (.snapshot data term index) true := by simp
  refine ⟨h.sound.step hnot hst, ?_, ?_, fun hseq => ?_⟩
  · rw [commands_append, hops, hpend, ← h.ops, hpop]
    simp [ApplyLoop.pending]
  · rw [lastSnapShotRaftLogIndex_eq hnot (moves_of_step hst), h.lastSnapShotRaftLogIndex]
  · rw [commands_append] at hseq
    have hseq' := hseq.of_isPrefix (List.prefix_append ..)
    have hr : p.NoRewind (.receive msg false) := trivial
    exact (h.once hseq').step h.sound hr hnot
      (fun _ hp => h.sequential_pending hseq' hp) hst

/-- Between two messages the store is that of the commands consumed. -/
theorem Follows.skipList_eq (h : p.Follows consumed) (hpop : p.loop = .pop)
    (hseq : Sequential Op.tag (commands consumed)) :
    p.kv.skipList = (KvServer.replay (commands consumed)).skipList := by
  have hops : p.ops = commands consumed := by
    have := h.ops
    rwa [hpop, ApplyLoop.pending, Option.toList_none, List.append_nil] at this
  have := (h.once hseq).storeAfter_eq h.sound.effects (hops ▸ hseq) _ le_rfl
  rwa [length_ops, ← h.sound.store, ops_take_length, hops] at this

end KvProcess

namespace Replicas

variable {n : ℕ} {S S' : Replicas n} {a : ReplicaAction n}

/-! ### The property -/

/-- The largest index of a command or snapshot that the apply loop of server `i` has consumed. -/
def consumedIndex (S : Replicas n) (i : Fin n) : ℤ :=
  ((S.cluster.procs i).consumed.map ApplyMsg.index).foldl max 0

/-- `cmds` are the commands up to the largest index that server `i` has consumed: those the server
has been given itself, and for the others those that some server was given. -/
structure CommandsUpTo (S : Replicas n) (i : Fin n) (cmds : List Op) : Prop where
  length : cmds.length = S.consumedIndex i
  own : ∀ (m : ℕ) (op : Op), ApplyMsg.command op (m + 1) ∈ (S.cluster.procs i).consumed →
    cmds[m]? = some op
  handed : ∀ (m : ℕ) (op : Op), cmds[m]? = some op →
    ∃ j, ApplyMsg.command op (m + 1) ∈ (S.cluster.procs j).consumed

/-- **The store of server `i` equals its log prefix** whenever its apply loop is between two
messages, if the clients number their requests one after the other. -/
def StoreIsReplay (S : Replicas n) (i : Fin n) : Prop :=
  (S.kvs i).loop = .pop → ∀ cmds, S.CommandsUpTo i cmds → Sequential Op.tag cmds →
    (S.kvs i).kv.skipList = (KvServer.replay cmds).skipList

theorem CommandsUpTo.eq {i : Fin n} {cmds : List Op} (h : S.CommandsUpTo i cmds)
    (hc : Consecutive 0 (S.cluster.procs i).consumed) :
    cmds = commands (S.cluster.procs i).consumed := by
  have hlen : cmds.length = (commands (S.cluster.procs i).consumed).length := by
    have := h.length
    have hlargest := hc.largest
    rw [consumedIndex] at this
    push_cast at hlargest
    omega
  refine List.ext_getElem? fun m => ?_
  cases hm : (commands (S.cluster.procs i).consumed)[m]? with
  | none =>
    rw [List.getElem?_eq_none_iff] at hm ⊢
    omega
  | some op =>
    have := hc.mem hm
    exact h.own m op (by simpa using this)

/-! ### The invariant -/

/-- Streams are consecutive, and the servers follow them. -/
structure Linked (S : Replicas n) : Prop where
  indexed : S.cluster.Indexed
  streams : ∀ i, Streams (S.cluster.procs i)
  follows : ∀ i, (S.kvs i).Follows (S.cluster.procs i).consumed

theorem linked_init : Linked (init : Replicas n) :=
  ⟨indexed_init, streams_init, fun _ => KvProcess.follows_init⟩

/-- A step of the cluster in which no message is consumed. -/
theorem Linked.cluster_step (h : S.Linked) {x : Action n Op (Option Snapshot)}
    {c : Cluster n Op (Option Snapshot)} (hx : ∀ i, x ≠ .consume i)
    (hg : S.cluster.InstallsApplied x) (hst : S.cluster.step x = some c) :
    c.Indexed ∧ (∀ i, Streams (c.procs i)) ∧
      ∀ i, (c.procs i).consumed = (S.cluster.procs i).consumed := by
  have hm := Cluster.moves_of_step hst
  exact ⟨h.indexed.step hm, fun i => (h.streams i).step hg (h.indexed.processMoves hm i),
    fun i => (h.indexed.processMoves hm i).consumed_eq (hx i)⟩

theorem installed_eq (h : S.cluster.Indexed) {i : Fin n} {msg : ApplyMsg Op (Option Snapshot)}
    {msgs : List (ApplyMsg Op (Option Snapshot))}
    (hm : (S.cluster.procs i).applyChan = msg :: msgs) : S.installed i msg = false := by
  cases msg with
  | command op index => rfl
  | snapshot data term index => rw [installed, h.condInstallSnapshot hm]

theorem Linked.step (h : S.Linked) (hg : S.InstallsApplied a) (hr : S.NoRewind a)
    (hst : S.step a = some S') : S'.Linked := by
  cases moves_of_step hst with
  | raft x c hx hgx hc =>
    obtain ⟨hi, hs, hcons⟩ := h.cluster_step hx (hgx hg) hc
    exact ⟨hi, hs, fun i => (hcons i).symm ▸ h.follows i⟩
  | receive i msg msgs c p hm hc hp =>
    have hmoves := Cluster.moves_of_step hc
    have hgc : S.cluster.InstallsApplied (.consume i) := trivial
    have hs : ∀ j, Streams (c.procs j) := fun j =>
      (h.streams j).step hgc (h.indexed.processMoves hmoves j)
    refine ⟨h.indexed.step hmoves, hs, fun j => ?_⟩
    obtain rfl := h.indexed.consume_eq hm hc
    rw [installed_eq h.indexed hm] at hp
    have hsi := (hs i).consumed
    simp only [setKv_kvs, setProc_procs] at hsi ⊢
    by_cases hj : j = i
    · subst hj
      simp only [if_true] at hsi ⊢
      exact (h.follows j).receive hsi hp
    · simp only [if_neg hj]
      exact h.follows j
  | both i x b c p hx hgx hb hrb hc hp =>
    obtain ⟨hi, hs, hcons⟩ := h.cluster_step hx hgx hc
    refine ⟨hi, hs, fun j => ?_⟩
    rw [hcons, show (S.setKv i p).kvs j = _ from setKv_kvs S i j p]
    split_ifs with hj
    · exact hj ▸ (h.follows i).step hb hrb hp
    · exact h.follows j
  | kv i b p hb hrb hp =>
    refine ⟨h.indexed, h.streams, fun j => ?_⟩
    rw [setKv_kvs]
    split_ifs with hj
    · exact hj ▸ (h.follows i).step hb (hrb hr) hp
    · exact h.follows j

/-- **The store of a replica equals its log prefix** in every run in which nodes accept only
snapshots of what they have applied and no Get sets the request table back. -/
theorem store_is_replay
    (h : (machine n).Reaches (fun S a => S.InstallsApplied a ∧ S.NoRewind a) init S)
    (i : Fin n) : S.StoreIsReplay i := by
  have hl : S.Linked :=
    h.invariant linked_init fun _ _ _ hl ⟨hg, hr⟩ hst => hl.step hg hr hst
  intro hpop cmds hcmds hseq
  have heq := hcmds.eq (hl.streams i).consumed
  rw [heq] at hseq ⊢
  exact (hl.follows i).skipList_eq hpop hseq

/-! ### Runs -/

def putK : Op := ⟨.put, "k", "a", "c", 1⟩

/-- Node 0 becomes leader and gets a Put, which node 1 acknowledges. -/
def commitPut : List (ReplicaAction 3) :=
  [.raft (.doElection 0), .raft (.deliver 0), .raft (.reply 0),
    .kv 0 (.call (.putAppend ⟨"k", "a", .put, "c", 1⟩)), .start 0 0,
    .raft (.doHeartBeat 0), .raft (.deliver 2), .raft (.reply 2)]

/-- The apply loop of server `i` gets a command and executes it. -/
def consumePut (i : Fin 3) : List (ReplicaAction 3) :=
  [.raft (.getApplyLogs i), .raft (.pushApplyMsg i), .receive i, .kv i .apply, .kv i .apply]

/-- Node 0 compacts its log and sends thread `k` with the snapshot to node 2, which hands it to
its server. -/
def compactAndSend (k : ℕ) : List (ReplicaAction 3) :=
  [.kv 0 .apply, .snapshot 0, .kv 0 .apply, .raft (.doHeartBeat 0), .leaderSendSnapShot k,
    .raft (.deliver k), .raft (.pushMsgToKvServer (k + 1)), .receive 2]

/-- Node 2 gets the Put in a heartbeat whose reply is lost, and later the snapshot. -/
def appliedInstall : List (ReplicaAction 3) :=
  commitPut ++ [.raft (.doHeartBeat 0), .raft (.deliver 5), .raft (.lose 5)] ++ consumePut 2 ++
  [.kv 2 .skipSnapShot, .kv 2 .apply] ++ consumePut 0 ++ compactAndSend 7

theorem appliedInstall_eq : ((machine 3).runWhere (fun S a => S.InstallsApplied a ∧ S.NoRewind a)
    init appliedInstall).map (fun S => ((S.cluster.procs 2).consumed.map ApplyMsg.index,
      (S.kvs 2).kv.skipList "k", (S.cluster.raft 2).lastSnapshotIncludeIndex)) =
    some ([1, 1], some "a", 1) := by
  decide +kernel

theorem store_is_replay_appliedInstall : ∃ S, (machine 3).runWhere
    (fun S a => S.InstallsApplied a ∧ S.NoRewind a) init appliedInstall = some S ∧
      (S.cluster.procs 2).consumed.length = 2 ∧ S.StoreIsReplay 2 := by
  obtain ⟨S, hS, h⟩ := Option.map_eq_some_iff.1 appliedInstall_eq
  exact ⟨S, hS, by simpa using congrArg (fun x => x.1.length) h,
    store_is_replay (Machine.reaches_of_runWhere hS) 2⟩

/-- Node 2 gets nothing but the snapshot. -/
def laggingInstall : List (ReplicaAction 3) := commitPut ++ consumePut 0 ++ compactAndSend 5

theorem laggingInstall_eq : ((machine 3).run init laggingInstall).map
    (fun S => ((S.cluster.procs 0).consumed.map fun msg => (msg.command?, msg.index),
      (S.cluster.procs 2).consumed.map fun msg => (msg.command?, msg.index),
      (S.kvs 2).kv.skipList "k", (S.kvs 2).loop.pending.isNone && (S.kvs 2).loop.done.isNone)) =
    some ([(some putK, 1)], [(none, 1)], none, true) := by
  decide +kernel

theorem sequential_putK : Sequential Op.tag [putK] := by
  refine ⟨by simp, fun pre e post heq e' he' _ hlt => ?_⟩
  have he : e ∈ [putK] := heq ▸ by simp
  rw [List.mem_singleton.1 he, List.mem_singleton.1 he'] at hlt
  exact absurd hlt (lt_irrefl _)

/-- The store of a replica that lagged behind misses the commands of the snapshot. -/
theorem not_store_is_replay : ¬ ∀ S : Replicas 3, (machine 3).Reachable init S →
    ∀ i, S.StoreIsReplay i := by
  intro hall
  obtain ⟨S, hS, h⟩ := Option.map_eq_some_iff.1 laggingInstall_eq
  simp only [Prod.mk.injEq] at h
  obtain ⟨hleader, hlag, hkey, hloop⟩ := h
  have hpop : (S.kvs 2).loop = .pop := by
    cases hl : (S.kvs 2).loop <;> simp [hl, ApplyLoop.pending, ApplyLoop.done] at hloop ⊢
  have hcmds : S.CommandsUpTo 2 [putK] := by
    refine ⟨?_, fun m op hm => ?_, fun m op hm => ⟨0, ?_⟩⟩
    · obtain ⟨msg, hmsg, hindex⟩ : ∃ msg, (S.cluster.procs 2).consumed = [msg] ∧ msg.index = 1 := by
        simpa [List.map_eq_cons_iff] using congrArg (List.map Prod.snd) hlag
      simp [consumedIndex, hmsg, hindex]
    · have := List.mem_map_of_mem (f := fun msg => (msg.command?, msg.index)) hm
      rw [hlag] at this
      simp [ApplyMsg.command?] at this
    · obtain ⟨rfl, rfl⟩ : m = 0 ∧ op = putK := by
        cases m with
        | zero => simpa [eq_comm] using hm
        | succ m => simp at hm
      have : (some putK, 1) ∈
          (S.cluster.procs 0).consumed.map fun msg => (msg.command?, msg.index) :=
        hleader ▸ List.mem_cons_self
      obtain ⟨msg, hmsg, heq⟩ := List.mem_map.1 this
      obtain ⟨hcommand, hindex⟩ := Prod.mk.inj heq
      rw [ApplyMsg.eq_command hcommand, hindex] at hmsg
      exact hmsg
  have hstore := congrFun (hall S (Machine.reachable_of_run hS) 2 hpop _ hcmds sequential_putK) "k"
  rw [hkey] at hstore
  cases hstore

end Replicas

end KvRaft
