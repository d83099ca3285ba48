import KvRaft.Kv.Replicas
import KvRaft.Raft.LogIndices

/-!
# What happens at the wait channels

A run of servers on a cluster, with a record of what happens at the wait channels of every server:
the indices that `Start` returns, the channels that handlers insert, pop and erase, the waits that
expire, and the commands that `GetCommandFromRaft` is done with.  The record is written by the
steps and read by nobody (`Watched`).

`KvProcess.ChanMoves` is a step of a server as far as its wait channels are concerned.
-/

namespace KvRaft

/-- What happens at the wait channels of a server; `k` is the handler that does it. -/
inductive ChanEvent where
  /-- `Start` returns an index to a handler, whose node is the leader. -/
  | start (k : ℕ) (raftIndex : ℤ)
  /-- The handler finds or inserts its wait channel. -/
  | insert (k : ℕ) (raftIndex : ℤ) (ch : ℕ)
  /-- `GetCommandFromRaft` is done with a command, which it has pushed into the channel if there
  was one. -/
  | processed (commandIndex : ℤ) (op : Op) (ch : Option ℕ)
  /-- `timeOutPop` returns a command. -/
  | pop (k : ℕ) (ch : ℕ) (op : Op)
  /-- `timeOutPop` returns without one. -/
  | expired (k : ℕ) (raftIndex : ℤ)
  /-- The handler erases the entry of its index and deletes the channel that was there. -/
  | erase (k : ℕ) (raftIndex : ℤ) (ch : Option ℕ)
  deriving DecidableEq

namespace Handler

def events (kv : KvServer) (k : ℕ) (h : Handler) (input : Input) : List ChanEvent :=
  match h.pc, input with
  | .called, .start raftIndex true => [.start k raftIndex]
  | .started raftIndex, .run => [.insert k raftIndex (kv.openChan raftIndex).2]
  | .waiting _ ch, .run => (kv.popChan ch).toList.map fun r => .pop k ch r.1
  | .waiting raftIndex _, .timeOut => [.expired k raftIndex]
  | .leaving raftIndex _, .run => [.erase k raftIndex (kv.waitApplyCh raftIndex)]
  | _, _ => []

end Handler

namespace KvProcess

def events (p : KvProcess) : KvAction → List ChanEvent
  | .receive (.command op index) _ =>
    if index ≤ p.kv.lastSnapShotRaftLogIndex then [.processed index op none] else []
  | .apply =>
    match p.loop with
    | .send op index => [.processed index op (p.kv.waitApplyCh index)]
    | _ => []
  | .handle k input =>
    match p.handlers[k]? with
    | some h => h.events p.kv k input
    | none => []
  | _ => []

end KvProcess

namespace Replicas

variable {n : ℕ}

/-- What an action of the servers makes server `i` do. -/
def serverAction (S : Replicas n) (i : Fin n) : ReplicaAction n → Option KvAction
  | .raft _ | .leaderSendSnapShot _ => none
  | .receive j =>
    if i = j then
      (S.cluster.procs j).applyChan.head?.map fun msg => .receive msg (S.installed j msg)
    else none
  | .start j k =>
    if i = j then (S.kvs j).handlers[k]?.map fun h =>
      let (_, newLogIndex, _, isLeader) := (S.cluster.raft j).start h.req.op
      .handle k (.start newLogIndex isLeader)
    else none
  | .getState j k =>
    if i = j then some (.handle k (.getState ((S.cluster.raft j).status = .leader))) else none
  | .snapshot j => if i = j then some .apply else none
  | .kv j a => if i = j then some a else none

/-- What an action does at the wait channels of server `i`. -/
def events (S : Replicas n) (a : ReplicaAction n) (i : Fin n) : List ChanEvent :=
  match S.serverAction i a with
  | some b => (S.kvs i).events b
  | none => []

end Replicas

/-- Servers on a cluster, and what has happened at their wait channels. -/
structure Watched (n : ℕ) where
  replicas : Replicas n
  log : Fin n → List ChanEvent

namespace Watched

variable {n : ℕ}

def init : Watched n where
  replicas := .init
  log _ := []

def step (W : Watched n) (a : ReplicaAction n) : Option (Watched n) :=
  (W.replicas.step a).map fun S =>
    { replicas := S, log := fun i => W.log i ++ W.replicas.events a i }

variable (n) in
/-- Servers on a cluster as a machine that keeps a record. -/
def machine : Machine (Watched n) (ReplicaAction n) := ⟨step⟩

end Watched

/-! ### Kinds of steps -/

/-- How far a handler is: before and after it gets its index, while it uses its wait channel, and
when it is done. -/
inductive HandlerPhase where
  | called
  | started (raftIndex : ℤ)
  | holding (raftIndex : ℤ)
  | returned
  deriving DecidableEq

def HandlerPc.phase : HandlerPc → HandlerPhase
  | .called => .called
  | .started raftIndex => .started raftIndex
  | .waiting raftIndex _ | .timedOut raftIndex | .asked raftIndex _ | .reading raftIndex
  | .leaving raftIndex _ => .holding raftIndex
  | .returned _ => .returned

/-- The channel a handler waits on. -/
def HandlerPc.channel : HandlerPc → Option ℕ
  | .waiting _ ch => some ch
  | _ => none

namespace Handler

variable {kv kv' : KvServer} {k : ℕ} {h : Handler} {input : Input} {pc : HandlerPc}

/-- A step of a handler as far as the wait channels are concerned. -/
inductive ChanMoves (kv : KvServer) (k : ℕ) (h : Handler) (input : Input) :
    List ChanEvent → KvServer → HandlerPc → Prop
  /-- The channels stay as they are, and so does the phase. -/
  | goOn (kv' : KvServer) (pc : HandlerPc) : kv'.waitApplyCh = kv.waitApplyCh →
      kv'.chans = kv.chans → pc.phase = h.pc.phase → h.pc.channel = none → pc.channel = none →
      ChanMoves kv k h input [] kv' pc
  | refused (reply : Reply) : h.pc = .called → ChanMoves kv k h input [] kv (.returned reply)
  | start (raftIndex : ℤ) : h.pc = .called → input = .start raftIndex true →
      ChanMoves kv k h input [.start k raftIndex] kv (.started raftIndex)
  | insert (raftIndex : ℤ) : h.pc = .started raftIndex →
      ChanMoves kv k h input [.insert k raftIndex (kv.openChan raftIndex).2]
        (kv.openChan raftIndex).1 (.waiting raftIndex (kv.openChan raftIndex).2)
  | pop (raftIndex : ℤ) (ch : ℕ) (op : Op) (kv' : KvServer) (pc : HandlerPc) :
      h.pc = .waiting raftIndex ch → kv.popChan ch = some (op, kv') →
      pc.phase = .holding raftIndex → pc.channel = none →
      ChanMoves kv k h input [.pop k ch op] kv' pc
  | expired (raftIndex : ℤ) (ch : ℕ) : h.pc = .waiting raftIndex ch → input = .timeOut →
      ChanMoves kv k h input [.expired k raftIndex] kv (.timedOut raftIndex)
  | erase (raftIndex : ℤ) (reply : Reply) : h.pc = .leaving raftIndex reply →
      ChanMoves kv k h input [.erase k raftIndex (kv.waitApplyCh raftIndex)]
        (kv.closeChan raftIndex) (.returned reply)

theorem phase_popped (h : Handler) (raftIndex : ℤ) (op : Op) :
    (h.popped raftIndex op).phase = .holding raftIndex ∧
      (h.popped raftIndex op).channel = none := by
  unfold popped
  split_ifs
  · split <;> exact ⟨rfl, rfl⟩
  · exact ⟨rfl, rfl⟩

theorem chanMoves_of_step (hst : h.step kv input = some (kv', pc)) :
    h.ChanMoves kv k input (h.events kv k input) kv' pc := by
  unfold step at hst
  split at hst
  case h_1 raftIndex isLeader hpc =>
    cases isLeader with
    | true =>
      obtain ⟨rfl, rfl⟩ := by simpa using hst
      simpa [events, hpc] using ChanMoves.start raftIndex hpc rfl
    | false =>
      obtain ⟨rfl, rfl⟩ := by simpa using hst
      simpa [events, hpc] using ChanMoves.refused _ hpc
  case h_2 raftIndex hpc =>
    obtain ⟨rfl, rfl⟩ := by simpa using hst
    simpa [events, hpc] using ChanMoves.insert raftIndex hpc
  case h_3 raftIndex ch hpc =>
    obtain ⟨⟨op, kv₁⟩, hpop, heq⟩ := Option.map_eq_some_iff.1 hst
    obtain ⟨rfl, rfl⟩ := Prod.mk.inj heq
    obtain ⟨hphase, hwait⟩ := h.phase_popped raftIndex op
    simpa [events, hpc, hpop] using ChanMoves.pop raftIndex ch op kv₁ _ hpc hpop hphase hwait
  case h_4 raftIndex ch hpc =>
    obtain ⟨rfl, rfl⟩ := by simpa using hst
    simpa [events, hpc] using ChanMoves.expired raftIndex ch hpc rfl
  case h_5 hpc _ =>
    obtain ⟨rfl, rfl⟩ := by simpa using hst
    rw [show h.events kv k _ = [] by simp [events, hpc]]
    exact .goOn kv _ rfl rfl (by rw [hpc]; rfl) (by rw [hpc]; rfl) rfl
  case h_6 hpc _ =>
    rw [show h.events kv k _ = [] by simp [events, hpc]]
    split_ifs at hst <;> obtain ⟨rfl, rfl⟩ := by simpa using hst
    all_goals exact .goOn kv _ rfl rfl (by rw [hpc]; rfl) (by rw [hpc]; rfl) rfl
  case h_7 hpc _ =>
    rw [show h.events kv k _ = [] by simp [events, hpc]]
    split_ifs at hst <;> obtain ⟨rfl, rfl⟩ := by simpa using hst
    all_goals exact .goOn kv _ rfl rfl (by rw [hpc]; rfl) (by rw [hpc]; rfl) rfl
  case h_8 args hpc _ =>
    rw [show h.events kv k _ = [] by simp [events, hpc]]
    obtain ⟨rfl, rfl⟩ := by simpa using hst
    exact .goOn _ _ rfl rfl (by rw [hpc]; rfl) (by rw [hpc]; rfl) rfl
  case h_9 raftIndex reply hpc =>
    obtain ⟨rfl, rfl⟩ := by simpa using hst
    simpa [events, hpc] using ChanMoves.erase raftIndex reply hpc
  case h_10 => cases hst

end Handler

theorem KvServer.execute_waitApplyCh {kv : KvServer} (op : Op) :
    (kv.execute op).waitApplyCh = kv.waitApplyCh := by
  cases h : op.isWrite with
  | true => rw [KvServer.execute_of_isWrite h]; rfl
  | false => rw [KvServer.execute_of_not_isWrite h]

namespace KvProcess

variable {p p' : KvProcess} {a : KvAction}

/-- A step of a server as far as the wait channels are concerned. -/
inductive ChanMoves (p : KvProcess) : KvAction → List ChanEvent → KvProcess → Prop
  | quiet (a : KvAction) (p' : KvProcess) : p'.handlers = p.handlers →
      p'.kv.waitApplyCh = p.kv.waitApplyCh → p'.kv.chans = p.kv.chans → ChanMoves p a [] p'
  /-- `GetCommandFromRaft` returns at once. -/
  | skip (a : KvAction) (op : Op) (index : ℤ) : index ≤ p.kv.lastSnapShotRaftLogIndex →
      ChanMoves p a [.processed index op none] p
  | send (op : Op) (index : ℤ) : p.loop = .send op index →
      ChanMoves p .apply [.processed index op (p.kv.waitApplyCh index)]
        { p with kv := p.kv.sendMessageToWaitChan op index, loop := .pop }
  | call (req : Request) :
      ChanMoves p (.call req) [] { p with handlers := p.handlers ++ [{ req := req }] }
  | handle (k : ℕ) (h : Handler) (input : Input) (events : List ChanEvent) (kv' : KvServer)
      (pc : HandlerPc) : p.handlers[k]? = some h → h.ChanMoves p.kv k input events kv' pc →
      ChanMoves p (.handle k input) events
        { p with kv := kv', handlers := p.handlers.set k { h with pc := pc } }

theorem chanMoves_of_step (hst : p.step a = some p') : p.ChanMoves a (p.events a) p' := by
  cases a with
  | receive msg installed =>
    simp only [step] at hst
    split at hst
    · rename_i op index hloop
      split_ifs at hst with hle <;> obtain rfl := Option.some.inj hst
      · simpa [events, hle] using ChanMoves.skip _ op index hle
      · rw [show p.events (.receive (.command op index) installed) = [] by simp [events, hle]]
        exact .quiet _ _ rfl rfl rfl
    · obtain rfl := Option.some.inj hst
      refine .quiet _ _ rfl ?_ ?_
      all_goals
        simp only [KvServer.getSnapShotFromRaft, KvServer.readSnapShotToInstall]
        split
        · split <;> rfl
        · rfl
    · cases hst
  | apply =>
    simp only [step, apply] at hst
    split at hst
    · cases hst
    · rename_i op index hloop
      rw [show p.events .apply = [] by simp [events, hloop]]
      split_ifs at hst <;> obtain rfl := Option.some.inj hst
      all_goals exact .quiet _ _ rfl rfl rfl
    · rename_i op index hloop
      rw [show p.events .apply = [] by simp [events, hloop]]
      obtain rfl := Option.some.inj hst
      exact .quiet _ _ rfl (KvServer.execute_waitApplyCh op) (KvServer.execute_chans op)
    · rename_i op index hloop
      rw [show p.events .apply = [] by simp [events, hloop]]
      obtain rfl := Option.some.inj hst
      exact .quiet _ _ rfl rfl rfl
    · rename_i op index data hloop
      rw [show p.events .apply = [] by simp [events, hloop]]
      obtain rfl := Option.some.inj hst
      exact .quiet _ _ rfl rfl rfl
    · rename_i op index hloop
      obtain rfl := Option.some.inj hst
      simpa [events, hloop] using ChanMoves.send op index hloop
  | skipSnapShot =>
    simp only [step] at hst
    split at hst
    · obtain rfl := Option.some.inj hst
      exact .quiet _ _ rfl rfl rfl
    · cases hst
  | call req =>
    obtain rfl := Option.some.inj hst
    exact .call req
  | handle k input =>
    simp only [step] at hst
    split at hst
    · cases hst
    · rename_i h hk
      obtain ⟨⟨kv', pc⟩, hh, rfl⟩ := Option.map_eq_some_iff.1 hst
      have hm := Handler.chanMoves_of_step (k := k) hh
      simpa [events, hk] using ChanMoves.handle k h input _ kv' pc hk hm

end KvProcess

/-! ### Steps of the cluster -/

namespace Replicas

variable {n : ℕ} {S S' : Replicas n} {a : ReplicaAction n}

/-- The last index in the log of the node of a server. -/
def lastIndex (S : Replicas n) (i : Fin n) : ℤ := (S.cluster.raft i).getLastLogIndex

/-- A server makes the step it is made to do, or none. -/
theorem serverAction_of_step (h : S.step a = some S') (i : Fin n) :
    S.serverAction i a = none ∧ S'.kvs i = S.kvs i ∨
      ∃ b, S.serverAction i a = some b ∧ (S.kvs i).step b = some (S'.kvs i) := by
  -- server `j` makes step `b`, on its own or together with the cluster
  have hown : ∀ {j : Fin n} {b : KvAction} {p : KvProcess}, (S.kvs j).step b = some p →
      S'.kvs = Function.update S.kvs j p → (i = j → S.serverAction i a = some b) →
      (i ≠ j → S.serverAction i a = none) →
      S.serverAction i a = none ∧ S'.kvs i = S.kvs i ∨
        ∃ b, S.serverAction i a = some b ∧ (S.kvs i).step b = some (S'.kvs i) := by
    intro j b p hp hkvs hself hother
    rcases eq_or_ne i j with rfl | hij
    · exact Or.inr ⟨b, hself rfl, by rw [hkvs, Function.update_self, hp]⟩
    · exact Or.inl ⟨hother hij, by rw [hkvs, Function.update_of_ne hij]⟩
  cases a with
  | raft x =>
    simp only [step] at h
    split_ifs at h
    obtain ⟨c, -, rfl⟩ := stepRaft_eq h
    exact Or.inl ⟨rfl, rfl⟩
  | leaderSendSnapShot k =>
    simp only [step] at h
    split at h
    · obtain ⟨c, -, rfl⟩ := stepRaft_eq h
      exact Or.inl ⟨rfl, rfl⟩
    · cases h
  | receive j =>
    simp only [step] at h
    split at h
    · cases h
    · rename_i msg msgs hm
      obtain ⟨c, p, -, hp, rfl⟩ := stepBoth_eq h
      exact hown hp rfl (fun hij => by simp [serverAction, hij, hm])
        fun hij => by simp [serverAction, hij]
  | start j k =>
    simp only [step] at h
    split at h
    · cases h
    · rename_i hd hk
      obtain ⟨c, p, -, hp, rfl⟩ := stepBoth_eq h
      exact hown hp rfl (fun hij => by simp [serverAction, hij, hk])
        fun hij => by simp [serverAction, hij]
  | getState j k =>
    obtain ⟨p, hp, rfl⟩ := stepKv_eq h
    exact hown hp rfl (fun hij => by simp [serverAction, hij])
      fun hij => by simp [serverAction, hij]
  | snapshot j =>
    simp only [step] at h
    split at h
    · obtain ⟨c, p, -, hp, rfl⟩ := stepBoth_eq h
      exact hown hp rfl (fun hij => by simp [serverAction, hij])
        fun hij => by simp [serverAction, hij]
    · cases h
  | kv j b =>
    simp only [step] at h
    split_ifs at h
    obtain ⟨p, hp, rfl⟩ := stepKv_eq h
    exact hown hp rfl (fun hij => by simp [serverAction, hij])
      fun hij => by simp [serverAction, hij]

theorem start_eq_true {rf : Raft n Op (Option Snapshot)} {op : Op} {index term : ℤ}
    {rf' : Raft n Op (Option Snapshot)} (h : rf.start op = (rf', index, term, true)) :
    index = rf.getLastLogIndex + 1 ∧ rf'.getLastLogIndex = index := by
  by_cases hs : rf.status = .leader
  · simp only [Raft.start, hs] at h
    obtain ⟨rfl, rfl, -⟩ := h
    refine ⟨rfl, ?_⟩
    simp [Raft.getLastLogIndex, Raft.getLastLogIndexAndTerm, Raft.persist]
  · simp [Raft.start, hs] at h

/-- The cluster below the servers makes a step or none. -/
theorem cluster_of_step (h : S.step a = some S') :
    S'.cluster = S.cluster ∨ ∃ x, S.cluster.step x = some S'.cluster := by
  cases moves_of_step h with
  | raft x c _ _ hc | both i x b c p _ _ _ _ hc => exact Or.inr ⟨x, hc⟩
  | receive i msg msgs c p _ hc => exact Or.inr ⟨_, hc⟩
  | kv => exact Or.inl rfl

theorem indexed_step (hi : S.cluster.Indexed) (h : S.step a = some S') : S'.cluster.Indexed := by
  rcases cluster_of_step h with heq | ⟨x, hx⟩
  · exact heq ▸ hi
  · exact hi.step (Cluster.moves_of_step hx)

theorem lastIndex_le_step (hi : S.cluster.Indexed) (h : S.step a = some S') (i : Fin n) :
    S.lastIndex i ≤ S'.lastIndex i := by
  rcases cluster_of_step h with heq | ⟨x, hx⟩
  · rw [lastIndex, lastIndex, heq]
  · exact Cluster.getLastLogIndex_le_step hi hx i

/-- The index that `Start` returns to a handler is the next one. -/
theorem index_of_start {i : Fin n} {k : ℕ} {index : ℤ} (h : S.step a = some S')
    (ha : S.serverAction i a = some (.handle k (.start index true))) :
    index = S.lastIndex i + 1 ∧ S'.lastIndex i = index := by
  cases a with
  | raft x => simp [serverAction] at ha
  | leaderSendSnapShot k => simp [serverAction] at ha
  | receive j => simp [serverAction] at ha
  | getState j k => simp [serverAction] at ha
  | snapshot j => simp [serverAction] at ha
  | kv j b =>
    obtain ⟨rfl, rfl⟩ : i = j ∧ b = .handle k (.start index true) := by
      simpa [serverAction] using ha
    simp [step, KvProcess.ownAction] at h
  | start j k =>
    simp only [serverAction] at ha
    split_ifs at ha with hij
    subst hij
    obtain ⟨hd, hk, ha⟩ := Option.map_eq_some_iff.1 ha
    simp only [step, hk] at h
    rcases hr : (S.cluster.raft i).start hd.req.op with ⟨rf', index', term, isLeader⟩
    simp only [hr, KvAction.handle.injEq, Input.start.injEq] at ha
    obtain ⟨-, rfl, rfl⟩ := ha
    obtain ⟨hindex, hlast⟩ := start_eq_true hr
    obtain ⟨c, p, hc, -, rfl⟩ := stepBoth_eq h
    refine ⟨hindex, ?_⟩
    simp only [Cluster.step, Cluster.exec, hr] at hc
    split_ifs at hc
    obtain rfl := Option.some.inj hc
    simpa [lastIndex] using hlast

end Replicas

end KvRaft
