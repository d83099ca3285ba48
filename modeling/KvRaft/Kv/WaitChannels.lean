import KvRaft.Kv.WaitRoom

/-!
# Wait channels are not shared

In every run of servers on a cluster the indices that `Start` returns to the handlers of one server
go up, since the log of a node never gets shorter at its end.  So an index belongs to one handler,
which inserts, pops and erases the entry of this index and nobody else does
(`Watched.waitChannels_exclusive`).
-/

namespace KvRaft

/-- Handler `k` has found or inserted its wait channel and has not yet returned. -/
def KvProcess.Uses (p : KvProcess) (k : ℕ) (index : ℤ) : Prop :=
  ∃ h, p.handlers[k]? = some h ∧ h.pc.phase = .holding index

/-- Handler `k` has returned. -/
def KvProcess.Returned (p : KvProcess) (k : ℕ) : Prop :=
  ∃ h, p.handlers[k]? = some h ∧ h.pc.phase = .returned

/-- **Wait channels are neither shared nor reused**, as far as a server and the record `L` of what
has happened at its wait channels tell. -/
structure KvProcess.Exclusive (p : KvProcess) (L : List ChanEvent) : Prop where
  /-- The indices that `Start` has returned go up. -/
  increasing : (KvRaft.starts L).Pairwise (· < ·)
  /-- An entry is that of one handler. -/
  owner : ∀ index ch, p.kv.waitApplyCh index = some ch →
    ∃ k, p.Uses k index ∧ .insert k index ch ∈ L
  owner_unique : ∀ k k' index, p.Uses k index → p.Uses k' index → k = k'
  /-- A handler pops the command that was applied at the index `Start` returned to it. -/
  popped : ∀ k ch op, .pop k ch op ∈ L → ∃ index, .start k index ∈ L ∧
    .insert k index ch ∈ L ∧ .processed index op (some ch) ∈ L
  /-- While a handler uses its channel, the entry leads to it. -/
  kept : ∀ k index ch, .insert k index ch ∈ L → p.Uses k index →
    p.kv.waitApplyCh index = some ch
  /-- What is erased and deleted is the channel of the handler itself. -/
  erases : ∀ k index ch, .erase k index ch ∈ L → ∃ ch', ch = some ch' ∧ .insert k index ch' ∈ L
  erased_by : ∀ k index ch k' index', .insert k index ch ∈ L → .erase k' index' (some ch) ∈ L →
    k' = k ∧ index' = index
  /-- It is deleted once, and a handler that has returned has done so. -/
  erased_once : (erased L).Nodup
  erased_at_return : ∀ k index ch, .insert k index ch ∈ L → p.Returned k →
    .erase k index (some ch) ∈ L

namespace KvProcess

variable {p p' : KvProcess} {L : List ChanEvent} {last : ℤ} {k : ℕ} {index : ℤ}

theorem Uses.room (h : p.Uses k index) : p.room.phase k = .holding index := by
  obtain ⟨hd, hk, hph⟩ := h
  rw [room_phase hk, hph]

theorem uses_of_room (h : p.room.phase k = .holding index) : p.Uses k index := by
  cases hk : p.handlers[k]? with
  | none => simp [KvProcess.room, hk] at h
  | some hd => exact ⟨hd, hk, by rwa [room_phase hk] at h⟩

theorem exclusive_of_ordered (h : p.room.Ordered L last) : p.Exclusive L where
  increasing := h.started.increasing
  owner index ch he := by
    obtain ⟨k, hk, hins⟩ := h.owned.entry index ch he
    exact ⟨k, uses_of_room hk, hins⟩
  owner_unique k k' index hk hk' :=
    h.started.unique k k' index (h.started.start k index (.inr hk.room))
      (h.started.start k' index (.inr hk'.room))
  popped k ch op hpop := by
    obtain ⟨index, hins, hproc⟩ := h.queued.pop k ch op hpop
    exact ⟨index, h.owned.start k index ch hins, hins, hproc⟩
  kept k index ch hins hk := by
    rcases h.owned.phase k index ch hins with ⟨-, he⟩ | ⟨hret, -⟩
    · exact he
    · rw [hk.room] at hret
      cases hret
  erases k index ch he := (h.owned.erase k index ch he).2
  erased_by k index ch k' index' hins he := by
    obtain ⟨-, ch', heq, hins'⟩ := h.owned.erase k' index' (some ch) he
    obtain rfl := Option.some.inj heq
    exact h.owned.unique k' index' k index ch hins' hins
  erased_once := h.owned.nodup
  erased_at_return k index ch hins hret := by
    obtain ⟨hd, hk, hph⟩ := hret
    rcases h.owned.phase k index ch hins with ⟨hhold, -⟩ | ⟨-, he⟩
    · rw [room_phase hk, hph] at hhold
      cases hhold
    · exact he

/-- Only `Start` gives a handler an index. -/
theorem ChanMoves.eq_start {a : KvAction} {es : List ChanEvent} (hm : p.ChanMoves a es p')
    (hs : .start k index ∈ es) : a = .handle k (.start index true) := by
  cases hm with
  | quiet | skip | send | call => simp at hs
  | handle j h input events kv' pc hj hm =>
    cases hm with
    | start raftIndex hpc hinput =>
      obtain ⟨rfl, rfl⟩ : k = j ∧ index = raftIndex := by simpa using hs
      rw [hinput]
    | goOn | refused | insert | pop | expired | erase => simp at hs

end KvProcess

namespace Watched

variable {n : ℕ} {W W' : Watched n} {a : ReplicaAction n}

/-- The wait channels of all servers are in order. -/
structure Sound (W : Watched n) : Prop where
  indexed : W.replicas.cluster.Indexed
  ordered : ∀ i, (W.replicas.kvs i).room.Ordered (W.log i) (W.replicas.lastIndex i)

theorem sound_init : Sound (init : Watched n) := by
  refine ⟨Cluster.indexed_init, fun i => ⟨⟨.nil, ?_, ?_, ?_, ?_, ?_⟩,
    ⟨?_, ?_, ?_, ?_, ?_, ?_, ?_, ?_, List.nodup_nil⟩, ⟨?_, ?_, ?_⟩⟩⟩
  all_goals simp [init, Replicas.init, KvProcess.room, KvServer.init]

/-- What a step makes of the wait channels of one server. -/
theorem room_of_step (h : W.step a = some W') (i : Fin n) (hs : W.Sound) :
    ∃ es, W'.log i = W.log i ++ es ∧
      (W.replicas.kvs i).room.Moves es (W'.replicas.kvs i).room ∧
      ∀ k index, .start k index ∈ es →
        W.replicas.lastIndex i < index ∧ index ≤ W'.replicas.lastIndex i := by
  obtain ⟨S, hst, rfl⟩ := Option.map_eq_some_iff.1 h
  refine ⟨W.replicas.events a i, rfl, ?_⟩
  rcases Replicas.serverAction_of_step hst i with ⟨hnone, heq⟩ | ⟨b, hb, hp⟩
  · simp only [Replicas.events, hnone, heq]
    exact ⟨.nothing, by simp⟩
  · have hm := KvProcess.chanMoves_of_step hp
    simp only [Replicas.events, hb]
    refine ⟨KvProcess.room_moves hm fun index ch he => ?_, fun k index hk => ?_⟩
    · obtain ⟨k, -, hins⟩ := (hs.ordered i).owned.entry index ch he
      exact (hs.ordered i).owned.lt_size k index ch hins
    · obtain ⟨hindex, hlast⟩ := Replicas.index_of_start hst (hm.eq_start hk ▸ hb)
      exact ⟨by omega, hlast.ge⟩

theorem Sound.step (hs : W.Sound) (h : W.step a = some W') : W'.Sound := by
  obtain ⟨S, hst, heq⟩ := Option.map_eq_some_iff.1 h
  have hS : W'.replicas = S := by rw [← heq]
  refine ⟨hS ▸ Replicas.indexed_step hs.indexed hst, fun i => ?_⟩
  obtain ⟨es, hlog, hm, hstart⟩ := room_of_step h i hs
  rw [hlog]
  exact (hs.ordered i).step hm (hS ▸ Replicas.lastIndex_le_step hs.indexed hst i) hstart

theorem sound_of_reachable (h : (machine n).Reachable init W) : W.Sound :=
  h.invariant sound_init fun _ _ _ hs _ hst => hs.step hst

/-- **Wait channels are never shared or reused**, in every run of servers on a cluster. -/
theorem waitChannels_exclusive (h : (machine n).Reachable init W) (i : Fin n) :
    (W.replicas.kvs i).Exclusive (W.log i) :=
  KvProcess.exclusive_of_ordered ((sound_of_reachable h).ordered i)

/-- Node 0 becomes leader, and handler 0 of its server serves a Put. -/
def servePut : List (ReplicaAction 3) :=
  [.raft (.doElection 0), .raft (.deliver 0), .raft (.reply 0),
    .kv 0 (.call (.putAppend ⟨"k", "a", .put, "c", 1⟩)), .start 0 0, .kv 0 (.handle 0 .run),
    .raft (.doHeartBeat 0), .raft (.deliver 2), .raft (.reply 2), .raft (.getApplyLogs 0),
    .raft (.pushApplyMsg 0), .receive 0, .kv 0 .apply, .kv 0 .apply, .kv 0 .skipSnapShot,
    .kv 0 .apply, .kv 0 (.handle 0 .run), .kv 0 (.handle 0 .run)]

theorem servePut_eq : ((machine 3).run init servePut).map (fun W => W.log 0) =
    some [.start 0 1, .insert 0 1 0, .processed 1 ⟨.put, "k", "a", "c", 1⟩ (some 0),
      .pop 0 0 ⟨.put, "k", "a", "c", 1⟩, .erase 0 1 (some 0)] := by
  decide +kernel

theorem waitChannels_exclusive_servePut : ∃ W, (machine 3).run init servePut = some W ∧
    (W.log 0).length = 5 ∧ (W.replicas.kvs 0).Exclusive (W.log 0) := by
  obtain ⟨W, hW, hlog⟩ := Option.map_eq_some_iff.1 servePut_eq
  exact ⟨W, hW, by rw [hlog]; rfl, waitChannels_exclusive (Machine.reachable_of_run hW) 0⟩

end Watched

end KvRaft
