import KvRaft.Raft.Tidy

/-!
# What a heartbeat sends

`doHeartBeat` cuts a slice out of the log of the leader for every peer, in one branch from the
snapshot point on and in the other one by position.

* `Raft.SliceOf` : a request whose `prevlogterm` is the term of the leader at `prevlogindex`, and
  whose entries are those of the leader from there to the end of its log.
* `Raft.Contiguous.heartBeatTo_total` : on a log without gaps, with a next index that is within one
  of its end, no assertion fails.
* `Crashing.heartbeats` : in every reachable state all heartbeats of a leader are slices.
-/

namespace KvRaft

open Raft

/-- A `mapM` of operations that succeed succeeds. -/
theorem exists_mapM_eq_ok {ε α β : Type} {f : α → Except ε β} {l : List α}
    (h : ∀ a ∈ l, ∃ b, f a = .ok b) : ∃ l', l.mapM f = .ok l' := by
  induction l with
  | nil => exact ⟨[], rfl⟩
  | cons a l ih =>
    obtain ⟨b, hb⟩ := h a List.mem_cons_self
    obtain ⟨l', hl'⟩ := ih fun a ha => h a (List.mem_cons_of_mem _ ha)
    refine ⟨b :: l', ?_⟩
    rw [List.mapM_cons]
    exact bind_eq_ok.2 ⟨b, hb, bind_eq_ok.2 ⟨l', hl', rfl⟩⟩

/-- The results of operations that succeed one by one. -/
theorem mapM_eq_ok_of_map {ε α β : Type} {f : α → Except ε β} :
    ∀ {l : List α} {l' : List β}, l.map f = l'.map .ok → l.mapM f = .ok l'
  | [], [], _ => rfl
  | a :: l, b :: l', h => by
    obtain ⟨hb, hl⟩ := List.cons.inj h
    rw [List.mapM_cons]
    exact bind_eq_ok.2 ⟨b, hb, bind_eq_ok.2 ⟨l', mapM_eq_ok_of_map hl, rfl⟩⟩

namespace Raft

variable {n : ℕ} {C D : Type} {rf : Raft n C D}

/-- **The request is a slice of the log**: from some index that the log covers to its end, in order
and without omission. -/
structure SliceOf (rf : Raft n C D) (args : AppendEntriesArgs n C) : Prop where
  prev_le : args.prevlogindex ≤ rf.getLastLogIndex
  prevTerm : rf.getLogTermFromLogIndex args.prevlogindex = .ok args.prevlogterm
  indices : ContiguousFrom args.prevlogindex args.entries
  entries : args.entries.map Except.ok =
    (List.range (rf.getLastLogIndex - args.prevlogindex).toNat).map fun (k : ℕ) =>
      rf.logOf (args.prevlogindex + 1 + k)

/-- The entries behind an index are those that `logOf` finds there. -/
theorem Contiguous.drop_eq (h : rf.Contiguous) {prev : ℤ}
    (hlo : rf.lastSnapshotIncludeIndex ≤ prev) :
    (rf.logs.drop (prev - rf.lastSnapshotIncludeIndex).toNat).map Except.ok =
      (List.range (rf.getLastLogIndex - prev).toNat).map fun (k : ℕ) =>
        rf.logOf (prev + 1 + k) := by
  have hlast := h.getLastLogIndex
  refine List.ext_getElem ?_ fun k hk hk' => ?_
  · simp only [List.length_map, List.length_drop, List.length_range]
    omega
  · simp only [List.length_map, List.length_drop] at hk
    simp only [List.getElem_map, List.getElem_drop, List.getElem_range]
    refine (logOf_eq_ok.2 ⟨by omega, by omega, ?_⟩).symm
    rw [show (prev + 1 + (k : ℤ) - rf.lastSnapshotIncludeIndex - 1).toNat =
      (prev - rf.lastSnapshotIncludeIndex).toNat + k by omega]
    exact List.getElem?_eq_getElem (by omega)

theorem Contiguous.sliceOf (h : rf.Contiguous) {j : Fin n} {args : AppendEntriesArgs n C}
    (hb : rf.heartBeatTo j = .ok (.sendAppendEntries j args)) : rf.SliceOf args := by
  have hcont := h.heartBeatTo hb
  rcases heartBeatTo_cases hb with ⟨hb, -⟩ | ⟨prev, term, hget, hb⟩
  · cases hb
  obtain ⟨-, rfl⟩ := HeartBeat.sendAppendEntries.inj hb
  obtain ⟨hlo, hhi, -⟩ := getLogTermFromLogIndex_eq_ok.1 hget
  exact ⟨hhi, hget, hcont, h.drop_eq hlo⟩

/-- **No assertion of a heartbeat fails.** -/
theorem Contiguous.heartBeatTo_total (h : rf.Contiguous) {j : Fin n} (hpos : 1 ≤ rf.nextIndex j)
    (hle : rf.nextIndex j ≤ rf.getLastLogIndex + 1) :
    rf.nextIndex j ≤ rf.lastSnapshotIncludeIndex ∧ rf.heartBeatTo j = .ok (.leaderSendSnapShot j) ∨
    rf.lastSnapshotIncludeIndex < rf.nextIndex j ∧
      ∃ args, rf.heartBeatTo j = .ok (.sendAppendEntries j args) := by
  have hlast := h.getLastLogIndex
  by_cases hsnap : rf.nextIndex j ≤ rf.lastSnapshotIncludeIndex
  · refine Or.inl ⟨hsnap, ?_⟩
    simp only [Raft.heartBeatTo, bind_eq_ok]
    exact ⟨(), myAssert_eq_ok.2 hpos, by rw [if_pos hsnap]; rfl⟩
  refine Or.inr ⟨not_le.1 hsnap, ?_⟩
  -- both branches of the slicing end in the last assertion
  have hbuild : ∀ {prev term : ℤ} {entries : List (LogEntry C)},
      rf.getPrevLogInfo j = .ok (prev, term) →
      (if prev ≠ rf.lastSnapshotIncludeIndex then
          (fun slice => rf.logs.drop (slice + 1)) <$> rf.getSlicesIndexFromLogIndex prev
        else pure rf.logs) = .ok entries →
      prev + entries.length = rf.getLastLogIndex →
      ∃ args, rf.heartBeatTo j = .ok (.sendAppendEntries j args) := by
    intro prev term entries hprev hentries hend
    refine ⟨⟨rf.currentTerm, rf.me, prev, term, entries, rf.commitIndex⟩, ?_⟩
    simp only [Raft.heartBeatTo, bind_eq_ok, if_neg hsnap]
    refine ⟨(), myAssert_eq_ok.2 hpos, (prev, term), hprev, ?_⟩
    dsimp only
    split_ifs at hentries ⊢ <;>
      exact bind_eq_ok.2 ⟨entries, hentries, bind_eq_ok.2 ⟨(), myAssert_eq_ok.2 hend, rfl⟩⟩
  by_cases hfirst : rf.nextIndex j = rf.lastSnapshotIncludeIndex + 1
  · -- everything behind the snapshot point
    exact hbuild (by rw [getPrevLogInfo, if_pos hfirst]; rfl) (if_neg (not_not.2 rfl)) hlast.symm
  · obtain ⟨prev, hprev⟩ : ∃ prev, rf.nextIndex j - 1 = prev := ⟨_, rfl⟩
    have hlo : rf.lastSnapshotIncludeIndex < prev := by omega
    have hhi : prev ≤ rf.getLastLogIndex := by omega
    obtain ⟨log, hlog⟩ := h.exists_logOf hlo hhi
    have hget : rf.getPrevLogInfo j = .ok (prev, log.logterm) := by
      rw [getPrevLogInfo, if_neg hfirst, hprev]
      exact bind_eq_ok.2 ⟨log, hlog, rfl⟩
    have hslice := getSlicesIndexFromLogIndex_eq_ok.2 ⟨hlo, hhi, rfl⟩
    refine hbuild hget (by rw [if_pos hlo.ne']; exact map_eq_ok.2 ⟨_, hslice, rfl⟩) ?_
    rw [List.length_drop]
    omega

/-- What a heartbeat starts for a peer: a snapshot thread for one that is behind the snapshot
point, and for any other one a slice right behind what it is taken to have. -/
def Beats (rf : Raft n C D) (j : Fin n) (b : HeartBeat n C) : Prop :=
  rf.nextIndex j ≤ rf.lastSnapshotIncludeIndex ∧ b = .leaderSendSnapShot j ∨
    ∃ args, b = .sendAppendEntries j args ∧ args.prevlogindex = rf.nextIndex j - 1 ∧
      rf.SliceOf args

theorem Contiguous.doHeartBeat (h : rf.Contiguous) (hl : rf.status = .leader)
    (hk : rf.KnowsPeers) : ∃ beats, rf.doHeartBeat = .ok (some beats) ∧
      List.Forall₂ rf.Beats (peers rf.me) beats := by
  have htotal := fun j => h.heartBeatTo_total (hk.next_pos j) (hk.next_le j)
  obtain ⟨beats, hbeats⟩ : ∃ beats, (peers rf.me).mapM rf.heartBeatTo = .ok beats := by
    refine exists_mapM_eq_ok fun j _ => ?_
    rcases htotal j with ⟨-, hb⟩ | ⟨-, args, hb⟩
    · exact ⟨_, hb⟩
    · exact ⟨_, hb⟩
  refine ⟨beats, ?_, (forall₂_of_mapM hbeats).imp fun j b hb => ?_⟩
  · unfold Raft.doHeartBeat
    rw [if_pos hl, hbeats]
    rfl
  · rcases htotal j with ⟨hle, hj⟩ | ⟨-, args, hj⟩ <;> rw [hj] at hb <;> cases hb
    · exact Or.inl ⟨hle, rfl⟩
    · exact Or.inr ⟨args, rfl, heartBeatTo_prev hj, h.sliceOf hj⟩

end Raft

namespace Crashing

variable {n : ℕ} {C D : Type} [DecidableEq C] {s : Crashing n C D}

/-- **Heartbeats are slices of the log**, in every reachable state of a leader: whatever replies,
refusals and snapshot completions it has processed, of any age and in any order, the next index
of a peer is within one of the end of its log, no assertion of `doHeartBeat` fails, and what it
builds carries the leader's own entries. -/
theorem heartbeats (h : (machine n C D).Reachable init s) {i : Fin n}
    (hl : (s.cluster.raft i).status = .leader) :
    (∀ j, 1 ≤ (s.cluster.raft i).nextIndex j ∧
      (s.cluster.raft i).nextIndex j ≤ (s.cluster.raft i).getLastLogIndex + 1) ∧
    ∃ beats, (s.cluster.raft i).doHeartBeat = .ok (some beats) ∧
      List.Forall₂ (s.cluster.raft i).Beats (peers (s.cluster.raft i).me) beats := by
  have ht := (tidy_of_reachable h).cluster
  have hk := ht.leader i hl
  exact ⟨fun j => ⟨hk.next_pos j, hk.next_le j⟩,
    (ht.node i).contiguous.doHeartBeat hl hk⟩

/-- Node `0` has compacted its first entry, which node `1` has and node `2` has not, and has made
another one. -/
def slicesRun : List (CrashAction 3 String Unit) :=
  appliedRun ++ [.act (.snapshot 0 ()), .act (.start 0 "y")]

theorem heartbeats_slicesRun : ∃ s, (machine 3 String Unit).run init slicesRun = some s ∧
    (s.cluster.raft 0).nextIndex 1 = 2 ∧ (s.cluster.raft 0).lastSnapshotIncludeIndex = 1 ∧
      (∀ j, 1 ≤ (s.cluster.raft 0).nextIndex j ∧
        (s.cluster.raft 0).nextIndex j ≤ (s.cluster.raft 0).getLastLogIndex + 1) ∧
      ∃ beats, (s.cluster.raft 0).doHeartBeat = .ok (some beats) ∧
        List.Forall₂ (s.cluster.raft 0).Beats (peers (s.cluster.raft 0).me) beats := by
  have h : ((machine 3 String Unit).run init slicesRun).map (fun s =>
      ((s.cluster.raft 0).status, (s.cluster.raft 0).nextIndex 1,
        (s.cluster.raft 0).lastSnapshotIncludeIndex)) = some (.leader, 2, 1) := by decide +kernel
  obtain ⟨s, hs, h⟩ := Option.map_eq_some_iff.1 h
  obtain ⟨hl, hfields⟩ := Prod.mk.inj h
  obtain ⟨hnext, hsnap⟩ := Prod.mk.inj hfields
  exact ⟨s, hs, hnext, hsnap, heartbeats (Machine.reachable_of_run hs) hl⟩

end Crashing

end KvRaft
