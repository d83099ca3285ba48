import KvRaft.Raft.Tidy

/-!
# What a leader knows to be replicated

`sendAppendEntries` takes `matchIndex` to the maximum of what it was and what the reply confirms.
`leaderSendSnapShot` assigns the index of the snapshot that it has sent, which may be long ago:
every heartbeat starts another thread for a peer that is behind the snapshot point.

* `Crashing.CompletesInOrder` : the condition on a step, that a snapshot completion which a leader
  takes is not behind what it knows.
* `Crashing.match_monotone` : in every run that meets the condition `matchIndex` does not go back
  while a node leads a term.
-/

namespace KvRaft

open Raft

namespace Crashing

variable {n : ℕ} {C D : Type} {s s' : Crashing n C D} {i : Fin n} {T : ℤ}

/-- Node `i` leads term `T`. -/
def Leads (s : Crashing n C D) (i : Fin n) (T : ℤ) : Prop :=
  (s.cluster.raft i).status = .leader ∧ (s.cluster.raft i).currentTerm = T

/-- The condition on a step: a snapshot that is completed for node `i` as a leader is not behind
what it knows the peer to have. -/
def CompletesInOrder (s : Crashing n C D) (i : Fin n) : CrashAction n C D → Prop
  | .act (.reply k) => match s.cluster.threads[k]? with
    | some (.leaderSendSnapShot me server (some (args, .replied r))) =>
      me = i → s.Leads i args.term → r.term ≤ args.term →
        (s.cluster.raft i).matchIndex server ≤ args.lastsnapshotincludeindex
    | _ => True
  | _ => True

instance (s : Crashing n C D) (i : Fin n) (T : ℤ) : Decidable (s.Leads i T) := by
  unfold Leads
  infer_instance

instance (s : Crashing n C D) (i : Fin n) (a : CrashAction n C D) :
    Decidable (s.CompletesInOrder i a) := by
  induction a using CrashAction.casesOn with
  | act a =>
    induction a using Action.casesOn with
    | reply k =>
      dsimp only [CompletesInOrder]
      rcases s.cluster.threads[k]? with _ | _ | _ | ⟨_, _, _ | ⟨_, _ | _⟩⟩ | _ <;> infer_instance
    | _ => dsimp only [CompletesInOrder]; infer_instance
  | restart => dsimp only [CompletesInOrder]; infer_instance

variable [DecidableEq C] {a : CrashAction n C D}

/-- A step that completes no outdated snapshot keeps what the leader knows. -/
theorem match_le_step (hl : s.Leads i T) (hg : s.CompletesInOrder i a) (hst : s.step a = some s')
    (hl' : s'.Leads i T) (j : Fin n) :
    (s.cluster.raft i).matchIndex j ≤ (s'.cluster.raft i).matchIndex j := by
  obtain ⟨b, c, rfl, hc, rfl⟩ | ⟨m, rfl, rfl⟩ := step_cases hst
  · cases Cluster.peerMoves (Cluster.moves_of_step hc) hl'.1 with
    | same _ _ hmatch => exact (congrFun hmatch j).ge
    | elected hnot => exact absurd hl.1 hnot
    | replied k server args p reply num _ _ _ _ hreply =>
      rcases (hreply.peers hl'.1).2 with ⟨hmatch, -⟩ | ⟨-, -, -, hmatch, -⟩ | ⟨-, -, hmatch, -⟩
      · exact (congrFun hmatch j).ge
      · exact (congrFun hmatch j).ge
      · rw [hmatch, Function.update_apply]
        split_ifs with hj
        · exact hj ▸ le_max_left _ _
        · exact le_rfl
    | snapshotReply k server args reply hb hk hlead hterm hle heq =>
      subst hb
      simp only [CompletesInOrder, hk] at hg
      rw [heq]
      dsimp only
      rw [Function.update_apply]
      split_ifs with hj
      · exact hj ▸ hg trivial ⟨hlead, hterm⟩ (hterm ▸ hle)
      · exact le_rfl
  · -- a node that restarts does not lead
    have hrole := hl'.1
    rw [restart_raft] at hrole ⊢
    split_ifs at hrole ⊢
    · rw [(init_commitIndex m _).2] at hrole
      cases hrole
    · exact le_rfl

/-- **What a leader knows to be replicated is not forgotten**, as long as it leads its term and
completes no snapshot that is behind it, whatever replies it processes, of any age and in any
order. -/
theorem match_monotone
    (h : (machine n C D).Reaches (fun s a => s.Leads i T ∧ s.CompletesInOrder i a) s s')
    (hl : s'.Leads i T) (j : Fin n) :
    (s.cluster.raft i).matchIndex j ≤ (s'.cluster.raft i).matchIndex j := by
  induction h with
  | refl => exact le_rfl
  | tail _ hg hst ih => exact (ih hg.1).trans (match_le_step hg.1 hg.2 hst hl j)

/-- Node `0` has compacted its only entry, which node `2` does not have. -/
def behindRun : List (CrashAction 3 String Unit) := appliedRun ++ [.act (.snapshot 0 ())]

/-- Two heartbeats start a snapshot thread for node `2` each.  The first one completes, and the
node acknowledges another entry. -/
def twoSnapshots : List (CrashAction 3 String Unit) :=
  [.act (.doHeartBeat 0), .act (.doHeartBeat 0), .act (.leaderSendSnapShot 5 ()),
    .act (.leaderSendSnapShot 7 ()), .act (.deliver 5), .act (.reply 5), .act (.start 0 "y"),
    .act (.doHeartBeat 0), .act (.deliver 10), .act (.reply 10)]

theorem match_monotone_twoSnapshots : ∃ s s',
    (machine 3 String Unit).run init behindRun = some s ∧
      (machine 3 String Unit).runWhere (fun s a => s.Leads 0 1 ∧ s.CompletesInOrder 0 a) s
        twoSnapshots = some s' ∧ (s'.cluster.raft 0).matchIndex 2 = 2 ∧
      (s.cluster.raft 0).matchIndex 2 ≤ (s'.cluster.raft 0).matchIndex 2 := by
  have h : (((machine 3 String Unit).run init behindRun).bind fun s =>
      ((machine 3 String Unit).runWhere (fun s a => s.Leads 0 1 ∧ s.CompletesInOrder 0 a) s
        twoSnapshots).map fun s' => (decide (s'.Leads 0 1), (s'.cluster.raft 0).matchIndex 2)) =
        some (true, 2) := by decide +kernel
  obtain ⟨s, hs, h⟩ := Option.bind_eq_some_iff.1 h
  obtain ⟨s', hs', h⟩ := Option.map_eq_some_iff.1 h
  obtain ⟨hl, hmatch⟩ := Prod.mk.inj h
  exact ⟨s, s', hs, hs', hmatch,
    match_monotone (Machine.reaches_of_runWhere hs') (of_decide_eq_true hl) 2⟩

/-- The second snapshot thread completes at last, and node `0` forgets the acknowledgement. -/
theorem not_match_monotone : ¬ ∀ s s', (machine 3 String Unit).Reachable init s →
    ∀ i T, (machine 3 String Unit).Reaches (fun s _ => s.Leads i T) s s' → s'.Leads i T →
      ∀ j, (s.cluster.raft i).matchIndex j ≤ (s'.cluster.raft i).matchIndex j := by
  intro hall
  have h : (((machine 3 String Unit).run init (behindRun ++ twoSnapshots)).bind fun s =>
      ((machine 3 String Unit).runWhere (fun s _ => s.Leads 0 1) s
        [.act (.deliver 7), .act (.reply 7)]).map fun s' =>
          (decide (s'.Leads 0 1),
            (s.cluster.raft 0).matchIndex 2, (s'.cluster.raft 0).matchIndex 2)) =
        some (true, 2, 1) := by decide +kernel
  obtain ⟨s, hs, h⟩ := Option.bind_eq_some_iff.1 h
  obtain ⟨s', hs', h⟩ := Option.map_eq_some_iff.1 h
  obtain ⟨hl, hfields⟩ := Prod.mk.inj h
  obtain ⟨hmatch, hmatch'⟩ := Prod.mk.inj hfields
  have := hall s s' (Machine.reachable_of_run hs) 0 1 (Machine.reaches_of_runWhere hs')
    (of_decide_eq_true hl) 2
  omega

end Crashing

end KvRaft
