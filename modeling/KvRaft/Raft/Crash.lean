import KvRaft.Raft.Cluster

/-!
# Clusters whose nodes restart

A process may end at any time and be started again on what it handed to its persister last, read
back as it was.  Its queues, counters and indices are gone, and so are its threads: requests that
are on their way still arrive, but nobody processes the replies.

* `Crashing n C D` : a cluster, and for every node how many threads were started before its
  process was.
* `Crashing.step` : a step of the cluster that no dead thread takes, or a restart.
-/

namespace KvRaft

/-- The node whose process runs a thread. -/
def Thread.owner {n : ℕ} {C D : Type} : Thread n C D → Fin n
  | .sendRequestVote me _ _ _ _ | .sendAppendEntries me _ _ _ _ | .leaderSendSnapShot me _ _
  | .pushMsgToKvServer me _ _ => me

/-- A push thread of node `i` pushes nothing any more. -/
def Thread.stop {n : ℕ} {C D : Type} (i : Fin n) : Thread n C D → Thread n C D
  | .pushMsgToKvServer me msg pushed => .pushMsgToKvServer me msg (pushed || decide (me = i))
  | t => t

/-- A cluster whose nodes restart. -/
structure Crashing (n : ℕ) (C D : Type) where
  cluster : Cluster n C D
  /-- The threads of a node before this position belong to earlier processes. -/
  since : Fin n → ℕ

/-- A step of the cluster, or a restart. -/
inductive CrashAction (n : ℕ) (C D : Type) where
  | act (a : Action n C D)
  | restart (i : Fin n)

namespace Crashing

variable {n : ℕ} {C D : Type}

def init : Crashing n C D where
  cluster := .init
  since _ := 0

/-- Thread `k` belongs to a process that has ended. -/
def Dead (s : Crashing n C D) (k : ℕ) : Prop :=
  ∃ t ∈ s.cluster.threads[k]?, k < s.since t.owner

instance (s : Crashing n C D) (k : ℕ) : Decidable (s.Dead k) := by
  unfold Dead
  infer_instance

/-- The action is taken by a thread that is no more. -/
def TakenByDead (s : Crashing n C D) : Action n C D → Prop
  | .reply k | .leaderSendSnapShot k _ => s.Dead k
  | _ => False

instance (s : Crashing n C D) (a : Action n C D) : Decidable (s.TakenByDead a) := by
  unfold TakenByDead
  split <;> infer_instance

/-- The process of node `i` ends, and another one is started. -/
def restart (s : Crashing n C D) (i : Fin n) : Crashing n C D where
  cluster := { s.cluster with
    procs := Function.update s.cluster.procs i
      { raft := Raft.init i (s.cluster.raft i).persister }
    threads := s.cluster.threads.map (Thread.stop i) }
  since := Function.update s.since i s.cluster.threads.length

def step [DecidableEq C] (s : Crashing n C D) : CrashAction n C D → Option (Crashing n C D)
  | .act a =>
    if s.TakenByDead a then none
    else (s.cluster.step a).map fun c => { s with cluster := c }
  | .restart i => some (s.restart i)

variable (n C D) in
/-- A cluster with restarts as a machine. -/
def machine [DecidableEq C] : Machine (Crashing n C D) (CrashAction n C D) := ⟨step⟩

/-- **Every step is one of the cluster or a restart.** -/
theorem step_cases [DecidableEq C] {s s' : Crashing n C D} {a : CrashAction n C D}
    (h : s.step a = some s') :
    (∃ b c, a = .act b ∧ s.cluster.step b = some c ∧ s' = { s with cluster := c }) ∨
      ∃ i, a = .restart i ∧ s' = s.restart i := by
  cases a with
  | act b =>
    simp only [step] at h
    split_ifs at h
    obtain ⟨c, hc, rfl⟩ := Option.map_eq_some_iff.1 h
    exact Or.inl ⟨b, c, rfl, hc, rfl⟩
  | restart i => exact Or.inr ⟨i, rfl, (Option.some.inj h).symm⟩

theorem restart_raft (s : Crashing n C D) (i j : Fin n) : (s.restart i).cluster.raft j =
    if j = i then Raft.init i (s.cluster.raft i).persister else s.cluster.raft j := by
  simp only [restart, Cluster.raft, Function.update_apply]
  split_ifs <;> rfl

/-- A process that was not restarted is as it was. -/
theorem restart_procs (s : Crashing n C D) (i j : Fin n) : (s.restart i).cluster.procs j =
    if j = i then { raft := Raft.init i (s.cluster.raft i).persister } else s.cluster.procs j := by
  simp only [restart, Function.update_apply]

/-- What is known about all threads is known after a restart, up to push threads of the node. -/
theorem mem_restart_threads {s : Crashing n C D} {i : Fin n} {t : Thread n C D}
    (h : t ∈ (s.restart i).cluster.threads) : t ∈ s.cluster.threads ∧
      (∀ msg, t ≠ .pushMsgToKvServer i msg false) ∨ ∃ msg, t = .pushMsgToKvServer i msg true := by
  obtain ⟨u, hu, rfl⟩ := List.mem_map.1 h
  cases u with
  | pushMsgToKvServer me msg pushed =>
    by_cases hme : me = i
    · subst hme
      exact Or.inr ⟨msg, by simp [Thread.stop]⟩
    · exact Or.inl ⟨by simpa [Thread.stop, hme] using hu, by simp [Thread.stop, hme]⟩
  | sendRequestVote | sendAppendEntries | leaderSendSnapShot =>
    exact Or.inl ⟨hu, by simp [Thread.stop]⟩

end Crashing

end KvRaft
