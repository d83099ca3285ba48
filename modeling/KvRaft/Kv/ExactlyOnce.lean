import KvRaft.Kv.Once
import KvRaft.Kv.Requests

/-!
# Exactly-once writes

Each server of a service with consensus executes a write exactly when it is the first command
with its client and request number, unless a delayed Get sets the entry of its client back
(`Service.exactly_once`); `Service.not_exactly_once` is a run in which that happens and a write
takes effect twice.
-/

namespace KvRaft

open Session

/-- Every Put and Append takes effect once: at the first command with its client and number. -/
structure KvProcess.ExactlyOnce (p : KvProcess) : Prop where
  wrote : ∀ (k : ℕ) (x : Applied), p.applied[k]? = some x →
    (x.wrote = true ↔ x.op.isWrite = true ∧ ∀ op ∈ p.ops.take k, op.tag ≠ x.op.tag)
  effects : p.Effects

namespace Service

variable {m s : ℕ} {ids : Fin m → String} {S S' : Service m s} {a : ServiceAction m s}

/-- The condition on a step of a service: no Get that reads lowers an entry. -/
def NoRewind (S : Service m s) : ServiceAction m s → Prop
  | .server j a => (S.servers j).NoRewind a
  | _ => True

instance (S : Service m s) (a : ServiceAction m s) : Decidable (S.NoRewind a) := by
  induction a using ServiceAction.casesOn <;> dsimp only [NoRewind] <;> infer_instance

/-- What a server has still to apply goes on with the committed log. -/
theorem Replicated.sequential_pending (hids : Function.Injective ids) (hn : Numbered ids S)
    (hr : Replicated ids S) {j : Fin (s + 1)} {op : Op}
    (h : (S.servers j).loop.pending = some op) : Sequential Op.tag ((S.servers j).ops ++ [op]) := by
  refine (hr.sequential hids hn).of_isPrefix (isPrefix_snoc (hr.ops j) ?_)
  rw [KvProcess.length_ops]
  exact hr.pending j op h

theorem once_step (hids : Function.Injective ids) (hn : Numbered ids S) (hr : Replicated ids S)
    (ho : ∀ j, (S.servers j).Once) (hrew : S.NoRewind a) (hst : S.step a = some S')
    (j : Fin (s + 1)) : (S'.servers j).Once := by
  cases moves_of_step hst with
  | call | retry =>
    rw [send_servers]
    exact (ho j).frame rfl (fun c last hl => ⟨last, hl, le_rfl⟩) (ho j).fresh
  | server j' a p hall hp =>
    rw [setServer_servers]
    split_ifs with hj
    · subst hj
      refine (ho j).step (hn.sound j) hrew (fun data term index h => ?_)
        (fun op h => hr.sequential_pending hids hn h) hp
      subst h
      cases hall
    · exact ho j
  | again | answer | commit => exact ho j

/-- **Exactly-once writes**, if no Get lowers an entry. -/
theorem exactly_once (hids : Function.Injective ids)
    (h : (machine m s).Reaches (fun S a => S.Consensus a ∧ S.NoRewind a) (init ids) S)
    (j : Fin (s + 1)) : (S.servers j).ExactlyOnce := by
  obtain ⟨hn, -, ho⟩ := h.invariant
    (I := fun S => Numbered ids S ∧ Replicated ids S ∧ ∀ j, (S.servers j).Once)
    ⟨numbered_init ids, replicated_init ids, fun j => KvProcess.once_init⟩
    fun S a S' ⟨hn, hr, ho⟩ ⟨hc, hrew⟩ hst =>
      ⟨hn.step hst, hr.step hids hn hc hst, fun j => once_step hids hn hr ho hrew hst j⟩
  exact ⟨(ho j).wrote, (hn.sound j).effects⟩

/-! ### Runs -/

/-- The commands of two clerks: a Get and a Put of clerk `c`, a Put of clerk `d`. -/
def getC : Op := ⟨.get, "k", "", "c", 1⟩

def putC : Op := ⟨.put, "k", "a", "c", 2⟩

def putD : Op := ⟨.put, "k", "b", "d", 1⟩

/-- Clerk `c` gets and puts, and both calls are answered at their second RPC; in between clerk `d`
puts.  The handler of the first Get reads when `rest` lets it. -/
def retriedCalls (rest : List (ServiceAction 2 0)) : List (ServiceAction 2 0) :=
  [.call 0 (.get "k")] ++ takes first 0 1 ++ [.commit 0] ++ executes first getC 1 ++
  [runs first 0, .fail 0, .retry 0] ++ takes first 1 2 ++ [.commit 1] ++ executes first getC 2 ++
  [runs first 1, runs first 1, runs first 1, .reply 0, .call 0 (.put "k" "a")] ++
  takes first 2 3 ++ [.commit 2] ++ executes first putC 3 ++
  [.fail 0, .retry 0, .call 1 (.put "k" "b")] ++ takes first 4 4 ++ [.commit 3] ++
  executes first putD 4 ++ takes first 3 5 ++ [.commit 4] ++ rest

/-- The handler of the first Get never reads. -/
def timelyGet : List (ServiceAction 2 0) := retriedCalls (passes first putC 5)

theorem timelyGet_eq : ((machine 2 0).runWhere (fun S a => S.Consensus a ∧ S.NoRewind a)
    (init twoIds) timelyGet).map
      (fun S => (S.servers 0).applied.map fun x => (x.op, x.wrote)) =
    some [(getC, false), (getC, false), (putC, true), (putD, true), (putC, false)] := by
  decide +kernel

theorem exactly_once_timelyGet : ∃ S, (machine 2 0).runWhere
    (fun S a => S.Consensus a ∧ S.NoRewind a) (init twoIds) timelyGet = some S ∧
      (S.servers 0).applied.length = 5 ∧ (S.servers 0).ExactlyOnce := by
  obtain ⟨S, hS, h⟩ := Option.map_eq_some_iff.1 timelyGet_eq
  exact ⟨S, hS, by simpa using congrArg List.length h,
    exactly_once twoIds_injective (Machine.reaches_of_runWhere hS) 0⟩

/-- The handler of the first Get reads just before the Put of `c` is applied again. -/
def delayedGet : List (ServiceAction 2 0) :=
  retriedCalls (runs first 0 :: executes first putC 5)

theorem delayedGet_eq : ((machine 2 0).runWhere Consensus (init twoIds) delayedGet).map
    (fun S => ((S.servers 0).applied.map fun x => (x.op, x.wrote), (S.servers 0).kv.skipList "k")) =
    some ([(getC, false), (getC, false), (putC, true), (putD, true), (putC, true)], some "a") := by
  decide +kernel

/-- A delayed Get lets a retried Put take effect twice, over the Put of another clerk. -/
theorem not_exactly_once : ¬ ∀ S : Service 2 0,
    (machine 2 0).Reaches Consensus (init twoIds) S → ∀ j, (S.servers j).ExactlyOnce := by
  intro hall
  obtain ⟨S, hS, h⟩ := Option.map_eq_some_iff.1 delayedGet_eq
  have happ := (Prod.mk.inj h).1
  have hops : (S.servers 0).ops = [getC, getC, putC, putD, putC] := by
    have := congrArg (List.map Prod.fst) happ
    rwa [List.map_map] at this
  have hlast := congrArg (fun l => l[4]?) happ
  rw [List.getElem?_map] at hlast
  obtain ⟨x, hx, hxe⟩ := Option.map_eq_some_iff.1 hlast
  obtain ⟨hop, hwrote⟩ := Prod.mk.inj hxe
  have hne := ((hall S (Machine.reaches_of_runWhere hS) 0).wrote 4 x hx).1 hwrote
  rw [hops, hop] at hne
  exact hne.2 putC (by simp) rfl

end Service

end KvRaft
