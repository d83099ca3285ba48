import KvRaft.Raft.Effects
import Mathlib.Data.List.Perm.Basic

/-!
# The order in which messages are pushed

`getApplyLogs` and `installSnapshot` fix under the lock what the state machine is to be told, and
advance `lastApplied` over it.  The messages are pushed later without the lock, the commands by
`applierTicker` and each snapshot by a thread of its own.

## Main definitions

* `Cluster.pushed` : the messages of a node in the order in which they entered `applyChan`.
* `NoGap` : a command follows the index before it, a snapshot goes beyond all indices before it.
* `Cluster.PushesInOrder` : the condition on a step.  A node accepts only snapshots beyond
  `lastApplied`, and pushes a message when no message of a smaller index waits.
* `Cluster.Queued` : the invariant.  Some order of the waiting messages carries the stream on to
  `lastApplied`.

`Cluster.apply_stream` : streams have no gap in every run whose steps meet the condition.
`Cluster.not_apply_stream` : without the condition they have.
-/

namespace KvRaft

open Raft

/-! ### Streams without gaps -/

section Stream

variable {C D : Type}

/-- The index of the last message, `last` if there is none. -/
def lastIndex : ℤ → List (ApplyMsg C D) → ℤ
  | last, [] => last
  | _, msg :: msgs => lastIndex msg.index msgs

/-- **The stream has no gap and never goes back.** -/
def NoGap (msgs : List (ApplyMsg C D)) : Prop :=
  ∀ before msg after, msgs = before ++ msg :: after →
    match msg with
    | .command _ index => index = 1 + lastIndex 0 before
    | .snapshot _ _ index => ∀ m ∈ before, m.index < index

/-- The stream goes on after index `last` without a gap. -/
def InSequence : ℤ → List (ApplyMsg C D) → Prop
  | _, [] => True
  | last, .command _ index :: msgs => index = last + 1 ∧ InSequence index msgs
  | last, .snapshot _ _ index :: msgs => last < index ∧ InSequence index msgs

variable {last : ℤ} {msg : ApplyMsg C D} {msgs msgs' : List (ApplyMsg C D)}

@[simp] theorem lastIndex_append :
    lastIndex last (msgs ++ msgs') = lastIndex (lastIndex last msgs) msgs' := by
  induction msgs generalizing last with
  | nil => rfl
  | cons msg msgs ih => exact ih

theorem InSequence.head (h : InSequence last (msg :: msgs)) :
    last < msg.index ∧ InSequence msg.index msgs := by
  cases msg with
  | command command index => exact ⟨by rw [h.1]; exact Int.lt_succ last, h.2⟩
  | snapshot data term index => exact h

theorem inSequence_append : InSequence last (msgs ++ msgs') ↔
    InSequence last msgs ∧ InSequence (lastIndex last msgs) msgs' := by
  induction msgs generalizing last with
  | nil => simp [InSequence, lastIndex]
  | cons msg msgs ih =>
    cases msg <;> simp only [List.cons_append, InSequence, lastIndex, ih, and_assoc,
      ApplyMsg.index]

/-- The indices increase. -/
theorem InSequence.lt_index (h : InSequence last msgs) : ∀ m ∈ msgs, last < m.index := by
  induction msgs generalizing last with
  | nil => intro m hm; cases hm
  | cons msg msgs ih =>
    intro m hm
    obtain ⟨hlt, hrest⟩ := h.head
    rcases List.mem_cons.1 hm with rfl | hm
    · exact hlt
    · exact hlt.trans (ih hrest m hm)

theorem InSequence.index_le (h : InSequence last msgs) :
    last ≤ lastIndex last msgs ∧ ∀ m ∈ msgs, m.index ≤ lastIndex last msgs := by
  induction msgs generalizing last with
  | nil => exact ⟨le_rfl, fun m hm => by cases hm⟩
  | cons msg msgs ih =>
    obtain ⟨hlt, hrest⟩ := h.head
    obtain ⟨hle, hall⟩ := ih hrest
    refine ⟨hlt.le.trans hle, fun m hm => ?_⟩
    rcases List.mem_cons.1 hm with rfl | hm
    · exact hle
    · exact hall m hm

theorem InSequence.noGap (h : InSequence 0 msgs) : NoGap msgs := by
  rintro before msg after rfl
  obtain ⟨hbefore, hafter⟩ := inSequence_append.1 h
  cases msg with
  | command command index => exact hafter.1.trans (Int.add_comm _ _)
  | snapshot data term index =>
    intro m hm
    exact (hbefore.index_le.2 m hm).trans_lt hafter.1

/-- The message of the least index comes first. -/
theorem InSequence.eq_head (h : InSequence last msgs) (hm : msg ∈ msgs)
    (hle : ∀ m ∈ msgs, msg.index ≤ m.index) : ∃ rest, msgs = msg :: rest := by
  cases msgs with
  | nil => cases hm
  | cons first rest =>
    rcases List.mem_cons.1 hm with rfl | hm
    · exact ⟨rest, rfl⟩
    · have hlt := h.head.2.lt_index msg hm
      exact absurd (hle first List.mem_cons_self) (not_le.2 hlt)

/-- The commands that `getApplyLogs` takes. -/
theorem inSequence_of_getElem (h : ∀ (k : ℕ) (msg : ApplyMsg C D), msgs[k]? = some msg →
    ∃ command, msg = .command command (last + 1 + k)) :
    InSequence last msgs ∧ lastIndex last msgs = last + msgs.length := by
  induction msgs generalizing last with
  | nil => simp [InSequence, lastIndex]
  | cons msg msgs ih =>
    obtain ⟨command, rfl⟩ := h 0 msg rfl
    have hrest : ∀ (k : ℕ) (msg : ApplyMsg C D), msgs[k]? = some msg →
        ∃ command, msg = .command command (last + 1 + 1 + k) := by
      intro k msg hk
      obtain ⟨command, rfl⟩ := h (k + 1) msg (by simpa using hk)
      refine ⟨command, ?_⟩
      push_cast
      congr 1
      omega
    obtain ⟨hseq, hlast⟩ := ih hrest
    have hindex : last + 1 + ((0 : ℕ) : ℤ) = last + 1 := by omega
    refine ⟨⟨hindex, by rwa [hindex]⟩, ?_⟩
    rw [lastIndex, ApplyMsg.index, hindex, hlast, List.length_cons]
    push_cast
    omega

end Stream

/-- The message that the thread is still to push for node `i`. -/
def Thread.pending {n : ℕ} {C D : Type} (i : Fin n) : Thread n C D → Option (ApplyMsg C D)
  | .pushMsgToKvServer me msg false => if me = i then some msg else none
  | _ => none

/-- An element that is dropped. -/
theorem filterMap_set_perm {α β : Type} {f : α → Option β} {l : List α} {k : ℕ} {a a' : α} {b : β}
    (hk : l[k]? = some a) (ha : f a = some b) (ha' : f a' = none) :
    (l.filterMap f).Perm (b :: (l.set k a').filterMap f) := by
  induction l generalizing k with
  | nil => cases hk
  | cons x l ih =>
    cases k with
    | zero =>
      obtain rfl : x = a := by simpa using hk
      simp [ha, ha']
    | succ k =>
      have := ih (k := k) (by simpa using hk)
      cases hx : f x with
      | none => simpa [List.filterMap_cons, hx] using this
      | some y =>
        simp only [List.set_cons_succ, List.filterMap_cons, hx]
        exact (this.cons y).trans (.swap b y _)

namespace Cluster

variable {n : ℕ} {C D : Type} {c c' : Cluster n C D} {a : Action n C D} {i : Fin n}

/-- The messages of node `i` in the order in which they entered `applyChan`. -/
def pushed (c : Cluster n C D) (i : Fin n) : List (ApplyMsg C D) :=
  (c.procs i).consumed ++ (c.procs i).applyChan

/-- The snapshots that threads of node `i` are still to push. -/
def pending (c : Cluster n C D) (i : Fin n) : List (ApplyMsg C D) :=
  c.threads.filterMap (Thread.pending i)

/-- The messages that are still to be pushed. -/
def waiting (c : Cluster n C D) (i : Fin n) : List (ApplyMsg C D) :=
  (c.procs i).applyMsgs ++ c.pending i

/-- The condition on a step: an accepted snapshot goes beyond `lastApplied`, and no message of a
smaller index waits when a message is pushed. -/
def PushesInOrder (c : Cluster n C D) : Action n C D → Prop
  | .deliver k => match c.threads[k]? with
    | some (.leaderSendSnapShot _ server (some (args, .calling))) =>
      (c.raft server).currentTerm ≤ args.term →
      (c.raft server).lastSnapshotIncludeIndex < args.lastsnapshotincludeindex →
      (c.raft server).lastApplied < args.lastsnapshotincludeindex
    | _ => True
  | .pushApplyMsg i => match (c.procs i).applyMsgs with
    | msg :: _ => ∀ m ∈ c.waiting i, msg.index ≤ m.index
    | [] => True
  | .pushMsgToKvServer k => match c.threads[k]? with
    | some (.pushMsgToKvServer me msg false) => ∀ m ∈ c.waiting me, msg.index ≤ m.index
    | _ => True
  | _ => True

instance (c : Cluster n C D) (a : Action n C D) : Decidable (c.PushesInOrder a) := by
  induction a using Action.casesOn with
  | deliver k =>
    dsimp only [PushesInOrder]
    rcases c.threads[k]? with _ | _ | _ | ⟨_, _, _ | ⟨_, _ | _⟩⟩ | _ <;> infer_instance
  | pushApplyMsg i =>
    dsimp only [PushesInOrder]
    rcases (c.procs i).applyMsgs with _ | _ <;> infer_instance
  | pushMsgToKvServer k =>
    dsimp only [PushesInOrder]
    rcases c.threads[k]? with _ | _ | _ | _ | ⟨_, _, _ | _⟩ <;> infer_instance
  | _ => dsimp only [PushesInOrder]; infer_instance

/-- **What a step can do to the stream of node `i`.** -/
inductive StreamMoves (c : Cluster n C D) (a : Action n C D) (c' : Cluster n C D) (i : Fin n) :
    Prop
  | same : c'.pushed i = c.pushed i → c'.waiting i = c.waiting i →
      (c'.raft i).lastApplied = (c.raft i).lastApplied → StreamMoves c a c' i
  /-- `applierTicker` takes the committed entries. -/
  | take (msgs : List (ApplyMsg C D)) : c'.pushed i = c.pushed i →
      (c.waiting i ++ msgs).Perm (c'.waiting i) →
      InSequence (c.raft i).lastApplied msgs →
      (c'.raft i).lastApplied = lastIndex (c.raft i).lastApplied msgs → StreamMoves c a c' i
  /-- A snapshot is accepted. -/
  | accept (data : D) (term index : ℤ) : c'.pushed i = c.pushed i →
      c'.waiting i = c.waiting i ++ [.snapshot data term index] →
      (c.PushesInOrder a → (c.raft i).lastApplied < index) →
      (c'.raft i).lastApplied = max (c.raft i).lastApplied index → StreamMoves c a c' i
  | push (msg : ApplyMsg C D) : c'.pushed i = c.pushed i ++ [msg] →
      (c.waiting i).Perm (msg :: c'.waiting i) →
      (c.PushesInOrder a → ∀ m ∈ c.waiting i, msg.index ≤ m.index) →
      (c'.raft i).lastApplied = (c.raft i).lastApplied → StreamMoves c a c' i

/-- A step of another node. -/
theorem StreamMoves.other {i₀ : Fin n} {p : Process n C D}
    (hprocs : ∀ j, c'.procs j = if j = i₀ then p else c.procs j) (hne : i ≠ i₀)
    (hpending : c'.pending i = c.pending i) : StreamMoves c a c' i := by
  have hi : c'.procs i = c.procs i := by rw [hprocs, if_neg hne]
  refine .same ?_ ?_ ?_
  · simp only [pushed, hi]
  · rw [waiting, hi, hpending, waiting]
  · rw [raft, hi, raft]

/-- A step that hands out nothing. -/
theorem StreamMoves.quiet {i₀ : Fin n} {p : Process n C D}
    (hprocs : ∀ j, c'.procs j = if j = i₀ then p else c.procs j)
    (hpushed : p.consumed ++ p.applyChan = c.pushed i₀)
    (hmsgs : p.applyMsgs = (c.procs i₀).applyMsgs)
    (happ : p.raft.lastApplied = (c.raft i₀).lastApplied)
    (hpending : c'.pending i = c.pending i) : StreamMoves c a c' i := by
  by_cases heq : i = i₀
  · subst heq
    have hi : c'.procs i = p := by rw [hprocs, if_pos rfl]
    refine .same ?_ ?_ ?_
    · rw [Cluster.pushed, hi, hpushed]
    · rw [waiting, hi, hmsgs, hpending, waiting]
    · rw [raft, hi, happ]
  · exact .other hprocs heq hpending

/-- A call that goes on. -/
theorem pending_setThread {k : ℕ} {t t' : Thread n C D} (hk : c.threads[k]? = some t)
    (hthreads : c'.threads = c.threads.set k t') (ht : Thread.pending i t' = Thread.pending i t) :
    c'.pending i = c.pending i := by
  have hmap := map_set_of_eq (Thread.pending i) hk ht
  rw [pending, pending, hthreads, ← Function.id_comp (Thread.pending i), ← List.filterMap_map,
    hmap, List.filterMap_map]

/-- The calls of an election or a heartbeat. -/
theorem pending_spawn {ts : List (Thread n C D)} (h : ∀ t ∈ ts, Thread.pending i t = none)
    (hthreads : c'.threads = c.threads ++ ts) : c'.pending i = c.pending i := by
  rw [pending, hthreads, List.filterMap_append, List.filterMap_eq_nil_iff.2 h, List.append_nil,
    pending]

/-- A follower that accepts a snapshot starts a thread to push it. -/
theorem streamMoves_installSnapshot {k : ℕ} {me server : Fin n}
    {args : InstallSnapshotRequest n D} {rf : Raft n C D} {r : InstallSnapshotResponse}
    {msg : Option (ApplyMsg C D)}
    (hk : c.threads[k]? = some (.leaderSendSnapShot me server (some (args, .calling))))
    (h : (c.raft server).installSnapshot args = .ok (rf, r, msg)) (i : Fin n) :
    StreamMoves c (.deliver k) (((c.setRaft server rf).setThread k
      (.leaderSendSnapShot me server (some (args, .replied r)))).spawn
        (msg.toList.map fun msg => .pushMsgToKvServer server msg false)) i := by
  have hprocs := fun j => setRaft_procs c server j rf
  have hset : (c.setThread k (.leaderSendSnapShot me server
      (some (args, .replied r)))).pending i = c.pending i := pending_setThread hk rfl rfl
  rcases installSnapshot_cases h with ⟨rfl, hs⟩ | ⟨rfl, hterm, hlt, -, -, -, happ⟩
  · exact .quiet hprocs rfl rfl hs.lastApplied
      ((pending_spawn (fun t ht => by cases ht) rfl).trans hset)
  by_cases heq : i = server
  · subst heq
    have hpi := (hprocs i).trans (if_pos rfl)
    have hstarted : ∀ (c₀ : Cluster n C D) (msg : ApplyMsg C D), (c₀.spawn
        [.pushMsgToKvServer i msg false]).pending i = c₀.pending i ++ [msg] := by
      intro c₀ msg
      simp [pending, Thread.pending]
    refine .accept args.data args.lastsnapshotincludeterm args.lastsnapshotincludeindex
      ?_ ?_ (fun hg => ?_) ?_
    · simp only [pushed, spawn_procs, setThread_procs, hpi]
    · simp only [waiting, spawn_procs, setThread_procs, hpi]
      rw [Option.toList, List.map_singleton, hstarted, ← List.append_assoc]
      exact congrArg (_ ++ · ++ _) hset
    · simp only [PushesInOrder, hk] at hg
      exact hg hterm hlt
    · simp only [raft, spawn_procs, setThread_procs, hpi]
      exact happ
  · refine .other hprocs heq ((pending_spawn (fun t ht => ?_) rfl).trans hset)
    obtain rfl : t = .pushMsgToKvServer server _ false := by simpa using ht
    exact if_neg (Ne.symm heq)

/-- The thread pushes its snapshot. -/
theorem streamMoves_pushMsgToKvServer {k : ℕ} {me : Fin n} {msg : ApplyMsg C D}
    (hk : c.threads[k]? = some (.pushMsgToKvServer me msg false)) (i : Fin n) :
    StreamMoves c (.pushMsgToKvServer k) ((c.setProc me { c.procs me with
      applyChan := (c.procs me).applyChan ++ [msg] }).setThread k
        (.pushMsgToKvServer me msg true)) i := by
  have hprocs := fun j => setProc_procs c me j { c.procs me with
    applyChan := (c.procs me).applyChan ++ [msg] }
  by_cases heq : i = me
  · subst heq
    have hpi := (hprocs i).trans (if_pos rfl)
    have hdrop : (c.pending i).Perm (msg :: (c.setThread k
        (.pushMsgToKvServer i msg true)).pending i) := filterMap_set_perm hk (if_pos rfl) rfl
    refine .push msg ?_ ?_ (fun hg => ?_) ?_
    · simp only [pushed, setThread_procs, hpi, List.append_assoc]
    · simp only [waiting, setThread_procs, hpi]
      exact (hdrop.append_left _).trans List.perm_middle
    · simpa only [PushesInOrder, hk] using hg
    · simp only [raft, setThread_procs, hpi]
  · refine .other hprocs heq (pending_setThread hk rfl ?_)
    exact (if_neg (Ne.symm heq)).symm

theorem Indexed.streamMoves [DecidableEq C] (hi : c.Indexed) (h : Moves c a c') (i : Fin n) :
    StreamMoves c a c' i := by
  cases h with
  | exit i₀ f => exact .quiet (fun j => setProc_procs c i₀ j _) rfl rfl rfl rfl
  | idle => exact .same rfl rfl rfl
  | @doElection i₀ rf calls h =>
    refine .quiet (fun j => setRaft_procs c i₀ j rf) rfl rfl (doElection_eq h).1.lastApplied
      (pending_spawn (fun t ht => ?_) rfl)
    obtain ⟨call, -, rfl⟩ := List.mem_map.1 ht
    rfl
  | @doHeartBeat i₀ beats h =>
    refine .same rfl (congrArg (_ ++ ·) (pending_spawn (fun t ht => ?_) rfl)) rfl
    obtain ⟨b, -, rfl⟩ := List.mem_map.1 ht
    cases b <;> rfl
  | @start i₀ command =>
    exact .quiet (fun j => setRaft_procs c i₀ j _) rfl rfl ((hi.node i₀).start command).2 rfl
  | @getApplyLogs i₀ rf msgs hm h =>
    obtain ⟨-, happ, hmsgs⟩ := (hi.node i₀).getApplyLogs h
    obtain ⟨hseq, hlast⟩ := inSequence_of_getElem hmsgs
    have hprocs := fun j => setProc_procs c i₀ j { c.procs i₀ with raft := rf, applyMsgs := msgs }
    by_cases heq : i = i₀
    · subst heq
      have hpi := (hprocs i).trans (if_pos rfl)
      refine .take msgs ?_ ?_ hseq ?_
      · rw [pushed, hpi, pushed]
      · rw [waiting, hm, List.nil_append, waiting, hpi]
        exact List.perm_append_comm
      · rw [raft, hpi, hlast, happ]
    · exact .other hprocs heq rfl
  | @pushApplyMsg i₀ msg msgs hm =>
    have hprocs := fun j => setProc_procs c i₀ j { c.procs i₀ with
      applyMsgs := msgs, applyChan := (c.procs i₀).applyChan ++ [msg] }
    by_cases heq : i = i₀
    · subst heq
      have hpi := (hprocs i).trans (if_pos rfl)
      refine .push msg ?_ ?_ (fun hg => ?_) ?_
      · rw [pushed, hpi, pushed, List.append_assoc]
      · rw [waiting, hm, waiting, hpi]
        exact .refl _
      · simpa only [PushesInOrder, hm] using hg
      · rw [raft, hpi, raft]
    · exact .other hprocs heq rfl
  | @consumeCommand i₀ command index msgs hm =>
    exact .quiet (fun j => setProc_procs c i₀ j _) (by simp [pushed, hm]) rfl rfl rfl
  | @consumeSnapshot i₀ data term index msgs rf b hm h =>
    -- the snapshot is not ahead of the commit index, and is declined
    rw [hi.condInstallSnapshot hm] at h
    cases h
    exact .quiet (fun j => setProc_procs c i₀ j _) (by simp [pushed, hm]) rfl rfl rfl
  | @snapshot i₀ command index data rf hm h =>
    refine .quiet (fun j => setRaft_procs c i₀ j rf) rfl rfl (((hi.node i₀).snapshot h).2 ?_) rfl
    exact hi.emitted i₀ (.command command index)
      (by simp [Process.emitted, List.mem_of_getLast? hm])
  | @requestVote k me server args p rf r hk h =>
    exact .quiet (fun j => setRaft_procs c server j rf) rfl rfl
      (requestVote_cases h).1.lastApplied (pending_setThread hk rfl rfl)
  | @appendEntries1 k me server args p rf r hk h =>
    exact .quiet (fun j => setRaft_procs c server j rf) rfl rfl
      ((hi.node server).appendEntries1 (hi.thread _ (List.mem_of_getElem? hk)) h).2
      (pending_setThread hk rfl rfl)
  | @installSnapshot k me server args rf r msg hk h =>
    exact streamMoves_installSnapshot hk h i
  | @sendRequestVote k me server args p r rf num elected hk h =>
    exact .quiet (fun j => setRaft_procs c me j rf) rfl rfl
      (sendRequestVote_cases h).1.lastApplied (pending_setThread hk rfl rfl)
  | @sendAppendEntries k me server args p r rf num hk h =>
    exact .quiet (fun j => setRaft_procs c me j rf) rfl rfl
      ((hi.node me).sendAppendEntries h).2 (pending_setThread hk rfl rfl)
  | @snapshotReply k me server args r hk =>
    exact .quiet (fun j => setRaft_procs c me j _) rfl rfl
      (sameLog_leaderSendSnapShotReply _ server args r).lastApplied (pending_setThread hk rfl rfl)
  | loseVote hk | loseAppend hk | loseSnapshot hk | leaderSendSnapShot _ hk =>
    exact .same rfl (congrArg (_ ++ ·) (pending_setThread hk rfl rfl)) rfl
  | @pushMsgToKvServer k me msg hk =>
    exact streamMoves_pushMsgToKvServer hk i

/-! ### The invariant -/

/-- **Some order of the waiting messages carries the stream on to `lastApplied`.** -/
def Queued (c : Cluster n C D) (i : Fin n) : Prop :=
  ∃ future, (c.waiting i).Perm future ∧ InSequence 0 (c.pushed i ++ future) ∧
    lastIndex 0 (c.pushed i ++ future) = (c.raft i).lastApplied

theorem queued_init (i : Fin n) : (init : Cluster n C D).Queued i :=
  ⟨[], .refl _, trivial, rfl⟩

theorem Queued.step (hq : c.Queued i) (hg : c.PushesInOrder a) (h : StreamMoves c a c' i) :
    c'.Queued i := by
  obtain ⟨future, hperm, hseq, hlast⟩ := hq
  cases h with
  | same hpushed hwaiting happ => exact ⟨future, by rwa [hwaiting], by rwa [hpushed], by
      rwa [hpushed, happ]⟩
  | take msgs hpushed hwaiting hmsgs happ =>
    refine ⟨future ++ msgs, hwaiting.symm.trans (hperm.append_right msgs), ?_, ?_⟩
    · rw [hpushed, ← List.append_assoc, inSequence_append, hlast]
      exact ⟨hseq, hmsgs⟩
    · rw [hpushed, ← List.append_assoc, lastIndex_append, hlast, happ]
  | accept data term index hpushed hwaiting hlt happ =>
    have hlt := hlt hg
    refine ⟨future ++ [.snapshot data term index], ?_, ?_, ?_⟩
    · rw [hwaiting]
      exact hperm.append_right _
    · rw [hpushed, ← List.append_assoc, inSequence_append, hlast]
      exact ⟨hseq, hlt, trivial⟩
    · rw [hpushed, ← List.append_assoc, lastIndex_append, happ, max_eq_right hlt.le]
      rfl
  | push msg hpushed hwaiting hle happ =>
    -- the message is the first of those to come
    have hmem : msg ∈ future := hperm.mem_iff.1 (hwaiting.mem_iff.2 List.mem_cons_self)
    obtain ⟨rest, rfl⟩ := (inSequence_append.1 hseq).2.eq_head hmem fun m hm =>
      hle hg m (hperm.mem_iff.2 hm)
    refine ⟨rest, (hwaiting.symm.trans hperm).cons_inv, ?_, ?_⟩
    · rwa [hpushed, List.append_assoc, List.singleton_append]
    · rw [hpushed, List.append_assoc, List.singleton_append, hlast, happ]

/-- **The apply stream has no gap and never goes back**, in every run whose steps meet the
condition. -/
theorem apply_stream [DecidableEq C] (h : (machine n C D).Reaches PushesInOrder init c)
    (i : Fin n) : NoGap (c.pushed i) := by
  have hall : c.Indexed ∧ ∀ i, c.Queued i := by
    refine h.invariant (I := fun c => c.Indexed ∧ ∀ i, c.Queued i) ⟨indexed_init, queued_init⟩ ?_
    intro c a c' hi hg hst
    have hm := moves_of_step hst
    exact ⟨hi.1.step hm, fun i => (hi.2 i).step hg (hi.1.streamMoves hm i)⟩
  obtain ⟨future, -, hseq, -⟩ := hall.2 i
  exact (inSequence_append.1 hseq).1.noGap

/-- Node `0` commits `x` with node `1` and compacts its log.  Node `2`, which has not applied `x`,
accepts the snapshot, and learns that `y` at index `2` is committed before its thread `6` has
pushed the snapshot. -/
def installRun : List (Action 3 String Unit) :=
  [.doElection 0, .deliver 0, .reply 0, .start 0 "x", .doHeartBeat 0, .deliver 2, .reply 2,
    .getApplyLogs 0, .pushApplyMsg 0, .consume 0, .snapshot 0 (), .doHeartBeat 0,
    .leaderSendSnapShot 5 (), .deliver 5, .reply 5, .start 0 "y", .doHeartBeat 0, .deliver 7,
    .reply 7, .deliver 8, .doHeartBeat 0, .deliver 10, .getApplyLogs 2]

theorem apply_stream_installRun : ∃ c,
    (machine 3 String Unit).runWhere PushesInOrder init
      (installRun ++ [.pushMsgToKvServer 6, .pushApplyMsg 2]) = some c ∧
      c.pushed 2 = [.snapshot () 1 1, .command "y" 2] ∧ NoGap (c.pushed 2) := by
  have h : ((machine 3 String Unit).runWhere PushesInOrder init
      (installRun ++ [.pushMsgToKvServer 6, .pushApplyMsg 2])).map (·.pushed 2) =
        some [.snapshot () 1 1, .command "y" 2] := by decide +kernel
  obtain ⟨c, hc, hp⟩ := Option.map_eq_some_iff.1 h
  exact ⟨c, hc, hp, apply_stream (Machine.reaches_of_runWhere hc) 2⟩

/-- The applier of node `2` overtakes the snapshot, which then goes back. -/
theorem not_apply_stream : ¬ ∀ c : Cluster 3 String Unit,
    (machine 3 String Unit).Reachable init c → ∀ i, NoGap (c.pushed i) := by
  intro hall
  have h : ((machine 3 String Unit).run init
      (installRun ++ [.pushApplyMsg 2, .pushMsgToKvServer 6])).map (·.pushed 2) =
        some [.command "y" 2, .snapshot () 1 1] := by decide +kernel
  obtain ⟨c, hc, hp⟩ := Option.map_eq_some_iff.1 h
  have := hall c (Machine.reachable_of_run hc) 2 [] _ _ hp
  exact absurd this (by decide)

end Cluster

end KvRaft
