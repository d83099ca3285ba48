import KvRaft.Kv.Compaction
import KvRaft.Kv.WaitChannels
import Mathlib.Tactic.Ring

/-!
# Commit notifications

A handler whose command is processed before its wait expires should be given the command by
`timeOutPop`.  `SendMessageToWaitChan` drops the command if there is no channel yet, which is so
between the return of `Start` and the insertion of the channel, and `timeOutPop` gives up when the
clock ends the wait, even if the queue has been filled meanwhile.

* `Watched.Prompt` : the condition on a step.  No command is sent while a handler has its index but
  no channel, and no wait on a filled queue expires.
* `Watched.notifications_kept` : in every run that meets the condition no notification is lost.
-/

namespace KvRaft

/-! ### The commands of a node have different indices -/

section Stream

variable {C D : Type}

/-- The commands of a stream with their indices. -/
def commandPairs (msgs : List (ApplyMsg C D)) : List (C × ℤ) :=
  msgs.filterMap fun
    | .command command index => some (command, index)
    | .snapshot _ _ _ => none

theorem mem_commandPairs {msgs : List (ApplyMsg C D)} {x : C × ℤ} :
    x ∈ commandPairs msgs ↔ .command x.1 x.2 ∈ msgs := by
  simp only [commandPairs, List.mem_filterMap]
  constructor
  · rintro ⟨msg, hmsg, heq⟩
    cases msg with
    | command command index =>
      obtain rfl := Option.some.inj heq
      exact hmsg
    | snapshot data term index => cases heq
  · intro h
    exact ⟨_, h, rfl⟩

theorem commandPairs_cons (command : C) (index : ℤ) (msgs : List (ApplyMsg C D)) :
    commandPairs (.command command index :: msgs) = (command, index) :: commandPairs msgs := rfl

/-- The indices of commands that are numbered from `start` on. -/
theorem commandPairs_of_consecutive {msgs : List (ApplyMsg C D)} {start : ℤ}
    (h : ∀ (k : ℕ) (msg : ApplyMsg C D), msgs[k]? = some msg →
      ∃ command, msg = .command command (start + k)) :
    (commandPairs msgs).map Prod.snd =
      (List.range msgs.length).map fun (k : ℕ) => start + (k : ℤ) := by
  induction msgs generalizing start with
  | nil => rfl
  | cons msg msgs ih =>
    obtain ⟨command, rfl⟩ := h 0 msg rfl
    have htail : (commandPairs msgs).map Prod.snd =
        (List.range msgs.length).map fun (k : ℕ) => start + 1 + (k : ℤ) := by
      refine ih fun k m hk => ?_
      obtain ⟨command', rfl⟩ := h (k + 1) m (by simpa using hk)
      exact ⟨command', by push_cast; ring_nf⟩
    rw [commandPairs_cons, List.map_cons, htail, List.length_cons, List.range_succ_eq_map,
      List.map_cons, List.map_map]
    congr 1
    refine List.map_congr_left fun k _ => ?_
    simp only [Function.comp_apply]
    push_cast
    ring

end Stream

namespace Cluster

variable {n : ℕ} {C D : Type} {c c' : Cluster n C D} {a : Action n C D} {i : Fin n}

/-- The indices of the commands that a node hands out go up. -/
def CommandsOnce (p : Process n C D) : Prop :=
  ((commandPairs p.emitted).map Prod.snd).Pairwise (· < ·)

theorem CommandsOnce.eq {p : Process n C D} (h : CommandsOnce p) {x y : C} {index : ℤ}
    (hx : .command x index ∈ p.emitted) (hy : .command y index ∈ p.emitted) : x = y := by
  have hnodup : ((commandPairs p.emitted).map Prod.snd).Nodup := h.imp ne_of_lt
  have hx' : (x, index) ∈ commandPairs p.emitted := mem_commandPairs.2 hx
  have hy' : (y, index) ∈ commandPairs p.emitted := mem_commandPairs.2 hy
  exact congrArg Prod.fst (List.inj_on_of_nodup_map hnodup hx' hy' rfl)

theorem ProcessMoves.commandsOnce {p : Process n C D} (h : c.ProcessMoves a i p) (hi : c.Indexed)
    (ho : CommandsOnce (c.procs i)) : CommandsOnce p := by
  unfold CommandsOnce at ho ⊢
  cases h with
  | quiet p _ _ hmsgs hchan hcons =>
    rwa [show p.emitted = (c.procs i).emitted by simp [Process.emitted, hmsgs, hchan, hcons]]
  | getApplyLogs rf msgs hm _ _ hmsgs =>
    -- what was handed out before is not beyond `lastApplied`, and the new commands follow it
    have hold : ∀ index ∈ (commandPairs (c.procs i).emitted).map Prod.snd,
        index ≤ (c.raft i).lastApplied := by
      intro index hmem
      obtain ⟨x, hx, rfl⟩ := List.mem_map.1 hmem
      exact hi.emitted i _ (mem_commandPairs.1 hx)
    have hnew := commandPairs_of_consecutive hmsgs
    have hemit :
        commandPairs { c.procs i with raft := rf, applyMsgs := msgs : Process n C D }.emitted =
          commandPairs (c.procs i).emitted ++ commandPairs msgs := by
      simp [Process.emitted, hm, commandPairs]
    rw [hemit, List.map_append, hnew]
    refine List.pairwise_append.2 ⟨ho, ?_, fun x hx y hy => ?_⟩
    · rw [List.pairwise_map]
      exact List.pairwise_lt_range.imp fun hlt => by omega
    · obtain ⟨k, -, rfl⟩ := List.mem_map.1 hy
      have := hold x hx
      omega
  | pushApplyMsg msg msgs hm => simpa [Process.emitted, hm] using ho
  | consume msg msgs _ hm => simpa [Process.emitted, hm] using ho
  | installSnapshot => exact ho
  | pushMsgToKvServer k data term index =>
    simpa [Process.emitted, commandPairs] using ho

end Cluster

/-! ### No notification is lost -/

/-- **No notification is lost**, as far as a server and the record `L` of what has happened at its
wait channels tell. -/
structure KvProcess.Notified (p : KvProcess) (L : List ChanEvent) : Prop where
  /-- No wait expires after the command of its index was processed. -/
  notExpired : ∀ k index op ch, ¬ [.processed index op ch, .expired k index].Sublist L
  /-- A handler that still waits finds the command. -/
  ready : ∀ (k : ℕ) (h : Handler) (index : ℤ) (op : Op) (ch : Option ℕ) (ch' : ℕ),
    p.handlers[k]? = some h → h.pc = .waiting index ch' → .processed index op ch ∈ L →
      (p.kv.chans.getD ch' []).head? = some op
  /-- What a handler pops is the command of its index. -/
  popped : ∀ k index op op' ch ch', .start k index ∈ L → .processed index op ch ∈ L →
    .pop k ch' op' ∈ L → op' = op

namespace WaitRoom

/-- Once the command of an index is processed, its handler has its channel and the command is in
there until it is popped. -/
structure Notified (L : List ChanEvent) (r : WaitRoom) (last : ℤ) : Prop where
  le_last : ∀ index op ch, .processed index op ch ∈ L → index ≤ last
  inserted : ∀ index op ch, .processed index op ch ∈ L → ∀ k, r.phase k ≠ .started index
  queued : ∀ index op ch, .processed index op ch ∈ L → ∀ k ch', r.phase k = .holding index →
    r.waiting k = some ch' → op ∈ r.queue ch'
  notExpired : ∀ k index op ch, ¬ [.processed index op ch, .expired k index].Sublist L

variable {L es : List ChanEvent} {r r' : WaitRoom} {last last' : ℤ}

theorem sublist_pair_append_singleton {α : Type} {xs : List α} {a b c : α}
    (h : [a, b].Sublist (xs ++ [c])) : [a, b].Sublist xs ∨ a ∈ xs ∧ b = c := by
  have hrev : [b, a].Sublist (c :: xs.reverse) := by simpa using h.reverse
  rcases List.sublist_cons_iff.1 hrev with hsub | ⟨l, heq, hsub⟩
  · exact Or.inl (by simpa using hsub.reverse)
  · obtain ⟨rfl, rfl⟩ := List.cons_eq_cons.1 heq
    exact Or.inr ⟨by simpa using hsub, rfl⟩

/-- The queue of a handler that waits has the command of its index, once that is processed. -/
theorem Notified.queued_step (h : Notified L r last) (ho : Ordered L r last) (hm : r.Moves es r')
    (hproc : ∀ index op ch, .processed index op ch ∈ es → index ≤ last ∧
      (∀ k, r.phase k ≠ .started index) ∧ (ch = none → ∀ k, r.phase k ≠ .holding index)) :
    ∀ index op ch, .processed index op ch ∈ L ++ es → ∀ k ch', r'.phase k = .holding index →
      r'.waiting k = some ch' → op ∈ r'.queue ch' := by
  have hwait := ho.owned.waiting
  have hkept := ho.owned.phase
  have huniq := ho.owned.unique
  intro index op ch hmem k ch' hk hw
  cases hm with
  | nothing => exact h.queued index op ch (by simpa using hmem) k ch' hk hw
  | refused j | start j | erase j =>
    have hold : .processed index op ch ∈ L := by simpa using hmem
    have hj : k ≠ j := by
      rintro rfl
      simp at hk
    exact h.queued index op ch hold k ch' (by simpa [hj] using hk) hw
  | find j index' ch₁ hst | insert j index' hst =>
    have hold : .processed index op ch ∈ L := by simpa using hmem
    -- a command is not processed before its handler has a channel
    have hj : k ≠ j := by
      rintro rfl
      obtain rfl : index' = index := by simpa using hk
      exact h.inserted index' op ch hold k hst
    exact h.queued index op ch hold k ch' (by simpa [hj] using hk) (by simpa [hj] using hw)
  | expired j =>
    have hj : k ≠ j := by
      rintro rfl
      simp at hw
    exact h.queued index op ch (by simpa using hmem) k ch' hk (by simpa [hj] using hw)
  | pop j index' ch₁ op' ops hhold hw₁ hq =>
    have hj : k ≠ j := by
      rintro rfl
      simp at hw
    have hw' : r.waiting k = some ch' := by simpa [hj] using hw
    -- the other handler waits on another channel
    have hch : ch' ≠ ch₁ := by
      rintro rfl
      obtain ⟨i₁, -, hins₁⟩ := hwait k ch' hw'
      obtain ⟨i₂, -, hins₂⟩ := hwait j ch' hw₁
      exact hj (huniq _ _ _ _ _ hins₁ hins₂).1
    simpa [hch] using h.queued index op ch (by simpa using hmem) k ch' hk hw'
  | drop index' op' =>
    rcases List.mem_append.1 hmem with hold | hnew
    · exact h.queued index op ch hold k ch' hk hw
    · obtain ⟨rfl, rfl, rfl⟩ : index = index' ∧ op = op' ∧ ch = none := by simpa using hnew
      exact absurd hk ((hproc index op none (by simp)).2.2 rfl k)
  | push index' op' ch₁ he =>
    have hgrow : ∀ x ∈ r.queue ch', x ∈ Function.update r.queue ch₁ (r.queue ch₁ ++ [op']) ch' := by
      intro x hx
      rcases eq_or_ne ch' ch₁ with rfl | hne
      · simp [hx]
      · simpa [hne] using hx
    rcases List.mem_append.1 hmem with hold | hnew
    · exact hgrow op (h.queued index op ch hold k ch' hk hw)
    · obtain ⟨rfl, rfl, rfl⟩ : index = index' ∧ op = op' ∧ ch = some ch₁ := by simpa using hnew
      -- the handler waits on the channel of its entry
      obtain rfl : ch' = ch₁ := by
        obtain ⟨i, hi, hins⟩ := hwait k ch' hw
        obtain rfl : i = index := by simpa [hi] using hk
        rcases hkept k i ch' hins with ⟨-, he'⟩ | ⟨hret, -⟩
        · exact Option.some.inj (he'.symm.trans he)
        · simp [hret] at hi
      simp

/-- A step loses no notification, if no command is sent while its handler has no channel, and no
wait on a filled queue expires. -/
theorem Notified.step (h : Notified L r last) (ho : Ordered L r last) (hm : r.Moves es r')
    (hlast : last ≤ last') (hstart : ∀ k index, .start k index ∈ es → last < index)
    (hproc : ∀ index op ch, .processed index op ch ∈ es → index ≤ last ∧
      (∀ k, r.phase k ≠ .started index) ∧ (ch = none → ∀ k, r.phase k ≠ .holding index))
    (htime : ∀ k index, .expired k index ∈ es → ∀ ch, r.waiting k = some ch → r.queue ch = []) :
    Notified (L ++ es) r' last' := by
  refine ⟨?_, ?_, h.queued_step ho hm hproc, ?_⟩
  · intro index op ch hmem
    rcases List.mem_append.1 hmem with hold | hnew
    · exact (h.le_last index op ch hold).trans hlast
    · exact (hproc index op ch hnew).1.trans hlast
  · intro index op ch hmem k hk
    -- a handler that has an index now had it before, or got it just now
    have hgot : r.phase k = .started index ∨ .start k index ∈ es := by
      cases hm <;> grind
    rcases List.mem_append.1 hmem with hold | hnew
    · rcases hgot with hst | hst
      · exact h.inserted index op ch hold k hst
      · exact absurd (hstart k index hst) (not_lt.2 (h.le_last index op ch hold))
    · rcases hgot with hst | hst
      · exact (hproc index op ch hnew).2.1 k hst
      · exact absurd (hstart k index hst) (not_lt.2 (hproc index op ch hnew).1)
  · intro k index op ch hsub
    cases hm with
    | nothing => exact h.notExpired k index op ch (by simpa using hsub)
    | expired k' index' ch' hk hw =>
      rcases sublist_pair_append_singleton hsub with hsub | ⟨hmem, heq⟩
      · exact h.notExpired k index op ch hsub
      · obtain ⟨rfl, rfl⟩ := by simpa using heq
        have hop := h.queued index op ch hmem k ch' hk hw
        rw [htime k index (by simp) ch' hw] at hop
        cases hop
    | refused => exact h.notExpired k index op ch (by simpa using hsub)
    | start | find | insert | pop | erase | drop | push =>
      rcases sublist_pair_append_singleton hsub with hsub | ⟨-, heq⟩
      · exact h.notExpired k index op ch hsub
      · cases heq

end WaitRoom

/-! ### What a server is given and processes -/

/-- The command that the apply loop has received and not yet announced. -/
def ApplyLoop.current : ApplyLoop → Option (Op × ℤ)
  | .pop => none
  | .duplicate op index | .execute op index | .compact op index | .snapshot op index _
  | .send op index => some (op, index)

namespace KvProcess

variable {p p' : KvProcess} {b : KvAction}

theorem current_of_step (hst : p.step b = some p') {x : Op × ℤ}
    (hx : p'.loop.current = some x) : p.loop.current = some x ∨
      ∃ installed, b = .receive (.command x.1 x.2) installed := by
  cases b with
  | receive msg installed =>
    simp only [step] at hst
    split at hst
    · rename_i op index hloop
      split_ifs at hst <;> obtain rfl := Option.some.inj hst
      · exact Or.inl hx
      · obtain rfl : (op, index) = x := by simpa [ApplyLoop.current] using hx
        exact Or.inr ⟨installed, rfl⟩
    · obtain rfl := Option.some.inj hst
      exact Or.inl hx
    · cases hst
  | apply =>
    simp only [step, apply] at hst
    split at hst
    · cases hst
    · rename_i hloop
      split_ifs at hst <;> obtain rfl := Option.some.inj hst
      all_goals exact Or.inl (by rw [hloop]; exact hx)
    · rename_i hloop
      obtain rfl := Option.some.inj hst
      exact Or.inl (by rw [hloop]; exact hx)
    · rename_i hloop
      obtain rfl := Option.some.inj hst
      exact Or.inl (by rw [hloop]; exact hx)
    · rename_i hloop
      obtain rfl := Option.some.inj hst
      exact Or.inl (by rw [hloop]; exact hx)
    · obtain rfl := Option.some.inj hst
      cases hx
  | skipSnapShot =>
    simp only [step] at hst
    split at hst
    · rename_i hloop
      obtain rfl := Option.some.inj hst
      exact Or.inl (by rw [hloop]; exact hx)
    · cases hst
  | call req =>
    obtain rfl := Option.some.inj hst
    exact Or.inl hx
  | handle k input =>
    simp only [step] at hst
    split at hst
    · cases hst
    · obtain ⟨⟨kv', pc⟩, -, rfl⟩ := Option.map_eq_some_iff.1 hst
      exact Or.inl hx

/-- A command is processed by `SendMessageToWaitChan` or skipped at once. -/
theorem processed_of_events {index : ℤ} {op : Op} {ch : Option ℕ}
    (h : .processed index op ch ∈ p.events b) :
    b = .apply ∧ p.loop = .send op index ∧ ch = p.kv.waitApplyCh index ∨
      (∃ installed, b = .receive (.command op index) installed) ∧
        index ≤ p.kv.lastSnapShotRaftLogIndex ∧ ch = none := by
  unfold events at h
  split at h
  · split_ifs at h with hle
    · obtain ⟨rfl, rfl, rfl⟩ := by simpa using h
      exact Or.inr ⟨⟨_, rfl⟩, hle, rfl⟩
    · cases h
  · split at h
    · rename_i hloop
      obtain ⟨rfl, rfl, rfl⟩ := by simpa using h
      exact Or.inl ⟨rfl, hloop, rfl⟩
    · cases h
  · split at h
    · unfold Handler.events at h
      split at h <;> simp at h
    · cases h
  · cases h

/-- A wait expires by the clock. -/
theorem expired_of_events {k : ℕ} {index : ℤ} (h : .expired k index ∈ p.events b) :
    b = .handle k .timeOut ∧ ∃ hd ch, p.handlers[k]? = some hd ∧ hd.pc = .waiting index ch := by
  unfold events at h
  split at h
  · split_ifs at h <;> simp at h
  · split at h <;> simp at h
  · split at h
    · rename_i j input hd hj
      unfold Handler.events at h
      split at h <;> simp at h
      rename_i hpc
      obtain ⟨rfl, rfl⟩ := h
      exact ⟨rfl, hd, _, hj, hpc⟩
    · cases h
  · cases h

end KvProcess

namespace Replicas

variable {n : ℕ} {S S' : Replicas n} {a : ReplicaAction n}

/-- The messages that a server has consumed are those that its apply loop was given. -/
theorem consumed_of_step (hi : S.cluster.Indexed) (h : S.step a = some S') (i : Fin n) :
    (S'.cluster.procs i).consumed = (S.cluster.procs i).consumed ∧
        (∀ msg installed, S.serverAction i a ≠ some (.receive msg installed)) ∨
      ∃ msg, S.serverAction i a = some (.receive msg false) ∧
        (S'.cluster.procs i).consumed = (S.cluster.procs i).consumed ++ [msg] := by
  have hother : ∀ {x : Action n Op (Option Snapshot)} {c : Cluster n Op (Option Snapshot)},
      (∀ j, x ≠ .consume j) → S.cluster.step x = some c →
      (c.procs i).consumed = (S.cluster.procs i).consumed := fun hx hc =>
    (hi.processMoves (Cluster.moves_of_step hc) i).consumed_eq (hx i)
  cases a with
  | raft x =>
    simp only [step] at h
    split_ifs at h with hx
    obtain ⟨c, hc, rfl⟩ := stepRaft_eq h
    refine Or.inl ⟨hother (fun j hj => ?_) hc, by simp [serverAction]⟩
    rw [hj] at hx
    cases hx
  | leaderSendSnapShot k =>
    simp only [step] at h
    split at h
    · obtain ⟨c, hc, rfl⟩ := stepRaft_eq h
      exact Or.inl ⟨hother (fun j hj => by cases hj) hc, by simp [serverAction]⟩
    · cases h
  | receive j =>
    simp only [step] at h
    split at h
    · cases h
    · rename_i msg msgs hm
      obtain ⟨c, p, hc, -, rfl⟩ := stepBoth_eq h
      obtain rfl := hi.consume_eq hm hc
      rcases eq_or_ne i j with rfl | hij
      · refine Or.inr ⟨msg, by simp [serverAction, hm, installed_eq hi hm], ?_⟩
        simp [Cluster.setProc_procs]
      · exact Or.inl ⟨by simp [Cluster.setProc_procs, hij], by simp [serverAction, hij]⟩
  | start j k =>
    simp only [step] at h
    split at h
    · cases h
    · obtain ⟨c, p, hc, -, rfl⟩ := stepBoth_eq h
      refine Or.inl ⟨hother (fun j hj => by cases hj) hc, fun msg installed hmsg => ?_⟩
      simp only [serverAction] at hmsg
      split_ifs at hmsg
      obtain ⟨hd, -, heq⟩ := Option.map_eq_some_iff.1 hmsg
      cases heq
  | getState j k =>
    obtain ⟨p, -, rfl⟩ := stepKv_eq h
    exact Or.inl ⟨rfl, by simp [serverAction]⟩
  | snapshot j =>
    simp only [step] at h
    split at h
    · obtain ⟨c, p, hc, -, rfl⟩ := stepBoth_eq h
      exact Or.inl ⟨hother (fun j hj => by cases hj) hc, by simp [serverAction]⟩
    · cases h
  | kv j b =>
    simp only [step] at h
    split_ifs at h with hb
    obtain ⟨p, -, rfl⟩ := stepKv_eq h
    refine Or.inl ⟨rfl, fun msg installed hmsg => ?_⟩
    obtain ⟨rfl, rfl⟩ : i = j ∧ b = .receive msg installed := by simpa [serverAction] using hmsg
    cases hb

/-- What a server has consumed stays consumed. -/
theorem consumed_subset (hi : S.cluster.Indexed) (h : S.step a = some S') (i : Fin n) :
    (S.cluster.procs i).consumed ⊆ (S'.cluster.procs i).consumed := by
  rcases consumed_of_step hi h i with ⟨heq, -⟩ | ⟨msg, -, heq⟩ <;> rw [heq]
  · exact List.Subset.refl _
  · exact List.subset_append_left _ _

/-- A server consumes what its apply loop is given, and installs no snapshot. -/
theorem mem_consumed_of_receive (hi : S.cluster.Indexed) (h : S.step a = some S') {i : Fin n}
    {msg : ApplyMsg Op (Option Snapshot)} {installed : Bool}
    (hmsg : S.serverAction i a = some (.receive msg installed)) :
    msg ∈ (S'.cluster.procs i).consumed ∧ installed = false := by
  rcases consumed_of_step hi h i with ⟨-, hne⟩ | ⟨msg', hb, heq⟩
  · exact absurd hmsg (hne msg installed)
  · rw [hb] at hmsg
    cases hmsg
    exact ⟨by rw [heq]; simp, rfl⟩

end Replicas

/-! ### Prompt runs -/

namespace Watched

variable {n : ℕ} {W W' : Watched n} {a : ReplicaAction n}

/-- **The condition on a step.**  When a command is sent to the wait channels, no handler has its
index from `Start` but no channel yet; and no wait expires while the command is in the queue. -/
def Prompt (W : Watched n) : ReplicaAction n → Prop
  | .kv i .apply =>
    match (W.replicas.kvs i).loop with
    | .send _ index => ∀ h ∈ (W.replicas.kvs i).handlers, h.pc ≠ .started index
    | _ => True
  | .kv i (.handle k .timeOut) =>
    match (W.replicas.kvs i).handlers[k]? with
    | some { req := _, pc := .waiting _ ch } => (W.replicas.kvs i).kv.chans.getD ch [] = []
    | _ => True
  | _ => True

instance (W : Watched n) (a : ReplicaAction n) : Decidable (W.Prompt a) := by
  induction a using ReplicaAction.casesOn with
  | kv i a =>
    induction a using KvAction.casesOn with
    | apply =>
      dsimp only [Prompt]
      generalize (W.replicas.kvs i).loop = loop
      split <;> infer_instance
    | handle k input =>
      induction input using Input.casesOn with
      | timeOut =>
        dsimp only [Prompt]
        generalize (W.replicas.kvs i).handlers[k]? = h
        split <;> infer_instance
      | _ => dsimp only [Prompt]; infer_instance
    | _ => dsimp only [Prompt]; infer_instance
  | _ => dsimp only [Prompt]; infer_instance

/-- What server `i` is given, in relation to what it has recorded. -/
structure Fed (W : Watched n) (i : Fin n) : Prop where
  once : Cluster.CommandsOnce (W.replicas.cluster.procs i)
  processed : ∀ index op ch, .processed index op ch ∈ W.log i →
    .command op index ∈ (W.replicas.cluster.procs i).consumed
  current : ∀ op index, (W.replicas.kvs i).loop.current = some (op, index) →
    .command op index ∈ (W.replicas.cluster.procs i).consumed
  lastSnapShot : (W.replicas.kvs i).kv.lastSnapShotRaftLogIndex = 0
  nonneg : 0 ≤ W.replicas.lastIndex i
  positive : ∀ k index, .start k index ∈ W.log i → 0 < index
  notified : (W.replicas.kvs i).room.Notified (W.log i) (W.replicas.lastIndex i)

theorem fed_init (i : Fin n) : Fed (init : Watched n) i where
  once := List.Pairwise.nil
  processed := by simp [init]
  current := by simp [init, Replicas.init, ApplyLoop.current]
  lastSnapShot := rfl
  nonneg := le_rfl
  positive := by simp [init]
  notified := by
    refine ⟨?_, ?_, ?_, ?_⟩
    all_goals simp [init]

/-- A section of the apply loop or the clock moves a server only by its own action. -/
theorem eq_kv_of_serverAction {S S' : Replicas n} {i : Fin n} {b : KvAction}
    (hst : S.step a = some S') (hb : S.serverAction i a = some b) :
    (∀ op index, b = .apply → (S.kvs i).loop = .send op index → a = .kv i .apply) ∧
      ∀ k, b = .handle k .timeOut → a = .kv i (.handle k .timeOut) := by
  cases a with
  | raft x => simp [Replicas.serverAction] at hb
  | leaderSendSnapShot k => simp [Replicas.serverAction] at hb
  | receive j =>
    simp only [Replicas.serverAction] at hb
    split_ifs at hb
    obtain ⟨msg, -, rfl⟩ := Option.map_eq_some_iff.1 hb
    simp
  | start j k =>
    simp only [Replicas.serverAction] at hb
    split_ifs at hb
    obtain ⟨hd, -, rfl⟩ := Option.map_eq_some_iff.1 hb
    simp
  | getState j k =>
    simp only [Replicas.serverAction] at hb
    split_ifs at hb
    obtain rfl := Option.some.inj hb
    simp
  | snapshot j =>
    simp only [Replicas.serverAction] at hb
    split_ifs at hb with hij
    obtain rfl := Option.some.inj hb
    subst hij
    refine ⟨fun op index _ hloop => ?_, by simp⟩
    simp [Replicas.step, hloop] at hst
  | kv j b' =>
    simp only [Replicas.serverAction] at hb
    split_ifs at hb with hij
    obtain rfl := Option.some.inj hb
    subst hij
    refine ⟨?_, ?_⟩
    · rintro op index rfl -
      rfl
    · rintro k rfl
      rfl

/-- The condition on the steps of one server. -/
theorem Prompt.server (hp : W.Prompt a) {S : Replicas n} {i : Fin n} {b : KvAction}
    (hst : W.replicas.step a = some S) (hb : W.replicas.serverAction i a = some b) :
    (∀ op index, b = .apply → (W.replicas.kvs i).loop = .send op index →
      ∀ k, (W.replicas.kvs i).room.phase k ≠ .started index) ∧
    (∀ k hd index ch, b = .handle k .timeOut → (W.replicas.kvs i).handlers[k]? = some hd →
      hd.pc = .waiting index ch → (W.replicas.kvs i).kv.chans.getD ch [] = []) := by
  obtain ⟨happly, htime⟩ := eq_kv_of_serverAction hst hb
  constructor
  · intro op index hba hloop k hk
    obtain rfl := happly op index hba hloop
    simp only [Prompt, hloop] at hp
    cases hget : (W.replicas.kvs i).handlers[k]? with
    | none => simp [KvProcess.room, hget] at hk
    | some hd =>
      rw [KvProcess.room_phase hget] at hk
      refine hp hd (List.mem_of_getElem? hget) ?_
      cases hpc : hd.pc <;> simp [hpc, HandlerPc.phase] at hk
      rw [hk]
  · intro k hd index ch hbt hget hpc
    obtain rfl := htime k hbt
    obtain ⟨req, pc⟩ := hd
    subst hpc
    simpa only [Prompt, hget] using hp

/-- What server `i` has consumed is among the entries of its node. -/
theorem Sound.le_lastIndex (hs : W.Sound) {i : Fin n} {op : Op} {index : ℤ}
    (h : .command op index ∈ (W.replicas.cluster.procs i).consumed) :
    index ≤ W.replicas.lastIndex i := by
  have hemit : .command op index ∈ (W.replicas.cluster.procs i).emitted := by
    simp [Process.emitted, h]
  have hnode := hs.indexed.node i
  exact (hs.indexed.emitted i _ hemit).trans (hnode.applied_le.trans hnode.commit_le)

/-- What is said of the commands that a step is done with. -/
theorem Fed.processed_step (hs : W.Sound) {i : Fin n} (hf : W.Fed i) (hp : W.Prompt a)
    {S : Replicas n} (hst : W.replicas.step a = some S) {index : ℤ} {op : Op} {ch : Option ℕ}
    (h : .processed index op ch ∈ W.replicas.events a i) :
    index ≤ W.replicas.lastIndex i ∧ (∀ k, (W.replicas.kvs i).room.phase k ≠ .started index) ∧
      (ch = none → ∀ k, (W.replicas.kvs i).room.phase k ≠ .holding index) := by
  have hord := hs.ordered i
  cases hb : W.replicas.serverAction i a with
  | none => simp [Replicas.events, hb] at h
  | some b =>
    simp only [Replicas.events, hb] at h
    rcases KvProcess.processed_of_events h with ⟨rfl, hloop, rfl⟩ | ⟨-, hle, rfl⟩
    · have hcons := hf.current op index (by rw [hloop]; rfl)
      refine ⟨hs.le_lastIndex hcons, (hp.server hst hb).1 op index rfl hloop, ?_⟩
      intro hnone k hk
      obtain ⟨ch', hins⟩ := hord.owned.holding k index hk
      rcases hord.owned.phase k index ch' hins with ⟨-, he⟩ | ⟨hret, -⟩
      · rw [show (W.replicas.kvs i).room.entry index = none from hnone] at he
        cases he
      · rw [hk] at hret
        cases hret
    · -- the index of a handler is positive
      rw [hf.lastSnapShot] at hle
      have hnot : ∀ k, ¬ ((W.replicas.kvs i).room.phase k = .started index ∨
          (W.replicas.kvs i).room.phase k = .holding index) := by
        intro k hk
        have := hf.positive k index (hord.started.start k index hk)
        omega
      exact ⟨hle.trans hf.nonneg, fun k hk => hnot k (.inl hk), fun _ k hk => hnot k (.inr hk)⟩

theorem Fed.step (hs : W.Sound) (i : Fin n) (hf : W.Fed i) (hp : W.Prompt a)
    (h : W.step a = some W') : W'.Fed i := by
  obtain ⟨es, hlog, hm, hstart⟩ := room_of_step h i hs
  obtain ⟨S, hst, rfl⟩ := Option.map_eq_some_iff.1 h
  have hes : es = W.replicas.events a i := List.append_cancel_left hlog.symm
  have hlast := Replicas.lastIndex_le_step hs.indexed hst i
  have haction := Replicas.serverAction_of_step hst i
  have hsub := Replicas.consumed_subset hs.indexed hst i
  refine ⟨?_, ?_, ?_, ?_, hf.nonneg.trans hlast, ?_, ?_⟩
  · rcases Replicas.cluster_of_step hst with heq | ⟨x, hx⟩
    · simpa only [heq] using hf.once
    · exact (hs.indexed.processMoves (Cluster.moves_of_step hx) i).commandsOnce hs.indexed hf.once
  · intro index op ch hmem
    rcases List.mem_append.1 hmem with hold | hnew
    · exact hsub (hf.processed index op ch hold)
    · cases hb : W.replicas.serverAction i a with
      | none => simp [Replicas.events, hb] at hnew
      | some b =>
        simp only [Replicas.events, hb] at hnew
        rcases KvProcess.processed_of_events hnew with ⟨rfl, hloop, -⟩ | ⟨⟨installed, rfl⟩, -, -⟩
        · exact hsub (hf.current op index (by rw [hloop]; rfl))
        · exact (Replicas.mem_consumed_of_receive hs.indexed hst hb).1
  · intro op index hcur
    rcases haction with ⟨-, heq⟩ | ⟨b, hb, hkv⟩
    · rw [heq] at hcur
      exact hsub (hf.current op index hcur)
    · rcases KvProcess.current_of_step hkv hcur with hold | ⟨installed, rfl⟩
      · exact hsub (hf.current op index hold)
      · exact (Replicas.mem_consumed_of_receive hs.indexed hst hb).1
  · rcases haction with ⟨-, heq⟩ | ⟨b, hb, hkv⟩
    · rw [heq]
      exact hf.lastSnapShot
    · refine (KvProcess.lastSnapShotRaftLogIndex_eq ?_ (KvProcess.moves_of_step hkv)).trans
        hf.lastSnapShot
      rintro data term index rfl
      cases (Replicas.mem_consumed_of_receive hs.indexed hst hb).2
  · intro k index hmem
    rcases List.mem_append.1 hmem with hold | hnew
    · exact hf.positive k index hold
    · have := (hstart k index (hes ▸ hnew)).1
      have := hf.nonneg
      omega
  · rw [hlog]
    refine hf.notified.step (hs.ordered i) hm hlast (fun k index hk => (hstart k index hk).1)
      (fun index op ch hk => hf.processed_step hs hp hst (hes ▸ hk)) ?_
    intro k index hk ch hch
    rw [hes] at hk
    cases hb : W.replicas.serverAction i a with
    | none => simp [Replicas.events, hb] at hk
    | some b =>
      simp only [Replicas.events, hb] at hk
      obtain ⟨rfl, hd, ch', hget, hpc⟩ := KvProcess.expired_of_events hk
      rw [KvProcess.room_waiting hget, hpc] at hch
      obtain rfl := Option.some.inj hch
      exact (hp.server hst hb).2 k hd index ch' rfl hget hpc

/-- No notification was lost, if what is known of the server has held so far. -/
theorem notified_of_fed (hs : W.Sound) {i : Fin n} (hf : W.Fed i) :
    (W.replicas.kvs i).Notified (W.log i) := by
  have hord := hs.ordered i
  -- one command has an index
  have huniq : ∀ index op op' ch ch', .processed index op ch ∈ W.log i →
      .processed index op' ch' ∈ W.log i → op = op' := by
    intro index op op' ch ch' h h'
    have hop : .command op index ∈ (W.replicas.cluster.procs i).emitted := by
      simp [Process.emitted, hf.processed index op ch h]
    have hop' : .command op' index ∈ (W.replicas.cluster.procs i).emitted := by
      simp [Process.emitted, hf.processed index op' ch' h']
    exact hf.once.eq hop hop'
  refine ⟨hf.notified.notExpired, ?_, ?_⟩
  · intro k hd index op ch ch' hget hpc hproc
    have hphase : (W.replicas.kvs i).room.phase k = .holding index := by
      rw [KvProcess.room_phase hget, hpc]
      rfl
    have hwait : (W.replicas.kvs i).room.waiting k = some ch' := by
      rw [KvProcess.room_waiting hget, hpc]
      rfl
    have hmem := hf.notified.queued index op ch hproc k ch' hphase hwait
    -- whatever is first in the queue was pushed under the index of its owner
    cases hq : (W.replicas.kvs i).kv.chans.getD ch' [] with
    | nil =>
      rw [show (W.replicas.kvs i).room.queue ch' = [] from hq] at hmem
      cases hmem
    | cons x xs =>
      have hx : x ∈ (W.replicas.kvs i).room.queue ch' := by
        rw [show (W.replicas.kvs i).room.queue ch' = x :: xs from hq]
        exact List.mem_cons_self
      obtain ⟨index', hproc'⟩ := hord.queued.queue ch' x hx
      obtain ⟨k', hins'⟩ := hord.queued.insert index' x ch' hproc'
      obtain ⟨index₀, hphase₀, hins⟩ := hord.owned.waiting k ch' hwait
      rw [hphase] at hphase₀
      obtain rfl : index = index₀ := by simpa using hphase₀
      obtain ⟨-, rfl⟩ := hord.owned.unique k' index' k index ch' hins' hins
      rw [huniq index' x op _ _ hproc' hproc]
      rfl
  · intro k index op op' ch ch' hstart hproc hpop
    obtain ⟨index', hins, hproc'⟩ := hord.queued.pop k ch' op' hpop
    obtain rfl := hord.started.single k index index' hstart (hord.owned.start k index' ch' hins)
    exact huniq index op' op _ _ hproc' hproc

/-- **No commit notification is lost** in a run in which every command is sent after the handler
that waits for it has inserted its channel, and no wait on a filled queue expires. -/
theorem notifications_kept (h : (machine n).Reaches Prompt init W) (i : Fin n) :
    (W.replicas.kvs i).Notified (W.log i) := by
  have hinv : W.Sound ∧ ∀ i, W.Fed i := by
    refine h.invariant (I := fun W => W.Sound ∧ ∀ i, W.Fed i) ⟨sound_init, fed_init⟩ ?_
    rintro W a W' ⟨hs, hf⟩ hp hst
    exact ⟨hs.step hst, fun i => (hf i).step hs i hp hst⟩
  exact notified_of_fed hinv.1 (hinv.2 i)

theorem servePut_prompt : ((machine 3).runWhere Prompt init servePut).map (fun W => W.log 0) =
    some [.start 0 1, .insert 0 1 0, .processed 1 ⟨.put, "k", "a", "c", 1⟩ (some 0),
      .pop 0 0 ⟨.put, "k", "a", "c", 1⟩, .erase 0 1 (some 0)] := by
  decide +kernel

theorem notifications_kept_servePut : ∃ W, (machine 3).runWhere Prompt init servePut = some W ∧
    (W.log 0).length = 5 ∧ (W.replicas.kvs 0).Notified (W.log 0) := by
  obtain ⟨W, hW, hlog⟩ := Option.map_eq_some_iff.1 servePut_prompt
  exact ⟨W, hW, by rw [hlog]; rfl, notifications_kept (Machine.reaches_of_runWhere hW) 0⟩

/-- Node 0 becomes leader and commits a Put; its server is done with the command before handler 0,
which has its index, inserts a channel and waits in vain. -/
def notifyEarly : List (ReplicaAction 3) :=
  [.raft (.doElection 0), .raft (.deliver 0), .raft (.reply 0),
    .kv 0 (.call (.putAppend ⟨"k", "a", .put, "c", 1⟩)), .start 0 0,
    .raft (.doHeartBeat 0), .raft (.deliver 2), .raft (.reply 2), .raft (.getApplyLogs 0),
    .raft (.pushApplyMsg 0), .receive 0, .kv 0 .apply, .kv 0 .apply, .kv 0 .skipSnapShot,
    .kv 0 .apply, .kv 0 (.handle 0 .run), .kv 0 (.handle 0 .timeOut)]

theorem notifyEarly_eq : ((machine 3).run init notifyEarly).map (fun W => W.log 0) =
    some [.start 0 1, .processed 1 ⟨.put, "k", "a", "c", 1⟩ none, .insert 0 1 0,
      .expired 0 1] := by
  decide +kernel

/-- A command that is processed before the channel is there reaches nobody. -/
theorem not_notifications_kept : ¬ ∀ (W : Watched 3), (machine 3).Reachable init W →
    ∀ i, (W.replicas.kvs i).Notified (W.log i) := by
  intro hall
  obtain ⟨W, hW, hlog⟩ := Option.map_eq_some_iff.1 notifyEarly_eq
  refine (hall W (Machine.reachable_of_run hW) 0).notExpired 0 1 ⟨.put, "k", "a", "c", 1⟩ none ?_
  rw [hlog]
  decide

end Watched

end KvRaft
