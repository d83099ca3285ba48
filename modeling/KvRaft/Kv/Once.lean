import KvRaft.Kv.Sound
import Mathlib.Data.List.Induction

/-!
# What the request table records

`KvServer.Records` says that the request table of a server goes with the commands it has applied:
an entry is the number of one of them, and at least that of every write among them.  With it, a
command in sequence is a duplicate exactly if it has been applied (`Records.duplicate_iff`).

The apply loop keeps this (`Records.execute`, `Records.duplicate`), but a Get handler records its
own number whenever it gets to read, which may be after later requests of its client: the step
that `KvProcess.NoRewind` excludes.  `KvProcess.Once` is what holds without such steps: the apply
loop executes a write when it is the first command with its client and number, and the store of
the server is the one that `KvServer.replay` computes from its commands.
-/

namespace KvRaft

open Session

namespace KvServer

/-- **The request table goes with the commands.** -/
structure Records (kv : KvServer) (l : List Op) : Prop where
  reached : ∀ c t, kv.lastRequestId c = some t → Reached Op.tag l c t
  recorded : ∀ op ∈ l, op.isWrite = true →
    ∃ last, kv.lastRequestId op.clientId = some last ∧ op.requestId ≤ last

variable {kv : KvServer} {l : List Op} {op : Op}

theorem records_init : Records .init [] where
  reached c t h := by cases h
  recorded op h := by cases h

/-- A duplicate has been applied. -/
theorem Records.mem_of_duplicate (h : kv.Records l) (hseq : Sequential Op.tag (l ++ [op]))
    (hd : kv.ifRequestDuplicate op.clientId op.requestId = true) : op ∈ l := by
  obtain ⟨last, hl, hle⟩ := ifRequestDuplicate_eq_true.1 hd
  exact hseq.mem_of_reached ((h.reached _ _ hl).of_le hle)

/-- **A write in sequence is a duplicate if it has been applied.** -/
theorem Records.duplicate_iff (h : kv.Records l) (hseq : Sequential Op.tag (l ++ [op]))
    (hw : op.isWrite = true) :
    kv.ifRequestDuplicate op.clientId op.requestId = true ↔ op ∈ l :=
  ⟨h.mem_of_duplicate hseq, fun hmem => ifRequestDuplicate_eq_true.2 (h.recorded op hmem hw)⟩

theorem Records.duplicate (h : kv.Records l) (hseq : Sequential Op.tag (l ++ [op]))
    (hd : kv.ifRequestDuplicate op.clientId op.requestId = true) : kv.Records (l ++ [op]) where
  reached c t ht := (h.reached c t ht).mono fun x hx => List.mem_append_left _ hx
  recorded x hx hw := by
    rcases List.mem_append.1 hx with hx | hx
    · exact h.recorded x hx hw
    · obtain rfl := List.mem_singleton.1 hx
      exact h.recorded x (h.mem_of_duplicate hseq hd) hw

theorem Records.execute (h : kv.Records l) (hseq : Sequential Op.tag (l ++ [op]))
    (hnew : op.isWrite = true → op ∉ l) : (kv.execute op).Records (l ++ [op]) := by
  have hsub : ∀ x ∈ l, x ∈ l ++ [op] := fun x hx => List.mem_append_left _ hx
  cases hw : op.isWrite with
  | false =>
    rw [execute_of_not_isWrite hw]
    refine ⟨fun c t ht => (h.reached c t ht).mono hsub, fun x hx hxw => ?_⟩
    rcases List.mem_append.1 hx with hx | hx
    · exact h.recorded x hx hxw
    · rw [List.mem_singleton.1 hx, hw] at hxw
      cases hxw
  | true =>
    rw [execute_of_isWrite hw]
    refine ⟨fun c t ht => ?_, fun x hx hxw => ?_⟩
    · simp only [insertAndRecord, Function.update_apply] at ht
      split_ifs at ht with hc
      · obtain rfl := Option.some.inj ht
        exact hc ▸ reached_of_mem (by simp)
      · exact (h.reached c t ht).mono hsub
    · simp only [insertAndRecord, Function.update_apply]
      split_ifs with hc
      · refine ⟨op.requestId, rfl, ?_⟩
        rcases List.mem_append.1 hx with hx | hx
        · -- a later request of the client would have come after this one
          refine le_of_not_gt fun hlt => hnew hw ?_
          exact hseq.mem_of_reached ⟨x, hx, hc, le_of_lt hlt⟩
        · rw [List.mem_singleton.1 hx]
      · rcases List.mem_append.1 hx with hx | hx
        · exact h.recorded x hx hxw
        · exact absurd (congrArg Op.clientId (List.mem_singleton.1 hx)) hc

/-! ### Replay -/

/-- `GetCommandFromRaft` on the store. -/
def applyCommand (kv : KvServer) (op : Op) : KvServer :=
  if kv.ifRequestDuplicate op.clientId op.requestId then kv else kv.execute op

/-- The server after the commands, applied in order from the empty store. -/
def replay (cmds : List Op) : KvServer := cmds.foldl applyCommand .init

theorem replay_snoc (cmds : List Op) (op : Op) :
    replay (cmds ++ [op]) = (replay cmds).applyCommand op := by
  simp [replay]

theorem records_replay {cmds : List Op} (hseq : Sequential Op.tag cmds) :
    (replay cmds).Records cmds := by
  induction cmds using List.reverseRecOn with
  | nil => exact records_init
  | append_singleton cmds op ih =>
    have h := ih (hseq.of_isPrefix ⟨[op], rfl⟩)
    rw [replay_snoc, applyCommand]
    split_ifs with hd
    · exact h.duplicate hseq hd
    · exact h.execute hseq fun hw hmem => hd ((h.duplicate_iff hseq hw).2 hmem)

/-- **Replay executes a write when it comes first.** -/
theorem replay_skipList {cmds : List Op} {op : Op} (hseq : Sequential Op.tag (cmds ++ [op])) :
    (replay (cmds ++ [op])).skipList =
      if op.isWrite = true ∧ op ∉ cmds then
        Function.update (replay cmds).skipList op.key (some op.value)
      else (replay cmds).skipList := by
  have h := records_replay (hseq.of_isPrefix ⟨[op], rfl⟩)
  rw [replay_snoc, applyCommand]
  cases hw : op.isWrite with
  | false =>
    rw [execute_of_not_isWrite hw, ite_self]
    simp
  | true =>
    by_cases hmem : op ∈ cmds
    · rw [if_pos ((h.duplicate_iff hseq hw).2 hmem), if_neg (by simp [hmem])]
    · rw [if_neg fun hd => hmem ((h.duplicate_iff hseq hw).1 hd), if_pos ⟨rfl, hmem⟩,
        execute_skipList, if_pos hw]

end KvServer

namespace KvProcess

variable {p p' : KvProcess} {a : KvAction}

/-- The condition on a step of a server: a Get that reads does not lower the entry of its
client. -/
def NoRewind (p : KvProcess) : KvAction → Prop
  | .handle k .run =>
    match p.handlers[k]? with
    | some { req := .get args, pc := .reading _ } =>
      ∀ last ∈ p.kv.lastRequestId args.clientid, last ≤ args.requestid
    | _ => True
  | _ => True

instance (p : KvProcess) (a : KvAction) : Decidable (p.NoRewind a) := by
  unfold NoRewind
  split
  · split <;> infer_instance
  · infer_instance

/-- What keeps the writes of a server unique. -/
structure Once (p : KvProcess) : Prop where
  wrote : ∀ (k : ℕ) (x : Applied), p.applied[k]? = some x →
    (x.wrote = true ↔ x.op.isWrite = true ∧ ∀ op ∈ p.ops.take k, op.tag ≠ x.op.tag)
  recorded : ∀ op ∈ p.ops, op.isWrite = true →
    ∃ last, p.kv.lastRequestId op.clientId = some last ∧ op.requestId ≤ last
  fresh : ∀ op index, p.loop = .execute op index → op.isWrite = true → op ∉ p.ops

theorem once_init : Once {} where
  wrote k x h := by cases h
  recorded op h := by cases h
  fresh op index h := by cases h

/-- A step that applies nothing and lowers no entry. -/
theorem Once.frame (ho : p.Once) (happ : p'.applied = p.applied)
    (ht : ∀ c last, p.kv.lastRequestId c = some last →
      ∃ last', p'.kv.lastRequestId c = some last' ∧ last ≤ last')
    (hf : ∀ op index, p'.loop = .execute op index → op.isWrite = true → op ∉ p.ops) : p'.Once where
  wrote k x h := by
    rw [ops, happ]
    exact ho.wrote k x (by rwa [happ] at h)
  recorded op h hw := by
    rw [ops, happ] at h
    obtain ⟨last, hl, hle⟩ := ho.recorded op h hw
    obtain ⟨last', hl', hle'⟩ := ht _ last hl
    exact ⟨last', hl', hle.trans hle'⟩
  fresh op index h hw := by
    rw [ops, happ]
    exact hf op index h hw

/-- The table of a server goes with its commands. -/
theorem Once.records (ho : p.Once) (hs : p.Sound) : p.kv.Records p.ops :=
  ⟨hs.table, ho.recorded⟩

/-- The server is done with a command. -/
theorem Once.apply (ho : p.Once) {op : Op} {kv' : KvServer} {loop' : ApplyLoop} {wrote : Bool}
    (hwrote : wrote = true ↔ op.isWrite = true ∧ ∀ x ∈ p.ops, x.tag ≠ op.tag)
    (hrec : kv'.Records (p.ops ++ [op])) (hloop : loop'.pending = none) :
    Once { p with
      kv := kv', loop := loop', applied := p.applied ++ [⟨op, wrote, kv'.skipList⟩] } where
  wrote k x h := by
    rw [ops_append]
    rcases getElem?_snoc h with h | ⟨rfl, rfl⟩
    · rw [List.take_append_of_le_length]
      · exact ho.wrote k x h
      · rw [length_ops]
        exact Nat.le_of_lt (List.getElem?_eq_some_iff.1 h).1
    · rw [← length_ops, List.take_left]
      exact hwrote
  recorded x h hw := hrec.recorded x (by rwa [ops_append] at h) hw
  fresh x index h hw := by
    change loop' = .execute x index at h
    rw [h] at hloop
    cases hloop

/-- A handler makes a step. -/
theorem Once.handle (ho : p.Once) {k : ℕ} {h : Handler} {input : Input} {kv' : KvServer}
    {pc : HandlerPc} (hk : p.handlers[k]? = some h) (hm : h.Moves p.kv input kv' pc)
    (hr : p.NoRewind (.handle k input)) :
    Once { p with kv := kv', handlers := p.handlers.set k { h with pc := pc } } := by
  have key : (∀ c last, p.kv.lastRequestId c = some last →
      ∃ last', kv'.lastRequestId c = some last' ∧ last ≤ last') →
      Once { p with kv := kv', handlers := p.handlers.set k { h with pc := pc } } :=
    fun ht => ho.frame rfl ht ho.fresh
  cases hm with
  | goOn input kv' pc hsame | found args i kv' hreq hsame | acknowledge args i kv' hreq hsame =>
    exact key fun c last hl => ⟨last, by rw [hsame.lastRequestId, hl], le_rfl⟩
  | close => exact key fun c last hl => ⟨last, hl, le_rfl⟩
  | read args i hreq hpc =>
    obtain ⟨req, pc⟩ := h
    obtain rfl : req = .get args := hreq
    obtain rfl : pc = .reading i := hpc
    refine key fun c last hl => ?_
    simp only [NoRewind, hk] at hr
    simp only [KvServer.executeGetOpOnKVDB, Function.update_apply]
    split_ifs with hc
    · subst hc
      exact ⟨_, rfl, hr last hl⟩
    · exact ⟨last, hl, le_rfl⟩

/-- **One step keeps the writes unique**, if it lowers no entry and the commands are in the order
of the requests. -/
theorem Once.step (ho : p.Once) (hs : p.Sound) (hr : p.NoRewind a)
    (ha : ∀ data term index, a ≠ .receive (.snapshot data term index) true)
    (hseq : ∀ op, p.loop.pending = some op → Sequential Op.tag (p.ops ++ [op]))
    (hst : p.step a = some p') : p'.Once := by
  cases moves_of_step hst with
  | skip => exact ho
  | receive => exact ho.frame rfl (fun c last hl => ⟨last, hl, le_rfl⟩) fun _ _ h => by cases h
  | getSnapShotFromRaft data term index installed =>
    cases installed with
    | true => exact absurd rfl (ha data term index)
    | false => exact ho.frame rfl (fun c last hl => ⟨last, hl, le_rfl⟩) ho.fresh
  | duplicate op index hloop hdup =>
    have hsq := hseq op (by rw [hloop]; rfl)
    have hrec := ho.records hs
    refine ho.apply ?_ (hrec.duplicate hsq hdup) rfl
    simp only [Bool.false_eq_true, false_iff, not_and]
    exact fun _ hne => hne op (hrec.mem_of_duplicate hsq hdup) rfl
  | fresh op index hloop hdup =>
    refine ho.frame rfl (fun c last hl => ⟨last, hl, le_rfl⟩) fun x i h hw hmem => ?_
    obtain ⟨rfl, -⟩ := ApplyLoop.execute.inj h
    have := ((ho.records hs).duplicate_iff (hseq op (by rw [hloop]; rfl)) hw).2 hmem
    rw [hdup] at this
    cases this
  | execute op index hloop =>
    have hsq := hseq op (by rw [hloop]; rfl)
    have hnew := ho.fresh op index hloop
    refine ho.apply ⟨fun hw => ⟨hw, fun x hx ht => ?_⟩, fun h => h.1⟩
      ((ho.records hs).execute hsq hnew) rfl
    obtain rfl := hsq.unique x (by simp [hx]) op (by simp) ht
    exact hnew hw hx
  | goOn a op kv' loop' hdone hpend hloop' hsame =>
    refine ho.frame rfl (fun c last hl => ⟨last, by rw [hsame.lastRequestId, hl], le_rfl⟩)
      fun x i h => ?_
    change loop' = .execute x i at h
    rw [h] at hpend
    cases hpend
  | call => exact ho.frame rfl (fun c last hl => ⟨last, hl, le_rfl⟩) ho.fresh
  | handle k h input kv' pc hk hm => exact ho.handle hk hm hr

/-- **The stores of a server are those of a replay of its commands.** -/
theorem Once.storeAfter_eq (ho : p.Once) (he : p.Effects) (hseq : Sequential Op.tag p.ops) :
    ∀ k ≤ p.ops.length, p.storeAfter k = (KvServer.replay (p.ops.take k)).skipList
  | 0, _ => rfl
  | k + 1, hk => by
    have ih := ho.storeAfter_eq he hseq k (Nat.le_of_succ_le hk)
    obtain ⟨x, hx⟩ : ∃ x, p.applied[k]? = some x :=
      ⟨_, List.getElem?_eq_getElem (by rwa [length_ops] at hk)⟩
    have htake : p.ops.take (k + 1) = p.ops.take k ++ [x.op] := by
      rw [List.take_add_one, ops, List.getElem?_map, hx]
      rfl
    have hsq : Sequential Op.tag (p.ops.take k ++ [x.op]) :=
      hseq.of_isPrefix (htake ▸ List.take_prefix ..)
    have hfirst : x.wrote = true ↔ x.op.isWrite = true ∧ x.op ∉ p.ops.take k := by
      rw [ho.wrote k x hx]
      refine and_congr_right fun _ => ⟨fun h hmem => h x.op hmem rfl, fun h y hy ht => h ?_⟩
      exact hsq.unique y (by simp [hy]) x.op (by simp) ht ▸ hy
    rw [htake, KvServer.replay_skipList hsq, ← ih, storeAfter, hx]
    change x.skipList = _
    rw [he k x hx]
    exact if_congr hfirst rfl rfl

end KvProcess

end KvRaft
