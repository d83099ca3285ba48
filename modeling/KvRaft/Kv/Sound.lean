import KvRaft.Kv.Process
import KvRaft.Session.Sequential
import Mathlib.Data.Int.ConditionallyCompleteOrder
import Mathlib.Data.Int.Order.Basic
import Mathlib.Order.ConditionallyCompleteLattice.Basic

/-!
# What a server knows

`KvProcess.Sound` is the invariant of a server whatever commands it is given: everything in its
wait channels and in its request table comes from commands it has applied, and so does every
reply other than `ErrWrongLeader`.  It holds in every run (`KvProcess.Sound.step`).

A Get that is answered has read the store after some number of commands, among which is its own
one or a later one of its client (`KvProcess.Answers`).
-/

namespace KvRaft

open Session

/-- The client of a command and the number of its request. -/
def Op.tag (op : Op) : String × ℤ := (op.clientId, op.requestId)

/-- The last element of a list, or one before it. -/
theorem getElem?_snoc {α : Type} {l : List α} {a x : α} {k : ℕ} (h : (l ++ [a])[k]? = some x) :
    l[k]? = some x ∨ k = l.length ∧ x = a := by
  rcases Nat.lt_or_ge k l.length with hk | hk
  · exact Or.inl (by rwa [List.getElem?_append_left hk] at h)
  · obtain ⟨hlen, hx⟩ := List.getElem?_eq_some_iff.1 h
    obtain rfl : k = l.length := by simp at hlen; omega
    exact Or.inr ⟨rfl, by simpa using hx.symm⟩

/-- A prefix goes on with the element that follows it. -/
theorem isPrefix_snoc {α : Type} {l l' : List α} {a : α} (h : l <+: l')
    (ha : l'[l.length]? = some a) : l ++ [a] <+: l' := by
  obtain ⟨t, rfl⟩ := h
  cases t with
  | nil => simp at ha
  | cons b t =>
    obtain rfl : b = a := by simpa using ha
    exact ⟨t, by simp⟩

namespace KvProcess

variable {p p' : KvProcess} {a : KvAction}

theorem length_ops (p : KvProcess) : p.ops.length = p.applied.length := by simp [ops]

/-- After the first `k` commands of the server the request of `op` has been made. -/
def Knows (p : KvProcess) (k : ℕ) (op : Op) : Prop :=
  Reached Op.tag (p.ops.take k) op.clientId op.requestId

/-- The reply is right: a PutAppend has been applied, and a Get says what the store holds after
some commands, its own one among them. -/
def Answers (p : KvProcess) (req : Request) (reply : Reply) : Prop :=
  match req with
  | .putAppend _ => p.Knows p.applied.length req.op
  | .get args => ∃ k ≤ p.applied.length, p.Knows k req.op ∧
      (reply.err = .ok ∧ p.storeAfter k args.key = some reply.value ∨
        reply.err = .errNoKey ∧ p.storeAfter k args.key = none)

/-- What is known about a handler. -/
def HandlerSound (p : KvProcess) (h : Handler) : Prop :=
  match h.pc with
  | .reading _ => p.Knows p.applied.length h.req.op
  | .leaving _ reply | .returned reply => reply.err ≠ .errWrongLeader → p.Answers h.req reply
  | _ => True

/-- Every command has changed the store by its write, or not at all. -/
def Effects (p : KvProcess) : Prop :=
  ∀ (k : ℕ) (x : Applied), p.applied[k]? = some x → x.skipList =
    if x.wrote then Function.update (p.storeAfter k) x.op.key (some x.op.value)
    else p.storeAfter k

/-- **The invariant of a server.** -/
structure Sound (p : KvProcess) : Prop where
  queued : ∀ op, p.kv.Queued op → op ∈ p.ops
  done : ∀ op, p.loop.done = some op → op ∈ p.ops
  table : ∀ c t, p.kv.lastRequestId c = some t → Reached Op.tag p.ops c t
  store : p.kv.skipList = p.storeAfter p.applied.length
  effects : p.Effects
  handler : ∀ h ∈ p.handlers, p.HandlerSound h

theorem sound_init : Sound {} where
  queued op h := by
    obtain ⟨ops, hops, -⟩ := h
    cases hops
  done op h := by cases h
  table c t h := by cases h
  store := rfl
  effects k x h := by cases h
  handler h hh := by cases hh

/-! ### More commands -/

theorem ops_take_length (p : KvProcess) : p.ops.take p.applied.length = p.ops :=
  List.take_of_length_le (by simp [ops])

/-- Further commands leave the stores before them alone. -/
theorem storeAfter_of_isPrefix (h : p.applied <+: p'.applied) {k : ℕ}
    (hk : k ≤ p.applied.length) : p'.storeAfter k = p.storeAfter k := by
  obtain ⟨l, hl⟩ := h
  cases k with
  | zero => rfl
  | succ k => rw [storeAfter, storeAfter, ← hl, List.getElem?_append_left (by omega)]

theorem Knows.mono {k k' : ℕ} {op : Op} (hkn : p.Knows k op) (h : p.applied <+: p'.applied)
    (hk : k ≤ p.applied.length) (hkk' : k ≤ k') : p'.Knows k' op := by
  obtain ⟨l, hl⟩ := h
  refine Reached.mono hkn fun x hx => ?_
  have : p'.ops.take k = p.ops.take k := by
    rw [ops, ops, ← hl, List.map_append, List.take_append_of_le_length (by simpa using hk)]
  rw [← this] at hx
  exact (List.take_subset_take_left _ hkk') hx

theorem Answers.mono {req : Request} {reply : Reply} (ha : p.Answers req reply)
    (h : p.applied <+: p'.applied) : p'.Answers req reply := by
  cases req with
  | putAppend args => exact Knows.mono ha h (Nat.le_refl _) h.length_le
  | get args =>
    obtain ⟨k, hk, hkn, hr⟩ := ha
    exact ⟨k, Nat.le_trans hk h.length_le, hkn.mono h hk (Nat.le_refl k),
      by rwa [storeAfter_of_isPrefix h hk]⟩

theorem HandlerSound.mono {h : Handler} (hs : p.HandlerSound h) (hp : p.applied <+: p'.applied) :
    p'.HandlerSound h := by
  unfold HandlerSound at hs ⊢
  split
  · rename_i heq
    simp only [heq] at hs
    exact Knows.mono hs hp (Nat.le_refl _) hp.length_le
  · rename_i heq
    simp only [heq] at hs
    exact fun hr => (hs hr).mono hp
  · rename_i heq
    simp only [heq] at hs
    exact fun hr => (hs hr).mono hp
  · trivial

theorem ops_append (p : KvProcess) (kv : KvServer) (loop : ApplyLoop) (hs : List Handler)
    (x : Applied) : KvProcess.ops ⟨kv, loop, hs, p.applied ++ [x]⟩ = p.ops ++ [x.op] := by
  simp [ops]

/-- A duplicate is a request that its client has reached. -/
theorem Sound.reached_of_duplicate (hs : p.Sound) {clientId : String} {requestId : ℤ}
    (h : p.kv.ifRequestDuplicate clientId requestId = true) :
    Reached Op.tag p.ops clientId requestId := by
  obtain ⟨last, hl, hle⟩ := KvServer.ifRequestDuplicate_eq_true.1 h
  exact (hs.table _ _ hl).of_le hle

/-- What the wait channels and the table report has been applied. -/
theorem Sound.knows_of_reports (hs : p.Sound) {req : Request} (h : p.kv.Reports req) :
    p.Knows p.applied.length req.op := by
  unfold Knows
  rw [ops_take_length]
  rcases h with ⟨op, hq, hc, hr⟩ | hd
  · rw [← hc, ← hr]
    exact reached_of_mem (hs.queued op hq)
  · exact hs.reached_of_duplicate hd

/-- A server that answers a request has applied its command or a later one of its client. -/
theorem knows_of_answers {req : Request} {reply : Reply} (h : p.Answers req reply) :
    p.Knows p.applied.length req.op := by
  cases req with
  | putAppend args => exact h
  | get args =>
    obtain ⟨k, hk, hkn, -⟩ := h
    exact hkn.mono (List.prefix_refl _) hk hk

/-! ### Steps -/

/-- A step of a handler keeps the invariant. -/
theorem Sound.handle (hs : p.Sound) {k : ℕ} {h : Handler} {input : Input} {kv' : KvServer}
    {pc : HandlerPc} (hk : p.handlers[k]? = some h) (hm : h.Moves p.kv input kv' pc) :
    Sound { p with kv := kv', handlers := p.handlers.set k { h with pc := pc } } := by
  have hmem := List.mem_of_getElem? hk
  have hh := hs.handler h hmem
  -- all but the table, the wait channels and the handler stays as it is
  have key : kv'.skipList = p.kv.skipList → (∀ op, kv'.Queued op → p.kv.Queued op) →
      (∀ c t, kv'.lastRequestId c = some t → Reached Op.tag p.ops c t) →
      p.HandlerSound { h with pc := pc } →
      Sound { p with kv := kv', handlers := p.handlers.set k { h with pc := pc } } := by
    intro hstore hq ht hnew
    refine ⟨fun op ho => hs.queued op (hq op ho), hs.done, ht, hstore.trans hs.store,
      hs.effects, fun x hx => ?_⟩
    have hx' : p.HandlerSound x := by
      rcases List.mem_or_eq_of_mem_set hx with hx | rfl
      · exact hs.handler x hx
      · exact hnew
    exact hx'.mono (List.prefix_refl _)
  cases hm with
  | goOn input kv' pc hsame hq hread hrep =>
    refine key hsame.skipList hq (by rw [hsame.lastRequestId]; exact hs.table) ?_
    cases pc with
    | reading i => exact absurd rfl (hread i)
    | leaving i reply => exact fun hr => absurd (hrep i reply (Or.inl rfl)) hr
    | returned reply => exact fun hr => absurd (hrep 0 reply (Or.inr rfl)) hr
    | called | started | waiting | timedOut | asked => trivial
  | found args i kv' hreq hsame hq hr =>
    exact key hsame.skipList hq (by rw [hsame.lastRequestId]; exact hs.table)
      (hs.knows_of_reports hr)
  | acknowledge args i kv' hreq hsame hq hr =>
    refine key hsame.skipList hq (by rw [hsame.lastRequestId]; exact hs.table) fun _ => ?_
    have := hs.knows_of_reports hr
    obtain ⟨req, pc⟩ := h
    obtain rfl : req = .putAppend args := hreq
    exact this
  | read args i hreq hpc =>
    obtain ⟨req, pc⟩ := h
    obtain rfl : req = .get args := hreq
    obtain rfl : pc = .reading i := hpc
    have hkn : p.Knows p.applied.length (Request.get args).op := hh
    refine key rfl (fun op h => h) (fun c t ht => ?_) fun _ => ?_
    · simp only [KvServer.executeGetOpOnKVDB, Function.update_apply] at ht
      split_ifs at ht with hc
      · obtain rfl := Option.some.inj ht
        rw [hc, ← ops_take_length p]
        exact hkn
      · exact hs.table c t ht
    · refine ⟨p.applied.length, Nat.le_refl _, hkn, ?_⟩
      rw [← hs.store]
      cases hv : p.kv.skipList args.key with
      | none => simp [Handler.getReply]
      | some v => simp [Handler.getReply]
  | close i reply hpc =>
    refine key rfl (fun op h => h) hs.table ?_
    unfold HandlerSound at hh
    rw [hpc] at hh
    exact hh

/-- The apply loop is done with a command, of which the table may have been told. -/
theorem Sound.apply (hs : p.Sound) {op : Op} {kv' : KvServer} {loop' : ApplyLoop} {wrote : Bool}
    (hq : kv'.chans = p.kv.chans) (hd : loop'.done = some op)
    (hst : kv'.skipList =
      if wrote then Function.update p.kv.skipList op.key (some op.value) else p.kv.skipList)
    (ht : ∀ c t, kv'.lastRequestId c = some t →
      p.kv.lastRequestId c = some t ∨ c = op.clientId ∧ t = op.requestId) :
    Sound { p with
      kv := kv', loop := loop', applied := p.applied ++ [⟨op, wrote, kv'.skipList⟩] } := by
  have hpre : p.applied <+: p.applied ++ [⟨op, wrote, kv'.skipList⟩] := List.prefix_append ..
  refine ⟨fun x hx => ?_, fun x hx => ?_, fun c t h => ?_, ?_, fun k x hx => ?_, fun h hh => ?_⟩
  · rw [ops_append]
    exact List.mem_append_left _ (hs.queued x (by unfold KvServer.Queued at *; rwa [hq] at hx))
  · obtain rfl : x = op := by simpa [hd] using hx.symm
    simp [ops_append]
  · rw [ops_append]
    rcases ht c t h with h | ⟨rfl, rfl⟩
    · exact (hs.table c t h).mono fun x hx => List.mem_append_left _ hx
    · exact reached_of_mem (by simp)
  · simp [storeAfter]
  · rcases getElem?_snoc hx with hx | ⟨rfl, rfl⟩
    · rw [storeAfter_of_isPrefix hpre (Nat.le_of_lt (List.getElem?_eq_some_iff.1 hx).1)]
      exact hs.effects k x hx
    · rw [storeAfter_of_isPrefix hpre (Nat.le_refl _), ← hs.store]
      exact hst
  · exact (hs.handler h hh).mono hpre

/-- **The invariant holds in every run**, as long as no snapshot is installed. -/
theorem Sound.step (hs : p.Sound)
    (ha : ∀ data term index, a ≠ .receive (.snapshot data term index) true)
    (hst : p.step a = some p') : p'.Sound := by
  cases moves_of_step hst with
  | skip => exact hs
  | receive => exact ⟨hs.queued, (fun x hx => by cases hx), hs.table, hs.store, hs.effects,
      hs.handler⟩
  | getSnapShotFromRaft data term index installed hpop =>
    cases installed with
    | true => exact absurd rfl (ha data term index)
    | false => exact ⟨hs.queued, hs.done, hs.table, hs.store, hs.effects,
      hs.handler⟩
  | duplicate op index hloop hdup => exact hs.apply rfl rfl rfl fun c t h => Or.inl h
  | fresh op index hloop hdup =>
    exact ⟨hs.queued, (fun x hx => by cases hx), hs.table, hs.store, hs.effects,
      hs.handler⟩
  | execute op index hloop =>
    refine hs.apply (KvServer.execute_chans op) rfl (p.kv.execute_skipList op) fun c t h => ?_
    cases hw : op.isWrite with
    | false => exact Or.inl (by rwa [KvServer.execute_of_not_isWrite hw] at h)
    | true =>
      rw [KvServer.execute_of_isWrite hw] at h
      simp only [KvServer.insertAndRecord, Function.update_apply] at h
      split_ifs at h with hc
      · exact Or.inr ⟨hc, (Option.some.inj h).symm⟩
      · exact Or.inl h
  | goOn a op kv' loop' hdone hpend hloop' hsame hq =>
    refine ⟨fun x hx => ?_, fun x hx => ?_, ?_, hsame.skipList.trans hs.store,
      hs.effects, hs.handler⟩
    · rcases hq x hx with hx | rfl
      · exact hs.queued x hx
      · exact hs.done x hdone
    · rw [hloop' x hx]
      exact hs.done op hdone
    · rw [hsame.lastRequestId]
      exact hs.table
  | call req =>
    refine ⟨hs.queued, hs.done, hs.table, hs.store, hs.effects, fun h hh => ?_⟩
    rcases List.mem_append.1 hh with hh | hh
    · exact hs.handler h hh
    · obtain rfl := List.mem_singleton.1 hh
      trivial
  | handle k h input kv' pc hk hm => exact hs.handle hk hm

end KvProcess

end KvRaft
