import KvRaft.Kv.Service
import KvRaft.Kv.Sound

/-!
# Requests and their commands

Whatever happens in a service, its commands come from requests that its clerks have made, and a
clerk numbers its requests (`Service.Numbered`).  With distinct client ids a command is thus
known by its client and number (`Service.Numbered.op_unique`).

When all servers are given the committed log (`Service.Replicated`), that log is in the order of
the requests: a clerk makes the next one only when the last one was answered, and whatever is
answered has been committed (`Service.Replicated.sequential`).
-/

namespace KvRaft

open Session

theorem Clerk.request_tag {s : ℕ} (c : Clerk s) (requestId : ℤ) (call : ClerkCall) :
    (c.request requestId call).op.tag = (c.clientId, requestId) := by
  cases call <;> rfl

namespace Service

variable {m s : ℕ} {ids : Fin m → String} {S S' : Service m s} {a : ServiceAction m s}

/-- Some clerk has made the request. -/
def Made (S : Service m s) (req : Request) : Prop := ∃ i, ∃ x ∈ S.calls i, x.req = req

/-- Some clerk has made the request of the command. -/
def MadeOp (S : Service m s) (op : Op) : Prop := ∃ req, S.Made req ∧ req.op = op

/-- **Commands come from numbered requests.** -/
structure Numbered (ids : Fin m → String) (S : Service m s) : Prop where
  clientId : ∀ i, (S.clerks i).clientId = ids i
  requestId : ∀ i, (S.clerks i).requestId = (S.calls i).length
  tag : ∀ i (k : ℕ) (x : Asked), (S.calls i)[k]? = some x → x.req.op.tag = (ids i, (k : ℤ) + 1)
  current : ∀ i call, (S.clerks i).call = some call →
    ∃ x, (S.calls i).getLast? = some x ∧ x.req = call.req
  rpc : ∀ i req server rpc, (S.clerks i).call = some ⟨req, server, some rpc⟩ →
    ((S.servers server).handlers.map Handler.req)[rpc]? = some req
  handler : ∀ j, ∀ h ∈ (S.servers j).handlers, S.Made h.req
  started : ∀ x ∈ S.started, S.MadeOp x.2
  committed : ∀ op ∈ S.committed, S.MadeOp op
  pending : ∀ j op, (S.servers j).loop.pending = some op → S.MadeOp op
  applied : ∀ j, ∀ op ∈ (S.servers j).ops, S.MadeOp op
  sound : ∀ j, (S.servers j).Sound

theorem numbered_init (ids : Fin m → String) : Numbered ids (init ids : Service m s) where
  clientId i := rfl
  requestId i := rfl
  tag i k x h := by simp [init] at h
  current i call h := by cases h
  rpc i req server rpc h := by cases h
  handler j h hh := by cases hh
  started x hx := by cases hx
  committed op h := by cases h
  pending j op h := by cases h
  applied j op h := by cases h
  sound j := KvProcess.sound_init

/-! ### Tags -/

section

variable (hn : Numbered ids S) (hids : Function.Injective ids)
include hn

theorem Numbered.exists_of_made {req : Request} (h : S.Made req) :
    ∃ i, ∃ k : ℕ, ∃ x, (S.calls i)[k]? = some x ∧ x.req = req ∧
      req.op.tag = (ids i, (k : ℤ) + 1) := by
  obtain ⟨i, x, hx, rfl⟩ := h
  obtain ⟨k, hk⟩ := List.mem_iff_getElem?.1 hx
  exact ⟨i, k, x, hk, rfl, hn.tag i k x hk⟩

theorem Numbered.one_le {op : Op} (h : S.MadeOp op) : 1 ≤ op.tag.2 := by
  obtain ⟨req, hm, rfl⟩ := h
  obtain ⟨i, k, x, -, -, ht⟩ := hn.exists_of_made hm
  rw [ht]
  exact Int.le_add_of_nonneg_left (Int.natCast_nonneg k)

include hids

/-- A request is known by its client and number. -/
theorem Numbered.made_unique {req req' : Request} (h : S.Made req) (h' : S.Made req')
    (ht : req.op.tag = req'.op.tag) : req = req' := by
  obtain ⟨i, k, x, hx, rfl, hk⟩ := hn.exists_of_made h
  obtain ⟨i', k', x', hx', rfl, hk'⟩ := hn.exists_of_made h'
  rw [hk, hk'] at ht
  obtain ⟨hi, hkk⟩ := Prod.mk.inj ht
  obtain rfl := hids hi
  obtain rfl : k = k' := by omega
  rw [Option.some.inj (hx.symm.trans hx')]

/-- A command is known by its client and number. -/
theorem Numbered.op_unique {op op' : Op} (h : S.MadeOp op) (h' : S.MadeOp op')
    (ht : op.tag = op'.tag) : op = op' := by
  obtain ⟨req, hm, rfl⟩ := h
  obtain ⟨req', hm', rfl⟩ := h'
  rw [hn.made_unique hids hm hm' ht]

/-- No command has a number that its client has not reached. -/
theorem Numbered.le_length {op : Op} {i : Fin m} (h : S.MadeOp op) (hi : op.clientId = ids i) :
    op.requestId ≤ (S.calls i).length := by
  obtain ⟨req, hm, rfl⟩ := h
  obtain ⟨i', k, x, hx, -, ht⟩ := hn.exists_of_made hm
  obtain ⟨hc, hr⟩ := Prod.mk.inj ht
  obtain rfl : i' = i := hids (hc.symm.trans hi)
  have := (List.getElem?_eq_some_iff.1 hx).1
  omega

end

/-! ### Steps -/

theorem Made.mono {req : Request} (h : S.Made req)
    (hc : ∀ i, S.calls i <+: S'.calls i) : S'.Made req := by
  obtain ⟨i, x, hx, rfl⟩ := h
  exact ⟨i, x, (hc i).subset hx, rfl⟩

theorem MadeOp.mono {op : Op} (h : S.MadeOp op) (hc : ∀ i, S.calls i <+: S'.calls i) :
    S'.MadeOp op := by
  obtain ⟨req, hm, rfl⟩ := h
  exact ⟨req, hm.mono hc, rfl⟩

theorem prefix_begin (i : Fin m) (call : ClerkCall) (i' : Fin m) :
    S.calls i' <+: (S.begin i call).calls i' := by
  rw [begin_calls]
  exact List.prefix_append _ _

/-- A clerk begins a call. -/
theorem Numbered.begin (hn : Numbered ids S) {i : Fin m} {call : ClerkCall}
    (hi : (S.clerks i).call = none) : Numbered ids (S.begin i call) where
  clientId i' := by
    rw [begin_clerks]
    split_ifs with h
    · exact h ▸ hn.clientId i
    · exact hn.clientId i'
  requestId i' := by
    rw [begin_clerks, begin_calls]
    split_ifs with h
    · subst h
      simp [Clerk.begin, hn.requestId]
    · simp [hn.requestId]
  tag i' k x hx := by
    rw [begin_calls] at hx
    split_ifs at hx with h
    · subst h
      rcases getElem?_snoc hx with hx | ⟨rfl, rfl⟩
      · exact hn.tag i' k x hx
      · simp [Clerk.begin, Clerk.request_tag, hn.clientId, hn.requestId]
    · exact hn.tag i' k x (by simpa using hx)
  current i' c hc := by
    rw [begin_clerks] at hc
    split_ifs at hc with h
    · subst h
      cases hi.symm.trans hc
    · obtain ⟨x, hx, hreq⟩ := hn.current i' c hc
      exact ⟨x, by simpa [h] using hx, hreq⟩
  rpc i' req server rpc hc := by
    rw [begin_clerks] at hc
    split_ifs at hc with h
    · subst h
      cases hi.symm.trans hc
    · exact hn.rpc i' req server rpc hc
  handler j h hh := (hn.handler j h hh).mono (prefix_begin i call)
  started x hx := (hn.started x hx).mono (prefix_begin i call)
  committed op h := (hn.committed op h).mono (prefix_begin i call)
  pending j op h := (hn.pending j op h).mono (prefix_begin i call)
  applied j op h := (hn.applied j op h).mono (prefix_begin i call)
  sound := hn.sound

/-- A clerk sends an RPC for its current call. -/
theorem Numbered.send (hn : Numbered ids S) {i : Fin m} {call : Call s}
    (hcur : ∃ x, (S.calls i).getLast? = some x ∧ x.req = call.req) :
    Numbered ids (S.send i call) where
  clientId i' := by
    rw [send_clerks]
    split_ifs with h
    · exact h ▸ hn.clientId i
    · exact hn.clientId i'
  requestId i' := by
    rw [send_clerks]
    split_ifs with h
    · exact h ▸ hn.requestId i
    · exact hn.requestId i'
  tag := hn.tag
  current i' c hc := by
    rw [send_clerks] at hc
    split_ifs at hc with h
    · subst h
      obtain rfl := Option.some.inj hc
      exact hcur
    · exact hn.current i' c hc
  rpc i' req server rpc hc := by
    rw [send_clerks] at hc
    rw [send_servers]
    split_ifs at hc with h
    · obtain ⟨rfl, rfl, rfl⟩ : call.req = req ∧ call.server = server ∧
          (S.servers call.server).handlers.length = rpc := by simpa using hc
      simp
    · have := hn.rpc i' req server rpc hc
      rw [List.map_append, List.getElem?_append_left (List.getElem?_eq_some_iff.1 this).1]
      exact this
  handler j h hh := by
    rw [send_servers] at hh
    rcases List.mem_append.1 hh with hh | hh
    · exact hn.handler j h hh
    · split_ifs at hh
      · obtain rfl := List.mem_singleton.1 hh
        obtain ⟨x, hx, hreq⟩ := hcur
        exact ⟨i, x, List.mem_of_getLast? hx, hreq⟩
      · cases hh
  started := hn.started
  committed := hn.committed
  pending j op h := hn.pending j op (by rwa [send_servers] at h)
  applied j op h := hn.applied j op (by rwa [send_servers] at h)
  sound j := by
    rw [send_servers]
    split_ifs
    · exact (hn.sound j).step (a := .call call.req) (by simp) rfl
    · rw [List.append_nil]
      exact hn.sound j

/-- The call of a clerk ends, or its RPC does. -/
theorem Numbered.setClerk (hn : Numbered ids S) {i : Fin m} {leader : Fin (s + 1)}
    {call : Option (Call s)} (hc : ∀ c, call = some c → c.rpc = none ∧
      ∃ x, (S.calls i).getLast? = some x ∧ x.req = c.req) :
    Numbered ids (S.setClerk i { S.clerks i with recentLeaderId := leader, call := call }) where
  clientId i' := by
    rw [setClerk_clerks]
    split_ifs with h
    · exact h ▸ hn.clientId i
    · exact hn.clientId i'
  requestId i' := by
    rw [setClerk_clerks]
    split_ifs with h
    · exact h ▸ hn.requestId i
    · exact hn.requestId i'
  tag := hn.tag
  current i' c h := by
    rw [setClerk_clerks] at h
    split_ifs at h with hi
    · subst hi
      exact (hc c h).2
    · exact hn.current i' c h
  rpc i' req server rpc h := by
    rw [setClerk_clerks] at h
    split_ifs at h
    · cases (hc _ h).1
    · exact hn.rpc i' req server rpc h
  handler := hn.handler
  started := hn.started
  committed := hn.committed
  pending := hn.pending
  applied := hn.applied
  sound := hn.sound

/-- Only requests of handlers are started. -/
theorem mem_starts {p : KvProcess} {a : KvAction} {x : ℤ × Op} (h : x ∈ p.starts a) :
    ∃ h ∈ p.handlers, x.2 = h.req.op := by
  unfold KvProcess.starts at h
  split at h
  · obtain ⟨h', hget, rfl⟩ := Option.map_eq_some_iff.1 (Option.mem_toList.1 h)
    exact ⟨h', List.mem_of_getElem? hget, rfl⟩
  · cases h

/-- A server makes a step. -/
theorem Numbered.server (hn : Numbered ids S) {j : Fin (s + 1)} {a : KvAction} {p : KvProcess}
    (hall : S.allowed a = true) (hp : (S.servers j).step a = some p) :
    Numbered ids { S.setServer j p with
      started := S.started ++ (S.servers j).starts a
      acked := S.acked ++ (S.servers j).acks a } := by
  have hcall : ∀ req, a ≠ .call req := by
    rintro req rfl
    cases hall
  have hreqs := KvProcess.step_reqs hcall hp
  have hsound : p.Sound := by
    refine (hn.sound j).step (fun data term index h => ?_) hp
    subst h
    cases hall
  have happ := KvProcess.step_applied hp
  refine ⟨hn.clientId, hn.requestId, hn.tag, hn.current, fun i req server rpc hc => ?_,
    fun j' h hh => ?_, fun x hx => ?_, hn.committed, fun j' op h => ?_, fun j' op h => ?_,
    fun j' => ?_⟩
  · have := hn.rpc i req server rpc hc
    rw [setServer_servers]
    split_ifs with hj
    · rw [hreqs, ← hj]
      exact this
    · exact this
  · rw [setServer_servers] at hh
    split_ifs at hh with hj
    · obtain ⟨h', hh', heq⟩ := List.mem_map.1 (hreqs ▸ List.mem_map_of_mem (f := Handler.req) hh)
      exact heq ▸ hn.handler j h' hh'
    · exact hn.handler j' h hh
  · rcases List.mem_append.1 hx with hx | hx
    · exact hn.started x hx
    · obtain ⟨h, hh, heq⟩ := mem_starts hx
      exact ⟨h.req, hn.handler j h hh, heq.symm⟩
  · rw [setServer_servers] at h
    split_ifs at h with hj
    · rcases happ with ⟨-, hpend⟩ | ⟨x, -, -, hpend, -⟩
      · rcases hpend op h with h | ⟨-, index, installed, rfl⟩
        · exact hn.pending j op h
        · obtain ⟨x, hx, rfl⟩ := List.mem_map.1 (of_decide_eq_true hall)
          exact hn.started x hx
      · cases hpend.symm.trans h
    · exact hn.pending j' op h
  · rw [setServer_servers] at h
    split_ifs at h with hj
    · rcases happ with ⟨heq, -⟩ | ⟨x, hx, heq, -⟩
      · rw [KvProcess.ops, heq] at h
        exact hn.applied j op h
      · rw [KvProcess.ops, heq, List.map_append] at h
        rcases List.mem_append.1 h with h | h
        · exact hn.applied j op h
        · obtain rfl : op = x.op := by simpa using h
          exact hn.pending j x.op hx
    · exact hn.applied j' op h
  · rw [setServer_servers]
    split_ifs with hj
    · exact hsound
    · exact hn.sound j'

/-- **The requests are numbered in every run.** -/
theorem Numbered.step (hn : Numbered ids S) (hst : S.step a = some S') : Numbered ids S' := by
  cases moves_of_step hst with
  | call i call hi =>
    refine (hn.begin hi).send
      ⟨{ req := ((S.clerks i).begin call).2.req, acked := S.acked }, ?_, rfl⟩
    simp
  | retry i req server hi => exact hn.send (hn.current i _ hi)
  | again a i call server hi =>
    refine hn.setClerk fun c hc => ?_
    obtain rfl := Option.some.inj hc
    exact ⟨rfl, hn.current i call hi⟩
  | answer i req server leader rpc h reply hi hget hpc hrep =>
    have : Numbered ids
        (S.setClerk i { S.clerks i with recentLeaderId := leader, call := none }) :=
      hn.setClerk nofun
    exact ⟨this.clientId, this.requestId, this.tag, this.current, this.rpc, this.handler,
      this.started, this.committed, this.pending, this.applied, this.sound⟩
  | server j a p hall hp => exact hn.server hall hp
  | commit k index op hk =>
    refine ⟨hn.clientId, hn.requestId, hn.tag, hn.current, hn.rpc, hn.handler, hn.started,
      fun x hx => ?_, hn.pending, hn.applied, hn.sound⟩
    rcases List.mem_append.1 hx with hx | hx
    · exact hn.committed x hx
    · obtain rfl := List.mem_singleton.1 hx
      exact hn.started _ (List.mem_of_getElem? hk)

/-! ### The committed log -/

/-- **The servers follow the committed log**, and what was answered is in it. -/
structure Replicated (ids : Fin m → String) (S : Service m s) : Prop where
  ops : ∀ j, (S.servers j).ops <+: S.committed
  pending : ∀ j op, (S.servers j).loop.pending = some op →
    S.committed[(S.servers j).applied.length]? = some op
  dense : Dense Op.tag S.committed
  completed : ∀ i (k : ℕ) (x : Asked), (S.calls i)[k]? = some x →
    k + 1 < (S.calls i).length ∨ (S.clerks i).call = none → x.req.op ∈ S.committed
  acked : ∀ op ∈ S.acked, op ∈ S.committed
  /-- What was acknowledged before a request had been committed before it. -/
  asked : ∀ i (k : ℕ) (x : Asked), (S.calls i)[k]? = some x → ∃ l, l <+: S.committed ∧
    (∀ op ∈ x.acked, op ∈ l) ∧ ∀ op ∈ l, op.clientId = ids i → op.requestId ≤ k

theorem replicated_init (ids : Fin m → String) : Replicated ids (init ids : Service m s) where
  ops j := List.prefix_refl _
  pending j op h := by cases h
  dense := dense_nil
  completed i k x h := by simp [init] at h
  acked op h := by cases h
  asked i k x h := by simp [init] at h

section

variable (hids : Function.Injective ids) (hn : Numbered ids S) (hr : Replicated ids S)
include hids hn hr

/-- What a server knows has been committed. -/
theorem Replicated.mem_of_knows {j : Fin (s + 1)} {k : ℕ} {op : Op}
    (h : (S.servers j).Knows k op) (hop : S.MadeOp op) : op ∈ S.committed := by
  have hreach : Reached Op.tag S.committed op.clientId op.requestId :=
    Reached.mono h fun x hx => (hr.ops j).subset (List.mem_of_mem_take hx)
  obtain ⟨x, hx, ht⟩ := hr.dense.exists_tag hreach (hn.one_le hop)
  exact hn.op_unique hids (hn.committed x hx) hop ht ▸ hx

/-- The command of a request that was answered has been committed. -/
theorem Replicated.mem_of_answers {j : Fin (s + 1)} {req : Request} {reply : Reply}
    (h : (S.servers j).Answers req reply) (hreq : S.Made req) : req.op ∈ S.committed :=
  hr.mem_of_knows hids hn (KvProcess.knows_of_answers h) ⟨req, hreq, rfl⟩

/-- A reply other than `ErrWrongLeader` is given to a request whose command is committed. -/
theorem Replicated.mem_of_reply {j : Fin (s + 1)} {h : Handler} {reply : Reply}
    (hh : h ∈ (S.servers j).handlers) (hpc : h.pc = .returned reply ∨ ∃ i, h.pc = .leaving i reply)
    (hrep : reply.err ≠ .errWrongLeader) : h.req.op ∈ S.committed := by
  have hs := (hn.sound j).handler h hh
  have hanswers : (S.servers j).Answers h.req reply := by
    unfold KvProcess.HandlerSound at hs
    rcases hpc with hpc | ⟨i, hpc⟩ <;> rw [hpc] at hs <;> exact hs hrep
  exact hr.mem_of_answers hids hn hanswers (hn.handler j h hh)

/-- **The committed log is in the order of the requests.** -/
theorem Replicated.sequential : Sequential Op.tag S.committed :=
  hr.dense.sequential (fun op h => hn.one_le (hn.committed op h)) fun op h op' h' ht =>
    hn.op_unique hids (hn.committed op h) (hn.committed op' h') ht

end

/-- A write is acknowledged by a handler that leaves with `OK`. -/
theorem mem_acks {p : KvProcess} {a : KvAction} {op : Op} (h : op ∈ p.acks a) :
    ∃ h ∈ p.handlers, ∃ i reply, h.pc = .leaving i reply ∧ reply.err ≠ .errWrongLeader ∧
      h.req.op = op := by
  unfold KvProcess.acks at h
  split at h
  · split at h
    · rename_i hget
      obtain rfl := List.mem_singleton.1 h
      exact ⟨_, List.mem_of_getElem? hget, _, _, rfl, by simp, rfl⟩
    · cases h
  · cases h

section

variable (hids : Function.Injective ids) (hn : Numbered ids S) (hr : Replicated ids S)
include hids hn hr

/-- A clerk begins a call: all its earlier requests were answered. -/
theorem Replicated.call {i : Fin m} {call : ClerkCall} (hi : (S.clerks i).call = none) :
    Replicated ids ((S.begin i call).send i ((S.clerks i).begin call).2) where
  ops j := by
    rw [send_servers]
    exact hr.ops j
  pending j op h := by
    rw [send_servers] at h ⊢
    exact hr.pending j op h
  dense := hr.dense
  completed i' k x hx h := by
    change ((S.begin i call).calls i')[k]? = some x at hx
    change k + 1 < ((S.begin i call).calls i').length ∨ _ at h
    rw [send_clerks, begin_calls] at h
    rw [begin_calls] at hx
    split_ifs at hx h with heq
    · subst heq
      rcases getElem?_snoc hx with hx | ⟨rfl, rfl⟩
      · exact hr.completed i' k x hx (Or.inr hi)
      · simp at h
    · rw [List.append_nil] at hx h
      exact hr.completed i' k x hx (by simpa [heq] using h)
  acked := hr.acked
  asked i' k x hx := by
    change ((S.begin i call).calls i')[k]? = some x at hx
    rw [begin_calls] at hx
    split_ifs at hx with heq
    · subst heq
      rcases getElem?_snoc hx with hx | ⟨rfl, rfl⟩
      · exact hr.asked i' k x hx
      · exact ⟨S.committed, List.prefix_refl _, hr.acked, fun op h hop =>
          hn.le_length hids (hn.committed op h) hop⟩
    · rw [List.append_nil] at hx
      exact hr.asked i' k x hx

omit hids hn in
/-- No clerk ends a call. -/
theorem Replicated.of_clerks (hcalls : S'.calls = S.calls) (hcom : S'.committed = S.committed)
    (hacked : S'.acked = S.acked) (happ : ∀ j, (S'.servers j).applied = (S.servers j).applied)
    (hloop : ∀ j, (S'.servers j).loop = (S.servers j).loop)
    (hnone : ∀ i, (S'.clerks i).call = none → (S.clerks i).call = none) : Replicated ids S' where
  ops j := by
    rw [KvProcess.ops, happ, hcom]
    exact hr.ops j
  pending j op h := by
    rw [hloop] at h
    rw [happ, hcom]
    exact hr.pending j op h
  dense := hcom ▸ hr.dense
  completed i k x hx h := by
    rw [hcalls] at hx h
    rw [hcom]
    exact hr.completed i k x hx (h.imp_right (hnone i))
  acked := by
    rw [hacked, hcom]
    exact hr.acked
  asked i k x hx := by
    rw [hcom]
    exact hr.asked i k x (by rwa [hcalls] at hx)

/-- A clerk ends a call that was answered. -/
theorem Replicated.answer {i : Fin m} {req : Request} {server leader : Fin (s + 1)} {rpc : ℕ}
    {h : Handler} {reply : Reply} (hi : (S.clerks i).call = some ⟨req, server, some rpc⟩)
    (hget : (S.servers server).handlers[rpc]? = some h) (hpc : h.pc = .returned reply)
    (hrep : reply.err ≠ .errWrongLeader) :
    Replicated ids (S.setClerk i { S.clerks i with recentLeaderId := leader, call := none }) where
  ops := hr.ops
  pending := hr.pending
  dense := hr.dense
  completed i' k x hx hk := by
    rw [setClerk_clerks] at hk
    by_cases heq : i' = i
    · subst heq
      obtain ⟨y, hy, hreq⟩ := hn.current i' _ hi
      have hlt : k < (S.calls i').length := (List.getElem?_eq_some_iff.1 hx).1
      rcases Nat.lt_or_ge (k + 1) (S.calls i').length with hk' | hk'
      · exact hr.completed i' k x hx (Or.inl hk')
      · -- the last request is the one that was answered
        obtain rfl : x = y := by
          rw [List.getLast?_eq_getElem?, show (S.calls i').length - 1 = k by omega] at hy
          exact Option.some.inj (hx.symm.trans hy)
        have hreq' : h.req = req := by
          have := hn.rpc i' req server rpc hi
          rw [List.getElem?_map, hget] at this
          exact Option.some.inj this
        rw [hreq, ← hreq']
        exact hr.mem_of_reply hids hn (List.mem_of_getElem? hget) (Or.inl hpc) hrep
    · exact hr.completed i' k x hx (by simpa [heq] using hk)
  acked := hr.acked
  asked := hr.asked

/-- A server makes a step. -/
theorem Replicated.server {j : Fin (s + 1)} {a : KvAction} {p : KvProcess}
    (hc : S.Consensus (.server j a)) (hp : (S.servers j).step a = some p) :
    Replicated ids { S.setServer j p with
      started := S.started ++ (S.servers j).starts a
      acked := S.acked ++ (S.servers j).acks a } where
  ops j' := by
    rw [setServer_servers]
    split_ifs with hj
    · subst hj
      rcases KvProcess.step_applied hp with ⟨heq, -⟩ | ⟨x, hx, heq, -⟩
      · rw [KvProcess.ops, heq]
        exact hr.ops j'
      · rw [KvProcess.ops, heq, List.map_append]
        exact isPrefix_snoc (hr.ops j') (by
          rw [List.length_map]
          exact hr.pending j' x.op hx)
    · exact hr.ops j'
  pending j' op h := by
    rw [setServer_servers] at h ⊢
    split_ifs at h ⊢ with hj
    · subst hj
      rcases KvProcess.step_applied hp with ⟨heq, hpend⟩ | ⟨x, -, -, hpend, -⟩
      · rw [heq]
        rcases hpend op h with h | ⟨-, index, installed, rfl⟩
        · exact hr.pending j' op h
        · exact hc.1
      · cases hpend.symm.trans h
    · exact hr.pending j' op h
  dense := hr.dense
  completed := hr.completed
  acked op h := by
    rcases List.mem_append.1 h with h | h
    · exact hr.acked op h
    · obtain ⟨h', hh, i, reply, hpc, hrep, rfl⟩ := mem_acks h
      exact hr.mem_of_reply hids hn hh (Or.inr ⟨i, hpc⟩) hrep
  asked := hr.asked

omit hids in
/-- A command is committed whose client has completed its requests before. -/
theorem Replicated.commit {op : Op} (hop : S.MadeOp op) :
    Replicated ids { S with committed := S.committed ++ [op] } where
  ops j := (hr.ops j).trans (List.prefix_append _ _)
  pending j x h := by
    have := hr.pending j x h
    rw [List.getElem?_append_left (List.getElem?_eq_some_iff.1 this).1]
    exact this
  dense := by
    refine hr.dense.snoc fun q hq hlt => ?_
    obtain ⟨req, hreq, rfl⟩ := hop
    obtain ⟨i, k, x, hx, rfl, ht⟩ := hn.exists_of_made hreq
    have hk : k < (S.calls i).length := (List.getElem?_eq_some_iff.1 hx).1
    rw [ht] at hlt ⊢
    -- the requests of the client before the last one are completed
    obtain ⟨k', rfl⟩ : ∃ k' : ℕ, q = k' + 1 := ⟨(q - 1).toNat, by omega⟩
    have hk' : k' < (S.calls i).length := by simp at hlt; omega
    have hget := List.getElem?_eq_getElem hk'
    exact ⟨_, hr.completed i k' _ hget (Or.inl (by simp at hlt; omega)), hn.tag i k' _ hget⟩
  completed i k x hx h := List.mem_append_left _ (hr.completed i k x hx h)
  acked x h := List.mem_append_left _ (hr.acked x h)
  asked i k x hx := by
    obtain ⟨l, hl, h⟩ := hr.asked i k x hx
    exact ⟨l, hl.trans (List.prefix_append _ _), h⟩

/-- **The servers follow the committed log in every run with consensus.** -/
theorem Replicated.step (hc : S.Consensus a) (hst : S.step a = some S') : Replicated ids S' := by
  cases moves_of_step hst with
  | call i call hi => exact hr.call hids hn hi
  | retry i req server hi =>
    refine hr.of_clerks rfl rfl rfl (fun j => ?_) (fun j => ?_) fun i' h => ?_
    · rw [send_servers]
    · rw [send_servers]
    · rw [send_clerks] at h
      split_ifs at h
      exact h
  | again a i call server hi =>
    refine hr.of_clerks rfl rfl rfl (fun j => rfl) (fun j => rfl) fun i' h => ?_
    rw [setClerk_clerks] at h
    split_ifs at h
    exact h
  | answer i req server leader rpc h reply hi hget hpc hrep =>
    have : Replicated ids
        (S.setClerk i { S.clerks i with recentLeaderId := leader, call := none }) :=
      hr.answer hids hn hi hget hpc hrep
    exact ⟨this.ops, this.pending, this.dense, this.completed, this.acked, this.asked⟩
  | server j a p hall hp => exact hr.server hids hn hc hp
  | commit k index op hk => exact hr.commit hn (hn.started _ (List.mem_of_getElem? hk))

end

theorem numbered_of_reachable (h : (machine m s).Reachable (init ids) S) : Numbered ids S :=
  h.invariant (numbered_init ids) fun _ _ _ hn _ hst => hn.step hst

theorem replicated_of_reaches (hids : Function.Injective ids)
    (h : (machine m s).Reaches Consensus (init ids) S) : Replicated ids S := by
  refine (h.invariant (I := fun S => Numbered ids S ∧ Replicated ids S)
    ⟨numbered_init ids, replicated_init ids⟩ ?_).2
  rintro S a S' ⟨hn, hr⟩ hc hst
  exact ⟨hn.step hst, hr.step hids hn hc hst⟩

end Service

end KvRaft
