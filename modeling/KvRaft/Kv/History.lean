import KvRaft.Kv.ExactlyOnce
import KvRaft.Kv.Reads
import KvRaft.LTS.LogOrder

/-!
# Linearizability of the service

A `History` is a service with the calls of its clerks, each with the times of its invocation and of
its return.  If the servers are given the committed log and no Get lowers an entry of a request
table, the calls are linearizable with respect to a map from keys to values, on which Put and Append
both write the value: a write takes effect where its command is first committed, and a Get where its
server stands when it reads.

## Main results

* `History.placed_of_reaches` : every call has its place in the committed log.
* `History.clerks_linearizable` : the calls of all clerks are linearizable.
-/

namespace KvRaft

open Session

/-! ### What requests mean -/

/-- What a call returns: the value for a Get. -/
def Request.result : Request → Reply → Option String
  | .get _, ⟨.ok, value⟩ => some value
  | _, _ => none

/-- The meaning of a request on a map from keys to values. -/
def Request.run (store : String → Option String) :
    Request → Option String × (String → Option String)
  | .get args => (store args.key, store)
  | .putAppend args => (none, Function.update store args.key (some args.value))

/-- The calls of `m` clerks, in the order of their invocations. -/
structure CallLog (m : ℕ) where
  /-- The number of invocations and returns. -/
  now : ℕ := 0
  calls : List (CallRecord Request (Option String)) := []
  /-- The last call of each clerk, by its place in `calls`. -/
  current : Fin m → ℕ := fun _ => 0

namespace CallLog

variable {m : ℕ}

/-- Clerk `i` begins a call. -/
def invoke (L : CallLog m) (i : Fin m) (req : Request) : CallLog m where
  now := L.now + 1
  calls := L.calls ++ [⟨req, L.now, none⟩]
  current := Function.update L.current i L.calls.length

/-- The call of clerk `i` returns. -/
def answer (L : CallLog m) (i : Fin m) (result : Option String) : CallLog m where
  now := L.now + 1
  calls := L.calls.modify (L.current i) fun c => { c with returned := some (result, L.now) }
  current := L.current

end CallLog

/-- A service and the calls of its clerks. -/
structure History (m s : ℕ) extends CallLog m where
  service : Service m s

namespace History

variable {m s : ℕ}

def init (ids : Fin m → String) : History m s := { service := .init ids }

/-- The calls after an action that leads to the service `S`. -/
def record (H : History m s) (S : Service m s) : ServiceAction m s → CallLog m
  | .call i call => H.invoke i ((H.service.clerks i).begin call).2.req
  | .reply i =>
    match S.answers[H.service.answers.length]? with
    | some ans => H.answer i (ans.req.result ans.reply)
    | none => H.toCallLog
  | _ => H.toCallLog

def step (H : History m s) (a : ServiceAction m s) : Option (History m s) :=
  (H.service.step a).map fun S => { H.record S a with service := S }

variable (m s) in
/-- A service with its calls as a machine. -/
def machine : Machine (History m s) (ServiceAction m s) := ⟨step⟩

/-! ### Kinds of steps -/

variable {H H' : History m s} {a : ServiceAction m s}

/-- What a step does to the calls: one is invoked, one returns, or they stay. -/
inductive Records (H H' : History m s) : Prop
  | invoke (i : Fin m) (call : ClerkCall) : (H.service.clerks i).call = none →
      H'.service = (H.service.begin i call).send i ((H.service.clerks i).begin call).2 →
      H'.toCallLog = H.invoke i ((H.service.clerks i).begin call).2.req → Records H H'
  | answer (i : Fin m) (req : Request) (server leader : Fin (s + 1)) (rpc : ℕ) (h : Handler)
      (reply : Reply) : (H.service.clerks i).call = some ⟨req, server, some rpc⟩ →
      (H.service.servers server).handlers[rpc]? = some h → h.pc = .returned reply →
      reply.err ≠ .errWrongLeader →
      H'.service =
        { H.service.setClerk i
            { H.service.clerks i with recentLeaderId := leader, call := none } with
          answers := H.service.answers ++ [⟨req, server, reply⟩] } →
      H'.toCallLog = H.answer i (req.result reply) → Records H H'
  | frame : H'.toCallLog = H.toCallLog → H'.service.calls = H.service.calls →
      H.service.committed <+: H'.service.committed →
      (∀ i call, (H'.service.clerks i).call = some call →
        ∃ call', (H.service.clerks i).call = some call' ∧ call'.req = call.req) → Records H H'

/-- A clerk that sends its request again has the same call. -/
theorem call_of_send {S : Service m s} {i : Fin m} {req : Request} {server : Fin (s + 1)}
    (hi : (S.clerks i).call = some ⟨req, server, none⟩) (i' : Fin m) (call : Call s)
    (h : ((S.send i ⟨req, server, none⟩).clerks i').call = some call) :
    ∃ call', (S.clerks i').call = some call' ∧ call'.req = call.req := by
  rw [Service.send_clerks] at h
  split_ifs at h with heq
  · subst heq
    obtain rfl := Option.some.inj h
    exact ⟨_, hi, rfl⟩
  · exact ⟨call, h, rfl⟩

/-- So does a clerk whose RPC has failed. -/
theorem call_of_again {S : Service m s} {i : Fin m} {call₀ : Call s} {server : Fin (s + 1)}
    (hi : (S.clerks i).call = some call₀) (i' : Fin m) (call : Call s)
    (h : ((S.setClerk i { S.clerks i with call := some ⟨call₀.req, server, none⟩ }).clerks
      i').call = some call) : ∃ call', (S.clerks i').call = some call' ∧ call'.req = call.req := by
  rw [Service.setClerk_clerks] at h
  split_ifs at h with heq
  · subst heq
    obtain rfl := Option.some.inj h
    exact ⟨_, hi, rfl⟩
  · exact ⟨call, h, rfl⟩

theorem records_of_step (h : H.step a = some H') :
    H.service.step a = some H'.service ∧ Records H H' := by
  obtain ⟨S, hS, rfl⟩ := Option.map_eq_some_iff.1 h
  refine ⟨hS, ?_⟩
  cases a with
  | call i call =>
    simp only [Service.step] at hS
    split at hS
    · rename_i hnone
      obtain rfl := Option.some.inj hS
      exact .invoke i call hnone rfl rfl
    · cases hS
  | reply i =>
    cases Service.moves_of_step hS with
    | again a i' call server hi =>
      refine .frame ?_ rfl (List.prefix_refl _) (call_of_again hi)
      -- there is no new answer
      have hnone : H.service.answers[H.service.answers.length]? = none := by simp
      simp only [record]
      split
      · rename_i ans hans
        cases hnone.symm.trans hans
      · rfl
    | answer i req server leader rpc handler reply hi hget hpc hrep =>
      refine .answer i req server leader rpc handler reply hi hget hpc hrep rfl ?_
      simp [record]
  | retry i =>
    cases Service.moves_of_step hS with
    | retry i req server hi => exact .frame rfl rfl (List.prefix_refl _) (call_of_send hi)
    | again a i' call server hi =>
      exact .frame rfl rfl (List.prefix_refl _) (call_of_again hi)
  | fail i =>
    cases Service.moves_of_step hS with
    | again a i' call server hi =>
      exact .frame rfl rfl (List.prefix_refl _) (call_of_again hi)
  | server j a =>
    cases Service.moves_of_step hS with
    | again a i' call server hi =>
      exact .frame rfl rfl (List.prefix_refl _) (call_of_again hi)
    | server j a p hall hp =>
      exact .frame rfl rfl (List.prefix_refl _) fun i call hc => ⟨call, hc, rfl⟩
  | commit k =>
    cases Service.moves_of_step hS with
    | again a i' call server hi =>
      exact .frame rfl rfl (List.prefix_refl _) (call_of_again hi)
    | commit k index op hk =>
      exact .frame rfl rfl (List.prefix_append _ _) fun i call hc => ⟨call, hc, rfl⟩

/-! ### Calls and requests -/

/-- **The calls are the requests of the clerks**, the last one of each being under way as long as
its call is. -/
structure Tracks (H : History m s) : Prop where
  current : ∀ i call, (H.service.clerks i).call = some call →
    ∃ t, H.calls[H.current i]? = some ⟨call.req, t, none⟩
  invoked : ∀ c ∈ H.calls, c.invoked < H.now
  made : ∀ c ∈ H.calls, H.service.Made c.op
  exists_call : ∀ req, H.service.Made req → ∃ c ∈ H.calls, c.op = req
  unique : (H.calls.map CallRecord.op).Nodup
  write : ∀ c ∈ H.calls, ∀ args, c.op = .putAppend args → c.op.op.isWrite = true

theorem tracks_init (ids : Fin m → String) : Tracks (init ids : History m s) where
  current i call h := by cases h
  invoked c hc := by cases hc
  made c hc := by cases hc
  exists_call req h := by
    obtain ⟨i, x, hx, -⟩ := h
    cases hx
  unique := List.nodup_nil
  write c hc := by cases hc

theorem getElem?_return {calls : List (CallRecord Request (Option String))} {k j : ℕ}
    {x : Option String × ℕ} {c : CallRecord Request (Option String)}
    (h : (calls.modify k fun c => { c with returned := some x })[j]? = some c) :
    ∃ c', calls[j]? = some c' ∧ c.op = c'.op ∧ c.invoked = c'.invoked ∧
      (j = k ∧ c.returned = some x ∨ j ≠ k ∧ c = c') := by
  rw [List.getElem?_modify] at h
  obtain ⟨c', hc', rfl⟩ := Option.map_eq_some_iff.1 h
  by_cases hk : k = j
  · subst hk
    exact ⟨c', hc', by simp, by simp, Or.inl ⟨rfl, by simp⟩⟩
  · exact ⟨c', hc', by simp [hk], by simp [hk], Or.inr ⟨fun heq => hk heq.symm, by simp [hk]⟩⟩

theorem ops_return (calls : List (CallRecord Request (Option String))) (k : ℕ)
    (x : Option String × ℕ) : (calls.modify k fun c => { c with returned := some x }).map
      CallRecord.op = calls.map CallRecord.op := by
  refine List.ext_getElem? fun j => ?_
  rw [List.getElem?_map, List.getElem?_map, List.getElem?_modify]
  cases calls[j]? with
  | none => rfl
  | some c => by_cases hk : k = j <;> simp [hk]

section

variable {ids : Fin m → String} (hids : Function.Injective ids) (hn : H.service.Numbered ids)
include hids hn

/-- A new request has a higher number than all others of its client. -/
theorem lt_begin {i : Fin m} {call : ClerkCall} {op : Op} (h : H.service.MadeOp op)
    (hc : op.clientId = ((H.service.clerks i).begin call).2.req.op.clientId) :
    op.requestId < ((H.service.clerks i).begin call).2.req.op.requestId := by
  have htag := Clerk.request_tag (H.service.clerks i) ((H.service.clerks i).requestId + 1) call
  obtain ⟨hclient, hnum⟩ := Prod.mk.inj htag
  have hle := hn.le_length hids h (hc.trans (hclient.trans (hn.clientId i)))
  refine lt_of_le_of_lt hle ?_
  rw [← hn.requestId i]
  exact hnum ▸ Int.lt_succ _

omit hids in
/-- The request of a call under way has the id of its clerk. -/
theorem clientId_of_call {i : Fin m} {call : Call s} (h : (H.service.clerks i).call = some call) :
    call.req.op.clientId = ids i := by
  obtain ⟨x, hx, hreq⟩ := hn.current i call h
  obtain ⟨k, hk⟩ := List.mem_iff_getElem?.1 (List.mem_of_getLast? hx)
  exact hreq ▸ congrArg Prod.fst (hn.tag i k x hk)

/-- A clerk begins a call. -/
theorem Tracks.invoke (ht : H.Tracks) {i : Fin m} {call : ClerkCall}
    (hservice : H'.service = (H.service.begin i call).send i ((H.service.clerks i).begin call).2)
    (hlog : H'.toCallLog = H.invoke i ((H.service.clerks i).begin call).2.req) : H'.Tracks where
  current i' call' h := by
    rw [hservice, Service.send_clerks] at h
    rw [hlog]
    dsimp only [CallLog.invoke]
    split_ifs at h with hi
    · subst hi
      obtain rfl := Option.some.inj h
      rw [Function.update_self, List.getElem?_concat_length]
      exact ⟨_, rfl⟩
    · rw [Service.begin_clerks, if_neg hi] at h
      obtain ⟨t, ht'⟩ := ht.current i' call' h
      rw [Function.update_of_ne hi, List.getElem?_append_left (List.getElem?_eq_some_iff.1 ht').1]
      exact ⟨t, ht'⟩
  invoked c hc := by
    rw [hlog] at hc
    rw [hlog]
    rcases List.mem_append.1 hc with hc | hc
    · exact Nat.lt_succ_of_lt (ht.invoked c hc)
    · obtain rfl := List.mem_singleton.1 hc
      exact Nat.lt_succ_self _
  made c hc := by
    have hpre : ∀ i', H.service.calls i' <+: H'.service.calls i' := by
      rw [hservice]
      exact Service.prefix_begin i call
    rw [hlog] at hc
    rcases List.mem_append.1 hc with hc | hc
    · exact (ht.made c hc).mono hpre
    · obtain rfl := List.mem_singleton.1 hc
      refine ⟨i, ⟨_, H.service.acked⟩, ?_, rfl⟩
      rw [hservice]
      change _ ∈ (H.service.begin i call).calls i
      rw [Service.begin_calls, if_pos rfl]
      exact List.mem_append_right _ (List.mem_singleton.2 rfl)
  exists_call req h := by
    rw [hlog]
    obtain ⟨i', x, hx, rfl⟩ := h
    rw [hservice] at hx
    change _ ∈ (H.service.begin i call).calls i' at hx
    rw [Service.begin_calls] at hx
    rcases List.mem_append.1 hx with hx | hx
    · obtain ⟨c, hc, heq⟩ := ht.exists_call x.req ⟨i', x, hx, rfl⟩
      exact ⟨c, List.mem_append_left _ hc, heq⟩
    · split_ifs at hx
      · obtain rfl := List.mem_singleton.1 hx
        exact ⟨_, List.mem_append_right _ (List.mem_singleton.2 rfl), rfl⟩
      · cases hx
  unique := by
    rw [hlog, CallLog.invoke, List.map_append]
    refine List.Nodup.append ht.unique (List.nodup_singleton _) fun req hreq hreq' => ?_
    obtain ⟨c, hc, rfl⟩ := List.mem_map.1 hreq
    have heq : c.op = ((H.service.clerks i).begin call).2.req := List.mem_singleton.1 hreq'
    exact lt_irrefl _ (lt_begin hids hn ⟨_, heq ▸ ht.made c hc, rfl⟩ rfl)
  write c hc args heq := by
    rw [hlog] at hc
    rcases List.mem_append.1 hc with hc | hc
    · exact ht.write c hc args heq
    · obtain rfl := List.mem_singleton.1 hc
      cases call with
      | get key => cases heq
      | put key value => rfl
      | append key value => rfl

/-- The call of a clerk ends. -/
theorem Tracks.answer (ht : H.Tracks) {i : Fin m} {req : Request} {server leader : Fin (s + 1)}
    {rpc : Option ℕ} {answers : List (Answer s)} {r : Option String}
    (hi : (H.service.clerks i).call = some ⟨req, server, rpc⟩)
    (hservice : H'.service = { H.service.setClerk i
      { H.service.clerks i with recentLeaderId := leader, call := none } with answers := answers })
    (hlog : H'.toCallLog = H.answer i r) : H'.Tracks := by
  have hcalls : H'.calls = (H.answer i r).calls := congrArg CallLog.calls hlog
  have hold : ∀ c ∈ H'.calls, ∃ c' ∈ H.calls, c.op = c'.op ∧ c.invoked = c'.invoked := by
    intro c hc
    obtain ⟨k, hk⟩ := List.mem_iff_getElem?.1 hc
    obtain ⟨c', hc', hop, hinv, -⟩ := getElem?_return (hcalls ▸ hk)
    exact ⟨c', List.mem_of_getElem? hc', hop, hinv⟩
  have hmade : ∀ req, H'.service.Made req ↔ H.service.Made req := by
    intro req
    rw [hservice]
    exact Iff.rfl
  refine ⟨fun i' call' h => ?_, fun c hc => ?_, fun c hc => ?_, fun req h => ?_, ?_,
    fun c hc args heq => ?_⟩
  · rw [hservice] at h
    change ((H.service.setClerk i _).clerks i').call = _ at h
    rw [Service.setClerk_clerks] at h
    split_ifs at h with heq
    obtain ⟨t, ht'⟩ := ht.current i' call' h
    obtain ⟨t', hti⟩ := ht.current i _ hi
    -- two clerks do not have the same call
    have hne : H.current i ≠ H.current i' := by
      intro hcur
      rw [hcur, ht'] at hti
      have hreq : call'.req = req := congrArg CallRecord.op (Option.some.inj hti)
      have hid := clientId_of_call hn h
      rw [hreq] at hid
      exact heq (hids (hid.symm.trans (clientId_of_call hn hi)))
    rw [hlog, CallLog.answer, List.getElem?_modify, ht']
    exact ⟨t, by simp [hne]⟩
  · obtain ⟨c', hc', -, hinv⟩ := hold c hc
    rw [hlog, hinv]
    exact Nat.lt_succ_of_lt (ht.invoked c' hc')
  · obtain ⟨c', hc', hop, -⟩ := hold c hc
    rw [hop]
    exact (hmade _).2 (ht.made c' hc')
  · have hmem : req ∈ H'.calls.map CallRecord.op := by
      obtain ⟨c, hc, rfl⟩ := ht.exists_call req ((hmade req).1 h)
      rw [hcalls, CallLog.answer, ops_return]
      exact List.mem_map_of_mem hc
    obtain ⟨c, hc, heq⟩ := List.mem_map.1 hmem
    exact ⟨c, hc, heq⟩
  · rw [hcalls, CallLog.answer, ops_return]
    exact ht.unique
  · obtain ⟨c', hc', hop, -⟩ := hold c hc
    rw [hop] at heq ⊢
    exact ht.write c' hc' args heq

/-- **The calls are tracked in every run.** -/
theorem Tracks.step (ht : H.Tracks) (hst : H.step a = some H') : H'.Tracks := by
  obtain ⟨-, hrec⟩ := records_of_step hst
  cases hrec with
  | invoke i call hnone hservice hlog => exact ht.invoke hids hn hservice hlog
  | answer i req server leader rpc handler reply hi hget hpc hrep hservice hlog =>
    exact ht.answer hids hn hi hservice hlog
  | frame hlog hmade hcommitted hcall =>
    have hcalls : H'.calls = H.calls := congrArg CallLog.calls hlog
    have hmade' : ∀ req, H'.service.Made req ↔ H.service.Made req := by
      intro req
      unfold Service.Made
      rw [hmade]
    refine ⟨fun i call h => ?_, fun c hc => ?_, fun c hc => ?_, fun req h => ?_, ?_, ?_⟩
    · obtain ⟨call', h', hreq⟩ := hcall i call h
      rw [hlog, ← hreq]
      exact ht.current i call' h'
    · rw [hlog]
      exact ht.invoked c (hcalls ▸ hc)
    · exact (hmade' _).2 (ht.made c (hcalls ▸ hc))
    · rw [hcalls]
      exact ht.exists_call req ((hmade' req).1 h)
    · rw [hcalls]
      exact ht.unique
    · rw [hcalls]
      exact ht.write

end

/-! ### Places in the committed log -/

/-- A call that returns `r` has its place at entry `k`: a write is this entry, for the first time,
and a Get reads the store after it. -/
def Takes (log : List Op) (req : Request) (r : Option String) (k : ℕ) : Prop :=
  match req with
  | .get args => k < log.length ∧ r = (KvServer.replay (log.take (k + 1))).skipList args.key
  | .putAppend args => r = none ∧ log[k]? = some (Request.putAppend args).op ∧
      (Request.putAppend args).op ∉ log.take k

theorem Takes.lt {log : List Op} {req : Request} {r : Option String} {k : ℕ}
    (h : Takes log req r k) : k < log.length := by
  cases req with
  | get args => exact h.1
  | putAppend args => exact (List.getElem?_eq_some_iff.1 h.2.1).1

theorem Takes.mono {log log' : List Op} {req : Request} {r : Option String} {k : ℕ}
    (h : Takes log req r k) (hpre : log <+: log') : Takes log' req r k := by
  have hlt := h.lt
  obtain ⟨rest, rfl⟩ := hpre
  cases req with
  | get args =>
    refine ⟨by rw [List.length_append]; omega, ?_⟩
    rw [List.take_append_of_le_length hlt]
    exact h.2
  | putAppend args =>
    refine ⟨h.1, by rw [List.getElem?_append_left hlt]; exact h.2.1, ?_⟩
    rw [List.take_append_of_le_length (Nat.le_of_lt hlt)]
    exact h.2.2

/-- **The calls have their places**: the command of call `i` comes after the `base i` entries from
before its invocation, and a call that has returned has its place at entry `pos i`. -/
structure Placed (calls : List (CallRecord Request (Option String))) (log : List Op)
    (base pos : ℕ → ℕ) : Prop where
  fresh : ∀ i c, calls[i]? = some c → base i ≤ log.length ∧
    ¬ Reached Op.tag (log.take (base i)) c.op.op.clientId c.op.op.requestId
  returned : ∀ i c r t, calls[i]? = some c → c.returned = some (r, t) →
    base i ≤ pos i ∧ Takes log c.op r (pos i)
  order : ∀ i j c d r t, calls[i]? = some c → calls[j]? = some d → d.returned = some (r, t) →
    t < c.invoked → pos j < base i

section

variable {calls : List (CallRecord Request (Option String))} {log log' : List Op}
  {base pos : ℕ → ℕ}

theorem Placed.mono (h : Placed calls log base pos) (hpre : log <+: log') :
    Placed calls log' base pos where
  fresh i c hc := by
    obtain ⟨hle, hnot⟩ := h.fresh i c hc
    obtain ⟨rest, rfl⟩ := hpre
    refine ⟨by rw [List.length_append]; omega, ?_⟩
    rwa [List.take_append_of_le_length hle]
  returned i c r t hc hr :=
    ⟨(h.returned i c r t hc hr).1, (h.returned i c r t hc hr).2.mono hpre⟩
  order := h.order

/-- A call is invoked. -/
theorem Placed.invoke (h : Placed calls log base pos) {req : Request} (now : ℕ)
    (hreq : ¬ Reached Op.tag log req.op.clientId req.op.requestId) :
    Placed (calls ++ [⟨req, now, none⟩]) log (Function.update base calls.length log.length)
      pos := by
  have hcall : ∀ {i : ℕ} {c : CallRecord Request (Option String)},
      (calls ++ [⟨req, now, none⟩])[i]? = some c →
        calls[i]? = some c ∧ Function.update base calls.length log.length i = base i ∨
          c = ⟨req, now, none⟩ ∧ Function.update base calls.length log.length i = log.length := by
    intro i c hc
    rcases getElem?_snoc hc with hc | ⟨rfl, rfl⟩
    · have hlt := (List.getElem?_eq_some_iff.1 hc).1
      exact Or.inl ⟨hc, Function.update_of_ne (Nat.ne_of_lt hlt) ..⟩
    · exact Or.inr ⟨rfl, Function.update_self ..⟩
  refine ⟨fun i c hc => ?_, fun i c r t hc hr => ?_, fun i j c d r t hc hd hr hlt => ?_⟩
  · rcases hcall hc with ⟨hc, hb⟩ | ⟨rfl, hb⟩
    · rw [hb]
      exact h.fresh i c hc
    · rw [hb, List.take_length]
      exact ⟨Nat.le_refl _, hreq⟩
  · rcases hcall hc with ⟨hc, hb⟩ | ⟨rfl, -⟩
    · rw [hb]
      exact h.returned i c r t hc hr
    · cases hr
  · rcases hcall hd with ⟨hd, -⟩ | ⟨rfl, -⟩
    · rcases hcall hc with ⟨hc, hb⟩ | ⟨rfl, hb⟩
      · rw [hb]
        exact h.order i j c d r t hc hd hr hlt
      · rw [hb]
        exact (h.returned j d r t hd hr).2.lt
    · cases hr

/-- A call returns. -/
theorem Placed.answer (h : Placed calls log base pos) {i : ℕ} {req : Request} {t k now : ℕ}
    {r : Option String} (hi : calls[i]? = some ⟨req, t, none⟩)
    (hnow : ∀ c ∈ calls, c.invoked < now) (hbase : base i ≤ k) (htakes : Takes log req r k) :
    Placed (calls.modify i fun c => { c with returned := some (r, now) }) log base
      (Function.update pos i k) where
  fresh j c hc := by
    obtain ⟨c', hc', hop, -⟩ := getElem?_return hc
    rw [hop]
    exact h.fresh j c' hc'
  returned j c r' t' hc hr := by
    obtain ⟨c', hc', hop, -, ⟨rfl, hret⟩ | ⟨hne, rfl⟩⟩ := getElem?_return hc
    · obtain rfl := Option.some.inj (hi.symm.trans hc')
      obtain ⟨rfl, -⟩ := Prod.mk.inj (Option.some.inj (hr.symm.trans hret))
      rw [Function.update_self, hop]
      exact ⟨hbase, htakes⟩
    · rw [Function.update_of_ne hne]
      exact h.returned j c r' t' hc' hr
  order j j' c d r' t' hc hd hr hlt := by
    obtain ⟨c', hc', -, hinv, -⟩ := getElem?_return hc
    obtain ⟨d', hd', -, -, ⟨rfl, hret⟩ | ⟨hne, rfl⟩⟩ := getElem?_return hd
    · -- no call is invoked later than now
      obtain ⟨-, rfl⟩ := Prod.mk.inj (Option.some.inj (hr.symm.trans hret))
      have := hnow c' (List.mem_of_getElem? hc')
      omega
    · rw [Function.update_of_ne hne]
      exact h.order j j' c' d r' t' hc' hd' hr (hinv ▸ hlt)

end

section

variable {S : Service m s} {ids : Fin m → String} (hids : Function.Injective ids)
  (hn : S.Numbered ids) (hr : S.Replicated ids)
include hids hn hr

/-- **A request that is answered has a place**, behind all entries from before it was made. -/
theorem takes_of_reply (ho : ∀ j, (S.servers j).Once) {j : Fin (s + 1)} {h : Handler}
    {reply : Reply} (hh : h ∈ (S.servers j).handlers) (hpc : h.pc = .returned reply)
    (hrep : reply.err ≠ .errWrongLeader) : ∃ k, Takes S.committed h.req (h.req.result reply) k ∧
      ∀ b, ¬ Reached Op.tag (S.committed.take b) h.req.op.clientId h.req.op.requestId → b ≤ k := by
  obtain ⟨req, pc⟩ := h
  cases req with
  | putAppend args =>
    have hmem : (Request.putAppend args).op ∈ S.committed :=
      hr.mem_of_reply hids hn hh (Or.inl hpc) hrep
    obtain ⟨k, hk, hfirst⟩ := exists_first hmem
    refine ⟨k, ⟨rfl, hk, hfirst⟩, fun b hb => Nat.le_of_not_lt fun hlt => hb ?_⟩
    exact reached_of_mem (mem_take_of_lt hk hlt)
  | get args =>
    have hs := (hn.sound j).handler _ hh
    unfold KvProcess.HandlerSound at hs
    rw [hpc] at hs
    obtain ⟨k, hk, hknows, hval⟩ := hs hrep
    have htake : (S.servers j).ops.take k = S.committed.take k := by
      obtain ⟨rest, hrest⟩ := hr.ops j
      rw [← hrest, List.take_append_of_le_length (by rwa [KvProcess.length_ops])]
    have hreached : Reached Op.tag (S.committed.take k) args.clientid args.requestid := by
      rw [← htake]
      exact hknows
    -- something has been read
    obtain ⟨k, rfl⟩ : ∃ k', k = k' + 1 := by
      cases k with
      | zero =>
        obtain ⟨e, he, -⟩ := hreached
        cases he
      | succ k => exact ⟨k, rfl⟩
    have hstore := (ho j).storeAfter_eq (hn.sound j).effects
      ((hr.sequential hids hn).of_isPrefix (hr.ops j)) (k + 1) (by rwa [KvProcess.length_ops])
    rw [htake] at hstore
    rw [hstore] at hval
    refine ⟨k, ⟨?_, ?_⟩, fun b hb => Nat.le_of_not_lt fun hlt => hb ?_⟩
    · have hle := (hr.ops j).length_le
      rw [KvProcess.length_ops] at hle
      omega
    · obtain ⟨err, value⟩ := reply
      rcases hval with ⟨rfl, hval⟩ | ⟨rfl, hval⟩
      · exact hval.symm
      · exact hval.symm
    · exact hreached.mono fun x hx => (List.take_subset_take_left _ hlt) hx

end

/-- **One step keeps the places.** -/
theorem placed_step {ids : Fin m → String} (hids : Function.Injective ids)
    (hn : H.service.Numbered ids) (hr : H.service.Replicated ids)
    (ho : ∀ j, (H.service.servers j).Once) (ht : H.Tracks) {base pos : ℕ → ℕ}
    (hp : Placed H.calls H.service.committed base pos) (hst : H.step a = some H') :
    ∃ base' pos', Placed H'.calls H'.service.committed base' pos' := by
  obtain ⟨-, hrec⟩ := records_of_step hst
  cases hrec with
  | invoke i call hnone hservice hlog =>
    rw [hlog, hservice]
    refine ⟨_, pos, hp.invoke H.now ?_⟩
    -- no command of this number has been committed
    rintro ⟨op, hop, hc, hle⟩
    exact not_lt_of_ge hle (lt_begin hids hn (hn.committed op hop) hc)
  | answer i req server leader rpc handler reply hi hget hpc hrep hservice hlog =>
    have hreq : handler.req = req := by
      have := hn.rpc i req server rpc hi
      rw [List.getElem?_map, hget] at this
      exact Option.some.inj this
    obtain ⟨k, htakes, hbase⟩ :=
      takes_of_reply hids hn hr ho (List.mem_of_getElem? hget) hpc hrep
    rw [hreq] at htakes hbase
    obtain ⟨t, hti⟩ := ht.current i _ hi
    rw [hlog, hservice]
    exact ⟨base, _, hp.answer hti ht.invoked (hbase _ (hp.fresh _ _ hti).2) htakes⟩
  | frame hlog hmade hcommitted hcall =>
    rw [hlog]
    exact ⟨base, pos, hp.mono hcommitted⟩

theorem placed_of_reaches {ids : Fin m → String} (hids : Function.Injective ids)
    (h : (machine m s).Reaches (fun H a => H.service.Consensus a ∧ H.service.NoRewind a)
      (init ids) H) : H.service.Numbered ids ∧ H.service.Replicated ids ∧ H.Tracks ∧
        ∃ base pos, Placed H.calls H.service.committed base pos := by
  have hinv := h.invariant (I := fun H => H.service.Numbered ids ∧ H.service.Replicated ids ∧
      (∀ j, (H.service.servers j).Once) ∧ H.Tracks ∧
        ∃ base pos, Placed H.calls H.service.committed base pos)
    ⟨Service.numbered_init ids, Service.replicated_init ids, fun j => KvProcess.once_init,
      tracks_init ids, fun _ => 0, fun _ => 0, by simp [init], by simp [init], by simp [init]⟩
    fun H a H' ⟨hn, hr, ho, ht, base, pos, hp⟩ ⟨hc, hrew⟩ hst =>
      have hS := (records_of_step hst).1
      ⟨hn.step hS, hr.step hids hn hc hS, fun j => Service.once_step hids hn hr ho hrew hS j,
        ht.step hids hn hst, placed_step hids hn hr ho ht hp hst⟩
  obtain ⟨hn, hr, -, ht, hp⟩ := hinv
  exact ⟨hn, hr, ht, hp⟩

/-! ### The order of the committed log -/

/-- The store after the first `k` committed commands. -/
def storeAt (H : History m s) (k : ℕ) : String → Option String :=
  (KvServer.replay (H.service.committed.take k)).skipList

/-- The call whose command is committed first at entry `k`, if it is a write. -/
def writer (H : History m s) (k : ℕ) : Option ℕ :=
  match H.service.committed[k]? with
  | some op =>
    if op.isWrite = true ∧ op ∉ H.service.committed.take k then
      H.calls.findIdx? fun c => c.op.op = op
    else none
  | none => none

/-- The place of a call; one that has not returned has that of its command. -/
def place (H : History m s) (pos : ℕ → ℕ) (i : ℕ) : ℕ :=
  match H.calls[i]? with
  | some c => if c.returned.isSome then pos i else H.service.committed.idxOf c.op.op
  | none => 0

theorem writer_eq {k i : ℕ} (h : H.writer k = some i) : ∃ c, H.calls[i]? = some c ∧
    c.op.op.isWrite = true ∧ H.service.committed[k]? = some c.op.op ∧
      c.op.op ∉ H.service.committed.take k := by
  unfold writer at h
  split at h
  · rename_i op hop
    split_ifs at h with hw
    obtain ⟨hlt, hc, -⟩ := List.findIdx?_eq_some_iff_getElem.1 h
    have heq : H.calls[i].op.op = op := of_decide_eq_true hc
    exact ⟨H.calls[i], List.getElem?_eq_getElem hlt, by rw [heq]; exact hw.1,
      by rw [heq]; exact hop, by rw [heq]; exact hw.2⟩
  · cases h

/-- A command is committed for the first time only once. -/
theorem first_unique {log : List Op} {op : Op} {k k' : ℕ} (hk : log[k]? = some op)
    (hfirst : op ∉ log.take k) (hk' : log[k']? = some op) (hfirst' : op ∉ log.take k') :
    k = k' := by
  rcases Nat.lt_trichotomy k k' with hlt | heq | hlt
  · exact absurd (mem_take_of_lt hk hlt) hfirst'
  · exact heq
  · exact absurd (mem_take_of_lt hk' hlt) hfirst

theorem idxOf_eq {log : List Op} {op : Op} {k : ℕ} (hk : log[k]? = some op)
    (hfirst : op ∉ log.take k) : log.idxOf op = k := by
  obtain ⟨hlt, hget⟩ := List.getElem?_eq_some_iff.1 hk
  have hsplit : log.take k ++ op :: log.drop (k + 1) = log := by
    rw [← hget, List.getElem_cons_drop, List.take_append_drop]
  rw [← hsplit, List.idxOf_append_of_notMem hfirst, List.idxOf_cons_self, Nat.add_zero]
  exact List.length_take_of_le (Nat.le_of_lt hlt)

theorem place_of_returned {pos : ℕ → ℕ} {i : ℕ}
    {c : CallRecord Request (Option String)} (hc : H.calls[i]? = some c) {x : Option String × ℕ}
    (hr : c.returned = some x) : H.place pos i = pos i := by
  simp only [place, hc, hr, Option.isSome_some, if_true]

section

variable {ids : Fin m → String} (hids : Function.Injective ids) (hn : H.service.Numbered ids)
  (ht : H.Tracks)
include hids hn ht

/-- A call is known by its command. -/
theorem Tracks.index_eq {i j : ℕ} {c d : CallRecord Request (Option String)}
    (hc : H.calls[i]? = some c) (hd : H.calls[j]? = some d) (hop : c.op.op = d.op.op) : i = j := by
  have heq : c.op = d.op := hn.made_unique hids (ht.made c (List.mem_of_getElem? hc))
    (ht.made d (List.mem_of_getElem? hd)) (congrArg Op.tag hop)
  have hlt : i < (H.calls.map CallRecord.op).length := by
    rw [List.length_map]
    exact (List.getElem?_eq_some_iff.1 hc).1
  refine (List.getElem?_inj hlt ht.unique).1 ?_
  rw [List.getElem?_map, List.getElem?_map, hc, hd, Option.map_some, Option.map_some, heq]

theorem Tracks.writer_of_first {i k : ℕ} {c : CallRecord Request (Option String)}
    (hc : H.calls[i]? = some c) (hw : c.op.op.isWrite = true)
    (hk : H.service.committed[k]? = some c.op.op)
    (hfirst : c.op.op ∉ H.service.committed.take k) : H.writer k = some i := by
  have hsome : (H.calls.findIdx? fun d => d.op.op = c.op.op).isSome = true := by
    rw [List.findIdx?_isSome, List.any_eq_true]
    exact ⟨c, List.mem_of_getElem? hc, decide_eq_true rfl⟩
  obtain ⟨j, hj⟩ := Option.isSome_iff_exists.1 hsome
  have hwriter : H.writer k = some j := by
    simp only [writer, hk]
    rw [if_pos ⟨hw, hfirst⟩, hj]
  obtain ⟨d, hd, -, hkd, -⟩ := writer_eq hwriter
  rw [hwriter, ht.index_eq hids hn hd hc (Option.some.inj (hkd.symm.trans hk))]

/-- Where no call writes, the store stays. -/
theorem Tracks.storeAt_of_idle (hr : H.service.Replicated ids) {k : ℕ}
    (hk : k < H.service.committed.length) (hidle : H.writer k = none) :
    H.storeAt (k + 1) = H.storeAt k := by
  have hget := List.getElem?_eq_getElem hk
  have htake : H.service.committed.take (k + 1) = H.service.committed.take k ++
      [H.service.committed[k]] := by rw [List.take_add_one, hget, Option.toList_some]
  have hseq := (hr.sequential hids hn).of_isPrefix (htake ▸ List.take_prefix (k + 1) _)
  rw [storeAt, htake, KvServer.replay_skipList hseq, if_neg, storeAt]
  rintro ⟨hw, hfirst⟩
  obtain ⟨req, hmade, hop⟩ := hn.committed _ (List.getElem_mem hk)
  obtain ⟨c, hc, rfl⟩ := ht.exists_call req hmade
  obtain ⟨i, hi⟩ := List.mem_iff_getElem?.1 hc
  have hwriter := ht.writer_of_first hids hn hi (hop ▸ hw) (hop ▸ hget) (hop ▸ hfirst)
  cases hidle.symm.trans hwriter

omit ht in
/-- Where a call writes, the store is what the meaning of its request says. -/
theorem storeAt_of_write (hr : H.service.Replicated ids) {i k : ℕ}
    (hwriter : H.writer k = some i) : ∃ c args, H.calls[i]? = some c ∧ c.op = .putAppend args ∧
      H.service.committed[k]? = some c.op.op ∧ c.op.op ∉ H.service.committed.take k ∧
        Request.run (H.storeAt k) c.op = (none, H.storeAt (k + 1)) := by
  obtain ⟨c, hc, hw, hget, hfirst⟩ := writer_eq hwriter
  have htake : H.service.committed.take (k + 1) = H.service.committed.take k ++ [c.op.op] := by
    rw [List.take_add_one, hget, Option.toList_some]
  have hseq := (hr.sequential hids hn).of_isPrefix (htake ▸ List.take_prefix (k + 1) _)
  obtain ⟨req, t, ret⟩ := c
  cases req with
  | get args => cases hw
  | putAppend args =>
    refine ⟨_, args, hc, rfl, hget, hfirst, ?_⟩
    rw [Request.run, storeAt, storeAt, htake, KvServer.replay_skipList hseq, if_pos ⟨hw, hfirst⟩]
    rfl

/-- **The calls have places in the committed log.** -/
theorem logPlaces (hr : H.service.Replicated ids) {base pos : ℕ → ℕ}
    (hp : Placed H.calls H.service.committed base pos) : LogPlaces Request.run H.calls H.storeAt
      H.service.committed.length H.writer (H.place pos) where
  idle k hk hidle := ht.storeAt_of_idle hids hn hr hk hidle
  write k hk i hwriter := by
    obtain ⟨c, args, hc, hop, hget, hfirst, hrun⟩ := storeAt_of_write hids hn hr hwriter
    have hplace : H.place pos i = k := by
      cases hret : c.returned with
      | none => simp only [place, hc, hret, Option.isSome_none]; exact idxOf_eq hget hfirst
      | some x =>
        obtain ⟨-, htakes⟩ := hp.returned i c x.1 x.2 hc hret
        rw [hop] at htakes hget hfirst
        rw [place_of_returned hc hret]
        exact first_unique htakes.2.1 htakes.2.2 hget hfirst
    refine ⟨hplace, c, hc, congrArg Prod.snd hrun, fun r t hret => ?_⟩
    obtain ⟨-, htakes⟩ := hp.returned i c r t hc hret
    rw [hop] at htakes
    rw [hrun, htakes.1]
  read i c r t hc hret := by
    obtain ⟨-, htakes⟩ := hp.returned i c r t hc hret
    rw [place_of_returned hc hret]
    refine ⟨htakes.lt, fun hne => ?_⟩
    obtain ⟨req, t', ret⟩ := c
    cases req with
    | get args => exact Prod.ext htakes.2.symm rfl
    | putAppend args =>
      have hw := ht.write _ (List.mem_of_getElem? hc) args rfl
      exact absurd (ht.writer_of_first hids hn hc hw htakes.2.1 htakes.2.2) hne
  realTime i j c d r t hc hd hplaced hret hlt := by
    have hj := hp.order i j c d r t hc hd hret hlt
    rw [place_of_returned hd hret]
    refine lt_of_lt_of_le hj ?_
    cases hretc : c.returned with
    | some x =>
      rw [place_of_returned hc hretc]
      exact (hp.returned i c x.1 x.2 hc hretc).1
    | none =>
      -- a write that has not returned comes after all that was there before it
      rcases hplaced with hsome | ⟨k, hk, hwriter⟩
      · rw [hretc] at hsome
        cases hsome
      obtain ⟨c', args, hc', hop, hget, hfirst, -⟩ := storeAt_of_write hids hn hr hwriter
      obtain rfl := Option.some.inj (hc.symm.trans hc')
      simp only [place, hc, hretc, Option.isSome_none]
      rw [if_neg Bool.false_ne_true, idxOf_eq hget hfirst]
      refine Nat.le_of_not_lt fun hlt' => (hp.fresh i c hc).2 ?_
      exact reached_of_mem (mem_take_of_lt hget hlt')

end

/-- **The service is linearizable**, if the servers are given the committed log and no Get lowers
an entry of a request table. -/
theorem clerks_linearizable {ids : Fin m → String} (hids : Function.Injective ids)
    (h : (machine m s).Reaches (fun H a => H.service.Consensus a ∧ H.service.NoRewind a)
      (init ids) H) : Linearizable Request.run H.calls fun _ => none := by
  obtain ⟨hn, hr, ht, base, pos, hp⟩ := placed_of_reaches hids h
  exact ⟨_, _, (logPlaces hids hn ht hr hp).isSequentialOrder⟩

/-! ### A run -/

theorem retriedRead_eq : ((machine 2 1).runWhere
    (fun H a => H.service.Consensus a ∧ H.service.NoRewind a) (init Service.twoIds)
      Service.retriedRead).map (fun H => H.calls.map fun c => (c.invoked, c.returned)) =
    some [(0, some (none, 1)), (2, some (some "a", 3))] := by
  decide +kernel

theorem clerks_linearizable_retriedRead : ∃ H, (machine 2 1).runWhere
    (fun H a => H.service.Consensus a ∧ H.service.NoRewind a) (init Service.twoIds)
      Service.retriedRead = some H ∧
    H.calls.map (fun c => (c.invoked, c.returned)) =
      [(0, some (none, 1)), (2, some (some "a", 3))] ∧
    Linearizable Request.run H.calls fun _ => none := by
  obtain ⟨H, hH, h⟩ := Option.map_eq_some_iff.1 retriedRead_eq
  exact ⟨H, hH, h, clerks_linearizable Service.twoIds_injective (Machine.reaches_of_runWhere hH)⟩

end History

end KvRaft
