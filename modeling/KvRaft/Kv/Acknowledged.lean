import KvRaft.Kv.Requests

/-!
# Acknowledged writes

A clerk whose `Put` or `Append` returns was told `OK` by a server that has executed the write
(`Service.writes_applied`), whatever the servers are given to apply: consensus plays no role.
The reason is that a request number of the running call cannot have come into the table of a
server in another way, as long as no other clerk uses the same client id.

Client ids are drawn by `rand`, which starts with the same numbers in every process, so the
first clerks of two processes are taken for one client (`Service.not_writes_applied`).
-/

namespace KvRaft

open Session

namespace Service

variable {m s : ℕ} {ids : Fin m → String} {S S' : Service m s} {a : ServiceAction m s}

/-- Every write whose call has returned was executed by the server that answered. -/
def WritesApplied (S : Service m s) : Prop :=
  ∀ r ∈ S.answers, r.req.op.isWrite = true → ∃ x ∈ (S.servers r.server).applied,
    x.op = r.req.op ∧ x.wrote = true ∧ x.skipList r.req.op.key = some r.req.op.value

/-- The last request of a clerk, if it is a write, was executed by every server that is done
with its command. -/
def CurrentWritten (S : Service m s) : Prop :=
  ∀ i x, (S.calls i).getLast? = some x → x.req.op.isWrite = true → ∀ j,
    x.req.op ∈ (S.servers j).ops → ∃ y ∈ (S.servers j).applied, y.op = x.req.op ∧ y.wrote = true

/-- A server that has reached the number of the last request of a clerk has applied it. -/
theorem Numbered.mem_ops_of_reached (hn : Numbered ids S) (hids : Function.Injective ids)
    {i : Fin m} {x : Asked} (hx : (S.calls i).getLast? = some x) {j : Fin (s + 1)}
    (h : Reached Op.tag (S.servers j).ops x.req.op.clientId x.req.op.requestId) :
    x.req.op ∈ (S.servers j).ops := by
  obtain ⟨e, he, hc, hle⟩ := h
  have hlast := hx
  rw [List.getLast?_eq_getElem?] at hx
  obtain ⟨hclient, hnum⟩ := Prod.mk.inj (hn.tag i _ x hx)
  have hlt := (List.getElem?_eq_some_iff.1 hx).1
  have hmade := hn.applied j e he
  have hle' := hn.le_length hids hmade (hc.trans hclient)
  have heq : e.requestId = x.req.op.requestId := le_antisymm (by omega) hle
  have : e = x.req.op :=
    hn.op_unique hids hmade ⟨x.req, ⟨i, x, List.mem_of_getLast? hlast, rfl⟩, rfl⟩
    (Prod.ext hc heq)
  exact this ▸ he

/-- A clerk begins a call with a number that no server knows. -/
theorem CurrentWritten.call (hids : Function.Injective ids) (hn : Numbered ids S)
    (hw : CurrentWritten S) (i : Fin m) (call : ClerkCall) :
    CurrentWritten ((S.begin i call).send i ((S.clerks i).begin call).2) := by
  intro i' x hx hwrite j hop
  rw [send_servers] at hop ⊢
  change ((S.begin i call).calls i').getLast? = some x at hx
  rw [begin_calls] at hx
  split_ifs at hx with hi
  · subst hi
    obtain rfl := by simpa using hx
    have hle := hn.le_length hids (i := i') (hn.applied j _ hop) (by
      rw [← hn.clientId]
      exact congrArg Prod.fst (Clerk.request_tag (S.clerks i') _ call))
    have hnum : ((S.clerks i').begin call).2.req.op.requestId = (S.clerks i').requestId + 1 :=
      congrArg Prod.snd (Clerk.request_tag (S.clerks i') _ call)
    rw [hn.requestId] at hnum
    change ((S.clerks i').begin call).2.req.op.requestId ≤ _ at hle
    omega
  · exact hw i' x (by simpa using hx) hwrite j hop

/-- A server executes a command that no server knows yet. -/
theorem CurrentWritten.server (hids : Function.Injective ids) (hn : Numbered ids S)
    (hw : CurrentWritten S) {j : Fin (s + 1)} {a : KvAction} {p : KvProcess}
    (hp : (S.servers j).step a = some p) : CurrentWritten { S.setServer j p with
      started := S.started ++ (S.servers j).starts a
      acked := S.acked ++ (S.servers j).acks a } := by
  intro i x hx hwrite j' hop
  rw [setServer_servers] at hop ⊢
  split_ifs at hop ⊢ with hj
  · subst hj
    rcases KvProcess.step_applied hp with ⟨heq, -⟩ | ⟨y, -, heq, -, hy⟩
    · rw [heq]
      exact hw i x hx hwrite j' (by rwa [KvProcess.ops, heq] at hop)
    · -- a duplicate has been applied before, and everything else is executed
      have hor : x.req.op ∈ (S.servers j').ops ∨ y.op = x.req.op ∧ y.wrote = true := by
        rw [KvProcess.ops, heq, List.map_append] at hop
        rcases List.mem_append.1 hop with hop | hop
        · exact Or.inl hop
        · obtain hxy : x.req.op = y.op := by simpa using hop
          rcases hy with hy | ⟨-, hdup⟩
          · exact Or.inr ⟨hxy.symm, by rw [hy, ← hxy]; exact hwrite⟩
          · rw [← hxy] at hdup
            exact Or.inl (hn.mem_ops_of_reached hids hx ((hn.sound j').reached_of_duplicate hdup))
      rw [heq]
      rcases hor with hop | hy
      · obtain ⟨z, hz, hzw⟩ := hw i x hx hwrite j' hop
        exact ⟨z, List.mem_append_left _ hz, hzw⟩
      · exact ⟨y, by simp, hy⟩
  · exact hw i x hx hwrite j' hop

theorem CurrentWritten.step (hids : Function.Injective ids) (hn : Numbered ids S)
    (hw : CurrentWritten S) (hst : S.step a = some S') : CurrentWritten S' := by
  cases moves_of_step hst with
  | call i call hi => exact hw.call hids hn i call
  | retry i req server hi =>
    intro i' x hx hwrite j hop
    rw [send_servers] at hop ⊢
    exact hw i' x hx hwrite j hop
  | server j a p hall hp => exact hw.server hids hn hp
  | again | answer | commit => exact hw

/-- Servers forget nothing. -/
theorem isPrefix_applied (hst : S.step a = some S') (j : Fin (s + 1)) :
    (S.servers j).applied <+: (S'.servers j).applied := by
  cases moves_of_step hst with
  | call i call hi => exact ⟨[], (List.append_nil _).trans (send_applied _ i _ j).symm⟩
  | retry i req server hi => exact ⟨[], (List.append_nil _).trans (send_applied _ i _ j).symm⟩
  | server j' a p hall hp =>
    rw [setServer_servers]
    split_ifs with hj
    · subst hj
      rcases KvProcess.step_applied hp with ⟨heq, -⟩ | ⟨y, -, heq, -⟩
      · exact heq ▸ List.prefix_refl _
      · exact heq ▸ List.prefix_append _ _
    · exact List.prefix_refl _
  | again | answer | commit => exact List.prefix_refl _

/-- An answer comes from a server that has executed the write. -/
theorem WritesApplied.step (hids : Function.Injective ids) (hn : Numbered ids S)
    (hc : CurrentWritten S) (hw : WritesApplied S) (hst : S.step a = some S') :
    WritesApplied S' := by
  have hold : ∀ r ∈ S.answers, r.req.op.isWrite = true → ∃ x ∈ (S'.servers r.server).applied,
      x.op = r.req.op ∧ x.wrote = true ∧ x.skipList r.req.op.key = some r.req.op.value := by
    intro r hr hwrite
    obtain ⟨x, hx, h⟩ := hw r hr hwrite
    exact ⟨x, (isPrefix_applied hst r.server).subset hx, h⟩
  cases moves_of_step hst with
  | answer i req server leader rpc h reply hi hget hpc hrep =>
    intro r hr hwrite
    rcases List.mem_append.1 hr with hr | hr
    · exact hold r hr hwrite
    obtain rfl := List.mem_singleton.1 hr
    obtain ⟨x, hx, rfl⟩ := hn.current i _ hi
    have hreq : h.req = x.req := by
      have := hn.rpc i _ server rpc hi
      rw [List.getElem?_map, hget] at this
      exact Option.some.inj this
    have hs := (hn.sound server).handler h (List.mem_of_getElem? hget)
    unfold KvProcess.HandlerSound at hs
    rw [hpc, hreq] at hs
    have hknows := KvProcess.knows_of_answers (hs hrep)
    rw [KvProcess.Knows, KvProcess.ops_take_length] at hknows
    obtain ⟨y, hy, hop, hwrote⟩ := hc i x hx hwrite server (hn.mem_ops_of_reached hids hx hknows)
    obtain ⟨k, hk⟩ := List.mem_iff_getElem?.1 hy
    refine ⟨y, hy, hop, hwrote, ?_⟩
    rw [(hn.sound server).effects k y hk, if_pos hwrote, hop]
    exact Function.update_self ..
  | call | retry | again | server | commit => exact hold

/-- The ids of clerks, each of which is the `(place i).2`-th of process `(place i).1`.  All
processes draw from the same sequence. -/
def clientIds (rand : ℕ → ℕ) (place : Fin m → ℕ × ℕ) (i : Fin m) : String :=
  Clerk.uuid rand (place i).2

/-- **No acknowledged write is dropped**, if the clerks have different ids. -/
theorem writes_applied {rand : ℕ → ℕ} {place : Fin m → ℕ × ℕ}
    (hids : Function.Injective (clientIds rand place))
    (h : (machine m s).Reachable (init (clientIds rand place)) S) : WritesApplied S := by
  refine (h.invariant (I := fun S => Numbered (clientIds rand place) S ∧ CurrentWritten S ∧
    WritesApplied S) ⟨numbered_init _, ?_, ?_⟩ ?_).2.2
  · intro i x hx
    cases hx
  · intro r hr
    cases hr
  · rintro S a S' ⟨hn, hc, hw⟩ - hst
    exact ⟨hn.step hst, hc.step hids hn hst, hw.step hids hn hc hst⟩

/-! ### Runs -/

/-- What `rand` yields in a process that never calls `srand`. -/
def firstNumbers (k : ℕ) : ℕ :=
  [1804289383, 846930886, 1681692777, 1714636915, 1957747793, 424238335, 719885386,
    1649760492].getD k 0

/-- The Put of `value` by the client with the id `clientId`. -/
def putOf (clientId value : String) : Op := ⟨.put, "k", value, clientId, 1⟩

/-- Two clerks write the same key, one after the other; `last` is what the apply loop does with
the second command. -/
def twoPuts (clientId : String) (last : List (ServiceAction 2 0)) : List (ServiceAction 2 0) :=
  [.call 0 (.put "k" "a")] ++ takes 0 0 1 ++ [.commit 0] ++ executes 0 (putOf clientId "a") 1 ++
  [runs 0 0, runs 0 0, .reply 0, .call 1 (.put "k" "b")] ++ takes 0 1 2 ++ [.commit 1] ++
  last ++ [runs 0 1, runs 0 1, .reply 1]

/-- What the two clerks were answered, and what the server has done. -/
def outcome (S : Service 2 0) : List Op × List (Op × Bool) :=
  (S.answers.map fun r => r.req.op, (S.servers 0).applied.map fun x => (x.op, x.wrote))

/-- Both clerks belong to one process. -/
def oneProcess (i : Fin 2) : ℕ × ℕ := (0, i)

theorem oneProcess_eq : ((machine 2 0).run (init (clientIds firstNumbers oneProcess))
    (twoPuts (Clerk.uuid firstNumbers 0)
      (executes 0 (putOf (Clerk.uuid firstNumbers 1) "b") 2))).map outcome =
    some ([putOf (Clerk.uuid firstNumbers 0) "a", putOf (Clerk.uuid firstNumbers 1) "b"],
      [(putOf (Clerk.uuid firstNumbers 0) "a", true),
        (putOf (Clerk.uuid firstNumbers 1) "b", true)]) := by
  decide +kernel

theorem writes_applied_oneProcess : ∃ S,
    (machine 2 0).run (init (clientIds firstNumbers oneProcess)) (twoPuts
      (Clerk.uuid firstNumbers 0) (executes 0 (putOf (Clerk.uuid firstNumbers 1) "b") 2)) =
      some S ∧ S.answers.length = 2 ∧ WritesApplied S := by
  obtain ⟨S, hS, h⟩ := Option.map_eq_some_iff.1 oneProcess_eq
  refine ⟨S, hS, by simpa using congrArg List.length (Prod.mk.inj h).1, writes_applied ?_
    (Machine.reachable_of_run hS)⟩
  unfold Function.Injective
  decide +kernel

/-- Each clerk belongs to a process of its own. -/
def ownProcess (i : Fin 2) : ℕ × ℕ := (i, 0)

theorem ownProcess_eq : ((machine 2 0).run (init (clientIds firstNumbers ownProcess))
    (twoPuts (Clerk.uuid firstNumbers 0) (passes 0 (putOf (Clerk.uuid firstNumbers 0) "b") 2))).map
      outcome =
    some ([putOf (Clerk.uuid firstNumbers 0) "a", putOf (Clerk.uuid firstNumbers 0) "b"],
      [(putOf (Clerk.uuid firstNumbers 0) "a", true),
        (putOf (Clerk.uuid firstNumbers 0) "b", false)]) := by
  decide +kernel

/-- The first clerks of two processes share their id, and the write of the second one is dropped
and acknowledged. -/
theorem not_writes_applied : ¬ ∀ (rand : ℕ → ℕ) (place : Fin 2 → ℕ × ℕ),
    Function.Injective place → ∀ S : Service 2 0,
      (machine 2 0).Reachable (init (clientIds rand place)) S → WritesApplied S := by
  intro hall
  obtain ⟨S, hS, h⟩ := Option.map_eq_some_iff.1 ownProcess_eq
  obtain ⟨hans, happ⟩ := Prod.mk.inj h
  have hplace : Function.Injective ownProcess := by
    unfold Function.Injective
    decide
  obtain ⟨r, hr, hop⟩ := List.mem_map.1
    (hans ▸ by simp : putOf (Clerk.uuid firstNumbers 0) "b" ∈ S.answers.map fun r => r.req.op)
  obtain ⟨x, hx, hxop, hwrote, -⟩ := hall firstNumbers ownProcess hplace S
    (Machine.reachable_of_run hS) r hr (by rw [hop]; rfl)
  have hserver : r.server = 0 := Fin.ext (by omega)
  rw [hserver] at hx
  have hmem := List.mem_map_of_mem (f := fun x : Applied => (x.op, x.wrote)) hx
  rw [happ, hxop, hop, hwrote] at hmem
  exact absurd hmem (by decide +kernel)

end Service

end KvRaft
