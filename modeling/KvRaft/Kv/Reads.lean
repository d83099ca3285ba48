import KvRaft.Kv.Requests

/-!
# Linearizable reads

A Get that is answered has read the store of its server after some prefix of the committed log
that contains its own command (`KvProcess.Answers`), or a later one of its client.  That command
was started only after the clerk had made the request, so it stands behind every write
acknowledged before, and so does the prefix: `Service.reads_committed`.
-/

namespace KvRaft

open Session

namespace Service

variable {m s : ℕ} {ids : Fin m → String} {S : Service m s}

/-- Every Get that is answered reports the key as it is in the store of the answering server
after some prefix of the committed log, which contains every write whose `OK` was sent before
the clerk first sent the request. -/
def ReadsCommitted (S : Service m s) : Prop :=
  ∀ j, ∀ h ∈ (S.servers j).handlers, ∀ args reply, h.req = .get args → h.pc = .returned reply →
    reply.err ≠ .errWrongLeader → ∃ i, ∃ x ∈ S.calls i, x.req = .get args ∧
      ∃ k ≤ (S.servers j).applied.length, (S.servers j).ops.take k = S.committed.take k ∧
        (∀ op ∈ x.acked, op ∈ S.committed.take k) ∧
        (reply.err = .ok ∧ (S.servers j).storeAfter k args.key = some reply.value ∨
          reply.err = .errNoKey ∧ (S.servers j).storeAfter k args.key = none)

/-- The first `k` committed commands contain what was acknowledged before a request, if its
client has reached the request by then. -/
theorem Replicated.acked_mem_take (hr : Replicated ids S) {i : Fin m} {q : ℕ} {x : Asked}
    (hx : (S.calls i)[q]? = some x) {k : ℕ}
    (hk : Reached Op.tag (S.committed.take k) (ids i) (q + 1)) :
    ∀ op ∈ x.acked, op ∈ S.committed.take k := by
  obtain ⟨l, hl, hacked, hlow⟩ := hr.asked i q x hx
  obtain ⟨e, he, hc, hle⟩ := hk
  have hpre := List.take_prefix k S.committed
  rcases List.prefix_or_prefix_of_prefix hl hpre with h | h
  · exact fun op hop => h.subset (hacked op hop)
  · have : e.requestId ≤ q := hlow e (h.subset he) hc
    have : (q : ℤ) + 1 ≤ e.requestId := hle
    omega

/-- **Linearizable reads.** -/
theorem reads_committed (hids : Function.Injective ids)
    (h : (machine m s).Reaches Consensus (init ids) S) : ReadsCommitted S := by
  have hn := numbered_of_reachable h.reachable
  have hr := replicated_of_reaches hids h
  intro j h hh args reply hreq hpc hrep
  obtain ⟨i, q, x, hx, hxreq, htag⟩ := hn.exists_of_made (hn.handler j h hh)
  have hs := (hn.sound j).handler h hh
  unfold KvProcess.HandlerSound at hs
  rw [hpc] at hs
  have hans := hs hrep
  rw [hreq] at hans hxreq htag
  obtain ⟨k, hk, hknows, hval⟩ := hans
  have htake : (S.servers j).ops.take k = S.committed.take k := by
    obtain ⟨t, ht⟩ := hr.ops j
    rw [← ht, List.take_append_of_le_length (by rwa [KvProcess.length_ops])]
  refine ⟨i, x, List.mem_of_getElem? hx, hxreq, k, hk, htake, ?_, hval⟩
  obtain ⟨hc, hnum⟩ := Prod.mk.inj htag
  unfold KvProcess.Knows at hknows
  rw [htake, hc, hnum] at hknows
  exact hr.acked_mem_take hx hknows

/-! ### A run -/

/-- The Get of clerk `1` is answered twice by server `0`, the second time after its wait: the
first reply was lost, and server `1` is not the leader. -/
def retriedRead : List (ServiceAction 2 (s + 1)) :=
  [.call 0 (.put "k" "a")] ++ takes 0 0 1 ++ [.commit 0] ++ executes 0 ⟨.put, "k", "a", "c", 1⟩ 1 ++
  [runs 0 0, runs 0 0, .reply 0, .call 1 (.get "k")] ++ takes 0 1 2 ++ [.commit 1] ++
  executes 0 ⟨.get, "k", "", "d", 1⟩ 2 ++ [runs 0 1, runs 0 1, runs 0 1, .fail 1, .retry 1,
    .server 1 (.handle 0 (.start (-1) false)), .reply 1, .retry 1] ++ takes 0 2 3 ++
  [.server 0 (.handle 2 .timeOut), .server 0 (.handle 2 (.getState true)), runs 0 2, runs 0 2,
    runs 0 2, .reply 1]

theorem retriedRead_eq :
    ((machine 2 1).runWhere Consensus (init twoIds) retriedRead).map
      (fun S => S.answers.map Answer.reply) = some [⟨.ok, ""⟩, ⟨.ok, "a"⟩] := by
  decide +kernel

theorem reads_committed_retriedRead : ∃ S,
    (machine 2 1).runWhere Consensus (init twoIds) retriedRead = some S ∧
      S.answers.map Answer.reply = [⟨.ok, ""⟩, ⟨.ok, "a"⟩] ∧ ReadsCommitted S := by
  obtain ⟨S, hS, h⟩ := Option.map_eq_some_iff.1 retriedRead_eq
  exact ⟨S, hS, h, reads_committed twoIds_injective (Machine.reaches_of_runWhere hS)⟩

end Service

end KvRaft
