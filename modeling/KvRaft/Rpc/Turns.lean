import KvRaft.Rpc.Channel

/-!
# Calls one at a time

A `Clerk` waits until a call has ended before it makes the next one.  Calls made so on a channel
take turns, as long as a `recv` that returns bytes returns the whole response: everything the peer
has sent on the connection of `m_clientFd` was received, but for the response to the call that is
under way, and a call that fails in `recv` leaves its connection behind.

## Main results

* `MprpcChannel.Orderly.inTurn` : a call that receives its whole response does so in its turn.
* `MprpcChannel.reaches_inTurn` : calls made one at a time, with whole responses, take turns.
-/

namespace KvRaft

open RpcCalls

/-- The call was made and has not ended. -/
def CallPhase.underWay {R : Type} : CallPhase R → Bool
  | .start | .failed | .returned _ => false
  | .connect | .serialize | .send | .sendFailed | .sendClosed | .reconnect | .recv | .receiving _
  | .recvFailed | .recvClosed => true

namespace Connection

variable {ι : Type}

/-- Everything the peer has sent was received. -/
def Drained (c : Connection ι) : Prop := c.received = c.bytes.length

/-- Everything was received but the last response, which is one to call `i`. -/
def Holds (c : Connection ι) (i : ι) (responseStr : Bytes) : Prop :=
  ∃ l, c.sent = l ++ [(i, responseStr)] ∧ c.received = (l.flatMap Prod.snd).length

theorem drained_new : ({} : Connection ι).Drained := rfl

theorem Drained.send {c : Connection ι} (h : c.Drained) (i : ι) (responseStr : Bytes) :
    c.send i responseStr = c ∨ (c.send i responseStr).Holds i responseStr := by
  unfold Connection.send
  split_ifs
  · exact Or.inl rfl
  · exact Or.inr ⟨c.sent, rfl, h⟩

theorem Holds.nextResponse {c : Connection ι} {i : ι} {responseStr : Bytes}
    (h : c.Holds i responseStr) : c.NextResponse i responseStr.length := by
  obtain ⟨l, hsent, hreceived⟩ := h
  refine ⟨l.length, ?_, ?_, ?_⟩
  · rw [hsent, List.length_append]
    exact Nat.lt_succ_self _
  · rw [hsent, List.take_left, hreceived]
  · rw [hsent, List.getElem?_append_right le_rfl, Nat.sub_self]
    rfl

theorem Holds.recv {c : Connection ι} {i : ι} {responseStr : Bytes} (h : c.Holds i responseStr) :
    (c.recv responseStr.length).Drained := by
  obtain ⟨l, hsent, hreceived⟩ := h
  change c.received + responseStr.length = (c.sent.flatMap Prod.snd).length
  rw [hsent, List.flatMap_append, List.length_append, hreceived, List.flatMap_singleton]

end Connection

namespace MprpcChannel

variable {ι : Type} [DecidableEq ι] [RpcCalls ι]

/-- **Calls are made one at a time**: a call starts when the others are not under way, and a
`recv` that returns bytes returns as many as its response has. -/
def OneAtATime (S : MprpcChannel ι) : ChannelAction ι → Prop
  | .run i => ∀ j, j ≠ i → (S.phase j).underWay = false
  | .recv i (some n) => match S.phase i with
    | .receiving k => ∃ c ∈ S.conns[k]?, ∃ responseStr, (i, responseStr) ∈ c.sent ∧
        responseStr.length = n
    | _ => True
  | _ => True

/-- The connection has nothing left, and no request is out on it. -/
def Settled (S : MprpcChannel ι) (k : ℕ) : Prop :=
  (∃ c, S.conns[k]? = some c ∧ c.Drained) ∧ ∀ j, S.request j ≠ .sent k

/-- The connection has nothing but the response to call `i`, or nothing yet. -/
def Awaits (S : MprpcChannel ι) (i : ι) (k : ℕ) : Prop :=
  (∃ c, S.conns[k]? = some c ∧
    (c.Drained ∧ (∀ responseStr, (i, responseStr) ∉ c.sent) ∨
      (∃ responseStr, c.Holds i responseStr) ∧ S.request i ≠ .sent k)) ∧
  ∀ j, j ≠ i → S.request j ≠ .sent k

/-- What the connection of `m_clientFd` has when only call `i` may be under way, by its phase. -/
def Fits (S : MprpcChannel ι) (i : ι) : CallPhase (Response i) → Prop
  | .start | .connect | .serialize | .send | .failed | .returned _ =>
    ∀ k, S.conn = some k → S.Settled k
  | .recv => ∀ k, S.conn = some k → S.Awaits i k
  | .receiving k => S.conn = some k ∧ S.Awaits i k
  -- `m_clientFd` is reset before anything more is sent
  | .sendFailed | .sendClosed | .reconnect | .recvFailed | .recvClosed => True

/-- **At most one call is under way**, and what is left on its connection is its response. -/
structure Orderly (S : MprpcChannel ι) : Prop where
  one : ∀ i j, (S.phase i).underWay = true → (S.phase j).underWay = true → i = j
  fits : ∀ i, (∀ j, j ≠ i → (S.phase j).underWay = false) → S.Fits i (S.phase i)
  sent : ∀ i k, S.request i = .sent k → k < S.conns.length

/-! ### A step of a call -/

omit [DecidableEq ι] in
theorem fits_of_rest (S : MprpcChannel ι) (i : ι) {p : CallPhase (Response i)}
    (hp : p.underWay = false) : S.Fits i p ↔ ∀ k, S.conn = some k → S.Settled k := by
  cases p with
  | start | failed | returned => rfl
  | _ => cases hp

/-- A call goes on while the others are not under way. -/
theorem orderly_setPhase {S : MprpcChannel ι} {i : ι} {p : CallPhase (Response i)}
    (hrest : ∀ j, j ≠ i → (S.phase j).underWay = false) (hfits : S.Fits i p)
    (hsent : ∀ j k, S.request j = .sent k → k < S.conns.length) : (S.setPhase i p).Orderly := by
  have hcall : ∀ j, ((S.setPhase i p).phase j).underWay = true → j = i := by
    intro j hj
    by_contra hji
    rw [phase_setPhase_of_ne _ hji, hrest j hji] at hj
    cases hj
  refine ⟨fun j k hj hk => (hcall j hj).trans (hcall k hk).symm, fun j hj => ?_, hsent⟩
  by_cases hji : j = i
  · obtain rfl := hji
    rw [phase_setPhase_self]
    exact hfits
  · -- no call is under way
    have hp := hj i (Ne.symm hji)
    rw [phase_setPhase_self] at hp
    rw [phase_setPhase_of_ne _ hji, fits_of_rest _ _ (hrest j hji)]
    exact (fits_of_rest S i hp).1 hfits

omit [DecidableEq ι] in
@[simp] theorem request_closeFd (S : MprpcChannel ι) : S.closeFd.request = S.request := by
  unfold closeFd
  split <;> rfl

omit [DecidableEq ι] in
@[simp] theorem conns_closeFd (S : MprpcChannel ι) : S.closeFd.conns = S.conns := by
  unfold closeFd
  split <;> rfl

omit [DecidableEq ι] in
@[simp] theorem phase_closeFd (S : MprpcChannel ι) : S.closeFd.phase = S.phase := by
  unfold closeFd
  split <;> rfl

theorem Orderly.closeFd {S : MprpcChannel ι} {i : ι} {p : CallPhase (Response i)}
    (hS : S.Orderly) (hrest : ∀ j, j ≠ i → (S.phase j).underWay = false)
    (hfits : S.closeFd.Fits i p) : (S.closeFd.setPhase i p).Orderly := by
  refine orderly_setPhase ?_ hfits ?_
  · rwa [phase_closeFd]
  · rw [request_closeFd, conns_closeFd]
    exact hS.sent

theorem Orderly.runCall {S S' : MprpcChannel ι} {i : ι} (hS : S.Orderly)
    (hrest : ∀ j, j ≠ i → (S.phase j).underWay = false) (h : S.runCall i = some S') :
    S'.Orderly := by
  have hfits := hS.fits i hrest
  unfold MprpcChannel.runCall at h
  split at h
  case h_1 hphase =>
    obtain rfl := Option.some.inj h
    rw [hphase] at hfits
    refine orderly_setPhase hrest ?_ hS.sent
    split_ifs <;> exact hfits
  case h_2 hphase =>
    rw [hphase] at hfits
    split at h <;> obtain rfl := Option.some.inj h <;> exact orderly_setPhase hrest hfits hS.sent
  case h_3 =>
    obtain rfl := Option.some.inj h
    exact hS.closeFd hrest trivial
  case h_4 =>
    obtain rfl := Option.some.inj h
    exact orderly_setPhase hrest trivial hS.sent
  case h_5 hphase =>
    rw [hphase] at hfits
    split at h
    · rename_i k hconn
      obtain rfl := Option.some.inj h
      exact orderly_setPhase hrest ⟨hconn, hfits k hconn⟩ hS.sent
    · obtain rfl := Option.some.inj h
      exact orderly_setPhase hrest trivial hS.sent
  case h_6 =>
    obtain rfl := Option.some.inj h
    exact hS.closeFd hrest trivial
  case h_7 =>
    -- the connection is left behind
    obtain rfl := Option.some.inj h
    exact orderly_setPhase hrest (fun k hk => by cases hk) hS.sent
  case h_8 => cases h

omit [DecidableEq ι] in
theorem settled_newConnect {S : MprpcChannel ι}
    (hsent : ∀ i k, S.request i = .sent k → k < S.conns.length) (fd : Option ℕ) {k : ℕ}
    (hk : (S.newConnect fd).conn = some k) : (S.newConnect fd).Settled k := by
  cases fd with
  | none => cases hk
  | some fd =>
    have hlast : some S.conns.length = some k := (Function.update_self fd _ _).symm.trans hk
    obtain rfl := Option.some.inj hlast
    refine ⟨⟨{}, List.getElem?_concat_length, Connection.drained_new⟩, fun j hj => ?_⟩
    exact Nat.lt_irrefl _ (hsent j _ hj)

theorem Orderly.newConnect {S : MprpcChannel ι} {i : ι} {p : CallPhase (Response i)}
    (hS : S.Orderly) (hrest : ∀ j, j ≠ i → (S.phase j).underWay = false) (fd : Option ℕ)
    (hfits : (∀ k, (S.newConnect fd).conn = some k → (S.newConnect fd).Settled k) →
      (S.newConnect fd).Fits i p) : ((S.newConnect fd).setPhase i p).Orderly := by
  have hsettled := hfits fun k => settled_newConnect hS.sent fd
  cases fd with
  | none => exact orderly_setPhase hrest hsettled hS.sent
  | some fd =>
    refine orderly_setPhase hrest hsettled fun j k hj => ?_
    rw [MprpcChannel.newConnect, List.length_append]
    exact Nat.lt_add_right 1 (hS.sent j k hj)

/-- A request is sent on a connection that has nothing left. -/
theorem Orderly.send {S : MprpcChannel ι} {i : ι} {k : ℕ} (hS : S.Orderly) (hcons : S.Consistent)
    (hphase : S.phase i = .send) (hrest : ∀ j, j ≠ i → (S.phase j).underWay = false)
    (hconn : S.conn = some k) : ((S.setRequest i (.sent k)).setPhase i .recv).Orderly := by
  have hfits := hS.fits i hrest
  rw [hphase] at hfits
  obtain ⟨⟨c, hc, hdrained⟩, hnone⟩ := hfits k hconn
  refine orderly_setPhase hrest (fun k' hk' => ?_) fun j k' hj => ?_
  · obtain rfl := Option.some.inj (hconn.symm.trans hk')
    refine ⟨⟨c, hc, Or.inl ⟨hdrained, fun responseStr hmem => ?_⟩⟩, fun j hji => ?_⟩
    · obtain ⟨response, hanswered, -⟩ := hcons.sent c (List.mem_of_getElem? hc) i responseStr hmem
      rw [hcons.unsent i (by rw [hphase]; rfl)] at hanswered
      cases hanswered
    · rw [request_setRequest_of_ne _ hji]
      exact hnone j
  · by_cases hji : j = i
    · obtain rfl := hji
      rw [request_setRequest_self] at hj
      obtain rfl := RequestState.sent.inj hj
      exact (List.getElem?_eq_some_iff.1 hc).1
    · rw [request_setRequest_of_ne _ hji] at hj
      exact hS.sent j k' hj

omit [DecidableEq ι] in
/-- The response to a call that is awaited is what comes next. -/
theorem Awaits.holds {S : MprpcChannel ι} {i : ι} {k : ℕ} {c : Connection ι} {responseStr : Bytes}
    (hcons : S.Consistent) (h : S.Awaits i k) (hc : S.conns[k]? = some c)
    (hmem : (i, responseStr) ∈ c.sent) : c.Holds i responseStr ∧ S.request i ≠ .sent k := by
  obtain ⟨⟨c', hc', hleft⟩, -⟩ := h
  obtain rfl := Option.some.inj (hc.symm.trans hc')
  rcases hleft with ⟨-, hnone⟩ | ⟨⟨str, hholds⟩, hrequest⟩
  · exact absurd hmem (hnone _)
  · have hlast : (i, str) ∈ c.sent := by
      obtain ⟨l, hsent, -⟩ := hholds
      rw [hsent]
      exact List.mem_append_right _ (List.mem_singleton_self _)
    -- a request is answered once
    have hin := List.mem_of_getElem? hc
    obtain ⟨response, hanswered, hser⟩ := hcons.sent c hin i responseStr hmem
    obtain ⟨response', hanswered', hser'⟩ := hcons.sent c hin i str hlast
    obtain rfl := RequestState.answered.inj (hanswered.symm.trans hanswered')
    obtain rfl := Option.some.inj (hser.symm.trans hser')
    exact ⟨hholds, hrequest⟩

theorem Orderly.recv {S : MprpcChannel ι} {i : ι} {k : ℕ} {c : Connection ι} {responseStr : Bytes}
    {p : CallPhase (Response i)} (hS : S.Orderly) (hcons : S.Consistent)
    (hphase : S.phase i = .receiving k) (hrest : ∀ j, j ≠ i → (S.phase j).underWay = false)
    (hc : S.conns[k]? = some c) (hmem : (i, responseStr) ∈ c.sent) (hp : p.underWay = false) :
    ((S.setConn k (c.recv responseStr.length)).setPhase i p).Orderly := by
  have hfits := hS.fits i hrest
  rw [hphase] at hfits
  obtain ⟨hconn, hawaits⟩ := hfits
  obtain ⟨hholds, hrequest⟩ := hawaits.holds hcons hc hmem
  refine orderly_setPhase hrest ((fits_of_rest _ i hp).2 fun k' hk' => ?_) fun j k' hj => ?_
  · obtain rfl := Option.some.inj (hconn.symm.trans hk')
    refine ⟨⟨c.recv responseStr.length, ?_, hholds.recv⟩, fun j hj => ?_⟩
    · exact List.getElem?_set_self (List.getElem?_eq_some_iff.1 hc).1
    · by_cases hji : j = i
      · exact hrequest (hji ▸ hj)
      · exact hawaits.2 j hji hj
  · rw [MprpcChannel.setConn, List.length_set]
    exact hS.sent j k' hj

/-! ### A step of the peer -/

omit [DecidableEq ι] in
theorem Orderly.peer {S S' : MprpcChannel ι} (hS : S.Orderly) (hphase : S'.phase = S.phase)
    (hconn : S'.conn = S.conn) (hsettled : ∀ k, S.Settled k → S'.Settled k)
    (hawaits : ∀ i k, S.Awaits i k → S'.Awaits i k)
    (hsent : ∀ i k, S'.request i = .sent k → k < S'.conns.length) : S'.Orderly := by
  refine ⟨?_, fun i hi => ?_, hsent⟩
  · rw [hphase]
    exact hS.one
  · rw [hphase] at hi ⊢
    have hfits := hS.fits i hi
    revert hfits
    cases S.phase i with
    | sendFailed | sendClosed | reconnect | recvFailed | recvClosed => exact id
    | recv => exact fun hfits k hk => hawaits i k (hfits k (hconn ▸ hk))
    | receiving k => exact fun hfits => ⟨hconn.trans hfits.1, hawaits i k hfits.2⟩
    | _ => exact fun hfits k hk => hsettled k (hfits k (hconn ▸ hk))

section Answer

variable {S : MprpcChannel ι} {i : ι} {k : ℕ} {c c' : Connection ι}

omit [DecidableEq ι] in
theorem setConn_self (hc : S.conns[k]? = some c) : S.setConn k c = S := by
  obtain ⟨hk, rfl⟩ := List.getElem?_eq_some_iff.1 hc
  rw [setConn, List.set_getElem_self]

/-- A request that is out after an answer was out before it. -/
theorem sent_of_answered {response : Response i} {j : ι} {m : ℕ}
    (h : (S.setRequest i (.answered response)).request j = .sent m) : S.request j = .sent m := by
  by_cases hji : j = i
  · obtain rfl := hji
    rw [request_setRequest_self] at h
    cases h
  · rwa [request_setRequest_of_ne _ hji] at h

/-- The response goes out on a connection with a request. -/
theorem Settled.answer {m : ℕ} (h : S.Settled m) (hrequest : S.request i = .sent k)
    (c' : Connection ι) (response : Response i) :
    ((S.setConn k c').setRequest i (.answered response)).Settled m := by
  obtain ⟨⟨d, hd, hdrained⟩, hnone⟩ := h
  have hkm : k ≠ m := fun hkm => hnone i (hkm ▸ hrequest)
  refine ⟨⟨d, (List.getElem?_set_ne hkm).trans hd, hdrained⟩, fun j hj => ?_⟩
  exact hnone j (sent_of_answered (S := S.setConn k c') hj)

/-- What arrives on the connection of a call is the response to the call. -/
theorem Awaits.answer {j : ι} {m : ℕ} (h : S.Awaits j m) (hrequest : S.request i = .sent k)
    (hc : S.conns[k]? = some c)
    (hc' : c.Drained → c' = c ∨ ∃ responseStr, c'.Holds i responseStr) (response : Response i) :
    ((S.setConn k c').setRequest i (.answered response)).Awaits j m := by
  obtain ⟨⟨d, hd, hleft⟩, hnone⟩ := h
  refine ⟨?_, fun l hlj hl => hnone l hlj (sent_of_answered (S := S.setConn k c') hl)⟩
  by_cases hkm : k = m
  · obtain rfl := hkm
    obtain rfl := Option.some.inj (hc.symm.trans hd)
    have hij : i = j := by
      by_contra hij
      exact hnone i hij hrequest
    obtain rfl := hij
    refine ⟨c', List.getElem?_set_self (List.getElem?_eq_some_iff.1 hc).1, ?_⟩
    have hanswered : ((S.setConn k c').setRequest i (.answered response)).request i ≠ .sent k := by
      rw [request_setRequest_self]
      intro heq
      cases heq
    rcases hleft with ⟨hdrained, hmem⟩ | ⟨-, hne⟩
    · rcases hc' hdrained with rfl | hholds
      · exact Or.inl ⟨hdrained, hmem⟩
      · exact Or.inr ⟨hholds, hanswered⟩
    · exact absurd hrequest hne
  · refine ⟨d, (List.getElem?_set_ne hkm).trans hd, hleft.imp_right fun hholds => ?_⟩
    exact ⟨hholds.1, fun hj => hholds.2 (sent_of_answered (S := S.setConn k c') hj)⟩

theorem Orderly.answer (hS : S.Orderly) (hrequest : S.request i = .sent k)
    (hc : S.conns[k]? = some c)
    (hc' : c.Drained → c' = c ∨ ∃ responseStr, c'.Holds i responseStr) (response : Response i) :
    ((S.setConn k c').setRequest i (.answered response)).Orderly := by
  refine hS.peer rfl rfl (fun m h => h.answer hrequest c' response)
    (fun j m h => h.answer hrequest hc hc' response) fun j m hj => ?_
  exact (hS.sent j m (sent_of_answered (S := S.setConn k c') hj)).trans_eq List.length_set.symm

omit [DecidableEq ι] in
theorem Orderly.close (hS : S.Orderly) (hc : S.conns[k]? = some c) (n : ℕ) :
    (S.setConn k (c.close n)).Orderly := by
  have hconns : ∀ (m : ℕ) (d : Connection ι), S.conns[m]? = some d →
      ∃ d', (S.setConn k (c.close n)).conns[m]? = some d' ∧ (d.Drained → d'.Drained) ∧
        (∀ i responseStr, d.Holds i responseStr → d'.Holds i responseStr) ∧ d'.sent = d.sent := by
    intro m d hd
    by_cases hkm : k = m
    · obtain rfl := hkm
      obtain rfl := Option.some.inj (hc.symm.trans hd)
      exact ⟨c.close n, List.getElem?_set_self (List.getElem?_eq_some_iff.1 hc).1, id,
        fun _ _ => id, rfl⟩
    · exact ⟨d, (List.getElem?_set_ne hkm).trans hd, id, fun _ _ => id, rfl⟩
  refine hS.peer rfl rfl (fun m h => ?_) (fun j m h => ?_) fun j m hj => ?_
  · obtain ⟨⟨d, hd, hdrained⟩, hnone⟩ := h
    obtain ⟨d', hd', hdrains, -, -⟩ := hconns m d hd
    exact ⟨⟨d', hd', hdrains hdrained⟩, hnone⟩
  · obtain ⟨⟨d, hd, hleft⟩, hnone⟩ := h
    obtain ⟨d', hd', hdrains, hholds, hsent⟩ := hconns m d hd
    refine ⟨⟨d', hd', hleft.imp (And.imp hdrains fun hmem => ?_) (And.imp_left ?_)⟩, hnone⟩
    · rwa [hsent]
    · rintro ⟨responseStr, h⟩
      exact ⟨responseStr, hholds j responseStr h⟩
  · exact (hS.sent j m hj).trans_eq List.length_set.symm

end Answer

/-! ### Runs -/

omit [DecidableEq ι] in
theorem orderly_create (fd : Option ℕ) : (create fd : MprpcChannel ι).Orderly := by
  have hsent : ∀ i k, ({} : MprpcChannel ι).request i = .sent k →
      k < ({} : MprpcChannel ι).conns.length := by
    intro i k h
    cases h
  have hphase : ∀ i, (create fd : MprpcChannel ι).phase i = .start := by
    cases fd <;> exact fun _ => rfl
  refine ⟨fun i j hi => ?_, fun i _ => ?_, fun i k h => ?_⟩
  · rw [hphase] at hi
    cases hi
  · rw [hphase]
    exact fun k hk => settled_newConnect hsent fd hk
  · cases fd <;> cases h

omit [DecidableEq ι] in
/-- A call that is under way is the only one. -/
theorem Orderly.rest {S : MprpcChannel ι} (hS : S.Orderly) {i : ι} {p : CallPhase (Response i)}
    (hphase : S.phase i = p) (hp : p.underWay = true) (j : ι) (hj : j ≠ i) :
    (S.phase j).underWay = false :=
  Bool.eq_false_iff.2 fun h => hj (hS.one j i h (by rw [hphase]; exact hp))

/-- **A step of calls made one at a time** leaves them so. -/
theorem Orderly.step {S S' : MprpcChannel ι} {a : ChannelAction ι} (hS : S.Orderly)
    (hcons : S.Consistent) (hone : S.OneAtATime a) (h : S.step a = some S') : S'.Orderly := by
  cases a with
  | run i => exact hS.runCall hone h
  | newConnect i fd =>
    rw [MprpcChannel.step, Option.ite_none_right_eq_some] at h
    obtain ⟨-, h⟩ := h
    split at h
    · rename_i hphase
      obtain rfl := Option.some.inj h
      refine hS.newConnect (hS.rest hphase rfl) fd fun hsettled => ?_
      split_ifs <;> exact hsettled
    · rename_i hphase
      obtain rfl := Option.some.inj h
      refine hS.newConnect (hS.rest hphase rfl) fd fun hsettled => ?_
      split_ifs <;> exact hsettled
    · cases h
  | send i ok =>
    simp only [MprpcChannel.step] at h
    split at h
    · rename_i hphase
      split_ifs at h
      · obtain ⟨k, hconn, rfl⟩ := Option.map_eq_some_iff.1 h
        exact hS.send hcons hphase (hS.rest hphase rfl) hconn
      · obtain rfl := Option.some.inj h
        exact orderly_setPhase (hS.rest hphase rfl) trivial hS.sent
    · cases h
  | recv i size =>
    simp only [MprpcChannel.step] at h
    split at h
    · rename_i k hphase
      cases size with
      | none =>
        obtain rfl := Option.some.inj h
        exact orderly_setPhase (hS.rest hphase rfl) trivial hS.sent
      | some n =>
        obtain ⟨c, hc, h⟩ := Option.bind_eq_some_iff.1 h
        split_ifs at h
        obtain rfl := Option.some.inj h
        rw [OneAtATime, hphase] at hone
        obtain ⟨d, hd, responseStr, hmem, rfl⟩ := hone
        obtain rfl := Option.mem_unique hc hd
        refine hS.recv hcons hphase (hS.rest hphase rfl) hc hmem ?_
        split <;> rfl
    · cases h
  | sendRpcResponse i response =>
    simp only [MprpcChannel.step] at h
    split at h
    · rename_i k hrequest
      obtain ⟨c, hc, h⟩ := Option.map_eq_some_iff.1 h
      split at h
      · rename_i responseStr hser
        obtain rfl := h
        exact hS.answer hrequest hc
          (fun hdrained => (hdrained.send i responseStr).imp_right fun h => ⟨_, h⟩) response
      · obtain rfl := h
        have hanswer := hS.answer hrequest hc (fun _ => Or.inl rfl) response
        rwa [setConn_self hc] at hanswer
    · cases h
  | close k n =>
    obtain ⟨c, hc, rfl⟩ := Option.map_eq_some_iff.1 h
    exact hS.close hc n

omit [DecidableEq ι] in
/-- **A call that receives its whole response does so in its turn.** -/
theorem Orderly.inTurn {S : MprpcChannel ι} {a : ChannelAction ι} (hS : S.Orderly)
    (hcons : S.Consistent) (hone : S.OneAtATime a) : S.InTurn a := by
  cases a with
  | recv i size =>
    cases size with
    | none => trivial
    | some n =>
      simp only [InTurn]
      split
      · rename_i k hphase
        rw [OneAtATime, hphase] at hone
        obtain ⟨c, hc, responseStr, hmem, rfl⟩ := hone
        have hfits := hS.fits i (hS.rest hphase rfl)
        rw [hphase] at hfits
        exact ⟨c, hc, (hfits.2.holds hcons hc hmem).1.nextResponse⟩
      · trivial
  | _ => trivial

/-- **Calls made one at a time take turns.** -/
theorem reaches_inTurn (fd : Option ℕ) {S : MprpcChannel ι}
    (h : (machine ι).Reaches OneAtATime (create fd) S) :
    (machine ι).Reaches InTurn (create fd) S := by
  have hinv : ∀ {S : MprpcChannel ι}, (machine ι).Reaches OneAtATime (create fd) S →
      S.Consistent ∧ S.Orderly := by
    intro S h
    refine h.invariant (I := fun S => S.Consistent ∧ S.Orderly)
      ⟨consistent_create fd, orderly_create fd⟩ ?_
    rintro S a S' ⟨hcons, hS⟩ hone hst
    exact ⟨hcons.step hst, hS.step hcons hone hst⟩
  induction h with
  | refl => exact .refl
  | tail hr hone hst ih =>
    obtain ⟨hcons, hS⟩ := hinv hr
    exact .tail ih (hS.inTurn hcons hone) hst

end MprpcChannel

end KvRaft
