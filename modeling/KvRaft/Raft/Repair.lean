import KvRaft.Raft.Slices

/-!
# Log repair

A follower whose log does not match sends the leader back, to the end of its log or in front of a
run of equal terms, and the next heartbeat starts there.

* `Raft.Accepted`, `Raft.Contiguous.accepted` : what an accepted request does to a log.
* `Link.exchange` : one exchange between a leader and a follower in which nothing is lost.
* `Link.Repairable` : the invariant of repeated exchanges.
* `log_repair` : every exchange gets an answer, every refusal lowers the next index, and after
  finitely many of them the follower has the log of the leader or needs a snapshot.
-/

namespace KvRaft

open Raft

namespace Raft

variable {n : ℕ} {C D : Type} {rf rf' : Raft n C D}

/-! ### Acceptance -/

/-- **What an accepted request does.** -/
structure Accepted (rf : Raft n C D) (args : AppendEntriesArgs n C) (rf' : Raft n C D) : Prop where
  term_le : rf.currentTerm ≤ args.term
  currentTerm : rf'.currentTerm = args.term
  snapshot_le : rf.lastSnapshotIncludeIndex ≤ args.prevlogindex
  prev_le : args.prevlogindex ≤ rf.getLastLogIndex
  prevTerm : rf.getLogTermFromLogIndex args.prevlogindex = .ok args.prevlogterm
  pointIndex : rf'.lastSnapshotIncludeIndex = rf.lastSnapshotIncludeIndex
  pointTerm : rf'.lastSnapshotIncludeTerm = rf.lastSnapshotIncludeTerm
  within : rf'.Within
  covers : args.lastIndex ≤ rf'.getLastLogIndex
  commitIndex : rf'.commitIndex = if args.leadercommit > rf.commitIndex then
    min args.leadercommit rf'.getLastLogIndex else rf.commitIndex
  old : ∀ k, k ≤ args.prevlogindex → rf'.getLogTermFromLogIndex k = rf.getLogTermFromLogIndex k ∧
    rf'.logOf k = rf.logOf k
  entries : ∀ (k : ℕ) (e : LogEntry C), args.entries[k]? = some e →
    rf'.logOf (args.prevlogindex + 1 + k) = .ok e

section Accept

variable [DecidableEq C]

/-- The last assertion of `appendEntries1`. -/
theorem appendEntries1_commit_le {args : AppendEntriesArgs n C} {reply : AppendEntriesReply}
    (h : rf.appendEntries1 args = .ok (rf', reply)) (hok : reply.success = true) :
    rf'.commitIndex ≤ rf'.getLastLogIndex := by
  by_cases hlt : args.term < rf.currentTerm
  · obtain ⟨-, rfl⟩ : _ ∧ _ := by simpa [appendEntries1, hlt] using h
    cases hok
  simp only [appendEntries1, if_neg hlt, bind_eq_ok] at h
  obtain ⟨_, -, h⟩ := h
  split_ifs at h
  · obtain ⟨-, rfl⟩ := Prod.mk.inj (pure_eq_ok.1 h)
    cases hok
  all_goals
    obtain ⟨b, -, h'⟩ := bind_eq_ok.1 h
    cases b with
    | true =>
      simp only [if_true, bind_eq_ok] at h'
      obtain ⟨rf₂, -, _, -, _, hcommit, h''⟩ := h'
      obtain ⟨rfl, -⟩ := Prod.mk.inj (pure_eq_ok.1 h'')
      exact myAssert_eq_ok.1 hcommit
    | false =>
      obtain ⟨found, -, h''⟩ := bind_eq_ok.1 h'
      obtain ⟨-, rfl⟩ := Prod.mk.inj (pure_eq_ok.1 h'')
      cases hok

omit [DecidableEq C] in
theorem logOf_of_le {k : ℤ} (h : k ≤ rf.lastSnapshotIncludeIndex) :
    rf.logOf k = .error .slicesRange := by
  simp [logOf, getSlicesIndexFromLogIndex, myAssert, not_lt.2 h, bind, Except.bind]

omit [DecidableEq C] in
/-- Two nodes with the same snapshot point and the same entries up to an index. -/
theorem getLogTermFromLogIndex_congr {k : ℤ}
    (hindex : rf'.lastSnapshotIncludeIndex = rf.lastSnapshotIncludeIndex)
    (hterm : rf'.lastSnapshotIncludeTerm = rf.lastSnapshotIncludeTerm)
    (hle : k ≤ rf.getLastLogIndex) (hle' : k ≤ rf'.getLastLogIndex)
    (hlog : rf'.logOf k = rf.logOf k) :
    rf'.getLogTermFromLogIndex k = rf.getLogTermFromLogIndex k := by
  simp only [getLogTermFromLogIndex, hindex, hterm, hlog, ge_iff_le, hle, hle']

theorem Contiguous.accepted (h : rf.Contiguous) {args : AppendEntriesArgs n C}
    {reply : AppendEntriesReply} (he : ContiguousFrom args.prevlogindex args.entries)
    (heq : rf.appendEntries1 args = .ok (rf', reply)) (hok : reply.success = true) :
    rf.Accepted args rf' := by
  have hcommit := appendEntries1_commit_le heq hok
  rcases appendEntries1_cases heq with
    ⟨hno, -⟩ | ⟨-, -, hterm, hprev, hmatch, rf₁, rf₂, hs, -, -, hcurrent, hm, hrf'⟩
  · rw [hok] at hno
    cases hno
  obtain ⟨hlo, hhi, t, ht, hdec⟩ := matchLog_eq_ok.1 hmatch
  obtain rfl : args.prevlogterm = t := of_decide_eq_true hdec
  obtain ⟨p, hp, hlen⟩ := h.exists_position hmatch
  have hc₁ : rf₁.Contiguous := by
    rw [Contiguous, hs.logs, hs.lastSnapshotIncludeIndex]
    exact h
  have hp₁ : args.prevlogindex = rf₁.lastSnapshotIncludeIndex + p := by
    rw [hs.lastSnapshotIncludeIndex]
    exact hp
  obtain ⟨hrf₂, -⟩ := Raft.foldlM_mergeEntry p hc₁ (hs.logs ▸ hlen) (hp₁ ▸ he) hm
  obtain ⟨hc₂, hgrow, hcovers⟩ := hc₁.merged (hs.logs ▸ hlen) (hp₁ ▸ he) hm
  have hindex : rf'.lastSnapshotIncludeIndex = rf.lastSnapshotIncludeIndex := by
    rw [hrf', hrf₂]
    exact hs.lastSnapshotIncludeIndex
  have hpoint : rf'.lastSnapshotIncludeTerm = rf.lastSnapshotIncludeTerm := by
    rw [hrf', hrf₂]
    exact hs.lastSnapshotIncludeTerm
  have hlogs : rf'.logs =
      rf.logs.take p ++ args.entries ++ rf.logs.drop (p + args.entries.length) := by
    rw [hrf', hrf₂, ← hs.logs]
    rfl
  have hc : rf'.Contiguous := by
    rw [hrf']
    exact hc₂
  have hlast := h.getLastLogIndex
  have hlast' := hc.getLastLogIndex
  have hlen' : rf'.logs.length = max rf.logs.length (p + args.entries.length) := by
    rw [hlogs, List.length_append, List.length_append, List.length_take_of_le hlen,
      List.length_drop]
    omega
  have hcovers' : args.lastIndex ≤ rf'.getLastLogIndex := by
    unfold AppendEntriesArgs.lastIndex
    omega
  have hold : ∀ k, k ≤ args.prevlogindex → rf'.logOf k = rf.logOf k := by
    intro k hk
    rcases lt_or_ge rf.lastSnapshotIncludeIndex k with hlt | hge
    · obtain ⟨e, hlog⟩ := h.exists_logOf hlt (by omega)
      rw [hlog]
      refine logOf_eq_ok.2 ⟨hindex ▸ hlt, by omega, ?_⟩
      rw [hindex, hlogs, List.append_assoc, List.getElem?_append_left, List.getElem?_take_of_lt,
        (logOf_eq_ok.1 hlog).2.2]
      · omega
      · rw [List.length_take_of_le hlen]
        omega
    · rw [logOf_of_le hge, logOf_of_le (hindex ▸ hge)]
  refine ⟨hterm, ?_, hlo, hhi, ht, hindex, hpoint, ⟨hc, hcommit⟩, hcovers', ?_,
    fun k hk => ⟨getLogTermFromLogIndex_congr hindex hpoint (by omega) (by omega) (hold k hk),
      hold k hk⟩, fun k e hk => ?_⟩
  · rw [hrf', foldlM_mergeEntry_logs hm]
    exact hcurrent
  · rw [hrf', foldlM_mergeEntry_logs hm, ← hs.commitIndex]
    rfl
  · have hk' := (List.getElem?_eq_some_iff.1 hk).1
    refine logOf_eq_ok.2 ⟨by omega, by omega, ?_⟩
    rw [hindex, hlogs, List.append_assoc, List.getElem?_append_right, List.length_take_of_le hlen,
      List.getElem?_append_left, ← hk]
    · congr 1
      omega
    · omega
    · rw [List.length_take_of_le hlen]
      omega

end Accept

/-! ### The side of the leader -/

/-- The other fields of a heartbeat. -/
theorem heartBeatTo_fields {i j : Fin n} {args : AppendEntriesArgs n C}
    (h : rf.heartBeatTo i = .ok (.sendAppendEntries j args)) :
    args.term = rf.currentTerm ∧ args.leadercommit = rf.commitIndex ∧
      args.entries = rf.logs.drop (args.prevlogindex - rf.lastSnapshotIncludeIndex).toNat := by
  rcases heartBeatTo_cases h with ⟨hb, -⟩ | ⟨prev, term, -, hb⟩
  · cases hb
  · obtain ⟨-, rfl⟩ := HeartBeat.sendAppendEntries.inj hb
    exact ⟨rfl, rfl, rfl⟩

/-- A slice goes to the end of the log. -/
theorem SliceOf.lastIndex {args : AppendEntriesArgs n C} (h : rf.SliceOf args) :
    args.lastIndex = rf.getLastLogIndex := by
  have hlen := congrArg List.length h.entries
  have hle := h.prev_le
  simp only [List.length_map, List.length_range] at hlen
  unfold AppendEntriesArgs.lastIndex
  omega

/-- A slice has the entries of the log behind its start. -/
theorem SliceOf.exists_entry {args : AppendEntriesArgs n C} (h : rf.SliceOf args) {k : ℤ}
    (hlo : args.prevlogindex < k) (hhi : k ≤ rf.getLastLogIndex) : ∃ (j : ℕ) (e : LogEntry C),
      k = args.prevlogindex + 1 + j ∧ args.entries[j]? = some e ∧ rf.logOf k = .ok e := by
  obtain ⟨j, hj⟩ : ∃ j : ℕ, k = args.prevlogindex + 1 + j :=
    ⟨(k - args.prevlogindex - 1).toNat, by omega⟩
  have hget := congrArg (fun l => l[j]?) h.entries
  simp only [List.getElem?_map, List.getElem?_range
    (show j < (rf.getLastLogIndex - args.prevlogindex).toNat by omega), Option.map_some] at hget
  obtain ⟨e, he, hok⟩ := Option.map_eq_some_iff.1 hget
  exact ⟨j, e, hj, he, by rw [hj]; exact hok.symm⟩

/-- The leader after a refusal. -/
def sentBack (rf : Raft n C D) (server : Fin n) (next : ℤ) : Raft n C D :=
  { rf with nextIndex := Function.update rf.nextIndex server next }

theorem sendAppendEntries_refused (hl : rf.status = .leader) {server : Fin n}
    {args : AppendEntriesArgs n C} {reply : AppendEntriesReply}
    (hnormal : reply.appstate = .appNormal) (hterm : reply.term = rf.currentTerm)
    (hno : reply.success = false) (hup : reply.updatenextindex ≠ -100) (num : ℕ) :
    rf.sendAppendEntries server args reply num =
      .ok (rf.sentBack server reply.updatenextindex, num) := by
  simp [sendAppendEntries, sentBack, hl, hnormal, hterm, hno, hup, myAssert, bind, Except.bind,
    pure, Except.pure]

/-- A success that goes to the end of the log. -/
theorem Within.sendAppendEntries_accepted (h : rf.Within) (hl : rf.status = .leader)
    {server : Fin n} {args : AppendEntriesArgs n C} {reply : AppendEntriesReply}
    (hnormal : reply.appstate = .appNormal) (hterm : reply.term = rf.currentTerm)
    (hok : reply.success = true) (hsent : args.lastIndex = rf.getLastLogIndex)
    (hmatch : rf.matchIndex server ≤ rf.getLastLogIndex) (num : ℕ) :
    ∃ rf' num', rf.sendAppendEntries server args reply num = .ok (rf', num') ∧
      rf'.nextIndex server = rf.getLastLogIndex + 1 := by
  have hcommit := h.commit_le
  have hmax : max (rf.matchIndex server) (args.prevlogindex + args.entries.length) =
      rf.getLastLogIndex := by
    unfold AppendEntriesArgs.lastIndex at hsent
    omega
  unfold Raft.sendAppendEntries
  rw [if_neg (by rw [hnormal]; exact nofun), if_neg hterm.le.not_gt, if_neg hterm.ge.not_gt,
    if_neg (not_not.2 hl)]
  simp only [bind_eq_ok, myAssert_eq_ok, hterm, hok, hmax, not_true_eq_false, if_false]
  have hnext : Function.update rf.nextIndex server (rf.getLastLogIndex + 1) server =
      rf.getLastLogIndex + 1 := Function.update_self ..
  by_cases hnum : num + 1 ≥ 1 + n / 2
  · -- the commit index does not go beyond the log either
    have hle : (if args.entries.getLast?.map (·.logterm) = some rf.currentTerm then
        max rf.commitIndex (args.prevlogindex + args.entries.length) else rf.commitIndex) ≤
          rf.getLastLogIndex := by
      split_ifs
      · exact max_le hcommit hsent.le
      · exact hcommit
    rw [if_pos hnum]
    exact ⟨_, 0, ⟨(), trivial, (), hnext.le, bind_eq_ok.2 ⟨(), myAssert_eq_ok.2 hle, rfl⟩⟩, hnext⟩
  · rw [if_neg hnum]
    exact ⟨_, num + 1, ⟨(), trivial, (), hnext.le, rfl⟩, hnext⟩

end Raft

/-! ### Exchanges -/

/-- A leader and one of its followers. -/
structure Link (n : ℕ) (C D : Type) where
  leader : Raft n C D
  follower : Raft n C D

/-- What one exchange comes to. -/
inductive Exchanged (n : ℕ) (C D : Type) where
  | leaderSendSnapShot
  | rejected (args : AppendEntriesArgs n C) (link : Link n C D)
  | accepted (args : AppendEntriesArgs n C) (reply : AppendEntriesReply) (follower : Raft n C D)

namespace Link

variable {n : ℕ} {C D : Type} [DecidableEq C]

/-- The heartbeat for `server`, its answer, and the processing of a refusal; the heartbeat has a
counter of its own. -/
def exchange (server : Fin n) (s : Link n C D) : Except Fault (Exchanged n C D) := do
  match ← s.leader.heartBeatTo server with
  | .leaderSendSnapShot _ => return .leaderSendSnapShot
  | .sendAppendEntries _ args =>
    let (follower, reply) ← s.follower.appendEntries1 args
    if reply.success then
      return .accepted args reply follower
    let (leader, _) ← s.leader.sendAppendEntries server args reply 1
    return .rejected args ⟨leader, follower⟩

/-- Exchanges one after the other, until one is not rejected. -/
def repairs (server : Fin n) : Machine (Link n C D) Unit where
  step s _ := match s.exchange server with
    | .ok (.rejected _ s') => some s'
    | _ => none

/-- **The invariant of the exchanges.** -/
structure Repairable (server : Fin n) (s : Link n C D) : Prop where
  leader : s.leader.Within
  follower : s.follower.Within
  role : s.leader.status = .leader
  term_le : s.follower.currentTerm ≤ s.leader.currentTerm
  /-- Equal index and term imply an equal command. -/
  agree : Agree s.follower.logs s.leader.logs
  next_le : s.leader.nextIndex server ≤ s.leader.getLastLogIndex + 1
  snapshot_nonneg : 0 ≤ s.follower.lastSnapshotIncludeIndex
  snapshot_lt : s.follower.lastSnapshotIncludeIndex < s.leader.nextIndex server
  point : s.leader.lastSnapshotIncludeIndex ≤ s.follower.lastSnapshotIncludeIndex →
    s.leader.getLogTermFromLogIndex s.follower.lastSnapshotIncludeIndex =
      .ok s.follower.lastSnapshotIncludeTerm

/-- The follower has the entries of the leader behind an index. -/
def CaughtUp (leader follower : Raft n C D) (prev : ℤ) : Prop :=
  ∀ k, prev < k → k ≤ leader.getLastLogIndex →
    ∃ e, leader.logOf k = .ok e ∧ follower.logOf k = .ok e

/-- **What the next exchange comes to.** -/
inductive Proceeds (server : Fin n) (s : Link n C D) : Prop
  | behind : s.exchange server = .ok .leaderSendSnapShot →
      s.leader.nextIndex server ≤ s.leader.lastSnapshotIncludeIndex → Proceeds server s
  | rejected (args : AppendEntriesArgs n C) (s' : Link n C D) :
      s.exchange server = .ok (.rejected args s') →
      s.follower.lastSnapshotIncludeIndex ≤ args.prevlogindex →
      s'.leader.nextIndex server < s.leader.nextIndex server → Proceeds server s
  /-- The leader takes note of the success, unless it knew of more than it has. -/
  | accepted (args : AppendEntriesArgs n C) (reply : AppendEntriesReply) (follower : Raft n C D) :
      s.exchange server = .ok (.accepted args reply follower) →
      s.follower.lastSnapshotIncludeIndex ≤ args.prevlogindex →
      CaughtUp s.leader follower args.prevlogindex →
      (s.leader.matchIndex server ≤ s.leader.getLastLogIndex →
        ∃ leader num, s.leader.sendAppendEntries server args reply 1 = .ok (leader, num) ∧
          leader.nextIndex server = s.leader.getLastLogIndex + 1) → Proceeds server s

variable {server : Fin n} {s s' : Link n C D}

omit [DecidableEq C] in
/-- A refusal goes back, but not to the snapshot of the follower. -/
theorem Repairable.lt_of_sendsBack (h : s.Repairable server) {args : AppendEntriesArgs n C}
    (hslice : s.leader.SliceOf args) (hahead : s.leader.lastSnapshotIncludeIndex ≤ args.prevlogindex)
    (hlo : s.follower.lastSnapshotIncludeIndex ≤ args.prevlogindex) {next : ℤ}
    (hback : s.follower.SendsBack args next) : s.follower.lastSnapshotIncludeIndex < next := by
  rcases hback with ⟨-, hnext⟩ | ⟨hmatch, -, hnext | hnext⟩
  · have := h.follower.getLastLogIndex
    omega
  · -- at its snapshot point the follower agrees with the leader
    refine hnext ▸ lt_of_le_of_ne hlo fun hpoint => ?_
    have hsame := h.point (by omega)
    rw [hpoint, hslice.prevTerm] at hsame
    obtain ⟨-, -, t, ht, hne⟩ := matchLog_eq_ok.1 hmatch
    refine of_decide_eq_false hne ?_
    obtain ⟨-, -, ⟨-, rfl⟩ | ⟨hother, -⟩⟩ := getLogTermFromLogIndex_eq_ok.1 ht
    · exact Except.ok.inj hsame
    · exact absurd hpoint.symm hother
  · exact hnext

omit [DecidableEq C] in
/-- The invariant is kept when the leader goes back, but not to the snapshot of the follower. -/
theorem Repairable.sentBack (h : s.Repairable server) {follower : Raft n C D}
    (hs : s.follower.SameLog follower) (hterm : follower.currentTerm ≤ s.leader.currentTerm)
    {next : ℤ} (hlo : s.follower.lastSnapshotIncludeIndex < next)
    (hle : next ≤ s.leader.getLastLogIndex + 1) :
    Repairable server ⟨s.leader.sentBack server next, follower⟩ := by
  have hleader : s.leader.SameEntries (s.leader.sentBack server next) := ⟨rfl, rfl, rfl⟩
  have hnext : (s.leader.sentBack server next).nextIndex server = next := Function.update_self ..
  refine ⟨⟨h.leader.contiguous, h.leader.commit_le⟩, (h.follower.of_sameLog hs).toWithin, h.role,
    hterm, ?_, ?_, ?_, ?_, ?_⟩ <;> dsimp only
  · rw [hs.logs]
    exact h.agree
  · rw [hnext, hleader.getLastLogIndex]
    exact hle
  · rw [hs.lastSnapshotIncludeIndex]
    exact h.snapshot_nonneg
  · rw [hnext, hs.lastSnapshotIncludeIndex]
    exact hlo
  · rw [hs.lastSnapshotIncludeIndex, hs.lastSnapshotIncludeTerm, hleader.getLogTermFromLogIndex]
    exact h.point

/-- **One exchange.** -/
theorem Repairable.exchange (h : s.Repairable server) : s.Proceeds server ∧
    ∀ args s', s.exchange server = .ok (.rejected args s') → s'.Repairable server ∧
      s'.leader.nextIndex server < s.leader.nextIndex server ∧
      s.leader.SameEntries s'.leader ∧ s.follower.SameEntries s'.follower := by
  have hpos : 1 ≤ s.leader.nextIndex server := by
    have := h.snapshot_nonneg
    have := h.snapshot_lt
    omega
  rcases h.leader.contiguous.heartBeatTo_total hpos h.next_le with
    ⟨hbehind, hb⟩ | ⟨hahead, args, hb⟩
  · have hex : s.exchange server = .ok .leaderSendSnapShot := by
      simp [Link.exchange, hb, bind, Except.bind, pure, Except.pure]
    refine ⟨.behind hex hbehind, fun args s' hrej => ?_⟩
    rw [hex] at hrej
    cases hrej
  obtain ⟨hterm, -, hentries⟩ := heartBeatTo_fields hb
  have hprev := heartBeatTo_prev hb
  have hslice := h.leader.contiguous.sliceOf hb
  have hlo : s.follower.lastSnapshotIncludeIndex ≤ args.prevlogindex := by
    have := h.snapshot_lt
    omega
  have hagree : Agree s.follower.logs args.entries := by
    intro e he e' he'
    rw [hentries] at he'
    exact h.agree e he e' (List.mem_of_mem_drop he')
  obtain ⟨follower, reply, heq, hnormal⟩ :=
    (h.follower.answers hslice.indices hagree).2 (Or.inr hlo)
  have hreplies := (appendEntries1_replies heq).2.resolve_left fun hold =>
    absurd (hterm ▸ hold.1) (not_lt.2 h.term_le)
  cases hok : reply.success with
  | true =>
    have hex : s.exchange server = .ok (.accepted args reply follower) := by
      simp [Link.exchange, hb, heq, hok, bind, Except.bind, pure, Except.pure]
    have hacc := h.follower.contiguous.accepted hslice.indices heq hok
    refine ⟨.accepted args reply follower hex hlo (fun k hlt hle => ?_) fun hmatch => ?_,
      fun args' s' hrej => ?_⟩
    · obtain ⟨j, e, rfl, he, hlog⟩ := hslice.exists_entry hlt hle
      exact ⟨e, hlog, hacc.entries j e he⟩
    · exact h.leader.sendAppendEntries_accepted h.role hnormal (hreplies.2.1.trans hterm) hok
        hslice.lastIndex hmatch 1
    · rw [hex] at hrej
      cases hrej
  | false =>
    have hback := hreplies.2.2 hok
    have hle := hback.le
    have hgt := h.lt_of_sendsBack hslice (by omega) hlo hback
    have hsend : s.leader.sendAppendEntries server args reply 1 =
        .ok (s.leader.sentBack server reply.updatenextindex, 1) :=
      sendAppendEntries_refused h.role hnormal (hreplies.2.1.trans hterm) hok
        (by have := h.snapshot_nonneg; omega) 1
    have hex : s.exchange server =
        .ok (.rejected args ⟨s.leader.sentBack server reply.updatenextindex, follower⟩) := by
      simp [Link.exchange, hb, heq, hok, hsend, bind, Except.bind, pure, Except.pure]
    have hnext : (s.leader.sentBack server reply.updatenextindex).nextIndex server =
        reply.updatenextindex := Function.update_self ..
    have hs : s.follower.SameLog follower := by
      rcases appendEntries1_cases heq with ⟨-, hs, -⟩ | ⟨hyes, -⟩
      · exact hs
      · rw [hok] at hyes
        cases hyes
    have hcurrent : follower.currentTerm = args.term := by
      rcases appendEntries1_role heq with ⟨hold, -⟩ | ⟨-, -, hcurrent⟩
      · exact absurd hreplies.1 (not_le.2 hold)
      · exact hcurrent
    have hlower : (s.leader.sentBack server reply.updatenextindex).nextIndex server <
        s.leader.nextIndex server := by omega
    refine ⟨.rejected args _ hex hlo hlower, fun args' s' hrej => ?_⟩
    rw [hex] at hrej
    obtain ⟨rfl, rfl⟩ := Exchanged.rejected.inj (Except.ok.inj hrej)
    have hend := h.next_le
    exact ⟨h.sentBack hs (hcurrent.trans hterm).le hgt (by omega), hlower, ⟨rfl, rfl, rfl⟩,
      hs.toSameEntries⟩

theorem repairs_step (hst : (repairs server).step s () = some s') :
    ∃ args, s.exchange server = .ok (.rejected args s') := by
  simp only [repairs] at hst
  split at hst
  · rename_i args s₁ hex
    exact ⟨args, Option.some.inj hst ▸ hex⟩
  · cases hst

/-- The last exchange: the follower needs a snapshot, or accepts. -/
def Settled (server : Fin n) (s : Link n C D) : Prop :=
  s.exchange server = .ok .leaderSendSnapShot ∨
    ∃ args reply follower, s.exchange server = .ok (.accepted args reply follower)

/-- **Log repair converges.**  Every exchange gets its answer; a refusal changes neither log and
lowers the next index, no request starts below the snapshot point of the follower, and after
finitely many exchanges the follower accepts, and has the entries of the leader from there on, or
needs a snapshot. -/
theorem log_repair (h : s.Repairable server) :
    (∀ s', (repairs server).Reachable s s' → s'.Proceeds server ∧
      s.leader.SameEntries s'.leader ∧ s.follower.SameEntries s'.follower) ∧
    ∃ s', (repairs server).Reachable s s' ∧ s'.Settled server := by
  have hkeep : ∀ s₁, (repairs server).Reachable s s₁ → s₁.Repairable server ∧
      s.leader.SameEntries s₁.leader ∧ s.follower.SameEntries s₁.follower := by
    intro s₁ hr
    induction hr with
    | refl => exact ⟨h, ⟨rfl, rfl, rfl⟩, ⟨rfl, rfl, rfl⟩⟩
    | tail _ _ hst ih =>
      obtain ⟨args, hex⟩ := repairs_step hst
      obtain ⟨hrep, -, hl, hf⟩ := ih.1.exchange.2 args _ hex
      exact ⟨hrep, ih.2.1.trans hl, ih.2.2.trans hf⟩
  refine ⟨fun s' hr => ⟨(hkeep s' hr).1.exchange.1, (hkeep s' hr).2⟩, ?_⟩
  -- the next index goes down and stays positive
  have hstep : ∀ s₁ s₂ : Link n C D, Repairable server s₁ → (repairs server).step s₁ () = some s₂ →
      Repairable server s₂ ∧
        (s₂.leader.nextIndex server).toNat < (s₁.leader.nextIndex server).toNat := by
    intro s₁ s₂ h₁ hst
    obtain ⟨args, hex⟩ := repairs_step hst
    obtain ⟨h₂, hlt, -⟩ := h₁.exchange.2 args s₂ hex
    have := h₁.snapshot_nonneg
    have := h₁.snapshot_lt
    exact ⟨h₂, by omega⟩
  obtain ⟨s', hr, hrep, hhalt⟩ := Machine.exists_halt (M := repairs server)
    (fun s : Link n C D => (s.leader.nextIndex server).toNat) hstep h
  refine ⟨s', hr, ?_⟩
  cases hrep.exchange.1 with
  | behind hex => exact Or.inl hex
  | accepted args reply follower hex => exact Or.inr ⟨args, reply, follower, hex⟩
  | rejected args s'' hex =>
    simp only [repairs, hex] at hhalt
    cases hhalt

/-- The leader of term `2` has replaced what the follower got in term `1` behind the first entry. -/
def diverged : Link 3 String Unit where
  leader := { Raft.init 0 {} with
    currentTerm := 2
    status := .leader
    logs := [⟨"x", 1, 1⟩, ⟨"z", 2, 2⟩]
    nextIndex := fun _ => 3 }
  follower := { Raft.init 1 {} with
    currentTerm := 1
    logs := [⟨"x", 1, 1⟩, ⟨"y", 1, 2⟩] }

theorem diverged_repairable : diverged.Repairable 1 where
  leader :=
    ⟨ContiguousFrom.append (l := [⟨"x", 1, 1⟩]) (.singleton rfl) (.singleton rfl), by decide⟩
  follower :=
    ⟨ContiguousFrom.append (l := [⟨"x", 1, 1⟩]) (.singleton rfl) (.singleton rfl), by decide⟩
  role := rfl
  term_le := by decide
  agree := by
    unfold Agree
    decide
  next_le := by decide
  snapshot_nonneg := by decide
  snapshot_lt := by decide
  point _ := rfl

theorem log_repair_diverged :
    (∀ s', (repairs 1).Reachable diverged s' → s'.Proceeds 1 ∧
      diverged.leader.SameEntries s'.leader ∧ diverged.follower.SameEntries s'.follower) ∧
    ∃ s', (repairs 1).Reachable diverged s' ∧ s'.Settled 1 :=
  log_repair diverged_repairable

/-- The run of equal terms goes back to the start of the log, and the second exchange succeeds. -/
example : ((repairs 1).run diverged [()]).map (·.leader.nextIndex 1) = some 1 := by decide

end Link

end KvRaft
