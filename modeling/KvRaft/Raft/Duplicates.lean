import KvRaft.Raft.Leading
import KvRaft.Raft.Repair

/-!
# Late and repeated requests

The sender threads of a leader overtake each other, so a follower may get an older request after
a newer one, or one request twice.

* `Raft.Ignores` : a request is answered with success and changes nothing that counts.
* `Raft.Continues` : the log of a leader has grown and was compacted further, and its commit index
  has grown.
* `Cluster.continues_of_leads` : so it does between any two states of a run in between which a node
  leads one term, which is where the hypothesis of `Raft.redelivered_ignored` comes from.
* `Raft.Accepted.logOf_eq` : a follower that has accepted a slice of the grown log agrees with the
  older one.
* `Raft.redelivered_ignored` : a follower that has accepted a request ignores it and the earlier
  ones of the same leader.
-/

namespace KvRaft

open Raft

namespace Raft

variable {n : ℕ} {C D : Type} {rf rf' : Raft n C D}

/-- The term at the index of an entry. -/
theorem getLogTermFromLogIndex_of_logOf {k : ℤ} {e : LogEntry C} (h : rf.logOf k = .ok e) :
    rf.getLogTermFromLogIndex k = .ok e.logterm := by
  obtain ⟨hlo, hhi, -⟩ := logOf_eq_ok.1 h
  exact getLogTermFromLogIndex_eq_ok.2 ⟨hlo.le, hhi, Or.inr ⟨hlo.ne', e, h, rfl⟩⟩

theorem SliceOf.logOf {args : AppendEntriesArgs n C} (h : rf.SliceOf args) {j : ℕ} {e : LogEntry C}
    (he : args.entries[j]? = some e) : rf.logOf (args.prevlogindex + 1 + j) = .ok e := by
  have hj := (List.getElem?_eq_some_iff.1 he).1
  have hend := h.lastIndex
  unfold AppendEntriesArgs.lastIndex at hend
  obtain ⟨j', e', hindex, he', hlog⟩ :=
    h.exists_entry (k := args.prevlogindex + 1 + j) (by omega) (by omega)
  obtain rfl : j = j' := by omega
  rw [he] at he'
  rw [hlog, Option.some.inj he']

section Ignore

variable [DecidableEq C]

/-- **The request is answered with success**, and log, snapshot point, indices, term and vote stay
as they are. -/
def Ignores (rf : Raft n C D) (args : AppendEntriesArgs n C) : Prop :=
  ∃ rf' reply, rf.appendEntries1 args = .ok (rf', reply) ∧ reply.success = true ∧
    rf.SameLog rf' ∧ rf'.currentTerm = rf.currentTerm ∧ rf'.votedFor = rf.votedFor

/-- An entry that the node has is not written again. -/
theorem mergeEntry_self {log : LogEntry C} (h : rf.logOf log.logindex = .ok log) :
    rf.mergeEntry log = .ok rf := by
  obtain ⟨hlo, hhi, hget⟩ := logOf_eq_ok.1 h
  unfold mergeEntry
  rw [if_neg (not_lt.2 hhi)]
  refine bind_eq_ok.2 ⟨_, getSlicesIndexFromLogIndex_eq_ok.2 ⟨hlo, hhi, rfl⟩,
    bind_eq_ok.2 ⟨log, logAt_eq_ok.2 hget, bind_eq_ok.2 ⟨(), myAssert_eq_ok.2 ?_, ?_⟩⟩⟩
  · exact fun hne => hne.2 rfl
  · rw [if_neg (not_not.2 rfl)]
    rfl

theorem foldlM_mergeEntry_self {entries : List (LogEntry C)}
    (h : ∀ e ∈ entries, rf.logOf e.logindex = .ok e) :
    entries.foldlM mergeEntry rf = .ok rf := by
  induction entries with
  | nil => rfl
  | cons e entries ih =>
    rw [List.foldlM_cons]
    exact bind_eq_ok.2 ⟨rf, mergeEntry_self (h e List.mem_cons_self),
      ih fun e he => h e (List.mem_cons_of_mem _ he)⟩

/-- **When a request changes nothing**: the node has its entries, and has committed either all that
the request says or all that it has. -/
theorem Within.ignores (h : rf.Within) {args : AppendEntriesArgs n C}
    (hterm : args.term = rf.currentTerm) (hprev : rf.lastSnapshotIncludeIndex ≤ args.prevlogindex)
    (hend : args.lastIndex ≤ rf.getLastLogIndex)
    (hmatch : rf.getLogTermFromLogIndex args.prevlogindex = .ok args.prevlogterm)
    (hcont : ContiguousFrom args.prevlogindex args.entries)
    (hentries : ∀ (k : ℕ) (e : LogEntry C), args.entries[k]? = some e →
      rf.logOf (args.prevlogindex + 1 + k) = .ok e)
    (hcommit : rf.commitIndex < args.leadercommit → rf.commitIndex = rf.getLastLogIndex) :
    rf.Ignores args := by
  -- the node as a follower; it is in the term of the request
  obtain ⟨rf₁, hrf₁⟩ : ∃ rf₁, { rf with status := .follower } = rf₁ := ⟨_, rfl⟩
  have hmeet : rf.meetTerm args.term = rf := by rw [meetTerm, if_neg (by omega)]
  have hs : rf.SameLog rf₁ := hrf₁ ▸ ⟨⟨rfl, rfl, rfl⟩, rfl, rfl, rfl⟩
  have hlast := hs.getLastLogIndex
  have hend₁ : args.prevlogindex + args.entries.length ≤ rf₁.getLastLogIndex := hlast ▸ hend
  have hprev₁ : ¬ args.prevlogindex > rf₁.getLastLogIndex := by omega
  have hok : rf₁.matchLog args.prevlogindex args.prevlogterm = .ok true :=
    matchLog_eq_ok.2 ⟨hs.lastSnapshotIncludeIndex ▸ hprev, not_lt.1 hprev₁, args.prevlogterm,
      hs.getLogTermFromLogIndex _ ▸ hmatch, decide_eq_true rfl⟩
  have hmerge : args.entries.foldlM mergeEntry rf₁ = .ok rf₁ := by
    refine foldlM_mergeEntry_self fun e he => ?_
    obtain ⟨k, hk⟩ := List.mem_iff_getElem?.1 he
    rw [hs.logOf, hcont k e hk]
    exact hentries k e hk
  -- the commit index is where the request would put it
  have hsame : (if args.leadercommit > rf₁.commitIndex then
      min args.leadercommit rf₁.getLastLogIndex else rf₁.commitIndex) = rf₁.commitIndex := by
    rw [hs.commitIndex, hlast]
    split_ifs with hlt
    · rw [min_eq_right ((hcommit hlt).symm.trans_lt hlt).le]
      exact (hcommit hlt).symm
    · rfl
  have hwithin : rf₁.commitIndex ≤ rf₁.getLastLogIndex := by
    rw [hs.commitIndex, hlast]
    exact h.commit_le
  have hnew : ¬ args.term < rf.currentTerm := by omega
  refine ⟨rf₁.persist, { appstate := .appNormal, success := true, term := rf.currentTerm }, ?_,
    rfl, hs.trans (sameLog_persist rf₁), by rw [← hrf₁]; rfl, by rw [← hrf₁]; rfl⟩
  simp only [Raft.appendEntries1, if_neg hnew, hmeet, hrf₁, bind_eq_ok]
  refine ⟨(), myAssert_eq_ok.2 hterm, ?_⟩
  rw [if_neg hprev₁, bind_eq_ok]
  refine ⟨true, hok, bind_eq_ok.2 ⟨rf₁, hmerge, bind_eq_ok.2 ⟨(), myAssert_eq_ok.2 hend₁, ?_⟩⟩⟩
  simp only [hsame]
  refine bind_eq_ok.2 ⟨(), myAssert_eq_ok.2 hwithin, ?_⟩
  rw [if_neg (not_lt.2 hprev), ← hrf₁]
  rfl

end Ignore

/-! ### The leader that sends them -/

/-- **The log and the commit index have only grown**, and the log may have been compacted. -/
structure Continues (rf rf' : Raft n C D) : Prop where
  snapshot_le : rf.lastSnapshotIncludeIndex ≤ rf'.lastSnapshotIncludeIndex
  last_le : rf.getLastLogIndex ≤ rf'.getLastLogIndex
  commitIndex_le : rf.commitIndex ≤ rf'.commitIndex
  entries : ∀ k, rf'.lastSnapshotIncludeIndex < k → k ≤ rf.getLastLogIndex →
    rf'.logOf k = rf.logOf k

theorem Continues.refl (rf : Raft n C D) : rf.Continues rf :=
  ⟨le_rfl, le_rfl, le_rfl, fun _ _ _ => rfl⟩

theorem Continues.trans {rf₁ : Raft n C D} (h : rf.Continues rf₁) (h' : rf₁.Continues rf') :
    rf.Continues rf' where
  snapshot_le := h.snapshot_le.trans h'.snapshot_le
  last_le := h.last_le.trans h'.last_le
  commitIndex_le := h.commitIndex_le.trans h'.commitIndex_le
  entries k hlo hhi := by
    rw [h'.entries k hlo (hhi.trans h.last_le), h.entries k (h'.snapshot_le.trans_lt hlo) hhi]

/-- A log of which the first `m` entries were dropped, and that goes on behind its old end. -/
theorem Contiguous.continues (h : rf.Contiguous) {m : ℕ}
    (hsnap : rf'.lastSnapshotIncludeIndex = rf.lastSnapshotIncludeIndex + m)
    (hlast : rf.getLastLogIndex ≤ rf'.getLastLogIndex) (hcommit : rf.commitIndex ≤ rf'.commitIndex)
    (hlogs : ∀ j, m + j < rf.logs.length → rf'.logs[j]? = rf.logs[m + j]?) : rf.Continues rf' where
  snapshot_le := by omega
  last_le := hlast
  commitIndex_le := hcommit
  entries k hlo hhi := by
    have hend := h.getLastLogIndex
    obtain ⟨e, he⟩ := h.exists_logOf (show rf.lastSnapshotIncludeIndex < k by omega) hhi
    have hget := (logOf_eq_ok.1 he).2.2
    rw [he]
    refine logOf_eq_ok.2 ⟨hlo, hhi.trans hlast, ?_⟩
    rw [hlogs _ (by omega), ← hget]
    congr 1
    omega

/-- **The follower agrees with the log of the leader** up to an index, as far as both go back:
in the terms and, behind the snapshot points, in the commands. -/
def AgreesUpTo (rf leader : Raft n C D) (index : ℤ) : Prop :=
  ∀ k, rf.lastSnapshotIncludeIndex ≤ k → leader.lastSnapshotIncludeIndex ≤ k → k ≤ index →
    k ≤ leader.getLastLogIndex →
      rf.getLogTermFromLogIndex k = leader.getLogTermFromLogIndex k ∧
      (rf.lastSnapshotIncludeIndex < k → leader.lastSnapshotIncludeIndex < k →
        rf.logOf k = leader.logOf k)

end Raft

namespace Cluster

variable {n : ℕ} {C D : Type} [DecidableEq C] {c c' : Cluster n C D} {i : Fin n} {T : ℤ}

/-- **The log of a leader only grows**: in every run in which node `i` leads term `T` before
every step, and afterwards. -/
theorem continues_of_leads (h : (machine n C D).Reachable init c)
    (hr : (machine n C D).Reaches
      (fun c _ => (c.raft i).status = .leader ∧ (c.raft i).currentTerm = T) c c')
    (hl : (c'.raft i).status = .leader) : (c.raft i).Continues (c'.raft i) := by
  induction hr with
  | refl => exact .refl _
  | @tail c₁ c₂ a hr hlead hst ih =>
    have hi := indexed_of_reachable (h.trans hr.reachable)
    have hc := (hi.node i).contiguous
    have hlast := getLastLogIndex_le_step hi hst i
    have hcommit := commitIndex_le_step hi hst i
    refine (ih hlead.1).trans ?_
    cases hi.logMoves (moves_of_step hst) i with
    | same hs =>
      refine hc.continues (m := 0) (by simp [hs.lastSnapshotIncludeIndex]) hlast hcommit ?_
      intro j _
      rw [hs.logs, Nat.zero_add]
    | start command _ hlogs hsnap =>
      refine hc.continues (m := 0) (by simp [hsnap]) hlast hcommit fun j hj => ?_
      rw [Nat.zero_add] at hj ⊢
      rw [hlogs, List.getElem?_append_left hj]
    | compact m _ hlogs hsnap =>
      refine hc.continues hsnap hlast hcommit fun j _ => ?_
      rw [hlogs, List.getElem?_drop]
    | merge _ _ _ _ _ _ _ _ _ _ hf | install _ _ hf =>
      rw [hl] at hf
      cases hf

end Cluster

namespace Raft

variable {n : ℕ} {C D : Type} [DecidableEq C] {f f' l₁ l₂ : Raft n C D}

omit [DecidableEq C] in
/-- After an accepted request all is committed that the request says, or all that is there. -/
theorem Accepted.committed {args : AppendEntriesArgs n C} (h : f.Accepted args f') :
    args.leadercommit ≤ f'.commitIndex ∨ f'.commitIndex = f'.getLastLogIndex := by
  rw [h.commitIndex]
  split_ifs with hlt
  · rcases le_total args.leadercommit f'.getLastLogIndex with hle | hle
    · exact Or.inl (min_eq_left hle).ge
    · exact Or.inr (min_eq_right hle)
  · exact Or.inl (not_lt.1 hlt)

omit [DecidableEq C] in
/-- **The log of a follower that has accepted a slice** of a log that continues one with which it
agrees up to the start of the slice: it agrees with that one everywhere. -/
theorem Accepted.logOf_eq {args : AppendEntriesArgs n C} (h : f.Accepted args f')
    (hslice : l₂.SliceOf args) (hgrow : l₁.Continues l₂)
    (hagree : f.AgreesUpTo l₁ args.prevlogindex) {k : ℤ} (hf : f.lastSnapshotIncludeIndex < k)
    (hl : l₁.lastSnapshotIncludeIndex < k) (hle : k ≤ l₁.getLastLogIndex) :
    f'.logOf k = l₁.logOf k := by
  rcases le_or_gt k args.prevlogindex with hold | hlt
  · rw [(h.old k hold).2, (hagree k hf.le hl.le hold hle).2 hf hl]
  · -- the entries of the request
    obtain ⟨j, e, rfl, he, hlog⟩ := hslice.exists_entry hlt (hle.trans hgrow.last_le)
    have hprev : l₂.lastSnapshotIncludeIndex ≤ args.prevlogindex :=
      (getLogTermFromLogIndex_eq_ok.1 hslice.prevTerm).1
    rw [h.entries j e he, ← hlog, hgrow.entries _ (hprev.trans_lt hlt) hle]

omit [DecidableEq C] in
/-- The same for the term at an index that both logs cover. -/
theorem Accepted.getLogTerm_eq {args : AppendEntriesArgs n C} (h : f.Accepted args f')
    (hc : l₁.Contiguous) (hslice : l₂.SliceOf args) (hgrow : l₁.Continues l₂)
    (hagree : f.AgreesUpTo l₁ args.prevlogindex) {k : ℤ} (hf : f.lastSnapshotIncludeIndex ≤ k)
    (hl : l₁.lastSnapshotIncludeIndex ≤ k) (hle : k ≤ l₁.getLastLogIndex) :
    f'.getLogTermFromLogIndex k = l₁.getLogTermFromLogIndex k := by
  rcases le_or_gt k args.prevlogindex with hold | hlt
  · rw [(h.old k hold).1, (hagree k hf hl hold hle).1]
  · -- neither log has its snapshot point there
    have hprev : l₂.lastSnapshotIncludeIndex ≤ args.prevlogindex :=
      (getLogTermFromLogIndex_eq_ok.1 hslice.prevTerm).1
    have hfk := h.snapshot_le.trans_lt hlt
    have hlk := (hgrow.snapshot_le.trans hprev).trans_lt hlt
    obtain ⟨e, he⟩ := hc.exists_logOf hlk hle
    have he' := (h.logOf_eq hslice hgrow hagree hfk hlk hle).trans he
    rw [getLogTermFromLogIndex_of_logOf he, getLogTermFromLogIndex_of_logOf he']

/-- **Late and repeated requests are harmless.**  A leader has built `m₁` and later, in the same
term, `m₂`; a follower that agrees with its log up to the start of `m₂` has accepted `m₂`.  Then
the follower ignores both, also when `m₁` starts behind `m₂` or is longer than what was left of
the log. -/
theorem redelivered_ignored (hf : f.Contiguous) (hl₁ : l₁.Contiguous) (hl₂ : l₂.Contiguous)
    (hgrow : l₁.Continues l₂) {T : ℤ} (ht₁ : l₁.currentTerm = T) (ht₂ : l₂.currentTerm = T)
    {i : Fin n} {m₁ m₂ : AppendEntriesArgs n C}
    (hm₁ : l₁.heartBeatTo i = .ok (.sendAppendEntries i m₁))
    (hm₂ : l₂.heartBeatTo i = .ok (.sendAppendEntries i m₂))
    (hagree : f.AgreesUpTo l₁ m₂.prevlogindex)
    (hsnap : f.lastSnapshotIncludeIndex ≤ m₁.prevlogindex) {reply : AppendEntriesReply}
    (heq : f.appendEntries1 m₂ = .ok (f', reply)) (hok : reply.success = true) :
    f'.Ignores m₁ ∧ f'.Ignores m₂ := by
  have hs₁ := hl₁.sliceOf hm₁
  have hs₂ := hl₂.sliceOf hm₂
  obtain ⟨hterm₁, hlc₁, -⟩ := heartBeatTo_fields hm₁
  obtain ⟨hterm₂, hlc₂, -⟩ := heartBeatTo_fields hm₂
  have hacc := hf.accepted hs₂.indices heq hok
  have hprev₁ : l₁.lastSnapshotIncludeIndex ≤ m₁.prevlogindex :=
    (getLogTermFromLogIndex_eq_ok.1 hs₁.prevTerm).1
  have hcommit : ∀ lc ≤ m₂.leadercommit, f'.commitIndex < lc →
      f'.commitIndex = f'.getLastLogIndex := fun lc hle hlt =>
    hacc.committed.resolve_left fun hall => absurd (hle.trans hall) (not_le.2 hlt)
  have hend₁ := hs₁.lastIndex
  have hcover : l₂.getLastLogIndex ≤ f'.getLastLogIndex := hs₂.lastIndex ▸ hacc.covers
  constructor
  · refine hacc.within.ignores ?_ ?_ ?_ ?_ hs₁.indices (fun k e hk => ?_)
      (hcommit _ (by rw [hlc₁, hlc₂]; exact hgrow.commitIndex_le))
    · rw [hacc.currentTerm, hterm₁, hterm₂, ht₁, ht₂]
    · rwa [hacc.pointIndex]
    · rw [hend₁]
      exact hgrow.last_le.trans hcover
    · rw [hacc.getLogTerm_eq hl₁ hs₂ hgrow hagree hsnap hprev₁ hs₁.prev_le, hs₁.prevTerm]
    · have hk' := (List.getElem?_eq_some_iff.1 hk).1
      have hlog := hs₁.logOf hk
      unfold AppendEntriesArgs.lastIndex at hend₁
      rw [hacc.logOf_eq hs₂ hgrow hagree (by omega) (by omega) (by omega), hlog]
  · refine hacc.within.ignores hacc.currentTerm.symm ?_ hacc.covers ?_ hs₂.indices hacc.entries
      (hcommit _ le_rfl)
    · rw [hacc.pointIndex]
      exact hacc.snapshot_le
    · rw [(hacc.old _ le_rfl).1]
      exact hacc.prevTerm

/-- A leader of term `1` with one entry. -/
def sender : Raft 3 String Unit :=
  { Raft.init 0 {} with
    currentTerm := 1
    status := .leader
    logs := [⟨"x", 1, 1⟩]
    nextIndex := fun _ => 1 }

/-- It has made another one, and counts on node `1` to have the first, which is committed. -/
def grown : Raft 3 String Unit :=
  { sender with
    logs := [⟨"x", 1, 1⟩, ⟨"y", 1, 2⟩]
    commitIndex := 1
    nextIndex := fun _ => 2 }

def receiver : Raft 3 String Unit :=
  { Raft.init 1 {} with
    currentTerm := 1
    logs := [⟨"x", 1, 1⟩] }

/-- The second request, of one entry, overtakes the first one. -/
theorem redelivered_ignored_grown : ∃ m₁ m₂ f' reply,
    sender.heartBeatTo 1 = .ok (.sendAppendEntries 1 m₁) ∧
      grown.heartBeatTo 1 = .ok (.sendAppendEntries 1 m₂) ∧
      receiver.appendEntries1 m₂ = .ok (f', reply) ∧ f'.logs = grown.logs ∧
      f'.Ignores m₁ ∧ f'.Ignores m₂ := by
  have hl₁ : sender.Contiguous := .singleton rfl
  have hl₂ : grown.Contiguous :=
    ContiguousFrom.append (l := [⟨"x", 1, 1⟩]) (.singleton rfl) (.singleton rfl)
  have hgrow : sender.Continues grown := by
    refine hl₁.continues (m := 0) rfl (by decide) (by decide) fun j hj => ?_
    obtain rfl : j = 0 := by simpa [sender] using hj
    rfl
  have hs : sender.SameEntries receiver := ⟨rfl, rfl, rfl⟩
  have hm₁ : sender.heartBeatTo 1 =
      .ok (.sendAppendEntries 1 ⟨1, 0, 0, 0, [⟨"x", 1, 1⟩], 0⟩) := rfl
  have hm₂ : grown.heartBeatTo 1 =
      .ok (.sendAppendEntries 1 ⟨1, 0, 1, 1, [⟨"y", 1, 2⟩], 1⟩) := rfl
  obtain ⟨f', reply, heq, hok, hlogs⟩ : ∃ f' reply,
      receiver.appendEntries1 ⟨1, 0, 1, 1, [⟨"y", 1, 2⟩], 1⟩ = .ok (f', reply) ∧
        reply.success = true ∧ f'.logs = grown.logs := ⟨_, _, rfl, rfl, rfl⟩
  exact ⟨_, _, f', reply, hm₁, hm₂, heq, hlogs,
    redelivered_ignored (f := receiver) (.singleton rfl) hl₁ hl₂ hgrow rfl rfl hm₁ hm₂
      (fun k _ _ _ _ => ⟨hs.getLogTermFromLogIndex k, fun _ _ => hs.logOf k⟩) (by decide) heq hok⟩

end Raft

end KvRaft
