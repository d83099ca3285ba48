import KvRaft.Kv.Once

/-!
# What the commands mean

* `KvServer.getCommandFromRaft` : the source function, which the server runs on every command
  message.
* `Op.effect`, `reference` : what the store should be.  A Put replaces the value of its key when
  it comes for the first time, an Append concatenates, and nothing else changes anything.
* `KvServer.store_eq_reference_iff` : when the store is that.

An Append is executed by the function that a Put is executed by, so the value it is appended to
is lost.
-/

namespace KvRaft

open Session

/-! ### The reference -/

/-- What a command does to a store when it comes for the first time. -/
def Op.effect (op : Op) (store : String → Option String) : String → Option String :=
  match op.operation with
  | .put => Function.update store op.key (some op.value)
  | .append => Function.update store op.key (some ((store op.key).getD "" ++ op.value))
  | .get => store

/-- What the server does to its store then. -/
def Op.overwrite (op : Op) (store : String → Option String) : String → Option String :=
  if op.isWrite then Function.update store op.key (some op.value) else store

variable {op : Op} {store : String → Option String} {key : String}

theorem Op.effect_of_not_isWrite (h : op.isWrite = false) : op.effect store = store := by
  obtain ⟨operation, key, value, clientId, requestId⟩ := op
  cases operation with
  | get => rfl
  | put => cases h
  | append => cases h

theorem Op.effect_of_ne (h : op.key ≠ key) : op.effect store key = store key := by
  obtain ⟨operation, key', value, clientId, requestId⟩ := op
  cases operation <;> simp [Op.effect, Ne.symm h]

theorem Op.effect_put (h : op.operation = .put) : op.effect store op.key = some op.value := by
  simp [Op.effect, h]

theorem Op.effect_append (h : op.operation = .append) :
    op.effect store op.key = some ((store op.key).getD "" ++ op.value) := by
  simp [Op.effect, h]

theorem Op.overwrite_of_ne (h : op.key ≠ key) : op.overwrite store key = store key := by
  unfold Op.overwrite
  split_ifs <;> simp [Ne.symm h]

theorem Op.overwrite_self (h : op.isWrite = true) :
    op.overwrite store op.key = some op.value := by
  simp [Op.overwrite, h]

theorem Op.put_or_append (h : op.isWrite = true) :
    op.operation = .put ∨ op.operation = .append := by
  obtain ⟨operation, key, value, clientId, requestId⟩ := op
  cases operation with
  | get => cases h
  | put => exact Or.inl rfl
  | append => exact Or.inr rfl

/-- The store after the writes. -/
def effects (ws : List Op) : String → Option String :=
  ws.foldl (fun store op => op.effect store) fun _ => none

/-- The store after the writes, each of which overwrites its key. -/
def overwrites (ws : List Op) : String → Option String :=
  ws.foldl (fun store op => op.overwrite store) fun _ => none

theorem effects_snoc (ws : List Op) (op : Op) : effects (ws ++ [op]) = op.effect (effects ws) := by
  simp [effects]

theorem overwrites_snoc (ws : List Op) (op : Op) :
    overwrites (ws ++ [op]) = op.overwrite (overwrites ws) := by
  simp [overwrites]

/-- The commands `cmds` on a store, behind the commands `seen`. -/
def referenceFrom (seen : List Op) (store : String → Option String) :
    List Op → String → Option String
  | [] => store
  | op :: cmds =>
    referenceFrom (seen ++ [op])
      (if ∃ x ∈ seen, x.tag = op.tag then store else op.effect store) cmds

/-- **The store that a sequence of commands stands for.** -/
def reference (cmds : List Op) : String → Option String := referenceFrom [] (fun _ => none) cmds

/-- The writes among `cmds` that come for the first time, behind the commands `seen`. -/
def firstWritesFrom (seen : List Op) : List Op → List Op
  | [] => []
  | op :: cmds =>
    if op.isWrite ∧ ∀ x ∈ seen, x.tag ≠ op.tag then op :: firstWritesFrom (seen ++ [op]) cmds
    else firstWritesFrom (seen ++ [op]) cmds

def firstWrites (cmds : List Op) : List Op := firstWritesFrom [] cmds

theorem isWrite_of_mem_firstWritesFrom {seen cmds : List Op} {op : Op}
    (h : op ∈ firstWritesFrom seen cmds) : op.isWrite = true := by
  induction cmds generalizing seen with
  | nil => cases h
  | cons x cmds ih =>
    rw [firstWritesFrom] at h
    split_ifs at h with hx
    · rcases List.mem_cons.1 h with rfl | h
      · exact hx.1
      · exact ih h
    · exact ih h

/-- The reference is made by the first writes. -/
theorem referenceFrom_eq (seen : List Op) (store : String → Option String) (cmds : List Op) :
    referenceFrom seen store cmds =
      (firstWritesFrom seen cmds).foldl (fun store op => op.effect store) store := by
  induction cmds generalizing seen store with
  | nil => rfl
  | cons op cmds ih =>
    rw [referenceFrom, firstWritesFrom, ih]
    by_cases hseen : ∃ x ∈ seen, x.tag = op.tag
    · rw [if_pos hseen, if_neg fun h => ?_]
      obtain ⟨x, hx, htag⟩ := hseen
      exact h.2 x hx htag
    · have hnew : ∀ x ∈ seen, x.tag ≠ op.tag := fun x hx htag => hseen ⟨x, hx, htag⟩
      rw [if_neg hseen]
      cases hw : op.isWrite with
      | false =>
        rw [if_neg (by simp), Op.effect_of_not_isWrite hw]
      | true =>
        rw [if_pos ⟨rfl, hnew⟩, List.foldl_cons]

/-! ### The condition -/

/-- The writes leave the key absent or empty: those of the key, back to its last Put, are of the
empty string. -/
def Blank (key : String) (ws : List Op) : Prop :=
  ∀ before w behind, ws = before ++ w :: behind → w.key = key →
    (∀ x ∈ behind, x.key = key → x.operation = .append) → w.value = ""

/-- **An Append that decides about its key finds it blank**: whenever the last write of a key is
an Append, the writes before it leave the key blank. -/
def AppendsToBlank (ws : List Op) : Prop :=
  ∀ before op behind, ws = before ++ op :: behind → op.operation = .append →
    (∀ x ∈ behind, x.key ≠ op.key) → Blank op.key before

/-- Where an element can stand in a list with a new last one. -/
theorem snoc_eq_append_cons {α : Type} {l pre post : List α} {x y : α}
    (h : l ++ [x] = pre ++ y :: post) :
    pre = l ∧ y = x ∧ post = [] ∨ ∃ post', post = post' ++ [x] ∧ l = pre ++ y :: post' := by
  rcases List.eq_nil_or_concat post with rfl | ⟨post', z, rfl⟩
  · obtain ⟨rfl, hx⟩ := List.append_inj' h rfl
    exact Or.inl ⟨rfl, (List.singleton_inj.1 hx).symm, rfl⟩
  · rw [List.concat_eq_append, ← List.cons_append, ← List.append_assoc] at h
    obtain ⟨rfl, hx⟩ := List.append_inj' h rfl
    exact Or.inr ⟨post', by rw [List.concat_eq_append, hx], rfl⟩

section Writes

variable {ws : List Op} {w : Op} {key : String}

theorem Blank.of_snoc (h : Blank key (ws ++ [w])) (hw : w.key = key → w.operation = .append) :
    Blank key ws := by
  intro before x behind heq hx hbehind
  refine h before x (behind ++ [w]) (by rw [heq]; simp) hx fun y hy hkey => ?_
  rcases List.mem_append.1 hy with hy | hy
  · exact hbehind y hy hkey
  · obtain rfl := List.mem_singleton.1 hy
    exact hw hkey

theorem Blank.snoc (h : Blank key ws) (hw : w.key = key → w.value = "") :
    Blank key (ws ++ [w]) := by
  intro before x behind heq hx hbehind
  rcases snoc_eq_append_cons heq with ⟨-, rfl, -⟩ | ⟨behind', rfl, rfl⟩
  · exact hw hx
  · exact h before x behind' rfl hx fun y hy => hbehind y (List.mem_append_left _ hy)

/-- A Put decides alone. -/
theorem blank_snoc_put (hkey : w.key = key) (hput : w.operation = .put) :
    Blank key (ws ++ [w]) ↔ w.value = "" := by
  refine ⟨fun h => h ws w [] rfl hkey (by simp), fun hv before x behind heq _ hbehind => ?_⟩
  rcases snoc_eq_append_cons heq with ⟨-, rfl, -⟩ | ⟨behind', rfl, -⟩
  · exact hv
  · have := hbehind w (by simp) hkey
    rw [hput] at this
    cases this

theorem blank_snoc_append (hkey : w.key = key) (happend : w.operation = .append) :
    Blank key (ws ++ [w]) ↔ Blank key ws ∧ w.value = "" :=
  ⟨fun h => ⟨h.of_snoc fun _ => happend, h ws w [] rfl hkey (by simp)⟩,
    fun h => h.1.snoc fun _ => h.2⟩

/-- **A key is blank when it has no value or the empty one.** -/
theorem blank_iff (h : ∀ w ∈ ws, w.isWrite = true) :
    Blank key ws ↔ (effects ws key).getD "" = "" := by
  induction ws using List.reverseRecOn with
  | nil => exact iff_of_true (fun before w behind heq => by simp at heq) rfl
  | append_singleton ws w ih =>
    have ih := ih fun x hx => h x (List.mem_append_left _ hx)
    rw [effects_snoc]
    by_cases hkey : w.key = key
    · subst hkey
      rcases Op.put_or_append (h w (by simp)) with hput | happend
      · rw [blank_snoc_put rfl hput, Op.effect_put hput, Option.getD_some]
      · rw [blank_snoc_append rfl happend, Op.effect_append happend, Option.getD_some, ih,
          String.append_eq_empty_iff]
    · rw [Op.effect_of_ne hkey, ← ih]
      exact ⟨fun hb => hb.of_snoc fun hk => absurd hk hkey,
        fun hb => hb.snoc fun hk => absurd hk hkey⟩

theorem append_eq_right_iff {a b : String} : a ++ b = b ↔ a = "" := by
  refine ⟨fun h => ?_, fun h => by simp [h]⟩
  simpa using congrArg String.toList h

/-- The condition for one key. -/
theorem overwrites_eq_iff (h : ∀ w ∈ ws, w.isWrite = true) :
    overwrites ws key = effects ws key ↔
      ∀ before op behind, ws = before ++ op :: behind → op.operation = .append → op.key = key →
        (∀ x ∈ behind, x.key ≠ key) → Blank key before := by
  induction ws using List.reverseRecOn with
  | nil => exact iff_of_true rfl fun before op behind heq => by simp at heq
  | append_singleton ws w ih =>
    have hws := fun x hx => h x (List.mem_append_left _ hx)
    have hw := h w (by simp)
    rw [effects_snoc, overwrites_snoc]
    by_cases hkey : w.key = key
    · subst hkey
      -- the last write decides
      have hlast : ∀ {before behind : List Op} {op : Op}, ws ++ [w] = before ++ op :: behind →
          (∀ x ∈ behind, x.key ≠ w.key) → before = ws ∧ op = w := by
        intro before behind op heq hbehind
        rcases snoc_eq_append_cons heq with ⟨hb, hop, -⟩ | ⟨behind', rfl, -⟩
        · exact ⟨hb, hop⟩
        · exact absurd rfl (hbehind w (by simp))
      rw [Op.overwrite_self hw]
      rcases Op.put_or_append hw with hput | happend
      · refine iff_of_true (Op.effect_put hput).symm fun before op behind heq happ _ hbehind => ?_
        obtain ⟨-, rfl⟩ := hlast heq hbehind
        rw [hput] at happ
        cases happ
      · rw [Op.effect_append happend, Option.some.injEq, eq_comm, append_eq_right_iff,
          ← blank_iff hws]
        refine ⟨fun hb before op behind heq _ _ hbehind => ?_,
          fun hall => hall ws w [] rfl happend rfl (by simp)⟩
        obtain ⟨rfl, -⟩ := hlast heq hbehind
        exact hb
    · rw [Op.effect_of_ne hkey, Op.overwrite_of_ne hkey, ih hws]
      refine ⟨fun hall before op behind heq happ hop hbehind => ?_,
        fun hall before op behind heq happ hop hbehind => ?_⟩
      · rcases snoc_eq_append_cons heq with ⟨-, rfl, -⟩ | ⟨behind', rfl, rfl⟩
        · exact absurd hop hkey
        · exact hall before op behind' rfl happ hop fun x hx =>
            hbehind x (List.mem_append_left _ hx)
      · refine hall before op (behind ++ [w]) (by simp [heq]) happ hop fun x hx => ?_
        rcases List.mem_append.1 hx with hx | hx
        · exact hbehind x hx
        · rwa [List.mem_singleton.1 hx]

/-- Overwriting does what the writes stand for exactly if no Append that decides about its key
finds a value there. -/
theorem overwrites_eq_effects_iff (h : ∀ w ∈ ws, w.isWrite = true) :
    overwrites ws = effects ws ↔ AppendsToBlank ws := by
  refine ⟨fun heq before op behind hws happ hbehind => ?_, fun hall => funext fun key => ?_⟩
  · exact (overwrites_eq_iff h).1 (congrFun heq op.key) before op behind hws happ rfl hbehind
  · refine (overwrites_eq_iff h).2 fun before op behind hws happ hkey hbehind => ?_
    subst hkey
    exact hall before op behind hws happ hbehind

end Writes

namespace KvServer

/-! ### The server -/

/-- The handling of a command message.  Taking a snapshot leaves the server as it is. -/
def getCommandFromRaft (kv : KvServer) (op : Op) (commandIndex : ℤ) : KvServer :=
  if commandIndex ≤ kv.lastSnapShotRaftLogIndex then kv
  else
    let kv := if kv.ifRequestDuplicate op.clientId op.requestId then kv else kv.execute op
    kv.sendMessageToWaitChan op commandIndex

/-- A sequence of command messages, each with its index. -/
def getCommandsFromRaft (kv : KvServer) (msgs : List (Op × ℤ)) : KvServer :=
  msgs.foldl (fun kv msg => kv.getCommandFromRaft msg.1 msg.2) kv

/-- The commands of the messages that are not behind the snapshot, which is at `0` on a new
server. -/
def processed (msgs : List (Op × ℤ)) : List Op := (msgs.filter fun msg => 0 < msg.2).map Prod.fst

variable {kv : KvServer} {seen : List Op}

theorem applyCommand_lastSnapShotRaftLogIndex {op : Op} :
    (kv.applyCommand op).lastSnapShotRaftLogIndex = kv.lastSnapShotRaftLogIndex := by
  unfold KvServer.applyCommand
  split_ifs
  · rfl
  · cases hw : op.isWrite with
    | true => rw [execute_of_isWrite hw]; rfl
    | false => rw [execute_of_not_isWrite hw]

theorem Records.congr {kv' : KvServer} (h : kv.Records seen)
    (ht : kv'.lastRequestId = kv.lastRequestId) : kv'.Records seen :=
  ⟨fun c t hc => h.reached c t (by rwa [← ht]), fun op hop hw => by
    rw [ht]
    exact h.recorded op hop hw⟩

/-- What a command does to table and store of a server that has seen the commands before it. -/
theorem Records.applyCommand (h : kv.Records seen) {op : Op}
    (hseq : Sequential Op.tag (seen ++ [op])) : (kv.applyCommand op).Records (seen ++ [op]) ∧
      (kv.applyCommand op).skipList =
        if op.isWrite = true ∧ ∀ x ∈ seen, x.tag ≠ op.tag then op.overwrite kv.skipList
        else kv.skipList := by
  have hnew : (∀ x ∈ seen, x.tag ≠ op.tag) ↔ op ∉ seen := by
    refine ⟨fun h hmem => h op hmem rfl, fun h x hx htag => h ?_⟩
    exact hseq.unique x (by simp [hx]) op (by simp) htag ▸ hx
  rw [KvServer.applyCommand]
  split_ifs with hdup hfirst hfirst
  · exact absurd (h.mem_of_duplicate hseq hdup) (hnew.1 hfirst.2)
  · exact ⟨h.duplicate hseq hdup, rfl⟩
  · refine ⟨h.execute hseq fun _ => hnew.1 hfirst.2, ?_⟩
    rw [execute_skipList, Op.overwrite]
  · have hfresh : op.isWrite = true → op ∉ seen := fun hw hmem =>
      hdup ((h.duplicate_iff hseq hw).2 hmem)
    refine ⟨h.execute hseq hfresh, ?_⟩
    rw [execute_skipList, if_neg fun hw => hfirst ⟨hw, hnew.2 (hfresh hw)⟩]

/-- **The server overwrites a key with every first write.** -/
theorem Records.skipList_getCommandsFromRaft {msgs : List (Op × ℤ)} (h : kv.Records seen)
    (hsnap : kv.lastSnapShotRaftLogIndex = 0)
    (hseq : Sequential Op.tag (seen ++ processed msgs)) :
    (kv.getCommandsFromRaft msgs).skipList =
      (firstWritesFrom seen (processed msgs)).foldl (fun store op => op.overwrite store)
        kv.skipList := by
  induction msgs generalizing kv seen with
  | nil => rfl
  | cons msg msgs ih =>
    obtain ⟨op, index⟩ := msg
    by_cases hindex : 0 < index
    · have hproc : processed ((op, index) :: msgs) = op :: processed msgs := by
        simp [processed, hindex]
      rw [hproc] at hseq ⊢
      have hpre : Sequential Op.tag (seen ++ [op]) :=
        hseq.of_isPrefix ⟨processed msgs, by simp⟩
      obtain ⟨hrec, hstore⟩ := h.applyCommand hpre
      have hsame : (kv.applyCommand op).SameStore
          ((kv.applyCommand op).sendMessageToWaitChan op index) :=
        sameStore_sendMessageToWaitChan op index
      have hstep : kv.getCommandFromRaft op index =
          (kv.applyCommand op).sendMessageToWaitChan op index := by
        rw [getCommandFromRaft, hsnap, if_neg (not_le.2 hindex)]
        rfl
      have hsnap' : (kv.applyCommand op).lastSnapShotRaftLogIndex = 0 :=
        applyCommand_lastSnapShotRaftLogIndex.trans hsnap
      have hrest := ih (hrec.congr hsame.lastRequestId)
        (hsame.lastSnapShotRaftLogIndex.trans hsnap') (by simpa using hseq)
      rw [getCommandsFromRaft, List.foldl_cons, hstep]
      refine hrest.trans ?_
      rw [hsame.skipList, hstore, firstWritesFrom]
      split_ifs <;> rfl
    · have hproc : processed ((op, index) :: msgs) = processed msgs := by
        simp [processed, hindex]
      have hstep : kv.getCommandFromRaft op index = kv := by
        rw [getCommandFromRaft, hsnap, if_pos (not_lt.1 hindex)]
      rw [hproc] at hseq ⊢
      rw [getCommandsFromRaft, List.foldl_cons, hstep]
      exact ih h hsnap hseq

/-- **When the store is what the commands stand for.**  After any sequence of command messages in
which new requests of a client have larger numbers, it is so exactly if no Append that decides
about its key is appended to something. -/
theorem store_eq_reference_iff (msgs : List (Op × ℤ))
    (h : Increasing Op.tag (processed msgs)) :
    (init.getCommandsFromRaft msgs).skipList = reference (processed msgs) ↔
      AppendsToBlank (firstWrites (processed msgs)) := by
  have hseq : Sequential Op.tag ([] ++ processed msgs) := h.sequential
  have hstore := records_init.skipList_getCommandsFromRaft rfl hseq
  rw [hstore, reference, referenceFrom_eq]
  exact overwrites_eq_effects_iff fun w hw => isWrite_of_mem_firstWritesFrom hw

/-- A client writes `"a"`, which is handed out twice, and appends `"b"` to another key. -/
def twoKeys : List (Op × ℤ) :=
  [(⟨.put, "k", "a", "c", 1⟩, 1), (⟨.put, "k", "a", "c", 1⟩, 2), (⟨.append, "l", "b", "c", 2⟩, 3)]

theorem store_eq_reference_iff_twoKeys : reference (processed twoKeys) "l" = some "b" ∧
    ((init.getCommandsFromRaft twoKeys).skipList = reference (processed twoKeys) ↔
      AppendsToBlank (firstWrites (processed twoKeys))) :=
  ⟨by decide, store_eq_reference_iff twoKeys (by decide)⟩

/-- A client writes `"a"` and appends `"b"`. -/
def putAppend : List (Op × ℤ) :=
  [(⟨.put, "k", "a", "c", 1⟩, 1), (⟨.append, "k", "b", "c", 2⟩, 2)]

/-- The store then holds `"b"`, and not `"ab"`. -/
theorem not_store_eq_reference : ¬ ∀ msgs, Increasing Op.tag (processed msgs) →
    (init.getCommandsFromRaft msgs).skipList = reference (processed msgs) := by
  intro hall
  have := congrFun (hall putAppend (by decide)) "k"
  exact absurd this (by decide)

end KvServer

end KvRaft
