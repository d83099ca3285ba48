import KvRaft.LTS.Basic
import KvRaft.Kv.Server

/-!
# The threads of a key/value server

A `KvProcess` is a server with its apply loop (`ReadRaftApplyCommandLoop`) and the handlers that
answer `Get` and `PutAppend`.  Each step is one section under `m_mtx`, one operation on a wait
channel or one call of Raft, whose results are given by the step: Raft is not part of this level.

`KvProcess.step` executes a step, `KvProcess.Moves` is the same as a relation with one
constructor for each kind of step (`KvProcess.moves_of_step`).
-/

namespace KvRaft

/-- Where the apply loop is. -/
inductive ApplyLoop where
  /-- Waits for a message. -/
  | pop
  /-- In `GetCommandFromRaft`, before `ifRequestDuplicate`. -/
  | duplicate (op : Op) (commandIndex : ℤ)
  /-- The command is not a duplicate. -/
  | execute (op : Op) (commandIndex : ℤ)
  /-- Before `IfNeedToSendSnapShotCommand`. -/
  | compact (op : Op) (commandIndex : ℤ)
  /-- A snapshot was made and is handed to Raft. -/
  | snapshot (op : Op) (commandIndex : ℤ) (data : Snapshot)
  /-- Before `SendMessageToWaitChan`. -/
  | send (op : Op) (commandIndex : ℤ)

/-- Where a handler is. -/
inductive HandlerPc where
  /-- Before `Start`. -/
  | called
  /-- Raft has taken the command as the leader. -/
  | started (raftIndex : ℤ)
  /-- In `timeOutPop`. -/
  | waiting (raftIndex : ℤ) (ch : ℕ)
  | timedOut (raftIndex : ℤ)
  /-- `GetState` has been called; only in `Get`. -/
  | asked (raftIndex : ℤ) (isLeader : Bool)
  /-- Before `ExecuteGetOpOnKVDB`. -/
  | reading (raftIndex : ℤ)
  /-- The reply is filled, the wait channel not yet erased. -/
  | leaving (raftIndex : ℤ) (reply : Reply)
  | returned (reply : Reply)
  deriving DecidableEq

/-- A handler of `Get` or `PutAppend`. -/
structure Handler where
  req : Request
  pc : HandlerPc := .called
  deriving DecidableEq

/-- What a step of a handler gets from outside. -/
inductive Input where
  /-- The results of `Start`. -/
  | start (raftIndex : ℤ) (isLeader : Bool)
  /-- Nothing: the handler runs its next section. -/
  | run
  /-- The wait is over. -/
  | timeOut
  /-- The result of `GetState`. -/
  | getState (isLeader : Bool)
  deriving DecidableEq

namespace Handler

/-- The reply of `Get` to a value read. -/
def getReply (value : String) (exist : Bool) : Reply :=
  if exist then { err := .ok, value := value } else { err := .errNoKey, value := "" }

/-- After `timeOutPop` has found `raftCommitOp`. -/
def popped (h : Handler) (raftIndex : ℤ) (raftCommitOp : Op) : HandlerPc :=
  if raftCommitOp.clientId = h.req.op.clientId ∧
      raftCommitOp.requestId = h.req.op.requestId then
    match h.req with
    | .get _ => .reading raftIndex
    | .putAppend _ => .leaving raftIndex { err := .ok }
  else .leaving raftIndex { err := .errWrongLeader }

/-- The next step of a handler on its server. -/
def step (kv : KvServer) (h : Handler) (input : Input) : Option (KvServer × HandlerPc) :=
  match h.pc, h.req, input with
  | .called, _, .start raftIndex isLeader =>
    if isLeader then some (kv, .started raftIndex)
    else some (kv, .returned { err := .errWrongLeader })
  | .started raftIndex, _, .run =>
    let (kv, ch) := kv.openChan raftIndex
    some (kv, .waiting raftIndex ch)
  | .waiting raftIndex ch, _, .run =>
    (kv.popChan ch).map fun (op, kv) => (kv, h.popped raftIndex op)
  | .waiting raftIndex _, _, .timeOut => some (kv, .timedOut raftIndex)
  | .timedOut raftIndex, .get _, .getState isLeader => some (kv, .asked raftIndex isLeader)
  | .timedOut raftIndex, .putAppend args, .run =>
    if kv.ifRequestDuplicate args.clientid args.requestid then
      some (kv, .leaving raftIndex { err := .ok })
    else some (kv, .leaving raftIndex { err := .errWrongLeader })
  | .asked raftIndex isLeader, .get args, .run =>
    if kv.ifRequestDuplicate args.clientid args.requestid ∧ isLeader then
      some (kv, .reading raftIndex)
    else some (kv, .leaving raftIndex { err := .errWrongLeader })
  | .reading raftIndex, .get args, .run =>
    let (kv, value, exist) := kv.executeGetOpOnKVDB (Request.get args).op
    some (kv, .leaving raftIndex (getReply value exist))
  | .leaving raftIndex reply, _, .run => some (kv.closeChan raftIndex, .returned reply)
  | _, _, _ => none

end Handler

/-- What the apply loop has done with a command. -/
structure Applied where
  op : Op
  /-- The command was executed and is a Put or an Append. -/
  wrote : Bool
  /-- The store afterwards. -/
  skipList : String → Option String

/-- A server with its threads. -/
structure KvProcess where
  kv : KvServer := .init
  loop : ApplyLoop := .pop
  handlers : List Handler := []
  /-- What the apply loop has done so far, in order; nothing reads it. -/
  applied : List Applied := []

/-- The actions of a server. -/
inductive KvAction where
  /-- The apply loop gets a message; `installed` is the answer of `CondInstallSnapshot`. -/
  | receive (msg : ApplyMsg Op (Option Snapshot)) (installed : Bool)
  /-- The apply loop runs its next section. -/
  | apply
  /-- Snapshots are off or the log is small. -/
  | skipSnapShot
  /-- A request arrives, and a handler is started. -/
  | call (req : Request)
  /-- A handler makes its next step. -/
  | handle (k : ℕ) (input : Input)

namespace KvProcess

/-- The next section of the apply loop. -/
def apply (p : KvProcess) : Option KvProcess :=
  match p.loop with
  | .pop => none
  | .duplicate op index =>
    if p.kv.ifRequestDuplicate op.clientId op.requestId then
      some { p with
        loop := .compact op index
        applied := p.applied ++ [⟨op, false, p.kv.skipList⟩] }
    else some { p with loop := .execute op index }
  | .execute op index =>
    let kv := p.kv.execute op
    some { p with
      kv := kv
      loop := .compact op index
      applied := p.applied ++ [⟨op, op.isWrite, kv.skipList⟩] }
  | .compact op index => some { p with loop := .snapshot op index p.kv.makeSnapShot }
  | .snapshot op index _ => some { p with loop := .send op index }
  | .send op index => some { p with kv := p.kv.sendMessageToWaitChan op index, loop := .pop }

def step (p : KvProcess) : KvAction → Option KvProcess
  | .receive msg installed =>
    match p.loop, msg with
    | .pop, .command op index =>
      if index ≤ p.kv.lastSnapShotRaftLogIndex then some p
      else some { p with loop := .duplicate op index }
    | .pop, .snapshot data _ index =>
      some { p with kv := p.kv.getSnapShotFromRaft data index installed }
    | _, _ => none
  | .apply => p.apply
  | .skipSnapShot =>
    match p.loop with
    | .compact op index => some { p with loop := .send op index }
    | _ => none
  | .call req => some { p with handlers := p.handlers ++ [{ req := req }] }
  | .handle k input =>
    match p.handlers[k]? with
    | none => none
    | some h =>
      (h.step p.kv input).map fun (kv, pc) =>
        { p with kv := kv, handlers := p.handlers.set k { h with pc := pc } }

/-- The commands the apply loop is done with. -/
def ops (p : KvProcess) : List Op := p.applied.map Applied.op

/-- The store after the first `k` commands. -/
def storeAfter (p : KvProcess) : ℕ → String → Option String
  | 0 => fun _ => none
  | k + 1 => (p.applied[k]?.map Applied.skipList).getD fun _ => none

end KvProcess

/-! ### Kinds of steps -/

namespace Handler

/-- What a step of a handler does, with one constructor for each kind of step. -/
inductive Moves (kv : KvServer) (h : Handler) : Input → KvServer → HandlerPc → Prop
  /-- Raft is asked, the wait channel is found, the wait is over, or the answer is that another
  server should be tried. -/
  | goOn (input : Input) (kv' : KvServer) (pc : HandlerPc) : kv.SameStore kv' →
      (∀ op, kv'.Queued op → kv.Queued op) →
      (∀ i, pc ≠ .reading i) →
      (∀ i reply, pc = .leaving i reply ∨ pc = .returned reply → reply.err = .errWrongLeader) →
      Moves kv h input kv' pc
  /-- A Get has popped its command or found its request to be a duplicate. -/
  | found (args : GetArgs) (raftIndex : ℤ) (kv' : KvServer) : h.req = .get args → kv.SameStore kv' →
      (∀ op, kv'.Queued op → kv.Queued op) → kv.Reports h.req →
      Moves kv h .run kv' (.reading raftIndex)
  /-- The same for a PutAppend. -/
  | acknowledge (args : PutAppendArgs) (raftIndex : ℤ) (kv' : KvServer) :
      h.req = .putAppend args → kv.SameStore kv' →
      (∀ op, kv'.Queued op → kv.Queued op) → kv.Reports h.req →
      Moves kv h .run kv' (.leaving raftIndex { err := .ok })
  | read (args : GetArgs) (raftIndex : ℤ) : h.req = .get args → h.pc = .reading raftIndex →
      Moves kv h .run (kv.executeGetOpOnKVDB (Request.get args).op).1 (.leaving raftIndex
        (getReply ((kv.skipList args.key).getD "") (kv.skipList args.key).isSome))
  | close (raftIndex : ℤ) (reply : Reply) : h.pc = .leaving raftIndex reply →
      Moves kv h .run (kv.closeChan raftIndex) (.returned reply)

variable {kv kv' : KvServer} {h : Handler} {input : Input} {pc : HandlerPc}

theorem moves_of_step (hst : h.step kv input = some (kv', pc)) : h.Moves kv input kv' pc := by
  have hsame : kv.SameStore kv := ⟨rfl, rfl, rfl⟩
  unfold step at hst
  split at hst
  case h_1 =>
    split_ifs at hst <;> obtain ⟨rfl, rfl⟩ := by simpa using hst
    all_goals exact .goOn _ _ _ hsame (fun _ h => h) (by simp) (by simp)
  case h_2 =>
    obtain ⟨rfl, rfl⟩ := by simpa using hst
    exact .goOn _ _ _ (KvServer.sameStore_openChan _) (fun _ => KvServer.queued_openChan) (by simp)
      (by simp)
  case h_3 =>
    obtain ⟨⟨op, kv₁⟩, hpop, heq⟩ := Option.map_eq_some_iff.1 hst
    obtain ⟨rfl, rfl⟩ := Prod.mk.inj heq
    obtain ⟨hq, hs, hx⟩ := KvServer.popChan_eq hpop
    unfold popped
    split_ifs with hown
    · have hr : kv.Reports h.req := Or.inl ⟨op, hq, hown.1, hown.2⟩
      split
      · exact .found _ _ _ ‹_› hs hx hr
      · exact .acknowledge _ _ _ ‹_› hs hx hr
    · exact .goOn _ _ _ hs hx (by simp) (by simp)
  case h_4 =>
    obtain ⟨rfl, rfl⟩ := by simpa using hst
    exact .goOn _ _ _ hsame (fun _ h => h) (by simp) (by simp)
  case h_5 =>
    obtain ⟨rfl, rfl⟩ := by simpa using hst
    exact .goOn _ _ _ hsame (fun _ h => h) (by simp) (by simp)
  case h_6 hpc hreq =>
    split_ifs at hst with hd <;> obtain ⟨rfl, rfl⟩ := by simpa using hst
    · exact .acknowledge _ _ _ hreq hsame (fun _ h => h) (Or.inr (by rw [hreq]; exact hd))
    · exact .goOn _ _ _ hsame (fun _ h => h) (by simp) (by simp)
  case h_7 hpc hreq =>
    split_ifs at hst with hd <;> obtain ⟨rfl, rfl⟩ := by simpa using hst
    · exact .found _ _ _ hreq hsame (fun _ h => h) (Or.inr (by rw [hreq]; exact hd.1))
    · exact .goOn _ _ _ hsame (fun _ h => h) (by simp) (by simp)
  case h_8 hpc hreq =>
    obtain ⟨rfl, rfl⟩ := by simpa using hst
    exact .read _ _ hreq hpc
  case h_9 hpc =>
    obtain ⟨rfl, rfl⟩ := by simpa using hst
    exact .close _ _ hpc
  case h_10 => cases hst

end Handler

/-- The command that the apply loop is done with and has still to announce. -/
def ApplyLoop.done : ApplyLoop → Option Op
  | .compact op _ | .snapshot op _ _ | .send op _ => some op
  | .pop | .duplicate _ _ | .execute _ _ => none

/-- The command that the apply loop has still to apply. -/
def ApplyLoop.pending : ApplyLoop → Option Op
  | .duplicate op _ | .execute op _ => some op
  | .pop | .compact _ _ | .snapshot _ _ _ | .send _ _ => none

namespace KvProcess

variable {p p' : KvProcess} {a : KvAction}

/-- What an action of a server does, with one constructor for each kind of step. -/
inductive Moves (p : KvProcess) : KvAction → KvProcess → Prop
  /-- The command is covered by an installed snapshot. -/
  | skip (op : Op) (index : ℤ) (installed : Bool) : p.loop = .pop →
      Moves p (.receive (.command op index) installed) p
  | receive (op : Op) (index : ℤ) (installed : Bool) : p.loop = .pop →
      Moves p (.receive (.command op index) installed) { p with loop := .duplicate op index }
  | getSnapShotFromRaft (data : Option Snapshot) (term index : ℤ) (installed : Bool) :
      p.loop = .pop → Moves p (.receive (.snapshot data term index) installed)
        { p with kv := p.kv.getSnapShotFromRaft data index installed }
  | duplicate (op : Op) (index : ℤ) : p.loop = .duplicate op index →
      p.kv.ifRequestDuplicate op.clientId op.requestId = true → Moves p .apply
        { p with
          loop := .compact op index
          applied := p.applied ++ [⟨op, false, p.kv.skipList⟩] }
  | fresh (op : Op) (index : ℤ) : p.loop = .duplicate op index →
      p.kv.ifRequestDuplicate op.clientId op.requestId = false → Moves p .apply
        { p with loop := .execute op index }
  | execute (op : Op) (index : ℤ) : p.loop = .execute op index → Moves p .apply
        { p with
          kv := p.kv.execute op
          loop := .compact op index
          applied := p.applied ++ [⟨op, op.isWrite, (p.kv.execute op).skipList⟩] }
  /-- The way from an applied command to the next message. -/
  | goOn (a : KvAction) (op : Op) (kv' : KvServer) (loop' : ApplyLoop) : p.loop.done = some op →
      loop'.pending = none → (∀ x, loop'.done = some x → x = op) → p.kv.SameStore kv' →
      (∀ x, kv'.Queued x → p.kv.Queued x ∨ x = op) →
      Moves p a { p with kv := kv', loop := loop' }
  | call (req : Request) :
      Moves p (.call req) { p with handlers := p.handlers ++ [{ req := req }] }
  | handle (k : ℕ) (h : Handler) (input : Input) (kv' : KvServer) (pc : HandlerPc) :
      p.handlers[k]? = some h → h.Moves p.kv input kv' pc → Moves p (.handle k input)
        { p with kv := kv', handlers := p.handlers.set k { h with pc := pc } }

theorem moves_of_step (hst : p.step a = some p') : p.Moves a p' := by
  have hsame : p.kv.SameStore p.kv := ⟨rfl, rfl, rfl⟩
  have hq : ∀ (op x : Op), p.kv.Queued x → p.kv.Queued x ∨ x = op := fun _ _ h => Or.inl h
  cases a with
  | receive msg installed =>
    simp only [step] at hst
    split at hst
    · split_ifs at hst <;> obtain rfl := Option.some.inj hst
      · exact .skip _ _ _ ‹_›
      · exact .receive _ _ _ ‹_›
    · obtain rfl := Option.some.inj hst
      exact .getSnapShotFromRaft _ _ _ _ ‹_›
    · cases hst
  | apply =>
    simp only [step, apply] at hst
    split at hst
    · cases hst
    · split_ifs at hst with hd <;> obtain rfl := Option.some.inj hst
      · exact .duplicate _ _ ‹_› hd
      · exact .fresh _ _ ‹_› (by simpa using hd)
    · obtain rfl := Option.some.inj hst
      exact .execute _ _ ‹_›
    · rename_i op index hloop
      obtain rfl := Option.some.inj hst
      exact .goOn _ op _ _ (by rw [hloop]; rfl) rfl (by simp [ApplyLoop.done]) hsame (hq op)
    · rename_i op index data hloop
      obtain rfl := Option.some.inj hst
      exact .goOn _ op _ _ (by rw [hloop]; rfl) rfl (by simp [ApplyLoop.done]) hsame (hq op)
    · rename_i op index hloop
      obtain rfl := Option.some.inj hst
      exact .goOn _ op _ _ (by rw [hloop]; rfl) rfl (by simp [ApplyLoop.done])
        (KvServer.sameStore_sendMessageToWaitChan op index)
        fun _ => KvServer.queued_sendMessageToWaitChan
  | skipSnapShot =>
    simp only [step] at hst
    split at hst
    · rename_i op index hloop
      obtain rfl := Option.some.inj hst
      exact .goOn _ op _ _ (by rw [hloop]; rfl) rfl (by simp [ApplyLoop.done]) hsame (hq op)
    · cases hst
  | call req =>
    obtain rfl := Option.some.inj hst
    exact .call req
  | handle k input =>
    simp only [step] at hst
    split at hst
    · cases hst
    · obtain ⟨⟨kv', pc⟩, hh, rfl⟩ := Option.map_eq_some_iff.1 hst
      exact .handle _ _ _ _ _ ‹_› (Handler.moves_of_step hh)

/-- Handlers keep their requests. -/
theorem step_reqs (ha : ∀ req, a ≠ .call req) (hst : p.step a = some p') :
    p'.handlers.map Handler.req = p.handlers.map Handler.req := by
  cases moves_of_step hst with
  | call req => exact absurd rfl (ha req)
  | handle k h input kv' pc hk hm =>
    obtain ⟨hlt, rfl⟩ := List.getElem?_eq_some_iff.1 hk
    refine List.ext_getElem? fun n => ?_
    rw [List.getElem?_map, List.getElem?_map, List.getElem?_set]
    split_ifs with hn
    · subst hn
      rw [List.getElem?_eq_getElem hlt]
      rfl
    · rfl
  | _ => rfl

/-- A command is pending from when it is received until it is applied; it is executed if it was
not found to be a duplicate. -/
theorem step_applied (hst : p.step a = some p') :
    p'.applied = p.applied ∧ (∀ op, p'.loop.pending = some op →
      p.loop.pending = some op ∨ p.loop.pending = none ∧
        ∃ index installed, a = .receive (.command op index) installed) ∨
    ∃ x, p.loop.pending = some x.op ∧ p'.applied = p.applied ++ [x] ∧ p'.loop.pending = none ∧
      (x.wrote = x.op.isWrite ∨ x.wrote = false ∧
        p.kv.ifRequestDuplicate x.op.clientId x.op.requestId = true) := by
  cases moves_of_step hst with
  | skip op index installed hloop => exact Or.inl ⟨rfl, fun x hx => Or.inl hx⟩
  | receive op index installed hloop =>
    refine Or.inl ⟨rfl, fun x hx => Or.inr ⟨by rw [hloop]; rfl, index, installed, ?_⟩⟩
    obtain rfl : op = x := by simpa [ApplyLoop.pending] using hx
    rfl
  | getSnapShotFromRaft => exact Or.inl ⟨rfl, fun x hx => Or.inl hx⟩
  | duplicate op index hloop hdup =>
    exact Or.inr ⟨⟨op, _, _⟩, by rw [hloop]; rfl, rfl, rfl, Or.inr ⟨rfl, hdup⟩⟩
  | fresh op index hloop =>
    exact Or.inl ⟨rfl, fun x hx => Or.inl (by rw [hloop]; exact hx)⟩
  | execute op index hloop =>
    exact Or.inr ⟨⟨op, _, _⟩, by rw [hloop]; rfl, rfl, rfl, Or.inl rfl⟩
  | goOn a op kv' loop' hdone hpend =>
    exact Or.inl ⟨rfl, fun x hx => by simp [hpend] at hx⟩
  | call => exact Or.inl ⟨rfl, fun x hx => Or.inl hx⟩
  | handle => exact Or.inl ⟨rfl, fun x hx => Or.inl hx⟩

end KvProcess

end KvRaft
