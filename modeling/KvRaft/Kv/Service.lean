import KvRaft.Kv.Process

/-!
# Clerks and servers

A `Service` is a number of servers and the clerks that call them.  A clerk makes one call at a
time and retries it on one server after the other until it is answered; a handler that was
started for an RPC goes on when the RPC has failed.

Consensus is kept open: `Start` may return any index, and the apply loops may be given any
commands that were started.  Under the condition `Service.Consensus` they are given the
committed log, of which every entry was started with its index.

Calls, acknowledgements and answers are recorded; nothing reads these records.  The numbers of the
requests of a clerk, of type `int` in the source, are integers that do not overflow.
-/

namespace KvRaft

/-- The public calls of a clerk. -/
inductive ClerkCall where
  | get (key : String)
  | put (key value : String)
  | append (key value : String)

/-- A call that a clerk is executing. -/
structure Call (s : ℕ) where
  req : Request
  server : Fin (s + 1)
  /-- The RPC under way, by the place of its handler at `server`. -/
  rpc : Option ℕ

/-- A clerk that is connected to `s + 1` servers. -/
structure Clerk (s : ℕ) where
  clientId : String
  requestId : ℤ
  recentLeaderId : Fin (s + 1)
  /-- The call under way. -/
  call : Option (Call s)

namespace Clerk

variable {s : ℕ}

/-- The id that `Uuid` gives to the `k`-th clerk of a process, which has drawn `4 * k` numbers
before.  C++ leaves open in which order the four calls of `rand` are made, and a compiler may draw
the last number first.  Results hold for every `rand`, so also for the one that gives the numbers of
every clerk in another order. -/
def uuid (rand : ℕ → ℕ) (k : ℕ) : String :=
  toString (rand (4 * k)) ++ toString (rand (4 * k + 1)) ++ toString (rand (4 * k + 2)) ++
    toString (rand (4 * k + 3))

def init (clientId : String) : Clerk s where
  clientId := clientId
  requestId := 0
  recentLeaderId := 0
  call := none

/-- The arguments of the RPCs of a call with the number `requestId`. -/
def request (c : Clerk s) (requestId : ℤ) : ClerkCall → Request
  | .get key => .get { key := key, clientid := c.clientId, requestid := requestId }
  | .put key value => .putAppend
    { key := key, value := value, op := .put, clientid := c.clientId, requestid := requestId }
  | .append key value => .putAppend
    { key := key, value := value, op := .append, clientid := c.clientId, requestid := requestId }

/-- The start of `Get` and `PutAppend`, up to the loop. -/
def begin (c : Clerk s) (call : ClerkCall) : Clerk s × Call s :=
  let requestId := c.requestId + 1
  ({ c with requestId := requestId },
    { req := c.request requestId call, server := c.recentLeaderId, rpc := none })

/-- The RPC of a call has failed or has met the wrong leader. -/
def tryNext (c : Clerk s) (call : Call s) : Clerk s :=
  { c with call := some { call with server := call.server + 1, rpc := none } }

/-- The RPC of a call was answered. -/
def onReply (c : Clerk s) (call : Call s) (reply : Reply) : Clerk s :=
  match call.req, reply.err with
  | _, .errWrongLeader => c.tryNext call
  | .get _, .errNoKey => { c with call := none }
  | .putAppend _, .errNoKey => { c with call := some { call with rpc := none } }
  | _, .ok => { c with recentLeaderId := call.server, call := none }

end Clerk

/-- A request of a clerk with the writes that had been acknowledged when it was first sent. -/
structure Asked where
  req : Request
  acked : List Op

/-- An answer that ended a call, and the server that gave it. -/
structure Answer (s : ℕ) where
  req : Request
  server : Fin (s + 1)
  reply : Reply

/-- `m` clerks and `s + 1` servers. -/
structure Service (m s : ℕ) where
  clerks : Fin m → Clerk s
  servers : Fin (s + 1) → KvProcess
  /-- The commands that leaders have taken, with the indices returned. -/
  started : List (ℤ × Op)
  committed : List Op
  /-- The requests of each clerk, in order. -/
  calls : Fin m → List Asked
  /-- The writes whose `OK` was sent. -/
  acked : List Op
  answers : List (Answer s)

inductive ServiceAction (m s : ℕ) where
  /-- A clerk begins a call and sends its first RPC. -/
  | call (i : Fin m) (call : ClerkCall)
  /-- A clerk sends the RPC of its call again. -/
  | retry (i : Fin m)
  /-- The RPC of a clerk fails. -/
  | fail (i : Fin m)
  /-- The reply to the RPC of a clerk arrives. -/
  | reply (i : Fin m)
  /-- A server makes a step. -/
  | server (j : Fin (s + 1)) (a : KvAction)
  /-- A started command is committed. -/
  | commit (k : ℕ)

namespace KvProcess

/-- The command that Raft takes by an action. -/
def starts (p : KvProcess) : KvAction → List (ℤ × Op)
  | .handle k (.start raftIndex true) => (p.handlers[k]?.map fun h => (raftIndex, h.req.op)).toList
  | _ => []

/-- The write whose `OK` is sent by an action. -/
def acks (p : KvProcess) : KvAction → List Op
  | .handle k .run =>
    match p.handlers[k]? with
    | some { req := .putAppend args, pc := .leaving _ { err := .ok, value := _ } } =>
      [(Request.putAppend args).op]
    | _ => []
  | _ => []

end KvProcess

namespace Service

variable {m s : ℕ}

def init (ids : Fin m → String) : Service m s where
  clerks i := Clerk.init (ids i)
  servers _ := {}
  started := []
  committed := []
  calls _ := []
  acked := []
  answers := []

def setClerk (S : Service m s) (i : Fin m) (c : Clerk s) : Service m s :=
  { S with clerks := Function.update S.clerks i c }

def setServer (S : Service m s) (j : Fin (s + 1)) (p : KvProcess) : Service m s :=
  { S with servers := Function.update S.servers j p }

/-- Clerk `i` begins a call. -/
def begin (S : Service m s) (i : Fin m) (call : ClerkCall) : Service m s :=
  let (clerk, call) := (S.clerks i).begin call
  { S with
    clerks := Function.update S.clerks i clerk
    calls := Function.update S.calls i (S.calls i ++ [{ req := call.req, acked := S.acked }]) }

/-- Clerk `i` sends an RPC for its call, which starts a handler. -/
def send (S : Service m s) (i : Fin m) (call : Call s) : Service m s :=
  let p := S.servers call.server
  (S.setServer call.server { p with handlers := p.handlers ++ [{ req := call.req }] }).setClerk i
    { S.clerks i with call := some { call with rpc := some p.handlers.length } }

/-- What the apply loop of a server may be given. -/
def allowed (S : Service m s) : KvAction → Bool
  | .receive (.command op _) _ => op ∈ S.started.map Prod.snd
  | .receive (.snapshot _ _ _) _ | .call _ => false
  | .apply | .skipSnapShot | .handle _ _ => true

def step (S : Service m s) : ServiceAction m s → Option (Service m s)
  | .call i call =>
    match (S.clerks i).call with
    | none => some ((S.begin i call).send i ((S.clerks i).begin call).2)
    | some _ => none
  | .retry i =>
    match (S.clerks i).call with
    | some ⟨req, server, none⟩ => some (S.send i ⟨req, server, none⟩)
    | _ => none
  | .fail i =>
    match (S.clerks i).call with
    | some ⟨req, server, some rpc⟩ =>
      some (S.setClerk i ((S.clerks i).tryNext ⟨req, server, some rpc⟩))
    | _ => none
  | .reply i =>
    match (S.clerks i).call with
    | some ⟨req, server, some rpc⟩ =>
      match (S.servers server).handlers[rpc]? with
      | some ⟨_, .returned reply⟩ =>
        let clerk := (S.clerks i).onReply ⟨req, server, some rpc⟩ reply
        let S := S.setClerk i clerk
        some { S with
          answers := if clerk.call.isNone then S.answers ++ [⟨req, server, reply⟩] else S.answers }
      | _ => none
    | _ => none
  | .server j a =>
    if S.allowed a then
      ((S.servers j).step a).map fun p =>
        { S.setServer j p with
          started := S.started ++ (S.servers j).starts a
          acked := S.acked ++ (S.servers j).acks a }
    else none
  | .commit k =>
    match S.started[k]? with
    | some (index, op) =>
      if index = S.committed.length + 1 then some { S with committed := S.committed ++ [op] }
      else none
    | none => none

variable (m s) in
/-- Clerks and servers as a machine. -/
def machine : Machine (Service m s) (ServiceAction m s) := ⟨step⟩

/-- The condition that every server is given the committed log in the order of the indices. -/
def Consensus (S : Service m s) : ServiceAction m s → Prop
  | .server j (.receive (.command op index) _) =>
    S.committed[(S.servers j).applied.length]? = some op ∧
      index = (S.servers j).applied.length + 1
  | _ => True

instance (S : Service m s) (a : ServiceAction m s) : Decidable (S.Consensus a) := by
  unfold Consensus
  split <;> infer_instance

/-! ### Setters -/

@[simp] theorem setClerk_clerks (S : Service m s) (i i' : Fin m) (c : Clerk s) :
    (S.setClerk i c).clerks i' = if i' = i then c else S.clerks i' := by
  simp [setClerk, Function.update_apply]

@[simp] theorem setClerk_servers (S : Service m s) (i : Fin m) (c : Clerk s) :
    (S.setClerk i c).servers = S.servers := rfl

@[simp] theorem setClerk_calls (S : Service m s) (i : Fin m) (c : Clerk s) :
    (S.setClerk i c).calls = S.calls := rfl

@[simp] theorem setServer_servers (S : Service m s) (j j' : Fin (s + 1)) (p : KvProcess) :
    (S.setServer j p).servers j' = if j' = j then p else S.servers j' := by
  simp [setServer, Function.update_apply]

@[simp] theorem setServer_clerks (S : Service m s) (j : Fin (s + 1)) (p : KvProcess) :
    (S.setServer j p).clerks = S.clerks := rfl

@[simp] theorem begin_clerks (S : Service m s) (i i' : Fin m) (call : ClerkCall) :
    (S.begin i call).clerks i' =
      if i' = i then ((S.clerks i).begin call).1 else S.clerks i' := by
  simp [begin, Function.update_apply]

@[simp] theorem begin_calls (S : Service m s) (i i' : Fin m) (call : ClerkCall) :
    (S.begin i call).calls i' = S.calls i' ++ if i' = i then
      [{ req := ((S.clerks i).begin call).2.req, acked := S.acked }] else [] := by
  by_cases hi : i' = i
  · subst hi
    simp [begin]
  · simp [begin, hi]

@[simp] theorem send_clerks (S : Service m s) (i i' : Fin m) (call : Call s) :
    (S.send i call).clerks i' = if i' = i then { S.clerks i with
      call := some { call with rpc := some (S.servers call.server).handlers.length } }
    else S.clerks i' := by
  simp [send]

/-- A call adds a handler to its server. -/
@[simp] theorem send_servers (S : Service m s) (i : Fin m) (call : Call s) (j : Fin (s + 1)) :
    (S.send i call).servers j = { S.servers j with
      handlers := (S.servers j).handlers ++ if j = call.server then [{ req := call.req }] else [] }
    := by
  by_cases hj : j = call.server
  · subst hj
    simp [send]
  · simp [send, hj]

theorem send_applied (S : Service m s) (i : Fin m) (call : Call s) (j : Fin (s + 1)) :
    ((S.send i call).servers j).applied = (S.servers j).applied := by
  rw [send_servers]

/-! ### Kinds of steps -/

variable {S S' : Service m s} {a : ServiceAction m s}

/-- What an action does, with one constructor for each kind of step. -/
inductive Moves (S : Service m s) : ServiceAction m s → Service m s → Prop
  | call (i : Fin m) (call : ClerkCall) : (S.clerks i).call = none →
      Moves S (.call i call) ((S.begin i call).send i ((S.clerks i).begin call).2)
  | retry (i : Fin m) (req : Request) (server : Fin (s + 1)) :
      (S.clerks i).call = some ⟨req, server, none⟩ →
      Moves S (.retry i) (S.send i ⟨req, server, none⟩)
  /-- An RPC has failed or has not been answered to the point. -/
  | again (a : ServiceAction m s) (i : Fin m) (call : Call s) (server : Fin (s + 1)) :
      (S.clerks i).call = some call → Moves S a
        (S.setClerk i { S.clerks i with call := some ⟨call.req, server, none⟩ })
  | answer (i : Fin m) (req : Request) (server leader : Fin (s + 1)) (rpc : ℕ) (h : Handler)
      (reply : Reply) : (S.clerks i).call = some ⟨req, server, some rpc⟩ →
      (S.servers server).handlers[rpc]? = some h → h.pc = .returned reply →
      reply.err ≠ .errWrongLeader →
      Moves S (.reply i)
        { S.setClerk i { S.clerks i with recentLeaderId := leader, call := none } with
          answers := S.answers ++ [⟨req, server, reply⟩] }
  | server (j : Fin (s + 1)) (a : KvAction) (p : KvProcess) : S.allowed a = true →
      (S.servers j).step a = some p → Moves S (.server j a)
        { S.setServer j p with
          started := S.started ++ (S.servers j).starts a
          acked := S.acked ++ (S.servers j).acks a }
  | commit (k : ℕ) (index : ℤ) (op : Op) : S.started[k]? = some (index, op) →
      Moves S (.commit k) { S with committed := S.committed ++ [op] }

theorem moves_of_step (hst : S.step a = some S') : S.Moves a S' := by
  cases a with
  | call i call =>
    simp only [step] at hst
    split at hst
    · obtain rfl := Option.some.inj hst
      exact .call i call ‹_›
    · cases hst
  | retry i =>
    simp only [step] at hst
    split at hst
    · obtain rfl := Option.some.inj hst
      exact .retry i _ _ ‹_›
    · cases hst
  | fail i =>
    simp only [step] at hst
    split at hst
    · obtain rfl := Option.some.inj hst
      exact .again _ i _ _ ‹_›
    · cases hst
  | reply i =>
    simp only [step] at hst
    split at hst
    · rename_i req server rpc hcall
      split at hst
      · rename_i x reply hget
        obtain rfl := Option.some.inj hst
        obtain ⟨err, value⟩ := reply
        cases err with
        | errWrongLeader =>
          simp only [Clerk.onReply, Clerk.tryNext]
          exact .again _ i _ _ hcall
        | errNoKey =>
          cases req with
          | get args => exact .answer i _ server _ rpc _ _ hcall hget rfl (by simp)
          | putAppend args => exact .again _ i _ _ hcall
        | ok =>
          cases req with
          | get args => exact .answer i _ server _ rpc _ _ hcall hget rfl (by simp)
          | putAppend args => exact .answer i _ server _ rpc _ _ hcall hget rfl (by simp)
      · cases hst
    · cases hst
  | server j a =>
    simp only [step] at hst
    split_ifs at hst with hall
    obtain ⟨p, hp, rfl⟩ := Option.map_eq_some_iff.1 hst
    exact .server j a p hall hp
  | commit k =>
    simp only [step] at hst
    split at hst
    · split_ifs at hst
      obtain rfl := Option.some.inj hst
      exact .commit k _ _ ‹_›
    · cases hst

/-! ### Parts of runs -/

/-- The first server. -/
def first : Fin (s + 1) := 0

/-- Raft takes the command of handler `k` under an index, and the handler waits for it. -/
def takes (j : Fin (s + 1)) (k : ℕ) (index : ℤ) : List (ServiceAction m s) :=
  [.server j (.handle k (.start index true)), .server j (.handle k .run)]

/-- The apply loop is given a command, executes it and announces it. -/
def executes (j : Fin (s + 1)) (op : Op) (index : ℤ) : List (ServiceAction m s) :=
  [.server j (.receive (.command op index) false), .server j .apply, .server j .apply,
    .server j .skipSnapShot, .server j .apply]

/-- The apply loop is given a command, finds it to be a duplicate and announces it. -/
def passes (j : Fin (s + 1)) (op : Op) (index : ℤ) : List (ServiceAction m s) :=
  [.server j (.receive (.command op index) false), .server j .apply, .server j .skipSnapShot,
    .server j .apply]

/-- Handler `k` runs its next section. -/
def runs (j : Fin (s + 1)) (k : ℕ) : ServiceAction m s := .server j (.handle k .run)

/-- Two clerks. -/
def twoIds (i : Fin 2) : String := if i = 0 then "c" else "d"

theorem twoIds_injective : Function.Injective twoIds := by
  unfold Function.Injective
  decide

end Service

end KvRaft
