import KvRaft.Heap.Linked
import Mathlib.Data.Int.Notation
import Mathlib.Logic.Function.Basic
import Mathlib.Order.Lattice

/-!
# The skip list

Nodes live in a heap of addresses and are connected by one array of forward pointers each.  The
header is a node whose key and value are the default ones of their types and are never read.  A
freed address is not handed out again, so that every use of a dangling pointer fails.

Every operation runs under the mutex of the list.  The random levels come from `rand`: the
argument `heads` is the number of odd numbers drawn before the first even one.
-/

namespace KvRaft

open Heap

/-- An address of the heap. -/
abbrev Addr := ℕ

/-- Why an operation does not return normally. -/
inductive Stop where
  /-- Access through a null or dangling pointer, or outside an array. -/
  | invalidAccess
  /-- Waiting for a mutex that the thread itself holds. -/
  | blocked
  /-- An exception. -/
  | exception
  /-- A loop was given too little fuel. -/
  | outOfFuel
  deriving DecidableEq, Repr

/-- A node of the list. -/
structure Node (K V : Type) where
  key : K
  value : V
  nodeLevel : ℕ
  forward : List (Option Addr)

/-- The constructor of a node: all forward pointers are null. -/
def Node.create {K V : Type} (key : K) (value : V) (level : ℕ) : Node K V where
  key := key
  value := value
  nodeLevel := level
  forward := List.replicate (level + 1) none

/-- The heap of the nodes. -/
abbrev Memory (K V : Type) := Addr → Option (Node K V)

/-- A skip list together with the heap its nodes are in. -/
structure SkipList (K V : Type) where
  maxLevel : ℕ
  skipListLevel : ℕ
  header : Addr
  elementCount : ℤ
  /-- The mutex is held. -/
  mtx : Bool
  heap : Memory K V
  /-- The address that the next `new` returns. -/
  fresh : Addr

/-- The pointers collected on the way down, one for each level. -/
abbrev Update := List (Option Addr)

namespace Update

/-- The pointer of level `i`, about to be dereferenced. -/
def pointer (update : Update) (i : ℕ) : Except Stop Addr :=
  match update[i]? with
  | some (some a) => .ok a
  | _ => .error .invalidAccess

/-- `update[i] = a`. -/
def assign (update : Update) (i : ℕ) (a : Addr) : Except Stop Update :=
  if i < update.length then .ok (update.set i (some a)) else .error .invalidAccess

end Update

/-! ### Access to nodes -/

namespace Memory

variable {K V : Type} (heap : Memory K V)

/-- The node at an address. -/
def node (a : Addr) : Except Stop (Node K V) :=
  match heap a with
  | some n => .ok n
  | none => .error .invalidAccess

/-- `a->forward[i]`. -/
def forward (i : ℕ) (a : Addr) : Except Stop (Option Addr) := do
  let n ← heap.node a
  match n.forward[i]? with
  | some q => return q
  | none => .error .invalidAccess

/-- `a->forward[i] = q`. -/
def setForward (i : ℕ) (a : Addr) (q : Option Addr) : Except Stop (Memory K V) := do
  let n ← heap.node a
  if i < n.forward.length then
    return Function.update heap a (some { n with forward := n.forward.set i q })
  else
    .error .invalidAccess

/-- `delete a`. -/
def deleteNode (a : Addr) : Memory K V := Function.update heap a none

variable [LinearOrder K]

/-- Does the key of the node precede `key`? -/
def precedes (key : K) (a : Addr) : Except Stop Bool := do
  let n ← heap.node a
  return n.key < key

/-- `q != nullptr && q->get_key() == key`, with the node if so. -/
def found (key : K) : Option Addr → Except Stop (Option (Addr × Node K V))
  | none => return none
  | some a => do
    let n ← heap.node a
    return if n.key = key then some (a, n) else none

end Memory

/-- The level for a new node: one more than the odd numbers drawn, at most the maximum. -/
def getRandomLevel (maxLevel heads : ℕ) : ℕ :=
  let k := 1 + heads
  if k < maxLevel then k else maxLevel

namespace SkipList

variable {K V : Type}

/-- The constructor; `k` and `v` are the default values of their types. -/
def create (maxLevel : ℕ) (k : K) (v : V) : SkipList K V where
  maxLevel := maxLevel
  skipListLevel := 0
  header := 0
  elementCount := 0
  mtx := false
  heap := Function.update (fun _ => none) 0 (some (Node.create k v maxLevel))
  fresh := 1

variable (s : SkipList K V)

/-- Allocate a node.  `create_node` is declared in `skipList.h` and has no body: it is read as
`new Node<K, V>(k, v, level)`. -/
def createNode (key : K) (value : V) (level : ℕ) : Addr × SkipList K V :=
  (s.fresh, { s with
    heap := Function.update s.heap s.fresh (some (Node.create key value level))
    fresh := s.fresh + 1 })

/-- Run an operation under a `lock_guard` on the mutex. -/
def locked {R : Type} (body : SkipList K V → Except Stop (R × SkipList K V)) :
    Except Stop (R × SkipList K V) :=
  if s.mtx then .error .blocked
  else do
    let (r, s) ← body { s with mtx := true }
    return (r, { s with mtx := false })

/-- Fuel for the loops along a chain: more than the addresses in use. -/
def fuel : ℕ := s.fresh + 1

/-! ### Levels -/

/-- The nodes of level `i` in order, as `display_list` prints them. -/
def levelNodes (i : ℕ) : Except Stop (List Addr) :=
  cells (s.heap.forward i) .outOfFuel s.fuel s.header

/-- The keys of level `i` in order. -/
def levelKeys (i : ℕ) : Except Stop (List K) := do
  let nodes ← s.levelNodes i
  nodes.mapM fun a => do
    let n ← s.heap.node a
    return n.key

variable [LinearOrder K]

/-! ### The way down -/

/-- The inner loop of the way down: move along level `i` while the next key is smaller. -/
def advanceAt (key : K) (i : ℕ) (current : Addr) : Except Stop Addr :=
  advance (s.heap.forward i) (s.heap.precedes key) .outOfFuel s.fuel current

/-- The loop over the levels from the top, which remembers where it left each level. -/
def descend (key : K) : ℕ → Addr → Update → Except Stop (Addr × Update)
  | 0, current, update => return (current, update)
  | i + 1, current, update => do
    let current ← s.advanceAt key i current
    let update ← update.assign i current
    descend key i current update

/-- The same loop of `search_element`, which remembers nothing. -/
def descendOnly (key : K) : ℕ → Addr → Except Stop Addr
  | 0, current => return current
  | i + 1, current => do
    let current ← s.advanceAt key i current
    descendOnly key i current

/-! ### Insertion -/

/-- The levels above the current one start at the header. -/
def raise (randomLevel : ℕ) (update : Update) : Except Stop (SkipList K V × Update) :=
  if s.skipListLevel < randomLevel then do
    let update ← (List.range' (s.skipListLevel + 1) (randomLevel - s.skipListLevel)).foldlM
      (fun update i => Update.assign update i s.header) update
    return ({ s with skipListLevel := randomLevel }, update)
  else
    return (s, update)

/-- Put the node `a` into level `i`. -/
def linkLevel (a : Addr) (update : Update) (heap : Memory K V) (i : ℕ) :
    Except Stop (Memory K V) := do
  let p ← update.pointer i
  let q ← heap.forward i p
  let heap ← heap.setForward i a q
  heap.setForward i p (some a)

/-- The body of `insert_element`: `true` when a node was inserted. -/
def insertBody (key : K) (value : V) (heads : ℕ) : Except Stop (Bool × SkipList K V) := do
  let (current, update) ← s.descend key (s.skipListLevel + 1) s.header
    (List.replicate (s.maxLevel + 1) none)
  let current ← s.heap.forward 0 current
  match ← s.heap.found key current with
  | some _ => return (false, s)
  | none =>
    let randomLevel := getRandomLevel s.maxLevel heads
    let (s, update) ← s.raise randomLevel update
    let (a, s) := s.createNode key value randomLevel
    let heap ← (List.range (randomLevel + 1)).foldlM (linkLevel a update) s.heap
    return (true, { s with heap := heap, elementCount := s.elementCount + 1 })

/-- `insert_element`, which keeps the value of a key that is present.  It is declared to return
`int` and defined to return `bool`, whether a node was inserted. -/
def insertElement (key : K) (value : V) (heads : ℕ) : Except Stop (Bool × SkipList K V) :=
  s.locked fun s => s.insertBody key value heads

/-! ### Deletion -/

/-- Take the node `current` out of the levels from `i` on, until one where it is not the next
node; the first argument is the number of levels left. -/
def unlink (current : Addr) (update : Update) : ℕ → ℕ → Memory K V → Except Stop (Memory K V)
  | 0, _, heap => return heap
  | n + 1, i, heap => do
    let p ← update.pointer i
    if (← heap.forward i p) ≠ some current then return heap
    let q ← heap.forward i current
    let heap ← heap.setForward i p q
    unlink current update n (i + 1) heap

/-- Lower the level while the topmost one is empty. -/
def lowered (heap : Memory K V) (header : Addr) : ℕ → Except Stop ℕ
  | 0 => return 0
  | level + 1 => do
    if (← heap.forward (level + 1) header) = none then lowered heap header level
    else return level + 1

/-- The body of `delete_element`. -/
def deleteBody (key : K) : Except Stop (Unit × SkipList K V) := do
  let (current, update) ← s.descend key (s.skipListLevel + 1) s.header
    (List.replicate (s.maxLevel + 1) none)
  let current ← s.heap.forward 0 current
  match ← s.heap.found key current with
  | none => return ((), s)
  | some (a, _) =>
    let heap ← unlink a update (s.skipListLevel + 1) 0 s.heap
    let level ← lowered heap s.header s.skipListLevel
    return ((), { s with
      heap := heap.deleteNode a
      skipListLevel := level
      elementCount := s.elementCount - 1 })

/-- `delete_element`. -/
def deleteElement (key : K) : Except Stop (Unit × SkipList K V) :=
  s.locked fun s => s.deleteBody key

/-! ### Search and replacement -/

/-- The body of `search_element`: the value found. -/
def searchBody (key : K) : Except Stop (Option V × SkipList K V) := do
  let current ← s.descendOnly key (s.skipListLevel + 1) s.header
  let current ← s.heap.forward 0 current
  match ← s.heap.found key current with
  | some (_, n) => return (some n.value, s)
  | none => return (none, s)

/-- `search_element`. -/
def searchElement (key : K) : Except Stop (Option V × SkipList K V) :=
  s.locked fun s => s.searchBody key

/-- `insert_set_element`, which locks for each of its operations. -/
def insertSetElement (key : K) (value : V) (heads : ℕ) : Except Stop (SkipList K V) := do
  let (oldValue, s) ← s.searchElement key
  let s ← match oldValue with
    | some _ => do
      let (_, s) ← s.deleteElement key
      pure s
    | none => pure s
  let (_, s) ← s.insertElement key value heads
  return s

end SkipList

end KvRaft
