import KvRaft.LTS.Basic
import KvRaft.Ordered.Set
import Mathlib.Data.Prod.Lex
import Mathlib.Logic.Function.Basic
import Mathlib.Order.WithBot

/-!
# Timers

A `TimerManager` keeps the timers that are set in the order of `next_`, and of their addresses
where that is equal.  Every operation runs under `mutex_` and is one step here; the clock may
return anything.  A `Timer` object exists from the call of `addTimer` on, until nobody has a
pointer to it any more, and its address may be used again then.  The objects are numbered in the
order of their construction.

`TimerManager.act` is `none` for an action that is not possible, and for one that passes `end()`
to `erase`, which `std::set` leaves undefined.
-/

namespace KvRaft

/-- `Timer`, with the address of the object; `F` is the type of callbacks. -/
structure Timer (F : Type) where
  address : ℕ
  recurring : Bool
  ms : UInt64
  next : UInt64
  /-- `cb_`, which may be empty. -/
  cb : Option F

namespace Timer

variable {F : Type}

/-- `Timer::Comparator`. -/
def comparator : Option (Timer F) → Option (Timer F) → Bool
  | none, none => false
  | none, some _ => true
  | some _, none => false
  | some lhs, some rhs =>
    if lhs.next < rhs.next then true
    else if rhs.next < lhs.next then false
    else lhs.address < rhs.address

/-- What the comparator compares by: a null pointer comes first. -/
def key : Option (Timer F) → WithBot (ℕ ×ₗ ℕ)
  | none => ⊥
  | some t => ((toLex (t.next.toNat, t.address) : ℕ ×ₗ ℕ) : WithBot (ℕ ×ₗ ℕ))

theorem comparator_some (t u : Timer F) : comparator (some t) (some u) = true ↔
    t.next < u.next ∨ t.next = u.next ∧ t.address < u.address := by
  simp only [comparator, UInt64.lt_iff_toNat_lt, ← UInt64.toNat_inj]
  split_ifs with hlt hgt
  · simp [hlt]
  · simp only [false_iff]
    omega
  · simp only [decide_eq_true_eq]
    omega

theorem comparator_iff (t u : Option (Timer F)) : comparator t u = true ↔ key t < key u := by
  cases t with
  | none => cases u <;> simp [comparator, key]
  | some t =>
    cases u with
    | none => simp [comparator, key]
    | some u =>
      rw [comparator_some, key, key, WithBot.coe_lt_coe, Prod.Lex.toLex_lt_toLex,
        UInt64.lt_iff_toNat_lt, UInt64.toNat_inj]

end Timer

structure TimerManager (F : Type) where
  /-- The `Timer` objects. -/
  objects : ℕ → Option (Timer F)
  /-- The number of objects constructed so far. -/
  made : ℕ
  timers : List ℕ
  tickled : Bool
  previouseTime : UInt64

/-- The calls, with the readings of the clock. -/
inductive TimerAction (F : Type) where
  /-- The allocator returns `address` for the new object. -/
  | addTimer (address : ℕ) (ms : UInt64) (cb : F) (recurring : Bool) (now : UInt64)
  | cancel (self : ℕ)
  | refresh (self : ℕ) (now : UInt64)
  | reset (self : ℕ) (ms : UInt64) (fromNow : Bool) (now : UInt64)
  | getNextTimer (now : UInt64)
  /-- `address` is that of the object that stands for the time `now`. -/
  | listExpiredCb (now : UInt64) (address : ℕ)
  /-- The last pointer to an object outside `timers_` is gone. -/
  | release (self : ℕ)

/-- What a call returns. -/
inductive TimerResult (F : Type) where
  /-- The new timer, and whether `OnTimerInsertedAtFront` is called. -/
  | added (self : ℕ) (atFront : Bool)
  | returned (b : Bool)
  | next (ms : UInt64)
  /-- The callbacks handed out, each with its timer. -/
  | expired (cbs : List (ℕ × Option F))
  | released

namespace TimerManager

variable {F : Type}

def init (now : UInt64) : TimerManager F where
  objects _ := none
  made := 0
  timers := []
  tickled := false
  previouseTime := now

section Operations

variable (tm : TimerManager F)

/-- The order of `timers_`. -/
def less (x y : ℕ) : Bool := Timer.comparator (tm.objects x) (tm.objects y)

/-- Write to an object. -/
def write (self : ℕ) (t : Timer F) : TimerManager F :=
  { tm with objects := Function.update tm.objects self (some t) }

/-- `timers_.erase(timers_.find(shared_from_this()))`, where the position that was found is one of
an element. -/
def eraseFound (self : ℕ) : Option (TimerManager F) :=
  (OrderedSet.erase (OrderedSet.find tm.less self tm.timers) tm.timers).map
    fun timers => { tm with timers := timers }

/-- `timers_.insert(val)`. -/
def insertTimer (val : ℕ) : TimerManager F :=
  { tm with timers := OrderedSet.insert tm.less val tm.timers }

/-- `addTimer` with a lock: whether `OnTimerInsertedAtFront` is called. -/
def addTimerLocked (val : ℕ) : Bool × TimerManager F :=
  let tm := tm.insertTimer val
  let atFront := OrderedSet.find tm.less val tm.timers = tm.timers ∧ ¬ tm.tickled
  (atFront, { tm with tickled := tm.tickled || decide atFront })

def addTimer (address : ℕ) (ms : UInt64) (cb : F) (recurring : Bool) (now : UInt64) :
    ℕ × Bool × TimerManager F :=
  let timer := tm.made
  let tm := { tm with made := tm.made + 1 }.write timer
    { address := address, recurring := recurring, ms := ms, next := now + ms, cb := some cb }
  (timer, tm.addTimerLocked timer)

def cancel (self : ℕ) : Option (Bool × TimerManager F) := do
  let t ← tm.objects self
  if t.cb.isSome then
    let tm := tm.write self { t with cb := none }
    let tm ← tm.eraseFound self
    return (true, tm)
  else
    return (false, tm)

def refresh (self : ℕ) (now : UInt64) : Option (Bool × TimerManager F) := do
  let t ← tm.objects self
  if ¬ t.cb.isSome then
    return (false, tm)
  if OrderedSet.find tm.less self tm.timers = [] then
    return (false, tm)
  let tm ← tm.eraseFound self
  let tm := tm.write self { t with next := now + t.ms }
  return (true, tm.insertTimer self)

def reset (self : ℕ) (ms : UInt64) (fromNow : Bool) (now : UInt64) :
    Option (Bool × TimerManager F) := do
  let t ← tm.objects self
  if ms = t.ms ∧ ¬ fromNow then
    return (true, tm)
  if ¬ t.cb.isSome then
    return (true, tm)
  if OrderedSet.find tm.less self tm.timers = [] then
    return (false, tm)
  let tm ← tm.eraseFound self
  let start := if fromNow then now else t.next - t.ms
  let tm := tm.write self { t with ms := ms, next := start + ms }
  return (true, (tm.addTimerLocked self).2)

/-- The time until the first timer, all ones when there is none. -/
def getNextTimer (now : UInt64) : Option (UInt64 × TimerManager F) :=
  let tm := { tm with tickled := false }
  match tm.timers with
  | [] => some (~~~0, tm)
  | next :: _ => do
    let t ← tm.objects next
    return (if now ≥ t.next then 0 else t.next - now, tm)

/-- Whether the clock was set back by more than an hour. -/
def detectClockRolllover (now : UInt64) : Bool × TimerManager F :=
  (now < tm.previouseTime ∧ now < tm.previouseTime - 60 * 60 * 1000,
    { tm with previouseTime := now })

/-- The loop over the timers taken out of the set: their callbacks; recurring ones are inserted
again. -/
def expireAll (now : UInt64) :
    List ℕ → TimerManager F → Option (List (ℕ × Option F) × TimerManager F)
  | [], tm => some ([], tm)
  | timer :: expired, tm => do
    let t ← tm.objects timer
    let tm := if t.recurring then
        (tm.write timer { t with next := now + t.ms }).insertTimer timer
      else tm.write timer { t with cb := none }
    let (cbs, tm) ← expireAll now expired tm
    return ((timer, t.cb) :: cbs, tm)

/-- The object that stands for the time `now`. -/
def nowTimer (now : UInt64) (address : ℕ) : Timer F where
  address := address
  recurring := false
  ms := 0
  next := now
  cb := none

/-- The timer is due at `now`, not earlier. -/
def dueAt (now : UInt64) (timer : ℕ) : Bool := (tm.objects timer).map (·.next) = some now

/-- The position in `timers_` up to which timers expire. -/
def expiredTo (now : UInt64) (address : ℕ) (rollover : Bool) : List ℕ :=
  let it := if rollover then []
    else OrderedSet.lowerBound
      (fun y => Timer.comparator (tm.objects y) (some (nowTimer now address))) tm.timers
  it.dropWhile (tm.dueAt now)

def listExpiredCb (now : UInt64) (address : ℕ) :
    Option (List (ℕ × Option F) × TimerManager F) :=
  match tm.timers with
  | [] => some ([], tm)
  | first :: _ => do
    let (rollover, tm) := tm.detectClockRolllover now
    let t ← tm.objects first
    if ¬ rollover ∧ t.next > now then
      return ([], tm)
    let it := tm.expiredTo now address rollover
    let expired := tm.timers.take (tm.timers.length - it.length)
    expireAll now expired { tm with timers := it }

/-- No object is at the address. -/
def unused (address : ℕ) : Bool :=
  (List.range tm.made).all fun x => (tm.objects x).map (·.address) ≠ some address

/-- The last pointer to an object outside `timers_` is gone. -/
def release (self : ℕ) : Option (TimerManager F) := do
  let _ ← tm.objects self
  if self ∈ tm.timers then none
  else some { tm with objects := Function.update tm.objects self none }

/-- A call. -/
def act : TimerAction F → Option (TimerResult F × TimerManager F)
  | .addTimer address ms cb recurring now =>
    if tm.unused address then
      let (timer, atFront, tm) := tm.addTimer address ms cb recurring now
      some (.added timer atFront, tm)
    else none
  | .cancel self => (tm.cancel self).map fun (b, tm) => (.returned b, tm)
  | .refresh self now => (tm.refresh self now).map fun (b, tm) => (.returned b, tm)
  | .reset self ms fromNow now =>
    (tm.reset self ms fromNow now).map fun (b, tm) => (.returned b, tm)
  | .getNextTimer now => (tm.getNextTimer now).map fun (ms, tm) => (.next ms, tm)
  | .listExpiredCb now address =>
    (tm.listExpiredCb now address).map fun (cbs, tm) => (.expired cbs, tm)
  | .release self => (tm.release self).map fun tm => (.released, tm)

end Operations

variable (F) in
/-- A timer manager as a machine. -/
def machine : Machine (TimerManager F) (TimerAction F) :=
  ⟨fun tm a => (tm.act a).map Prod.snd⟩

end TimerManager

end KvRaft
