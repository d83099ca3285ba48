import KvRaft.Fiber.Timer
import KvRaft.Word.Convert
import Mathlib.Tactic.SplitIfs

/-!
# Hooked sleeps

The hooked `sleep`, `usleep` and `nanosleep` set a timer that schedules the fiber again, and
suspend it.  Timers count in ms: `sleep` multiplies in 32 bits, `usleep` rounds down, and
`nanosleep` rounds down and keeps 32 bits with a sign, which is then extended to 64 bits.

* `SleepCall.lasts_iff` : the calls after which the fiber sleeps for at least the time it asked
  for.
-/

namespace KvRaft

/-- A valid `timespec`. -/
structure Timespec where
  sec : Int64
  nsec : Int64
  sec_nonneg : 0 ≤ sec.toInt
  nsec_nonneg : 0 ≤ nsec.toInt
  nsec_lt : nsec.toInt < 10 ^ 9

/-- The whole milliseconds of a `timespec`. -/
def Timespec.ms (req : Timespec) : ℕ := req.sec.toInt.toNat * 1000 + req.nsec.toInt.toNat / 10 ^ 6

/-- A call of one of the hooked functions. -/
inductive SleepCall where
  | sleep (seconds : UInt32)
  | usleep (usec : UInt32)
  | nanosleep (req : Timespec)

namespace SleepCall

/-- The time passed to `addTimer`, in ms. -/
def delay : SleepCall → UInt64
  | .sleep seconds => (seconds * 1000).toUInt64
  | .usleep usec => (usec / 1000).toUInt64
  | .nanosleep req =>
    let timeoutS : Int32 := (req.sec * 1000 + req.nsec / 1000 / 1000).toInt32
    Word.widen timeoutS

/-- The time that is asked for, in ns. -/
def requested : SleepCall → ℕ
  | .sleep seconds => seconds.toNat * 10 ^ 9
  | .usleep usec => usec.toNat * 10 ^ 3
  | .nanosleep req => req.sec.toInt.toNat * 10 ^ 9 + req.nsec.toInt.toNat

/-- **The fiber sleeps long enough**: the delay, and the deadline, are not earlier than what was
asked for.  The times are in ms. -/
def Lasts (call : SleepCall) (now next : UInt64) : Prop :=
  call.requested ≤ call.delay.toNat * 10 ^ 6 ∧
    now.toNat * 10 ^ 6 + call.requested ≤ next.toNat * 10 ^ 6

/-- The call and the clock fit: the milliseconds are whole ones, fit in what they are computed in,
and the deadline does not wrap around.  A `nanosleep` whose milliseconds are negative as an `int`
sleeps for almost `2 ^ 64` of them, which is long enough for most, if the deadline does not wrap
around. -/
def Fits (now : UInt64) : SleepCall → Prop
  | .sleep seconds => seconds.toNat * 1000 < 2 ^ 32 ∧ now.toNat + seconds.toNat * 1000 < 2 ^ 64
  | .usleep usec => usec.toNat % 1000 = 0 ∧ now.toNat + usec.toNat / 1000 < 2 ^ 64
  | .nanosleep req =>
    req.ms < 2 ^ 31 ∧ req.nsec.toInt.toNat % 10 ^ 6 = 0 ∧ now.toNat + req.ms < 2 ^ 64 ∨
      2 ^ 31 ≤ req.ms % 2 ^ 32 ∧ now.toNat < 2 ^ 32 - req.ms % 2 ^ 32 ∧
        requested (.nanosleep req) ≤ (2 ^ 64 - (2 ^ 32 - req.ms % 2 ^ 32)) * 10 ^ 6

/-! ### The delays -/

theorem toNat_delay_sleep (seconds : UInt32) :
    (delay (.sleep seconds)).toNat = seconds.toNat * 1000 % 2 ^ 32 := by
  simp [delay]

theorem toNat_delay_usleep (usec : UInt32) : (delay (.usleep usec)).toNat = usec.toNat / 1000 := by
  simp [delay]

/-- The milliseconds are computed modulo `2 ^ 32`. -/
theorem toInt_timeoutS (req : Timespec) :
    ((req.sec * 1000 + req.nsec / 1000 / 1000).toInt32.toInt) = (req.ms : ℤ).bmod (2 ^ 32) := by
  have hthousand : (1000 : Int64).toInt = 1000 := rfl
  have hnsec : (req.nsec / 1000 / 1000).toInt = req.nsec.toInt / 1000 / 1000 := by
    have hnonneg := req.nsec_nonneg
    rw [Int64.toInt_div_of_ne_right _ _ (by decide), Int64.toInt_div_of_ne_right _ _ (by decide),
      hthousand, Int.tdiv_eq_ediv_of_nonneg hnonneg, Int.tdiv_eq_ediv_of_nonneg (by omega)]
  have hms : req.sec.toInt * 1000 + req.nsec.toInt / 1000 / 1000 = req.ms := by
    have hsec := req.sec_nonneg
    have hnonneg := req.nsec_nonneg
    rw [Timespec.ms]
    omega
  rw [Int64.toInt_toInt32, Int64.toInt_add, Int64.toInt_mul, hnsec, hthousand,
    Int.bmod_add_bmod, hms]
  exact Int.bmod_bmod_of_dvd ⟨2 ^ 32, rfl⟩

/-- The delay of `nanosleep`: the low bits, with the sign extended. -/
theorem toNat_delay_nanosleep (req : Timespec) : (delay (.nanosleep req)).toNat =
    if req.ms % 2 ^ 32 < 2 ^ 31 then req.ms % 2 ^ 32
    else 2 ^ 64 - (2 ^ 32 - req.ms % 2 ^ 32) := by
  have hwiden := Word.toNat_widen (req.sec * 1000 + req.nsec / 1000 / 1000).toInt32
  rw [toInt_timeoutS, Int.bmod_def] at hwiden
  change (Word.widen _).toNat = _
  split_ifs at hwiden ⊢ <;> omega

/-- The deadline is late enough if the delay is, and the sum does not wrap around. -/
theorem lasts_iff_delay (call : SleepCall) (now : UInt64) : call.Lasts now (now + call.delay) ↔
    call.requested ≤ call.delay.toNat * 10 ^ 6 ∧ now.toNat + call.delay.toNat < 2 ^ 64 := by
  rw [Lasts, UInt64.toNat_add]
  have hnow := now.toNat_lt
  have hdelay := call.delay.toNat_lt
  omega

/-- **Which calls sleep long enough.** -/
theorem lasts_add_iff (call : SleepCall) (now : UInt64) :
    call.Lasts now (now + call.delay) ↔ call.Fits now := by
  rw [lasts_iff_delay]
  cases call with
  | sleep seconds =>
    rw [toNat_delay_sleep, requested, Fits]
    omega
  | usleep usec =>
    rw [toNat_delay_usleep, requested, Fits]
    omega
  | nanosleep req =>
    rw [toNat_delay_nanosleep, Fits, requested]
    have hms : req.sec.toInt.toNat * 10 ^ 9 + req.nsec.toInt.toNat =
        req.ms * 10 ^ 6 + req.nsec.toInt.toNat % 10 ^ 6 := by
      rw [Timespec.ms]
      omega
    rw [hms]
    have hrest := Nat.mod_lt req.nsec.toInt.toNat (show 0 < 10 ^ 6 by decide)
    split_ifs with hlow <;> omega

/-- The timer that is set. -/
theorem objects_addTimer {F : Type} (tm : TimerManager F) (address : ℕ) (ms : UInt64) (cb : F)
    (now : UInt64) : (tm.addTimer address ms cb false now).2.2.objects tm.made =
      some ⟨address, false, ms, now + ms, some cb⟩ := Function.update_self ..

/-- **A hooked sleep lasts long enough exactly if the call and the clock fit.** -/
theorem lasts_iff {F : Type} (call : SleepCall) (tm : TimerManager F) (address : ℕ) (cb : F)
    (now : UInt64) : ∃ t,
      (tm.addTimer address call.delay cb false now).2.2.objects tm.made = some t ∧
      (call.Lasts now t.next ↔ call.Fits now) :=
  ⟨_, objects_addTimer tm address call.delay cb now, lasts_add_iff call now⟩

/-- A sleep of half a millisecond is over at once. -/
theorem not_lasts : ¬ ∀ (call : SleepCall) (tm : TimerManager String) (address : ℕ)
    (cb : String) (now : UInt64) (t : Timer String),
    (tm.addTimer address call.delay cb false now).2.2.objects tm.made = some t →
      call.Lasts now t.next := by
  intro h
  have hlasts := h (.usleep 500) (.init 0) 80 "fiber" 7 _ (objects_addTimer _ _ _ _ _)
  exact absurd ((lasts_add_iff _ _).1 hlasts).1 (by decide)

end SleepCall

end KvRaft
