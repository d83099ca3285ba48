import KvRaft.Fiber.Expiry
import KvRaft.Word.Convert

/-!
# The idle loop

`IOManager::idle` waits in `epoll_wait` for the time that `getNextTimer` has returned, but for
five seconds at most, and waits again when a signal comes in between.  The time has 64 bits and is
narrowed to an `int` before it is compared with the limit; a negative timeout makes `epoll_wait`
block without a limit.

* `IOManager.idle_timeouts_iff` : when no timeout is negative, or longer than five seconds or than
  the time that was returned.
-/

namespace KvRaft

namespace IOManager

open Word

/-- `MAX_TIMEOUT` -/
def maxTimeout : Int32 := 5000

/-- What `next_timeout` is set to before `epoll_wait`. -/
def limitTimeout (nextTimeout : UInt64) : UInt64 :=
  if nextTimeout ≠ ~~~0 then widen (min (narrow nextTimeout) maxTimeout) else widen maxTimeout

/-- The loop around `epoll_wait`: the timeouts that are passed to it, if it is interrupted so many
times. -/
def epollTimeouts : ℕ → UInt64 → List Int32
  | 0, nextTimeout => [narrow (limitTimeout nextTimeout)]
  | interrupts + 1, nextTimeout =>
    let nextTimeout := limitTimeout nextTimeout
    narrow nextTimeout :: epollTimeouts interrupts nextTimeout

section Rounds

variable {F : Type} (tm : TimerManager F) (now : UInt64) (pendingEventCnt : ℤ)
  (schedulerStopping : Bool)

/-- `stopping(timeout)`: its result, and what it sets `timeout` to. -/
def stopping : Option (Bool × UInt64 × TimerManager F) :=
  (tm.getNextTimer now).map fun (timeout, tm) =>
    (timeout = ~~~0 ∧ pendingEventCnt = 0 ∧ schedulerStopping, timeout, tm)

/-- A round of `idle` up to the end of the wait: the timeouts passed to `epoll_wait`. -/
def idleWait (interrupts : ℕ) : Option (List Int32) :=
  (stopping tm now pendingEventCnt schedulerStopping).map fun (stop, nextTimeout, _) =>
    if stop then [] else epollTimeouts interrupts nextTimeout

end Rounds

/-- **The loop does not oversleep**: no timeout blocks without a limit, or for longer than five
seconds or than the time to the next timer. -/
def InTime (next : UInt64) (timeouts : List Int32) : Prop :=
  ∀ timeout ∈ timeouts, 0 ≤ timeout.toInt ∧ timeout.toInt ≤ 5000 ∧ timeout.toInt ≤ next.toNat

/-! ### The timeouts -/

variable {v : UInt64}

theorem toInt_min (a b : Int32) : (min a b).toInt = min a.toInt b.toInt := by
  change (if a ≤ b then a else b).toInt = _
  have hle : a ≤ b ↔ a.toInt ≤ b.toInt := Int32.le_iff_toInt_le
  split_ifs with h
  · exact (min_eq_left (hle.1 h)).symm
  · exact (min_eq_right (le_of_not_ge fun hc => h (hle.2 hc))).symm

/-- The first timeout. -/
theorem toInt_limitTimeout (hv : v ≠ ~~~0) :
    (narrow (limitTimeout v)).toInt = min (narrow v).toInt 5000 := by
  rw [limitTimeout, if_pos hv, narrow_widen, toInt_min]
  rfl

/-- The time is that of no timer, or as an `int` it is not negative. -/
def Fits (v : UInt64) : Prop := v = ~~~0 ∨ v.toNat % 2 ^ 32 < 2 ^ 31

/-- What the first timeout is then. -/
theorem toNat_limitTimeout (hv : Fits v) : (limitTimeout v).toNat =
    if v = ~~~0 then 5000 else min (v.toNat % 2 ^ 32) 5000 := by
  split_ifs with hnone
  · rw [limitTimeout, if_neg (not_not.2 hnone)]
    rfl
  · have hlow := hv.resolve_left hnone
    have hmin : (min (narrow v) maxTimeout).toInt = min ((v.toNat % 2 ^ 32 : ℕ) : ℤ) 5000 := by
      rw [toInt_min, toInt_narrow_of_lt hlow]
      rfl
    have hwiden := toNat_widen (min (narrow v) maxTimeout)
    rw [limitTimeout, if_pos hnone]
    rw [hmin] at hwiden
    split_ifs at hwiden <;> omega

theorem toNat_limitTimeout_le (hv : Fits v) :
    (limitTimeout v).toNat ≤ 5000 ∧ (limitTimeout v).toNat ≤ v.toNat := by
  rw [toNat_limitTimeout hv]
  split_ifs with hnone
  · subst hnone
    decide
  · have := Nat.mod_le v.toNat (2 ^ 32)
    omega

theorem fits_limitTimeout (hv : Fits v) : Fits (limitTimeout v) := by
  have := (toNat_limitTimeout_le hv).1
  exact .inr (by omega)

/-- A retry passes the same timeout. -/
theorem limitTimeout_limitTimeout (hv : Fits v) :
    limitTimeout (limitTimeout v) = limitTimeout v := by
  have hle := (toNat_limitTimeout_le hv).1
  have hsome : limitTimeout v ≠ ~~~0 := fun heq => absurd (heq ▸ hle) (by decide)
  rw [← UInt64.toNat_inj, toNat_limitTimeout (fits_limitTimeout hv), if_neg hsome]
  omega

/-- All timeouts are equal. -/
theorem eq_of_mem_epollTimeouts {interrupts : ℕ} {timeout : Int32} (hv : Fits v)
    (ht : timeout ∈ epollTimeouts interrupts v) : timeout = narrow (limitTimeout v) := by
  induction interrupts generalizing v with
  | zero => exact List.mem_singleton.1 ht
  | succ interrupts ih =>
    rcases List.mem_cons.1 ht with rfl | ht
    · rfl
    · rw [ih (fits_limitTimeout hv) ht, limitTimeout_limitTimeout hv]

/-- **The timeouts for a time**, on the first call and on every retry. -/
theorem inTime_epollTimeouts_iff (interrupts : ℕ) (v : UInt64) :
    InTime v (epollTimeouts interrupts v) ↔ Fits v := by
  constructor
  · intro h
    by_contra hv
    obtain ⟨hsome, hlow⟩ := not_or.1 hv
    have hfirst : narrow (limitTimeout v) ∈ epollTimeouts interrupts v := by
      cases interrupts <;> exact List.mem_cons_self
    have hneg := toInt_narrow_of_ge (not_lt.1 hlow)
    have hpos := (h _ hfirst).1
    rw [toInt_limitTimeout hsome, hneg] at hpos
    omega
  · intro hv timeout ht
    obtain rfl := eq_of_mem_epollTimeouts hv ht
    obtain ⟨hmax, hle⟩ := toNat_limitTimeout_le hv
    rw [toInt_narrow_of_lt (by omega)]
    omega

/-! ### The rounds -/

variable {F : Type} {tm : TimerManager F}

/-- The time from `now` to the first timer fits: it is less than `2 ^ 31` modulo `2 ^ 32`, or the
number that stands for no timer. -/
def FirstFits (tm : TimerManager F) (now : UInt64) : Prop :=
  ∀ x t, tm.timers.head? = some x → tm.objects x = some t →
    t.next.toNat - now.toNat = 2 ^ 64 - 1 ∨ (t.next.toNat - now.toNat) % 2 ^ 32 < 2 ^ 31

/-- What `getNextTimer` returns. -/
theorem getNextTimer_eq (h : tm.IsSet) (now : UInt64) :
    ∃ next, tm.getNextTimer now = some (next, { tm with tickled := false }) ∧
      (Fits next ↔ FirstFits tm now) := by
  cases htimers : tm.timers with
  | nil =>
    refine ⟨~~~0, by simp [TimerManager.getNextTimer, htimers], iff_of_true (.inl rfl) ?_⟩
    intro x t hx
    simp [htimers] at hx
  | cons x rest =>
    obtain ⟨t, ht⟩ := h.live x (.inl (htimers ▸ List.mem_cons_self))
    refine ⟨if now ≥ t.next then 0 else t.next - now, ?_, ?_⟩
    · simp [TimerManager.getNextTimer, htimers, ht]
    have hnext : (if now ≥ t.next then 0 else t.next - now).toNat =
        t.next.toNat - now.toNat := by
      split_ifs with hle
      · exact (Nat.sub_eq_zero_of_le (UInt64.le_iff_toNat_le.1 hle)).symm
      · exact UInt64.toNat_sub_of_le _ _ (UInt64.le_of_lt (UInt64.not_le.1 hle))
    have hnone : (~~~0 : UInt64).toNat = 2 ^ 64 - 1 := rfl
    rw [Fits, ← UInt64.toNat_inj, hnext, hnone]
    constructor
    · intro hfits y u hy hu
      obtain rfl : x = y := by simpa [htimers] using hy
      obtain rfl := Option.some.inj (ht.symm.trans hu)
      exact hfits
    · exact fun hfirst => hfirst x t (by rw [htimers]; rfl) ht

/-- **The idle loop never oversleeps** exactly if the time to the first timer fits. -/
theorem idle_timeouts_iff (h : tm.IsSet) (now : UInt64) (pendingEventCnt : ℤ)
    (schedulerStopping : Bool) (interrupts : ℕ) : ∃ next tm' timeouts,
      tm.getNextTimer now = some (next, tm') ∧
      idleWait tm now pendingEventCnt schedulerStopping interrupts = some timeouts ∧
      (InTime next timeouts ↔ FirstFits tm now) := by
  obtain ⟨next, heq, hfits⟩ := getNextTimer_eq h now
  rw [← hfits]
  have hstopping : stopping tm now pendingEventCnt schedulerStopping =
      some (decide (next = ~~~0 ∧ pendingEventCnt = 0 ∧ schedulerStopping = true), next,
        { tm with tickled := false }) := by
    rw [stopping, heq]
    rfl
  by_cases hstop : next = ~~~0 ∧ pendingEventCnt = 0 ∧ schedulerStopping = true
  · refine ⟨next, _, [], heq, ?_, ?_⟩
    · rw [idleWait, hstopping, decide_eq_true hstop]
      rfl
    · exact iff_of_true (fun _ ht => (List.not_mem_nil ht).elim) (.inl hstop.1)
  · refine ⟨next, _, epollTimeouts interrupts next, heq, ?_, inTime_epollTimeouts_iff _ _⟩
    rw [idleWait, hstopping, decide_eq_false hstop]
    rfl

/-- Six seconds to the next timer: five are waited, again after a signal. -/
theorem idle_timeouts_sixSeconds : ∃ tm : TimerManager String,
    (TimerManager.machine String).run (.init 0) [.addTimer 80 7000 "a" false 100] = some tm ∧
    ∃ next tm' timeouts, tm.getNextTimer 1100 = some (next, tm') ∧
      idleWait tm 1100 0 false 1 = some timeouts ∧ timeouts = [5000, 5000] ∧
      InTime next timeouts := by
  have h : ((TimerManager.machine String).run (.init 0) [.addTimer 80 7000 "a" false 100]).bind
      (fun tm => (idleWait tm 1100 0 false 1).map fun timeouts =>
        ((tm.timers, (tm.objects 0).map Timer.next), timeouts)) =
      some (([0], some 7100), [5000, 5000]) := by decide +kernel
  obtain ⟨tm, htm, h⟩ := Option.bind_eq_some_iff.1 h
  obtain ⟨timeouts, hwait, h⟩ := Option.map_eq_some_iff.1 h
  obtain ⟨hstate, rfl⟩ := Prod.mk.inj h
  obtain ⟨htimers, hnext⟩ := Prod.mk.inj hstate
  have hset :=
    ((TimerManager.sound_init 0).reachable (Machine.reachable_of_run htm)).sound.isSet
  obtain ⟨next, tm', timeouts', heq, hwait', hiff⟩ := idle_timeouts_iff hset 1100 0 false 1
  obtain rfl := Option.some.inj (hwait.symm.trans hwait')
  refine ⟨tm, htm, next, tm', _, heq, hwait, rfl, hiff.2 fun x t hx ht => ?_⟩
  obtain rfl : 0 = x := by simpa [htimers] using hx
  rw [ht] at hnext
  rw [Option.some.inj hnext]
  exact .inr (by decide)

/-- A sleep of 25 days makes the loop wait without a limit. -/
theorem not_idle_timeouts : ¬ ∀ tm : TimerManager String,
    (TimerManager.machine String).Reachable (.init 0) tm → ∀ now interrupts next tm' timeouts,
      tm.getNextTimer now = some (next, tm') →
      idleWait tm now 0 false interrupts = some timeouts → InTime next timeouts := by
  intro hall
  have h : ((TimerManager.machine String).run (.init 0)
      [.addTimer 80 2160000000 "a" false 100]).bind (fun tm => (tm.getNextTimer 100).bind fun p =>
        (idleWait tm 100 0 false 0).map fun timeouts => (p.1, timeouts)) =
      some (2160000000, [-2134967296]) := by decide +kernel
  obtain ⟨tm, htm, h⟩ := Option.bind_eq_some_iff.1 h
  obtain ⟨⟨next, tm'⟩, heq, h⟩ := Option.bind_eq_some_iff.1 h
  obtain ⟨timeouts, hwait, h⟩ := Option.map_eq_some_iff.1 h
  obtain ⟨-, rfl⟩ := Prod.mk.inj h
  have hin := hall tm (Machine.reachable_of_run htm) 100 0 next tm' _ heq hwait
  exact absurd (hin _ List.mem_cons_self).1 (by decide)

end IOManager

end KvRaft
