import KvRaft.Fiber.TimerSet

/-!
# Expired timers

`listExpiredCb` should hand out the callbacks of the timers that are due at the time it has read,
and all of them only if the clock was set back by more than an hour
(`TimerManager.ExpiresDue`).

The test for this subtracts an hour from the previous reading without a sign.  In the first hour
of the clock the difference wraps around, and any reading below the previous one passes for a
clock that was set back (`TimerManager.detectClockRolllover_iff`).  Threads read the clock before
they take the lock, so that readings may come in another order.

* `TimerManager.expiresDue_iff` : when exactly the timers that are due expire.
-/

namespace KvRaft

/-- A timer after it has expired. -/
def Timer.expire {F : Type} (now : UInt64) (t : Timer F) : Timer F :=
  if t.recurring then { t with next := now + t.ms } else { t with cb := none }

namespace TimerManager

variable {F : Type} {tm tm' : TimerManager F} {out : List ℕ} {x y : ℕ} {t : Timer F}
  {now : UInt64}

/-! ### Sets of timers -/

/-- The timers of the set, in order, and those that are `out` of it exist, at addresses of their
own. -/
structure IsSetBut (tm : TimerManager F) (out : List ℕ) : Prop where
  sorted : OrderedSet.Sorted tm.less tm.timers
  live : ∀ x, x ∈ tm.timers ∨ x ∈ out → ∃ t, tm.objects x = some t
  notMem : ∀ x ∈ out, x ∉ tm.timers
  address : ∀ x y t u, tm.objects x = some t → tm.objects y = some u →
    t.address = u.address → x = y

/-- `timers_` is a set of timers: they exist, at addresses of their own, and are in order. -/
abbrev IsSet (tm : TimerManager F) : Prop := tm.IsSetBut []

/-- The set is one in every run. -/
theorem Sound.isSet (h : tm.Sound) : tm.IsSet where
  sorted := h.sorted
  live x hx := by
    obtain ⟨t, ht, -⟩ := h.mem_timers.1 (hx.resolve_right List.not_mem_nil)
    exact ⟨t, ht⟩
  notMem x hx := absurd hx List.not_mem_nil
  address := h.address

/-- Objects at distinct addresses have distinct keys. -/
theorem IsSetBut.key_ne (h : tm.IsSetBut out) {t u : Timer F} (ht : tm.objects x = some t)
    (hu : tm.objects y = some u) (hne : y ≠ x) :
    Timer.key (tm.objects y) ≠ Timer.key (tm.objects x) := by
  rw [ht, hu]
  intro heq
  have hpair := congrArg ofLex (WithBot.coe_inj.1 heq)
  exact hne (h.address y x u t hu ht (congrArg Prod.snd hpair))

/-- A timer that is out of the set is written to, and keeps its address. -/
theorem IsSetBut.write (h : tm.IsSetBut out) (hx : x ∈ out) (ht : tm.objects x = some t)
    {u : Timer F} (hu : u.address = t.address) : (tm.write x u).IsSetBut out := by
  have hold : ∀ y v, (tm.write x u).objects y = some v →
      ∃ v₀, tm.objects y = some v₀ ∧ v.address = v₀.address := by
    intro y v hv
    rw [write_objects] at hv
    split_ifs at hv with hy
    · cases hv
      exact ⟨t, hy ▸ ht, hu⟩
    · exact ⟨v, hv, rfl⟩
  refine ⟨sorted_write h.sorted (h.notMem x hx) u, fun y hy => ?_, h.notMem,
    fun y z v w hv hw heq => ?_⟩
  · rw [write_objects]
    split_ifs
    · exact ⟨u, rfl⟩
    · exact h.live y hy
  · obtain ⟨v₀, hv₀, hv⟩ := hold y v hv
    obtain ⟨w₀, hw₀, hw⟩ := hold z w hw
    exact h.address y z v₀ w₀ hv₀ hw₀ (hv ▸ hw ▸ heq)

/-- A timer that is out of the set is left out. -/
theorem IsSetBut.drop (h : tm.IsSetBut (x :: out)) : tm.IsSetBut out :=
  ⟨h.sorted, fun y hy => h.live y (hy.imp_right (List.mem_cons_of_mem x)),
    fun y hy => h.notMem y (List.mem_cons_of_mem x hy), h.address⟩

/-- A timer that is out of the set is inserted. -/
theorem IsSetBut.insertTimer (h : tm.IsSetBut (x :: out)) (hx : x ∉ out) :
    (tm.insertTimer x).IsSetBut out ∧
      ∀ y, y ∈ (tm.insertTimer x).timers ↔ y = x ∨ y ∈ tm.timers := by
  obtain ⟨t, ht⟩ := h.live x (.inr List.mem_cons_self)
  have hxs := h.notMem x List.mem_cons_self
  obtain ⟨hsorted, hmem⟩ := h.sorted.insert tm.byKey (x := x) fun y hy => by
    obtain ⟨u, hu⟩ := h.live y (.inl hy)
    exact h.key_ne ht hu fun heq => hxs (heq ▸ hy)
  refine ⟨⟨hsorted, fun y hy => ?_, fun y hy => ?_, h.address⟩, hmem⟩
  · rcases hy with hy | hy
    · rcases (hmem y).1 hy with rfl | hy
      · exact ⟨t, ht⟩
      · exact h.live y (.inl hy)
    · exact h.live y (.inr (List.mem_cons_of_mem x hy))
  · change y ∉ OrderedSet.insert tm.less x tm.timers
    rw [hmem, not_or]
    exact ⟨fun heq => hx (heq ▸ hy), h.notMem y (List.mem_cons_of_mem x hy)⟩

/-! ### The loop -/

/-- What the body of the loop does to a timer. -/
theorem IsSetBut.expireOne (now : UInt64) (h : tm.IsSetBut (x :: out)) (hx : x ∉ out)
    (ht : tm.objects x = some t) : ∃ tm₁ : TimerManager F,
      (if t.recurring = true then (tm.write x { t with next := now + t.ms }).insertTimer x
        else tm.write x { t with cb := none }) = tm₁ ∧ tm₁.IsSetBut out ∧
      tm₁.objects x = some (t.expire now) ∧ (∀ y, y ≠ x → tm₁.objects y = tm.objects y) ∧
      ∀ y, y ∈ tm₁.timers ↔ y ∈ tm.timers ∨ y = x ∧ t.recurring = true := by
  have hself : ∀ u : Timer F, (tm.write x u).objects x = some u := fun u => by
    rw [write_objects, if_pos rfl]
  have hother : ∀ (u : Timer F) (y : ℕ), y ≠ x → (tm.write x u).objects y = tm.objects y :=
    fun u y hy => by rw [write_objects, if_neg hy]
  refine ⟨_, rfl, ?_⟩
  split_ifs with hrec
  · have h₁ := h.write List.mem_cons_self ht (u := { t with next := now + t.ms }) rfl
    obtain ⟨h₂, hmem⟩ := h₁.insertTimer hx
    refine ⟨h₂, ?_, hother _, fun y => ?_⟩
    · rw [Timer.expire, if_pos hrec]
      exact hself _
    · rw [hmem, and_iff_left hrec]
      exact or_comm
  · have h₁ := h.write List.mem_cons_self ht (u := { t with cb := none }) rfl
    refine ⟨h₁.drop, ?_, hother _, fun y => ?_⟩
    · rw [Timer.expire, if_neg hrec]
      exact hself _
    · exact ⟨.inl, fun hy => hy.resolve_right fun hc => hrec hc.2⟩

/-- **The loop over the timers taken out of the set.** -/
theorem IsSetBut.expireAll (now : UInt64) {expired : List ℕ} (h : tm.IsSetBut expired)
    (hnodup : expired.Nodup) : ∃ tm',
      TimerManager.expireAll now expired tm =
        some (expired.map fun x => (x, (tm.objects x).bind Timer.cb), tm') ∧ tm'.IsSet ∧
      (∀ x ∈ expired, tm'.objects x = (tm.objects x).map (Timer.expire now)) ∧
      (∀ x ∉ expired, tm'.objects x = tm.objects x) ∧
      ∀ x, x ∈ tm'.timers ↔ x ∈ tm.timers ∨
        x ∈ expired ∧ ∃ t, tm.objects x = some t ∧ t.recurring = true := by
  induction expired generalizing tm with
  | nil => exact ⟨tm, rfl, h, by simp, fun _ _ => rfl, by simp⟩
  | cons x expired ih =>
    obtain ⟨hx, hrest⟩ := List.nodup_cons.1 hnodup
    obtain ⟨t, ht⟩ := h.live x (.inr List.mem_cons_self)
    obtain ⟨tm₁, htm₁, h₁, hself, hother, hmem⟩ := h.expireOne now hx ht
    obtain ⟨tm', heq, hset, hexpired, hkept, hmem'⟩ := ih h₁ hrest
    have hne : ∀ y ∈ expired, y ≠ x := fun y hy hyx => hx (hyx ▸ hy)
    refine ⟨tm', ?_, hset, fun y hy => ?_, fun y hy => ?_, fun y => ?_⟩
    · have hcbs : (expired.map fun y => (y, (tm₁.objects y).bind Timer.cb)) =
          expired.map fun y => (y, (tm.objects y).bind Timer.cb) :=
        List.map_congr_left fun y hy => by rw [hother y (hne y hy)]
      simp [TimerManager.expireAll, ht, htm₁, heq, hcbs]
    · rcases List.mem_cons.1 hy with rfl | hy
      · rw [hkept y hx, hself, ht, Option.map_some]
      · rw [hexpired y hy, hother y (hne y hy)]
    · obtain ⟨hyx, hy⟩ := not_or.1 (fun hc => hy (List.mem_cons.2 hc))
      rw [hkept y hy, hother y hyx]
    · rw [hmem', hmem, List.mem_cons]
      by_cases hyx : y = x
      · subst hyx
        simp [hx, ht]
      · simp [hyx, hother y hyx]

/-! ### The cut -/

/-- The timer is in the set and due. -/
def Due (tm : TimerManager F) (now : UInt64) (x : ℕ) : Prop :=
  x ∈ tm.timers ∧ ∃ t, tm.objects x = some t ∧ t.next ≤ now

/-- The first key of a timer that is not due. -/
def dueKey (now : UInt64) : WithBot (ℕ ×ₗ ℕ) := ((toLex (now.toNat + 1, 0) : ℕ ×ₗ ℕ) : WithBot _)

/-- The key of the timer is below the first one that is not due. -/
def dueBefore (tm : TimerManager F) (now : UInt64) (x : ℕ) : Bool :=
  Timer.key (tm.objects x) < dueKey now

theorem dueBefore_iff (ht : tm.objects x = some t) :
    tm.dueBefore now x = true ↔ t.next ≤ now := by
  rw [dueBefore, decide_eq_true_eq, ht, Timer.key, dueKey, WithBot.coe_lt_coe,
    Prod.Lex.toLex_lt_toLex, UInt64.le_iff_toNat_le]
  simp only [Nat.not_lt_zero, and_false, or_false]
  omega

/-- **The timers that expire are those with keys of timers that are due.**  The first position
depends on the address of the object that stands for `now`, and the scan makes up for that. -/
theorem IsSetBut.expiredTo (h : tm.IsSetBut out) (now : UInt64) (address : ℕ) (rollover : Bool) :
    tm.expiredTo now address rollover =
      if rollover then [] else tm.timers.dropWhile (tm.dueBefore now) := by
  unfold TimerManager.expiredTo
  cases rollover with
  | true => rfl
  | false =>
    refine h.sorted.dropWhile_lowerBound tm.byKey
      (k := Timer.key (some (nowTimer now address : Timer F))) (fun y => ?_)
      (fun y => decide_eq_true_iff) ?_ fun y hy hle => ?_
    · exact Timer.comparator_iff (tm.objects y) (some (nowTimer now address))
    · rw [Timer.key, dueKey, WithBot.coe_le_coe, Prod.Lex.toLex_le_toLex]
      exact .inl (Nat.lt_succ_self _)
    · obtain ⟨t, ht⟩ := h.live y (.inl hy)
      rw [ht, Timer.key, Timer.key, WithBot.coe_le_coe, Prod.Lex.toLex_le_toLex] at hle
      change now.toNat < t.next.toNat ∨ now.toNat = t.next.toNat ∧ _ at hle
      rw [Bool.eq_iff_iff, dueBefore_iff ht, dueAt, decide_eq_true_iff, ht, Option.map_some,
        Option.some.injEq, ← UInt64.toNat_inj, UInt64.le_iff_toNat_le]
      omega

/-- The timers that have a key of a timer that is due. -/
theorem IsSetBut.mem_takeWhile_iff (h : tm.IsSetBut out) :
    x ∈ tm.timers.takeWhile (tm.dueBefore now) ↔ tm.Due now x := by
  constructor
  · intro hx
    have hmem := (List.takeWhile_prefix (tm.dueBefore now)).subset hx
    obtain ⟨t, ht⟩ := h.live x (.inl hmem)
    exact ⟨hmem, t, ht, (dueBefore_iff ht).1 (List.mem_takeWhile_imp hx)⟩
  · rintro ⟨hmem, t, ht, hle⟩
    rw [← List.takeWhile_append_dropWhile (p := tm.dueBefore now) (l := tm.timers),
      List.mem_append] at hmem
    refine hmem.resolve_right fun hdrop => ?_
    have hge := h.sorted.le_of_mem_lowerBound tm.byKey (fun y => decide_eq_true_iff) hdrop
    exact not_lt.2 hge (decide_eq_true_iff.1 ((dueBefore_iff ht).2 hle))

/-! ### The call -/

/-- **The timers of the list expire**: their callbacks are handed out in this order; those that
are not recurring lose their callbacks and leave the set, the others are set again from `now` on;
and nothing else happens. -/
structure Expires (tm : TimerManager F) (now : UInt64) (expired : List ℕ)
    (cbs : List (ℕ × Option F)) (tm' : TimerManager F) : Prop where
  callbacks : cbs = expired.map fun x => (x, (tm.objects x).bind Timer.cb)
  once : ∀ x ∈ expired, ∀ t, tm.objects x = some t → t.recurring = false →
    tm'.objects x = some { t with cb := none } ∧ x ∉ tm'.timers
  again : ∀ x ∈ expired, ∀ t, tm.objects x = some t → t.recurring = true →
    tm'.objects x = some { t with next := now + t.ms } ∧ x ∈ tm'.timers
  others : ∀ x ∉ expired, tm'.objects x = tm.objects x ∧ (x ∈ tm'.timers ↔ x ∈ tm.timers)
  isSet : tm'.IsSet

/-- **Exactly the timers that are due expire**, in the order of `next_`. -/
def ExpiresDue (tm : TimerManager F) (now : UInt64) (cbs : List (ℕ × Option F))
    (tm' : TimerManager F) : Prop :=
  ∃ due : List ℕ, due.Nodup ∧ (∀ x, x ∈ due ↔ tm.Due now x) ∧
    (due.Pairwise fun x y => ∀ t u, tm.objects x = some t → tm.objects y = some u →
      t.next ≤ u.next) ∧ tm.Expires now due cbs tm'

/-- The timers before a position are taken out. -/
theorem IsSetBut.take (h : tm.IsSet) {expired it : List ℕ} (htimers : tm.timers = expired ++ it)
    (now : UInt64) :
    { tm with previouseTime := now, timers := it }.IsSetBut expired ∧ expired.Nodup := by
  have hnodup := tm.byKey.nodup h.sorted
  rw [htimers] at hnodup
  obtain ⟨hexpired, -, hdisj⟩ := List.nodup_append.1 hnodup
  refine ⟨⟨h.sorted.sublist (htimers ▸ List.sublist_append_right expired it), fun y hy => ?_,
    fun y hy hy' => hdisj y hy y hy' rfl, h.address⟩, hexpired⟩
  refine h.live y (.inl ?_)
  rw [htimers, List.mem_append]
  exact hy.symm

/-- The timers that are taken out expire. -/
theorem IsSetBut.expires (h : tm.IsSet) {expired it : List ℕ} (htimers : tm.timers = expired ++ it)
    (now : UInt64) : ∃ cbs tm', TimerManager.expireAll now expired
        { tm with previouseTime := now, timers := it } = some (cbs, tm') ∧
      tm.Expires now expired cbs tm' := by
  obtain ⟨h₁, hnodup⟩ := h.take htimers now
  obtain ⟨tm', heq, hset, hexpired, hkept, hmem⟩ := h₁.expireAll now hnodup
  refine ⟨_, tm', heq, rfl, fun x hx t ht hrec => ⟨?_, fun hx' => ?_⟩,
    fun x hx t ht hrec => ⟨?_, (hmem x).2 (.inr ⟨hx, t, ht, hrec⟩)⟩,
    fun x hx => ⟨hkept x hx, ?_⟩, hset⟩
  · simp [hexpired x hx, ht, Timer.expire, hrec]
  · rcases (hmem x).1 hx' with hx' | ⟨-, u, hu, hrec'⟩
    · exact h₁.notMem x hx hx'
    · cases ht.symm.trans hu
      cases hrec.symm.trans hrec'
  · simp [hexpired x hx, ht, Timer.expire, hrec]
  · rw [hmem, htimers, List.mem_append]
    simp [hx]

/-- No timer expires. -/
theorem IsSetBut.expires_nil (h : tm.IsSet) (now now' : UInt64) :
    tm.Expires now [] [] { tm with previouseTime := now' } :=
  ⟨rfl, fun _ hx => (List.not_mem_nil hx).elim, fun _ hx => (List.not_mem_nil hx).elim,
    fun _ _ => ⟨rfl, Iff.rfl⟩, ⟨h.sorted, h.live, h.notMem, h.address⟩⟩

/-- **What `listExpiredCb` does**: the timers that are due expire, or all of them when the clock
passes for set back. -/
theorem IsSetBut.listExpiredCb (h : tm.IsSet) (now : UInt64) (address : ℕ) :
    ∃ cbs tm', tm.listExpiredCb now address = some (cbs, tm') ∧
      tm.Expires now (if (tm.detectClockRolllover now).1 then tm.timers
        else tm.timers.takeWhile (tm.dueBefore now)) cbs tm' := by
  cases htimers : tm.timers with
  | nil =>
    refine ⟨[], tm, by simp [TimerManager.listExpiredCb, htimers], ?_⟩
    simpa using h.expires_nil now tm.previouseTime
  | cons first rest =>
    obtain ⟨t, ht⟩ := h.live first (.inl (htimers ▸ List.mem_cons_self))
    rw [listExpiredCb_cons htimers ht]
    dsimp only
    split_ifs with hearly hroll hroll
    · exact absurd hroll hearly.1
    · -- the first timer is not due
      have hfirst : tm.dueBefore now first = false := by
        rw [Bool.eq_false_iff, ne_eq, dueBefore_iff ht, UInt64.not_le]
        exact hearly.2
      rw [List.takeWhile_cons_of_neg (by simp [hfirst])]
      exact ⟨[], _, rfl, h.expires_nil now now⟩
    · rw [h.expiredTo, hroll, if_pos rfl, List.length_nil, Nat.sub_zero, List.take_length,
        ← htimers]
      exact h.expires (List.append_nil _).symm now
    · have hcut := (List.takeWhile_append_dropWhile (p := tm.dueBefore now) (l := tm.timers)).symm
      rw [h.expiredTo, if_neg hroll, OrderedSet.take_before hcut, ← htimers]
      exact h.expires hcut now

/-! ### The clock -/

/-- An hour, in ms. -/
def hour : ℕ := 60 * 60 * 1000

/-- The clock really was set back by more than an hour. -/
def SetBack (tm : TimerManager F) (now : UInt64) : Prop :=
  now.toNat + hour < tm.previouseTime.toNat

/-- **What passes for a clock that was set back.** -/
theorem detectClockRolllover_iff (tm : TimerManager F) (now : UInt64) :
    (tm.detectClockRolllover now).1 = true ↔
      tm.SetBack now ∨ now < tm.previouseTime ∧ tm.previouseTime.toNat < hour := by
  have hlt := UInt64.toNat_lt tm.previouseTime
  simp only [detectClockRolllover, decide_eq_true_eq, SetBack, hour, UInt64.lt_iff_toNat_lt,
    UInt64.toNat_sub]
  have hconst : (60 * 60 * 1000 : UInt64).toNat = 3600000 := rfl
  rw [hconst]
  omega

theorem Expires.map_fst {expired : List ℕ} {cbs : List (ℕ × Option F)}
    (h : tm.Expires now expired cbs tm') : cbs.map Prod.fst = expired := by
  rw [h.callbacks, List.map_map]
  exact List.map_id _

/-- A timer expires that is not due. -/
theorem Expires.not_due {expired : List ℕ} {cbs : List (ℕ × Option F)}
    (h : tm.Expires now expired cbs tm') (hx : x ∈ expired) (hdue : ¬ tm.Due now x) :
    ¬ tm.ExpiresDue now cbs tm' := by
  rintro ⟨due, -, hmem, -, he⟩
  exact hdue ((hmem x).1 (he.map_fst ▸ h.map_fst ▸ hx))

/-- The timers of the set are in the order of `next_`. -/
theorem IsSetBut.pairwise_next (h : tm.IsSetBut out) :
    tm.timers.Pairwise fun x y => ∀ t u, tm.objects x = some t → tm.objects y = some u →
      t.next ≤ u.next := by
  refine h.sorted.imp fun {x y} hxy t u ht hu => ?_
  rw [less, ht, hu, Timer.comparator_some] at hxy
  rcases hxy with hlt | ⟨heq, -⟩
  · exact UInt64.le_of_lt hlt
  · exact UInt64.le_of_eq heq

theorem IsSetBut.expiresDue (h : tm.IsSet) {cbs : List (ℕ × Option F)}
    (he : tm.Expires now (tm.timers.takeWhile (tm.dueBefore now)) cbs tm') :
    tm.ExpiresDue now cbs tm' := by
  have hsub := (List.takeWhile_prefix (tm.dueBefore now) (l := tm.timers)).sublist
  exact ⟨_, (tm.byKey.nodup h.sorted).sublist hsub, fun x => h.mem_takeWhile_iff,
    h.pairwise_next.sublist hsub, he⟩

/-- **Exactly the timers that are due expire**, unless the clock reads less than the time before
and that was in the first hour of the clock: then all of them do. -/
theorem expiresDue_iff (h : tm.IsSet) (now : UInt64) (address : ℕ) :
    ∃ cbs tm', tm.listExpiredCb now address = some (cbs, tm') ∧
      ((¬ tm.SetBack now → tm.ExpiresDue now cbs tm') ↔
        (now < tm.previouseTime ∧ tm.previouseTime.toNat < hour →
          ∀ x ∈ tm.timers, tm.Due now x)) := by
  obtain ⟨cbs, tm', heq, he⟩ := h.listExpiredCb now address
  refine ⟨cbs, tm', heq, ?_⟩
  have hroll := tm.detectClockRolllover_iff now
  by_cases hwrap : now < tm.previouseTime ∧ tm.previouseTime.toNat < hour
  · have hback : ¬ tm.SetBack now := by
      intro hback
      have := hback.trans hwrap.2
      omega
    rw [if_pos (hroll.2 (.inr hwrap))] at he
    constructor
    · intro hdue _ x hx
      by_contra hnot
      exact he.not_due hx hnot (hdue hback)
    · intro hall _
      have htake : tm.timers.takeWhile (tm.dueBefore now) = tm.timers :=
        List.takeWhile_eq_self_iff.2 fun x hx =>
          List.mem_takeWhile_imp (h.mem_takeWhile_iff.2 (hall hwrap x hx))
      exact h.expiresDue (htake.symm ▸ he)
  · refine iff_of_true (fun hback => ?_) fun hc => absurd hc hwrap
    have hno : ¬ (tm.detectClockRolllover now).1 = true := by
      rw [hroll, not_or]
      exact ⟨hback, hwrap⟩
    rw [if_neg hno] at he
    exact h.expiresDue he

/-- A timer that is due expires and one that is not stays, though the clock reads less than another
thread has read before; it is the second hour of the clock. -/
theorem expiresDue_secondHour : ∃ tm : TimerManager String,
    (machine String).run (init 3600000)
      [.addTimer 80 90 "b" false 3600001, .listExpiredCb 3600006 16,
        .addTimer 48 2 "a" true 3600003] = some tm ∧
    ∃ cbs tm', tm.listExpiredCb 3600005 16 = some (cbs, tm') ∧ cbs = [(1, some "a")] ∧
      tm.ExpiresDue 3600005 cbs tm' := by
  have h : ((machine String).run (init 3600000)
      [.addTimer 80 90 "b" false 3600001, .listExpiredCb 3600006 16,
        .addTimer 48 2 "a" true 3600003]).bind (fun tm => (tm.listExpiredCb 3600005 16).map fun p =>
          (tm.previouseTime, p.1)) = some (3600006, [(1, some "a")]) := by decide +kernel
  obtain ⟨tm, htm, h⟩ := Option.bind_eq_some_iff.1 h
  obtain ⟨⟨cbs, tm'⟩, hlist, h⟩ := Option.map_eq_some_iff.1 h
  obtain ⟨hprev, rfl⟩ := Prod.mk.inj h
  have hset := ((sound_init 3600000).reachable (Machine.reachable_of_run htm)).sound.isSet
  obtain ⟨cbs', tm'', hlist', hiff⟩ := expiresDue_iff hset 3600005 16
  obtain ⟨rfl, rfl⟩ := Prod.mk.inj (Option.some.inj (hlist.symm.trans hlist'))
  have hback : ¬ tm.SetBack 3600005 := by
    rw [SetBack, hprev]
    decide
  exact ⟨tm, htm, _, _, hlist, rfl, hiff.2 (fun hc => absurd hc.2 (by rw [hprev]; decide)) hback⟩

/-- Nine ms after the start of the clock all timers expire, as another thread has read ten. -/
theorem not_expiresDue : ¬ ∀ tm : TimerManager String,
    (machine String).Reachable (init 5) tm → ∀ now address cbs tm',
      tm.listExpiredCb now address = some (cbs, tm') → ¬ tm.SetBack now →
        tm.ExpiresDue now cbs tm' := by
  intro hall
  have h : ((machine String).run (init 5)
      [.addTimer 80 100 "a" false 8, .listExpiredCb 10 16]).bind (fun tm =>
        (tm.listExpiredCb 9 16).map fun p =>
          ((tm.previouseTime, (tm.objects 0).map Timer.next), p.1)) =
        some ((10, some 108), [(0, some "a")]) := by decide +kernel
  obtain ⟨tm, htm, h⟩ := Option.bind_eq_some_iff.1 h
  obtain ⟨⟨cbs, tm'⟩, hlist, h⟩ := Option.map_eq_some_iff.1 h
  obtain ⟨hstate, rfl⟩ := Prod.mk.inj h
  obtain ⟨hprev, hnext⟩ := Prod.mk.inj hstate
  have hback : ¬ tm.SetBack 9 := by
    rw [SetBack, hprev]
    decide
  obtain ⟨due, -, hmem, -, he⟩ := hall tm (Machine.reachable_of_run htm) 9 16 _ tm' hlist hback
  obtain ⟨-, t, ht, hle⟩ := (hmem 0).1 (he.map_fst ▸ List.mem_singleton_self 0)
  rw [ht] at hnext
  rw [Option.some.inj hnext] at hle
  exact absurd hle (by decide)

end TimerManager

end KvRaft
