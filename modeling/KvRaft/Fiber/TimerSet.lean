import KvRaft.Fiber.Timer

/-!
# The set of timers

`timers_` is ordered by a field of the timers that the operations change.  Each of them takes a
timer out of the set before it does, and puts it back, or clears the callback.

* `TimerManager.Sound` : the set is in order and holds the timers with a callback.
  `TimerManager.SoundBut` says so in between, when some of them are out of the set.
* `TimerManager.timer_set` : in every state of every run the set is sound, no operation erases
  `end()`, and a callback that was cancelled or has expired for good is not handed out again.
-/

namespace KvRaft

namespace TimerManager

variable {F : Type} {tm tm' : TimerManager F} {out : List ℕ} {x y : ℕ} {t : Timer F}

/-- The timer exists and has a callback. -/
def Armed (tm : TimerManager F) (x : ℕ) : Prop := ∃ t, tm.objects x = some t ∧ t.cb ≠ none

/-- **The set is in order and holds the timers with a callback**, except for those that are
`out`. -/
structure SoundBut (tm : TimerManager F) (out : List ℕ) : Prop where
  sorted : OrderedSet.Sorted tm.less tm.timers
  mem_iff : ∀ x, x ∈ tm.timers ↔ tm.Armed x ∧ x ∉ out
  armed : ∀ x ∈ out, tm.Armed x
  lt_made : ∀ x t, tm.objects x = some t → x < tm.made
  address : ∀ x y t u, tm.objects x = some t → tm.objects y = some u →
    t.address = u.address → x = y

/-- **The set is in order and holds the timers with a callback.** -/
abbrev Sound (tm : TimerManager F) : Prop := tm.SoundBut []

theorem sound_init (now : UInt64) : (init now : TimerManager F).Sound where
  sorted := List.Pairwise.nil
  mem_iff x := by simp [init, Armed]
  armed x hx := by cases hx
  lt_made x t ht := by cases ht
  address x y t u ht := by cases ht

/-- The order of the set is that of the keys. -/
theorem byKey (tm : TimerManager F) :
    OrderedSet.ByKey tm.less fun x => Timer.key (tm.objects x) :=
  fun x y => Timer.comparator_iff (tm.objects x) (tm.objects y)

theorem write_objects (tm : TimerManager F) (x : ℕ) (t : Timer F) (y : ℕ) :
    (tm.write x t).objects y = if y = x then some t else tm.objects y := by
  simp [write, Function.update_apply]

theorem armed_write : (tm.write x t).Armed y ↔ if y = x then t.cb ≠ none else tm.Armed y := by
  unfold Armed
  rw [write_objects]
  split_ifs <;> simp

/-- Timers at distinct addresses have distinct keys. -/
theorem SoundBut.key_ne (h : tm.SoundBut out) (hx : tm.Armed x) (hy : tm.Armed y) (hne : y ≠ x) :
    Timer.key (tm.objects y) ≠ Timer.key (tm.objects x) := by
  obtain ⟨t, ht, -⟩ := hx
  obtain ⟨u, hu, -⟩ := hy
  rw [ht, hu]
  intro heq
  have hpair := congrArg ofLex (WithBot.coe_inj.1 heq)
  exact hne (h.address y x u t hu ht (congrArg Prod.snd hpair))

/-! ### Parts of the operations -/

/-- A timer of the set is found. -/
theorem SoundBut.find (h : tm.SoundBut out) (hx : x ∈ tm.timers) :
    OrderedSet.find tm.less x tm.timers ≠ [] := by
  obtain ⟨xs, ys, -, hfind⟩ := h.sorted.find tm.byKey hx
  rw [hfind]
  exact List.cons_ne_nil x ys

/-- **A timer of the set is taken out.** -/
theorem SoundBut.eraseFound (h : tm.SoundBut out) (hx : x ∈ tm.timers) :
    ∃ timers, tm.eraseFound x = some { tm with timers := timers } ∧
      { tm with timers := timers }.SoundBut (x :: out) := by
  obtain ⟨timers, heq, hsorted, hmem⟩ := h.sorted.erase_find tm.byKey hx
  have hx' := (h.mem_iff x).1 hx
  refine ⟨timers, by rw [TimerManager.eraseFound, heq, Option.map_some], hsorted, fun y => ?_,
    fun y hy => ?_, h.lt_made, h.address⟩
  · rw [hmem, h.mem_iff, List.mem_cons, not_or]
    exact ⟨fun ⟨⟨harmed, hout⟩, hne⟩ => ⟨harmed, hne, hout⟩,
      fun ⟨harmed, hne, hout⟩ => ⟨⟨harmed, hout⟩, hne⟩⟩
  · rcases List.mem_cons.1 hy with rfl | hy
    · exact hx'.1
    · exact h.armed y hy

/-- The keys of the others stay when a timer outside the set is written to. -/
theorem sorted_write (h : OrderedSet.Sorted tm.less tm.timers) (hx : x ∉ tm.timers) (t : Timer F) :
    OrderedSet.Sorted (tm.write x t).less tm.timers := by
  refine h.congr fun y hy z hz => ?_
  have hyx : y ≠ x := fun heq => hx (heq ▸ hy)
  have hzx : z ≠ x := fun heq => hx (heq ▸ hz)
  unfold less
  rw [write_objects, write_objects, if_neg hyx, if_neg hzx]

/-- An object that keeps its address is written to. -/
theorem SoundBut.objects_write (h : tm.SoundBut out) (ht : tm.objects x = some t) {t' : Timer F}
    (haddr : t'.address = t.address) :
    (∀ y u, (tm.write x t').objects y = some u → y < tm.made) ∧
      ∀ y z u v, (tm.write x t').objects y = some u → (tm.write x t').objects z = some v →
        u.address = v.address → y = z := by
  have hold : ∀ y u, (tm.write x t').objects y = some u →
      ∃ u₀, tm.objects y = some u₀ ∧ u.address = u₀.address := by
    intro y u hu
    rw [write_objects] at hu
    split_ifs at hu with hy
    · cases hu
      exact ⟨t, hy ▸ ht, haddr⟩
    · exact ⟨u, hu, rfl⟩
  refine ⟨fun y u hu => ?_, fun y z u v hu hv heq => ?_⟩
  · obtain ⟨u₀, hu₀, -⟩ := hold y u hu
    exact h.lt_made y u₀ hu₀
  · obtain ⟨u₀, hu₀, hu⟩ := hold y u hu
    obtain ⟨v₀, hv₀, hv⟩ := hold z v hv
    exact h.address y z u₀ v₀ hu₀ hv₀ (hu ▸ hv ▸ heq)

/-- **A timer that is out of the set gets another time and keeps its callback.** -/
theorem SoundBut.write (h : tm.SoundBut out) (hx : x ∈ out) (ht : tm.objects x = some t)
    (t' : Timer F) (haddr : t'.address = t.address) (hcb : t'.cb = t.cb) :
    (tm.write x t').SoundBut out := by
  have hnot : x ∉ tm.timers := fun hmem => ((h.mem_iff x).1 hmem).2 hx
  have harmed : ∀ y, (tm.write x t').Armed y ↔ tm.Armed y := by
    intro y
    rw [armed_write]
    split_ifs with hy
    · rw [hy, Armed, ht, hcb]
      simp
    · rfl
  obtain ⟨hmade, haddress⟩ := h.objects_write ht haddr
  exact ⟨sorted_write h.sorted hnot t', fun y => by rw [harmed]; exact h.mem_iff y,
    fun y hy => (harmed y).2 (h.armed y hy), hmade, haddress⟩

/-- **A timer that is out of the set loses its callback.** -/
theorem SoundBut.clear (h : tm.SoundBut (x :: out)) (hx : x ∉ out) (ht : tm.objects x = some t)
    (t' : Timer F) (haddr : t'.address = t.address) (hcb : t'.cb = none) :
    (tm.write x t').SoundBut out := by
  have hnot : x ∉ tm.timers := fun hmem => ((h.mem_iff x).1 hmem).2 List.mem_cons_self
  obtain ⟨hmade, haddress⟩ := h.objects_write ht haddr
  refine ⟨sorted_write h.sorted hnot t', fun y => ?_, fun y hy => ?_, hmade, haddress⟩
  · rw [armed_write]
    split_ifs with hy
    · subst hy
      exact ⟨fun hmem => absurd hmem hnot, fun hc => absurd hcb hc.1⟩
    · refine (h.mem_iff y).trans (and_congr_right fun _ => ?_)
      rw [List.mem_cons, not_or]
      exact ⟨fun hc => hc.2, fun hc => ⟨hy, hc⟩⟩
  · have hyx : y ≠ x := fun heq => hx (heq ▸ hy)
    rw [armed_write, if_neg hyx]
    exact h.armed y (List.mem_cons_of_mem x hy)

/-- **A timer that is out of the set is inserted.** -/
theorem SoundBut.insertTimer (h : tm.SoundBut (x :: out)) (hx : x ∉ out) :
    (tm.insertTimer x).SoundBut out := by
  have hxa := h.armed x List.mem_cons_self
  obtain ⟨hsorted, hmem⟩ := h.sorted.insert tm.byKey (x := x) fun y hy =>
    h.key_ne hxa ((h.mem_iff y).1 hy).1
      fun heq => ((h.mem_iff y).1 hy).2 (heq ▸ List.mem_cons_self)
  refine ⟨hsorted, fun y => ?_, fun y hy => h.armed y (List.mem_cons_of_mem x hy), h.lt_made,
    h.address⟩
  change y ∈ OrderedSet.insert tm.less x tm.timers ↔ _
  rw [hmem, h.mem_iff, List.mem_cons, not_or]
  constructor
  · rintro (rfl | ⟨ha, -, hout⟩)
    · exact ⟨hxa, hx⟩
    · exact ⟨ha, hout⟩
  · rintro ⟨ha, hout⟩
    by_cases hyx : y = x
    · exact Or.inl hyx
    · exact Or.inr ⟨ha, hyx, hout⟩

/-- A write that keeps the key of a timer does not disturb the search for it. -/
theorem eraseFound_write (ht : tm.objects x = some t) (t' : Timer F)
    (haddr : t'.address = t.address) (hnext : t'.next = t.next) :
    (tm.write x t').eraseFound x = (tm.eraseFound x).map (·.write x t') := by
  have hkey : ∀ y, Timer.key ((tm.write x t').objects y) = Timer.key (tm.objects y) := by
    intro y
    rw [write_objects]
    split_ifs with hy
    · rw [hy, ht, Timer.key, Timer.key, haddr, hnext]
    · rfl
  have hless : (tm.write x t').less = tm.less := by
    funext y z
    have hless := byKey (tm.write x t') y z
    simp only [hkey] at hless
    exact Bool.eq_iff_iff.2 (hless.trans (byKey tm y z).symm)
  rw [eraseFound, hless, eraseFound, Option.map_map]
  rfl

/-! ### The operations -/

/-- **What a call does to the timers**: it keeps the set sound, arms nothing that was not armed
but a new timer, and disarms what it says. -/
structure Keeps (tm tm' : TimerManager F) : Prop where
  sound : tm'.Sound
  made_le : tm.made ≤ tm'.made
  armed : ∀ x, x < tm.made → tm'.Armed x → tm.Armed x

theorem Keeps.refl (h : tm.Sound) : tm.Keeps tm := ⟨h, le_rfl, fun _ _ => id⟩

theorem Sound.mem_timers (h : tm.Sound) : x ∈ tm.timers ↔ tm.Armed x := by
  simpa using h.mem_iff x

/-- A timer is taken out and comes back with another time. -/
theorem Sound.move (h : tm.Sound) (ht : tm.objects x = some t) (hcb : t.cb ≠ none)
    (t' : Timer F) (haddr : t'.address = t.address) (hcb' : t'.cb = t.cb) :
    ∃ tm₁, tm.eraseFound x = some tm₁ ∧ tm.Keeps ((tm₁.write x t').insertTimer x) := by
  have hx : tm.Armed x := ⟨t, ht, hcb⟩
  obtain ⟨timers, heq, h₁⟩ := h.eraseFound (h.mem_timers.2 hx)
  have h₂ := h₁.write (x := x) List.mem_cons_self ht t' haddr hcb'
  refine ⟨_, heq, h₂.insertTimer List.not_mem_nil, le_rfl, fun y _ hy => ?_⟩
  change (TimerManager.write _ x t').Armed y at hy
  rw [armed_write] at hy
  split_ifs at hy with hyx
  · exact hyx ▸ hx
  · exact hy

theorem Sound.addTimer (h : tm.Sound) {address : ℕ} (hfree : tm.unused address = true)
    (ms : UInt64) (cb : F) (recurring : Bool) (now : UInt64) :
    tm.Keeps (tm.addTimer address ms cb recurring now).2.2 := by
  have hnew : tm.objects tm.made = none := by
    cases ht : tm.objects tm.made with
    | none => rfl
    | some t => exact absurd (h.lt_made _ t ht) (lt_irrefl _)
  have hunused : ∀ y u, tm.objects y = some u → u.address ≠ address := by
    intro y u hu heq
    have := List.all_eq_true.1 hfree y (List.mem_range.2 (h.lt_made y u hu))
    simp [hu, heq] at this
  have hnot : tm.made ∉ tm.timers := by
    intro hmem
    obtain ⟨t, ht, -⟩ := h.mem_timers.1 hmem
    exact absurd (h.lt_made _ t ht) (lt_irrefl _)
  obtain ⟨t, ht⟩ : ∃ t : Timer F, t = ⟨address, recurring, ms, now + ms, some cb⟩ := ⟨_, rfl⟩
  -- the new object is not in the set yet
  have h₁ : ({ tm with made := tm.made + 1 }.write tm.made t).SoundBut [tm.made] := by
    refine ⟨sorted_write h.sorted hnot t, fun y => ?_,
      fun y hy => ?_, fun y u hu => ?_, fun y z u v hu hv heq => ?_⟩
    · rw [armed_write, List.mem_singleton]
      split_ifs with hy
      · subst hy
        exact ⟨fun hmem => absurd hmem hnot, fun hc => absurd rfl hc.2⟩
      · exact h.mem_timers.trans ⟨fun hc => ⟨hc, hy⟩, fun hc => hc.1⟩
    · rw [armed_write, if_pos (List.mem_singleton.1 hy), ht]
      exact nofun
    · rw [write_objects] at hu
      split_ifs at hu with hy
      · exact hy ▸ Nat.lt_succ_self _
      · exact Nat.lt_succ_of_lt (h.lt_made y u hu)
    · rw [write_objects] at hu hv
      split_ifs at hu hv with hy hz hz
      · exact hy.trans hz.symm
      · cases hu
        exact absurd (heq.symm.trans (by rw [ht])) (hunused z v hv)
      · cases hv
        exact absurd (heq.trans (by rw [ht])) (hunused y u hu)
      · exact h.address y z u v hu hv heq
  have h₂ := h₁.insertTimer List.not_mem_nil
  have heq : (tm.addTimer address ms cb recurring now).2.2 =
      { ({ tm with made := tm.made + 1 }.write tm.made t).insertTimer tm.made with
        tickled := (tm.addTimer address ms cb recurring now).2.2.tickled } := by
    rw [ht]
    rfl
  refine ⟨?_, ?_, fun y hy harmed => ?_⟩
  · rw [heq]
    exact ⟨h₂.sorted, h₂.mem_iff, h₂.armed, h₂.lt_made, h₂.address⟩
  · rw [heq]
    exact Nat.le_succ _
  · rw [heq] at harmed
    change (TimerManager.write _ tm.made t).Armed y at harmed
    rwa [armed_write, if_neg hy.ne] at harmed

/-- `cancel` takes an armed timer out, and the timer stays disarmed. -/
theorem Sound.cancel (h : tm.Sound) (ht : tm.objects x = some t) :
    ∃ b tm', tm.cancel x = some (b, tm') ∧ tm.Keeps tm' ∧ ¬ tm'.Armed x := by
  cases hcb : t.cb with
  | none =>
    refine ⟨false, tm, by simp [TimerManager.cancel, ht, hcb], .refl h, ?_⟩
    rintro ⟨u, hu, hne⟩
    rw [ht] at hu
    cases hu
    exact hne hcb
  | some cb =>
    have hx : tm.Armed x := ⟨t, ht, by simp [hcb]⟩
    obtain ⟨timers, heq, h₁⟩ := h.eraseFound (h.mem_timers.2 hx)
    have h₂ := h₁.clear List.not_mem_nil ht { t with cb := none } rfl rfl
    have hwrite := eraseFound_write ht { t with cb := none } rfl rfl
    have harmed : ∀ y, ({ tm with timers := timers }.write x { t with cb := none }).Armed y ↔
        tm.Armed y ∧ y ≠ x := by
      intro y
      rw [armed_write]
      split_ifs with hy
      · simp [hy]
      · exact ⟨fun hc => ⟨hc, hy⟩, fun hc => hc.1⟩
    refine ⟨true, _, ?_, ⟨h₂, le_rfl, fun y _ hy => ((harmed y).1 hy).1⟩,
      fun hc => ((harmed x).1 hc).2 rfl⟩
    simp [TimerManager.cancel, ht, hcb, hwrite, heq]

theorem Sound.refresh (h : tm.Sound) (ht : tm.objects x = some t) (now : UInt64) :
    ∃ b tm', tm.refresh x now = some (b, tm') ∧ tm.Keeps tm' := by
  cases hcb : t.cb with
  | none => exact ⟨false, tm, by simp [TimerManager.refresh, ht, hcb], .refl h⟩
  | some cb =>
    have hne : t.cb ≠ none := by simp [hcb]
    have hfind := h.find (h.mem_timers.2 ⟨t, ht, hne⟩)
    obtain ⟨tm₁, heq, hk⟩ := h.move ht hne { t with next := now + t.ms } rfl rfl
    refine ⟨true, _, ?_, hk⟩
    simp [TimerManager.refresh, ht, hcb, hfind, heq]

theorem Keeps.addTimerLocked {x : ℕ} (h : tm.Keeps (tm'.insertTimer x)) :
    tm.Keeps (tm'.addTimerLocked x).2 :=
  ⟨⟨h.sound.sorted, h.sound.mem_iff, h.sound.armed, h.sound.lt_made, h.sound.address⟩, h.made_le,
    h.armed⟩

theorem Sound.reset (h : tm.Sound) (ht : tm.objects x = some t) (ms : UInt64) (fromNow : Bool)
    (now : UInt64) : ∃ b tm', tm.reset x ms fromNow now = some (b, tm') ∧ tm.Keeps tm' := by
  by_cases hsame : ms = t.ms ∧ ¬ fromNow = true
  · exact ⟨true, tm, by simp [TimerManager.reset, ht, hsame], .refl h⟩
  cases hcb : t.cb with
  | none => exact ⟨true, tm, by simp [TimerManager.reset, ht, hcb], .refl h⟩
  | some cb =>
    have hne : t.cb ≠ none := by simp [hcb]
    have hfind := h.find (h.mem_timers.2 ⟨t, ht, hne⟩)
    obtain ⟨tm₁, heq, hk⟩ := h.move ht hne { t with
      ms := ms, next := (if fromNow then now else t.next - t.ms) + ms } rfl rfl
    refine ⟨true, _, ?_, hk.addTimerLocked⟩
    have hmoves : ms = t.ms → fromNow = false → False := fun h₁ h₂ => hsame ⟨h₁, by simp [h₂]⟩
    simpa [TimerManager.reset, ht, hcb, hfind, heq] using
      fun h₁ h₂ => (hmoves h₁ h₂).elim

/-- The loop over the timers that expire hands out their callbacks, and disarms those that are
not recurring. -/
theorem SoundBut.expireAll (now : UInt64) {expired : List ℕ} (h : tm.SoundBut expired)
    (hnodup : expired.Nodup) : ∃ cbs tm', expireAll now expired tm = some (cbs, tm') ∧ tm'.Sound ∧
      tm'.made = tm.made ∧ (∀ y, tm'.Armed y → tm.Armed y) ∧
      ∀ p ∈ cbs, p.1 ∈ expired ∧ ∃ t, tm.objects p.1 = some t ∧ t.cb = p.2 ∧
        (t.recurring = false → ¬ tm'.Armed p.1) := by
  induction expired generalizing tm with
  | nil => exact ⟨[], tm, rfl, h, rfl, fun _ => id, fun p hp => by cases hp⟩
  | cons x expired ih =>
    obtain ⟨hx, hrest⟩ := List.nodup_cons.1 hnodup
    obtain ⟨t, ht, hcb⟩ := h.armed x List.mem_cons_self
    -- the manager after the body of the loop
    obtain ⟨tm₁, htm₁, h₁, hmade, hobj, harmed, honce⟩ : ∃ tm₁ : TimerManager F,
        (if t.recurring = true then
          (tm.write x { t with next := now + t.ms }).insertTimer x
          else tm.write x { t with cb := none }) = tm₁ ∧ tm₁.SoundBut expired ∧
        tm₁.made = tm.made ∧ (∀ y, y ≠ x → tm₁.objects y = tm.objects y) ∧
        (∀ y, tm₁.Armed y → tm.Armed y) ∧ (t.recurring = false → ¬ tm₁.Armed x) := by
      have hwrite : ∀ (t' : Timer F) (y : ℕ), (tm.write x t').Armed y → tm.Armed y := by
        intro t' y hy
        rw [armed_write] at hy
        split_ifs at hy with hyx
        · exact hyx ▸ ⟨t, ht, hcb⟩
        · exact hy
      have hother : ∀ (t' : Timer F) (y : ℕ), y ≠ x →
          (tm.write x t').objects y = tm.objects y :=
        fun t' y hy => by rw [write_objects, if_neg hy]
      refine ⟨_, rfl, ?_⟩
      split_ifs with hrec
      · have h₂ := h.write List.mem_cons_self ht { t with next := now + t.ms } rfl rfl
        exact ⟨h₂.insertTimer hx, rfl, hother _, hwrite _, fun hr => by simp [hrec] at hr⟩
      · refine ⟨h.clear hx ht _ rfl rfl, rfl, hother _, hwrite _, fun _ hxa => ?_⟩
        rw [armed_write, if_pos rfl] at hxa
        exact hxa rfl
    obtain ⟨cbs, tm', heq, hsound, hmade', harmed', hcbs⟩ := ih h₁ hrest
    refine ⟨(x, t.cb) :: cbs, tm', ?_, hsound, hmade'.trans hmade,
      fun y hy => harmed y (harmed' y hy), fun p hp => ?_⟩
    · simp [TimerManager.expireAll, ht, htm₁, heq]
    · rcases List.mem_cons.1 hp with rfl | hp
      · exact ⟨List.mem_cons_self, t, ht, rfl, fun hr hxa => honce hr (harmed' x hxa)⟩
      · obtain ⟨hmem, u, hu, hucb, huonce⟩ := hcbs p hp
        have hpx : p.1 ≠ x := fun heq => hx (heq ▸ hmem)
        exact ⟨List.mem_cons_of_mem x hmem, u, (hobj p.1 hpx).symm.trans hu, hucb, huonce⟩

/-- The position up to which timers expire is one of the set. -/
theorem expiredTo_suffix (tm : TimerManager F) (now : UInt64) (address : ℕ) (rollover : Bool) :
    tm.expiredTo now address rollover <:+ tm.timers := by
  unfold expiredTo
  refine (List.dropWhile_suffix _).trans ?_
  split_ifs
  · exact List.nil_suffix
  · exact List.dropWhile_suffix _

/-- The timers before a position are taken out. -/
theorem Sound.take (h : tm.Sound) {expired it : List ℕ} (htimers : tm.timers = expired ++ it) :
    { tm with timers := it }.SoundBut expired ∧ expired.Nodup := by
  have hnodup := tm.byKey.nodup h.sorted
  rw [htimers] at hnodup
  obtain ⟨hexpired, -, hdisj⟩ := List.nodup_append.1 hnodup
  have hmem : ∀ y, y ∈ expired ∨ y ∈ it ↔ tm.Armed y := by
    intro y
    rw [← List.mem_append, ← htimers]
    exact h.mem_timers
  refine ⟨⟨h.sorted.sublist (htimers ▸ List.sublist_append_right expired it), fun y => ?_,
    fun y hy => (hmem y).1 (Or.inl hy), h.lt_made, h.address⟩, hexpired⟩
  constructor
  · exact fun hy => ⟨(hmem y).1 (Or.inr hy), fun hy' => hdisj y hy' y hy rfl⟩
  · exact fun ⟨ha, hne⟩ => ((hmem y).2 ha).resolve_left hne

/-- `listExpiredCb` on a set that is not empty. -/
theorem listExpiredCb_cons {first : ℕ} {rest : List ℕ} (htimers : tm.timers = first :: rest)
    (ht : tm.objects first = some t) (now : UInt64) (address : ℕ) :
    tm.listExpiredCb now address =
      let rollover := (tm.detectClockRolllover now).1
      let it := tm.expiredTo now address rollover
      if ¬ rollover ∧ t.next > now then some ([], { tm with previouseTime := now })
      else expireAll now (tm.timers.take (tm.timers.length - it.length))
        { tm with previouseTime := now, timers := it } := by
  unfold TimerManager.listExpiredCb
  split
  · rename_i hnil
    simp [hnil] at htimers
  · rename_i first' rest' hcons
    obtain rfl : first = first' := (List.cons.inj (htimers.symm.trans hcons)).1
    simp only [detectClockRolllover, ht, Option.bind_eq_bind, Option.bind_some]
    split_ifs <;> rfl

/-- `listExpiredCb` hands out callbacks of armed timers, and disarms those that are not
recurring. -/
theorem Sound.listExpiredCb (h : tm.Sound) (now : UInt64) (address : ℕ) :
    ∃ cbs tm', tm.listExpiredCb now address = some (cbs, tm') ∧ tm.Keeps tm' ∧
      ∀ p ∈ cbs, ∃ t, tm.objects p.1 = some t ∧ t.cb = p.2 ∧ t.cb ≠ none ∧
        (t.recurring = false → ¬ tm'.Armed p.1) := by
  cases htimers : tm.timers with
  | nil =>
    exact ⟨[], tm, by simp [TimerManager.listExpiredCb, htimers], .refl h, fun p hp => by cases hp⟩
  | cons first rest =>
    have hfirst : first ∈ tm.timers := by simp [htimers]
    obtain ⟨t, ht, -⟩ := h.mem_timers.1 hfirst
    rw [listExpiredCb_cons htimers ht]
    -- the clock reading is kept, whatever happens next
    have h₀ : { tm with previouseTime := now }.Sound :=
      ⟨h.sorted, h.mem_iff, h.armed, h.lt_made, h.address⟩
    dsimp only
    split_ifs
    · exact ⟨[], _, rfl, ⟨h₀, le_rfl, fun _ _ => id⟩, fun p hp => by cases hp⟩
    obtain ⟨expired, hcut⟩ := tm.expiredTo_suffix now address (tm.detectClockRolllover now).1
    generalize tm.expiredTo now address (tm.detectClockRolllover now).1 = it at hcut
    have htake := OrderedSet.take_before hcut.symm
    obtain ⟨h₁, hnodup⟩ := h₀.take hcut.symm
    obtain ⟨cbs, tm', heq, hsound, hmade, harmed, hcbs⟩ := h₁.expireAll now hnodup
    refine ⟨cbs, tm', by rw [htake, heq], ⟨hsound, hmade.ge, fun y _ => harmed y⟩, fun p hp => ?_⟩
    obtain ⟨hmem, u, hu, hucb, honce⟩ := hcbs p hp
    obtain ⟨v, hv, hvcb⟩ := h₁.armed p.1 hmem
    have huv : u = v := Option.some.inj (hu.symm.trans hv)
    exact ⟨u, hu, hucb, huv ▸ hvcb, honce⟩

/-- `getNextTimer` writes to no timer. -/
theorem Sound.getNextTimer (h : tm.Sound) (now : UInt64) :
    ∃ ms tm', tm.getNextTimer now = some (ms, tm') ∧ tm.Keeps tm' := by
  have h₀ : { tm with tickled := false }.Sound :=
    ⟨h.sorted, h.mem_iff, h.armed, h.lt_made, h.address⟩
  have hk : tm.Keeps { tm with tickled := false } := ⟨h₀, le_rfl, fun _ _ => id⟩
  cases htimers : tm.timers with
  | nil => exact ⟨_, _, by rw [TimerManager.getNextTimer, htimers], htimers ▸ hk⟩
  | cons first rest =>
    have hfirst : first ∈ tm.timers := by simp [htimers]
    obtain ⟨t, ht, -⟩ := h.mem_timers.1 hfirst
    refine ⟨if now ≥ t.next then 0 else t.next - now, { tm with tickled := false }, ?_, hk⟩
    simp [TimerManager.getNextTimer, htimers, ht]

/-- Destroying an object that is not in the set. -/
theorem Sound.release (h : tm.Sound) (ht : tm.objects x = some t) (hx : x ∉ tm.timers) :
    ∃ tm', tm.release x = some tm' ∧ tm.Keeps tm' := by
  have hobj : ∀ y, Function.update tm.objects x none y = if y = x then none else tm.objects y :=
    fun y => by rw [Function.update_apply]
  have harmed : ∀ y, { tm with objects := Function.update tm.objects x none }.Armed y ↔
      tm.Armed y := by
    intro y
    unfold Armed
    dsimp only
    rw [hobj]
    split_ifs with hy
    · subst hy
      constructor
      · rintro ⟨u, hu, -⟩
        cases hu
      · exact fun ha => absurd (h.mem_timers.2 ha) hx
    · rfl
  have hold : ∀ y u, Function.update tm.objects x none y = some u → tm.objects y = some u := by
    intro y u hu
    rw [hobj] at hu
    split_ifs at hu
    exact hu
  have hsound : { tm with objects := Function.update tm.objects x none }.Sound := by
    refine ⟨?_, fun y => ?_, fun y hy => absurd hy List.not_mem_nil,
      fun y u hu => h.lt_made y u (hold y u hu),
      fun y z u v hu hv => h.address y z u v (hold y u hu) (hold z v hv)⟩
    · refine h.sorted.congr fun y hy z hz => ?_
      have hyx : y ≠ x := fun heq => hx (heq ▸ hy)
      have hzx : z ≠ x := fun heq => hx (heq ▸ hz)
      unfold less
      dsimp only
      rw [hobj, hobj, if_neg hyx, if_neg hzx]
    · rw [harmed]
      exact h.mem_iff y
  exact ⟨_, by simp [TimerManager.release, ht, hx], hsound, le_rfl, fun y _ => (harmed y).1⟩

/-! ### Runs -/

/-- The calls that can be made: on objects that exist, with an address that is free. -/
def Possible (tm : TimerManager F) : TimerAction F → Prop
  | .addTimer address _ _ _ _ => ∀ x t, tm.objects x = some t → t.address ≠ address
  | .cancel self | .refresh self _ | .reset self _ _ _ => ∃ t, tm.objects self = some t
  | .getNextTimer _ | .listExpiredCb _ _ => True
  | .release self => (∃ t, tm.objects self = some t) ∧ self ∉ tm.timers

/-- The call says that the timer is over: `cancel` returns true, or the callback of a timer that
is not recurring is handed out. -/
def Stops (tm : TimerManager F) (x : ℕ) : TimerAction F → TimerResult F → Prop
  | .cancel self, .returned b => x = self ∧ b = true
  | .listExpiredCb _ _, .expired cbs =>
    ∃ t, tm.objects x = some t ∧ t.recurring = false ∧ ∃ cb, (x, cb) ∈ cbs
  | _, _ => False

/-- **Every call returns and keeps the set sound.** -/
theorem Sound.act (h : tm.Sound) {a : TimerAction F} (ha : tm.Possible a) :
    ∃ r tm', tm.act a = some (r, tm') ∧ tm.Keeps tm' ∧
      ∀ x, tm.Stops x a r → x < tm.made ∧ ¬ tm'.Armed x := by
  cases a with
  | addTimer address ms cb recurring now =>
    have hfree : tm.unused address = true := List.all_eq_true.2 fun y _ => by
      cases hy : tm.objects y with
      | none => simp
      | some u => simpa using ha y u hy
    exact ⟨.added _ _, _, if_pos hfree, h.addTimer hfree ms cb recurring now,
      fun x hx => by cases hx⟩
  | cancel self =>
    obtain ⟨t, ht⟩ := ha
    obtain ⟨b, tm', heq, hk, hnot⟩ := h.cancel ht
    refine ⟨.returned b, tm', by simp [TimerManager.act, heq], hk, fun x hx => ?_⟩
    obtain rfl := hx.1
    exact ⟨h.lt_made x t ht, hnot⟩
  | refresh self now =>
    obtain ⟨t, ht⟩ := ha
    obtain ⟨b, tm', heq, hk⟩ := h.refresh ht now
    exact ⟨.returned b, tm', by simp [TimerManager.act, heq], hk, fun x hx => by cases hx⟩
  | reset self ms fromNow now =>
    obtain ⟨t, ht⟩ := ha
    obtain ⟨b, tm', heq, hk⟩ := h.reset ht ms fromNow now
    exact ⟨.returned b, tm', by simp [TimerManager.act, heq], hk, fun x hx => by cases hx⟩
  | getNextTimer now =>
    obtain ⟨ms, tm', heq, hk⟩ := h.getNextTimer now
    exact ⟨.next ms, tm', by simp [TimerManager.act, heq], hk, fun x hx => by cases hx⟩
  | listExpiredCb now address =>
    obtain ⟨cbs, tm', heq, hk, hcbs⟩ := h.listExpiredCb now address
    refine ⟨.expired cbs, tm', by simp [TimerManager.act, heq], hk, fun x hx => ?_⟩
    obtain ⟨t, ht, hrec, cb, hmem⟩ := hx
    obtain ⟨u, hu, -, -, honce⟩ := hcbs _ hmem
    obtain rfl : t = u := Option.some.inj (ht.symm.trans hu)
    exact ⟨h.lt_made x t ht, honce hrec⟩
  | release self =>
    obtain ⟨⟨t, ht⟩, hx⟩ := ha
    obtain ⟨tm', heq, hk⟩ := h.release ht hx
    exact ⟨.released, tm', by simp [TimerManager.act, heq], hk, fun x hx => by cases hx⟩

/-- Nothing else can be called. -/
theorem possible_of_act {a : TimerAction F} {r : TimerResult F} (hm : ∀ x t, tm.objects x = some t →
    x < tm.made) (h : tm.act a = some (r, tm')) : tm.Possible a := by
  have hexists : ∀ {α : Type} {x : ℕ} {f : Timer F → Option α} {b : α},
      (tm.objects x).bind f = some b → ∃ t, tm.objects x = some t := by
    intro α x f b hb
    obtain ⟨t, ht, -⟩ := Option.bind_eq_some_iff.1 hb
    exact ⟨t, ht⟩
  cases a with
  | addTimer address ms cb recurring now =>
    intro x t ht heq
    simp only [TimerManager.act] at h
    split_ifs at h with hfree
    have := List.all_eq_true.1 hfree x (List.mem_range.2 (hm x t ht))
    simp [ht, heq] at this
  | cancel self =>
    obtain ⟨p, hp, -⟩ := Option.map_eq_some_iff.1 h
    exact hexists hp
  | refresh self now =>
    obtain ⟨p, hp, -⟩ := Option.map_eq_some_iff.1 h
    exact hexists hp
  | reset self ms fromNow now =>
    obtain ⟨p, hp, -⟩ := Option.map_eq_some_iff.1 h
    exact hexists hp
  | getNextTimer => trivial
  | listExpiredCb => trivial
  | release self =>
    obtain ⟨p, hp, -⟩ := Option.map_eq_some_iff.1 h
    obtain ⟨t, ht, hrest⟩ := Option.bind_eq_some_iff.1 hp
    split_ifs at hrest with hx
    exact ⟨⟨t, ht⟩, hx⟩

/-- A step is a call that keeps the set sound. -/
theorem Sound.step (h : tm.Sound) {a : TimerAction F} (hst : (machine F).step tm a = some tm') :
    tm.Keeps tm' := by
  obtain ⟨⟨r, tm₁⟩, hact, rfl⟩ := Option.map_eq_some_iff.1 hst
  obtain ⟨r', tm₂, hact', hk, -⟩ := h.act (possible_of_act h.lt_made hact)
  obtain ⟨-, rfl⟩ := Prod.mk.inj (Option.some.inj (hact.symm.trans hact'))
  exact hk

/-- Runs keep the set sound, and arm no old timer. -/
theorem Sound.reachable (h : tm.Sound) (hr : (machine F).Reachable tm tm') : tm.Keeps tm' := by
  induction hr with
  | refl => exact .refl h
  | tail _ _ hst ih =>
    have hk := ih.sound.step hst
    exact ⟨hk.sound, ih.made_le.trans hk.made_le, fun x hx ha =>
      ih.armed x hx (hk.armed x (hx.trans_le ih.made_le) ha)⟩

/-- **The set of timers.**  In every state of every run `timers_` is strictly sorted by `next_` and
address and holds the timers with a callback; a timer with a callback is found there, so that every
call returns; and once `cancel` has returned true or a timer that is not recurring has expired, its
callback is not handed out any more. -/
theorem timer_set {now : UInt64} (h : (machine F).Reachable (init now) tm) :
    (tm.timers.Pairwise fun x y => ∃ t u, tm.objects x = some t ∧ tm.objects y = some u ∧
      (t.next < u.next ∨ t.next = u.next ∧ t.address < u.address)) ∧
    (∀ x ∈ tm.timers, ∃ t, tm.objects x = some t) ∧
    (∀ x t, tm.objects x = some t → (x ∈ tm.timers ↔ t.cb ≠ none)) ∧
    (∀ x t, tm.objects x = some t → t.cb ≠ none → OrderedSet.find tm.less x tm.timers ≠ []) ∧
    (∀ a, tm.Possible a → ∃ r tm', tm.act a = some (r, tm')) ∧
    ∀ a r tm₁ x, tm.act a = some (r, tm₁) → tm.Stops x a r →
      ∀ tm₂, (machine F).Reachable tm₁ tm₂ → ∀ now address cbs tm₃,
        tm₂.listExpiredCb now address = some (cbs, tm₃) → ∀ cb, (x, cb) ∉ cbs := by
  have hs := ((sound_init now).reachable h).sound
  have hlive : ∀ x ∈ tm.timers, ∃ t, tm.objects x = some t := by
    intro x hx
    obtain ⟨t, ht, -⟩ := hs.mem_timers.1 hx
    exact ⟨t, ht⟩
  have hmem : ∀ x t, tm.objects x = some t → (x ∈ tm.timers ↔ t.cb ≠ none) := by
    intro x t ht
    rw [hs.mem_timers, Armed, ht]
    simp
  refine ⟨List.Pairwise.imp_of_mem (fun {x y} hx hy hlt => ?_) hs.sorted, hlive, hmem,
    fun x t ht hcb => hs.find ((hmem x t ht).2 hcb), fun a ha => ?_,
    fun a r tm₁ x hact hstop tm₂ hr now address cbs tm₃ hlist cb hcb => ?_⟩
  · obtain ⟨t, ht⟩ := hlive x hx
    obtain ⟨u, hu⟩ := hlive y hy
    refine ⟨t, u, ht, hu, (Timer.comparator_some t u).1 ?_⟩
    rw [← ht, ← hu]
    exact hlt
  · obtain ⟨r, tm', hact, -⟩ := hs.act ha
    exact ⟨r, tm', hact⟩
  · obtain ⟨r', tm', hact', hk, hstops⟩ := hs.act (possible_of_act hs.lt_made hact)
    obtain ⟨rfl, rfl⟩ := Prod.mk.inj (Option.some.inj (hact.symm.trans hact'))
    obtain ⟨hlt, hnot⟩ := hstops x hstop
    have hk₂ := hk.sound.reachable hr
    obtain ⟨cbs', tm₃', hlist', -, hcbs⟩ := hk₂.sound.listExpiredCb now address
    obtain ⟨rfl, -⟩ := Prod.mk.inj (Option.some.inj (hlist.symm.trans hlist'))
    obtain ⟨t, ht, -, hne, -⟩ := hcbs _ hcb
    exact hnot (hk₂.armed x (hlt.trans_le hk.made_le) ⟨t, ht, hne⟩)

/-- Two timers with one deadline stand in the order of their addresses; one of them is cancelled,
the other one expires. -/
theorem timer_set_two : ∃ tm : TimerManager String,
    (machine String).run (init 0) [.addTimer 80 5 "a" false 1, .addTimer 48 4 "b" false 2] =
      some tm ∧ tm.timers = [1, 0] ∧
    (∀ x ∈ tm.timers, ∃ t, tm.objects x = some t) ∧
    ∃ tm₁ tm₂ tm₃, tm.act (.cancel 0) = some (.returned true, tm₁) ∧
      tm₁.listExpiredCb 9 16 = some ([(1, some "b")], tm₂) ∧
      tm₂.listExpiredCb 9 16 = some ([], tm₃) ∧ (0, some "a") ∉ [(1, some "b")] := by
  have h : ((machine String).run (init 0)
      [.addTimer 80 5 "a" false 1, .addTimer 48 4 "b" false 2]).bind (fun tm =>
        (tm.cancel 0).bind fun p => (p.2.listExpiredCb 9 16).bind fun q =>
          (q.2.listExpiredCb 9 16).map fun r => ((tm.timers, p.1), q.1, r.1)) =
      some (([1, 0], true), [(1, some "b")], []) := by decide +kernel
  obtain ⟨tm, htm, h⟩ := Option.bind_eq_some_iff.1 h
  obtain ⟨⟨b, tm₁⟩, hcancel, h⟩ := Option.bind_eq_some_iff.1 h
  obtain ⟨⟨cbs, tm₂⟩, hlist, h⟩ := Option.bind_eq_some_iff.1 h
  obtain ⟨⟨cbs', tm₃⟩, hlist', h⟩ := Option.map_eq_some_iff.1 h
  simp only [Prod.mk.injEq] at h
  obtain ⟨⟨htimers, rfl⟩, rfl, rfl⟩ := h
  have hset := timer_set (Machine.reachable_of_run htm)
  have hact : tm.act (.cancel 0) = some (.returned true, tm₁) := by simp [act, hcancel]
  exact ⟨tm, htm, htimers, hset.2.1, tm₁, tm₂, tm₃, hact, hlist, hlist',
    hset.2.2.2.2.2 _ _ _ 0 hact ⟨rfl, rfl⟩ tm₁ .refl 9 16 _ tm₂ hlist (some "a")⟩

end TimerManager

end KvRaft
