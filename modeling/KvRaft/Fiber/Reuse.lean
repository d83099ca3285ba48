import KvRaft.Fiber.Hook

/-!
# Reuse of descriptors

A call that a close has found suspended makes its system call on whatever file has the number when
it is resumed (`Hook.not_calls_spared`).

* `Hook.Inv` : as long as the steps meet the condition `Hook.Settled`, such a call finds no file, or
  the close is still under way.
* `Hook.calls_spared` : the call is spared the later files.
-/

namespace KvRaft

namespace Hook

/-! ### The invariant -/

variable {h h' : Hook} {c : ℕ} {call : IoCall} {fd : ℕ} {event : Event}

/-- A close of the descriptor has not come to its end. -/
def Closing (h : Hook) (fd : ℕ) : Prop := ∃ close ∈ h.closes, close.fd = fd ∧ close.stage ≠ .done

/-- A call is in order.  One that was suspended at a close finds no file if it tries again, or
the close is still under way. -/
structure Clean (h : Hook) (call : IoCall) : Prop where
  touched_lt : ∀ g ∈ call.touched, g < h.nextFile
  old : ∀ n, call.closed = some n → ∀ g ∈ call.touched, g < n
  stopped : call.closed.isSome → call.pc = .retry ∨ call.pc = .suspended ∨ call.pc = .woken ∨
    call.pc = .returned false
  waits : call.closed.isSome → call.pc ≠ .returned false → (call.pc = .woken → ¬ call.cancelled) →
    h.files call.fd = none ∨ h.Closing call.fd

/-- **The invariant of the runs that meet the condition.** -/
structure Inv (h : Hook) : Prop where
  clean : ∀ call ∈ h.calls, h.Clean call
  registered : ∀ fd event c, h.events fd event = some c → ∃ call, h.calls[c]? = some call ∧
    call.pc = .suspended ∧ call.fd = fd ∧ call.event = event
  suspended : ∀ (c : ℕ) call, h.calls[c]? = some call → call.pc = .suspended →
    h.events call.fd call.event = some c
  watched : ∀ fd event c, h.events fd event = some c → h.interest fd ∧ (h.files fd).isSome
  /-- No event is registered between `cancelAll` and `close_f`. -/
  cleared : ∀ close ∈ h.closes, close.stage = .del ∨ close.stage = .closeF →
    ∀ event, h.events close.fd event = none
  files_lt : ∀ fd g, h.files fd = some g → g < h.nextFile

theorem Inv.spares (h₀ : h.Inv) : h.Spares := by
  refine ⟨?_, ?_, ?_⟩
  · intro c call n hc
    exact (h₀.clean call (List.mem_of_getElem? hc)).old n
  · intro c call hc hclosed hpc
    have hstop := (h₀.clean call (List.mem_of_getElem? hc)).stopped hclosed
    simp [hpc] at hstop
  · intro c call hc hclosed hpc
    have hreg := h₀.suspended c call hc hpc
    have hfile := (h₀.watched _ _ c hreg).2
    rcases (h₀.clean call (List.mem_of_getElem? hc)).waits hclosed (by simp [hpc])
      (by simp [hpc]) with hnone | ⟨close, hmem, hfd, hstage⟩
    · simp [hnone] at hfile
    · refine ⟨close, hmem, hfd, ?_⟩
      have hclear := h₀.cleared close hmem
      rw [hfd] at hclear
      cases hs : close.stage with
      | cancelAll => rfl
      | del => simp [hclear (.inl hs) call.event] at hreg
      | closeF => simp [hclear (.inr hs) call.event] at hreg
      | done => exact absurd hs hstage

/-- Whether a call is in order depends on the files and the closes. -/
theorem Clean.congr (h₀ : h.Clean call) (hfiles : h'.files = h.files)
    (hnext : h'.nextFile = h.nextFile) (hcloses : h'.closes = h.closes) : h'.Clean call := by
  obtain ⟨htouched, hold, hstop, hwait⟩ := h₀
  refine ⟨?_, hold, hstop, ?_⟩
  · rwa [hnext]
  · rwa [hfiles, Closing, hcloses]

theorem getElem?_modifyCall (hc : h.calls[c]? = some call) (f : IoCall → IoCall) (c' : ℕ) :
    (h.modifyCall c f).calls[c']? = if c = c' then some (f call) else h.calls[c']? := by
  simp only [modifyCall, List.getElem?_modify]
  split_ifs with heq
  · subst heq
    simp [hc]
  · simp

theorem events_setEvent (h : Hook) (fd : ℕ) (event : Event) (c : Option ℕ) (fd' : ℕ)
    (event' : Event) : (h.setEvent fd event c).events fd' event' =
      if fd' = fd ∧ event' = event then c else h.events fd' event' := by
  show Function.update h.events fd (Function.update (h.events fd) event c) fd' event' = _
  by_cases hfd : fd' = fd
  · subst hfd
    rw [Function.update_self, Function.update_apply]
    simp
  · rw [Function.update_of_ne hfd, if_neg fun hand => hfd hand.1]

/-- A call changes that keeps its descriptor and event and stays registered or unregistered. -/
theorem Inv.modifyCall (h₀ : h.Inv) {f : IoCall → IoCall} (hc : h.calls[c]? = some call)
    (hfd : (f call).fd = call.fd) (hevent : (f call).event = call.event)
    (hpc : (f call).pc = .suspended ↔ call.pc = .suspended) (hclean : h.Clean (f call)) :
    (h.modifyCall c f).Inv := by
  have hget := getElem?_modifyCall hc f
  refine ⟨?_, ?_, ?_, h₀.watched, h₀.cleared, h₀.files_lt⟩
  · intro call' hmem
    obtain ⟨c', hc'⟩ := List.mem_iff_getElem?.1 hmem
    rw [hget] at hc'
    split_ifs at hc'
    · obtain rfl := Option.some.inj hc'
      exact hclean.congr rfl rfl rfl
    · exact (h₀.clean call' (List.mem_of_getElem? hc')).congr rfl rfl rfl
  · intro fd event c' hreg
    obtain ⟨call', hc', hcall'⟩ := h₀.registered fd event c' hreg
    rw [hget]
    grind
  · intro c' call' hc' hsusp
    rw [hget] at hc'
    have hold := h₀.suspended c'
    show h.events call'.fd call'.event = some c'
    grind

/-- A call changes, and with it the registration for its event, which is its own. -/
theorem Inv.moveCall (h₀ : h.Inv) {f : IoCall → IoCall} {reg : Option ℕ}
    (hc : h.calls[c]? = some call) (hfd : (f call).fd = call.fd)
    (hevent : (f call).event = call.event)
    (hreg : reg = some c ∧ (f call).pc = .suspended ∨ reg = none ∧ (f call).pc ≠ .suspended)
    (hown : ∀ c', h.events call.fd call.event = some c' → c' = c) (hclean : h.Clean (f call))
    (hwatch : reg ≠ none → h.interest call.fd ∧ (h.files call.fd).isSome)
    (hset : reg ≠ none → ∀ close ∈ h.closes, close.fd = call.fd →
      close.stage ≠ .del ∧ close.stage ≠ .closeF) :
    Inv ((h.setEvent call.fd call.event reg).modifyCall c f) := by
  have hev := events_setEvent h call.fd call.event reg
  have hget : ∀ c', ((h.setEvent call.fd call.event reg).modifyCall c f).calls[c']? =
      if c = c' then some (f call) else h.calls[c']? := getElem?_modifyCall hc f
  refine ⟨?_, ?_, ?_, ?_, ?_, h₀.files_lt⟩
  · intro call' hmem
    obtain ⟨c', hc'⟩ := List.mem_iff_getElem?.1 hmem
    rw [hget] at hc'
    split_ifs at hc'
    · obtain rfl := Option.some.inj hc'
      exact hclean.congr rfl rfl rfl
    · exact (h₀.clean call' (List.mem_of_getElem? hc')).congr rfl rfl rfl
  · intro fd event c' hreg'
    have hreg' := (hev fd event).symm.trans hreg'
    rw [hget]
    have hold := h₀.registered fd event c'
    grind
  · intro c' call' hc' hsusp
    rw [hget] at hc'
    refine (hev call'.fd call'.event).trans ?_
    have hold := h₀.suspended c' call'
    grind
  · intro fd event c' hreg'
    have hreg' := (hev fd event).symm.trans hreg'
    have hold := h₀.watched fd event c'
    show h.interest fd ∧ (h.files fd).isSome
    grind
  · intro close hmem hstage event
    refine (hev close.fd event).trans ?_
    have hopen := fun hne => hset hne close hmem
    have hold := h₀.cleared close hmem hstage event
    grind

theorem registered_eq_false :
    h.registered fd = false ↔ ∀ event, h.events fd event = none := by
  unfold registered
  rw [Bool.or_eq_false_iff, Option.isSome_eq_false_iff, Option.isSome_eq_false_iff,
    Option.isNone_iff_eq_none, Option.isNone_iff_eq_none]
  refine ⟨fun hnone event => ?_, fun hnone => ⟨hnone .read, hnone .write⟩⟩
  cases event with
  | read => exact hnone.1
  | write => exact hnone.2

theorem Inv.setInterest (h₀ : h.Inv) {v : Bool} (hv : h.registered fd → v) :
    (h.setInterest fd v).Inv := by
  refine ⟨fun call hmem => (h₀.clean call hmem).congr rfl rfl rfl, h₀.registered, h₀.suspended,
    ?_, h₀.cleared, h₀.files_lt⟩
  · intro fd' event c hreg
    have hreg : h.events fd' event = some c := hreg
    refine ⟨?_, (h₀.watched fd' event c hreg).2⟩
    show Function.update h.interest fd v fd'
    by_cases hfd : fd' = fd
    · subst hfd
      rw [Function.update_self]
      refine hv ?_
      by_contra hnone
      have hnone := registered_eq_false.1 (Bool.eq_false_of_not_eq_true hnone) event
      cases hnone.symm.trans hreg
    · rw [Function.update_of_ne hfd]
      exact (h₀.watched fd' event c hreg).1

theorem onCall_eq_some {p : IoCall → Bool} {body : IoCall → Option Hook} :
    h.onCall c p body = some h' ↔
      ∃ call, h.calls[c]? = some call ∧ p call ∧ body call = some h' := by
  unfold onCall
  split
  · rename_i call hc
    simp [hc]
  · rename_i hc
    simp [hc]

theorem Inv.socket (h₀ : h.Inv) (hset : h.Settled (.socket fd)) (hst : h.socket fd = some h') :
    h'.Inv := by
  unfold Hook.socket at hst
  split_ifs at hst with hfree
  obtain rfl := Option.some.inj hst
  obtain ⟨hclean, hreg, hsusp, hwatch, hclear, hlt⟩ := h₀
  refine ⟨?_, hreg, hsusp, ?_, hclear, ?_⟩
  · intro call hmem
    obtain ⟨htouched, hold, hstop, hwait⟩ := hclean call hmem
    refine ⟨fun g hg => Nat.lt_succ_of_lt (htouched g hg), hold, hstop, ?_⟩
    intro hclosed hpc hwoken
    have hset := hset call hmem
    rcases hwait hclosed hpc hwoken with hnone | hclosing
    · by_cases hfd : call.fd = fd
      · exfalso
        obtain ⟨c, hc⟩ := List.mem_iff_getElem?.1 hmem
        have := hset hfd hclosed
        have := hsusp c call hc
        have := hwatch call.fd call.event c
        grind
      · left
        simpa [hfd] using hnone
    · exact .inr hclosing
  · intro fd' event c hev
    have := hwatch fd' event c hev
    grind
  · intro fd' g hg
    show g < h.nextFile + 1
    have hg : Function.update h.files fd (some h.nextFile) fd' = some g := hg
    by_cases hfd : fd' = fd
    · subst hfd
      rw [Function.update_self] at hg
      exact Nat.lt_succ_of_le (Option.some.inj hg).ge
    · rw [Function.update_of_ne hfd] at hg
      exact Nat.lt_succ_of_lt (hlt fd' g hg)

/-- What happens to the contexts of `FdManager` does not matter. -/
theorem Inv.setDatas (h₀ : h.Inv) (datas : ℕ → Option FdCtx) : Inv { h with datas } :=
  ⟨fun call hmem => (h₀.clean call hmem).congr rfl rfl rfl, h₀.registered, h₀.suspended,
    h₀.watched, h₀.cleared, h₀.files_lt⟩

theorem Inv.doIo (h₀ : h.Inv) (fd : ℕ) (event : Event) : (h.doIo fd event).Inv := by
  have hcases : (h.enter fd event).touched = [] ∧ (h.enter fd event).closed = none ∧
      (h.enter fd event).pc ≠ .suspended := by
    unfold enter
    split
    · simp
    · split_ifs <;> simp
  obtain ⟨htouched, hclosed, hpc⟩ := hcases
  refine ⟨?_, ?_, ?_, h₀.watched, h₀.cleared, h₀.files_lt⟩
  · intro call hmem
    rcases List.mem_append.1 hmem with hmem | hnew
    · exact (h₀.clean call hmem).congr rfl rfl rfl
    · obtain rfl := List.mem_singleton.1 hnew
      refine ⟨?_, ?_, ?_, ?_⟩
      all_goals simp [htouched, hclosed]
  · intro fd' event' c hev
    obtain ⟨call, hc, hcall⟩ := h₀.registered fd' event' c hev
    refine ⟨call, ?_, hcall⟩
    obtain ⟨hlt, -⟩ := List.getElem?_eq_some_iff.1 hc
    exact (List.getElem?_append_left hlt).trans hc
  · intro c call hc hsusp
    have hc : (h.calls ++ [h.enter fd event])[c]? = some call := hc
    rw [List.getElem?_append] at hc
    split_ifs at hc
    · exact h₀.suspended c call hc hsusp
    · obtain rfl := List.mem_singleton.1 (List.mem_of_getElem? hc)
      exact absurd hsusp hpc

theorem Inv.syscall (h₀ : h.Inv) {r : SysResult} (hset : h.Settled (.syscall c r))
    (hst : h.syscall c r = some h') : h'.Inv := by
  obtain ⟨call, hc, hpc, hst⟩ := onCall_eq_some.1 hst
  obtain rfl := Option.some.inj hst
  have hpc : call.pc = .direct ∨ call.pc = .retry := by simpa using hpc
  obtain ⟨htouched, hold, hstop, hwait⟩ := h₀.clean call (List.mem_of_getElem? hc)
  refine h₀.modifyCall hc ?_ ?_ ?_ ?_
  · unfold IoCall.syscall
    split <;> rfl
  · unfold IoCall.syscall
    split <;> rfl
  · unfold IoCall.syscall
    split
    · grind
    · cases r <;> grind
  · cases hfile : h.files call.fd with
    | none => exact ⟨htouched, hold, fun _ => by simp [IoCall.syscall],
        fun _ hne => absurd rfl hne⟩
    | some g =>
      -- A call that a close has found suspended does not come here.
      have hopen : call.closed = none := by
        by_contra hne
        have hclosed := Option.isSome_iff_ne_none.2 hne
        have hretry : call.pc = .retry := by
          rcases hpc with hpc | hpc
          · simpa [hpc] using hstop hclosed
          · exact hpc
        rcases hwait hclosed (by simp [hretry]) (by simp [hretry]) with hnone | hclosing
        · simp [hnone] at hfile
        · obtain ⟨close, hmem, hfd, hstage⟩ := hclosing
          exact hstage (hset call hc hclosed close hmem hfd)
      refine ⟨?_, ?_, ?_, ?_⟩
      · intro g' hg'
        rcases List.mem_append.1 hg' with hmem | hnew
        · exact htouched g' hmem
        · obtain rfl := List.mem_singleton.1 hnew
          exact h₀.files_lt call.fd g' hfile
      all_goals simp [IoCall.syscall, hopen]

theorem Inv.addTimer (h₀ : h.Inv) (hst : h.addTimer c = some h') : h'.Inv := by
  obtain ⟨call, hc, hpc, hst⟩ := onCall_eq_some.1 hst
  obtain rfl := Option.some.inj hst
  have hpc : call.pc = .again := by simpa using hpc
  obtain ⟨htouched, hold, hstop, hwait⟩ := h₀.clean call (List.mem_of_getElem? hc)
  have hopen : ¬ call.closed.isSome := fun hclosed => by simpa [hpc] using hstop hclosed
  exact h₀.modifyCall hc rfl rfl (by simp [hpc])
    ⟨htouched, hold, fun hclosed => absurd hclosed hopen, fun hclosed => absurd hclosed hopen⟩

theorem Inv.expire (h₀ : h.Inv) (hst : h.expire c = some h') : h'.Inv := by
  obtain ⟨call, hc, -, hst⟩ := onCall_eq_some.1 hst
  obtain rfl := Option.some.inj hst
  obtain ⟨htouched, hold, hstop, hwait⟩ := h₀.clean call (List.mem_of_getElem? hc)
  refine h₀.modifyCall hc rfl rfl Iff.rfl ⟨htouched, hold, hstop, ?_⟩
  intro hclosed hpc hwoken
  exact hwait hclosed hpc fun hw => absurd rfl (hwoken hw)

theorem Inv.resume (h₀ : h.Inv) (hst : h.resume c = some h') : h'.Inv := by
  obtain ⟨call, hc, hpc, hst⟩ := onCall_eq_some.1 hst
  obtain rfl := Option.some.inj hst
  have hpc : call.pc = .woken := by simpa using hpc
  obtain ⟨htouched, hold, hstop, hwait⟩ := h₀.clean call (List.mem_of_getElem? hc)
  refine h₀.modifyCall hc rfl rfl ?_ ⟨htouched, hold, ?_, ?_⟩
  · unfold IoCall.resume
    grind
  · intro _
    unfold IoCall.resume
    grind
  · intro hclosed hne _
    have hcancel : ¬ call.cancelled := by
      unfold IoCall.resume at hne
      grind
    exact hwait hclosed (by simp [hpc]) fun _ => hcancel

theorem files_of_epollOk {op : EpollOp} (hok : h.epollOk fd op) : (h.files fd).isSome := by
  cases op <;> simp only [epollOk, Bool.and_eq_true] at hok <;> exact hok.1

/-- A call that no close has found registers its event. -/
theorem Inv.register (h₀ : h.Inv) (hc : h.calls[c]? = some call) (hpc : call.pc = .adding)
    (hfile : (h.files call.fd).isSome) (hreg : h.events call.fd call.event = none)
    (hset : ∀ close ∈ h.closes, close.fd = call.fd → close.stage ≠ .del ∧ close.stage ≠ .closeF) :
    Inv (((h.setInterest call.fd true).setEvent call.fd call.event (some c)).modifyCall c
      fun call => { call with pc := .suspended }) := by
  have hinv : (h.setInterest call.fd true).Inv := h₀.setInterest fun _ => rfl
  obtain ⟨htouched, hold, hstop, hwait⟩ := hinv.clean call (List.mem_of_getElem? hc)
  have hopen : ¬ call.closed.isSome := fun hclosed => by simpa [hpc] using hstop hclosed
  refine hinv.moveCall hc rfl rfl (.inl ⟨rfl, rfl⟩) (fun c' hc' => ?_)
    ⟨htouched, hold, fun hclosed => absurd hclosed hopen, fun hclosed => absurd hclosed hopen⟩
    (fun _ => ⟨Function.update_self .., hfile⟩) fun _ => hset
  cases hreg.symm.trans hc'

theorem Inv.addEvent (h₀ : h.Inv) (hset : h.Settled (.addEvent c))
    (hst : h.addEvent c = some h') : h'.Inv := by
  obtain ⟨call, hc, hpc, hst⟩ := onCall_eq_some.1 hst
  have hpc : call.pc = .adding := by simpa using hpc
  obtain ⟨htouched, hold, hstop, hwait⟩ := h₀.clean call (List.mem_of_getElem? hc)
  have hopen : ¬ call.closed.isSome := fun hclosed => by simpa [hpc] using hstop hclosed
  by_cases hreg : (h.events call.fd call.event).isSome
  · rw [if_pos hreg] at hst
    cases hst
  rw [if_neg hreg] at hst
  by_cases hepoll : h.epollOk call.fd (if h.registered call.fd then .mod else .add)
  · rw [if_pos hepoll] at hst
    obtain rfl := Option.some.inj hst
    exact h₀.register hc hpc (files_of_epollOk hepoll) (by simpa using hreg) (hset call hc)
  · rw [if_neg hepoll] at hst
    obtain rfl := Option.some.inj hst
    exact h₀.modifyCall hc rfl rfl (by simp [hpc])
      ⟨htouched, hold, fun hclosed => absurd hclosed hopen, fun hclosed => absurd hclosed hopen⟩

/-! ### Events that are triggered -/

theorem events_triggerEvent (h : Hook) (fd : ℕ) (event : Event) (fd' : ℕ) (event' : Event) :
    (h.triggerEvent fd event).events fd' event' =
      if fd' = fd ∧ event' = event then none else h.events fd' event' := by
  unfold triggerEvent
  split
  · exact events_setEvent h fd event none fd' event'
  · rename_i hnone
    split_ifs with hsame
    · rw [hsame.1, hsame.2, hnone]
    · rfl

theorem triggerEvent_setInterest (h : Hook) (fd fd' : ℕ) (event : Event) (v : Bool) :
    (h.setInterest fd' v).triggerEvent fd event = (h.triggerEvent fd event).setInterest fd' v := by
  have hev : (h.setInterest fd' v).events = h.events := rfl
  unfold triggerEvent
  rw [hev]
  split <;> rfl

@[simp] theorem closes_triggerEvent (h : Hook) (fd : ℕ) (event : Event) :
    (h.triggerEvent fd event).closes = h.closes := by
  unfold triggerEvent
  split <;> rfl

theorem Inv.triggerEvent (h₀ : h.Inv) (fd : ℕ) (event : Event) :
    (h.triggerEvent fd event).Inv := by
  unfold Hook.triggerEvent
  cases hreg : h.events fd event with
  | none => exact h₀
  | some c =>
    obtain ⟨call, hc, hpc, rfl, rfl⟩ := h₀.registered fd event c hreg
    obtain ⟨htouched, hold, hstop, hwait⟩ := h₀.clean call (List.mem_of_getElem? hc)
    refine h₀.moveCall hc rfl rfl (.inr ⟨rfl, by simp⟩) (fun c' hc' => ?_)
      ⟨htouched, hold, fun _ => by simp, fun hclosed _ _ => ?_⟩ (by simp) (by simp)
    · exact Option.some.inj (hc'.symm.trans hreg)
    · exact hwait hclosed (by simp [hpc]) (by simp [hpc])

theorem Inv.trigger (h₀ : h.Inv) (hst : h.trigger fd event = some h') : h'.Inv := by
  unfold Hook.trigger at hst
  split_ifs at hst
  obtain rfl := Option.some.inj hst
  exact (h₀.triggerEvent fd event).setInterest id

/-- `cancelAll` triggers whatever is registered. -/
theorem Inv.cancelAll (h₀ : h.Inv) (fd : ℕ) :
    (h.cancelAll fd).Inv ∧ (∀ event, (h.cancelAll fd).events fd event = none) ∧
      (h.cancelAll fd).closes = h.closes := by
  unfold Hook.cancelAll
  cases hreg : h.registered fd with
  | false => exact ⟨by simpa using h₀, by simpa using registered_eq_false.1 hreg, by simp⟩
  | true =>
    have hok : h.epollOk fd .del := by
      by_contra hfail
      have hnone : ∀ event, h.events fd event = none := by
        intro event
        by_contra hne
        obtain ⟨c, hc⟩ := Option.ne_none_iff_exists'.1 hne
        have := h₀.watched fd event c hc
        simp [epollOk, this] at hfail
      rw [registered_eq_false.2 hnone] at hreg
      cases hreg
    rw [hok, Bool.and_self, if_pos rfl, triggerEvent_setInterest, triggerEvent_setInterest]
    have hnone : ∀ event, ((h.triggerEvent fd .read).triggerEvent fd .write).events fd event =
        none := by
      intro event
      rw [events_triggerEvent, events_triggerEvent]
      cases event <;> simp
    refine ⟨?_, hnone, ?_⟩
    · refine ((h₀.triggerEvent fd .read).triggerEvent fd .write).setInterest fun hreg => ?_
      rw [registered_eq_false.2 hnone] at hreg
      cases hreg
    · exact (closes_triggerEvent _ fd .write).trans (closes_triggerEvent h fd .read)

/-! ### Closes -/

/-- A close that is called at `cancelAll`, or else when no event is registered. -/
theorem Inv.addClose (h₀ : h.Inv) (close : CloseCall)
    (hclear : close.stage = .cancelAll ∨ h.registered close.fd = false) :
    Inv { h with closes := h.closes ++ [close] } := by
  refine ⟨fun call hmem => ?_, h₀.registered, h₀.suspended, h₀.watched, ?_, h₀.files_lt⟩
  · obtain ⟨htouched, hold, hstop, hwait⟩ := h₀.clean call hmem
    refine ⟨htouched, hold, hstop, fun hclosed hpc hwoken => ?_⟩
    rcases hwait hclosed hpc hwoken with hnone | ⟨close', hmem', hclose'⟩
    · exact .inl hnone
    · exact .inr ⟨close', List.mem_append_left _ hmem', hclose'⟩
  · intro close' hmem hstage
    rcases List.mem_append.1 hmem with hmem | hnew
    · exact h₀.cleared close' hmem hstage
    · obtain rfl := List.mem_singleton.1 hnew
      rcases hclear with hcancel | hnone
      · simp [hcancel] at hstage
      · exact registered_eq_false.1 hnone

/-- The calls that are suspended on a descriptor are marked while it is being closed. -/
theorem Inv.markCalls (h₀ : h.Inv) (hfree : h.Closing fd) : (h.markCalls fd).Inv := by
  have hget : ∀ c : ℕ, (h.markCalls fd).calls[c]? = (h.calls[c]?).map (.mark fd h.nextFile) :=
    fun c => List.getElem?_map
  refine ⟨?_, ?_, ?_, h₀.watched, h₀.cleared, h₀.files_lt⟩
  · intro call' hmem
    obtain ⟨call, hcall, rfl⟩ := List.mem_map.1 hmem
    obtain ⟨htouched, hold, hstop, hwait⟩ := h₀.clean call hcall
    unfold IoCall.mark
    split_ifs with hmark
    · refine ⟨htouched, ?_, fun _ => .inr (hmark.2.imp id .inl), fun _ _ _ => ?_⟩
      · intro n hn g hg
        rcases Option.or_eq_some_iff.1 hn with hold' | ⟨-, hnew⟩
        · exact hold n hold' g hg
        · exact Option.some.inj hnew ▸ htouched g hg
      · right
        rw [hmark.1]
        exact hfree
    · exact ⟨htouched, hold, hstop, hwait⟩
  · intro fd' event c hreg
    obtain ⟨call, hc, hcall⟩ := h₀.registered fd' event c hreg
    have hmark := IoCall.mark_eq fd h.nextFile call
    refine ⟨call.mark fd h.nextFile, ?_, ?_⟩
    · rw [hget, hc, Option.map_some]
    · grind
  · intro c call' hc hsusp
    rw [hget] at hc
    obtain ⟨call, hcall, rfl⟩ := Option.map_eq_some_iff.1 hc
    have hmark := IoCall.mark_eq fd h.nextFile call
    have := h₀.suspended c call hcall
    show h.events _ _ = _
    grind

/-- The number is free, and no event is registered for it. -/
theorem Inv.free (h₀ : h.Inv) (hnone : ∀ event, h.events fd event = none) :
    Inv { h with
      files := Function.update h.files fd none
      interest := Function.update h.interest fd false } := by
  refine ⟨fun call hmem => ?_, h₀.registered, h₀.suspended, ?_, h₀.cleared, ?_⟩
  · obtain ⟨htouched, hold, hstop, hwait⟩ := h₀.clean call hmem
    refine ⟨htouched, hold, hstop, fun hclosed hpc hwoken => ?_⟩
    refine (hwait hclosed hpc hwoken).imp_left fun hfile => ?_
    show Function.update h.files fd none call.fd = none
    rw [Function.update_apply]
    split_ifs
    · rfl
    · exact hfile
  · intro fd' event c hreg
    have hreg : h.events fd' event = some c := hreg
    have hne : fd' ≠ fd := by
      rintro rfl
      simp [hnone event] at hreg
    simpa [hne] using h₀.watched fd' event c hreg
  · intro fd' g hg
    have hg : Function.update h.files fd none fd' = some g := hg
    rw [Function.update_apply] at hg
    split_ifs at hg
    exact h₀.files_lt fd' g hg

/-- A close comes to its next section. -/
theorem Inv.setStage (h₀ : h.Inv) {k : ℕ} {close : CloseCall} {stage : CloseStage}
    (hk : h.closes[k]? = some close)
    (hclear : stage = .del ∨ stage = .closeF → ∀ event, h.events close.fd event = none)
    (hdone : stage = .done → h.files close.fd = none) : (h.setStage k stage).Inv := by
  have hget : ∀ k' : ℕ, (h.setStage k stage).closes[k']? =
      if k = k' then some { close with stage } else h.closes[k']? := by
    intro k'
    show (h.closes.modify k _)[k']? = _
    rw [List.getElem?_modify]
    split_ifs with heq
    · rw [← heq, hk]
      rfl
    · exact Option.map_id_apply
  refine ⟨fun call hmem => ?_, h₀.registered, h₀.suspended, h₀.watched, ?_, h₀.files_lt⟩
  · obtain ⟨htouched, hold, hstop, hwait⟩ := h₀.clean call hmem
    refine ⟨htouched, hold, hstop, fun hclosed hpc hwoken => ?_⟩
    rcases hwait hclosed hpc hwoken with hfile | ⟨close', hmem', hfd, hstage⟩
    · exact .inl hfile
    · obtain ⟨k', hk'⟩ := List.mem_iff_getElem?.1 hmem'
      have hnew := hget k'
      split_ifs at hnew with heq
      · subst heq
        obtain rfl := Option.some.inj (hk.symm.trans hk')
        by_cases hs : stage = .done
        · exact .inl (hfd ▸ hdone hs)
        · exact .inr ⟨_, List.mem_of_getElem? hnew, hfd, hs⟩
      · exact .inr ⟨close', List.mem_of_getElem? (hnew.trans hk'), hfd, hstage⟩
  · intro close' hmem hstage
    obtain ⟨k', hk'⟩ := List.mem_iff_getElem?.1 hmem
    rw [hget] at hk'
    split_ifs at hk'
    · obtain rfl := Option.some.inj hk'
      exact hclear hstage
    · exact h₀.cleared close' (List.mem_of_getElem? hk') hstage

theorem Inv.close (h₀ : h.Inv) {iom : Bool} (hset : h.Settled (.close fd iom)) :
    (h.close fd iom).Inv := by
  have hset : h.datas fd = none ∨ iom = false → h.registered fd = false := hset
  refine (h₀.addClose _ ?_).markCalls
    ⟨_, List.mem_append_right _ (List.mem_singleton_self _), rfl, ?_⟩
  · cases hdata : h.datas fd <;> cases iom <;> simp_all
  · cases h.datas fd <;> cases iom <;> simp

theorem Inv.closeNext (h₀ : h.Inv) {k : ℕ} (hst : h.closeNext k = some h') : h'.Inv := by
  unfold Hook.closeNext at hst
  split at hst
  · rename_i fd hk
    obtain rfl := Option.some.inj hst
    obtain ⟨hinv, hnone, hcloses⟩ := h₀.cancelAll fd
    exact hinv.setStage (hcloses ▸ hk) (fun _ => hnone) (by simp)
  · rename_i fd hk
    obtain rfl := Option.some.inj hst
    have hnone := h₀.cleared _ (List.mem_of_getElem? hk) (.inl rfl)
    exact (h₀.setDatas _).setStage hk (fun _ => hnone) (by simp)
  · rename_i fd hk
    obtain rfl := Option.some.inj hst
    have hnone := h₀.cleared _ (List.mem_of_getElem? hk) (.inr rfl)
    have hmark := h₀.markCalls ⟨_, List.mem_of_getElem? hk, rfl, by simp⟩
    exact (hmark.free hnone).setStage hk (by simp) fun _ => Function.update_self ..
  · cases hst

theorem Inv.step (h₀ : h.Inv) {a : HookAction} (hset : h.Settled a)
    (hst : h.step a = some h') : h'.Inv := by
  cases a with
  | socket fd => exact h₀.socket hset hst
  | get fd =>
    obtain rfl := Option.some.inj hst
    exact h₀.setDatas _
  | setUserNonblock fd v =>
    obtain rfl := Option.some.inj hst
    unfold Hook.setUserNonblock
    split
    · exact h₀
    · split_ifs
      · exact h₀
      · exact h₀.setDatas _
  | setTimeout fd event v =>
    obtain rfl := Option.some.inj hst
    unfold Hook.setTimeout
    split
    · exact h₀
    · exact h₀.setDatas _
  | doIo fd event =>
    obtain rfl := Option.some.inj hst
    exact h₀.doIo fd event
  | syscall c r => exact h₀.syscall hset hst
  | addTimer c => exact h₀.addTimer hst
  | addEvent c => exact h₀.addEvent hset hst
  | expire c => exact h₀.expire hst
  | trigger fd event => exact h₀.trigger hst
  | resume c => exact h₀.resume hst
  | close fd iom =>
    obtain rfl := Option.some.inj hst
    exact h₀.close hset
  | closeNext k => exact h₀.closeNext hst

theorem inv_init : init.Inv := by
  refine ⟨?_, ?_, ?_, ?_, ?_, ?_⟩
  all_goals simp [init]

/-- **A hooked call is spared the later files** in every run that meets the condition. -/
theorem calls_spared {h : Hook} (hr : machine.Reaches Settled init h) : h.Spares :=
  (hr.invariant inv_init fun _ _ _ h₀ hset hst => h₀.step hset hst).spares

/-- A call waits for a new socket, which is then closed. -/
def closeWhileWaiting (fd : ℕ) : List HookAction :=
  [.socket fd, .get fd, .doIo fd .read, .syscall 0 .eagain, .addTimer 0, .addEvent 0,
    .close fd true, .closeNext 0]

/-- The number is given out again after the call has returned. -/
def closeThenSocket : List HookAction :=
  closeWhileWaiting 5 ++ [.resume 0, .closeNext 0, .closeNext 0, .syscall 0 .ok, .socket 5, .get 5]

theorem closeThenSocket_eq : (machine.runWhere Settled init closeThenSocket).map (fun h =>
    (h.files 5, h.calls.map fun call => (call.pc, call.closed, call.touched))) =
      some (some 1, [(.returned false, some 1, [0])]) := by
  decide +kernel

theorem calls_spared_closeThenSocket :
    ∃ h, machine.runWhere Settled init closeThenSocket = some h ∧ h.files 5 = some 1 ∧
      h.Spares := by
  obtain ⟨h, hrun, hend⟩ := Option.map_eq_some_iff.1 closeThenSocket_eq
  exact ⟨h, hrun, congrArg Prod.fst hend, calls_spared (Machine.reaches_of_runWhere hrun)⟩

/-- The close frees the number before the call is resumed, and the next socket gets it. -/
def reused : List HookAction :=
  closeWhileWaiting 5 ++ [.closeNext 0, .closeNext 0, .socket 5, .get 5, .resume 0, .syscall 0 .ok]

theorem reused_eq : (machine.run init reused).map (fun h =>
    (h.calls[0]?).map fun call => (call.pc, call.closed, call.touched)) =
      some (some (.returned true, some 1, [0, 1])) := by
  decide +kernel

/-- A call that was suspended at the close reads from the socket that has the number next. -/
theorem not_calls_spared : ¬ ∀ h, machine.Reachable init h → h.Spares := by
  intro hall
  obtain ⟨h, hrun, hend⟩ := Option.map_eq_some_iff.1 reused_eq
  obtain ⟨call, hc, hcall⟩ := Option.map_eq_some_iff.1 hend
  obtain ⟨-, hclosed, htouched⟩ : call.pc = .returned true ∧ call.closed = some 1 ∧
      call.touched = [0, 1] := by simpa using hcall
  have hlt := (hall h (Machine.reachable_of_run hrun)).touched 0 call 1 hc hclosed 1
  simp [htouched] at hlt

end Hook

end KvRaft
