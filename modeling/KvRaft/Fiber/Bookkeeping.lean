import KvRaft.Fiber.Context
import KvRaft.LTS.Ledger

/-!
# Event bookkeeping

Threads call `addEvent`, `delEvent`, `cancelEvent` and `cancelAll`, and process results of
`epoll_wait` that were collected earlier, in any order (`EventLoop`).  `idle` compares the events
of a result with those registered only to see if they have any in common.  If they have one in
common and the result has another one that was removed meanwhile, it calls `triggerEvent` for both,
and the `CondPanic` there ends the process (`EventLoop.not_bookkeeping`).

* `EventLoop.Fresh` : the condition on a step.  A result that is processed has nothing but events
  that are registered, or none of them.
* `EventLoop.bookkeeping` : in every run that meets the condition the events are in order.
-/

namespace KvRaft

/-- Descriptors with their contexts, and the results of `epoll_wait` that the threads have collected
and not yet processed. -/
structure EventLoop where
  io : IOManager
  collected : List (ℕ × EpollEvent)
  /-- A `CondPanic` has ended the process. -/
  panicked : Bool

inductive EventAction where
  | addEvent (fd : ℕ) (event : Event) (scheduler fiber : ℕ) (cb : Option ℕ)
  | delEvent (fd : ℕ) (event : Event)
  | cancelEvent (fd : ℕ) (event : Event)
  | cancelAll (fd : ℕ)
  /-- `epoll_wait` returns a result for the descriptor to some thread. -/
  | epollWait (fd : ℕ) (event : EpollEvent)
  /-- A thread processes one of the results. -/
  | process (j : ℕ)
  deriving DecidableEq

namespace EventLoop

/-- No event is registered, and the context at each address is that of the descriptor with this
number. -/
def init : EventLoop where
  io :=
    { contexts := fun fd => { fd := fd }
      interest := fun _ => none
      pendingEventCnt := 0
      triggered := []
      registrations := [] }
  collected := []
  panicked := false

/-- What a section leaves behind. -/
def after (s : EventLoop) : Except Panic IOManager → EventLoop
  | .ok io => { s with io := io }
  | .error _ => { s with panicked := true }

/-- A section under `FdContext::mutex`.  Calls of `epoll_ctl` succeed, and no event is added that is
already registered. -/
def exec (s : EventLoop) : EventAction → Option EventLoop
  | .addEvent fd event scheduler fiber cb =>
    if event ∈ (s.io.contexts fd).events then none
    else some (s.after ((s.io.addEvent fd fd event scheduler fiber cb true).map Prod.snd))
  | .delEvent fd event => some { s with io := (s.io.delEvent fd fd event true).2 }
  | .cancelEvent fd event => some (s.after ((s.io.cancelEvent fd fd event true).map Prod.snd))
  | .cancelAll fd => some (s.after ((s.io.cancelAll fd fd true).map Prod.snd))
  | .epollWait fd event =>
    match s.io.interest fd with
    | some interest =>
      if event.events ⊆ interest ∧ (event.events ≠ ∅ ∨ event.errHup) then
        some { s with collected := s.collected ++ [(fd, event)] }
      else none
    | none => none
  | .process j =>
    match s.collected[j]? with
    | some (fd, event) =>
      some ({ s with collected := s.collected.eraseIdx j }.after (s.io.processEvent fd event true))
    | none => none

def step (s : EventLoop) (a : EventAction) : Option EventLoop :=
  if s.panicked then none else s.exec a

/-- The threads with the contexts as a machine. -/
def machine : Machine EventLoop EventAction := ⟨step⟩

end EventLoop

/-- The registered pairs of a descriptor and an event. -/
def IOManager.registered (io : IOManager) : Set (ℕ × Event) :=
  {p | p.2 ∈ (io.contexts p.1).events}

/-- **The events are in order.** -/
structure EventLoop.Bookkeeping (s : EventLoop) : Prop where
  /-- No `CondPanic` fires. -/
  panicked : s.panicked = false
  pending : s.io.registered.Finite ∧ s.io.pendingEventCnt = s.io.registered.ncard
  /-- A registration is triggered at most once, -/
  once : (s.io.triggered.map EventContext.registration).Nodup
  /-- and then with its own fiber or callback, which goes to its own scheduler. -/
  own : ∀ ctx ∈ s.io.triggered, ∃ k reg, ctx.registration = some k ∧
    s.io.registrations[k]? = some reg ∧ ctx.scheduler = some reg.scheduler ∧
    ctx.task = some reg.task

/-! ### Contexts -/

namespace FdContext

variable {c : FdContext} {event event' : Event} {ctx : EventContext}

@[simp] theorem events_setEveContext : (c.setEveContext event ctx).events = c.events := by
  cases event <;> rfl

@[simp] theorem getEveContext_setEveContext :
    (c.setEveContext event ctx).getEveContext event = ctx := by
  cases event <;> rfl

theorem getEveContext_setEveContext_of_ne (h : event' ≠ event) :
    (c.setEveContext event ctx).getEveContext event' = c.getEveContext event' := by
  cases event <;> cases event' <;> first | rfl | exact absurd rfl h

@[simp] theorem getEveContext_withEvents (events : Finset Event) :
    { c with events := events }.getEveContext event = c.getEveContext event := by
  cases event <;> rfl

/-- The context after an event is taken out. -/
def clear (c : FdContext) (event : Event) : FdContext :=
  { c with events := c.events.erase event }.resetEveContext event

@[simp] theorem events_clear : (c.clear event).events = c.events.erase event := by
  simp [clear, resetEveContext]

@[simp] theorem getEveContext_clear : (c.clear event).getEveContext event = {} := by
  simp [clear, resetEveContext]

theorem getEveContext_clear_of_ne (h : event' ≠ event) :
    (c.clear event).getEveContext event' = c.getEveContext event' := by
  rw [clear, resetEveContext, getEveContext_setEveContext_of_ne h, getEveContext_withEvents]

/-- The context after an event is put in. -/
def enter (c : FdContext) (event : Event) (ctx : EventContext) : FdContext :=
  { c with events := insert event c.events }.setEveContext event ctx

@[simp] theorem events_enter : (c.enter event ctx).events = insert event c.events := by
  simp [enter]

@[simp] theorem getEveContext_enter : (c.enter event ctx).getEveContext event = ctx := by
  simp [enter]

theorem getEveContext_enter_of_ne (h : event' ≠ event) :
    (c.enter event ctx).getEveContext event' = c.getEveContext event' := by
  rw [enter, getEveContext_setEveContext_of_ne h, getEveContext_withEvents]

theorem triggerEvent_eq (hmem : event ∈ c.events)
    (hs : (c.getEveContext event).scheduler ≠ none) :
    c.triggerEvent event = .ok (c.clear event, c.getEveContext event) := by
  simp [triggerEvent, hmem, hs, clear]

end FdContext

/-- The event context that a registration has filled. -/
def Registration.eventContext (reg : Registration) (k : ℕ) : EventContext where
  scheduler := some reg.scheduler
  fiber := match reg.task with
    | .fiber id => some id
    | .cb _ => none
  cb := match reg.task with
    | .fiber _ => none
    | .cb id => some id
  registration := some k

theorem Registration.task_eventContext (reg : Registration) (k : ℕ) :
    (reg.eventContext k).task = some reg.task := by
  unfold eventContext EventContext.task
  cases reg.task <;> rfl

namespace IOManager

/-- Each registered pair holds the number of its registration. -/
def ledger (io : IOManager) : Ledger (ℕ × Event) where
  held p := ((io.contexts p.1).getEveContext p.2).registration
  issued := io.registrations.length
  redeemed := io.triggered.filterMap EventContext.registration
  count := io.pendingEventCnt

/-- The event context of a pair is what the code takes it for. -/
inductive Slot (io : IOManager) (a : ℕ) (event : Event) : Prop
  | empty : event ∉ (io.contexts a).events → (io.contexts a).getEveContext event = {} →
      Slot io a event
  | filled (k : ℕ) (reg : Registration) : event ∈ (io.contexts a).events →
      io.registrations[k]? = some reg → (io.contexts a).getEveContext event = reg.eventContext k →
      Slot io a event

/-- **The contexts are in order.** -/
structure Tidy (io : IOManager) : Prop where
  slot : ∀ a event, io.Slot a event
  own : ∀ ctx ∈ io.triggered, ∃ (k : ℕ) (reg : Registration), io.registrations[k]? = some reg ∧
    ctx = reg.eventContext k
  ledger : io.ledger.Sound

variable {io : IOManager} {a : ℕ} {event : Event}

theorem Slot.held_isSome (h : io.Slot a event) :
    (io.ledger.held (a, event)).isSome = true ↔ event ∈ (io.contexts a).events := by
  cases h with
  | empty hmem hctx => simp [ledger, hmem, hctx]
  | filled k reg hmem _ hctx => simp [ledger, hmem, hctx, Registration.eventContext]

theorem Tidy.registered_eq (h : io.Tidy) : io.registered = io.ledger.full := by
  ext ⟨a, event⟩
  exact (h.slot a event).held_isSome.symm

@[simp] theorem contexts_epollCtl (op : EpollOp) (fd : ℕ) (events : Finset Event) :
    (io.epollCtl op fd events).contexts = io.contexts := rfl

/-- What is in the epoll set is of no matter to the contexts. -/
theorem Tidy.epollCtl (h : io.Tidy) (op : EpollOp) (fd : ℕ) (events : Finset Event) :
    (io.epollCtl op fd events).Tidy where
  slot a event := by
    cases h.slot a event with
    | empty hmem hctx => exact .empty hmem hctx
    | filled k reg hmem hreg hctx => exact .filled k reg hmem hreg hctx
  own := h.own
  ledger := h.ledger

/-! ### An event is taken out -/

/-- The manager after an event is taken out, and possibly triggered. -/
def release (io : IOManager) (a : ℕ) (event : Event) (triggered : List EventContext) :
    IOManager :=
  { io.setContext a ((io.contexts a).clear event) with
    pendingEventCnt := io.pendingEventCnt - 1
    triggered := io.triggered ++ triggered }

theorem events_release (io : IOManager) (a : ℕ) (event : Event) (triggered : List EventContext) :
    ((io.release a event triggered).contexts a).events = (io.contexts a).events.erase event := by
  simp [release, setContext]

theorem held_release (io : IOManager) (a : ℕ) (event : Event) (triggered : List EventContext) :
    (io.release a event triggered).ledger.held =
      Function.update io.ledger.held (a, event) none := by
  funext ⟨b, e⟩
  simp only [ledger, release, setContext]
  rcases eq_or_ne b a with rfl | hb
  · rcases eq_or_ne e event with rfl | he
    · simp
    · rw [Function.update_self, FdContext.getEveContext_clear_of_ne he,
        Function.update_of_ne (by simp [he])]
  · rw [Function.update_of_ne hb, Function.update_of_ne (by simp [hb])]

theorem ledger_release (io : IOManager) (a : ℕ) (event : Event) (triggered : List EventContext) :
    (io.release a event triggered).ledger =
      { held := Function.update io.ledger.held (a, event) none
        issued := io.ledger.issued
        redeemed := io.ledger.redeemed ++ triggered.filterMap EventContext.registration
        count := io.ledger.count - 1 } := by
  rw [← held_release io a event triggered]
  simp [ledger, release, setContext]

theorem Tidy.slot_release (h : io.Tidy) (a : ℕ) (event : Event) (triggered : List EventContext)
    (b : ℕ) (e : Event) : (io.release a event triggered).Slot b e := by
  rcases eq_or_ne b a with rfl | hb
  · rcases eq_or_ne e event with rfl | he
    · exact .empty (by simp [release, setContext]) (by simp [release, setContext])
    · have hctx := FdContext.getEveContext_clear_of_ne (c := io.contexts b) he
      cases h.slot b e with
      | empty hmem hempty =>
        exact .empty (by simp [release, setContext, hmem])
          (by simpa [release, setContext, hctx] using hempty)
      | filled k reg hmem hreg hfull =>
        exact .filled k reg (by simp [release, setContext, hmem, he]) hreg
          (by simpa [release, setContext, hctx] using hfull)
  · cases h.slot b e with
    | empty hmem hempty =>
      exact .empty (by simpa [release, setContext, hb] using hmem)
        (by simpa [release, setContext, hb] using hempty)
    | filled k reg hmem hreg hfull =>
      exact .filled k reg (by simpa [release, setContext, hb] using hmem) hreg
        (by simpa [release, setContext, hb] using hfull)

/-- What a registered event has in its context. -/
theorem Tidy.registration (h : io.Tidy) (hmem : event ∈ (io.contexts a).events) :
    ∃ (k : ℕ) (reg : Registration), io.registrations[k]? = some reg ∧
      (io.contexts a).getEveContext event = reg.eventContext k := by
  cases h.slot a event with
  | empty hnot => exact absurd hmem hnot
  | filled k reg _ hreg hctx => exact ⟨k, reg, hreg, hctx⟩

theorem held_of_eventContext {reg : Registration} {k : ℕ}
    (h : (io.contexts a).getEveContext event = reg.eventContext k) :
    io.ledger.held (a, event) = some k := by
  simp [ledger, h, Registration.eventContext]

theorem Tidy.remove (h : io.Tidy) (hmem : event ∈ (io.contexts a).events) :
    (io.release a event []).Tidy := by
  obtain ⟨k, reg, hreg, hctx⟩ := h.registration hmem
  refine ⟨h.slot_release a event [], by simpa [release, setContext] using h.own, ?_⟩
  rw [ledger_release]
  simpa using h.ledger.step (.void (a, event) k (held_of_eventContext hctx))

/-- `trigger` succeeds for a registered event. -/
theorem Tidy.trigger (h : io.Tidy) (hmem : event ∈ (io.contexts a).events) :
    ∃ io', io.trigger a event = .ok io' ∧ io'.Tidy ∧
      (io'.contexts a).events = (io.contexts a).events.erase event := by
  obtain ⟨k, reg, hreg, hctx⟩ := h.registration hmem
  have hs : ((io.contexts a).getEveContext event).scheduler ≠ none := by simp [hctx,
    Registration.eventContext]
  refine ⟨io.release a event [(io.contexts a).getEveContext event], ?_, ?_,
    events_release io a event _⟩
  · rw [IOManager.trigger, FdContext.triggerEvent_eq hmem hs]
    rfl
  · refine ⟨h.slot_release a event _, ?_, ?_⟩
    · intro ctx hctx'
      rcases List.mem_append.1 hctx' with hold | hnew
      · exact h.own ctx hold
      · exact ⟨k, reg, hreg, (List.mem_singleton.1 hnew).trans hctx⟩
    · rw [ledger_release, hctx]
      exact h.ledger.step (.redeem (a, event) k (held_of_eventContext hctx))

theorem Tidy.triggerIf (h : io.Tidy) {events : Finset Event}
    (hmem : event ∈ events → event ∈ (io.contexts a).events) :
    ∃ io', io.triggerIf events a event = .ok io' ∧ io'.Tidy ∧
      (io'.contexts a).events =
        if event ∈ events then (io.contexts a).events.erase event else (io.contexts a).events := by
  unfold IOManager.triggerIf
  split_ifs with he
  · exact h.trigger (hmem he)
  · exact ⟨io, rfl, h, rfl⟩

/-! ### An event is put in -/

/-- The manager after an event is registered. -/
def register (io : IOManager) (reg : Registration) : IOManager :=
  { io.setContext reg.context ((io.contexts reg.context).enter reg.event
      (reg.eventContext io.registrations.length)) with
    pendingEventCnt := io.pendingEventCnt + 1
    registrations := io.registrations ++ [reg] }

/-- The event context that `addEvent` fills. -/
theorem eventContext_added (a : ℕ) (event : Event) (scheduler fiber : ℕ) (cb : Option ℕ) (k : ℕ) :
    Registration.eventContext ⟨a, event, scheduler, (cb.map .cb).getD (.fiber fiber)⟩ k =
      { scheduler := some scheduler
        fiber := if cb.isNone then some fiber else none
        cb := cb
        registration := some k } := by
  cases cb <;> rfl

theorem getElem?_added {registrations : List Registration} {k : ℕ} {reg : Registration}
    (h : registrations[k]? = some reg) (new : Registration) :
    (registrations ++ [new])[k]? = some reg := by
  rw [List.getElem?_append_left (List.getElem?_eq_some_iff.1 h).1, h]

theorem Tidy.slot_register (h : io.Tidy) (reg : Registration) (b : ℕ) (e : Event) :
    (io.register reg).Slot b e := by
  obtain ⟨a, event, scheduler, task⟩ := reg
  rcases eq_or_ne b a with rfl | hb
  · rcases eq_or_ne e event with rfl | he
    · exact .filled io.registrations.length ⟨b, e, scheduler, task⟩ (by simp [register, setContext])
        (by simp [register]) (by simp [register, setContext])
    · have hctx : ((io.contexts b).enter event (Registration.eventContext
          ⟨b, event, scheduler, task⟩ io.registrations.length)).getEveContext e =
          (io.contexts b).getEveContext e := FdContext.getEveContext_enter_of_ne he
      cases h.slot b e with
      | empty hmem hempty =>
        exact .empty (by simp [register, setContext, hmem, he])
          (by simpa [register, setContext, hctx] using hempty)
      | filled k reg hmem hreg hfull =>
        exact .filled k reg (by simp [register, setContext, hmem]) (getElem?_added hreg _)
          (by simpa [register, setContext, hctx] using hfull)
  · cases h.slot b e with
    | empty hmem hempty =>
      exact .empty (by simpa [register, setContext, hb] using hmem)
        (by simpa [register, setContext, hb] using hempty)
    | filled k reg hmem hreg hfull =>
      exact .filled k reg (by simpa [register, setContext, hb] using hmem) (getElem?_added hreg _)
        (by simpa [register, setContext, hb] using hfull)

theorem ledger_register (io : IOManager) (reg : Registration) :
    (io.register reg).ledger =
      { held := Function.update io.ledger.held (reg.context, reg.event) (some io.ledger.issued)
        issued := io.ledger.issued + 1
        redeemed := io.ledger.redeemed
        count := io.ledger.count + 1 } := by
  have hheld : (io.register reg).ledger.held =
      Function.update io.ledger.held (reg.context, reg.event) (some io.ledger.issued) := by
    funext ⟨b, e⟩
    simp only [ledger, register, setContext]
    rcases eq_or_ne b reg.context with rfl | hb
    · rcases eq_or_ne e reg.event with rfl | he
      · simp [Registration.eventContext]
      · rw [Function.update_self, FdContext.getEveContext_enter_of_ne he,
          Function.update_of_ne (by simp [he])]
    · rw [Function.update_of_ne hb, Function.update_of_ne (by simp [hb])]
  rw [← hheld]
  simp [ledger, register, setContext]

theorem Tidy.register (h : io.Tidy) (reg : Registration)
    (hnot : reg.event ∉ (io.contexts reg.context).events) : (io.register reg).Tidy := by
  refine ⟨h.slot_register reg, ?_, ?_⟩
  · intro ctx hmem
    obtain ⟨k, reg', hreg, rfl⟩ := h.own ctx hmem
    exact ⟨k, reg', getElem?_added hreg _, rfl⟩
  · rw [ledger_register]
    refine h.ledger.step (.issue (reg.context, reg.event) ?_)
    have hslot := (h.slot reg.context reg.event).held_isSome
    simpa [hnot] using hslot

/-! ### Sections -/

theorem Tidy.addEvent (h : io.Tidy) (fd scheduler fiber : ℕ) (cb : Option ℕ)
    (hnot : event ∉ (io.contexts a).events) :
    ∃ io', io.addEvent a fd event scheduler fiber cb true = .ok (0, io') ∧ io'.Tidy := by
  have hctx : (io.contexts a).getEveContext event = {} := by
    cases h.slot a event with
    | empty _ hctx => exact hctx
    | filled _ _ hmem => exact absurd hmem hnot
  have htidy := (h.epollCtl (if (io.contexts a).events = ∅ then .add else .mod) fd
    (insert event (io.contexts a).events)).register
      ⟨a, event, scheduler, (cb.map .cb).getD (.fiber fiber)⟩ hnot
  refine ⟨_, ?_, htidy⟩
  simp only [IOManager.addEvent, hnot, hctx, IOManager.register, eventContext_added,
    FdContext.enter]
  rfl

theorem Tidy.delEvent (h : io.Tidy) (a fd : ℕ) (event : Event) :
    (io.delEvent a fd event true).2.Tidy := by
  by_cases hmem : event ∈ (io.contexts a).events
  · have hio := h.epollCtl (removeOp ((io.contexts a).events.erase event)) fd
      ((io.contexts a).events.erase event)
    have heq : (io.delEvent a fd event true).2 =
        (io.epollCtl (removeOp ((io.contexts a).events.erase event)) fd
          ((io.contexts a).events.erase event)).release a event [] := by
      simp [IOManager.delEvent, hmem, release, FdContext.clear, setContext]
    exact heq ▸ hio.remove hmem
  · simpa [IOManager.delEvent, hmem] using h

theorem Tidy.cancelEvent (h : io.Tidy) (a fd : ℕ) (event : Event) :
    ∃ r io', io.cancelEvent a fd event true = .ok (r, io') ∧ io'.Tidy := by
  by_cases hmem : event ∈ (io.contexts a).events
  · have hio := h.epollCtl (removeOp ((io.contexts a).events.erase event)) fd
      ((io.contexts a).events.erase event)
    obtain ⟨io', heq, hio', -⟩ := hio.trigger (a := a) hmem
    exact ⟨true, io', by simp [IOManager.cancelEvent, hmem, heq, bind, Except.bind, pure,
      Except.pure], hio'⟩
  · exact ⟨false, io, by simp [IOManager.cancelEvent, hmem], h⟩

theorem Tidy.cancelAll (h : io.Tidy) (a fd : ℕ) :
    ∃ r io', io.cancelAll a fd true = .ok (r, io') ∧ io'.Tidy := by
  by_cases hempty : (io.contexts a).events = ∅
  · exact ⟨false, io, by simp [IOManager.cancelAll, hempty], h⟩
  · have hio := h.epollCtl .del fd ∅
    obtain ⟨io₁, heq₁, hio₁, hev₁⟩ := hio.triggerIf fun hread : .read ∈
      ((io.epollCtl .del fd ∅).contexts a).events => hread
    obtain ⟨io₂, heq₂, hio₂, hev₂⟩ := hio₁.triggerIf fun hwrite : .write ∈
      (io₁.contexts a).events => hwrite
    rw [contexts_epollCtl] at heq₁ hev₁
    have hclear : (io₂.contexts a).events = ∅ := by
      rw [hev₂, hev₁]
      ext e
      cases e <;> split_ifs <;> simp_all
    refine ⟨true, io₂, ?_, hio₂⟩
    simp [IOManager.cancelAll, hempty, bind, Except.bind, heq₁, heq₂, hclear, pure, Except.pure]

theorem realEvents_of_subset {ev : EpollEvent} {registered : Finset Event}
    (h : ev.events ⊆ registered) : realEvents ev registered ⊆ registered := by
  unfold realEvents
  split_ifs
  · exact Finset.union_subset h subset_rfl
  · exact h

theorem Tidy.processEvent (h : io.Tidy) (a : ℕ) (ev : EpollEvent)
    (hfresh : (io.contexts a).events ∩ realEvents ev (io.contexts a).events = ∅ ∨
      ev.events ⊆ (io.contexts a).events) :
    ∃ io', io.processEvent a ev true = .ok io' ∧ io'.Tidy := by
  by_cases hnone : (io.contexts a).events ∩ realEvents ev (io.contexts a).events = ∅
  · exact ⟨io, by simp [IOManager.processEvent, hnone], h⟩
  · -- all events that happened are registered
    have hsub := realEvents_of_subset (hfresh.resolve_left hnone)
    have hio := h.epollCtl
      (removeOp ((io.contexts a).events \ realEvents ev (io.contexts a).events))
      (io.contexts a).fd ((io.contexts a).events \ realEvents ev (io.contexts a).events)
    have hread : .read ∈ realEvents ev (io.contexts a).events → .read ∈ (io.contexts a).events :=
      fun hmem => hsub hmem
    obtain ⟨io₁, heq₁, hio₁, hev₁⟩ := hio.triggerIf hread
    have hwrite : .write ∈ realEvents ev (io.contexts a).events →
        .write ∈ (io₁.contexts a).events := by
      intro hmem
      rw [hev₁, contexts_epollCtl]
      split_ifs
      · exact Finset.mem_erase.2 ⟨by decide, hsub hmem⟩
      · exact hsub hmem
    obtain ⟨io₂, heq₂, hio₂, -⟩ := hio₁.triggerIf hwrite
    refine ⟨io₂, ?_, hio₂⟩
    simp [IOManager.processEvent, hnone, bind, Except.bind, heq₁, heq₂]

end IOManager

/-! ### Runs -/

namespace EventLoop

variable {s s' : EventLoop} {a : EventAction}

/-- **The condition on a step.**  When a result of `epoll_wait` is processed, all its events are
registered, or else none of them is, and no event at all after an error or a hang-up. -/
def Fresh (s : EventLoop) : EventAction → Prop
  | .process j =>
    match s.collected[j]? with
    | some (fd, event) =>
      event.events ⊆ (s.io.contexts fd).events ∨
        event.events ∩ (s.io.contexts fd).events = ∅ ∧
          (event.errHup = true → (s.io.contexts fd).events = ∅)
    | none => True
  | _ => True

instance (s : EventLoop) (a : EventAction) : Decidable (s.Fresh a) := by
  unfold Fresh
  split
  · split <;> infer_instance
  · infer_instance

theorem tidy_init : init.io.Tidy where
  slot a event := .empty (by simp [init]) (by cases event <;> rfl)
  own := by simp [init]
  ledger := by
    have hheld : init.io.ledger = ⟨fun _ => none, 0, [], 0⟩ := by
      simp only [IOManager.ledger, init, Ledger.mk.injEq, List.filterMap_nil, and_true]
      refine ⟨?_, rfl⟩
      funext ⟨fd, event⟩
      cases event <;> rfl
    rw [hheld]
    exact Ledger.sound_empty

theorem sound_step (hs : s.panicked = false ∧ s.io.Tidy) (hf : s.Fresh a)
    (h : s.step a = some s') : s'.panicked = false ∧ s'.io.Tidy := by
  obtain ⟨hp, hio⟩ := hs
  simp only [step, hp, Bool.false_eq_true, if_false] at h
  cases a with
  | addEvent fd event scheduler fiber cb =>
    simp only [exec] at h
    split_ifs at h with hnot
    obtain ⟨io', heq, hio'⟩ := hio.addEvent fd scheduler fiber cb hnot
    rw [heq] at h
    obtain rfl := Option.some.inj h
    exact ⟨hp, hio'⟩
  | delEvent fd event =>
    obtain rfl := Option.some.inj h
    exact ⟨hp, hio.delEvent fd fd event⟩
  | cancelEvent fd event =>
    obtain ⟨r, io', heq, hio'⟩ := hio.cancelEvent fd fd event
    simp only [exec, heq] at h
    obtain rfl := Option.some.inj h
    exact ⟨hp, hio'⟩
  | cancelAll fd =>
    obtain ⟨r, io', heq, hio'⟩ := hio.cancelAll fd fd
    simp only [exec, heq] at h
    obtain rfl := Option.some.inj h
    exact ⟨hp, hio'⟩
  | epollWait fd event =>
    simp only [exec] at h
    split at h
    · split_ifs at h
      obtain rfl := Option.some.inj h
      exact ⟨hp, hio⟩
    · cases h
  | process j =>
    simp only [exec] at h
    split at h
    · rename_i fd event hj
      simp only [Fresh, hj] at hf
      obtain ⟨io', heq, hio'⟩ := hio.processEvent fd event (hf.symm.imp_left fun hnone => by
        unfold IOManager.realEvents
        split_ifs with herrHup
        · simp [hnone.2 herrHup]
        · rw [Finset.inter_comm, hnone.1])
      rw [heq] at h
      obtain rfl := Option.some.inj h
      exact ⟨hp, hio'⟩
    · cases h

theorem bookkeeping_of_tidy (hp : s.panicked = false) (hio : s.io.Tidy) : s.Bookkeeping where
  panicked := hp
  pending := by
    rw [hio.registered_eq]
    exact ⟨hio.ledger.finite, hio.ledger.count⟩
  once := by
    -- every event context that was triggered has a number
    have hall : ∀ ctx ∈ s.io.triggered, ∃ k, ctx.registration = some k := by
      intro ctx hctx
      obtain ⟨k, reg, -, rfl⟩ := hio.own ctx hctx
      exact ⟨k, rfl⟩
    have hnodup := hio.ledger.nodup
    have hmap : (s.io.triggered.filterMap EventContext.registration).map some =
        s.io.triggered.map EventContext.registration := by
      rw [List.map_filterMap, ← List.filterMap_eq_map]
      refine List.filterMap_congr fun ctx hctx => ?_
      obtain ⟨k, hk⟩ := hall ctx hctx
      simp [hk]
    exact hmap ▸ hnodup.map (Option.some_injective ℕ)
  own ctx hctx := by
    obtain ⟨k, reg, hreg, rfl⟩ := hio.own ctx hctx
    exact ⟨k, reg, rfl, hreg, rfl, reg.task_eventContext k⟩

/-- **The events are in order** in every run in which each result of `epoll_wait` that is processed
has either no registered event or no other event. -/
theorem bookkeeping (h : machine.Reaches Fresh init s) : s.Bookkeeping := by
  have hinv : s.panicked = false ∧ s.io.Tidy :=
    h.invariant (I := fun s => s.panicked = false ∧ s.io.Tidy) ⟨rfl, tidy_init⟩
      fun _ _ _ hs hf hst => sound_step hs hf hst
  exact bookkeeping_of_tidy hinv.1 hinv.2

/-- Two fibers wait for descriptor 5.  It becomes readable, the other end hangs up, and a callback
waits for descriptor 6 until it is cancelled. -/
def hangUp : List EventAction :=
  [.addEvent 5 .read 0 1 none, .addEvent 5 .write 0 2 none, .epollWait 5 ⟨{.read}, false⟩,
    .addEvent 6 .read 0 3 (some 7), .process 0, .epollWait 5 ⟨∅, true⟩, .cancelAll 6, .process 0,
    .delEvent 6 .write]

theorem hangUp_eq : (machine.runWhere Fresh init hangUp).map (fun s =>
      (s.io.pendingEventCnt, s.io.triggered.map EventContext.task)) =
    some (0, [some (.fiber 1), some (.cb 7), some (.fiber 2)]) := by
  decide +kernel

theorem bookkeeping_hangUp : ∃ s, machine.runWhere Fresh init hangUp = some s ∧
    s.io.triggered.length = 3 ∧ s.Bookkeeping := by
  obtain ⟨s, hs, heq⟩ := Option.map_eq_some_iff.1 hangUp_eq
  have hlen := congrArg (fun x => x.2.length) heq
  exact ⟨s, hs, by simpa using hlen, bookkeeping (Machine.reaches_of_runWhere hs)⟩

/-- Two fibers wait for descriptor 5, which becomes readable and writable.  Before the result is
processed, the wait of the second fiber is cancelled. -/
def staleResult : List EventAction :=
  [.addEvent 5 .read 0 1 none, .addEvent 5 .write 0 2 none, .epollWait 5 ⟨{.read, .write}, false⟩,
    .cancelEvent 5 .write, .process 0]

theorem staleResult_eq : (machine.run init staleResult).map (fun s => s.panicked) = some true := by
  decide +kernel

/-- A result of which one event is registered and the other is not ends the process. -/
theorem not_bookkeeping : ¬ ∀ s, machine.Reachable init s → s.Bookkeeping := by
  intro hall
  obtain ⟨s, hs, hp⟩ := Option.map_eq_some_iff.1 staleResult_eq
  have hsafe := (hall s (Machine.reachable_of_run hs)).panicked
  rw [hp] at hsafe
  cases hsafe

end EventLoop

end KvRaft
