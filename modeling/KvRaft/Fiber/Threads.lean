import KvRaft.Fiber.Context
import Mathlib.Data.List.Basic

/-!
# Threads that run fibers

The threads of an `IOManager` take tasks from `tasks_` and run fibers, as `Scheduler::run`, `idle`,
`Fiber::resume` and `Fiber::yield` have it.  A hooked `sleep` gives `addTimer` a callback that
schedules the fiber again, a hooked I/O call registers the fiber with `addEvent`, and then the
fiber yields.  These are separate steps.

* `FiberScheduler.Safe` : every fiber task that is taken is `READY`, and its context is saved.
* `FiberScheduler.Settled` : a fiber that is queued by its timer or by an event has yielded.
-/

namespace KvRaft

/-- `Fiber::State`. -/
inductive FiberState where
  | ready
  | running
  | term
  deriving DecidableEq

/-- A callback: the one that `sleep`, `usleep` and `nanosleep` give to `addTimer`, which schedules
a fiber, or another one. -/
inductive Callback where
  | schedule (fiber : ℕ)
  | user (id : ℕ)
  deriving DecidableEq

inductive FiberTask where
  | fiber (id : ℕ)
  | cb (callback : Callback)
  deriving DecidableEq

/-- Where a fiber is. -/
inductive FiberPc where
  /-- It is constructed, and has not been resumed. -/
  | fresh
  | running
  /-- It runs a callback that is about to schedule a fiber. -/
  | waking (fiber : ℕ)
  /-- `addTimer` or `addEvent` has returned, and `yield` is not called. -/
  | registered
  /-- `yield` has set `state_`, and `swapcontext` has not saved the context. -/
  | switching
  | suspended
  | terminated
  deriving DecidableEq

/-- `state_`. -/
def FiberPc.state : FiberPc → FiberState
  | .fresh | .switching | .suspended => .ready
  | .running | .waking _ | .registered => .running
  | .terminated => .term

/-- The context of the fiber is that with which it is to go on. -/
def FiberPc.Saved (pc : FiberPc) : Prop := pc = .fresh ∨ pc = .suspended

instance (pc : FiberPc) : Decidable pc.Saved := by unfold FiberPc.Saved; infer_instance

/-- A thread is running the fiber. -/
def FiberPc.OnThread (pc : FiberPc) : Prop :=
  pc = .running ∨ (∃ f, pc = .waking f) ∨ pc = .registered ∨ pc = .switching

theorem FiberPc.OnThread.not_saved {pc : FiberPc} (h : pc.OnThread) : ¬ pc.Saved := by
  rcases h with rfl | ⟨f, rfl⟩ | rfl | rfl <;> simp [Saved]

theorem FiberPc.OnThread.ne_terminated {pc : FiberPc} (h : pc.OnThread) : pc ≠ .terminated := by
  rcases h with rfl | ⟨f, rfl⟩ | rfl | rfl <;> simp

theorem FiberPc.Saved.state {pc : FiberPc} (h : pc.Saved) : pc.state = .ready := by
  rcases h with rfl | rfl <;> rfl

/-- Where a thread is in `Scheduler::run`. -/
inductive ThreadPc where
  | scheduling
  /-- It has taken a task and released the lock. -/
  | took (task : FiberTask)
  | running (fiber : ℕ)
  /-- It runs the idle fiber. -/
  | idle
  deriving DecidableEq

/-- The threads, fibers, tasks, timers and events of an `IOManager`. -/
structure FiberScheduler (n : ℕ) where
  tasks : List (FiberTask × Option (Fin n))
  threads : Fin n → ThreadPc
  fibers : ℕ → FiberPc
  /-- The number of fibers made; a fiber that is not made counts as terminated. -/
  count : ℕ
  timers : ℕ → Option Callback
  events : ℕ → Event → Option FiberTask

/-- What the code of a fiber does. -/
inductive FiberOp (n : ℕ) where
  /-- `scheduler(fiber, thread)` with a new fiber. -/
  | spawn (thread : Option (Fin n))
  /-- `scheduler(cb, thread)`. -/
  | schedule (id : ℕ) (thread : Option (Fin n))
  /-- `sleep`, `usleep` and `nanosleep` up to the call of `yield`. -/
  | sleep (timer : ℕ)
  /-- `do_io` and `connect` from `addEvent` up to the call of `yield`. -/
  | wait (fd : ℕ) (event : Event)
  | addTimer (timer : ℕ) (id : ℕ)
  | cancelTimer (timer : ℕ)
  | addEvent (fd : ℕ) (event : Event) (id : ℕ)
  | delEvent (fd : ℕ) (event : Event)
  /-- `cancelEvent`, and what `cancelAll` does for each event. -/
  | cancelEvent (fd : ℕ) (event : Event)
  deriving DecidableEq

inductive FiberAction (n : ℕ) where
  /-- A thread outside the pool calls `scheduler` with a callback, or with a new fiber. -/
  | submit (cb : Option ℕ) (thread : Option (Fin n))
  | take (t : Fin n) (j : ℕ)
  | resume (t : Fin n)
  | enterIdle (t : Fin n)
  /-- `idle` finds a timer expired. -/
  | expire (t : Fin n) (timer : ℕ)
  /-- `idle` finds an event ready. -/
  | trigger (t : Fin n) (fd : ℕ) (event : Event)
  | leaveIdle (t : Fin n)
  | run (t : Fin n) (op : FiberOp n)
  /-- A callback schedules its fiber. -/
  | wake (t : Fin n)
  /-- `yield` sets `state_`. -/
  | yield (t : Fin n)
  /-- `yield` saves the context, and the thread goes on with `run`. -/
  | swap (t : Fin n)
  /-- The function of the fiber returns. -/
  | finish (t : Fin n)
  deriving DecidableEq

namespace FiberScheduler

variable {n : ℕ}

def init : FiberScheduler n where
  tasks := []
  threads _ := .scheduling
  fibers _ := .terminated
  count := 0
  timers _ := none
  events _ _ := none

section Operations

variable (s : FiberScheduler n)

/-- `Scheduler::scheduler`. -/
def schedule (task : FiberTask) (thread : Option (Fin n)) : FiberScheduler n :=
  { s with tasks := s.tasks ++ [(task, thread)] }

/-- A new fiber, which is number `s.count`. -/
def newFiber (pc : FiberPc) : FiberScheduler n :=
  { s with fibers := Function.update s.fibers s.count pc, count := s.count + 1 }

def setThread (t : Fin n) (pc : ThreadPc) : FiberScheduler n :=
  { s with threads := Function.update s.threads t pc }

def setFiber (f : ℕ) (pc : FiberPc) : FiberScheduler n :=
  { s with fibers := Function.update s.fibers f pc }

def setTimer (timer : ℕ) (cb : Option Callback) : FiberScheduler n :=
  { s with timers := Function.update s.timers timer cb }

def setEvent (fd : ℕ) (event : Event) (task : Option FiberTask) : FiberScheduler n :=
  { s with events := Function.update s.events fd (Function.update (s.events fd) event task) }

/-- The task at `j` is the first one that thread `t` may take. -/
def Eligible (t : Fin n) (j : ℕ) : Prop :=
  (∀ x ∈ s.tasks.take j, x.2 ≠ none ∧ x.2 ≠ some t) ∧
    ∀ x ∈ s.tasks[j]?, x.2 = none ∨ x.2 = some t

instance (t : Fin n) (j : ℕ) : Decidable (s.Eligible t j) := by
  unfold Eligible
  infer_instance

/-- `CondPanic(it->fiber_->getState() == Fiber::READY, "fiber task state error")`. -/
def stateOk : FiberTask → Bool
  | .fiber f => (s.fibers f).state = .ready
  | .cb _ => true

/-- `triggerEvent`. -/
def triggerEvent (fd : ℕ) (event : Event) : Option (FiberScheduler n) :=
  (s.events fd event).map fun task => (s.setEvent fd event none).schedule task none

/-- The fiber `f` on thread `t` makes a step of its own code. -/
def exec (f : ℕ) : FiberOp n → Option (FiberScheduler n)
  | .spawn thread => some ((s.newFiber .fresh).schedule (.fiber s.count) thread)
  | .schedule id thread => some (s.schedule (.cb (.user id)) thread)
  | .sleep timer =>
    if s.timers timer = none then
      some ((s.setTimer timer (some (.schedule f))).setFiber f .registered)
    else none
  | .wait fd event =>
    if s.events fd event = none then
      some ((s.setEvent fd event (some (.fiber f))).setFiber f .registered)
    else none
  | .addTimer timer id =>
    if s.timers timer = none then some (s.setTimer timer (some (.user id))) else none
  | .cancelTimer timer => some (s.setTimer timer none)
  | .addEvent fd event id =>
    if s.events fd event = none then some (s.setEvent fd event (some (.cb (.user id)))) else none
  | .delEvent fd event => some (s.setEvent fd event none)
  | .cancelEvent fd event => s.triggerEvent fd event

/-- A step of `run`, which has taken `task`. -/
def resume (t : Fin n) : FiberTask → Option (FiberScheduler n)
  | .fiber f =>
    if (s.fibers f).state = .ready then some ((s.setFiber f .running).setThread t (.running f))
    else none
  | .cb (.schedule f) => some ((s.newFiber (.waking f)).setThread t (.running s.count))
  | .cb (.user _) => some ((s.newFiber .running).setThread t (.running s.count))

end Operations

/-- The fiber that a thread runs, and where that is. -/
def current (s : FiberScheduler n) (t : Fin n) : Option (ℕ × FiberPc) :=
  match s.threads t with
  | .running f => some (f, s.fibers f)
  | _ => none

def step (s : FiberScheduler n) : FiberAction n → Option (FiberScheduler n)
  | .submit (some id) thread => some (s.schedule (.cb (.user id)) thread)
  | .submit none thread => some ((s.newFiber .fresh).schedule (.fiber s.count) thread)
  | .take t j =>
    match s.tasks[j]? with
    | some (task, _) =>
      if s.threads t = .scheduling ∧ s.Eligible t j ∧ s.stateOk task then
        some ({ s with tasks := s.tasks.eraseIdx j }.setThread t (.took task))
      else none
    | none => none
  | .resume t =>
    match s.threads t with
    | .took task => s.resume t task
    | _ => none
  | .enterIdle t =>
    if s.threads t = .scheduling ∧ ∀ x ∈ s.tasks, x.2 ≠ none ∧ x.2 ≠ some t then
      some (s.setThread t .idle)
    else none
  | .expire t timer =>
    if s.threads t = .idle then
      (s.timers timer).map fun cb => (s.setTimer timer none).schedule (.cb cb) none
    else none
  | .trigger t fd event => if s.threads t = .idle then s.triggerEvent fd event else none
  | .leaveIdle t => if s.threads t = .idle then some (s.setThread t .scheduling) else none
  | .run t op =>
    match s.current t with
    | some (f, .running) => s.exec f op
    | _ => none
  | .wake t =>
    match s.current t with
    | some (g, .waking f) => some ((s.setFiber g .running).schedule (.fiber f) none)
    | _ => none
  | .yield t =>
    match s.current t with
    | some (f, .running) | some (f, .registered) => some (s.setFiber f .switching)
    | _ => none
  | .swap t =>
    match s.current t with
    | some (f, .switching) => some ((s.setFiber f .suspended).setThread t .scheduling)
    | _ => none
  | .finish t =>
    match s.current t with
    | some (f, .running) => some ((s.setFiber f .terminated).setThread t .scheduling)
    | _ => none

variable (n) in
/-- An `IOManager` with `n` threads as a machine.  It stops where a `CondPanic` fires. -/
def machine : Machine (FiberScheduler n) (FiberAction n) := ⟨step⟩

/-- **No fiber is resumed that has not yielded.** -/
structure Safe (s : FiberScheduler n) : Prop where
  /-- The first task that a thread may take is a callback or a fiber that is `READY`. -/
  taken : ∀ t j f thread, s.threads t = .scheduling → s.Eligible t j →
    s.tasks[j]? = some (.fiber f, thread) → (s.fibers f).state = .ready ∧ (s.fibers f).Saved
  /-- It still is when the thread resumes it. -/
  resumed : ∀ t f, s.threads t = .took (.fiber f) →
    (s.fibers f).state = .ready ∧ (s.fibers f).Saved

/-- A fiber that is queued has yielded. -/
def HasYielded (s : FiberScheduler n) : FiberTask → Prop
  | .fiber f => (s.fibers f).Saved
  | .cb _ => True

/-- **The condition on a step.**  A fiber that is queued by its event, or by the callback of its
timer, has yielded. -/
def Settled (s : FiberScheduler n) : FiberAction n → Prop
  | .trigger _ fd event | .run _ (.cancelEvent fd event) =>
    ∀ task ∈ s.events fd event, s.HasYielded task
  | .wake t =>
    match s.current t with
    | some (_, .waking f) => s.HasYielded (.fiber f)
    | _ => True
  | _ => True

instance (s : FiberScheduler n) (task : FiberTask) : Decidable (s.HasYielded task) := by
  unfold HasYielded
  split <;> infer_instance

instance (s : FiberScheduler n) (a : FiberAction n) : Decidable (s.Settled a) := by
  unfold Settled
  split
  · infer_instance
  · infer_instance
  · split <;> infer_instance
  · infer_instance

end FiberScheduler

end KvRaft
