import KvRaft.Fiber.Threads
import Mathlib.Data.List.Nodup

/-!
# Wake-ups of fibers

What will run a fiber again is in a timer, in an event context, in the queue or with a thread.  A
fiber has one such wake-up at most, and it has one only once it is to yield
(`FiberScheduler.Orderly`).  The operations of the scheduler keep this.
-/

namespace KvRaft

/-! ### Where the wake-up of a fiber is -/

/-- The fiber that a callback schedules. -/
def Callback.wakes : Callback → Option ℕ
  | .schedule f => some f
  | .user _ => none

/-- The fiber that a task resumes or schedules. -/
def FiberTask.wakes : FiberTask → Option ℕ
  | .fiber f => some f
  | .cb callback => callback.wakes

/-- A place where a wake-up may be. -/
inductive WakePlace (n : ℕ) where
  | timer (id : ℕ)
  | event (fd : ℕ) (event : Event)
  | queue
  | thread (t : Fin n)
  deriving DecidableEq

namespace FiberScheduler

variable {n : ℕ} {s s' : FiberScheduler n} {a : FiberAction n} {f : ℕ}

/-- The wake-up of fiber `f` is at the place. -/
def Carries (s : FiberScheduler n) : WakePlace n → ℕ → Prop
  | .timer id, f => ∃ cb, s.timers id = some cb ∧ cb.wakes = some f
  | .event fd event, f => ∃ task, s.events fd event = some task ∧ task.wakes = some f
  | .queue, f => ∃ x ∈ s.tasks, x.1.wakes = some f
  | .thread t, f =>
    (∃ task, s.threads t = .took task ∧ task.wakes = some f) ∨
      ∃ g, s.threads t = .running g ∧ s.fibers g = .waking f

/-- The fiber is to yield, or has yielded, or is new. -/
def Waits (s : FiberScheduler n) (f : ℕ) : Prop :=
  (s.fibers f).Saved ∨ s.fibers f = .registered ∨ s.fibers f = .switching

/-- **Wake-ups are in order.** -/
structure Orderly (s : FiberScheduler n) : Prop where
  /-- A fiber has one wake-up. -/
  unique : ∀ f l l', s.Carries l f → s.Carries l' f → l = l'
  nodup : (s.tasks.filterMap fun x => x.1.wakes).Nodup
  waits : ∀ f l, s.Carries l f → s.Waits f
  saved : ∀ f thread, (.fiber f, thread) ∈ s.tasks → (s.fibers f).Saved
  tookSaved : ∀ t f, s.threads t = .took (.fiber f) → (s.fibers f).Saved
  onThread : ∀ t f, s.threads t = .running f → (s.fibers f).OnThread
  owned : ∀ f, (s.fibers f).OnThread → ∃ t, s.threads t = .running f
  single : ∀ t t' f, s.threads t = .running f → s.threads t' = .running f → t = t'
  new : ∀ f, s.count ≤ f → s.fibers f = .terminated

@[simp] theorem carries_timer {id : ℕ} :
    s.Carries (.timer id) f ↔ ∃ cb, s.timers id = some cb ∧ cb.wakes = some f := Iff.rfl

@[simp] theorem carries_event {fd : ℕ} {event : Event} :
    s.Carries (.event fd event) f ↔
      ∃ task, s.events fd event = some task ∧ task.wakes = some f := Iff.rfl

@[simp] theorem carries_queue :
    s.Carries .queue f ↔ ∃ x ∈ s.tasks, x.1.wakes = some f := Iff.rfl

@[simp] theorem carries_thread {t : Fin n} : s.Carries (.thread t) f ↔
    (∃ task, s.threads t = .took task ∧ task.wakes = some f) ∨
      ∃ g, s.threads t = .running g ∧ s.fibers g = .waking f := Iff.rfl

/-! ### What keeps wake-ups in order -/

/-- A wake-up is queued that is at no other place. -/
theorem Orderly.schedule (h : s.Orderly) {task : FiberTask} (thread : Option (Fin n))
    (hnot : ∀ f l, task.wakes = some f → ¬ s.Carries l f)
    (hwaits : ∀ f, task.wakes = some f → s.Waits f)
    (hsaved : ∀ f, task = .fiber f → (s.fibers f).Saved) : (s.schedule task thread).Orderly := by
  have hcarries : ∀ f l, (s.schedule task thread).Carries l f →
      s.Carries l f ∨ task.wakes = some f ∧ l = .queue := by
    intro f l hl
    cases l <;> simp [FiberScheduler.schedule] at hl ⊢ <;> grind
  refine ⟨?_, ?_, ?_, ?_, h.tookSaved, h.onThread, h.owned, h.single, h.new⟩
  · intro f l l' hl hl'
    rcases hcarries f l hl with hl | ⟨hw, rfl⟩ <;> rcases hcarries f l' hl' with hl' | ⟨hw', rfl⟩
    · exact h.unique f l l' hl hl'
    · exact absurd hl (hnot f l hw')
    · exact absurd hl' (hnot f l' hw)
    · rfl
  · simp only [FiberScheduler.schedule, List.filterMap_append]
    refine List.nodup_append.2 ⟨h.nodup, ?_, ?_⟩
    · cases hw : task.wakes <;> simp [hw]
    · intro g hg g' hg' heq
      subst heq
      obtain ⟨x, hx, hw⟩ := List.mem_filterMap.1 hg
      refine hnot g .queue ?_ ⟨x, hx, hw⟩
      simpa using hg'
  · intro f l hl
    rcases hcarries f l hl with hl | ⟨hw, -⟩
    · exact h.waits f l hl
    · exact hwaits f hw
  · intro f th hmem
    rcases List.mem_append.1 hmem with hold | hnew
    · exact h.saved f th hold
    · obtain ⟨rfl, -⟩ := by simpa using hnew
      exact hsaved f rfl

/-- A wake-up comes to a timer or an event, or goes from there. -/
theorem Orderly.moved (h : s.Orderly) (l₀ : WakePlace n) (htasks : s'.tasks = s.tasks)
    (hthreads : s'.threads = s.threads) (hfibers : s'.fibers = s.fibers)
    (hcount : s'.count = s.count) (hcarries : ∀ f l, s'.Carries l f →
      s.Carries l f ∨ l = l₀ ∧ (∀ l', ¬ s.Carries l' f) ∧ s.Waits f) : s'.Orderly := by
  refine ⟨?_, htasks ▸ h.nodup, ?_, ?_, ?_, ?_, ?_, hthreads ▸ h.single, ?_⟩
  · intro f l l' hl hl'
    rcases hcarries f l hl with hl | ⟨rfl, hnot, -⟩
    · rcases hcarries f l' hl' with hl' | ⟨-, hnot, -⟩
      · exact h.unique f l l' hl hl'
      · exact absurd hl (hnot l)
    · rcases hcarries f l' hl' with hl' | ⟨rfl, -, -⟩
      · exact absurd hl' (hnot l')
      · rfl
  · intro f l hl
    rw [Waits, hfibers]
    rcases hcarries f l hl with hl | ⟨-, -, hw⟩
    · exact h.waits f l hl
    · exact hw
  · rw [htasks, hfibers]
    exact h.saved
  · rw [hthreads, hfibers]
    exact h.tookSaved
  · rw [hthreads, hfibers]
    exact h.onThread
  · rw [hthreads, hfibers]
    exact h.owned
  · rw [hcount, hfibers]
    exact h.new

theorem Orderly.setTimer (h : s.Orderly) (id : ℕ) (cb : Option Callback)
    (hcb : ∀ c ∈ cb, ∀ f ∈ c.wakes, (∀ l, ¬ s.Carries l f) ∧ s.Waits f) :
    (s.setTimer id cb).Orderly := by
  refine h.moved (.timer id) rfl rfl rfl rfl fun f l hl => ?_
  cases l with
  | timer i =>
    obtain ⟨c, hc, hw⟩ := hl
    rcases eq_or_ne i id with rfl | hi
    · obtain rfl : cb = some c := by simpa [FiberScheduler.setTimer] using hc
      exact Or.inr ⟨rfl, hcb c rfl f hw⟩
    · exact Or.inl ⟨c, by simpa [FiberScheduler.setTimer, hi] using hc, hw⟩
  | event fd event => exact Or.inl hl
  | queue => exact Or.inl hl
  | thread t => exact Or.inl hl

theorem Orderly.setEvent (h : s.Orderly) (fd : ℕ) (event : Event) (task : Option FiberTask)
    (htask : ∀ x ∈ task, ∀ f ∈ x.wakes, (∀ l, ¬ s.Carries l f) ∧ s.Waits f) :
    (s.setEvent fd event task).Orderly := by
  refine h.moved (.event fd event) rfl rfl rfl rfl fun f l hl => ?_
  cases l with
  | event fd' event' =>
    obtain ⟨x, hx, hw⟩ := hl
    by_cases hi : fd' = fd ∧ event' = event
    · obtain ⟨rfl, rfl⟩ := hi
      obtain rfl : task = some x := by simpa [FiberScheduler.setEvent] using hx
      exact Or.inr ⟨rfl, htask x rfl f hw⟩
    · refine Or.inl ⟨x, ?_, hw⟩
      simp only [FiberScheduler.setEvent, Function.update_apply] at hx
      grind
  | timer id => exact Or.inl hl
  | queue => exact Or.inl hl
  | thread t => exact Or.inl hl

/-- A wake-up that was at a timer is nowhere once the timer is gone. -/
theorem Orderly.not_carries_setTimer (h : s.Orderly) {id : ℕ} {cb : Callback}
    (hcb : s.timers id = some cb) (hw : cb.wakes = some f) (l : WakePlace n) :
    ¬ (s.setTimer id none).Carries l f := by
  intro hl
  have hplace := fun l' (hl' : s.Carries l' f) => h.unique f l' (.timer id) hl' ⟨cb, hcb, hw⟩
  cases l with
  | timer i =>
    obtain ⟨c, hc, hw'⟩ := hl
    rcases eq_or_ne i id with rfl | hi
    · simp [FiberScheduler.setTimer] at hc
    · have hold := hplace (.timer i) ⟨c, by simpa [FiberScheduler.setTimer, hi] using hc, hw'⟩
      exact hi (by simpa using hold)
  | event fd event => exact absurd (hplace (.event fd event) hl) (by simp)
  | queue => exact absurd (hplace .queue hl) (by simp)
  | thread t => exact absurd (hplace (.thread t) hl) (by simp)

theorem Orderly.not_carries_setEvent (h : s.Orderly) {fd : ℕ} {event : Event} {task : FiberTask}
    (htask : s.events fd event = some task) (hw : task.wakes = some f) (l : WakePlace n) :
    ¬ (s.setEvent fd event none).Carries l f := by
  intro hl
  have hplace := fun l' (hl' : s.Carries l' f) =>
    h.unique f l' (.event fd event) hl' ⟨task, htask, hw⟩
  cases l with
  | event fd' event' =>
    obtain ⟨x, hx, hw'⟩ := hl
    simp only [FiberScheduler.setEvent, Function.update_apply] at hx
    have hold : s.Carries (.event fd' event') f := ⟨x, by grind, hw'⟩
    have heq := hplace _ hold
    simp only [WakePlace.event.injEq] at heq
    grind
  | timer id => exact absurd (hplace (.timer id) hl) (by simp)
  | queue => exact absurd (hplace .queue hl) (by simp)
  | thread t => exact absurd (hplace (.thread t) hl) (by simp)

/-- Only threads and fibers have changed, and no thread has got a wake-up. -/
theorem carries_of_threads {l : WakePlace n} (hl : s'.Carries l f) (htasks : s'.tasks = s.tasks)
    (htimers : s'.timers = s.timers) (hevents : s'.events = s.events)
    (hthread : ∀ t, s'.Carries (.thread t) f → s.Carries (.thread t) f) : s.Carries l f := by
  cases l with
  | timer id => rwa [carries_timer, htimers] at hl
  | event fd event => rwa [carries_event, hevents] at hl
  | queue => rwa [carries_queue, htasks] at hl
  | thread t => exact hthread t hl

theorem carries_of_setFiber {pc : FiberPc} (hwaking : ∀ g, pc ≠ .waking g) {g : ℕ}
    {l : WakePlace n} (hl : (s.setFiber f pc).Carries l g) : s.Carries l g := by
  refine carries_of_threads hl rfl rfl rfl fun t ht => ?_
  simp only [carries_thread, FiberScheduler.setFiber, Function.update_apply] at ht ⊢
  grind

/-- A running fiber goes on. -/
theorem Orderly.setFiber (h : s.Orderly) {pc : FiberPc} (hf : (s.fibers f).OnThread)
    (hpc : pc.OnThread) (hwaking : ∀ g, pc ≠ .waking g)
    (hcarried : ∀ l, s.Carries l f → pc = .registered ∨ pc = .switching) :
    (s.setFiber f pc).Orderly := by
  have hnot := hf.not_saved
  have hcarries : ∀ g l, (s.setFiber f pc).Carries l g → s.Carries l g := fun g l =>
    carries_of_setFiber hwaking
  refine ⟨?_, h.nodup, ?_, ?_, ?_, ?_, ?_, h.single, ?_⟩
  · intro g l l' hl hl'
    exact h.unique g l l' (hcarries g l hl) (hcarries g l' hl')
  · intro g l hl
    have hold := hcarries g l hl
    rcases eq_or_ne g f with rfl | hg
    · have hpc' := hcarried l hold
      simp only [Waits, FiberScheduler.setFiber, Function.update_self]
      grind
    · simpa [Waits, FiberScheduler.setFiber, hg] using h.waits g l hold
  all_goals simp only [FiberScheduler.setFiber, Function.update_apply]
  · grind [h.saved]
  · grind [h.tookSaved]
  · grind [h.onThread]
  · grind [h.owned]
  · have hnew := h.new
    have hterm := hf.ne_terminated
    grind

/-- A fiber leaves its thread. -/
theorem Orderly.leave (h : s.Orderly) {t : Fin n} {pc : FiberPc} (ht : s.threads t = .running f)
    (hpc : pc = .suspended ∨ pc = .terminated)
    (hcarried : ∀ l, s.Carries l f → pc = .suspended) :
    ((s.setFiber f pc).setThread t .scheduling).Orderly := by
  have hf := h.onThread t f ht
  have hnot := hf.not_saved
  have hpc' : ¬ pc.OnThread := by rcases hpc with rfl | rfl <;> simp [FiberPc.OnThread]
  have hcarries : ∀ g l, ((s.setFiber f pc).setThread t .scheduling).Carries l g →
      s.Carries l g := by
    intro g l hl
    refine carries_of_threads hl rfl rfl rfl fun t' ht' => ?_
    simp only [carries_thread, FiberScheduler.setFiber, setThread, Function.update_apply] at ht' ⊢
    grind
  refine ⟨?_, h.nodup, ?_, ?_, ?_, ?_, ?_, ?_, ?_⟩
  · intro g l l' hl hl'
    exact h.unique g l l' (hcarries g l hl) (hcarries g l' hl')
  · intro g l hl
    have hold := hcarries g l hl
    rcases eq_or_ne g f with rfl | hg
    · obtain rfl := hcarried l hold
      simp [Waits, FiberScheduler.setFiber, setThread, FiberPc.Saved]
    · simpa [Waits, FiberScheduler.setFiber, setThread, hg] using h.waits g l hold
  all_goals simp only [FiberScheduler.setFiber, setThread, Function.update_apply]
  · grind [h.saved]
  · grind [h.tookSaved]
  · grind [h.onThread, h.single]
  · intro g hg
    have hgf : g ≠ f := by
      rintro rfl
      rw [if_pos rfl] at hg
      exact hpc' hg
    rw [if_neg hgf] at hg
    obtain ⟨t', ht'⟩ := h.owned g hg
    refine ⟨t', ?_⟩
    rw [if_neg]
    · exact ht'
    · rintro rfl
      exact hgf (by simpa [ht'] using ht)
  · grind [h.single]
  · have hnew := h.new
    have hterm := hf.ne_terminated
    grind

/-- A thread between tasks takes the idle fiber or goes on with `run`. -/
theorem Orderly.setThread (h : s.Orderly) {t : Fin n} {pc : ThreadPc}
    (ht : s.threads t = .scheduling ∨ s.threads t = .idle) (hpc : pc = .scheduling ∨ pc = .idle) :
    (s.setThread t pc).Orderly := by
  have hcarries : ∀ g l, (s.setThread t pc).Carries l g → s.Carries l g := by
    intro g l hl
    refine carries_of_threads hl rfl rfl rfl fun t' ht' => ?_
    simp only [carries_thread, FiberScheduler.setThread, Function.update_apply] at ht' ⊢
    grind
  refine ⟨?_, h.nodup, ?_, h.saved, ?_, ?_, ?_, ?_, h.new⟩
  · intro g l l' hl hl'
    exact h.unique g l l' (hcarries g l hl) (hcarries g l' hl')
  · intro g l hl
    exact h.waits g l (hcarries g l hl)
  all_goals simp only [FiberScheduler.setThread, Function.update_apply]
  · grind [h.tookSaved]
  · grind [h.onThread]
  · grind [h.owned]
  · grind [h.single]

/-- No thread runs a fiber that is not made. -/
theorem Orderly.not_running (h : s.Orderly) (t : Fin n) : s.threads t ≠ .running s.count :=
  fun ht => (h.onThread t _ ht).ne_terminated (h.new s.count le_rfl)

theorem Orderly.not_waits (h : s.Orderly) : ¬ s.Waits s.count := by
  simp [Waits, FiberPc.Saved, h.new s.count le_rfl]

theorem Orderly.carries_of_newFiber (h : s.Orderly) {pc : FiberPc} {g : ℕ} {l : WakePlace n}
    (hl : (s.newFiber pc).Carries l g) : s.Carries l g := by
  have hnone := h.not_running
  refine carries_of_threads hl rfl rfl rfl fun t ht => ?_
  simp only [carries_thread, FiberScheduler.newFiber, Function.update_apply] at ht ⊢
  grind

/-- A new fiber. -/
theorem Orderly.newFiber (h : s.Orderly) : (s.newFiber .fresh).Orderly := by
  have hnone := h.not_running
  have hcarries : ∀ g l, (s.newFiber .fresh).Carries l g → s.Carries l g := fun g l =>
    h.carries_of_newFiber
  have hpc : ∀ g, (s.newFiber .fresh).fibers g = if g = s.count then .fresh else s.fibers g :=
    fun g => Function.update_apply s.fibers s.count .fresh g
  refine ⟨?_, h.nodup, ?_, ?_, ?_, ?_, ?_, h.single, ?_⟩
  · intro g l l' hl hl'
    exact h.unique g l l' (hcarries g l hl) (hcarries g l' hl')
  · intro g l hl
    have hold := h.waits g l (hcarries g l hl)
    simp only [Waits, hpc, FiberPc.Saved] at hold ⊢
    grind
  · intro g thread hg
    have hold := h.saved g thread hg
    simp only [hpc, FiberPc.Saved] at hold ⊢
    grind
  · intro t g ht
    have hold := h.tookSaved t g ht
    simp only [hpc, FiberPc.Saved] at hold ⊢
    grind
  · intro t g ht
    have hold := h.onThread t g ht
    rw [hpc, if_neg]
    · exact hold
    · rintro rfl
      exact hnone t ht
  · intro g hg
    rw [hpc] at hg
    split_ifs at hg
    · simp [FiberPc.OnThread] at hg
    · exact h.owned g hg
  · intro g hg
    have hlt : s.count < g := hg
    rw [hpc, if_neg hlt.ne', h.new g hlt.le]

theorem not_wakes_of_nodup {tasks : List (FiberTask × Option (Fin n))} {j : ℕ}
    {x : FiberTask × Option (Fin n)} (h : (tasks.filterMap fun x => x.1.wakes).Nodup)
    (hj : tasks[j]? = some x) (hf : x.1.wakes = some f) :
    ∀ y ∈ tasks.eraseIdx j, y.1.wakes ≠ some f := by
  obtain ⟨hlt, rfl⟩ := List.getElem?_eq_some_iff.1 hj
  intro y hy hw
  rw [List.eraseIdx_eq_take_drop_succ] at hy
  have hsplit : tasks = tasks.take j ++ tasks[j] :: tasks.drop (j + 1) := by
    rw [← List.drop_eq_getElem_cons hlt, List.take_append_drop]
  rw [hsplit, List.filterMap_append,
    List.filterMap_cons_some (f := fun x : FiberTask × Option (Fin n) => x.1.wakes) hf] at h
  have hmem : f ∈ (tasks.take j).filterMap (fun x => x.1.wakes) ++
      (tasks.drop (j + 1)).filterMap (fun x => x.1.wakes) := by
    rw [← List.filterMap_append]
    exact List.mem_filterMap.2 ⟨y, hy, hw⟩
  exact (List.nodup_middle.1 h).notMem hmem

/-- A thread takes a task. -/
theorem Orderly.take (h : s.Orderly) {t : Fin n} {j : ℕ} {task : FiberTask}
    {thread : Option (Fin n)} (ht : s.threads t = .scheduling)
    (hj : s.tasks[j]? = some (task, thread)) :
    ({ s with tasks := s.tasks.eraseIdx j }.setThread t (.took task)).Orderly := by
  have hmem := List.mem_of_getElem? hj
  have hsub : ∀ x ∈ s.tasks.eraseIdx j, x ∈ s.tasks := fun x hx => List.mem_of_mem_eraseIdx hx
  have hcarries : ∀ g l, ({ s with tasks := s.tasks.eraseIdx j }.setThread t (.took task)).Carries
      l g → (s.Carries l g ∧ task.wakes ≠ some g) ∨ l = .thread t ∧ task.wakes = some g := by
    intro g l hl
    -- the wake-up in the task was in the queue, and nowhere else
    have hplace : task.wakes = some g → ∀ l', s.Carries l' g → l' = .queue := fun hw l' hl' =>
      h.unique g l' .queue hl' ⟨_, hmem, hw⟩
    cases l with
    | queue =>
      obtain ⟨x, hx, hw⟩ := hl
      refine Or.inl ⟨⟨x, hsub x hx, hw⟩, fun hw' => ?_⟩
      exact not_wakes_of_nodup h.nodup hj hw' x hx hw
    | thread t' =>
      simp only [carries_thread, FiberScheduler.setThread, Function.update_apply] at hl ⊢
      rcases eq_or_ne t' t with rfl | ht'
      · refine Or.inr ⟨rfl, ?_⟩
        simpa using hl
      · simp only [if_neg ht'] at hl
        refine Or.inl ⟨hl, fun hw => ?_⟩
        cases hplace hw (.thread t') hl
    | timer id => exact Or.inl ⟨hl, fun hw => by cases hplace hw (.timer id) hl⟩
    | event fd event => exact Or.inl ⟨hl, fun hw => by cases hplace hw (.event fd event) hl⟩
  refine ⟨?_, ?_, ?_, ?_, ?_, ?_, ?_, ?_, h.new⟩
  · intro g l l' hl hl'
    rcases hcarries g l hl with ⟨hl, hw⟩ | ⟨rfl, hw⟩ <;>
      rcases hcarries g l' hl' with ⟨hl', hw'⟩ | ⟨rfl, hw'⟩
    · exact h.unique g l l' hl hl'
    · exact absurd hw' hw
    · exact absurd hw hw'
    · rfl
  · exact h.nodup.sublist ((List.eraseIdx_sublist s.tasks j).filterMap _)
  · intro g l hl
    rcases hcarries g l hl with ⟨hl, -⟩ | ⟨-, hw⟩
    · exact h.waits g l hl
    · exact h.waits g .queue ⟨_, hmem, hw⟩
  · exact fun g th hg => h.saved g th (hsub _ hg)
  all_goals simp only [FiberScheduler.setThread, Function.update_apply]
  · grind [h.tookSaved, h.saved]
  · grind [h.onThread]
  · grind [h.owned]
  · grind [h.single]

/-- A thread resumes the fiber of a task it has taken. -/
theorem Orderly.resumeFiber (h : s.Orderly) {t : Fin n} (ht : s.threads t = .took (.fiber f)) :
    ((s.setFiber f .running).setThread t (.running f)).Orderly := by
  have hsaved := h.tookSaved t f ht
  have hnone : ∀ t', s.threads t' ≠ .running f := fun t' ht' =>
    (h.onThread t' f ht').not_saved hsaved
  have hterm : s.fibers f ≠ .terminated := by
    rcases hsaved with hf | hf <;> simp [hf]
  have hplace : ∀ l, s.Carries l f → l = .thread t := fun l hl =>
    h.unique f l (.thread t) hl (Or.inl ⟨_, ht, rfl⟩)
  have hcarries : ∀ g l, ((s.setFiber f .running).setThread t (.running f)).Carries l g →
      s.Carries l g ∧ g ≠ f := by
    intro g l hl
    cases l with
    | thread t' =>
      simp only [carries_thread, FiberScheduler.setFiber, FiberScheduler.setThread,
        Function.update_apply] at hl ⊢
      rcases eq_or_ne t' t with rfl | ht'
      · simp at hl
      · have hold : s.Carries (.thread t') g := by
          simp only [carries_thread]
          grind
        refine ⟨hold, ?_⟩
        rintro rfl
        exact ht' (by simpa using hplace _ hold)
    | timer id => exact ⟨hl, by rintro rfl; cases hplace (.timer id) hl⟩
    | event fd event => exact ⟨hl, by rintro rfl; cases hplace (.event fd event) hl⟩
    | queue => exact ⟨hl, by rintro rfl; cases hplace .queue hl⟩
  refine ⟨?_, h.nodup, ?_, ?_, ?_, ?_, ?_, ?_, ?_⟩
  · intro g l l' hl hl'
    exact h.unique g l l' (hcarries g l hl).1 (hcarries g l' hl').1
  · intro g l hl
    obtain ⟨hold, hg⟩ := hcarries g l hl
    simpa [Waits, FiberScheduler.setFiber, FiberScheduler.setThread, hg] using h.waits g l hold
  all_goals simp only [FiberScheduler.setFiber, FiberScheduler.setThread, Function.update_apply]
  · intro g thread hg
    rw [if_neg]
    · exact h.saved g thread hg
    · rintro rfl
      cases hplace .queue ⟨_, hg, rfl⟩
  · intro t' g ht'
    split_ifs at ht' with htt
    rw [if_neg]
    · exact h.tookSaved t' g ht'
    · rintro rfl
      exact htt (by simpa using hplace (.thread t') (Or.inl ⟨_, ht', rfl⟩))
  · intro t' g ht'
    split_ifs at ht' with htt
    · rw [if_pos (by simpa using ht'.symm)]
      exact Or.inl rfl
    · rw [if_neg]
      · exact h.onThread t' g ht'
      · rintro rfl
        exact hnone t' ht'
  · intro g hg
    split_ifs at hg with hgf
    · exact ⟨t, by simp [hgf]⟩
    · obtain ⟨t', ht'⟩ := h.owned g hg
      refine ⟨t', ?_⟩
      rw [if_neg]
      · exact ht'
      · rintro rfl
        rw [ht] at ht'
        cases ht'
  · grind [h.single]
  · have hnew := h.new
    grind

/-- A thread resumes a new fiber for the callback of a task it has taken. -/
theorem Orderly.resumeCallback (h : s.Orderly) {t : Fin n} {cb : Callback} {pc : FiberPc}
    (ht : s.threads t = .took (.cb cb)) (hpc : pc.OnThread)
    (hwakes : ∀ f, pc = .waking f → cb.wakes = some f) :
    ((s.newFiber pc).setThread t (.running s.count)).Orderly := by
  have hnew := h.new
  have hnone := h.not_running
  have hcarries : ∀ g l, ((s.newFiber pc).setThread t (.running s.count)).Carries l g →
      s.Carries l g := by
    intro g l hl
    refine carries_of_threads hl rfl rfl rfl fun t' hl => ?_
    simp only [carries_thread, FiberScheduler.newFiber, FiberScheduler.setThread,
      Function.update_apply] at hl ⊢
    rcases eq_or_ne t' t with rfl | ht'
    · refine Or.inl ⟨_, ht, hwakes g ?_⟩
      simpa using hl
    · grind
  have hfiber : ∀ g, s.Waits g → g ≠ s.count := by
    rintro g hg rfl
    exact h.not_waits hg
  refine ⟨?_, h.nodup, ?_, ?_, ?_, ?_, ?_, ?_, ?_⟩
  · intro g l l' hl hl'
    exact h.unique g l l' (hcarries g l hl) (hcarries g l' hl')
  · intro g l hl
    have hold := h.waits g l (hcarries g l hl)
    simpa [Waits, FiberScheduler.newFiber, FiberScheduler.setThread, hfiber g hold] using hold
  all_goals simp only [FiberScheduler.newFiber, FiberScheduler.setThread, Function.update_apply]
  · intro g thread hg
    have hold := h.saved g thread hg
    rwa [if_neg (hfiber g (Or.inl hold))]
  · intro t' g ht'
    split_ifs at ht'
    have hold := h.tookSaved t' g ht'
    rwa [if_neg (hfiber g (Or.inl hold))]
  · grind [h.onThread]
  · intro g hg
    split_ifs at hg with hgf
    · exact ⟨t, by simp [hgf]⟩
    · obtain ⟨t', ht'⟩ := h.owned g hg
      refine ⟨t', ?_⟩
      rw [if_neg]
      · exact ht'
      · rintro rfl
        rw [ht] at ht'
        cases ht'
  · grind [h.single]
  · intro g hg
    rw [if_neg (by omega), hnew g (by omega)]

end FiberScheduler

end KvRaft
