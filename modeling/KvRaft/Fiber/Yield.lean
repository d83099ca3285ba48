import KvRaft.Fiber.WakeUps

/-!
# Fibers that register themselves and yield

Between the registration of a fiber and its `yield`, another thread may find the timer expired or
the descriptor ready, and queue and take a fiber that is still running
(`FiberScheduler.not_resumes_yielded`).

* `FiberScheduler.resumes_yielded` : with one thread, or in a run that meets the condition
  `FiberScheduler.Settled`, every fiber task that is taken is `READY`, and its context is saved.
-/

namespace KvRaft

namespace FiberScheduler

variable {n : ℕ} {s s' : FiberScheduler n} {a : FiberAction n} {f : ℕ}

/-! ### Runs -/

theorem current_eq {t : Fin n} {pc : FiberPc} (h : s.current t = some (f, pc)) :
    s.threads t = .running f ∧ s.fibers f = pc := by
  unfold current at h
  split at h
  · rename_i g hg
    obtain ⟨rfl, rfl⟩ := Prod.mk.inj (Option.some.inj h)
    exact ⟨hg, rfl⟩
  · cases h

theorem orderly_init : (init : FiberScheduler n).Orderly := by
  refine ⟨?_, List.nodup_nil, ?_, ?_, ?_, ?_, ?_, ?_, fun _ _ => rfl⟩
  · intro f l l' hl
    cases l <;> simp [init] at hl
  · intro f l hl
    cases l <;> simp [init] at hl
  all_goals simp [init, FiberPc.OnThread]

/-- A fiber that a thread runs and that has not registered itself has no wake-up. -/
theorem Orderly.not_carries (h : s.Orderly) {pc : FiberPc} (hf : s.fibers f = pc)
    (hpc : pc = .running ∨ ∃ g, pc = .waking g) (l : WakePlace n) : ¬ s.Carries l f := by
  intro hl
  have hw := h.waits f l hl
  simp only [Waits, FiberPc.Saved, hf] at hw
  grind

/-- A task with a fiber that has yielded, or a callback, goes from an event to the queue. -/
theorem Orderly.triggerEvent (h : s.Orderly) {fd : ℕ} {event : Event}
    (hset : ∀ task ∈ s.events fd event, s.HasYielded task)
    (hst : s.triggerEvent fd event = some s') : s'.Orderly := by
  obtain ⟨task, htask, rfl⟩ := Option.map_eq_some_iff.1 hst
  refine (h.setEvent fd event none (by simp)).schedule none ?_ ?_ ?_
  · exact fun f l hw => h.not_carries_setEvent htask hw l
  · exact fun f hw => h.waits f (.event fd event) ⟨task, htask, hw⟩
  · rintro f rfl
    exact hset _ htask

theorem Orderly.spawn (h : s.Orderly) (thread : Option (Fin n)) :
    ((s.newFiber .fresh).schedule (.fiber s.count) thread).Orderly := by
  have hfresh : ((s.newFiber .fresh).fibers s.count).Saved := by
    simp [FiberScheduler.newFiber, FiberPc.Saved]
  refine h.newFiber.schedule thread ?_ ?_ ?_
  · intro f l hw hl
    obtain rfl : s.count = f := by simpa [FiberTask.wakes] using hw
    exact h.not_waits (h.waits _ l (h.carries_of_newFiber hl))
  · intro f hw
    obtain rfl : s.count = f := by simpa [FiberTask.wakes] using hw
    exact Or.inl hfresh
  · intro f hf
    obtain rfl : s.count = f := by simpa using hf
    exact hfresh

/-- A running fiber registers itself: with no wake-up yet, it is ready for one. -/
theorem Orderly.register (h : s.Orderly) {t : Fin n} (ht : s.threads t = .running f)
    (hf : s.fibers f = .running) : (s.setFiber f .registered).Orderly ∧
      (∀ l, ¬ (s.setFiber f .registered).Carries l f) ∧ (s.setFiber f .registered).Waits f := by
  have hno := h.not_carries hf (.inl rfl)
  refine ⟨?_, fun l hl => hno l (carries_of_setFiber (by simp) hl), ?_⟩
  · exact h.setFiber (h.onThread t f ht) (by simp [FiberPc.OnThread]) (by simp)
      fun l hl => absurd hl (hno l)
  · simp [Waits, FiberScheduler.setFiber]

theorem Orderly.exec (h : s.Orderly) {t : Fin n} {op : FiberOp n} (ht : s.threads t = .running f)
    (hf : s.fibers f = .running) (hset : s.Settled (.run t op)) (hst : s.exec f op = some s') :
    s'.Orderly := by
  obtain ⟨hreg, hno, hwaits⟩ := h.register ht hf
  cases op with
  | spawn thread =>
    obtain rfl := Option.some.inj hst
    exact h.spawn thread
  | schedule id thread =>
    obtain rfl := Option.some.inj hst
    exact h.schedule thread (by simp [FiberTask.wakes, Callback.wakes])
      (by simp [FiberTask.wakes, Callback.wakes]) (by simp)
  | sleep timer =>
    simp only [FiberScheduler.exec] at hst
    split_ifs at hst
    obtain rfl := Option.some.inj hst
    refine hreg.setTimer timer (some (.schedule f)) ?_
    intro cb hcb g hg
    obtain rfl := Option.mem_some_iff.1 hcb
    obtain rfl : f = g := by simpa [Callback.wakes] using hg
    exact ⟨hno, hwaits⟩
  | wait fd event =>
    simp only [FiberScheduler.exec] at hst
    split_ifs at hst
    obtain rfl := Option.some.inj hst
    refine hreg.setEvent fd event (some (.fiber f)) ?_
    intro task htask g hg
    obtain rfl := Option.mem_some_iff.1 htask
    obtain rfl : f = g := by simpa [FiberTask.wakes] using hg
    exact ⟨hno, hwaits⟩
  | addTimer timer id =>
    simp only [FiberScheduler.exec] at hst
    split_ifs at hst
    obtain rfl := Option.some.inj hst
    exact h.setTimer timer _ (by simp [Callback.wakes])
  | cancelTimer timer =>
    obtain rfl := Option.some.inj hst
    exact h.setTimer timer none (by simp)
  | addEvent fd event id =>
    simp only [FiberScheduler.exec] at hst
    split_ifs at hst
    obtain rfl := Option.some.inj hst
    exact h.setEvent fd event _ (by simp [FiberTask.wakes, Callback.wakes])
  | delEvent fd event =>
    obtain rfl := Option.some.inj hst
    exact h.setEvent fd event none (by simp)
  | cancelEvent fd event => exact h.triggerEvent hset hst

/-- A callback schedules its fiber, which has yielded. -/
theorem Orderly.wake (h : s.Orderly) {t : Fin n} {g : ℕ} (ht : s.threads t = .running g)
    (hg : s.fibers g = .waking f) (hf : (s.fibers f).Saved) :
    ((s.setFiber g .running).schedule (.fiber f) none).Orderly := by
  have hgf : f ≠ g := by
    rintro rfl
    simp [hg, FiberPc.Saved] at hf
  have hrun : (s.setFiber g .running).Orderly :=
    h.setFiber (h.onThread t g ht) (.inl rfl) (by simp)
      fun l hl => absurd hl (h.not_carries hg (.inr ⟨f, rfl⟩) l)
  have hsaved : ((s.setFiber g .running).fibers f).Saved := by
    simpa [FiberScheduler.setFiber, hgf] using hf
  refine hrun.schedule none ?_ ?_ ?_
  · intro f' l hw hl
    obtain rfl : f = f' := by simpa [FiberTask.wakes] using hw
    -- the wake-up was with the thread, whose fiber has gone on
    obtain rfl : l = .thread t :=
      h.unique f l (.thread t) (carries_of_setFiber (by simp) hl) (Or.inr ⟨g, ht, hg⟩)
    simp [FiberScheduler.setFiber, ht] at hl
  · intro f' hw
    obtain rfl : f = f' := by simpa [FiberTask.wakes] using hw
    exact Or.inl hsaved
  · intro f' hf'
    obtain rfl : f = f' := by simpa using hf'
    exact hsaved

theorem Orderly.resume (h : s.Orderly) {t : Fin n} {task : FiberTask}
    (ht : s.threads t = .took task) (hst : s.resume t task = some s') : s'.Orderly := by
  unfold FiberScheduler.resume at hst
  split at hst
  · split_ifs at hst
    obtain rfl := Option.some.inj hst
    exact h.resumeFiber ht
  · obtain rfl := Option.some.inj hst
    exact h.resumeCallback ht (.inr (.inl ⟨_, rfl⟩)) (by simp [Callback.wakes])
  · obtain rfl := Option.some.inj hst
    exact h.resumeCallback ht (.inl rfl) (by simp)

theorem Orderly.step (h : s.Orderly) (hset : s.Settled a) (hst : s.step a = some s') :
    s'.Orderly := by
  cases a with
  | submit cb thread =>
    cases cb with
    | some id =>
      obtain rfl := Option.some.inj hst
      exact h.schedule thread (by simp [FiberTask.wakes, Callback.wakes])
        (by simp [FiberTask.wakes, Callback.wakes]) (by simp)
    | none =>
      obtain rfl := Option.some.inj hst
      exact h.spawn thread
  | take t j =>
    simp only [FiberScheduler.step] at hst
    split at hst
    · rename_i task thread hj
      split_ifs at hst with hok
      obtain rfl := Option.some.inj hst
      exact h.take hok.1 hj
    · cases hst
  | resume t =>
    simp only [FiberScheduler.step] at hst
    split at hst
    · rename_i task ht
      exact h.resume ht hst
    · cases hst
  | enterIdle t =>
    simp only [FiberScheduler.step] at hst
    split_ifs at hst with hidle
    obtain rfl := Option.some.inj hst
    exact h.setThread (.inl hidle.1) (.inr rfl)
  | expire t timer =>
    simp only [FiberScheduler.step] at hst
    split_ifs at hst
    obtain ⟨cb, hcb, rfl⟩ := Option.map_eq_some_iff.1 hst
    refine (h.setTimer timer none (by simp)).schedule none ?_ ?_ (by simp)
    · exact fun f l hw => h.not_carries_setTimer hcb hw l
    · exact fun f hw => h.waits f (.timer timer) ⟨cb, hcb, hw⟩
  | trigger t fd event =>
    simp only [FiberScheduler.step] at hst
    split_ifs at hst
    exact h.triggerEvent hset hst
  | leaveIdle t =>
    simp only [FiberScheduler.step] at hst
    split_ifs at hst with hidle
    obtain rfl := Option.some.inj hst
    exact h.setThread (.inr hidle) (.inl rfl)
  | run t op =>
    simp only [FiberScheduler.step] at hst
    split at hst
    · rename_i f hcur
      obtain ⟨ht, hf⟩ := current_eq hcur
      exact h.exec ht hf hset hst
    · cases hst
  | wake t =>
    simp only [FiberScheduler.step] at hst
    split at hst
    · rename_i g f hcur
      obtain ⟨ht, hg⟩ := current_eq hcur
      obtain rfl := Option.some.inj hst
      simp only [Settled, hcur, HasYielded] at hset
      exact h.wake ht hg hset
    · cases hst
  | yield t =>
    simp only [FiberScheduler.step] at hst
    split at hst
    all_goals try cases hst
    all_goals
      rename_i f hcur
      obtain ⟨ht, hf⟩ := current_eq hcur
      exact h.setFiber (h.onThread t f ht) (by simp [FiberPc.OnThread]) (by simp)
        fun _ _ => Or.inr rfl
  | swap t =>
    simp only [FiberScheduler.step] at hst
    split at hst
    · rename_i f hcur
      obtain ⟨ht, hf⟩ := current_eq hcur
      obtain rfl := Option.some.inj hst
      exact h.leave ht (.inl rfl) fun _ _ => rfl
    · cases hst
  | finish t =>
    simp only [FiberScheduler.step] at hst
    split at hst
    · rename_i f hcur
      obtain ⟨ht, hf⟩ := current_eq hcur
      obtain rfl := Option.some.inj hst
      exact h.leave ht (.inr rfl) fun l hl => absurd hl (h.not_carries hf (.inl rfl) l)
    · cases hst

theorem Orderly.safe (h : s.Orderly) : s.Safe where
  taken t j f thread _ _ hj := by
    have hsaved := h.saved f thread (List.mem_of_getElem? hj)
    exact ⟨hsaved.state, hsaved⟩
  resumed t f ht := ⟨(h.tookSaved t f ht).state, h.tookSaved t f ht⟩

/-- The only thread does not queue a fiber while it is running it. -/
theorem Orderly.hasYielded (h : s.Orderly) [Subsingleton (Fin n)] {t : Fin n} {l : WakePlace n}
    (hl : s.Carries l f) (ht : s.threads t ≠ .running f) : (s.fibers f).Saved := by
  have hnot : ¬ (s.fibers f).OnThread := by
    intro hon
    obtain ⟨t', ht'⟩ := h.owned f hon
    exact ht (Subsingleton.elim t' t ▸ ht')
  rcases h.waits f l hl with hsaved | hreg | hsw
  · exact hsaved
  · exact absurd (by simp [hreg, FiberPc.OnThread]) hnot
  · exact absurd (by simp [hsw, FiberPc.OnThread]) hnot

/-- With one thread a fiber that is queued has yielded. -/
theorem Orderly.settled (h : s.Orderly) [Subsingleton (Fin n)] (hst : s.step a = some s') :
    s.Settled a := by
  -- a task that an event has for a fiber other than the one that runs
  have hevent : ∀ {t : Fin n} {fd : ℕ} {event : Event}, (∀ f, s.threads t = .running f →
      s.fibers f = .running) → ∀ task ∈ s.events fd event, s.HasYielded task := by
    intro t fd event ht task htask
    cases task with
    | cb callback => trivial
    | fiber f =>
      have hl : s.Carries (.event fd event) f := ⟨_, htask, rfl⟩
      refine h.hasYielded (t := t) hl fun hrun => ?_
      exact h.not_carries (ht f hrun) (.inl rfl) _ hl
  cases a with
  | trigger t fd event =>
    simp only [FiberScheduler.step] at hst
    split_ifs at hst with hidle
    exact hevent (t := t) (by simp [hidle])
  | run t op =>
    cases op with
    | cancelEvent fd event =>
      simp only [FiberScheduler.step] at hst
      split at hst
      · rename_i g hcur
        obtain ⟨ht, hg⟩ := current_eq hcur
        refine hevent (t := t) fun f hf => ?_
        obtain rfl : g = f := by simpa [ht] using hf
        exact hg
      · cases hst
    | spawn | schedule | sleep | wait | addTimer | cancelTimer | addEvent | delEvent => trivial
  | wake t =>
    simp only [FiberScheduler.step] at hst
    split at hst
    · rename_i g f hcur
      obtain ⟨ht, hg⟩ := current_eq hcur
      have hl : s.Carries (.thread t) f := Or.inr ⟨g, ht, hg⟩
      simp only [Settled, hcur]
      refine h.hasYielded (t := t) hl fun hrun => ?_
      obtain rfl : g = f := by simpa [ht] using hrun
      exact h.not_carries hg (.inr ⟨g, rfl⟩) _ hl
    · cases hst
  | submit | take | resume | enterIdle | expire | leaveIdle | yield | swap | finish => trivial

/-- **No fiber is resumed that has not yielded**, if there is one thread, or if no fiber is queued
between its registration and the end of its `yield`. -/
theorem resumes_yielded (h : (machine n).Reaches (fun s a => n ≤ 1 ∨ s.Settled a) init s) :
    s.Safe := by
  refine Orderly.safe (h.invariant (I := Orderly) orderly_init ?_)
  intro s a s' hs hcond hst
  refine hs.step ?_ hst
  rcases hcond with hn | hset
  · have hsub : Subsingleton (Fin n) := Fin.subsingleton_iff_le_one.2 hn
    exact hs.settled hst
  · exact hset

/-- Thread 0 runs a callback that sleeps, and yields; then thread 1 finds the timer expired, and
goes on with the callback. -/
def sleepTwoThreads : List (FiberAction 2) :=
  [.submit (some 0) none, .take 0 0, .resume 0, .run 0 (.sleep 7), .yield 0, .swap 0,
    .enterIdle 1, .expire 1 7, .leaveIdle 1, .take 1 0, .resume 1, .wake 1, .finish 1, .take 1 0,
    .resume 1, .finish 1]

theorem sleepTwoThreads_eq : ((machine 2).runWhere (fun s a => 2 ≤ 1 ∨ s.Settled a) init
      sleepTwoThreads).map (fun s => (s.tasks, s.fibers 0, s.fibers 1)) =
    some ([], .terminated, .terminated) := by
  decide +kernel

theorem resumes_yielded_sleepTwoThreads : ∃ s,
    (machine 2).runWhere (fun s a => 2 ≤ 1 ∨ s.Settled a) init sleepTwoThreads = some s ∧
      s.fibers 0 = .terminated ∧ s.Safe := by
  obtain ⟨s, hs, heq⟩ := Option.map_eq_some_iff.1 sleepTwoThreads_eq
  exact ⟨s, hs, congrArg (fun x => x.2.1) heq, resumes_yielded (Machine.reaches_of_runWhere hs)⟩

/-- Thread 1 finds the timer expired before the fiber on thread 0 yields. -/
def sleepTooShort : List (FiberAction 2) :=
  [.submit (some 0) none, .take 0 0, .resume 0, .run 0 (.sleep 7),
    .enterIdle 1, .expire 1 7, .leaveIdle 1, .take 1 0, .resume 1, .wake 1, .finish 1]

theorem sleepTooShort_eq : ((machine 2).run init sleepTooShort).map (fun s =>
      (s.tasks, s.threads 1, s.fibers 0)) =
    some ([(.fiber 0, none)], .scheduling, .registered) := by
  decide +kernel

/-- With two threads, a thread may find a task whose fiber is still running. -/
theorem not_resumes_yielded :
    ¬ ∀ n (s : FiberScheduler n), (machine n).Reachable init s → s.Safe := by
  intro hall
  obtain ⟨s, hs, heq⟩ := Option.map_eq_some_iff.1 sleepTooShort_eq
  obtain ⟨htasks, hthread, hfiber⟩ : s.tasks = [(.fiber 0, none)] ∧ s.threads 1 = .scheduling ∧
      s.fibers 0 = .registered := by simpa using heq
  have hready := ((hall 2 s (Machine.reachable_of_run hs)).taken 1 0 0 none hthread
    (by simp [Eligible, htasks]) (by simp [htasks])).1
  rw [hfiber] at hready
  cases hready

end FiberScheduler

end KvRaft
