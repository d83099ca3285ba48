import KvRaft.LTS.Basic
import Mathlib.Algebra.Order.Group.Nat
import Mathlib.Data.Finset.Card
import Mathlib.Data.Fintype.Basic
import Mathlib.Data.List.Perm.Basic

/-!
# Shutdown of a scheduler

The threads of a `Scheduler` take tasks from `tasks_`, and `stop` sets `isStopped_`.  A thread
leaves once its idle fiber finds `isStopped_` set, no task queued and `activeThreadCnt_` zero.
The counter goes up under the lock with which the task is taken, and down without it, after the
task has returned.  So a thread that finds the condition knows that no task is running, and only a
running task may still call `scheduler` then (`Scheduler.Orderly`).

* `Scheduler.Exact` : each task is queued or was taken once, by its own thread if it has one, and
  a thread returns only when there is nothing left to do.
* `Scheduler.tasks_exact` : this holds in every run.
-/

namespace KvRaft

/-- `SchedulerTask`, with the number of the call of `scheduler` that queued it, a record. -/
structure SchedulerTask (n : ℕ) where
  number : ℕ
  /-- `thread_`, with `none` for `-1`. -/
  thread : Option (Fin n)
  deriving DecidableEq

/-- Where a thread is in `Scheduler::run`. -/
inductive RunPc (n : ℕ) where
  | notStarted
  /-- It is to look for a task. -/
  | scanning
  /-- It has taken a task, and `resume` has not returned. -/
  | executing (task : SchedulerTask n)
  /-- `resume` has returned, and `activeThreadCnt_` still counts the thread. -/
  | executed
  /-- It has resumed its idle fiber, which is to call `stopping`. -/
  | idling
  | returned
  deriving DecidableEq

structure Scheduler (n : ℕ) where
  tasks : List (SchedulerTask n)
  activeThreadCnt : ℤ
  isStopped : Bool
  threads : Fin n → RunPc n
  /-- The idle fiber of the thread is in state `TERM`. -/
  idleTerm : Fin n → Bool
  /-- The threads named in the calls of `scheduler`, in order, a record. -/
  accepted : List (Option (Fin n))
  /-- The tasks taken, each with the thread that took it, a record. -/
  taken : List (SchedulerTask n × Fin n)

inductive SchedulerAction (n : ℕ) where
  /-- A thread outside the pool calls `scheduler`. -/
  | schedule (thread : Option (Fin n))
  /-- The task that runs on thread `t` calls `scheduler`. -/
  | scheduleFrom (t : Fin n) (thread : Option (Fin n))
  /-- Thread `t` enters `run`. -/
  | begin (t : Fin n)
  /-- Thread `t` looks for a task. -/
  | scan (t : Fin n)
  /-- The task that runs on thread `t` returns. -/
  | finish (t : Fin n)
  /-- `--activeThreadCnt_`. -/
  | release (t : Fin n)
  /-- The idle fiber of thread `t` calls `stopping`. -/
  | idle (t : Fin n)
  | stop
  deriving DecidableEq

namespace Scheduler

variable {n : ℕ}

def init : Scheduler n where
  tasks := []
  activeThreadCnt := 0
  isStopped := false
  threads _ := .notStarted
  idleTerm _ := false
  accepted := []
  taken := []

section Operations

variable (s : Scheduler n)

/-- `Scheduler::scheduler` with a task that is not null. -/
def schedule (thread : Option (Fin n)) : Scheduler n :=
  { s with
    tasks := s.tasks ++ [⟨s.accepted.length, thread⟩]
    accepted := s.accepted ++ [thread] }

def stopping : Bool := s.isStopped && s.tasks.isEmpty && s.activeThreadCnt = 0

/-- The loop of `run` over `tasks_`: the first task that thread `t` may take, and the others. -/
def find (t : Fin n) : List (SchedulerTask n) → Option (SchedulerTask n × List (SchedulerTask n))
  | [] => none
  | task :: tasks =>
    if task.thread = none ∨ task.thread = some t then some (task, tasks)
    else (find t tasks).map fun (x, xs) => (x, task :: xs)

def setThread (t : Fin n) (pc : RunPc n) : Scheduler n :=
  { s with threads := Function.update s.threads t pc }

/-- A round of `run` up to where it resumes a fiber or returns. -/
def scan (t : Fin n) : Scheduler n :=
  match find t s.tasks with
  | some (task, tasks) =>
    { s.setThread t (.executing task) with
      tasks := tasks
      activeThreadCnt := s.activeThreadCnt + 1
      taken := s.taken ++ [(task, t)] }
  | none => if s.idleTerm t then s.setThread t .returned else s.setThread t .idling

/-- A round of `idle`. -/
def idle (t : Fin n) : Scheduler n :=
  if s.stopping then
    { s.setThread t .scanning with idleTerm := Function.update s.idleTerm t true }
  else s.setThread t .scanning

end Operations

/-- `caller` is the thread that has made the scheduler if it is to run tasks too, which it does
within `stop`.  Threads outside the pool call `scheduler` before `isStopped_` is set. -/
def step (caller : Option (Fin n)) (s : Scheduler n) : SchedulerAction n → Option (Scheduler n)
  | .schedule thread => if s.isStopped then none else some (s.schedule thread)
  | .scheduleFrom t thread =>
    match s.threads t with
    | .executing _ => some (s.schedule thread)
    | _ => none
  | .begin t =>
    if s.threads t = .notStarted ∧ (caller = some t → s.isStopped) then
      some (s.setThread t .scanning)
    else none
  | .scan t => if s.threads t = .scanning then some (s.scan t) else none
  | .finish t =>
    match s.threads t with
    | .executing _ => some (s.setThread t .executed)
    | _ => none
  | .release t =>
    if s.threads t = .executed then
      some { s.setThread t .scanning with activeThreadCnt := s.activeThreadCnt - 1 }
    else none
  | .idle t => if s.threads t = .idling then some (s.idle t) else none
  | .stop => some { s with isStopped := true }

/-- A scheduler with `n` threads as a machine. -/
def machine (caller : Option (Fin n)) : Machine (Scheduler n) (SchedulerAction n) := ⟨step caller⟩

/-- **No task is lost or run twice.** -/
structure Exact (s : Scheduler n) : Prop where
  /-- Each accepted task is queued, or was taken, and that once. -/
  once : (s.tasks.map SchedulerTask.number ++ s.taken.map fun x => x.1.number).Perm
    (List.range s.accepted.length)
  /-- The thread named in the call has taken the task. -/
  own : ∀ x ∈ s.taken, ∃ thread, s.accepted[x.1.number]? = some thread ∧
    (thread = none ∨ thread = some x.2)
  /-- No thread returns while a task is queued or running. -/
  returned : ∀ t, s.threads t = .returned →
    s.tasks = [] ∧ ∀ t' task, s.threads t' ≠ .executing task
  /-- When all threads have returned, each accepted task was taken. -/
  complete : 0 < n → (∀ t, s.threads t = .returned) →
    (s.taken.map fun x => x.1.number).Perm (List.range s.accepted.length)

end Scheduler

/-- `activeThreadCnt_` counts the thread. -/
def RunPc.active {n : ℕ} : RunPc n → Bool
  | .executing _ | .executed => true
  | _ => false

namespace Scheduler

variable {n : ℕ} {s s' : Scheduler n} {t : Fin n} {caller : Option (Fin n)}
  {a : SchedulerAction n}

/-- The threads that `activeThreadCnt_` counts. -/
def activeThreads (threads : Fin n → RunPc n) : Finset (Fin n) :=
  Finset.univ.filter fun t => (threads t).active

/-- **The invariant of the scheduler.** -/
structure Orderly (s : Scheduler n) : Prop where
  once : (s.tasks.map SchedulerTask.number ++ s.taken.map fun x => x.1.number).Perm
    (List.range s.accepted.length)
  queued : ∀ x ∈ s.tasks, s.accepted[x.number]? = some x.thread
  own : ∀ x ∈ s.taken, ∃ thread, s.accepted[x.1.number]? = some thread ∧
    (thread = none ∨ thread = some x.2)
  active : s.activeThreadCnt = (activeThreads s.threads).card
  /-- A thread whose idle fiber has ended has found that there is nothing left to do, and there
  will be nothing. -/
  quiet : ∀ t, s.idleTerm t = true →
    s.isStopped = true ∧ s.tasks = [] ∧ ∀ t', (s.threads t').active = false
  returned : ∀ t, s.threads t = .returned → s.idleTerm t = true

theorem Orderly.exact (h : s.Orderly) : s.Exact := by
  have hreturned : ∀ t, s.threads t = .returned →
      s.tasks = [] ∧ ∀ t' task, s.threads t' ≠ .executing task := by
    intro t ht
    obtain ⟨-, htasks, hactive⟩ := h.quiet t (h.returned t ht)
    refine ⟨htasks, fun t' task ht' => ?_⟩
    have hquiet := hactive t'
    rw [ht'] at hquiet
    cases hquiet
  refine ⟨h.once, h.own, hreturned, fun hn hall => ?_⟩
  have honce := h.once
  rw [(hreturned ⟨0, hn⟩ (hall ⟨0, hn⟩)).1] at honce
  simpa using honce

/-! ### Threads that are counted -/

theorem activeThreads_update_of_active {threads : Fin n → RunPc n} {pc : RunPc n}
    (hpc : pc.active = true) :
    activeThreads (Function.update threads t pc) = insert t (activeThreads threads) := by
  ext t'
  rcases eq_or_ne t' t with rfl | ht
  · simp [activeThreads, hpc]
  · simp [activeThreads, ht]

theorem activeThreads_update_of_not_active {threads : Fin n → RunPc n} {pc : RunPc n}
    (hpc : pc.active = false) :
    activeThreads (Function.update threads t pc) = (activeThreads threads).erase t := by
  ext t'
  rcases eq_or_ne t' t with rfl | ht
  · simp [activeThreads, hpc]
  · simp [activeThreads, ht]

@[simp] theorem mem_activeThreads {threads : Fin n → RunPc n} :
    t ∈ activeThreads threads ↔ (threads t).active = true := by
  simp [activeThreads]

/-- A thread moves on, and is counted as before. -/
theorem Orderly.setThread (h : s.Orderly) {pc : RunPc n} (hpc : pc.active = (s.threads t).active)
    (hret : pc = .returned → s.idleTerm t = true) : (s.setThread t pc).Orderly := by
  refine ⟨h.once, h.queued, h.own, ?_, ?_, ?_⟩
  · have hsame : activeThreads (Function.update s.threads t pc) = activeThreads s.threads := by
      cases hact : pc.active with
      | true =>
        rw [activeThreads_update_of_active hact, Finset.insert_eq_of_mem]
        simp [← hpc, hact]
      | false =>
        rw [activeThreads_update_of_not_active hact, Finset.erase_eq_of_notMem]
        simp [← hpc, hact]
    simpa [Scheduler.setThread, hsame] using h.active
  · intro t' ht'
    obtain ⟨hstop, htasks, hactive⟩ := h.quiet t' ht'
    refine ⟨hstop, htasks, fun t'' => ?_⟩
    rcases eq_or_ne t'' t with rfl | hne
    · simpa [Scheduler.setThread, hpc] using hactive t''
    · simpa [Scheduler.setThread, hne] using hactive t''
  · intro t' ht'
    rcases eq_or_ne t' t with rfl | hne
    · exact hret (by simpa [Scheduler.setThread] using ht')
    · exact h.returned t' (by simpa [Scheduler.setThread, hne] using ht')

/-- A task is queued while the scheduler is not stopped, or by a task that runs. -/
theorem Orderly.schedule (h : s.Orderly) (thread : Option (Fin n))
    (hopen : s.isStopped = false ∨ ∃ t, (s.threads t).active = true) :
    (s.schedule thread).Orderly := by
  have hold : ∀ {k : ℕ} {x : Option (Fin n)}, s.accepted[k]? = some x →
      (s.accepted ++ [thread])[k]? = some x := by
    intro k x hk
    rw [List.getElem?_append_left (List.getElem?_eq_some_iff.1 hk).1, hk]
  refine ⟨?_, ?_, ?_, h.active, ?_, h.returned⟩
  · have hnew := h.once.append_right [s.accepted.length]
    simp only [Scheduler.schedule, List.map_append, List.map_cons, List.map_nil, List.length_append,
      List.length_singleton, List.range_succ]
    refine List.Perm.trans ?_ hnew
    rw [List.append_assoc, List.append_assoc]
    exact List.perm_append_comm.append_left (s.tasks.map SchedulerTask.number)
  · intro x hx
    rcases List.mem_append.1 hx with hx | hx
    · exact hold (h.queued x hx)
    · obtain rfl := List.mem_singleton.1 hx
      simp [Scheduler.schedule]
  · intro x hx
    obtain ⟨th, hth, hown⟩ := h.own x hx
    exact ⟨th, hold hth, hown⟩
  · -- nobody has found that there is nothing left to do
    intro t ht
    obtain ⟨hstop, -, hactive⟩ := h.quiet t ht
    rcases hopen with hopen | ⟨t', ht'⟩
    · rw [hstop] at hopen
      cases hopen
    · rw [hactive t'] at ht'
      cases ht'

/-- What `find` returns. -/
theorem find_eq_some {tasks tasks' : List (SchedulerTask n)} {task : SchedulerTask n}
    (h : find t tasks = some (task, tasks')) :
    tasks.Perm (task :: tasks') ∧ (task.thread = none ∨ task.thread = some t) := by
  induction tasks generalizing tasks' with
  | nil => cases h
  | cons x xs ih =>
    simp only [find] at h
    split_ifs at h with hx
    · obtain ⟨rfl, rfl⟩ := by simpa using h
      exact ⟨.refl _, hx⟩
    · obtain ⟨⟨y, ys⟩, hy, heq⟩ := Option.map_eq_some_iff.1 h
      obtain ⟨rfl, rfl⟩ := Prod.mk.inj heq
      obtain ⟨hperm, hthread⟩ := ih hy
      exact ⟨(hperm.cons x).trans (.swap y x ys), hthread⟩

theorem Orderly.scan (h : s.Orderly) (ht : s.threads t = .scanning) : (s.scan t).Orderly := by
  unfold Scheduler.scan
  split
  · rename_i task tasks hfind
    obtain ⟨hperm, hthread⟩ := find_eq_some hfind
    have hmem : task ∈ s.tasks := hperm.mem_iff.2 List.mem_cons_self
    have hnot : t ∉ activeThreads s.threads := by simp [ht, RunPc.active]
    refine ⟨?_, ?_, ?_, ?_, ?_, ?_⟩
    · refine List.Perm.trans ?_ h.once
      have hmap := (hperm.map SchedulerTask.number).append_right
        (s.taken.map fun x => x.1.number)
      refine List.Perm.trans ?_ hmap.symm
      simp only [List.map_append, List.map_cons, List.map_nil, ← List.append_assoc]
      exact List.perm_append_comm
    · exact fun x hx => h.queued x (hperm.mem_iff.2 (List.mem_cons_of_mem task hx))
    · intro x hx
      rcases List.mem_append.1 hx with hx | hx
      · exact h.own x hx
      · obtain rfl := List.mem_singleton.1 hx
        exact ⟨task.thread, h.queued task hmem, hthread⟩
    · have hact : (RunPc.executing task : RunPc n).active = true := rfl
      simp only [Scheduler.setThread, activeThreads_update_of_active hact,
        Finset.card_insert_of_notMem hnot, h.active]
      push_cast
      rfl
    · intro t' ht'
      obtain ⟨-, htasks, -⟩ := h.quiet t' ht'
      rw [htasks] at hmem
      cases hmem
    · intro t' ht'
      rcases eq_or_ne t' t with rfl | hne
      · simp [Scheduler.setThread] at ht'
      · exact h.returned t' (by simpa [Scheduler.setThread, hne] using ht')
  · split_ifs with hterm
    · exact h.setThread (by rw [ht]; rfl) fun _ => hterm
    · exact h.setThread (by rw [ht]; rfl) (by simp)

theorem Orderly.idle (h : s.Orderly) (ht : s.threads t = .idling) : (s.idle t).Orderly := by
  have hscan : (s.setThread t .scanning).Orderly := h.setThread (by rw [ht]; rfl) (by simp)
  unfold Scheduler.idle
  split_ifs with hstop
  · obtain ⟨⟨hstopped, hempty⟩, hzero⟩ : (s.isStopped = true ∧ s.tasks = []) ∧
        s.activeThreadCnt = 0 := by simpa [stopping] using hstop
    -- the counter says that no task runs
    have hnone : ∀ t', ((s.setThread t .scanning).threads t').active = false := by
      have hcard := hscan.active
      intro t'
      have hzero' : (activeThreads (s.setThread t .scanning).threads).card = 0 := by
        have : (s.setThread t .scanning).activeThreadCnt = 0 := hzero
        omega
      have hmem : t' ∉ activeThreads (s.setThread t .scanning).threads := by
        rw [Finset.card_eq_zero.1 hzero']
        exact Finset.notMem_empty t'
      simpa using hmem
    refine ⟨hscan.once, hscan.queued, hscan.own, hscan.active, ?_, ?_⟩
    · exact fun t' _ => ⟨hstopped, hempty, hnone⟩
    · intro t' ht'
      rcases eq_or_ne t' t with rfl | hne
      · simp
      · simpa [hne, Scheduler.setThread] using hscan.returned t' ht'
  · exact hscan

/-- A thread whose task has returned is counted no more. -/
theorem Orderly.release (h : s.Orderly) (ht : s.threads t = .executed) :
    ({ s.setThread t .scanning with activeThreadCnt := s.activeThreadCnt - 1 } :
      Scheduler n).Orderly := by
  have hmem : t ∈ activeThreads s.threads := by simp [ht, RunPc.active]
  have hpc : (RunPc.scanning : RunPc n).active = false := rfl
  refine ⟨h.once, h.queued, h.own, ?_, ?_, ?_⟩
  · have hcard := Finset.card_erase_add_one hmem
    simp only [Scheduler.setThread, activeThreads_update_of_not_active hpc, h.active]
    omega
  · intro t' ht'
    have hactive := (h.quiet t' ht').2.2 t
    rw [ht] at hactive
    cases hactive
  · intro t' ht'
    rcases eq_or_ne t' t with rfl | hne
    · simp [Scheduler.setThread] at ht'
    · exact h.returned t' (by simpa [Scheduler.setThread, hne] using ht')

theorem Orderly.step (h : s.Orderly) (hst : s.step caller a = some s') : s'.Orderly := by
  cases a with
  | schedule thread =>
    simp only [Scheduler.step] at hst
    split_ifs at hst with hstop
    obtain rfl := Option.some.inj hst
    exact h.schedule thread (.inl (by simpa using hstop))
  | scheduleFrom t thread =>
    simp only [Scheduler.step] at hst
    split at hst
    · rename_i task ht
      obtain rfl := Option.some.inj hst
      exact h.schedule thread (.inr ⟨t, by rw [ht]; rfl⟩)
    · cases hst
  | begin t =>
    simp only [Scheduler.step] at hst
    split_ifs at hst with hbegin
    obtain rfl := Option.some.inj hst
    exact h.setThread (by rw [hbegin.1]; rfl) (by simp)
  | scan t =>
    simp only [Scheduler.step] at hst
    split_ifs at hst with ht
    obtain rfl := Option.some.inj hst
    exact h.scan ht
  | finish t =>
    simp only [Scheduler.step] at hst
    split at hst
    · rename_i task ht
      obtain rfl := Option.some.inj hst
      exact h.setThread (by rw [ht]; rfl) (by simp)
    · cases hst
  | release t =>
    simp only [Scheduler.step] at hst
    split_ifs at hst with ht
    obtain rfl := Option.some.inj hst
    exact h.release ht
  | idle t =>
    simp only [Scheduler.step] at hst
    split_ifs at hst with ht
    obtain rfl := Option.some.inj hst
    exact h.idle ht
  | stop =>
    obtain rfl := Option.some.inj hst
    refine ⟨h.once, h.queued, h.own, h.active, ?_, h.returned⟩
    intro t ht
    obtain ⟨-, htasks, hactive⟩ := h.quiet t ht
    exact ⟨rfl, htasks, hactive⟩

theorem orderly_init : (init : Scheduler n).Orderly := by
  refine ⟨.refl _, ?_, ?_, ?_, ?_, ?_⟩
  all_goals simp [init, activeThreads, RunPc.active]

/-- **No scheduled task is lost or run twice**, in every run of every scheduler. -/
theorem tasks_exact (h : (machine caller).Reachable init s) : s.Exact :=
  (h.invariant orderly_init fun _ _ _ hs _ hst => hs.step hst).exact

/-- Two threads and the caller's: a task pinned to thread 1 queues another one for the caller's
thread, which runs it within `stop`. -/
def pinnedTasks : List (SchedulerAction 3) :=
  [.begin 0, .schedule none, .begin 1, .schedule (some 1), .scan 0, .scan 1,
    .scheduleFrom 1 (some 2), .finish 1, .stop, .begin 2, .finish 0, .scan 2, .release 1, .scan 1,
    .release 0, .idle 1, .finish 2, .release 2, .scan 0, .idle 0, .scan 1, .scan 2, .idle 2,
    .idle 1, .scan 0, .scan 1, .scan 2]

theorem pinnedTasks_eq : ((machine (some 2)).run init pinnedTasks).map (fun s =>
      (s.taken.map fun x => (x.1.number, x.2), s.threads 0, s.threads 1, s.threads 2)) =
    some ([(0, 0), (1, 1), (2, 2)], .returned, .returned, .returned) := by
  decide +kernel

theorem tasks_exact_pinnedTasks : ∃ s, (machine (some 2)).run init pinnedTasks = some s ∧
    s.threads 0 = .returned ∧ s.Exact := by
  obtain ⟨s, hs, heq⟩ := Option.map_eq_some_iff.1 pinnedTasks_eq
  exact ⟨s, hs, congrArg (fun x => x.2.1) heq, tasks_exact (Machine.reachable_of_run hs)⟩

end Scheduler

end KvRaft
