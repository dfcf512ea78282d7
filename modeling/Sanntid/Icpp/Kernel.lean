import Sanntid.Transition.System
import Mathlib.Data.Finset.Max

/-!
# Tasks, priorities and mutexes on one CPU

The real-time services that `ex8/taskE/main.c` rests on, as far as the program uses them:
`rt_task_set_priority` takes effect at once, `rt_mutex_acquire` makes the caller the one owner of a
free mutex (a second acquire by the owner nests) and suspends it on a mutex that another task owns,
and `rt_mutex_release` undoes one acquire. When the last one is undone the mutex either passes to
a task that waits for it or becomes free and its waiters retry; both are steps here, so results
hold for either policy.

A task carries the statements it has still to execute. `exec` is the effect of the next one, and
only a running task executes: one that is ready and that no ready task exceeds in priority.

The two functions under study, `icpp_lock` and `icpp_unlock`, are lists of two statements each.
-/

set_option autoImplicit false

namespace Sanntid.Icpp

open Sanntid.Transition

/-- `resource_t`: a mutex and its ceiling. -/
structure Resource (μ : Type) where
  mutex : μ
  pri : Int

/-- `thread_pri_t`: a task and the priority it has outside its critical sections. -/
structure ThreadPri (ι : Type) where
  task : ι
  basePri : Int

/-- A statement of a task. The last three do not touch priorities or mutexes. -/
inductive Stmt (ι μ : Type) where
  | rtTaskSetPriority (task : ι) (prio : Int)
  | rtMutexAcquire (mutex : μ)
  | rtMutexRelease (mutex : μ)
  | rtSemP
  | rtTaskSleep (delay : Nat)
  | rtTaskDelete
  | busyWaitUs (delay : Nat)
  | rtMutexInquire (mutex : μ)
  | rtPrintf (text : String)

/-- Why a task is not ready: it sleeps, it waits at `sem_init` or for a mutex, or it is gone. -/
inductive Mode (μ : Type) where
  | ready
  | asleep
  | onSem
  | onMutex (mutex : μ)
  | deleted
  deriving DecidableEq

/-- A task: its current priority, the mutexes it has acquired and not released (latest first), and
the statements it has still to execute. -/
structure Task (ι μ : Type) where
  cprio : Int
  mode : Mode μ
  held : List μ
  todo : List (Stmt ι μ)

/-- `RT_MUTEX`: free, or owned by a task that has acquired it `again` more times. -/
inductive Mutex (ι : Type) where
  | free
  | owned (owner : ι) (again : Nat)
  deriving DecidableEq

/-- All tasks and all mutexes. -/
structure Kernel (ι μ : Type) where
  task : ι → Task ι μ
  mutex : μ → Mutex ι

variable {ι μ : Type}

/-! ## The code under study -/

/-- The ceiling is set before the mutex is acquired. -/
def icppLock (res : Resource μ) (thread : ThreadPri ι) : List (Stmt ι μ) :=
  [.rtTaskSetPriority thread.task res.pri, .rtMutexAcquire res.mutex]

/-- The mutex is released before the base priority is set. -/
def icppUnlock (res : Resource μ) (thread : ThreadPri ι) : List (Stmt ι μ) :=
  [.rtMutexRelease res.mutex, .rtTaskSetPriority thread.task thread.basePri]

/-! ## Mutexes -/

section Mutexes

variable [DecidableEq ι]

namespace Mutex

/-- How many acquires of the mutex by `i` are not yet undone. -/
def heldBy (i : ι) : Mutex ι → Nat
  | free => 0
  | owned j n => if j = i then n + 1 else 0

/-- `none` when another task owns the mutex. -/
def acquire (i : ι) : Mutex ι → Option (Mutex ι)
  | free => some (owned i 0)
  | owned j n => if j = i then some (owned i (n + 1)) else none

/-- Undo one acquire by `i`; without effect when `i` is not the owner. -/
def release (i : ι) : Mutex ι → Mutex ι
  | owned j 0 => if j = i then free else owned j 0
  | owned j (n + 1) => if j = i then owned j n else owned j (n + 1)
  | free => free

@[simp] theorem heldBy_free (i : ι) : (free : Mutex ι).heldBy i = 0 := rfl

theorem heldBy_acquire {i : ι} {x x' : Mutex ι} (h : x.acquire i = some x') (j : ι) :
    x'.heldBy j = x.heldBy j + if j = i then 1 else 0 := by
  cases x with
  | free =>
    simp only [acquire, Option.some.injEq] at h
    subst h
    simp [heldBy, eq_comm]
  | owned o n =>
    simp only [acquire, Option.ite_none_right_eq_some, Option.some.injEq] at h
    obtain ⟨rfl, rfl⟩ := h
    by_cases hj : j = o
    · simp [heldBy, hj]
    · simp [heldBy, hj, Ne.symm hj]

theorem acquire_eq_none {i : ι} {x : Mutex ι} :
    x.acquire i = none ↔ ∃ j, j ≠ i ∧ 0 < x.heldBy j := by
  cases x with
  | free => simp [acquire]
  | owned o n =>
    by_cases ho : o = i
    · subst ho
      simp [acquire, heldBy, eq_comm]
    · simp only [acquire, if_neg ho, true_iff]
      exact ⟨o, ho, by simp [heldBy]⟩

theorem heldBy_release {i : ι} {x : Mutex ι} (h : 0 < x.heldBy i) (j : ι) :
    (x.release i).heldBy j = x.heldBy j - if j = i then 1 else 0 := by
  cases x with
  | free => simp at h
  | owned o n =>
    have ho : o = i := by
      by_contra hne
      simp [heldBy, hne] at h
    subst ho
    by_cases hj : j = o
    · cases n <;> simp [release, heldBy, hj]
    · cases n <;> simp [release, heldBy, hj, Ne.symm hj]

theorem eq_free_iff {x : Mutex ι} : x = free ↔ ∀ i, x.heldBy i = 0 := by
  cases x with
  | free => simp
  | owned o n =>
    simp only [reduceCtorEq, false_iff, not_forall]
    exact ⟨o, by simp [heldBy]⟩

end Mutex

/-! ## Services -/

/-- Replace the record of one task. -/
def Kernel.setTask (k : Kernel ι μ) (i : ι) (t : Task ι μ) : Kernel ι μ :=
  { k with task := Function.update k.task i t }

/-- The new priority holds at once. -/
def rtTaskSetPriority (k : Kernel ι μ) (task : ι) (prio : Int) : Kernel ι μ :=
  k.setTask task { k.task task with cprio := prio }

variable [DecidableEq μ]

/-- `none` when another task owns the mutex. -/
def rtMutexAcquire (k : Kernel ι μ) (i : ι) (m : μ) : Option (Kernel ι μ) :=
  ((k.mutex m).acquire i).map fun x =>
    { task := Function.update k.task i { k.task i with held := m :: (k.task i).held }
      mutex := Function.update k.mutex m x }

/-- Only the owner releases. -/
def rtMutexRelease (k : Kernel ι μ) (i : ι) (m : μ) : Kernel ι μ :=
  if (k.mutex m).heldBy i = 0 then k
  else
    { task := Function.update k.task i { k.task i with held := (k.task i).held.erase m }
      mutex := Function.update k.mutex m ((k.mutex m).release i) }

/-- The tasks that wait for `m` become ready and will retry. -/
def Kernel.wakeWaiters (k : Kernel ι μ) (m : μ) : Kernel ι μ :=
  { k with task := fun j =>
      if (k.task j).mode = .onMutex m then { k.task j with mode := .ready } else k.task j }

/-- `m` passes to the waiting task `j`, whose `rt_mutex_acquire` returns. -/
def Kernel.grant (k : Kernel ι μ) (m : μ) (j : ι) : Option (Kernel ι μ) :=
  if (k.task j).mode = .onMutex m then
    rtMutexAcquire
      (k.setTask j { k.task j with mode := .ready, todo := (k.task j).todo.tail }) j m
  else none

/-- A mutex that is free after a release is handed over to `next`, or its waiters retry. -/
def handOver (k : Kernel ι μ) (m : μ) (next : Option ι) : Option (Kernel ι μ) :=
  if k.mutex m = .free then
    match next with
    | some j => k.grant m j
    -- everybody who waits tries again
    | none => some (k.wakeWaiters m)
  else some k

/-- The effect of one statement of task `i`, whose remaining statements are already set. A failed
acquire puts the statement back and suspends the task. `next` is who gets a released mutex. -/
def exec (k : Kernel ι μ) (i : ι) (next : Option ι) : Stmt ι μ → Option (Kernel ι μ)
  | .rtTaskSetPriority task prio => some (rtTaskSetPriority k task prio)
  | .rtMutexAcquire m =>
    match rtMutexAcquire k i m with
    | some k' => some k'
    -- suspended before the acquire, which stays the next statement
    | none => some (k.setTask i
        { k.task i with mode := .onMutex m, todo := .rtMutexAcquire m :: (k.task i).todo })
  | .rtMutexRelease m => handOver (rtMutexRelease k i m) m next
  -- `rt_sem_p` on a semaphore that starts at 0 and is only ever broadcast
  | .rtSemP => some (k.setTask i { k.task i with mode := .onSem })
  | .rtTaskSleep _ => some (k.setTask i { k.task i with mode := .asleep })
  | .rtTaskDelete => some (k.setTask i { k.task i with mode := .deleted, todo := [] })
  | .busyWaitUs _ => some k
  | .rtMutexInquire _ => some k
  | .rtPrintf _ => some k

/-- `i` is ready and no ready task has a higher current priority. -/
def Running (k : Kernel ι μ) (i : ι) : Prop :=
  (k.task i).mode = .ready ∧ ∀ j, (k.task j).mode = .ready → (k.task j).cprio ≤ (k.task i).cprio

instance [Fintype ι] (k : Kernel ι μ) (i : ι) : Decidable (Running k i) :=
  inferInstanceAs (Decidable (_ ∧ _))

/-- The running task `i` executes its next statement. -/
def runTask [Fintype ι] (k : Kernel ι μ) (i : ι) (next : Option ι) : Option (Kernel ι μ) :=
  if Running k i then
    match (k.task i).todo with
    -- a task without statements left does not step
    | [] => none
    | st :: rest => exec (k.setTask i { k.task i with todo := rest }) i next st
  else none

/-- The sleep of task `i` ends. -/
def wake (k : Kernel ι μ) (i : ι) : Option (Kernel ι μ) :=
  if (k.task i).mode = .asleep then some (k.setTask i { k.task i with mode := .ready }) else none

end Mutexes

/-! ## What the services do -/

section Effects

variable [DecidableEq ι]

@[simp] theorem setTask_self (k : Kernel ι μ) (i : ι) (t : Task ι μ) :
    (k.setTask i t).task i = t := by
  simp [Kernel.setTask]

theorem setTask_of_ne (k : Kernel ι μ) {i j : ι} (t : Task ι μ) (h : j ≠ i) :
    (k.setTask i t).task j = k.task j := by
  simp [Kernel.setTask, h]

@[simp] theorem setTask_mutex (k : Kernel ι μ) (i : ι) (t : Task ι μ) :
    (k.setTask i t).mutex = k.mutex := rfl

theorem setTask_task (k : Kernel ι μ) (i : ι) (t : Task ι μ) :
    (k.setTask i t).task = Function.update k.task i t := rfl

@[simp] theorem setTask_setTask (k : Kernel ι μ) (i : ι) (t t' : Task ι μ) :
    (k.setTask i t).setTask i t' = k.setTask i t' := by
  simp [Kernel.setTask]

variable [DecidableEq μ]

/-- The list of held mutexes and the mutexes themselves agree. -/
def Consistent (k : Kernel ι μ) : Prop :=
  ∀ i m, (k.task i).held.count m = (k.mutex m).heldBy i

theorem Consistent.mem_iff {k : Kernel ι μ} (h : Consistent k) {i : ι} {m : μ} :
    m ∈ (k.task i).held ↔ 0 < (k.mutex m).heldBy i := by
  rw [← h i m, List.count_pos_iff]

/-- The agreement depends on nothing else. -/
theorem Consistent.of_held_eq {k k' : Kernel ι μ} (h : Consistent k)
    (hmutex : k'.mutex = k.mutex) (hheld : ∀ i, (k'.task i).held = (k.task i).held) :
    Consistent k' := by
  intro i m
  rw [hmutex, hheld i, h i m]

/-- Replacing a task record without touching its held mutexes keeps the agreement. -/
theorem Consistent.setTask {k : Kernel ι μ} (h : Consistent k) {i : ι} {t : Task ι μ}
    (ht : t.held = (k.task i).held) : Consistent (k.setTask i t) := by
  intro j m
  by_cases hj : j = i
  · subst hj
    rw [setTask_self, setTask_mutex, ht, h j m]
  · rw [setTask_of_ne k t hj, setTask_mutex, h j m]

/-- An acquire fails exactly when another task holds the mutex. -/
theorem rtMutexAcquire_eq_none {k : Kernel ι μ} (h : Consistent k) {i : ι} {m : μ} :
    rtMutexAcquire k i m = none ↔ ∃ j, j ≠ i ∧ m ∈ (k.task j).held := by
  simp only [rtMutexAcquire, Option.map_eq_none_iff, Mutex.acquire_eq_none, h.mem_iff]

/-- A successful acquire adds the mutex to the list of its task, and nothing else. -/
theorem rtMutexAcquire_eq_some {k k' : Kernel ι μ} {i : ι} {m : μ}
    (h : rtMutexAcquire k i m = some k') :
    k'.task = Function.update k.task i { k.task i with held := m :: (k.task i).held } ∧
      (Consistent k → Consistent k') := by
  simp only [rtMutexAcquire, Option.map_eq_some_iff] at h
  obtain ⟨x, hx, rfl⟩ := h
  refine ⟨rfl, fun hk j n => ?_⟩
  -- each of task and mutex may be the one of the call or another
  have hcount := hk j n
  by_cases hj : j = i
  · subst hj
    by_cases hn : n = m
    · subst hn
      have hheld := Mutex.heldBy_acquire hx j
      simp only [Function.update_self, List.count_cons_self, hheld, if_true]
      omega
    · simpa [Function.update_of_ne hn, List.count_cons_of_ne (Ne.symm hn)] using hcount
  · by_cases hn : n = m
    · subst hn
      have hheld := Mutex.heldBy_acquire hx j
      simp only [Function.update_self, Function.update_of_ne hj, hheld, if_neg hj]
      omega
    · simpa [Function.update_of_ne hn, Function.update_of_ne hj] using hcount

/-- The release of a held mutex takes its latest entry off the list, and nothing else. -/
theorem rtMutexRelease_spec {k : Kernel ι μ} (h : Consistent k) {i : ι} {m : μ}
    (hm : m ∈ (k.task i).held) :
    (rtMutexRelease k i m).task =
        Function.update k.task i { k.task i with held := (k.task i).held.erase m } ∧
      Consistent (rtMutexRelease k i m) := by
  have hpos := h.mem_iff.1 hm
  have hrel : rtMutexRelease k i m =
      { task := Function.update k.task i { k.task i with held := (k.task i).held.erase m }
        mutex := Function.update k.mutex m ((k.mutex m).release i) } := if_neg (by omega)
  rw [hrel]
  refine ⟨rfl, fun j n => ?_⟩
  -- as for the acquire: only the entry of this task for this mutex changes
  have hcount := h j n
  by_cases hj : j = i
  · subst hj
    by_cases hn : n = m
    · subst hn
      have hheld := Mutex.heldBy_release hpos j
      simp only [Function.update_self, List.count_erase_self, hheld, if_true]
      omega
    · simpa [Function.update_of_ne hn, List.count_erase_of_ne hn] using hcount
  · by_cases hn : n = m
    · subst hn
      have hheld := Mutex.heldBy_release hpos j
      simp only [Function.update_self, Function.update_of_ne hj, hheld, if_neg hj]
      omega
    · simpa [Function.update_of_ne hn, Function.update_of_ne hj] using hcount

/-- An acquire by a task whose record has just been replaced. -/
theorem rtMutexAcquire_setTask {k k' : Kernel ι μ} {i : ι} {t : Task ι μ} {m : μ}
    (h : rtMutexAcquire (k.setTask i t) i m = some k') :
    k'.task = Function.update k.task i { t with held := m :: t.held } := by
  rw [(rtMutexAcquire_eq_some h).1, setTask_self, setTask_task, Function.update_idem]

/-- A release by a task whose record has just been replaced. -/
theorem rtMutexRelease_setTask {k : Kernel ι μ} {i : ι} {t : Task ι μ} {m : μ}
    (h : Consistent (k.setTask i t)) (hm : m ∈ t.held) :
    (rtMutexRelease (k.setTask i t) i m).task =
        Function.update k.task i { t with held := t.held.erase m } ∧
      Consistent (rtMutexRelease (k.setTask i t) i m) := by
  obtain ⟨htask, hcons⟩ := rtMutexRelease_spec h (i := i) (m := m) (by simpa using hm)
  refine ⟨?_, hcons⟩
  rw [htask, setTask_self, setTask_task, Function.update_idem]

/-! ## What a step does -/

/-- An acquire takes the mutex, or another task holds it and the acquire is to be tried again. -/
theorem acquire_cases {k k' : Kernel ι μ} (hk : Consistent k) {i : ι} {t : Task ι μ}
    {next : Option ι} {m : μ} (h : exec (k.setTask i t) i next (.rtMutexAcquire m) = some k')
    (ht : t.held = (k.task i).held) :
    (k'.task = Function.update k.task i { t with held := m :: t.held } ∧ Consistent k') ∨
      ∃ j, j ≠ i ∧ m ∈ (k.task j).held ∧
        k' = k.setTask i { t with mode := .onMutex m, todo := .rtMutexAcquire m :: t.todo } := by
  have hcons : Consistent (k.setTask i t) := hk.setTask ht
  simp only [exec] at h
  split at h
  · rename_i k₁ hacq
    obtain rfl := Option.some.inj h
    exact Or.inl ⟨rtMutexAcquire_setTask hacq, (rtMutexAcquire_eq_some hacq).2 hcons⟩
  · rename_i hnone
    obtain ⟨j, hj, hmem⟩ := (rtMutexAcquire_eq_none hcons).1 hnone
    rw [setTask_of_ne k t hj] at hmem
    rw [setTask_self, setTask_setTask] at h
    exact Or.inr ⟨j, hj, hmem, (Option.some.inj h).symm⟩

/-- With no task waiting for it, a released mutex goes to nobody. -/
theorem handOver_eq {k k' : Kernel ι μ} {m : μ} {next : Option ι}
    (hwait : ∀ j, (k.task j).mode ≠ .onMutex m) (h : handOver k m next = some k') : k' = k := by
  simp only [handOver] at h
  split at h
  · cases next with
    | some j => simp [Kernel.grant, hwait j] at h
    | none =>
      rw [← Option.some.inj h]
      simp [Kernel.wakeWaiters, hwait]
  · exact (Option.some.inj h).symm

/-- A release for which nobody waits takes the latest entry off the list, and nothing else. -/
theorem release_spec {k k' : Kernel ι μ} (hk : Consistent k) {i : ι} {t : Task ι μ}
    {next : Option ι} {m : μ} (h : exec (k.setTask i t) i next (.rtMutexRelease m) = some k')
    (ht : t.held = (k.task i).held) (hm : m ∈ t.held) (hself : t.mode ≠ .onMutex m)
    (hother : ∀ j, j ≠ i → (k.task j).mode ≠ .onMutex m) :
    k'.task = Function.update k.task i { t with held := t.held.erase m } ∧ Consistent k' := by
  obtain ⟨htask, hcons⟩ := rtMutexRelease_setTask (hk.setTask ht) hm
  have hnobody : ∀ j, ((rtMutexRelease (k.setTask i t) i m).task j).mode ≠ .onMutex m := by
    rw [htask]
    apply (Function.forall_update_iff k.task fun _ x => x.mode ≠ .onMutex m).2
    exact ⟨hself, hother⟩
  obtain rfl := handOver_eq hnobody h
  exact ⟨htask, hcons⟩

theorem runTask_cases [Fintype ι] {k k' : Kernel ι μ} {i : ι} {next : Option ι}
    (h : runTask k i next = some k') :
    Running k i ∧ ∃ st rest, (k.task i).todo = st :: rest ∧
      exec (k.setTask i { k.task i with todo := rest }) i next st = some k' := by
  simp only [runTask] at h
  by_cases hr : Running k i
  · rw [if_pos hr] at h
    cases htodo : (k.task i).todo with
    | nil =>
      rw [htodo] at h
      simp at h
    | cons st rest =>
      rw [htodo] at h
      exact ⟨hr, st, rest, rfl, h⟩
  · rw [if_neg hr] at h
    simp at h

/-- A statement after which no waiting task is chosen can always be executed. -/
theorem exists_exec (k : Kernel ι μ) (i : ι) (st : Stmt ι μ) :
    ∃ k', exec k i none st = some k' := by
  cases st with
  | rtMutexAcquire m =>
    simp only [exec]
    cases rtMutexAcquire k i m with
    | some k' => exact ⟨k', rfl⟩
    | none => exact ⟨_, rfl⟩
  | rtMutexRelease m =>
    simp only [exec, handOver]
    split
    · exact ⟨_, rfl⟩
    · exact ⟨_, rfl⟩
  | _ => exact ⟨_, rfl⟩

omit [DecidableEq ι] in
/-- When some task is ready, one is running. -/
theorem exists_running [Fintype ι] {k : Kernel ι μ} {i : ι} (h : (k.task i).mode = .ready) :
    ∃ j, Running k j := by
  obtain ⟨j, hj, hmax⟩ := Finset.exists_max_image
    (Finset.univ.filter fun j => (k.task j).mode = .ready) (fun j => (k.task j).cprio)
    ⟨i, by simpa using h⟩
  simp only [Finset.mem_filter, Finset.mem_univ, true_and] at hj hmax
  exact ⟨j, hj, hmax⟩

/-- When some task is ready and every ready task has a statement left, one of them executes. -/
theorem exists_runTask [Fintype ι] {k : Kernel ι μ} {i : ι} (h : (k.task i).mode = .ready)
    (hne : ∀ j, (k.task j).mode = .ready → (k.task j).todo ≠ []) :
    ∃ j k', runTask k j none = some k' := by
  obtain ⟨j, hj⟩ := exists_running h
  obtain ⟨st, rest, htodo⟩ := List.exists_cons_of_ne_nil (hne j hj.1)
  obtain ⟨k', hk'⟩ := exists_exec (k.setTask j { k.task j with todo := rest }) j st
  refine ⟨j, k', ?_⟩
  simp only [runTask, if_pos hj, htodo]
  exact hk'

theorem wake_cases {k k' : Kernel ι μ} {i : ι} (h : wake k i = some k') :
    (k.task i).mode = .asleep ∧ k' = k.setTask i { k.task i with mode := .ready } := by
  simp only [wake, Option.ite_none_right_eq_some, Option.some.injEq] at h
  exact ⟨h.1, h.2.symm⟩

end Effects

end Sanntid.Icpp
