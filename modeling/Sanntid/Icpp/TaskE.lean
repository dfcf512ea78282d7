import Sanntid.Icpp.NonBlocking

/-!
# The two tasks of `ex8/taskE`

`task_high` locks B and then A, `task_low` locks A and then B, and an `icpp_unlock` of the inner
resource drops the task to its base priority while it still holds the outer one. `taskESystem` runs
the two programs statement by statement: the running task executes, the sleep of `task_high` may
end at any instant, and `rt_sem_broadcast` comes once both tasks wait at `sem_init`.

`never_deadlocks`: with both ceilings above all four priorities, at most one task is between the
raise of its first lock and the release of its second mutex (`exclusive`), so a task that waits for
its second mutex finds the other one past that window, free to run on and to release it.
-/

set_option autoImplicit false

namespace Sanntid.Icpp

open Sanntid.Transition

section TaskE

variable (creation base : TaskId → Int) (pri : MutexId → Int)

/-! ## The programs -/

/-- `US_TO_S`. -/
def usToS : Nat := 1000

/-- `res_A`. -/
def resA : Resource MutexId := ⟨.mutA, pri .mutA⟩

/-- `res_B`. -/
def resB : Resource MutexId := ⟨.mutB, pri .mutB⟩

/-- The statements of `task_high`. -/
def taskHigh : List (Stmt TaskId MutexId) := List.flatten [
  [.rtSemP,
    .rtPrintf "Task high started, going to sleep. \n",
    .rtTaskSleep (usToS * 1000),
    .rtPrintf "Task high trying to lock mut B\n"],
  icppLock (resB pri) (threadOf base .high),
  [.busyWaitUs (usToS * 1),
    .rtPrintf "Task high trying to lock mut A\n"],
  icppLock (resA pri) (threadOf base .high),
  [.rtPrintf "Task high locked mut A, start busy wait \n",
    .busyWaitUs (usToS * 2),
    .rtPrintf "Task high releasing mut A\n"],
  icppUnlock (resA pri) (threadOf base .high),
  [.rtPrintf "Task high releasing mut B\n"],
  icppUnlock (resB pri) (threadOf base .high),
  [.busyWaitUs (usToS * 1),
    .rtPrintf "task high finished\n",
    .rtTaskDelete]]

/-- The statements of `task_low`. -/
def taskLow : List (Stmt TaskId MutexId) := List.flatten [
  [.rtSemP,
    .rtMutexInquire .mutA,
    .rtPrintf "Task low trying to lock mut A, val: %lu \n"],
  icppLock (resA pri) (threadOf base .low),
  [.rtMutexInquire .mutA,
    .rtPrintf "Task low locked mut A, start busy wait, val: %lu \n",
    .busyWaitUs (usToS * 1),
    .rtPrintf "Task low bw 1\n",
    .busyWaitUs (usToS * 1),
    .rtPrintf "Task low bw 2\n",
    .busyWaitUs (usToS * 1),
    .rtPrintf "Task low trying to lock mut B, val: %lu \n"],
  icppLock (resB pri) (threadOf base .low),
  [.rtPrintf "Task low locked mut B, start busy wait\n",
    .busyWaitUs (usToS * 1),
    .rtPrintf "Task low bw 1\n",
    .busyWaitUs (usToS * 1),
    .rtPrintf "Task low bw 2\n",
    .busyWaitUs (usToS * 1),
    .rtPrintf "Task low releasing mut B\n"],
  icppUnlock (resB pri) (threadOf base .low),
  [.rtPrintf "Task low releasing mut A\n"],
  icppUnlock (resA pri) (threadOf base .low),
  [.busyWaitUs (usToS * 1),
    .rtPrintf "task low finished\n",
    .rtTaskDelete]]

/-- The statements of a task. -/
def program : TaskId → List (Stmt TaskId MutexId)
  | .high => taskHigh base pri
  | .low => taskLow base pri

/-- Both tasks started by `main`, before their `rt_sem_p`. -/
def mainStart : Kernel TaskId MutexId where
  task := fun i => ⟨creation i, .ready, [], program base pri i⟩
  mutex := fun _ => .free

/-- The end of a sleep, `main`'s broadcast, or a statement of a task. -/
inductive FileEvent where
  | wake (i : TaskId)
  | rtSemBroadcast
  | run (i : TaskId) (next : Option TaskId)

/-- `main` broadcasts after a sleep that outlasts the way of both tasks to `rt_sem_p`. -/
def rtSemBroadcast (k : Kernel TaskId MutexId) : Option (Kernel TaskId MutexId) :=
  if ∀ i, (k.task i).mode = .onSem then
    some { k with task := fun i => { k.task i with mode := .ready } }
  else none

/-- An event, where it can happen. -/
def fileNext (k : Kernel TaskId MutexId) : FileEvent → Option (Kernel TaskId MutexId)
  | .wake i => wake k i
  | .rtSemBroadcast => rtSemBroadcast k
  | .run i next => runTask k i next

/-- The two tasks from the point where `main` has started them. -/
def taskESystem : System (Kernel TaskId MutexId) FileEvent where
  init := fun k => k = mainStart creation base pri
  next := fileNext

/-- Each task waits for a mutex that the other one holds. -/
def Deadlocked (k : Kernel TaskId MutexId) : Prop :=
  ∃ m n, (k.task .high).mode = .onMutex m ∧ 0 < (k.mutex m).heldBy .low ∧
    (k.task .low).mode = .onMutex n ∧ 0 < (k.mutex n).heldBy .high

/-! ## Stages of a task -/

/-- The other of the two tasks. -/
def other : TaskId → TaskId
  | .high => .low
  | .low => .high

/-- The mutex a task locks first. -/
def firstOf : TaskId → MutexId
  | .high => .mutB
  | .low => .mutA

/-- The mutex a task locks inside its first critical section. -/
def secondOf : TaskId → MutexId
  | .high => .mutA
  | .low => .mutB

theorem other_ne (i : TaskId) : other i ≠ i := by cases i <;> decide

theorem eq_other {i j : TaskId} (h : j ≠ i) : j = other i := by
  cases i <;> cases j <;> first | rfl | exact absurd rfl h

/-- There are two tasks. -/
theorem forall_of_pair {P : TaskId → Prop} (i : TaskId) (hi : P i) (ho : P (other i)) :
    ∀ j, P j := by
  intro j
  by_cases hj : j = i
  · rwa [hj]
  · rwa [eq_other hj]

@[simp] theorem other_other (i : TaskId) : other (other i) = i := by cases i <;> rfl

@[simp] theorem firstOf_other (i : TaskId) : firstOf (other i) = secondOf i := by cases i <;> rfl

@[simp] theorem secondOf_other (i : TaskId) : secondOf (other i) = firstOf i := by cases i <;> rfl

theorem secondOf_ne_firstOf (i : TaskId) : secondOf i ≠ firstOf i := by cases i <;> decide

/-- What a task has done of its eight statements on priorities and mutexes. -/
inductive Stage where
  | outside
  | raisedFirst
  | hasFirst
  | raisedSecond
  | hasBoth
  | gaveSecond
  | restored
  | gaveFirst
  | done
  deriving DecidableEq

/-- From the raise to the first ceiling to the return from the second. -/
def Stage.inside : Stage → Bool
  | .raisedFirst | .hasFirst | .raisedSecond | .hasBoth | .gaveSecond => true
  | .outside | .restored | .gaveFirst | .done => false

/-- The priority that a task has at a stage. -/
def prioAt (i : TaskId) : Stage → Int
  | .outside => creation i
  | .raisedFirst | .hasFirst => pri (firstOf i)
  | .raisedSecond | .hasBoth | .gaveSecond => pri (secondOf i)
  | .restored | .gaveFirst | .done => base i

/-- The mutexes that a task has at a stage, latest first. -/
def heldAt (i : TaskId) : Stage → List MutexId
  | .hasFirst | .raisedSecond | .gaveSecond | .restored => [firstOf i]
  | .hasBoth => [secondOf i, firstOf i]
  | .outside | .raisedFirst | .gaveFirst | .done => []

/-- Statements that change neither priorities nor mutexes nor the mode of a task. -/
def Stmt.Neutral : Stmt TaskId MutexId → Prop
  | .busyWaitUs _ => True
  | .rtMutexInquire _ => True
  | .rtPrintf _ => True
  | _ => False

/-- The statements left at each stage. -/
inductive Remaining (i : TaskId) : Stage → List (Stmt TaskId MutexId) → Prop
  | neutral {stage : Stage} {st : Stmt TaskId MutexId} {rest : List (Stmt TaskId MutexId)} :
      st.Neutral → Remaining i stage rest → Remaining i stage (st :: rest)
  | sleep {delay : Nat} {rest : List (Stmt TaskId MutexId)} :
      Remaining i .outside rest → Remaining i .outside (.rtTaskSleep delay :: rest)
  | raiseFirst {rest : List (Stmt TaskId MutexId)} : Remaining i .raisedFirst rest →
      Remaining i .outside (.rtTaskSetPriority i (pri (firstOf i)) :: rest)
  | takeFirst {rest : List (Stmt TaskId MutexId)} : Remaining i .hasFirst rest →
      Remaining i .raisedFirst (.rtMutexAcquire (firstOf i) :: rest)
  | raiseSecond {rest : List (Stmt TaskId MutexId)} : Remaining i .raisedSecond rest →
      Remaining i .hasFirst (.rtTaskSetPriority i (pri (secondOf i)) :: rest)
  | takeSecond {rest : List (Stmt TaskId MutexId)} : Remaining i .hasBoth rest →
      Remaining i .raisedSecond (.rtMutexAcquire (secondOf i) :: rest)
  | giveSecond {rest : List (Stmt TaskId MutexId)} : Remaining i .gaveSecond rest →
      Remaining i .hasBoth (.rtMutexRelease (secondOf i) :: rest)
  | restore {rest : List (Stmt TaskId MutexId)} : Remaining i .restored rest →
      Remaining i .gaveSecond (.rtTaskSetPriority i (base i) :: rest)
  | giveFirst {rest : List (Stmt TaskId MutexId)} : Remaining i .gaveFirst rest →
      Remaining i .restored (.rtMutexRelease (firstOf i) :: rest)
  | restoreAgain {rest : List (Stmt TaskId MutexId)} : Remaining i .done rest →
      Remaining i .gaveFirst (.rtTaskSetPriority i (base i) :: rest)
  | delete : Remaining i .done [.rtTaskDelete]

/-- The mode of a task at each stage, with the statements left. Only the second mutex is ever
waited for. -/
inductive ModeAt (i : TaskId) : Stage → Mode MutexId → List (Stmt TaskId MutexId) → Prop
  | ready {stage : Stage} {todo : List (Stmt TaskId MutexId)} :
      Remaining base pri i stage todo → ModeAt i stage .ready todo
  | asleep {todo : List (Stmt TaskId MutexId)} :
      Remaining base pri i .outside todo → ModeAt i .outside .asleep todo
  | waiting {rest : List (Stmt TaskId MutexId)} : Remaining base pri i .hasBoth rest →
      ModeAt i .raisedSecond (.onMutex (secondOf i)) (.rtMutexAcquire (secondOf i) :: rest)
  | deleted : ModeAt i .done .deleted []

/-- A task at a stage. -/
structure TaskAt (i : TaskId) (stage : Stage) (t : Task TaskId MutexId) : Prop where
  cprio_eq : t.cprio = prioAt creation base pri i stage
  held_eq : t.held = heldAt i stage
  mode_at : ModeAt base pri i stage t.mode t.todo

/-! ## The invariant -/

/-- Before the broadcast. -/
structure Starting (k : Kernel TaskId MutexId) : Prop where
  cprio_eq : ∀ i, (k.task i).cprio = creation i
  held_eq : ∀ i, (k.task i).held = []
  before_sem : ∀ i, (k.task i).mode = .ready ∧ (k.task i).todo = program base pri i ∨
    (k.task i).mode = .onSem ∧ (k.task i).todo = (program base pri i).tail
  mutex_eq : ∀ m, k.mutex m = .free

/-- After the broadcast, with the stage of each task. -/
structure Working (stage : TaskId → Stage) (k : Kernel TaskId MutexId) : Prop where
  consistent : Consistent k
  task : ∀ i, TaskAt creation base pri i (stage i) (k.task i)
  exclusive : ∀ i, (stage i).inside = true → (stage (other i)).inside = false
  waiting : ∀ i m, (k.task i).mode = .onMutex m → stage (other i) = .restored

/-- What holds in every state that can be reached. -/
def FileInv (k : Kernel TaskId MutexId) : Prop :=
  Starting creation base pri k ∨ ∃ stage, Working creation base pri stage k

variable {creation base pri}

/-- Both programs lock, unlock and finish in the order of the stages. -/
theorem program_remaining (base : TaskId → Int) (pri : MutexId → Int) (i : TaskId) :
    ∃ rest, program base pri i = .rtSemP :: rest ∧ Remaining base pri i .outside rest := by
  cases i with
  | high =>
    refine ⟨_, rfl, ?_⟩
    refine .neutral trivial (.sleep (.neutral trivial (.raiseFirst (.takeFirst ?_))))
    refine .neutral trivial (.neutral trivial (.raiseSecond (.takeSecond ?_)))
    refine .neutral trivial (.neutral trivial (.neutral trivial (.giveSecond (.restore ?_))))
    refine .neutral trivial (.giveFirst (.restoreAgain ?_))
    exact .neutral trivial (.neutral trivial .delete)
  | low =>
    refine ⟨_, rfl, ?_⟩
    refine .neutral trivial (.neutral trivial (.raiseFirst (.takeFirst ?_)))
    refine .neutral trivial (.neutral trivial (.neutral trivial (.neutral trivial ?_)))
    refine .neutral trivial (.neutral trivial (.neutral trivial (.neutral trivial ?_)))
    refine .raiseSecond (.takeSecond ?_)
    refine .neutral trivial (.neutral trivial (.neutral trivial (.neutral trivial ?_)))
    refine .neutral trivial (.neutral trivial (.neutral trivial (.giveSecond (.restore ?_))))
    refine .neutral trivial (.giveFirst (.restoreAgain ?_))
    exact .neutral trivial (.neutral trivial .delete)

theorem exec_neutral {k : Kernel TaskId MutexId} {i : TaskId} {next : Option TaskId}
    {st : Stmt TaskId MutexId} (h : st.Neutral) : exec k i next st = some k := by
  cases st with
  | busyWaitUs _ => rfl
  | rtMutexInquire _ => rfl
  | rtPrintf _ => rfl
  | _ => exact h.elim

/-- The other task holds the first mutex of a task only when it holds both. -/
theorem firstOf_mem_heldAt {i : TaskId} {stage : Stage}
    (h : firstOf i ∈ heldAt (other i) stage) : stage = .hasBoth := by
  revert h
  cases i <;> cases stage <;> decide

/-- The other task holds the second mutex of a task inside its window, and once it is back at its
base priority. -/
theorem secondOf_mem_heldAt {i : TaskId} {stage : Stage}
    (h : secondOf i ∈ heldAt (other i) stage) : stage.inside = true ∨ stage = .restored := by
  revert h
  cases i <;> cases stage <;> decide

/-- Both ceilings are above all four priorities. -/
def CeilingsAboveAll (creation base : TaskId → Int) (pri : MutexId → Int) : Prop :=
  ∀ m i, creation i < pri m ∧ base i < pri m

instance (creation base : TaskId → Int) (pri : MutexId → Int) :
    Decidable (CeilingsAboveAll creation base pri) :=
  inferInstanceAs (Decidable (∀ m i, creation i < pri m ∧ base i < pri m))

theorem prioAt_inside (habove : CeilingsAboveAll creation base pri) {i : TaskId} {stage : Stage}
    (h : stage.inside = true) (j : TaskId) :
    creation j < prioAt creation base pri i stage ∧ base j < prioAt creation base pri i stage := by
  cases stage with
  | raisedFirst | hasFirst => exact habove (firstOf i) j
  | raisedSecond | hasBoth | gaveSecond => exact habove (secondOf i) j
  | _ => exact absurd h (by decide)

theorem prioAt_outside (creation base : TaskId → Int) (pri : MutexId → Int) (i : TaskId)
    {stage : Stage} (h : stage.inside = false) :
    prioAt creation base pri i stage = creation i ∨ prioAt creation base pri i stage = base i := by
  cases stage with
  | outside => exact Or.inl rfl
  | restored | gaveFirst | done => exact Or.inr rfl
  | _ => exact absurd h (by decide)

/-- A running task outside its window finds the other one outside, unless it is back at its base
priority with the mutex the other one may wait for. -/
theorem Working.other_outside (habove : CeilingsAboveAll creation base pri)
    {stage : TaskId → Stage} {k : Kernel TaskId MutexId} (h : Working creation base pri stage k)
    {i : TaskId} (hrun : Running k i) (hout : (stage i).inside = false)
    (hne : stage i ≠ .restored) : (stage (other i)).inside = false := by
  by_contra hin
  rw [Bool.not_eq_false] at hin
  -- inside its window the other one is ready at a ceiling, or waits for what `i` holds at base
  obtain ⟨hprio, -, hmode⟩ := h.task (other i)
  have hwait := h.waiting (other i)
  generalize hm : (k.task (other i)).mode = mode at hmode hwait
  generalize (k.task (other i)).todo = todo at hmode
  generalize stage (other i) = st at hmode hin hprio
  cases hmode with
  | ready _ =>
    have hle := hrun.2 (other i) hm
    have hlt := prioAt_inside habove hin (i := other i) i
    rw [(h.task i).cprio_eq, hprio] at hle
    rcases prioAt_outside creation base pri i hout with heq | heq <;> omega
  | asleep _ => exact absurd hin (by decide)
  | waiting _ => exact hne (by simpa using hwait _ rfl)
  | deleted => exact absurd hin (by decide)

/-- The invariant from what it says of the two tasks. -/
theorem Working.of_pair {k : Kernel TaskId MutexId} (i : TaskId) (si so : Stage)
    (hcons : Consistent k) (hi : TaskAt creation base pri i si (k.task i))
    (ho : TaskAt creation base pri (other i) so (k.task (other i)))
    (hexcl : si.inside = false ∨ so.inside = false)
    (hwi : ∀ m, (k.task i).mode = .onMutex m → so = .restored)
    (hwo : ∀ m, (k.task (other i)).mode = .onMutex m → si = .restored) :
    ∃ stage, Working creation base pri stage k := by
  have hoi := other_ne i
  refine ⟨fun j => if j = i then si else so, hcons, ?_, ?_, ?_⟩
  · refine forall_of_pair i ?_ ?_
    · simpa using hi
    · simpa [hoi] using ho
  · -- at most one of the two is inside
    refine forall_of_pair i ?_ ?_
    · intro hin
      simp only [if_true, hoi, if_false] at hin ⊢
      simpa [hin] using hexcl
    · intro hin
      simp only [if_true, hoi, if_false, other_other] at hin ⊢
      simpa [hin] using hexcl
  · refine forall_of_pair i ?_ ?_
    · intro m hm
      simpa [hoi] using hwi m hm
    · intro m hm
      simpa using hwo m hm

/-- One task moves on to a stage. -/
theorem Working.update {stage : TaskId → Stage} {k k' : Kernel TaskId MutexId}
    (h : Working creation base pri stage k) {i : TaskId} (st : Stage) {t : Task TaskId MutexId}
    (htask : k'.task = Function.update k.task i t) (hcons : Consistent k')
    (hat : TaskAt creation base pri i st t)
    (hin : st.inside = true → (stage (other i)).inside = false)
    (hwait : ∀ m, t.mode = .onMutex m → stage (other i) = .restored)
    (hother : ∀ m, (k.task (other i)).mode = .onMutex m → st = .restored) :
    ∃ stage', Working creation base pri stage' k' := by
  have hi : k'.task i = t := by rw [htask, Function.update_self]
  have ho : k'.task (other i) = k.task (other i) := by
    rw [htask, Function.update_of_ne (other_ne i)]
  apply Working.of_pair i st (stage (other i)) hcons
  · rwa [hi]
  · rw [ho]
    exact h.task (other i)
  · by_cases hst : st.inside = true
    · exact Or.inr (hin hst)
    · exact Or.inl (by simpa using hst)
  · rwa [hi]
  · rwa [ho]

/-! ## Steps -/

theorem Working.not_waiting {stage : TaskId → Stage} {k : Kernel TaskId MutexId}
    (h : Working creation base pri stage k) {i : TaskId} (hne : stage i ≠ .restored) (m : MutexId) :
    (k.task (other i)).mode ≠ .onMutex m := by
  intro hm
  exact hne (by simpa using h.waiting (other i) m hm)

/-- What a task that waits looks like. -/
theorem TaskAt.of_waiting {i : TaskId} {stage : Stage} {t : Task TaskId MutexId} {m : MutexId}
    (h : TaskAt creation base pri i stage t) (hm : t.mode = .onMutex m) :
    stage = .raisedSecond ∧ m = secondOf i ∧ ∃ rest, t.todo = .rtMutexAcquire m :: rest ∧
      Remaining base pri i .hasBoth rest := by
  obtain ⟨-, -, hmode⟩ := h
  rw [hm] at hmode
  generalize t.todo = todo at hmode
  cases hmode with
  | waiting hrest => exact ⟨rfl, rfl, _, rfl, hrest⟩

/-- A released first mutex goes to the other task, which waits for it, or the other task retries. -/
theorem handOver_working {k k' : Kernel TaskId MutexId} (hcons : Consistent k) {i : TaskId}
    {so : Stage} {next : Option TaskId} (hi : TaskAt creation base pri i .gaveFirst (k.task i))
    (hready : (k.task i).mode = .ready)
    (ho : TaskAt creation base pri (other i) so (k.task (other i)))
    (hm : (k.task (other i)).mode = .onMutex (firstOf i))
    (hstep : handOver k (firstOf i) next = some k') :
    ∃ stage, Working creation base pri stage k' := by
  have hoi := other_ne i
  obtain ⟨rfl, -, rest, htodo, hrest⟩ := ho.of_waiting hm
  have htake : Remaining base pri (other i) .raisedSecond (k.task (other i)).todo := by
    rw [htodo, ← secondOf_other]
    exact .takeSecond hrest
  have hfree : k.mutex (firstOf i) = .free := by
    rw [Mutex.eq_free_iff]
    refine forall_of_pair i ?_ ?_
    · rw [← hcons i, List.count_eq_zero]
      simp [hi.held_eq, heldAt]
    · rw [← hcons (other i), List.count_eq_zero]
      simpa [ho.held_eq, heldAt] using (secondOf_ne_firstOf i).symm
  simp only [handOver, if_pos hfree] at hstep
  cases next with
  | none =>
    -- the other task is ready again, before the same acquire
    obtain rfl := Option.some.inj hstep
    have hti : (k.wakeWaiters (firstOf i)).task i = k.task i := by
      simp [Kernel.wakeWaiters, hready]
    have hto : (k.wakeWaiters (firstOf i)).task (other i) =
        { k.task (other i) with mode := .ready } := by
      simp [Kernel.wakeWaiters, hm]
    refine Working.of_pair i .gaveFirst .raisedSecond
      (hcons.of_held_eq rfl ?_) ?_ ?_ (Or.inl rfl) ?_ ?_
    · intro j
      simp only [Kernel.wakeWaiters]
      split
      · rfl
      · rfl
    · rwa [hti]
    · rw [hto]
      exact ⟨ho.cprio_eq, ho.held_eq, .ready htake⟩
    · simp [hti, hready]
    · simp [hto]
  | some j =>
    -- only the other task waits, and its acquire returns
    simp only [Kernel.grant, Option.ite_none_right_eq_some] at hstep
    obtain ⟨hj, hacq⟩ := hstep
    have hji : j ≠ i := by
      rintro rfl
      rw [hready] at hj
      exact absurd hj (by simp)
    obtain rfl := eq_other hji
    have htask := rtMutexAcquire_setTask hacq
    have hti : k'.task i = k.task i := by
      rw [htask, Function.update_of_ne hoi.symm]
    refine Working.of_pair i .gaveFirst .hasBoth
      ((rtMutexAcquire_eq_some hacq).2 (hcons.setTask rfl)) ?_ ?_ (Or.inl rfl) ?_ ?_
    · rwa [hti]
    · rw [htask, Function.update_self]
      refine ⟨ho.cprio_eq, ?_, ?_⟩
      · show firstOf i :: (k.task (other i)).held = _
        rw [ho.held_eq, ← secondOf_other]
        rfl
      · show ModeAt base pri (other i) .hasBoth .ready (k.task (other i)).todo.tail
        rw [htodo]
        exact .ready hrest
    · simp [hti, hready]
    · simp [htask]

/-- A ready task that does not hold back the other one moves on to a stage. -/
theorem Working.advance {stage : TaskId → Stage} {k k' : Kernel TaskId MutexId}
    (h : Working creation base pri stage k) {i : TaskId} (hne : stage i ≠ .restored) {st : Stage}
    {t : Task TaskId MutexId} (htask : k'.task = Function.update k.task i t)
    (hcons : Consistent k') (hready : t.mode = .ready) (hrest : Remaining base pri i st t.todo)
    (hprio : t.cprio = prioAt creation base pri i st) (hheld : t.held = heldAt i st)
    (hin : st.inside = true → (stage (other i)).inside = false) :
    ∃ stage', Working creation base pri stage' k' := by
  refine h.update st htask hcons ⟨hprio, hheld, hready ▸ .ready hrest⟩ hin ?_ ?_
  · simp [hready]
  · intro m hm
    exact absurd hm (h.not_waiting hne m)

/-- The first mutex of a task that has raised its priority is not held by the other one. -/
theorem takeFirst_working {stage : TaskId → Stage} {k k' : Kernel TaskId MutexId}
    (h : Working creation base pri stage k) {i : TaskId} {next : Option TaskId}
    {rest : List (Stmt TaskId MutexId)} (hready : (k.task i).mode = .ready)
    (hst : stage i = .raisedFirst) (hrest : Remaining base pri i .hasFirst rest)
    (hexec : exec (k.setTask i { k.task i with todo := rest }) i next
      (.rtMutexAcquire (firstOf i)) = some k') :
    ∃ stage', Working creation base pri stage' k' := by
  have hout : (stage (other i)).inside = false := h.exclusive i (by rw [hst]; rfl)
  rcases acquire_cases h.consistent hexec rfl with ⟨htask, hcons⟩ | ⟨j, hj, hmem, -⟩
  · refine h.advance (by simp [hst]) htask hcons hready hrest ?_ ?_ fun _ => hout
    · exact (h.task i).cprio_eq.trans (by rw [hst]; rfl)
    · show firstOf i :: (k.task i).held = _
      rw [(h.task i).held_eq, hst]
      rfl
  · obtain rfl := eq_other hj
    rw [(h.task (other i)).held_eq] at hmem
    rw [firstOf_mem_heldAt hmem] at hout
    exact absurd hout (by decide)

/-- The second mutex is free, or the other task holds it at its base priority. -/
theorem takeSecond_working {stage : TaskId → Stage} {k k' : Kernel TaskId MutexId}
    (h : Working creation base pri stage k) {i : TaskId} {next : Option TaskId}
    {rest : List (Stmt TaskId MutexId)} (hready : (k.task i).mode = .ready)
    (hst : stage i = .raisedSecond) (hrest : Remaining base pri i .hasBoth rest)
    (hexec : exec (k.setTask i { k.task i with todo := rest }) i next
      (.rtMutexAcquire (secondOf i)) = some k') :
    ∃ stage', Working creation base pri stage' k' := by
  have hout : (stage (other i)).inside = false := h.exclusive i (by rw [hst]; rfl)
  rcases acquire_cases h.consistent hexec rfl with ⟨htask, hcons⟩ | ⟨j, hj, hmem, rfl⟩
  · -- the mutex is free
    refine h.advance (by simp [hst]) htask hcons hready hrest ?_ ?_ fun _ => hout
    · exact (h.task i).cprio_eq.trans (by rw [hst]; rfl)
    · show secondOf i :: (k.task i).held = _
      rw [(h.task i).held_eq, hst]
      rfl
  · obtain rfl := eq_other hj
    rw [(h.task (other i)).held_eq] at hmem
    -- the other task is outside, so it can hold the mutex at its base priority only
    have hrestored : stage (other i) = .restored := by
      apply (secondOf_mem_heldAt hmem).resolve_left
      rw [hout]
      decide
    refine h.update .raisedSecond rfl (h.consistent.setTask rfl)
      ⟨(h.task i).cprio_eq.trans (by rw [hst]), (h.task i).held_eq.trans (by rw [hst]),
        .waiting hrest⟩ (fun _ => hout) (fun _ _ => hrestored) ?_
    intro m hm
    exact absurd hm (h.not_waiting (by simp [hst]) m)

/-- Nobody waits for the second mutex. -/
theorem giveSecond_working {stage : TaskId → Stage} {k k' : Kernel TaskId MutexId}
    (h : Working creation base pri stage k) {i : TaskId} {next : Option TaskId}
    {rest : List (Stmt TaskId MutexId)} (hready : (k.task i).mode = .ready)
    (hst : stage i = .hasBoth) (hrest : Remaining base pri i .gaveSecond rest)
    (hexec : exec (k.setTask i { k.task i with todo := rest }) i next
      (.rtMutexRelease (secondOf i)) = some k') :
    ∃ stage', Working creation base pri stage' k' := by
  have hheld : (k.task i).held = [secondOf i, firstOf i] := by
    rw [(h.task i).held_eq, hst]
    rfl
  have hmem : secondOf i ∈ (k.task i).held := by simp [hheld]
  -- a task waits only for one that has its base priority back
  have hnobody : ∀ j, j ≠ i → (k.task j).mode ≠ .onMutex (secondOf i) := by
    intro j hj
    obtain rfl := eq_other hj
    exact h.not_waiting (by simp [hst]) _
  obtain ⟨htask, hcons⟩ :=
    release_spec h.consistent hexec rfl hmem (by simp [hready]) hnobody
  refine h.advance (by simp [hst]) htask hcons hready hrest ?_ ?_
    fun _ => h.exclusive i (by rw [hst]; rfl)
  · exact (h.task i).cprio_eq.trans (by rw [hst]; rfl)
  · show (k.task i).held.erase (secondOf i) = _
    rw [hheld, List.erase_cons_head]
    rfl

/-- The first mutex goes to the other task if that waits for it. -/
theorem giveFirst_working {stage : TaskId → Stage} {k k' : Kernel TaskId MutexId}
    (h : Working creation base pri stage k) {i : TaskId} {next : Option TaskId}
    {rest : List (Stmt TaskId MutexId)} (hready : (k.task i).mode = .ready)
    (hst : stage i = .restored) (hrest : Remaining base pri i .gaveFirst rest)
    (hexec : exec (k.setTask i { k.task i with todo := rest }) i next
      (.rtMutexRelease (firstOf i)) = some k') :
    ∃ stage', Working creation base pri stage' k' := by
  have hcons : Consistent (k.setTask i { k.task i with todo := rest }) := h.consistent.setTask rfl
  have hheld : (k.task i).held = [firstOf i] := by
    rw [(h.task i).held_eq, hst]
    rfl
  have hmem : firstOf i ∈ (k.task i).held := by simp [hheld]
  obtain ⟨htask, hcons₁⟩ := rtMutexRelease_setTask hcons hmem
  simp only [exec] at hexec
  generalize rtMutexRelease (k.setTask i { k.task i with todo := rest }) i (firstOf i) = k₁
    at htask hcons₁ hexec
  -- what the release itself does, before the mutex is handed over
  have hi : TaskAt creation base pri i .gaveFirst (k₁.task i) := by
    rw [htask, Function.update_self]
    refine ⟨(h.task i).cprio_eq.trans (by rw [hst]; rfl), ?_, hready ▸ .ready hrest⟩
    show (k.task i).held.erase (firstOf i) = _
    rw [hheld, List.erase_cons_head]
    rfl
  have hti : (k₁.task i).mode = .ready := by
    rw [htask, Function.update_self]
    exact hready
  have hto : k₁.task (other i) = k.task (other i) := by
    rw [htask, Function.update_of_ne (other_ne i)]
  by_cases hwait : ∃ m, (k.task (other i)).mode = .onMutex m
  · -- the other task waits, and for this mutex
    obtain ⟨m, hm⟩ := hwait
    obtain ⟨-, rfl, -⟩ := (h.task (other i)).of_waiting hm
    rw [secondOf_other] at hm
    exact handOver_working hcons₁ hi hti (hto ▸ h.task (other i)) (hto ▸ hm) hexec
  · have hnobody : ∀ j, (k₁.task j).mode ≠ .onMutex (firstOf i) := by
      refine forall_of_pair i ?_ ?_
      · simp [hti]
      · exact fun hm => hwait ⟨_, hto ▸ hm⟩
    obtain rfl := handOver_eq hnobody hexec
    apply Working.of_pair i .gaveFirst _ hcons₁ hi (hto ▸ h.task (other i)) (Or.inl rfl)
    · simp [hti]
    · intro m hm
      exact absurd ⟨m, hto ▸ hm⟩ hwait

/-- A change of priority is a move to the next stage that keeps the mutexes. -/
theorem setPriority_working {stage : TaskId → Stage} {k k' : Kernel TaskId MutexId}
    (h : Working creation base pri stage k) {i : TaskId} {next : Option TaskId} {st : Stage}
    {rest : List (Stmt TaskId MutexId)} (hready : (k.task i).mode = .ready)
    (hne : stage i ≠ .restored) (hrest : Remaining base pri i st rest)
    (hheld : (k.task i).held = heldAt i st)
    (hin : st.inside = true → (stage (other i)).inside = false)
    (hexec : exec (k.setTask i { k.task i with todo := rest }) i next
      (.rtTaskSetPriority i (prioAt creation base pri i st)) = some k') :
    ∃ stage', Working creation base pri stage' k' := by
  simp only [exec, rtTaskSetPriority, setTask_self, setTask_setTask, Option.some.injEq] at hexec
  subst hexec
  exact h.advance hne rfl (h.consistent.setTask rfl) hready hrest rfl hheld hin

/-- Every statement keeps the invariant. -/
theorem run_working (habove : CeilingsAboveAll creation base pri) {stage : TaskId → Stage}
    {k k' : Kernel TaskId MutexId} (h : Working creation base pri stage k) {i : TaskId}
    {next : Option TaskId} (hstep : runTask k i next = some k') :
    ∃ stage', Working creation base pri stage' k' := by
  obtain ⟨hrun, st, rest, htodo, hexec⟩ := runTask_cases hstep
  obtain ⟨hprio, hheld, hmode⟩ := h.task i
  have hready := hrun.1
  have houtside := h.other_outside habove hrun
  have hexcl := h.exclusive i
  rw [hready, htodo] at hmode
  generalize hst : stage i = s at hprio hheld hmode houtside hexcl
  cases hmode with
  | ready hrem =>
  cases hrem with
  | neutral hn hrest =>
    -- the stage stays, and with it whatever the other task waits for
    obtain rfl := Option.some.inj ((exec_neutral hn).symm.trans hexec)
    refine h.update s rfl (h.consistent.setTask rfl) ⟨hprio, hheld, hready ▸ .ready hrest⟩ hexcl
      ?_ ?_
    · simp [hready]
    · intro m hm
      rw [← hst]
      simpa using h.waiting (other i) m hm
  | sleep hrest =>
    simp only [exec, setTask_self, setTask_setTask, Option.some.injEq] at hexec
    subst hexec
    refine h.update .outside rfl (h.consistent.setTask rfl) ⟨hprio, hheld, .asleep hrest⟩
      (by simp [Stage.inside]) (by simp) ?_
    intro m hm
    exact absurd hm (h.not_waiting (by simp [hst]) m)
  | raiseFirst hrest =>
    -- the only way into the window: the other task is outside
    exact setPriority_working h hready (by simp [hst]) hrest hheld
      (fun _ => houtside rfl (by simp)) hexec
  | takeFirst hrest => exact takeFirst_working h hready hst hrest hexec
  | raiseSecond hrest =>
    exact setPriority_working h hready (by simp [hst]) hrest hheld (fun _ => hexcl rfl) hexec
  | takeSecond hrest => exact takeSecond_working h hready hst hrest hexec
  | giveSecond hrest => exact giveSecond_working h hready hst hrest hexec
  | restore hrest =>
    exact setPriority_working h hready (by simp [hst]) hrest hheld
      (fun hin => absurd hin (by decide)) hexec
  | giveFirst hrest => exact giveFirst_working h hready hst hrest hexec
  | restoreAgain hrest =>
    exact setPriority_working h hready (by simp [hst]) hrest hheld
      (fun hin => absurd hin (by decide)) hexec
  | delete =>
    simp only [exec, setTask_self, setTask_setTask, Option.some.injEq] at hexec
    subst hexec
    refine h.update .done rfl (h.consistent.setTask rfl) ⟨hprio, hheld, .deleted⟩
      (by simp [Stage.inside]) (by simp) ?_
    intro m hm
    exact absurd hm (h.not_waiting (by simp [hst]) m)

theorem wake_working {stage : TaskId → Stage} {k k' : Kernel TaskId MutexId}
    (h : Working creation base pri stage k) {i : TaskId} (hstep : wake k i = some k') :
    ∃ stage', Working creation base pri stage' k' := by
  obtain ⟨hasleep, rfl⟩ := wake_cases hstep
  obtain ⟨hprio, hheld, hmode⟩ := h.task i
  rw [hasleep] at hmode
  generalize hst : stage i = s at hprio hheld hmode
  generalize htodo : (k.task i).todo = todo at hmode
  cases hmode with
  | asleep hrest =>
    exact h.advance (by simp [hst]) rfl (h.consistent.setTask rfl) rfl (htodo ▸ hrest) hprio hheld
      fun hin => absurd hin (by decide)

/-- A task at work does not wait at `sem_init`. -/
theorem TaskAt.mode_ne_onSem {i : TaskId} {stage : Stage} {t : Task TaskId MutexId}
    (h : TaskAt creation base pri i stage t) : t.mode ≠ .onSem := by
  obtain ⟨-, -, hmode⟩ := h
  intro hsem
  rw [hsem] at hmode
  cases hmode

/-- A task ends with `rt_task_delete`, so while it is ready it has a statement left. -/
theorem TaskAt.todo_ne_nil {i : TaskId} {stage : Stage} {t : Task TaskId MutexId}
    (h : TaskAt creation base pri i stage t) (hready : t.mode = .ready) : t.todo ≠ [] := by
  obtain ⟨-, -, hmode⟩ := h
  intro hnil
  rw [hready, hnil] at hmode
  cases hmode with
  | ready hrem => cases hrem

/-- Before the broadcast every step of a task is its `rt_sem_p`. -/
theorem run_starting {k k' : Kernel TaskId MutexId} (h : Starting creation base pri k) {i : TaskId}
    {next : Option TaskId} (hstep : runTask k i next = some k') :
    Starting creation base pri k' := by
  obtain ⟨hrun, st, rest, htodo, hexec⟩ := runTask_cases hstep
  obtain ⟨rest', hprogram, -⟩ := program_remaining base pri i
  -- a task that runs has not got to its `rt_sem_p`, the first statement
  have hall : (k.task i).todo = program base pri i := by
    rcases h.before_sem i with ⟨-, hall⟩ | ⟨hsem, -⟩
    · exact hall
    · rw [hrun.1] at hsem
      exact absurd hsem (by simp)
  rw [htodo, hprogram] at hall
  obtain ⟨rfl, rfl⟩ := List.cons.inj hall
  simp only [exec, setTask_self, setTask_setTask, Option.some.injEq] at hexec
  subst hexec
  refine ⟨?_, ?_, ?_, h.mutex_eq⟩
  · intro j
    by_cases hj : j = i
    · subst hj
      simpa using h.cprio_eq j
    · rw [setTask_of_ne k _ hj]
      exact h.cprio_eq j
  · intro j
    by_cases hj : j = i
    · subst hj
      simpa using h.held_eq j
    · rw [setTask_of_ne k _ hj]
      exact h.held_eq j
  · intro j
    by_cases hj : j = i
    · subst hj
      simp [hprogram]
    · rw [setTask_of_ne k _ hj]
      exact h.before_sem j

theorem broadcast_working {k k' : Kernel TaskId MutexId} (h : Starting creation base pri k)
    (hstep : rtSemBroadcast k = some k') : Working creation base pri (fun _ => .outside) k' := by
  simp only [rtSemBroadcast, Option.ite_none_right_eq_some, Option.some.injEq] at hstep
  obtain ⟨hsem, rfl⟩ := hstep
  refine ⟨?_, ?_, ?_, ?_⟩
  · intro i m
    simp [h.held_eq i, h.mutex_eq m]
  · intro i
    refine ⟨h.cprio_eq i, h.held_eq i, .ready ?_⟩
    obtain ⟨rest, hprogram, hrest⟩ := program_remaining base pri i
    rcases h.before_sem i with ⟨hready, -⟩ | ⟨-, htodo⟩
    · rw [hsem i] at hready
      exact absurd hready (by simp)
    · show Remaining base pri i .outside (k.task i).todo
      rw [htodo, hprogram]
      exact hrest
  · simp [Stage.inside]
  · simp

theorem next_inv (habove : CeilingsAboveAll creation base pri) {k k' : Kernel TaskId MutexId}
    (h : FileInv creation base pri k) {ev : FileEvent} (hstep : fileNext k ev = some k') :
    FileInv creation base pri k' := by
  rcases h with h | ⟨stage, h⟩
  · -- before the broadcast nobody sleeps
    cases ev with
    | wake i =>
      obtain ⟨hasleep, -⟩ := wake_cases hstep
      rcases h.before_sem i with ⟨hmode, -⟩ | ⟨hmode, -⟩ <;> simp [hasleep] at hmode
    | rtSemBroadcast => exact Or.inr ⟨_, broadcast_working h hstep⟩
    | run i next => exact Or.inl (run_starting h hstep)
  · cases ev with
    | wake i => exact Or.inr (wake_working h hstep)
    | rtSemBroadcast =>
      simp only [fileNext, rtSemBroadcast, Option.ite_none_right_eq_some] at hstep
      exact absurd (hstep.1 .high) (h.task .high).mode_ne_onSem
    | run i next => exact Or.inr (run_working habove h hstep)

theorem reachable_inv (habove : CeilingsAboveAll creation base pri) {k : Kernel TaskId MutexId}
    (h : (taskESystem creation base pri).Reachable k) : FileInv creation base pri k := by
  refine System.Reachable.invariant (I := FileInv creation base pri) ?_ ?_ h
  · rintro s rfl
    exact Or.inl ⟨fun _ => rfl, fun _ => rfl, fun _ => Or.inl ⟨rfl, rfl⟩, fun _ => rfl⟩
  · intro s ev t _ hs hstep
    exact next_inv habove hs hstep

/-! ## No deadlock -/

theorem Working.not_deadlocked {stage : TaskId → Stage} {k : Kernel TaskId MutexId}
    (h : Working creation base pri stage k) : ¬ Deadlocked k := by
  rintro ⟨m, n, hhigh, -, hlow, -⟩
  have hstage := h.waiting .high m hhigh
  rw [show other TaskId.high = .low from rfl, ((h.task .low).of_waiting hlow).1] at hstage
  exact absurd hstage (by decide)

theorem Starting.not_terminal {k : Kernel TaskId MutexId} (h : Starting creation base pri k) :
    ¬ (taskESystem creation base pri).Terminal k := by
  rw [System.not_terminal_iff]
  -- either the broadcast is due, or a task has not got to its `rt_sem_p`
  by_cases hsem : ∀ i, (k.task i).mode = .onSem
  · exact ⟨.rtSemBroadcast, _, if_pos hsem⟩
  · obtain ⟨i, hi⟩ := not_forall.1 hsem
    have hready := ((h.before_sem i).resolve_right fun hs => hi hs.1).1
    obtain ⟨j, k', hk'⟩ := exists_runTask hready fun j hj => by
      obtain ⟨rest, hprogram, -⟩ := program_remaining base pri j
      rcases h.before_sem j with ⟨-, htodo⟩ | ⟨hmode, -⟩
      · rw [htodo, hprogram]
        simp
      · rw [hj] at hmode
        exact absurd hmode (by simp)
    exact ⟨.run j none, k', hk'⟩

/-- A task at work is not stuck unless it waits for a mutex or is deleted. -/
theorem Working.terminal_cases {stage : TaskId → Stage} {k : Kernel TaskId MutexId}
    (h : Working creation base pri stage k)
    (hterm : (taskESystem creation base pri).Terminal k) (i : TaskId) :
    (∃ m, (k.task i).mode = .onMutex m) ∨ (k.task i).mode = .deleted ∧ stage i = .done := by
  have hmode := (h.task i).mode_at
  generalize hm : (k.task i).mode = mode at hmode
  generalize (k.task i).todo = todo at hmode
  generalize stage i = st at hmode
  cases hmode with
  | ready _ =>
    obtain ⟨j, k', hk'⟩ := exists_runTask hm fun j hj => (h.task j).todo_ne_nil hj
    exact absurd hk' (by rw [show runTask k j none = none from hterm (.run j none)]; simp)
  | asleep _ =>
    have hnone : wake k i = none := hterm (.wake i)
    simp [wake, hm] at hnone
  | waiting _ => exact Or.inl ⟨_, rfl⟩
  | deleted => exact Or.inr ⟨rfl, rfl⟩

theorem Working.terminal_spec {stage : TaskId → Stage} {k : Kernel TaskId MutexId}
    (h : Working creation base pri stage k)
    (hterm : (taskESystem creation base pri).Terminal k) :
    (∀ i, (k.task i).mode = .deleted) ∧ ∀ m, k.mutex m = .free := by
  -- the task that a waiting one depends on is neither waiting nor deleted
  have hdeleted : ∀ i, (k.task i).mode = .deleted ∧ stage i = .done := by
    intro i
    apply (h.terminal_cases hterm i).resolve_left
    rintro ⟨m, hm⟩
    have hrestored := h.waiting i m hm
    rcases h.terminal_cases hterm (other i) with ⟨n, hn⟩ | ⟨-, hdone⟩
    · rw [((h.task (other i)).of_waiting hn).1] at hrestored
      exact absurd hrestored (by decide)
    · rw [hdone] at hrestored
      exact absurd hrestored (by decide)
  refine ⟨fun i => (hdeleted i).1, fun m => ?_⟩
  -- a finished task holds nothing
  rw [Mutex.eq_free_iff]
  intro i
  rw [← h.consistent i m, (h.task i).held_eq, (hdeleted i).2]
  rfl

/-- With both ceilings above all four priorities the two tasks never wait for each other, and
every run that cannot be extended ends with both deleted and both mutexes free. -/
theorem never_deadlocks (creation base : TaskId → Int) (pri : MutexId → Int)
    (habove : CeilingsAboveAll creation base pri) :
    (∀ k, (taskESystem creation base pri).Reachable k → ¬ Deadlocked k) ∧
      ∀ tr k, (taskESystem creation base pri).Complete tr k →
        (∀ i, (k.task i).mode = .deleted) ∧ ∀ m, k.mutex m = .free := by
  constructor
  · intro k hk
    rcases reachable_inv habove hk with h | ⟨stage, h⟩
    · rintro ⟨m, -, hm, -⟩
      rcases h.before_sem .high with ⟨hmode, -⟩ | ⟨hmode, -⟩ <;> simp [hm] at hmode
    · exact h.not_deadlocked
  · rintro tr k ⟨hexec, hterm⟩
    rcases reachable_inv habove hexec.reachable with h | ⟨stage, h⟩
    · exact absurd hterm h.not_terminal
    · exact h.terminal_spec hterm

/-- A state in which every task is deleted is the end of the run. -/
theorem terminal_of_deleted {k : Kernel TaskId MutexId} (h : ∀ i, (k.task i).mode = .deleted) :
    (taskESystem creation base pri).Terminal k := by
  intro ev
  cases ev with
  | wake i =>
    show wake k i = none
    simp [wake, h i]
  | rtSemBroadcast =>
    have hsem : ¬ ∀ i, (k.task i).mode = .onSem := fun hsem => by
      have hhigh := hsem .high
      simp [h .high] at hhigh
    exact if_neg hsem
  | run i next =>
    have hrun : ¬ Running k i := fun hrun => by
      have hready := hrun.1
      simp [h i] at hready
    exact if_neg hrun

/-- `task_high` sleeps while `task_low` goes through both critical sections, wakes inside the inner
one, and finds A locked: the run that the repository records. -/
def recordedRun : List FileEvent := List.flatten [
  [.run .high none, .run .low none, .rtSemBroadcast, .run .high none, .run .high none],
  List.replicate 14 (.run .low none),
  [.wake .high],
  List.replicate 9 (.run .low none),
  List.replicate 7 (.run .high none),
  [.run .low none, .run .low (some .high)],
  List.replicate 11 (.run .high none),
  List.replicate 4 (.run .low none)]

/-- With the priorities of the file the recorded run, in which `task_high` waits for A while it
holds B, goes on to its end: both tasks deleted and both mutexes free. -/
theorem file_never_deadlocks :
    ∃ tr k, (taskESystem fileCreation fileBase filePri).Complete tr k ∧
      (∃ p ∈ tr, (p.1.task .high).mode = .onMutex .mutA ∧ (p.1.task .high).held = [.mutB]) ∧
      (∀ i, (k.task i).mode = .deleted) ∧ ∀ m, k.mutex m = .free := by
  obtain ⟨tr, k, hrun, hwaits, hdeleted⟩ :=
    (taskESystem fileCreation fileBase filePri).exists_run_of_replay
      (mainStart fileCreation fileBase filePri) recordedRun
      (fun tr k =>
        (∃ p ∈ tr, (p.1.task .high).mode = .onMutex .mutA ∧ (p.1.task .high).held = [.mutB]) ∧
          ∀ i, (k.task i).mode = .deleted)
      (by decide +kernel)
  have hcomplete : (taskESystem fileCreation fileBase filePri).Complete tr k :=
    ⟨⟨_, rfl, hrun⟩, terminal_of_deleted hdeleted⟩
  exact ⟨tr, k, hcomplete, hwaits,
    (never_deadlocks fileCreation fileBase filePri (by decide)).2 tr k hcomplete⟩

end TaskE

end Sanntid.Icpp
