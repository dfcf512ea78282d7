import Sanntid.FreeRTOS.Ticks
import Sanntid.Transition.System

/-!
# Tasks under the FreeRTOS scheduler

A `State` is the kernel and how far each task is in a call to it. The tick interrupt may come
between any two steps; otherwise the task that has the processor calls `vTaskDelay`, allocates
memory or yields, whenever it likes. `Consistent` holds in every state that can be reached, from the
creation of the tasks on.

The main results are about every run: no function of the kernel fails (`kernel_never_fails`), a
ready task of the highest priority has the processor (`highest_priority_runs`), a task sleeps for
exactly the ticks that it asked for (`vTaskDelay_exact`), and tasks of the same priority take turns
(`turn_between`).
-/

set_option autoImplicit false

namespace Sanntid.FreeRTOS

open Transition

/-- How far a task is in a kernel function that it calls. -/
inductive Pc where
  /-- in its own code -/
  | running
  /-- in `vTaskDelay`, with the scheduler suspended -/
  | delaying (xTicksToDelay : PortTickType)
  /-- in `vTaskDelay`, on a delay list, with the scheduler still suspended -/
  | blocked
  /-- between `__malloc_lock` and `__malloc_unlock` -/
  | locked
  /-- before `portYIELD_WITHIN_API` -/
  | yielding
  deriving DecidableEq

/-- The scheduler is suspended at this point. -/
def Pc.suspends : Pc → Bool
  | .delaying _ | .blocked | .locked => true
  | .running | .yielding => false

theorem Pc.ne_of_suspends {pc : Pc} (h : pc.suspends = false) :
    pc ≠ .blocked ∧ ∀ d, pc ≠ .delaying d := by
  cases pc <;> simp_all [suspends]

/-- The kernel, and how far every task is in it. -/
structure State (τ : Type) where
  kernel : Kernel τ
  pc : τ → Pc

/-- What happens next: the tick interrupt, or the current task calls a function of the kernel or
goes on in the one that it is in. -/
inductive Event where
  | vTick
  | taskYIELD
  | vTaskDelay (xTicksToDelay : PortTickType)
  | malloc_lock
  | proceed
  deriving DecidableEq

namespace State

variable {τ : Type}

/-- The task whose code runs. -/
def current (s : State τ) : τ := s.kernel.pxCurrentTCB

variable [DecidableEq τ] (uxPriority : τ → Priority) (idle : τ)

/-- The task that was running is now at `pc`, in kernel `k`. -/
def goto (s : State τ) (pc : Pc) (k : Kernel τ) : State τ :=
  ⟨k, Function.update s.pc s.current pc⟩

/-- An event, where it can happen. The idle task does not call `vTaskDelay`. -/
def next (s : State τ) : Event → Option (State τ)
  | .vTick => (s.kernel.vTick uxPriority).map fun k => { s with kernel := k }
  | .taskYIELD =>
    if s.pc s.current = .running then
      s.kernel.vTaskSwitchContext.map fun k => { s with kernel := k }
    else none
  | .vTaskDelay xTicksToDelay =>
    if s.pc s.current = .running ∧ s.current ≠ idle then
      if 0 < xTicksToDelay then some (s.goto (.delaying xTicksToDelay) s.kernel.vTaskSuspendAll)
      else some (s.goto .yielding s.kernel)
    else none
  | .malloc_lock =>
    if s.pc s.current = .running then some (s.goto .locked s.kernel.vTaskSuspendAll) else none
  | .proceed =>
    match s.pc s.current with
    | .running => none
    | .delaying xTicksToDelay => (s.kernel.delayCurrentTask xTicksToDelay).map (s.goto .blocked)
    | .blocked =>
      (s.kernel.xTaskResumeAll uxPriority).map fun r =>
        s.goto (if r.2 then .running else .yielding) r.1
    | .locked => (s.kernel.xTaskResumeAll uxPriority).map fun r => s.goto .running r.1
    | .yielding => s.kernel.vTaskSwitchContext.map (s.goto .running)

/-- An event switches the context: `vTaskSwitchContext` picks the task that runs next. -/
def switches (s : State τ) : Event → Bool
  | .vTick => s.kernel.uxSchedulerSuspended == 0
  | .taskYIELD => true
  | .proceed =>
    match s.pc s.current with
    | .blocked | .locked => decide (0 < s.kernel.uxMissedTicks) || s.kernel.xMissedYield
    | .yielding => true
    | _ => false
  | _ => false

/-- A tick comes that `uxMissedTicks` cannot count: it is at its largest value, and wraps to 0. -/
def MissesTooMany (s : State τ) (e : Event) : Prop :=
  e = .vTick ∧ s.kernel.uxMissedTicks = 0xffffffff

instance (s : State τ) (e : Event) : Decidable (s.MissesTooMany e) :=
  inferInstanceAs (Decidable (_ ∧ _))

/-- The ticks forgotten by an event. -/
def ticksLost (s : State τ) (e : Event) : Nat := if s.MissesTooMany e then 2 ^ 32 else 0

/-- The tasks have been created, each once, and the scheduler has been started. -/
def Started (s : State τ) : Prop :=
  ∃ heap first others, (∀ t, heap.pvContainer t = none) ∧
    (first :: others ++ [idle]).Nodup ∧ (∀ t, t ∈ first :: others ++ [idle]) ∧
    uxPriority idle = tskIDLE_PRIORITY ∧
    s = ⟨Kernel.vTaskStartScheduler uxPriority heap first others idle, fun _ => .running⟩

end State

variable {τ : Type} [DecidableEq τ]

/-- The tasks with their priorities, and all orders in which they run and the tick comes. -/
def scheduler (uxPriority : τ → Priority) (idle : τ) : System (State τ) Event where
  init := State.Started uxPriority idle
  next := State.next uxPriority idle

/-! ## The tasks of `main` -/

/-- The response tasks that `main` creates, and the idle task. -/
inductive DemoTask where
  | responseA
  | responseB
  | responseC
  | idle
  deriving DecidableEq

/-- The priorities that `main` passes to `xTaskCreate`. -/
def DemoTask.uxPriority : DemoTask → Priority
  | .responseA | .responseB => ⟨2, by decide⟩
  | .responseC => ⟨1, by decide⟩
  | .idle => tskIDLE_PRIORITY

/-- The TCBs before they are initialised. -/
def demoHeap : Heap DemoTask ListId where
  xItemValue := fun _ => 0
  pxNext := id
  pxPrevious := id
  pvContainer := fun _ => none
  uxNumberOfItems := fun _ => 0
  pxIndex := fun l => .xListEnd l

/-- The tasks of `main` when the scheduler has been started. -/
def demoStart : State DemoTask where
  kernel := Kernel.vTaskStartScheduler DemoTask.uxPriority demoHeap .responseA
    [.responseB, .responseC] .idle
  pc := fun _ => .running

theorem demoStart_started : State.Started DemoTask.uxPriority .idle demoStart := by
  refine ⟨demoHeap, .responseA, [.responseB, .responseC], fun _ => rfl, by decide, ?_, rfl, rfl⟩
  rintro (_ | _ | _ | _) <;> decide

theorem demoStart_reachable : (scheduler DemoTask.uxPriority .idle).Reachable demoStart :=
  ⟨[], System.Execution.nil demoStart_started⟩

namespace State

/-! ## The invariant -/

/-- `Timed`, between two events. -/
structure Consistent (uxPriority : τ → Priority) (idle : τ) (s : State τ) (q : ListId → Queue τ)
    (n : Nat) (wake : τ → Option Nat) : Prop where
  timed : Kernel.Timed uxPriority s.kernel q n wake
  settled : Kernel.Settled wake n
  idle_ready : wake idle = none
  idle_pc : s.pc idle ≠ .blocked ∧ ∀ d, s.pc idle ≠ .delaying d
  highest : ∀ t, wake t = none → uxPriority t ≤ uxPriority s.current
  others : ∀ t ≠ s.current, Pc.suspends (s.pc t) = false
  ready : s.pc s.current ≠ .blocked → s.pc s.current ≠ .yielding → wake s.current = none
  positive : ∀ t d, s.pc t = .delaying d → 0 < d
  suspended : s.kernel.uxSchedulerSuspended = if Pc.suspends (s.pc s.current) then 1 else 0
  missed : s.kernel.uxSchedulerSuspended = 0 →
    s.kernel.uxMissedTicks = 0 ∧ s.kernel.xMissedYield = false

/-- What an event does to the ready lists, the ticks counted and the wake times: nothing; some ticks
and then a turn; or the current task goes to sleep. -/
inductive Effect (uxPriority : τ → Priority) (s : State τ) (e : Event) (q : ListId → Queue τ)
    (n : Nat) (wake : τ → Option Nat) (s' : State τ) :
    (ListId → Queue τ) → Nat → (τ → Option Nat) → Prop
  | quiet (hswitches : s.switches e = false)
      (hpc : e = .proceed → ∀ d, s.pc s.current ≠ .delaying d) :
      Effect uxPriority s e q n wake s' q n wake
  | turn {q₁ : ListId → Queue τ} {n' : Nat} (hswitches : s.switches e = true)
      (h : Kernel.Switched uxPriority q n wake s'.kernel q₁ n' s'.current) :
      Effect uxPriority s e q n wake s' (Function.update q₁ (.pxReadyTasksLists
        (uxPriority s'.current)) (q₁ (.pxReadyTasksLists (uxPriority s'.current))).advance) n'
        (Kernel.sleepers wake n')
  | block {d : PortTickType} {q' : ListId → Queue τ} (hswitches : s.switches e = false)
      (hpc : s.pc s.current = .delaying d)
      (hq' : ∀ p, (q' (.pxReadyTasksLists p)).service =
        (q (.pxReadyTasksLists p)).service.erase s.current) :
      Effect uxPriority s e q n wake s' q' n
        (Function.update wake s.current (some (n + d.toNat)))

variable {uxPriority : τ → Priority} {idle : τ} {s s' : State τ} {q : ListId → Queue τ} {n : Nat}
  {wake : τ → Option Nat}

theorem Effect.le {e : Event} {q' : ListId → Queue τ} {n' : Nat} {wake' : τ → Option Nat}
    (h : Effect uxPriority s e q n wake s' q' n' wake') : n ≤ n' := by
  cases h with
  | quiet => exact le_refl _
  | turn _ hswitched => exact hswitched.later
  | block => exact le_refl _

omit [DecidableEq τ] in
theorem Consistent.frame (h : Consistent uxPriority idle s q n wake)
    (hpc : Pc.suspends (s.pc s.current) = false) :
    s.kernel.frame = (s.kernel.pxCurrentTCB, 0, 0, false) := by
  have hsuspended : s.kernel.uxSchedulerSuspended = 0 := by
    rw [h.suspended, hpc]
    rfl
  obtain ⟨hmissed, hyield⟩ := h.missed hsuspended
  simp [Kernel.frame, hsuspended, hmissed, hyield]

omit [DecidableEq τ] in
/-- After a context switch no task is anywhere in the kernel but before a yield. -/
theorem Consistent.of_switched (h : Consistent uxPriority idle s q n wake) {k' : Kernel τ}
    {q₁ : ListId → Queue τ} {n' : Nat} {u : τ} {pc' : τ → Pc}
    (hswitched : Kernel.Switched uxPriority q n wake k' q₁ n' u)
    (hpc : ∀ t, Pc.suspends (pc' t) = false) :
    Consistent uxPriority idle ⟨k', pc'⟩ (Function.update q₁ (.pxReadyTasksLists (uxPriority u))
      (q₁ (.pxReadyTasksLists (uxPriority u))).advance) n' (Kernel.sleepers wake n') := by
  have hframe := hswitched.frame
  simp only [Kernel.frame, Prod.mk.injEq] at hframe
  obtain ⟨hcurrent, hsuspended, hmissed, hyield⟩ := hframe
  refine ⟨hswitched.timed, Kernel.settled_sleepers wake n',
    Kernel.sleepers_eq_none h.idle_ready n', Pc.ne_of_suspends (hpc idle), ?_, fun t _ => hpc t,
    ?_, fun t d ht => absurd ht ((Pc.ne_of_suspends (hpc t)).2 d), ?_,
    fun _ => ⟨hmissed, hyield⟩⟩
  · intro t ht
    rw [State.current, hcurrent]
    exact hswitched.highest t ht
  · intro _ _
    rw [State.current, hcurrent]
    exact hswitched.ready
  · rw [hsuspended, hpc]
    rfl

/-- Where the current task of a state is, after `goto`. -/
theorem suspends_goto (h : Consistent uxPriority idle s q n wake) {pc : Pc}
    (hpc : pc.suspends = false) (t : τ) :
    (Function.update s.pc s.current pc t).suspends = false := by
  rcases eq_or_ne t s.current with rfl | ht
  · simpa using hpc
  · rw [Function.update_of_ne ht]
    exact h.others t ht

/-- The events that the current task and the clock may bring about. -/
def Enabled (idle : τ) (s : State τ) : Event → Prop
  | .vTick => True
  | .taskYIELD | .malloc_lock => s.pc s.current = .running
  | .vTaskDelay _ => s.pc s.current = .running ∧ s.current ≠ idle
  | .proceed => s.pc s.current ≠ .running

/-- The states and times after an event, and what it did. -/
def Follows (uxPriority : τ → Priority) (idle : τ) (s : State τ) (q : ListId → Queue τ) (n : Nat)
    (wake : τ → Option Nat) (e : Event) : Prop :=
  ∃ s' q' n' wake', State.next uxPriority idle s e = some s' ∧
    Consistent uxPriority idle s' q' n' wake' ∧ Effect uxPriority s e q n wake s' q' n' wake' ∧
    n' + s'.kernel.uxMissedTicks.toNat + s.ticksLost e =
      n + s.kernel.uxMissedTicks.toNat + if e = .vTick then 1 else 0

omit [DecidableEq τ] in
@[simp] theorem ticksLost_eq_zero {e : Event} (he : e ≠ .vTick) : s.ticksLost e = 0 :=
  if_neg fun h => he h.1

omit [DecidableEq τ] in
/-- A tick that is missed is counted in `uxMissedTicks`, unless the counter wraps. -/
theorem toNat_missed_add (s : State τ) :
    (s.kernel.uxMissedTicks + 1).toNat + s.ticksLost .vTick =
      s.kernel.uxMissedTicks.toNat + 1 := by
  unfold ticksLost
  by_cases hlast : s.kernel.uxMissedTicks = 0xffffffff
  · rw [if_pos ⟨rfl, hlast⟩, hlast]
    rfl
  · rw [if_neg fun h => hlast h.2]
    bv_omega

theorem Consistent.vTick (h : Consistent uxPriority idle s q n wake) :
    Follows uxPriority idle s q n wake .vTick := by
  by_cases hpc : (s.pc s.current).suspends = false
  · -- the tick is counted, and another task may get the processor
    have hframe := h.frame hpc
    have hmissed : s.kernel.uxMissedTicks = 0 := congrArg (fun f => f.2.2.1) hframe
    obtain ⟨k', q₁, u, htick, hswitched⟩ :=
      h.timed.switched_of_vTick h.settled h.idle_ready hframe
    obtain rfl : k'.pxCurrentTCB = u := congrArg (fun f => f.1) hswitched.frame
    have hmissed' : k'.uxMissedTicks = 0 := congrArg (fun f => f.2.2.1) hswitched.frame
    have hall : ∀ t, (s.pc t).suspends = false := by
      intro t
      rcases eq_or_ne t s.current with rfl | ht
      · exact hpc
      · exact h.others t ht
    have hswitches : s.switches .vTick = true := by
      simp [switches, h.suspended, hpc]
    refine ⟨⟨k', s.pc⟩, _, _, _, ?_, h.of_switched hswitched hall, .turn hswitches hswitched, ?_⟩
    · simp [State.next, htick]
    · simp [ticksLost, MissesTooMany, hmissed, hmissed']
  · -- the tick is missed, and so is the switch
    have hsuspended : s.kernel.uxSchedulerSuspended ≠ 0 := by
      rw [h.suspended, if_pos (by simpa using hpc)]
      exact Nat.one_ne_zero
    have htimed := h.timed.setFrame s.kernel.pxCurrentTCB s.kernel.uxSchedulerSuspended
      (s.kernel.uxMissedTicks + 1) true
    refine ⟨⟨_, s.pc⟩, q, n, wake, ?_, ⟨htimed, h.settled, h.idle_ready, h.idle_pc, h.highest,
      h.others, h.ready, h.positive, h.suspended, fun hzero => absurd hzero hsuspended⟩,
      .quiet (by simpa [switches] using hsuspended) (by simp), ?_⟩
    · simp only [State.next, Kernel.vTick_of_suspended hsuspended, Option.map_some]
    · rw [if_pos rfl, Nat.add_assoc, toNat_missed_add, Nat.add_assoc]

/-- A context switch that leaves the task that was running at `pc`. -/
theorem Consistent.yield (h : Consistent uxPriority idle s q n wake)
    (hcurrent : (s.pc s.current).suspends = false) (pc : Pc) (hpc : pc.suspends = false)
    {e : Event} (hswitches : s.switches e = true) :
    ∃ k' q' n' wake', s.kernel.vTaskSwitchContext = some k' ∧
      Consistent uxPriority idle (s.goto pc k') q' n' wake' ∧
      Effect uxPriority s e q n wake (s.goto pc k') q' n' wake' ∧
      n' + k'.uxMissedTicks.toNat = n + s.kernel.uxMissedTicks.toNat := by
  have hframe := h.frame hcurrent
  have hmissed : s.kernel.uxMissedTicks = 0 := congrArg (fun f => f.2.2.1) hframe
  obtain ⟨k', u, hswitch, hswitched⟩ :=
    h.timed.switched_of_yield h.settled h.idle_ready hframe
  obtain rfl : k'.pxCurrentTCB = u := congrArg (fun f => f.1) hswitched.frame
  have hmissed' : k'.uxMissedTicks = 0 := congrArg (fun f => f.2.2.1) hswitched.frame
  refine ⟨k', _, _, _, hswitch, h.of_switched hswitched (suspends_goto h hpc),
    .turn hswitches hswitched, ?_⟩
  rw [hmissed, hmissed']

theorem Consistent.taskYIELD (h : Consistent uxPriority idle s q n wake)
    (hpc : s.pc s.current = .running) : Follows uxPriority idle s q n wake .taskYIELD := by
  obtain ⟨k', q', n', wake', hswitch, h', heffect, hticks⟩ :=
    h.yield (by rw [hpc]; rfl) .running rfl (show s.switches .taskYIELD = true from rfl)
  have hgoto : s.goto .running k' = { s with kernel := k' } := by
    simp [State.goto, ← hpc]
  rw [hgoto] at h' heffect
  refine ⟨_, q', n', wake', ?_, h', heffect, hticks⟩
  simp [State.next, hpc, hswitch]

/-- The current task suspends the scheduler. -/
theorem Consistent.suspend (h : Consistent uxPriority idle s q n wake)
    (hcurrent : s.pc s.current = .running) (pc : Pc) (hpc : pc.suspends = true)
    (hblocked : pc ≠ .blocked) (hidle : ∀ d, pc = .delaying d → s.current ≠ idle ∧ 0 < d) :
    Consistent uxPriority idle (s.goto pc s.kernel.vTaskSuspendAll) q n wake := by
  -- a running task finds the scheduler not suspended, so the calls do not nest
  have hsuspended : s.kernel.uxSchedulerSuspended = 0 := by
    rw [h.suspended, hcurrent]
    rfl
  refine ⟨h.timed.setFrame _ _ _ _, h.settled, h.idle_ready, ⟨?_, ?_⟩, h.highest, ?_, ?_, ?_, ?_,
    ?_⟩
  · rcases eq_or_ne idle s.current with heq | hne
    · simpa [State.goto, heq] using hblocked
    · simpa [State.goto, hne] using h.idle_pc.1
  · intro d
    rcases eq_or_ne idle s.current with heq | hne
    · intro hd
      exact (hidle d (by simpa [State.goto, heq] using hd)).1 heq.symm
    · simpa [State.goto, hne] using h.idle_pc.2 d
  · intro t ht
    have hne : t ≠ s.current := ht
    simpa [State.goto, hne] using h.others t hne
  · intro _ _
    exact h.ready (by rw [hcurrent]; simp) (by rw [hcurrent]; simp)
  · intro t d ht
    rcases eq_or_ne t s.current with rfl | hne
    · exact (hidle d (by simpa [State.goto] using ht)).2
    · exact h.positive t d (by simpa [State.goto, hne] using ht)
  · have hcur : (s.goto pc s.kernel.vTaskSuspendAll).pc s.current = pc := by
      simp [State.goto]
    change s.kernel.uxSchedulerSuspended + 1 = if Pc.suspends (_ : Pc) then 1 else 0
    rw [hsuspended, show (s.goto pc s.kernel.vTaskSuspendAll).current = s.current from rfl, hcur,
      hpc]
    rfl
  · intro hzero
    cases hzero

/-- The current task goes on where the scheduler is not suspended. -/
theorem Consistent.unsuspended (h : Consistent uxPriority idle s q n wake) {pc : Pc}
    (hpc : pc.suspends = false) (hready : pc = .running → wake s.current = none) {k' : Kernel τ}
    (htimed : Kernel.Timed uxPriority k' q n wake)
    (hframe : k'.frame = (s.current, 0, 0, false)) :
    Consistent uxPriority idle (s.goto pc k') q n wake := by
  simp only [Kernel.frame, Prod.mk.injEq] at hframe
  obtain ⟨hcurrent, hsuspended, hmissed, hyield⟩ := hframe
  have hgoto := suspends_goto h hpc
  have hcurrent' : (s.goto pc k').current = s.current := hcurrent
  have hpc' : (s.goto pc k').pc s.current = pc := by
    simp [State.goto]
  refine ⟨htimed, h.settled, h.idle_ready, Pc.ne_of_suspends (hgoto idle), ?_, fun t _ => hgoto t,
    ?_, fun t d ht => absurd ht ((Pc.ne_of_suspends (hgoto t)).2 d), ?_, fun _ => ⟨hmissed, hyield⟩⟩
  · rw [hcurrent']
    exact h.highest
  · rw [hcurrent', hpc']
    intro hblocked hyielding
    apply hready
    cases pc <;> simp_all [Pc.suspends]
  · rw [hcurrent', hpc', hpc]
    exact hsuspended

theorem Consistent.vTaskDelay (h : Consistent uxPriority idle s q n wake)
    (hpc : s.pc s.current = .running) (hidle : s.current ≠ idle) (d : PortTickType) :
    Follows uxPriority idle s q n wake (.vTaskDelay d) := by
  by_cases hd : 0 < d
  · refine ⟨_, q, n, wake, ?_, h.suspend hpc (.delaying d) rfl (by simp) ?_,
      .quiet rfl (by simp), rfl⟩
    · simp only [State.next, hpc, ne_eq, hidle, not_false_eq_true, and_self, if_true, hd]
    · rintro d' ⟨⟩
      exact ⟨hidle, hd⟩
  · have hframe := h.frame (by rw [hpc]; rfl)
    refine ⟨s.goto .yielding s.kernel, q, n, wake, ?_,
      h.unsuspended rfl (fun hpc => by cases hpc) h.timed hframe, .quiet rfl (by simp),
      rfl⟩
    simp only [State.next, hpc, ne_eq, hidle, not_false_eq_true, and_self, if_true, hd, if_false]

theorem Consistent.malloc_lock (h : Consistent uxPriority idle s q n wake)
    (hpc : s.pc s.current = .running) : Follows uxPriority idle s q n wake .malloc_lock := by
  refine ⟨_, q, n, wake, ?_, h.suspend hpc .locked rfl (by simp) (by simp),
    .quiet rfl (by simp), rfl⟩
  simp only [State.next, hpc, if_true]

/-- The current task goes to sleep. -/
theorem Consistent.block (h : Consistent uxPriority idle s q n wake) {d : PortTickType}
    (hpc : s.pc s.current = .delaying d) : Follows uxPriority idle s q n wake .proceed := by
  have hd := h.positive _ d hpc
  have hwake : wake s.current = none := h.ready (by rw [hpc]; simp) (by rw [hpc]; simp)
  -- the idle task calls no `vTaskDelay`, so one ready task is left
  have hidle : idle ≠ s.current := by
    rintro rfl
    exact h.idle_pc.2 d hpc
  obtain ⟨k', q', hdelay, htimed, hframe, hservice⟩ := h.timed.delayCurrentTask hwake hd
  simp only [Kernel.frame, Prod.mk.injEq] at hframe
  obtain ⟨hcurrent, hsuspended, hmissed, hyield⟩ := hframe
  have hcurrent' : (s.goto .blocked k').current = s.current := hcurrent
  refine ⟨s.goto .blocked k', q', n, _, ?_, ⟨htimed, ?_, ?_, ?_, ?_, ?_, ?_, ?_, ?_, ?_⟩,
    .block (by simp [switches, hpc]) hpc hservice, ?_⟩
  · simp [State.next, hpc, hdelay]
  · intro t
    rcases eq_or_ne t s.current with rfl | ht
    · -- a delay of at least one tick ends after the ticks counted so far
      have hd' : 0 < d.toNat := hd
      change Function.update wake s.current (some (n + d.toNat)) s.current ≠ some n
      simp
      omega
    · change Function.update wake s.current (some (n + d.toNat)) t ≠ some n
      rw [Function.update_of_ne ht]
      exact h.settled t
  · change Function.update wake s.current (some (n + d.toNat)) idle = none
    rw [Function.update_of_ne hidle]
    exact h.idle_ready
  · simpa [State.goto, hidle] using h.idle_pc
  · intro t ht
    change Function.update wake s.current (some (n + d.toNat)) t = none at ht
    rw [hcurrent']
    rcases eq_or_ne t s.current with rfl | hne
    · simp at ht
    · rw [Function.update_of_ne hne] at ht
      exact h.highest t ht
  · intro t ht
    rw [hcurrent'] at ht
    simpa [State.goto, ht] using h.others t ht
  · intro hblocked
    rw [hcurrent'] at hblocked
    simp [State.goto] at hblocked
  · intro t d' ht
    rcases eq_or_ne t s.current with rfl | hne
    · simp [State.goto] at ht
    · exact h.positive t d' (by simpa [State.goto, hne] using ht)
  · rw [hcurrent']
    simp only [State.goto, Function.update_self, hsuspended, h.suspended, hpc]
    rfl
  · intro hzero
    have : k'.uxSchedulerSuspended = 1 := by
      rw [hsuspended, h.suspended, hpc]
      rfl
    change k'.uxSchedulerSuspended = 0 at hzero
    omega
  · change n + k'.uxMissedTicks.toNat + _ = _
    simp [hmissed]

/-- The current task resumes the scheduler. -/
theorem Consistent.resume (h : Consistent uxPriority idle s q n wake)
    (hcurrent : (s.pc s.current).suspends = true)
    (hdelaying : ∀ d, s.pc s.current ≠ .delaying d) (pc : Bool → Pc)
    (hpc : ∀ b, (pc b).suspends = false)
    (hready : pc false = .running → wake s.current = none)
    (hswitches : s.switches .proceed =
      (decide (0 < s.kernel.uxMissedTicks) || s.kernel.xMissedYield)) :
    ∃ r q' n' wake', s.kernel.xTaskResumeAll uxPriority = some r ∧
      Consistent uxPriority idle (s.goto (pc r.2) r.1) q' n' wake' ∧
      Effect uxPriority s .proceed q n wake (s.goto (pc r.2) r.1) q' n' wake' ∧
      n' + r.1.uxMissedTicks.toNat = n + s.kernel.uxMissedTicks.toNat := by
  have hsuspended : s.kernel.uxSchedulerSuspended = 1 := by
    rw [h.suspended, hcurrent]
    rfl
  rcases h.timed.xTaskResumeAll h.settled h.idle_ready hsuspended with
    ⟨k', q₁, u, hresume, hswitched, hyield⟩ | ⟨hresume, hmissed, hyield⟩
  · -- ticks or a yield were missed: the switch is made here
    obtain rfl : k'.pxCurrentTCB = u := congrArg (fun f => f.1) hswitched.frame
    have hmissed' : k'.uxMissedTicks = 0 := congrArg (fun f => f.2.2.1) hswitched.frame
    refine ⟨_, _, _, _, hresume, h.of_switched hswitched (suspends_goto h (hpc true)),
      .turn (hswitches.trans hyield) hswitched, ?_⟩
    rw [hmissed']
    rfl
  · -- nothing was missed: the task goes on
    refine ⟨_, q, n, wake, hresume, h.unsuspended (hpc false) hready (h.timed.setFrame _ _ _ _) ?_,
      .quiet (by simp [hswitches, hmissed, hyield]) (fun _ => hdelaying), rfl⟩
    simp [Kernel.frame, hmissed, hyield]
    rfl

theorem Consistent.proceed (h : Consistent uxPriority idle s q n wake)
    (hpc : s.pc s.current ≠ .running) : Follows uxPriority idle s q n wake .proceed := by
  cases hcase : s.pc s.current with
  | running => exact absurd hcase hpc
  | delaying d => exact h.block hcase
  | blocked =>
    -- at the end of `vTaskDelay`, which yields if `xTaskResumeAll` has not
    obtain ⟨r, q', n', wake', hresume, h', heffect, hticks⟩ :=
      h.resume (by rw [hcase]; rfl) (by simp [hcase])
        (fun b => if b then .running else .yielding) (by rintro (_ | _) <;> rfl)
        (fun hfalse => by cases hfalse) (by simp [switches, hcase])
    refine ⟨_, q', n', wake', ?_, h', heffect, hticks⟩
    simp [State.next, hcase, hresume]
  | locked =>
    -- in `__malloc_unlock`, after which the task goes on
    obtain ⟨r, q', n', wake', hresume, h', heffect, hticks⟩ :=
      h.resume (by rw [hcase]; rfl) (by simp [hcase]) (fun _ => .running) (fun _ => rfl)
        (fun _ => h.ready (by rw [hcase]; simp) (by rw [hcase]; simp)) (by simp [switches, hcase])
    refine ⟨_, q', n', wake', ?_, h', heffect, hticks⟩
    simp [State.next, hcase, hresume]
  | yielding =>
    obtain ⟨k', q', n', wake', hswitch, h', heffect, hticks⟩ :=
      h.yield (by rw [hcase]; rfl) .running rfl
        (show s.switches .proceed = true by simp [switches, hcase])
    refine ⟨_, q', n', wake', ?_, h', heffect, hticks⟩
    simp [State.next, hcase, hswitch]

/-- Whatever may happen does, without fault, and keeps the kernel consistent. -/
theorem Consistent.follows (h : Consistent uxPriority idle s q n wake) {e : Event}
    (he : Enabled idle s e) : Follows uxPriority idle s q n wake e := by
  cases e with
  | vTick => exact h.vTick
  | taskYIELD => exact h.taskYIELD he
  | vTaskDelay d => exact h.vTaskDelay he.1 he.2 d
  | malloc_lock => exact h.malloc_lock he
  | proceed => exact h.proceed he

/-! ## The start -/

/-- The kernel when the tasks `ts` have been created. -/
structure Created (uxPriority : τ → Priority) (k : Kernel τ) (q : ListId → Queue τ) (ts : List τ) :
    Prop where
  represents : k.heap.Represents q
  delayed : k.pxDelayedTaskList = .xDelayedTaskList1
  overflow : k.pxOverflowDelayedTaskList = .xDelayedTaskList2
  container : ∀ t, k.heap.pvContainer t =
    if t ∈ ts then some (.pxReadyTasksLists (uxPriority t)) else none
  top : ∀ t ∈ ts, uxPriority t ≤ k.uxTopReadyPriority
  highest : ∀ t ∈ ts, uxPriority t ≤ uxPriority k.pxCurrentTCB
  frame : k.frame = (k.pxCurrentTCB, 0, 0, false)

theorem mem_taskLists (l : ListId) : l ∈ Kernel.taskLists := by
  cases l <;> simp [Kernel.taskLists]

theorem vListInitialiseItem_eq {heap : Heap τ ListId} {t : τ} (h : heap.pvContainer t = none) :
    heap.vListInitialiseItem t = heap := by
  rw [Heap.vListInitialiseItem, Heap.setContainer, ← h, Function.update_eq_self]

theorem created_createFirst (uxPriority : τ → Priority) {heap : Heap τ ListId}
    (hheap : ∀ t, heap.pvContainer t = none) (t : τ) :
    ∃ q, Created uxPriority (Kernel.createFirst uxPriority heap t) q [t] := by
  have hq := Heap.represents_foldl_vListInitialise _ mem_taskLists hheap
  have hfree : (Kernel.taskLists.foldl Heap.vListInitialise heap).pvContainer t = none := by
    rw [Heap.pvContainer_foldl_vListInitialise, hheap]
  unfold Kernel.createFirst
  rw [vListInitialiseItem_eq (hheap t), Kernel.prvAddTaskToReadyQueue_eq]
  refine ⟨_, hq.vListInsertEnd hfree _, rfl, rfl, ?_, ?_, ?_, rfl⟩
  · intro u
    rcases eq_or_ne u t with rfl | hu
    · simp
    · simp [hu, hheap]
  · simp
  · simp

/-- A task is added to its ready list, and the task to start with is one of the highest priority. -/
theorem Created.add {k : Kernel τ} {ts : List τ} (h : Created uxPriority k q ts) {t c : τ}
    (ht : t ∉ ts) (hc : ∀ u ∈ ts ++ [t], uxPriority u ≤ uxPriority c) :
    Created uxPriority (Kernel.prvAddTaskToReadyQueue uxPriority { k with pxCurrentTCB := c } t)
      (Function.update q (.pxReadyTasksLists (uxPriority t))
        ((q (.pxReadyTasksLists (uxPriority t))).insertEnd t)) (ts ++ [t]) := by
  have hfree : k.heap.pvContainer t = none := by
    rw [h.container, if_neg ht]
  rw [Kernel.prvAddTaskToReadyQueue_eq]
  refine ⟨h.represents.vListInsertEnd hfree _, h.delayed, h.overflow, ?_, ?_, hc, ?_⟩
  · intro u
    rcases eq_or_ne u t with rfl | hu
    · simp
    · simp [hu, h.container]
  · intro u hu
    rcases List.mem_append.1 hu with hu | hu
    · exact (h.top u hu).trans (le_max_left _ _)
    · obtain rfl : u = t := by simpa using hu
      exact le_max_right _ _
  · have hframe := h.frame
    simp only [Kernel.frame, Prod.mk.injEq, true_and] at hframe ⊢
    exact hframe

theorem Created.xTaskGenericCreate {k : Kernel τ} {ts : List τ} (h : Created uxPriority k q ts)
    {t : τ} (ht : t ∉ ts) :
    ∃ q', Created uxPriority (Kernel.xTaskGenericCreate uxPriority k t) q' (ts ++ [t]) := by
  have hfree : k.heap.pvContainer t = none := by
    rw [h.container, if_neg ht]
  by_cases hle : uxPriority k.pxCurrentTCB ≤ uxPriority t
  · simp only [Kernel.xTaskGenericCreate, vListInitialiseItem_eq hfree, hle, if_true]
    refine ⟨_, h.add ht (c := t) ?_⟩
    intro u hu
    rcases List.mem_append.1 hu with hu | hu
    · exact (h.highest u hu).trans hle
    · obtain rfl : u = t := by simpa using hu
      exact le_refl _
  · simp only [Kernel.xTaskGenericCreate, vListInitialiseItem_eq hfree, hle, if_false]
    refine ⟨_, h.add ht (c := k.pxCurrentTCB) ?_⟩
    intro u hu
    rcases List.mem_append.1 hu with hu | hu
    · exact h.highest u hu
    · obtain rfl : u = t := by simpa using hu
      exact (not_le.1 hle).le

theorem Created.foldl {k : Kernel τ} {ts us : List τ} (h : Created uxPriority k q ts)
    (hnodup : (ts ++ us).Nodup) :
    ∃ q', Created uxPriority (us.foldl (Kernel.xTaskGenericCreate uxPriority) k) q' (ts ++ us) := by
  induction us generalizing k q ts with
  | nil => exact ⟨q, by simpa using h⟩
  | cons t us ih =>
    have ht : t ∉ ts := by
      simp only [List.nodup_append, List.mem_cons] at hnodup
      grind
    obtain ⟨q₁, h₁⟩ := h.xTaskGenericCreate ht
    obtain ⟨q', h'⟩ := ih h₁ (by simpa using hnodup)
    exact ⟨q', by simpa using h'⟩

theorem Created.timed {k : Kernel τ} {ts : List τ} (h : Created uxPriority k q ts)
    (hall : ∀ t, t ∈ ts) :
    Kernel.Timed uxPriority { k with xTickCount := 0 } q 0 fun _ => none := by
  have hcontainer : ∀ t, k.heap.pvContainer t = some (.pxReadyTasksLists (uxPriority t)) := by
    intro t
    rw [h.container, if_pos (hall t)]
  -- every task is on its ready list, so the delay lists are empty
  have hempty : ∀ l, (∀ p, l ≠ .pxReadyTasksLists p) → (q l).items = [] := by
    intro l hl
    rw [List.eq_nil_iff_forall_not_mem]
    intro t ht
    rw [← h.represents.container, hcontainer, Option.some.injEq] at ht
    exact hl _ ht.symm
  refine ⟨h.represents, ?_, ?_, rfl, hcontainer, ?_, ?_, ?_, ?_, fun t _ => h.top t (hall t)⟩
  · simp [h.delayed, h.overflow]
  · simp [h.delayed, h.overflow]
  · rintro t m ⟨⟩
  · rintro t m ⟨⟩
  · intro l hl
    rw [hempty l hl]
    exact List.Pairwise.nil
  · intro t ht
    have hnil : (q k.pxDelayedTaskList).items = [] := hempty _ (by simp [h.delayed])
    change t ∈ (q k.pxDelayedTaskList).items at ht
    rw [hnil] at ht
    cases ht

/-- The scheduler starts with every task ready at tick 0. -/
theorem Started.consistent (h : Started uxPriority idle s) :
    ∃ q, Consistent uxPriority idle s q 0 fun _ => none := by
  obtain ⟨heap, first, others, hheap, hnodup, hall, -, rfl⟩ := h
  obtain ⟨q₀, h₀⟩ := created_createFirst uxPriority hheap first
  have hnodup' : ([first] ++ (others ++ [idle])).Nodup := by simpa using hnodup
  obtain ⟨q, hq⟩ := h₀.foldl hnodup'
  rw [List.foldl_append, List.foldl_cons, List.foldl_nil] at hq
  have hmem : ∀ t, t ∈ [first] ++ (others ++ [idle]) := by
    simpa using hall
  have hframe := hq.frame
  simp only [Kernel.frame, Prod.mk.injEq, true_and] at hframe
  obtain ⟨hsuspended, hmissed, hyield⟩ := hframe
  refine ⟨q, hq.timed hmem, ?_, rfl, by simp, ?_, fun _ _ => rfl, fun _ _ => rfl, by simp,
    hsuspended, fun _ => ⟨hmissed, hyield⟩⟩
  · rintro t ⟨⟩
  · exact fun t _ => hq.highest t (hmem t)

/-! ## Every run -/

theorem enabled_of_next {e : Event} (h : State.next uxPriority idle s e = some s') :
    Enabled idle s e := by
  cases e with
  | vTick => trivial
  | taskYIELD | malloc_lock =>
    simp only [State.next] at h
    split at h
    next hpc => exact hpc
    next => cases h
  | vTaskDelay d =>
    simp only [State.next] at h
    split at h
    next hpc => exact hpc
    next => cases h
  | proceed =>
    intro hpc
    simp [State.next, hpc] at h

/-- What a step does, from a consistent state. -/
theorem Consistent.step (h : Consistent uxPriority idle s q n wake) {e : Event}
    (hstep : (scheduler uxPriority idle).Step s e s') :
    ∃ q' n' wake', Consistent uxPriority idle s' q' n' wake' ∧
      Effect uxPriority s e q n wake s' q' n' wake' ∧
      n' + s'.kernel.uxMissedTicks.toNat + s.ticksLost e =
        n + s.kernel.uxMissedTicks.toNat + if e = .vTick then 1 else 0 := by
  obtain ⟨s'', q', n', wake', hnext, h', heffect, hticks⟩ := h.follows (enabled_of_next hstep)
  obtain rfl : s'' = s' := Option.some.inj (hnext.symm.trans hstep)
  exact ⟨q', n', wake', h', heffect, hticks⟩

theorem consistent_of_reachable (h : (scheduler uxPriority idle).Reachable s) :
    ∃ q n wake, Consistent uxPriority idle s q n wake := by
  apply h.invariant (I := fun s => ∃ q n wake, Consistent uxPriority idle s q n wake)
  · intro s hs
    obtain ⟨q, hq⟩ := hs.consistent
    exact ⟨q, 0, _, hq⟩
  · rintro s e s' - ⟨q, n, wake, hs⟩ hstep
    obtain ⟨q', n', wake', h', -, -⟩ := hs.step hstep
    exact ⟨q', n', wake', h'⟩

/-- The task is on its ready list. -/
def Ready (uxPriority : τ → Priority) (s : State τ) (t : τ) : Prop :=
  s.kernel.heap.pvContainer t = some (.pxReadyTasksLists (uxPriority t))

/-- The task is on one of the delay lists. -/
def Asleep (s : State τ) (t : τ) : Prop :=
  s.kernel.heap.pvContainer t = some .xDelayedTaskList1 ∨
    s.kernel.heap.pvContainer t = some .xDelayedTaskList2

omit [DecidableEq τ] in
theorem Consistent.ready_iff (h : Consistent uxPriority idle s q n wake) {t : τ} :
    Ready uxPriority s t ↔ wake t = none := by
  unfold Ready
  rw [h.timed.container, Option.some.injEq]
  cases hw : wake t with
  | none => simp [Kernel.home_eq_ready hw]
  | some m =>
    obtain ⟨hD, hO⟩ := h.timed.notReady (uxPriority t)
    by_cases hm : epoch m = epoch n
    · simp [Kernel.home_eq_delayed hw hm, hD]
    · simp [Kernel.home_eq_overflow hw hm, hO]

omit [DecidableEq τ] in
theorem Consistent.asleep (h : Consistent uxPriority idle s q n wake) {t : τ} {m : Nat}
    (hw : wake t = some m) : Asleep s t := by
  have hdelay : ∀ l, (∀ p, l ≠ ListId.pxReadyTasksLists p) →
      l = .xDelayedTaskList1 ∨ l = .xDelayedTaskList2 := by
    intro l hl
    cases l with
    | pxReadyTasksLists p => exact absurd rfl (hl p)
    | xDelayedTaskList1 => exact .inl rfl
    | xDelayedTaskList2 => exact .inr rfl
  unfold Asleep
  rw [h.timed.container, Option.some.injEq, Option.some.injEq]
  apply hdelay
  intro p
  by_cases hm : epoch m = epoch n
  · rw [Kernel.home_eq_delayed hw hm]
    exact (h.timed.notReady p).1
  · rw [Kernel.home_eq_overflow hw hm]
    exact (h.timed.notReady p).2

/-- No function of the kernel fails: in every state that can be reached, the tick interrupt and
every event that the current task may bring about has its effect. -/
theorem kernel_never_fails (h : (scheduler uxPriority idle).Reachable s) (e : Event) :
    (∃ s', (scheduler uxPriority idle).Step s e s') ↔ Enabled idle s e := by
  constructor
  · rintro ⟨s', hstep⟩
    exact enabled_of_next hstep
  · intro he
    obtain ⟨q, n, wake, hs⟩ := consistent_of_reachable h
    obtain ⟨s', q', n', wake', hnext, -⟩ := hs.follows he
    exact ⟨s', hnext⟩

/-- B sleeps, with the scheduler still suspended and one tick missed, and goes on to resume it. -/
theorem kernel_never_fails_demo : ∃ tr s,
    (scheduler DemoTask.uxPriority .idle).Execution tr s ∧ Asleep s .responseB ∧
      s.kernel.uxMissedTicks = 1 ∧
      ∃ s', (scheduler DemoTask.uxPriority .idle).Step s .proceed s' := by
  obtain ⟨tr, s, hrun, hasleep, hmissed, hblocked⟩ :=
    (scheduler DemoTask.uxPriority .idle).exists_run_of_replay demoStart
      [.vTaskDelay 2, .proceed, .vTick]
      (fun _ s => s.kernel.heap.pvContainer .responseB = some .xDelayedTaskList1 ∧
        s.kernel.uxMissedTicks = 1 ∧ s.pc s.current = .blocked) (by decide +kernel)
  have hexec : (scheduler DemoTask.uxPriority .idle).Execution tr s :=
    ⟨demoStart, demoStart_started, hrun⟩
  have henabled : Enabled .idle s .proceed := by simp [Enabled, hblocked]
  exact ⟨tr, s, hexec, .inl hasleep, hmissed, (kernel_never_fails ⟨tr, hexec⟩ .proceed).2 henabled⟩

/-- Of the tasks that are ready, one with the highest priority has the processor, in every state. -/
theorem highest_priority_runs (h : (scheduler uxPriority idle).Reachable s) :
    (∀ t, Ready uxPriority s t → uxPriority t ≤ uxPriority s.current) ∧
      (s.pc s.current = .running → Ready uxPriority s s.current) := by
  obtain ⟨q, n, wake, hs⟩ := consistent_of_reachable h
  constructor
  · intro t ht
    exact hs.highest t (hs.ready_iff.1 ht)
  · intro hpc
    exact hs.ready_iff.2 (hs.ready (by rw [hpc]; simp) (by rw [hpc]; simp))

/-- A and B sleep, B after a tick that was missed, and C has the processor. -/
theorem highest_priority_runs_demo : ∃ tr s,
    (scheduler DemoTask.uxPriority .idle).Execution tr s ∧ Asleep s .responseA ∧
      Asleep s .responseB ∧ s.current = .responseC ∧ Ready DemoTask.uxPriority s .responseC ∧
      ∀ t, Ready DemoTask.uxPriority s t →
        DemoTask.uxPriority t ≤ DemoTask.uxPriority .responseC := by
  obtain ⟨tr, s, hrun, hasleepA, hasleepB, hcurrent, hpc⟩ :=
    (scheduler DemoTask.uxPriority .idle).exists_run_of_replay demoStart
      [.vTaskDelay 2, .proceed, .vTick, .proceed, .vTaskDelay 5, .proceed, .proceed, .proceed]
      (fun _ s => s.kernel.heap.pvContainer .responseA = some .xDelayedTaskList1 ∧
        s.kernel.heap.pvContainer .responseB = some .xDelayedTaskList1 ∧
        s.current = .responseC ∧ s.pc s.current = .running) (by decide +kernel)
  have hexec : (scheduler DemoTask.uxPriority .idle).Execution tr s :=
    ⟨demoStart, demoStart_started, hrun⟩
  obtain ⟨hhighest, hready⟩ := highest_priority_runs ⟨tr, hexec⟩
  have hreadyC := hready hpc
  rw [hcurrent] at hhighest hreadyC
  exact ⟨tr, s, hexec, .inl hasleepA, .inl hasleepB, hcurrent, hreadyC, hhighest⟩

/-! ### Sleep -/

/-- The ticks that have been counted over a run: those that came, and those that had been missed
before, less those that are missed still. -/
def ticksCounted (s : State τ) (tr : List (State τ × Event)) (s' : State τ) : Nat :=
  s.kernel.uxMissedTicks.toNat + tr.countP (fun p => p.2 = .vTick) -
    s'.kernel.uxMissedTicks.toNat

/-- A task keeps its wake time until the tick comes. -/
theorem Consistent.step_asleep {t : τ} {m : Nat} {q' : ListId → Queue τ} {n' : Nat}
    {wake' : τ → Option Nat} {e : Event} (h : Consistent uxPriority idle s q n wake)
    (hw : wake t = some m) (heffect : Effect uxPriority s e q n wake s' q' n' wake') :
    wake' t = if n' < m then some m else none := by
  have hahead := h.timed.ahead t m hw
  have hne : m ≠ n := by
    rintro rfl
    exact h.settled t hw
  have hlt : n < m := by omega
  cases heffect with
  | quiet => rw [hw, if_pos hlt]
  | turn =>
    simp [Kernel.sleepers, hw, Option.filter_some]
  | @block d q' hswitches hpc hq' =>
    have hcurrent : wake s.current = none := h.ready (by rw [hpc]; simp) (by rw [hpc]; simp)
    have ht : t ≠ s.current := by
      rintro rfl
      rw [hw] at hcurrent
      cases hcurrent
    rw [Function.update_of_ne ht, hw, if_pos hlt]

/-- Over a run, a sleeping task either keeps its wake time or its tick has come, and no tick gets
lost while `uxMissedTicks` can count those that are missed. -/
theorem Consistent.run_asleep {t : τ} {m : Nat} {tr : List (State τ × Event)}
    (h : Consistent uxPriority idle s q n wake) (hw : wake t = some m)
    (hrun : (scheduler uxPriority idle).Run s tr s') (hroom : ∀ p ∈ tr, ¬ p.1.MissesTooMany p.2) :
    ∃ q' n' wake', Consistent uxPriority idle s' q' n' wake' ∧
      n' + s'.kernel.uxMissedTicks.toNat =
        n + s.kernel.uxMissedTicks.toNat + tr.countP (fun p => p.2 = .vTick) ∧
      n ≤ n' ∧ (n' < m → wake' t = some m) := by
  induction hrun with
  | nil => exact ⟨q, n, wake, h, rfl, le_refl n, fun _ => hw⟩
  | @snoc tr s₁ s₂ e hrun hstep ih =>
    obtain ⟨q₁, n₁, wake₁, h₁, hticks₁, hle₁, hw₁⟩ := ih fun p hp => hroom p (by simp [hp])
    obtain ⟨q₂, n₂, wake₂, h₂, heffect, hticks₂⟩ := h₁.step hstep
    have hlost : s₁.ticksLost e = 0 := if_neg (hroom (s₁, e) (by simp))
    have hle₂ := heffect.le
    refine ⟨q₂, n₂, wake₂, h₂, ?_, hle₁.trans hle₂, ?_⟩
    · rw [hlost, Nat.add_zero, hticks₁] at hticks₂
      rw [hticks₂, List.countP_append, List.countP_singleton]
      simp [Nat.add_assoc]
    · intro hlt
      rw [h₁.step_asleep (hw₁ (lt_of_le_of_lt hle₂ hlt)) heffect, if_pos hlt]

/-- A task that calls `vTaskDelay` sleeps for exactly as many ticks as it asked for, from the tick
count that the call found: it is on a delay list until the last of them is counted, and back on its
ready list at once. It does not matter when the ticks come, whether they are missed and made up for
later, and whether the tick count overflows meanwhile; but no more ticks may be missed at a time
than `uxMissedTicks` can count. -/
theorem vTaskDelay_exact {s₀ s₁ s₂ : State τ} {d : PortTickType} {tr : List (State τ × Event)}
    (h : (scheduler uxPriority idle).Reachable s₀) (hpc : s₀.pc s₀.current = .delaying d)
    (hstep : (scheduler uxPriority idle).Step s₀ .proceed s₁)
    (hrun : (scheduler uxPriority idle).Run s₁ tr s₂) (hroom : ∀ p ∈ tr, ¬ p.1.MissesTooMany p.2) :
    s₂.kernel.xTickCount = s₁.kernel.xTickCount + BitVec.ofNat 32 (ticksCounted s₁ tr s₂) ∧
    (ticksCounted s₁ tr s₂ < d.toNat → Asleep s₂ s₀.current) ∧
    ∀ e s₃, (scheduler uxPriority idle).Step s₂ e s₃ → ¬ s₂.MissesTooMany e →
      ticksCounted s₁ tr s₂ < d.toNat → d.toNat ≤ ticksCounted s₁ (tr ++ [(s₂, e)]) s₃ →
      Ready uxPriority s₃ s₀.current := by
  obtain ⟨q₀, n₀, wake₀, h₀⟩ := consistent_of_reachable h
  obtain ⟨q₁, n₁, wake₁, h₁, heffect, hticks₁⟩ := h₀.step hstep
  -- the task is to wake `d` ticks from now
  have hwake : wake₁ s₀.current = some (n₁ + d.toNat) := by
    have hnot : s₀.switches .proceed = false := by
      simp [switches, hpc]
    have hready : wake₀ s₀.current = none := h₀.ready (by rw [hpc]; simp) (by rw [hpc]; simp)
    cases heffect with
    | quiet _ hquiet => exact absurd hpc (hquiet rfl d)
    | turn hswitches =>
      rw [hnot] at hswitches
      cases hswitches
    | @block d' q' _ hpc' _ =>
      rw [hpc] at hpc'
      obtain rfl : d = d' := Pc.delaying.inj hpc'
      simp
  obtain ⟨q₂, n₂, wake₂, h₂, hticks₂, hle, hasleep⟩ := h₁.run_asleep hwake hrun hroom
  have hcounted : n₂ = n₁ + ticksCounted s₁ tr s₂ := by
    unfold ticksCounted
    omega
  refine ⟨?_, ?_, ?_⟩
  · rw [h₂.timed.tick, h₁.timed.tick, hcounted, BitVec.ofNat_add]
  · intro hlt
    exact h₂.asleep (hasleep (by omega))
  · intro e s₃ hstep₃ hroom₃ hlt hge
    obtain ⟨q₃, n₃, wake₃, h₃, heffect₃, hticks₃⟩ := h₂.step hstep₃
    have hlost : s₂.ticksLost e = 0 := if_neg hroom₃
    have hle₃ := heffect₃.le
    have hcounted₃ : n₃ = n₁ + ticksCounted s₁ (tr ++ [(s₂, e)]) s₃ := by
      unfold ticksCounted
      rw [List.countP_append, List.countP_singleton]
      simp only [decide_eq_true_eq]
      omega
    rw [h₃.ready_iff, h₂.step_asleep (hasleep (by omega)) heffect₃, if_neg (by omega)]

/-- The second response task calls `vTaskDelay(2)`. -/
def demoDelaying : State DemoTask :=
  demoStart.goto (.delaying 2) demoStart.kernel.vTaskSuspendAll

/-- The tick that comes before the task has resumed the scheduler is missed, and made up for when
it does. The next one is the second, and wakes the task. -/
theorem vTaskDelay_exact_demo : ∃ s₁ tr s₂ s₃,
    (scheduler DemoTask.uxPriority .idle).Step demoDelaying .proceed s₁ ∧
    (scheduler DemoTask.uxPriority .idle).Run s₁ tr s₂ ∧
    (∃ p ∈ tr, p.2 = .proceed ∧ p.1.kernel.uxMissedTicks = 1) ∧
    (scheduler DemoTask.uxPriority .idle).Step s₂ .vTick s₃ ∧
    s₂.kernel.xTickCount = s₁.kernel.xTickCount + 1 ∧
    Asleep s₂ .responseB ∧ Ready DemoTask.uxPriority s₃ .responseB := by
  have hcall : (scheduler DemoTask.uxPriority .idle).Step demoStart (.vTaskDelay 2) demoDelaying :=
    rfl
  have hreplay : ((do
      let s₁ ← demoDelaying.next DemoTask.uxPriority .idle .proceed
      let r ← (scheduler DemoTask.uxPriority .idle).replay s₁ [.vTick, .proceed]
      let s₃ ← r.2.next DemoTask.uxPriority .idle .vTick
      some (decide (∃ p ∈ r.1, p.2 = .proceed ∧ p.1.kernel.uxMissedTicks = 1),
        decide (∀ p ∈ r.1 ++ [(r.2, .vTick)], ¬ p.1.MissesTooMany p.2),
        s₁.ticksCounted r.1 r.2, s₁.ticksCounted (r.1 ++ [(r.2, .vTick)]) s₃)) : Option _) =
      some (true, true, 1, 2) := by
    decide +kernel
  simp only [Option.bind_eq_bind, Option.bind_eq_some_iff, Option.some.injEq, Prod.mk.injEq,
    decide_eq_true_eq] at hreplay
  obtain ⟨s₁, hproceed, ⟨tr, s₂⟩, hrest, s₃, hlast, hmissed, hroom, hbefore, hafter⟩ := hreplay
  have hstep : (scheduler DemoTask.uxPriority .idle).Step demoDelaying .proceed s₁ := hproceed
  have hstep₃ : (scheduler DemoTask.uxPriority .idle).Step s₂ .vTick s₃ := hlast
  have hrun := System.run_of_replay hrest
  have hreach := demoStart_reachable.step hcall
  obtain ⟨htick, hasleep, hwakes⟩ := vTaskDelay_exact hreach rfl hstep hrun
    fun p hp => hroom p (List.mem_append_left _ hp)
  rw [hbefore] at htick
  refine ⟨s₁, tr, s₂, s₃, hstep, hrun, hmissed, hstep₃, htick, ?_, ?_⟩
  · exact hasleep (by rw [hbefore]; decide)
  · exact hwakes .vTick s₃ hstep₃ (hroom (s₂, .vTick) (by simp)) (by rw [hbefore]; decide)
      (by rw [hafter]; decide)

/-! ### Turns -/

/-- In the ready list of task `t`, its turn comes before that of task `u`. -/
def Before (uxPriority : τ → Priority) (q : ListId → Queue τ) (t u : τ) : Prop :=
  ∃ as bs, (q (.pxReadyTasksLists (uxPriority t))).service = as ++ t :: bs ∧ u ∉ as

/-- While task `t` is ready and does not get its turn, it stays before `u`, and `u` gets none. -/
theorem Before.step {t u : τ} {e : Event} {q' : ListId → Queue τ} {n' : Nat}
    {wake' : τ → Option Nat} (hbefore : Before uxPriority q t u)
    (hp : uxPriority t = uxPriority u) (hready : wake' t = none)
    (heffect : Effect uxPriority s e q n wake s' q' n' wake') :
    Before uxPriority q' t u ∧ (s.switches e = true → s'.current ≠ u) ∨
      s.switches e = true ∧ s'.current = t := by
  obtain ⟨as, bs, hservice, hu⟩ := hbefore
  cases heffect with
  | quiet hquiet =>
    left
    refine ⟨⟨as, bs, hservice, hu⟩, fun hswitches => ?_⟩
    rw [hquiet] at hswitches
    cases hswitches
  | @turn q₁ n' hswitches hswitched =>
    -- the ready list has got new tasks at its end, and perhaps gives a turn
    obtain ⟨cs, hcs⟩ := hswitched.appended (uxPriority t)
    rw [hservice] at hcs
    by_cases hsame : uxPriority s'.current = uxPriority t
    · obtain ⟨us, hturn⟩ := hswitched.turn
      have hadvance := Queue.service_advance _ hturn
      rw [hsame] at hturn hadvance ⊢
      rw [← hcs] at hturn
      cases as with
      | nil =>
        right
        -- nobody is before `t`, so the turn is that of `t`
        have heq : t = s'.current := by
          simp only [List.nil_append, List.cons_append, List.cons.injEq] at hturn
          exact hturn.1
        exact ⟨hswitches, heq.symm⟩
      | cons a as =>
        left
        -- the first of those before `t` gets the turn, and goes to the end
        obtain ⟨rfl, rfl⟩ : a = s'.current ∧ as ++ t :: (bs ++ cs) = us := by simpa using hturn
        -- the turn is given on another ready list
        refine ⟨⟨as, bs ++ cs ++ [s'.current], ?_, fun h => hu (List.mem_cons_of_mem _ h)⟩, ?_⟩
        · rw [Function.update_self, hadvance]
          simp
        · rintro - rfl
          exact hu List.mem_cons_self
    · left
      refine ⟨⟨as, bs ++ cs, ?_, hu⟩, ?_⟩
      · rw [Function.update_of_ne (by simpa using Ne.symm hsame), ← hcs]
        simp
      · rintro - rfl
        exact hsame hp.symm
  | @block d q' hblock hpc hq' =>
    left
    -- the task that goes to sleep leaves its ready list, and `t` is another one
    have ht : s.current ≠ t := by
      rintro rfl
      simp at hready
    refine ⟨?_, fun hswitches => ?_⟩
    · by_cases hmem : s.current ∈ as
      · refine ⟨as.erase s.current, bs, ?_, fun h => hu (List.mem_of_mem_erase h)⟩
        rw [hq', hservice, List.erase_append_left _ hmem]
      · refine ⟨as, bs.erase s.current, ?_, hu⟩
        rw [hq', hservice, List.erase_append_right _ hmem,
          List.erase_cons_tail (by simpa using ht.symm)]
    · rw [hblock] at hswitches
      cases hswitches

/-- After its turn, a task comes behind all others of its priority. -/
theorem Consistent.before_of_turn {t : τ} {e : Event} {q' : ListId → Queue τ} {n' : Nat}
    {wake' : τ → Option Nat} (h' : Consistent uxPriority idle s' q' n' wake')
    (heffect : Effect uxPriority s e q n wake s' q' n' wake') (hswitches : s.switches e = true)
    (hready : wake' t = none) (ht : t ≠ s'.current)
    (hp : uxPriority t = uxPriority s'.current) : Before uxPriority q' t s'.current := by
  have hmem : t ∈ (q' (.pxReadyTasksLists (uxPriority t))).items :=
    h'.timed.mem_iff.2 (Kernel.home_eq_ready hready)
  have hnodup := (h'.timed.represents.holds (.pxReadyTasksLists (uxPriority t))).nodup
  rw [← Queue.mem_service] at hmem
  rw [Queue.items, List.nodup_append_comm] at hnodup
  change (q' (.pxReadyTasksLists (uxPriority t))).service.Nodup at hnodup
  cases heffect with
  | quiet hquiet =>
    rw [hquiet] at hswitches
    cases hswitches
  | @turn q₁ n' _ hswitched =>
    -- the task that runs is at the end of the list now, and `t` is before it
    obtain ⟨us, hturn⟩ := hswitched.turn
    unfold Before
    rw [hp, Function.update_self, Queue.service_advance _ hturn] at hmem hnodup ⊢
    have htus : t ∈ us := by simpa [ht] using hmem
    obtain ⟨as, bs, rfl⟩ := List.append_of_mem htus
    refine ⟨as, bs ++ [s'.current], by simp, ?_⟩
    intro has
    simp only [List.nodup_append] at hnodup
    exact hnodup.2.2 _ (List.mem_append_left _ has) _ List.mem_cons_self rfl
  | block hblock =>
    rw [hblock] at hswitches
    cases hswitches

/-- The processor is shared in turns: between two turns of one task, every task of the same priority
that is ready all the while has its turn. -/
theorem turn_between {s₀ s₁ s₂ s₃ : State τ} {e₀ e₂ : Event} {tr : List (State τ × Event)} {t u : τ}
    (h : (scheduler uxPriority idle).Reachable s₀)
    (hstep₀ : (scheduler uxPriority idle).Step s₀ e₀ s₁) (hturn₀ : s₀.switches e₀ = true)
    (hu₁ : s₁.current = u) (hrun : (scheduler uxPriority idle).Run s₁ tr s₂)
    (hstep₂ : (scheduler uxPriority idle).Step s₂ e₂ s₃) (hturn₂ : s₂.switches e₂ = true)
    (hu₃ : s₃.current = u) (htu : t ≠ u) (hp : uxPriority t = uxPriority u)
    (hready : ∀ pre s, pre <+: tr → (scheduler uxPriority idle).Run s₁ pre s →
      Ready uxPriority s t) :
    ∃ pre s e s' post, tr = pre ++ (s, e) :: post ∧
      (scheduler uxPriority idle).Run s₁ pre s ∧ (scheduler uxPriority idle).Step s e s' ∧
      s.switches e = true ∧ s'.current = t := by
  obtain ⟨q₀, n₀, wake₀, h₀⟩ := consistent_of_reachable h
  obtain ⟨q₁, n₁, wake₁, h₁, heffect₁, -⟩ := h₀.step hstep₀
  subst hu₁
  have hready₁ : wake₁ t = none :=
    h₁.ready_iff.1 (hready [] s₁ List.nil_prefix System.Run.nil)
  have hbefore := h₁.before_of_turn heffect₁ hturn₀ hready₁ htu hp
  -- up to the end of the run, the task has had its turn or still comes first
  have hrunning : ∀ {pre s}, (scheduler uxPriority idle).Run s₁ pre s → pre <+: tr →
      (∃ pre' s e s' post, pre = pre' ++ (s, e) :: post ∧
        (scheduler uxPriority idle).Run s₁ pre' s ∧ (scheduler uxPriority idle).Step s e s' ∧
        s.switches e = true ∧ s'.current = t) ∨
      ∃ q n wake, Consistent uxPriority idle s q n wake ∧ Before uxPriority q t s₁.current := by
    intro pre s hpre
    induction hpre with
    | nil => exact fun _ => .inr ⟨q₁, n₁, wake₁, h₁, hbefore⟩
    | @snoc pre s s' e hpre hstep ih =>
      intro hpart
      rcases ih ((List.prefix_append _ _).trans hpart) with
        ⟨pre', r, e', r', post, rfl, hturn⟩ | ⟨q, n, wake, hs, hbefore⟩
      · exact .inl ⟨pre', r, e', r', post ++ [(s, e)], by simp, hturn⟩
      · obtain ⟨q', n', wake', hs', heffect, -⟩ := hs.step hstep
        have hready' : wake' t = none := hs'.ready_iff.1 (hready _ _ hpart (hpre.snoc hstep))
        rcases hbefore.step hp hready' heffect with ⟨hbefore', -⟩ | ⟨hswitches, hcurrent⟩
        · exact .inr ⟨q', n', wake', hs', hbefore'⟩
        · exact .inl ⟨pre, s, e, s', [], rfl, hpre, hstep, hswitches, hcurrent⟩
  rcases hrunning hrun (List.prefix_refl _) with hturn | ⟨q₂, n₂, wake₂, h₂, hbefore₂⟩
  · exact hturn
  · exfalso
    obtain ⟨q₃, n₃, wake₃, h₃, heffect₃, -⟩ := h₂.step hstep₂
    have hready₂ : wake₂ t = none := h₂.ready_iff.1 (hready tr s₂ (List.prefix_refl _) hrun)
    have hready₃ : wake₃ t = none := by
      cases heffect₃ with
      | quiet => exact hready₂
      | turn => exact Kernel.sleepers_eq_none hready₂ _
      | block hblock =>
        rw [hblock] at hturn₂
        cases hturn₂
    rcases hbefore₂.step hp hready₃ heffect₃ with ⟨-, hnot⟩ | ⟨-, hcurrent⟩
    · exact hnot hturn₂ hu₃
    · exact htu (hcurrent.symm.trans hu₃)

theorem turn_between_demo : ∃ s₁ s₂ pre s e s' post,
    State.next DemoTask.uxPriority .idle demoStart .taskYIELD = some s₁ ∧
    State.next DemoTask.uxPriority .idle s₁ .taskYIELD = some s₂ ∧
    [(s₁, Event.taskYIELD)] = pre ++ (s, e) :: post ∧
    State.next DemoTask.uxPriority .idle s e = some s' ∧ s'.current = .responseB := by
  have hturns : (do
      let s₁ ← State.next DemoTask.uxPriority .idle demoStart .taskYIELD
      let s₂ ← State.next DemoTask.uxPriority .idle s₁ .taskYIELD
      let s₃ ← State.next DemoTask.uxPriority .idle s₂ .taskYIELD
      some (s₁.current, s₃.current, s₁.kernel.heap.pvContainer .responseB,
        s₂.kernel.heap.pvContainer .responseB)) =
      some (.responseA, .responseA, some (.pxReadyTasksLists ⟨2, by decide⟩),
        some (.pxReadyTasksLists ⟨2, by decide⟩)) := by
    decide +kernel
  simp only [Option.bind_eq_bind, Option.bind_eq_some_iff, Option.some.injEq,
    Prod.mk.injEq] at hturns
  obtain ⟨s₁, hstep₁, s₂, hstep₂, s₃, hstep₃, h₁, h₃, hready₁, hready₂⟩ := hturns
  -- what was evaluated, as steps of the system
  have hfirst : (scheduler DemoTask.uxPriority .idle).Step demoStart .taskYIELD s₁ := hstep₁
  have hsecond : (scheduler DemoTask.uxPriority .idle).Step s₁ .taskYIELD s₂ := hstep₂
  have hthird : (scheduler DemoTask.uxPriority .idle).Step s₂ .taskYIELD s₃ := hstep₃
  have hready : ∀ pre s, pre <+: [(s₁, Event.taskYIELD)] →
      (scheduler DemoTask.uxPriority .idle).Run s₁ pre s →
      Ready DemoTask.uxPriority s .responseB := by
    rintro pre s hpre hs
    rcases List.prefix_cons_iff.1 hpre with rfl | ⟨rest, rfl, hnil⟩
    · obtain rfl : s₁ = s := System.Run.nil_iff.1 hs
      exact hready₁
    · obtain rfl := List.prefix_nil.1 hnil
      obtain ⟨-, v, hv, hnil⟩ := System.Run.cons_iff.1 hs
      obtain rfl : v = s := System.Run.nil_iff.1 hnil
      obtain rfl : s₂ = v := Option.some.inj (hstep₂.symm.trans hv)
      exact hready₂
  obtain ⟨pre, s, e, s', post, htr, -, hstep, -, hs'⟩ :=
    turn_between demoStart_reachable hfirst rfl h₁ (System.Run.nil.snoc hsecond) hthird rfl h₃
      (show DemoTask.responseB ≠ .responseA by decide) rfl hready
  exact ⟨s₁, s₂, pre, s, e, s', post, hstep₁, hstep₂, htr, hstep, hs'⟩

end State

end Sanntid.FreeRTOS
