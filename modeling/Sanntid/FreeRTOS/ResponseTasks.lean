import Sanntid.FreeRTOS.Scheduler

/-!
# The response tasks of `ex5` under the scheduler

`main` creates tasks that all run `responseTaskE`, each with its own test input and response output.
A `Board` is the scheduler with the pins and the next statement of every task. Every step of it is a
step of the scheduler or leaves the scheduler as it is (`step_sched`), so what holds in every run of
the scheduler holds here. The results are for any tasks with any priorities, of which those of
`main` are one case.

A response is low for at least one tick (`pulse_spans_tick`), a task reads its test input at most
once for each tick (`polls_le_ticks`), and it has the processor only while all tasks of higher
priority sleep (`higher_asleep`).
-/

set_option autoImplicit false

namespace Sanntid.FreeRTOS.Responses

open Transition

/-- The statements of `responseTaskE`. -/
inductive Point where
  | gpioPinIsLow
  | busyDelayMs
  | gpioSetPinLow
  /-- `vTaskDelay(1)` between the two edges of the response -/
  | vTaskDelayLow
  | gpioSetPinHigh
  /-- `vTaskDelay(1)` in the `else` branch -/
  | vTaskDelayElse
  deriving DecidableEq

/-- The scheduler, the next statement of every task, and the levels of its two pins. -/
structure Board (τ : Type) where
  sched : State τ
  point : τ → Point
  testLow : τ → Bool
  responseLow : τ → Bool

/-- The tick interrupt, a change of a test input, a statement of the current task, or a step of the
current task in the kernel. -/
inductive Event (τ : Type) where
  | vTick
  | test (t : τ) (low : Bool)
  | statement
  | proceed
  deriving DecidableEq

namespace Board

variable {τ : Type} [DecidableEq τ]

/-- Task `t` goes on to `p`. -/
def goto (b : Board τ) (t : τ) (p : Point) : Board τ :=
  { b with point := Function.update b.point t p }

/-- Task `t` writes its response pin. -/
def setResponse (b : Board τ) (t : τ) (low : Bool) : Board τ :=
  { b with responseLow := Function.update b.responseLow t low }

variable (uxPriority : τ → Priority) (idle : τ)

/-- The scheduler takes a step. -/
def kernel (b : Board τ) (e : FreeRTOS.Event) : Option (Board τ) :=
  (State.next uxPriority idle b.sched e).map fun s => { b with sched := s }

/-- The next statement of task `t`, which has the processor. -/
def statement (b : Board τ) (t : τ) : Option (Board τ) :=
  match b.point t with
  | .gpioPinIsLow =>
    if b.testLow t then some (b.goto t .busyDelayMs) else some (b.goto t .vTaskDelayElse)
  | .busyDelayMs => some (b.goto t .gpioSetPinLow)
  | .gpioSetPinLow => some ((b.setResponse t true).goto t .vTaskDelayLow)
  | .vTaskDelayLow => (b.goto t .gpioSetPinHigh).kernel uxPriority idle (.vTaskDelay 1)
  | .gpioSetPinHigh => some ((b.setResponse t false).goto t .gpioPinIsLow)
  | .vTaskDelayElse => (b.goto t .gpioPinIsLow).kernel uxPriority idle (.vTaskDelay 1)

/-- `prvIdleTask` yields if another task has the idle priority. -/
def prvIdleTask (b : Board τ) : Option (Board τ) :=
  if 1 < b.sched.kernel.heap.uxNumberOfItems (.pxReadyTasksLists tskIDLE_PRIORITY) then
    b.kernel uxPriority idle .taskYIELD
  else some b

/-- An event, where it can happen. -/
def next (b : Board τ) : Event τ → Option (Board τ)
  | .vTick => b.kernel uxPriority idle .vTick
  | .test t low => some { b with testLow := Function.update b.testLow t low }
  | .statement =>
    if b.sched.pc b.sched.current = .running then
      if b.sched.current = idle then b.prvIdleTask uxPriority idle
      else b.statement uxPriority idle b.sched.current
    else none
  | .proceed => b.kernel uxPriority idle .proceed

end Board

variable {τ : Type} [DecidableEq τ]

/-- The tasks from the start of the scheduler on; `init` has set the responses high. -/
def responseSystem (uxPriority : τ → Priority) (idle : τ) : System (Board τ) (Event τ) where
  init b := State.Started uxPriority idle b.sched ∧ (∀ t, b.point t = .gpioPinIsLow) ∧
    ∀ t, b.responseLow t = false
  next := Board.next uxPriority idle

/-- The tasks of `main`, with a request on B. -/
def demoBoard : Board DemoTask where
  sched := demoStart
  point := fun _ => .gpioPinIsLow
  testLow t := t == .responseB
  responseLow := fun _ => false

theorem demoBoard_init : (responseSystem DemoTask.uxPriority .idle).init demoBoard :=
  ⟨demoStart_started, fun _ => rfl, fun _ => rfl⟩

/-! ## What a step does -/

/-- The statement after `p`. -/
def Point.following (testLow : Bool) : Point → Point
  | gpioPinIsLow => if testLow then busyDelayMs else vTaskDelayElse
  | busyDelayMs => gpioSetPinLow
  | gpioSetPinLow => vTaskDelayLow
  | vTaskDelayLow => gpioSetPinHigh
  | gpioSetPinHigh => gpioPinIsLow
  | vTaskDelayElse => gpioPinIsLow

/-- The level of a response after `p`. -/
def Point.responseAfter (low : Bool) : Point → Bool
  | gpioSetPinLow => true
  | gpioSetPinHigh => false
  | _ => low

/-- `p` is a call of `vTaskDelay`. -/
def Point.delays : Point → Bool
  | vTaskDelayLow | vTaskDelayElse => true
  | _ => false

/-- Task `t` executes a statement of `responseTaskE`. -/
def Executes (idle : τ) (b : Board τ) (e : Event τ) (t : τ) : Prop :=
  e = .statement ∧ b.sched.current = t ∧ t ≠ idle

instance (idle : τ) (b : Board τ) (e : Event τ) (t : τ) : Decidable (Executes idle b e t) :=
  inferInstanceAs (Decidable (_ ∧ _ ∧ _))

variable {uxPriority : τ → Priority} {idle : τ} {b b' : Board τ} {e : Event τ}

theorem kernel_eq_some {e : FreeRTOS.Event} (h : b.kernel uxPriority idle e = some b') :
    (scheduler uxPriority idle).Step b.sched e b'.sched ∧ b'.point = b.point ∧
      b'.responseLow = b.responseLow := by
  simp only [Board.kernel, Option.map_eq_some_iff] at h
  obtain ⟨s, hs, rfl⟩ := h
  exact ⟨hs, rfl, rfl⟩

theorem statement_spec {t : τ} (h : b.statement uxPriority idle t = some b') :
    b'.point = Function.update b.point t ((b.point t).following (b.testLow t)) ∧
      b'.responseLow =
        Function.update b.responseLow t ((b.point t).responseAfter (b.responseLow t)) ∧
      if (b.point t).delays then (scheduler uxPriority idle).Step b.sched (.vTaskDelay 1) b'.sched
      else b'.sched = b.sched := by
  cases hpoint : b.point t with
  | gpioPinIsLow =>
    simp only [Board.statement, hpoint] at h
    cases hlow : b.testLow t with
    | true =>
      rw [hlow] at h
      obtain rfl := Option.some.inj h
      exact ⟨rfl, (Function.update_eq_self t _).symm, rfl⟩
    | false =>
      rw [hlow] at h
      obtain rfl := Option.some.inj h
      exact ⟨rfl, (Function.update_eq_self t _).symm, rfl⟩
  | busyDelayMs =>
    simp only [Board.statement, hpoint] at h
    obtain rfl := Option.some.inj h
    exact ⟨rfl, (Function.update_eq_self t _).symm, rfl⟩
  | gpioSetPinLow =>
    simp only [Board.statement, hpoint] at h
    obtain rfl := Option.some.inj h
    exact ⟨rfl, rfl, rfl⟩
  | vTaskDelayLow =>
    simp only [Board.statement, hpoint] at h
    -- the call goes to the scheduler, and touches no pin
    obtain ⟨hstep, hpoint', hresponse⟩ := kernel_eq_some h
    rw [hpoint', hresponse]
    exact ⟨rfl, (Function.update_eq_self t _).symm, hstep⟩
  | gpioSetPinHigh =>
    simp only [Board.statement, hpoint] at h
    obtain rfl := Option.some.inj h
    exact ⟨rfl, rfl, rfl⟩
  | vTaskDelayElse =>
    simp only [Board.statement, hpoint] at h
    obtain ⟨hstep, hpoint', hresponse⟩ := kernel_eq_some h
    rw [hpoint', hresponse]
    exact ⟨rfl, (Function.update_eq_self t _).symm, hstep⟩

theorem executes_running (h : (responseSystem uxPriority idle).Step b e b') {t : τ}
    (he : Executes idle b e t) : b.sched.pc t = .running := by
  obtain ⟨rfl, rfl, -⟩ := he
  simp only [System.Step, responseSystem, Board.next, Option.ite_none_right_eq_some] at h
  exact h.1

/-- A statement moves its task on, and its response if it writes it. -/
theorem step_task (h : (responseSystem uxPriority idle).Step b e b') (t : τ) :
    b'.point t =
        (if Executes idle b e t then (b.point t).following (b.testLow t) else b.point t) ∧
      b'.responseLow t =
        if Executes idle b e t then (b.point t).responseAfter (b.responseLow t)
        else b.responseLow t := by
  cases e with
  | vTick =>
    obtain ⟨-, hpoint, hresponse⟩ := kernel_eq_some h
    simp [Executes, hpoint, hresponse]
  | test u low =>
    obtain rfl := Option.some.inj h
    simp [Executes]
  | proceed =>
    obtain ⟨-, hpoint, hresponse⟩ := kernel_eq_some h
    simp [Executes, hpoint, hresponse]
  | statement =>
    simp only [System.Step, responseSystem, Board.next, Option.ite_none_right_eq_some] at h
    obtain ⟨-, h⟩ := h
    split at h
    next hidle =>
      -- the idle task has no point and no response
      have hnot : ¬ Executes idle b .statement t := by
        rintro ⟨-, rfl, hne⟩
        exact hne hidle
      rw [if_neg hnot, if_neg hnot]
      simp only [Board.prvIdleTask] at h
      split at h
      · obtain ⟨-, hpoint, hresponse⟩ := kernel_eq_some h
        rw [hpoint, hresponse]
        exact ⟨rfl, rfl⟩
      · obtain rfl := Option.some.inj h
        exact ⟨rfl, rfl⟩
    next hidle =>
      obtain ⟨hpoint, hresponse, -⟩ := statement_spec h
      rw [hpoint, hresponse]
      by_cases ht : t = b.sched.current
      · have hexecutes : Executes idle b .statement t := ⟨rfl, ht.symm, ht ▸ hidle⟩
        rw [if_pos hexecutes, if_pos hexecutes, ht, Function.update_self, Function.update_self]
        exact ⟨rfl, rfl⟩
      · have hnot : ¬ Executes idle b .statement t := fun he => ht he.2.1.symm
        rw [if_neg hnot, if_neg hnot, Function.update_of_ne ht, Function.update_of_ne ht]
        exact ⟨rfl, rfl⟩

/-- What the scheduler does in a step of the board: nothing, the call of a task that executes
`vTaskDelay(1)`, or a step of its own while no task executes a statement. -/
inductive Moves (uxPriority : τ → Priority) (idle : τ) (b : Board τ) (e : Event τ) (b' : Board τ) :
    Prop
  | quiet (hsched : b'.sched = b.sched) (htick : e ≠ .vTick)
      (hexecutes : ∀ t, Executes idle b e t → (b.point t).delays = false)
  | call (hstep : (scheduler uxPriority idle).Step b.sched (.vTaskDelay 1) b'.sched)
      (htick : e ≠ .vTick) (hexecutes : Executes idle b e b.sched.current)
      (hdelays : (b.point b.sched.current).delays = true)
  | kernel {e' : FreeRTOS.Event} (hstep : (scheduler uxPriority idle).Step b.sched e' b'.sched)
      (htick : e' = .vTick ↔ e = .vTick) (hcall : ∀ d, e' ≠ .vTaskDelay d)
      (hexecutes : ∀ t, ¬ Executes idle b e t)

theorem step_sched (h : (responseSystem uxPriority idle).Step b e b') :
    Moves uxPriority idle b e b' := by
  cases e with
  | vTick =>
    obtain ⟨hstep, -⟩ := kernel_eq_some h
    exact .kernel hstep (by simp) (by simp) (by simp [Executes])
  | test u low =>
    obtain rfl := Option.some.inj h
    exact .quiet rfl (by simp) (by simp [Executes])
  | proceed =>
    obtain ⟨hstep, -⟩ := kernel_eq_some h
    exact .kernel hstep (by simp) (by simp) (by simp [Executes])
  | statement =>
    simp only [System.Step, responseSystem, Board.next, Option.ite_none_right_eq_some] at h
    obtain ⟨-, h⟩ := h
    split at h
    next hidle =>
      -- the idle task yields or does nothing
      have hnot : ∀ t, ¬ Executes idle b .statement t := by
        rintro t ⟨-, rfl, hne⟩
        exact hne hidle
      simp only [Board.prvIdleTask] at h
      split at h
      · obtain ⟨hstep, -⟩ := kernel_eq_some h
        exact .kernel hstep (by simp) (by simp) hnot
      · obtain rfl := Option.some.inj h
        exact .quiet rfl (by simp) fun t ht => absurd ht (hnot t)
    next hidle =>
      obtain ⟨-, -, hsched⟩ := statement_spec h
      split at hsched
      next hdelays => exact .call hsched (by simp) ⟨rfl, rfl, hidle⟩ hdelays
      next hdelays =>
        refine .quiet hsched (by simp) ?_
        rintro t ⟨-, rfl, -⟩
        simpa using hdelays

/-- Every run of the board is one of the scheduler. -/
theorem sched_reachable (h : (responseSystem uxPriority idle).Reachable b) :
    (scheduler uxPriority idle).Reachable b.sched := by
  apply h.invariant (I := fun b => (scheduler uxPriority idle).Reachable b.sched)
  · rintro b ⟨hstarted, -⟩
    exact ⟨[], System.Execution.nil hstarted⟩
  · intro b e b' _ hb hstep
    cases step_sched hstep with
    | quiet hsched => rwa [hsched]
    | call hstep => exact hb.step hstep
    | kernel hstep => exact hb.step hstep

/-- A response is low from the write that makes it so to the next one of its task. -/
theorem responseLow_iff (h : (responseSystem uxPriority idle).Reachable b) (t : τ) :
    b.responseLow t = true ↔ b.point t = .vTaskDelayLow ∨ b.point t = .gpioSetPinHigh := by
  apply h.invariant (I := fun b => b.responseLow t = true ↔
    b.point t = .vTaskDelayLow ∨ b.point t = .gpioSetPinHigh)
  · rintro b ⟨-, hpoint, hresponse⟩
    simp [hpoint, hresponse]
  · intro b e b' _ hb hstep
    obtain ⟨hpoint, hresponse⟩ := step_task hstep t
    rw [hpoint, hresponse]
    split
    · cases hp : b.point t <;> cases b.testLow t <;>
        simp_all [Point.following, Point.responseAfter]
    · exact hb

/-! ## Ticks that pass in a delay -/

section Past

open State

variable {s s' : State τ} {q q' : ListId → Queue τ} {n n' : Nat} {wake wake' : τ → Option Nat}

/-- Task `t` runs its own code only when `v` ticks have been counted: they have, or it sleeps until
then, or it is on the way into a delay of one tick that ends no earlier. -/
def Past (s : State τ) (n : Nat) (wake : τ → Option Nat) (t : τ) (v : Nat) : Prop :=
  (s.pc t = .delaying 1 ∧ v ≤ n + 1) ∨ (∃ m, wake t = some m ∧ v ≤ m) ∨ v ≤ n

omit [DecidableEq τ] in
theorem Past.of_running {t : τ} {v : Nat} (h : Consistent uxPriority idle s q n wake)
    (hpast : Past s n wake t v) (ht : s.current = t) (hpc : s.pc t = .running) : v ≤ n := by
  subst ht
  rcases hpast with ⟨hdelaying, -⟩ | ⟨m, hm, -⟩ | hv
  · rw [hpc] at hdelaying
    cases hdelaying
  · rw [h.ready (by rw [hpc]; simp) (by rw [hpc]; simp)] at hm
    cases hm
  · exact hv

/-- Only a call of `vTaskDelay` puts a task before `prvAddCurrentTaskToDelayedList`. -/
theorem delaying_of_step {e : FreeRTOS.Event} {t : τ} {d : PortTickType}
    (hstep : (scheduler uxPriority idle).Step s e s') (hcall : ∀ d, e ≠ .vTaskDelay d)
    (hpc : s'.pc t = .delaying d) : s.pc t = .delaying d := by
  -- a step that moves the current task elsewhere leaves the others where they are
  have hgoto : ∀ pc k, (∀ d, pc ≠ .delaying d) → (s.goto pc k).pc t = .delaying d →
      s.pc t = .delaying d := by
    intro pc k hne ht
    change Function.update s.pc s.current pc t = .delaying d at ht
    by_cases hcurrent : t = s.current
    · rw [hcurrent, Function.update_self] at ht
      exact absurd ht (hne d)
    · rwa [Function.update_of_ne hcurrent] at ht
  change State.next uxPriority idle s e = some s' at hstep
  cases e with
  | vTick =>
    obtain ⟨k, -, rfl⟩ := Option.map_eq_some_iff.1 hstep
    exact hpc
  | taskYIELD =>
    simp only [State.next, Option.ite_none_right_eq_some, Option.map_eq_some_iff] at hstep
    obtain ⟨-, k, -, rfl⟩ := hstep
    exact hpc
  | vTaskDelay d => exact absurd rfl (hcall d)
  | malloc_lock =>
    simp only [State.next, Option.ite_none_right_eq_some, Option.some.injEq] at hstep
    obtain ⟨-, rfl⟩ := hstep
    exact hgoto _ _ (by simp) hpc
  | proceed =>
    simp only [State.next] at hstep
    split at hstep
    · cases hstep
    · obtain ⟨k, -, rfl⟩ := Option.map_eq_some_iff.1 hstep
      exact hgoto _ _ (by simp) hpc
    · obtain ⟨r, -, rfl⟩ := Option.map_eq_some_iff.1 hstep
      refine hgoto _ _ ?_ hpc
      intro d
      split <;> simp
    · obtain ⟨r, -, rfl⟩ := Option.map_eq_some_iff.1 hstep
      exact hgoto _ _ (by simp) hpc
    · obtain ⟨k, -, rfl⟩ := Option.map_eq_some_iff.1 hstep
      exact hgoto _ _ (by simp) hpc

/-- A task in `vTaskDelay` before `prvAddCurrentTaskToDelayedList` has the processor, and a step
leaves it there or puts it to sleep. -/
theorem Past.step {e : FreeRTOS.Event} {t : τ} {v : Nat}
    (h : Consistent uxPriority idle s q n wake) (hpast : Past s n wake t v)
    (hstep : (scheduler uxPriority idle).Step s e s')
    (heffect : Effect uxPriority s e q n wake s' q' n' wake') : Past s' n' wake' t v := by
  have hle := heffect.le
  rcases hpast with ⟨hdelaying, hv⟩ | ⟨m, hm, hv⟩ | hv
  · have hcurrent : t = s.current := by
      by_contra hne
      have hsuspends := h.others t hne
      rw [hdelaying] at hsuspends
      cases hsuspends
    subst hcurrent
    have henabled := enabled_of_next hstep
    have hrunning : s.pc s.current ≠ .running := by
      rw [hdelaying]
      simp
    -- of the events only the tick and the task itself are left
    have he : e = .vTick ∨ e = .proceed := by
      cases e with
      | vTick => exact .inl rfl
      | proceed => exact .inr rfl
      | taskYIELD => exact absurd henabled hrunning
      | malloc_lock => exact absurd henabled hrunning
      | vTaskDelay d => exact absurd henabled.1 hrunning
    cases heffect with
    | quiet hswitches hpc =>
      rcases he with rfl | rfl
      · obtain ⟨k, -, rfl⟩ := Option.map_eq_some_iff.1 hstep
        exact .inl ⟨hdelaying, hv⟩
      · exact absurd hdelaying (hpc rfl 1)
    | turn hswitches =>
      exfalso
      rcases he with rfl | rfl
      · simp [switches, h.suspended, hdelaying, Pc.suspends] at hswitches
      · simp [switches, hdelaying] at hswitches
    | @block d q' hswitches hpc hq' =>
      rw [hdelaying] at hpc
      obtain rfl : (1 : PortTickType) = d := Pc.delaying.inj hpc
      right; left
      exact ⟨n + 1, by simp, hv⟩
  · have hwake := h.step_asleep hm heffect
    split at hwake
    · exact .inr (.inl ⟨m, hwake, hv⟩)
    · right; right
      omega
  · exact .inr (.inr (hv.trans hle))

/-- A call of `vTaskDelay(1)` after `v` ticks. -/
theorem Past.of_call {t : τ} {v : Nat} (ht : s.current = t) (hrunning : s.pc t = .running)
    (hne : t ≠ idle) (hstep : (scheduler uxPriority idle).Step s (.vTaskDelay 1) s')
    (hv : v ≤ n + 1) : Past s' n wake t v := by
  subst ht
  change State.next uxPriority idle s (.vTaskDelay 1) = some s' at hstep
  rw [State.next, if_pos ⟨hrunning, hne⟩, if_pos (by decide), Option.some.injEq] at hstep
  subst hstep
  exact .inl ⟨Function.update_self _ _ _, hv⟩

/-- A call of `vTaskDelay` leaves the other tasks where they are. -/
theorem pc_of_call {t : τ} {d : PortTickType} (ht : t ≠ s.current)
    (hstep : (scheduler uxPriority idle).Step s (.vTaskDelay d) s') : s'.pc t = s.pc t := by
  change State.next uxPriority idle s (.vTaskDelay d) = some s' at hstep
  rw [State.next, Option.ite_none_right_eq_some] at hstep
  obtain ⟨-, hstep⟩ := hstep
  split at hstep
  · obtain rfl := Option.some.inj hstep
    exact Function.update_of_ne ht _ _
  · obtain rfl := Option.some.inj hstep
    exact Function.update_of_ne ht _ _

end Past

/-! ## What a step of the board keeps -/

section Kept

open State

variable {q : ListId → Queue τ} {n : Nat} {wake : τ → Option Nat}

/-- A task that is not in `vTaskDelay` stays ready. -/
theorem ready_of_effect {s s' : State τ} {e : FreeRTOS.Event} {q' : ListId → Queue τ} {n' : Nat}
    {wake' : τ → Option Nat} (heffect : Effect uxPriority s e q n wake s' q' n' wake') {t : τ}
    (hready : wake t = none) (hpc : ∀ d, s.pc t ≠ .delaying d) : wake' t = none := by
  cases heffect with
  | quiet => exact hready
  | turn => exact Kernel.sleepers_eq_none hready _
  | @block d q' _ hdelaying _ =>
    have hne : t ≠ s.current := by
      rintro rfl
      exact hpc d hdelaying
    rw [Function.update_of_ne hne, hready]

/-- A tick of the board is counted at once or kept as missed, or forgotten; a task that waits for a
number of ticks goes on waiting for it, and one that calls `vTaskDelay(1)` begins to. -/
theorem Moves.past (h : Consistent uxPriority idle b.sched q n wake)
    (hstep : (responseSystem uxPriority idle).Step b e b') :
    ∃ q' n' wake', Consistent uxPriority idle b'.sched q' n' wake' ∧ n ≤ n' ∧
      n' + b'.sched.kernel.uxMissedTicks.toNat ≤
        n + b.sched.kernel.uxMissedTicks.toNat + (if e = .vTick then 1 else 0) ∧
      (∀ t v, Past b.sched n wake t v → Past b'.sched n' wake' t v) ∧
      ∀ t, Executes idle b e t → (b.point t).delays = true → ∀ v ≤ n + 1,
        Past b'.sched n' wake' t v := by
  cases step_sched hstep with
  | quiet hsched htick hexecutes =>
    refine ⟨q, n, wake, hsched ▸ h, le_refl n, ?_, ?_, ?_⟩
    · simp [hsched, htick]
    · intro t v hpast
      rwa [hsched]
    · intro t he hdelays
      rw [hexecutes t he] at hdelays
      cases hdelays
  | call hsched htick hexecutes hdelays =>
    -- the call itself counts no tick
    obtain ⟨q', n', wake', h', heffect, hticks⟩ := h.step hsched
    refine ⟨q', n', wake', h', heffect.le, ?_, ?_, ?_⟩
    · have hcounted : n' + b'.sched.kernel.uxMissedTicks.toNat =
          n + b.sched.kernel.uxMissedTicks.toNat := by simpa using hticks
      rw [hcounted]
      exact Nat.le_add_right _ _
    · intro t v hpast
      exact hpast.step h hsched heffect
    · rintro t ⟨he, rfl, hne⟩ - v hv
      have hle := heffect.le
      -- the task is before its delay, and wakes one tick later at the earliest
      exact Past.of_call rfl (executes_running hstep hexecutes) hne hsched (by omega)
  | @kernel e' hsched htick hcall hexecutes =>
    obtain ⟨q', n', wake', h', heffect, hticks⟩ := h.step hsched
    refine ⟨q', n', wake', h', heffect.le, ?_, ?_, ?_⟩
    · simp only [htick] at hticks
      omega
    · intro t v hpast
      exact hpast.step h hsched heffect
    · intro t he
      exact absurd he (hexecutes t)

/-- A task that executes has not missed a tick. -/
theorem executes_missed (h : Consistent uxPriority idle b.sched q n wake)
    (hstep : (responseSystem uxPriority idle).Step b e b') {t : τ} (he : Executes idle b e t) :
    b.sched.kernel.uxMissedTicks = 0 := by
  have hrunning := executes_running hstep he
  obtain ⟨-, rfl, -⟩ := he
  apply (h.missed _).1
  rw [h.suspended, hrunning]
  rfl

end Kept

/-! ## Pulses -/

/-- The number of ticks in a run. -/
def ticks (tr : List (Board τ × Event τ)) : Nat := tr.countP fun p => p.2 = .vTick

theorem ticks_snoc (tr : List (Board τ × Event τ)) (b : Board τ) (e : Event τ) :
    ticks (tr ++ [(b, e)]) = ticks tr + if e = .vTick then 1 else 0 := by
  rw [ticks, ticks, List.countP_append, List.countP_singleton]
  simp

/-- A response changes in the two writes of its own task. -/
theorem response_changes (h : (responseSystem uxPriority idle).Step b e b') {t : τ}
    (hne : b'.responseLow t ≠ b.responseLow t) :
    Executes idle b e t ∧
      (b.point t = .gpioSetPinLow ∧ b'.point t = .vTaskDelayLow ∧ b'.responseLow t = true ∨
        b.point t = .gpioSetPinHigh ∧ b'.responseLow t = false) := by
  obtain ⟨hpoint, hresponse⟩ := step_task h t
  by_cases he : Executes idle b e t
  · rw [if_pos he] at hpoint hresponse
    refine ⟨he, ?_⟩
    cases hp : b.point t with
    | gpioSetPinLow =>
      rw [hp] at hpoint hresponse
      exact .inl ⟨rfl, hpoint, hresponse⟩
    | gpioSetPinHigh =>
      rw [hp] at hresponse
      exact .inr ⟨rfl, hresponse⟩
    | _ =>
      rw [hp] at hresponse
      exact absurd hresponse hne
  · rw [if_neg he] at hresponse
    exact absurd hresponse hne

/-- While a response is low, its task waits for the tick after the one at which it became so. -/
theorem low_past {b₀ b₁ : Board τ} {e₀ : Event τ} {t : τ}
    (h : (responseSystem uxPriority idle).Reachable b₀)
    (hstep₀ : (responseSystem uxPriority idle).Step b₀ e₀ b₁)
    (hhigh : b₀.responseLow t = false) (hlow : b₁.responseLow t = true) :
    ∃ n₀, ∀ {tr b}, (responseSystem uxPriority idle).Run b₁ tr b →
      (∀ p ∈ tr, p.1.responseLow t = true) → b.responseLow t = true →
      ∃ q n wake, State.Consistent uxPriority idle b.sched q n wake ∧ n₀ ≤ n ∧
        n + b.sched.kernel.uxMissedTicks.toNat ≤ n₀ + ticks tr ∧
        (b.point t = .vTaskDelayLow ∨
          b.point t = .gpioSetPinHigh ∧ Past b.sched n wake t (n₀ + 1)) := by
  obtain ⟨q₀, n₀, wake₀, hc₀⟩ := State.consistent_of_reachable (sched_reachable h)
  refine ⟨n₀, ?_⟩
  intro tr b hrun
  obtain ⟨hexecutes₀, hwrites⟩ := response_changes hstep₀ (t := t) (by simp [hhigh, hlow])
  obtain ⟨q₁, n₁, wake₁, hc₁, hle₁, hticks₁, -, -⟩ := Moves.past hc₀ hstep₀
  induction hrun with
  | nil =>
    intro _ _
    -- the write has been made, and the task is before its delay
    refine ⟨q₁, n₁, wake₁, hc₁, hle₁, ?_, .inl ?_⟩
    · simpa [ticks, executes_missed hc₀ hstep₀ hexecutes₀, hexecutes₀.1] using hticks₁
    · rcases hwrites with ⟨-, hpoint, -⟩ | ⟨-, hnot⟩
      · exact hpoint
      · rw [hlow] at hnot
        cases hnot
  | @snoc tr b b' e hrun hstep ih =>
    intro hlows hlow'
    have hblow : b.responseLow t = true := hlows (b, e) (by simp)
    obtain ⟨q, n, wake, hc, hle, hticks, hpoint⟩ := ih (fun p hp => hlows p (by simp [hp])) hblow
    obtain ⟨q', n', wake', hc', hle', hticks', hkept, hcalled⟩ := Moves.past hc hstep
    refine ⟨q', n', wake', hc', hle.trans hle', ?_, ?_⟩
    · rw [ticks_snoc]
      omega
    · obtain ⟨hpoint', hresponse⟩ := step_task hstep t
      by_cases he : Executes idle b e t
      · rw [if_pos he] at hpoint' hresponse
        rcases hpoint with hp | ⟨hp, -⟩
        · -- the task calls `vTaskDelay(1)`, and sleeps until the next tick
          right
          rw [hp] at hpoint'
          exact ⟨hpoint', hcalled t he (by rw [hp]; rfl) _ (by omega)⟩
        · -- the write of 1 would end the pulse
          rw [hp, hlow'] at hresponse
          cases hresponse
      · rw [if_neg he] at hpoint'
        rw [hpoint']
        rcases hpoint with hp | ⟨hp, hpast⟩
        · exact .inl hp
        · -- it sleeps on
          exact .inr ⟨hp, hkept t _ hpast⟩

/-- Between a step that makes a response low and the next one that makes it high a tick comes. -/
theorem pulse_spans_tick {b₀ b₁ b₂ b₃ : Board τ} {e₀ e₂ : Event τ}
    {tr : List (Board τ × Event τ)} {t : τ}
    (h : (responseSystem uxPriority idle).Reachable b₀)
    (hstep₀ : (responseSystem uxPriority idle).Step b₀ e₀ b₁)
    (hhigh : b₀.responseLow t = false) (hlow : b₁.responseLow t = true)
    (hrun : (responseSystem uxPriority idle).Run b₁ tr b₂)
    (hlows : ∀ p ∈ tr, p.1.responseLow t = true) (hlow₂ : b₂.responseLow t = true)
    (hstep₂ : (responseSystem uxPriority idle).Step b₂ e₂ b₃) (hhigh₃ : b₃.responseLow t = false) :
    0 < ticks tr := by
  obtain ⟨n₀, hpast⟩ := low_past h hstep₀ hhigh hlow
  obtain ⟨q, n, wake, hc, -, hticks, hpoint⟩ := hpast hrun hlows hlow₂
  obtain ⟨he, hwrites⟩ := response_changes hstep₂ (t := t) (by simp [hlow₂, hhigh₃])
  -- the step that makes the response high is the write of 1
  have hpoint₂ : b₂.point t = .gpioSetPinHigh := by
    rcases hwrites with ⟨-, -, hnot⟩ | ⟨hp, -⟩
    · rw [hhigh₃] at hnot
      cases hnot
    · exact hp
  rw [executes_missed hc hstep₂ he] at hticks
  rcases hpoint with hp | ⟨-, hpast⟩
  · rw [hpoint₂] at hp
    cases hp
  · -- the task runs again, so the tick that it waited for has been counted
    have hn := hpast.of_running hc he.2.1 (executes_running hstep₂ he)
    omega

/-- A call of `vTaskDelay(1)` up to the switch to another task. -/
def demoDelay : List (Event DemoTask) := [.statement, .proceed, .proceed, .proceed]

/-- The pulse of B, in which A reads its input and a tick comes while C has the processor. -/
theorem pulse_spans_tick_demo : ∃ b₀ b₁ tr b₂ b₃,
    (responseSystem DemoTask.uxPriority .idle).Step b₀ .statement b₁ ∧
    (responseSystem DemoTask.uxPriority .idle).Run b₁ tr b₂ ∧
    (responseSystem DemoTask.uxPriority .idle).Step b₂ .statement b₃ ∧
    b₁.responseLow .responseB = true ∧ b₃.responseLow .responseB = false ∧ 0 < ticks tr := by
  obtain ⟨pre, b₀, hpre, hpulse⟩ :=
    (responseSystem DemoTask.uxPriority .idle).exists_run_of_replay demoBoard
      [.statement, .statement]
      (fun _ b₀ => (do
        let b₁ ← b₀.next DemoTask.uxPriority .idle .statement
        let r ← (responseSystem DemoTask.uxPriority .idle).replay b₁
          (demoDelay ++ .statement :: demoDelay ++ [.vTick])
        let b₃ ← r.2.next DemoTask.uxPriority .idle .statement
        some (b₀.responseLow .responseB, b₁.responseLow .responseB,
          decide (∀ p ∈ r.1, p.1.responseLow .responseB = true), r.2.responseLow .responseB,
          b₃.responseLow .responseB)) = some (false, true, true, true, false))
      (by decide +kernel)
  simp only [Option.bind_eq_bind, Option.bind_eq_some_iff, Option.some.injEq, Prod.mk.injEq,
    decide_eq_true_eq] at hpulse
  obtain ⟨b₁, hstep₀, ⟨tr, b₂⟩, hreplay, b₃, hstep₂, hhigh, hlow, hlows, hlow₂, hhigh₃⟩ := hpulse
  have hreach : (responseSystem DemoTask.uxPriority .idle).Reachable b₀ :=
    ⟨pre, demoBoard, demoBoard_init, hpre⟩
  have hfirst : (responseSystem DemoTask.uxPriority .idle).Step b₀ .statement b₁ := hstep₀
  have hlast : (responseSystem DemoTask.uxPriority .idle).Step b₂ .statement b₃ := hstep₂
  have hrun := System.run_of_replay hreplay
  exact ⟨b₀, b₁, tr, b₂, b₃, hfirst, hrun, hlast, hlow, hhigh₃,
    pulse_spans_tick hreach hfirst hhigh hlow hrun hlows hlow₂ hlast hhigh₃⟩

/-! ## Polls -/

/-- Task `t` reads its test input. -/
def Polls (idle : τ) (t : τ) (p : Board τ × Event τ) : Prop :=
  Executes idle p.1 p.2 t ∧ p.1.point t = .gpioPinIsLow

instance (idle t : τ) (p : Board τ × Event τ) : Decidable (Polls idle t p) :=
  inferInstanceAs (Decidable (_ ∧ _))

/-- The next statement of the task comes after a delay. -/
def Point.afterDelay : Point → Bool
  | gpioPinIsLow | gpioSetPinHigh => true
  | _ => false

theorem Point.afterDelay_following {p : Point} (h : p.delays = true) (testLow : Bool) :
    (p.following testLow).afterDelay = true := by
  cases p <;> first | rfl | cases h

/-- A task has read its input at most once for each tick that has been counted. -/
theorem polls_past {tr : List (Board τ × Event τ)} {b : Board τ}
    (h : (responseSystem uxPriority idle).Execution tr b) (t : τ) :
    tr.countP (Polls idle t) ≤ ticks tr + 1 ∧
      ∃ q n wake, State.Consistent uxPriority idle b.sched q n wake ∧
        n + b.sched.kernel.uxMissedTicks.toNat ≤ ticks tr ∧
        if (b.point t).afterDelay then Past b.sched n wake t (tr.countP (Polls idle t))
        else tr.countP (Polls idle t) ≤ n + 1 := by
  refine System.Execution.induct (motive := fun tr b => tr.countP (Polls idle t) ≤ ticks tr + 1 ∧
    ∃ q n wake, State.Consistent uxPriority idle b.sched q n wake ∧
      n + b.sched.kernel.uxMissedTicks.toNat ≤ ticks tr ∧
      if (b.point t).afterDelay then Past b.sched n wake t (tr.countP (Polls idle t))
      else tr.countP (Polls idle t) ≤ n + 1) ?_ ?_ h
  · rintro b ⟨hstarted, hpoint, -⟩
    -- before the first tick no task has read its input
    obtain ⟨q, hc⟩ := hstarted.consistent
    obtain ⟨heap, first, others, -, -, -, -, hsched⟩ := hstarted
    have hsuspended : b.sched.kernel.uxSchedulerSuspended = 0 := by
      rw [hc.suspended, hsched]
      rfl
    refine ⟨Nat.zero_le _, q, 0, _, hc, ?_, ?_⟩
    · rw [(hc.missed hsuspended).1]
      rfl
    · rw [hpoint]
      exact .inr (.inr (le_refl _))
  · rintro tr b e b' - ⟨hcount, q, n, wake, hc, hticks, hpast⟩ hstep
    obtain ⟨q', n', wake', hc', hle, hticks', hkept, hcalled⟩ := Moves.past hc hstep
    obtain ⟨hpoint, -⟩ := step_task hstep t
    rw [ticks_snoc, List.countP_append, List.countP_singleton]
    by_cases he : Executes idle b e t
    · have hmissed := executes_missed hc hstep he
      have hrunning := executes_running hstep he
      rw [if_pos he] at hpoint
      by_cases hpoll : b.point t = .gpioPinIsLow
      · -- the ticks that the last delay was to wait for have been counted
        have hn : tr.countP (Polls idle t) ≤ n := by
          rw [hpoll] at hpast
          exact Past.of_running hc hpast he.2.1 hrunning
        have hpolls : Polls idle t (b, e) := ⟨he, hpoll⟩
        rw [if_pos (by simpa using hpolls)]
        refine ⟨by omega, q', n', wake', hc', by omega, ?_⟩
        have hnot : (b'.point t).afterDelay = false := by
          rw [hpoint, hpoll]
          cases b.testLow t <;> rfl
        rw [hnot, if_neg (by simp)]
        omega
      · have hpolls : ¬ Polls idle t (b, e) := fun hp => hpoll hp.2
        rw [if_neg (by simpa using hpolls), Nat.add_zero]
        refine ⟨by omega, q', n', wake', hc', by omega, ?_⟩
        cases hp : b.point t with
        | gpioPinIsLow => exact absurd hp hpoll
        | busyDelayMs =>
          rw [hp] at hpoint hpast
          rw [hpoint]
          exact le_trans hpast (by omega)
        | gpioSetPinLow =>
          rw [hp] at hpoint hpast
          rw [hpoint]
          exact le_trans hpast (by omega)
        | gpioSetPinHigh =>
          rw [hp] at hpoint hpast
          rw [hpoint]
          -- the read comes next, with no delay before it
          exact hkept t _ hpast
        | vTaskDelayLow =>
          rw [hp] at hpoint hpast
          rw [hpoint]
          exact hcalled t he (by rw [hp]; rfl) _ hpast
        | vTaskDelayElse =>
          rw [hp] at hpoint hpast
          rw [hpoint]
          exact hcalled t he (by rw [hp]; rfl) _ hpast
    · have hpolls : ¬ Polls idle t (b, e) := fun hp => he hp.1
      rw [if_neg he] at hpoint
      rw [if_neg (by simpa using hpolls), Nat.add_zero, hpoint]
      refine ⟨by omega, q', n', wake', hc', by omega, ?_⟩
      -- another step: the task waits for the ticks that it waited for
      split
      · rw [if_pos (by assumption)] at hpast
        exact hkept t _ hpast
      · rw [if_neg (by assumption)] at hpast
        omega

/-- A task reads its test input at most once for each tick, and once before the first. -/
theorem polls_le_ticks {tr : List (Board τ × Event τ)} {b : Board τ}
    (h : (responseSystem uxPriority idle).Execution tr b) (t : τ) :
    tr.countP (Polls idle t) ≤ ticks tr + 1 :=
  (polls_past h t).1

/-- B reads its input before and after the first tick. -/
theorem polls_le_ticks_demo : ∃ tr b,
    (responseSystem DemoTask.uxPriority .idle).Execution tr b ∧
    tr.countP (Polls DemoTask.idle .responseB) = 2 ∧ ticks tr = 1 ∧
    tr.countP (Polls DemoTask.idle .responseB) ≤ ticks tr + 1 := by
  obtain ⟨tr, b, hrun, hpolls, hticks⟩ :=
    (responseSystem DemoTask.uxPriority .idle).exists_run_of_replay demoBoard
      (List.flatten [[.statement, .statement, .statement], demoDelay, .statement :: demoDelay,
        [.vTick, .statement, .statement]])
      (fun tr _ => tr.countP (Polls DemoTask.idle .responseB) = 2 ∧ ticks tr = 1)
      (by decide +kernel)
  have hexec : (responseSystem DemoTask.uxPriority .idle).Execution tr b :=
    ⟨demoBoard, demoBoard_init, hrun⟩
  exact ⟨tr, b, hexec, hpolls, hticks, polls_le_ticks hexec .responseB⟩

/-! ## Priorities -/

/-- A task between a delay and the next one is ready. -/
theorem ready_between (h : (responseSystem uxPriority idle).Reachable b) :
    ∃ q n wake, State.Consistent uxPriority idle b.sched q n wake ∧
      ∀ t, (b.point t).afterDelay = false →
        wake t = none ∧ ∀ d, b.sched.pc t ≠ .delaying d := by
  apply h.invariant (I := fun b => ∃ q n wake,
    State.Consistent uxPriority idle b.sched q n wake ∧
      ∀ t, (b.point t).afterDelay = false → wake t = none ∧ ∀ d, b.sched.pc t ≠ .delaying d)
  · rintro b ⟨hstarted, hpoint, -⟩
    obtain ⟨q, hc⟩ := hstarted.consistent
    refine ⟨q, 0, _, hc, ?_⟩
    intro t ht
    rw [hpoint] at ht
    cases ht
  · rintro b e b' - ⟨q, n, wake, hc, hready⟩ hstep
    have hpoint := fun t => (step_task hstep t).1
    cases step_sched hstep with
    | quiet hsched htick hexecutes =>
      rw [hsched]
      refine ⟨q, n, wake, hc, ?_⟩
      intro t ht
      by_cases he : Executes idle b e t
      · -- the task that executes is neither delayed nor about to be
        have hrunning := executes_running hstep he
        obtain ⟨-, rfl, -⟩ := he
        refine ⟨hc.ready (by rw [hrunning]; simp) (by rw [hrunning]; simp), ?_⟩
        rw [hrunning]
        simp
      · rw [hpoint, if_neg he] at ht
        exact hready t ht
    | call hsched htick hexecutes hdelays =>
      obtain ⟨q', n', wake', hc', heffect, -⟩ := hc.step hsched
      refine ⟨q', n', wake', hc', ?_⟩
      intro t ht
      by_cases he : Executes idle b e t
      · -- the caller is in its delay now
        rw [hpoint, if_pos he, ← he.2.1] at ht
        rw [Point.afterDelay_following hdelays] at ht
        cases ht
      · rw [hpoint, if_neg he] at ht
        have hne : t ≠ b.sched.current := by
          rintro rfl
          exact he hexecutes
        refine ⟨ready_of_effect heffect (hready t ht).1 (hready t ht).2, ?_⟩
        rw [pc_of_call hne hsched]
        exact (hready t ht).2
    | kernel hsched htick hcall hexecutes =>
      obtain ⟨q', n', wake', hc', heffect, -⟩ := hc.step hsched
      refine ⟨q', n', wake', hc', ?_⟩
      intro t ht
      -- no task has moved, and the kernel wakes tasks only
      rw [hpoint, if_neg (hexecutes t)] at ht
      refine ⟨ready_of_effect heffect (hready t ht).1 (hready t ht).2, ?_⟩
      intro d hd
      exact (hready t ht).2 d (delaying_of_step hsched hcall hd)

/-- While a task has the processor all tasks of higher priority sleep, in one of the two delays of
their loop. -/
theorem higher_asleep (h : (responseSystem uxPriority idle).Reachable b) {u : τ}
    (hu : uxPriority b.sched.current < uxPriority u) :
    State.Asleep b.sched u ∧ (b.point u = .gpioSetPinHigh ∨ b.point u = .gpioPinIsLow) := by
  obtain ⟨q, n, wake, hc, hready⟩ := ready_between h
  cases hw : wake u with
  | none => exact absurd (hc.highest u hw) (not_le.2 hu)
  | some m =>
    refine ⟨hc.asleep hw, ?_⟩
    cases hp : b.point u with
    | gpioPinIsLow => exact .inr rfl
    | gpioSetPinHigh => exact .inl rfl
    | _ =>
      have hnone : wake u = none := (hready u (by rw [hp]; rfl)).1
      rw [hw] at hnone
      cases hnone

/-- C gets the processor when A and B have gone to sleep. -/
theorem higher_asleep_demo : ∃ b, (responseSystem DemoTask.uxPriority .idle).Reachable b ∧
    b.sched.current = .responseC ∧ State.Asleep b.sched .responseA ∧
    State.Asleep b.sched .responseB := by
  obtain ⟨tr, b, hrun, hcurrent⟩ :=
    (responseSystem DemoTask.uxPriority .idle).exists_run_of_replay demoBoard
      (List.flatten [[.statement, .statement, .statement], demoDelay, .statement :: demoDelay])
      (fun _ b => b.sched.current = .responseC) (by decide +kernel)
  have hreach : (responseSystem DemoTask.uxPriority .idle).Reachable b :=
    ⟨tr, demoBoard, demoBoard_init, hrun⟩
  exact ⟨b, hreach, hcurrent, (higher_asleep hreach (by rw [hcurrent]; decide)).1,
    (higher_asleep hreach (by rw [hcurrent]; decide)).1⟩

end Sanntid.FreeRTOS.Responses
