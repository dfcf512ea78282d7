import Sanntid.FreeRTOS.Lists

/-!
# The scheduler of the FreeRTOS kernel

The functions of `tasks.c` that create, delay and schedule tasks, over the memory of `list.c`, as
the demo is configured: a preemptive scheduler with eight priorities and 32-bit ticks. A task is on
the kernel's lists with its `xGenericListItem` only, since nothing in the demo waits for an event.

`none` stands for a failed `configASSERT`, a null dereference or a loop that does not end.
-/

set_option autoImplicit false

namespace Sanntid.FreeRTOS

/-- The setting in the configuration of the demo. -/
def configMAX_PRIORITIES : Nat := 8

/-- An index into `pxReadyTasksLists`. -/
abbrev Priority := Fin configMAX_PRIORITIES

/-- The priority of the idle task, the lowest. -/
def tskIDLE_PRIORITY : Priority := ⟨0, by decide⟩

/-- The lists a task can be on. -/
inductive ListId where
  | pxReadyTasksLists (uxPriority : Priority)
  | xDelayedTaskList1
  | xDelayedTaskList2
  deriving DecidableEq

/-- The file-private variables of `tasks.c`. -/
structure Kernel (τ : Type) where
  heap : Heap τ ListId
  pxCurrentTCB : τ
  pxDelayedTaskList : ListId
  pxOverflowDelayedTaskList : ListId
  xTickCount : PortTickType
  uxTopReadyPriority : Priority
  uxSchedulerSuspended : Nat
  uxMissedTicks : BitVec 32
  xMissedYield : Bool
  xNextTaskUnblockTime : PortTickType

namespace Kernel

/-! `uxPriority` is the member of the TCBs, which no function of the demo changes. -/

variable {τ : Type} [DecidableEq τ] (uxPriority : τ → Priority)

/-- The task comes last in the ready list of its priority, and may raise `uxTopReadyPriority`. -/
def prvAddTaskToReadyQueue (k : Kernel τ) (pxTCB : τ) : Kernel τ :=
  let k :=
    if k.uxTopReadyPriority < uxPriority pxTCB then
      { k with uxTopReadyPriority := uxPriority pxTCB }
    else k
  { k with heap := k.heap.vListInsertEnd (.pxReadyTasksLists (uxPriority pxTCB)) pxTCB }

/-- The `for(;;)` loop of `prvCheckDelayedTasks`, for at most `fuel` rounds. -/
def checkDelayedTasks : Nat → Kernel τ → Option (Kernel τ)
  | 0, _ => none
  | fuel + 1, k =>
    if k.heap.listLIST_IS_EMPTY k.pxDelayedTaskList then
      some { k with xNextTaskUnblockTime := portMAX_DELAY }
    else do
      let pxTCB ← k.heap.listGET_OWNER_OF_HEAD_ENTRY k.pxDelayedTaskList
      let xItemValue := k.heap.listGET_LIST_ITEM_VALUE pxTCB
      if k.xTickCount < xItemValue then
        some { k with xNextTaskUnblockTime := xItemValue }
      else
        let heap ← k.heap.vListRemove pxTCB
        checkDelayedTasks fuel (prvAddTaskToReadyQueue uxPriority { k with heap := heap } pxTCB)

/-- The delay list is looked at only when the first task on it is due. -/
def prvCheckDelayedTasks (k : Kernel τ) : Option (Kernel τ) :=
  if k.xNextTaskUnblockTime ≤ k.xTickCount then
    checkDelayedTasks uxPriority (k.heap.uxNumberOfItems k.pxDelayedTaskList + 1) k
  else some k

/-- The tick count has overflowed: the delay lists change places. -/
def swapDelayedLists (k : Kernel τ) : Option (Kernel τ) :=
  if k.heap.listLIST_IS_EMPTY k.pxDelayedTaskList then
    let k := { k with
      pxDelayedTaskList := k.pxOverflowDelayedTaskList
      pxOverflowDelayedTaskList := k.pxDelayedTaskList }
    if k.heap.listLIST_IS_EMPTY k.pxDelayedTaskList then
      some { k with xNextTaskUnblockTime := portMAX_DELAY }
    else do
      let pxTCB ← k.heap.listGET_OWNER_OF_HEAD_ENTRY k.pxDelayedTaskList
      some { k with xNextTaskUnblockTime := k.heap.listGET_LIST_ITEM_VALUE pxTCB }
  else none

/-- The tick is counted, or kept as missed while the scheduler is suspended; `uxMissedTicks` may
wrap. -/
def vTaskIncrementTick (k : Kernel τ) : Option (Kernel τ) :=
  if k.uxSchedulerSuspended = 0 then do
    let k := { k with xTickCount := k.xTickCount + 1 }
    let k ← (if k.xTickCount = 0 then k.swapDelayedLists else some k)
    k.prvCheckDelayedTasks uxPriority
  else some { k with uxMissedTicks := k.uxMissedTicks + 1 }

/-- The `while` loop of `vTaskSwitchContext`, from `uxTopReadyPriority` down. -/
def highestReady (heap : Heap τ ListId) :
    (uxTopReadyPriority : Nat) → uxTopReadyPriority < configMAX_PRIORITIES → Option Priority
  | 0, h =>
    if heap.listLIST_IS_EMPTY (.pxReadyTasksLists ⟨0, h⟩) then none else some ⟨0, h⟩
  | p + 1, h =>
    if heap.listLIST_IS_EMPTY (.pxReadyTasksLists ⟨p + 1, h⟩) then
      highestReady heap p (Nat.lt_of_succ_lt h)
    else some ⟨p + 1, h⟩

/-- The next task on the highest ready list that is not empty gets the processor, unless the
scheduler is suspended. -/
def vTaskSwitchContext (k : Kernel τ) : Option (Kernel τ) :=
  if k.uxSchedulerSuspended ≠ 0 then some { k with xMissedYield := true }
  else do
    let uxTopReadyPriority ←
      highestReady k.heap k.uxTopReadyPriority.val k.uxTopReadyPriority.isLt
    let (heap, pxTCB) ←
      k.heap.listGET_OWNER_OF_NEXT_ENTRY (.pxReadyTasksLists uxTopReadyPriority)
    some { k with
      uxTopReadyPriority := uxTopReadyPriority
      heap := heap
      pxCurrentTCB := pxTCB }

/-- Calls nest. -/
def vTaskSuspendAll (k : Kernel τ) : Kernel τ :=
  { k with uxSchedulerSuspended := k.uxSchedulerSuspended + 1 }

/-- The `while` loop of `xTaskResumeAll` over the ticks missed. -/
def unwindMissedTicks : Nat → Kernel τ → Option (Kernel τ)
  | 0, k => some k
  | n + 1, k => do
    let k ← k.vTaskIncrementTick uxPriority
    unwindMissedTicks n { k with uxMissedTicks := k.uxMissedTicks - 1 }

/-- The kernel and `xAlreadyYielded`. -/
def xTaskResumeAll (k : Kernel τ) : Option (Kernel τ × Bool) :=
  if k.uxSchedulerSuspended = 0 then none
  else
    let k := { k with uxSchedulerSuspended := k.uxSchedulerSuspended - 1 }
    if k.uxSchedulerSuspended = 0 then do
      let xYieldRequired := decide (0 < k.uxMissedTicks)
      let k ← unwindMissedTicks uxPriority k.uxMissedTicks.toNat k
      if xYieldRequired || k.xMissedYield then
        let k ← vTaskSwitchContext { k with xMissedYield := false }
        some (k, true)
      else some (k, false)
    else some (k, false)

/-- The current task goes on a delay list; a wake time below the tick count is one that has
overflowed. -/
def prvAddCurrentTaskToDelayedList (k : Kernel τ) (xTimeToWake : PortTickType) :
    Option (Kernel τ) :=
  let k := { k with heap := k.heap.listSET_LIST_ITEM_VALUE k.pxCurrentTCB xTimeToWake }
  if xTimeToWake < k.xTickCount then do
    let heap ← k.heap.vListInsert k.pxOverflowDelayedTaskList k.pxCurrentTCB
    some { k with heap := heap }
  else do
    let heap ← k.heap.vListInsert k.pxDelayedTaskList k.pxCurrentTCB
    if xTimeToWake < k.xNextTaskUnblockTime then
      some { k with heap := heap, xNextTaskUnblockTime := xTimeToWake }
    else some { k with heap := heap }

/-- What `vTaskDelay` does while the scheduler is suspended. -/
def delayCurrentTask (k : Kernel τ) (xTicksToDelay : PortTickType) : Option (Kernel τ) := do
  let xTimeToWake := k.xTickCount + xTicksToDelay
  let heap ← k.heap.vListRemove k.pxCurrentTCB
  prvAddCurrentTaskToDelayedList { k with heap := heap } xTimeToWake

/-- The tick interrupt: `vTaskIncrementTick`, and a context switch on the way out. -/
def vTick (k : Kernel τ) : Option (Kernel τ) := do
  let k ← k.vTaskIncrementTick uxPriority
  k.vTaskSwitchContext

/-! ## Start -/

/-- The lists in the order in which `prvInitialiseTaskLists` initialises them. -/
def taskLists : List ListId :=
  (List.finRange configMAX_PRIORITIES).map .pxReadyTasksLists ++
    [.xDelayedTaskList1, .xDelayedTaskList2]

/-- `xTaskGenericCreate` for the first task. The variables have their initial values. -/
def createFirst (heap : Heap τ ListId) (pxNewTCB : τ) : Kernel τ :=
  let k : Kernel τ :=
    { heap := taskLists.foldl Heap.vListInitialise (heap.vListInitialiseItem pxNewTCB)
      pxCurrentTCB := pxNewTCB
      pxDelayedTaskList := .xDelayedTaskList1
      pxOverflowDelayedTaskList := .xDelayedTaskList2
      xTickCount := 0
      uxTopReadyPriority := tskIDLE_PRIORITY
      uxSchedulerSuspended := 0
      uxMissedTicks := 0
      xMissedYield := false
      xNextTaskUnblockTime := portMAX_DELAY }
  k.prvAddTaskToReadyQueue uxPriority pxNewTCB

/-- `xTaskGenericCreate` for a further task, before the scheduler runs. -/
def xTaskGenericCreate (k : Kernel τ) (pxNewTCB : τ) : Kernel τ :=
  let k := { k with heap := k.heap.vListInitialiseItem pxNewTCB }
  let k :=
    if uxPriority k.pxCurrentTCB ≤ uxPriority pxNewTCB then { k with pxCurrentTCB := pxNewTCB }
    else k
  k.prvAddTaskToReadyQueue uxPriority pxNewTCB

/-- The tasks created in turn, and then the idle task by `vTaskStartScheduler`. -/
def vTaskStartScheduler (heap : Heap τ ListId) (pxFirst : τ) (pxOthers : List τ) (pxIdle : τ) :
    Kernel τ :=
  let k := pxOthers.foldl (xTaskGenericCreate uxPriority) (createFirst uxPriority heap pxFirst)
  { xTaskGenericCreate uxPriority k pxIdle with xTickCount := 0 }

end Kernel

end Sanntid.FreeRTOS
