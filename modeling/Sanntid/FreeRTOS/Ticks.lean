import Sanntid.FreeRTOS.Kernel
import Mathlib.Order.Fin.Basic
import Mathlib.Algebra.Group.Nat.Defs

/-!
# The delay lists over time

`Timed k q n wake` says how the kernel keeps time: after `n` ticks, counted without end, its 32-bit
tick count, its two delay lists and its ready lists stand for the tick `wake t` at which each task
`t` is to wake. `vTaskIncrementTick`, `xTaskResumeAll`, `vTaskDelay` and `vTaskSwitchContext` each
keep it, one theorem for each, and none of them fails: no assertion, no null dereference, no loop
without end. The tick count may overflow at any of these steps.
-/

set_option autoImplicit false

namespace Sanntid.FreeRTOS

/-- How often the tick count has overflowed when `n` ticks have been counted. -/
def epoch (n : Nat) : Nat := n / 2 ^ 32

theorem ofNat_le_ofNat {m n : Nat} (h : epoch m = epoch n) :
    BitVec.ofNat 32 m ≤ BitVec.ofNat 32 n ↔ m ≤ n := by
  rw [BitVec.le_def, BitVec.toNat_ofNat, BitVec.toNat_ofNat]
  unfold epoch at h
  omega

theorem ofNat_lt_ofNat {m n : Nat} (h : epoch m = epoch n) :
    BitVec.ofNat 32 m < BitVec.ofNat 32 n ↔ m < n := by
  rw [BitVec.lt_def, BitVec.toNat_ofNat, BitVec.toNat_ofNat]
  unfold epoch at h
  omega

namespace Kernel

open Heap

variable {τ : Type}

/-- The list that a task belongs on after `n` ticks, if it is to wake at `wake`. -/
def home (uxPriority : τ → Priority) (k : Kernel τ) (n : Nat) (wake : τ → Option Nat) (t : τ) :
    ListId :=
  match wake t with
  | none => .pxReadyTasksLists (uxPriority t)
  | some m => if epoch m = epoch n then k.pxDelayedTaskList else k.pxOverflowDelayedTaskList

/-- What the functions of the tick interrupt leave alone. -/
def frame (k : Kernel τ) : τ × Nat × BitVec 32 × Bool :=
  (k.pxCurrentTCB, k.uxSchedulerSuspended, k.uxMissedTicks, k.xMissedYield)

/-- The kernel when `n` ticks have been counted and task `t` is to wake at tick `wake t`, with
`none` for a task that is ready. A task may be due, but not overdue. -/
structure Timed (uxPriority : τ → Priority) (k : Kernel τ) (q : ListId → Queue τ) (n : Nat)
    (wake : τ → Option Nat) : Prop where
  represents : k.heap.Represents q
  distinct : k.pxDelayedTaskList ≠ k.pxOverflowDelayedTaskList
  notReady : ∀ p, k.pxDelayedTaskList ≠ .pxReadyTasksLists p ∧
    k.pxOverflowDelayedTaskList ≠ .pxReadyTasksLists p
  tick : k.xTickCount = BitVec.ofNat 32 n
  container : ∀ t, k.heap.pvContainer t = some (home uxPriority k n wake t)
  value : ∀ t m, wake t = some m → k.heap.xItemValue (.item t) = BitVec.ofNat 32 m
  ahead : ∀ t m, wake t = some m → n ≤ m ∧ m < n + 2 ^ 32
  sorted : ∀ l, (∀ p, l ≠ .pxReadyTasksLists p) → (q l).items.Pairwise fun t u =>
    k.heap.xItemValue (.item t) ≤ k.heap.xItemValue (.item u)
  next : ∀ t ∈ (q k.pxDelayedTaskList).items,
    k.xNextTaskUnblockTime ≤ k.heap.xItemValue (.item t)
  top : ∀ t, wake t = none → uxPriority t ≤ k.uxTopReadyPriority

/-- The wake times after the tasks due at tick `n` have been woken. -/
def wakeDue (wake : τ → Option Nat) (n : Nat) (t : τ) : Option Nat :=
  if wake t = some n then none else wake t

variable {uxPriority : τ → Priority} {k k' : Kernel τ} {q q' : ListId → Queue τ} {n n' m : Nat}
  {wake : τ → Option Nat} {t : τ}

theorem home_eq_ready (h : wake t = none) :
    home uxPriority k n wake t = .pxReadyTasksLists (uxPriority t) := by
  simp [home, h]

theorem home_eq_delayed (h : wake t = some m) (hm : epoch m = epoch n) :
    home uxPriority k n wake t = k.pxDelayedTaskList := by
  simp [home, h, hm]

theorem home_eq_overflow (h : wake t = some m) (hm : epoch m ≠ epoch n) :
    home uxPriority k n wake t = k.pxOverflowDelayedTaskList := by
  simp [home, h, hm]

theorem Timed.mem_iff (h : Timed uxPriority k q n wake) {l : ListId} :
    t ∈ (q l).items ↔ home uxPriority k n wake t = l := by
  rw [← h.represents.container, h.container, Option.some.injEq]

/-- The tasks on the current delay list are those to wake before the next overflow. -/
theorem Timed.mem_delayed (h : Timed uxPriority k q n wake) :
    t ∈ (q k.pxDelayedTaskList).items ↔ ∃ m, wake t = some m ∧ epoch m = epoch n := by
  rw [h.mem_iff]
  cases hw : wake t with
  | none => simp [home_eq_ready hw, (h.notReady _).1.symm]
  | some m =>
    by_cases hm : epoch m = epoch n
    · simp [home_eq_delayed hw hm, hm]
    · simp [home_eq_overflow hw hm, hm, h.distinct.symm]

/-- The same wake times, and the tick at which the head of the delay list is to be woken. -/
theorem Timed.setNextTaskUnblockTime (h : Timed uxPriority k q n wake) {x : PortTickType}
    (hx : ∀ t ∈ (q k.pxDelayedTaskList).items, x ≤ k.heap.xItemValue (.item t)) :
    Timed uxPriority { k with xNextTaskUnblockTime := x } q n wake :=
  ⟨h.represents, h.distinct, h.notReady, h.tick, h.container, h.value, h.ahead, h.sorted, hx, h.top⟩

/-- The time that a kernel keeps does not depend on its frame. -/
theorem Timed.setFrame (h : Timed uxPriority k q n wake) (pxTCB : τ) (suspended : Nat)
    (missed : BitVec 32) (yield : Bool) :
    Timed uxPriority
      { k with
        pxCurrentTCB := pxTCB
        uxSchedulerSuspended := suspended
        uxMissedTicks := missed
        xMissedYield := yield } q n wake :=
  ⟨h.represents, h.distinct, h.notReady, h.tick, h.container, h.value, h.ahead, h.sorted, h.next,
    h.top⟩

/-- No task is due. -/
def Settled (wake : τ → Option Nat) (n : Nat) : Prop := ∀ t, wake t ≠ some n

theorem wakeDue_eq_self (h : Settled wake n) : wakeDue wake n = wake := by
  funext t
  simp [wakeDue, h t]

theorem Timed.due_mem (h : Timed uxPriority k q n wake) (hw : wake t = some n) :
    t ∈ (q k.pxDelayedTaskList).items := h.mem_delayed.2 ⟨n, hw, rfl⟩

/-- The head of the delay list wakes first. -/
theorem Timed.head_le (h : Timed uxPriority k q n wake) {ts : List τ}
    (hitems : (q k.pxDelayedTaskList).items = t :: ts) :
    ∀ u ∈ (q k.pxDelayedTaskList).items,
      k.heap.xItemValue (.item t) ≤ k.heap.xItemValue (.item u) := by
  have hsorted := h.sorted k.pxDelayedTaskList fun p => (h.notReady p).1
  rw [hitems] at hsorted ⊢
  intro u hu
  rcases List.mem_cons.1 hu with rfl | hu
  · exact BitVec.le_refl _
  · exact (List.pairwise_cons.1 hsorted).1 u hu

theorem Timed.tick_succ (h : Timed uxPriority k q n wake) :
    k.xTickCount + 1 = BitVec.ofNat 32 (n + 1) := by
  rw [h.tick, BitVec.ofNat_add]
  rfl

/-- Between two overflows, a tick leaves every task on its list. -/
theorem Timed.countTick (h : Timed uxPriority k q n wake) (hsettled : Settled wake n)
    (hepoch : epoch (n + 1) = epoch n) :
    Timed uxPriority { k with xTickCount := k.xTickCount + 1 } q (n + 1) wake := by
  refine ⟨h.represents, h.distinct, h.notReady, ?_, ?_, h.value, ?_, h.sorted, h.next, h.top⟩
  · exact h.tick_succ
  · intro t
    rw [h.container t]
    simp only [home, hepoch]
  · intro t m hw
    have hahead := h.ahead t m hw
    have hne : m ≠ n := by
      rintro rfl
      exact hsettled t hw
    omega

/-- When the tick count overflows, the current delay list is empty and the lists change places. -/
theorem Timed.swapDelayedLists (h : Timed uxPriority k q n wake) (hsettled : Settled wake n)
    (hepoch : epoch (n + 1) ≠ epoch n) :
    ∃ k', Kernel.swapDelayedLists { k with xTickCount := k.xTickCount + 1 } = some k' ∧
      Timed uxPriority k' q (n + 1) wake ∧ k'.frame = k.frame := by
  have hwake : ∀ t m, wake t = some m → epoch m = epoch (n + 1) := by
    intro t m hw
    have hahead := h.ahead t m hw
    have hne : m ≠ n := by
      rintro rfl
      exact hsettled t hw
    unfold epoch at hepoch ⊢
    omega
  have hempty : (q k.pxDelayedTaskList).items = [] := by
    rw [List.eq_nil_iff_forall_not_mem]
    intro t ht
    obtain ⟨m, hw, hm⟩ := h.mem_delayed.1 ht
    exact hepoch ((hwake t m hw).symm.trans hm)
  -- the lists have changed places, whatever the next wake time
  have hswapped : Timed uxPriority
      { k with
        xTickCount := k.xTickCount + 1
        pxDelayedTaskList := k.pxOverflowDelayedTaskList
        pxOverflowDelayedTaskList := k.pxDelayedTaskList
        xNextTaskUnblockTime := 0 } q (n + 1) wake := by
    refine ⟨h.represents, h.distinct.symm, fun p => (h.notReady p).symm, ?_, ?_, h.value, ?_,
      h.sorted, fun _ _ => Nat.zero_le _, h.top⟩
    · exact h.tick_succ
    · intro t
      rw [h.container t]
      cases hw : wake t with
      | none => rw [home_eq_ready hw, home_eq_ready hw]
      | some m =>
        have hm := hwake t m hw
        rw [home_eq_delayed hw hm, home_eq_overflow hw (hm ▸ hepoch)]
    · intro t m hw
      have hahead := h.ahead t m hw
      have hne : m ≠ n := by
        rintro rfl
        exact hsettled t hw
      omega
  have hlist := h.represents.holds k.pxOverflowDelayedTaskList
  unfold Kernel.swapDelayedLists
  simp only [(h.represents.holds k.pxDelayedTaskList).listLIST_IS_EMPTY, hempty,
    hlist.listLIST_IS_EMPTY, hlist.listGET_OWNER_OF_HEAD_ENTRY, List.isEmpty_nil, if_true]
  cases hitems : (q k.pxOverflowDelayedTaskList).items with
  | nil =>
    refine ⟨_, rfl, hswapped.setNextTaskUnblockTime ?_, rfl⟩
    rw [hitems]
    intro t ht
    cases ht
  | cons t ts =>
    exact ⟨_, rfl, hswapped.setNextTaskUnblockTime (hswapped.head_le hitems), rfl⟩

/-- The tasks that are still to wake when `n` ticks have been counted. -/
def sleepers (wake : τ → Option Nat) (n : Nat) (t : τ) : Option Nat :=
  (wake t).filter fun m => n < m

theorem wakeDue_sleepers (wake : τ → Option Nat) (n : Nat) :
    wakeDue (sleepers wake n) (n + 1) = sleepers wake (n + 1) := by
  funext t
  unfold wakeDue sleepers
  cases wake t with
  | none => rfl
  | some m =>
    simp only [Option.filter_some]
    grind

theorem settled_sleepers (wake : τ → Option Nat) (n : Nat) : Settled (sleepers wake n) n := by
  intro t
  unfold sleepers
  cases wake t with
  | none => simp
  | some m =>
    simp only [Option.filter_some]
    grind

theorem sleepers_eq_none (h : wake t = none) (n : Nat) : sleepers wake n t = none := by
  simp [sleepers, h]

theorem Timed.sleepers_eq (h : Timed uxPriority k q n wake) (hsettled : Settled wake n) :
    sleepers wake n = wake := by
  funext t
  cases hw : wake t with
  | none => simp [sleepers, hw]
  | some m =>
    have hne : m ≠ n := by
      rintro rfl
      exact hsettled t hw
    have hlt : n < m := lt_of_le_of_ne (h.ahead t m hw).1 hne.symm
    simp [sleepers, hw, hlt]

theorem highestReady_eq {heap : Heap τ ListId} (hq : heap.Represents q) {p : Nat}
    (hp : p < configMAX_PRIORITIES)
    (hready : ∃ r : Priority, r.val ≤ p ∧ (q (.pxReadyTasksLists r)).items ≠ []) :
    ∃ r : Priority, highestReady heap p hp = some r ∧ (q (.pxReadyTasksLists r)).items ≠ [] ∧
      ∀ r' : Priority, r'.val ≤ p → (q (.pxReadyTasksLists r')).items ≠ [] → r' ≤ r := by
  induction p with
  | zero =>
    obtain ⟨r, hr, hne⟩ := hready
    obtain rfl : r = ⟨0, hp⟩ := Fin.ext (by simpa using hr)
    refine ⟨_, ?_, hne, ?_⟩
    · simp [highestReady, (hq.holds _).listLIST_IS_EMPTY, hne]
    · intro r' hr' _
      rw [Fin.le_def]
      exact hr'
  | succ p ih =>
    unfold highestReady
    rw [(hq.holds _).listLIST_IS_EMPTY]
    split
    next hempty =>
      -- the list is empty, and the highest one that is not is below
      have hnil : (q (.pxReadyTasksLists ⟨p + 1, hp⟩)).items = [] := by simpa using hempty
      have hbelow : ∀ r : Priority, r.val ≤ p + 1 → (q (.pxReadyTasksLists r)).items ≠ [] →
          r.val ≤ p := by
        intro r hr hne
        have hrne : r ≠ ⟨p + 1, hp⟩ := by
          rintro rfl
          exact hne hnil
        have : r.val ≠ p + 1 := fun heq => hrne (Fin.ext heq)
        omega
      obtain ⟨r, hr, hne⟩ := hready
      obtain ⟨r, hsome, hr, hmax⟩ := ih (Nat.lt_of_succ_lt hp) ⟨r, hbelow r hr hne, hne⟩
      exact ⟨r, hsome, hr, fun r' hr' hne' => hmax r' (hbelow r' hr' hne') hne'⟩
    next hne =>
      refine ⟨_, rfl, by simpa using hne, ?_⟩
      intro r' hr' _
      rw [Fin.le_def]
      exact hr'

variable [DecidableEq τ]

theorem prvAddTaskToReadyQueue_eq (k : Kernel τ) (t : τ) :
    prvAddTaskToReadyQueue uxPriority k t =
      { k with
        uxTopReadyPriority := max k.uxTopReadyPriority (uxPriority t)
        heap := k.heap.vListInsertEnd (.pxReadyTasksLists (uxPriority t)) t } := by
  unfold prvAddTaskToReadyQueue
  split
  next hlt => rw [max_eq_right hlt.le]
  next hge => rw [max_eq_left (not_lt.1 hge)]

/-- A task that is due is moved from the delay list to its ready list. -/
theorem Timed.wakeTask (h : Timed uxPriority k q n wake) (hw : wake t = some n) :
    ∃ heap q', k.heap.vListRemove t = some heap ∧
      Timed uxPriority (prvAddTaskToReadyQueue uxPriority { k with heap := heap } t) q' n
        (Function.update wake t none) ∧
      q' k.pxDelayedTaskList = (q k.pxDelayedTaskList).remove t ∧
      ∀ p, (q (.pxReadyTasksLists p)).service <+: (q' (.pxReadyTasksLists p)).service := by
  have hhome : home uxPriority k n wake t = k.pxDelayedTaskList := home_eq_delayed hw rfl
  have hcontainer : k.heap.pvContainer t = some k.pxDelayedTaskList := by
    rw [h.container, hhome]
  obtain ⟨heap, hremove, hvalue, hcontainers, hq⟩ := h.represents.vListRemove hcontainer
  have hfree : heap.pvContainer t = none := by
    rw [hcontainers, Function.update_self]
  -- the ready list of the task, which is neither of the delay lists
  obtain ⟨R, hR⟩ : ∃ R, R = ListId.pxReadyTasksLists (uxPriority t) := ⟨_, rfl⟩
  obtain ⟨hnotD, hnotO⟩ := h.notReady (uxPriority t)
  rw [← hR] at hnotD hnotO
  have hready := hq.vListInsertEnd hfree R
  rw [Function.update_of_ne hnotD.symm] at hready
  have hnodup := (h.represents.holds k.pxDelayedTaskList).nodup
  refine ⟨heap, Function.update
    (Function.update q k.pxDelayedTaskList ((q k.pxDelayedTaskList).remove t)) R
    ((q R).insertEnd t), hremove, ?_, ?_, ?_⟩
  · rw [prvAddTaskToReadyQueue_eq, ← hR]
    refine ⟨hready, h.distinct, h.notReady, h.tick, ?_, ?_, ?_, ?_, ?_, ?_⟩
    · intro u
      rcases eq_or_ne u t with rfl | hu
      · simp [home, hR]
      · have hcu := h.container u
        simp only [pvContainer_vListInsertEnd, home, Function.update_of_ne hu, hcontainers]
        exact hcu
    · intro u m hum
      rcases eq_or_ne u t with rfl | hu
      · simp at hum
      · rw [Function.update_of_ne hu] at hum
        simpa [hvalue] using h.value u m hum
    · intro u m hum
      rcases eq_or_ne u t with rfl | hu
      · simp at hum
      · rw [Function.update_of_ne hu] at hum
        exact h.ahead u m hum
    · intro l hl
      -- the delay lists still ascend, one of them without `t`
      rw [Function.update_of_ne (hR ▸ hl _)]
      have hsorted := h.sorted l hl
      rcases eq_or_ne l k.pxDelayedTaskList with rfl | hlD
      · rw [Function.update_self, Queue.items_remove _ _ hnodup]
        simpa [hvalue] using hsorted.sublist List.erase_sublist
      · rw [Function.update_of_ne hlD]
        simpa [hvalue] using hsorted
    · intro u hu
      simp only [Function.update_of_ne hnotD, Function.update_self,
        Queue.items_remove _ _ hnodup] at hu
      simpa [hvalue] using h.next u (List.mem_of_mem_erase hu)
    · intro u hu
      rcases eq_or_ne u t with rfl | hut
      · exact le_max_right _ _
      · rw [Function.update_of_ne hut] at hu
        exact (h.top u hu).trans (le_max_left _ _)
  · rw [Function.update_of_ne hnotD, Function.update_self]
  · intro p
    rcases eq_or_ne (.pxReadyTasksLists p) R with hp | hp
    · rw [hp, Function.update_self, Queue.service_insertEnd]
      exact List.prefix_append _ _
    · rw [Function.update_of_ne hp, Function.update_of_ne ((h.notReady p).1.symm)]

theorem wakeDue_update (hw : wake t = some n) :
    wakeDue (Function.update wake t none) n = wakeDue wake n := by
  funext u
  rcases eq_or_ne u t with rfl | hu
  · simp [wakeDue, hw]
  · simp [wakeDue, hu]

/-- The loop of `prvCheckDelayedTasks` wakes exactly the tasks that are due, and ends. -/
theorem Timed.checkDelayedTasks (h : Timed uxPriority k q n wake) {fuel : Nat}
    (hfuel : (q k.pxDelayedTaskList).items.length < fuel) :
    ∃ k' q', checkDelayedTasks uxPriority fuel k = some k' ∧
      Timed uxPriority k' q' n (wakeDue wake n) ∧ k'.frame = k.frame ∧
      ∀ p, (q (.pxReadyTasksLists p)).service <+: (q' (.pxReadyTasksLists p)).service := by
  induction fuel generalizing k q wake with
  | zero => cases hfuel
  | succ fuel ih =>
    have hlist := h.represents.holds k.pxDelayedTaskList
    unfold Kernel.checkDelayedTasks
    rw [hlist.listLIST_IS_EMPTY, hlist.listGET_OWNER_OF_HEAD_ENTRY]
    cases hitems : (q k.pxDelayedTaskList).items with
    | nil =>
      -- no task is left on the list, so none is due
      have hsettled : Settled wake n := by
        intro t hw
        have hmem := h.due_mem hw
        rw [hitems] at hmem
        cases hmem
      refine ⟨_, q, rfl, ?_, rfl, fun p => List.prefix_refl _⟩
      rw [wakeDue_eq_self hsettled]
      apply h.setNextTaskUnblockTime
      rw [hitems]
      intro t ht
      cases ht
    | cons t ts =>
      have ht : t ∈ (q k.pxDelayedTaskList).items := by
        rw [hitems]
        exact List.mem_cons_self
      obtain ⟨m, hw, hm⟩ := h.mem_delayed.1 ht
      have hvalue : k.heap.xItemValue (.item t) = BitVec.ofNat 32 m := h.value t m hw
      have hdue : k.xTickCount < k.heap.xItemValue (.item t) ↔ n < m := by
        rw [h.tick, hvalue, ofNat_lt_ofNat hm.symm]
      simp only [List.isEmpty_cons, Bool.false_eq_true, if_false, List.head?_cons,
        Option.bind_eq_bind, Option.bind_some, listGET_LIST_ITEM_VALUE, hdue]
      split
      next hlt =>
        -- the first task is not due, and the others wake no earlier
        have hsettled : Settled wake n := by
          intro u hu
          have hle := h.head_le hitems u (h.due_mem hu)
          rw [hvalue, h.value u n hu, ofNat_le_ofNat hm] at hle
          omega
        refine ⟨_, q, rfl, ?_, rfl, fun p => List.prefix_refl _⟩
        rw [wakeDue_eq_self hsettled]
        apply h.setNextTaskUnblockTime
        exact h.head_le hitems
      next hge =>
        -- the first task is due: it is woken, and the loop goes on with a shorter list
        obtain rfl : m = n := le_antisymm (not_lt.1 hge) (h.ahead t m hw).1
        obtain ⟨heap, q₁, hremove, h₁, hq₁, hkept₁⟩ := h.wakeTask hw
        have hfuel₁ : (q₁ (prvAddTaskToReadyQueue uxPriority
            { k with heap := heap } t).pxDelayedTaskList).items.length < fuel := by
          have hnodup := hlist.nodup
          have hlength : ((q k.pxDelayedTaskList).remove t).items.length = ts.length := by
            rw [Queue.items_remove _ _ hnodup, hitems, List.erase_cons_head]
          rw [prvAddTaskToReadyQueue_eq, hq₁, hlength]
          rw [hitems, List.length_cons] at hfuel
          omega
        obtain ⟨k', q', hloop, h', hframe, hkept⟩ := ih h₁ hfuel₁
        rw [wakeDue_update hw] at h'
        refine ⟨k', q', ?_, h', ?_, fun p => (hkept₁ p).trans (hkept p)⟩
        · rw [hremove]
          exact hloop
        · rw [hframe, prvAddTaskToReadyQueue_eq]
          rfl

theorem Timed.prvCheckDelayedTasks (h : Timed uxPriority k q n wake) :
    ∃ k' q', prvCheckDelayedTasks uxPriority k = some k' ∧
      Timed uxPriority k' q' n (wakeDue wake n) ∧ k'.frame = k.frame ∧
      ∀ p, (q (.pxReadyTasksLists p)).service <+: (q' (.pxReadyTasksLists p)).service := by
  unfold Kernel.prvCheckDelayedTasks
  split
  next hle =>
    apply h.checkDelayedTasks
    rw [(h.represents.holds _).number]
    exact Nat.lt_succ_self _
  next hlt =>
    have hsettled : Settled wake n := by
      intro t hw
      apply hlt
      have hnext := h.next t (h.due_mem hw)
      rwa [h.value t n hw, ← h.tick] at hnext
    refine ⟨k, q, rfl, ?_, rfl, fun p => List.prefix_refl _⟩
    rwa [wakeDue_eq_self hsettled]

/-- One tick: the tick count goes on, and the tasks to wake at the new tick are ready. -/
theorem Timed.vTaskIncrementTick (h : Timed uxPriority k q n wake) (hsettled : Settled wake n)
    (hrunning : k.uxSchedulerSuspended = 0) :
    ∃ k' q', Kernel.vTaskIncrementTick uxPriority k = some k' ∧
      Timed uxPriority k' q' (n + 1) (wakeDue wake (n + 1)) ∧ k'.frame = k.frame ∧
      ∀ p, (q (.pxReadyTasksLists p)).service <+: (q' (.pxReadyTasksLists p)).service := by
  have hzero : k.xTickCount + 1 = 0 ↔ epoch (n + 1) ≠ epoch n := by
    rw [h.tick_succ, ← BitVec.toNat_inj, BitVec.toNat_ofNat]
    change (n + 1) % 2 ^ 32 = 0 ↔ _
    unfold epoch
    omega
  unfold Kernel.vTaskIncrementTick
  rw [if_pos hrunning]
  by_cases hepoch : epoch (n + 1) = epoch n
  · -- no overflow: the lists keep their parts
    have hcount := h.countTick hsettled hepoch
    obtain ⟨k', q', hcheck, h', hframe, hkept⟩ := hcount.prvCheckDelayedTasks
    refine ⟨k', q', ?_, h', hframe, hkept⟩
    simp only [hzero, hepoch, ne_eq, not_true, if_false, Option.bind_eq_bind, Option.bind_some]
    exact hcheck
  · -- the tick count overflows to 0, and the delay lists change places
    obtain ⟨k₁, hswap, h₁, hframe₁⟩ := h.swapDelayedLists hsettled hepoch
    obtain ⟨k', q', hcheck, h', hframe, hkept⟩ := h₁.prvCheckDelayedTasks
    refine ⟨k', q', ?_, h', hframe.trans hframe₁, hkept⟩
    simp only [hzero, hepoch, ne_eq, not_false_eq_true, if_true, Option.bind_eq_bind, hswap,
      Option.bind_some]
    exact hcheck

/-- A ready task that goes to sleep for `d` ticks moves to the delay list of its wake time. -/
theorem Timed.delayCurrentTask (h : Timed uxPriority k q n wake)
    (hw : wake k.pxCurrentTCB = none) {d : PortTickType} (hd : 0 < d) :
    ∃ k' q', Kernel.delayCurrentTask k d = some k' ∧
      Timed uxPriority k' q' n (Function.update wake k.pxCurrentTCB (some (n + d.toNat))) ∧
      k'.frame = k.frame ∧
      ∀ p, (q' (.pxReadyTasksLists p)).service =
        (q (.pxReadyTasksLists p)).service.erase k.pxCurrentTCB := by
  obtain ⟨t, ht⟩ : ∃ t, t = k.pxCurrentTCB := ⟨_, rfl⟩
  obtain ⟨m, hm⟩ : ∃ m, m = n + d.toNat := ⟨_, rfl⟩
  rw [← ht] at hw ⊢
  rw [← hm]
  have hd' : 0 < d.toNat := hd
  have hwake : k.xTickCount + d = BitVec.ofNat 32 m := by
    rw [h.tick, hm, BitVec.ofNat_add, BitVec.ofNat_toNat, BitVec.setWidth_eq]
  have hdlt := d.isLt
  have hoverflow : BitVec.ofNat 32 m < k.xTickCount ↔ epoch m ≠ epoch n := by
    rw [h.tick, BitVec.lt_def, BitVec.toNat_ofNat, BitVec.toNat_ofNat]
    unfold epoch
    omega
  have hcontainer := h.container t
  rw [home_eq_ready hw] at hcontainer
  obtain ⟨heap₁, hremove, hvalue₁, hcontainers₁, hq₁⟩ := h.represents.vListRemove hcontainer
  have hfree : heap₁.pvContainer t = none := by
    rw [hcontainers₁, Function.update_self]
  -- the delay list on which the task goes
  obtain ⟨l, hl⟩ : ∃ l, l = if epoch m = epoch n then k.pxDelayedTaskList
    else k.pxOverflowDelayedTaskList := ⟨_, rfl⟩
  have hnot : ∀ p, l ≠ .pxReadyTasksLists p := by
    intro p
    rw [hl]
    split
    · exact (h.notReady p).1
    · exact (h.notReady p).2
  obtain ⟨heap₂, hinsert, hvalue₂, hcontainers₂, hq₂⟩ :=
    (hq₁.setItemValue t (BitVec.ofNat 32 m)).vListInsert hfree l
  rw [Function.update_of_ne (hnot _)] at hq₂
  have hvalue : ∀ u ≠ t, heap₂.xItemValue (.item u) = k.heap.xItemValue (.item u) := by
    intro u hu
    simp [hvalue₂, setItemValue, hvalue₁, hu]
  have hvalueself : heap₂.xItemValue (.item t) = BitVec.ofNat 32 m := by
    simp [hvalue₂, setItemValue]
  have hnotmem : ∀ l, (∀ p, l ≠ .pxReadyTasksLists p) → ∀ u ∈ (q l).items, u ≠ t := by
    rintro l hl u hu rfl
    rw [h.mem_iff, home_eq_ready hw] at hu
    exact hl _ hu.symm
  have hsorted : ∀ l, (∀ p, l ≠ .pxReadyTasksLists p) → (q l).items.Pairwise fun u v =>
      heap₂.xItemValue (.item u) ≤ heap₂.xItemValue (.item v) := by
    intro l hl
    apply (h.sorted l hl).imp_of_mem
    intro u v hu hv huv
    rwa [hvalue u (hnotmem l hl u hu), hvalue v (hnotmem l hl v hv)]
  have hitems := Queue.items_insert (q l)
    ((heap₁.setItemValue (.item t) (BitVec.ofNat 32 m)).notGreater t) t
  obtain ⟨x, hx⟩ : ∃ x, x = if epoch m = epoch n ∧ BitVec.ofNat 32 m < k.xNextTaskUnblockTime
    then BitVec.ofNat 32 m else k.xNextTaskUnblockTime := ⟨_, rfl⟩
  refine ⟨{ k with heap := heap₂, xNextTaskUnblockTime := x }, _, ?_,
    ⟨hq₂, h.distinct, h.notReady, h.tick, ?_, ?_, ?_, ?_, ?_, ?_⟩, rfl, ?_⟩
  · simp only [Kernel.delayCurrentTask, prvAddCurrentTaskToDelayedList, listSET_LIST_ITEM_VALUE,
      ← ht, hremove, hwake, Option.bind_eq_bind, Option.bind_some, hoverflow]
    by_cases hepoch : epoch m = epoch n
    · rw [if_pos hepoch] at hl
      rw [if_neg (not_not.2 hepoch), ← hl, hinsert, Option.bind_some, hx]
      simp only [hepoch, true_and]
      split <;> rfl
    · rw [if_neg hepoch] at hl
      rw [if_pos hepoch, ← hl, hinsert, Option.bind_some, hx, if_neg (fun h => hepoch h.1)]
  · intro u
    rcases eq_or_ne u t with rfl | hu
    · simp [hcontainers₂, home, hl]
    · have hcu := h.container u
      simp only [hcontainers₂, Function.update_of_ne hu, home]
      simpa [setItemValue, hcontainers₁, hu, home] using hcu
  · intro u m' hum
    rcases eq_or_ne u t with rfl | hu
    · obtain rfl : m = m' := by simpa using hum
      exact hvalueself
    · rw [Function.update_of_ne hu] at hum
      rw [hvalue u hu]
      exact h.value u m' hum
  · intro u m' hum
    rcases eq_or_ne u t with rfl | hu
    · obtain rfl : m = m' := by simpa using hum
      omega
    · rw [Function.update_of_ne hu] at hum
      exact h.ahead u m' hum
  · intro l' hl'
    rcases eq_or_ne l' l with rfl | hne
    · rw [Function.update_self, hitems]
      rw [hvalue₂] at hsorted ⊢
      exact Queue.pairwise_takeWhile_cons_dropWhile (hsorted l' hl')
    · rw [Function.update_of_ne hne, Function.update_of_ne (hl' _)]
      exact hsorted l' hl'
  · intro u hu
    have hxnext : x ≤ k.xNextTaskUnblockTime := by
      rw [hx]
      split
      next hlt => exact BitVec.le_of_lt hlt.2
      next => exact BitVec.le_refl _
    have hold : ∀ u ∈ (q k.pxDelayedTaskList).items, x ≤ heap₂.xItemValue (.item u) := by
      intro u hu
      rw [hvalue u (hnotmem _ (fun p => (h.notReady p).1) u hu)]
      exact BitVec.le_trans hxnext (h.next u hu)
    by_cases hepoch : epoch m = epoch n
    · rw [if_pos hepoch] at hl
      simp only [hl, Function.update_self, Queue.mem_items_insert] at hu
      rcases hu with rfl | hu
      · change x ≤ heap₂.xItemValue (.item u)
        rw [hvalueself, hx]
        split
        next => exact BitVec.le_refl _
        next hge => exact BitVec.not_lt.1 fun hlt => hge ⟨hepoch, hlt⟩
      · exact hold u hu
    · rw [if_neg hepoch] at hl
      simp only [hl, Function.update_of_ne h.distinct,
        Function.update_of_ne (h.notReady _).1] at hu
      exact hold u hu
  · intro u hu
    rcases eq_or_ne u t with rfl | hut
    · simp at hu
    · rw [Function.update_of_ne hut] at hu
      exact h.top u hu
  · intro p
    rw [Function.update_of_ne (hnot p).symm]
    rcases eq_or_ne p (uxPriority t) with rfl | hp
    · rw [Function.update_self, Queue.service_remove _ _ (h.represents.holds _).nodup]
    · rw [Function.update_of_ne (by simpa using hp), List.erase_of_not_mem]
      rw [Queue.mem_service, h.mem_iff, home_eq_ready hw]
      simpa using hp.symm

/-! ## The ticks missed -/

/-- The ticks missed are made up for one by one: no wake time is passed over. -/
theorem Timed.unwindMissedTicks (h : Timed uxPriority k q n (sleepers wake n))
    (hrunning : k.uxSchedulerSuspended = 0) (j : Nat) :
    ∃ k' q', Kernel.unwindMissedTicks uxPriority j k = some k' ∧
      Timed uxPriority k' q' (n + j) (sleepers wake (n + j)) ∧
      k'.frame = (k.pxCurrentTCB, 0, k.uxMissedTicks - BitVec.ofNat 32 j, k.xMissedYield) ∧
      ∀ p, (q (.pxReadyTasksLists p)).service <+: (q' (.pxReadyTasksLists p)).service := by
  induction j generalizing k q n with
  | zero =>
    refine ⟨k, q, rfl, h, ?_, fun p => List.prefix_refl _⟩
    simp [frame, hrunning]
  | succ j ih =>
    obtain ⟨k₁, q₁, htick, h₁, hframe₁, hkept₁⟩ :=
      h.vTaskIncrementTick (settled_sleepers wake n) hrunning
    rw [wakeDue_sleepers] at h₁
    simp only [frame, Prod.mk.injEq] at hframe₁
    obtain ⟨hcurrent, hsuspended, hmissed, hyield⟩ := hframe₁
    -- one missed tick less to make up for
    have h₂ : Timed uxPriority { k₁ with uxMissedTicks := k₁.uxMissedTicks - 1 } q₁ (n + 1)
        (sleepers wake (n + 1)) :=
      h₁.setFrame _ _ _ _
    obtain ⟨k', q', hunwind, h', hframe, hkept⟩ := ih h₂ (hsuspended.trans hrunning)
    refine ⟨k', q', ?_, ?_, ?_, fun p => (hkept₁ p).trans (hkept p)⟩
    · simp only [Kernel.unwindMissedTicks, htick, Option.bind_eq_bind, Option.bind_some]
      exact hunwind
    · rwa [Nat.add_assoc, Nat.add_comm 1] at h'
    · rw [hframe]
      simp only [hcurrent, hmissed, hyield, Prod.mk.injEq, true_and, and_true]
      rw [Nat.add_comm j, BitVec.ofNat_add]
      bv_omega

/-! ## The context switch -/

/-- The context switch takes the task whose turn it is among the ready tasks of the highest
priority. -/
theorem Timed.vTaskSwitchContext (h : Timed uxPriority k q n wake)
    (hrunning : k.uxSchedulerSuspended = 0) (hready : wake t = none) :
    ∃ k' u us, Kernel.vTaskSwitchContext k = some k' ∧
      (q (.pxReadyTasksLists (uxPriority u))).service = u :: us ∧
      Timed uxPriority k' (Function.update q (.pxReadyTasksLists (uxPriority u))
        (q (.pxReadyTasksLists (uxPriority u))).advance) n wake ∧
      wake u = none ∧ (∀ v, wake v = none → uxPriority v ≤ uxPriority u) ∧
      k'.frame = (u, k.uxSchedulerSuspended, k.uxMissedTicks, k.xMissedYield) := by
  -- a ready task is on its ready list, so `highestReady` finds one
  have hmem : ∀ v, wake v = none → (q (.pxReadyTasksLists (uxPriority v))).items ≠ [] := by
    intro v hv hnil
    have hvmem : v ∈ (q (.pxReadyTasksLists (uxPriority v))).items :=
      h.mem_iff.2 (home_eq_ready hv)
    rw [hnil] at hvmem
    cases hvmem
  obtain ⟨r, hsome, hne, hmax⟩ := highestReady_eq h.represents k.uxTopReadyPriority.isLt
    ⟨uxPriority t, h.top t hready, hmem t hready⟩
  obtain ⟨u, us, hservice⟩ : ∃ u us, (q (.pxReadyTasksLists r)).service = u :: us := by
    rw [← List.ne_nil_iff_exists_cons]
    intro hnil
    apply hne
    rw [List.eq_nil_iff_forall_not_mem]
    intro v hv
    rw [← Queue.mem_service, hnil] at hv
    cases hv
  have humem : u ∈ (q (.pxReadyTasksLists r)).items := by
    rw [← Queue.mem_service, hservice]
    exact List.mem_cons_self
  -- whoever is on that list is ready and has that priority
  obtain ⟨hu, rfl⟩ : wake u = none ∧ uxPriority u = r := by
    rw [h.mem_iff, home] at humem
    split at humem
    next hu => exact ⟨hu, by simpa using humem⟩
    next m hu =>
      split at humem
      · exact absurd humem (h.notReady r).1
      · exact absurd humem (h.notReady r).2
  have hhighest : ∀ v, wake v = none → uxPriority v ≤ uxPriority u :=
    fun v hv => hmax _ (h.top v hv) (hmem v hv)
  obtain ⟨heap, hnext, hvalue, hcontainer, hq⟩ :=
    h.represents.listGET_OWNER_OF_NEXT_ENTRY hservice
  refine ⟨{ k with
    uxTopReadyPriority := uxPriority u
    heap := heap
    pxCurrentTCB := u }, u, us, ?_, hservice,
    ⟨hq, h.distinct, h.notReady, h.tick, ?_, ?_, h.ahead, ?_, ?_, hhighest⟩, hu, hhighest, rfl⟩
  · simp [Kernel.vTaskSwitchContext, hrunning, hsome, hnext]
  · intro v
    rw [hcontainer]
    exact h.container v
  · intro v m hv
    rw [hvalue]
    exact h.value v m hv
  · intro l hl
    rw [Function.update_of_ne (hl _), hvalue]
    exact h.sorted l hl
  · intro v hv
    rw [Function.update_of_ne (h.notReady _).1] at hv
    rw [hvalue]
    exact h.next v hv

/-! ## The three ways to a context switch -/

/-- Some ticks have been counted, up to `n'`, and the tasks woken by them appended to the ready
lists. Then the turn has gone to task `u`, and nothing is left to make up for. -/
structure Switched (uxPriority : τ → Priority) (q : ListId → Queue τ) (n : Nat)
    (wake : τ → Option Nat) (k' : Kernel τ) (q₁ : ListId → Queue τ) (n' : Nat) (u : τ) : Prop where
  later : n ≤ n'
  appended : ∀ p, (q (.pxReadyTasksLists p)).service <+: (q₁ (.pxReadyTasksLists p)).service
  turn : ∃ us, (q₁ (.pxReadyTasksLists (uxPriority u))).service = u :: us
  timed : Timed uxPriority k' (Function.update q₁ (.pxReadyTasksLists (uxPriority u))
    (q₁ (.pxReadyTasksLists (uxPriority u))).advance) n' (sleepers wake n')
  ready : sleepers wake n' u = none
  highest : ∀ v, sleepers wake n' v = none → uxPriority v ≤ uxPriority u
  frame : k'.frame = (u, 0, 0, false)

variable {idle : τ}

/-- A context switch when the ticks up to `n'` have been counted. -/
theorem Timed.switched (h : Timed uxPriority k q' n' (sleepers wake n')) (hlater : n ≤ n')
    (hkept : ∀ p, (q (.pxReadyTasksLists p)).service <+: (q' (.pxReadyTasksLists p)).service)
    (hidle : wake idle = none) (hframe : k.frame = (k.pxCurrentTCB, 0, 0, false)) :
    ∃ k' u, Kernel.vTaskSwitchContext k = some k' ∧
      Switched uxPriority q n wake k' q' n' u := by
  simp only [Kernel.frame, Prod.mk.injEq, true_and] at hframe
  obtain ⟨hrunning, hmissed, hyield⟩ := hframe
  obtain ⟨k', u, us, hswitch, hservice, h', hu, hhighest, hframe'⟩ :=
    h.vTaskSwitchContext hrunning (sleepers_eq_none hidle n')
  rw [hrunning, hmissed, hyield] at hframe'
  exact ⟨k', u, hswitch, hlater, hkept, ⟨us, hservice⟩, h', hu, hhighest, hframe'⟩

theorem Timed.switched_of_yield (h : Timed uxPriority k q n wake) (hsettled : Settled wake n)
    (hidle : wake idle = none) (hframe : k.frame = (k.pxCurrentTCB, 0, 0, false)) :
    ∃ k' u, Kernel.vTaskSwitchContext k = some k' ∧ Switched uxPriority q n wake k' q n u := by
  rw [← h.sleepers_eq hsettled] at h
  exact h.switched (le_refl n) (fun p => List.prefix_refl _) hidle hframe

theorem Timed.switched_of_vTick (h : Timed uxPriority k q n wake) (hsettled : Settled wake n)
    (hidle : wake idle = none) (hframe : k.frame = (k.pxCurrentTCB, 0, 0, false)) :
    ∃ k' q₁ u, Kernel.vTick uxPriority k = some k' ∧
      Switched uxPriority q n wake k' q₁ (n + 1) u := by
  have hrunning : k.uxSchedulerSuspended = 0 := congrArg (fun f => f.2.1) hframe
  obtain ⟨k₁, q₁, htick, h₁, hframe₁, hkept⟩ := h.vTaskIncrementTick hsettled hrunning
  rw [← h.sleepers_eq hsettled, wakeDue_sleepers] at h₁
  have hcurrent : k₁.pxCurrentTCB = k.pxCurrentTCB := congrArg (fun f => f.1) hframe₁
  obtain ⟨k', u, hswitch, hswitched⟩ := h₁.switched (Nat.le_succ n) hkept hidle
    (by rw [hframe₁, hframe, hcurrent])
  refine ⟨k', q₁, u, ?_, hswitched⟩
  simp only [Kernel.vTick, htick, Option.bind_eq_bind, Option.bind_some]
  exact hswitch

/-- While the scheduler is suspended, the tick interrupt is only noted. -/
theorem vTick_of_suspended (hsuspended : k.uxSchedulerSuspended ≠ 0) :
    Kernel.vTick uxPriority k =
      some { k with uxMissedTicks := k.uxMissedTicks + 1, xMissedYield := true } := by
  simp [Kernel.vTick, Kernel.vTaskIncrementTick, Kernel.vTaskSwitchContext, hsuspended]

/-- `xTaskResumeAll` makes up for the ticks missed and then yields, or has nothing to do. -/
theorem Timed.xTaskResumeAll (h : Timed uxPriority k q n wake) (hsettled : Settled wake n)
    (hidle : wake idle = none) (hsuspended : k.uxSchedulerSuspended = 1) :
    (∃ k' q₁ u, Kernel.xTaskResumeAll uxPriority k = some (k', true) ∧
      Switched uxPriority q n wake k' q₁ (n + k.uxMissedTicks.toNat) u ∧
      (decide (0 < k.uxMissedTicks) || k.xMissedYield) = true) ∨
    (Kernel.xTaskResumeAll uxPriority k = some ({ k with uxSchedulerSuspended := 0 }, false) ∧
      k.uxMissedTicks = 0 ∧ k.xMissedYield = false) := by
  have h₀ : Timed uxPriority { k with uxSchedulerSuspended := 0 } q n (sleepers wake n) := by
    rw [h.sleepers_eq hsettled]
    exact h.setFrame _ _ _ _
  obtain ⟨k₁, q₁, hunwind, h₁, hframe₁, hkept⟩ := h₀.unwindMissedTicks rfl k.uxMissedTicks.toNat
  simp only [BitVec.ofNat_toNat, BitVec.setWidth_eq, BitVec.sub_self] at hframe₁
  have hyield : k₁.xMissedYield = k.xMissedYield := congrArg (fun f => f.2.2.2) hframe₁
  have hresume : Kernel.xTaskResumeAll uxPriority k =
      if decide (0 < k.uxMissedTicks) || k.xMissedYield then
        (Kernel.vTaskSwitchContext { k₁ with xMissedYield := false }).bind fun k => some (k, true)
      else some (k₁, false) := by
    simp only [Kernel.xTaskResumeAll, hsuspended, Nat.sub_self, if_true, Nat.one_ne_zero, if_false,
      hunwind, Option.bind_eq_bind, Option.bind_some, hyield]
  rw [hresume]
  split
  next hcond =>
    left
    have h₂ : Timed uxPriority { k₁ with xMissedYield := false } q₁
        (n + k.uxMissedTicks.toNat) (sleepers wake (n + k.uxMissedTicks.toNat)) :=
      h₁.setFrame _ _ _ _
    simp only [Kernel.frame, Prod.mk.injEq] at hframe₁
    obtain ⟨k', u, hswitch, hswitched⟩ := h₂.switched (Nat.le_add_right n _) hkept hidle
      (by simp [Kernel.frame, hframe₁])
    exact ⟨k', q₁, u, by rw [hswitch, Option.bind_some], hswitched, hcond⟩
  next hcond =>
    right
    simp only [Bool.or_eq_true, decide_eq_true_eq, not_or, Bool.not_eq_true, BitVec.not_lt]
      at hcond
    -- no tick was missed, so the loop does nothing
    have hmissed : k.uxMissedTicks = 0 := by
      have hle := hcond.1
      bv_omega
    have hzero : ∀ j, j = 0 → ∀ k, Kernel.unwindMissedTicks uxPriority j k = some k := by
      rintro j rfl k
      rfl
    rw [hzero _ (by rw [hmissed]; rfl), Option.some.injEq] at hunwind
    exact ⟨by rw [← hunwind], hmissed, hcond.2⟩

end Kernel

end Sanntid.FreeRTOS
