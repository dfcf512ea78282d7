import Sanntid.Icpp.Calls

/-!
# When `icpp_lock` never blocks

Any finite set of tasks on one CPU, each calling `icpp_lock` and `icpp_unlock` in a properly nested
way for resources whose ceilings exceed its creation and base priorities, sleeping and finishing
only while it holds nothing, and otherwise doing whatever it likes: `clientNext` lets a running
task begin any call it is allowed, so its executions are those of all such programs under all
wake-up patterns.

`never_blocks`: as long as every call covers what is held after it (`Covers`, the exact condition
of `atCeiling_run_iff` for the single thread), no task executes `rt_mutex_acquire` on a mutex of
another task. The invariant (`Inv`) says that raised tasks have different priorities and that a
task which uses a held resource is below its holder. `blocks_after_nested_unlock` is the run
recorded in `taskE.md`: `task_low` is back at its base priority while it still holds mutex A.
-/

set_option autoImplicit false

namespace Sanntid.Icpp

open Sanntid.Transition

/-- What a running task can begin between two calls. -/
inductive Action (μ : Type) where
  | icpp (call : Call μ)
  | compute
  | sleep
  | finish

/-- The end of a sleep, the begin of an action, or one statement of an action. -/
inductive Event (ι μ : Type) where
  | wake (i : ι)
  | begin (i : ι) (act : Action μ)
  | run (i : ι) (next : Option ι)

section Clients

variable {ι μ : Type} [DecidableEq ι] [DecidableEq μ]
variable (creation base : ι → Int) (ceil : μ → Int) (uses : ι → μ → Bool)

/-- The `thread_pri_t` of a task. -/
def threadOf (i : ι) : ThreadPri ι := ⟨i, base i⟩

/-- The statements of an action. -/
def actionStmts (i : ι) : Action μ → List (Stmt ι μ)
  | .icpp call => callStmts ceil (threadOf base i) call
  | .compute => [.busyWaitUs 1]
  | .sleep => [.rtTaskSleep 1]
  | .finish => [.rtTaskDelete]

/-- Properly nested calls for resources the task uses; no sleep and no end while holding one. -/
def Allowed (k : Kernel ι μ) (i : ι) : Action μ → Prop
  | .icpp (.lock m) => uses i m = true
  | .icpp (.unlock m) => (k.task i).held.head? = some m
  | .compute => True
  | .sleep => (k.task i).held = []
  | .finish => (k.task i).held = []

instance (k : Kernel ι μ) (i : ι) : (act : Action μ) → Decidable (Allowed uses k i act)
  | .icpp (.lock m) => inferInstanceAs (Decidable (uses i m = true))
  | .icpp (.unlock m) => inferInstanceAs (Decidable ((k.task i).held.head? = some m))
  | .compute => inferInstanceAs (Decidable True)
  | .sleep => inferInstanceAs (Decidable ((k.task i).held = []))
  | .finish => inferInstanceAs (Decidable ((k.task i).held = []))

/-- An event, where it can happen: a task begins an action when it has finished the one before. -/
def clientNext [Fintype ι] (k : Kernel ι μ) : Event ι μ → Option (Kernel ι μ)
  | .wake i => wake k i
  | .begin i act =>
    if Running k i ∧ (k.task i).todo.isEmpty ∧ Allowed uses k i act then
      some (k.setTask i { k.task i with todo := actionStmts base ceil i act })
    else none
  | .run i next => runTask k i next

/-- Every task at its creation priority, ready or asleep, holding nothing; all mutexes free. -/
structure Started (k : Kernel ι μ) : Prop where
  cprio_eq : ∀ i, (k.task i).cprio = creation i
  mode_eq : ∀ i, (k.task i).mode = .ready ∨ (k.task i).mode = .asleep
  held_eq : ∀ i, (k.task i).held = []
  todo_eq : ∀ i, (k.task i).todo = []
  mutex_eq : ∀ m, k.mutex m = .free

/-- Any tasks, with any actions that are allowed them, under the priorities. -/
def clientSystem [Fintype ι] : System (Kernel ι μ) (Event ι μ) where
  init := Started creation
  next := clientNext base ceil uses

/-- The mutex of a pending `rt_mutex_acquire`. -/
def acquiring (t : Task ι μ) : Option μ :=
  match t.todo with
  | .rtMutexAcquire m :: _ => some m
  | _ => none

/-- A running task is about to acquire a mutex that another task has. -/
def Blocks (k : Kernel ι μ) : Prop :=
  ∃ i m j, Running k i ∧ acquiring (k.task i) = some m ∧ j ≠ i ∧ 0 < (k.mutex m).heldBy j

instance [Fintype ι] [Fintype μ] (k : Kernel ι μ) : Decidable (Blocks k) :=
  inferInstanceAs (Decidable (∃ _ _ _, _ ∧ _))

/-- The ceiling of a resource is above the priorities of every task that uses it. -/
def CeilingsAbove : Prop := ∀ i m, uses i m = true → creation i < ceil m ∧ base i < ceil m

/-- Every call that begins covers what its task holds after it. -/
def CoversWhatIsHeld (k : Kernel ι μ) : Event ι μ → Prop
  | .begin i (.icpp call) => Covers ceil (threadOf base i) k call
  | _ => True

instance (k : Kernel ι μ) : (ev : Event ι μ) → Decidable (CoversWhatIsHeld base ceil k ev)
  | .begin _ (.icpp (.lock m)) => inferInstanceAs (Decidable (_ ≤ _ ∧ ∀ r ∈ _, ceil r ≤ ceil m))
  | .begin _ (.icpp (.unlock _)) => inferInstanceAs (Decidable (∀ r ∈ _, ceil r ≤ _))
  | .begin _ .compute | .begin _ .sleep | .begin _ .finish | .wake _ | .run _ _ =>
    inferInstanceAs (Decidable True)

/-! ## The invariant -/

/-- The priority is the ceiling of a resource that task `i` uses. -/
def Raised (i : ι) (prio : Int) : Prop := ∃ m, uses i m = true ∧ prio = ceil m

/-- A raised task that is not inside a call runs at the ceiling of a resource it holds. -/
def Settled (i : ι) (prio : Int) (held : List μ) : Prop :=
  Raised ceil uses i prio → ∃ m ∈ held, prio = ceil m

/-- Where task `i` with this priority and these mutexes is in its current action. -/
inductive Phase (i : ι) (prio : Int) (held : List μ) : List (Stmt ι μ) → Prop
  | between : Settled ceil uses i prio held → Phase i prio held []
  | lock (m : μ) : Settled ceil uses i prio held → uses i m = true →
      (∀ r ∈ held, ceil r ≤ ceil m) →
      Phase i prio held (callStmts ceil (threadOf base i) (.lock m))
  | acquire (m : μ) : uses i m = true → prio = ceil m → Phase i prio held [.rtMutexAcquire m]
  | unlock (m : μ) : held = [m] →
      Phase i prio held (callStmts ceil (threadOf base i) (.unlock m))
  | restore : held = [] → Phase i prio held [.rtTaskSetPriority i (base i)]
  | compute : Settled ceil uses i prio held → Phase i prio held [.busyWaitUs 1]
  | sleep : held = [] → Settled ceil uses i prio held → Phase i prio held [.rtTaskSleep 1]
  | finish : held = [] → Settled ceil uses i prio held → Phase i prio held [.rtTaskDelete]

/-- The part of the invariant about one task. -/
structure TaskInv (i : ι) (t : Task ι μ) : Prop where
  not_waiting : ∀ m, t.mode ≠ .onMutex m
  uses_held : ∀ m ∈ t.held, uses i m = true
  ceil_le : ∀ m ∈ t.held, ceil m ≤ t.cprio
  low_or_raised : (t.held = [] ∧ (t.cprio = creation i ∨ t.cprio = base i)) ∨
    (t.mode = .ready ∧ Raised ceil uses i t.cprio)
  phase : Phase base ceil uses i t.cprio t.held t.todo

/-- Raised tasks have different priorities, and whoever uses a held resource is below its
holder. -/
structure Inv (k : Kernel ι μ) : Prop where
  consistent : Consistent k
  task : ∀ i, TaskInv creation base ceil uses i (k.task i)
  distinct : ∀ i j, i ≠ j → Raised ceil uses i (k.task i).cprio →
    Raised ceil uses j (k.task j).cprio → (k.task i).cprio ≠ (k.task j).cprio
  below : ∀ i j m, i ≠ j → m ∈ (k.task i).held → uses j m = true →
    (k.task j).cprio < (k.task i).cprio

variable {creation base ceil uses}

omit [DecidableEq ι] [DecidableEq μ] in
/-- A task at its creation or base priority is not raised. -/
theorem not_raised (hceil : CeilingsAbove creation base ceil uses) {i : ι} {prio : Int}
    (h : prio = creation i ∨ prio = base i) : ¬ Raised ceil uses i prio := by
  rintro ⟨m, hm, hprio⟩
  have hlt := hceil i m hm
  rcases h with h | h <;> omega

theorem Inv.ready_of_raised {k : Kernel ι μ} (hk : Inv creation base ceil uses k)
    (hceil : CeilingsAbove creation base ceil uses) {j : ι}
    (hj : Raised ceil uses j (k.task j).cprio) : (k.task j).mode = .ready := by
  rcases (hk.task j).low_or_raised with ⟨-, hlow⟩ | ⟨hready, -⟩
  · exact absurd hj (not_raised hceil hlow)
  · exact hready

/-- A running task is at least as high as every raised task. -/
theorem Inv.raised_le {k : Kernel ι μ} (hk : Inv creation base ceil uses k)
    (hceil : CeilingsAbove creation base ceil uses) {i j : ι}
    (hi : Running k i) (hj : Raised ceil uses j (k.task j).cprio) :
    (k.task j).cprio ≤ (k.task i).cprio :=
  hi.2 j (hk.ready_of_raised hceil hj)

/-- A running task uses nothing that another task holds. -/
theorem Inv.not_uses_held {k : Kernel ι μ} (hk : Inv creation base ceil uses k) {i j : ι} {m : μ}
    (hi : Running k i) (hij : j ≠ i) (hm : m ∈ (k.task j).held) : ¬ uses i m = true := by
  intro huse
  have hlt := hk.below j i m hij hm huse
  have hready : (k.task j).mode = .ready := by
    rcases (hk.task j).low_or_raised with ⟨hnil, -⟩ | ⟨hready, -⟩
    · rw [hnil] at hm
      exact absurd hm List.not_mem_nil
    · exact hready
  have hle := hi.2 j hready
  omega

/-- What has to be shown of a new record `t` for task `i`. -/
theorem Inv.update {k k' : Kernel ι μ} (hk : Inv creation base ceil uses k) {i : ι} {t : Task ι μ}
    (htask : k'.task = Function.update k.task i t) (hcons : Consistent k')
    (ht : TaskInv creation base ceil uses i t)
    (hdist : Raised ceil uses i t.cprio → ∀ j, j ≠ i → Raised ceil uses j (k.task j).cprio →
      (k.task j).cprio ≠ t.cprio)
    (hbelow : ∀ j m, j ≠ i → m ∈ t.held → uses j m = true → (k.task j).cprio < t.cprio)
    (habove : ∀ j m, j ≠ i → m ∈ (k.task j).held → uses i m = true → t.cprio < (k.task j).cprio) :
    Inv creation base ceil uses k' := by
  have hself : k'.task i = t := by rw [htask, Function.update_self]
  have hother : ∀ j, j ≠ i → k'.task j = k.task j := by
    intro j hj
    rw [htask, Function.update_of_ne hj]
  refine ⟨hcons, ?_, ?_, ?_⟩
  · rw [htask]
    apply (Function.forall_update_iff k.task fun j x => TaskInv creation base ceil uses j x).2
    exact ⟨ht, fun j _ => hk.task j⟩
  · -- two raised tasks, of which at most one is the updated task
    intro a b hab ha hb
    by_cases hai : a = i
    · subst hai
      rw [hself] at ha ⊢
      rw [hother b (Ne.symm hab)] at hb ⊢
      exact (hdist ha b (Ne.symm hab) hb).symm
    · rw [hother a hai] at ha ⊢
      by_cases hbi : b = i
      · subst hbi
        rw [hself] at hb ⊢
        exact hdist hb a hai ha
      · rw [hother b hbi] at hb ⊢
        exact hk.distinct a b hab ha hb
  · -- a holder and a user, of which at most one is the updated task
    intro a b m hab hm huse
    by_cases hai : a = i
    · subst hai
      rw [hself] at hm ⊢
      rw [hother b (Ne.symm hab)]
      exact hbelow b m (Ne.symm hab) hm huse
    · rw [hother a hai] at hm ⊢
      by_cases hbi : b = i
      · subst hbi
        rw [hself]
        exact habove a m hai hm huse
      · rw [hother b hbi]
        exact hk.below a b m hab hm huse

/-- A step that keeps the priority of its task and adds nothing to what it holds. -/
theorem Inv.update_same {k k' : Kernel ι μ} (hk : Inv creation base ceil uses k) {i : ι}
    {t : Task ι μ} (htask : k'.task = Function.update k.task i t) (hcons : Consistent k')
    (ht : TaskInv creation base ceil uses i t) (hprio : t.cprio = (k.task i).cprio)
    (hheld : ∀ m ∈ t.held, m ∈ (k.task i).held) : Inv creation base ceil uses k' := by
  apply hk.update htask hcons ht
  · intro hraised j hj hjr
    have hi : Raised ceil uses i (k.task i).cprio := by
      obtain ⟨m, hm, he⟩ := hraised
      exact ⟨m, hm, hprio ▸ he⟩
    rw [hprio]
    exact hk.distinct j i hj hjr hi
  · intro j m hj hm huse
    rw [hprio]
    exact hk.below i j m (Ne.symm hj) (hheld m hm) huse
  · intro j m hj hm huse
    rw [hprio]
    exact hk.below j i m hj hm huse

/-! ## Steps -/

theorem wake_inv {k k' : Kernel ι μ} (hk : Inv creation base ceil uses k) {i : ι}
    (h : wake k i = some k') : Inv creation base ceil uses k' := by
  obtain ⟨hasleep, rfl⟩ := wake_cases h
  obtain ⟨hwait, huse, hle, hlow, hphase⟩ := hk.task i
  refine hk.update_same rfl (hk.consistent.setTask rfl) ⟨by simp, huse, hle, ?_, hphase⟩ rfl
    fun m hm => hm
  rcases hlow with hlow | ⟨hready, -⟩
  · exact Or.inl hlow
  · rw [hasleep] at hready
    exact absurd hready (by simp)

theorem begin_inv [Fintype ι] (hceil : CeilingsAbove creation base ceil uses) {k k' : Kernel ι μ}
    (hk : Inv creation base ceil uses k) {i : ι} {act : Action μ}
    (hcov : CoversWhatIsHeld base ceil k (.begin i act))
    (h : clientNext base ceil uses k (.begin i act) = some k') :
    Inv creation base ceil uses k' := by
  simp only [clientNext, Option.ite_none_right_eq_some, Option.some.injEq] at h
  obtain ⟨⟨-, htodo, hallowed⟩, rfl⟩ := h
  obtain ⟨hwait, huse, hle, hlow, hphase⟩ := hk.task i
  rw [List.isEmpty_iff] at htodo
  -- the thread is between two calls, where its priority is settled
  have hs : Settled ceil uses i (k.task i).cprio (k.task i).held := by
    rw [htodo] at hphase
    cases hphase with
    | between hs => exact hs
  refine hk.update_same rfl (hk.consistent.setTask rfl) ⟨hwait, huse, hle, hlow, ?_⟩ rfl
    fun m hm => hm
  rcases act with (m | m) | _ | _ | _
  · exact .lock m hs hallowed hcov.2
  · -- the ceilings left behind would have to be at most the base priority
    obtain ⟨rest, hrest⟩ := List.head?_eq_some_iff.1 hallowed
    refine .unlock m ?_
    cases rest with
    | nil => exact hrest
    | cons r rest =>
      have hr : ceil r ≤ base i := hcov r (by simp [threadOf, hrest])
      have hlt := (hceil i r (huse r (by simp [hrest]))).2
      omega
  · exact .compute hs
  · exact .sleep hallowed hs
  · exact .finish hallowed hs

/-- `rt_task_set_priority` in `icpp_lock`. -/
theorem raise_inv (hceil : CeilingsAbove creation base ceil uses) {k k' : Kernel ι μ}
    (hk : Inv creation base ceil uses k) {i : ι} {m : μ}
    (hrun : Running k i) (huse : uses i m = true)
    (hs : Settled ceil uses i (k.task i).cprio (k.task i).held)
    (hr : ∀ r ∈ (k.task i).held, ceil r ≤ ceil m)
    (htask : k'.task = Function.update k.task i
      { k.task i with cprio := ceil m, todo := [.rtMutexAcquire m] })
    (hcons : Consistent k') : Inv creation base ceil uses k' := by
  obtain ⟨hwait, hheld, hle, hlow, -⟩ := hk.task i
  -- the new priority is at least the old one, and above it when the task was not raised
  have hup : (k.task i).cprio ≤ ceil m ∧
      (¬ Raised ceil uses i (k.task i).cprio → (k.task i).cprio < ceil m) := by
    have hlt := hceil i m huse
    rcases hlow with ⟨-, hprio⟩ | ⟨-, hraised⟩
    · rcases hprio with hprio | hprio
      · exact ⟨by omega, fun _ => by omega⟩
      · exact ⟨by omega, fun _ => by omega⟩
    · obtain ⟨r, hmem, hprio⟩ := hs hraised
      exact ⟨hprio ▸ hr r hmem, fun hnot => absurd hraised hnot⟩
  refine hk.update htask hcons ⟨hwait, hheld, hr, Or.inr ⟨hrun.1, m, huse, rfl⟩, ?_⟩ ?_ ?_ ?_
  · exact .acquire m huse rfl
  · intro _ j hj hjr
    have hjle := hk.raised_le hceil hrun hjr
    show (k.task j).cprio ≠ ceil m
    by_cases hi : Raised ceil uses i (k.task i).cprio
    · have hne := hk.distinct j i hj hjr hi
      have hle' := hup.1
      omega
    · have hlt := hup.2 hi
      omega
  · intro j r hj hmem hjuse
    have hlt := hk.below i j r (Ne.symm hj) hmem hjuse
    have hle' := hup.1
    show (k.task j).cprio < ceil m
    omega
  · intro j r hj hmem hiuse
    exact absurd hiuse (hk.not_uses_held hrun hj hmem)

/-- `rt_mutex_acquire` in `icpp_lock`: it succeeds, and the resource is now above its users. -/
theorem acquire_inv (hceil : CeilingsAbove creation base ceil uses) {k k' : Kernel ι μ}
    (hk : Inv creation base ceil uses k) {i : ι} {m : μ}
    (hrun : Running k i) (huse : uses i m = true) (hprio : (k.task i).cprio = ceil m)
    (htask : k'.task = Function.update k.task i
      { k.task i with held := m :: (k.task i).held, todo := [] })
    (hcons : Consistent k') : Inv creation base ceil uses k' := by
  obtain ⟨hwait, hheld, hle, -, -⟩ := hk.task i
  have hraised : Raised ceil uses i (k.task i).cprio := ⟨m, huse, hprio⟩
  refine hk.update htask hcons ⟨hwait, ?_, ?_, Or.inr ⟨hrun.1, hraised⟩, ?_⟩ ?_ ?_ ?_
  · intro r hr
    rcases List.mem_cons.1 hr with rfl | hr
    · exact huse
    · exact hheld r hr
  · intro r hr
    rcases List.mem_cons.1 hr with rfl | hr
    · exact hprio.ge
    · exact hle r hr
  · exact .between fun _ => ⟨m, List.mem_cons_self, hprio⟩
  · intro _ j hj hjr
    exact hk.distinct j i hj hjr hraised
  · intro j r hj hr hjuse
    rcases List.mem_cons.1 hr with rfl | hr
    · -- the other users are below the ceiling: not raised, or raised to less than who runs
      show (k.task j).cprio < (k.task i).cprio
      rcases (hk.task j).low_or_raised with ⟨-, hlow⟩ | ⟨-, hjr⟩
      · have hlt := hceil j r hjuse
        rcases hlow with hlow | hlow <;> omega
      · have hne := hk.distinct j i hj hjr hraised
        have hle' := hk.raised_le hceil hrun hjr
        omega
    · exact hk.below i j r (Ne.symm hj) hr hjuse
  · intro j r hj hmem hiuse
    exact absurd hiuse (hk.not_uses_held hrun hj hmem)

/-- `rt_task_set_priority` in `icpp_unlock`. -/
theorem restore_inv (hceil : CeilingsAbove creation base ceil uses) {k k' : Kernel ι μ}
    (hk : Inv creation base ceil uses k) {i : ι}
    (hrun : Running k i) (hnil : (k.task i).held = [])
    (htask : k'.task = Function.update k.task i { k.task i with cprio := base i, todo := [] })
    (hcons : Consistent k') : Inv creation base ceil uses k' := by
  have hnot : ¬ Raised ceil uses i (base i) := not_raised hceil (Or.inr rfl)
  refine hk.update htask hcons
    ⟨(hk.task i).not_waiting, by simp [hnil], by simp [hnil], Or.inl ⟨hnil, Or.inr rfl⟩, ?_⟩
    ?_ ?_ ?_
  · exact .between fun hr => absurd hr hnot
  · intro hr
    exact absurd hr hnot
  · intro j r _ hr
    simp [hnil] at hr
  · intro j r hj hmem hiuse
    exact absurd hiuse (hk.not_uses_held hrun hj hmem)

/-- A running task is never about to acquire a mutex of another task. -/
theorem Inv.not_blocks {k : Kernel ι μ} (hk : Inv creation base ceil uses k) : ¬ Blocks k := by
  rintro ⟨i, m, j, hrun, hacq, hj, hheld⟩
  have huse : uses i m = true := by
    have hphase := (hk.task i).phase
    simp only [acquiring] at hacq
    generalize (k.task i).todo = todo at hphase hacq
    cases hphase with
    | acquire n hm _ =>
      obtain rfl := Option.some.inj hacq
      exact hm
    | _ => simp [callStmts, icppLock, icppUnlock] at hacq
  exact hk.not_uses_held hrun hj (hk.consistent.mem_iff.2 hheld) huse

theorem run_inv [Fintype ι] (hceil : CeilingsAbove creation base ceil uses) {k k' : Kernel ι μ}
    (hk : Inv creation base ceil uses k) {i : ι} {next : Option ι}
    (h : runTask k i next = some k') : Inv creation base ceil uses k' := by
  obtain ⟨hrun, st, rest, htodo, hexec⟩ := runTask_cases h
  obtain ⟨hwait, hheld, hle, hlow, hphase⟩ := hk.task i
  have hcons : Consistent (k.setTask i { k.task i with todo := rest }) := hk.consistent.setTask rfl
  -- a task that holds nothing and is between two calls is not raised
  have hcalm : (k.task i).held = [] → Settled ceil uses i (k.task i).cprio (k.task i).held →
      (k.task i).held = [] ∧ ((k.task i).cprio = creation i ∨ (k.task i).cprio = base i) := by
    intro hnil hs
    apply hlow.resolve_right
    intro hr
    obtain ⟨m, hm, -⟩ := hs hr.2
    rw [hnil] at hm
    exact absurd hm List.not_mem_nil
  rw [htodo] at hphase
  generalize htodo' : st :: rest = todo at hphase
  cases hphase with
  | between hs => simp at htodo'
  | lock m hs huse hr =>
    obtain ⟨rfl, rfl⟩ := List.cons.inj htodo'
    simp only [exec, rtTaskSetPriority, threadOf, setTask_self, setTask_setTask,
      Option.some.injEq] at hexec
    subst hexec
    exact raise_inv hceil hk hrun huse hs hr rfl (hk.consistent.setTask rfl)
  | acquire m huse hprio =>
    obtain ⟨rfl, rfl⟩ := List.cons.inj htodo'
    rcases acquire_cases hk.consistent hexec rfl with ⟨htask, hacq⟩ | ⟨j, hj, hmem, -⟩
    · exact acquire_inv hceil hk hrun huse hprio htask hacq
    · -- another task would hold the mutex that this one uses
      exact absurd huse (hk.not_uses_held hrun hj hmem)
  | unlock m hone =>
    obtain ⟨rfl, rfl⟩ := List.cons.inj htodo'
    obtain ⟨htask, hrel⟩ := release_spec hk.consistent hexec rfl (by simp [hone]) (hwait m)
      fun j _ => (hk.task j).not_waiting m
    have hraised : (k.task i).mode = .ready ∧ Raised ceil uses i (k.task i).cprio := by
      apply hlow.resolve_left
      intro hnil
      rw [hone] at hnil
      exact absurd hnil.1 (by simp)
    refine hk.update_same htask hrel ⟨hwait, ?_, ?_, Or.inr hraised, ?_⟩ rfl ?_
    · simp [hone]
    · simp [hone]
    · exact .restore (by simp [hone])
    · simp [hone]
  | restore hnil =>
    obtain ⟨rfl, rfl⟩ := List.cons.inj htodo'
    simp only [exec, rtTaskSetPriority, setTask_self, setTask_setTask, Option.some.injEq] at hexec
    subst hexec
    exact restore_inv hceil hk hrun hnil rfl (hk.consistent.setTask rfl)
  | compute hs =>
    obtain ⟨rfl, rfl⟩ := List.cons.inj htodo'
    obtain rfl := Option.some.inj hexec
    exact hk.update_same rfl hcons ⟨hwait, hheld, hle, hlow, .between hs⟩ rfl fun m hm => hm
  | sleep hnil hs =>
    obtain ⟨rfl, rfl⟩ := List.cons.inj htodo'
    simp only [exec, setTask_self, setTask_setTask, Option.some.injEq] at hexec
    subst hexec
    exact hk.update_same rfl (hk.consistent.setTask rfl)
      ⟨by simp, hheld, hle, Or.inl (hcalm hnil hs), .between hs⟩ rfl fun m hm => hm
  | finish hnil hs =>
    obtain ⟨rfl, rfl⟩ := List.cons.inj htodo'
    simp only [exec, setTask_self, setTask_setTask, Option.some.injEq] at hexec
    subst hexec
    exact hk.update_same rfl (hk.consistent.setTask rfl)
      ⟨by simp, hheld, hle, Or.inl (hcalm hnil hs), .between hs⟩ rfl fun m hm => hm

theorem started_inv (hceil : CeilingsAbove creation base ceil uses) {k : Kernel ι μ}
    (h : Started creation k) : Inv creation base ceil uses k := by
  have hnot : ∀ i, ¬ Raised ceil uses i (k.task i).cprio := by
    intro i
    exact not_raised hceil (Or.inl (h.cprio_eq i))
  refine ⟨?_, ?_, ?_, ?_⟩
  · intro i m
    rw [h.held_eq i, h.mutex_eq m]
    rfl
  · intro i
    refine ⟨?_, ?_, ?_, Or.inl ⟨h.held_eq i, Or.inl (h.cprio_eq i)⟩, ?_⟩
    · intro m hm
      rcases h.mode_eq i with hr | hr <;> rw [hr] at hm <;> simp at hm
    · simp [h.held_eq i]
    · simp [h.held_eq i]
    · rw [h.todo_eq i]
      exact .between fun hr => absurd hr (hnot i)
  · intro i j _ hi
    exact absurd hi (hnot i)
  · intro i j m _ hm
    simp [h.held_eq i] at hm

/-- In every execution whose calls all cover what is held after them, no running task is about to
acquire a mutex that another task has. -/
theorem never_blocks [Fintype ι] (hceil : CeilingsAbove creation base ceil uses)
    {tr : List (Kernel ι μ × Event ι μ)} {k : Kernel ι μ}
    (hexec : (clientSystem creation base ceil uses).Execution tr k)
    (hcov : ∀ p ∈ tr, CoversWhatIsHeld base ceil p.1 p.2) : ¬ Blocks k := by
  have hinv : Inv creation base ceil uses k := by
    apply hexec.invariant_of_steps (fun s (hs : Started creation s) => started_inv hceil hs) _ hcov
    intro s ev t hs hg hstep
    cases ev with
    | wake i => exact wake_inv hs hstep
    | begin i act => exact begin_inv hceil hs hg hstep
    | run i next => exact run_inv hceil hs hstep
  exact hinv.not_blocks

end Clients

/-! ## The two tasks of the repository -/

/-- The priorities given to `rt_task_create`. -/
def fileCreation : TaskId → Int
  | .high => 69
  | .low => 19

/-- The `base_pri` of `thread_high` and `thread_low`. -/
def fileBase : TaskId → Int
  | .high => threadHigh.basePri
  | .low => threadLow.basePri

/-- `task_high` asleep in its `rt_task_sleep`, `task_low` past `rt_sem_p`. -/
def fileStart : Kernel TaskId MutexId where
  task
    | .high => ⟨fileCreation .high, .asleep, [], []⟩
    | .low => ⟨fileCreation .low, .ready, [], []⟩
  mutex := fun _ => .free

/-- The two tasks of the file, each of which uses both resources. -/
def fileSystem : System (Kernel TaskId MutexId) (Event TaskId MutexId) :=
  clientSystem fileCreation fileBase filePri fun _ _ => true

theorem fileStart_started : Started fileCreation fileStart where
  cprio_eq := fun i => by cases i <;> rfl
  mode_eq := fun i => by cases i <;> decide
  held_eq := fun i => by cases i <;> rfl
  todo_eq := fun i => by cases i <;> rfl
  mutex_eq := fun _ => rfl

theorem file_ceilingsAbove : CeilingsAbove fileCreation fileBase filePri fun _ _ => true := by
  intro i m _
  cases i <;> cases m <;> decide

/-- A whole call of `task i`: its begin and its two statements. -/
def callEvents (i : TaskId) (call : Call MutexId) : List (Event TaskId MutexId) :=
  [.begin i (.icpp call), .run i none, .run i none]

/-- `task_low` takes A, `task_high` wakes up inside the critical section, and `task_low` leaves it
unhindered. -/
theorem wake_inside_section_never_blocks :
    ∃ tr k, fileSystem.Execution tr k ∧ tr.length = 7 ∧ (k.task .low).held = [] ∧ ¬ Blocks k := by
  obtain ⟨tr, k, hrun, htest⟩ := fileSystem.exists_run_of_replay fileStart
    (callEvents .low (.lock .mutA) ++ .wake .high :: callEvents .low (.unlock .mutA))
    (fun tr k => tr.length = 7 ∧ (k.task .low).held = [] ∧
      ∀ q ∈ tr, CoversWhatIsHeld fileBase filePri q.1 q.2) (by decide)
  have hexec : fileSystem.Execution tr k := ⟨fileStart, fileStart_started, hrun⟩
  exact ⟨tr, k, hexec, htest.1, htest.2.1,
    never_blocks file_ceilingsAbove hexec htest.2.2⟩

/-- `task_low` takes A and B and gives B back, which drops it to its base priority with A still
held. `task_high` wakes up, takes B, and runs into the `rt_mutex_acquire` of A. -/
theorem blocks_after_nested_unlock : ∃ tr k, fileSystem.Execution tr k ∧ Blocks k := by
  obtain ⟨tr, k, hrun, hblocks⟩ := fileSystem.exists_run_of_replay fileStart
    (callEvents .low (.lock .mutA) ++ callEvents .low (.lock .mutB) ++
      callEvents .low (.unlock .mutB) ++ .wake .high :: callEvents .high (.lock .mutB) ++
      [.begin .high (.icpp (.lock .mutA)), .run .high none])
    (fun _ k => Blocks k) (by decide)
  exact ⟨tr, k, ⟨fileStart, fileStart_started, hrun⟩, hblocks⟩

end Sanntid.Icpp
