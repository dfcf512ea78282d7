import Sanntid.Icpp.Kernel
import Sanntid.Transition.Object

/-!
# Nested calls of `icpp_lock` and `icpp_unlock` by one thread

The immediate ceiling priority protocol asks that a thread always runs at the maximum of its base
priority and the ceilings of the resources it holds (`AtCeiling`). `icpp_lock` sets the priority to
the ceiling of the one resource it takes and `icpp_unlock` sets it back to the base priority, each
without regard to what else is held. `atCeiling_iff` says for a single call when that is enough,
and `atCeiling_run_iff` for whole call sequences: a lock must not go below the base priority or a
ceiling already held, and an unlock must not leave a resource with a ceiling above the base
priority. `nested_unlock_below_ceiling` is a run of the repository's two resources that breaks it.
-/

set_option autoImplicit false

namespace Sanntid.Icpp

open Sanntid.Transition

/-- The two tasks of the file. -/
inductive TaskId where
  | high
  | low
  deriving DecidableEq

instance : Fintype TaskId := ⟨{.high, .low}, fun t => by cases t <;> decide⟩

/-- The two mutexes of the file. -/
inductive MutexId where
  | mutA
  | mutB
  deriving DecidableEq

instance : Fintype MutexId := ⟨{.mutA, .mutB}, fun m => by cases m <;> decide⟩

/-- `res_A.pri` and `res_B.pri`. -/
def filePri : MutexId → Int
  | .mutA => 80
  | .mutB => 90

/-- `thread_high` of the file. -/
def threadHigh : ThreadPri TaskId := ⟨.high, 50⟩

/-- `thread_low` of the file. -/
def threadLow : ThreadPri TaskId := ⟨.low, 40⟩

/-- A call by the thread, for the resource with the given mutex. -/
inductive Call (μ : Type) where
  | lock (mutex : μ)
  | unlock (mutex : μ)

section Ceiling

variable {μ : Type} (ceil : μ → Int) (base : Int)

/-- The maximum of the base priority and the ceilings of the held resources. -/
def heldCeiling (held : List μ) : Int := held.foldr (fun m p => max (ceil m) p) base

theorem heldCeiling_le_iff {held : List μ} {p : Int} :
    heldCeiling ceil base held ≤ p ↔ base ≤ p ∧ ∀ m ∈ held, ceil m ≤ p := by
  induction held with
  | nil => simp [heldCeiling]
  | cons m held ih =>
    show max (ceil m) (heldCeiling ceil base held) ≤ p ↔ _
    rw [max_le_iff, ih]
    simp only [List.mem_cons, forall_eq_or_imp]
    tauto

theorem base_le_heldCeiling (held : List μ) : base ≤ heldCeiling ceil base held :=
  ((heldCeiling_le_iff ceil base).1 le_rfl).1

end Ceiling

section Thread

variable {ι μ : Type} [DecidableEq ι] [DecidableEq μ] (ceil : μ → Int) (thread : ThreadPri ι)

/-- The statements of a call. -/
def callStmts : Call μ → List (Stmt ι μ)
  | .lock m => icppLock ⟨m, ceil m⟩ thread
  | .unlock m => icppUnlock ⟨m, ceil m⟩ thread

/-- One statement of a thread that is not suspended by it. -/
def perform (k : Kernel ι μ) (i : ι) : Stmt ι μ → Option (Kernel ι μ)
  | .rtMutexAcquire m => rtMutexAcquire k i m
  | st => exec k i none st

/-- Statements one after the other; `none` when one of them would suspend the thread. -/
def performAll (k : Kernel ι μ) (i : ι) : List (Stmt ι μ) → Option (Kernel ι μ)
  | [] => some k
  | st :: sts => (perform k i st).bind fun k' => performAll k' i sts

/-- The thread as an object: a call fails when its `rt_mutex_acquire` does not succeed. -/
def icppObject : Object (Kernel ι μ) (Call μ) Unit where
  exec := fun k call =>
    match performAll k thread.task (callStmts ceil thread call) with
    | some k' => .ok k'
    | none => .error ()

/-- Properly nested calls: an unlock is for the resource taken last. -/
def Nested (k : Kernel ι μ) : Call μ → Prop
  | .lock _ => True
  | .unlock m => ∃ rest, (k.task thread.task).held = m :: rest

/-- The thread has its base priority and holds nothing. -/
structure Fresh (k : Kernel ι μ) : Prop where
  consistent : Consistent k
  cprio_eq : (k.task thread.task).cprio = thread.basePri
  held_eq : (k.task thread.task).held = []

/-- The priority last set is the maximum of the base priority and the ceilings held. -/
def AtCeiling (k : Kernel ι μ) : Prop :=
  (k.task thread.task).cprio = heldCeiling ceil thread.basePri (k.task thread.task).held

/-- The call leaves the priority where the resources held after it want it: a lock has a ceiling
no lower than the base priority and the ceilings held, and an unlock leaves no resource with a
ceiling above the base priority. -/
def Covers (k : Kernel ι μ) : Call μ → Prop
  | .lock m => thread.basePri ≤ ceil m ∧ ∀ r ∈ (k.task thread.task).held, ceil r ≤ ceil m
  | .unlock _ => ∀ r ∈ (k.task thread.task).held.tail, ceil r ≤ thread.basePri

variable {ceil thread}

/-! ## One call -/

/-- Waking the waiters changes no priority and no ownership. -/
theorem handOver_none {k k' : Kernel ι μ} {m : μ} (h : handOver k m none = some k') :
    k'.mutex = k.mutex ∧
      ∀ j, (k'.task j).cprio = (k.task j).cprio ∧ (k'.task j).held = (k.task j).held := by
  by_cases hfree : k.mutex m = .free
  · simp only [handOver, if_pos hfree, Option.some.injEq] at h
    subst h
    refine ⟨rfl, fun j => ?_⟩
    simp only [Kernel.wakeWaiters]
    by_cases hw : (k.task j).mode = .onMutex m
    · simp [hw]
    · simp [hw]
  · simp only [handOver, if_neg hfree, Option.some.injEq] at h
    subst h
    exact ⟨rfl, fun j => ⟨rfl, rfl⟩⟩

theorem lock_spec {k k' : Kernel ι μ} {m : μ} (hk : Consistent k)
    (h : performAll k thread.task (callStmts ceil thread (.lock m)) = some k') :
    Consistent k' ∧ (k'.task thread.task).cprio = ceil m ∧
      (k'.task thread.task).held = m :: (k.task thread.task).held := by
  simp only [callStmts, icppLock, performAll, perform, exec, Option.bind_some,
    Option.bind_fun_some] at h
  obtain ⟨htask, hcons⟩ := rtMutexAcquire_eq_some h
  refine ⟨hcons (hk.setTask rfl), ?_, ?_⟩
  · rw [htask, Function.update_self, rtTaskSetPriority, setTask_self]
  · rw [htask, Function.update_self, rtTaskSetPriority, setTask_self]

theorem unlock_spec {k k' : Kernel ι μ} {m : μ} (hk : Consistent k)
    (hm : m ∈ (k.task thread.task).held)
    (h : performAll k thread.task (callStmts ceil thread (.unlock m)) = some k') :
    Consistent k' ∧ (k'.task thread.task).cprio = thread.basePri ∧
      (k'.task thread.task).held = (k.task thread.task).held.erase m := by
  simp only [callStmts, icppUnlock, performAll, perform, exec, Option.bind_some,
    Option.bind_eq_some_iff, Option.some.injEq] at h
  obtain ⟨k₁, hover, rfl⟩ := h
  obtain ⟨htask, hcons⟩ := rtMutexRelease_spec hk hm
  obtain ⟨hmutex, hsame⟩ := handOver_none hover
  have hk₁ : Consistent k₁ := hcons.of_held_eq hmutex fun j => (hsame j).2
  refine ⟨hk₁.setTask rfl, ?_, ?_⟩
  · rw [rtTaskSetPriority, setTask_self]
  · rw [rtTaskSetPriority, setTask_self]
    show (k₁.task thread.task).held = _
    rw [(hsame _).2, htask, Function.update_self]

theorem exec_consistent {k k' : Kernel ι μ} {call : Call μ} (hk : Consistent k)
    (hnest : Nested thread k call) (h : (icppObject ceil thread).exec k call = .ok k') :
    Consistent k' := by
  simp only [icppObject] at h
  split at h
  · rename_i k₁ hperf
    obtain rfl := Except.ok.inj h
    cases call with
    | lock m => exact (lock_spec hk hperf).1
    | unlock m =>
      obtain ⟨rest, hrest⟩ := hnest
      exact (unlock_spec hk (by simp [hrest]) hperf).1
  · simp at h

/-- After a successful call the thread is at its ceiling exactly when the call covers what is
held after it. -/
theorem atCeiling_iff {k k' : Kernel ι μ} {call : Call μ} (hk : Consistent k)
    (hnest : Nested thread k call) (h : (icppObject ceil thread).exec k call = .ok k') :
    AtCeiling ceil thread k' ↔ Covers ceil thread k call := by
  simp only [icppObject] at h
  split at h
  · rename_i k₁ hperf
    obtain rfl := Except.ok.inj h
    cases call with
    | lock m =>
      -- the new ceiling has to be the maximum with itself
      obtain ⟨-, hprio, hheld⟩ := lock_spec hk hperf
      rw [AtCeiling, hprio, hheld, Covers, ← heldCeiling_le_iff]
      show ceil m = max (ceil m) (heldCeiling ceil thread.basePri _) ↔ _
      rw [eq_comm, max_eq_left_iff]
    | unlock m =>
      -- what is left has to be below the base priority
      obtain ⟨rest, hrest⟩ := hnest
      obtain ⟨-, hprio, hheld⟩ := unlock_spec hk (by simp [hrest]) hperf
      rw [hrest, List.erase_cons_head] at hheld
      have hbase := base_le_heldCeiling ceil thread.basePri rest
      have hle : heldCeiling ceil thread.basePri rest ≤ thread.basePri ↔ _ :=
        heldCeiling_le_iff ceil thread.basePri
      rw [AtCeiling, hprio, hheld, Covers, hrest, List.tail_cons]
      constructor
      · intro heq
        exact (hle.1 heq.ge).2
      · intro hall
        exact le_antisymm hbase (hle.2 ⟨le_rfl, hall⟩)
  · simp at h

/-! ## Call sequences -/

theorem run_consistent {k₀ k : Kernel ι μ} (h₀ : Consistent k₀) {calls : List (Call μ)}
    (hnest : (icppObject ceil thread).Issued (Nested thread) k₀ calls)
    (hrun : (icppObject ceil thread).run k₀ calls = .ok k) : Consistent k :=
  Object.run_invariant (fun _ _ _ hk hn hexec => exec_consistent hk hn hexec) h₀ hnest hrun

/-- For every thread, all ceilings and every properly nested sequence of successful calls from the
base priority: the thread is at its ceiling after every call if and only if every call covers what
is held after it. -/
theorem atCeiling_run_iff (ceil : μ → Int) (thread : ThreadPri ι) {k₀ k : Kernel ι μ}
    (h₀ : Fresh thread k₀) {calls : List (Call μ)}
    (hnest : (icppObject ceil thread).Issued (Nested thread) k₀ calls)
    (hrun : (icppObject ceil thread).run k₀ calls = .ok k) :
    (∀ pre post k', calls = pre ++ post → (icppObject ceil thread).run k₀ pre = .ok k' →
        AtCeiling ceil thread k') ↔
      (icppObject ceil thread).Issued (Covers ceil thread) k₀ calls := by
  constructor
  · rintro hat pre call post k₁ rfl hpre
    obtain ⟨k₂, hk₂, -⟩ := Object.run_prefix
      (show (icppObject ceil thread).run k₀ ((pre ++ [call]) ++ post) = .ok k by simpa using hrun)
    have hexec : (icppObject ceil thread).exec k₁ call = .ok k₂ := by
      rw [← Object.run_snoc hpre]
      exact hk₂
    have hk₁ := run_consistent h₀.consistent hnest.of_append hpre
    exact (atCeiling_iff hk₁ (hnest pre call post k₁ rfl hpre) hexec).1
      (hat (pre ++ [call]) post k₂ (by simp) hk₂)
  · rintro hcov pre post k' rfl hpre
    -- before the first call, or after the last one of the prefix
    rcases List.eq_nil_or_concat pre with rfl | ⟨init, call, rfl⟩
    · rw [Object.run_nil, Except.ok.injEq] at hpre
      subst hpre
      rw [AtCeiling, h₀.cprio_eq, h₀.held_eq]
      rfl
    · rw [List.concat_eq_append] at hpre hnest hcov
      obtain ⟨k₁, hk₁, -⟩ := Object.run_prefix hpre
      have hexec : (icppObject ceil thread).exec k₁ call = .ok k' := by
        rw [← Object.run_snoc hk₁]
        exact hpre
      have hcons := run_consistent h₀.consistent hnest.of_append.of_append hk₁
      exact (atCeiling_iff hcons (hnest init call post k₁ (by simp) hk₁) hexec).2
        (hcov init call post k₁ (by simp) hk₁)

end Thread

/-! ## The two resources of the repository -/

/-- `thread_low` before its first call, the only task that matters here. -/
def threadLowStart : Kernel TaskId MutexId where
  task := fun _ => ⟨threadLow.basePri, .ready, [], []⟩
  mutex := fun _ => .free

theorem threadLowStart_fresh : Fresh threadLow threadLowStart :=
  ⟨fun _ _ => rfl, rfl, rfl⟩

/-- `thread_low` locks A and unlocks it, and then locks A and inside it B, with the higher ceiling:
it is at its ceiling after every call. -/
theorem atCeiling_nested_locks :
    ∃ k, (icppObject filePri threadLow).run threadLowStart
        [.lock .mutA, .unlock .mutA, .lock .mutA, .lock .mutB] = .ok k ∧
      (k.task .low).held = [.mutB, .mutA] ∧ (k.task .low).cprio = 90 ∧
      ∀ pre post k', [Call.lock .mutA, .unlock .mutA, .lock .mutA, .lock .mutB] = pre ++ post →
        (icppObject filePri threadLow).run threadLowStart pre = .ok k' →
          AtCeiling filePri threadLow k' := by
  have hnest : (icppObject filePri threadLow).Issued (Nested threadLow) threadLowStart
      [.lock .mutA, .unlock .mutA, .lock .mutA, .lock .mutB] := by
    refine Object.issued_cons.2 ⟨trivial, fun k hk => ?_⟩
    obtain rfl := Except.ok.inj hk
    refine Object.issued_cons.2 ⟨⟨[], rfl⟩, fun k hk => ?_⟩
    refine Object.issued_cons.2 ⟨trivial, fun k hk => ?_⟩
    exact Object.issued_cons.2 ⟨trivial, fun _ _ => Object.issued_nil⟩
  refine ⟨_, rfl, rfl, rfl,
    (atCeiling_run_iff filePri threadLow threadLowStart_fresh hnest rfl).2 ?_⟩
  -- lock A: nothing is held
  refine Object.issued_cons.2 ⟨⟨by decide, by simp [threadLowStart]⟩, fun k hk => ?_⟩
  obtain rfl := Except.ok.inj hk
  -- unlock A: nothing is left
  refine Object.issued_cons.2 ⟨fun r hr => absurd hr List.not_mem_nil, fun k hk => ?_⟩
  obtain rfl := Except.ok.inj hk
  -- lock A again
  refine Object.issued_cons.2 ⟨⟨by decide, fun r hr => absurd hr List.not_mem_nil⟩, fun k hk => ?_⟩
  obtain rfl := Except.ok.inj hk
  -- lock B: A is held, with the lower ceiling
  refine Object.issued_cons.2 ⟨⟨by decide, fun r hr => ?_⟩, fun _ _ => Object.issued_nil⟩
  obtain rfl : r = .mutA := by simpa using List.mem_singleton.1 hr
  decide

/-- `task_low` locks A and then B and unlocks B: it still holds A with ceiling 80 and runs at its
base priority 40. -/
theorem nested_unlock_below_ceiling :
    (icppObject filePri threadLow).Issued (Nested threadLow) threadLowStart
        [.lock .mutA, .lock .mutB, .unlock .mutB] ∧
      ∃ k, (icppObject filePri threadLow).run threadLowStart
          [.lock .mutA, .lock .mutB, .unlock .mutB] = .ok k ∧
        (k.task .low).held = [.mutA] ∧ (k.task .low).cprio = 40 ∧
        ¬ AtCeiling filePri threadLow k := by
  constructor
  · refine Object.issued_cons.2 ⟨trivial, fun k hk => ?_⟩
    obtain rfl := Except.ok.inj hk
    refine Object.issued_cons.2 ⟨trivial, fun k hk => ?_⟩
    obtain rfl := Except.ok.inj hk
    exact Object.issued_cons.2 ⟨⟨[.mutA], rfl⟩, fun _ _ => Object.issued_nil⟩
  · refine ⟨_, rfl, rfl, rfl, ?_⟩
    show ¬ (40 : Int) = 80
    decide

end Sanntid.Icpp
