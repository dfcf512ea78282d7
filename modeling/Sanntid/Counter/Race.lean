import Sanntid.Transition.Threads
import Mathlib.Data.Fin.VecNotation

/-!
# The counter without a semaphore

`fn` of `ex3/taskA/main.c`, which `ex3/taskB/main.c` repeats: every thread increments the global
counter in a loop, counts its own iterations in `local_var`, and prints both. `global_var++` is a
load and a store, the counter is loaded as an argument of `printf` before the line is printed, and
nothing keeps the threads apart. The file has two threads, `main` being one of them, and 50000000
iterations.

What is lost is exactly what other threads store between a load and its store: the counter is the
number of stores if and only if that never happens (`counter_exact_iff`). With two threads, the last
value of the counter that the program prints can be any number from 1 to the sum of the iterations,
and no other (`shown_iff`).
-/

set_option autoImplicit false

namespace Sanntid.Counter.Race

open Sanntid.Transition

universe u

/-- The statement of `fn` that a thread executes next. -/
inductive Point where
  | loopHead
  | loadGlobal
  | storeGlobal
  | incLocal
  | incI
  | loadArgument
  | printGlobal
  | printLocal
  | returned
  deriving DecidableEq

/-- The variables of a thread, the value it has loaded, and its program point. -/
structure Local where
  i : Nat
  localVar : Int
  loaded : Int
  point : Point

/-- A line of output. -/
inductive Line where
  | global (globalVar : Int)
  | iterations (localVar : Int)

/-- The global of the file, and what has been printed. -/
structure Shared where
  globalVar : Int
  stdout : List Line

/-- One statement of a thread whose loop runs to `bound`. -/
def exec (bound : Nat) (l : Local) (s : Shared) : Option (Local × Shared) :=
  match l.point with
  | .loopHead =>
    some ({ l with point := if l.i < bound then .loadGlobal else .loadArgument }, s)
  -- `global_var++` is two steps
  | .loadGlobal => some ({ l with loaded := s.globalVar, point := .storeGlobal }, s)
  | .storeGlobal => some ({ l with point := .incLocal }, { s with globalVar := l.loaded + 1 })
  | .incLocal => some ({ l with localVar := l.localVar + 1, point := .incI }, s)
  | .incI => some ({ l with i := l.i + 1, point := .loopHead }, s)
  -- the argument of `printf` is loaded before the call
  | .loadArgument => some ({ l with loaded := s.globalVar, point := .printGlobal }, s)
  | .printGlobal =>
    some ({ l with point := .printLocal }, { s with stdout := s.stdout ++ [.global l.loaded] })
  | .printLocal =>
    some ({ l with point := .returned }, { s with stdout := s.stdout ++ [.iterations l.localVar] })
  | .returned => none

variable {ι : Type u} [DecidableEq ι]

/-- Thread `i` runs `fn` for `bound i` iterations. -/
def fn (bound : ι → Nat) : Program ι Local Shared where
  exec := fun i => exec (bound i)

/-- All threads before their loop, the counter at 0. -/
def start : Config ι Local Shared where
  thread := fun _ => ⟨0, 0, 0, .loopHead⟩
  shared := ⟨0, []⟩

/-- All interleavings of the threads, from the start. -/
def raceSystem (bound : ι → Nat) : System (Config ι Local Shared) ι :=
  (fn bound).system (· = start)

/-! ## What a statement does -/

/-- The increments that a thread has stored. -/
def Local.stored (l : Local) : Nat :=
  match l.point with
  | .incLocal | .incI => l.i + 1
  | _ => l.i

/-- The iterations stay within the bound, and the loop ends at it. -/
def Local.CountOk (bound : Nat) (l : Local) : Prop :=
  match l.point with
  | .loopHead => l.i ≤ bound
  | .loadGlobal | .storeGlobal | .incLocal | .incI => l.i < bound
  | .loadArgument | .printGlobal | .printLocal | .returned => l.i = bound

/-- The value of the last line about the counter. -/
def lastGlobal (stdout : List Line) : Option Int :=
  (stdout.filterMap fun
    | .global globalVar => some globalVar
    | .iterations _ => none).getLast?

/-- What one statement does to its thread and to what is shared, by cases. -/
inductive Move (bound : Nat) (s : Shared) : Local → Local → Shared → Prop
  | enter {i : Nat} {x v : Int} : i < bound →
      Move bound s ⟨i, x, v, .loopHead⟩ ⟨i, x, v, .loadGlobal⟩ s
  | leave {i : Nat} {x v : Int} : ¬ i < bound →
      Move bound s ⟨i, x, v, .loopHead⟩ ⟨i, x, v, .loadArgument⟩ s
  | loadGlobal {i : Nat} {x v : Int} :
      Move bound s ⟨i, x, v, .loadGlobal⟩ ⟨i, x, s.globalVar, .storeGlobal⟩ s
  | storeGlobal {i : Nat} {x v : Int} :
      Move bound s ⟨i, x, v, .storeGlobal⟩ ⟨i, x, v, .incLocal⟩ { s with globalVar := v + 1 }
  | incLocal {i : Nat} {x v : Int} :
      Move bound s ⟨i, x, v, .incLocal⟩ ⟨i, x + 1, v, .incI⟩ s
  | incI {i : Nat} {x v : Int} :
      Move bound s ⟨i, x, v, .incI⟩ ⟨i + 1, x, v, .loopHead⟩ s
  | loadArgument {i : Nat} {x v : Int} :
      Move bound s ⟨i, x, v, .loadArgument⟩ ⟨i, x, s.globalVar, .printGlobal⟩ s
  | printGlobal {i : Nat} {x v : Int} :
      Move bound s ⟨i, x, v, .printGlobal⟩ ⟨i, x, v, .printLocal⟩
        { s with stdout := s.stdout ++ [.global v] }
  | printLocal {i : Nat} {x v : Int} :
      Move bound s ⟨i, x, v, .printLocal⟩ ⟨i, x, v, .returned⟩
        { s with stdout := s.stdout ++ [.iterations x] }

theorem move_of_exec {bound : Nat} {l l' : Local} {s s' : Shared}
    (h : exec bound l s = some (l', s')) : Move bound s l l' s' := by
  rcases l with ⟨i, x, v, point⟩
  cases point with
  | loopHead =>
    simp only [exec, Option.some.injEq, Prod.mk.injEq] at h
    obtain ⟨rfl, rfl⟩ := h
    by_cases hi : i < bound
    · simpa [hi] using Move.enter hi
    · simpa [hi] using Move.leave hi
  | returned => simp [exec] at h
  | _ =>
    simp only [exec, Option.some.injEq, Prod.mk.injEq] at h
    obtain ⟨rfl, rfl⟩ := h
    constructor

section Move

variable {bound : Nat} {l l' : Local} {s s' : Shared}

theorem Move.countOk (h : Move bound s l l' s') (hcount : l.CountOk bound) : l'.CountOk bound := by
  cases h with
  | leave hi => exact le_antisymm hcount (not_lt.1 hi)
  | enter hi => exact hi
  | _ => exact hcount

/-- The store is the statement that raises the number of stored increments. -/
theorem Move.stored_eq (h : Move bound s l l' s') :
    l'.stored = l.stored + if l.point = .storeGlobal then 1 else 0 := by
  cases h <;> simp [Local.stored]

theorem Move.globalVar_eq (h : Move bound s l l' s') :
    s'.globalVar = if l.point = .storeGlobal then l.loaded + 1 else s.globalVar := by
  cases h <;> simp

/-- The load is the statement before the store. -/
theorem Move.loaded_eq (h : Move bound s l l' s') :
    l'.point = .storeGlobal ↔ l.point = .loadGlobal := by
  cases h <;> simp

theorem Move.loaded_value (h : Move bound s l l' s')
    (hpoint : l.point = .loadGlobal ∨ l.point = .loadArgument) : l'.loaded = s.globalVar := by
  cases h <;> simp at hpoint ⊢

/-- The argument is loaded in the statement before the line is printed. -/
theorem Move.argument_eq (h : Move bound s l l' s') :
    l'.point = .printGlobal ↔ l.point = .loadArgument := by
  cases h <;> simp

/-- A line about the counter shows the value that was loaded for it. -/
theorem Move.mem_stdout (h : Move bound s l l' s') {v : Int} :
    .global v ∈ s'.stdout ↔ .global v ∈ s.stdout ∨ l.point = .printGlobal ∧ v = l.loaded := by
  cases h <;> simp

end Move

/-! ## The state -/

theorem countOk_of_reachable {bound : ι → Nat} {c : Config ι Local Shared}
    (h : (raceSystem bound).Reachable c) (i : ι) : (c.thread i).CountOk (bound i) := by
  revert i
  apply h.invariant (I := fun c => ∀ i, (c.thread i).CountOk (bound i))
  · rintro c rfl i
    exact Nat.zero_le _
  · intro c i d _ hc hstep
    obtain ⟨l, s, hexec, rfl⟩ := Program.exec_cases hstep
    apply (Function.forall_update_iff c.thread fun j x => x.CountOk (bound j)).2
    exact ⟨(move_of_exec hexec).countOk (hc i), fun j _ => hc j⟩

/-- While some thread has not returned, some thread can step. -/
theorem terminal_iff_returned {bound : ι → Nat} {c : Config ι Local Shared} :
    (raceSystem bound).Terminal c ↔ ∀ i, (c.thread i).point = .returned := by
  have hnone : ∀ (n : Nat) (l : Local) (s : Shared), exec n l s = none ↔ l.point = .returned := by
    intro n l s
    cases hp : l.point <;> simp [exec, hp]
  exact Program.terminal_iff.trans (forall_congr' fun i => hnone _ _ _)

/-- The counter and the values loaded are not negative, and a thread that has stored before has made
the counter positive for good. -/
structure Inv (c : Config ι Local Shared) : Prop where
  global_nonneg : 0 ≤ c.shared.globalVar
  global_pos : ∀ i, 1 ≤ (c.thread i).stored → 1 ≤ c.shared.globalVar
  loaded_nonneg : ∀ i, (c.thread i).point = .storeGlobal → 0 ≤ (c.thread i).loaded

omit [DecidableEq ι] in
theorem Move.inv {bound : ι → Nat} {c d : Config ι Local Shared} (h : Inv c) {i : ι}
    (hmove : Move (bound i) c.shared (c.thread i) (d.thread i) d.shared)
    (hother : ∀ j ≠ i, d.thread j = c.thread j) : Inv d := by
  have hglobal := hmove.globalVar_eq
  have hstored := hmove.stored_eq
  by_cases hpoint : (c.thread i).point = .storeGlobal
  · -- the counter gets one more than what was loaded, which is not negative
    rw [if_pos hpoint] at hglobal
    have hnonneg := h.loaded_nonneg i hpoint
    refine ⟨by omega, fun _ _ => by omega, ?_⟩
    intro j hj
    rcases eq_or_ne j i with rfl | hne
    · rw [hmove.loaded_eq, hpoint] at hj
      cases hj
    · rw [hother j hne] at hj ⊢
      exact h.loaded_nonneg j hj
  · -- no other statement changes the counter or the number of stores
    rw [if_neg hpoint] at hglobal hstored
    refine ⟨hglobal.symm ▸ h.global_nonneg, ?_, ?_⟩
    · intro j hj
      rw [hglobal]
      apply h.global_pos j
      rcases eq_or_ne j i with rfl | hne
      · rwa [hstored] at hj
      · rwa [hother j hne] at hj
    · intro j hj
      rcases eq_or_ne j i with rfl | hne
      · rw [hmove.loaded_value (.inl (hmove.loaded_eq.1 hj))]
        exact h.global_nonneg
      · rw [hother j hne] at hj ⊢
        exact h.loaded_nonneg j hj

theorem move_of_step {bound : ι → Nat} {c d : Config ι Local Shared} {i : ι}
    (hstep : (raceSystem bound).Step c i d) :
    Move (bound i) c.shared (c.thread i) (d.thread i) d.shared ∧
      ∀ j ≠ i, d.thread j = c.thread j := by
  refine ⟨?_, fun j hj => Program.thread_of_ne hstep hj⟩
  obtain ⟨l, s, hexec, rfl⟩ := Program.exec_cases hstep
  simpa using move_of_exec hexec

theorem reachable_inv {bound : ι → Nat} {c : Config ι Local Shared}
    (h : (raceSystem bound).Reachable c) : Inv c := by
  apply h.invariant (I := Inv)
  · rintro c rfl
    refine ⟨le_refl _, ?_, ?_⟩
    · simp [start, Local.stored]
    · simp [start]
  · intro c i d _ hc hstep
    obtain ⟨hmove, hother⟩ := move_of_step hstep
    exact hmove.inv hc hother

/-! ## What is lost -/

/-- The step is a store. -/
def Stores (q : Config ι Local Shared × ι) : Prop :=
  (q.1.thread q.2).point = .storeGlobal

instance (q : Config ι Local Shared × ι) : Decidable (Stores q) :=
  inferInstanceAs (Decidable (_ = _))

/-- The stores of all threads since thread `i` last loaded the counter. -/
def storesSince (i : ι) (tr : List (Config ι Local Shared × ι)) : Nat :=
  tr.foldl (fun n q =>
    if q.2 = i ∧ (q.1.thread i).point = .loadGlobal then 0
    else if Stores q then n + 1 else n) 0

/-- No thread stores between the load of another and its store. -/
def Uninterrupted (tr : List (Config ι Local Shared × ι)) : Prop :=
  ∀ pre q post, tr = pre ++ q :: post → Stores q → storesSince q.2 pre = 0

/-- The counter after a run, against the number of stores. -/
structure Behind (tr : List (Config ι Local Shared × ι)) (c : Config ι Local Shared) : Prop where
  le : c.shared.globalVar ≤ tr.countP (fun q => decide (Stores q))
  loaded_le : ∀ i, (c.thread i).point = .storeGlobal →
    (c.thread i).loaded + storesSince i tr ≤ tr.countP (fun q => decide (Stores q))
  loaded_eq : ∀ i, (c.thread i).point = .storeGlobal → storesSince i tr = 0 →
    (c.thread i).loaded = c.shared.globalVar
  exact_iff : c.shared.globalVar = tr.countP (fun q => decide (Stores q)) ↔ Uninterrupted tr

theorem storesSince_snoc (i : ι) (tr : List (Config ι Local Shared × ι))
    (q : Config ι Local Shared × ι) :
    storesSince i (tr ++ [q]) =
      if q.2 = i ∧ (q.1.thread i).point = .loadGlobal then 0
      else if Stores q then storesSince i tr + 1 else storesSince i tr := by
  simp [storesSince]

theorem Behind.snoc {bound : ι → Nat} {tr : List (Config ι Local Shared × ι)}
    {c d : Config ι Local Shared} {i : ι} (h : Behind tr c)
    (hstep : (raceSystem bound).Step c i d) : Behind (tr ++ [(c, i)]) d := by
  obtain ⟨hmove, hother⟩ := move_of_step hstep
  have hglobal := hmove.globalVar_eq
  have hiff : Uninterrupted (tr ++ [(c, i)]) ↔
      Uninterrupted tr ∧ (Stores (c, i) → storesSince i tr = 0) := System.forall_steps_snoc
  by_cases hpoint : (c.thread i).point = .storeGlobal
  · have hstores : Stores (c, i) := hpoint
    have hnot : (d.thread i).point ≠ .storeGlobal := by
      rw [Ne, hmove.loaded_eq, hpoint]
      simp
    have hle := h.loaded_le i hpoint
    rw [if_pos hpoint] at hglobal
    have hcount : (tr ++ [(c, i)]).countP (fun q => decide (Stores q)) =
        tr.countP (fun q => decide (Stores q)) + 1 := by
      simp [List.countP_append, hstores]
    have hsince : ∀ j, (d.thread j).point = .storeGlobal →
        storesSince j (tr ++ [(c, i)]) = storesSince j tr + 1 ∧ d.thread j = c.thread j := by
      intro j hj
      have hne : j ≠ i := by
        rintro rfl
        exact hnot hj
      refine ⟨?_, hother j hne⟩
      rw [storesSince_snoc, if_neg (fun hi => hne hi.1.symm), if_pos hstores]
    refine ⟨?_, ?_, ?_, ?_⟩
    · omega
    · intro j hj
      obtain ⟨hj', hkeep⟩ := hsince j hj
      rw [hkeep] at hj ⊢
      have hle' := h.loaded_le j hj
      omega
    · intro j hj hzero
      have hj' := (hsince j hj).1
      omega
    · rw [hiff, ← h.exact_iff, hcount, hglobal]
      constructor
      · intro hexact
        have hzero : storesSince i tr = 0 := by omega
        have heq := h.loaded_eq i hpoint hzero
        exact ⟨by omega, fun _ => hzero⟩
      · rintro ⟨hexact, hzero⟩
        have heq := h.loaded_eq i hpoint (hzero hstores)
        omega
  · have hstores : ¬ Stores (c, i) := hpoint
    rw [if_neg hpoint] at hglobal
    have hcount : (tr ++ [(c, i)]).countP (fun q => decide (Stores q)) =
        tr.countP (fun q => decide (Stores q)) := by
      simp [List.countP_append, hstores]
    -- a thread before its store has loaded just now, or the others have not stored just now
    have hcases : ∀ j, (d.thread j).point = .storeGlobal →
        storesSince j (tr ++ [(c, i)]) = 0 ∧ (d.thread j).loaded = c.shared.globalVar ∨
        storesSince j (tr ++ [(c, i)]) = storesSince j tr ∧ d.thread j = c.thread j := by
      intro j hj
      rcases eq_or_ne j i with rfl | hne
      · have hload := hmove.loaded_eq.1 hj
        left
        refine ⟨?_, hmove.loaded_value (.inl hload)⟩
        rw [storesSince_snoc, if_pos ⟨rfl, hload⟩]
      · right
        refine ⟨?_, hother j hne⟩
        rw [storesSince_snoc, if_neg (fun hi => hne hi.1.symm), if_neg hstores]
    refine ⟨?_, ?_, ?_, ?_⟩
    · rw [hcount, hglobal]
      exact h.le
    · intro j hj
      rw [hcount]
      rcases hcases j hj with ⟨hzero, hload⟩ | ⟨hsame, hkeep⟩
      · rw [hzero, hload]
        simpa using h.le
      · rw [hsame, hkeep]
        exact h.loaded_le j (hkeep ▸ hj)
    · intro j hj hzero
      rw [hglobal]
      rcases hcases j hj with ⟨-, hload⟩ | ⟨hsame, hkeep⟩
      · exact hload
      · rw [hkeep]
        exact h.loaded_eq j (hkeep ▸ hj) (hsame ▸ hzero)
    · rw [hiff, hcount, hglobal, h.exact_iff]
      exact ⟨fun hclean => ⟨hclean, fun hs => absurd hs hstores⟩, fun hclean => hclean.1⟩

theorem behind_of_execution {bound : ι → Nat} {tr : List (Config ι Local Shared × ι)}
    {c : Config ι Local Shared} (h : (raceSystem bound).Execution tr c) : Behind tr c := by
  refine System.Execution.induct ?_ (fun tr c i d _ ih hstep => ih.snoc hstep) h
  rintro c rfl
  refine ⟨le_refl _, ?_, ?_, ?_⟩
  · simp [start]
  · simp [start]
  · simp [start, Uninterrupted]

theorem count_stores [Fintype ι] {bound : ι → Nat} {tr : List (Config ι Local Shared × ι)}
    {c : Config ι Local Shared} (h : (raceSystem bound).Execution tr c) :
    tr.countP (fun q => decide (Stores q)) = ∑ i, (c.thread i).stored := by
  refine System.Execution.countP_eq (f := fun c => ∑ i, (c.thread i).stored) ?_ ?_ h
  · rintro c rfl
    simp [start, Local.stored]
  · intro c i d _ hstep
    obtain ⟨hmove, hother⟩ := move_of_step hstep
    have hrest : ∑ j ∈ Finset.univ.erase i, (d.thread j).stored =
        ∑ j ∈ Finset.univ.erase i, (c.thread j).stored :=
      Finset.sum_congr rfl fun j hj => by rw [hother j (Finset.ne_of_mem_erase hj)]
    have hstored := hmove.stored_eq
    rw [← Finset.add_sum_erase _ _ (Finset.mem_univ i),
      ← Finset.add_sum_erase Finset.univ (fun j => (c.thread j).stored) (Finset.mem_univ i), hrest,
      hstored]
    by_cases hpoint : (c.thread i).point = .storeGlobal
    · rw [if_pos hpoint, if_pos (decide_eq_true (show Stores (c, i) from hpoint))]
      omega
    · rw [if_neg hpoint, if_neg (mt of_decide_eq_true (show ¬ Stores (c, i) from hpoint))]
      omega

/-- The stores of a run are at most all the iterations. -/
theorem count_stores_le [Fintype ι] {bound : ι → Nat} {tr : List (Config ι Local Shared × ι)}
    {c : Config ι Local Shared} (h : (raceSystem bound).Execution tr c) :
    tr.countP (fun q => decide (Stores q)) ≤ ∑ i, bound i := by
  rw [count_stores h]
  apply Finset.sum_le_sum
  intro i _
  have hcount := countOk_of_reachable h.reachable i
  cases hpoint : (c.thread i).point <;>
    simp only [Local.CountOk, hpoint] at hcount <;> simp only [Local.stored, hpoint] <;> omega

/-- In every run the counter is at most the number of stores, and it is that number if and only if
no thread has stored between the load of another and its store. At the end of a complete run the
stores are all the iterations. -/
theorem counter_exact_iff [Fintype ι] (bound : ι → Nat) {tr : List (Config ι Local Shared × ι)}
    {c : Config ι Local Shared} (h : (raceSystem bound).Execution tr c) :
    c.shared.globalVar ≤ tr.countP (fun q => decide (Stores q)) ∧
      (c.shared.globalVar = tr.countP (fun q => decide (Stores q)) ↔ Uninterrupted tr) ∧
      ((raceSystem bound).Terminal c →
        tr.countP (fun q => decide (Stores q)) = ∑ i, bound i) := by
  have hbehind := behind_of_execution h
  refine ⟨hbehind.le, hbehind.exact_iff, fun hterminal => ?_⟩
  rw [count_stores h]
  apply Finset.sum_congr rfl
  intro i _
  have hreturned := terminal_iff_returned.1 hterminal i
  have hcount := countOk_of_reachable h.reachable i
  rw [Local.CountOk, hreturned] at hcount
  rw [Local.stored, hreturned]
  exact hcount

/-- Two threads with one iteration each, the second one between the load and the store of the
first: two stores, and the counter is 1. -/
theorem one_of_two : ∃ tr c, (raceSystem ![1, 1]).Execution tr c ∧
    tr.countP (fun q => decide (Stores q)) = 2 ∧ ¬ Uninterrupted tr := by
  obtain ⟨tr, c, hrun, hcount, hglobal⟩ := (raceSystem ![1, 1]).exists_run_of_replay start
    ([0, 0] ++ List.replicate 9 1 ++ List.replicate 7 0)
    (fun tr c => tr.countP (fun q => decide (Stores q)) = 2 ∧ c.shared.globalVar = 1) (by decide)
  have hexec : (raceSystem ![1, 1]).Execution tr c := ⟨start, rfl, hrun⟩
  refine ⟨tr, c, hexec, hcount, ?_⟩
  rw [← (counter_exact_iff ![1, 1] hexec).2.1, hcount, hglobal]
  decide

/-! ## What is shown -/

/-- What is loaded for a line about the counter, and what the lines show, has been the value of the
counter after the stores of a whole loop: at least 1, and at most the number of stores. -/
structure Shown (tr : List (Config ι Local Shared × ι)) (c : Config ι Local Shared) : Prop where
  argument : ∀ i, (c.thread i).point = .printGlobal → 1 ≤ (c.thread i).loaded ∧
    (c.thread i).loaded ≤ tr.countP (fun q => decide (Stores q))
  line : ∀ v : Int, .global v ∈ c.shared.stdout → 1 ≤ v ∧ v ≤ tr.countP (fun q => decide (Stores q))

theorem Shown.snoc {bound : ι → Nat} (hbound : ∀ i, 1 ≤ bound i)
    {tr : List (Config ι Local Shared × ι)} {c d : Config ι Local Shared} {i : ι}
    (hexec : (raceSystem bound).Execution tr c) (h : Shown tr c)
    (hstep : (raceSystem bound).Step c i d) : Shown (tr ++ [(c, i)]) d := by
  obtain ⟨hmove, hother⟩ := move_of_step hstep
  have hle : tr.countP (fun q => decide (Stores q)) ≤
      (tr ++ [(c, i)]).countP (fun q => decide (Stores q)) := by
    rw [List.countP_append]
    exact Nat.le_add_right _ _
  have hargument : ∀ j, (c.thread j).point = .printGlobal → 1 ≤ (c.thread j).loaded ∧
      (c.thread j).loaded ≤ (tr ++ [(c, i)]).countP (fun q => decide (Stores q)) := by
    intro j hj
    obtain ⟨hpos, hloaded⟩ := h.argument j hj
    exact ⟨hpos, hloaded.trans (Int.ofNat_le.2 hle)⟩
  refine ⟨?_, ?_⟩
  · intro j hj
    rcases eq_or_ne j i with rfl | hne
    · -- the thread has stored all its increments, so the counter is positive
      have hload := hmove.argument_eq.1 hj
      have hcount := countOk_of_reachable hexec.reachable j
      simp only [Local.CountOk, hload] at hcount
      have hstored : 1 ≤ (c.thread j).stored := by
        simp only [Local.stored, hload, hcount]
        exact hbound j
      rw [hmove.loaded_value (.inr hload)]
      exact ⟨(reachable_inv hexec.reachable).global_pos j hstored,
        (behind_of_execution hexec).le.trans (Int.ofNat_le.2 hle)⟩
    · rw [hother j hne] at hj ⊢
      exact hargument j hj
  · intro v hv
    rcases hmove.mem_stdout.1 hv with hv | ⟨hprint, rfl⟩
    · -- an old line
      obtain ⟨hpos, hline⟩ := h.line v hv
      exact ⟨hpos, hline.trans (Int.ofNat_le.2 hle)⟩
    · -- the line that is printed shows the argument
      exact hargument i hprint

theorem shown_of_execution {bound : ι → Nat} (hbound : ∀ i, 1 ≤ bound i)
    {tr : List (Config ι Local Shared × ι)} {c : Config ι Local Shared}
    (h : (raceSystem bound).Execution tr c) : Shown tr c := by
  refine System.Execution.induct ?_ (fun tr c i d hexec ih hstep => ih.snoc hbound hexec hstep) h
  rintro c rfl
  refine ⟨?_, ?_⟩
  · simp [start]
  · simp [start]

omit [DecidableEq ι] in
theorem mem_of_lastGlobal {stdout : List Line} {v : Int} (h : lastGlobal stdout = some v) :
    .global v ∈ stdout := by
  obtain ⟨line, hline, hv⟩ := List.mem_filterMap.1 (List.mem_of_getLast? h)
  cases line with
  | global w =>
    obtain rfl : w = v := Option.some.inj hv
    exact hline
  | iterations w => cases hv

/-! ## Two threads -/

/-- A thread alone runs `k` iterations. -/
theorem iterations (bound i : Nat) (x v g : Int) (stdout : List Line) (k : Nat)
    (hk : i + k ≤ bound) :
    ∃ v', Relation.ReflTransGen (fun p q => exec bound p.1 p.2 = some q)
      ((⟨i, x, v, .loopHead⟩ : Local), (⟨g, stdout⟩ : Shared))
      (⟨i + k, x + k, v', .loopHead⟩, ⟨g + k, stdout⟩) := by
  induction k with
  | zero => exact ⟨v, by simpa using Relation.ReflTransGen.refl⟩
  | succ k ih =>
    obtain ⟨v', hrun⟩ := ih (by omega)
    have hi : i + k < bound := by omega
    refine ⟨g + k, hrun.trans ?_⟩
    have hiteration : Relation.ReflTransGen (fun p q => exec bound p.1 p.2 = some q)
        ((⟨i + k, x + k, v', .loopHead⟩ : Local), (⟨g + k, stdout⟩ : Shared))
        (⟨i + k + 1, x + k + 1, g + k, .loopHead⟩, ⟨g + k + 1, stdout⟩) := by
      refine .head (b := (⟨i + k, x + k, v', .loadGlobal⟩, ⟨g + k, stdout⟩)) (by simp [exec, hi]) ?_
      refine .head rfl (.head rfl (.head rfl (.head rfl .refl)))
    simpa [add_assoc] using hiteration

/-- A thread whose loop is over loads the counter for its line. -/
theorem loadsArgument {bound i : Nat} {x v g : Int} {stdout : List Line} (hi : i = bound) :
    Relation.ReflTransGen (fun p q => exec bound p.1 p.2 = some q)
      ((⟨i, x, v, .loopHead⟩ : Local), (⟨g, stdout⟩ : Shared))
      (⟨i, x, g, .printGlobal⟩, ⟨g, stdout⟩) := by
  refine .head (b := (⟨i, x, v, .loadArgument⟩, ⟨g, stdout⟩)) (by simp [exec, hi]) ?_
  exact .head rfl .refl

/-- A thread prints what it has loaded, whatever the counter is now, and returns. -/
theorem prints {bound i : Nat} {x v g : Int} {stdout : List Line} :
    Relation.ReflTransGen (fun p q => exec bound p.1 p.2 = some q)
      ((⟨i, x, v, .printGlobal⟩ : Local), (⟨g, stdout⟩ : Shared))
      (⟨i, x, v, .returned⟩, ⟨g, stdout ++ [.global v] ++ [.iterations x]⟩) :=
  .head rfl (.head rfl .refl)

/-- The two threads and the globals. -/
def pair (l m : Local) (s : Shared) : Config (Fin 2) Local Shared := ⟨![l, m], s⟩

/-- Some run leads from one configuration to the other. -/
def Leads (n₁ n₂ : Nat) (c d : Config (Fin 2) Local Shared) : Prop :=
  ∃ tr, (raceSystem ![n₁, n₂]).Run c tr d

section TwoThreads

variable {n₁ n₂ : Nat} {c d e : Config (Fin 2) Local Shared} {l l' m m' : Local} {s s' : Shared}

theorem start_eq : start = pair ⟨0, 0, 0, .loopHead⟩ ⟨0, 0, 0, .loopHead⟩ ⟨0, []⟩ := by
  unfold start pair
  congr
  funext i
  fin_cases i <;> rfl

theorem Leads.trans (h : Leads n₁ n₂ c d) (h' : Leads n₁ n₂ d e) : Leads n₁ n₂ c e := by
  obtain ⟨tr, hrun⟩ := h
  obtain ⟨tr', hrun'⟩ := h'
  exact ⟨tr ++ tr', hrun.append hrun'⟩

theorem first_alone
    (h : Relation.ReflTransGen (fun p q => exec n₁ p.1 p.2 = some q) (l, s) (l', s')) :
    Leads n₁ n₂ (pair l m s) (pair l' m s') := by
  have hupdate : ∀ x, Function.update ![l, m] 0 x = ![x, m] := by
    intro x
    funext i
    fin_cases i <;> rfl
  have hrun := (fn ![n₁, n₂]).exists_run_alone (· = start) 0 ![l, m] h
  rwa [hupdate, hupdate] at hrun

theorem second_alone
    (h : Relation.ReflTransGen (fun p q => exec n₂ p.1 p.2 = some q) (m, s) (m', s')) :
    Leads n₁ n₂ (pair l m s) (pair l m' s') := by
  have hupdate : ∀ x, Function.update ![l, m] 1 x = ![l, x] := by
    intro x
    funext i
    fin_cases i <;> rfl
  have hrun := (fn ![n₁, n₂]).exists_run_alone (· = start) 1 ![l, m] h
  rwa [hupdate, hupdate] at hrun

/-- A thread before its loop or between two iterations loads the counter. -/
theorem loads {bound i : Nat} {x v g : Int} {stdout : List Line} (hi : i < bound) :
    Relation.ReflTransGen (fun p q => exec bound p.1 p.2 = some q)
      ((⟨i, x, v, .loopHead⟩ : Local), (⟨g, stdout⟩ : Shared))
      (⟨i, x, g, .storeGlobal⟩, ⟨g, stdout⟩) := by
  refine .head (b := (⟨i, x, v, .loadGlobal⟩, ⟨g, stdout⟩)) (by simp [exec, hi]) ?_
  exact .head rfl .refl

/-- A thread that has loaded `v` makes the counter `v + 1`, whatever it is. -/
theorem stores {bound i : Nat} {x v g : Int} {stdout : List Line} :
    Relation.ReflTransGen (fun p q => exec bound p.1 p.2 = some q)
      ((⟨i, x, v, .storeGlobal⟩ : Local), (⟨g, stdout⟩ : Shared))
      (⟨i + 1, x + 1, v, .loopHead⟩, ⟨v + 1, stdout⟩) :=
  .head rfl (.head rfl (.head rfl .refl))

/-- The first thread loses the stores of its first `a` iterations, and loads the counter for its
line when the second one has gone through `k` more. It prints last. -/
theorem exists_run_showing (a k : Nat) (ha : a ≤ n₁) (hk : k + 1 ≤ n₂) :
    ∃ tr c, (raceSystem ![n₁, n₂]).Complete tr c ∧
      lastGlobal c.shared.stdout = some ((1 + (n₁ - a) + k : Nat) : Int) := by
  -- the second thread loads 0, and stores 1 after `a` iterations of the first
  have h₁ : Leads n₁ n₂ start (pair ⟨0, 0, 0, .loopHead⟩ ⟨0, 0, 0, .storeGlobal⟩ ⟨0, []⟩) :=
    start_eq ▸ second_alone (loads (by omega))
  obtain ⟨v₂, hv₂⟩ := iterations n₁ 0 0 0 0 [] a (by omega)
  have h₂ := h₁.trans (first_alone hv₂)
  have h₃ := h₂.trans (second_alone stores)
  -- the first thread ends its loop, and loads its argument after `k` iterations of the second
  obtain ⟨v₄, hv₄⟩ := iterations n₁ (0 + a) (0 + a) v₂ (0 + 1) [] (n₁ - a) (by omega)
  have h₄ := h₃.trans (first_alone hv₄)
  obtain ⟨v₅, hv₅⟩ := iterations n₂ (0 + 1) (0 + 1) 0 (0 + 1 + (n₁ - a : Nat)) [] k (by omega)
  have h₅ := h₄.trans (second_alone hv₅)
  have h₆ := h₅.trans (first_alone (loadsArgument (by omega)))
  -- the second thread runs to its end, and then the first one prints
  obtain ⟨v₇, hv₇⟩ := iterations n₂ (0 + 1 + k) (0 + 1 + k) v₅ (0 + 1 + (n₁ - a : Nat) + k) []
    (n₂ - (k + 1)) (by omega)
  have h₇ := h₆.trans (second_alone hv₇)
  have h₈ := h₇.trans (second_alone (loadsArgument (by omega)))
  have h₉ := h₈.trans (second_alone prints)
  obtain ⟨tr, hrun⟩ := h₉.trans (first_alone prints)
  refine ⟨tr, _, ⟨⟨start, rfl, hrun⟩, terminal_iff_returned.2 ?_⟩, ?_⟩
  · intro i
    fin_cases i <;> rfl
  · simp only [pair, lastGlobal, List.nil_append, List.cons_append, List.filterMap_cons,
      List.filterMap_nil, List.getLast?_cons_cons, List.getLast?_singleton, Option.some.injEq]
    omega

/-- With two threads of at least one iteration each, the last value of the counter that the program
prints can be any number from 1 to the sum of the iterations, and no other. -/
theorem shown_iff (h₁ : 1 ≤ n₁) (h₂ : 1 ≤ n₂) (value : Int) :
    (∃ tr c, (raceSystem ![n₁, n₂]).Complete tr c ∧ lastGlobal c.shared.stdout = some value) ↔
      1 ≤ value ∧ value ≤ n₁ + n₂ := by
  have hbound : ∀ i, 1 ≤ ![n₁, n₂] i := by
    intro i
    fin_cases i
    · exact h₁
    · exact h₂
  constructor
  · rintro ⟨tr, c, ⟨hexec, -⟩, hshown⟩
    obtain ⟨hpos, hle⟩ := (shown_of_execution hbound hexec).line value (mem_of_lastGlobal hshown)
    have hstores := count_stores_le hexec
    rw [Fin.sum_univ_two] at hstores
    exact ⟨hpos, hle.trans (by exact_mod_cast hstores)⟩
  · rintro ⟨hpos, hle⟩
    -- what is not made up by the second thread is left of the first one
    obtain ⟨more, hmore⟩ : ∃ more : Nat, value = 1 + more := ⟨(value - 1).toNat, by omega⟩
    have hsecond : min more (n₂ - 1) + 1 ≤ n₂ := by omega
    have hfirst : n₁ - (more - min more (n₂ - 1)) ≤ n₁ := Nat.sub_le _ _
    obtain ⟨tr, c, hcomplete, hshown⟩ := exists_run_showing _ _ hfirst hsecond
    refine ⟨tr, c, hcomplete, hshown.trans (congrArg some ?_)⟩
    omega

/-- The program of the file may end with a line that shows 1, after one hundred million
increments. -/
theorem shown_one : ∃ tr c, (raceSystem ![50000000, 50000000]).Complete tr c ∧
    lastGlobal c.shared.stdout = some 1 :=
  (shown_iff (by decide) (by decide) 1).2 (by decide)

end TwoThreads

end Sanntid.Counter.Race
