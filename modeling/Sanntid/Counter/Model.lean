import Sanntid.Transition.Threads
import Sanntid.Transition.Semaphore

/-!
# The counter behind a semaphore

`fn` of `ex3/taskC/main.c`: every thread increments the global counter in a loop, between `sem_wait`
and `sem_post`, and counts its own iterations in `local_var`. `global_var++` is a load and a store.
Any number of threads run it, each for its own number of iterations; the file has two threads and
50000000 iterations.

`Move.inv` says what one statement keeps: the semaphore guards the three statements between wait
and post, the loaded value is still the global one when it is stored, and the global counter is the
sum of the increments that the threads have stored (`Local.stored`).
-/

set_option autoImplicit false

namespace Sanntid.Counter

open Sanntid.Transition

universe u

/-- The statement of `fn` that a thread executes next. -/
inductive Point where
  | loopHead
  | semWait
  | loadGlobal
  | storeGlobal
  | semPost
  | incLocal
  | incI
  | returned
  deriving DecidableEq

/-- The variables of a thread, the value it has loaded, and its program point. -/
structure Local where
  i : Nat
  localVar : Int
  loaded : Int
  point : Point

/-- The thread goes on, its variables as they are. -/
@[simp] def Local.goto (l : Local) (p : Point) : Local := { l with point := p }

/-- The globals of the file. -/
structure Shared where
  globalVar : Int
  sem : Nat

/-- One statement of a thread whose loop runs to `bound`. -/
def exec (bound : Nat) (l : Local) (s : Shared) : Option (Local × Shared) :=
  match l.point with
  | .loopHead => some (l.goto (if l.i < bound then .semWait else .returned), s)
  | .semWait =>
    if s.sem ≠ 0 then some (l.goto .loadGlobal, { s with sem := s.sem - 1 }) else none
  -- `global_var++` is two steps
  | .loadGlobal => some ({ l with loaded := s.globalVar, point := .storeGlobal }, s)
  | .storeGlobal => some (l.goto .semPost, { s with globalVar := l.loaded + 1 })
  | .semPost => some (l.goto .incLocal, { s with sem := s.sem + 1 })
  | .incLocal => some ({ l with localVar := l.localVar + 1, point := .incI }, s)
  | .incI => some ({ l with i := l.i + 1, point := .loopHead }, s)
  | .returned => none

variable {ι : Type u} [DecidableEq ι]

/-- Thread `i` runs `fn` for `bound i` iterations. -/
def fn (bound : ι → Nat) : Program ι Local Shared where
  exec := fun i => exec (bound i)

/-- All threads before their loop, the counter at 0 and the semaphore at 1. -/
def start : Config ι Local Shared where
  thread := fun _ => ⟨0, 0, 0, .loopHead⟩
  shared := ⟨0, 1⟩

/-- All interleavings of the threads, from the start. -/
def counterSystem (bound : ι → Nat) : System (Config ι Local Shared) ι :=
  (fn bound).system (· = start)

/-! ## What a statement does -/

/-- What one statement does to its thread and to the globals, by cases. -/
inductive Move (bound : Nat) (s : Shared) : Local → Local → Shared → Prop
  | enter {i : Nat} {x v : Int} : i < bound →
      Move bound s ⟨i, x, v, .loopHead⟩ ⟨i, x, v, .semWait⟩ s
  | leave {i : Nat} {x v : Int} : ¬ i < bound →
      Move bound s ⟨i, x, v, .loopHead⟩ ⟨i, x, v, .returned⟩ s
  | semWait {i : Nat} {x v : Int} : s.sem ≠ 0 →
      Move bound s ⟨i, x, v, .semWait⟩ ⟨i, x, v, .loadGlobal⟩ { s with sem := s.sem - 1 }
  | loadGlobal {i : Nat} {x v : Int} :
      Move bound s ⟨i, x, v, .loadGlobal⟩ ⟨i, x, s.globalVar, .storeGlobal⟩ s
  | storeGlobal {i : Nat} {x v : Int} :
      Move bound s ⟨i, x, v, .storeGlobal⟩ ⟨i, x, v, .semPost⟩ { s with globalVar := v + 1 }
  | semPost {i : Nat} {x v : Int} :
      Move bound s ⟨i, x, v, .semPost⟩ ⟨i, x, v, .incLocal⟩ { s with sem := s.sem + 1 }
  | incLocal {i : Nat} {x v : Int} :
      Move bound s ⟨i, x, v, .incLocal⟩ ⟨i, x + 1, v, .incI⟩ s
  | incI {i : Nat} {x v : Int} :
      Move bound s ⟨i, x, v, .incI⟩ ⟨i + 1, x, v, .loopHead⟩ s

omit [DecidableEq ι] in
theorem move_of_exec {bound : Nat} {l l' : Local} {s s' : Shared}
    (h : exec bound l s = some (l', s')) : Move bound s l l' s' := by
  rcases l with ⟨i, x, v, point⟩
  cases point with
  | loopHead =>
    simp only [exec, Local.goto, Option.some.injEq, Prod.mk.injEq] at h
    obtain ⟨rfl, rfl⟩ := h
    by_cases hi : i < bound
    · simpa [hi] using Move.enter hi
    · simpa [hi] using Move.leave hi
  | semWait =>
    simp only [exec, Option.ite_none_right_eq_some, Option.some.injEq, Prod.mk.injEq] at h
    obtain ⟨hsem, rfl, rfl⟩ := h
    exact .semWait hsem
  | returned => simp [exec] at h
  | _ =>
    simp only [exec, Option.some.injEq, Prod.mk.injEq] at h
    obtain ⟨rfl, rfl⟩ := h
    constructor

/-! ## The invariant -/

/-- Between `sem_wait` and `sem_post`. -/
@[simp] def Point.inside : Point → Bool
  | .loadGlobal | .storeGlobal | .semPost => true
  | _ => false

/-- The increments that a thread has stored. -/
def Local.stored (l : Local) : Nat :=
  match l.point with
  | .semPost | .incLocal | .incI => l.i + 1
  | _ => l.i

/-- The counters of one thread: `local_var` counts the iterations, which stay within the bound. -/
def Local.CountOk (bound : Nat) (l : Local) : Prop :=
  match l.point with
  | .loopHead => l.localVar = l.i ∧ l.i ≤ bound
  | .incI => l.localVar = l.i + 1 ∧ l.i < bound
  | .returned => l.localVar = l.i ∧ l.i = bound
  | _ => l.localVar = l.i ∧ l.i < bound

variable [Fintype ι]

/-- The semaphore guards the increment, no loaded value is stale when it is stored, and the counter
is the sum of what the threads have stored. -/
structure Inv (bound : ι → Nat) (c : Config ι Local Shared) : Prop where
  guarded : Guarded (fun l : Local => l.point.inside = true) c.shared.sem c.thread
  loaded : ∀ i, (c.thread i).point = .storeGlobal → (c.thread i).loaded = c.shared.globalVar
  global : c.shared.globalVar = ∑ i, ((c.thread i).stored : Int)
  count : ∀ i, (c.thread i).CountOk (bound i)

omit [DecidableEq ι] in
theorem start_inv (bound : ι → Nat) : Inv bound (start : Config ι Local Shared) where
  guarded := Or.inl ⟨rfl, by simp [start]⟩
  loaded := by simp [start]
  global := by simp [start, Local.stored]
  count := by simp [start, Local.CountOk]

/-- A step of thread `i`: what it must show about its own state and the globals. -/
theorem Inv.update {bound : ι → Nat} {c : Config ι Local Shared} (h : Inv bound c) {i : ι}
    {l : Local} {s : Shared}
    (hguarded : Guarded (fun l : Local => l.point.inside = true) s.sem
      (Function.update c.thread i l))
    (hself : l.point = .storeGlobal → l.loaded = s.globalVar)
    (hother : ∀ j, j ≠ i → (c.thread j).point = .storeGlobal →
      s.globalVar = c.shared.globalVar)
    (hglobal : s.globalVar = c.shared.globalVar + ((l.stored : Int) - (c.thread i).stored))
    (hcount : l.CountOk (bound i)) : Inv bound ⟨Function.update c.thread i l, s⟩ where
  guarded := hguarded
  loaded := by
    apply (Function.forall_update_iff c.thread fun _ x =>
      x.point = .storeGlobal → x.loaded = s.globalVar).2
    exact ⟨hself, fun j hj hp => (h.loaded j hp).trans (hother j hj hp).symm⟩
  global := by
    show s.globalVar = _
    rw [sum_update (fun l : Local => (l.stored : Int)), ← h.global]
    exact hglobal
  count := by
    apply (Function.forall_update_iff c.thread fun j x => x.CountOk (bound j)).2
    exact ⟨hcount, fun j _ => h.count j⟩

/-- A statement that leaves the globals alone, and stays inside or outside. -/
theorem Inv.stay {bound : ι → Nat} {c : Config ι Local Shared} (h : Inv bound c) {i : ι}
    {l : Local} (hin : l.point.inside = (c.thread i).point.inside)
    (hself : l.point = .storeGlobal → l.loaded = c.shared.globalVar)
    (hstored : l.stored = (c.thread i).stored) (hcount : l.CountOk (bound i)) :
    Inv bound ⟨Function.update c.thread i l, c.shared⟩ := by
  refine h.update (h.guarded.stay (by rw [hin])) hself (fun _ _ _ => rfl) ?_ hcount
  rw [hstored, sub_self, add_zero]

theorem Move.inv {bound : ι → Nat} {c : Config ι Local Shared} (h : Inv bound c) {i : ι}
    {l : Local} {s : Shared} (hmove : Move (bound i) c.shared (c.thread i) l s) :
    Inv bound ⟨Function.update c.thread i l, s⟩ := by
  have hcount := h.count i
  have hin := h.guarded
  generalize ht : c.thread i = t at hmove
  rw [ht] at hcount
  cases hmove with
  | enter hi =>
    refine h.stay ?_ ?_ ?_ ⟨hcount.1, hi⟩ <;> simp [ht, Local.stored]
  | leave hi =>
    refine h.stay ?_ ?_ ?_ ⟨hcount.1, le_antisymm hcount.2 (not_lt.1 hi)⟩ <;>
      simp [ht, Local.stored]
  | semWait hsem =>
    refine h.update (hin.enter hsem rfl) ?_ (fun _ _ _ => rfl) ?_ hcount <;>
      simp [ht, Local.stored]
  | loadGlobal =>
    refine h.stay ?_ ?_ ?_ hcount <;> simp [ht, Local.stored]
  | storeGlobal =>
    -- what was loaded is still the value of the counter
    have hloaded := h.loaded i (by rw [ht])
    rw [ht] at hloaded
    refine h.update (hin.stay ?_) ?_ (fun j hj hj' => ?_) ?_ hcount
    · simp [ht]
    · simp
    · -- nobody else is between its load and its store
      exact absurd (hin.unique (by simp [hj']) (by simp [ht])) hj
    · simpa [ht, Local.stored] using hloaded
  | semPost =>
    refine h.update (hin.leave ?_ ?_) ?_ (fun _ _ _ => rfl) ?_ hcount <;>
      simp [ht, Local.stored]
  | incLocal =>
    refine h.stay ?_ ?_ ?_ ⟨congrArg (· + 1) hcount.1, hcount.2⟩ <;> simp [ht, Local.stored]
  | incI =>
    refine h.stay ?_ ?_ ?_ ⟨hcount.1, hcount.2⟩ <;> simp [ht, Local.stored]

theorem reachable_inv {bound : ι → Nat} {c : Config ι Local Shared}
    (h : (counterSystem bound).Reachable c) : Inv bound c := by
  refine System.Reachable.invariant (I := Inv bound) ?_ ?_ h
  · rintro c rfl
    exact start_inv bound
  · intro c i d _ hc hstep
    obtain ⟨l, s, hexec, rfl⟩ := Program.exec_cases hstep
    exact (move_of_exec hexec).inv hc

/-! ## Runs -/

/-- Thread `i` stores its increment. -/
def Stores (i : ι) (q : Config ι Local Shared × ι) : Prop :=
  q.2 = i ∧ (q.1.thread i).point = .storeGlobal

instance (i : ι) (q : Config ι Local Shared × ι) : Decidable (Stores i q) :=
  inferInstanceAs (Decidable (_ ∧ _))

omit [DecidableEq ι] [Fintype ι] in
/-- The store is the statement that raises the number of stored increments. -/
theorem Move.stored_eq {bound : Nat} {l l' : Local} {s s' : Shared} (hmove : Move bound s l l' s') :
    l'.stored = l.stored + if l.point = .storeGlobal then 1 else 0 := by
  cases hmove <;> simp [Local.stored]

omit [Fintype ι] in
theorem count_stores {bound : ι → Nat} {tr : List (Config ι Local Shared × ι)}
    {c : Config ι Local Shared} (h : (counterSystem bound).Execution tr c) (i : ι) :
    tr.countP (fun q => decide (Stores i q)) = (c.thread i).stored := by
  refine System.Execution.countP_eq (f := fun c => (c.thread i).stored) ?_ ?_ h
  · rintro c rfl
    rfl
  · intro c j d _ hstep
    by_cases hj : j = i
    · subst hj
      obtain ⟨l, s, hexec, rfl⟩ := Program.exec_cases hstep
      simpa [Stores] using (move_of_exec hexec).stored_eq
    · simp [Program.thread_of_ne hstep (Ne.symm hj), Stores, hj]

/-- While some thread has not returned, some thread can step. -/
theorem returned_of_terminal {bound : ι → Nat} {c : Config ι Local Shared} (h : Inv bound c)
    (hterm : (counterSystem bound).Terminal c) (i : ι) : (c.thread i).point = .returned := by
  have hnone : ∀ j, exec (bound j) (c.thread j) c.shared = none := Program.terminal_iff.1 hterm
  -- a thread inside could go on, so the semaphore is free
  have hout : ∀ j, ¬ (c.thread j).point.inside = true := by
    intro j hj
    have hexec := hnone j
    cases hp : (c.thread j).point <;> simp [hp, exec] at hj hexec
  have hsem := h.guarded.value_eq_one_iff.2 hout
  have hexec := hnone i
  cases hp : (c.thread i).point <;> simp [hp, exec, hsem] at hexec
  rfl

/-- In every run of any number of threads with any numbers of iterations: at most one thread is
between its load and its store, the global counter is the number of increments stored so far, and
once all threads have returned it is the sum of their `local_var`. -/
theorem no_update_lost (bound : ι → Nat) {tr : List (Config ι Local Shared × ι)}
    {c : Config ι Local Shared} (h : (counterSystem bound).Execution tr c) :
    (∀ i j, (c.thread i).point = .storeGlobal → (c.thread j).point = .storeGlobal → i = j) ∧
      c.shared.globalVar = ∑ i, (tr.countP (fun q => decide (Stores i q)) : Int) ∧
      ((∀ i, (c.thread i).point = .returned) →
        c.shared.globalVar = ∑ i, (c.thread i).localVar) := by
  have hinv := reachable_inv h.reachable
  refine ⟨fun i j hi hj => ?_, ?_, fun hret => ?_⟩
  · exact hinv.guarded.unique (by simp [hi]) (by simp [hj])
  · rw [hinv.global]
    exact Finset.sum_congr rfl fun i _ => by rw [count_stores h i]
  · rw [hinv.global]
    apply Finset.sum_congr rfl
    intro i _
    have hcount := hinv.count i
    simp only [Local.CountOk, hret i] at hcount
    simp [Local.stored, hret i, hcount.1]

/-- Two threads with one and two iterations, to the end; the second one starts while the first is
between its load and its store. -/
theorem three_increments :
    ∃ tr c, (counterSystem ![1, 2]).Execution tr c ∧ c.shared.globalVar = 3 ∧
      c.shared.globalVar = ∑ i, (c.thread i).localVar := by
  obtain ⟨tr, c, hrun, htest⟩ := (counterSystem ![1, 2]).exists_run_of_replay start
    ([0, 0, 0, 1] ++ List.replicate 5 0 ++ List.replicate 14 1)
    (fun _ c => c.shared.globalVar = 3 ∧ ∀ i, (c.thread i).point = .returned) (by decide)
  have hexec : (counterSystem ![1, 2]).Execution tr c := ⟨start, rfl, hrun⟩
  exact ⟨tr, c, hexec, htest.1, (no_update_lost ![1, 2] hexec).2.2 htest.2⟩

end Sanntid.Counter
