import Sanntid.DoubleChecked.Model

/-!
# What the calls of `getSingleton` return

`initialised_once`: under every interleaving of any number of callers the struct is allocated and
filled in at most once, and the pointer, once set, is the one that every call returns. A call has
the struct allocated when it returns, and filled in if the call went through `sem_wait`.

`returns_finished_iff`: the pointer is published before the fields are written, and the first check
is made without the semaphore. So a call returns a finished struct exactly when no thread is
between the allocation and the last field write; `unfinished_return` is a run in which a second
caller comes in between.
-/

set_option autoImplicit false

namespace Sanntid.DoubleChecked

open Sanntid.Transition

variable {ι : Type} [DecidableEq ι] {c : Config ι Local Shared}

omit [DecidableEq ι] in
/-- A call that has got to its last read has seen the pointer set, and after `sem_wait` it has seen
the struct finished. -/
theorem Inv.set_of_finalRead (h : Inv c) {i : ι} (hi : (c.thread i).point = .finalRead) :
    c.shared.gSingleton = some 0 ∧ ((c.thread i).waited = true → Finished c.shared) := by
  have hphase := h.phase
  generalize hg : c.shared.gSingleton = g at hphase
  generalize hheap : c.shared.heap = heap at hphase
  cases hphase with
  | unset hpoint => exact absurd hi (hpoint i).2.2
  | filling j _ hwaited =>
    refine ⟨rfl, fun htrue => ?_⟩
    rw [hwaited i hi] at htrue
    exact absurd htrue (by decide)
  | done _ => exact ⟨rfl, fun _ => ⟨0, hg, by rw [hheap]; rfl⟩⟩

omit [DecidableEq ι] in
/-- Once the pointer is set, the struct is finished exactly when nobody is filling it in. -/
theorem Inv.finished_iff (h : Inv c) (hset : c.shared.gSingleton = some 0) :
    Finished c.shared ↔ ∀ j, (c.thread j).point.initialising = false := by
  have hphase := h.phase
  rw [Finished, hset]
  rw [hset] at hphase
  generalize c.shared.heap = heap at hphase
  generalize hg : some 0 = g at hphase
  cases hphase with
  | unset _ => simp at hg
  | filling j hj _ =>
    constructor
    · -- a field is missing at each of the four points
      rintro ⟨p, hp, hfinal⟩
      obtain rfl := Option.some.inj hp
      cases hpoint : (c.thread j).point <;> rw [hpoint] at hj hfinal <;>
        first | exact absurd hj (by decide) | exact absurd hfinal (by decide)
    · intro hnone
      rw [hnone j] at hj
      exact absurd hj (by decide)
  | done hpoint => exact ⟨fun _ j => (hpoint j).1, fun _ => ⟨0, rfl, rfl⟩⟩

omit [DecidableEq ι] in
/-- A pointer that is set points to the one struct of the heap. -/
theorem Inv.heap_of_set (h : Inv c) {p : Nat} (hset : c.shared.gSingleton = some p) :
    ∃ x, c.shared.heap = [x] ∧ p = 0 := by
  have hphase := h.phase
  rw [hset] at hphase
  generalize c.shared.heap = heap at hphase ⊢
  generalize hg : some p = g at hphase
  cases hphase with
  | unset _ => simp at hg
  | filling i _ _ => exact ⟨_, rfl, Option.some.inj hg⟩
  | done _ => exact ⟨_, rfl, Option.some.inj hg⟩

/-! ## Calls that wait -/

/-- Whether thread `i` has gone through `sem_wait` in the call that it is in, as the statements of
the run say. -/
def wentThroughWait (i : ι) (tr : List (Config ι Local Shared × ι)) : Bool :=
  tr.foldl (fun went q =>
    if q.2 = i then
      match (q.1.thread i).point with
      | .idle => false
      | .semWait => true
      | _ => went
    else went) false

theorem exec_waited {l l' : Local} {s s' : Shared} (h : exec l s = some (l', s')) :
    l'.waited = match l.point with
      | .idle => false
      | .semWait => true
      | _ => l.waited := by
  simp only [exec] at h
  cases hp : l.point with
  | semWait =>
    simp only [hp, Option.ite_none_left_eq_some, Option.some.injEq, Prod.mk.injEq] at h
    obtain ⟨-, rfl, -⟩ := h
    rfl
  | writeA | writeB | writeC | writeD =>
    simp only [hp, Option.map_eq_some_iff, Prod.mk.injEq] at h
    obtain ⟨-, -, rfl, -⟩ := h
    rfl
  | _ =>
    simp only [hp, Option.some.injEq, Prod.mk.injEq] at h
    obtain ⟨rfl, -⟩ := h
    rfl

/-- The flag of a thread says what its statements have been. -/
theorem waited_eq {tr : List (Config ι Local Shared × ι)} (h : singletonSystem.Execution tr c)
    (i : ι) : (c.thread i).waited = wentThroughWait i tr := by
  refine System.Execution.induct (motive := fun tr c => (c.thread i).waited = wentThroughWait i tr)
    ?_ ?_ h
  · rintro c rfl
    rfl
  · intro tr c j d _ ih hstep
    -- the last statement of the thread decides
    have hsnoc : wentThroughWait i (tr ++ [(c, j)]) =
        if j = i then
          match (c.thread i).point with
          | .idle => false
          | .semWait => true
          | _ => wentThroughWait i tr
        else wentThroughWait i tr := by
      simp [wentThroughWait]
    obtain ⟨l, s, hexec, rfl⟩ := Program.exec_cases hstep
    rw [hsnoc, ← ih]
    rcases eq_or_ne j i with rfl | hj
    · rw [if_pos rfl, ← exec_waited hexec]
      simp
    · rw [if_neg hj]
      simp [hj.symm]

/-! ## Initialised once -/

/-- The allocation and the four field writes. -/
def initialisation : List Point := [.malloc, .writeA, .writeB, .writeC, .writeD]

/-- The place of a statement among the allocation and the four field writes. -/
def Point.index : Point → Option Nat
  | .malloc => some 0
  | .writeA => some 1
  | .writeB => some 2
  | .writeC => some 3
  | .writeD => some 4
  | _ => none

theorem Point.index_inj {p q : Point} {n : Nat} (hp : p.index = some n) (hq : q.index = some n) :
    p = q := by
  rw [← hq] at hp
  cases p <;> cases q <;> first | rfl | simp [Point.index] at hp hq

/-- The number of fields that have been written. -/
def Singleton.fieldsSet (x : Singleton) : Nat :=
  x.a.isSome.toNat + x.b.isSome.toNat + x.c.isSome.toNat + x.d.isSome.toNat

/-- How many of these five statements the heap shows to have been executed. -/
def progress : List Singleton → Nat
  | [] => 0
  | x :: _ => 1 + x.fieldsSet

omit [DecidableEq ι] in
/-- One of the five statements is executed only at its turn, and no other one counts. -/
theorem exec_progress (h : Inv c) {i : ι} {l : Local} {s : Shared}
    (hexec : exec (c.thread i) c.shared = some (l, s)) :
    (c.thread i).point.index = none ∧ s.heap = c.shared.heap ∨
      (c.thread i).point.index = some (progress c.shared.heap) ∧
        progress s.heap = progress c.shared.heap + 1 := by
  simp only [exec] at hexec
  cases hp : (c.thread i).point with
  | malloc =>
    -- the heap is empty, so the allocation is the first of the five
    obtain ⟨-, hheap, -⟩ := h.unset_of_malloc hp
    simp only [hp, Option.some.injEq, Prod.mk.injEq] at hexec
    obtain ⟨-, rfl⟩ := hexec
    exact Or.inr (by simp [hheap, Point.index, progress, Singleton.fresh, Singleton.fieldsSet])
  | writeA | writeB | writeC | writeD =>
    -- the fields before this one have been written, and no later one
    obtain ⟨hg, hheap, -⟩ := h.filling (i := i) (by rw [hp]; rfl)
    rw [hp] at hheap
    simp only [hp, Shared.store, hg, hheap, Option.map_some, Option.some.injEq,
      Prod.mk.injEq] at hexec
    obtain ⟨-, rfl⟩ := hexec
    rw [hheap]
    exact Or.inr ⟨rfl, rfl⟩
  | semWait =>
    simp only [hp, Option.ite_none_left_eq_some, Option.some.injEq, Prod.mk.injEq] at hexec
    obtain ⟨-, -, rfl⟩ := hexec
    exact Or.inl ⟨rfl, rfl⟩
  | _ =>
    simp only [hp, Option.some.injEq, Prod.mk.injEq] at hexec
    obtain ⟨-, rfl⟩ := hexec
    exact Or.inl ⟨rfl, rfl⟩

/-- Each of the five statements has been executed once or not at all, as the heap shows. -/
theorem count_eq {tr : List (Config ι Local Shared × ι)} (h : singletonSystem.Execution tr c)
    {p : Point} {n : Nat} (hp : p.index = some n) :
    tr.countP (fun q => decide (At p q)) = if n < progress c.shared.heap then 1 else 0 := by
  refine System.Execution.countP_eq (f := fun d => if n < progress d.shared.heap then 1 else 0)
    ?_ ?_ h
  · rintro d rfl
    rfl
  · intro d i e hd hstep
    obtain ⟨l, s, hexec, rfl⟩ := Program.exec_cases hstep
    rcases exec_progress (reachable_inv hd) hexec with ⟨hnone, hheap⟩ | ⟨hsome, hprogress⟩
    · -- none of the five statements is executed
      have hne : ¬ At p (d, i) := by
        intro hat
        rw [show (d.thread i).point = p from hat, hp] at hnone
        exact absurd hnone (by simp)
      simp [hheap, hne]
    · -- the counter of `p` moves at its own turn only
      by_cases hat : At p (d, i)
      · rw [show (d.thread i).point = p from hat, hp, Option.some.injEq] at hsome
        simp [hat, hprogress, hsome]
      · have hne : n ≠ progress d.shared.heap := by
          intro heq
          exact hat (Point.index_inj hsome (heq ▸ hp))
        have hiff : n < progress s.heap ↔ n < progress d.shared.heap := by omega
        simp [hat, hiff]

omit [DecidableEq ι] in
/-- A statement leaves a pointer that is set alone. -/
theorem exec_pointer (h : Inv c) {i : ι} {l : Local} {s : Shared}
    (hexec : exec (c.thread i) c.shared = some (l, s)) (hset : c.shared.gSingleton ≠ none) :
    s.gSingleton = c.shared.gSingleton := by
  simp only [exec] at hexec
  cases hp : (c.thread i).point with
  | malloc => exact absurd (h.unset_of_malloc hp).1 hset
  | writeA | writeB | writeC | writeD =>
    simp only [hp, Shared.store, Option.map_map, Option.map_eq_some_iff, Function.comp_apply,
      Prod.mk.injEq] at hexec
    obtain ⟨-, -, -, rfl⟩ := hexec
    rfl
  | semWait =>
    simp only [hp, Option.ite_none_left_eq_some, Option.some.injEq, Prod.mk.injEq] at hexec
    obtain ⟨-, -, rfl⟩ := hexec
    rfl
  | _ =>
    simp only [hp, Option.some.injEq, Prod.mk.injEq] at hexec
    obtain ⟨-, rfl⟩ := hexec
    rfl

/-- The pointer does not change once it is set. -/
theorem pointer_stable {tr : List (Config ι Local Shared × ι)}
    (h : singletonSystem.Execution tr c) {q : Config ι Local Shared × ι} (hq : q ∈ tr) {p : Nat}
    (hp : q.1.shared.gSingleton = some p) : c.shared.gSingleton = some p := by
  obtain ⟨pre, post, rfl⟩ := List.append_of_mem hq
  obtain ⟨hpre, d, hstep, hpost⟩ := h.split
  have hkeep : ∀ (s : Config ι Local Shared) i t, singletonSystem.Reachable s →
      s.shared.gSingleton = some p → singletonSystem.Step s i t →
      t.shared.gSingleton = some p := by
    intro s i t hs hset hst
    obtain ⟨l, u, hexec, rfl⟩ := Program.exec_cases hst
    rw [← hset]
    exact exec_pointer (reachable_inv hs) hexec (by simp [hset])
  exact hpost.preserves hkeep (hpre.reachable.step hstep)
    (hkeep _ _ _ hpre.reachable hp hstep)

theorem index_of_mem {p : Point} (hp : p ∈ initialisation) : ∃ n, n < 5 ∧ p.index = some n := by
  fin_cases hp
  · exact ⟨0, by decide, rfl⟩
  · exact ⟨1, by decide, rfl⟩
  · exact ⟨2, by decide, rfl⟩
  · exact ⟨3, by decide, rfl⟩
  · exact ⟨4, by decide, rfl⟩

/-- Any number of threads, any number of calls, every interleaving: the allocation and the four
field writes are executed at most once each; the pointer does not change once it is set; all calls
return the same pointer, which is that of a struct on the heap, and when they do the allocation has
been executed exactly once; a call that went through `sem_wait` returns a finished struct, after
each of the five statements has been executed exactly once; and the semaphore is 0 or 1, and 1 while
no thread is between its `sem_wait` and its `sem_post`. -/
theorem initialised_once {tr : List (Config ι Local Shared × ι)}
    (h : singletonSystem.Execution tr c) :
    (∀ p ∈ initialisation, tr.countP (fun q => decide (At p q)) ≤ 1) ∧
      (∀ q ∈ tr, ∀ p, q.1.shared.gSingleton = some p → c.shared.gSingleton = some p) ∧
      (∃ p, ∀ pre q post, tr = pre ++ q :: post → At .finalRead q →
        q.1.shared.gSingleton = some p ∧ p < q.1.shared.heap.length ∧
          pre.countP (fun r => decide (At .malloc r)) = 1) ∧
      (∀ pre q post, tr = pre ++ q :: post → At .finalRead q → wentThroughWait q.2 pre = true →
        Finished q.1.shared ∧
          ∀ p ∈ initialisation, pre.countP (fun r => decide (At p r)) = 1) ∧
      c.shared.sem ≤ 1 ∧
      ((∀ i, (c.thread i).point.inside = false) → c.shared.sem = 1) := by
  have hc := reachable_inv h.reachable
  refine ⟨?_, fun q hq p hp => pointer_stable h hq hp, ⟨0, ?_⟩, ?_, hc.guarded.value_le_one, ?_⟩
  · intro p hp
    obtain ⟨n, -, hn⟩ := index_of_mem hp
    rw [count_eq h hn]
    split <;> omega
  · rintro pre q post rfl hat
    obtain ⟨hpre, -⟩ := h.split
    have hinv := reachable_inv hpre.reachable
    have hset := (hinv.set_of_finalRead hat).1
    obtain ⟨x, hheap, -⟩ := hinv.heap_of_set hset
    refine ⟨hset, by simp [hheap], ?_⟩
    rw [count_eq hpre (rfl : Point.malloc.index = some 0), hheap, if_pos]
    exact Nat.lt_of_lt_of_le Nat.zero_lt_one (Nat.le_add_right 1 _)
  · rintro pre q post rfl hat hwent
    obtain ⟨hpre, -⟩ := h.split
    have hinv := reachable_inv hpre.reachable
    obtain ⟨hset, hfinished⟩ := hinv.set_of_finalRead hat
    have hfin := hfinished ((waited_eq hpre q.2).trans hwent)
    refine ⟨hfin, fun p hp => ?_⟩
    -- a finished struct shows that all five statements have been executed
    obtain ⟨x, hheap, -⟩ := hinv.heap_of_set hset
    obtain ⟨p₀, hp₀, hfinal⟩ := hfin
    obtain rfl : 0 = p₀ := Option.some.inj (hset.symm.trans hp₀)
    rw [hheap, List.getElem?_cons_zero, Option.some.injEq] at hfinal
    obtain ⟨n, hlt, hn⟩ := index_of_mem hp
    rw [count_eq hpre hn, hheap, hfinal]
    exact if_pos hlt
  · intro hout
    exact hc.guarded.value_eq_one_iff.2 (by simpa using hout)

/-! ## Finished when returned -/

/-- In every run: all calls return a finished struct if and only if no call returns while a thread
is between the allocation and the last field write. -/
theorem returns_finished_iff {tr : List (Config ι Local Shared × ι)}
    (h : singletonSystem.Execution tr c) :
    (∀ q ∈ tr, At .finalRead q → Finished q.1.shared) ↔
      ∀ q ∈ tr, At .finalRead q → ∀ j, (q.1.thread j).point.initialising = false := by
  have hiff : ∀ q ∈ tr, At .finalRead q →
      (Finished q.1.shared ↔ ∀ j, (q.1.thread j).point.initialising = false) := by
    intro q hq hat
    have hinv := reachable_inv (h.reachable_of_mem hq).1
    exact hinv.finished_iff (hinv.set_of_finalRead hat).1
  constructor
  · intro hfin q hq hat
    exact (hiff q hq hat).1 (hfin q hq hat)
  · intro hnone q hq hat
    exact (hiff q hq hat).2 (hnone q hq hat)

/-! ## Two callers -/

/-- Thread 0 makes the first call up to the statement after `n` steps. -/
def firstCall (n : Nat) : List (Fin 2) := List.replicate n 0

/-- A call of thread 1 that finds the pointer set. -/
def secondCall : List (Fin 2) := [1, 1, 1]

/-- The second caller comes after the first call: both get the finished struct. -/
theorem second_call_finished :
    ∃ tr c, (singletonSystem (ι := Fin 2)).Execution tr c ∧
      tr.countP (fun q => decide (At .finalRead q)) = 2 ∧
      ∀ q ∈ tr, At .finalRead q → Finished q.1.shared := by
  obtain ⟨tr, c, hrun, htest⟩ := (singletonSystem (ι := Fin 2)).exists_run_of_replay start
    (firstCall 11 ++ secondCall)
    (fun tr _ => tr.countP (fun q => decide (At .finalRead q)) = 2 ∧
      ∀ q ∈ tr, At .finalRead q → ∀ j, (q.1.thread j).point.initialising = false) (by decide)
  have hexec : (singletonSystem (ι := Fin 2)).Execution tr c := ⟨start, rfl, hrun⟩
  exact ⟨tr, c, hexec, htest.1, (returns_finished_iff hexec).2 htest.2⟩

/-- In the same run the allocation and the four field writes are executed exactly once, and both
calls return the address of the struct. -/
theorem two_calls_one_struct :
    ∃ tr c, (singletonSystem (ι := Fin 2)).Execution tr c ∧
      tr.countP (fun q => decide (At .finalRead q)) = 2 ∧
      (∀ p ∈ initialisation, tr.countP (fun q => decide (At p q)) = 1) ∧
      ∃ p, ∀ pre q post, tr = pre ++ q :: post → At .finalRead q →
        q.1.shared.gSingleton = some p ∧ p < q.1.shared.heap.length := by
  obtain ⟨tr, c, hrun, hcount, q, hq, hat, hwent⟩ :=
    (singletonSystem (ι := Fin 2)).exists_run_of_replay start (firstCall 11 ++ secondCall)
      (fun tr _ => tr.countP (fun q => decide (At .finalRead q)) = 2 ∧
        ∃ q ∈ tr[10]?, At .finalRead q ∧ wentThroughWait q.2 (tr.take 10) = true) (by decide)
  have hexec : (singletonSystem (ι := Fin 2)).Execution tr c := ⟨start, rfl, hrun⟩
  obtain ⟨hle, -, ⟨p, hp⟩, hwaited, -⟩ := initialised_once hexec
  -- the return of the first call
  obtain ⟨hlt, hget⟩ := List.getElem?_eq_some_iff.1 hq
  have htr : tr = tr.take 10 ++ q :: tr.drop 11 := by
    rw [← hget, List.getElem_cons_drop, List.take_append_drop]
  have hone := (hwaited _ q _ htr hat hwent).2
  refine ⟨tr, c, hexec, hcount, fun p hp => le_antisymm (hle p hp) ?_, p, fun pre q post h hq => ?_⟩
  · rw [← hone p hp]
    exact (List.take_sublist 10 tr).countP_le
  · exact ⟨(hp pre q post h hq).1, (hp pre q post h hq).2.1⟩

/-- The second caller comes right after the allocation: it gets a struct with no field written. -/
theorem unfinished_return :
    ∃ tr c, (singletonSystem (ι := Fin 2)).Execution tr c ∧
      ∃ q ∈ tr, At .finalRead q ∧ q.1.shared.gSingleton = some 0 ∧
        q.1.shared.heap = [Singleton.fresh] ∧ ¬ Finished q.1.shared := by
  obtain ⟨tr, c, hrun, htest⟩ := (singletonSystem (ι := Fin 2)).exists_run_of_replay start
    (firstCall 5 ++ secondCall)
    (fun tr _ => ∃ q ∈ tr, At .finalRead q ∧ q.1.shared.gSingleton = some 0 ∧
      q.1.shared.heap = [Singleton.fresh] ∧ ¬ Finished q.1.shared) (by decide)
  exact ⟨tr, c, ⟨start, rfl, hrun⟩, htest⟩

end Sanntid.DoubleChecked
