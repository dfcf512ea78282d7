import Sanntid.Transition.System
import Mathlib.Algebra.BigOperators.Group.Finset.Basic
import Mathlib.Algebra.Order.BigOperators.Group.Finset

/-!
# Interleaved threads over a shared state

A `Program` gives, for every thread, the effect of its next atomic statement on its local state
and on the shared state, or `none` when the thread is blocked or has returned. Its `system` is the
sequentially consistent interleaving: one step executes one statement of one thread and leaves the
local state of all others alone. The index type of the threads is arbitrary, so results hold for
any number of them.

`exec_cases` says once what a step does; every invariant of a program is derived from it.
-/

set_option autoImplicit false

namespace Sanntid.Transition

universe u v w

/-- The next statement of a thread, as a function of its local state and the shared state. -/
structure Program (ι : Type u) (L : Type v) (σ : Type w) where
  exec : ι → L → σ → Option (L × σ)

/-- The local state of every thread and the state they share. -/
structure Config (ι : Type u) (L : Type v) (σ : Type w) where
  thread : ι → L
  shared : σ

namespace Program

variable {ι : Type u} [DecidableEq ι] {L : Type v} {σ : Type w} (P : Program ι L σ)

/-- Thread `i` executes its next statement. -/
def next (c : Config ι L σ) (i : ι) : Option (Config ι L σ) :=
  (P.exec i (c.thread i) c.shared).map fun r => ⟨Function.update c.thread i r.1, r.2⟩

/-- All interleavings of the threads of `P`, started where `start` holds. -/
def system (start : Config ι L σ → Prop) : System (Config ι L σ) ι where
  init := start
  next := P.next

variable {P} {start : Config ι L σ → Prop}

/-- What one step does: a statement of thread `i`, and nothing to the other threads. -/
theorem exec_cases {c d : Config ι L σ} {i : ι} (h : (P.system start).Step c i d) :
    ∃ l s, P.exec i (c.thread i) c.shared = some (l, s) ∧
      d = ⟨Function.update c.thread i l, s⟩ := by
  simp only [System.Step, system, next, Option.map_eq_some_iff, Prod.exists] at h
  obtain ⟨l, s, hexec, rfl⟩ := h
  exact ⟨l, s, hexec, rfl⟩

theorem step_of_exec {c : Config ι L σ} {i : ι} {l : L} {s : σ}
    (h : P.exec i (c.thread i) c.shared = some (l, s)) :
    (P.system start).Step c i ⟨Function.update c.thread i l, s⟩ := by
  simp [System.Step, system, next, h]

/-- The other threads keep their local state. -/
theorem thread_of_ne {c d : Config ι L σ} {i j : ι} (h : (P.system start).Step c i d)
    (hj : j ≠ i) : d.thread j = c.thread j := by
  obtain ⟨l, s, -, rfl⟩ := exec_cases h
  exact Function.update_of_ne hj l c.thread

theorem terminal_iff {c : Config ι L σ} :
    (P.system start).Terminal c ↔ ∀ i, P.exec i (c.thread i) c.shared = none := by
  simp [System.Terminal, system, next]

/-! ## A thread alone -/

/-- What a thread can do by itself, it does in a run in which it alone moves. -/
theorem exists_run_alone (P : Program ι L σ) (start : Config ι L σ → Prop) (i : ι)
    (thread : ι → L) {l l' : L} {s s' : σ}
    (h : Relation.ReflTransGen (fun p q => P.exec i p.1 p.2 = some q) (l, s) (l', s')) :
    ∃ tr, (P.system start).Run ⟨Function.update thread i l, s⟩ tr
      ⟨Function.update thread i l', s'⟩ := by
  generalize hq : (l', s') = q at h
  induction h generalizing l' s' with
  | refl =>
    obtain ⟨rfl, rfl⟩ := Prod.mk.inj hq
    exact ⟨[], System.Run.nil⟩
  | @tail p q _ hexec ih =>
    obtain ⟨tr, hrun⟩ := ih rfl
    subst hq
    have hstep : (P.system start).Step ⟨Function.update thread i p.1, p.2⟩ i _ :=
      step_of_exec (by simpa using hexec)
    rw [Function.update_idem] at hstep
    exact ⟨_, hrun.snoc hstep⟩

/-! ## Schedules in lockstep -/

/-- All threads of a row execute the same statement, one after the other. `s m` is the shared state
after the first `m` of them. -/
theorem sweep {n : Nat} (P : Program (Fin n) L σ) (start : Config (Fin n) L σ → Prop) {l l' : L}
    {s : Nat → σ} (h : ∀ p : Fin n, P.exec p l (s p) = some (l', s (p + 1))) :
    ∃ tr, (P.system start).Run ⟨fun _ => l, s 0⟩ tr ⟨fun _ => l', s n⟩ ∧
      ∀ q ∈ tr, q.1.thread q.2 = l := by
  -- induction on the number of threads that have moved
  have hupto : ∀ m ≤ n, ∃ tr, (P.system start).Run ⟨fun _ => l, s 0⟩ tr
      ⟨fun p => if p.val < m then l' else l, s m⟩ ∧ ∀ q ∈ tr, q.1.thread q.2 = l := by
    intro m
    induction m with
    | zero =>
      intro _
      exact ⟨[], by simpa using System.Run.nil, by simp⟩
    | succ m ih =>
      intro hm
      obtain ⟨tr, hrun, hall⟩ := ih (by omega)
      have hstep : (P.system start).Step ⟨fun p => if p.val < m then l' else l, s m⟩ ⟨m, hm⟩ _ :=
        step_of_exec (by simpa using h ⟨m, hm⟩)
      -- with thread `m` the first `m + 1` of them have moved
      have hnext : Function.update (fun p : Fin n => if p.val < m then l' else l) ⟨m, hm⟩ l' =
          fun p : Fin n => if p.val < m + 1 then l' else l := by
        funext p
        by_cases hp : p = ⟨m, hm⟩
        · subst hp
          simp
        · have hpm : p.val ≠ m := fun heq => hp (Fin.ext heq)
          have hiff : p.val < m + 1 ↔ p.val < m := by omega
          simp [Function.update_of_ne hp, hiff]
      rw [hnext] at hstep
      refine ⟨_, hrun.snoc hstep, fun q hq => ?_⟩
      rcases List.mem_append.1 hq with hq | hq
      · exact hall q hq
      · obtain rfl := List.mem_singleton.1 hq
        simp
  obtain ⟨tr, hrun, hall⟩ := hupto n le_rfl
  refine ⟨tr, ?_, hall⟩
  have hend : (fun p : Fin n => if p.val < n then l' else l) = fun _ => l' := by
    funext p
    simp
  rwa [hend] at hrun

/-- A rank that no statement of a thread raises is not raised along a run. -/
theorem rank_le {rank : L → Nat}
    (hrank : ∀ i l s l' s', P.exec i l s = some (l', s') → rank l' ≤ rank l)
    {c d : Config ι L σ} {tr : List (Config ι L σ × ι)} (h : (P.system start).Run c tr d) (i : ι) :
    rank (d.thread i) ≤ rank (c.thread i) ∧ ∀ q ∈ tr, rank (q.1.thread i) ≤ rank (c.thread i) := by
  induction h with
  | nil => exact ⟨le_rfl, by simp⟩
  | @snoc tr d e j _ hstep ih =>
    obtain ⟨hd, hmem⟩ := ih
    refine ⟨?_, fun q hq => ?_⟩
    · by_cases hi : i = j
      · subst hi
        obtain ⟨l, s, hexec, rfl⟩ := exec_cases hstep
        have hle := hrank _ _ _ _ _ hexec
        simp only [Function.update_self]
        omega
      · rw [thread_of_ne hstep hi]
        exact hd
    · rcases List.mem_append.1 hq with hq | hq
      · exact hmem q hq
      · obtain rfl := List.mem_singleton.1 hq
        exact hd

end Program

/-! ## Sums over the threads of a finite program -/

section Rank

variable {ι : Type u} [DecidableEq ι] [Fintype ι] {L : Type v}

/-- The total rank of all threads. -/
def totalRank (rank : L → Nat) (thread : ι → L) : Nat := ∑ i, rank (thread i)

/-- A statement that lowers the rank of its own thread lowers the total. -/
theorem totalRank_update_lt (rank : L → Nat) (thread : ι → L) {i : ι} {l : L}
    (h : rank l < rank (thread i)) :
    totalRank rank (Function.update thread i l) < totalRank rank thread := by
  refine Finset.sum_lt_sum ?_ ⟨i, Finset.mem_univ i, by simpa using h⟩
  intro j _
  by_cases hj : j = i
  · subst hj
    simpa using h.le
  · simp [Function.update_of_ne hj]

/-- A sum over all threads, after one of them has changed. -/
theorem sum_update (f : L → Int) (thread : ι → L) (i : ι) (l : L) :
    ∑ j, f (Function.update thread i l j) = ∑ j, f (thread j) + (f l - f (thread i)) := by
  have happly : ∀ j, f (Function.update thread i l j) =
      Function.update (fun k => f (thread k)) i (f l) j :=
    Function.apply_update (fun _ => f) thread i l
  have hsplit := Finset.add_sum_erase Finset.univ (fun j => f (thread j)) (Finset.mem_univ i)
  rw [Finset.sum_congr rfl fun j _ => happly j,
    Finset.sum_update_of_mem (Finset.mem_univ i), ← Finset.erase_eq]
  omega

/-- A program whose statements all lower the rank of their thread has a decreasing measure. -/
theorem decreasing_totalRank {σ : Type w} {P : Program ι L σ} {start : Config ι L σ → Prop}
    (rank : L → Nat)
    (hrank : ∀ i l s l' s', P.exec i l s = some (l', s') → rank l' < rank l) :
    (P.system start).Decreasing fun c => totalRank rank c.thread := by
  intro c i d _ hstep
  obtain ⟨l, s, hexec, rfl⟩ := Program.exec_cases hstep
  exact totalRank_update_lt rank c.thread (hrank i _ _ _ _ hexec)

end Rank

end Sanntid.Transition
