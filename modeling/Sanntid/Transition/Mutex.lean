import Mathlib.Logic.Function.Basic

/-!
# Mutexes and the program points that hold them

Threads lock and unlock mutexes; `owner` records who has each one. `Owns` is the invariant that
ties the record to the threads: `i` owns `m` exactly when its local state is one that holds `m`.
The rules say what a lock of a free mutex, an unlock by the holder and any other statement do to it.
-/

set_option autoImplicit false

namespace Sanntid.Transition

universe u v w

variable {ι : Type u} {L : Type v} {μ : Type w} (held : ι → L → μ → Prop)

/-- A thread owns exactly the mutexes that its local state holds. -/
def Owns (owner : μ → Option ι) (thread : ι → L) : Prop :=
  ∀ m i, owner m = some i ↔ held i (thread i) m

namespace Owns

variable {held} {owner : μ → Option ι} {thread : ι → L}

/-- A mutex is held by one thread at most. -/
theorem unique (h : Owns held owner thread) {m : μ} {i j : ι} (hi : held i (thread i) m)
    (hj : held j (thread j) m) : i = j :=
  Option.some.inj (((h m i).2 hi).symm.trans ((h m j).2 hj))

theorem free_iff (h : Owns held owner thread) {m : μ} :
    owner m = none ↔ ∀ i, ¬ held i (thread i) m := by
  rw [Option.eq_none_iff_forall_ne_some]
  exact forall_congr' fun i => not_congr (h m i)

/-- A mutex that is not free has a holder. -/
theorem exists_holder (h : Owns held owner thread) {m : μ} (hm : owner m ≠ none) :
    ∃ i, owner m = some i ∧ held i (thread i) m := by
  obtain ⟨i, hi⟩ := Option.ne_none_iff_exists'.1 hm
  exact ⟨i, hi, (h m i).1 hi⟩

variable [DecidableEq ι] [DecidableEq μ]

/-- A lock of a free mutex. -/
theorem lock (h : Owns held owner thread) {i : ι} {l : L} {m : μ} (hfree : owner m = none)
    (hl : ∀ n, held i l n ↔ n = m ∨ held i (thread i) n) :
    Owns held (Function.update owner m (some i)) (Function.update thread i l) := by
  intro n
  apply (Function.forall_update_iff thread fun j x =>
    Function.update owner m (some i) n = some j ↔ held j x n).2
  by_cases hn : n = m
  · -- the mutex itself: nobody held it before
    subst hn
    refine ⟨by simp [hl], fun j hj => ?_⟩
    rw [← h n j, hfree]
    simp [Ne.symm hj]
  · rw [Function.update_of_ne hn]
    exact ⟨by simp [hl, hn, h n i], fun j _ => h n j⟩

/-- An unlock by the holder. -/
theorem unlock (h : Owns held owner thread) {i : ι} {l : L} {m : μ} (hm : held i (thread i) m)
    (hl : ∀ n, held i l n ↔ n ≠ m ∧ held i (thread i) n) :
    Owns held (Function.update owner m none) (Function.update thread i l) := by
  intro n
  apply (Function.forall_update_iff thread fun j x =>
    Function.update owner m none n = some j ↔ held j x n).2
  by_cases hn : n = m
  · -- the mutex itself: nobody but the holder had it
    subst hn
    refine ⟨by simp [hl], fun j hj => ?_⟩
    have hnot : ¬ held j (thread j) n := fun hheld => hj (h.unique hheld hm)
    simp [hnot]
  · rw [Function.update_of_ne hn]
    exact ⟨by simp [hl, hn, h n i], fun j _ => h n j⟩

omit [DecidableEq μ] in
/-- A statement that neither locks nor unlocks. -/
theorem stay (h : Owns held owner thread) {i : ι} {l : L}
    (hl : ∀ n, held i l n ↔ held i (thread i) n) :
    Owns held owner (Function.update thread i l) := by
  intro n
  apply (Function.forall_update_iff thread fun j x => owner n = some j ↔ held j x n).2
  exact ⟨(h n i).trans (hl n).symm, fun j _ => h n j⟩

end Owns

end Sanntid.Transition
