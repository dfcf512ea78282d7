import Mathlib.Logic.Function.Basic

/-!
# A binary semaphore around a region

Threads take a semaphore that starts at 1 before they enter a region and give it back when they
leave. `Guarded` is the invariant: the value is 1 with no thread inside, or 0 with exactly one.
There is one rule for each thing a thread can do: enter (`Guarded.enter`), leave
(`Guarded.leave`), or stay on its side (`Guarded.stay`).
-/

set_option autoImplicit false

namespace Sanntid.Transition

universe u v

variable {ι : Type u} [DecidableEq ι] {L : Type v} (inside : L → Prop)

omit [DecidableEq ι] in
/-- The value of the semaphore is 1 and no thread is inside, or it is 0 and exactly one is. -/
def Guarded (value : Nat) (thread : ι → L) : Prop :=
  (value = 1 ∧ ∀ i, ¬ inside (thread i)) ∨
    value = 0 ∧ ∃ i, inside (thread i) ∧ ∀ j, inside (thread j) → j = i

namespace Guarded

variable {inside} {value : Nat} {thread : ι → L}

omit [DecidableEq ι] in
theorem value_le_one (h : Guarded inside value thread) : value ≤ 1 := by
  rcases h with ⟨h, -⟩ | ⟨h, -⟩ <;> omega

omit [DecidableEq ι] in
theorem value_eq_one_iff (h : Guarded inside value thread) :
    value = 1 ↔ ∀ i, ¬ inside (thread i) := by
  rcases h with ⟨hv, hout⟩ | ⟨hv, i, hi, -⟩
  · exact ⟨fun _ => hout, fun _ => hv⟩
  · refine ⟨fun hone => ?_, fun hout => absurd hi (hout i)⟩
    omega

omit [DecidableEq ι] in
/-- At most one thread is inside. -/
theorem unique (h : Guarded inside value thread) {i j : ι} (hi : inside (thread i))
    (hj : inside (thread j)) : i = j := by
  rcases h with ⟨-, hout⟩ | ⟨-, k, -, hk⟩
  · exact absurd hi (hout i)
  · rw [hk i hi, hk j hj]

/-- A wait that does not block. -/
theorem enter (h : Guarded inside value thread) {i : ι} {l : L} (hv : value ≠ 0) (hl : inside l) :
    Guarded inside (value - 1) (Function.update thread i l) := by
  rcases h with ⟨rfl, hout⟩ | ⟨h, -⟩
  · refine Or.inr ⟨rfl, i, by simpa using hl, ?_⟩
    apply (Function.forall_update_iff thread fun j x => inside x → j = i).2
    -- nobody else was inside
    exact ⟨fun _ => rfl, fun j _ hj => absurd hj (hout j)⟩
  · exact absurd h hv

/-- A post by the thread inside. -/
theorem leave (h : Guarded inside value thread) {i : ι} {l : L} (hi : inside (thread i))
    (hl : ¬ inside l) : Guarded inside (value + 1) (Function.update thread i l) := by
  rcases h with ⟨-, hout⟩ | ⟨rfl, k, -, hk⟩
  · exact absurd hi (hout i)
  · refine Or.inl ⟨rfl, ?_⟩
    apply (Function.forall_update_iff thread fun _ x => ¬ inside x).2
    -- the thread that leaves was the only one inside
    exact ⟨hl, fun j hj hin => hj ((hk j hin).trans (hk i hi).symm)⟩

/-- A statement that neither enters nor leaves. -/
theorem stay (h : Guarded inside value thread) {i : ι} {l : L}
    (hl : inside l ↔ inside (thread i)) : Guarded inside value (Function.update thread i l) := by
  have hsame : ∀ j, inside (Function.update thread i l j) ↔ inside (thread j) := by
    apply (Function.forall_update_iff thread fun j x => inside x ↔ inside (thread j)).2
    exact ⟨hl, fun j _ => Iff.rfl⟩
  rcases h with ⟨hv, hout⟩ | ⟨hv, k, hin, hk⟩
  · exact Or.inl ⟨hv, fun j hj => hout j ((hsame j).1 hj)⟩
  · exact Or.inr ⟨hv, k, (hsame k).2 hin, fun j hj => hk j ((hsame j).1 hj)⟩

end Guarded

end Sanntid.Transition
