import Mathlib.Tactic

/-!
# Computations that can fail

A C function that may run into undefined behaviour is a computation in `Except`. `bind_of_ok` and
`bind_of_error` run its first step, `test_bind` a first step that is a test. A counted loop
`for (i = f; i < t; i++)` is `forLoop`, and `forLoop_spec` is its rule: what holds before the first
iteration and is kept by each one, with the index one higher, holds when the loop ends, and the loop
ends without a failure.
-/

set_option autoImplicit false

namespace Sanntid.Control

universe u v

section Sequencing

variable {ε : Type u} {α β : Type v} {x : Except ε α} {f : α → Except ε β}

theorem bind_of_ok {a : α} (h : x = .ok a) : x >>= f = f a := by
  rw [h]
  rfl

theorem bind_of_error {e : ε} (h : x = .error e) : x >>= f = .error e := by
  rw [h]
  rfl

/-- Both steps of a computation that succeeds succeed. -/
theorem bind_eq_ok_iff {b : β} : x >>= f = .ok b ↔ ∃ a, x = .ok a ∧ f a = .ok b := by
  cases x with
  | error e =>
      rw [bind_of_error rfl]
      simp
  | ok a =>
      rw [bind_of_ok rfl]
      simp

end Sequencing

/-! ## Tests -/

section Test

variable {ε : Type u} {α β : Type v} {c : Prop} [Decidable c] {a : α} {e : ε}

theorem test_bind {f : α → Except ε β} :
    (if c then .ok a else .error e) >>= f = if c then f a else .error e := by
  by_cases h : c
  · rw [if_pos h, if_pos h, bind_of_ok rfl]
  · rw [if_neg h, if_neg h, bind_of_error rfl]

theorem test_eq_ok_iff {a' : α} :
    (if c then .ok a else .error e : Except ε α) = .ok a' ↔ c ∧ a = a' := by
  by_cases h : c
  · simp [h]
  · simp [h]

theorem test_eq_error_iff {e' : ε} :
    (if c then .ok a else .error e : Except ε α) = .error e' ↔ ¬ c ∧ e = e' := by
  by_cases h : c
  · simp [h]
  · simp [h]

end Test

section Loops

variable {σ : Type u} {ε : Type v}

/-- `n` iterations from index `i` on. -/
def iterations (body : Int → σ → Except ε σ) : Nat → Int → σ → Except ε σ
  | 0, _, s => .ok s
  | n + 1, i, s => body i s >>= iterations body n (i + 1)

/-- `for (i = f; i < t; i++) body`. -/
def forLoop (f t : Int) (body : Int → σ → Except ε σ) (s : σ) : Except ε σ :=
  iterations body (t - f).toNat f s

theorem forLoop_of_ge {f t : Int} {body : Int → σ → Except ε σ} {s : σ} (h : t ≤ f) :
    forLoop f t body s = .ok s := by
  rw [forLoop, Int.toNat_of_nonpos (by omega), iterations]

theorem forLoop_of_lt {f t : Int} {body : Int → σ → Except ε σ} {s : σ} (h : f < t) :
    forLoop f t body s = body f s >>= forLoop (f + 1) t body := by
  have hn : (t - f).toNat = (t - (f + 1)).toNat + 1 := by omega
  rw [forLoop, hn, iterations]
  rfl

/-- The invariant rule of a counted loop: `I i s` speaks of the state before iteration `i`. -/
theorem forLoop_spec {f t : Int} {body : Int → σ → Except ε σ} {s : σ} (I : Int → σ → Prop)
    (hft : f ≤ t) (hinit : I f s)
    (hstep : ∀ i s, f ≤ i → i < t → I i s → ∃ s', body i s = .ok s' ∧ I (i + 1) s') :
    ∃ s', forLoop f t body s = .ok s' ∧ I t s' := by
  induction hn : (t - f).toNat generalizing f s with
  | zero =>
      obtain rfl : f = t := by omega
      exact ⟨s, forLoop_of_ge le_rfl, hinit⟩
  | succ n ih =>
      have hlt : f < t := by omega
      obtain ⟨s₁, hbody, hinv⟩ := hstep f s le_rfl hlt hinit
      obtain ⟨s', hrest, hfinal⟩ := ih (by omega) hinv
        (fun i s hi => hstep i s (by omega)) (by omega)
      refine ⟨s', ?_, hfinal⟩
      rw [forLoop_of_lt hlt, bind_of_ok hbody, hrest]

end Loops

end Sanntid.Control
