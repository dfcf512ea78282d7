import Sanntid.Control.Fallible

/-!
# Machine integers and two-digit numbers

`long` is 64 bits and signed: a computation whose exact result does not fit has no defined value,
which `checkLong` turns into an error that names the variable. A conversion from `long` to `int`
keeps the value modulo `2 ^ 32` (`toInt`), one to `size_t` the value modulo `2 ^ 64` (`toSizeT`).

The second half is about a number written with a high and a low digit in some radix: the digits
are determined by the value (`digits_unique`), and comparing the digits from the left compares the
values (`value_lt_iff`).
-/

set_option autoImplicit false

namespace Sanntid.Arith

open Sanntid.Control

universe u

/-! ## `long` and `int` -/

/-- The values of a 64-bit signed `long`. -/
def InLong (x : Int) : Prop := -9223372036854775808 ≤ x ∧ x ≤ 9223372036854775807

instance (x : Int) : Decidable (InLong x) := inferInstanceAs (Decidable (_ ∧ _))

/-- An exact result `x` that is to be stored in the `long` variable `var`. -/
def checkLong {ν : Type u} (var : ν) (x : Int) : Except ν Unit :=
  if InLong x then .ok () else .error var

theorem checkLong_ok {ν : Type u} (var : ν) {x : Int} (h : InLong x) :
    checkLong var x = .ok () :=
  if_pos h

theorem checkLong_error {ν : Type u} (var : ν) {x : Int} (h : ¬ InLong x) :
    checkLong var x = .error var :=
  if_neg h

/-- A computation that goes on after a check. -/
theorem checkLong_bind_eq_ok {ν : Type u} {α : Type} {var : ν} {x : Int}
    {f : Unit → Except ν α} {a : α} :
    checkLong var x >>= f = .ok a ↔ InLong x ∧ f () = .ok a := by
  by_cases h : InLong x
  · rw [bind_of_ok (checkLong_ok var h)]
    exact (and_iff_right h).symm
  · rw [bind_of_error (checkLong_error var h)]
    exact iff_of_false (fun he => nomatch he) fun hx => h hx.1

/-- Conversion to a 32-bit signed `int`. -/
def toInt (x : Int) : Int := (x + 2147483648) % 4294967296 - 2147483648

theorem toInt_eq {x : Int} (h : -2147483648 ≤ x ∧ x < 2147483648) : toInt x = x := by
  rw [toInt, Int.emod_eq_of_lt (by omega) (by omega)]
  omega

/-- Conversion to `size_t`, which has no sign and 64 bits. -/
def toSizeT (x : Int) : Int := x % 18446744073709551616

/-! ## Two digits -/

section Digits

variable {radix hi lo hi' lo' : Int}

/-- The low digit of a number in normal form. -/
def IsDigit (radix lo : Int) : Prop := 0 ≤ lo ∧ lo < radix

/-- Comparing digits from the left compares values. -/
theorem value_lt_iff (h : IsDigit radix lo) (h' : IsDigit radix lo') :
    hi * radix + lo < hi' * radix + lo' ↔ hi < hi' ∨ hi = hi' ∧ lo < lo' := by
  obtain ⟨h0, hlt⟩ := h
  obtain ⟨h0', hlt'⟩ := h'
  -- a larger high digit is worth at least one radix
  have key : ∀ {a b : Int}, a < b → a * radix + radix ≤ b * radix := by
    intro a b hab
    have hmul := Int.mul_le_mul_of_nonneg_right (show a + 1 ≤ b by omega) (by omega : 0 ≤ radix)
    linarith
  rcases lt_trichotomy hi hi' with hlt'' | rfl | hgt
  · have hle := key hlt''
    exact ⟨fun _ => Or.inl hlt'', fun _ => by omega⟩
  · simp
  · have hle := key hgt
    refine ⟨fun hval => ?_, fun hor => ?_⟩ <;> omega

/-- Equal values in normal form have equal digits. -/
theorem digits_unique (h : IsDigit radix lo) (h' : IsDigit radix lo')
    (heq : hi * radix + lo = hi' * radix + lo') : hi = hi' ∧ lo = lo' := by
  have hlt : ¬ (hi < hi' ∨ hi = hi' ∧ lo < lo') := (value_lt_iff h h').not.1 (by omega)
  have hgt : ¬ (hi' < hi ∨ hi' = hi ∧ lo' < lo) := (value_lt_iff h' h).not.1 (by omega)
  omega

end Digits

end Sanntid.Arith
