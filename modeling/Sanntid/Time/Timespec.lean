import Sanntid.Arith.Machine

/-!
# The arithmetic of `clock_gettime.h`

`timespec_normalized`, `timespec_add`, `timespec_sub` and `timespec_cmp`, of which the directories
of `ex1` and `ex6` have the same text. `time_t` and `long` are 64 bits and signed; an overflow is
recorded as an error with the variable in which it happens.

Every result is characterised by its value in nanoseconds (`Timespec.total`) and by being in normal
form: `timespecNormalized_eq_ok_iff` for the two carry loops, and from it `timespecAdd_eq_ok_iff`
and `timespecSub_eq_ok_iff`. `timespec_cmp` compares the values (`timespecCmp_eq`).
-/

set_option autoImplicit false

namespace Sanntid.Time

open Sanntid.Arith Sanntid.Control

/-- `struct timespec`. -/
@[ext] structure Timespec where
  tvSec : Int
  tvNsec : Int
  deriving DecidableEq, Repr

/-- The variable whose value has overflowed. -/
inductive Overflow where
  | sec
  | nsec
  deriving DecidableEq, Repr

/-- The nanoseconds that a time stands for. -/
def Timespec.total (t : Timespec) : Int := t.tvSec * 1000000000 + t.tvNsec

/-- `0 <= tv_nsec < 1000000000`. -/
def Timespec.Normalised (t : Timespec) : Prop := IsDigit 1000000000 t.tvNsec

instance (t : Timespec) : Decidable t.Normalised := inferInstanceAs (Decidable (_ ∧ _))

/-! ## The functions -/

/-- The first loop of `timespec_normalized`. -/
def carryLoop (sec nsec : Int) : Except Overflow (Int × Int) :=
  if 1000000000 ≤ nsec then do
    checkLong .nsec (nsec - 1000000000)
    checkLong .sec (sec + 1)
    carryLoop (sec + 1) (nsec - 1000000000)
  else .ok (sec, nsec)
termination_by nsec.toNat

/-- The second loop of `timespec_normalized`. -/
def borrowLoop (sec nsec : Int) : Except Overflow (Int × Int) :=
  if nsec < 0 then do
    checkLong .nsec (nsec + 1000000000)
    checkLong .sec (sec - 1)
    borrowLoop (sec - 1) (nsec + 1000000000)
  else .ok (sec, nsec)
termination_by (-nsec).toNat

/-- Nanoseconds carried into seconds; at most one of the loops runs. -/
def timespecNormalized (sec nsec : Int) : Except Overflow Timespec := do
  let (sec, nsec) ← carryLoop sec nsec
  let (sec, nsec) ← borrowLoop sec nsec
  .ok ⟨sec, nsec⟩

/-- The difference of the fields, normalised. -/
def timespecSub (lhs rhs : Timespec) : Except Overflow Timespec := do
  checkLong .sec (lhs.tvSec - rhs.tvSec)
  checkLong .nsec (lhs.tvNsec - rhs.tvNsec)
  timespecNormalized (lhs.tvSec - rhs.tvSec) (lhs.tvNsec - rhs.tvNsec)

/-- The sum of the fields, normalised. -/
def timespecAdd (lhs rhs : Timespec) : Except Overflow Timespec := do
  checkLong .sec (lhs.tvSec + rhs.tvSec)
  checkLong .nsec (lhs.tvNsec + rhs.tvNsec)
  timespecNormalized (lhs.tvSec + rhs.tvSec) (lhs.tvNsec + rhs.tvNsec)

/-- Negative, zero or positive as the left time is before, at or after the right one. -/
def timespecCmp (lhs rhs : Timespec) : Except Overflow Int :=
  if lhs.tvSec < rhs.tvSec then .ok (-1)
  else if lhs.tvSec > rhs.tvSec then .ok 1
  else do
    checkLong .nsec (lhs.tvNsec - rhs.tvNsec)
    -- the function returns an `int`
    .ok (toInt (lhs.tvNsec - rhs.tvNsec))

/-! ## The carry loops -/

theorem carryLoop_of_lt {sec nsec : Int} (h : nsec < 1000000000) :
    carryLoop sec nsec = .ok (sec, nsec) := by
  rw [carryLoop, if_neg (by omega)]

theorem borrowLoop_of_nonneg {sec nsec : Int} (h : 0 ≤ nsec) :
    borrowLoop sec nsec = .ok (sec, nsec) := by
  rw [borrowLoop, if_neg (by omega)]

/-- Of a number that is not negative the first loop computes quotient and remainder; it fails where
the quotient does not fit. -/
theorem carryLoop_of_nonneg {sec nsec : Int} (hsec : InLong sec) (hnsec : InLong nsec)
    (h : 0 ≤ nsec) :
    carryLoop sec nsec =
      if InLong (sec + nsec / 1000000000)
      then .ok (sec + nsec / 1000000000, nsec % 1000000000) else .error .sec := by
  induction sec, nsec using carryLoop.induct with
  | case1 sec nsec hge ih =>
    -- one second is carried, and quotient and remainder stay the same
    have hquot : sec + 1 + (nsec - 1000000000) / 1000000000 = sec + nsec / 1000000000 := by omega
    have hrem : (nsec - 1000000000) % 1000000000 = nsec % 1000000000 := by omega
    have hnsec' : InLong (nsec - 1000000000) := by
      obtain ⟨-, hle⟩ := hnsec
      constructor <;> omega
    rw [carryLoop, if_pos hge, bind_of_ok (checkLong_ok _ hnsec')]
    by_cases hsec' : InLong (sec + 1)
    · rw [bind_of_ok (checkLong_ok _ hsec'), ← hquot, ← hrem]
      exact ih hsec' hnsec' (by omega)
    · -- the seconds only grow from here, so the exact quotient does not fit either
      have hnot : ¬ InLong (sec + nsec / 1000000000) := by
        unfold InLong at *
        omega
      rw [bind_of_error (checkLong_error _ hsec'), if_neg hnot]
  | case2 sec nsec hlt =>
    have hquot : nsec / 1000000000 = 0 := by omega
    have hrem : nsec % 1000000000 = nsec := by omega
    rw [carryLoop_of_lt (by omega), hquot, hrem, Int.add_zero, if_pos hsec]

/-- Of a number below `1000000000` the second loop computes quotient and remainder, rounding towards
minus infinity; it fails where the quotient does not fit. -/
theorem borrowLoop_of_lt {sec nsec : Int} (hsec : InLong sec) (hnsec : InLong nsec)
    (h : nsec < 1000000000) :
    borrowLoop sec nsec =
      if InLong (sec + nsec / 1000000000)
      then .ok (sec + nsec / 1000000000, nsec % 1000000000) else .error .sec := by
  induction sec, nsec using borrowLoop.induct with
  | case1 sec nsec hneg ih =>
    have hquot : sec - 1 + (nsec + 1000000000) / 1000000000 = sec + nsec / 1000000000 := by omega
    have hrem : (nsec + 1000000000) % 1000000000 = nsec % 1000000000 := by omega
    have hnsec' : InLong (nsec + 1000000000) := by
      obtain ⟨hge, -⟩ := hnsec
      constructor <;> omega
    rw [borrowLoop, if_pos hneg, bind_of_ok (checkLong_ok _ hnsec')]
    by_cases hsec' : InLong (sec - 1)
    · rw [bind_of_ok (checkLong_ok _ hsec'), ← hquot, ← hrem]
      exact ih hsec' hnsec' (by omega)
    · -- the seconds only shrink from here
      have hnot : ¬ InLong (sec + nsec / 1000000000) := by
        unfold InLong at *
        omega
      rw [bind_of_error (checkLong_error _ hsec'), if_neg hnot]
  | case2 sec nsec hnonneg =>
    have hquot : nsec / 1000000000 = 0 := by omega
    have hrem : nsec % 1000000000 = nsec := by omega
    rw [borrowLoop_of_nonneg (by omega), hquot, hrem, Int.add_zero, if_pos hsec]

/-- `timespec_normalized` is floor division by `1000000000`. Only `sec` can overflow, and only where
the exact quotient does not fit. -/
theorem timespecNormalized_eq {sec nsec : Int} (hsec : InLong sec) (hnsec : InLong nsec) :
    timespecNormalized sec nsec =
      if InLong (sec + nsec / 1000000000)
      then .ok ⟨sec + nsec / 1000000000, nsec % 1000000000⟩ else .error .sec := by
  rw [timespecNormalized]
  rcases lt_or_ge nsec 0 with hneg | hnonneg
  · rw [bind_of_ok (carryLoop_of_lt (by omega))]
    dsimp only
    rw [borrowLoop_of_lt hsec hnsec (by omega), test_bind]
  · have hrem : 0 ≤ nsec % 1000000000 := Int.emod_nonneg _ (by decide)
    rw [carryLoop_of_nonneg hsec hnsec hnonneg, test_bind]
    dsimp only
    rw [bind_of_ok (borrowLoop_of_nonneg hrem)]

/-! ## Values -/

/-- A time in normal form is determined by its value. -/
theorem Timespec.Normalised.eq_of_total {a b : Timespec} (ha : a.Normalised) (hb : b.Normalised)
    (h : a.total = b.total) : a = b := by
  obtain ⟨hsec, hnsec⟩ := digits_unique ha hb h
  exact Timespec.ext hsec hnsec

theorem timespecNormalized_eq_ok_iff {sec nsec : Int} (hsec : InLong sec) (hnsec : InLong nsec)
    {r : Timespec} :
    timespecNormalized sec nsec = .ok r ↔
      InLong r.tvSec ∧ r.Normalised ∧ r.total = sec * 1000000000 + nsec := by
  have hnorm : (⟨sec + nsec / 1000000000, nsec % 1000000000⟩ : Timespec).Normalised :=
    ⟨Int.emod_nonneg _ (by decide), Int.emod_lt_of_pos _ (by decide)⟩
  have htotal : (⟨sec + nsec / 1000000000, nsec % 1000000000⟩ : Timespec).total =
      sec * 1000000000 + nsec := by
    simp only [Timespec.total]
    omega
  rw [timespecNormalized_eq hsec hnsec, test_eq_ok_iff]
  constructor
  · rintro ⟨hfit, rfl⟩
    exact ⟨hfit, hnorm, htotal⟩
  · rintro ⟨hfit, hr, hval⟩
    obtain rfl := hr.eq_of_total hnorm (hval.trans htotal.symm)
    exact ⟨hfit, rfl⟩

/-- Where the first loop has run an iteration, it leaves nothing to borrow for the second one. -/
theorem carryLoop_nonneg {sec nsec sec' nsec' : Int} (hsec : InLong sec) (hnsec : InLong nsec)
    (hge : 1000000000 ≤ nsec) (h : carryLoop sec nsec = .ok (sec', nsec')) : 0 ≤ nsec' := by
  rw [carryLoop_of_nonneg hsec hnsec (by omega), test_eq_ok_iff, Prod.mk.injEq] at h
  obtain ⟨-, -, hrem⟩ := h
  rw [← hrem]
  exact Int.emod_nonneg _ (by decide)

/-- For every `sec` and `nsec` of 64 bits the loops come to an end. The result is the floor quotient
and remainder whenever the seconds fit, the conditions of both loops do not hold in one call, and an
overflow is one of `sec`, where the exact seconds do not fit. -/
theorem timespecNormalized_exact {sec nsec : Int} (hsec : InLong sec) (hnsec : InLong nsec) :
    (InLong (sec + nsec / 1000000000) →
        ∃ r, timespecNormalized sec nsec = .ok r ∧
          r = ⟨sec + nsec / 1000000000, nsec % 1000000000⟩ ∧
          r.Normalised ∧ r.total = sec * 1000000000 + nsec) ∧
      (∀ r, timespecNormalized sec nsec = .ok r →
        r.Normalised ∧ r.total = sec * 1000000000 + nsec) ∧
      (∀ e, timespecNormalized sec nsec = .error e →
        e = .sec ∧ ¬ InLong (sec + nsec / 1000000000)) ∧
      ∀ sec' nsec', carryLoop sec nsec = .ok (sec', nsec') →
        ¬ (1000000000 ≤ nsec ∧ nsec' < 0) := by
  have hexact : ∀ r, timespecNormalized sec nsec = .ok r →
      r.Normalised ∧ r.total = sec * 1000000000 + nsec := by
    intro r hr
    exact ((timespecNormalized_eq_ok_iff hsec hnsec).1 hr).2
  refine ⟨fun hfit => ?_, hexact, fun e he => ?_, ?_⟩
  · have hok := timespecNormalized_eq hsec hnsec
    rw [if_pos hfit] at hok
    exact ⟨_, hok, rfl, hexact _ hok⟩
  · rw [timespecNormalized_eq hsec hnsec, test_eq_error_iff] at he
    exact ⟨he.2.symm, he.1⟩
  · rintro sec' nsec' hcarry ⟨hge, hneg⟩
    exact absurd (carryLoop_nonneg hsec hnsec hge hcarry) (not_le.2 hneg)

/-- One nanosecond before a full second. -/
theorem timespecNormalized_before_second :
    timespecNormalized 5 (-1) = .ok ⟨4, 999999999⟩ := by
  have hexact := @timespecNormalized_exact 5 (-1) (by decide) (by decide)
  obtain ⟨r, hr, rfl, -⟩ := hexact.1 (by decide)
  exact hr

theorem timespecAdd_eq_ok_iff {a t r : Timespec} :
    timespecAdd a t = .ok r ↔
      InLong (a.tvSec + t.tvSec) ∧ InLong (a.tvNsec + t.tvNsec) ∧ InLong r.tvSec ∧
        r.Normalised ∧ r.total = a.total + t.total := by
  have htotal : (a.tvSec + t.tvSec) * 1000000000 + (a.tvNsec + t.tvNsec) =
      a.total + t.total := by
    simp only [Timespec.total]
    omega
  rw [timespecAdd, checkLong_bind_eq_ok, checkLong_bind_eq_ok]
  refine and_congr_right fun hsec => and_congr_right fun hnsec => ?_
  rw [timespecNormalized_eq_ok_iff hsec hnsec, htotal]

theorem timespecSub_eq_ok_iff {a t r : Timespec} :
    timespecSub a t = .ok r ↔
      InLong (a.tvSec - t.tvSec) ∧ InLong (a.tvNsec - t.tvNsec) ∧ InLong r.tvSec ∧
        r.Normalised ∧ r.total = a.total - t.total := by
  have htotal : (a.tvSec - t.tvSec) * 1000000000 + (a.tvNsec - t.tvNsec) =
      a.total - t.total := by
    simp only [Timespec.total]
    omega
  rw [timespecSub, checkLong_bind_eq_ok, checkLong_bind_eq_ok]
  refine and_congr_right fun hsec => and_congr_right fun hnsec => ?_
  rw [timespecNormalized_eq_ok_iff hsec hnsec, htotal]

theorem timespecAdd_normalised {a t r : Timespec} (h : timespecAdd a t = .ok r) :
    r.Normalised :=
  (timespecAdd_eq_ok_iff.1 h).2.2.2.1

theorem timespecAdd_total {a t r : Timespec} (h : timespecAdd a t = .ok r) :
    r.total = a.total + t.total :=
  (timespecAdd_eq_ok_iff.1 h).2.2.2.2

theorem timespecSub_normalised {a t r : Timespec} (h : timespecSub a t = .ok r) :
    r.Normalised :=
  (timespecSub_eq_ok_iff.1 h).2.2.2.1

theorem timespecSub_total {a t r : Timespec} (h : timespecSub a t = .ok r) :
    r.total = a.total - t.total :=
  (timespecSub_eq_ok_iff.1 h).2.2.2.2

/-! ## Comparing -/

/-- On times in normal form `timespec_cmp` returns, with the sign of the difference of the values:
the nanoseconds differ by less than an `int` can hold. -/
theorem timespecCmp_eq {a b : Timespec} (ha : a.Normalised) (hb : b.Normalised) :
    ∃ c, timespecCmp a b = .ok c ∧ c.sign = (a.total - b.total).sign := by
  have hlt : a.total < b.total ↔ _ := value_lt_iff ha hb
  have hgt : b.total < a.total ↔ _ := value_lt_iff hb ha
  rcases lt_trichotomy a.tvSec b.tvSec with hsec | hsec | hsec
  · have hneg := hlt.2 (Or.inl hsec)
    refine ⟨-1, by rw [timespecCmp, if_pos hsec], ?_⟩
    rw [Int.sign_eq_neg_one_of_neg (by omega : a.total - b.total < 0)]
    rfl
  · -- in one second the result is the difference of the nanoseconds
    have hsame : a.total - b.total = a.tvNsec - b.tvNsec := by
      simp only [Timespec.total, hsec]
      omega
    obtain ⟨ha0, ha1⟩ := ha
    obtain ⟨hb0, hb1⟩ := hb
    have hlong : InLong (a.tvNsec - b.tvNsec) := by constructor <;> omega
    have hint : toInt (a.tvNsec - b.tvNsec) = a.tvNsec - b.tvNsec := toInt_eq (by omega)
    refine ⟨a.tvNsec - b.tvNsec, ?_, by rw [hsame]⟩
    rw [timespecCmp, if_neg (by omega), if_neg (by omega), bind_of_ok (checkLong_ok _ hlong),
      hint]
  · have hpos := hgt.2 (Or.inl hsec)
    refine ⟨1, by rw [timespecCmp, if_neg (by omega), if_pos hsec], ?_⟩
    rw [Int.sign_eq_one_of_pos (by omega : 0 < a.total - b.total)]
    rfl

/-- The comparison that the callers make with the result. -/
theorem timespecCmp_spec {a b : Timespec} (ha : a.Normalised) (hb : b.Normalised) :
    ∃ c, timespecCmp a b = .ok c ∧ (c < 0 ↔ a.total < b.total) ∧ (c ≤ 0 ↔ a.total ≤ b.total) := by
  obtain ⟨c, hc, hsign⟩ := timespecCmp_eq ha hb
  refine ⟨c, hc, ?_, ?_⟩
  · rw [← Int.sign_neg_iff, hsign, Int.sign_neg_iff, sub_neg]
  · rw [← Int.sign_nonpos_iff, hsign, Int.sign_nonpos_iff, sub_nonpos]

end Sanntid.Time
