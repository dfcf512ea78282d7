import Sanntid.Time.Timespec

/-!
# The laws of `timespec` arithmetic

Adding and subtracting undo each other, addition is commutative and associative, and
`timespec_cmp` is a total order on times in normal form that addition respects. Each law is an
equation between values (`timespecAdd_total`, `timespecSub_total`, `timespecCmp_eq`), carried over
to the results by the uniqueness of the normal form. Addition and subtraction return exactly where
their sums and the seconds of the result fit (`AddFits`, `SubFits`).
-/

set_option autoImplicit false

namespace Sanntid.Time

open Sanntid.Arith

/-! ## Addition and subtraction -/

/-- Nothing overflows in `timespec_add`: neither the two sums nor the seconds of the result. -/
def AddFits (a t : Timespec) : Prop :=
  InLong (a.tvSec + t.tvSec) ∧ InLong (a.tvNsec + t.tvNsec) ∧
    InLong ((a.total + t.total) / 1000000000)

instance (a t : Timespec) : Decidable (AddFits a t) := inferInstanceAs (Decidable (_ ∧ _ ∧ _))

/-- Nothing overflows in `timespec_sub`. -/
def SubFits (a t : Timespec) : Prop :=
  InLong (a.tvSec - t.tvSec) ∧ InLong (a.tvNsec - t.tvNsec) ∧
    InLong ((a.total - t.total) / 1000000000)

instance (a t : Timespec) : Decidable (SubFits a t) := inferInstanceAs (Decidable (_ ∧ _ ∧ _))

/-- The time in normal form with a given value. -/
theorem exists_normalised_iff (total : Int) :
    (∃ r : Timespec, InLong r.tvSec ∧ r.Normalised ∧ r.total = total) ↔
      InLong (total / 1000000000) := by
  constructor
  · rintro ⟨r, hsec, ⟨hr0, hr1⟩, rfl⟩
    have hquot : r.total / 1000000000 = r.tvSec := by
      simp only [Timespec.total]
      omega
    rwa [hquot]
  · intro hfit
    refine ⟨⟨total / 1000000000, total % 1000000000⟩, hfit, ⟨?_, ?_⟩, ?_⟩
    · exact Int.emod_nonneg _ (by decide)
    · exact Int.emod_lt_of_pos _ (by decide)
    · simp only [Timespec.total]
      omega

theorem timespecAdd_ok_iff {a t : Timespec} : (∃ r, timespecAdd a t = .ok r) ↔ AddFits a t := by
  simp only [timespecAdd_eq_ok_iff, AddFits, ← exists_normalised_iff, exists_and_left]

theorem timespecSub_ok_iff {a t : Timespec} : (∃ r, timespecSub a t = .ok r) ↔ SubFits a t := by
  simp only [timespecSub_eq_ok_iff, SubFits, ← exists_normalised_iff, exists_and_left]

theorem timespecSub_timespecAdd {a t r s : Timespec} (ha : a.Normalised)
    (hr : timespecAdd a t = .ok r) (hs : timespecSub r t = .ok s) : s = a := by
  apply (timespecSub_normalised hs).eq_of_total ha
  have hadd := timespecAdd_total hr
  have hsub := timespecSub_total hs
  omega

theorem timespecAdd_timespecSub {a t r s : Timespec} (ha : a.Normalised)
    (hr : timespecSub a t = .ok r) (hs : timespecAdd r t = .ok s) : s = a := by
  apply (timespecAdd_normalised hs).eq_of_total ha
  have hsub := timespecSub_total hr
  have hadd := timespecAdd_total hs
  omega

theorem timespecAdd_comm (a b : Timespec) : timespecAdd a b = timespecAdd b a := by
  rw [timespecAdd, timespecAdd, Int.add_comm a.tvSec, Int.add_comm a.tvNsec]

theorem timespecAdd_assoc {a b c ab bc r s : Timespec} (hab : timespecAdd a b = .ok ab)
    (hr : timespecAdd ab c = .ok r) (hbc : timespecAdd b c = .ok bc)
    (hs : timespecAdd a bc = .ok s) : r = s := by
  apply (timespecAdd_normalised hr).eq_of_total (timespecAdd_normalised hs)
  have h1 := timespecAdd_total hab
  have h2 := timespecAdd_total hr
  have h3 := timespecAdd_total hbc
  have h4 := timespecAdd_total hs
  omega

/-! ## The order -/

/-- `timespec_cmp(a, b) <= 0`. -/
def CmpLe (a b : Timespec) : Prop := ∃ c, timespecCmp a b = .ok c ∧ c ≤ 0

theorem cmpLe_iff {a b : Timespec} (ha : a.Normalised) (hb : b.Normalised) :
    CmpLe a b ↔ a.total ≤ b.total := by
  obtain ⟨c, hc, -, hle⟩ := timespecCmp_spec ha hb
  simp only [CmpLe, hc, Except.ok.injEq, exists_eq_left', hle]

theorem cmpLe_linearOrder :
    IsLinearOrder {a : Timespec // a.Normalised} fun a b => CmpLe a.1 b.1 where
  refl a := (cmpLe_iff a.2 a.2).2 le_rfl
  trans a b c hab hbc := by
    rw [cmpLe_iff a.2 b.2] at hab
    rw [cmpLe_iff b.2 c.2] at hbc
    exact (cmpLe_iff a.2 c.2).2 (hab.trans hbc)
  antisymm a b hab hba := by
    rw [cmpLe_iff a.2 b.2] at hab
    rw [cmpLe_iff b.2 a.2] at hba
    exact Subtype.ext (a.2.eq_of_total b.2 (le_antisymm hab hba))
  total a b := by
    rw [cmpLe_iff a.2 b.2, cmpLe_iff b.2 a.2]
    exact le_total _ _

/-- Adding the same time on both sides does not change the outcome of a comparison. -/
theorem timespecCmp_timespecAdd {a b t ra rb : Timespec} (ha : a.Normalised) (hb : b.Normalised)
    (hra : timespecAdd a t = .ok ra) (hrb : timespecAdd b t = .ok rb) :
    ∃ c c', timespecCmp ra rb = .ok c ∧ timespecCmp a b = .ok c' ∧ c.sign = c'.sign := by
  obtain ⟨c, hc, hsign⟩ := timespecCmp_eq (timespecAdd_normalised hra) (timespecAdd_normalised hrb)
  obtain ⟨c', hc', hsign'⟩ := timespecCmp_eq ha hb
  refine ⟨c, c', hc, hc', ?_⟩
  have hsame : ra.total - rb.total = a.total - b.total := by
    rw [timespecAdd_total hra, timespecAdd_total hrb]
    omega
  rw [hsign, hsign', hsame]

/-- A difference is negative exactly where the comparison says so. -/
theorem timespecSub_neg_iff {a b r : Timespec} (ha : a.Normalised) (hb : b.Normalised)
    (hr : timespecSub a b = .ok r) :
    ∃ c, timespecCmp a b = .ok c ∧ (r.total < 0 ↔ c < 0) := by
  obtain ⟨c, hc, hlt, -⟩ := timespecCmp_spec ha hb
  refine ⟨c, hc, ?_⟩
  rw [hlt, timespecSub_total hr, sub_neg]

/-- The laws together, for all times in normal form and every `t`, as far as nothing overflows; and
addition and subtraction return exactly where nothing does. -/
theorem timespec_laws :
    (∀ a t, (∃ r, timespecAdd a t = .ok r) ↔ AddFits a t) ∧
      (∀ a t, (∃ r, timespecSub a t = .ok r) ↔ SubFits a t) ∧
      (∀ a t r s, a.Normalised → timespecAdd a t = .ok r → timespecSub r t = .ok s → s = a) ∧
      (∀ a t r s, a.Normalised → timespecSub a t = .ok r → timespecAdd r t = .ok s → s = a) ∧
      (∀ a b, timespecAdd a b = timespecAdd b a) ∧
      (∀ a b c ab bc r s, timespecAdd a b = .ok ab → timespecAdd ab c = .ok r →
        timespecAdd b c = .ok bc → timespecAdd a bc = .ok s → r = s) ∧
      (∀ a b, a.Normalised → b.Normalised →
        ∃ c, timespecCmp a b = .ok c ∧ c.sign = (a.total - b.total).sign) ∧
      (IsLinearOrder {a : Timespec // a.Normalised} fun a b => CmpLe a.1 b.1) ∧
      (∀ a b t ra rb, a.Normalised → b.Normalised → timespecAdd a t = .ok ra →
        timespecAdd b t = .ok rb →
          ∃ c c', timespecCmp ra rb = .ok c ∧ timespecCmp a b = .ok c' ∧ c.sign = c'.sign) ∧
      ∀ a b r, a.Normalised → b.Normalised → timespecSub a b = .ok r →
        ∃ c, timespecCmp a b = .ok c ∧ (r.total < 0 ↔ c < 0) :=
  ⟨fun _ _ => timespecAdd_ok_iff, fun _ _ => timespecSub_ok_iff,
    fun _ _ _ _ => timespecSub_timespecAdd, fun _ _ _ _ => timespecAdd_timespecSub,
    timespecAdd_comm, fun _ _ _ _ _ _ _ => timespecAdd_assoc, fun _ _ => timespecCmp_eq,
    cmpLe_linearOrder, fun _ _ _ _ _ => timespecCmp_timespecAdd, fun _ _ _ => timespecSub_neg_iff⟩

/-- A carry and a borrow: 5 s and 3 ns, less 1 s and 10 ns, and back. -/
theorem timespec_laws_carry :
    ∃ r, timespecAdd ⟨5, 3⟩ ⟨-1, -10⟩ = .ok r ∧ timespecSub r ⟨-1, -10⟩ = .ok ⟨5, 3⟩ := by
  obtain ⟨hadd, hsub, hback, -⟩ := timespec_laws
  obtain ⟨r, hr⟩ := (hadd ⟨5, 3⟩ ⟨-1, -10⟩).2 (by decide)
  obtain rfl : r = ⟨3, 999999993⟩ :=
    (timespecAdd_normalised hr).eq_of_total (by decide) (timespecAdd_total hr)
  obtain ⟨s, hs⟩ := (hsub ⟨3, 999999993⟩ ⟨-1, -10⟩).2 (by decide)
  exact ⟨_, hr, hs.trans (congrArg _ (hback _ _ _ _ (by decide) hr hs))⟩

end Sanntid.Time
