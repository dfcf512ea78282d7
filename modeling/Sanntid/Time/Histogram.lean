import Sanntid.Time.Timespec

/-!
# The histograms of `ex1`

`gettime_method_min_diff` of `ex1/taskB` and `ex1/taskC` reads the clock twice in every iteration
and counts the difference in a histogram of `ns_max` bins. The bin is the difference of the two
`tv_nsec` fields. Where the two readings lie in different seconds that is not the elapsed time,
which `timespec_sub` gives: a pair that is `k` nanoseconds and some whole seconds apart is counted
in bin `k` (`SecondsLonger`), and a pair that is `k` nanoseconds apart across the end of a second is
not counted (`AcrossSecond`).

`histogram_iff`: a bin has the right count exactly when the pairs of the two kinds balance.
-/

set_option autoImplicit false

namespace Sanntid.Time

open Sanntid.Arith Sanntid.Control

/-- `(int)(t2.tv_nsec - t1.tv_nsec)`. -/
def nsecDiff (t1 t2 : Timespec) : Except Overflow Int := do
  checkLong .nsec (t2.tvNsec - t1.tvNsec)
  .ok (toInt (t2.tvNsec - t1.tvNsec))

/-- One iteration, in which the clock returns the pair `(t1, t2)`. -/
def countDiff (nsMax : Nat) (histogram : Fin nsMax → Int) (sample : Timespec × Timespec) :
    Except Overflow (Fin nsMax → Int) := do
  let ns ← nsecDiff sample.1 sample.2
  if h : 0 ≤ ns ∧ ns < nsMax then
    let bin : Fin nsMax := ⟨ns.toNat, by omega⟩
    .ok (Function.update histogram bin (histogram bin + 1))
  else .ok histogram

/-- The loop, from a histogram of zeros; `ns_max` is 50 in `ex1/taskB` and 1000 in `ex1/taskC`. -/
def gettimeMethodMinDiff (nsMax : Nat) (samples : List (Timespec × Timespec)) :
    Except Overflow (Fin nsMax → Int) :=
  samples.foldlM (countDiff nsMax) fun _ => 0

/-- The elapsed time of an iteration as `timespec_sub(t2, t1)` gives it. -/
def elapsed (sample : Timespec × Timespec) : Option Int :=
  match timespecSub sample.2 sample.1 with
  | .ok passed => some passed.total
  | .error _ => none

/-- Two readings of the clock in normal form, the second one not before the first. -/
structure Ordered (sample : Timespec × Timespec) : Prop where
  first : sample.1.Normalised
  second : sample.2.Normalised
  le : sample.1.total ≤ sample.2.total

/-! ## What the loop counts -/

theorem countDiff_spec {nsMax : Nat} (histogram : Fin nsMax → Int)
    {sample : Timespec × Timespec} (h : Ordered sample) :
    countDiff nsMax histogram sample = .ok fun k =>
      histogram k + if sample.2.tvNsec - sample.1.tvNsec = (k : Int) then 1 else 0 := by
  obtain ⟨⟨h0, h1⟩, ⟨h0', h1'⟩, -⟩ := h
  have hlong : InLong (sample.2.tvNsec - sample.1.tvNsec) := by constructor <;> omega
  have hdiff : nsecDiff sample.1 sample.2 = .ok (sample.2.tvNsec - sample.1.tvNsec) := by
    rw [nsecDiff, bind_of_ok (checkLong_ok _ hlong), toInt_eq (by omega)]
  generalize sample.2.tvNsec - sample.1.tvNsec = ns at hdiff
  rw [countDiff, bind_of_ok hdiff]
  by_cases hbin : 0 ≤ ns ∧ ns < nsMax
  · -- the difference is the number of one bin
    have hlt : ns.toNat < nsMax := by omega
    refine (dif_pos hbin).trans (congrArg Except.ok (funext fun k => ?_))
    by_cases hk : k.val = ns.toNat
    · obtain rfl : k = ⟨ns.toNat, hlt⟩ := Fin.ext hk
      have hns : ns = (ns.toNat : Int) := by omega
      simp [← hns]
    · have hne : k ≠ ⟨ns.toNat, hlt⟩ := fun he => hk (congrArg Fin.val he)
      have hns : ns ≠ (k : Int) := by omega
      simp [Function.update_of_ne hne, hns]
  · refine (dif_neg hbin).trans (congrArg Except.ok (funext fun k => ?_))
    -- the difference is that of no bin
    have hns : ns ≠ (k : Int) := by omega
    simp [hns]

/-- Each bin counts the iterations with that difference of the `tv_nsec` fields. -/
theorem gettimeMethodMinDiff_eq (nsMax : Nat) {samples : List (Timespec × Timespec)}
    (h : ∀ sample ∈ samples, Ordered sample) :
    gettimeMethodMinDiff nsMax samples = .ok fun k =>
      (samples.countP fun sample =>
        decide (sample.2.tvNsec - sample.1.tvNsec = (k : Int)) : Int) := by
  have hfold : ∀ histogram : Fin nsMax → Int,
      samples.foldlM (countDiff nsMax) histogram = .ok fun k => histogram k +
        (samples.countP fun sample =>
          decide (sample.2.tvNsec - sample.1.tvNsec = (k : Int)) : Int) := by
    induction samples with
    | nil => simp [pure, Except.pure]
    | cons sample samples ih =>
      intro histogram
      have hstep := countDiff_spec histogram (h sample (by simp))
      rw [List.foldlM_cons, bind_of_ok hstep, ih fun x hx => h x (by simp [hx])]
      refine congrArg Except.ok (funext fun k => ?_)
      by_cases hk : sample.2.tvNsec - sample.1.tvNsec = (k : Int)
      · simp only [hk, if_true, decide_true, List.countP_cons_of_pos]
        push_cast
        ring
      · simp [hk]
  rw [gettimeMethodMinDiff, hfold]
  simp

/-! ## Seconds -/

/-- Counted in bin `k`, though whole seconds longer than `k` nanoseconds. -/
def SecondsLonger (k : Int) (sample : Timespec × Timespec) : Prop :=
  sample.1.tvSec < sample.2.tvSec ∧ sample.2.tvNsec = sample.1.tvNsec + k

/-- Over in `k` nanoseconds, in which the second has changed. -/
def AcrossSecond (k : Int) (sample : Timespec × Timespec) : Prop :=
  sample.2.tvSec = sample.1.tvSec + 1 ∧ sample.2.tvNsec + 1000000000 = sample.1.tvNsec + k

instance (k : Int) (sample : Timespec × Timespec) : Decidable (SecondsLonger k sample) :=
  inferInstanceAs (Decidable (_ ∧ _))

instance (k : Int) (sample : Timespec × Timespec) : Decidable (AcrossSecond k sample) :=
  inferInstanceAs (Decidable (_ ∧ _))

/-- An elapsed time below a second: within one second, or across the end of one. -/
theorem elapsed_eq_some_iff {sample : Timespec × Timespec} (h : Ordered sample) {k : Int}
    (h0 : 0 ≤ k) (hk : k < 1000000000) :
    elapsed sample = some k ↔
      sample.2.tvSec = sample.1.tvSec ∧ sample.2.tvNsec - sample.1.tvNsec = k ∨
        AcrossSecond k sample := by
  obtain ⟨⟨hfirst0, hfirst1⟩, ⟨hsecond0, hsecond1⟩, -⟩ := h
  constructor
  · intro helapsed
    rw [elapsed] at helapsed
    cases hsub : timespecSub sample.2 sample.1 with
    | error e => simp [hsub] at helapsed
    | ok passed =>
      have htotal := timespecSub_total hsub
      simp only [hsub, Option.some.injEq] at helapsed
      simp only [AcrossSecond, Timespec.total] at *
      omega
  · intro hcases
    -- below a second the difference fits
    have hsub : timespecSub sample.2 sample.1 = .ok ⟨0, k⟩ := by
      apply timespecSub_eq_ok_iff.2
      simp only [AcrossSecond, InLong, Timespec.Normalised, IsDigit, Timespec.total] at *
      refine ⟨?_, ?_, ?_, ?_, ?_⟩ <;> omega
    rw [elapsed, hsub]
    simp [Timespec.total]

/-- Counting two kinds of elements of a list in two ways. -/
theorem countP_add_countP {α : Type} {p q r s : α → Bool} {l : List α}
    (h : ∀ x ∈ l, ((if p x then 1 else 0) + if q x then 1 else 0) =
      (if r x then 1 else 0) + if s x then 1 else 0) :
    l.countP p + l.countP q = l.countP r + l.countP s := by
  induction l with
  | nil => rfl
  | cons x l ih =>
    have hx := h x (by simp)
    have hl := ih fun y hy => h y (by simp [hy])
    simp only [List.countP_cons]
    omega

/-- A bin and the pairs it misses make up the pairs it should count and the ones it should not. -/
theorem bin_balance {samples : List (Timespec × Timespec)}
    (h : ∀ sample ∈ samples, Ordered sample) {k : Int} (h0 : 0 ≤ k) (hk : k < 1000000000) :
    (samples.countP fun sample => decide (sample.2.tvNsec - sample.1.tvNsec = k)) +
        samples.countP (fun sample => decide (AcrossSecond k sample)) =
      (samples.countP fun sample => decide (elapsed sample = some k)) +
        samples.countP fun sample => decide (SecondsLonger k sample) := by
  apply countP_add_countP
  intro sample hsample
  have hord := h sample hsample
  have hsec : sample.1.tvSec ≤ sample.2.tvSec := by
    by_contra hlt
    have hlt' := (value_lt_iff hord.second hord.first).2 (Or.inl (not_le.1 hlt))
    exact absurd hord.le (not_le.2 hlt')
  simp only [decide_eq_true_eq, elapsed_eq_some_iff hord h0 hk]
  rcases hsec.lt_or_eq with hlt | heq
  · -- in different seconds: the bin of the fields, and the one of the elapsed time
    have hlonger : SecondsLonger k sample ↔ sample.2.tvNsec - sample.1.tvNsec = k := by
      rw [SecondsLonger]
      omega
    simp only [hlonger, hlt.ne', false_and, false_or]
    exact Nat.add_comm _ _
  · -- in one second the two differences are the same
    have hlonger : ¬ SecondsLonger k sample := fun hx => by
      have hlt := hx.1
      omega
    have hacross : ¬ AcrossSecond k sample := fun hx => by
      have hnext := hx.1
      omega
    simp [hlonger, hacross, heq]

/-- For every number of bins up to a second and every sequence of readings: every bin is the number
of iterations that took that many nanoseconds, if and only if for every bin as many iterations are
whole seconds longer than that as took that long across the end of a second. -/
theorem histogram_iff {nsMax : Nat} (hmax : nsMax ≤ 1000000000)
    {samples : List (Timespec × Timespec)} (h : ∀ sample ∈ samples, Ordered sample) :
    ∃ histogram, gettimeMethodMinDiff nsMax samples = .ok histogram ∧
      ((∀ k : Fin nsMax, histogram k =
          (samples.countP fun sample => decide (elapsed sample = some (k : Int)) : Int)) ↔
        ∀ k : Fin nsMax, samples.countP (fun sample => decide (SecondsLonger k sample)) =
          samples.countP fun sample => decide (AcrossSecond k sample)) := by
  refine ⟨_, gettimeMethodMinDiff_eq nsMax h, forall_congr' fun k => ?_⟩
  have hbalance := bin_balance h (k := (k : Int)) (by omega) (by omega)
  omega

/-- Two readings in one second, 30 ns apart, and two that are 2 s and 100 ns apart: the bins are
right. -/
theorem histogram_within_seconds :
    ∃ histogram, gettimeMethodMinDiff 50
        [(⟨5, 100⟩, ⟨5, 130⟩), (⟨6, 0⟩, ⟨8, 100⟩)] = .ok histogram ∧
      ∀ k : Fin 50, histogram k =
        ([((⟨5, 100⟩, ⟨5, 130⟩) : Timespec × Timespec), (⟨6, 0⟩, ⟨8, 100⟩)].countP fun sample =>
          decide (elapsed sample = some (k : Int)) : Int) := by
  have hmax : (50 : Nat) ≤ 1000000000 := by decide
  have hord : ∀ sample ∈ [((⟨5, 100⟩, ⟨5, 130⟩) : Timespec × Timespec), (⟨6, 0⟩, ⟨8, 100⟩)],
      Ordered sample := by
    simp only [List.forall_mem_cons, List.not_mem_nil, false_imp_iff, implies_true, and_true]
    exact ⟨⟨by decide, by decide, by decide⟩, by decide, by decide, by decide⟩
  obtain ⟨histogram, hrun, hiff⟩ := histogram_iff hmax hord
  exact ⟨histogram, hrun, hiff.2 (by decide)⟩

/-- Ten nanoseconds across the end of a second are in no bin of either program. -/
theorem missed_across_second :
    ∃ samples, (∀ sample ∈ samples, Ordered sample) ∧
      (samples.countP fun sample => decide (elapsed sample = some 10)) = 1 ∧
      (∃ histogram, gettimeMethodMinDiff 50 samples = .ok histogram ∧ histogram 10 = 0) ∧
      ∃ histogram, gettimeMethodMinDiff 1000 samples = .ok histogram ∧ histogram 10 = 0 := by
  have hord : Ordered (⟨0, 999999995⟩, ⟨1, 5⟩) := ⟨by decide, by decide, by decide⟩
  have hall : ∀ x ∈ [((⟨0, 999999995⟩, ⟨1, 5⟩) : Timespec × Timespec)], Ordered x := by
    simpa using hord
  have helapsed : elapsed (⟨0, 999999995⟩, ⟨1, 5⟩) = some 10 :=
    (elapsed_eq_some_iff hord (by decide) (by decide)).2 (by decide)
  refine ⟨[(⟨0, 999999995⟩, ⟨1, 5⟩)], hall, by simp [helapsed],
    ⟨_, gettimeMethodMinDiff_eq 50 hall, by decide⟩, _, gettimeMethodMinDiff_eq 1000 hall,
    by decide⟩

end Sanntid.Time
