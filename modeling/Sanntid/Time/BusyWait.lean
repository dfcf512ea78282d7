import Sanntid.Time.Timespec

/-!
# Busy waiting on the clock

`busy_wait` of `clock_gettime.h` reads the clock, adds the duration to it, and reads the clock again
until the deadline is reached. The clock is the list of the samples that the calls of
`clock_gettime` return; the loop that counts to 10000 between two of them has no effect.

`waitLoop_eq` says that the loop stops at the first sample that has reached the deadline.
-/

set_option autoImplicit false

namespace Sanntid.Time

open Sanntid.Control

/-- The `while` loop of `busy_wait` with the current sample `now` and the samples to come: the
number of further samples it reads before it returns, or `none` if it is still waiting after the
last. -/
def waitLoop (deadline now : Timespec) : List Timespec → Except Overflow (Option Nat)
  | [] => do
    let c ← timespecCmp now deadline
    .ok (if c < 0 then none else some 0)
  | next :: samples => do
    let c ← timespecCmp now deadline
    if c < 0 then
      let read ← waitLoop deadline next samples
      .ok (read.map (· + 1))
    else .ok (some 0)

/-- `busy_wait(t)` with `now` as its first sample. -/
def busyWait (t now : Timespec) (samples : List Timespec) : Except Overflow (Option Nat) := do
  let deadline ← timespecAdd now t
  waitLoop deadline now samples

/-- The loop returns at the first sample that is not before the deadline. -/
theorem waitLoop_eq {deadline now : Timespec} {samples : List Timespec}
    (hdeadline : deadline.Normalised) (hnow : now.Normalised)
    (hsamples : ∀ x ∈ samples, x.Normalised) :
    waitLoop deadline now samples =
      .ok ((now :: samples).findIdx? fun x => decide (deadline.total ≤ x.total)) := by
  induction samples generalizing now with
  | nil =>
    obtain ⟨c, hc, hlt, -⟩ := timespecCmp_spec hnow hdeadline
    rw [waitLoop, bind_of_ok hc]
    by_cases hearly : now.total < deadline.total
    · simp [hlt, hearly, List.findIdx?_cons]
    · simp [hlt, hearly, List.findIdx?_cons, not_lt.1 hearly]
  | cons next samples ih =>
    obtain ⟨c, hc, hlt, -⟩ := timespecCmp_spec hnow hdeadline
    have hrest := ih (hsamples next (by simp)) fun x hx => hsamples x (by simp [hx])
    rw [waitLoop, bind_of_ok hc]
    by_cases hearly : now.total < deadline.total
    · rw [if_pos (hlt.2 hearly), bind_of_ok hrest, List.findIdx?_cons (x := now),
        if_neg (by simpa using hearly)]
    · rw [if_neg (fun hneg => hearly (hlt.1 hneg)), List.findIdx?_cons]
      simp [not_lt.1 hearly]

/-- `busy_wait(t)` returns at the first sample, counting the one it starts with, that lies at least
`t` after the start, and it does not return before such a sample has been read. -/
theorem busyWait_exact {t now deadline : Timespec} {samples : List Timespec}
    (hnow : now.Normalised) (hsamples : ∀ x ∈ samples, x.Normalised)
    (hadd : timespecAdd now t = .ok deadline) :
    ∃ read, busyWait t now samples = .ok read ∧
      (∀ n : Nat, read = some n ↔
        (∃ x, (now :: samples)[n]? = some x ∧ now.total + t.total ≤ x.total) ∧
          ∀ (m : Nat) x, m < n → (now :: samples)[m]? = some x → x.total < now.total + t.total) ∧
      (read = none ↔ ∀ x ∈ now :: samples, x.total < now.total + t.total) := by
  have hloop := waitLoop_eq (timespecAdd_normalised hadd) hnow hsamples
  rw [timespecAdd_total hadd] at hloop
  refine ⟨(now :: samples).findIdx? fun x => decide (now.total + t.total ≤ x.total), ?_,
    fun n => ?_, ?_⟩
  · rw [busyWait, bind_of_ok hadd, hloop]
  · -- the first index of a good sample, in the words of the statement
    rw [List.findIdx?_eq_some_iff_getElem]
    constructor
    · rintro ⟨hn, hat, hbefore⟩
      refine ⟨⟨_, List.getElem?_eq_getElem hn, by simpa using hat⟩, fun m x hm hx => ?_⟩
      obtain ⟨hm', rfl⟩ := List.getElem?_eq_some_iff.1 hx
      simpa using hbefore m hm
    · rintro ⟨⟨x, hx, hat⟩, hbefore⟩
      obtain ⟨hn, rfl⟩ := List.getElem?_eq_some_iff.1 hx
      refine ⟨hn, by simpa using hat, fun m hm => ?_⟩
      simpa using hbefore m _ hm (List.getElem?_eq_getElem (by omega))
  · simp only [List.findIdx?_eq_none_iff, decide_eq_false_iff_not, not_le]

/-- A wait for -1 s and 1500000010 ns that begins at 3 s and 999999990 ns ends at the second sample
after the first one: the deadline is 4 s and 500000000 ns. -/
theorem busyWait_across_second :
    busyWait ⟨-1, 1500000010⟩ ⟨3, 999999990⟩
      [⟨4, 0⟩, ⟨4, 500000000⟩, ⟨4, 600000000⟩] = .ok (some 2) := by
  have hadd : timespecAdd ⟨3, 999999990⟩ ⟨-1, 1500000010⟩ = .ok ⟨4, 500000000⟩ :=
    timespecAdd_eq_ok_iff.2 (by decide)
  have hnow : (⟨3, 999999990⟩ : Timespec).Normalised := by decide
  have hsamples : ∀ x ∈ [(⟨4, 0⟩ : Timespec), ⟨4, 500000000⟩, ⟨4, 600000000⟩], x.Normalised := by
    decide
  obtain ⟨read, hread, hsome, -⟩ := busyWait_exact hnow hsamples hadd
  rw [hread, (hsome 2).2]
  refine ⟨⟨⟨4, 500000000⟩, rfl, by decide⟩, fun m x hm hx => ?_⟩
  interval_cases m
  · obtain rfl : (⟨3, 999999990⟩ : Timespec) = x := Option.some.inj hx
    decide
  · obtain rfl : (⟨4, 0⟩ : Timespec) = x := Option.some.inj hx
    decide

end Sanntid.Time
