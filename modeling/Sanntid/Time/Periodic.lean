import Sanntid.Time.Timespec

/-!
# The periodic threads of `ex6`

`periodic_task` and `taskD_periodic` of `ex6/main.c` read the clock once, and then in every
iteration do their work, add the period to the wake-up time, and sleep until then. What they call is
an environment over an arbitrary state, so their work may take any time and have any outcome.

No iteration reads the clock again: `wakeLoop_spec` says that the wake-up times lie on the grid that
the first reading and the period span, as far as the last of them fits into `time_t`. In an
environment that keeps a record of the arguments of `clock_nanosleep` (`Env.recording`), these are
the times that a thread leaves there (`waketimes_on_schedule`).
-/

set_option autoImplicit false

namespace Sanntid.Time

open Sanntid.Arith Sanntid.Control

/-- The services that the threads call, with the state of everything outside of the thread. -/
structure Env (ω : Type) where
  clockGettime : ω → Timespec × ω
  clockNanosleep : Timespec → ω → ω
  printf : String → ω → ω
  setCpu : Int → ω → ω
  ioRead : Int → ω → Int × ω
  ioWrite : Int → Int → ω → ω
  usleep : Int → ω → ω

section Threads

variable {ω : Type} (env : Env ω)

/-- The same services in a world that also keeps a record of the arguments of `clock_nanosleep`. -/
def Env.recording : Env (ω × List Timespec) where
  clockGettime := fun (w, slept) =>
    let (now, w) := env.clockGettime w
    (now, w, slept)
  clockNanosleep := fun waketime (w, slept) => (env.clockNanosleep waketime w, slept ++ [waketime])
  printf := fun text (w, slept) => (env.printf text w, slept)
  setCpu := fun cpu (w, slept) => (env.setCpu cpu w, slept)
  ioRead := fun chan (w, slept) =>
    let (value, w) := env.ioRead chan w
    (value, w, slept)
  ioWrite := fun chan value (w, slept) => (env.ioWrite chan value w, slept)
  usleep := fun usec (w, slept) => (env.usleep usec w, slept)

/-- `n` iterations of a `while (1)` loop that does `body`, advances the wake-up time and sleeps: the
world that they leave. -/
def wakeLoop (body : ω → ω) (period : Timespec) :
    Nat → Timespec → ω → Except Overflow ω
  | 0, _, w => .ok w
  | n + 1, waketime, w => do
    let w := body w
    let waketime ← timespecAdd waketime period
    wakeLoop body period n waketime (env.clockNanosleep waketime w)

/-- `periodic_task` up to the end of its `n`th iteration. -/
def periodicTask (period : Timespec) (n : Nat) (w : ω) : Except Overflow ω :=
  let (waketime, w) := env.clockGettime w
  wakeLoop env (env.printf "Periodic tasking\n") period n waketime w

/-- The period of `periodic_task` in the file. -/
def periodicTaskPeriod : Timespec := ⟨0, 500 * 1000 * 1000⟩

/-- The work of `taskD_periodic`: a response to a test signal on its channel. -/
def taskDBody (chan : Int) (w : ω) : ω :=
  let (value, w) := env.ioRead chan w
  if value = 0 then env.ioWrite chan 1 (env.usleep 5 (env.ioWrite chan 0 w)) else w

/-- `taskD_periodic` up to the end of its `n`th iteration. -/
def taskDPeriodic (chan : Int) (period : Timespec) (n : Nat) (w : ω) : Except Overflow ω :=
  let (waketime, w) := env.clockGettime w
  let w := env.setCpu 0 w
  wakeLoop env (taskDBody env chan) period n waketime w

/-- The period of `taskD_periodic` in the file. -/
def taskDPeriod : Timespec := ⟨0, 1000 * 1000⟩

/-- The world after iterations that do `body` and sleep until the given times. -/
def iterations (body : ω → ω) (waketimes : List Timespec) (w : ω) : ω :=
  waketimes.foldl (fun w waketime => env.clockNanosleep waketime (body w)) w

/-- The iterations leave their wake-up times in the record, in order. -/
theorem iterations_recording {body : ω → ω} {body' : ω × List Timespec → ω × List Timespec}
    (hbody : ∀ w slept, body' (w, slept) = (body w, slept)) (waketimes : List Timespec) (w : ω)
    (slept : List Timespec) :
    iterations env.recording body' waketimes (w, slept) =
      (iterations env body waketimes w, slept ++ waketimes) := by
  induction waketimes generalizing w slept with
  | nil => simp [iterations]
  | cons waketime waketimes ih =>
    have hstep : env.recording.clockNanosleep waketime (body' (w, slept)) =
        (env.clockNanosleep waketime (body w), slept ++ [waketime]) := by
      rw [hbody]
      rfl
    rw [iterations, List.foldl_cons, hstep, ← iterations, ih, iterations, iterations,
      List.foldl_cons, List.append_assoc, List.singleton_append]

theorem taskDBody_recording (chan : Int) (w : ω) (slept : List Timespec) :
    taskDBody env.recording chan (w, slept) = (taskDBody env chan w, slept) := by
  by_cases hvalue : (env.ioRead chan w).1 = 0
  · simp [taskDBody, Env.recording, hvalue]
  · simp [taskDBody, Env.recording, hvalue]

end Threads

/-! ## On schedule -/

/-- `n` wake-up times in normal form, the one of iteration `k` at `start + k * period`, counting the
iterations from 1 on. -/
def OnSchedule (start period : Timespec) (n : Nat) (waketimes : List Timespec) : Prop :=
  waketimes.length = n ∧ ∀ (k : Nat) waketime, waketimes[k]? = some waketime →
    waketime.Normalised ∧ waketime.total = start.total + (k + 1) * period.total

/-- A time that is not negative can be added where the sum fits. -/
theorem timespecAdd_of_fits {a t : Timespec} (ha : a.Normalised) (hsec : InLong a.tvSec)
    (ht : t.Normalised) (hnonneg : 0 ≤ t.tvSec)
    (hfit : (a.total + t.total) / 1000000000 ≤ 9223372036854775807) :
    ∃ r, timespecAdd a t = .ok r := by
  refine ⟨⟨(a.total + t.total) / 1000000000, (a.total + t.total) % 1000000000⟩, ?_⟩
  obtain ⟨ha0, ha1⟩ := ha
  obtain ⟨ht0, ht1⟩ := ht
  obtain ⟨hsec0, hsec1⟩ := hsec
  apply timespecAdd_eq_ok_iff.2
  simp only [InLong, Timespec.Normalised, IsDigit, Timespec.total] at *
  refine ⟨?_, ?_, ?_, ?_, ?_⟩ <;> omega

/-- The loop sleeps on schedule. -/
theorem wakeLoop_spec {ω : Type} (env : Env ω) (body : ω → ω) {period : Timespec}
    (hp : period.Normalised) (hp0 : 0 ≤ period.tvSec) (n : Nat) {waketime : Timespec} (w : ω)
    (hnorm : waketime.Normalised) (hsec : InLong waketime.tvSec)
    (hfit : (waketime.total + n * period.total) / 1000000000 ≤ 9223372036854775807) :
    ∃ waketimes, wakeLoop env body period n waketime w = .ok (iterations env body waketimes w) ∧
      OnSchedule waketime period n waketimes := by
  have htotal : 0 ≤ period.total := by
    obtain ⟨hp1, -⟩ := hp
    simp only [Timespec.total]
    omega
  induction n generalizing waketime w with
  | zero => exact ⟨[], rfl, rfl, by simp⟩
  | succ n ih =>
    have hmul : ((n + 1 : Nat) : Int) * period.total = n * period.total + period.total := by
      push_cast
      ring
    have hn : 0 ≤ (n : Int) * period.total := by positivity
    rw [hmul] at hfit
    -- one iteration: the next wake-up time, and the rest of the schedule from there
    obtain ⟨next, hnext⟩ := timespecAdd_of_fits hnorm hsec hp hp0 (by omega)
    obtain ⟨-, -, hnextSec, hnextNorm, hnextTotal⟩ := timespecAdd_eq_ok_iff.1 hnext
    obtain ⟨rest, hrest, hlen, hall⟩ :=
      ih (env.clockNanosleep next (body w)) hnextNorm hnextSec (by rw [hnextTotal]; omega)
    refine ⟨next :: rest, ?_, by simp [hlen], ?_⟩
    · rw [wakeLoop, bind_of_ok hnext, hrest]
      rfl
    · intro k x hx
      cases k with
      | zero =>
        obtain rfl : next = x := by simpa using hx
        refine ⟨hnextNorm, ?_⟩
        rw [hnextTotal]
        push_cast
        ring
      | succ k =>
        obtain ⟨hxNorm, hxTotal⟩ := hall k x (by simpa using hx)
        refine ⟨hxNorm, ?_⟩
        rw [hxTotal, hnextTotal]
        push_cast
        ring

/-- In every environment, for every period and every number of iterations: as far as the last
wake-up time fits, the threads do the work of an iteration and then call `clock_nanosleep`, as often
as they iterate, and the times that it gets are `start + k * period`, exactly and in normal form. -/
theorem waketimes_on_schedule {ω : Type} (env : Env ω) (w : ω) (chan : Int) {period : Timespec}
    (n : Nat) (hstart : (env.clockGettime w).1.Normalised)
    (hsec : InLong (env.clockGettime w).1.tvSec)
    (hperiod : period.Normalised) (hnonneg : 0 ≤ period.tvSec)
    (hfit : ((env.clockGettime w).1.total + n * period.total) / 1000000000 ≤
      9223372036854775807) :
    (∃ slept, periodicTask env.recording period n (w, []) =
          .ok (iterations env (env.printf "Periodic tasking\n") slept (env.clockGettime w).2,
            slept) ∧
        OnSchedule (env.clockGettime w).1 period n slept) ∧
      ∃ slept, taskDPeriodic env.recording chan period n (w, []) =
          .ok (iterations env (taskDBody env chan) slept (env.setCpu 0 (env.clockGettime w).2),
            slept) ∧
        OnSchedule (env.clockGettime w).1 period n slept := by
  constructor
  · -- `periodic_task`
    obtain ⟨slept, hloop, hschedule⟩ := wakeLoop_spec env.recording
      (env.recording.printf "Periodic tasking\n") hperiod hnonneg n
      ((env.clockGettime w).2, []) hstart hsec hfit
    refine ⟨slept, ?_, hschedule⟩
    rw [iterations_recording env (fun _ _ => rfl), List.nil_append] at hloop
    exact hloop
  · -- `taskD_periodic`
    obtain ⟨slept, hloop, hschedule⟩ := wakeLoop_spec env.recording
      (taskDBody env.recording chan) hperiod hnonneg n
      (env.setCpu 0 (env.clockGettime w).2, []) hstart hsec hfit
    refine ⟨slept, ?_, hschedule⟩
    rw [iterations_recording env (taskDBody_recording env chan), List.nil_append] at hloop
    exact hloop

/-- A world in which time passes: its state is the clock. -/
def clockEnv : Env Timespec where
  clockGettime := fun now => (now, now)
  clockNanosleep := fun waketime _ => waketime
  printf := fun _ now => now
  setCpu := fun _ now => now
  ioRead := fun _ now => (0, now)
  ioWrite := fun _ _ now => now
  -- the work takes longer than the period
  usleep := fun _ now => ⟨now.tvSec + 3, now.tvNsec⟩

/-- Three iterations of the two threads with their own periods, the first one carrying a second. -/
theorem three_waketimes_on_schedule :
    (∃ now slept, periodicTask clockEnv.recording periodicTaskPeriod 3 (⟨7, 600000000⟩, []) =
          .ok (now, slept) ∧
        OnSchedule ⟨7, 600000000⟩ periodicTaskPeriod 3 slept) ∧
      ∃ now slept, taskDPeriodic clockEnv.recording 1 taskDPeriod 3 (⟨7, 999000000⟩, []) =
          .ok (now, slept) ∧
        OnSchedule ⟨7, 999000000⟩ taskDPeriod 3 slept := by
  have hperiod : periodicTaskPeriod.Normalised := by decide
  have hperiod' : taskDPeriod.Normalised := by decide
  obtain ⟨slept, hrun, hschedule⟩ := (waketimes_on_schedule clockEnv ⟨7, 600000000⟩ 1 3 (by decide)
    (by decide) hperiod (by decide) (by decide)).1
  obtain ⟨slept', hrun', hschedule'⟩ := (waketimes_on_schedule clockEnv ⟨7, 999000000⟩ 1 3
    (by decide) (by decide) hperiod' (by decide) (by decide)).2
  exact ⟨⟨_, slept, hrun, hschedule⟩, _, slept', hrun', hschedule'⟩

end Sanntid.Time
