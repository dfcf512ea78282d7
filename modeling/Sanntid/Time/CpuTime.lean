import Sanntid.Transition.System

/-!
# Waiting on the CPU time of the process

`busy_wait_times` of `ex1/taskA/taska.c` asks `times` for the ticks that the process has consumed
until they are `wait_time` above `start_time`. Both samples are static: they are zero when the
process starts, they survive from call to call, and `start_time` is never sampled. The process may
consume ticks between any two statements, and it may have consumed any number of them before its
first call. `clock_t` does not overflow.

A call is in time when some report since its entry is `wait_time` above the ticks at its entry
(`InTime`). `inTime_step` says which steps keep that, and `calls_inTime_iff` says it of whole runs:
the call must be the first one, and no report may lie between `wait_time` and `wait_time` above the
ticks at its entry.
-/

set_option autoImplicit false

namespace Sanntid.Time.CpuTime

open Sanntid.Transition

/-- The fields of `struct tms` that the program reads. -/
structure Tms where
  tmsUtime : Int
  tmsStime : Int
  deriving DecidableEq, Repr

/-- User and system ticks. -/
def Tms.cpu (t : Tms) : Int := t.tmsStime + t.tmsUtime

/-- `wait_time`, in hundredths of a second. -/
def waitTime : Int := 100

/-- The static variables of `busy_wait_times`, the ticks that the process has consumed, and whether
it is in a call, before `times(&end_time)`. -/
structure Process where
  startTime : Tms
  endTime : Tms
  consumed : Tms
  inCall : Bool
  deriving DecidableEq, Repr

/-- The process consumes ticks, calls `busy_wait_times`, or executes `times(&end_time)`. -/
inductive Event where
  | consume (consumed : Tms)
  | call
  | times
  deriving DecidableEq, Repr

/-- The condition of the `while` loop. -/
def Process.waits (s : Process) : Bool :=
  s.endTime.tmsStime + s.endTime.tmsUtime - s.startTime.tmsStime - s.startTime.tmsUtime < waitTime

/-- The `while` statement up to its body or to the return. -/
def Process.test (s : Process) : Process := { s with inCall := s.waits }

/-- An event, where it can happen. No ticks are given back. -/
def next (s : Process) : Event → Option Process
  | .consume consumed =>
    if s.consumed.cpu ≤ consumed.cpu then some { s with consumed := consumed } else none
  | .call => if s.inCall then none else some s.test
  | .times => if s.inCall then some (Process.test { s with endTime := s.consumed }) else none

/-- A process that has consumed some ticks before its first call. -/
def started (consumed : Tms) : Process where
  startTime := ⟨0, 0⟩
  endTime := ⟨0, 0⟩
  consumed := consumed
  inCall := false

/-- A process from its start, with the ticks it has consumed by then. -/
def timesSystem (consumed : Tms) : System Process Event where
  init := fun s => s = started consumed
  next := next

/-! ## Calls -/

/-- The ticks consumed when a call was entered, and the reports of `times` since. -/
structure Call where
  entered : Int
  reported : List Int
  deriving DecidableEq, Repr

/-- One event's effect on the latest call. -/
def callStep (latest : Option Call) (q : Process × Event) : Option Call :=
  match q.2 with
  | .consume _ => latest
  | .call => some ⟨q.1.consumed.cpu, []⟩
  | .times => latest.map fun c => { c with reported := c.reported ++ [q.1.consumed.cpu] }

/-- The latest call of a run. -/
def latestCall (tr : List (Process × Event)) : Option Call := tr.foldl callStep none

theorem latestCall_snoc (tr : List (Process × Event)) (q : Process × Event) :
    latestCall (tr ++ [q]) = callStep (latestCall tr) q := by
  simp [latestCall]

/-- If the latest call has returned, `times` has reported `wait_time` more ticks than the process
had consumed when the call was entered. -/
def InTime (tr : List (Process × Event)) (s : Process) : Prop :=
  ∀ c ∈ latestCall tr, s.inCall = false → ∃ r ∈ c.reported, c.entered + waitTime ≤ r

/-- A call is the first one of the process, and a report of `times` does not lie from `wait_time` up
to `wait_time` above the ticks at the entry of the call. -/
def FirstAndClear (tr : List (Process × Event)) (q : Process × Event) : Prop :=
  match q.2 with
  | .consume _ => True
  | .call => latestCall tr = none
  | .times => ∀ c ∈ latestCall tr,
      ¬ (waitTime ≤ q.1.consumed.cpu ∧ q.1.consumed.cpu < c.entered + waitTime)

instance : ∀ (tr : List (Process × Event)) (q : Process × Event), Decidable (FirstAndClear tr q)
  | _, (_, .consume _) => inferInstanceAs (Decidable True)
  | tr, (_, .call) => inferInstanceAs (Decidable (latestCall tr = none))
  | tr, (_, .times) => inferInstanceAs (Decidable (∀ c ∈ latestCall tr, ¬ (_ ∧ _)))

/-! ## What a step does -/

theorem step_cases {consumed : Tms} {s t : Process} {e : Event}
    (h : (timesSystem consumed).Step s e t) :
    (∃ now, e = .consume now ∧ s.consumed.cpu ≤ now.cpu ∧ t = { s with consumed := now }) ∨
      (e = .call ∧ s.inCall = false ∧ t = s.test) ∨
      e = .times ∧ s.inCall = true ∧ t = Process.test { s with endTime := s.consumed } := by
  cases e with
  | consume now =>
    simp only [System.Step, timesSystem, next, Option.ite_none_right_eq_some,
      Option.some.injEq] at h
    exact Or.inl ⟨now, rfl, h.1, h.2.symm⟩
  | call =>
    simp only [System.Step, timesSystem, next, Option.ite_none_left_eq_some,
      Option.some.injEq, Bool.not_eq_true] at h
    exact Or.inr (Or.inl ⟨rfl, h.1, h.2.symm⟩)
  | times =>
    simp only [System.Step, timesSystem, next, Option.ite_none_right_eq_some,
      Option.some.injEq] at h
    exact Or.inr (Or.inr ⟨rfl, h.1, h.2.symm⟩)

/-- As long as `start_time` is zero, the loop compares the whole CPU time with `wait_time`. -/
theorem inCall_test {s : Process} (h : s.startTime = ⟨0, 0⟩) :
    s.test.inCall = true ↔ s.endTime.cpu < waitTime := by
  simp [Process.test, Process.waits, h, Tms.cpu]

/-! ## What a run knows -/

/-- `start_time` is zero, and so is `end_time` before the first call; a call goes on while
`end_time` is below `wait_time`; and no report is above the ticks consumed. -/
structure Inv (tr : List (Process × Event)) (s : Process) : Prop where
  start : s.startTime = ⟨0, 0⟩
  fresh : latestCall tr = none → s.endTime = ⟨0, 0⟩ ∧ s.inCall = false
  inCall : ∀ c ∈ latestCall tr, (s.inCall = true ↔ s.endTime.cpu < waitTime)
  reported : ∀ c ∈ latestCall tr, ∀ r ∈ c.reported, r ≤ s.consumed.cpu

theorem started_inv (consumed : Tms) : Inv [] (started consumed) where
  start := rfl
  fresh := fun _ => ⟨rfl, rfl⟩
  inCall := fun _ h => nomatch h
  reported := fun _ h => nomatch h

theorem step_inv {consumed : Tms} {tr : List (Process × Event)} {s t : Process} {e : Event}
    (hs : Inv tr s) (h : (timesSystem consumed).Step s e t) : Inv (tr ++ [(s, e)]) t := by
  obtain ⟨hstart, hfresh, hin, hrep⟩ := hs
  rcases step_cases h with ⟨now, rfl, hle, rfl⟩ | ⟨rfl, -, rfl⟩ | ⟨rfl, hcall, rfl⟩
  · refine ⟨hstart, ?_, ?_, ?_⟩ <;> rw [latestCall_snoc, callStep]
    · exact hfresh
    · exact hin
    · -- what has been reported stays in the past
      exact fun c hc r hr => (hrep c hc r hr).trans hle
  · refine ⟨hstart, ?_, ?_, ?_⟩ <;> rw [latestCall_snoc, callStep]
    · exact fun hnone => nomatch hnone
    · exact fun _ _ => inCall_test hstart
    · rintro c hc r hr
      obtain rfl := Option.some.inj hc
      simp at hr
  · refine ⟨hstart, ?_, ?_, ?_⟩ <;> rw [latestCall_snoc, callStep]
    · -- `times` is executed inside a call
      intro hnone
      rw [(hfresh (Option.map_eq_none_iff.1 hnone)).2] at hcall
      exact Bool.noConfusion hcall
    · exact fun _ _ => inCall_test hstart
    · rintro c hc r hr
      obtain ⟨c, hc', rfl⟩ := Option.map_eq_some_iff.1 hc
      rcases List.mem_append.1 hr with hr | hr
      · exact hrep c hc' r hr
      · exact (List.mem_singleton.1 hr).le

theorem run_inv {consumed : Tms} {tr : List (Process × Event)} {s : Process}
    (h : (timesSystem consumed).Run (started consumed) tr s) : Inv tr s := by
  induction h with
  | nil => exact started_inv consumed
  | snoc _ hstep ih => exact step_inv ih hstep

/-- A step keeps all calls in time exactly when it is not a second call and not a report that ends
the call too early. -/
theorem inTime_step {consumed : Tms} {tr : List (Process × Event)} {s t : Process} {e : Event}
    (hs : Inv tr s) (hin : InTime tr s) (h : (timesSystem consumed).Step s e t) :
    InTime (tr ++ [(s, e)]) t ↔ FirstAndClear tr (s, e) := by
  rcases step_cases h with ⟨now, rfl, -, rfl⟩ | ⟨rfl, hout, rfl⟩ | ⟨rfl, hcall, rfl⟩
  · rw [InTime, latestCall_snoc, callStep]
    exact iff_of_true hin trivial
  · rw [InTime, latestCall_snoc, callStep, FirstAndClear]
    constructor
    · -- after an earlier call `end_time` is at `wait_time` already, so the call returns at once
      intro hnew
      by_contra hsecond
      obtain ⟨c, hc⟩ := Option.ne_none_iff_exists'.1 hsecond
      have hpast : ¬ s.endTime.cpu < waitTime := by
        rw [← hs.inCall c hc, hout]
        exact Bool.false_ne_true
      have hreturns : s.test.inCall = false := by
        rw [← Bool.not_eq_true, inCall_test hs.start]
        exact hpast
      obtain ⟨r, hr, -⟩ := hnew _ rfl hreturns
      simp at hr
    · -- at the first call `end_time` is zero, so the call goes on
      intro hfirst c _ hreturns
      have hwaits : s.test.inCall = true := by
        rw [inCall_test hs.start, (hs.fresh hfirst).1]
        decide
      rw [hwaits] at hreturns
      exact Bool.noConfusion hreturns
  · have htest : (Process.test { s with endTime := s.consumed }).inCall = false ↔
        waitTime ≤ s.consumed.cpu := by
      rw [← Bool.not_eq_true, ← not_lt]
      exact (inCall_test (s := { s with endTime := s.consumed }) hs.start).not
    rw [InTime, latestCall_snoc, callStep, FirstAndClear]
    constructor
    · rintro hnew c hc ⟨hpast, hearly⟩
      obtain ⟨r, hr, hlate⟩ := hnew _ (by rw [hc]; rfl) (htest.2 hpast)
      -- no report is above the latest one
      have hle : r ≤ s.consumed.cpu := by
        rcases List.mem_append.1 hr with hr | hr
        · exact hs.reported c hc r hr
        · exact (List.mem_singleton.1 hr).le
      exact absurd (hlate.trans hle) (not_le.2 hearly)
    · rintro hclear c hc hreturns
      obtain ⟨c, hc', rfl⟩ := Option.map_eq_some_iff.1 hc
      have hpast := htest.1 hreturns
      refine ⟨s.consumed.cpu, by simp, not_lt.1 fun hearly => ?_⟩
      exact hclear c hc' ⟨hpast, hearly⟩

/-- In every run of a process, whatever it had consumed before: every call is in time in every
state, if and only if every call is the first one and no report during it lies from `wait_time` up
to `wait_time` above the ticks at its entry. -/
theorem calls_inTime_iff {consumed : Tms} {tr : List (Process × Event)} {t : Process}
    (h : (timesSystem consumed).Run (started consumed) tr t) :
    (∀ pre post s, tr = pre ++ post →
        (timesSystem consumed).Run (started consumed) pre s → InTime pre s) ↔
      ∀ pre q post, tr = pre ++ q :: post → FirstAndClear pre q :=
  System.Run.forall_prefix_iff (fun _ hc => nomatch hc)
    (fun _ _ _ _ hrun hin hstep => inTime_step (run_inv hrun) hin hstep) h

/-- A process that has consumed 7 ticks calls, and returns when 110 are reported. -/
theorem first_call_inTime :
    ∃ tr t, (timesSystem ⟨3, 4⟩).Run (started ⟨3, 4⟩) tr t ∧
      latestCall tr = some ⟨7, [60, 110]⟩ ∧ t.inCall = false ∧
      ∀ pre post s, tr = pre ++ post →
        (timesSystem ⟨3, 4⟩).Run (started ⟨3, 4⟩) pre s → InTime pre s := by
  obtain ⟨tr, t, hrun, hlatest, hreturned, hclear⟩ :=
    (timesSystem ⟨3, 4⟩).exists_run_of_replay (started ⟨3, 4⟩)
      [.call, .consume ⟨40, 20⟩, .times, .consume ⟨80, 30⟩, .times]
      (fun tr t => latestCall tr = some ⟨7, [60, 110]⟩ ∧ t.inCall = false ∧
        ∀ n, (hn : n < tr.length) → FirstAndClear (tr.take n) tr[n]) (by decide)
  exact ⟨tr, t, hrun, hlatest, hreturned,
    (calls_inTime_iff hrun).2 (System.forall_steps_iff.2 hclear)⟩

/-- The second call of a process returns at once: `end_time` still holds the 100 ticks that ended
the first call. -/
theorem second_call_at_once :
    ∃ tr t, (timesSystem ⟨0, 0⟩).Run (started ⟨0, 0⟩) tr t ∧
      latestCall tr = some ⟨100, []⟩ ∧ t.inCall = false ∧ ¬ InTime tr t := by
  obtain ⟨tr, t, hrun, hlatest, hreturned⟩ :=
    (timesSystem ⟨0, 0⟩).exists_run_of_replay (started ⟨0, 0⟩)
      [.call, .consume ⟨90, 10⟩, .times, .call]
      (fun tr t => latestCall tr = some ⟨100, []⟩ ∧ t.inCall = false) (by decide)
  refine ⟨tr, t, hrun, hlatest, hreturned, fun hin => ?_⟩
  obtain ⟨r, hr, -⟩ := hin _ hlatest hreturned
  simp at hr

end Sanntid.Time.CpuTime
