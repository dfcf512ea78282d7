import Sanntid.Comedi.Io
import Sanntid.Transition.System
import Mathlib.Data.Fintype.Basic

/-!
# The response tasks of `ex6` and `ex7`

Three threads, one for each channel, share the card: each polls its test input and answers a low
level with a pulse on its response output. The threads interleave in any way, and between any two
statements the card may change by itself in all but its response lines. Nobody looks at what
`io_init` returns (`main` of `ex6` drops it, and in `ex7` it is a constructor), and `io_write` and
`io_read` drop what the card answers, so a refused write leaves a response line where it is.
`pulses_iff` says when this does no harm.
-/

set_option autoImplicit false

namespace Sanntid.Comedi

open Sanntid.Transition

/-- The channels that `main` starts a thread for. -/
inductive Channel where
  | one
  | two
  | three
  deriving DecidableEq

instance : Fintype Channel := ⟨{.one, .two, .three}, fun x => by cases x <;> decide⟩

/-- The argument that `main` gives to the thread of a channel. -/
def Channel.chan : Channel → Int
  | one => 1
  | two => 2
  | three => 3

/-- The function of the threads: `taskA` and `taskD_periodic` of `ex6`, `task_fnc` of `ex7`. -/
inductive Task where
  | taskA
  | taskDPeriodic
  | taskFnc
  deriving DecidableEq

/-- The statement a thread executes next. `pause` is the `usleep` or `rt_timer_spin` between the two
writes, and `waitPeriod` stands for what follows the answer: the wait for the next period, and in
`task_fnc` the tests before it. -/
inductive Point where
  | ioRead
  | ioWriteLow
  | pause
  | ioWriteHigh
  | waitPeriod
  | deleted
  deriving DecidableEq

/-- The three threads and what they share. -/
structure State (κ : Type) where
  point : Channel → Point
  world : World κ

/-- The card changes by itself; the thread of a channel executes a statement; or it deletes
itself. -/
inductive Event (κ : Type) where
  | card (card : κ)
  | task (x : Channel)
  | delete (x : Channel)

/-- `task_fnc` and `taskD_periodic` wait before they read again. -/
def Task.afterAnswer : Task → Point
  | taskA => .ioRead
  | taskDPeriodic | taskFnc => .waitPeriod

/-- What the driver that the task is linked with prints in `io_init`. -/
def Task.initTexts : Task → List String
  | taskA | taskDPeriodic => []
  | taskFnc => initComplete

variable {κ : Type}

/-- The thread of `x` goes on to `p`, in the world that its statement has left. -/
def State.goto (s : State κ) (x : Channel) (p : Point) (w : World κ) : State κ :=
  ⟨Function.update s.point x p, w⟩

section Threads

variable (dev : Comedilib κ) (level : κ → Int → Bool)

/-- The statement of the thread of `x`; the end of a pause and of a wait comes at any time. -/
def exec (task : Task) (s : State κ) (x : Channel) : Option (State κ) :=
  match s.point x with
  | .ioRead =>
    let (value, w) := ioRead dev x.chan s.world
    some (s.goto x (if value = 0 then .ioWriteLow else task.afterAnswer) w)
  | .ioWriteLow => some (s.goto x .pause (ioWrite dev x.chan 0 s.world))
  | .pause => some (s.goto x .ioWriteHigh s.world)
  | .ioWriteHigh => some (s.goto x task.afterAnswer (ioWrite dev x.chan 1 s.world))
  | .waitPeriod => some (s.goto x .ioRead s.world)
  | .deleted => none

/-- An event, where it can happen. -/
def next (task : Task) (s : State κ) : Event κ → Option (State κ)
  | .card card =>
    if ∀ x : Channel, level card (DO x.chan) = level s.world.card (DO x.chan) then
      some { s with world := { s.world with card := card } }
    else none
  | .task x => exec dev task s x
  -- `Time expired` or `Task failed to yield`
  | .delete x =>
    if task = .taskFnc ∧ s.point x = .waitPeriod then some (s.goto x .deleted s.world) else none

/-- The threads, started after an `io_init` that could open the card. -/
def responseSystem (task : Task) : System (State κ) (Event κ) where
  init s := (∀ x, s.point x = .ioRead) ∧ ∃ w, s.world = (ioInit dev true task.initTexts w).2
  next := next dev level task

/-! ## Pulses -/

/-- The thread of `x` has written 0 to its response and not yet 1. -/
def State.InPulse (s : State κ) (x : Channel) : Prop :=
  s.point x = .pause ∨ s.point x = .ioWriteHigh

instance (s : State κ) (x : Channel) : Decidable (s.InPulse x) :=
  inferInstanceAs (Decidable (_ ∨ _))

/-- Every response line is low in the pulses of its own thread and at no other time. -/
def State.LinesFollow (s : State κ) : Prop :=
  ∀ x, level s.world.card (DO x.chan) = false ↔ s.InPulse x

/-- The thread of `x` begins to answer. -/
def Answers (x : Channel) (q : State κ × Event κ) : Prop :=
  q.2 = .task x ∧ q.1.point x = .ioRead ∧ (ioRead dev x.chan q.1.world).1 = 0

/-- The card refuses the read that the thread of `x` is to make. -/
def ReadRefused (x : Channel) (s : State κ) : Prop :=
  (dev.dioRead s.world.card IO_DEV (DI x.chan) 0).1 < 0

/-- The card refuses to write `bit` to the response line of `x`. -/
def Refuses (s : State κ) (x : Channel) (bit : Int) : Prop :=
  (dev.dioWrite s.world.card IO_DEV (DO x.chan) bit).1 < 0

instance (s : State κ) (x : Channel) (bit : Int) : Decidable (Refuses dev s x bit) :=
  inferInstanceAs (Decidable (_ < _))

/-- The step is a write that the card refuses. -/
def WriteRefused (q : State κ × Event κ) : Prop :=
  match q.2 with
  | .task x => q.1.point x = .ioWriteLow ∧ Refuses dev q.1 x 0 ∨
      q.1.point x = .ioWriteHigh ∧ Refuses dev q.1 x 1
  | .card _ | .delete _ => False

instance : (q : State κ × Event κ) → Decidable (WriteRefused dev q)
  | (_, .task _) => inferInstanceAs (Decidable (_ ∨ _))
  | (_, .card _) | (_, .delete _) => inferInstanceAs (Decidable False)

end Threads

variable {dev : Comedilib κ} {level : κ → Int → Bool} {task : Task} {s t : State κ}

/-! ## Lines -/

theorem DO_chan_inj {x y : Channel} : DO x.chan = DO y.chan ↔ x = y := by
  cases x <;> cases y <;> decide

/-- The channels of the threads are those of the driver. -/
theorem chan_ok (x : Channel) : x.chan ≥ 1 ∧ x.chan ≤ 3 := by
  cases x <;> decide

/-- `io_write` of a bit is that write on the response line of its channel. -/
theorem ioWrite_card (x : Channel) {bit : Int} (hbit : bit = 0 ∨ bit = 1) (w : World κ) :
    (ioWrite dev x.chan bit w).card = (dev.dioWrite w.card IO_DEV (DO x.chan) bit).2 := by
  rw [ioWrite, if_pos (chan_ok x)]
  rcases hbit with rfl | rfl <;> rfl

/-- `io_read` leaves the response lines alone. -/
theorem ioRead_level (hlaw : Lawful dev level) (x : Channel) (w : World κ) (chan : Int) :
    level (ioRead dev x.chan w).2.card chan = level w.card chan := by
  rw [ioRead, if_pos (chan_ok x)]
  exact hlaw.read_level _ _ _ _

/-- A read that is accepted gives 0 exactly for a low test input. -/
theorem ioRead_eq_zero_iff (hlaw : Lawful dev level) {x : Channel} {w : World κ}
    (haccepted : 0 ≤ (dev.dioRead w.card IO_DEV (DI x.chan) 0).1) :
    (ioRead dev x.chan w).1 = 0 ↔ level w.card (DI x.chan) = false := by
  rw [← hlaw.read_accepted _ _ _ haccepted, ioRead, if_pos (chan_ok x)]
  exact BitVec.toInt_inj (y := 0)

/-! ## What a step keeps -/

theorem goto_inPulse_self (x : Channel) (p : Point) (w : World κ) :
    (s.goto x p w).InPulse x ↔ p = .pause ∨ p = .ioWriteHigh := by
  simp [State.InPulse, State.goto]

theorem goto_inPulse_of_ne {x y : Channel} (hy : y ≠ x) (p : Point) (w : World κ) :
    (s.goto x p w).InPulse y ↔ s.InPulse y := by
  simp [State.InPulse, State.goto, hy]

/-- A step that touches nobody but the thread of `x` and its response line. -/
theorem linesFollow_goto_iff {x : Channel} {p : Point} {w : World κ} (hs : s.LinesFollow level)
    (hlines : ∀ y, y ≠ x → level w.card (DO y.chan) = level s.world.card (DO y.chan)) :
    (s.goto x p w).LinesFollow level ↔
      (level w.card (DO x.chan) = false ↔ p = .pause ∨ p = .ioWriteHigh) := by
  constructor
  · intro ht
    rw [← goto_inPulse_self (s := s) x p w]
    exact ht x
  · intro ht y
    by_cases hy : y = x
    · rw [hy, goto_inPulse_self]
      exact ht
    · rw [goto_inPulse_of_ne hy, ← hs y, ← hlines y hy]
      rfl

/-- A thread that goes on without a write leaves the lines following if it stays in or out of its
pulse. -/
theorem linesFollow_quiet {x : Channel} {p : Point} {w : World κ} (hs : s.LinesFollow level)
    (hlines : ∀ chan, level w.card chan = level s.world.card chan)
    (hp : (p = .pause ∨ p = .ioWriteHigh) ↔ s.InPulse x) : (s.goto x p w).LinesFollow level := by
  rw [linesFollow_goto_iff hs fun y _ => hlines _, hlines, hp]
  exact hs x

/-- After a write that is to begin or to end a pulse the line follows exactly if the write was
accepted. -/
theorem linesFollow_write (hlaw : Lawful dev level) {x : Channel} {p : Point} {bit : Int}
    (hs : s.LinesFollow level) (hbit : bit = 0 ∨ bit = 1) (hpulse : s.InPulse x ↔ bit ≠ 0)
    (hp : (p = .pause ∨ p = .ioWriteHigh) ↔ bit = 0) :
    (s.goto x p (ioWrite dev x.chan bit s.world)).LinesFollow level ↔ ¬ Refuses dev s x bit := by
  have hother : ∀ y, y ≠ x → level (ioWrite dev x.chan bit s.world).card (DO y.chan) =
      level s.world.card (DO y.chan) := by
    intro y hy
    rw [ioWrite_card x hbit]
    exact hlaw.write_other _ _ _ _ fun h => hy (DO_chan_inj.1 h)
  rw [linesFollow_goto_iff hs hother, hp, ioWrite_card x hbit]
  by_cases hrefused : Refuses dev s x bit
  · -- the line is as before, on the wrong side of the pulse
    rw [hlaw.write_refused _ _ _ hrefused, hs x, hpulse]
    tauto
  · rw [hlaw.write_accepted _ _ _ (not_lt.1 hrefused)]
    simp [hrefused]

theorem afterAnswer_outside (task : Task) :
    task.afterAnswer ≠ .pause ∧ task.afterAnswer ≠ .ioWriteHigh := by
  cases task <;> decide

/-- A step keeps the lines following exactly if it is no refused write. -/
theorem linesFollow_step (hlaw : Lawful dev level) {e : Event κ} (hs : s.LinesFollow level)
    (h : (responseSystem dev level task).Step s e t) :
    t.LinesFollow level ↔ ¬ WriteRefused dev (s, e) := by
  have houtside := afterAnswer_outside task
  cases e with
  | card card =>
    simp only [System.Step, responseSystem, next, Option.ite_none_right_eq_some,
      Option.some.injEq] at h
    obtain ⟨hlines, rfl⟩ := h
    have ht : State.LinesFollow level ⟨s.point, { s.world with card := card }⟩ := by
      intro x
      change level card (DO x.chan) = false ↔ s.InPulse x
      rw [hlines x]
      exact hs x
    simp [ht, WriteRefused]
  | delete x =>
    simp only [System.Step, responseSystem, next, Option.ite_none_right_eq_some,
      Option.some.injEq] at h
    obtain ⟨⟨-, hpoint⟩, rfl⟩ := h
    have ht : (s.goto x .deleted s.world).LinesFollow level :=
      linesFollow_quiet hs (fun _ => rfl) (by simp [State.InPulse, hpoint])
    simp [ht, WriteRefused]
  | task x =>
    simp only [System.Step, responseSystem, next, exec] at h
    cases hpoint : s.point x with
    | ioRead =>
      -- nothing is written, whatever the read gives
      rw [hpoint] at h
      obtain rfl := Option.some.inj h
      have ht := linesFollow_quiet (x := x)
        (p := if (ioRead dev x.chan s.world).1 = 0 then .ioWriteLow else task.afterAnswer) hs
        (ioRead_level hlaw x s.world) (by split <;> simp [State.InPulse, hpoint, houtside])
      simp [ht, WriteRefused, hpoint]
    | ioWriteLow =>
      rw [hpoint] at h
      obtain rfl := Option.some.inj h
      rw [linesFollow_write hlaw hs (.inl rfl) (by simp [State.InPulse, hpoint]) (by simp)]
      simp [WriteRefused, hpoint]
    | pause =>
      rw [hpoint] at h
      obtain rfl := Option.some.inj h
      have ht : (s.goto x .ioWriteHigh s.world).LinesFollow level :=
        linesFollow_quiet hs (fun _ => rfl) (by simp [State.InPulse, hpoint])
      simp [ht, WriteRefused, hpoint]
    | ioWriteHigh =>
      rw [hpoint] at h
      obtain rfl := Option.some.inj h
      rw [linesFollow_write hlaw hs (.inr rfl) (by simp [State.InPulse, hpoint])
        (by simp [houtside])]
      simp [WriteRefused, hpoint]
    | waitPeriod =>
      rw [hpoint] at h
      obtain rfl := Option.some.inj h
      have ht : (s.goto x .ioRead s.world).LinesFollow level :=
        linesFollow_quiet hs (fun _ => rfl) (by simp [State.InPulse, hpoint])
      simp [ht, WriteRefused, hpoint]
    | deleted =>
      rw [hpoint] at h
      cases h

/-- Before its first statement no thread is in a pulse. -/
theorem linesFollow_start (h : (responseSystem dev level task).init s) :
    s.LinesFollow level ↔ ∀ x : Channel, level s.world.card (DO x.chan) = true := by
  apply forall_congr'
  intro x
  simp [State.InPulse, h.1 x]

/-- From lines that follow, they go on to do so exactly as long as no write is refused. -/
theorem linesFollow_run_iff (hlaw : Lawful dev level) {s₀ : State κ}
    {tr : List (State κ × Event κ)} (hstart : s₀.LinesFollow level)
    (hrun : (responseSystem dev level task).Run s₀ tr t) :
    (∀ pre post s, tr = pre ++ post → (responseSystem dev level task).Run s₀ pre s →
      s.LinesFollow level) ↔ ∀ q ∈ tr, ¬ WriteRefused dev q := by
  have hsteps := System.Run.forall_prefix_iff (P := fun _ s => s.LinesFollow level)
    (G := fun _ q => ¬ WriteRefused dev q) hstart
    (fun _ _ _ _ _ hs hstep => linesFollow_step hlaw hs hstep) hrun
  rw [hsteps]
  constructor
  · intro hall q hq
    obtain ⟨pre, post, rfl⟩ := List.append_of_mem hq
    exact hall pre q post rfl
  · rintro hall pre q post rfl
    exact hall q (by simp)

/-- The levels of the lines of a card, and whether it is busy and refuses all calls. -/
structure DemoCard where
  lines : Int → Bool
  busy : Bool

/-- The calls on such a card. -/
def demoLib : Comedilib DemoCard where
  dioConfig card _ _ _ := (if card.busy then -1 else 0, card)
  dioWrite card _ chan bit :=
    if card.busy then (-1, card)
    else (1, { card with lines := Function.update card.lines chan (decide (bit ≠ 0)) })
  dioRead card _ chan bit :=
    if card.busy then (-1, bit, card) else (1, if card.lines chan then 1 else 0, card)

theorem demoLib_lawful : Lawful demoLib DemoCard.lines where
  write_accepted := by
    rintro ⟨lines, _ | _⟩ chan bit h
    · simp [demoLib]
    · simp [demoLib] at h
  write_refused := by
    rintro ⟨lines, _ | _⟩ chan bit h
    · simp [demoLib] at h
    · rfl
  write_other := by
    rintro ⟨lines, _ | _⟩ chan bit other hother
    · simp [demoLib, hother]
    · rfl
  read_accepted := by
    rintro ⟨lines, _ | _⟩ chan bit h
    · cases hline : lines chan <;> simp [demoLib, hline]
    · simp [demoLib] at h
  read_level := by
    rintro ⟨lines, _ | _⟩ chan bit other <;> rfl

/-- The threads of `ex6` after an `io_init` on a card whose lines are all high. -/
def demoStart : State DemoCard where
  point := fun _ => .ioRead
  world := (ioInit demoLib true [] ⟨⟨fun _ => true, false⟩, []⟩).2

theorem demoStart_init :
    (responseSystem demoLib DemoCard.lines .taskDPeriodic).init demoStart :=
  ⟨fun _ => rfl, _, rfl⟩

/-- The test input of channel 1 goes low, and its thread begins the pulse while the thread of
channel 2 reads. -/
def demoPulse : List (Event DemoCard) :=
  [.card ⟨fun chan => decide (chan ≠ DI 1), false⟩, .task .one, .task .one, .task .two, .task .one]

end Sanntid.Comedi
