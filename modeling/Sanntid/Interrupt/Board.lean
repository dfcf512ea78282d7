import Sanntid.Transition.System
import Mathlib.Data.Fintype.Basic

/-!
# The response program of `ex4`

Three test inputs and three response outputs. An edge on `TEST_X` sets the interrupt flag of the
pin; `interrupt_J3` runs while such a flag is set, to completion, between any two statements of the
main loop, and serves one pin per entry; the main loop polls `FLAG_A`, `FLAG_B` and `FLAG_C` and
answers with a pulse on `RESPONSE_X`.

`step_cases` says what each event does to the board. The rest of the development uses it and the
equations of `mainStep`, one for each part of the board.
-/

set_option autoImplicit false

namespace Sanntid.Interrupt

open Sanntid.Transition

/-- The test inputs with their responses. -/
inductive Channel where
  | a
  | b
  | c
  deriving DecidableEq

instance : Fintype Channel := ⟨{.a, .b, .c}, fun x => by cases x <;> decide⟩

/-- The statements of a channel's block in the main loop, before which the loop may stand. -/
inductive Point where
  | ifFlag
  | busyDelay100
  | gpioSetPinLow
  | busyDelay5
  | gpioSetPinHigh
  | clearFlag
  deriving DecidableEq

/-- Pins, flags, and the statement the main loop executes next. -/
structure Board where
  pinInterruptFlag : Channel → Bool
  flag : Channel → Int
  responseHigh : Channel → Bool
  channel : Channel
  point : Point

/-- An edge on `TEST_X`, an entry of `interrupt_J3`, or a statement of the main loop. -/
inductive Event where
  | edge (x : Channel)
  | interruptJ3
  | main
  deriving DecidableEq

/-! ## The handler -/

/-- `gpio_clear_pin_interrupt_flag(TEST_X); FLAG_X = 1;` -/
def Board.acknowledge (s : Board) (x : Channel) : Board :=
  { s with
    pinInterruptFlag := Function.update s.pinInterruptFlag x false
    flag := Function.update s.flag x 1 }

/-- The handler acknowledges one pin that has its flag set. -/
def interruptJ3 (s : Board) : Board :=
  -- `else if`: one pin per entry, A before B before C
  if s.pinInterruptFlag .a then s.acknowledge .a
  else if s.pinInterruptFlag .b then s.acknowledge .b
  else if s.pinInterruptFlag .c then s.acknowledge .c
  else s

/-! ## The main loop -/

/-- The block after the one of `x`; after C the loop begins again. -/
def Channel.following : Channel → Channel
  | a => b
  | b => c
  | c => a

/-- The first statement of the block of `x`: B delays before its pulse. -/
def blockStart : Channel → Point
  | .a => .gpioSetPinLow
  | .b => .busyDelay100
  | .c => .gpioSetPinLow

/-- `gpio_set_pin_low` and `gpio_set_pin_high` on a response. -/
def Board.setResponse (s : Board) (x : Channel) (high : Bool) : Board :=
  { s with responseHigh := Function.update s.responseHigh x high }

/-- One statement of the main loop. -/
def mainStep (s : Board) : Board :=
  match s.point with
  | .ifFlag =>
    if s.flag s.channel ≠ 0 then { s with point := blockStart s.channel }
    else { s with channel := s.channel.following }
  | .busyDelay100 => { s with point := .gpioSetPinLow }
  | .gpioSetPinLow => { s.setResponse s.channel false with point := .busyDelay5 }
  | .busyDelay5 => { s with point := .gpioSetPinHigh }
  | .gpioSetPinHigh => { s.setResponse s.channel true with point := .clearFlag }
  -- after the pulse, whatever has come during it
  | .clearFlag =>
    { s with
      flag := Function.update s.flag s.channel 0
      channel := s.channel.following
      point := .ifFlag }

/-- The board when the main loop is entered. -/
def start : Board where
  pinInterruptFlag := fun _ => false
  flag := fun _ => 0
  responseHigh := fun _ => true
  channel := .a
  point := .ifFlag

/-- An event, where it can happen: the handler is entered while some pin has its flag set. -/
def next (s : Board) : Event → Option Board
  | .edge x => some { s with pinInterruptFlag := Function.update s.pinInterruptFlag x true }
  | .interruptJ3 => if ∃ x, s.pinInterruptFlag x = true then some (interruptJ3 s) else none
  | .main => some (mainStep s)

/-- The board from the main loop on, with edges and interrupts between any two statements. -/
def boardSystem : System Board Event where
  init := fun s => s = start
  next := next

/-- The main loop stands before statement `p` of the block of `x`. -/
def Board.At (s : Board) (x : Channel) (p : Point) : Prop := s.channel = x ∧ s.point = p

instance (s : Board) (x : Channel) (p : Point) : Decidable (s.At x p) :=
  inferInstanceAs (Decidable (_ ∧ _))

/-! ## What a step does -/

/-- With a pin flag set the handler acknowledges one pin that has it set. -/
theorem interruptJ3_eq {s : Board} (h : ∃ x, s.pinInterruptFlag x = true) :
    ∃ x, s.pinInterruptFlag x = true ∧ interruptJ3 s = s.acknowledge x := by
  by_cases ha : s.pinInterruptFlag .a = true
  · exact ⟨.a, ha, if_pos ha⟩
  · by_cases hb : s.pinInterruptFlag .b = true
    · exact ⟨.b, hb, by simp [interruptJ3, ha, hb]⟩
    · have hc : s.pinInterruptFlag .c = true := by
        obtain ⟨x, hx⟩ := h
        cases x with
        | a => exact absurd hx ha
        | b => exact absurd hx hb
        | c => exact hx
      exact ⟨.c, hc, by simp [interruptJ3, ha, hb, hc]⟩

theorem step_cases {s t : Board} {e : Event} (h : boardSystem.Step s e t) :
    (∃ x, e = .edge x ∧
        t = { s with pinInterruptFlag := Function.update s.pinInterruptFlag x true }) ∨
      (∃ x, e = .interruptJ3 ∧ s.pinInterruptFlag x = true ∧ t = s.acknowledge x) ∨
      e = .main ∧ t = mainStep s := by
  cases e with
  | edge x => exact Or.inl ⟨x, rfl, (Option.some.inj h).symm⟩
  | interruptJ3 =>
    simp only [System.Step, boardSystem, next, Option.ite_none_right_eq_some,
      Option.some.injEq] at h
    obtain ⟨x, hx, heq⟩ := interruptJ3_eq h.1
    exact Or.inr (Or.inl ⟨x, rfl, hx, h.2.symm.trans heq⟩)
  | main => exact Or.inr (Or.inr ⟨rfl, (Option.some.inj h).symm⟩)

theorem mainStep_pinInterruptFlag (s : Board) :
    (mainStep s).pinInterruptFlag = s.pinInterruptFlag := by
  simp only [mainStep]
  split
  · split <;> rfl
  all_goals rfl

/-- The main loop changes a flag only where it clears it. -/
theorem mainStep_flag (s : Board) (x : Channel) :
    (mainStep s).flag x = if s.At x .clearFlag then 0 else s.flag x := by
  rcases s with ⟨pin, flag, high, y, point⟩
  cases point with
  | clearFlag =>
    by_cases hx : x = y
    · subst hx
      simp [mainStep, Board.At]
    · simp [mainStep, Board.At, hx, Ne.symm hx]
  | ifFlag =>
    simp only [mainStep]
    split <;> simp [Board.At]
  | _ => simp [mainStep, Board.At, Board.setResponse]

end Sanntid.Interrupt
