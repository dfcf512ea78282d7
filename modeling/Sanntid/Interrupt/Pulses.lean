import Sanntid.Interrupt.Board

/-!
# Responses and the edges they answer

Every `gpio_set_pin_low(RESPONSE_X)` is paid for by an entry of `interrupt_J3` that acknowledged X,
and every such entry by an edge on `TEST_X` (`responses_paid`). The credit between the two counts is
in the board: a flag that is set and not yet answered (`Owed`), and the interrupt flag of the pin.

The other half is about the outputs. `RESPONSE_X` is low between two statements of the block of X
only, so no two outputs are low at a time.
-/

set_option autoImplicit false

namespace Sanntid.Interrupt

open Sanntid.Transition

/-! ## What is counted -/

/-- `gpio_set_pin_low(RESPONSE_X)` is executed. -/
def SetsLow (x : Channel) (q : Board × Event) : Prop := q.2 = .main ∧ q.1.At x .gpioSetPinLow

/-- `interrupt_J3` clears the interrupt flag of `TEST_X`. -/
def Acknowledges (x : Channel) (q : Board × Event) : Prop :=
  q.2 = .interruptJ3 ∧ q.1.pinInterruptFlag x = true ∧
    (interruptJ3 q.1).pinInterruptFlag x = false

/-- An edge on `TEST_X`. -/
def EdgeOn (x : Channel) (q : Board × Event) : Prop := q.2 = .edge x

instance (x : Channel) (q : Board × Event) : Decidable (SetsLow x q) :=
  inferInstanceAs (Decidable (_ ∧ _))

instance (x : Channel) (q : Board × Event) : Decidable (Acknowledges x q) :=
  inferInstanceAs (Decidable (_ ∧ _ ∧ _))

instance (x : Channel) (q : Board × Event) : Decidable (EdgeOn x q) :=
  inferInstanceAs (Decidable (_ = _))

/-- The main loop is inside the braces of `if (FLAG_X)`. -/
def Board.InBlock (s : Board) (x : Channel) : Prop := s.channel = x ∧ s.point ≠ .ifFlag

/-! ## The main loop and the outputs -/

/-- The points between `gpio_set_pin_low` and `gpio_set_pin_high`. -/
def Point.low : Point → Bool
  | .busyDelay5 => true
  | .gpioSetPinHigh => true
  | _ => false

/-- An output is low inside its own pulse only, and a block is entered and run with its flag
set. -/
structure Inv (s : Board) : Prop where
  low : ∀ x, s.responseHigh x = false → s.channel = x ∧ s.point.low = true
  flag : s.point ≠ .ifFlag → s.flag s.channel ≠ 0

theorem start_inv : Inv start where
  low := by simp [start]
  flag := by simp [start]

/-- Before `gpio_set_pin_low` and after `gpio_set_pin_high` no output is low. -/
theorem Inv.not_low {s : Board} (h : Inv s) (hp : s.point.low = false) (x : Channel) :
    s.responseHigh x ≠ false := by
  intro hx
  have htrue : s.point.low = true := (h.low x hx).2
  exact Bool.noConfusion (hp.symm.trans htrue)

theorem mainStep_inv {s : Board} (h : Inv s) : Inv (mainStep s) := by
  rcases s with ⟨pin, flag, high, y, point⟩
  have hlow := h.low
  have hflag := h.flag
  cases point with
  | ifFlag =>
    have hhigh := h.not_low rfl
    -- the block is entered with the flag set
    simp only [mainStep]
    split
    · rename_i hset
      exact ⟨fun x hx => absurd hx (hhigh x), fun _ => hset⟩
    · exact ⟨fun x hx => absurd hx (hhigh x), fun hp => absurd rfl hp⟩
  | busyDelay100 =>
    exact ⟨fun x hx => absurd hx (h.not_low rfl x), fun _ => hflag (by simp)⟩
  | gpioSetPinLow =>
    have hhigh := h.not_low rfl
    refine ⟨fun x hx => ⟨?_, rfl⟩, fun _ => hflag (by simp)⟩
    by_contra hne
    have hxy : x ≠ y := fun he => hne he.symm
    apply hhigh x
    simpa [mainStep, Board.setResponse, Function.update_of_ne hxy] using hx
  | busyDelay5 => exact ⟨fun x hx => ⟨(hlow x hx).1, rfl⟩, fun _ => hflag (by simp)⟩
  | gpioSetPinHigh =>
    refine ⟨fun x hx => ?_, fun _ => hflag (by simp)⟩
    -- the one output that was low is set high
    by_cases hxy : x = y
    · subst hxy
      simp [mainStep, Board.setResponse] at hx
    · have hx' : high x = false := by
        simpa [mainStep, Board.setResponse, Function.update_of_ne hxy] using hx
      exact absurd (hlow x hx').1.symm hxy
  | clearFlag => exact ⟨fun x hx => absurd hx (h.not_low rfl x), fun hp => absurd rfl hp⟩

theorem reachable_inv {s : Board} (h : boardSystem.Reachable s) : Inv s := by
  refine h.invariant (fun s hs => ?_) fun s e t _ hinv hstep => ?_
  · obtain rfl : s = start := hs
    exact start_inv
  · rcases step_cases hstep with ⟨x, -, rfl⟩ | ⟨x, -, -, rfl⟩ | ⟨-, rfl⟩
    · exact ⟨hinv.low, hinv.flag⟩
    · -- the handler sets a flag to 1 and clears none
      refine ⟨hinv.low, fun hp => ?_⟩
      apply (Function.forall_update_iff s.flag fun y v => y = s.channel → v ≠ 0).2 _ s.channel rfl
      exact ⟨fun _ => one_ne_zero, fun y _ hy => hy ▸ hinv.flag hp⟩
    · exact mainStep_inv hinv

/-- Outside its block an output is high. -/
theorem Inv.high {s : Board} (h : Inv s) {x : Channel} (hout : ¬ s.InBlock x) :
    s.responseHigh x = true := by
  rw [← Bool.not_eq_false]
  intro hlow
  obtain ⟨hchannel, hpoint⟩ := h.low x hlow
  refine hout ⟨hchannel, fun hif => ?_⟩
  rw [hif] at hpoint
  exact absurd hpoint (by decide)

/-! ## Paying for a response -/

/-- `FLAG_X` is set, and its `gpio_set_pin_low` is still to come. -/
def Board.Owed (s : Board) (x : Channel) : Prop :=
  s.flag x ≠ 0 ∧ ¬ (s.channel = x ∧ (s.point.low = true ∨ s.point = .clearFlag))

instance (s : Board) (x : Channel) : Decidable (s.Owed x) :=
  inferInstanceAs (Decidable (_ ∧ ¬ (_ ∧ (_ ∨ _))))

/-- The main loop creates no credit, and a `gpio_set_pin_low` takes it. -/
theorem mainStep_owed {s : Board} (h : Inv s) (x : Channel) :
    ((mainStep s).Owed x → s.Owed x) ∧
      (s.At x .gpioSetPinLow → s.Owed x ∧ ¬ (mainStep s).Owed x) := by
  rcases s with ⟨pin, flag, high, y, point⟩
  have hflag := h.flag
  cases point with
  | ifFlag =>
    refine ⟨fun hx => ⟨?_, by simp [Point.low]⟩, by simp [Board.At]⟩
    rw [Board.Owed, mainStep_flag] at hx
    simpa [Board.At] using hx.1
  | busyDelay100 => simp [mainStep, Board.Owed, Board.At, Point.low]
  | gpioSetPinLow =>
    refine ⟨fun hx => ⟨hx.1, by simp [Point.low]⟩, ?_⟩
    rintro ⟨rfl, -⟩
    exact ⟨⟨hflag (by simp), by simp [Point.low]⟩, fun hx => hx.2 ⟨rfl, Or.inl rfl⟩⟩
  | busyDelay5 => simp [mainStep, Board.Owed, Board.At, Point.low]
  | gpioSetPinHigh => simp [mainStep, Board.Owed, Board.At, Board.setResponse, Point.low]
  | clearFlag =>
    refine ⟨fun hx => ?_, by simp [Board.At]⟩
    -- only the flag of the block itself is cleared
    have hne : y ≠ x := by
      rintro rfl
      simp [mainStep, Board.Owed] at hx
    rw [Board.Owed, mainStep_flag] at hx
    exact ⟨by simpa [Board.At, hne] using hx.1, by simp [hne]⟩

/-- An entry of the handler acknowledges the one pin whose flag it clears. -/
theorem acknowledges_iff {s : Board} {y : Channel} (hy : s.pinInterruptFlag y = true)
    (h : boardSystem.Step s .interruptJ3 (s.acknowledge y)) (x : Channel) :
    Acknowledges x (s, .interruptJ3) ↔ x = y := by
  have heq : interruptJ3 s = s.acknowledge y := by
    simp only [System.Step, boardSystem, next, Option.ite_none_right_eq_some,
      Option.some.injEq] at h
    exact h.2
  simp only [Acknowledges, heq, true_and, Board.acknowledge]
  constructor
  · rintro ⟨hx, hclear⟩
    by_contra hxy
    rw [Function.update_of_ne hxy, hx] at hclear
    exact absurd hclear (by decide)
  · rintro rfl
    exact ⟨hy, Function.update_self x false s.pinInterruptFlag⟩

/-- The handler gives one credit, to the channel it acknowledges. -/
theorem acknowledge_owed {s : Board} {x y : Channel} (hx : (s.acknowledge y).Owed x)
    (hnot : ¬ s.Owed x) : x = y := by
  by_contra hxy
  refine hnot ⟨?_, hx.2⟩
  simpa [Board.acknowledge, Function.update_of_ne hxy] using hx.1

/-- A response takes the credit of its channel, and only an acknowledgement gives one. -/
theorem step_owed {s t : Board} {e : Event} (hs : Inv s) (h : boardSystem.Step s e t)
    (x : Channel) :
    ((if t.Owed x then 1 else 0) + if SetsLow x (s, e) then 1 else 0) ≤
      (if s.Owed x then 1 else 0) + if Acknowledges x (s, e) then 1 else 0 := by
  rcases step_cases h with ⟨y, rfl, rfl⟩ | ⟨y, rfl, hy, rfl⟩ | ⟨rfl, rfl⟩
  · -- an edge gives no credit before it is acknowledged
    simp [SetsLow, Acknowledges, Board.Owed]
  · rw [if_neg (show ¬ SetsLow x (s, .interruptJ3) by simp [SetsLow])]
    by_cases hx : (s.acknowledge y).Owed x
    · by_cases hold : s.Owed x
      · simp [hold, hx]
      · -- the new credit is the one acknowledged
        obtain rfl := acknowledge_owed hx hold
        have hack := (acknowledges_iff hy h x).2 rfl
        simp [hx, hack]
    · simp [hx]
  · obtain ⟨hle, hlow⟩ := mainStep_owed hs x
    by_cases hat : s.At x .gpioSetPinLow
    · -- the response takes the credit
      simp [SetsLow, hat, (hlow hat).1, (hlow hat).2]
    · rw [if_neg (show ¬ SetsLow x (s, .main) from fun hq => hat hq.2)]
      by_cases hx : (mainStep s).Owed x
      · simp [hx, hle hx]
      · simp [hx]

/-- An acknowledgement takes the interrupt flag of its pin, and only an edge sets it. -/
theorem step_pin {s t : Board} {e : Event} (h : boardSystem.Step s e t) (x : Channel) :
    ((if t.pinInterruptFlag x then 1 else 0) + if Acknowledges x (s, e) then 1 else 0) ≤
      (if s.pinInterruptFlag x then 1 else 0) + if EdgeOn x (s, e) then 1 else 0 := by
  rcases step_cases h with ⟨y, rfl, rfl⟩ | ⟨y, rfl, hy, rfl⟩ | ⟨rfl, rfl⟩
  · rw [if_neg (show ¬ Acknowledges x (s, .edge y) by simp [Acknowledges])]
    by_cases hxy : x = y
    · subst hxy
      simp [EdgeOn]
    · simp [Function.update_of_ne hxy]
  · -- the handler acknowledges the pin whose flag it has found
    simp only [acknowledges_iff hy h]
    by_cases hxy : x = y
    · subst hxy
      simp [Board.acknowledge, hy]
    · simp [Board.acknowledge, hxy]
  · simp [Acknowledges, mainStep_pinInterruptFlag]

/-! ## Whole runs -/

/-- In every run, for every channel: there are at most as many responses as acknowledgements, and at
most as many acknowledgements as edges; a statement of the main loop leaves the flags of the other
channels alone; and an output is high outside its block, so that no two are low at a time. -/
theorem responses_paid {tr : List (Board × Event)} {t : Board}
    (h : boardSystem.Execution tr t) :
    (∀ x, tr.countP (fun q => decide (SetsLow x q)) ≤
          tr.countP (fun q => decide (Acknowledges x q)) ∧
        tr.countP (fun q => decide (Acknowledges x q)) ≤
          tr.countP (fun q => decide (EdgeOn x q))) ∧
      (∀ s u, (s, Event.main) ∈ tr → boardSystem.Step s .main u → ∀ y, y ≠ s.channel →
        u.flag y = s.flag y ∧ u.pinInterruptFlag y = s.pinInterruptFlag y) ∧
      (∀ x, ¬ t.InBlock x → t.responseHigh x = true) ∧
      ∀ x y, t.responseHigh x = false → t.responseHigh y = false → x = y := by
  have hinv := reachable_inv h.reachable
  refine ⟨fun x => ⟨?_, ?_⟩, ?_, fun x => hinv.high, fun x y hx hy => ?_⟩
  · -- the credit at the end is not negative
    have hle := h.countP_le_countP (fun s => if s.Owed x then 1 else 0)
      (p := fun q => decide (SetsLow x q)) (q := fun q => decide (Acknowledges x q)) ?_ ?_
    · omega
    · rintro s rfl
      simp [Board.Owed, start]
    · intro s e u hs hstep
      simpa using step_owed (reachable_inv hs) hstep x
  · have hle := h.countP_le_countP (fun s => if s.pinInterruptFlag x then 1 else 0)
      (p := fun q => decide (Acknowledges x q)) (q := fun q => decide (EdgeOn x q)) ?_ ?_
    · omega
    · rintro s rfl
      simp [start]
    · intro s e u _ hstep
      simpa using step_pin hstep x
  · -- the main loop clears the flag of its own block only
    intro s u _ hstep y hy
    obtain rfl : mainStep s = u := Option.some.inj hstep
    have hnot : ¬ s.At y .clearFlag := fun hat => hy hat.1.symm
    exact ⟨by rw [mainStep_flag, if_neg hnot], by rw [mainStep_pinInterruptFlag]⟩
  · exact (hinv.low x hx).1.symm.trans (hinv.low y hy).1

/-- Two edges on A before the handler runs are acknowledged once and answered once. -/
theorem two_edges_one_response :
    ∃ tr t, boardSystem.Execution tr t ∧
      tr.countP (fun q => decide (EdgeOn .a q)) = 2 ∧
      tr.countP (fun q => decide (SetsLow .a q)) = 1 ∧
      tr.countP (fun q => decide (SetsLow .a q)) ≤
        tr.countP (fun q => decide (Acknowledges .a q)) := by
  obtain ⟨tr, t, hrun, htest⟩ := boardSystem.exists_run_of_replay start
    [.edge .a, .edge .a, .interruptJ3, .main, .main, .main, .main, .main]
    (fun tr _ => tr.countP (fun q => decide (EdgeOn .a q)) = 2 ∧
      tr.countP (fun q => decide (SetsLow .a q)) = 1) (by decide)
  have hexec : boardSystem.Execution tr t := ⟨start, rfl, hrun⟩
  exact ⟨tr, t, hexec, htest.1, htest.2, ((responses_paid hexec).1 .a).1⟩

end Sanntid.Interrupt
