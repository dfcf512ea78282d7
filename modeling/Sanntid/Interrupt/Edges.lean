import Sanntid.Interrupt.Board

/-!
# When an edge is kept

An edge on `TEST_X` asks for a response until the next `gpio_set_pin_low(RESPONSE_X)`
(`edgeSince`). It is kept while the interrupt flag of the pin is set or `FLAG_X` is 1
(`EdgeKept`). `interrupt_J3` clears the flag of the pin before it sets `FLAG_X`, so it never drops
an edge. The main loop clears `FLAG_X` after the pulse: an edge that comes after
`gpio_set_pin_low` and is acknowledged before `FLAG_X = 0` is gone (`lost_edge`).

`edges_kept_iff` says that this is the only way to lose one.
-/

set_option autoImplicit false

namespace Sanntid.Interrupt

open Sanntid.Transition

/-- One event's effect on whether channel `x` owes a response. -/
def edgeStep (x : Channel) (due : Bool) (q : Board × Event) : Bool :=
  match q.2 with
  | .edge y => due || decide (y = x)
  | .interruptJ3 => due
  | .main => due && !decide (q.1.At x .gpioSetPinLow)

/-- An edge on `TEST_X` has occurred, and `gpio_set_pin_low(RESPONSE_X)` has not been executed
since the latest one. -/
def edgeSince (x : Channel) (tr : List (Board × Event)) : Bool := tr.foldl (edgeStep x) false

theorem edgeSince_snoc (x : Channel) (tr : List (Board × Event)) (q : Board × Event) :
    edgeSince x (tr ++ [q]) = edgeStep x (edgeSince x tr) q := by
  simp [edgeSince]

/-- Every edge that asks for a response is still flagged. -/
def EdgeKept (tr : List (Board × Event)) (s : Board) : Prop :=
  ∀ x, edgeSince x tr = true → s.pinInterruptFlag x = true ∨ s.flag x = 1

/-- A `FLAG_X = 0` does not clear an edge that has come since the pulse began, or the interrupt
flag of the pin still records it. -/
def ClearsOnlyServed (tr : List (Board × Event)) (q : Board × Event) : Prop :=
  q.2 = .main → ∀ x, q.1.At x .clearFlag → edgeSince x tr = true → q.1.pinInterruptFlag x = true

instance (tr : List (Board × Event)) (q : Board × Event) : Decidable (ClearsOnlyServed tr q) :=
  inferInstanceAs (Decidable (_ → ∀ _, _ → _ → _))

/-- A step keeps all edges exactly when it clears no flag of an edge that is not served. -/
theorem edgeKept_step {tr : List (Board × Event)} {s t : Board} {e : Event}
    (hs : EdgeKept tr s) (h : boardSystem.Step s e t) :
    EdgeKept (tr ++ [(s, e)]) t ↔ ClearsOnlyServed tr (s, e) := by
  simp only [EdgeKept, edgeSince_snoc]
  rcases step_cases h with ⟨y, rfl, rfl⟩ | ⟨y, rfl, -, rfl⟩ | ⟨rfl, rfl⟩
  · -- an edge sets the flag of its pin
    refine ⟨fun _ he => absurd he (by simp), fun _ x hx => ?_⟩
    by_cases hxy : x = y
    · subst hxy
      simp
    · simp only [edgeStep, Bool.or_eq_true, decide_eq_true_eq, Ne.symm hxy, or_false] at hx
      simpa [Function.update_of_ne hxy] using hs x hx
  · -- the handler moves the record from the pin to `FLAG_X`
    refine ⟨fun _ he => absurd he (by simp), fun _ x hx => ?_⟩
    by_cases hxy : x = y
    · subst hxy
      simp [Board.acknowledge]
    · simpa [Board.acknowledge, Function.update_of_ne hxy] using hs x hx
  · -- the main loop touches a record at `FLAG_X = 0` only
    simp only [edgeStep, mainStep_pinInterruptFlag, mainStep_flag, ClearsOnlyServed, forall_const,
      Bool.and_eq_true, Bool.not_eq_true', decide_eq_false_iff_not]
    constructor
    · intro hkept x hclear hdue
      have hlow : ¬ s.At x .gpioSetPinLow := by
        rintro ⟨-, hpoint⟩
        rw [hclear.2] at hpoint
        exact absurd hpoint (by decide)
      simpa [hclear] using hkept x ⟨hdue, hlow⟩
    · rintro hserved x ⟨hdue, -⟩
      by_cases hclear : s.At x .clearFlag
      · exact Or.inl (hserved x hclear hdue)
      · simpa [hclear] using hs x hdue

theorem edgeKept_nil (s : Board) : EdgeKept [] s := by
  simp [EdgeKept, edgeSince]

/-- In every run: every edge is kept in every state, if and only if every `FLAG_X = 0` is executed
with no edge on X since the latest `gpio_set_pin_low(RESPONSE_X)`, or with the interrupt flag of
the pin still set. -/
theorem edges_kept_iff {tr : List (Board × Event)} {t : Board} (h : boardSystem.Run start tr t) :
    (∀ pre post s, tr = pre ++ post → boardSystem.Run start pre s → EdgeKept pre s) ↔
      ∀ pre q post, tr = pre ++ q :: post → ClearsOnlyServed pre q :=
  System.Run.forall_prefix_iff (edgeKept_nil start)
    (fun _ _ _ _ _ hkept hstep => edgeKept_step hkept hstep) h

/-! ## Two runs on channel A -/

/-- The response to one edge, up to the state before `FLAG_A = 0`, with an edge and an entry of the
handler before `busy_delay_us(5)` where asked for. -/
def pulseA (during : List Event) : List Event :=
  [.edge .a, .interruptJ3, .main, .main] ++ during ++ [.main, .main]

/-- A second edge within the pulse, acknowledged after `FLAG_A = 0`, is kept. -/
theorem late_acknowledge_keeps_edges :
    ∃ tr t, boardSystem.Run start tr t ∧ edgeSince .a tr = true ∧
      ∀ pre post s, tr = pre ++ post → boardSystem.Run start pre s → EdgeKept pre s := by
  obtain ⟨tr, t, hrun, htest⟩ := boardSystem.exists_run_of_replay start
    (pulseA [.edge .a] ++ [.main, .interruptJ3])
    (fun tr _ => edgeSince .a tr = true ∧
      ∀ n, (hn : n < tr.length) → ClearsOnlyServed (tr.take n) tr[n]) (by decide)
  exact ⟨tr, t, hrun, htest.1, (edges_kept_iff hrun).2 (System.forall_steps_iff.2 htest.2)⟩

/-- A second edge within the pulse, acknowledged before `FLAG_A = 0`, is lost: channel A owes a
response that nothing records. -/
theorem lost_edge :
    ∃ tr t, boardSystem.Execution tr t ∧ edgeSince .a tr = true ∧
      t.pinInterruptFlag .a = false ∧ t.flag .a = 0 ∧ ¬ EdgeKept tr t := by
  obtain ⟨tr, t, hrun, hdue, hpin, hflag⟩ := boardSystem.exists_run_of_replay start
    (pulseA [.edge .a, .interruptJ3] ++ [.main])
    (fun tr t => edgeSince .a tr = true ∧ t.pinInterruptFlag .a = false ∧ t.flag .a = 0)
    (by decide)
  refine ⟨tr, t, ⟨start, rfl, hrun⟩, hdue, hpin, hflag, fun hkept => ?_⟩
  simpa [hpin, hflag] using hkept .a hdue

end Sanntid.Interrupt
