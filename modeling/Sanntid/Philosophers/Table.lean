import Sanntid.Transition.Mutex
import Mathlib.Data.Fin.Basic
import Mathlib.Data.Fintype.Basic

/-!
# The table of `ex3/taskF`

Five philosophers and five forks, numbered alike. `Neighbours.not_both` is why nobody can take a
fork from an eating philosopher: two neighbours share a fork, and a fork has one owner.
-/

set_option autoImplicit false

namespace Sanntid.Philosophers

open Sanntid.Transition

/-- `phil`, and the index of a fork. -/
abbrev Phil := Fin 5

/-- The fork that `phil` takes second. -/
def nextFork (phil : Phil) : Phil := if phil = 4 then 0 else phil + 1

/-- The bound of the `for` loops. -/
def rounds : Nat := 50

/-- One of them takes second the fork that the other one takes first. -/
def Neighbours (p q : Phil) : Prop := nextFork p = q ∨ nextFork q = p

theorem nextFork_ne (p : Phil) : nextFork p ≠ p := by
  revert p
  decide

/-- Each fork is the second one of some philosopher. -/
theorem nextFork_surjective : Function.Surjective nextFork := by
  unfold Function.Surjective
  decide

/-- Round the table: what passes from each philosopher to the next holds of all or of none. -/
theorem forall_of_nextFork {P : Phil → Prop} (hnext : ∀ p, P p → P (nextFork p)) {p : Phil}
    (hp : P p) (q : Phil) : P q := by
  have hround : ∀ p q : Phil, ∃ n < 5, nextFork^[n] p = q := by decide
  obtain ⟨n, -, rfl⟩ := hround p q
  induction n with
  | zero => exact hp
  | succ n ih =>
    rw [Function.iterate_succ_apply']
    exact hnext _ ih

/-- Two neighbours do not both have their two forks. -/
theorem Neighbours.not_both {L μ : Type} {held : Phil → L → μ → Prop} {owner : μ → Option Phil}
    {thread : Phil → L} (fork : Phil → μ) (h : Owns held owner thread) {p q : Phil}
    (hpq : Neighbours p q)
    (hp : held p (thread p) (fork p) ∧ held p (thread p) (fork (nextFork p)))
    (hq : held q (thread q) (fork q) ∧ held q (thread q) (fork (nextFork q))) : False := by
  -- the fork between them is the second of one and the first of the other
  rcases hpq with rfl | rfl
  · exact nextFork_ne p (h.unique hq.1 hp.2)
  · exact nextFork_ne q (h.unique hp.1 hq.2)

end Sanntid.Philosophers
