import Mathlib.Data.List.Induction
import Sanntid.Control.Fallible

/-!
# Client runs of an object whose operations can fault

An object is a type of states with operations that either return a new state or fault. A client
issues a list of operations; `Issued` says that every operation is issued in a state that meets a
condition, which is how a calling discipline or a restriction to safe calls is expressed. The
refinement rule `run_refines` carries a simulation of the single operations by an abstract object
through every client run; `issued_of_run_ok` is its converse, for a condition without which an
operation faults.
-/

set_option autoImplicit false

namespace Sanntid.Transition

open Sanntid.Control

universe u v w x

/-- An object: the effect of one operation on its state, or a fault. -/
structure Object (σ : Type u) (Op : Type v) (ε : Type w) where
  exec : σ → Op → Except ε σ

namespace Object

variable {σ : Type u} {Op : Type v} {ε : Type w} (O : Object σ Op ε)

/-- The operations of a client in order; the first fault ends the run. -/
def run : σ → List Op → Except ε σ
  | s, [] => .ok s
  | s, op :: ops => (O.exec s op).bind fun t => run t ops

/-- Every operation of the list is issued in a state that meets `G`. -/
def Issued (G : σ → Op → Prop) (s : σ) (ops : List Op) : Prop :=
  ∀ pre op post t, ops = pre ++ op :: post → O.run s pre = .ok t → G t op

variable {O}

@[simp] theorem run_nil (s : σ) : O.run s [] = .ok s := rfl

theorem run_append (s : σ) (ops ops' : List Op) :
    O.run s (ops ++ ops') = (O.run s ops).bind fun t => O.run t ops' := by
  induction ops generalizing s with
  | nil => rfl
  | cons op ops ih =>
    simp only [List.cons_append, run]
    cases O.exec s op with
    | error e => rfl
    | ok t => exact ih t

theorem run_snoc {s t : σ} {ops : List Op} (h : O.run s ops = .ok t) (op : Op) :
    O.run s (ops ++ [op]) = O.exec t op := by
  rw [run_append, h]
  simp only [Except.bind, run]
  cases O.exec t op <;> rfl

/-- A run that returns has returned after each of its prefixes. -/
theorem run_prefix {s u : σ} {ops ops' : List Op} (h : O.run s (ops ++ ops') = .ok u) :
    ∃ t, O.run s ops = .ok t ∧ O.run t ops' = .ok u := by
  rw [run_append] at h
  exact bind_eq_ok_iff.1 h

theorem Issued.of_append {G : σ → Op → Prop} {s : σ} {ops ops' : List Op}
    (h : O.Issued G s (ops ++ ops')) : O.Issued G s ops := by
  rintro pre op post t rfl hrun
  exact h pre op (post ++ ops') t (by simp) hrun

theorem issued_nil {G : σ → Op → Prop} {s : σ} : O.Issued G s [] := by
  intro pre op post t h
  simp at h

theorem issued_cons {G : σ → Op → Prop} {s : σ} {op : Op} {ops : List Op} :
    O.Issued G s (op :: ops) ↔ G s op ∧ ∀ t, O.exec s op = .ok t → O.Issued G t ops := by
  constructor
  · intro h
    refine ⟨h [] op ops s rfl rfl, ?_⟩
    rintro t hexec pre op' post u rfl hrun
    apply h (op :: pre) op' post u rfl
    rw [run, hexec]
    exact hrun
  · rintro ⟨hop, hrest⟩ pre op' post u hops hrun
    cases pre with
    | nil =>
      simp only [List.nil_append, List.cons.injEq] at hops
      simp only [run_nil, Except.ok.injEq] at hrun
      rw [← hops.1, ← hrun]
      exact hop
    | cons p pre =>
      simp only [List.cons_append, List.cons.injEq] at hops
      obtain ⟨rfl, hops⟩ := hops
      obtain ⟨t, hexec, hrun⟩ := bind_eq_ok_iff.1 hrun
      exact hrest t hexec pre op' post u hops hrun

theorem Issued.and {G H : σ → Op → Prop} {s : σ} {ops : List Op} (hG : O.Issued G s ops)
    (hH : O.Issued H s ops) : O.Issued (fun t op => G t op ∧ H t op) s ops :=
  fun pre op post t hops hrun => ⟨hG pre op post t hops hrun, hH pre op post t hops hrun⟩

/-- The refinement rule: if every operation issued under `G` returns and keeps the relation `R`
to the abstract state, then so does every list of operations issued under `G`. -/
theorem run_refines {τ : Type x} {R : σ → τ → Prop} {G : σ → Op → Prop} {abs : τ → Op → τ}
    (hstep : ∀ s a op, R s a → G s op → ∃ t, O.exec s op = .ok t ∧ R t (abs a op))
    {s : σ} {a : τ} (hR : R s a) {ops : List Op} (hG : O.Issued G s ops) :
    ∃ t, O.run s ops = .ok t ∧ R t (ops.foldl abs a) := by
  induction ops using List.reverseRecOn with
  | nil => exact ⟨s, rfl, hR⟩
  | append_singleton ops op ih =>
    obtain ⟨t, hrun, hRt⟩ := ih hG.of_append
    obtain ⟨u, hexec, hRu⟩ := hstep t _ op hRt (hG ops op [] t rfl hrun)
    refine ⟨u, ?_, ?_⟩
    · rw [run_snoc hrun, hexec]
    · rwa [List.foldl_append]

/-- The rule for the condition of a refinement to be exact: if every operation issued under `D`
faults unless it meets `G` as well, then a client under `D` that runs without a fault has met `G` at
every operation. -/
theorem issued_of_run_ok {τ : Type x} {R : σ → τ → Prop} {D G : σ → Op → Prop} {abs : τ → Op → τ}
    (hstep : ∀ s a op, R s a → D s op ∧ G s op → ∃ t, O.exec s op = .ok t ∧ R t (abs a op))
    (hfault : ∀ s a op, R s a → D s op → ¬ G s op → ∃ e, O.exec s op = .error e)
    {s : σ} {a : τ} (hR : R s a) {ops : List Op} (hD : O.Issued D s ops) {u : σ}
    (hrun : O.run s ops = .ok u) : O.Issued G s ops := by
  induction ops using List.reverseRecOn generalizing u with
  | nil => exact issued_nil
  | append_singleton ops op ih =>
    obtain ⟨v, hpre, -⟩ := run_prefix hrun
    have hG := ih hD.of_append hpre
    obtain ⟨t, ht, hRt⟩ := run_refines hstep hR (hD.of_append.and hG)
    have hDt := hD ops op [] t rfl ht
    rw [run_snoc ht] at hrun
    -- the last operation has not faulted
    have hGt : G t op := by
      by_contra hnot
      obtain ⟨e, he⟩ := hfault t _ op hRt hDt hnot
      rw [he] at hrun
      cases hrun
    intro pre op' post r hops hpre'
    rcases List.eq_nil_or_concat post with rfl | ⟨post', last, rfl⟩
    · obtain ⟨rfl, hlast⟩ := List.append_inj' hops rfl
      rw [List.cons.injEq] at hlast
      obtain rfl := hlast.1
      obtain rfl := Except.ok.inj (ht.symm.trans hpre')
      exact hGt
    · rw [List.concat_eq_append, ← List.cons_append, ← List.append_assoc] at hops
      obtain ⟨hinit, -⟩ := List.append_inj' hops rfl
      exact hG pre op' post' r hinit hpre'

/-- The refinement rule for a client whose discipline is stated on the abstract object. -/
theorem run_refines_of_history {τ : Type x} {R : σ → τ → Prop} {G : τ → Op → Prop}
    {abs : τ → Op → τ}
    (hstep : ∀ s a op, R s a → G a op → ∃ t, O.exec s op = .ok t ∧ R t (abs a op))
    {s : σ} {a : τ} (hR : R s a) {ops : List Op}
    (hG : ∀ pre op post, ops = pre ++ op :: post → G (pre.foldl abs a) op) :
    ∃ t, O.run s ops = .ok t ∧ R t (ops.foldl abs a) := by
  induction ops using List.reverseRecOn with
  | nil => exact ⟨s, rfl, hR⟩
  | append_singleton ops op ih =>
    obtain ⟨t, hrun, hRt⟩ := ih fun pre op' post h => hG pre op' (post ++ [op]) (by simp [h])
    obtain ⟨u, hexec, hRu⟩ := hstep t _ op hRt (hG ops op [] rfl)
    refine ⟨u, ?_, ?_⟩
    · rw [run_snoc hrun, hexec]
    · rwa [List.foldl_append]

/-- The invariant rule for client runs. -/
theorem run_invariant {I : σ → Prop} {G : σ → Op → Prop}
    (hstep : ∀ s op t, I s → G s op → O.exec s op = .ok t → I t)
    {s : σ} (hI : I s) {ops : List Op} (hG : O.Issued G s ops) {t : σ}
    (hrun : O.run s ops = .ok t) : I t := by
  induction ops using List.reverseRecOn generalizing t with
  | nil =>
    rw [run_nil, Except.ok.injEq] at hrun
    exact hrun ▸ hI
  | append_singleton ops op ih =>
    obtain ⟨u, hpre, -⟩ := run_prefix hrun
    rw [run_snoc hpre] at hrun
    exact hstep u op t (ih hG.of_append hpre) (hG ops op [] u rfl hpre) hrun

end Object

end Sanntid.Transition
