import Mathlib.Data.List.Perm.Basic
import Mathlib.Logic.Function.Iterate
import Mathlib.Tactic

/-!
# Bubble sort by a key

One `pass` walks a list once and exchanges two neighbours when the key of the first is the smaller.
It only permutes the list, it never exchanges entries with equal keys (`filter_pass`), and it takes
an entry with a smallest key to the end (`sink_eq_append`). An end of the list that is in order
and holds the smallest keys is left alone (`sink_append`), so each further pass settles one more
entry (`Settled.pass`), and as many passes as the list is long sort it, stably and in descending
order (`passes_stableDescending`).
-/

set_option autoImplicit false

namespace Sanntid.Sorting

open List

universe u v

variable {α : Type u} {β : Type v} [LinearOrder β] (key : α → β)

/-- `l'` is `l` sorted by descending keys, with entries of equal keys in their order in `l`. -/
structure StableDescending (l l' : List α) : Prop where
  perm : l' ~ l
  descending : l'.Pairwise fun a b => key b ≤ key a
  stable : ∀ v, (l'.filter fun a => key a = v) = l.filter fun a => key a = v

/-- The rest of a pass over `l` that carries `a` along. -/
def sink (a : α) : List α → List α
  | [] => [a]
  | b :: l => if key a < key b then b :: sink a l else a :: sink b l

/-- Exchange neighbours with ascending keys, once from the first entry to the last. -/
def pass : List α → List α
  | [] => []
  | a :: l => sink key a l

@[simp] theorem sink_nil (a : α) : sink key a [] = [a] := rfl

variable {key}

theorem sink_of_lt {a b : α} {l : List α} (h : key a < key b) :
    sink key a (b :: l) = b :: sink key a l :=
  if_pos h

theorem sink_of_ge {a b : α} {l : List α} (h : key b ≤ key a) :
    sink key a (b :: l) = a :: sink key b l :=
  if_neg h.not_gt

/-! ## What a pass keeps -/

theorem sink_perm (a : α) (l : List α) : sink key a l ~ a :: l := by
  induction l generalizing a with
  | nil => exact Perm.refl _
  | cons b l ih =>
      rcases lt_or_ge (key a) (key b) with hlt | hge
      · rw [sink_of_lt hlt]
        exact ((ih a).cons b).trans (Perm.swap a b l)
      · rw [sink_of_ge hge]
        exact (ih b).cons a

theorem pass_perm (l : List α) : pass key l ~ l := by
  cases l with
  | nil => exact Perm.refl _
  | cons a l => exact sink_perm a l

/-- Entries with equal keys keep their order. -/
theorem filter_sink (v : β) (a : α) (l : List α) :
    ((sink key a l).filter fun c => key c = v) = (a :: l).filter fun c => key c = v := by
  induction l generalizing a with
  | nil => rfl
  | cons b l ih =>
      rcases lt_or_ge (key a) (key b) with hlt | hge
      · rw [sink_of_lt hlt, filter_cons, ih]
        -- the exchanged entries have different keys, so at most one of them is kept
        by_cases ha : key a = v
        · have hb : key b ≠ v := fun hb => hlt.ne (ha.trans hb.symm)
          simp [ha, hb]
        · simp [filter_cons, ha]
      · simp only [sink_of_ge hge, filter_cons, ih]

theorem filter_pass (v : β) (l : List α) :
    ((pass key l).filter fun c => key c = v) = l.filter fun c => key c = v := by
  cases l with
  | nil => rfl
  | cons a l => exact filter_sink v a l

/-! ## What a pass puts in place -/

/-- A pass takes an entry with a smallest key to the end. -/
theorem sink_eq_append (a : α) (l : List α) :
    ∃ p m, sink key a l = p ++ [m] ∧ ∀ c ∈ a :: l, key m ≤ key c := by
  induction l generalizing a with
  | nil => exact ⟨[], a, rfl, by simp⟩
  | cons b l ih =>
      rcases lt_or_ge (key a) (key b) with hlt | hge
      · obtain ⟨p, m, heq, hmin⟩ := ih a
        refine ⟨b :: p, m, by rw [sink_of_lt hlt, heq, cons_append], ?_⟩
        have hma : key m ≤ key a := hmin a mem_cons_self
        simp only [forall_mem_cons] at hmin ⊢
        exact ⟨hma, hma.trans hlt.le, hmin.2⟩
      · obtain ⟨p, m, heq, hmin⟩ := ih b
        refine ⟨a :: p, m, by rw [sink_of_ge hge, heq, cons_append], ?_⟩
        have hmb : key m ≤ key b := hmin b mem_cons_self
        simp only [forall_mem_cons] at hmin ⊢
        exact ⟨hmb.trans hge, hmb, hmin.2⟩

/-- A list that is in order is left alone. -/
theorem pass_of_descending {l : List α} (h : l.Pairwise fun b c => key c ≤ key b) :
    pass key l = l := by
  induction l with
  | nil => rfl
  | cons a l ih =>
      cases l with
      | nil => rfl
      | cons b l =>
          rw [pairwise_cons] at h
          rw [pass, sink_of_ge (h.1 b mem_cons_self)]
          exact congrArg (a :: ·) (ih h.2)

/-- An end of the list that is in order and holds the smallest keys is left alone. -/
theorem sink_append {a : α} {l s : List α} (hs : s.Pairwise fun b c => key c ≤ key b)
    (hle : ∀ b ∈ a :: l, ∀ c ∈ s, key c ≤ key b) :
    sink key a (l ++ s) = sink key a l ++ s := by
  induction l generalizing a with
  | nil =>
      have hin : (a :: s).Pairwise fun b c => key c ≤ key b :=
        pairwise_cons.2 ⟨hle a mem_cons_self, hs⟩
      exact pass_of_descending hin
  | cons b l ih =>
      simp only [forall_mem_cons] at hle ih
      obtain ⟨ha, hb, hl⟩ := hle
      rw [cons_append]
      rcases lt_or_ge (key a) (key b) with hlt | hge
      · rw [sink_of_lt hlt, sink_of_lt hlt, ih ⟨ha, hl⟩, cons_append]
      · rw [sink_of_ge hge, sink_of_ge hge, ih ⟨hb, hl⟩, cons_append]

/-! ## Passes -/

theorem passes_perm (n : ℕ) (l : List α) : (pass key)^[n] l ~ l := by
  induction n with
  | zero => exact Perm.refl l
  | succ n ih =>
      rw [Function.iterate_succ_apply']
      exact (pass_perm _).trans ih

theorem filter_passes (n : ℕ) (v : β) (l : List α) :
    (((pass key)^[n] l).filter fun c => key c = v) = l.filter fun c => key c = v := by
  induction n with
  | zero => rfl
  | succ n ih => rw [Function.iterate_succ_apply', filter_pass, ih]

/-- `s` is in order and none of its keys is larger than one of `p`. -/
structure Settled (key : α → β) (p s : List α) : Prop where
  descending : s.Pairwise fun b c => key c ≤ key b
  smallest : ∀ b ∈ p, ∀ c ∈ s, key c ≤ key b

/-- A pass settles one more entry. -/
theorem Settled.pass {a : α} {p s : List α} (h : Settled key (a :: p) s) :
    ∃ q m, pass key (a :: p ++ s) = q ++ m :: s ∧ q.length = p.length ∧
      Settled key q (m :: s) := by
  obtain ⟨q, m, heq, hmin⟩ : ∃ q m, sink key a p = q ++ [m] ∧ ∀ c ∈ a :: p, key m ≤ key c :=
    sink_eq_append a p
  have hperm : q ++ [m] ~ a :: p := heq ▸ sink_perm a p
  have hmem : ∀ b ∈ q ++ [m], b ∈ a :: p := fun b => hperm.mem_iff.1
  simp only [forall_mem_append, forall_mem_singleton] at hmem
  refine ⟨q, m, ?_, ?_, ?_, ?_⟩
  · calc
      sink key a (p ++ s) = sink key a p ++ s := sink_append h.descending h.smallest
      _ = q ++ m :: s := by rw [heq, append_assoc, singleton_append]
  · simpa using hperm.length_eq
  · exact pairwise_cons.2 ⟨h.smallest m hmem.2, h.descending⟩
  · intro b hb
    rw [forall_mem_cons]
    exact ⟨hmin b (hmem.1 b hb), h.smallest b (hmem.1 b hb)⟩

/-- As many passes as there are unsettled entries leave the list in order. -/
theorem Settled.passes_descending {n : ℕ} {p s : List α} (h : Settled key p s)
    (hn : p.length ≤ n) :
    ((Sorting.pass key)^[n] (p ++ s)).Pairwise fun b c => key c ≤ key b := by
  induction n generalizing p s with
  | zero =>
      obtain rfl : p = [] := length_eq_zero_iff.1 (Nat.le_zero.1 hn)
      exact h.descending
  | succ n ih =>
      rw [Function.iterate_succ_apply]
      cases p with
      | nil =>
          rw [nil_append, pass_of_descending h.descending]
          exact ih (p := []) h (Nat.zero_le n)
      | cons a p =>
          obtain ⟨q, m, heq, hlen, hsettled⟩ := h.pass
          rw [heq]
          apply ih hsettled
          rw [length_cons] at hn
          omega

/-- As many passes as the list is long sort it, and entries with equal keys keep their order. -/
theorem passes_stableDescending (n : ℕ) (l : List α) (hn : l.length ≤ n) :
    StableDescending key l ((pass key)^[n] l) where
  perm := passes_perm n l
  descending := by
    have hnone : Settled key l [] := ⟨Pairwise.nil, by simp⟩
    have hsorted := hnone.passes_descending hn
    rwa [append_nil] at hsorted
  stable v := filter_passes n v l

end Sanntid.Sorting
