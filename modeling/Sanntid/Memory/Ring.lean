import Mathlib.Data.List.Chain
import Mathlib.Data.List.Nodup
import Mathlib.Data.List.Basic
import Mathlib.Logic.Function.Basic

/-!
# Circular doubly linked lists

`Links` are the two links of every node of a memory. `Ring e ps` says that the nodes `ps` hang in a
circle behind the marker `e`, each linked to its neighbours in both directions.
`Ring.insertAfter` and `Ring.unlink` are the two edits of such a list, `Ring.congr` the frame rule:
a ring only depends on the links of its own nodes.
-/

set_option autoImplicit false

namespace Sanntid.Memory

universe u

variable {P : Type u}

/-- The forward and the backward link of every node. -/
structure Links (P : Type u) where
  next : P → P
  prev : P → P

namespace Links

/-- `q` follows `p`, by both links. -/
def Adjacent (m : Links P) (p q : P) : Prop := m.next p = q ∧ m.prev q = p

/-- The circle of `e` and then `ps`. -/
structure Ring (m : Links P) (e : P) (ps : List P) : Prop where
  nodup : (e :: ps).Nodup
  chain : (e :: ps ++ [e]).IsChain m.Adjacent

/-- The last node of a list, the marker if there is none. -/
def last (e : P) : List P → P
  | [] => e
  | a :: as => last a as

/-- The first node of `bs`, the marker if there is none. -/
def first (e : P) (bs : List P) : P := bs.headD e

variable {m m' : Links P} {e p q x : P} {as bs ps : List P}

@[simp] theorem last_nil : last e [] = e := rfl

@[simp] theorem last_cons : last e (p :: as) = last p as := rfl

@[simp] theorem last_append (e : P) (as bs : List P) :
    last e (as ++ bs) = last (last e as) bs := by
  induction as generalizing e with
  | nil => rfl
  | cons a as ih => exact ih a

@[simp] theorem first_nil : first e [] = e := rfl

@[simp] theorem first_cons : first e (p :: bs) = p := rfl

theorem last_mem (e : P) (as : List P) : last e as ∈ e :: as := by
  cases as using List.reverseRecOn with
  | nil => simp
  | append_singleton as a => simp

theorem first_mem (e : P) (bs : List P) : first e bs ∈ e :: bs := by
  cases bs <;> simp

/-- A chain reads the forward link of all nodes but the last and the backward link of all but the
first. -/
theorem chain_congr {l : List P} (h : l.IsChain m.Adjacent)
    (hnext : ∀ x ∈ l.dropLast, m'.next x = m.next x)
    (hprev : ∀ y ∈ l.tail, m'.prev y = m.prev y) : l.IsChain m'.Adjacent := by
  induction h with
  | nil => exact .nil
  | singleton x => exact .singleton x
  | @cons_cons x y l hxy hchain ih =>
    apply List.IsChain.cons_cons
    · constructor
      · rw [hnext x (by simp)]
        exact hxy.1
      · rw [hprev y (by simp)]
        exact hxy.2
    · apply ih
      · intro z hz
        exact hnext z (by simp [hz])
      · intro z hz
        exact hprev z (List.mem_of_mem_tail hz)

/-- A ring, cut where `as` ends and `bs` begins. -/
theorem ring_append_iff : m.Ring e (as ++ bs) ↔
    (e :: (as ++ bs)).Nodup ∧ (e :: as).IsChain m.Adjacent ∧
      m.Adjacent (last e as) (first e bs) ∧ (bs ++ [e]).IsChain m.Adjacent := by
  have hsplit : e :: (as ++ bs) ++ [e] = (e :: as) ++ (bs ++ [e]) := by simp
  -- the seam of the two halves, as the chain lemmas name it
  have hlast : (e :: as).getLast? = some (last e as) := by
    cases as using List.reverseRecOn with
    | nil => rfl
    | append_singleton as a =>
      rw [← List.cons_append, List.getLast?_concat]
      simp
  have hfirst : (bs ++ [e]).head? = some (first e bs) := by
    cases bs <;> simp
  constructor
  · rintro ⟨hnodup, hchain⟩
    rw [hsplit, List.isChain_append, hlast, hfirst] at hchain
    obtain ⟨has, hbs, hseam⟩ := hchain
    exact ⟨hnodup, has, hseam _ rfl _ rfl, hbs⟩
  · rintro ⟨hnodup, has, hseam, hbs⟩
    refine ⟨hnodup, ?_⟩
    rw [hsplit, List.isChain_append, hlast, hfirst]
    refine ⟨has, hbs, ?_⟩
    rintro x ⟨⟩ y ⟨⟩
    exact hseam

theorem Ring.next_last (h : m.Ring e (as ++ bs)) : m.next (last e as) = first e bs :=
  (ring_append_iff.1 h).2.2.1.1

theorem Ring.prev_first (h : m.Ring e (as ++ bs)) : m.prev (first e bs) = last e as :=
  (ring_append_iff.1 h).2.2.1.2

theorem Ring.next_of_mem (h : m.Ring e (as ++ q :: bs)) : m.next q = first e bs := by
  have h' : m.Ring e ((as ++ [q]) ++ bs) := by simpa using h
  simpa using h'.next_last

theorem Ring.prev_of_mem (h : m.Ring e (as ++ q :: bs)) : m.prev q = last e as := by
  simpa using h.prev_first

/-! ## The nodes beside a cut -/

theorem ne_last_of_mem_dropLast (h : (e :: (as ++ bs)).Nodup) (hx : x ∈ (e :: as).dropLast) :
    x ≠ last e as := by
  cases as using List.reverseRecOn with
  | nil => simp at hx
  | append_singleton as a =>
    rw [← List.cons_append, List.dropLast_concat] at hx
    rw [last_append, last_cons, last_nil]
    rintro rfl
    simp only [List.append_assoc, List.singleton_append, List.nodup_cons, List.nodup_append] at h
    grind

theorem ne_last_of_mem_right (h : (e :: (as ++ bs)).Nodup) (hx : x ∈ bs) : x ≠ last e as := by
  rintro rfl
  rw [← List.cons_append, List.nodup_append] at h
  exact h.2.2 _ (last_mem e as) _ hx rfl

theorem ne_first_of_mem_left (h : (e :: (as ++ bs)).Nodup) (hx : x ∈ as) : x ≠ first e bs := by
  rintro rfl
  rw [← List.cons_append, List.nodup_append] at h
  cases bs with
  | nil => exact (List.nodup_cons.1 h.1).1 hx
  | cons b bs => exact h.2.2 _ (List.mem_cons_of_mem e hx) _ List.mem_cons_self rfl

theorem ne_first_of_mem_tail (h : (e :: (as ++ bs)).Nodup) (hx : x ∈ (bs ++ [e]).tail) :
    x ≠ first e bs := by
  cases bs with
  | nil => simp at hx
  | cons b bs =>
    rintro rfl
    simp only [List.nodup_cons, List.mem_append, List.mem_cons, List.nodup_append] at h
    simp only [List.cons_append, List.tail_cons, List.mem_append, List.mem_singleton] at hx
    grind

/-- Frame rule: a ring reads the links of its own nodes only. -/
theorem Ring.congr (h : m.Ring e ps) (hnext : ∀ x ∈ e :: ps, m'.next x = m.next x)
    (hprev : ∀ x ∈ e :: ps, m'.prev x = m.prev x) : m'.Ring e ps := by
  refine ⟨h.nodup, chain_congr h.chain ?_ ?_⟩
  · intro x hx
    rw [List.dropLast_concat] at hx
    exact hnext x hx
  · intro x hx
    exact hprev x (by grind)

/-- The circle of a marker alone. -/
theorem ring_nil_iff : m.Ring e [] ↔ m.next e = e ∧ m.prev e = e := by
  constructor
  · intro h
    have h' : m.Ring e ([] ++ []) := h
    exact ⟨h'.next_last, h'.prev_first⟩
  · rintro ⟨hnext, hprev⟩
    exact ⟨by simp, by simp [Adjacent, hnext, hprev]⟩

/-! ## The two edits -/

variable [DecidableEq P]

/-- `q` linked in behind `p`. -/
def insertAfter (m : Links P) (p q : P) : Links P where
  next := Function.update (Function.update m.next q (m.next p)) p q
  prev := Function.update (Function.update m.prev q p) (m.next p) q

/-- `q` taken out: its two neighbours are linked to each other. -/
def unlink (m : Links P) (q : P) : Links P where
  next := Function.update m.next (m.prev q) (m.next q)
  prev := Function.update m.prev (m.next q) (m.prev q)

theorem Ring.insertAfter (h : m.Ring e (as ++ bs)) (hq : q ∉ e :: (as ++ bs)) :
    (m.insertAfter (last e as) q).Ring e (as ++ q :: bs) := by
  have hnodup := h.nodup
  obtain ⟨-, has, ⟨hnext, hprev⟩, hbs⟩ := ring_append_iff.1 h
  have hqas : q ∉ e :: as := by grind
  have hqbs : q ∉ e :: bs := by grind
  have hqlast : q ≠ last e as := fun heq => hqas (heq ▸ last_mem e as)
  have hqfirst : q ≠ first e bs := fun heq => hqbs (heq ▸ first_mem e bs)
  rw [ring_append_iff]
  refine ⟨by grind, ?_, ?_, ?_⟩
  · -- the first half ends at `last e as`, whose `next` is what changes
    apply chain_congr has
    · intro x hx
      have hxq : x ≠ q := by
        rintro rfl
        exact hqas (List.dropLast_subset _ hx)
      simp [Links.insertAfter, ne_last_of_mem_dropLast hnodup hx, hxq]
    · intro y hy
      have hyq : y ≠ q := by
        rintro rfl
        exact hqas (List.mem_of_mem_tail hy)
      simp [Links.insertAfter, hnext, ne_first_of_mem_left hnodup hy, hyq]
  · -- the link before `q`, and behind it the second half
    simp [Adjacent, Links.insertAfter, hnext, hqfirst]
  · rw [List.cons_append]
    apply List.IsChain.cons
    · apply chain_congr hbs
      · intro x hx
        have hxbs : x ∈ bs := by simpa using hx
        have hxq : x ≠ q := by
          rintro rfl
          exact hqbs (List.mem_cons_of_mem e hxbs)
        simp [Links.insertAfter, ne_last_of_mem_right hnodup hxbs, hxq]
      · intro y hy
        have hyq : y ≠ q := by
          rintro rfl
          have := List.mem_of_mem_tail hy
          grind
        simp [Links.insertAfter, hnext, ne_first_of_mem_tail hnodup hy, hyq]
    · intro y hy
      have hy' : y = first e bs := by
        cases bs <;> simpa [eq_comm] using hy
      rw [hy']
      simp [Adjacent, Links.insertAfter, hnext, hqlast]

theorem Ring.unlink (h : m.Ring e (as ++ q :: bs)) : (m.unlink q).Ring e (as ++ bs) := by
  have hnodup : (e :: (as ++ bs)).Nodup := by
    have := h.nodup
    simp only [List.nodup_cons, List.mem_append, List.mem_cons, List.nodup_append] at this ⊢
    grind
  obtain ⟨-, has, -, hbs⟩ := ring_append_iff.1 h
  rw [ring_append_iff]
  refine ⟨hnodup, ?_, ?_, ?_⟩
  · apply chain_congr has
    · intro x hx
      simp [Links.unlink, h.prev_of_mem, ne_last_of_mem_dropLast hnodup hx]
    · intro y hy
      simp [Links.unlink, h.next_of_mem, ne_first_of_mem_left hnodup hy]
  · simp [Adjacent, Links.unlink, h.next_of_mem, h.prev_of_mem]
  · have hbs' : (bs ++ [e]).IsChain m.Adjacent := by simpa using hbs.tail
    apply chain_congr hbs'
    · intro x hx
      have hxbs : x ∈ bs := by simpa using hx
      simp [Links.unlink, h.prev_of_mem, ne_last_of_mem_right hnodup hxbs]
    · intro y hy
      simp [Links.unlink, h.next_of_mem, ne_first_of_mem_tail hnodup hy]

end Links

end Sanntid.Memory
