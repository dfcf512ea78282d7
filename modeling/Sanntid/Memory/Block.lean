import Mathlib.Data.List.Induction
import Mathlib.Tactic

/-!
# Allocated blocks and their windows

A block is what `malloc` returns: a fixed number of cells, each indeterminate until it is written.
Reading or writing at an index outside the block is a fault, so a computation that returns a value
has stayed inside its blocks. The `window` of a block from `f` up to but not including `t` is the
list of its cells there; a read at either end peels the window (`read_first`, `read_last`) and a
write at `t` extends it (`write_end`).
-/

set_option autoImplicit false

namespace Sanntid.Memory

universe u

/-- An access that the C abstract machine does not define, or a failed `assert`. -/
inductive Fault where
  | outOfBounds (index size : Int)
  | assertion
  deriving DecidableEq, Repr

/-- The cells of an allocated block; `none` is an indeterminate value. -/
structure Block (α : Type u) where
  cells : List (Option α)
  deriving DecidableEq, Repr

namespace Block

variable {α : Type u}

/-- The number of cells. -/
def size (b : Block α) : Int := b.cells.length

/-- A fresh block of `n` cells. -/
def malloc (n : Int) : Block α := ⟨List.replicate n.toNat none⟩

/-- The content of cell `i`; only meaningful inside the block. -/
def cell (b : Block α) (i : Int) : Option α := (b.cells[i.toNat]?).join

/-- Load cell `i`. -/
def read (b : Block α) (i : Int) : Except Fault (Option α) :=
  if 0 ≤ i ∧ i < b.size then .ok (b.cell i) else .error (.outOfBounds i b.size)

/-- Store into cell `i`. -/
def write (b : Block α) (i : Int) (v : Option α) : Except Fault (Block α) :=
  if 0 ≤ i ∧ i < b.size then .ok ⟨b.cells.set i.toNat v⟩ else .error (.outOfBounds i b.size)

/-- The cells from index `f` up to but not including `t`. -/
def window (b : Block α) (f t : Int) : List (Option α) :=
  (List.range (t - f).toNat).map fun k : Nat => b.cell (f + k)

@[simp] theorem size_malloc {n : Int} (hn : 0 ≤ n) : (malloc n : Block α).size = n := by
  simp [size, malloc, hn]

theorem read_of_inBounds {b : Block α} {i : Int} (h : 0 ≤ i ∧ i < b.size) :
    b.read i = .ok (b.cell i) :=
  if_pos h

/-- A store inside the block succeeds, changes the one cell and keeps the size. -/
theorem write_of_inBounds {b : Block α} {i : Int} (v : Option α) (h : 0 ≤ i ∧ i < b.size) :
    ∃ b', b.write i v = .ok b' ∧ b'.size = b.size ∧ b'.cell i = v ∧
      ∀ j, 0 ≤ j → j ≠ i → b'.cell j = b.cell j := by
  refine ⟨⟨b.cells.set i.toNat v⟩, if_pos h, by simp [size], ?_, ?_⟩
  · have hi : i.toNat < b.cells.length := by
      have hlt : i < (b.cells.length : Int) := h.2
      omega
    simp [cell, hi]
  · intro j hj hne
    have hidx : i.toNat ≠ j.toNat := by omega
    simp [cell, List.getElem?_set_ne hidx]

theorem write_outOfBounds {b : Block α} {i : Int} (v : Option α) (h : ¬ (0 ≤ i ∧ i < b.size)) :
    b.write i v = .error (.outOfBounds i b.size) :=
  if_neg h

/-! ## Windows -/

theorem window_empty (b : Block α) {f t : Int} (h : t ≤ f) : b.window f t = [] := by
  have hz : (t - f).toNat = 0 := by omega
  simp [window, hz]

theorem window_eq_nil_iff (b : Block α) {f t : Int} : b.window f t = [] ↔ t ≤ f := by
  constructor
  · intro hnil
    have hlen : (b.window f t).length = (t - f).toNat := by simp [window]
    rw [hnil, List.length_nil] at hlen
    omega
  · exact b.window_empty

theorem length_window (b : Block α) {f t : Int} (h : f ≤ t) :
    ((b.window f t).length : Int) = t - f := by
  simp [window, h]

theorem window_cons (b : Block α) {f t : Int} (h : f < t) :
    b.window f t = b.cell f :: b.window (f + 1) t := by
  have hn : (t - f).toNat = (t - (f + 1)).toNat + 1 := by omega
  rw [window, hn, List.range_succ_eq_map, List.map_cons, List.map_map, window]
  congr 1
  · simp
  · apply List.map_congr_left
    intro k _
    simp only [Function.comp, Nat.succ_eq_add_one, Nat.cast_add, Nat.cast_one]
    congr 1
    omega

theorem window_snoc (b : Block α) {f t : Int} (h : f ≤ t) :
    b.window f (t + 1) = b.window f t ++ [b.cell t] := by
  have hn : (t + 1 - f).toNat = (t - f).toNat + 1 := by omega
  have ht : f + ((t - f).toNat : Int) = t := by omega
  rw [window, hn, List.range_succ, List.map_append, List.map_cons, List.map_nil, ht, window]

/-- A window only depends on the cells inside it. -/
theorem window_congr {b b' : Block α} {f t : Int}
    (h : ∀ i, f ≤ i → i < t → b'.cell i = b.cell i) : b'.window f t = b.window f t := by
  refine List.map_congr_left fun k hk => h _ (by omega) ?_
  have hlt : k < (t - f).toNat := List.mem_range.1 hk
  omega

/-- Loading the first cell of a window peels it off. -/
theorem read_first {b : Block α} {f t : Int} (hf : 0 ≤ f) (h : f < t) (ht : t ≤ b.size) :
    ∃ x, b.read f = .ok x ∧ b.window f t = x :: b.window (f + 1) t :=
  ⟨b.cell f, read_of_inBounds ⟨hf, by omega⟩, b.window_cons h⟩

/-- Loading the last cell of a window peels it off. -/
theorem read_last {b : Block α} {f t : Int} (hf : 0 ≤ f) (h : f < t) (ht : t ≤ b.size) :
    ∃ x, b.read (t - 1) = .ok x ∧ b.window f t = b.window f (t - 1) ++ [x] := by
  refine ⟨b.cell (t - 1), read_of_inBounds ⟨by omega, by omega⟩, ?_⟩
  have hsnoc := b.window_snoc (show f ≤ t - 1 by omega)
  rwa [Int.sub_add_cancel] at hsnoc

/-- Storing just past a window extends it. -/
theorem write_end {b : Block α} {f t : Int} (v : Option α) (hf : 0 ≤ f) (h : f ≤ t)
    (ht : t < b.size) :
    ∃ b', b.write t v = .ok b' ∧ b'.size = b.size ∧
      b'.window f (t + 1) = b.window f t ++ [v] := by
  obtain ⟨b', hw, hsize, hnew, hold⟩ := write_of_inBounds (b := b) v ⟨by omega, ht⟩
  refine ⟨b', hw, hsize, ?_⟩
  have hwin : b'.window f t = b.window f t :=
    window_congr fun i hi hlt => hold i (by omega) (by omega)
  rw [b'.window_snoc h, hwin, hnew]

end Block

end Sanntid.Memory
