import Sanntid.Arith.Machine
import Sanntid.Control.Fallible
import Sanntid.Memory.Block

/-!
# The growable array of `ex2/taskC/array.c`

The structure and its operations as the C file computes them. `long` is `Int` (no overflow is
assumed) and `malloc` succeeds. The `data` pointer is the block it points to: the traversals work
on a copy of the structure (`array_save`) and only read the shared block, and `array_reserve`
frees the old block after the last use of it. A load or store outside the block is a fault. The
`printf` of `array_reserve` is left out.

The argument of `malloc` is a `size_t`: `sizeof(long)*capacity` is taken modulo `2 ^ 64`, and
`mallocLongs` is the block that comes back. The functions take the block as a parameter `alloc`, so
that a result that assumes that the product does not overflow can say so: its block is
`Block.malloc`, which is the same below `2 ^ 61` (`mallocLongs_eq`).

A window that is not empty has to lie in the block (`Readable`); where the block has as many cells
as the capacity says, `Valid` is the relation between the four fields that keeps it there. The
lemmas of this file say what each operation does: `copyLoop_spec` and `copyLoop_fault` for the copy
loop, `arrayReserve_spec`, and `foreachLoop_eq_foldl` for the traversal.
-/

set_option autoImplicit false

namespace Sanntid.DynamicArray

open Sanntid.Arith Sanntid.Control Sanntid.Memory

/-- `struct Array`. -/
structure Array where
  data : Block Int
  front : Int
  back : Int
  capacity : Int
  deriving DecidableEq, Repr

/-! ## The block of `malloc` -/

/-- The number of cells of the block that `malloc(sizeof(long)*capacity)` returns: the product is of
type `size_t`. -/
def longs (capacity : Int) : Int := toSizeT (8 * capacity) / 8

/-- `malloc(sizeof(long)*capacity)`. -/
def mallocLongs (capacity : Int) : Block Int := Block.malloc (longs capacity)

theorem longs_eq (capacity : Int) : longs capacity = capacity % 2305843009213693952 := by
  rw [longs, toSizeT]
  omega

@[simp] theorem size_mallocLongs (capacity : Int) : (mallocLongs capacity).size = longs capacity :=
  Block.size_malloc (by rw [longs_eq]; exact Int.emod_nonneg _ (by decide))

/-- A product that fits a `size_t` is the number of bytes that the request needs. -/
theorem mallocLongs_eq {capacity : Int} (h : 0 ≤ capacity)
    (hsmall : capacity < 2305843009213693952) : mallocLongs capacity = Block.malloc capacity := by
  rw [mallocLongs, longs_eq, Int.emod_eq_of_lt h hsmall]

/-- The block never has more cells than the capacity says. -/
theorem longs_le {capacity : Int} (h : 0 ≤ capacity) : longs capacity ≤ capacity := by
  rw [longs_eq]
  omega

/-! ## Construction and primitives -/

/-- `array_new`, with the block that `alloc` returns for the capacity. -/
def arrayNew (alloc : Int → Block Int) (capacity : Int) : Except Fault Array :=
  if 0 < capacity then .ok ⟨alloc capacity, 0, 0, capacity⟩ else .error .assertion

/-- `array_empty`. -/
def arrayEmpty (a : Array) : Bool := a.back ≤ a.front

/-- `array_front`. -/
def arrayFront (a : Array) : Except Fault (Option Int) := a.data.read a.front

/-- `array_back`. -/
def arrayBack (a : Array) : Except Fault (Option Int) := a.data.read (a.back - 1)

/-- `array_popFront`, which checks nothing. -/
def arrayPopFront (a : Array) : Array := { a with front := a.front + 1 }

/-- `array_popBack`, which checks nothing. -/
def arrayPopBack (a : Array) : Array := { a with back := a.back - 1 }

/-- `array_save`: a copy of the structure with the same block. -/
def arraySave (a : Array) : Array := ⟨a.data, a.front, a.back, a.capacity⟩

theorem arrayEmpty_iff {a : Array} : arrayEmpty a = true ↔ a.back ≤ a.front := by
  simp [arrayEmpty]

theorem arrayEmpty_eq_false {a : Array} : arrayEmpty a = false ↔ a.front < a.back := by
  simp [arrayEmpty]

/-! ## Iteration -/

section Iteration

variable {σ : Type}

/-- The `for` loop of `array_foreach` from the state `b` of its loop variable; `fn` acts on the
state `s` of the caller. -/
def foreachLoop (fn : σ → Option Int → σ) (b : Array) (s : σ) : Except Fault σ :=
  if _h : arrayEmpty b then .ok s
  else do
    let x ← arrayFront b
    foreachLoop fn (arrayPopFront b) (fn s x)
termination_by (b.back - b.front).toNat
decreasing_by
  have hlt := arrayEmpty_eq_false.1 (Bool.not_eq_true _ ▸ _h)
  simp only [arrayPopFront]
  omega

/-- `array_foreach`: the loop over a copy. -/
def arrayForeach (a : Array) (fn : σ → Option Int → σ) (s : σ) : Except Fault σ :=
  foreachLoop fn (arraySave a) s

end Iteration

/-- The arguments with which `array_foreach` calls `fn`, in order. -/
def visited (a : Array) : Except Fault (List (Option Int)) :=
  arrayForeach a (fun xs x => xs ++ [x]) []

/-! ## Capacity and modifiers -/

/-- `array_length`. -/
def arrayLength (a : Array) : Int := a.back - a.front

/-- The copy loop of `array_reserve` from index `i`. -/
def copyLoop (data : Block Int) (back i : Int) (newData : Block Int) :
    Except Fault (Block Int) :=
  if i < back then do
    let x ← data.read i
    let newData ← newData.write i x
    copyLoop data back (i + 1) newData
  else .ok newData
termination_by (back - i).toNat

section Alloc

variable (alloc : Int → Block Int)

/-- `array_reserve`: a request that is not larger than the capacity changes nothing. -/
def arrayReserve (a : Array) (capacity : Int) : Except Fault Array :=
  if capacity ≤ a.capacity then .ok a
  else do
    let newData ← copyLoop a.data a.back a.front (alloc capacity)
    .ok { a with data := newData, capacity := capacity }

/-- `array_insertBack` up to the capacity it asks for when the array is full; `ex2/taskC` and
`ex2/taskD` differ in nothing else. -/
def insertBackGrowing (grow : Int → Int) (a : Array) (stuff : Int) : Except Fault Array := do
  -- the test compares the length, the store below uses `back`
  let a ← if a.capacity ≤ arrayLength a then arrayReserve alloc a (grow a.capacity) else .ok a
  let data ← a.data.write a.back (some stuff)
  .ok { a with data := data, back := a.back + 1 }

/-- The capacity that `array_insertBack` of `ex2/taskC` asks for. -/
def taskCGrowth (capacity : Int) : Int := capacity * 2

/-- `array_insertBack` of `ex2/taskC`. -/
def arrayInsertBack (a : Array) (stuff : Int) : Except Fault Array :=
  insertBackGrowing alloc taskCGrowth a stuff

/-- The array that the growth test of `array_insertBack` leaves for the store. -/
def growthTest (grow : Int → Int) (a : Array) : Except Fault Array :=
  if a.capacity ≤ arrayLength a then arrayReserve alloc a (grow a.capacity) else .ok a

end Alloc

variable {alloc : Int → Block Int}

/-- `array_insertBack` in two parts: the growth test and the store. -/
theorem insertBackGrowing_eq {grow : Int → Int} {a b : Array} (stuff : Int)
    (hb : growthTest alloc grow a = .ok b) :
    insertBackGrowing alloc grow a stuff = b.data.write b.back (some stuff) >>= fun data =>
      .ok { b with data := data, back := b.back + 1 } := by
  by_cases hfull : a.capacity ≤ arrayLength a
  · rw [growthTest, if_pos hfull] at hb
    simp only [insertBackGrowing, if_pos hfull, hb]
    rfl
  · rw [growthTest, if_neg hfull, Except.ok.injEq] at hb
    subst hb
    simp only [insertBackGrowing, if_neg hfull]
    rfl

/-- A growth test that faults ends `array_insertBack`. -/
theorem insertBackGrowing_error {grow : Int → Int} {a : Array} (stuff : Int) {e : Fault}
    (h : growthTest alloc grow a = .error e) :
    insertBackGrowing alloc grow a stuff = .error e := by
  by_cases hfull : a.capacity ≤ arrayLength a
  · rw [growthTest, if_pos hfull] at h
    simp only [insertBackGrowing, if_pos hfull, h]
    rfl
  · rw [growthTest, if_neg hfull] at h
    cases h

/-! ## Windows in their block -/

/-- The live cells of an array. -/
def contents (a : Array) : List (Option Int) := a.data.window a.front a.back

/-- A window that is not empty lies in the block. -/
def Readable (a : Array) : Prop := a.front < a.back → 0 ≤ a.front ∧ a.back ≤ a.data.size

theorem length_contents {a : Array} (h : a.front ≤ a.back) :
    ((contents a).length : Int) = arrayLength a :=
  a.data.length_window h

theorem contents_eq_nil_iff {a : Array} : contents a = [] ↔ arrayEmpty a = true :=
  a.data.window_eq_nil_iff.trans arrayEmpty_iff.symm

theorem not_empty_of_contents {a : Array} (h : contents a ≠ []) : arrayEmpty a = false := by
  rw [Bool.eq_false_iff, Ne, ← contents_eq_nil_iff]
  exact h

namespace Readable

variable {a : Array}

/-- `array_front` of a non-empty array reads the first live cell. -/
theorem arrayFront_spec (h : Readable a) (hne : arrayEmpty a = false) :
    ∃ x, arrayFront a = .ok x ∧ contents a = x :: contents (arrayPopFront a) := by
  have hlt := arrayEmpty_eq_false.1 hne
  exact Block.read_first (h hlt).1 hlt (h hlt).2

/-- `array_back` of a non-empty array reads the last live cell. -/
theorem arrayBack_spec (h : Readable a) (hne : arrayEmpty a = false) :
    ∃ x, arrayBack a = .ok x ∧ contents a = contents (arrayPopBack a) ++ [x] := by
  have hlt := arrayEmpty_eq_false.1 hne
  exact Block.read_last (h hlt).1 hlt (h hlt).2

theorem popFront (h : Readable a) : Readable (arrayPopFront a) := by
  intro hlt
  simp only [arrayPopFront] at hlt ⊢
  have hin := h (by omega)
  omega

theorem popBack (h : Readable a) : Readable (arrayPopBack a) := by
  intro hlt
  simp only [arrayPopBack] at hlt ⊢
  have hin := h (by omega)
  omega

/-- The loop of `array_foreach` folds `fn` over the live cells, front to back. -/
theorem foreachLoop_eq_foldl {σ : Type} (fn : σ → Option Int → σ) (s : σ) (h : Readable a) :
    foreachLoop fn a s = .ok ((contents a).foldl fn s) := by
  induction a, s using foreachLoop.induct fn with
  | case1 b s hempty =>
    rw [foreachLoop, dif_pos hempty, contents_eq_nil_iff.2 hempty, List.foldl_nil]
  | case2 b s hne ih =>
    have hfalse : arrayEmpty b = false := by simpa using hne
    obtain ⟨x, hread, hcons⟩ := h.arrayFront_spec hfalse
    rw [foreachLoop, dif_neg hne, hread, hcons, List.foldl_cons]
    exact ih x h.popFront

/-- `array_foreach` visits the live cells in order, once each. -/
theorem visited_eq (h : Readable a) : visited a = .ok (contents a) := by
  have hsave : arraySave a = a := rfl
  have hfold : ∀ xs ys : List (Option Int), ys.foldl (fun xs x => xs ++ [x]) xs = xs ++ ys := by
    intro xs ys
    induction ys generalizing xs with
    | nil => simp
    | cons y ys ih => simp [ih]
  rw [visited, arrayForeach, hsave, h.foreachLoop_eq_foldl, hfold, List.nil_append]

end Readable

/-! ## Reserving -/

/-- The copy loop stays inside both blocks and copies the cells from `i` up to `back`. -/
theorem copyLoop_spec (data : Block Int) (back i : Int) (newData : Block Int) (hi : 0 ≤ i)
    (hold : back ≤ data.size) (hnew : back ≤ newData.size) :
    ∃ d, copyLoop data back i newData = .ok d ∧ d.size = newData.size ∧
      (∀ j, 0 ≤ j → j < i → d.cell j = newData.cell j) ∧
      ∀ j, i ≤ j → j < back → d.cell j = data.cell j := by
  -- induction on the number of cells still to copy
  induction hn : (back - i).toNat generalizing i newData with
  | zero =>
    have hle : ¬ i < back := by omega
    refine ⟨newData, by rw [copyLoop, if_neg hle], rfl, fun _ _ _ => rfl, ?_⟩
    intro j hij hj
    omega
  | succ n ih =>
    have hlt : i < back := by omega
    obtain ⟨b', hw, hsize, hcell, hother⟩ :=
      Block.write_of_inBounds (b := newData) (data.cell i) (i := i) ⟨hi, by omega⟩
    obtain ⟨d, hd, hdsize, hbelow, habove⟩ :=
      ih (i + 1) b' (by omega) (by omega) (by omega)
    refine ⟨d, ?_, hdsize.trans hsize, ?_, ?_⟩
    · have hread := Block.read_of_inBounds (b := data) ⟨hi, by omega⟩
      rw [copyLoop, if_pos hlt, bind_of_ok hread, bind_of_ok hw, hd]
    · intro j hj hji
      rw [hbelow j hj (by omega), hother j hj (by omega)]
    · intro j hij hj
      -- the cell copied in this step, or one of the later ones
      by_cases he : j = i
      · subst he
        rw [hbelow j hi (by omega), hcell]
      · exact habove j (by omega) hj

/-- A window that does not fit the new block takes the copy loop out of it, at the first cell that
is not in the block. -/
theorem copyLoop_fault {data newData : Block Int} {back i : Int} (hi : 0 ≤ i) (hlt : i < back)
    (hold : back ≤ data.size) (hnew : newData.size < back) :
    copyLoop data back i newData =
      .error (.outOfBounds (max i newData.size) newData.size) := by
  induction i, newData using copyLoop.induct back with
  | case1 i newData hib ih =>
    have hread := Block.read_of_inBounds (b := data) (i := i) ⟨hi, by omega⟩
    rw [copyLoop, if_pos hib, bind_of_ok hread]
    by_cases hin : i < newData.size
    · obtain ⟨d, hwrite, hsize, -, -⟩ :=
        Block.write_of_inBounds (b := newData) (data.cell i) ⟨hi, hin⟩
      have hmax : max (i + 1) newData.size = max i newData.size := by omega
      rw [bind_of_ok hwrite, ih d (by omega) (by omega) (by omega), hsize, hmax]
    · have hmax : max i newData.size = i := max_eq_left (not_lt.1 hin)
      rw [bind_of_error (Block.write_outOfBounds _ fun hb => hin hb.2), hmax]
  | case2 i newData hge => exact absurd hlt hge

/-- `array_reserve` has nothing to do, or nothing to copy, or the window ends in the new block. -/
def Fits (alloc : Int → Block Int) (a : Array) (capacity : Int) : Prop :=
  capacity ≤ a.capacity ∨ arrayEmpty a = true ∨ a.back ≤ (alloc capacity).size

/-- A request that fits leaves the window where it is with the same cells, and makes the capacity
the larger of the old one and the request. -/
theorem arrayReserve_of_fits {a : Array} (h : Readable a) {capacity : Int}
    (hfit : Fits alloc a capacity) :
    ∃ a', arrayReserve alloc a capacity = .ok a' ∧ a'.front = a.front ∧ a'.back = a.back ∧
      a'.capacity = max a.capacity capacity ∧
      (∀ i, a.front ≤ i → i < a.back → a'.data.cell i = a.data.cell i) ∧
      a'.data.size = if capacity ≤ a.capacity then a.data.size else (alloc capacity).size := by
  by_cases hle : capacity ≤ a.capacity
  · exact ⟨a, if_pos hle, rfl, rfl, (max_eq_left hle).symm, fun _ _ _ => rfl, (if_pos hle).symm⟩
  · have hmax : max a.capacity capacity = capacity := max_eq_right (not_le.1 hle).le
    rw [if_neg hle, hmax]
    by_cases hlt : a.front < a.back
    · have hback := (hfit.resolve_left hle).resolve_left (by simpa [arrayEmpty] using hlt)
      obtain ⟨d, hcopy, hsize, -, hcells⟩ := copyLoop_spec a.data a.back a.front
        (alloc capacity) (h hlt).1 (h hlt).2 hback
      refine ⟨{ a with data := d, capacity := capacity }, ?_, rfl, rfl, rfl, hcells, hsize⟩
      rw [arrayReserve, if_neg hle, bind_of_ok hcopy]
    · have hcopy : copyLoop a.data a.back a.front (alloc capacity) = .ok (alloc capacity) := by
        rw [copyLoop, if_neg hlt]
      refine ⟨{ a with data := alloc capacity, capacity := capacity }, ?_, rfl, rfl, rfl, ?_, rfl⟩
      · rw [arrayReserve, if_neg hle, bind_of_ok hcopy]
      · exact fun i hi hib => absurd (hi.trans_lt hib) hlt

/-- A request that does not fit takes the copy loop out of the new block. -/
theorem arrayReserve_fault {a : Array} (h : Readable a) {capacity : Int}
    (hfit : ¬ Fits alloc a capacity) :
    arrayReserve alloc a capacity = .error (.outOfBounds
      (max a.front (alloc capacity).size) (alloc capacity).size) := by
  simp only [Fits, not_or, not_le, Bool.not_eq_true, arrayEmpty_eq_false] at hfit
  obtain ⟨hlarge, hlt, hback⟩ := hfit
  have hcopy := copyLoop_fault (h hlt).1 hlt (h hlt).2 hback
  rw [arrayReserve, if_neg (not_le.2 hlarge), bind_of_error hcopy]

/-! ## Valid arrays -/

/-- The four fields of an array in order, and a block of `capacity` cells behind it. -/
structure Valid (a : Array) : Prop where
  front_nonneg : 0 ≤ a.front
  front_le_back : a.front ≤ a.back
  back_le_capacity : a.back ≤ a.capacity
  size_eq : a.data.size = a.capacity

instance (a : Array) : Decidable (Valid a) :=
  decidable_of_iff
    (0 ≤ a.front ∧ a.front ≤ a.back ∧ a.back ≤ a.capacity ∧ a.data.size = a.capacity)
    ⟨fun h => ⟨h.1, h.2.1, h.2.2.1, h.2.2.2⟩,
      fun h => ⟨h.front_nonneg, h.front_le_back, h.back_le_capacity, h.size_eq⟩⟩

theorem Valid.readable {a : Array} (h : Valid a) : Readable a := by
  intro _
  exact ⟨h.front_nonneg, h.back_le_capacity.trans h.size_eq.ge⟩

theorem valid_new {capacity : Int} (h : 0 < capacity) :
    ∃ a, arrayNew Block.malloc capacity = .ok a ∧ Valid a ∧ contents a = [] ∧
      a.capacity = capacity := by
  refine ⟨_, if_pos h, ⟨le_refl _, le_refl _, h.le, Block.size_malloc h.le⟩, ?_, rfl⟩
  exact Block.window_empty _ (le_refl _)

theorem valid_popBack {a : Array} (h : Valid a) (hne : arrayEmpty a = false) :
    Valid (arrayPopBack a) := by
  have hlt := arrayEmpty_eq_false.1 hne
  have hle := h.back_le_capacity
  exact ⟨h.front_nonneg, by simp only [arrayPopBack]; omega,
    by simp only [arrayPopBack]; omega, h.size_eq⟩

/-- `array_reserve` of a valid array, where no product overflows. -/
theorem arrayReserve_spec {a : Array} (h : Valid a) (capacity : Int) :
    ∃ a', arrayReserve Block.malloc a capacity = .ok a' ∧ Valid a' ∧ a'.front = a.front ∧
      a'.back = a.back ∧ a'.capacity = max a.capacity capacity ∧ contents a' = contents a := by
  have hpos : 0 ≤ a.capacity := h.front_nonneg.trans (h.front_le_back.trans h.back_le_capacity)
  have hback := h.back_le_capacity
  have hsize : ∀ n, a.capacity < n → (Block.malloc n : Block Int).size = n := fun n hn =>
    Block.size_malloc (hpos.trans hn.le)
  -- the block of a larger request has room for the window
  have hfit : Fits Block.malloc a capacity := by
    by_cases hle : capacity ≤ a.capacity
    · exact .inl hle
    · refine .inr (.inr ?_)
      rw [hsize capacity (by omega)]
      omega
  obtain ⟨a', ha', hfront', hback', hcap', hcells, hsize'⟩ := arrayReserve_of_fits h.readable hfit
  refine ⟨a', ha', ⟨?_, ?_, ?_, ?_⟩, hfront', hback', hcap', ?_⟩
  · exact hfront'.symm ▸ h.front_nonneg
  · rw [hfront', hback']
    exact h.front_le_back
  · rw [hback', hcap']
    exact hback.trans (le_max_left _ _)
  · rw [hsize', hcap']
    by_cases hle : capacity ≤ a.capacity
    · rw [if_pos hle, h.size_eq, max_eq_left hle]
    · rw [if_neg hle, hsize capacity (not_le.1 hle), max_eq_right (not_le.1 hle).le]
  · rw [contents, hfront', hback']
    exact Block.window_congr hcells

/-! ## Inserting -/

/-- A store with room behind the window: `stuff` becomes the last live cell and nothing else
changes. -/
theorem write_back_spec {a : Array} (hfront : 0 ≤ a.front) (hfb : a.front ≤ a.back)
    (hroom : a.back < a.data.size) (stuff : Int) :
    ∃ d, a.data.write a.back (some stuff) = .ok d ∧ d.size = a.data.size ∧
      contents { a with data := d, back := a.back + 1 } = contents a ++ [some stuff] :=
  Block.write_end (some stuff) hfront hfb hroom

/-- The growth test of an array whose window lies between 0 and the capacity fires exactly when the
window fills the block. -/
theorem full_iff {a : Array} (hfront : 0 ≤ a.front) (hback : a.back ≤ a.capacity) :
    a.capacity ≤ arrayLength a ↔ a.front = 0 ∧ a.back = a.capacity := by
  rw [arrayLength]
  omega

/-- A growth test that grows when it fires leaves room behind the window, unless the window is at
the end of the block and not at its start. -/
theorem growthTest_spec (grow : Int → Int) {a : Array} (h : Valid a)
    (hgrow : a.capacity ≤ arrayLength a → a.capacity < grow a.capacity)
    (hroom : ¬ (0 < a.front ∧ a.back = a.capacity)) :
    ∃ b, growthTest Block.malloc grow a = .ok b ∧ Valid b ∧ b.front = a.front ∧
      b.back = a.back ∧ b.back < b.capacity ∧ contents b = contents a ∧
      b.capacity = if a.capacity ≤ arrayLength a then grow a.capacity else a.capacity := by
  have hback := h.back_le_capacity
  by_cases hfull : a.capacity ≤ arrayLength a
  · obtain ⟨b, hb, hbvalid, hbfront, hbback, hcap, hcont⟩ := arrayReserve_spec h (grow a.capacity)
    have hlt := hgrow hfull
    have hmax : b.capacity = grow a.capacity := hcap.trans (max_eq_right hlt.le)
    rw [growthTest, if_pos hfull, if_pos hfull]
    exact ⟨b, hb, hbvalid, hbfront, hbback, by omega, hcont, hmax⟩
  · have hne := (full_iff h.front_nonneg hback).not.1 hfull
    have h0 := h.front_nonneg
    rw [growthTest, if_neg hfull, if_neg hfull]
    exact ⟨a, rfl, h, rfl, rfl, by omega, rfl, rfl⟩

/-- With room left by the growth test, `stuff` becomes the last live cell. -/
theorem insertBackGrowing_spec {grow : Int → Int} {a b : Array} (stuff : Int)
    (hb : growthTest Block.malloc grow a = .ok b) (hvalid : Valid b)
    (hroom : b.back < b.capacity) :
    ∃ a', insertBackGrowing Block.malloc grow a stuff = .ok a' ∧ Valid a' ∧
      a'.front = b.front ∧ a'.capacity = b.capacity ∧
      b.data.write b.back (some stuff) = .ok a'.data ∧
      contents a' = contents b ++ [some stuff] := by
  obtain ⟨d, hd, hdsize, hdcont⟩ := write_back_spec hvalid.front_nonneg hvalid.front_le_back
    (hroom.trans_eq hvalid.size_eq.symm) stuff
  have hfb := hvalid.front_le_back
  refine ⟨{ b with data := d, back := b.back + 1 }, ?_, ⟨hvalid.front_nonneg, ?_, ?_, ?_⟩, rfl, rfl,
    hd, hdcont⟩
  · rw [insertBackGrowing_eq stuff hb, bind_of_ok hd]
  · show b.front ≤ b.back + 1
    omega
  · show b.back + 1 ≤ b.capacity
    omega
  · exact hdsize.trans hvalid.size_eq

end Sanntid.DynamicArray
