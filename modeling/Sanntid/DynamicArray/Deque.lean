import Sanntid.DynamicArray.Model
import Sanntid.Transition.Object

/-!
# The growable array as a deque

The purpose of the array is a list that grows at the back and shrinks at both ends. `deque` is
that list, `Observes` says that what the array functions return agrees with it, and `RefinesDeque`
that they agree after every operation of a client, with no access outside the block.

The growth test of `array_insertBack` compares the capacity with the length, while the store uses
`back`. The two differ once `array_popFront` has moved `front`: with `back` at the capacity and
`front` positive the test does not fire and the store is one past the block. And where
`sizeof(long)*capacity` wraps, the block is smaller than the capacity says. `HasRoom` is the
condition that an operation stays in the block, and `refinesDeque_iff` shows that it is the only way
to leave the specification.
-/

set_option autoImplicit false

namespace Sanntid.DynamicArray

open Sanntid.Control Sanntid.Memory Sanntid.Transition

/-- The operations a client issues on an array. -/
inductive Op where
  | insertBack (stuff : Int)
  | popFront
  | popBack
  | reserve (capacity : Int)
  deriving DecidableEq, Repr

/-- The operations of `ex2/taskC`. -/
def exec (a : Array) : Op → Except Fault Array
  | .insertBack stuff => arrayInsertBack mallocLongs a stuff
  | .popFront => .ok (arrayPopFront a)
  | .popBack => .ok (arrayPopBack a)
  | .reserve capacity => arrayReserve mallocLongs a capacity

/-- The array as an object. -/
def arrayObject : Object Array Op Fault := ⟨exec⟩

/-- The abstract object: what each operation does to the list. -/
def deque (xs : List Int) : Op → List Int
  | .insertBack stuff => xs ++ [stuff]
  | .popFront => xs.tail
  | .popBack => xs.dropLast
  | .reserve _ => xs

/-- The calling discipline: a pop is issued only when `array_empty` is false. -/
def PopsNonEmpty (a : Array) (op : Op) : Prop :=
  op = .popFront ∨ op = .popBack → arrayEmpty a = false

/-- The observers of an array return what the list says. -/
structure Observes (a : Array) (xs : List Int) : Prop where
  length : arrayLength a = xs.length
  empty : arrayEmpty a = xs.isEmpty
  front : ∀ x rest, xs = x :: rest → arrayFront a = .ok (some x)
  back : ∀ init x, xs = init ++ [x] → arrayBack a = .ok (some x)
  foreach : visited a = .ok (xs.map some)

/-- The ends of the window in order and within the capacity, and no cell of the block beyond it. -/
structure InOrder (a : Array) : Prop where
  front_nonneg : 0 ≤ a.front
  front_le_back : a.front ≤ a.back
  back_le_capacity : a.back ≤ a.capacity
  size_le_capacity : a.data.size ≤ a.capacity

/-- After every operation of the client the array has its fields in order and agrees with the
deque. -/
def RefinesDeque (a₀ : Array) (ops : List Op) : Prop :=
  ∀ pre post, ops = pre ++ post →
    ∃ a, arrayObject.run a₀ pre = .ok a ∧ InOrder a ∧ Observes a (pre.foldl deque [])

/-- The capacity of the block that the store of `array_insertBack` goes to. -/
def storeCapacity (a : Array) : Int :=
  if a.capacity ≤ arrayLength a then taskCGrowth a.capacity else a.capacity

/-- `array_insertBack` is issued with `back` inside of the block it stores to, and `array_reserve`
with a request that fits. -/
def HasRoom (a : Array) : Op → Prop
  | .insertBack _ => a.back < longs (storeCapacity a)
  | .reserve capacity => Fits mallocLongs a capacity
  | .popFront | .popBack => True

/-- An array that represents a list. Its block is the one that `malloc` has returned for its
capacity. -/
structure Represents (a : Array) (xs : List Int) : Prop where
  front_nonneg : 0 ≤ a.front
  front_le_back : a.front ≤ a.back
  back_le_capacity : a.back ≤ a.capacity
  capacity_pos : 0 < a.capacity
  size_eq : a.data.size = longs a.capacity
  readable : Readable a
  contents_eq : contents a = xs.map some

namespace Represents

variable {a : Array} {xs : List Int}

theorem inOrder (h : Represents a xs) : InOrder a where
  front_nonneg := h.front_nonneg
  front_le_back := h.front_le_back
  back_le_capacity := h.back_le_capacity
  size_le_capacity := h.size_eq.trans_le (longs_le h.capacity_pos.le)

theorem not_empty (h : Represents a xs) (hne : xs ≠ []) : arrayEmpty a = false := by
  apply not_empty_of_contents
  rw [h.contents_eq]
  simpa using hne

theorem observes (h : Represents a xs) : Observes a xs where
  length := by
    rw [← length_contents h.front_le_back, h.contents_eq, List.length_map]
  empty := by
    rw [Bool.eq_iff_iff, ← contents_eq_nil_iff, h.contents_eq, List.map_eq_nil_iff,
      List.isEmpty_iff]
  front := by
    rintro x rest rfl
    obtain ⟨y, hread, hcons⟩ := h.readable.arrayFront_spec (h.not_empty (by simp))
    rw [h.contents_eq, List.map_cons, List.cons.injEq] at hcons
    rw [hread, hcons.1]
  back := by
    rintro init x rfl
    obtain ⟨y, hread, hsnoc⟩ := h.readable.arrayBack_spec (h.not_empty (by simp))
    rw [h.contents_eq, List.map_append, List.map_singleton] at hsnoc
    obtain ⟨-, hlast⟩ := List.append_inj' hsnoc rfl
    simp only [List.cons.injEq, and_true] at hlast
    rw [hread, hlast]
  foreach := by
    rw [h.readable.visited_eq, h.contents_eq]

end Represents

/-- A new array represents the empty list. -/
theorem represents_new {capacity : Int} (hc : 0 < capacity) :
    ∃ a, arrayNew mallocLongs capacity = .ok a ∧ Represents a [] ∧ a.capacity = capacity ∧
      a.back = 0 := by
  refine ⟨_, if_pos hc, ⟨le_rfl, le_rfl, hc.le, hc, size_mallocLongs capacity, ?_, ?_⟩, rfl, rfl⟩
  · exact fun hlt => absurd hlt (lt_irrefl _)
  · exact Block.window_empty _ le_rfl

/-! ## One operation -/

namespace Represents

variable {a : Array} {xs : List Int}

theorem popFront (h : Represents a xs) (hne : arrayEmpty a = false) :
    Represents (arrayPopFront a) xs.tail where
  front_nonneg := Int.add_nonneg h.front_nonneg (by decide)
  front_le_back := arrayEmpty_eq_false.1 hne
  back_le_capacity := h.back_le_capacity
  capacity_pos := h.capacity_pos
  size_eq := h.size_eq
  readable := h.readable.popFront
  contents_eq := by
    obtain ⟨x, -, hcons⟩ := h.readable.arrayFront_spec hne
    rw [List.map_tail, ← h.contents_eq, hcons, List.tail_cons]

theorem popBack (h : Represents a xs) (hne : arrayEmpty a = false) :
    Represents (arrayPopBack a) xs.dropLast where
  front_nonneg := h.front_nonneg
  front_le_back := Int.le_sub_one_of_lt (arrayEmpty_eq_false.1 hne)
  back_le_capacity := (sub_le_self a.back (by decide)).trans h.back_le_capacity
  capacity_pos := h.capacity_pos
  size_eq := h.size_eq
  readable := h.readable.popBack
  contents_eq := by
    obtain ⟨x, -, hsnoc⟩ := h.readable.arrayBack_spec hne
    rw [List.map_dropLast, ← h.contents_eq, hsnoc, List.dropLast_concat]

/-- A request that fits leaves the list alone. -/
theorem reserve (h : Represents a xs) {capacity : Int} (hfit : Fits mallocLongs a capacity) :
    ∃ a', arrayReserve mallocLongs a capacity = .ok a' ∧ Represents a' xs ∧ a'.front = a.front ∧
      a'.back = a.back ∧ a'.capacity = max a.capacity capacity := by
  obtain ⟨a', ha', hfront, hback, hcap, hcells, hsize⟩ := arrayReserve_of_fits h.readable hfit
  have hle : a.capacity ≤ a'.capacity := hcap ▸ le_max_left _ _
  -- the block is the old one or that of the request
  have hsize' : a'.data.size = longs a'.capacity := by
    rw [hsize, hcap]
    by_cases hsmall : capacity ≤ a.capacity
    · rw [if_pos hsmall, max_eq_left hsmall, h.size_eq]
    · rw [if_neg hsmall, max_eq_right (not_le.1 hsmall).le, size_mallocLongs]
  refine ⟨a', ha', ⟨?_, ?_, ?_, h.capacity_pos.trans_le hle, hsize', ?_, ?_⟩, hfront, hback, hcap⟩
  · exact hfront.symm ▸ h.front_nonneg
  · rw [hfront, hback]
    exact h.front_le_back
  · exact hback.symm ▸ h.back_le_capacity.trans hle
  · -- the window is not empty, so the request that fits has a cell for its end
    intro hlt
    rw [hfront, hback] at hlt
    have hin := h.readable hlt
    rw [hfront, hback, hsize]
    refine ⟨hin.1, ?_⟩
    split
    next => exact hin.2
    next hlarge =>
      exact (hfit.resolve_left hlarge).resolve_left (by simpa [arrayEmpty] using hlt)
  · rw [contents, hfront, hback, ← h.contents_eq]
    exact Block.window_congr hcells

/-- A store inside of the block appends to the list. -/
theorem store (h : Represents a xs) (hroom : a.back < a.data.size) (stuff : Int) :
    ∃ d, a.data.write a.back (some stuff) = .ok d ∧
      Represents { a with data := d, back := a.back + 1 } (xs ++ [stuff]) := by
  obtain ⟨d, hd, hdsize, hdcont⟩ :=
    write_back_spec h.front_nonneg h.front_le_back hroom stuff
  have hle := h.inOrder.size_le_capacity
  refine ⟨d, hd, h.front_nonneg, ?_, ?_, h.capacity_pos, hdsize.trans h.size_eq, fun _ => ⟨?_, ?_⟩,
    ?_⟩
  · exact h.front_le_back.trans (Int.le_add_one le_rfl)
  · exact (Int.add_one_le_of_lt hroom).trans hle
  · exact h.front_nonneg
  · exact (Int.add_one_le_of_lt hroom).trans hdsize.ge
  · rw [hdcont, h.contents_eq, List.map_append, List.map_singleton]

/-- With room, the growth test leaves an array whose block has a cell at `back`. -/
theorem growthTest_ok (h : Represents a xs) (hroom : a.back < longs (storeCapacity a)) :
    ∃ b, growthTest mallocLongs taskCGrowth a = .ok b ∧ Represents b xs ∧ b.back = a.back ∧
      b.back < b.data.size ∧ b.capacity = storeCapacity a := by
  by_cases hfull : a.capacity ≤ arrayLength a
  · rw [storeCapacity, if_pos hfull] at hroom ⊢
    -- room behind `back` is more than the copy needs
    have hfit : Fits mallocLongs a (taskCGrowth a.capacity) := by
      refine .inr (.inr ?_)
      rw [size_mallocLongs]
      exact hroom.le
    obtain ⟨b, hb, hrep, -, hback, hcap⟩ := h.reserve hfit
    have hpos := h.capacity_pos
    have hgrown : b.capacity = taskCGrowth a.capacity := by
      rw [hcap, taskCGrowth]
      omega
    refine ⟨b, ?_, hrep, hback, ?_, hgrown⟩
    · rw [growthTest, if_pos hfull, hb]
    · rw [hback, hrep.size_eq, hgrown]
      exact hroom
  · rw [storeCapacity, if_neg hfull] at hroom ⊢
    exact ⟨a, if_neg hfull, h, rfl, hroom.trans_eq h.size_eq.symm, rfl⟩

/-- Inserting with room. -/
theorem insertBack (h : Represents a xs) (hroom : a.back < longs (storeCapacity a)) (stuff : Int) :
    ∃ a', arrayInsertBack mallocLongs a stuff = .ok a' ∧ Represents a' (xs ++ [stuff]) ∧
      a'.back = a.back + 1 ∧ a'.capacity = storeCapacity a := by
  obtain ⟨b, hb, hrep, hback, hin, hcap⟩ := h.growthTest_ok hroom
  obtain ⟨d, hd, hrep'⟩ := hrep.store hin stuff
  refine ⟨{ b with data := d, back := b.back + 1 }, ?_, hrep', congrArg (· + 1) hback, hcap⟩
  rw [arrayInsertBack, insertBackGrowing_eq stuff hb, bind_of_ok hd]

/-- Without room the copy loop or the store leaves the block. -/
theorem insertBack_fault (h : Represents a xs) (hroom : ¬ a.back < longs (storeCapacity a))
    (stuff : Int) : ∃ e, arrayInsertBack mallocLongs a stuff = .error e := by
  by_cases hfull : a.capacity ≤ arrayLength a
  · rw [storeCapacity, if_pos hfull, not_lt] at hroom
    by_cases hfit : Fits mallocLongs a (taskCGrowth a.capacity)
    · -- the new block has just the cells that are copied
      obtain ⟨b, hb, hrep, -, hback, hcap⟩ := h.reserve hfit
      have hpos := h.capacity_pos
      have hgrown : b.capacity = taskCGrowth a.capacity := by
        rw [hcap, taskCGrowth]
        omega
      have htest : growthTest mallocLongs taskCGrowth a = .ok b := by
        rw [growthTest, if_pos hfull, hb]
      have hwrite := Block.write_outOfBounds (b := b.data) (i := b.back) (some stuff)
        (by rw [hrep.size_eq, hgrown, hback]; omega)
      exact ⟨_, by rw [arrayInsertBack, insertBackGrowing_eq stuff htest, bind_of_error hwrite]⟩
    · -- the copy leaves the new block, whose size has wrapped
      have htest := arrayReserve_fault h.readable hfit
      exact ⟨_, insertBackGrowing_error stuff (by rw [growthTest, if_pos hfull, htest])⟩
  · -- no growth: the store is one past the old block
    rw [storeCapacity, if_neg hfull, not_lt, ← h.size_eq] at hroom
    have hwrite := Block.write_outOfBounds (b := a.data) (i := a.back) (some stuff) (by omega)
    have htest : growthTest mallocLongs taskCGrowth a = .ok a := if_neg hfull
    exact ⟨_, by rw [arrayInsertBack, insertBackGrowing_eq stuff htest, bind_of_error hwrite]⟩

end Represents

/-- The simulation of one operation. -/
theorem exec_represents {a : Array} {xs : List Int} (op : Op) (h : Represents a xs)
    (hop : PopsNonEmpty a op ∧ HasRoom a op) :
    ∃ a', exec a op = .ok a' ∧ Represents a' (deque xs op) := by
  obtain ⟨hpop, hroom⟩ := hop
  cases op with
  | insertBack stuff =>
    obtain ⟨a', ha', hrep, -, -⟩ := h.insertBack hroom stuff
    exact ⟨a', ha', hrep⟩
  | popFront => exact ⟨_, rfl, h.popFront (hpop (Or.inl rfl))⟩
  | popBack => exact ⟨_, rfl, h.popBack (hpop (Or.inr rfl))⟩
  | reserve capacity =>
    obtain ⟨a', ha', hrep, -, -, -⟩ := h.reserve hroom
    exact ⟨a', ha', hrep⟩

/-- An operation without room faults. -/
theorem exec_fault {a : Array} {xs : List Int} (op : Op) (h : Represents a xs)
    (hroom : ¬ HasRoom a op) : ∃ e, exec a op = .error e := by
  cases op with
  | insertBack stuff => exact h.insertBack_fault hroom stuff
  | popFront => exact absurd trivial hroom
  | popBack => exact absurd trivial hroom
  | reserve capacity => exact ⟨_, arrayReserve_fault h.readable hroom⟩

/-! ## Client runs -/

/-- A client whose operations all find room is served as by a deque. -/
theorem refinesDeque_of_hasRoom {a₀ : Array} (h₀ : Represents a₀ []) {ops : List Op}
    (hpops : arrayObject.Issued PopsNonEmpty a₀ ops)
    (hroom : arrayObject.Issued HasRoom a₀ ops) : RefinesDeque a₀ ops := by
  rintro pre post rfl
  obtain ⟨a, hrun, hrep⟩ := Object.run_refines (O := arrayObject)
    (fun _ _ op hR hop => exec_represents op hR hop) h₀ (hpops.and hroom).of_append
  exact ⟨a, hrun, hrep.inOrder, hrep.observes⟩

/-- A client that is served as by a deque never issues an operation without room. -/
theorem hasRoom_of_refinesDeque {a₀ : Array} (h₀ : Represents a₀ []) {ops : List Op}
    (hpops : arrayObject.Issued PopsNonEmpty a₀ ops) (h : RefinesDeque a₀ ops) :
    arrayObject.Issued HasRoom a₀ ops := by
  obtain ⟨a, hrun, -⟩ := h ops [] (List.append_nil ops).symm
  exact Object.issued_of_run_ok (O := arrayObject)
    (fun _ _ op hR hop => exec_represents op hR hop)
    (fun _ _ op hR _ hnot => exec_fault op hR hnot) h₀ hpops hrun

/-- From any positive initial capacity, and for every client that pops only non-empty arrays: the
array behaves as the deque after every operation if and only if every `array_insertBack` is issued
with `back` inside of the block that it stores to, and every `array_reserve` with a request that
fits its block. -/
theorem refinesDeque_iff (capacity : Int) (hc : 0 < capacity) :
    ∃ a₀, arrayNew mallocLongs capacity = .ok a₀ ∧
      ∀ ops, arrayObject.Issued PopsNonEmpty a₀ ops →
        (RefinesDeque a₀ ops ↔ arrayObject.Issued HasRoom a₀ ops) := by
  obtain ⟨a₀, hnew, hrep, -, -⟩ := represents_new hc
  refine ⟨a₀, hnew, fun ops hpops => ⟨hasRoom_of_refinesDeque hrep hpops, ?_⟩⟩
  exact refinesDeque_of_hasRoom hrep hpops

/-- With a cell more there is room for an insert after a pop: `front` is positive, and `back` is
below the capacity. -/
theorem insert_after_popFront_refines :
    ∃ a₀, arrayNew mallocLongs 2 = .ok a₀ ∧
      RefinesDeque a₀ [.insertBack 7, .popFront, .insertBack 8] := by
  obtain ⟨a₀, hnew, hiff⟩ := refinesDeque_iff 2 (by decide)
  obtain rfl : (⟨Block.malloc 2, 0, 0, 2⟩ : Array) = a₀ := Except.ok.inj hnew
  refine ⟨_, hnew, (hiff _ ?_).2 ?_⟩
  · refine Object.issued_cons.2 ⟨by simp [PopsNonEmpty], fun a ha => ?_⟩
    obtain rfl : (⟨⟨[some 7, none]⟩, 0, 1, 2⟩ : Array) = a := Except.ok.inj ha
    refine Object.issued_cons.2 ⟨fun _ => rfl, fun b hb => ?_⟩
    obtain rfl : (⟨⟨[some 7, none]⟩, 1, 1, 2⟩ : Array) = b := Except.ok.inj hb
    exact Object.issued_cons.2 ⟨by simp [PopsNonEmpty], fun _ _ => Object.issued_nil⟩
  · refine Object.issued_cons.2 ⟨by simp only [HasRoom]; decide, fun a ha => ?_⟩
    obtain rfl : (⟨⟨[some 7, none]⟩, 0, 1, 2⟩ : Array) = a := Except.ok.inj ha
    refine Object.issued_cons.2 ⟨trivial, fun b hb => ?_⟩
    obtain rfl : (⟨⟨[some 7, none]⟩, 1, 1, 2⟩ : Array) = b := Except.ok.inj hb
    exact Object.issued_cons.2 ⟨by simp only [HasRoom]; decide, fun _ _ => Object.issued_nil⟩

/-- One element through an array of capacity one, and one more: the second insert stores at index
`1` of a block of size `1`, though the array is empty. -/
theorem insert_after_popFront_outOfBounds :
    ∃ a₀, arrayNew mallocLongs 1 = .ok a₀ ∧
      arrayObject.Issued PopsNonEmpty a₀ [.insertBack 7, .popFront, .insertBack 8] ∧
      arrayObject.run a₀ [.insertBack 7, .popFront, .insertBack 8] =
        .error (.outOfBounds 1 1) ∧
      ¬ RefinesDeque a₀ [.insertBack 7, .popFront, .insertBack 8] := by
  have hfault : arrayObject.run ⟨Block.malloc 1, 0, 0, 1⟩
      [.insertBack 7, .popFront, .insertBack 8] = .error (.outOfBounds 1 1) := by rfl
  refine ⟨⟨Block.malloc 1, 0, 0, 1⟩, rfl, ?_, hfault, ?_⟩
  · refine Object.issued_cons.2 ⟨by simp [PopsNonEmpty], fun a ha => ?_⟩
    obtain rfl : (⟨⟨[some 7]⟩, 0, 1, 1⟩ : Array) = a := Except.ok.inj ha
    refine Object.issued_cons.2 ⟨fun _ => rfl, fun b hb => ?_⟩
    obtain rfl : (⟨⟨[some 7]⟩, 1, 1, 1⟩ : Array) = b := Except.ok.inj hb
    exact Object.issued_cons.2 ⟨by simp [PopsNonEmpty], fun _ _ => Object.issued_nil⟩
  · intro h
    obtain ⟨a, hrun, -⟩ := h _ [] (List.append_nil _).symm
    rw [hfault] at hrun
    simp at hrun

end Sanntid.DynamicArray
