import Sanntid.DynamicArray.Deque

/-!
# The array of `ex2/taskB/array.c`, which does not grow

`ex2/taskB` has the text of `ex2/taskC` except for the two functions that the exercise leaves open:
`array_reserve` has an empty body, and `array_insertBack` stores at `back` with no test. The other
functions are those of `Model`.

The cells in front of `front` are never used again, and only `array_popBack` moves `back` down: so
it is not the number of elements that the block bounds but the inserts less the pops at the back
(`backAfter`). `serves_iff` says that this is the whole condition, and that the first insert beyond
it is a store one past the block.
-/

set_option autoImplicit false

namespace Sanntid.DynamicArray.TaskB

open Sanntid.Control Sanntid.Memory Sanntid.Transition

/-! ## The two functions -/

/-- `array_reserve`, which does nothing. -/
def arrayReserve (a : Array) (_capacity : Int) : Array := a

/-- `array_insertBack`: no test and no growth. -/
def arrayInsertBack (a : Array) (stuff : Int) : Except Fault Array := do
  let data ← a.data.write a.back (some stuff)
  .ok { a with data := data, back := a.back + 1 }

/-- The operations of `ex2/taskB`. -/
def exec (a : Array) : Op → Except Fault Array
  | .insertBack stuff => arrayInsertBack a stuff
  | .popFront => .ok (arrayPopFront a)
  | .popBack => .ok (arrayPopBack a)
  | .reserve capacity => .ok (arrayReserve a capacity)

/-- The array as an object. -/
def object : Object Array Op Fault := ⟨exec⟩

/-- After every operation of the client the array has its fields in order and agrees with the
deque. -/
def Serves (a₀ : Array) (ops : List Op) : Prop :=
  ∀ pre post, ops = pre ++ post →
    ∃ a, object.run a₀ pre = .ok a ∧ InOrder a ∧ Observes a (pre.foldl deque [])

/-- The calling discipline: a pop is issued only when the deque is not empty. -/
def PopsInside (ops : List Op) : Prop :=
  ∀ pre op post, ops = pre ++ op :: post → op = .popFront ∨ op = .popBack →
    pre.foldl deque [] ≠ []

theorem PopsInside.of_append {ops ops' : List Op} (h : PopsInside (ops ++ ops')) :
    PopsInside ops := by
  rintro pre op post rfl hop
  exact h pre op (post ++ ops') (by simp) hop

/-- What an operation adds to `back`. -/
def backMove : Op → Int
  | .insertBack _ => 1
  | .popFront => 0
  | .popBack => -1
  | .reserve _ => 0

/-- The inserts less the pops at the back. -/
def backAfter (ops : List Op) : Int := (ops.map backMove).sum

theorem backAfter_append (ops ops' : List Op) :
    backAfter (ops ++ ops') = backAfter ops + backAfter ops' := by
  rw [backAfter, List.map_append, List.sum_append]
  rfl

@[simp] theorem backAfter_nil : backAfter [] = 0 := rfl

@[simp] theorem backAfter_singleton (op : Op) : backAfter [op] = backMove op := by
  simp [backAfter]

/-- Every prefix of the client leaves `back` inside a block of `size` cells, or at its end. -/
def BackWithin (size : Int) (ops : List Op) : Prop :=
  ∀ pre post, ops = pre ++ post → backAfter pre ≤ size

theorem BackWithin.of_append {size : Int} {ops ops' : List Op} (h : BackWithin size (ops ++ ops')) :
    BackWithin size ops := by
  rintro pre post rfl
  exact h pre (post ++ ops') (by simp)

/-! ## One operation -/

/-- A list and the index `back` beside it, as an array of the given capacity holds them. -/
structure Holds (capacity : Int) (a : Array) (state : List Int × Int) : Prop where
  rep : Represents a state.1
  back : a.back = state.2
  capacity_eq : a.capacity = capacity

/-- The abstract object with the index `back` beside the deque. -/
def dequeBack (state : List Int × Int) (op : Op) : List Int × Int :=
  (deque state.1 op, state.2 + backMove op)

theorem foldl_dequeBack (ops : List Op) (xs : List Int) (n : Int) :
    ops.foldl dequeBack (xs, n) = (ops.foldl deque xs, n + backAfter ops) := by
  induction ops generalizing xs n with
  | nil => simp
  | cons op ops ih =>
    have happ := backAfter_append [op] ops
    rw [List.singleton_append, backAfter_singleton] at happ
    rw [List.foldl_cons, List.foldl_cons, dequeBack, ih, happ, add_assoc]

/-- What an operation needs: an element to pop, or room for the element. -/
def Allowed (size : Int) (state : List Int × Int) (op : Op) : Prop :=
  (op = .popFront ∨ op = .popBack → state.1 ≠ []) ∧ state.2 + backMove op ≤ size

section OneOperation

variable {capacity : Int} {a : Array} {state : List Int × Int}

/-- The simulation of one operation. -/
theorem exec_holds {op : Op} (h : Holds capacity a state)
    (hop : Allowed (longs capacity) state op) :
    ∃ a', object.exec a op = .ok a' ∧ Holds capacity a' (dequeBack state op) := by
  obtain ⟨hrep, hback, hcap⟩ := h
  obtain ⟨hpop, hroom⟩ := hop
  cases op with
  | insertBack stuff =>
    -- `back` after the insert is within the block, so there is a cell at `back`
    have hlt : a.back < a.data.size := by
      rw [hrep.size_eq, hcap, hback]
      exact Int.lt_of_add_one_le hroom
    obtain ⟨d, hd, hrep'⟩ := hrep.store hlt stuff
    exact ⟨_, bind_of_ok hd, hrep', congrArg (· + 1) hback, hcap⟩
  | popFront =>
    have hne := hrep.not_empty (hpop (Or.inl rfl))
    refine ⟨_, rfl, hrep.popFront hne, ?_, hcap⟩
    rw [dequeBack, backMove, add_zero]
    exact hback
  | popBack =>
    have hne := hrep.not_empty (hpop (Or.inr rfl))
    exact ⟨_, rfl, hrep.popBack hne, congrArg (· - 1) hback, hcap⟩
  | reserve request =>
    -- the empty body of `array_reserve`
    refine ⟨_, rfl, hrep, ?_, hcap⟩
    rw [dequeBack, backMove, add_zero]
    exact hback

/-- An insert with `back` at the end of the block stores one past it, wherever the window starts. -/
theorem insertBack_full (h : Holds capacity a state) (hfull : state.2 = longs capacity)
    (stuff : Int) :
    arrayInsertBack a stuff = .error (.outOfBounds (longs capacity) (longs capacity)) := by
  have hsize : a.data.size = longs capacity := by rw [h.rep.size_eq, h.capacity_eq]
  have hback : a.back = longs capacity := h.back.trans hfull
  have hwrite := Block.write_outOfBounds (b := a.data) (i := a.back) (some stuff) (by omega)
  rw [arrayInsertBack, bind_of_error hwrite, hsize, hback]

end OneOperation

/-! ## Client runs -/

/-- A client that keeps the discipline and stays within the block issues allowed operations only. -/
theorem allowed_of_backWithin {size : Int} {ops : List Op} (hpops : PopsInside ops)
    (hwithin : BackWithin size ops) (pre : List Op) (op : Op) (post : List Op)
    (hops : ops = pre ++ op :: post) : Allowed size (pre.foldl dequeBack ([], 0)) op := by
  have hle := hwithin (pre ++ [op]) post (by simp [hops])
  rw [backAfter_append, backAfter_singleton] at hle
  rw [foldl_dequeBack, zero_add]
  exact ⟨hpops pre op post hops, hle⟩

section Runs

variable {capacity : Int} {a₀ : Array}

/-- The state after a client that stays within the block. -/
theorem run_holds (h₀ : Holds capacity a₀ ([], 0)) {ops : List Op} (hpops : PopsInside ops)
    (hwithin : BackWithin (longs capacity) ops) :
    ∃ a, object.run a₀ ops = .ok a ∧ Holds capacity a (ops.foldl deque [], backAfter ops) := by
  have hrun := Object.run_refines_of_history (O := object) (R := Holds capacity)
    (fun _ _ _ hR hG => exec_holds hR hG) h₀ (allowed_of_backWithin hpops hwithin)
  rwa [foldl_dequeBack, zero_add] at hrun

theorem serves_of_backWithin (h₀ : Holds capacity a₀ ([], 0)) {ops : List Op}
    (hpops : PopsInside ops) (hwithin : BackWithin (longs capacity) ops) : Serves a₀ ops := by
  rintro pre post rfl
  obtain ⟨a, hrun, hholds⟩ := run_holds h₀ hpops.of_append hwithin.of_append
  exact ⟨a, hrun, hholds.rep.inOrder, hholds.rep.observes⟩

/-- A client that leaves the block has a first insert that does, with `back` at the end of it. -/
theorem exists_first_beyond {size : Int} (hsize : 0 ≤ size) {ops : List Op}
    (h : ¬ BackWithin size ops) :
    ∃ pre stuff post, ops = pre ++ .insertBack stuff :: post ∧ BackWithin size pre ∧
      backAfter pre = size := by
  induction ops using List.reverseRecOn with
  | nil =>
    exfalso
    apply h
    intro pre post hops
    obtain ⟨rfl, -⟩ := List.append_eq_nil_iff.1 hops.symm
    exact hsize
  | append_singleton ops op ih =>
    by_cases hwithin : BackWithin size ops
    · -- the last operation is the one
      have hle : backAfter ops ≤ size := hwithin ops [] (by simp)
      have hgt : size < backAfter ops + backMove op := by
        by_contra hnot
        apply h
        intro pre post hops
        -- a prefix is all of the operations or one of those before the last
        rcases List.eq_nil_or_concat post with rfl | ⟨post', last, rfl⟩
        · rw [List.append_nil] at hops
          rw [← hops, backAfter_append, backAfter_singleton]
          omega
        · rw [List.concat_eq_append, ← List.append_assoc] at hops
          exact hwithin pre post' (List.append_inj' hops rfl).1
      cases op with
      | insertBack stuff =>
        rw [backMove] at hgt
        exact ⟨ops, stuff, [], rfl, hwithin, by omega⟩
      | popFront | popBack | reserve request =>
        -- only an insert moves `back` up
        rw [backMove] at hgt
        omega
    · obtain ⟨pre, stuff, post, rfl, hpre, hback⟩ := ih hwithin
      exact ⟨pre, stuff, post ++ [op], by simp, hpre, hback⟩

/-- The first insert that leaves the block ends the run. -/
theorem run_of_not_backWithin (h₀ : Holds capacity a₀ ([], 0)) {ops : List Op}
    (hpops : PopsInside ops) (h : ¬ BackWithin (longs capacity) ops) :
    object.run a₀ ops = .error (.outOfBounds (longs capacity) (longs capacity)) := by
  have hsize : 0 ≤ longs capacity := by
    rw [longs_eq]
    omega
  obtain ⟨pre, stuff, post, rfl, hwithin, hback⟩ := exists_first_beyond hsize h
  obtain ⟨a, hrun, hholds⟩ := run_holds h₀ hpops.of_append hwithin
  have hfault : object.exec a (.insertBack stuff) = _ := insertBack_full hholds hback stuff
  rw [Object.run_append, hrun]
  show (object.exec a (.insertBack stuff)).bind _ = _
  rw [hfault]
  rfl

end Runs

/-- From any positive capacity, and for every client that pops only a non-empty deque: the array
behaves as the deque after every operation if and only if the inserts never exceed the pops at the
back by more than the cells of the block. Otherwise the client ends in a store one past the
block. -/
theorem serves_iff {capacity : Int} (hc : 0 < capacity) {ops : List Op}
    (hpops : PopsInside ops) :
    ∃ a₀, arrayNew mallocLongs capacity = .ok a₀ ∧
      (Serves a₀ ops ↔ BackWithin (longs capacity) ops) ∧
      (¬ Serves a₀ ops →
        object.run a₀ ops = .error (.outOfBounds (longs capacity) (longs capacity))) := by
  obtain ⟨a₀, hnew, hrep, hcap, hback⟩ := represents_new hc
  have h₀ : Holds capacity a₀ ([], 0) := ⟨hrep, hback, hcap⟩
  have hiff : Serves a₀ ops ↔ BackWithin (longs capacity) ops := by
    refine ⟨fun hserves => ?_, serves_of_backWithin h₀ hpops⟩
    by_contra hbeyond
    obtain ⟨a, hrun, -⟩ := hserves ops [] (by simp)
    rw [run_of_not_backWithin h₀ hpops hbeyond] at hrun
    simp at hrun
  exact ⟨a₀, hnew, hiff, fun hnot => run_of_not_backWithin h₀ hpops (hiff.not.1 hnot)⟩

/-- The client of `ex2/taskB/main.c`: ten inserts into an array of capacity five. -/
def mainInserts : List Op := (List.range 10).map fun i => .insertBack i

theorem popsInside_mainInserts : PopsInside mainInserts := by
  intro pre op post hops hpop
  exfalso
  have hmem : op ∈ mainInserts := by simp [hops]
  obtain ⟨i, -, rfl⟩ := List.mem_map.1 hmem
  simp at hpop

/-- The sixth insert of `main` is one past the block. -/
theorem serves_iff_main :
    ∃ a₀, arrayNew mallocLongs 5 = .ok a₀ ∧ ¬ Serves a₀ mainInserts ∧
      object.run a₀ mainInserts = .error (.outOfBounds 5 5) := by
  obtain ⟨a₀, hnew, hiff, hfault⟩ := serves_iff (by decide : (0 : Int) < 5)
    popsInside_mainInserts
  have hnot : ¬ Serves a₀ mainInserts := by
    intro hserves
    have hle := hiff.1 hserves mainInserts [] (by simp)
    revert hle
    decide
  exact ⟨a₀, hnew, hnot, hfault hnot⟩

end Sanntid.DynamicArray.TaskB
