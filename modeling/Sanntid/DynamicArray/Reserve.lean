import Sanntid.DynamicArray.Iteration

/-!
# Reserving, seen from outside

`array_reserve` of `ex2/taskC/array.c` and `ex2/taskD/array.c` moves the window of an array into a
larger block. Whoever looks at an array through `array_empty`, `array_length`, `array_front`,
`array_back` or a traversal reads cells of its window only, so two arrays with the same window
(`SameWindow`) give the same results (`SameWindow.results`).

The block is as large as the argument of `malloc` says, which is taken modulo `2 ^ 64`
(`mallocLongs`). From requests of `2 ^ 61` on the copy loop may leave the block (`copyLoop_fault`),
and `arrayReserve_invisible_iff` says for which windows it does.
-/

set_option autoImplicit false

namespace Sanntid.DynamicArray

open Sanntid.Arith Sanntid.Control Sanntid.Memory

/-! ## Arrays with the same window -/

/-- The ends of the windows are equal, and a read inside them succeeds in both blocks, with the same
value. -/
structure SameWindow (a b : Array) : Prop where
  front : b.front = a.front
  back : b.back = a.back
  read : ∀ i, a.front ≤ i → i < a.back → ∃ x, a.data.read i = .ok x ∧ b.data.read i = .ok x

theorem read_of_mem_window {a : Array} (h : Valid a) {i : Int} (hi : a.front ≤ i)
    (hib : i < a.back) : a.data.read i = .ok (a.data.cell i) := by
  obtain ⟨hfront, -, hback, hsize⟩ := h
  apply Block.read_of_inBounds
  omega

namespace SameWindow

variable {a b : Array}

theorem refl (h : Valid a) : SameWindow a a where
  front := rfl
  back := rfl
  read := by
    intro i hi hib
    have hread := read_of_mem_window h hi hib
    exact ⟨a.data.cell i, hread, hread⟩

theorem arrayEmpty_eq (h : SameWindow a b) : arrayEmpty b = arrayEmpty a := by
  rw [arrayEmpty, arrayEmpty, h.front, h.back]

theorem arrayLength_eq (h : SameWindow a b) : arrayLength b = arrayLength a := by
  rw [arrayLength, arrayLength, h.front, h.back]

theorem arrayFront_eq (h : SameWindow a b) (hne : arrayEmpty a = false) :
    ∃ x, arrayFront a = .ok x ∧ arrayFront b = .ok x := by
  obtain ⟨x, ha, hb⟩ := h.read a.front le_rfl (arrayEmpty_eq_false.1 hne)
  refine ⟨x, ha, ?_⟩
  rw [arrayFront, h.front, hb]

theorem arrayBack_eq (h : SameWindow a b) (hne : arrayEmpty a = false) :
    ∃ x, arrayBack a = .ok x ∧ arrayBack b = .ok x := by
  have hlt := arrayEmpty_eq_false.1 hne
  obtain ⟨x, ha, hb⟩ := h.read (a.back - 1) (by omega) (by omega)
  refine ⟨x, ha, ?_⟩
  rw [arrayBack, h.back, hb]

theorem popFront (h : SameWindow a b) : SameWindow (arrayPopFront a) (arrayPopFront b) where
  front := congrArg (· + 1) h.front
  back := h.back
  read := by
    intro i hi hib
    simp only [arrayPopFront] at hi
    exact h.read i (by omega) hib

theorem popBack (h : SameWindow a b) : SameWindow (arrayPopBack a) (arrayPopBack b) where
  front := h.front
  back := congrArg (· - 1) h.back
  read := by
    intro i hi hib
    simp only [arrayPopBack] at hib
    exact h.read i hi (by omega)

end SameWindow

/-- What a traversal reads and leaves depends on the window only. -/
structure Traversal.Respects (T : Traversal) : Prop where
  read : ∀ {a b : Array}, SameWindow a b → arrayEmpty a = false →
    ∃ x, T.read a = .ok x ∧ T.read b = .ok x
  pop : ∀ {a b : Array}, SameWindow a b → SameWindow (T.pop a) (T.pop b)

theorem forward_respects : forward.Respects where
  read := SameWindow.arrayFront_eq
  pop := SameWindow.popFront

theorem backward_respects : backward.Respects where
  read := SameWindow.arrayBack_eq
  pop := SameWindow.popBack

namespace Machine

variable {σ : Type}

/-- Two loops over the same window, in lockstep: both end, with the same world. -/
theorem loop_sameWindow {T : Traversal} (hT : T.Respects) (fn : σ → Option Int → σ) {p q : Nat}
    (m n : Machine σ) (h : SameWindow (m.vars p) (n.vars q)) (hworld : n.world = m.world) :
    ∃ m' n', loop T fn p m = .ok m' ∧ loop T fn q n = .ok n' ∧ n'.world = m'.world := by
  induction m using loop.induct T fn p generalizing n with
  | case1 m hempty =>
    refine ⟨m, n, ?_, ?_, hworld⟩
    · rw [loop, dif_pos hempty]
    · rw [loop, dif_pos (h.arrayEmpty_eq.trans hempty)]
  | case2 m hne ih =>
    have hne' : ¬ arrayEmpty (n.vars q) = true := by
      rw [h.arrayEmpty_eq]
      exact hne
    obtain ⟨x, hm, hn⟩ := hT.read h (Bool.eq_false_iff.2 hne)
    have hpop : SameWindow (((m.act fun s => fn s x).modify p T.pop).vars p)
        (((n.act fun s => fn s x).modify q T.pop).vars q) := by
      simp only [modify, act, Function.update_self]
      exact hT.pop h
    obtain ⟨m', n', hm', hn', hend⟩ := ih x _ hpop (congrArg (fn · x) hworld)
    refine ⟨m', n', ?_, ?_, hend⟩
    · rw [loop, dif_neg hne, bind_of_ok hm, hm']
    · rw [loop, dif_neg hne', bind_of_ok hn, hn']

theorem traverse_sameWindow {T : Traversal} (hT : T.Respects) {a b : Array} (h : SameWindow a b)
    (fn : σ → Option Int → σ) (m : Machine σ) :
    ∃ m' n', traverse T a fn m = .ok m' ∧ traverse T b fn m = .ok n' ∧ n'.world = m'.world := by
  have hwindow : SameWindow ((m.enter a).vars (m.top + 1)) ((m.enter b).vars (m.top + 1)) := by
    rw [vars_enter, vars_enter]
    exact h
  obtain ⟨m', n', hm, hn, hend⟩ := loop_sameWindow hT fn (m.enter a) (m.enter b) hwindow rfl
  exact ⟨m'.pop.pop, n'.pop.pop, traverse_of_loop hm, traverse_of_loop hn, hend⟩

end Machine

/-- Both arrays give the same results; the traversals come to an end, and leave the world in the
same state whatever `fn` does to it. -/
structure SameResults (a b : Array) : Prop where
  empty : arrayEmpty b = arrayEmpty a
  length : arrayLength b = arrayLength a
  front : arrayEmpty a = false → ∃ x, arrayFront a = .ok x ∧ arrayFront b = .ok x
  back : arrayEmpty a = false → ∃ x, arrayBack a = .ok x ∧ arrayBack b = .ok x
  foreach : ∀ (σ : Type) (fn : σ → Option Int → σ) (m : Machine σ), ∃ m' n',
    m.arrayForeach a fn = .ok m' ∧ m.arrayForeach b fn = .ok n' ∧ n'.world = m'.world
  foreachReverse : ∀ (σ : Type) (fn : σ → Option Int → σ) (m : Machine σ), ∃ m' n',
    m.arrayForeachReverse a fn = .ok m' ∧ m.arrayForeachReverse b fn = .ok n' ∧
      n'.world = m'.world

theorem SameWindow.results {a b : Array} (h : SameWindow a b) : SameResults a b where
  empty := h.arrayEmpty_eq
  length := h.arrayLength_eq
  front := h.arrayFront_eq
  back := h.arrayBack_eq
  foreach := fun _ fn m => m.traverse_sameWindow forward_respects h fn
  foreachReverse := fun _ fn m => m.traverse_sameWindow backward_respects h fn

/-! ## Moving the window -/

/-- A request that fits moves the window into the new block. -/
theorem arrayReserve_sameWindow {a : Array} (h : Valid a) {capacity : Int}
    (hfit : Fits mallocLongs a capacity) :
    ∃ a', arrayReserve mallocLongs a capacity = .ok a' ∧ SameWindow a a' ∧
      a'.capacity = max a.capacity capacity := by
  obtain ⟨a', ha', hfront, hback, hcap, hcells, hsize⟩ := arrayReserve_of_fits h.readable hfit
  refine ⟨a', ha', ⟨hfront, hback, fun i hi hib => ⟨a.data.cell i, ?_, ?_⟩⟩, hcap⟩
  · exact read_of_mem_window h hi hib
  · have hin : i < a'.data.size := by
      rw [hsize]
      split
      next => exact hib.trans_le (h.back_le_capacity.trans h.size_eq.ge)
      next hlarge =>
        -- the window is not empty, so the request fits the new block
        have hne : ¬ arrayEmpty a = true := by
          rw [arrayEmpty_iff]
          omega
        exact hib.trans_le ((hfit.resolve_left hlarge).resolve_left hne)
    rw [← hcells i hi hib]
    exact Block.read_of_inBounds ⟨h.front_nonneg.trans hi, hin⟩

theorem fits_iff {a : Array} {capacity : Int} :
    Fits mallocLongs a capacity ↔ capacity ≤ a.capacity ∨ arrayEmpty a = true ∨
      a.back ≤ capacity % 2305843009213693952 := by
  rw [Fits, size_mallocLongs, longs_eq]

/-- What an array looks like after `array_reserve`: the window and every result are as before, the
capacity is the larger of the old one and the request, and a request that is not larger changes
nothing any more. -/
structure Invisible (request : Int) (a a' : Array) : Prop where
  window : SameWindow a a'
  capacity : a'.capacity = max a.capacity request
  results : SameResults a a'
  again : ∀ c, c ≤ request → arrayReserve mallocLongs a' c = .ok a'

/-- `array_reserve` stays inside both blocks and cannot be noticed, if and only if it has nothing to
do, or there is nothing to copy, or the window ends below the number of cells that are left of the
request modulo `2 ^ 61`. -/
theorem arrayReserve_invisible_iff {a : Array} (h : Valid a) (capacity : Int) :
    (∃ a', arrayReserve mallocLongs a capacity = .ok a' ∧ Invisible capacity a a') ↔
      capacity ≤ a.capacity ∨ arrayEmpty a = true ∨
        a.back ≤ capacity % 2305843009213693952 := by
  rw [← fits_iff]
  constructor
  · rintro ⟨a', hok, -⟩
    by_contra hnot
    rw [arrayReserve_fault h.readable hnot] at hok
    exact nomatch hok
  · intro hfit
    obtain ⟨a', hok, hwindow, hcap⟩ := arrayReserve_sameWindow h hfit
    refine ⟨a', hok, hwindow, hcap, hwindow.results, fun c hc => ?_⟩
    rw [arrayReserve, if_pos (by omega)]

/-- The middle of a block of four cells, moved into one of six. -/
theorem reserve_six_invisible :
    ∃ a', arrayReserve mallocLongs ⟨⟨[none, some 5, some 6, none]⟩, 1, 3, 4⟩ 6 = .ok a' ∧
      Invisible 6 ⟨⟨[none, some 5, some 6, none]⟩, 1, 3, 4⟩ a' :=
  (arrayReserve_invisible_iff (by decide) 6).2 (by decide)

/-- Two elements and a request for `2 ^ 61 + 1` cells: `malloc` is asked for 8 bytes, and the second
element is stored behind them. -/
theorem reserve_wraps :
    InLong 2305843009213693953 ∧ Valid ⟨⟨[some 5, some 6]⟩, 0, 2, 2⟩ ∧
      arrayReserve mallocLongs ⟨⟨[some 5, some 6]⟩, 0, 2, 2⟩ 2305843009213693953 =
        .error (.outOfBounds 1 1) ∧
      ¬ ∃ a', arrayReserve mallocLongs ⟨⟨[some 5, some 6]⟩, 0, 2, 2⟩ 2305843009213693953 = .ok a' ∧
        Invisible 2305843009213693953 ⟨⟨[some 5, some 6]⟩, 0, 2, 2⟩ a' := by
  have hvalid : Valid ⟨⟨[some 5, some 6]⟩, 0, 2, 2⟩ := by decide
  have hfit : ¬ Fits mallocLongs ⟨⟨[some 5, some 6]⟩, 0, 2, 2⟩ 2305843009213693953 := by
    rw [fits_iff]
    decide
  have hfault := arrayReserve_fault hvalid.readable hfit
  rw [size_mallocLongs, longs_eq] at hfault
  refine ⟨by decide, hvalid, hfault, ?_⟩
  rintro ⟨a', hok, -⟩
  rw [hfault] at hok
  exact nomatch hok

end Sanntid.DynamicArray
