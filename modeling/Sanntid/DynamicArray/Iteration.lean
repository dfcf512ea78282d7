import Sanntid.DynamicArray.Model

/-!
# Iteration and printing

`array_foreach`, `array_foreachReverse` and `array_print` of `ex2/taskC/array.c` take the array by
value, copy it again into their loop variable, and move the ends of the copies through pointers. The
`Machine` of this file has the variables of type `Array` by address, so that a parameter, a loop
variable and the variables of the caller are different places.

`Defined a xs` says that the window of `a` lies in the block and holds `xs`; the ends may be
anywhere and the window may be empty or negative. `iteration_faithful` says what the three functions
do with such an array, and that they leave every variable of the caller as it is.
-/

set_option autoImplicit false

namespace Sanntid.DynamicArray

open Sanntid.Control Sanntid.Memory

/-! ## The machine -/

/-- The variables of type `Array` by address, of which those from `top` on are free, and the state
of the world that the functions act on. -/
structure Machine (σ : Type) where
  vars : Nat → Array
  top : Nat
  world : σ

namespace Machine

variable {σ : Type}

/-- A parameter or a local variable with its initial value. -/
def push (m : Machine σ) (a : Array) : Machine σ :=
  { m with vars := Function.update m.vars m.top a, top := m.top + 1 }

/-- The end of a function or of a `for` statement with a variable. -/
def pop (m : Machine σ) : Machine σ := { m with top := m.top - 1 }

/-- A call through a pointer to the variable at `p`. -/
def modify (m : Machine σ) (p : Nat) (f : Array → Array) : Machine σ :=
  { m with vars := Function.update m.vars p (f (m.vars p)) }

/-- A call-back, which sees nothing of the arrays. -/
def act (m : Machine σ) (f : σ → σ) : Machine σ := { m with world := f m.world }

/-- After a call with `a`: the variables of the caller are as they were, and so is the block behind
`data`, which the copies of `a` share with it. -/
structure Kept (a : Array) (m m' : Machine σ) : Prop where
  top : m'.top = m.top
  vars : ∀ p, p < m.top → m'.vars p = m.vars p
  data : ∀ p, m'.vars p = m.vars p ∨ (m'.vars p).data = a.data

end Machine

/-! ## The functions -/

/-- How a loop goes through an array: what it reads, and the end it moves. -/
structure Traversal where
  read : Array → Except Fault (Option Int)
  pop : Array → Array
  length_pop : ∀ a, arrayLength (pop a) = arrayLength a - 1
  data_pop : ∀ a, (pop a).data = a.data

theorem arrayLength_popFront (a : Array) : arrayLength (arrayPopFront a) = arrayLength a - 1 :=
  sub_add_eq_sub_sub _ _ _

theorem arrayLength_popBack (a : Array) : arrayLength (arrayPopBack a) = arrayLength a - 1 :=
  sub_right_comm _ _ _

/-- `array_foreach`. -/
def forward : Traversal where
  read := arrayFront
  pop := arrayPopFront
  length_pop := arrayLength_popFront
  data_pop := fun _ => rfl

/-- `array_foreachReverse`. -/
def backward : Traversal where
  read := arrayBack
  pop := arrayPopBack
  length_pop := arrayLength_popBack
  data_pop := fun _ => rfl

namespace Machine

variable {σ : Type}

/-- The loop of `array_foreach` and `array_foreachReverse`, with its variable at `p`. -/
def loop (T : Traversal) (fn : σ → Option Int → σ) (p : Nat) (m : Machine σ) :
    Except Fault (Machine σ) :=
  if _h : arrayEmpty (m.vars p) then .ok m
  else do
    let x ← T.read (m.vars p)
    loop T fn p ((m.act fun s => fn s x).modify p T.pop)
termination_by (arrayLength (m.vars p)).toNat
decreasing_by
  have hlt := arrayEmpty_eq_false.1 (Bool.not_eq_true _ ▸ _h)
  have hpop := T.length_pop (m.vars p)
  simp only [modify, act, Function.update_self]
  simp only [arrayLength] at *
  omega

/-- A loop over a copy of the parameter `a`. -/
def traverse (T : Traversal) (a : Array) (fn : σ → Option Int → σ) (m : Machine σ) :
    Except Fault (Machine σ) := do
  let m := m.push a
  let m := m.push (arraySave (m.vars (m.top - 1)))
  let m ← loop T fn (m.top - 1) m
  .ok m.pop.pop

/-- From the front to the back of a copy. -/
def arrayForeach (a : Array) (fn : σ → Option Int → σ) (m : Machine σ) :
    Except Fault (Machine σ) :=
  traverse forward a fn m

/-- From the back to the front of a copy. -/
def arrayForeachReverse (a : Array) (fn : σ → Option Int → σ) (m : Machine σ) :
    Except Fault (Machine σ) :=
  traverse backward a fn m

/-- `printf` of a text. The output is lost once an indeterminate value has been printed. -/
def printfText (text : String) (out : Option String) : Option String := out.map (· ++ text)

/-- `printf` of a text and a `%ld`. -/
def printfLong (text : String) (out : Option String) (i : Option Int) : Option String := do
  let out ← out
  let i ← i
  some (out ++ text ++ toString i)

/-- The call-back of `array_print`. -/
def arrayPrintSingleLongHelper (out : Option String) (i : Option Int) : Option String :=
  printfLong ", " out i

/-- The `if` statement of `array_print`, with the parameter at `p`. -/
def printFirst (p : Nat) (m : Machine (Option String)) :
    Except Fault (Machine (Option String)) :=
  if arrayEmpty (m.vars p) then .ok m
  else do
    let x ← arrayFront (m.vars p)
    .ok ((m.act fun out => printfLong "" out x).modify p arrayPopFront)

/-- The first element is printed alone, the others each behind a comma. -/
def arrayPrint (a : Array) (m : Machine (Option String)) :
    Except Fault (Machine (Option String)) := do
  let m := (m.push a).act (printfText "Array:\x7b")
  let m ← printFirst (m.top - 1) m
  let m ← arrayForeach (m.vars (m.top - 1)) arrayPrintSingleLongHelper m
  .ok (m.act (printfText "\x7d\n")).pop

end Machine

/-! ## Windows of any kind -/

/-- The window of the array lies in its block and holds `xs`. -/
structure Defined (a : Array) (xs : List Int) : Prop where
  inBlock : ∀ i, a.front ≤ i → i < a.back → 0 ≤ i ∧ i < a.data.size
  contents_eq : contents a = xs.map some

/-- An array that has been popped too often holds nothing. -/
theorem defined_nil {a : Array} (h : a.back ≤ a.front) : Defined a [] where
  inBlock := fun _ hi hib => absurd (hi.trans_lt hib) (not_lt.2 h)
  contents_eq := a.data.window_empty h

theorem Defined.empty_iff {a : Array} {xs : List Int} (h : Defined a xs) :
    arrayEmpty a = true ↔ xs = [] := by
  rw [← contents_eq_nil_iff, h.contents_eq, List.map_eq_nil_iff]

/-- The ends of a window that is not empty. -/
theorem Defined.ends {a : Array} {xs : List Int} (h : Defined a xs) (hne : xs ≠ []) :
    a.front < a.back ∧ 0 ≤ a.front ∧ a.back ≤ a.data.size := by
  have hlt : a.front < a.back := by
    rw [← arrayEmpty_eq_false, Bool.eq_false_iff, Ne, h.empty_iff]
    exact hne
  have hfirst := h.inBlock a.front le_rfl hlt
  have hlast := h.inBlock (a.back - 1) (by omega) (by omega)
  omega

/-- `array_front` returns the first element, and `array_popFront` leaves the others. -/
theorem Defined.first {a : Array} {x : Int} {xs : List Int} (h : Defined a (x :: xs)) :
    arrayFront a = .ok (some x) ∧ Defined (arrayPopFront a) xs := by
  obtain ⟨hlt, hfront, hback⟩ := h.ends (by simp)
  obtain ⟨y, hread, hcons⟩ := Block.read_first hfront hlt hback
  rw [← contents, h.contents_eq, List.map_cons, List.cons.injEq] at hcons
  refine ⟨hread.trans (by rw [← hcons.1]), fun i hi hib => h.inBlock i ?_ hib, hcons.2.symm⟩
  simp only [arrayPopFront] at hi
  omega

/-- `array_back` returns the last element, and `array_popBack` leaves the others. -/
theorem Defined.last {a : Array} {xs : List Int} {x : Int} (h : Defined a (xs ++ [x])) :
    arrayBack a = .ok (some x) ∧ Defined (arrayPopBack a) xs := by
  obtain ⟨hlt, hfront, hback⟩ := h.ends (by simp)
  obtain ⟨y, hread, hsnoc⟩ := Block.read_last hfront hlt hback
  rw [← contents, h.contents_eq, List.map_append, List.map_singleton] at hsnoc
  obtain ⟨hinit, hlast⟩ := List.append_inj' hsnoc rfl
  simp only [List.cons.injEq, and_true] at hlast
  refine ⟨hread.trans (by rw [← hlast]), fun i hi hib => h.inBlock i hi ?_, hinit.symm⟩
  simp only [arrayPopBack] at hib
  omega

/-- A traversal reads the elements in the order that `order` puts them in. -/
structure Traversal.Follows (T : Traversal) (order : List Int → List Int) : Prop where
  nil : order [] = []
  cons : ∀ {a : Array} {xs : List Int}, Defined a xs → xs ≠ [] →
    ∃ x rest, T.read a = .ok (some x) ∧ Defined (T.pop a) rest ∧ order xs = x :: order rest

theorem forward_follows : forward.Follows id where
  nil := rfl
  cons := by
    intro a xs h hne
    obtain ⟨x, rest, rfl⟩ := List.exists_cons_of_ne_nil hne
    exact ⟨x, rest, h.first.1, h.first.2, rfl⟩

theorem backward_follows : backward.Follows List.reverse where
  nil := rfl
  cons := by
    intro a xs h hne
    obtain ⟨rest, x, rfl⟩ := (List.eq_nil_or_concat xs).resolve_left hne
    rw [List.concat_eq_append] at h
    exact ⟨x, rest, h.last.1, h.last.2, by simp⟩

/-! ## Loops, calls and printing -/

namespace Machine

variable {σ : Type}

/-- The loop hands the elements to `fn` one by one, and changes no variable but its own. -/
theorem loop_spec {T : Traversal} {order : List Int → List Int} (hT : T.Follows order)
    (fn : σ → Option Int → σ) (p : Nat) (m : Machine σ) {xs : List Int}
    (h : Defined (m.vars p) xs) :
    ∃ m', loop T fn p m = .ok m' ∧ m'.world = ((order xs).map some).foldl fn m.world ∧
      m'.top = m.top ∧ (m'.vars p).data = (m.vars p).data ∧
      ∀ q, q ≠ p → m'.vars q = m.vars q := by
  induction m using loop.induct T fn p generalizing xs with
  | case1 m hempty =>
    obtain rfl := h.empty_iff.1 hempty
    rw [loop, dif_pos hempty]
    exact ⟨m, rfl, by rw [hT.nil]; rfl, rfl, rfl, fun _ _ => rfl⟩
  | case2 m hne ih =>
    -- one round: the element goes to `fn` and out of the loop variable
    have hxs : xs ≠ [] := fun hnil => hne (h.empty_iff.2 hnil)
    obtain ⟨x, rest, hread, hrest, horder⟩ := hT.cons h hxs
    have hdef : Defined (((m.act fun s => fn s (some x)).modify p T.pop).vars p) rest := by
      simpa [modify, act] using hrest
    obtain ⟨m', hloop, hworld, htop, hdata, hvars⟩ := ih (some x) hdef
    refine ⟨m', ?_, ?_, htop, ?_, fun q hq => ?_⟩
    · rw [loop, dif_neg hne, bind_of_ok hread, hloop]
    · rw [hworld, horder]
      rfl
    · rw [hdata]
      simp only [modify, act, Function.update_self, T.data_pop]
    · rw [hvars q hq]
      exact Function.update_of_ne hq _ _

/-- What the forward loop does to the world is the loop of `array_foreach` on the value of its
variable, faults included. -/
theorem loop_forward_world (fn : σ → Option Int → σ) (p : Nat) (m : Machine σ) :
    (loop forward fn p m).map world = foreachLoop fn (m.vars p) m.world := by
  induction m using loop.induct forward fn p with
  | case1 m hempty =>
    rw [loop, dif_pos hempty, foreachLoop, dif_pos hempty]
    rfl
  | case2 m hne ih =>
    rw [loop, dif_neg hne, foreachLoop, dif_neg hne]
    show ((arrayFront (m.vars p)).bind _).map _ = (arrayFront (m.vars p)).bind _
    cases hread : arrayFront (m.vars p) with
    | error e => rfl
    | ok x =>
      have hnext := ih x
      simp only [modify, act, forward, Function.update_self] at hnext
      exact hnext

/-- A call with `a` up to its loop: the parameter is at `m.top`, the loop variable one above. -/
def enter (m : Machine σ) (a : Array) : Machine σ :=
  (m.push a).push (arraySave ((m.push a).vars m.top))

@[simp] theorem vars_enter (m : Machine σ) (a : Array) : (m.enter a).vars (m.top + 1) = a := by
  simp [enter, push, arraySave]

theorem traverse_of_loop {T : Traversal} {a : Array} {fn : σ → Option Int → σ}
    {m m' : Machine σ} (h : loop T fn (m.top + 1) (m.enter a) = .ok m') :
    traverse T a fn m = .ok m'.pop.pop :=
  bind_of_ok h

/-- A call leaves the variables of the caller and its block alone. -/
theorem traverse_spec {T : Traversal} {order : List Int → List Int} (hT : T.Follows order)
    {a : Array} {xs : List Int} (h : Defined a xs) (fn : σ → Option Int → σ) (m : Machine σ) :
    ∃ m', traverse T a fn m = .ok m' ∧
      m'.world = ((order xs).map some).foldl fn m.world ∧ Kept a m m' := by
  obtain ⟨m', hloop, hworld, htop, hdata, hvars⟩ :=
    loop_spec hT fn (m.top + 1) (m.enter a) ((m.vars_enter a).symm ▸ h)
  -- the loop changes its own variable, which is above the parameter
  have hparam : m'.vars m.top = a := by
    rw [hvars m.top (by omega)]
    simp [enter, push]
  have hother : ∀ p, p ≠ m.top + 1 → p ≠ m.top → m'.vars p = m.vars p := by
    intro p hp1 hp0
    rw [hvars p hp1]
    simp [enter, push, hp1, hp0]
  refine ⟨m'.pop.pop, traverse_of_loop hloop, hworld, ⟨?_, fun p hp => ?_, fun p => ?_⟩⟩
  · simp [pop, htop, enter, push]
  · exact hother p (by omega) (by omega)
  · -- the two variables of the call are what is left above the top
    show m'.vars p = m.vars p ∨ (m'.vars p).data = a.data
    rcases eq_or_ne p (m.top + 1) with rfl | hp1
    · exact Or.inr (hdata.trans (congrArg Array.data (m.vars_enter a)))
    · rcases eq_or_ne p m.top with rfl | hp0
      · exact Or.inr (congrArg Array.data hparam)
      · exact Or.inl (hother p hp1 hp0)

/-- The output of `array_print`. -/
def printed (xs : List Int) : String :=
  "Array:\x7b" ++ ", ".intercalate (xs.map toString) ++ "\x7d\n"

/-- The helper prints every element after a separator. -/
theorem foldl_helper (out : String) (x : Int) (xs : List Int) :
    (xs.map some).foldl arrayPrintSingleLongHelper (some (out ++ toString x)) =
      some (out ++ ", ".intercalate ((x :: xs).map toString)) := by
  induction xs generalizing out x with
  | nil => simp
  | cons y ys ih =>
    have hstep : arrayPrintSingleLongHelper (some (out ++ toString x)) (some y) =
        some ((out ++ toString x ++ ", ") ++ toString y) := rfl
    rw [List.map_cons, List.foldl_cons, hstep, ih]
    simp [String.append_assoc]

/-- The first element is printed without a separator, and the loop prints the rest. -/
theorem printFirst_spec {p : Nat} {m : Machine (Option String)} {xs : List Int}
    (h : Defined (m.vars p) xs) {out : String} (hout : m.world = some out) :
    ∃ m' rest, printFirst p m = .ok m' ∧ Defined (m'.vars p) rest ∧
      (rest.map some).foldl arrayPrintSingleLongHelper m'.world =
        some (out ++ ", ".intercalate (xs.map toString)) ∧
      m'.top = m.top ∧ (m'.vars p).data = (m.vars p).data ∧
      ∀ q, q ≠ p → m'.vars q = m.vars q := by
  cases xs with
  | nil =>
    refine ⟨m, [], ?_, h, by simp [hout], rfl, rfl, fun _ _ => rfl⟩
    rw [printFirst, if_pos (h.empty_iff.2 rfl)]
  | cons x xs =>
    have hne : ¬ arrayEmpty (m.vars p) = true := fun he => by simpa using h.empty_iff.1 he
    refine ⟨(m.act fun out => printfLong "" out (some x)).modify p arrayPopFront, xs, ?_, ?_, ?_,
      rfl, ?_, fun q hq => Function.update_of_ne hq _ _⟩
    · rw [printFirst, if_neg hne, bind_of_ok h.first.1]
    · simpa [modify, act] using h.first.2
    · rw [← foldl_helper]
      simp [modify, act, printfLong, hout]
    · simp [modify, act, arrayPopFront]

theorem arrayPrint_spec {a : Array} {xs : List Int} (h : Defined a xs)
    (m : Machine (Option String)) {out : String} (hout : m.world = some out) :
    ∃ m', arrayPrint a m = .ok m' ∧ m'.world = some (out ++ printed xs) ∧ Kept a m m' := by
  have hparam : Defined (((m.push a).act (printfText "Array:\x7b")).vars m.top) xs := by
    simpa [push, act] using h
  have hworld : ((m.push a).act (printfText "Array:\x7b")).world = some (out ++ "Array:\x7b") := by
    simp [push, act, printfText, hout]
  -- the first element by hand, and the rest by a call of `array_foreach`
  obtain ⟨m₁, rest, hfirst, hrest, hfold, htop₁, hdata₁, hvars₁⟩ := printFirst_spec hparam hworld
  obtain ⟨m₂, hloop, hworld₂, hkept⟩ :=
    traverse_spec forward_follows hrest arrayPrintSingleLongHelper m₁
  have htop : m₁.top = m.top + 1 := htop₁
  have hdata : (m₁.vars m.top).data = a.data := by
    rw [hdata₁]
    simp [push, act]
  have hother : ∀ p, p ≠ m.top → m₁.vars p = m.vars p := by
    intro p hp
    rw [hvars₁ p hp]
    exact Function.update_of_ne hp _ _
  refine ⟨(m₂.act (printfText "\x7d\n")).pop, ?_, ?_, ⟨?_, fun p hp => ?_, fun p => ?_⟩⟩
  · have hcall : arrayForeach (m₁.vars (m₁.top - 1)) arrayPrintSingleLongHelper m₁ = .ok m₂ := by
      rw [htop, Nat.add_sub_cancel, arrayForeach, hloop]
    exact (bind_of_ok hfirst).trans (bind_of_ok hcall)
  · show printfText "\x7d\n" m₂.world = _
    rw [hworld₂, id, hfold]
    simp [printfText, printed, String.append_assoc]
  · show m₂.top - 1 = m.top
    rw [hkept.top, htop, Nat.add_sub_cancel]
  · show m₂.vars p = m.vars p
    rw [hkept.vars p (by omega), hother p hp.ne]
  · show m₂.vars p = m.vars p ∨ (m₂.vars p).data = a.data
    rcases eq_or_ne p m.top with rfl | hp
    · rw [hkept.vars m.top (by omega)]
      exact Or.inr hdata
    · exact (hkept.data p).imp (fun h => h.trans (hother p hp)) fun h => h.trans hdata

end Machine

/-- For an array whose window holds `xs`, wherever its ends are: `array_foreach` calls `fn` on the
elements in order, `array_foreachReverse` in reverse order, `array_print` writes them, and none of
them changes a variable of the caller. -/
theorem iteration_faithful {a : Array} {xs : List Int} (h : Defined a xs) :
    (∀ (σ : Type) (fn : σ → Option Int → σ) (m : Machine σ),
        (∃ m', m.arrayForeach a fn = .ok m' ∧ m'.world = (xs.map some).foldl fn m.world ∧
            Machine.Kept a m m') ∧
          ∃ m', m.arrayForeachReverse a fn = .ok m' ∧
            m'.world = (xs.reverse.map some).foldl fn m.world ∧ Machine.Kept a m m') ∧
      ∀ (m : Machine (Option String)) (out : String), m.world = some out →
        ∃ m', m.arrayPrint a = .ok m' ∧ m'.world = some (out ++ Machine.printed xs) ∧
          Machine.Kept a m m' :=
  ⟨fun _ fn m => ⟨m.traverse_spec forward_follows h fn, m.traverse_spec backward_follows h fn⟩,
    fun m _ hout => m.arrayPrint_spec h hout⟩

/-- The middle of a block of four cells, the last of which is indeterminate. -/
theorem prints_window :
    ∃ m', (⟨fun _ => ⟨⟨[]⟩, 0, 0, 0⟩, 0, some ""⟩ : Machine (Option String)).arrayPrint
        ⟨⟨[some 4, some 5, some 6, none]⟩, 1, 3, 4⟩ = .ok m' ∧
      m'.world = some "Array:\x7b5, 6\x7d\n" := by
  have h : Defined ⟨⟨[some 4, some 5, some 6, none]⟩, 1, 3, 4⟩ [5, 6] := by
    refine ⟨fun i hi hib => ?_, by decide⟩
    simp only [Block.size] at *
    simp
    omega
  obtain ⟨m', hrun, hworld, -⟩ :=
    (iteration_faithful h).2 ⟨fun _ => ⟨⟨[]⟩, 0, 0, 0⟩, 0, some ""⟩ "" rfl
  exact ⟨m', hrun, hworld.trans (by decide)⟩

end Sanntid.DynamicArray
