import Sanntid.Control.Fallible
import Sanntid.Memory.Filled
import Sanntid.Sorting.Bubble

/-!
# `sort` of `ex0`

`sort(count, array)` reorders `array[1]` to `array[count - 1]` by what `atoi` makes of them and
leaves `array[0]`, the program name, alone. The strings are values of any type, so that equal
strings at different addresses can be told apart, and `atoi` is any function from them to `int`. An
array of `count` strings is a list of that length, and an index outside it is a fault. The inner
loop is one bubble pass over the arguments (`innerLoop_eq_pass`).
-/

set_option autoImplicit false

namespace Sanntid.Sorting

open Control Memory List

universe u

variable {α : Type u} (atoi : α → Int)

/-- The body of the inner loop. -/
def sortBody (y : Int) (array : List α) : Except Fault (List α) := do
  if atoi (← load array y) < atoi (← load array (y + 1)) then
    let holder ← load array (y + 1)
    let array ← store array (y + 1) (← load array y)
    let array ← store array y holder
    -- the source loads `array[y + 1]` into `holder` once more and never uses it
    let _ ← load array (y + 1)
    return array
  else
    return array

/-- The two loops of `sort`, which leave the first entry alone. -/
def sort (count : Int) (array : List α) : Except Fault (List α) :=
  forLoop 1 count (fun _ => forLoop 1 (count - 1) (sortBody atoi)) array

/-- The body exchanges two neighbours when the first has the smaller number. -/
theorem sortBody_append {y : Int} (pre rest : List α) (a b : α) (hy : y = pre.length) :
    sortBody atoi y (pre ++ a :: b :: rest) =
      .ok (pre ++ if atoi a < atoi b then b :: a :: rest else a :: b :: rest) := by
  have hnext : y + 1 = (pre ++ [a]).length := by
    rw [hy, length_append]
    rfl
  have hload : load (pre ++ a :: b :: rest) y = .ok a := load_append hy
  have hload' : load (pre ++ a :: b :: rest) (y + 1) = .ok b := by
    rw [append_cons]
    exact load_append hnext
  rcases lt_or_ge (atoi a) (atoi b) with hlt | hge
  · -- the exchange through `holder`, with its last load
    have hstore : store (pre ++ a :: b :: rest) (y + 1) a = .ok (pre ++ a :: a :: rest) := by
      rw [append_cons, store_append hnext, ← append_cons]
    have hstore' : store (pre ++ a :: a :: rest) y b = .ok (pre ++ b :: a :: rest) :=
      store_append hy
    have hnext' : y + 1 = (pre ++ [b]).length := by
      rw [hnext, length_append, length_append]
      rfl
    have hlast : load (pre ++ b :: a :: rest) (y + 1) = .ok a := by
      rw [append_cons]
      exact load_append hnext'
    rw [sortBody, bind_of_ok hload, bind_of_ok hload', if_pos hlt, if_pos hlt,
      bind_of_ok hload', bind_of_ok hload, bind_of_ok hstore, bind_of_ok hstore',
      bind_of_ok hlast]
    rfl
  · rw [sortBody, bind_of_ok hload, bind_of_ok hload', if_neg hge.not_gt, if_neg hge.not_gt]
    rfl

/-- Before iteration `y` of the inner loop the pass over the arguments has come to index `y`. -/
def PassAt (prog : α) (args : List α) (y : Int) (array : List α) : Prop :=
  ∃ done a rest, array = prog :: (done ++ a :: rest) ∧ y = done.length + 1 ∧
    done ++ sink atoi a rest = pass atoi args

theorem PassAt.step {prog : α} {args : List α} {y : Int} {array : List α}
    (h : PassAt atoi prog args y array) (hy : y < args.length) :
    ∃ array', sortBody atoi y array = .ok array' ∧ PassAt atoi prog args (y + 1) array' := by
  obtain ⟨done, a, rest, rfl, rfl, hpass⟩ := h
  cases rest with
  | nil =>
      -- the pass would have to go on past the last argument
      have hlen : (done ++ [a]).length = args.length := by
        have hperm : pass atoi args ~ args := pass_perm args
        rw [← hperm.length_eq, ← hpass, sink_nil]
      rw [length_append, length_singleton] at hlen
      omega
  | cons b rest =>
      have hindex : (done.length : Int) + 1 = (prog :: done).length := rfl
      refine ⟨_, sortBody_append atoi (prog :: done) rest a b hindex, ?_⟩
      rcases lt_or_ge (atoi a) (atoi b) with hlt | hge
      · rw [if_pos hlt]
        refine ⟨done ++ [b], a, rest, by simp, by simp, ?_⟩
        rw [← hpass, sink_of_lt hlt, append_assoc, singleton_append]
      · rw [if_neg hge.not_gt]
        refine ⟨done ++ [a], b, rest, by simp, by simp, ?_⟩
        rw [← hpass, sink_of_ge hge, append_assoc, singleton_append]

theorem PassAt.final {prog : α} {args : List α} {y : Int} {array : List α}
    (h : PassAt atoi prog args y array) (hy : y = args.length) :
    array = prog :: pass atoi args := by
  obtain ⟨done, a, rest, rfl, rfl, hpass⟩ := h
  have hlen : (done ++ sink atoi a rest).length = args.length := by
    rw [hpass, (pass_perm args).length_eq]
  rw [length_append, (sink_perm a rest).length_eq, length_cons] at hlen
  obtain rfl : rest = [] := by
    rw [← length_eq_zero_iff]
    omega
  rw [← hpass, sink_nil]

/-- The inner loop is a bubble pass over the arguments, and it stays inside the array. -/
theorem innerLoop_eq_pass (prog : α) (args : List α) :
    forLoop 1 args.length (sortBody atoi) (prog :: args) = .ok (prog :: pass atoi args) := by
  cases args with
  | nil => exact forLoop_of_ge (by simp)
  | cons a args =>
      have hinit : PassAt atoi prog (a :: args) 1 (prog :: a :: args) :=
        ⟨[], a, args, rfl, rfl, rfl⟩
      have hle : (1 : Int) ≤ (a :: args).length := by simp
      obtain ⟨array, hrun, hfinal⟩ :=
        forLoop_spec (PassAt atoi prog (a :: args)) hle hinit
          fun y _ _ hy h => h.step atoi hy
      rw [hrun, hfinal.final atoi rfl]

/-- Before iteration `x` of the outer loop `x - 1` passes are made. -/
def PassesAt (prog : α) (args : List α) (x : Int) (array : List α) : Prop :=
  ∃ n : ℕ, x = n + 1 ∧ array = prog :: (pass atoi)^[n] args

theorem PassesAt.step {prog : α} {args : List α} {x : Int} {array : List α}
    (h : PassesAt atoi prog args x array) :
    ∃ array', forLoop 1 args.length (sortBody atoi) array = .ok array' ∧
      PassesAt atoi prog args (x + 1) array' := by
  obtain ⟨n, rfl, rfl⟩ := h
  have hlen : ((pass atoi)^[n] args).length = args.length := (passes_perm n args).length_eq
  refine ⟨prog :: (pass atoi)^[n + 1] args, ?_, n + 1, by simp, rfl⟩
  rw [← hlen, innerLoop_eq_pass, Function.iterate_succ_apply']

/-- The outer loop makes as many passes as there are arguments. -/
theorem sort_eq_passes (prog : α) (args : List α) :
    sort atoi (args.length + 1) (prog :: args) =
      .ok (prog :: (pass atoi)^[args.length] args) := by
  have hinit : PassesAt atoi prog args 1 (prog :: args) := ⟨0, rfl, rfl⟩
  have hle : (1 : Int) ≤ args.length + 1 := by omega
  obtain ⟨array, hrun, n, hn, rfl⟩ :=
    forLoop_spec (PassesAt atoi prog args) hle hinit fun _ _ _ _ h => h.step atoi
  obtain rfl : n = args.length := by omega
  rw [sort, add_sub_cancel_right, hrun]

/-- `sort` stays inside the array, leaves the program name and sorts the arguments stably by
descending numbers. -/
theorem sort_stableDescending (prog : α) (args : List α) :
    ∃ args', sort atoi (args.length + 1) (prog :: args) = .ok (prog :: args') ∧
      StableDescending atoi args args' :=
  ⟨_, sort_eq_passes atoi prog args, passes_stableDescending _ args le_rfl⟩

/-- Two arguments with the same number stay in their order. -/
example : sort Prod.fst 4 [((0 : Int), 'p'), (1, 'a'), (2, 'b'), (1, 'c')] =
    .ok [(0, 'p'), (2, 'b'), (1, 'a'), (1, 'c')] := by
  decide

end Sanntid.Sorting
