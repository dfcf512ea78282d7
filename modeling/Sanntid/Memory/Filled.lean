import Sanntid.Memory.Block

/-!
# Filled arrays

An array all of whose entries are written is the list of its values. `load` and `store` fault
outside it, as on a block; inside, `load_append` and `store_append` say what they do at the border
between two parts of it.
-/

set_option autoImplicit false

namespace Sanntid.Memory

universe u

variable {α : Type u}

/-- Load entry `i`. -/
def load (array : List α) (i : Int) : Except Fault α :=
  match (if 0 ≤ i then array[i.toNat]? else none) with
  | some v => .ok v
  | none => .error (.outOfBounds i array.length)

/-- Store into entry `i`. -/
def store (array : List α) (i : Int) (v : α) : Except Fault (List α) :=
  if 0 ≤ i ∧ i < array.length then .ok (array.set i.toNat v)
  else .error (.outOfBounds i array.length)

/-- The entry after `pre` is loaded at the length of `pre`. -/
theorem load_append {pre rest : List α} {v : α} {i : Int} (hi : i = pre.length) :
    load (pre ++ v :: rest) i = .ok v := by
  subst hi
  simp [load]

/-- The entry after `pre` is replaced by a store at the length of `pre`. -/
theorem store_append {pre rest : List α} {v w : α} {i : Int} (hi : i = pre.length) :
    store (pre ++ v :: rest) i w = .ok (pre ++ w :: rest) := by
  subst hi
  have hlt : (0 : Int) ≤ pre.length ∧ (pre.length : Int) < (pre ++ v :: rest).length := by
    simp only [List.length_append, List.length_cons]
    omega
  rw [store, if_pos hlt]
  simp

end Sanntid.Memory
