import Sanntid.Memory.Ring
import Mathlib.Data.List.TakeWhile
import Mathlib.Data.List.Rotate

/-!
# The lists of the FreeRTOS kernel

`Heap` is the memory of `list.c`, one function for each structure member; a `Ptr` is the address of
an item or of the end marker of a list. Every task keeps one item on the kernel's lists, so an item
stands for the task that owns it. The functions below are those of `list.c` and the macros of
`list.h`, assignment by assignment; `none` is a null dereference or a loop that does not end.

A `Queue` is what a list holds: the items up to the index and those after it. `Represents h q` ties
a memory to the queues it holds, and each function has one theorem that says what it does to them.
-/

set_option autoImplicit false

namespace Sanntid.FreeRTOS

open Sanntid.Memory

universe u

/-- `portTickType`, an unsigned 32-bit integer. -/
abbrev PortTickType := BitVec 32

/-- The largest tick count, the value of every end marker. -/
def portMAX_DELAY : PortTickType := 0xffffffff

/-- The address of an item, or of the `xListEnd` of a list. -/
inductive Ptr (ι κ : Type u) where
  | item (i : ι)
  | xListEnd (l : κ)
  deriving DecidableEq

/-- The members of all `xListItem`s, `xMiniListItem`s and `xList`s. -/
structure Heap (ι κ : Type u) where
  xItemValue : Ptr ι κ → PortTickType
  pxNext : Ptr ι κ → Ptr ι κ
  pxPrevious : Ptr ι κ → Ptr ι κ
  pvContainer : ι → Option κ
  uxNumberOfItems : κ → Nat
  pxIndex : κ → Ptr ι κ

variable {ι κ : Type u}

namespace Heap

variable [DecidableEq ι] [DecidableEq κ]

/-- The owner of an item. An end marker has none. -/
def pvOwner : Ptr ι κ → Option ι
  | .item i => some i
  | .xListEnd _ => none

/-- An assignment to `pxNext`. -/
def setNext (h : Heap ι κ) (p q : Ptr ι κ) : Heap ι κ :=
  { h with pxNext := Function.update h.pxNext p q }

/-- An assignment to `pxPrevious`. -/
def setPrevious (h : Heap ι κ) (p q : Ptr ι κ) : Heap ι κ :=
  { h with pxPrevious := Function.update h.pxPrevious p q }

/-- An assignment to `xItemValue`. -/
def setItemValue (h : Heap ι κ) (p : Ptr ι κ) (x : PortTickType) : Heap ι κ :=
  { h with xItemValue := Function.update h.xItemValue p x }

/-- An assignment to `pvContainer`. -/
def setContainer (h : Heap ι κ) (i : ι) (l : Option κ) : Heap ι κ :=
  { h with pvContainer := Function.update h.pvContainer i l }

/-- An assignment to `uxNumberOfItems`. -/
def setNumberOfItems (h : Heap ι κ) (l : κ) (n : Nat) : Heap ι κ :=
  { h with uxNumberOfItems := Function.update h.uxNumberOfItems l n }

/-- An assignment to `pxIndex`. -/
def setIndex (h : Heap ι κ) (l : κ) (p : Ptr ι κ) : Heap ι κ :=
  { h with pxIndex := Function.update h.pxIndex l p }

/-- The end marker stands alone in the list. -/
def vListInitialise (h : Heap ι κ) (l : κ) : Heap ι κ :=
  let h := h.setIndex l (.xListEnd l)
  let h := h.setItemValue (.xListEnd l) portMAX_DELAY
  let h := h.setNext (.xListEnd l) (.xListEnd l)
  let h := h.setPrevious (.xListEnd l) (.xListEnd l)
  h.setNumberOfItems l 0

/-- The item is on no list. -/
def vListInitialiseItem (h : Heap ι κ) (i : ι) : Heap ι κ := h.setContainer i none

/-- The value decides where `vListInsert` puts the item. -/
def listSET_LIST_ITEM_VALUE (h : Heap ι κ) (i : ι) (xValue : PortTickType) : Heap ι κ :=
  h.setItemValue (.item i) xValue

/-- The value set last. -/
def listGET_LIST_ITEM_VALUE (h : Heap ι κ) (i : ι) : PortTickType := h.xItemValue (.item i)

/-- The test looks at the count, not at the links. -/
def listLIST_IS_EMPTY (h : Heap ι κ) (l : κ) : Bool := h.uxNumberOfItems l == 0

/-- The owner of the item behind the end marker; none on an empty list. -/
def listGET_OWNER_OF_HEAD_ENTRY (h : Heap ι κ) (l : κ) : Option ι :=
  pvOwner (h.pxNext (.xListEnd l))

/-- The index moves on by one item, over the end marker, and the owner of that item is returned. -/
def listGET_OWNER_OF_NEXT_ENTRY (h : Heap ι κ) (l : κ) : Option (Heap ι κ × ι) :=
  let h := h.setIndex l (h.pxNext (h.pxIndex l))
  let h := if h.pxIndex l = .xListEnd l then h.setIndex l (h.pxNext (h.pxIndex l)) else h
  (pvOwner (h.pxIndex l)).map fun i => (h, i)

/-- The item goes behind the index, and the index to the item: it comes last of all to be returned.
-/
def vListInsertEnd (h : Heap ι κ) (l : κ) (i : ι) : Heap ι κ :=
  let pxIndex := h.pxIndex l
  let h := h.setNext (.item i) (h.pxNext pxIndex)
  let h := h.setPrevious (.item i) (h.pxIndex l)
  let h := h.setPrevious (h.pxNext pxIndex) (.item i)
  let h := h.setNext pxIndex (.item i)
  let h := h.setIndex l (.item i)
  let h := h.setContainer i (some l)
  h.setNumberOfItems l (h.uxNumberOfItems l + 1)

/-- The `for` loop of `vListInsert` from `pxIterator` on, for at most `fuel` rounds. -/
def insertionPoint (h : Heap ι κ) (xValueOfInsertion : PortTickType) :
    Nat → Ptr ι κ → Option (Ptr ι κ)
  | 0, _ => none
  | fuel + 1, pxIterator =>
    if h.xItemValue (h.pxNext pxIterator) ≤ xValueOfInsertion then
      h.insertionPoint xValueOfInsertion fuel (h.pxNext pxIterator)
    else some pxIterator

/-- `pxIterator` as `vListInsert` sets it, with a guard for the value of the end marker. -/
def insertionIterator (h : Heap ι κ) (l : κ) (i : ι) : Option (Ptr ι κ) :=
  let xValueOfInsertion := h.xItemValue (.item i)
  if xValueOfInsertion = portMAX_DELAY then some (h.pxPrevious (.xListEnd l))
  else h.insertionPoint xValueOfInsertion (h.uxNumberOfItems l + 1) (.xListEnd l)

/-- The item goes behind the one that `insertionIterator` finds. -/
def vListInsert (h : Heap ι κ) (l : κ) (i : ι) : Option (Heap ι κ) := do
  let pxIterator ← h.insertionIterator l i
  let h := h.setNext (.item i) (h.pxNext pxIterator)
  let h := h.setPrevious (h.pxNext (.item i)) (.item i)
  let h := h.setPrevious (.item i) pxIterator
  let h := h.setNext pxIterator (.item i)
  let h := h.setContainer i (some l)
  some (h.setNumberOfItems l (h.uxNumberOfItems l + 1))

/-- An index that stands on the item goes back by one. -/
def vListRemove (h : Heap ι κ) (i : ι) : Option (Heap ι κ) := do
  let h := h.setPrevious (h.pxNext (.item i)) (h.pxPrevious (.item i))
  let h := h.setNext (h.pxPrevious (.item i)) (h.pxNext (.item i))
  let pxList ← h.pvContainer i
  let h := if h.pxIndex pxList = .item i then h.setIndex pxList (h.pxPrevious (.item i)) else h
  let h := h.setContainer i none
  some (h.setNumberOfItems pxList (h.uxNumberOfItems pxList - 1))

end Heap

/-! ## What a list holds -/

/-- The items of a list: those up to the index, and those after it. -/
structure Queue (ι : Type u) where
  seen : List ι
  rest : List ι

namespace Queue

/-- All items, from the end marker on. -/
def items (q : Queue ι) : List ι := q.seen ++ q.rest

/-- All items in the order in which the index will reach them. -/
def service (q : Queue ι) : List ι := q.rest ++ q.seen

/-- The item comes last in the order of service. -/
def insertEnd (q : Queue ι) (i : ι) : Queue ι := ⟨q.seen ++ [i], q.rest⟩

/-- `i` placed behind the first items that satisfy `le`. -/
def insert (q : Queue ι) (le : ι → Bool) (i : ι) : Queue ι :=
  if q.seen.all le then ⟨q.seen, q.rest.takeWhile le ++ i :: q.rest.dropWhile le⟩
  else ⟨q.seen.takeWhile le ++ i :: q.seen.dropWhile le, q.rest⟩

/-- The index moved on to the next item, over the end marker. -/
def advance (q : Queue ι) : Queue ι :=
  match q.rest, q.seen with
  | i :: rest, seen => ⟨seen ++ [i], rest⟩
  | [], i :: seen => ⟨[i], seen⟩
  | [], [] => ⟨[], []⟩

@[simp] theorem service_insertEnd (q : Queue ι) (i : ι) :
    (q.insertEnd i).service = q.service ++ [i] := by
  simp [insertEnd, service]

theorem items_insert (q : Queue ι) (le : ι → Bool) (i : ι) :
    (q.insert le i).items = q.items.takeWhile le ++ i :: q.items.dropWhile le := by
  unfold insert items
  split
  next hall =>
    have hseen : ∀ j ∈ q.seen, le j = true := by simpa using hall
    rw [List.takeWhile_append_of_pos hseen, List.dropWhile_append_of_pos hseen]
    simp
  next hall =>
    have hseen : q.seen.dropWhile le ≠ [] := by
      simpa [List.dropWhile_eq_nil_iff] using hall
    have hlt : (q.seen.takeWhile le).length ≠ q.seen.length := by
      intro heq
      have := congrArg List.length (List.takeWhile_append_dropWhile (p := le) (l := q.seen))
      rw [List.length_append, heq] at this
      exact hseen (List.eq_nil_of_length_eq_zero (by omega))
    simp [List.takeWhile_append, List.dropWhile_append, hlt, hseen]

theorem mem_items_insert {q : Queue ι} {le : ι → Bool} {i j : ι} :
    j ∈ (q.insert le i).items ↔ j = i ∨ j ∈ q.items := by
  conv_rhs => rw [← List.takeWhile_append_dropWhile (p := le) (l := q.items)]
  rw [items_insert]
  grind

theorem mem_service {q : Queue ι} {i : ι} : i ∈ q.service ↔ i ∈ q.items := by
  simp [service, items, or_comm]

theorem service_advance (q : Queue ι) {i : ι} {is : List ι} (h : q.service = i :: is) :
    q.advance.service = is ++ [i] := by
  obtain ⟨seen, rest⟩ := q
  cases rest with
  | nil =>
    cases seen with
    | nil => simp [service] at h
    | cons j seen => simp_all [service, advance]
  | cons j rest =>
    obtain ⟨rfl, rfl⟩ : j = i ∧ rest ++ seen = is := by simpa [service] using h
    simp [service, advance]

@[simp] theorem items_advance (q : Queue ι) : q.advance.items = q.items := by
  obtain ⟨seen, rest⟩ := q
  cases rest with
  | nil => cases seen <;> simp [items, advance]
  | cons j rest => simp [items, advance]

variable {f : ι → PortTickType} {x : PortTickType} {is : List ι}

theorem le_of_mem_takeWhile {j : ι} (hj : j ∈ is.takeWhile fun j => decide (f j ≤ x)) :
    f j ≤ x := by
  have hall := List.all_takeWhile (p := fun j => decide (f j ≤ x)) (l := is)
  rw [List.all_eq_true] at hall
  exact of_decide_eq_true (hall j hj)

theorem lt_of_mem_dropWhile (hsorted : is.Pairwise fun j k => f j ≤ f k) {j : ι}
    (hj : j ∈ is.dropWhile fun j => decide (f j ≤ x)) : x < f j := by
  induction is with
  | nil => cases hj
  | cons k is ih =>
    obtain ⟨hk, his⟩ := List.pairwise_cons.1 hsorted
    rw [List.dropWhile_cons] at hj
    split at hj
    next hle => exact ih his hj
    next hlt =>
      have hxk : x < f k := by simpa using hlt
      rcases List.mem_cons.1 hj with rfl | hmem
      · exact hxk
      · have hkj := hk j hmem
        rw [BitVec.lt_def] at hxk ⊢
        rw [BitVec.le_def] at hkj
        exact Nat.lt_of_lt_of_le hxk hkj

theorem pairwise_takeWhile_cons_dropWhile {i : ι} (hsorted : is.Pairwise fun j k => f j ≤ f k) :
    (is.takeWhile (fun j => decide (f j ≤ f i)) ++
      i :: is.dropWhile fun j => decide (f j ≤ f i)).Pairwise fun j k => f j ≤ f k := by
  rw [List.pairwise_append, List.pairwise_cons]
  refine ⟨hsorted.sublist (List.takeWhile_sublist _),
    ⟨?_, hsorted.sublist (List.dropWhile_sublist _)⟩, ?_⟩
  · intro j hj
    exact BitVec.le_of_lt (lt_of_mem_dropWhile hsorted hj)
  · intro j hj k hk
    have hji := le_of_mem_takeWhile hj
    rcases List.mem_cons.1 hk with rfl | hk
    · exact hji
    · exact BitVec.le_trans hji (BitVec.le_of_lt (lt_of_mem_dropWhile hsorted hk))

variable [DecidableEq ι]

/-- An item occurs once, before or after the index. -/
def remove (q : Queue ι) (i : ι) : Queue ι := ⟨q.seen.erase i, q.rest.erase i⟩

theorem items_remove (q : Queue ι) (i : ι) (hq : q.items.Nodup) :
    (q.remove i).items = q.items.erase i := by
  obtain ⟨seen, rest⟩ := q
  simp only [items, remove] at *
  by_cases hi : i ∈ seen
  · have hrest : i ∉ rest := fun h => (List.nodup_append.1 hq).2.2 i hi i h rfl
    rw [List.erase_append_left _ hi, List.erase_of_not_mem hrest]
  · rw [List.erase_append_right _ hi, List.erase_of_not_mem hi]

theorem service_remove (q : Queue ι) (i : ι) (hq : q.items.Nodup) :
    (q.remove i).service = q.service.erase i := by
  have hswap : (⟨q.rest, q.seen⟩ : Queue ι).items.Nodup := List.nodup_append_comm.1 hq
  exact items_remove ⟨q.rest, q.seen⟩ i hswap

end Queue

namespace Heap

/-- The links of all items and markers. -/
def links (h : Heap ι κ) : Links (Ptr ι κ) := ⟨h.pxNext, h.pxPrevious⟩

/-- List `l` holds `q`. -/
structure Holds (h : Heap ι κ) (l : κ) (q : Queue ι) : Prop where
  ring : h.links.Ring (.xListEnd l) (q.items.map .item)
  index : h.pxIndex l = Links.last (.xListEnd l) (q.seen.map .item)
  number : h.uxNumberOfItems l = q.items.length
  marker : h.xItemValue (.xListEnd l) = portMAX_DELAY

/-- Every list holds its queue, and the items know which list they are on. -/
structure Represents (h : Heap ι κ) (q : κ → Queue ι) : Prop where
  holds : ∀ l, h.Holds l (q l)
  container : ∀ i l, h.pvContainer i = some l ↔ i ∈ (q l).items

variable {h h' : Heap ι κ} {q : κ → Queue ι} {l l' : κ} {i : ι} {p : Ptr ι κ}

theorem Holds.nodup {q : Queue ι} (h : h.Holds l q) : q.items.Nodup :=
  (List.nodup_cons.1 h.ring.nodup).2.of_map

/-- No node is on the rings of two lists. -/
theorem Represents.disjoint (hq : h.Represents q)
    (hp : p ∈ Ptr.xListEnd l :: (q l).items.map Ptr.item)
    (hp' : p ∈ Ptr.xListEnd l' :: (q l').items.map Ptr.item) : l = l' := by
  cases p with
  | xListEnd k =>
    obtain rfl : k = l := by simpa using hp
    simpa using hp'
  | item i =>
    have hi : h.pvContainer i = some l := (hq.container i l).2 (by simpa using hp)
    have hi' : h.pvContainer i = some l' := (hq.container i l').2 (by simpa using hp')
    rw [hi] at hi'
    exact Option.some.inj hi'

/-- An item on no list is not a node of a ring. -/
theorem Represents.not_mem_of_free (hq : h.Represents q) (hi : h.pvContainer i = none) (l : κ) :
    Ptr.item i ∉ Ptr.xListEnd l :: (q l).items.map Ptr.item := by
  intro hmem
  have hl : h.pvContainer i = some l := (hq.container i l).2 (by simpa using hmem)
  rw [hi] at hl
  cases hl

/-- Frame rule: a list is left alone by changes to other nodes and other lists. -/
theorem Holds.congr {q : Queue ι} (hl : h.Holds l q)
    (hnext : ∀ p ∈ Ptr.xListEnd l :: q.items.map Ptr.item, h'.pxNext p = h.pxNext p)
    (hprev : ∀ p ∈ Ptr.xListEnd l :: q.items.map Ptr.item, h'.pxPrevious p = h.pxPrevious p)
    (hindex : h'.pxIndex l = h.pxIndex l) (hnumber : h'.uxNumberOfItems l = h.uxNumberOfItems l)
    (hvalue : h'.xItemValue (.xListEnd l) = h.xItemValue (.xListEnd l)) : h'.Holds l q where
  ring := hl.ring.congr hnext hprev
  index := hindex.trans hl.index
  number := hnumber.trans hl.number
  marker := hvalue.trans hl.marker

/-- The two nodes between which a free item is linked in. -/
theorem Represents.seam (hq : h.Represents q) (hi : h.pvContainer i = none) {as bs : List ι}
    (hsplit : (q l).items = as ++ bs) (hp : p = Links.last (.xListEnd l) (as.map .item)) :
    p ≠ .item i ∧ h.pxNext p ≠ .item i ∧ h.pxPrevious (h.pxNext p) = p := by
  have hring : h.links.Ring (.xListEnd l) (as.map .item ++ bs.map .item) := by
    have := (hq.holds l).ring
    rwa [hsplit, List.map_append] at this
  have hfree := hq.not_mem_of_free hi l
  have hnext : h.pxNext p = Links.first (.xListEnd l) (bs.map .item) := by
    rw [hp]
    exact hring.next_last
  rw [hsplit] at hfree
  refine ⟨?_, ?_, ?_⟩
  · rintro rfl
    have := Links.last_mem (Ptr.xListEnd l) (as.map Ptr.item)
    grind
  · intro heq
    have := Links.first_mem (Ptr.xListEnd l) (bs.map Ptr.item)
    grind
  · rw [hnext, hp]
    exact hring.prev_first

theorem Holds.listGET_OWNER_OF_HEAD_ENTRY {qu : Queue ι} (hl : h.Holds l qu) :
    h.listGET_OWNER_OF_HEAD_ENTRY l = qu.items.head? := by
  have hring : h.links.Ring (.xListEnd l) ([] ++ qu.items.map .item) := by
    simpa using hl.ring
  have hnext : h.pxNext (.xListEnd l) = _ := hring.next_last
  rw [Heap.listGET_OWNER_OF_HEAD_ENTRY, hnext]
  cases qu.items <;> rfl

theorem Holds.listLIST_IS_EMPTY {qu : Queue ι} (hl : h.Holds l qu) :
    h.listLIST_IS_EMPTY l = qu.items.isEmpty := by
  rw [Heap.listLIST_IS_EMPTY, hl.number]
  cases qu.items <;> rfl

/-! ## Where an item is inserted -/

theorem not_portMAX_DELAY_le {x : PortTickType} (hx : x ≠ portMAX_DELAY) :
    ¬ portMAX_DELAY ≤ x := by
  intro hle
  apply hx
  have := x.isLt
  have hmax : portMAX_DELAY.toNat = 2 ^ 32 - 1 := rfl
  rw [BitVec.le_def] at hle
  apply BitVec.eq_of_toNat_eq
  omega

/-- The loop of `vListInsert` stops behind the last of the leading items that are not greater. The
marker ends it at the latest. -/
theorem insertionPoint_eq {qu : Queue ι} (hl : h.Holds l qu) {x : PortTickType}
    (hx : x ≠ portMAX_DELAY) {as bs : List ι} (hsplit : qu.items = as ++ bs) {fuel : Nat}
    (hfuel : bs.length < fuel) :
    h.insertionPoint x fuel (Links.last (.xListEnd l) (as.map .item)) =
      some (Links.last (.xListEnd l)
        ((as ++ bs.takeWhile fun j => decide (h.xItemValue (.item j) ≤ x)).map .item)) := by
  induction bs generalizing as fuel with
  | nil =>
    obtain ⟨fuel, rfl⟩ : ∃ n, fuel = n + 1 := ⟨fuel - 1, by simp at hfuel; omega⟩
    -- at the end of the list the next item is the marker, whose value is larger
    have hnext : h.pxNext (Links.last (.xListEnd l) (as.map .item)) = .xListEnd l := by
      have hring : h.links.Ring (.xListEnd l) (as.map .item ++ []) := by
        simpa [hsplit] using hl.ring
      exact hring.next_last
    simp [insertionPoint, hnext, hl.marker, not_portMAX_DELAY_le hx]
  | cons b bs ih =>
    obtain ⟨fuel, rfl⟩ : ∃ n, fuel = n + 1 := ⟨fuel - 1, by simp at hfuel; omega⟩
    have hnext : h.pxNext (Links.last (.xListEnd l) (as.map .item)) = .item b := by
      have hring : h.links.Ring (.xListEnd l) (as.map .item ++ (b :: bs).map .item) := by
        rw [← List.map_append, ← hsplit]
        exact hl.ring
      exact hring.next_last
    unfold insertionPoint
    rw [hnext]
    split
    next hle =>
      have hfuel' : bs.length < fuel := by simpa using hfuel
      have hsplit' : qu.items = (as ++ [b]) ++ bs := by simpa using hsplit
      have := ih hsplit' hfuel'
      simpa [hle] using this
    next hlt => simp [hlt]

/-- The items with a value of at most that of `i`. -/
def notGreater (h : Heap ι κ) (i j : ι) : Bool :=
  decide (h.xItemValue (.item j) ≤ h.xItemValue (.item i))

theorem insertionIterator_eq {qu : Queue ι} (hl : h.Holds l qu) (i : ι) :
    h.insertionIterator l i =
      some (Links.last (.xListEnd l) ((qu.items.takeWhile (h.notGreater i)).map .item)) := by
  simp only [insertionIterator]
  split
  next hmax =>
    -- every item is at most `portMAX_DELAY`, and the place is behind the last one
    have hall : qu.items.takeWhile (h.notGreater i) = qu.items := by
      rw [List.takeWhile_eq_self_iff]
      intro j hj
      rw [notGreater, hmax, decide_eq_true_iff, BitVec.le_def]
      have := (h.xItemValue (.item j)).isLt
      have hmax : portMAX_DELAY.toNat = 2 ^ 32 - 1 := rfl
      omega
    have hring : h.links.Ring (.xListEnd l) (qu.items.map .item ++ []) := by
      simpa using hl.ring
    rw [hall]
    exact congrArg some hring.prev_first
  next hmax =>
    have hnil : qu.items = [] ++ qu.items := rfl
    have hfuel : qu.items.length < h.uxNumberOfItems l + 1 := by
      rw [hl.number]
      exact Nat.lt_succ_self _
    exact insertionPoint_eq hl hmax hnil hfuel

/-- An insertion leaves the index on the item it points to. -/
theorem last_seen_insert {qu : Queue ι} {le : ι → Bool} (e : Ptr ι κ) :
    Links.last e ((qu.insert le i).seen.map .item) = Links.last e (qu.seen.map .item) := by
  unfold Queue.insert
  split
  next hall => rfl
  next hall =>
    obtain ⟨j, js, hj⟩ : ∃ j js, qu.seen.dropWhile le = j :: js := by
      rw [← List.ne_nil_iff_exists_cons]
      simpa [List.dropWhile_eq_nil_iff] using hall
    have hseen : qu.seen = qu.seen.takeWhile le ++ j :: js := by
      rw [← hj, List.takeWhile_append_dropWhile]
    conv_rhs => rw [hseen]
    simp [hj]

theorem last_advance {qu : Queue ι} {is : List ι} (hs : qu.service = i :: is) (e : Ptr ι κ) :
    Links.last e (qu.advance.seen.map .item) = .item i := by
  obtain ⟨seen, rest⟩ := qu
  cases rest with
  | nil =>
    obtain ⟨is, rfl⟩ : ∃ is, seen = i :: is := by simpa [Queue.service] using ⟨is, hs⟩
    simp [Queue.advance]
  | cons j rest =>
    obtain ⟨rfl, -⟩ : j = i ∧ rest ++ seen = is := by simpa [Queue.service] using hs
    simp [Queue.advance]

/-! ## Insertion -/

section

variable [DecidableEq κ]

@[simp] theorem setIndex_pxIndex (h : Heap ι κ) (l : κ) : h.setIndex l (h.pxIndex l) = h := by
  simp [setIndex]

theorem Represents.setIndex (hq : h.Represents q) {r : Queue ι} (hr : r.items = (q l).items)
    (hp : p = Links.last (.xListEnd l) (r.seen.map .item)) :
    (h.setIndex l p).Represents (Function.update q l r) := by
  constructor
  · intro k
    rcases eq_or_ne k l with rfl | hk
    · have hl := hq.holds k
      rw [Function.update_self]
      refine ⟨?_, ?_, ?_, hl.marker⟩
      · rw [hr]
        exact hl.ring
      · simp [Heap.setIndex, hp]
      · rw [hr]
        exact hl.number
    · rw [Function.update_of_ne hk]
      apply (hq.holds k).congr
      · exact fun _ _ => rfl
      · exact fun _ _ => rfl
      · simp [Heap.setIndex, hk]
      · rfl
      · rfl
  · -- the containers are as they were
    intro j k
    rcases eq_or_ne k l with rfl | hk
    · simpa [Heap.setIndex, hr] using hq.container j k
    · simpa [Heap.setIndex, hk] using hq.container j k

end

variable [DecidableEq ι] [DecidableEq κ]

/-- Item `i` linked in behind the node `p` of list `l`. -/
def link (h : Heap ι κ) (l : κ) (p : Ptr ι κ) (i : ι) : Heap ι κ :=
  { h with
    pxNext := (h.links.insertAfter p (.item i)).next
    pxPrevious := (h.links.insertAfter p (.item i)).prev
    pvContainer := Function.update h.pvContainer i (some l)
    uxNumberOfItems := Function.update h.uxNumberOfItems l (h.uxNumberOfItems l + 1) }

theorem Represents.link (hq : h.Represents q) (hi : h.pvContainer i = none) {as bs : List ι}
    (hsplit : (q l).items = as ++ bs) {r : Queue ι} (hr : r.items = as ++ i :: bs)
    (hp : p = Links.last (.xListEnd l) (r.seen.map .item)) :
    ((h.link l (Links.last (.xListEnd l) (as.map .item)) i).setIndex l p).Represents
      (Function.update q l r) := by
  have hring : h.links.Ring (.xListEnd l) (as.map .item ++ bs.map .item) := by
    have := (hq.holds l).ring
    rwa [hsplit, List.map_append] at this
  have hfree := hq.not_mem_of_free hi
  constructor
  · intro k
    rcases eq_or_ne k l with rfl | hk
    · rw [Function.update_self]
      refine ⟨?_, ?_, ?_, (hq.holds k).marker⟩
      · have hfree' := hfree k
        rw [hsplit, List.map_append] at hfree'
        rw [hr, List.map_append, List.map_cons]
        exact hring.insertAfter hfree'
      · simp [Heap.setIndex, hp]
      · simp [Heap.setIndex, Heap.link, (hq.holds k).number, hsplit, hr]
        omega
    · rw [Function.update_of_ne hk]
      -- the nodes that change are on the ring of `l`, or were on none
      have hne : ∀ x ∈ Ptr.xListEnd k :: (q k).items.map Ptr.item,
          x ≠ .item i ∧ x ≠ Links.last (.xListEnd l) (as.map .item) ∧
            x ≠ Links.first (.xListEnd l) (bs.map .item) := by
        intro x hx
        refine ⟨?_, ?_, ?_⟩
        · rintro rfl
          exact hfree k hx
        · rintro rfl
          refine hk (hq.disjoint hx ?_)
          have := Links.last_mem (Ptr.xListEnd l) (as.map Ptr.item)
          rw [hsplit]
          grind
        · rintro rfl
          refine hk (hq.disjoint hx ?_)
          have := Links.first_mem (Ptr.xListEnd l) (bs.map Ptr.item)
          rw [hsplit]
          grind
      apply (hq.holds k).congr
      · intro x hx
        obtain ⟨hxi, hxlast, -⟩ := hne x hx
        simp [Heap.setIndex, Heap.link, Links.insertAfter, links, hxi, hxlast]
      · intro x hx
        obtain ⟨hxi, -, hxfirst⟩ := hne x hx
        have hnext : h.pxNext (Links.last (.xListEnd l) (as.map .item)) = _ := hring.next_last
        simp [Heap.setIndex, Heap.link, Links.insertAfter, links, hxi, hnext, hxfirst]
      · simp [Heap.setIndex, Heap.link, hk]
      · simp [Heap.setIndex, Heap.link, hk]
      · rfl
  · intro j k
    rcases eq_or_ne j i with rfl | hj
    · rcases eq_or_ne k l with rfl | hk
      · simp [Heap.setIndex, Heap.link, hr]
      · have := hfree k
        simp_all [Heap.setIndex, Heap.link, eq_comm]
    · rcases eq_or_ne k l with rfl | hk
      · have := hq.container j k
        simp_all [Heap.setIndex, Heap.link]
      · simpa [Heap.setIndex, Heap.link, hj, hk] using hq.container j k

theorem vListInsertEnd_eq (h : Heap ι κ) (l : κ) (i : ι) (hi : h.pxIndex l ≠ .item i) :
    h.vListInsertEnd l i = (h.link l (h.pxIndex l) i).setIndex l (.item i) := by
  simp [vListInsertEnd, setNext, setPrevious, setIndex, setContainer, setNumberOfItems, link,
    Links.insertAfter, links, hi]

@[simp] theorem xItemValue_vListInsertEnd (h : Heap ι κ) (l : κ) (i : ι) :
    (h.vListInsertEnd l i).xItemValue = h.xItemValue := rfl

@[simp] theorem pvContainer_vListInsertEnd (h : Heap ι κ) (l : κ) (i : ι) :
    (h.vListInsertEnd l i).pvContainer = Function.update h.pvContainer i (some l) := rfl

/-- `vListInsertEnd` makes an item the last one that the index will reach. -/
theorem Represents.vListInsertEnd (hq : h.Represents q) (hi : h.pvContainer i = none) (l : κ) :
    (h.vListInsertEnd l i).Represents (Function.update q l ((q l).insertEnd i)) := by
  have hindex := (hq.holds l).index
  have hsplit : (q l).items = (q l).seen ++ (q l).rest := rfl
  have hne := (hq.seam hi hsplit hindex).1
  rw [vListInsertEnd_eq h l i hne, hindex]
  apply hq.link hi hsplit
  · simp [Queue.insertEnd, Queue.items]
  · simp [Queue.insertEnd]

theorem vListInsert_eq (h : Heap ι κ) (l : κ) (i : ι)
    (hiterator : h.insertionIterator l i = some p) (hnext : h.pxNext p ≠ .item i) :
    h.vListInsert l i = some (h.link l p i) := by
  simp [vListInsert, hiterator, setNext, setPrevious, setContainer, setNumberOfItems, link,
    Links.insertAfter, links, Function.update_comm hnext]

/-- `vListInsert` ends, and links the item in behind the leading items that are not greater. -/
theorem Represents.vListInsert_eq_link (hq : h.Represents q) (hi : h.pvContainer i = none) (l : κ) :
    h.vListInsert l i = some (h.link l
      (Links.last (.xListEnd l) (((q l).items.takeWhile (h.notGreater i)).map .item)) i) := by
  have hsplit : (q l).items = (q l).items.takeWhile (h.notGreater i) ++
      (q l).items.dropWhile (h.notGreater i) := List.takeWhile_append_dropWhile.symm
  obtain ⟨-, hnext, -⟩ := hq.seam hi hsplit rfl
  exact vListInsert_eq h l i (insertionIterator_eq (hq.holds l) i) hnext

theorem Represents.vListInsert (hq : h.Represents q) (hi : h.pvContainer i = none) (l : κ) :
    ∃ h', h.vListInsert l i = some h' ∧ h'.xItemValue = h.xItemValue ∧
      h'.pvContainer = Function.update h.pvContainer i (some l) ∧
      h'.Represents (Function.update q l ((q l).insert (h.notGreater i) i)) := by
  refine ⟨_, hq.vListInsert_eq_link hi l, rfl, rfl, ?_⟩
  have hsplit : (q l).items = (q l).items.takeWhile (h.notGreater i) ++
      (q l).items.dropWhile (h.notGreater i) := List.takeWhile_append_dropWhile.symm
  have hindex : h.pxIndex l =
      Links.last (.xListEnd l) (((q l).insert (h.notGreater i) i).seen.map .item) := by
    rw [last_seen_insert]
    exact (hq.holds l).index
  have hset := hq.link hi hsplit (Queue.items_insert (q l) (h.notGreater i) i) hindex
  rwa [show h.pxIndex l = (h.link l (Links.last (.xListEnd l)
    (((q l).items.takeWhile (h.notGreater i)).map .item)) i).pxIndex l from rfl,
    setIndex_pxIndex] at hset

/-! ## Removal -/

/-- Item `i` taken off the list `l`. -/
def taken (h : Heap ι κ) (l : κ) (i : ι) : Heap ι κ :=
  { h with
    pxNext := (h.links.unlink (.item i)).next
    pxPrevious := (h.links.unlink (.item i)).prev
    pxIndex := Function.update h.pxIndex l
      (if h.pxIndex l = .item i then h.pxPrevious (.item i) else h.pxIndex l)
    pvContainer := Function.update h.pvContainer i none
    uxNumberOfItems := Function.update h.uxNumberOfItems l (h.uxNumberOfItems l - 1) }

theorem vListRemove_eq (hi : h.pvContainer i = some l) (hnext : h.pxNext (.item i) ≠ .item i) :
    h.vListRemove i = some (h.taken l i) := by
  have hindex : (if h.pxIndex l = .item i then
      Function.update h.pxIndex l (h.pxPrevious (.item i)) else h.pxIndex) =
      Function.update h.pxIndex l
        (if h.pxIndex l = .item i then h.pxPrevious (.item i) else h.pxIndex l) := by
    split <;> simp
  simp only [vListRemove, setNext, setPrevious, setContainer, setNumberOfItems, setIndex, taken,
    Links.unlink, links, hi, Function.update_of_ne hnext.symm, Option.bind_eq_bind,
    Option.bind_some]
  rw [← hindex]
  split <;> rfl

/-- Where the index of a list stands when `i` has been taken off. -/
theorem Holds.index_remove {qu : Queue ι} (hl : h.Holds l qu) (i : ι) :
    (if h.pxIndex l = .item i then h.pxPrevious (.item i) else h.pxIndex l) =
      Links.last (.xListEnd l) ((qu.remove i).seen.map .item) := by
  have hnodup := hl.nodup
  rw [Queue.items] at hnodup
  rw [hl.index, Queue.remove]
  by_cases hseen : i ∈ qu.seen
  · obtain ⟨as, bs, hsplit⟩ := List.append_of_mem hseen
    rw [hsplit] at hnodup ⊢
    have has : i ∉ as := by grind
    rw [List.erase_append_right _ has, List.erase_cons_head]
    -- the index stands on `i` if that is the last of `seen`, and goes back to the one before
    cases bs using List.reverseRecOn with
    | nil =>
      have hring : h.links.Ring (.xListEnd l)
          (as.map .item ++ .item i :: qu.rest.map .item) := by
        have := hl.ring
        rw [Queue.items, hsplit] at this
        simpa using this
      have hprev : h.pxPrevious (.item i) = _ := hring.prev_of_mem
      simp [hprev]
    | append_singleton bs j =>
      have hj : j ≠ i := by grind
      simp [hj]
  · rw [List.erase_of_not_mem hseen]
    -- the index stands on another item or on the marker
    have hne : Links.last (.xListEnd l) (qu.seen.map .item) ≠ Ptr.item i := by
      intro heq
      have := Links.last_mem (Ptr.xListEnd l) (qu.seen.map Ptr.item)
      rw [heq] at this
      simp at this
      exact hseen this
    rw [if_neg hne]

/-- `vListRemove` takes the item off its list, and the index back by one if it stood there. -/
theorem Represents.vListRemove (hq : h.Represents q) (hi : h.pvContainer i = some l) :
    ∃ h', h.vListRemove i = some h' ∧ h'.xItemValue = h.xItemValue ∧
      h'.pvContainer = Function.update h.pvContainer i none ∧
      h'.Represents (Function.update q l ((q l).remove i)) := by
  have hl := hq.holds l
  have himem : i ∈ (q l).items := (hq.container i l).1 hi
  obtain ⟨as, bs, hsplit⟩ := List.append_of_mem himem
  have hnodup := hl.nodup
  have herase : ((q l).remove i).items = as ++ bs := by
    have has : i ∉ as := by grind
    rw [Queue.items_remove _ _ hnodup, hsplit, List.erase_append_right _ has, List.erase_cons_head]
  have hring : h.links.Ring (.xListEnd l) (as.map .item ++ .item i :: bs.map .item) := by
    have := hl.ring
    rwa [hsplit, List.map_append, List.map_cons] at this
  have hnext : h.pxNext (.item i) = Links.first (.xListEnd l) (bs.map .item) := hring.next_of_mem
  have hprev : h.pxPrevious (.item i) = Links.last (.xListEnd l) (as.map .item) :=
    hring.prev_of_mem
  -- the neighbours of the item are of the ring, so only links of the ring change
  have hnextmem : h.pxNext (.item i) ∈ Ptr.xListEnd l :: (as ++ bs).map Ptr.item := by
    have := Links.first_mem (Ptr.xListEnd l) (bs.map Ptr.item)
    rw [hnext]
    grind
  have hprevmem : h.pxPrevious (.item i) ∈ Ptr.xListEnd l :: (as ++ bs).map Ptr.item := by
    have := Links.last_mem (Ptr.xListEnd l) (as.map Ptr.item)
    rw [hprev]
    grind
  have hi' : Ptr.item i ∉ Ptr.xListEnd l :: (as ++ bs).map Ptr.item := by
    rw [hsplit] at hnodup
    simp
    grind
  refine ⟨h.taken l i, vListRemove_eq hi ?_, rfl, rfl, ?_, ?_⟩
  · intro heq
    rw [heq] at hnextmem
    exact hi' hnextmem
  · intro k
    rcases eq_or_ne k l with rfl | hk
    · rw [Function.update_self]
      refine ⟨?_, ?_, ?_, hl.marker⟩
      · rw [herase, List.map_append]
        exact hring.unlink
      · simpa [taken] using hl.index_remove i
      · simp [taken, herase, hl.number, hsplit]
    · rw [Function.update_of_ne hk]
      -- no pointer of another list is one of the neighbours
      have hne : ∀ x ∈ Ptr.xListEnd k :: (q k).items.map Ptr.item,
          x ≠ h.pxNext (.item i) ∧ x ≠ h.pxPrevious (.item i) := by
        intro x hx
        constructor
        · rintro rfl
          refine hk (hq.disjoint hx ?_)
          rw [hsplit]
          grind
        · rintro rfl
          refine hk (hq.disjoint hx ?_)
          rw [hsplit]
          grind
      apply (hq.holds k).congr
      · intro x hx
        exact Function.update_of_ne (hne x hx).2 _ _
      · intro x hx
        exact Function.update_of_ne (hne x hx).1 _ _
      · simp [taken, hk]
      · simp [taken, hk]
      · rfl
  · intro j k
    rcases eq_or_ne k l with rfl | hk
    · rcases eq_or_ne j i with rfl | hj
      · simp [taken, Queue.items_remove _ _ hnodup, hnodup.not_mem_erase]
      · simp [taken, hj, Queue.items_remove _ _ hnodup, List.mem_erase_of_ne hj, hq.container]
    · rcases eq_or_ne j i with rfl | hj
      · -- the item was on no other list
        have hjk : j ∉ (q k).items := by
          intro hmem
          have hjk := (hq.container j k).2 hmem
          rw [hi] at hjk
          exact hk (Option.some.inj hjk).symm
        simp [taken, hk, hjk]
      · simpa [taken, hj, hk] using hq.container j k

/-! ## The next entry -/

/-- `listGET_OWNER_OF_NEXT_ENTRY` returns the item whose turn it is, and moves the index to it. -/
theorem Represents.listGET_OWNER_OF_NEXT_ENTRY (hq : h.Represents q) {is : List ι}
    (hs : (q l).service = i :: is) :
    ∃ h', h.listGET_OWNER_OF_NEXT_ENTRY l = some (h', i) ∧ h'.xItemValue = h.xItemValue ∧
      h'.pvContainer = h.pvContainer ∧
      h'.Represents (Function.update q l (q l).advance) := by
  have hl := hq.holds l
  refine ⟨h.setIndex l (.item i), ?_, rfl, rfl,
    hq.setIndex (Queue.items_advance _) (last_advance hs _).symm⟩
  obtain ⟨seen, rest, hqu⟩ : ∃ seen rest, q l = ⟨seen, rest⟩ := ⟨_, _, rfl⟩
  have hring := hl.ring
  have hindex := hl.index
  rw [hqu] at hs hring hindex
  rw [Queue.items, List.map_append] at hring
  have hnext : h.pxNext (h.pxIndex l) = Links.first (.xListEnd l) (rest.map .item) := by
    rw [hindex]
    exact hring.next_last
  cases rest with
  | nil =>
    -- the index stands on the last item: it passes the marker
    obtain ⟨is, rfl⟩ : ∃ is, seen = i :: is := by simpa [Queue.service] using ⟨is, hs⟩
    have hhead : h.pxNext (.xListEnd l) = .item i := by
      have hring' : h.links.Ring (.xListEnd l) ([] ++ (i :: is).map .item) := by
        simpa using hring
      exact hring'.next_last
    simp [Heap.listGET_OWNER_OF_NEXT_ENTRY, Heap.setIndex, hnext, hhead, pvOwner]
  | cons j rest =>
    obtain ⟨rfl, -⟩ : j = i ∧ rest ++ seen = is := by simpa [Queue.service] using hs
    simp [Heap.listGET_OWNER_OF_NEXT_ENTRY, Heap.setIndex, hnext, pvOwner]

/-- The value of an item is no part of the structure of the lists. -/
theorem Represents.setItemValue (hq : h.Represents q) (i : ι) (x : PortTickType) :
    (h.setItemValue (.item i) x).Represents q where
  holds l := by
    apply (hq.holds l).congr
    · exact fun _ _ => rfl
    · exact fun _ _ => rfl
    · rfl
    · rfl
    · simp [Heap.setItemValue]
  container := hq.container

/-! ## Initialisation -/

/-- An initialised list is empty, and no other list notices. -/
theorem holds_vListInitialise (h : Heap ι κ) (l : κ) : (h.vListInitialise l).Holds l ⟨[], []⟩ where
  ring := by
    apply Links.ring_nil_iff.2
    simp [vListInitialise, links, setNext, setPrevious, setIndex, setItemValue, setNumberOfItems]
  index := by
    simp [vListInitialise, setNext, setPrevious, setIndex, setItemValue, setNumberOfItems]
  number := by simp [vListInitialise, setNumberOfItems, Queue.items]
  marker := by
    simp [vListInitialise, setNext, setPrevious, setIndex, setItemValue, setNumberOfItems]

theorem Holds.vListInitialise {qu : Queue ι} (hl : h.Holds l qu) (hk : l ≠ l') :
    (h.vListInitialise l').Holds l qu := by
  have hne : ∀ p ∈ Ptr.xListEnd l :: qu.items.map Ptr.item, p ≠ .xListEnd l' := by
    rintro p hp rfl
    simp [hk.symm] at hp
  apply hl.congr
  · intro p hp
    exact Function.update_of_ne (hne p hp) _ _
  · intro p hp
    exact Function.update_of_ne (hne p hp) _ _
  · exact Function.update_of_ne hk _ _
  · exact Function.update_of_ne hk _ _
  · exact Function.update_of_ne (hne _ List.mem_cons_self) _ _

/-- The memory in which the lists `ls` have been initialised, one after the other. -/
theorem holds_foldl_vListInitialise (h : Heap ι κ) {ls : List κ} (hl : l ∈ ls) :
    (ls.foldl vListInitialise h).Holds l ⟨[], []⟩ := by
  induction ls using List.reverseRecOn with
  | nil => cases hl
  | append_singleton ls k ih =>
    rw [List.foldl_append, List.foldl_cons, List.foldl_nil]
    rcases eq_or_ne l k with rfl | hk
    · exact holds_vListInitialise _ l
    · apply (ih ?_).vListInitialise hk
      simpa [hk] using hl

@[simp] theorem pvContainer_foldl_vListInitialise (h : Heap ι κ) (ls : List κ) :
    (ls.foldl vListInitialise h).pvContainer = h.pvContainer := by
  induction ls generalizing h with
  | nil => rfl
  | cons l ls ih =>
    rw [List.foldl_cons, ih]
    rfl

/-- All lists initialised, before there is an item. -/
theorem represents_foldl_vListInitialise (ls : List κ) (hls : ∀ l, l ∈ ls)
    (hfree : ∀ i, h.pvContainer i = none) :
    (ls.foldl vListInitialise h).Represents fun _ => ⟨[], []⟩ where
  holds l := holds_foldl_vListInitialise h (hls l)
  container i l := by simp [hfree, Queue.items]

/-! ## Properties of the list functions -/

/-- Two items, named after their values. -/
inductive SampleItem where
  | five
  | three
  deriving DecidableEq

/-- One list, initialised, and two items. -/
def sample : Heap SampleItem Unit :=
  vListInitialise
    { xItemValue := fun p => if p = .item .five then 5 else 3
      pxNext := id
      pxPrevious := id
      pvContainer := fun _ => none
      uxNumberOfItems := fun _ => 7
      pxIndex := Ptr.xListEnd } ()

theorem represents_sample : sample.Represents fun _ => ⟨[], []⟩ :=
  represents_foldl_vListInitialise [()] (by simp) fun _ => rfl

theorem represents_sample_five : (sample.vListInsertEnd () .five).Represents
    (Function.update (fun _ => ⟨[], []⟩) () ⟨[.five], []⟩) :=
  represents_sample.vListInsertEnd rfl ()

/-- On a list whose values ascend, `vListInsert` ends with the values ascending and puts the item
behind all those with the same value. The other items keep their order, and every value and every
index stays as it is. -/
theorem vListInsert_ascending (hq : h.Represents q) (hi : h.pvContainer i = none) (l : κ)
    (hsorted : (q l).items.Pairwise fun j k => h.xItemValue (.item j) ≤ h.xItemValue (.item k)) :
    ∃ h' r as bs, h.vListInsert l i = some h' ∧ h'.Represents (Function.update q l r) ∧
      h'.pxIndex = h.pxIndex ∧ h'.xItemValue = h.xItemValue ∧
      (q l).items = as ++ bs ∧ r.items = as ++ i :: bs ∧
      (∀ j ∈ as, h'.xItemValue (.item j) ≤ h'.xItemValue (.item i)) ∧
      (∀ j ∈ bs, h'.xItemValue (.item i) < h'.xItemValue (.item j)) ∧
      r.items.Pairwise fun j k => h'.xItemValue (.item j) ≤ h'.xItemValue (.item k) := by
  obtain ⟨h', hinsert, hvalue, -, hq'⟩ := hq.vListInsert hi l
  have hindex : h'.pxIndex = h.pxIndex := by
    rw [hq.vListInsert_eq_link hi l, Option.some.injEq] at hinsert
    rw [← hinsert]
    rfl
  have hitems := Queue.items_insert (q l) (h.notGreater i) i
  have has := fun j (hj : j ∈ (q l).items.takeWhile (h.notGreater i)) =>
    Queue.le_of_mem_takeWhile hj
  have hbs := fun j (hj : j ∈ (q l).items.dropWhile (h.notGreater i)) =>
    Queue.lt_of_mem_dropWhile hsorted hj
  refine ⟨h', _, _, _, hinsert, hq', hindex, hvalue, List.takeWhile_append_dropWhile.symm, hitems,
    ?_, ?_, ?_⟩
  · rwa [hvalue]
  · rwa [hvalue]
  · rw [hitems, hvalue]
    exact Queue.pairwise_takeWhile_cons_dropWhile hsorted

theorem vListInsert_ascending_sample : ∃ h' r as bs,
    (sample.vListInsertEnd () .five).vListInsert () .three = some h' ∧
      h'.Represents (Function.update (Function.update (fun _ => ⟨[], []⟩) () ⟨[.five], []⟩) () r) ∧
      h'.pxIndex = (sample.vListInsertEnd () .five).pxIndex ∧
      h'.xItemValue = (sample.vListInsertEnd () .five).xItemValue ∧
      [.five] = as ++ bs ∧ r.items = as ++ .three :: bs ∧
      (∀ j ∈ as, h'.xItemValue (.item j) ≤ h'.xItemValue (.item .three)) ∧
      (∀ j ∈ bs, h'.xItemValue (.item .three) < h'.xItemValue (.item j)) ∧
      r.items.Pairwise fun j k => h'.xItemValue (.item j) ≤ h'.xItemValue (.item k) :=
  vListInsert_ascending represents_sample_five rfl () (by simp [Queue.items])

/-- Taking out what was just linked in restores all links but those of the item itself. -/
theorem vListRemove_link {p' : Ptr ι κ} (hi : h.pvContainer i = none) (hp : p ≠ .item i)
    (hnext : h.pxNext p ≠ .item i) (hback : h.pxPrevious (h.pxNext p) = p)
    (hindex : (if p' = .item i then p else p') = h.pxIndex l) :
    ((h.link l p i).setIndex l p').vListRemove i = some
      { h with
        pxNext := Function.update h.pxNext (.item i) (h.pxNext p)
        pxPrevious := Function.update h.pxPrevious (.item i) p } := by
  have hcontainer : ((h.link l p i).setIndex l p').pvContainer i = some l := by
    simp [Heap.setIndex, link]
  have hprevious : ((h.link l p i).setIndex l p').pxPrevious (.item i) = p := by
    simp [Heap.setIndex, link, Links.insertAfter, links, hnext.symm]
  have hforward : ((h.link l p i).setIndex l p').pxNext (.item i) = h.pxNext p := by
    simp [Heap.setIndex, link, Links.insertAfter, links, hp.symm]
  rw [vListRemove_eq hcontainer (by rwa [hforward])]
  simp only [taken, links, Links.unlink, hprevious, hforward, Option.some.injEq, Heap.mk.injEq]
  refine ⟨rfl, ?_, ?_, ?_, ?_, ?_⟩
  · simp [Heap.setIndex, link, Links.insertAfter, links, Function.update_eq_self_iff, hp]
  · simp [Heap.setIndex, link, Links.insertAfter, links, Function.update_eq_self_iff, hnext, hback]
  · simp [Heap.setIndex, link, hi, Function.update_eq_self_iff]
  · simp [Heap.setIndex, link]
  · simp [Heap.setIndex, link, hindex]

/-- `vListRemove` undoes `vListInsert` and `vListInsertEnd`: every list is as before, and of the
memory only the two links of the item itself may differ. -/
theorem vListRemove_inserted (hq : h.Represents q) (hi : h.pvContainer i = none) (l : κ)
    (hinsert : h.vListInsert l i = some h' ∨ h.vListInsertEnd l i = h') :
    ∃ p, h'.vListRemove i = some
      { h with
        pxNext := Function.update h.pxNext (.item i) (h.pxNext p)
        pxPrevious := Function.update h.pxPrevious (.item i) p } := by
  have hindex := (hq.holds l).index
  have hsplit : (q l).items = (q l).seen ++ (q l).rest := rfl
  obtain ⟨hne, hnextindex, hbackindex⟩ := hq.seam hi hsplit hindex
  rcases hinsert with hinsert | rfl
  · rw [hq.vListInsert_eq_link hi l, Option.some.injEq] at hinsert
    have hsplit : (q l).items = (q l).items.takeWhile (h.notGreater i) ++
        (q l).items.dropWhile (h.notGreater i) := List.takeWhile_append_dropWhile.symm
    obtain ⟨hp, hnext, hback⟩ := hq.seam hi hsplit rfl
    have hremove := vListRemove_link hi hp hnext hback (if_neg hne)
    rw [hinsert, show h.pxIndex l = h'.pxIndex l by rw [← hinsert]; rfl,
      setIndex_pxIndex] at hremove
    exact ⟨_, hremove⟩
  · rw [vListInsertEnd_eq h l i hne]
    exact ⟨_, vListRemove_link hi hne hnextindex hbackindex (if_pos rfl)⟩

/-- The item with value 3 goes in front of the one with value 5 and is taken out again. -/
theorem vListRemove_inserted_sample :
    ∃ h' p, (sample.vListInsertEnd () .five).vListInsert () .three = some h' ∧
      h'.pxNext (.xListEnd ()) = .item .three ∧ h'.pxNext (.item .three) = .item .five ∧
      h'.vListRemove .three = some
        { sample.vListInsertEnd () .five with
          pxNext := Function.update (sample.vListInsertEnd () .five).pxNext (.item .three)
            ((sample.vListInsertEnd () .five).pxNext p)
          pxPrevious :=
            Function.update (sample.vListInsertEnd () .five).pxPrevious (.item .three) p } := by
  have hinsert := represents_sample_five.vListInsert_eq_link (i := .three) rfl ()
  obtain ⟨p, hremove⟩ := vListRemove_inserted represents_sample_five rfl () (.inl hinsert)
  exact ⟨_, p, hinsert, by decide, by decide, hremove⟩

/-- `n` times `listGET_OWNER_OF_NEXT_ENTRY` on one list, and what it returned. -/
def nextEntries (h : Heap ι κ) (l : κ) : Nat → Option (Heap ι κ × List ι)
  | 0 => some (h, [])
  | n + 1 => do
    let (h, i) ← h.listGET_OWNER_OF_NEXT_ENTRY l
    let (h, is) ← h.nextEntries l n
    some (h, i :: is)

/-- Round robin: however often the next entry of a list is taken, the items come in turn, in the
order in which they stand behind the index, and the list itself stays as it is. -/
theorem nextEntries_round_robin (hq : h.Represents q) (hne : (q l).items ≠ []) (n : Nat) :
    ∃ h' is r, h.nextEntries l n = some (h', is) ∧ is.length = n ∧
      (∀ j < n, is[j]? = (q l).service[j % (q l).items.length]?) ∧
      h'.Represents (Function.update q l r) ∧ r.items = (q l).items ∧
      r.service = (q l).service.rotate n := by
  induction n generalizing h q with
  | zero =>
    refine ⟨h, [], q l, rfl, rfl, ?_, ?_, rfl, ?_⟩
    · intro j hj
      cases hj
    · rwa [Function.update_eq_self]
    · rw [List.rotate_zero]
  | succ n ih =>
    obtain ⟨i, is, hs⟩ : ∃ i is, (q l).service = i :: is := by
      rw [← List.ne_nil_iff_exists_cons]
      intro hnil
      apply hne
      simpa [Queue.items, Queue.service, and_comm] using hnil
    -- the first entry, and then the others from the advanced list
    obtain ⟨h₁, hnext, -, -, hq₁⟩ := hq.listGET_OWNER_OF_NEXT_ENTRY hs
    have hadvance : (q l).advance.service = (q l).service.rotate 1 := by
      rw [Queue.service_advance _ hs, hs]
      simp
    have hlength : (q l).service.length = (q l).items.length := by
      simp [Queue.service, Queue.items, Nat.add_comm]
    have hne₁ : (Function.update q l (q l).advance l).items ≠ [] := by simpa using hne
    obtain ⟨h₂, js, r, hjs, hjslength, hserved, hq₂, hr, hservice⟩ := ih hq₁ hne₁
    rw [Function.update_self] at hserved hr hservice
    rw [Queue.items_advance] at hserved hr
    refine ⟨h₂, i :: js, r, ?_, ?_, ?_, ?_, hr, ?_⟩
    · simp [nextEntries, hnext, hjs]
    · simpa using hjslength
    · intro j hj
      cases j with
      | zero => simp [hs]
      | succ j =>
        -- turn `j + 1` is turn `j` after a rotation by one
        have hpos : 0 < (q l).items.length := List.length_pos_iff.2 hne
        have hmod : j % (q l).items.length < (q l).service.length := by
          rw [hlength]
          exact Nat.mod_lt _ hpos
        rw [List.getElem?_cons_succ, hserved j (by omega), hadvance, List.getElem?_rotate hmod,
          hlength, Nat.mod_add_mod]
    · rwa [Function.update_idem] at hq₂
    · rw [hservice, hadvance, List.rotate_rotate, Nat.add_comm]

theorem represents_sample_full :
    ((sample.vListInsertEnd () .five).vListInsertEnd () .three).Represents
      (Function.update (Function.update (fun _ => ⟨[], []⟩) () ⟨[.five], []⟩) ()
        ⟨[.five, .three], []⟩) :=
  represents_sample_five.vListInsertEnd rfl ()

theorem nextEntries_round_robin_sample : ∃ h' is r,
    ((sample.vListInsertEnd () .five).vListInsertEnd () .three).nextEntries () 3 =
        some (h', is) ∧
      is.length = 3 ∧ (∀ j < 3, is[j]? = [SampleItem.five, .three][j % 2]?) ∧
      h'.Represents (Function.update (Function.update (Function.update
        (fun _ => ⟨[], []⟩) () ⟨[.five], []⟩) () ⟨[.five, .three], []⟩) () r) ∧
      r.items = [.five, .three] ∧ r.service = [SampleItem.five, .three].rotate 3 :=
  nextEntries_round_robin represents_sample_full (by simp [Queue.items]) 3

end Heap

end Sanntid.FreeRTOS
