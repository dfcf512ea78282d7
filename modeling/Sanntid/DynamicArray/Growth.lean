import Sanntid.DynamicArray.Model
import Sanntid.Transition.Object

/-!
# Stack clients and the growth of the array

A client that only appends and pops at the back keeps the window at the start of the block, so the
growth test of `array_insertBack` fires exactly when there is no room. What follows depends on the
growth rule: `ex2/taskC` doubles the capacity, `ex2/taskD` multiplies it by 1.5 and truncates. No
product overflows here, neither that of the growth rule nor that of the argument of `malloc`.

`exec_stacks` is the step lemma for both, with the condition that the rule grows where the test
fires. For 1.5 that fails at capacity 1 only (`stackServed_iff`). For 2 it never does, and the
capacity is a function of the largest length that the array has had (`capacity_law`).
-/

set_option autoImplicit false

namespace Sanntid.DynamicArray

open Sanntid.Control Sanntid.Memory Sanntid.Transition

/-- The operations of a stack client. -/
inductive StackOp where
  | insertBack (stuff : Int)
  | popBack
  deriving DecidableEq, Repr

/-- The operations on an array that grows by the rule `grow`. -/
def stackExec (grow : Int → Int) (a : Array) : StackOp → Except Fault Array
  | .insertBack stuff => insertBackGrowing Block.malloc grow a stuff
  | .popBack => .ok (arrayPopBack a)

/-- The array that grows by the rule `grow`, as an object. -/
def stackObject (grow : Int → Int) : Object Array StackOp Fault := ⟨stackExec grow⟩

/-- The capacity that `array_insertBack` of `ex2/taskD` asks for: `(long)a->capacity*1.5`, converted
to `long`. The product is a `double`, and exact below `2 ^ 51`. -/
def taskDGrowth (capacity : Int) : Int := 3 * capacity / 2

/-- The abstract stack. -/
def stack (xs : List Int) : StackOp → List Int
  | .insertBack stuff => xs ++ [stuff]
  | .popBack => xs.dropLast

/-- The calling discipline: a pop is issued only when the stack is not empty. -/
def PopsInside (ops : List StackOp) : Prop :=
  ∀ pre post, ops = pre ++ .popBack :: post → pre.foldl stack [] ≠ []

theorem PopsInside.of_append {ops ops' : List StackOp} (h : PopsInside (ops ++ ops')) :
    PopsInside ops := by
  rintro pre post rfl
  exact h pre (post ++ ops') (by simp)

/-- The discipline by position. -/
theorem popsInside_iff_take {ops : List StackOp} :
    PopsInside ops ↔
      ∀ n, (hn : n < ops.length) → ops[n] = .popBack → (ops.take n).foldl stack [] ≠ [] := by
  constructor
  · intro h n hn hop
    apply h (ops.take n) (ops.drop (n + 1))
    rw [← hop]
    simp
  · rintro h pre post rfl
    simpa using h pre.length (by simp)

/-- An array that represents a stack: its window begins with the block. -/
structure Stacks (a : Array) (xs : List Int) : Prop where
  valid : Valid a
  front : a.front = 0
  contents_eq : contents a = xs.map some

theorem Stacks.length {a : Array} {xs : List Int} (h : Stacks a xs) :
    arrayLength a = xs.length := by
  rw [← length_contents h.valid.front_le_back, h.contents_eq, List.length_map]

/-! ## One operation -/

/-- The capacity after an operation. -/
def nextCapacity (grow : Int → Int) (a : Array) : StackOp → Int
  | .insertBack _ => if a.capacity ≤ arrayLength a then grow a.capacity else a.capacity
  | .popBack => a.capacity

/-- Only an insert into a full array changes the capacity. -/
theorem full_of_nextCapacity_ne {grow : Int → Int} {a : Array} {op : StackOp} (h : Valid a)
    (hne : nextCapacity grow a op ≠ a.capacity) :
    (∃ stuff, op = .insertBack stuff) ∧ arrayLength a = a.capacity := by
  cases op with
  | insertBack stuff =>
    refine ⟨⟨stuff, rfl⟩, ?_⟩
    by_contra hlen
    apply hne
    rw [nextCapacity, if_neg]
    rw [full_iff h.front_nonneg h.back_le_capacity]
    rintro ⟨hfront, hback⟩
    apply hlen
    rw [arrayLength, hfront, hback, sub_zero]
  | popBack => exact absurd rfl hne

/-- The block after an operation is the one before it, with nothing done to it but the store of an
insert. -/
def SameBlock (a : Array) (op : StackOp) (a' : Array) : Prop :=
  match op with
  | .insertBack stuff => a.data.write a.back (some stuff) = .ok a'.data
  | .popBack => a'.data = a.data

/-- The simulation of one operation, where the rule grows whenever the growth test of an insert
fires. -/
theorem exec_stacks {grow : Int → Int} {a : Array} {xs : List Int} {op : StackOp}
    (h : Stacks a xs) (hpop : op = .popBack → xs ≠ [])
    (hgrow : ∀ stuff, op = .insertBack stuff → a.capacity ≤ arrayLength a →
      a.capacity < grow a.capacity) :
    ∃ a', stackExec grow a op = .ok a' ∧ Stacks a' (stack xs op) ∧
      a'.capacity = nextCapacity grow a op ∧
      (¬ SameBlock a op a' → (∃ stuff, op = .insertBack stuff) ∧ a.capacity ≤ arrayLength a) := by
  cases op with
  | insertBack stuff =>
    have hroom : ¬ (0 < a.front ∧ a.back = a.capacity) := by
      rw [h.front]
      omega
    obtain ⟨b, hb, hbvalid, hbfront, -, hbroom, hbcont, hbcap⟩ :=
      growthTest_spec grow h.valid (hgrow stuff rfl) hroom
    obtain ⟨a', ha', havalid, hafront, hacap, hastore, hacont⟩ :=
      insertBackGrowing_spec stuff hb hbvalid hbroom
    refine ⟨a', ha', ⟨havalid, by rw [hafront, hbfront, h.front], ?_⟩, hacap.trans hbcap, ?_⟩
    · rw [hacont, hbcont, h.contents_eq, stack, List.map_append, List.map_singleton]
    · intro hblock
      refine ⟨⟨stuff, rfl⟩, ?_⟩
      by_contra hnotfull
      -- the growth test has returned the array as it was
      rw [growthTest, if_neg hnotfull, Except.ok.injEq] at hb
      subst hb
      exact hblock hastore
  | popBack =>
    have hne : arrayEmpty a = false := by
      apply not_empty_of_contents
      rw [h.contents_eq]
      simpa using hpop rfl
    obtain ⟨x, -, hsnoc⟩ := h.valid.readable.arrayBack_spec hne
    refine ⟨_, rfl, ⟨valid_popBack h.valid hne, h.front, ?_⟩, rfl, fun hblock => absurd rfl hblock⟩
    rw [stack, List.map_dropLast, ← h.contents_eq, hsnoc, List.dropLast_concat]

theorem stacks_new {capacity : Int} (hc : 0 < capacity) :
    ∃ a, arrayNew Block.malloc capacity = .ok a ∧ Stacks a [] ∧ a.capacity = capacity := by
  obtain ⟨a, hnew, hvalid, hnil, hcap⟩ := valid_new hc
  refine ⟨a, hnew, ⟨hvalid, ?_, by rw [hnil, List.map_nil]⟩, hcap⟩
  rw [arrayNew, if_pos hc, Except.ok.injEq] at hnew
  rw [← hnew]

/-! ## Growing by 1.5 -/

/-- After every operation the array holds the stack, and the growth test of the next insert leaves
room: the store is below the capacity, and a growth raises the capacity above the length. -/
def StackServed (grow : Int → Int) (a₀ : Array) (ops : List StackOp) : Prop :=
  ∀ pre post, ops = pre ++ post →
    ∃ a, (stackObject grow).run a₀ pre = .ok a ∧ Valid a ∧
      contents a = (pre.foldl stack []).map some ∧
      ∀ stuff rest, post = .insertBack stuff :: rest →
        ∃ b, growthTest Block.malloc grow a = .ok b ∧ b.back < b.capacity ∧
          (a.capacity ≤ arrayLength a → arrayLength b < b.capacity)

/-- Every insert finds the stack empty. -/
def InsertsOnEmpty (ops : List StackOp) : Prop :=
  ∀ pre stuff post, ops = pre ++ .insertBack stuff :: post → pre.foldl stack [] = []

/-- Truncation takes the growth away at capacity 1, and nowhere else. -/
theorem lt_taskDGrowth {capacity : Int} (h : 2 ≤ capacity) : capacity < taskDGrowth capacity := by
  rw [taskDGrowth]
  omega

/-- The state of a stack client of `ex2/taskD` that started with capacity `c`. -/
structure StacksD (c : Int) (a : Array) (xs : List Int) : Prop where
  rep : Stacks a xs
  pos : 0 < a.capacity
  two_le : 2 ≤ c → 2 ≤ a.capacity

/-- Where the growth test fires, the rule grows: at capacity 2 and above, or since the stack is
empty and the test does not fire. -/
theorem StacksD.grows {c : Int} {a : Array} {xs : List Int} (h : StacksD c a xs)
    (hxs : 2 ≤ c ∨ xs = []) (hfull : a.capacity ≤ arrayLength a) :
    a.capacity < taskDGrowth a.capacity := by
  rcases hxs with hc | rfl
  · exact lt_taskDGrowth (h.two_le hc)
  · have hlen := h.rep.length
    have hpos := h.pos
    rw [List.length_nil] at hlen
    omega

theorem exec_stacksD {c : Int} {a : Array} {xs : List Int} {op : StackOp} (h : StacksD c a xs)
    (hpop : op = .popBack → xs ≠ [])
    (hinsert : ∀ stuff, op = .insertBack stuff → 2 ≤ c ∨ xs = []) :
    ∃ a', stackExec taskDGrowth a op = .ok a' ∧ StacksD c a' (stack xs op) := by
  obtain ⟨a', ha', hstacks, hcap, -⟩ :=
    exec_stacks h.rep hpop fun stuff hop => h.grows (hinsert stuff hop)
  have hpos := h.pos
  have htwo := h.two_le
  -- the rule never shrinks an array
  have hle : a.capacity ≤ a'.capacity := by
    rw [hcap]
    cases op with
    | insertBack stuff =>
      simp only [nextCapacity, taskDGrowth]
      split <;> omega
    | popBack => exact le_rfl
  exact ⟨a', ha', hstacks, by omega, fun hc => (htwo hc).trans hle⟩

/-- From capacity 2 on, and for a client that inserts into an empty stack only, the array serves
every sequence of operations. -/
theorem stackServed_of {a₀ : Array} {c : Int} (h₀ : StacksD c a₀ []) {ops : List StackOp}
    (hpops : PopsInside ops) (h : 2 ≤ c ∨ InsertsOnEmpty ops) :
    StackServed taskDGrowth a₀ ops := by
  have hinsert : ∀ pre stuff post, ops = pre ++ .insertBack stuff :: post →
      2 ≤ c ∨ pre.foldl stack [] = [] := fun pre stuff post hops =>
    h.imp_right fun hempty => hempty pre stuff post hops
  intro pre post hops
  -- the discipline of the client, at every operation of the prefix
  have hissued : ∀ pre' op post', pre = pre' ++ op :: post' →
      (op = .popBack → pre'.foldl stack [] ≠ []) ∧
        ∀ stuff, op = .insertBack stuff → 2 ≤ c ∨ pre'.foldl stack [] = [] := by
    rintro pre' op post' rfl
    constructor
    · rintro rfl
      exact hpops pre' (post' ++ post) (by simp [hops])
    · rintro stuff rfl
      exact hinsert pre' stuff (post' ++ post) (by simp [hops])
  obtain ⟨a, hrun, hstacks⟩ := Object.run_refines_of_history (O := stackObject taskDGrowth)
    (R := StacksD c)
    (G := fun xs op => (op = .popBack → xs ≠ []) ∧
      ∀ stuff, op = .insertBack stuff → 2 ≤ c ∨ xs = [])
    (fun _ _ _ hR hG => exec_stacksD hR hG.1 hG.2) h₀ hissued
  refine ⟨a, hrun, hstacks.rep.valid, hstacks.rep.contents_eq, ?_⟩
  rintro stuff rest rfl
  -- nothing pops at the front, so the window starts at 0
  have hroom : ¬ (0 < a.front ∧ a.back = a.capacity) := by
    rw [hstacks.rep.front]
    omega
  have hgrows := hstacks.grows (hinsert pre stuff rest hops)
  obtain ⟨b, hb, -, hbfront, hbback, hbroom, -, -⟩ :=
    growthTest_spec taskDGrowth hstacks.rep.valid hgrows hroom
  refine ⟨b, hb, hbroom, fun _ => ?_⟩
  rw [arrayLength, hbfront, hstacks.rep.front]
  omega

/-- An insert into an array of capacity 1 leaves the capacity at 1: the request is not larger than
what there is, and `array_reserve` returns. -/
theorem growthTest_one {a : Array} (h : a.capacity = 1) :
    growthTest Block.malloc taskDGrowth a = .ok a := by
  have hreq : taskDGrowth a.capacity ≤ a.capacity := by
    rw [h]
    decide
  by_cases hfull : a.capacity ≤ arrayLength a
  · rw [growthTest, if_pos hfull, arrayReserve, if_pos hreq]
  · rw [growthTest, if_neg hfull]

theorem capacity_one {a b : Array} {op : StackOp} (h : a.capacity = 1)
    (hexec : stackExec taskDGrowth a op = .ok b) : b.capacity = 1 := by
  cases op with
  | insertBack stuff =>
    rw [stackExec, insertBackGrowing_eq stuff (growthTest_one h), bind_eq_ok_iff] at hexec
    obtain ⟨d, -, hb⟩ := hexec
    obtain rfl := Except.ok.inj hb
    exact h
  | popBack =>
    obtain rfl := Except.ok.inj hexec
    exact h

/-- A client that is served from capacity 1 never inserts a second element. -/
theorem insertsOnEmpty_of_served {a₀ : Array} (h₀ : a₀.capacity = 1) {ops : List StackOp}
    (h : StackServed taskDGrowth a₀ ops) : InsertsOnEmpty ops := by
  intro pre stuff post hops
  obtain ⟨a, hrun, hvalid, hcont, hinsert⟩ := h pre _ hops
  have hone : a.capacity = 1 := Object.run_invariant (O := stackObject taskDGrowth)
    (I := fun a => a.capacity = 1) (G := fun _ _ => True)
    (fun _ _ _ hI _ hexec => capacity_one hI hexec) h₀ (fun _ _ _ _ _ _ => trivial) hrun
  obtain ⟨b, hb, hroom, -⟩ := hinsert stuff post rfl
  rw [growthTest_one hone, Except.ok.injEq] at hb
  subst hb
  -- the store is below capacity 1, so the window is empty
  have hempty : contents a = [] := by
    have hfront := hvalid.front_nonneg
    exact Block.window_empty _ (by omega)
  rwa [hempty, eq_comm, List.map_eq_nil_iff] at hcont

/-- For every capacity that `array_new` accepts and every stack client: the 1.5-growing array serves
the client if and only if it starts with capacity 2 at least, or every insert finds it empty. -/
theorem stackServed_iff (c : Int) (hc : 0 < c) :
    ∃ a₀, arrayNew Block.malloc c = .ok a₀ ∧ ∀ ops, PopsInside ops →
      (StackServed taskDGrowth a₀ ops ↔ 2 ≤ c ∨ InsertsOnEmpty ops) := by
  obtain ⟨a₀, hnew, hstacks, hcap⟩ := stacks_new hc
  have h₀ : StacksD c a₀ [] := ⟨hstacks, by omega, fun h => by omega⟩
  refine ⟨a₀, hnew, fun ops hpops => ⟨fun h => ?_, stackServed_of h₀ hpops⟩⟩
  by_cases htwo : 2 ≤ c
  · exact Or.inl htwo
  · exact Or.inr (insertsOnEmpty_of_served (by omega) h)

/-- Three elements from capacity 2, which grows to 3, and a pop. -/
theorem three_inserts_served :
    ∃ a₀, arrayNew Block.malloc 2 = .ok a₀ ∧
      StackServed taskDGrowth a₀ [.insertBack 7, .insertBack 8, .insertBack 9, .popBack] := by
  obtain ⟨a₀, hnew, hiff⟩ := stackServed_iff 2 (by decide)
  exact ⟨a₀, hnew, (hiff _ (popsInside_iff_take.2 (by decide))).2 (Or.inl le_rfl)⟩

/-- Two elements from capacity 1: the array does not grow, and the second store is past the
block. -/
theorem second_insert_outOfBounds :
    ∃ a₀, arrayNew Block.malloc 1 = .ok a₀ ∧ PopsInside [.insertBack 7, .insertBack 8] ∧
      (stackObject taskDGrowth).run a₀ [.insertBack 7, .insertBack 8] =
        .error (.outOfBounds 1 1) ∧
      ¬ StackServed taskDGrowth a₀ [.insertBack 7, .insertBack 8] := by
  have hfault : (stackObject taskDGrowth).run ⟨Block.malloc 1, 0, 0, 1⟩
      [.insertBack 7, .insertBack 8] = .error (.outOfBounds 1 1) := by rfl
  refine ⟨⟨Block.malloc 1, 0, 0, 1⟩, rfl, popsInside_iff_take.2 (by decide), hfault, fun h => ?_⟩
  obtain ⟨a, hrun, -⟩ := h _ [] (List.append_nil _).symm
  rw [hfault] at hrun
  simp at hrun

/-! ## Doubling -/

/-- The stack and the largest length it has had. -/
def peak (s : List Int × Nat) (op : StackOp) : List Int × Nat :=
  (stack s.1 op, max s.2 (stack s.1 op).length)

/-- The largest length that a client reaches. -/
def highWater (ops : List StackOp) : Nat := (ops.foldl peak ([], 0)).2

theorem foldl_peak_fst (ops : List StackOp) : (ops.foldl peak ([], 0)).1 = ops.foldl stack [] := by
  induction ops using List.reverseRecOn with
  | nil => rfl
  | append_singleton ops op ih =>
    rw [List.foldl_append, List.foldl_append, List.foldl_cons, List.foldl_nil, peak, ih,
      List.foldl_cons, List.foldl_nil]

theorem highWater_snoc (ops : List StackOp) (op : StackOp) :
    highWater (ops ++ [op]) = max (highWater ops) ((ops ++ [op]).foldl stack []).length := by
  rw [highWater, List.foldl_append, List.foldl_cons, List.foldl_nil, peak, foldl_peak_fst,
    List.foldl_append]
  rfl

/-- `highWater` is the largest of the lengths after the operations. -/
theorem isGreatest_highWater (ops : List StackOp) :
    IsGreatest {n | ∃ pre, pre <+: ops ∧ (pre.foldl stack []).length = n} (highWater ops) := by
  induction ops using List.reverseRecOn with
  | nil =>
    refine ⟨⟨[], List.prefix_rfl, rfl⟩, ?_⟩
    rintro n ⟨pre, hpre, rfl⟩
    rw [List.prefix_nil.1 hpre]
    exact le_rfl
  | append_singleton ops op ih =>
    obtain ⟨⟨pre, hpre, hlen⟩, hbound⟩ := ih
    rw [highWater_snoc]
    constructor
    · rcases le_total (highWater ops) ((ops ++ [op]).foldl stack []).length with hle | hle
      · exact ⟨ops ++ [op], List.prefix_rfl, (max_eq_right hle).symm⟩
      · exact ⟨pre, hpre.trans (List.prefix_append ops [op]), hlen.trans (max_eq_left hle).symm⟩
    · rintro n ⟨pre, hpre, rfl⟩
      rcases List.prefix_concat_iff.1 hpre with rfl | hpre
      · exact le_max_right _ _
      · exact le_max_of_le_left (hbound ⟨pre, hpre, rfl⟩)

/-- The least number of doublings of `c` that reaches `n`, when the next size is still reached. -/
theorem isLeast_doublings_stay {c n : Int} {k : Nat} (h : IsLeast {j : Nat | n ≤ c * 2 ^ j} k)
    (hlt : n < c * 2 ^ k) : IsLeast {j : Nat | n + 1 ≤ c * 2 ^ j} k := by
  refine ⟨Int.add_one_le_of_lt hlt, fun j hj => h.2 ?_⟩
  have hj' : n + 1 ≤ c * 2 ^ j := hj
  show n ≤ c * 2 ^ j
  omega

/-- The same when one doubling more is needed. -/
theorem isLeast_doublings_succ {c : Int} (hc : 0 < c) (k : Nat) :
    IsLeast {j : Nat | c * 2 ^ k + 1 ≤ c * 2 ^ j} (k + 1) := by
  have hpos : 0 < c * 2 ^ k := by positivity
  constructor
  · show c * 2 ^ k + 1 ≤ c * 2 ^ (k + 1)
    rw [pow_succ, ← mul_assoc]
    omega
  · intro j hj
    by_contra hlt
    have hle : c * 2 ^ j ≤ c * 2 ^ k := by
      gcongr
      · norm_num
      · omega
    have hj' : c * 2 ^ k + 1 ≤ c * 2 ^ j := hj
    omega

/-- A stack client of `ex2/taskC` that started with capacity `c`: the capacity is `c` doubled as
often as the largest length so far asks for. -/
structure StacksC (c : Int) (a : Array) (s : List Int × Nat) : Prop where
  rep : Stacks a s.1
  length_le : s.1.length ≤ s.2
  capacity : ∃ k : Nat, a.capacity = c * 2 ^ k ∧ IsLeast {j : Nat | (s.2 : Int) ≤ c * 2 ^ j} k

theorem StacksC.pos {c : Int} (hc : 0 < c) {a : Array} {s : List Int × Nat} (h : StacksC c a s) :
    0 < a.capacity := by
  obtain ⟨k, hk, -⟩ := h.capacity
  rw [hk]
  positivity

/-- Once the largest length exceeds `c`, the last doubling was needed. -/
theorem StacksC.capacity_lt {c : Int} {a : Array} {s : List Int × Nat} (h : StacksC c a s)
    (hc : c < s.2) : a.capacity < 2 * s.2 := by
  obtain ⟨k, hk, hleast⟩ := h.capacity
  cases k with
  | zero =>
    have hreach : (s.2 : Int) ≤ c * 2 ^ 0 := hleast.1
    omega
  | succ k =>
    -- one doubling less does not reach
    have hnot : ¬ (s.2 : Int) ≤ c * 2 ^ k := fun hle => by
      have hsucc := hleast.2 hle
      omega
    rw [hk, pow_succ, ← mul_assoc]
    omega

theorem exec_stacksC {c : Int} (hc : 0 < c) {a : Array} {s : List Int × Nat} {op : StackOp}
    (h : StacksC c a s) (hpop : op = .popBack → s.1 ≠ []) :
    ∃ a', stackExec taskCGrowth a op = .ok a' ∧ StacksC c a' (peak s op) ∧
      a'.capacity = nextCapacity taskCGrowth a op ∧
      (¬ SameBlock a op a' → (∃ stuff, op = .insertBack stuff) ∧ a.capacity ≤ arrayLength a) := by
  have hpos := h.pos hc
  have hgrow : a.capacity < taskCGrowth a.capacity := by
    rw [taskCGrowth]
    omega
  obtain ⟨a', ha', hstacks, hcap, hblock⟩ := exec_stacks h.rep hpop fun _ _ _ => hgrow
  refine ⟨a', ha', ⟨hstacks, le_max_right _ _, ?_⟩, hcap, hblock⟩
  obtain ⟨k, hk, hleast⟩ := h.capacity
  have hreach : (s.2 : Int) ≤ c * 2 ^ k := hleast.1
  have hle := h.length_le
  have hlength := h.rep.length
  cases op with
  | popBack =>
    -- the stack shrinks, and the largest length stays
    have hmax : max s.2 (s.1.dropLast).length = s.2 := by
      rw [List.length_dropLast]
      omega
    exact ⟨k, hcap.trans hk, by simpa only [peak, stack, hmax] using hleast⟩
  | insertBack stuff =>
    have hlen : (s.1 ++ [stuff]).length = s.1.length + 1 := by simp
    simp only [peak, stack, hlen]
    by_cases hfull : a.capacity ≤ arrayLength a
    · -- a full array: the largest length is the capacity, and both grow
      have hmax : ((max s.2 (s.1.length + 1) : Nat) : Int) = c * 2 ^ k + 1 := by omega
      refine ⟨k + 1, ?_, by simpa only [hmax] using isLeast_doublings_succ hc k⟩
      rw [hcap, nextCapacity, if_pos hfull, hk, taskCGrowth, pow_succ, mul_assoc]
    · refine ⟨k, by rw [hcap, nextCapacity, if_neg hfull, hk], ?_⟩
      by_cases hnew : s.1.length = s.2
      · have hmax : ((max s.2 (s.1.length + 1) : Nat) : Int) = s.2 + 1 := by omega
        simpa only [hmax] using isLeast_doublings_stay hleast (by omega)
      · have hmax : max s.2 (s.1.length + 1) = s.2 := by omega
        simpa only [hmax] using hleast

/-- Every stack client of the doubling array runs without a fault. -/
theorem run_stacksC {c : Int} (hc : 0 < c) {a₀ : Array} (h₀ : StacksC c a₀ ([], 0))
    {ops : List StackOp} (hpops : PopsInside ops) :
    ∃ a, (stackObject taskCGrowth).run a₀ ops = .ok a ∧ StacksC c a (ops.foldl peak ([], 0)) := by
  refine Object.run_refines_of_history (O := stackObject taskCGrowth) (R := StacksC c)
    (G := fun s op => op = .popBack → s.1 ≠ []) ?_ h₀ ?_
  · intro a s op hR hpop
    obtain ⟨a', ha', hR', -⟩ := exec_stacksC hc hR hpop
    exact ⟨a', ha', hR'⟩
  · rintro pre op post rfl rfl
    rw [foldl_peak_fst]
    exact hpops pre post rfl

/-- For every capacity `c` that `array_new` accepts and every stack client, with `H` the largest
length so far: the capacity is `c * 2 ^ k` with the least `k` that reaches `H`, so below `2 * H`
once `H` exceeds `c`; a pop does not change it, and an insert only in a full array. -/
theorem capacity_law (c : Int) (hc : 0 < c) :
    ∃ a₀, arrayNew Block.malloc c = .ok a₀ ∧ ∀ ops, PopsInside ops →
      ∃ a, (stackObject taskCGrowth).run a₀ ops = .ok a ∧
        (∃ k : Nat, a.capacity = c * 2 ^ k ∧
          IsLeast {j : Nat | (highWater ops : Int) ≤ c * 2 ^ j} k) ∧
        (c < highWater ops → a.capacity < 2 * highWater ops) ∧
        ∀ pre op, ops = pre ++ [op] →
          ∃ b, (stackObject taskCGrowth).run a₀ pre = .ok b ∧
            (op = .popBack → a.capacity = b.capacity) ∧
            (a.capacity ≠ b.capacity →
              (∃ stuff, op = .insertBack stuff) ∧ arrayLength b = b.capacity) ∧
            (¬ SameBlock b op a →
              (∃ stuff, op = .insertBack stuff) ∧ arrayLength b = b.capacity) := by
  obtain ⟨a₀, hnew, hstacks, hcap⟩ := stacks_new hc
  have h₀ : StacksC c a₀ ([], 0) := by
    refine ⟨hstacks, le_rfl, 0, by simp [hcap], ?_, fun j _ => Nat.zero_le j⟩
    show (0 : Int) ≤ c * 2 ^ 0
    omega
  refine ⟨a₀, hnew, fun ops hpops => ?_⟩
  obtain ⟨a, hrun, hR⟩ := run_stacksC hc h₀ hpops
  refine ⟨a, hrun, hR.capacity, hR.capacity_lt, ?_⟩
  rintro pre op rfl
  -- the array before the last operation
  obtain ⟨b, hb, hRb⟩ := run_stacksC hc h₀ hpops.of_append
  have hpop : op = .popBack → (pre.foldl peak ([], 0)).1 ≠ [] := by
    rintro rfl
    rw [foldl_peak_fst]
    exact hpops pre [] rfl
  obtain ⟨a', ha', -, hnext, hblock⟩ := exec_stacksC hc hRb hpop
  obtain rfl : a = a' := by
    rw [Object.run_snoc hb] at hrun
    exact Except.ok.inj (hrun.symm.trans ha')
  refine ⟨b, hb, fun hop => ?_, fun hne => ?_, fun hnew => ?_⟩
  · rw [hnext, hop, nextCapacity]
  · -- a change of the capacity is the doubling of a full array
    rw [hnext] at hne
    exact full_of_nextCapacity_ne hRb.rep.valid hne
  · -- another block comes from `array_reserve`, which only a full array calls
    obtain ⟨hop, hfull⟩ := hblock hnew
    have hbfront := hRb.rep.front
    have hbback := hRb.rep.valid.back_le_capacity
    refine ⟨hop, le_antisymm ?_ hfull⟩
    rw [arrayLength, hbfront, sub_zero]
    exact hbback

/-- From capacity 1: three elements take it to 4, and popping back to one element keeps it there. -/
theorem four_after_three_inserts :
    ∃ a₀, arrayNew Block.malloc 1 = .ok a₀ ∧
      ∃ a, (stackObject taskCGrowth).run a₀
          [.insertBack 7, .insertBack 8, .insertBack 9, .popBack, .popBack] = .ok a ∧
        a.capacity < 2 * 3 := by
  obtain ⟨a₀, hnew, hlaw⟩ := capacity_law 1 (by decide)
  have hpops : PopsInside [.insertBack 7, .insertBack 8, .insertBack 9, .popBack, .popBack] :=
    popsInside_iff_take.2 (by decide)
  obtain ⟨a, hrun, -, hbound, -⟩ := hlaw _ hpops
  exact ⟨a₀, hnew, a, hrun, hbound (by decide)⟩

end Sanntid.DynamicArray
