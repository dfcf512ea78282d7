import Sanntid.Transition.Threads
import Sanntid.Transition.Semaphore

/-!
# Double-checked initialisation

`getSingleton` of `ex3/taskD/double_checked.c`, which `ex3/taskE` repeats. A call checks the global
pointer without the semaphore, and if it is `NULL` waits for the semaphore, checks again,
allocates the struct, and fills its fields in. Any number of threads call it any number of times;
their statements interleave. `malloc` succeeds and returns a struct with indeterminate fields.
-/

set_option autoImplicit false

namespace Sanntid.DoubleChecked

open Sanntid.Transition

/-- `struct Singleton`; `none` is an indeterminate value. -/
structure Singleton where
  a : Option Int
  b : Option Int
  c : Option Int
  d : Option Int
  deriving DecidableEq

/-- A struct as `malloc` returns it. -/
def Singleton.fresh : Singleton := ⟨none, none, none, none⟩

/-- The values that `getSingleton` gives the fields. -/
def Singleton.final : Singleton := ⟨some 1, some 22, some 333, some 4444⟩

/-- The globals, and the structs allocated so far. A pointer is an index of the heap. -/
structure Shared where
  gSingleton : Option Nat
  heap : List Singleton
  sem : Nat

/-- The statement of `getSingleton` that a thread executes next; `idle` is outside of a call. -/
inductive Point where
  | idle
  | firstCheck
  | semWait
  | secondCheck
  | malloc
  | writeA
  | writeB
  | writeC
  | writeD
  | semPost
  | finalRead
  deriving DecidableEq

/-- Where a thread is, and whether its call went through `sem_wait`. -/
structure Local where
  point : Point
  waited : Bool

/-- The thread goes on, in the same call. -/
def Local.goto (l : Local) (p : Point) : Local := { l with point := p }

/-- A write through `g_singleton`; `none` for a `NULL` pointer. -/
def Shared.store (s : Shared) (f : Singleton → Singleton) : Option Shared :=
  s.gSingleton.map fun p => { s with heap := s.heap.modify p f }

/-- One statement of `getSingleton`, or the beginning of a call by an idle thread; `none` where the
thread has to wait. -/
def exec (l : Local) (s : Shared) : Option (Local × Shared) :=
  match l.point with
  | .idle => some (⟨.firstCheck, false⟩, s)
  -- not under the semaphore
  | .firstCheck => some (l.goto (if s.gSingleton.isNone then .semWait else .finalRead), s)
  | .semWait =>
    if s.sem = 0 then none else some (⟨.secondCheck, true⟩, { s with sem := s.sem - 1 })
  | .secondCheck => some (l.goto (if s.gSingleton.isNone then .malloc else .semPost), s)
  -- the pointer is set before any field is written
  | .malloc =>
    some (l.goto .writeA,
      { s with gSingleton := some s.heap.length, heap := s.heap ++ [Singleton.fresh] })
  | .writeA => (s.store fun x => { x with a := some 1 }).map fun s' => (l.goto .writeB, s')
  | .writeB => (s.store fun x => { x with b := some 22 }).map fun s' => (l.goto .writeC, s')
  | .writeC => (s.store fun x => { x with c := some 333 }).map fun s' => (l.goto .writeD, s')
  | .writeD => (s.store fun x => { x with d := some 4444 }).map fun s' => (l.goto .semPost, s')
  | .semPost => some (l.goto .finalRead, { s with sem := s.sem + 1 })
  -- the call returns what `g_singleton` is now
  | .finalRead => some (l.goto .idle, s)

variable {ι : Type} [DecidableEq ι]

/-- Every thread calls `getSingleton`, as often as it likes. -/
def getSingleton : Program ι Local Shared where
  exec := fun _ => exec

/-- No call has begun, `g_singleton` is `NULL` and the semaphore is 1. -/
def start : Config ι Local Shared where
  thread := fun _ => ⟨.idle, false⟩
  shared := ⟨none, [], 1⟩

/-- All interleavings of the threads, from the start. -/
def singletonSystem : System (Config ι Local Shared) ι := getSingleton.system (· = start)

/-! ## What the runs are asked about -/

/-- The thread that takes the step is at a point. -/
def At (p : Point) (q : Config ι Local Shared × ι) : Prop := (q.1.thread q.2).point = p

instance (p : Point) (q : Config ι Local Shared × ι) : Decidable (At p q) :=
  inferInstanceAs (Decidable (_ = _))

omit [DecidableEq ι] in
/-- The struct behind `g_singleton` has all its fields. -/
def Finished (s : Shared) : Prop :=
  ∃ p, s.gSingleton = some p ∧ s.heap[p]? = some Singleton.final

instance (s : Shared) : Decidable (Finished s) :=
  match h : s.gSingleton with
  | none => isFalse (by simp [Finished, h])
  | some p => decidable_of_iff (s.heap[p]? = some Singleton.final) (by simp [Finished, h])

/-- A thread at this point has published the pointer and not yet written the last field. -/
def Point.initialising : Point → Bool
  | .writeA | .writeB | .writeC | .writeD => true
  | _ => false

/-- A thread at this point is between its `sem_wait` and its `sem_post`. -/
def Point.inside : Point → Bool
  | .secondCheck | .malloc | .writeA | .writeB | .writeC | .writeD | .semPost => true
  | _ => false

/-! ## The invariant -/

/-- The struct as the statements before a point leave it. -/
def writtenBefore : Point → Singleton
  | .writeA => Singleton.fresh
  | .writeB => ⟨some 1, none, none, none⟩
  | .writeC => ⟨some 1, some 22, none, none⟩
  | .writeD => ⟨some 1, some 22, some 333, none⟩
  | _ => Singleton.final

/-- The life of the global pointer: not set, set by a thread that fills the struct in, done. A
thread that reads it at the end of its call has seen it set, and after `sem_wait` it has seen it
done. -/
inductive Phase (thread : ι → Local) : Option Nat → List Singleton → Prop
  | unset (hpoint : ∀ i, (thread i).point.initialising = false ∧ (thread i).point ≠ .semPost ∧
      (thread i).point ≠ .finalRead) : Phase thread none []
  | filling (i : ι) (hi : (thread i).point.initialising = true)
      (hwaited : ∀ j, (thread j).point = .finalRead → (thread j).waited = false) :
      Phase thread (some 0) [writtenBefore (thread i).point]
  | done (hpoint : ∀ i, (thread i).point.initialising = false ∧ (thread i).point ≠ .malloc) :
      Phase thread (some 0) [Singleton.final]

/-- The semaphore guards the slow path, and the struct is as far as its thread has come. -/
structure Inv (c : Config ι Local Shared) : Prop where
  guarded : Guarded (fun l : Local => l.point.inside = true) c.shared.sem c.thread
  phase : Phase c.thread c.shared.gSingleton c.shared.heap
  not_waited : ∀ i, (c.thread i).point = .firstCheck → (c.thread i).waited = false

variable {c : Config ι Local Shared}

theorem Point.inside_of_initialising {p : Point} (h : p.initialising = true) : p.inside = true := by
  cases p <;> first | rfl | exact absurd h (by decide)

omit [DecidableEq ι] in
/-- While a thread fills the struct in, the struct is what its statements have left. -/
theorem Inv.filling (h : Inv c) {i : ι} (hi : (c.thread i).point.initialising = true) :
    c.shared.gSingleton = some 0 ∧ c.shared.heap = [writtenBefore (c.thread i).point] ∧
      ∀ j, (c.thread j).point = .finalRead → (c.thread j).waited = false := by
  have hphase := h.phase
  generalize c.shared.gSingleton = g at hphase ⊢
  generalize c.shared.heap = heap at hphase ⊢
  cases hphase with
  | unset hpoint =>
    rw [(hpoint i).1] at hi
    exact absurd hi (by decide)
  | filling j hj hwaited =>
    have hji : j = i :=
      h.guarded.unique (Point.inside_of_initialising hj) (Point.inside_of_initialising hi)
    subst hji
    exact ⟨rfl, rfl, hwaited⟩
  | done hpoint =>
    rw [(hpoint i).1] at hi
    exact absurd hi (by decide)

omit [DecidableEq ι] in
/-- A thread about to allocate finds the pointer not set. -/
theorem Inv.unset_of_malloc (h : Inv c) {i : ι} (hi : (c.thread i).point = .malloc) :
    c.shared.gSingleton = none ∧ c.shared.heap = [] ∧ ∀ j, (c.thread j).point ≠ .finalRead := by
  have hphase := h.phase
  generalize c.shared.gSingleton = g at hphase ⊢
  generalize c.shared.heap = heap at hphase ⊢
  cases hphase with
  | unset hpoint => exact ⟨rfl, rfl, fun j => (hpoint j).2.2⟩
  | filling j hj _ =>
    have hji : j = i :=
      h.guarded.unique (Point.inside_of_initialising hj) (by rw [hi]; rfl)
    subst hji
    rw [hi] at hj
    exact absurd hj (by decide)
  | done hpoint => exact absurd hi (hpoint i).2

omit [DecidableEq ι] in
/-- A thread about to post finds the struct finished. -/
theorem Inv.done_of_semPost (h : Inv c) {i : ι} (hi : (c.thread i).point = .semPost) :
    c.shared.gSingleton ≠ none ∧ ∀ j, (c.thread j).point.initialising = false := by
  have hphase := h.phase
  generalize c.shared.gSingleton = g at hphase ⊢
  generalize c.shared.heap = heap at hphase
  cases hphase with
  | unset hpoint => exact absurd hi (hpoint i).2.1
  | filling j hj _ =>
    have hji : j = i :=
      h.guarded.unique (Point.inside_of_initialising hj) (by rw [hi]; rfl)
    subst hji
    rw [hi] at hj
    exact absurd hj (by decide)
  | done hpoint => exact ⟨by simp, fun j => (hpoint j).1⟩

/-! ## Steps -/

section Moves

variable {thread : ι → Local} {g : Option Nat} {heap : List Singleton} {i : ι} {l : Local}

/-- A statement outside the initialisation, which leaves the globals alone. -/
theorem Phase.stay (h : Phase thread g heap) (hi : (thread i).point.initialising = false)
    (hl : l.point.initialising = false)
    (hunset : g = none → l.point ≠ .semPost ∧ l.point ≠ .finalRead)
    (hset : g ≠ none → l.point ≠ .malloc)
    (hread : l.point = .finalRead →
      l.waited = false ∨ ∀ j, (thread j).point.initialising = false) :
    Phase (Function.update thread i l) g heap := by
  cases h with
  | unset hpoint =>
    apply Phase.unset
    apply (Function.forall_update_iff thread fun _ x => x.point.initialising = false ∧
      x.point ≠ .semPost ∧ x.point ≠ .finalRead).2
    exact ⟨⟨hl, hunset rfl⟩, fun j _ => hpoint j⟩
  | filling k hk hwaited =>
    -- the thread that fills the struct in is another one
    have hki : k ≠ i := by
      rintro rfl
      rw [hi] at hk
      exact absurd hk (by decide)
    have hsame : Function.update thread i l k = thread k := Function.update_of_ne hki l thread
    rw [← hsame]
    apply Phase.filling k (by rwa [hsame])
    apply (Function.forall_update_iff thread fun _ x =>
      x.point = .finalRead → x.waited = false).2
    refine ⟨fun hpoint => (hread hpoint).resolve_right fun hnone => ?_, fun j _ => hwaited j⟩
    rw [hnone k] at hk
    exact absurd hk (by decide)
  | done hpoint =>
    apply Phase.done
    apply (Function.forall_update_iff thread fun _ x =>
      x.point.initialising = false ∧ x.point ≠ .malloc).2
    exact ⟨⟨hl, hset (by simp)⟩, fun j _ => hpoint j⟩

/-- The thread that fills the struct in moves on to the next field. -/
theorem Phase.fill (hl : l.point.initialising = true)
    (hwaited : ∀ j, (thread j).point = .finalRead → (thread j).waited = false) :
    Phase (Function.update thread i l) (some 0) [writtenBefore l.point] := by
  have hself : Function.update thread i l i = l := Function.update_self i l thread
  have hlp : l.point ≠ .finalRead := by
    intro hp
    rw [hp] at hl
    exact absurd hl (by decide)
  have hphase : Phase (Function.update thread i l) (some 0)
      [writtenBefore (Function.update thread i l i).point] := by
    apply Phase.filling i (by rwa [hself])
    apply (Function.forall_update_iff thread fun _ x =>
      x.point = .finalRead → x.waited = false).2
    exact ⟨fun hp => absurd hp hlp, fun j _ => hwaited j⟩
  rwa [hself] at hphase

end Moves

/-- The invariant after a statement of thread `i`, from its three parts. -/
theorem Inv.update (h : Inv c) {i : ι} {l : Local} {s : Shared}
    (hguarded : Guarded (fun l : Local => l.point.inside = true) s.sem
      (Function.update c.thread i l))
    (hphase : Phase (Function.update c.thread i l) s.gSingleton s.heap)
    (hl : l.point = .firstCheck → l.waited = false) : Inv ⟨Function.update c.thread i l, s⟩ := by
  refine ⟨hguarded, hphase, ?_⟩
  apply (Function.forall_update_iff c.thread fun _ x =>
    x.point = .firstCheck → x.waited = false).2
  exact ⟨hl, fun j _ => h.not_waited j⟩

/-- A statement that leaves the globals alone, does not enter or leave the guarded region, and is
not part of the initialisation. -/
theorem Inv.move (h : Inv c) {i : ι} {p : Point} (hin : p.inside = (c.thread i).point.inside)
    (hi : (c.thread i).point.initialising = false) (hp : p.initialising = false)
    (hfirst : p ≠ .firstCheck)
    (hunset : c.shared.gSingleton = none → p ≠ .semPost ∧ p ≠ .finalRead)
    (hset : c.shared.gSingleton ≠ none → p ≠ .malloc)
    (hread : p = .finalRead → (c.thread i).waited = false) :
    Inv ⟨Function.update c.thread i ((c.thread i).goto p), c.shared⟩ := by
  apply h.update
  · apply h.guarded.stay
    show p.inside = true ↔ _
    rw [hin]
  · exact h.phase.stay hi hp hunset hset fun hfinal => Or.inl (hread hfinal)
  · exact fun hp => absurd hp hfirst

/-- A field write of the thread that fills the struct in, up to the next field. -/
theorem Inv.write (h : Inv c) {i : ι} {p : Point} {f : Singleton → Singleton} {l : Local}
    {s : Shared} (hi : (c.thread i).point.initialising = true) (hp : p.initialising = true)
    (hf : f (writtenBefore (c.thread i).point) = writtenBefore p)
    (hexec : (c.shared.store f).map (fun s' => ((c.thread i).goto p, s')) = some (l, s)) :
    Inv ⟨Function.update c.thread i l, s⟩ := by
  obtain ⟨hg, hheap, hread⟩ := h.filling hi
  simp only [Shared.store, hg, hheap, Option.map_some, Option.some.injEq, Prod.mk.injEq] at hexec
  obtain ⟨rfl, rfl⟩ := hexec
  refine h.update (h.guarded.stay ?_) ?_ ?_
  · show p.inside = true ↔ (c.thread i).point.inside = true
    rw [Point.inside_of_initialising hp, Point.inside_of_initialising hi]
  · show Phase _ (some 0) [f (writtenBefore (c.thread i).point)]
    rw [hf]
    exact Phase.fill (l := (c.thread i).goto p) hp hread
  · intro hfirst
    rw [show p = .firstCheck from hfirst] at hp
    exact absurd hp (by decide)

theorem exec_inv (h : Inv c) {i : ι} {l : Local} {s : Shared}
    (hexec : exec (c.thread i) c.shared = some (l, s)) :
    Inv ⟨Function.update c.thread i l, s⟩ := by
  simp only [exec] at hexec
  cases hp : (c.thread i).point with
  | idle =>
    simp only [hp, Option.some.injEq, Prod.mk.injEq] at hexec
    obtain ⟨rfl, rfl⟩ := hexec
    refine h.update (h.guarded.stay (by simp [hp, Point.inside])) ?_ fun _ => rfl
    exact h.phase.stay (by rw [hp]; rfl) rfl (by simp) (by simp) (by simp)
  | firstCheck =>
    -- a call that takes the fast path has not waited
    simp only [hp, Option.some.injEq, Prod.mk.injEq] at hexec
    obtain ⟨rfl, rfl⟩ := hexec
    cases hg : c.shared.gSingleton with
    | none =>
      exact h.move (by rw [hp]; rfl) (by rw [hp]; rfl) rfl (by simp) (by simp) (by simp) (by simp)
    | some p =>
      exact h.move (by rw [hp]; rfl) (by rw [hp]; rfl) rfl (by simp) (by simp [hg]) (by simp)
        fun _ => h.not_waited i hp
  | semWait =>
    simp only [hp] at hexec
    split at hexec
    · simp at hexec
    · rename_i hsem
      simp only [Option.some.injEq, Prod.mk.injEq] at hexec
      obtain ⟨rfl, rfl⟩ := hexec
      refine h.update (h.guarded.enter hsem rfl) ?_ (by simp)
      exact h.phase.stay (by rw [hp]; rfl) rfl (by simp) (by simp) (by simp)
  | secondCheck =>
    simp only [hp, Option.some.injEq, Prod.mk.injEq] at hexec
    obtain ⟨rfl, rfl⟩ := hexec
    cases hg : c.shared.gSingleton with
    | none =>
      exact h.move (by rw [hp]; rfl) (by rw [hp]; rfl) rfl (by simp) (by simp) (by simp [hg])
        (by simp)
    | some p =>
      exact h.move (by rw [hp]; rfl) (by rw [hp]; rfl) rfl (by simp) (by simp [hg]) (by simp)
        (by simp)
  | malloc =>
    -- from `unset` to `filling`
    simp only [hp, Option.some.injEq, Prod.mk.injEq] at hexec
    obtain ⟨rfl, rfl⟩ := hexec
    obtain ⟨-, hheap, hread⟩ := h.unset_of_malloc hp
    refine h.update (h.guarded.stay (by simp [hp, Local.goto, Point.inside])) ?_ (by
      simp [Local.goto])
    rw [hheap]
    exact Phase.fill (l := (c.thread i).goto .writeA) rfl fun j hj => absurd hj (hread j)
  | writeA =>
    simp only [hp] at hexec
    exact h.write (by rw [hp]; rfl) rfl (by rw [hp]; rfl) hexec
  | writeB =>
    simp only [hp] at hexec
    exact h.write (by rw [hp]; rfl) rfl (by rw [hp]; rfl) hexec
  | writeC =>
    simp only [hp] at hexec
    exact h.write (by rw [hp]; rfl) rfl (by rw [hp]; rfl) hexec
  | writeD =>
    obtain ⟨hg, hheap, -⟩ := h.filling (i := i) (by rw [hp]; rfl)
    simp only [hp, Shared.store, hg, hheap, Option.map_some, Option.some.injEq,
      Prod.mk.injEq] at hexec
    obtain ⟨rfl, rfl⟩ := hexec
    refine h.update (h.guarded.stay (by simp [hp, Local.goto, Point.inside])) ?_ (by
      simp [Local.goto])
    -- nobody else is inside, so nobody is left in the initialisation
    apply Phase.done
    apply (Function.forall_update_iff c.thread fun _ x =>
      x.point.initialising = false ∧ x.point ≠ .malloc).2
    refine ⟨by simp [Local.goto, Point.initialising], fun j hj => ?_⟩
    have hout : (c.thread j).point.inside = false := by
      by_contra hin
      exact hj (h.guarded.unique (by simpa using hin) (by rw [hp]; rfl))
    constructor
    · by_contra hin
      rw [Bool.not_eq_false] at hin
      rw [Point.inside_of_initialising hin] at hout
      exact absurd hout (by decide)
    · intro hm
      rw [hm] at hout
      exact absurd hout (by decide)
  | semPost =>
    simp only [hp, Option.some.injEq, Prod.mk.injEq] at hexec
    obtain ⟨rfl, rfl⟩ := hexec
    obtain ⟨hset, hdone⟩ := h.done_of_semPost hp
    refine h.update (h.guarded.leave (by rw [hp]; rfl) (by simp [Local.goto, Point.inside])) ?_ (by
      simp [Local.goto])
    exact h.phase.stay (by rw [hp]; rfl) rfl (fun hnone => absurd hnone hset)
      (by simp [Local.goto]) fun _ => Or.inr hdone
  | finalRead =>
    simp only [hp, Option.some.injEq, Prod.mk.injEq] at hexec
    obtain ⟨rfl, rfl⟩ := hexec
    exact h.move (by rw [hp]; rfl) (by rw [hp]; rfl) rfl (by simp) (by simp) (by simp) (by simp)

omit [DecidableEq ι] in
theorem start_inv : Inv (start : Config ι Local Shared) :=
  ⟨Or.inl ⟨rfl, by simp [start, Point.inside]⟩,
    .unset fun _ => by simp [start, Point.initialising], by simp [start]⟩

theorem reachable_inv (h : (singletonSystem (ι := ι)).Reachable c) : Inv c := by
  refine System.Reachable.invariant (I := Inv) ?_ ?_ h
  · rintro c rfl
    exact start_inv
  · intro c i d _ hc hstep
    obtain ⟨l, s, hexec, rfl⟩ := Program.exec_cases hstep
    exact exec_inv hc hexec

end Sanntid.DoubleChecked
