import Sanntid.Transition.Threads
import Sanntid.Transition.Mutex
import Sanntid.Philosophers.Table

/-!
# The back-out solution

`eat_safe` of `ex3/taskF/main.c`, which `main` runs in five threads: fifty rounds of `trylock` on
the own fork and then on the next one, with the own fork given back when the next one is taken, and
a round of rest (`just_ate`) after each meal.

`Move` lists what a statement can do; the invariants are checked against it. The branch after the
meal that would keep both forks needs `just_ate`, which a thread at that point never has
(`Local.JustAteOk`).
-/

set_option autoImplicit false

namespace Sanntid.Philosophers.Safe

open Sanntid.Transition

/-- The statement of `eat_safe` that a thread executes next. `giveUp` is the end of both `continue`
branches before the meal. -/
inductive Point where
  | loopHead
  | tryOwn
  | tryNext
  | backOut
  | giveUp
  | eat
  | testJustAte
  | setJustAte
  | unlockOwn
  | unlockNext
  | returned
  deriving DecidableEq

/-- The loop counter, `just_ate` and the program point. -/
structure Local where
  i : Nat
  justAte : Bool
  point : Point
  deriving DecidableEq

/-- Who has locked each fork. -/
abbrev Shared := Phil → Option Phil

/-- `pthread_mutex_trylock`; `none` when the fork is locked. -/
def trylock (s : Shared) (f p : Phil) : Option Shared :=
  if s f = none then some (Function.update s f (some p)) else none

/-- `pthread_mutex_unlock`. -/
def unlock (s : Shared) (f : Phil) : Shared := Function.update s f none

/-- The thread goes on, in the same round. -/
def Local.goto (l : Local) (p : Point) : Local := { l with point := p }

/-- `continue`, and the end of the body. -/
def Local.continue (l : Local) : Local := { l with i := l.i + 1, point := .loopHead }

/-- One statement of `eat_safe`; `none` where the philosopher has to wait. -/
def exec (p : Phil) (l : Local) (s : Shared) : Option (Local × Shared) :=
  match l.point with
  | .loopHead => some (l.goto (if l.i < rounds then .tryOwn else .returned), s)
  | .tryOwn =>
    if l.justAte then some (l.goto .giveUp, s)
    else
      match trylock s p p with
      | some s' => some (l.goto .tryNext, s')
      | none => some (l.goto .giveUp, s)
  | .tryNext =>
    match trylock s (nextFork p) p with
    | some s' => some (l.goto .eat, s')
    | none => some (l.goto .backOut, s)
  | .backOut => some (l.goto .giveUp, unlock s p)
  | .giveUp => some ({ l with justAte := false }.continue, s)
  | .eat => some (l.goto .testJustAte, s)
  -- this `continue` would leave both forks locked
  | .testJustAte => some (if l.justAte then l.continue else l.goto .setJustAte, s)
  | .setJustAte => some ({ l with justAte := true, point := .unlockOwn }, s)
  | .unlockOwn => some (l.goto .unlockNext, unlock s p)
  | .unlockNext => some (l.continue, unlock s (nextFork p))
  | .returned => none

/-- Every philosopher runs `eat_safe`. -/
def eatSafe : Program Phil Local Shared where
  exec := exec

/-- All five threads before their first round, all forks free. -/
def start : Config Phil Local Shared where
  thread := fun _ => ⟨0, false, .loopHead⟩
  shared := fun _ => none

/-- All interleavings of the five threads, from the start. -/
def safeSystem : System (Config Phil Local Shared) Phil := eatSafe.system (· = start)

/-! ## What a statement does -/

/-- What one statement does to its thread and to the forks, by cases. -/
inductive Move (p : Phil) (s : Shared) : Local → Local → Shared → Prop
  | enter {i : Nat} {j : Bool} : i < rounds → Move p s ⟨i, j, .loopHead⟩ ⟨i, j, .tryOwn⟩ s
  | leave {i : Nat} {j : Bool} : ¬ i < rounds → Move p s ⟨i, j, .loopHead⟩ ⟨i, j, .returned⟩ s
  | rest {i : Nat} : Move p s ⟨i, true, .tryOwn⟩ ⟨i, true, .giveUp⟩ s
  | takeOwn {i : Nat} : s p = none →
      Move p s ⟨i, false, .tryOwn⟩ ⟨i, false, .tryNext⟩ (Function.update s p (some p))
  | missOwn {i : Nat} : s p ≠ none → Move p s ⟨i, false, .tryOwn⟩ ⟨i, false, .giveUp⟩ s
  | takeNext {i : Nat} {j : Bool} : s (nextFork p) = none →
      Move p s ⟨i, j, .tryNext⟩ ⟨i, j, .eat⟩ (Function.update s (nextFork p) (some p))
  | missNext {i : Nat} {j : Bool} : s (nextFork p) ≠ none →
      Move p s ⟨i, j, .tryNext⟩ ⟨i, j, .backOut⟩ s
  | backOut {i : Nat} {j : Bool} :
      Move p s ⟨i, j, .backOut⟩ ⟨i, j, .giveUp⟩ (Function.update s p none)
  | giveUp {i : Nat} {j : Bool} : Move p s ⟨i, j, .giveUp⟩ ⟨i + 1, false, .loopHead⟩ s
  | eat {i : Nat} {j : Bool} : Move p s ⟨i, j, .eat⟩ ⟨i, j, .testJustAte⟩ s
  | keepForks {i : Nat} : Move p s ⟨i, true, .testJustAte⟩ ⟨i + 1, true, .loopHead⟩ s
  | goOn {i : Nat} : Move p s ⟨i, false, .testJustAte⟩ ⟨i, false, .setJustAte⟩ s
  | setJustAte {i : Nat} {j : Bool} : Move p s ⟨i, j, .setJustAte⟩ ⟨i, true, .unlockOwn⟩ s
  | unlockOwn {i : Nat} {j : Bool} :
      Move p s ⟨i, j, .unlockOwn⟩ ⟨i, j, .unlockNext⟩ (Function.update s p none)
  | unlockNext {i : Nat} {j : Bool} :
      Move p s ⟨i, j, .unlockNext⟩ ⟨i + 1, j, .loopHead⟩ (Function.update s (nextFork p) none)

theorem move_of_exec {p : Phil} {l l' : Local} {s s' : Shared}
    (h : exec p l s = some (l', s')) : Move p s l l' s' := by
  rcases l with ⟨i, j, point⟩
  cases point with
  | loopHead =>
    simp only [exec, Local.goto, Option.some.injEq, Prod.mk.injEq] at h
    obtain ⟨rfl, rfl⟩ := h
    by_cases hi : i < rounds
    · simpa [hi] using Move.enter hi
    · simpa [hi] using Move.leave hi
  | tryOwn =>
    cases j with
    | true =>
      simp only [exec, Local.goto, if_true, Option.some.injEq, Prod.mk.injEq] at h
      obtain ⟨rfl, rfl⟩ := h
      -- just ate: no attempt in this round
      exact .rest
    | false =>
      by_cases hfree : s p = none
      · simp only [exec, trylock, hfree, Local.goto, if_true, Bool.false_eq_true, if_false,
          Option.some.injEq, Prod.mk.injEq] at h
        obtain ⟨rfl, rfl⟩ := h
        exact .takeOwn hfree
      · simp only [exec, trylock, hfree, Local.goto, Bool.false_eq_true, if_false,
          Option.some.injEq, Prod.mk.injEq] at h
        obtain ⟨rfl, rfl⟩ := h
        exact .missOwn hfree
  | tryNext =>
    by_cases hfree : s (nextFork p) = none
    · simp only [exec, trylock, hfree, Local.goto, if_true, Option.some.injEq,
        Prod.mk.injEq] at h
      obtain ⟨rfl, rfl⟩ := h
      exact .takeNext hfree
    · simp only [exec, trylock, hfree, Local.goto, if_false, Option.some.injEq,
        Prod.mk.injEq] at h
      obtain ⟨rfl, rfl⟩ := h
      exact .missNext hfree
  | testJustAte =>
    cases j with
    | true =>
      simp only [exec, if_true, Option.some.injEq, Prod.mk.injEq] at h
      obtain ⟨rfl, rfl⟩ := h
      exact .keepForks
    | false =>
      simp only [exec, Bool.false_eq_true, if_false, Option.some.injEq, Prod.mk.injEq] at h
      obtain ⟨rfl, rfl⟩ := h
      exact .goOn
  | returned => simp [exec] at h
  | _ =>
    simp only [exec, Option.some.injEq, Prod.mk.injEq] at h
    obtain ⟨rfl, rfl⟩ := h
    constructor

/-- A thread can step until it has returned. -/
theorem exec_eq_none {p : Phil} {l : Local} {s : Shared} (h : exec p l s = none) :
    l.point = .returned := by
  rcases l with ⟨i, j, point⟩
  cases point with
  | returned => rfl
  | tryOwn =>
    simp only [exec] at h
    split at h
    · simp at h
    · split at h <;> simp at h
  | tryNext =>
    simp only [exec] at h
    split at h <;> simp at h
  | _ => simp [exec] at h

/-! ## The invariant -/

/-- The thread has the fork of its own number. -/
@[simp] def Point.holdsOwn : Point → Bool
  | .tryNext | .backOut | .eat | .testJustAte | .setJustAte | .unlockOwn => true
  | _ => false

/-- The thread has the fork of the next number. -/
@[simp] def Point.holdsNext : Point → Bool
  | .eat | .testJustAte | .setJustAte | .unlockOwn | .unlockNext => true
  | _ => false

/-- The forks that a thread holds at its program point. -/
def Held (p : Phil) (l : Local) (f : Phil) : Prop :=
  f = p ∧ l.point.holdsOwn = true ∨ f = nextFork p ∧ l.point.holdsNext = true

/-- A thread that has taken a fork has not eaten in the round before, and one that gives its forks
back after a meal remembers the meal. -/
def Local.JustAteOk (l : Local) : Prop :=
  match l.point with
  | .tryNext | .backOut | .eat | .testJustAte | .setJustAte => l.justAte = false
  | .unlockOwn | .unlockNext => l.justAte = true
  | _ => True

/-- The loop counter stays within its bound. -/
def Local.RoundOk (l : Local) : Prop :=
  match l.point with
  | .loopHead => l.i ≤ rounds
  | .returned => l.i = rounds
  | _ => l.i < rounds

/-- The locked forks are those that the threads hold, `just_ate` is set after a meal and only then,
and the rounds stay within the loop. -/
structure Inv (c : Config Phil Local Shared) : Prop where
  owns : Owns Held c.shared c.thread
  justAte : ∀ p, (c.thread p).JustAteOk
  round : ∀ p, (c.thread p).RoundOk

theorem Move.owns {s s' : Shared} {thread : Phil → Local} {p : Phil} {l : Local}
    (h : Owns Held s thread) (hok : (thread p).JustAteOk) (hmove : Move p s (thread p) l s') :
    Owns Held s' (Function.update thread p l) := by
  have hne := nextFork_ne p
  generalize ht : thread p = t at hmove hok
  cases hmove with
  | enter _ | leave _ | rest | missOwn _ | missNext _ | giveUp | eat | goOn | setJustAte =>
    apply h.stay
    intro f
    simp [Held, ht]
  | takeOwn hfree =>
    apply h.lock hfree
    intro f
    simp [Held, ht]
  | takeNext hfree =>
    -- a thread holds its next fork in addition to its own
    apply h.lock hfree
    intro f
    simp [Held, ht, or_comm]
  | backOut =>
    apply h.unlock (by simp [Held, ht])
    intro f
    simp [Held, ht]
  | keepForks => exact absurd hok (by simp [Local.JustAteOk])
  | unlockOwn =>
    -- the own fork is not the next one
    apply h.unlock (by simp [Held, ht])
    intro f
    simp only [Held, ht, Point.holdsOwn, Point.holdsNext]
    grind
  | unlockNext =>
    apply h.unlock (by simp [Held, ht])
    intro f
    simp [Held, ht]

theorem Move.justAteOk {s s' : Shared} {p : Phil} {l l' : Local} (hmove : Move p s l l' s')
    (hok : l.JustAteOk) : l'.JustAteOk := by
  cases hmove with
  | takeOwn _ | goOn | setJustAte => exact rfl
  | takeNext _ | missNext _ | eat | unlockOwn => exact hok
  | _ => exact trivial

theorem Move.roundOk {s s' : Shared} {p : Phil} {l l' : Local} (hmove : Move p s l l' s')
    (hok : l.RoundOk) : l'.RoundOk := by
  cases hmove with
  | enter hi => exact hi
  | leave hi => exact le_antisymm hok (Nat.le_of_not_lt hi)
  | giveUp | keepForks | unlockNext => exact Nat.succ_le_of_lt hok
  | _ => exact hok

theorem reachable_inv {c : Config Phil Local Shared} (h : safeSystem.Reachable c) : Inv c := by
  refine System.Reachable.invariant (I := Inv) ?_ ?_ h
  · rintro c rfl
    exact ⟨fun f p => by simp [start, Held], fun p => trivial, fun p => Nat.zero_le _⟩
  · intro c p d _ hc hstep
    obtain ⟨l, s, hexec, rfl⟩ := Program.exec_cases hstep
    have hmove := move_of_exec hexec
    refine ⟨hmove.owns hc.owns (hc.justAte p), ?_, ?_⟩
    · apply (Function.forall_update_iff c.thread fun _ x => x.JustAteOk).2
      exact ⟨hmove.justAteOk (hc.justAte p), fun q _ => hc.justAte q⟩
    · apply (Function.forall_update_iff c.thread fun _ x => x.RoundOk).2
      exact ⟨hmove.roundOk (hc.round p), fun q _ => hc.round q⟩

/-! ## Ownership of the forks -/

theorem Inv.not_both_eating {c : Config Phil Local Shared} (h : Inv c) {p q : Phil}
    (hpq : Neighbours p q) : ¬ ((c.thread p).point = .eat ∧ (c.thread q).point = .eat) := by
  rintro ⟨hp, hq⟩
  apply hpq.not_both id h.owns
  · simp [Held, hp]
  · simp [Held, hq]

/-- The fork that a statement of `p` unlocks. -/
def unlocked (p : Phil) : Point → Option Phil
  | .backOut => some p
  | .unlockOwn => some p
  | .unlockNext => some (nextFork p)
  | _ => none

theorem Inv.unlocked_owned {c : Config Phil Local Shared} (h : Inv c) {p f : Phil}
    (hf : unlocked p (c.thread p).point = some f) : c.shared f = some p := by
  rw [h.owns f p]
  cases hp : (c.thread p).point with
  | backOut | unlockOwn =>
    obtain rfl := Option.some.inj (hp ▸ hf)
    exact Or.inl ⟨rfl, by rw [hp]; rfl⟩
  | unlockNext =>
    obtain rfl := Option.some.inj (hp ▸ hf)
    exact Or.inr ⟨rfl, by rw [hp]; rfl⟩
  | _ => simp [hp, unlocked] at hf

theorem Inv.holds_nothing {c : Config Phil Local Shared} (h : Inv c) {p : Phil}
    (hp : (c.thread p).point = .loopHead ∨ (c.thread p).point = .returned) (f : Phil) :
    c.shared f ≠ some p := by
  rw [Ne, h.owns f p]
  rcases hp with hp | hp <;> simp [Held, hp]

/-! ## Termination -/

/-- The order of the statements in a round. -/
def Point.place : Point → Nat
  | .tryOwn => 11
  | .tryNext => 10
  | .eat => 9
  | .testJustAte => 8
  | .setJustAte => 7
  | .unlockOwn => 6
  | .unlockNext => 5
  | .backOut => 4
  | .giveUp => 3
  | .loopHead => 1
  | .returned => 0

/-- An upper bound for the statements a thread has left. -/
def rank (l : Local) : Nat :=
  match l.point with
  | .loopHead => 12 * (rounds - l.i) + 1
  | .returned => 0
  | point => 12 * (rounds - 1 - l.i) + point.place

theorem Move.rank_lt {s s' : Shared} {p : Phil} {l l' : Local} (hmove : Move p s l l' s') :
    rank l' < rank l := by
  cases hmove with
  | enter hi =>
    simp only [rank, Point.place]
    omega
  | giveUp | keepForks | unlockNext =>
    simp only [rank, Point.place]
    omega
  | _ => simp [rank, Point.place]

theorem decreasing_rank : safeSystem.Decreasing fun c => totalRank rank c.thread :=
  decreasing_totalRank rank fun _ _ _ _ _ hexec => (move_of_exec hexec).rank_lt

theorem returned_of_terminal {c : Config Phil Local Shared} (h : safeSystem.Terminal c) (p : Phil) :
    (c.thread p).point = .returned :=
  exec_eq_none (Program.terminal_iff.1 h p)

/-! ## Meals -/

/-- Thread `p` eats in this step. -/
def Eats (p : Phil) (q : Config Phil Local Shared × Phil) : Prop :=
  q.2 = p ∧ (q.1.thread p).point = .eat

instance (p : Phil) (q : Config Phil Local Shared × Phil) : Decidable (Eats p q) :=
  inferInstanceAs (Decidable (_ ∧ _))

/-- Where a thread can be once it has eaten in round `k`: not at a further meal before round
`k + 2`. -/
def AfterMeal (k : Nat) (l : Local) : Prop :=
  match l.point with
  | .loopHead | .tryOwn => k + 1 = l.i ∧ l.justAte = true ∨ k + 1 < l.i
  | .giveUp => k < l.i
  | .tryNext | .backOut | .eat => k + 1 < l.i
  | .testJustAte | .setJustAte | .unlockOwn | .unlockNext => k = l.i ∨ k + 1 < l.i
  | .returned => True

theorem Move.afterMeal {s s' : Shared} {p : Phil} {l l' : Local} {k : Nat}
    (hmove : Move p s l l' s') (hok : l.JustAteOk) (h : AfterMeal k l) : AfterMeal k l' := by
  cases hmove with
  | keepForks => exact absurd hok (by simp [Local.JustAteOk])
  | unlockNext =>
    obtain rfl : _ = true := hok
    simp only [AfterMeal, and_true] at h ⊢
    omega
  | _ =>
    simp only [AfterMeal, and_true, Bool.false_eq_true, and_false, false_or] at h ⊢
    try omega

theorem Move.afterMeal_of_eat {s s' : Shared} {p : Phil} {l l' : Local}
    (hmove : Move p s l l' s') (hl : l.point = .eat) : AfterMeal l.i l' := by
  cases hmove with
  | eat => exact Or.inl rfl
  | _ => simp at hl

/-- No philosopher eats in two rounds in a row. -/
theorem not_consecutive {tr : List (Config Phil Local Shared × Phil)}
    {c : Config Phil Local Shared} (h : safeSystem.Execution tr c) (p : Phil) :
    (∀ q ∈ tr, Eats p q → AfterMeal (q.1.thread p).i (c.thread p)) ∧
      ∀ q ∈ tr, ∀ q' ∈ tr, Eats p q → Eats p q' →
        (q'.1.thread p).i ≠ (q.1.thread p).i + 1 := by
  refine System.Execution.induct (fun _ _ => by simp) ?_ h
  intro tr c i d hexec ⟨hafter, hsep⟩ hstep
  obtain ⟨l, s, hl, rfl⟩ := Program.exec_cases hstep
  have hmove := move_of_exec hl
  have hok := (reachable_inv hexec.reachable).justAte i
  -- a meal in this step comes at least two rounds after every meal before it
  have hlast : Eats p (c, i) → ∀ q ∈ tr, Eats p q → (q.1.thread p).i + 1 < (c.thread p).i := by
    rintro ⟨-, heat⟩ q hq hqe
    have hq' := hafter q hq hqe
    rwa [AfterMeal, heat] at hq'
  constructor
  · -- where the thread is now, for old meals and for this one
    intro q hq hqe
    rcases List.mem_append.1 hq with hq | hq
    · by_cases hi : i = p
      · subst hi
        simpa using hmove.afterMeal hok (hafter q hq hqe)
      · simpa [Function.update_of_ne (Ne.symm hi)] using hafter q hq hqe
    · obtain rfl := List.mem_singleton.1 hq
      obtain ⟨rfl, heat⟩ := hqe
      simpa using hmove.afterMeal_of_eat heat
  · -- two old meals, or this one against an old one
    intro q hq q' hq' hqe hqe'
    rcases List.mem_append.1 hq with hq | hq <;> rcases List.mem_append.1 hq' with hq' | hq'
    · exact hsep q hq q' hq' hqe hqe'
    · obtain rfl := List.mem_singleton.1 hq'
      have hlt := hlast hqe' q hq hqe
      show (c.thread p).i ≠ _
      omega
    · obtain rfl := List.mem_singleton.1 hq
      have hlt := hlast hqe q' hq' hqe'
      show _ ≠ (c.thread p).i + 1
      omega
    · obtain rfl := List.mem_singleton.1 hq
      obtain rfl := List.mem_singleton.1 hq'
      omega

/-- Twice the meals that a thread may have had. -/
def mealBound (l : Local) : Nat :=
  match l.point with
  | .loopHead | .tryOwn | .returned => l.i + l.justAte.toNat
  | .giveUp => l.i + 1
  | .tryNext | .backOut | .eat => l.i
  | .testJustAte | .setJustAte | .unlockOwn | .unlockNext => l.i + 2

theorem Move.mealBound_le {s s' : Shared} {p : Phil} {l l' : Local} (hmove : Move p s l l' s')
    (hok : l.JustAteOk) : (mealBound l + if l.point = .eat then 2 else 0) ≤ mealBound l' := by
  cases hmove with
  | unlockNext =>
    obtain rfl : _ = true := hok
    simp [mealBound]
  | _ => simp [mealBound]

theorem mealBound_lt {l : Local} (h : l.RoundOk) : mealBound l < 2 * 26 := by
  rcases l with ⟨i, j, point⟩
  have hj := Bool.toNat_le j
  cases point <;> simp only [Local.RoundOk, rounds] at h <;> simp only [mealBound] <;> omega

theorem meals_le {tr : List (Config Phil Local Shared × Phil)} {c : Config Phil Local Shared}
    (h : safeSystem.Execution tr c) (p : Phil) :
    tr.countP (fun q => decide (Eats p q)) ≤ 25 := by
  have htwice : 2 * tr.countP (fun q => decide (Eats p q)) ≤ mealBound (c.thread p) := by
    refine System.Execution.mul_countP_le (f := fun d => mealBound (d.thread p)) ?_ h
    intro d q e hd hstep
    obtain ⟨l, s, hexec, rfl⟩ := Program.exec_cases hstep
    by_cases hq : q = p
    · subst hq
      simpa [Eats] using (move_of_exec hexec).mealBound_le ((reachable_inv hd).justAte q)
    · simp [Eats, hq, Function.update_of_ne (Ne.symm hq)]
  have hbound := mealBound_lt ((reachable_inv h.reachable).round p)
  omega

/-- The forks of `eat_safe`: neighbours never eat at the same time; a fork is unlocked by its owner
only; a thread at the head of its loop or returned owns no fork; no philosopher eats in two rounds
in a row, nor more than 25 times; there is no infinite run, and a run that cannot be extended ends
with all threads returned and all forks free. -/
theorem forks_owned :
    (∀ c, safeSystem.Reachable c →
        (∀ p q, Neighbours p q →
          ¬ ((c.thread p).point = .eat ∧ (c.thread q).point = .eat)) ∧
        (∀ p f, unlocked p (c.thread p).point = some f → c.shared f = some p) ∧
        ∀ p, (c.thread p).point = .loopHead ∨ (c.thread p).point = .returned →
          ∀ f, c.shared f ≠ some p) ∧
      (∀ tr c, safeSystem.Execution tr c → ∀ p,
        (∀ q ∈ tr, ∀ q' ∈ tr, Eats p q → Eats p q' →
          (q'.1.thread p).i ≠ (q.1.thread p).i + 1) ∧
        tr.countP (fun q => decide (Eats p q)) ≤ 25) ∧
      (∀ f : Nat → Config Phil Local Shared, safeSystem.init (f 0) →
        ¬ ∀ n, ∃ p, safeSystem.Step (f n) p (f (n + 1))) ∧
      ∀ tr c, safeSystem.Complete tr c →
        (∀ p, (c.thread p).point = .returned) ∧ ∀ f, c.shared f = none := by
  refine ⟨fun c hc => ?_, fun tr c hexec p => ?_,
    fun f h₀ => System.no_infinite_run decreasing_rank f h₀, ?_⟩
  · have hinv := reachable_inv hc
    exact ⟨fun p q hpq => hinv.not_both_eating hpq, fun p f hf => hinv.unlocked_owned hf,
      fun p hp => hinv.holds_nothing hp⟩
  · exact ⟨(not_consecutive hexec p).2, meals_le hexec p⟩
  · rintro tr c ⟨hexec, hterm⟩
    -- a thread that has returned owns no fork
    have hret := returned_of_terminal hterm
    refine ⟨hret, fun f => ?_⟩
    rw [Option.eq_none_iff_forall_ne_some]
    intro p
    exact (reachable_inv hexec.reachable).holds_nothing (Or.inr (hret p)) f

end Sanntid.Philosophers.Safe
