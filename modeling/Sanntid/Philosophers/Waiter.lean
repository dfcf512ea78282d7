import Sanntid.Transition.Threads
import Sanntid.Transition.Mutex
import Sanntid.Philosophers.Table

/-!
# The waiter solution

`eat_waiter` of `ex3/taskF/main.c`: five threads, each fifty rounds of locking `waiter`, its own
fork and the next one, unlocking `waiter`, eating, and unlocking the two forks.

A thread that waits for a fork keeps `waiter` locked, so the forks can only be given back by threads
that do not need it. `Inv.returned_of_terminal` uses that: of all threads that hold a fork, the ones
past the unlock of `waiter` can always step, and at most one thread is before it.
-/

set_option autoImplicit false

namespace Sanntid.Philosophers

open Sanntid.Transition

namespace Waiter

/-- The mutexes of the file. -/
inductive MutexId where
  | forks (i : Phil)
  | waiter
  deriving DecidableEq

/-- The statement of `eat_waiter` that a thread executes next. -/
inductive Point where
  | loopHead
  | lockWaiter
  | lockOwn
  | lockNext
  | unlockWaiter
  | eat
  | unlockOwn
  | unlockNext
  | returned
  deriving DecidableEq

/-- The loop counter and the program point. -/
structure Local where
  i : Nat
  point : Point

/-- The thread goes on, in the same round. -/
@[simp] def Local.goto (l : Local) (p : Point) : Local := { l with point := p }

/-- Who has locked each mutex. -/
abbrev Shared := MutexId → Option Phil

/-- `pthread_mutex_lock`, which blocks on a locked mutex. -/
def lock (s : Shared) (m : MutexId) (p : Phil) (l : Local) : Option (Local × Shared) :=
  if s m = none then some (l, Function.update s m (some p)) else none

/-- `pthread_mutex_unlock`. -/
def unlock (s : Shared) (m : MutexId) (l : Local) : Option (Local × Shared) :=
  some (l, Function.update s m none)

/-- One statement of `eat_waiter`; `none` where the philosopher has to wait. -/
def exec (p : Phil) (l : Local) (s : Shared) : Option (Local × Shared) :=
  match l.point with
  | .loopHead => some (l.goto (if l.i < rounds then .lockWaiter else .returned), s)
  | .lockWaiter => lock s .waiter p (l.goto .lockOwn)
  | .lockOwn => lock s (.forks p) p (l.goto .lockNext)
  | .lockNext => lock s (.forks (nextFork p)) p (l.goto .unlockWaiter)
  | .unlockWaiter => unlock s .waiter (l.goto .eat)
  | .eat => some (l.goto .unlockOwn, s)
  | .unlockOwn => unlock s (.forks p) (l.goto .unlockNext)
  | .unlockNext => unlock s (.forks (nextFork p)) ⟨l.i + 1, .loopHead⟩
  | .returned => none

/-- Every philosopher runs `eat_waiter`. -/
def eatWaiter : Program Phil Local Shared where
  exec := exec

/-- All five threads before their first round, all mutexes free. -/
def start : Config Phil Local Shared where
  thread := fun _ => ⟨0, .loopHead⟩
  shared := fun _ => none

/-- All interleavings of the five threads, from the start. -/
def waiterSystem : System (Config Phil Local Shared) Phil := eatWaiter.system (· = start)

/-! ## What a statement does -/

/-- What one statement does to its thread and to the mutexes, by cases. -/
inductive Move (p : Phil) (s : Shared) : Local → Local → Shared → Prop
  | enter {i : Nat} : i < rounds → Move p s ⟨i, .loopHead⟩ ⟨i, .lockWaiter⟩ s
  | leave {i : Nat} : ¬ i < rounds → Move p s ⟨i, .loopHead⟩ ⟨i, .returned⟩ s
  | lockWaiter {i : Nat} : s .waiter = none →
      Move p s ⟨i, .lockWaiter⟩ ⟨i, .lockOwn⟩ (Function.update s .waiter (some p))
  | lockOwn {i : Nat} : s (.forks p) = none →
      Move p s ⟨i, .lockOwn⟩ ⟨i, .lockNext⟩ (Function.update s (.forks p) (some p))
  | lockNext {i : Nat} : s (.forks (nextFork p)) = none →
      Move p s ⟨i, .lockNext⟩ ⟨i, .unlockWaiter⟩
        (Function.update s (.forks (nextFork p)) (some p))
  | unlockWaiter {i : Nat} :
      Move p s ⟨i, .unlockWaiter⟩ ⟨i, .eat⟩ (Function.update s .waiter none)
  | eat {i : Nat} : Move p s ⟨i, .eat⟩ ⟨i, .unlockOwn⟩ s
  | unlockOwn {i : Nat} :
      Move p s ⟨i, .unlockOwn⟩ ⟨i, .unlockNext⟩ (Function.update s (.forks p) none)
  | unlockNext {i : Nat} :
      Move p s ⟨i, .unlockNext⟩ ⟨i + 1, .loopHead⟩
        (Function.update s (.forks (nextFork p)) none)

theorem move_of_exec {p : Phil} {l l' : Local} {s s' : Shared}
    (h : exec p l s = some (l', s')) : Move p s l l' s' := by
  rcases l with ⟨i, point⟩
  cases point with
  | loopHead =>
    simp only [exec, Local.goto, Option.some.injEq, Prod.mk.injEq] at h
    obtain ⟨rfl, rfl⟩ := h
    by_cases hi : i < rounds
    · simpa [hi] using Move.enter hi
    · simpa [hi] using Move.leave hi
  | lockWaiter | lockOwn | lockNext =>
    simp only [exec, lock, Option.ite_none_right_eq_some, Option.some.injEq, Prod.mk.injEq] at h
    obtain ⟨hfree, rfl, rfl⟩ := h
    constructor
    exact hfree
  | returned => simp [exec] at h
  | _ =>
    simp only [exec, unlock, Option.some.injEq, Prod.mk.injEq] at h
    obtain ⟨rfl, rfl⟩ := h
    constructor

/-! ## Who holds what -/

/-- The thread has the waiter. -/
@[simp] def Point.holdsWaiter : Point → Bool
  | .lockOwn | .lockNext | .unlockWaiter => true
  | _ => false

/-- The thread has the fork of its own number. -/
@[simp] def Point.holdsOwn : Point → Bool
  | .lockNext | .unlockWaiter | .eat | .unlockOwn => true
  | _ => false

/-- The thread has the fork of the next number. -/
@[simp] def Point.holdsNext : Point → Bool
  | .unlockWaiter | .eat | .unlockOwn | .unlockNext => true
  | _ => false

/-- The mutexes that a thread holds at its program point. -/
def Held (p : Phil) (l : Local) : MutexId → Prop
  | .waiter => l.point.holdsWaiter = true
  | .forks f => f = p ∧ l.point.holdsOwn = true ∨ f = nextFork p ∧ l.point.holdsNext = true

/-- The loop counter stays within its bound. -/
def Local.RoundOk (l : Local) : Prop :=
  match l.point with
  | .loopHead => l.i ≤ rounds
  | .returned => l.i = rounds
  | _ => l.i < rounds

/-- The mutexes are those that the threads hold, and the rounds stay within the loop. -/
structure Inv (c : Config Phil Local Shared) : Prop where
  owns : Owns Held c.shared c.thread
  round : ∀ p, (c.thread p).RoundOk

/-! ## Steps -/

theorem Move.owns {s s' : Shared} {thread : Phil → Local} {p : Phil} {l : Local}
    (h : Owns Held s thread) (hmove : Move p s (thread p) l s') :
    Owns Held s' (Function.update thread p l) := by
  have hne := nextFork_ne p
  generalize ht : thread p = t at hmove
  cases hmove with
  | enter _ | leave _ | eat =>
    apply h.stay
    intro m
    cases m <;> simp [Held, ht]
  | lockWaiter hfree | lockOwn hfree | lockNext hfree =>
    apply h.lock hfree
    intro m
    cases m <;> simp [Held, ht, or_comm]
  | unlockWaiter | unlockOwn | unlockNext =>
    refine h.unlock ?_ fun m => ?_
    · simp [Held, ht]
    · cases m <;> simp [Held, ht]
      all_goals grind

theorem Move.roundOk {s s' : Shared} {p : Phil} {l l' : Local} (hmove : Move p s l l' s')
    (hok : l.RoundOk) : l'.RoundOk := by
  cases hmove with
  | enter hi => exact hi
  | leave hi => exact le_antisymm hok (Nat.le_of_not_lt hi)
  | unlockNext => exact Nat.succ_le_of_lt hok
  | _ => exact hok

theorem reachable_inv {c : Config Phil Local Shared} (h : waiterSystem.Reachable c) : Inv c := by
  refine System.Reachable.invariant (I := Inv) ?_ ?_ h
  · rintro c rfl
    refine ⟨fun m p => ?_, fun p => Nat.zero_le _⟩
    cases m <;> simp [start, Held]
  · intro c p d _ hc hstep
    obtain ⟨l, s, hexec, rfl⟩ := Program.exec_cases hstep
    have hmove := move_of_exec hexec
    refine ⟨hmove.owns hc.owns, ?_⟩
    apply (Function.forall_update_iff c.thread fun _ x => x.RoundOk).2
    exact ⟨hmove.roundOk (hc.round p), fun q _ => hc.round q⟩

/-! ## Neighbours -/

theorem Inv.not_both_eating {c : Config Phil Local Shared} (h : Inv c) {p q : Phil}
    (hpq : Neighbours p q) : ¬ ((c.thread p).point = .eat ∧ (c.thread q).point = .eat) := by
  rintro ⟨hp, hq⟩
  apply hpq.not_both .forks h.owns
  · simp [Held, hp]
  · simp [Held, hq]

/-! ## No deadlock -/

/-- What a thread that cannot step waits for. -/
theorem exec_eq_none {s : Shared} {p : Phil} {l : Local} (h : exec p l s = none) :
    l.point = .returned ∨ l.point = .lockWaiter ∧ s .waiter ≠ none ∨
      l.point = .lockOwn ∧ s (.forks p) ≠ none ∨
        l.point = .lockNext ∧ s (.forks (nextFork p)) ≠ none := by
  rcases l with ⟨i, point⟩
  cases point with
  | returned => exact Or.inl rfl
  | lockWaiter | lockOwn | lockNext => simpa [exec, lock] using h
  | _ => simp [exec, unlock] at h

/-- When no thread can step, all have returned. -/
theorem Inv.returned_of_terminal {c : Config Phil Local Shared} (h : Inv c)
    (hterm : waiterSystem.Terminal c) (p : Phil) : (c.thread p).point = .returned := by
  have hblocked := fun q => exec_eq_none (Program.terminal_iff.1 hterm q)
  -- a thread past its second lock can always step
  have hnext : ∀ q, (c.thread q).point.holdsNext = false := by
    intro q
    rcases hblocked q with hq | ⟨hq, -⟩ | ⟨hq, -⟩ | ⟨hq, -⟩ <;> simp [hq]
  -- so nobody waits for its own fork
  have hown : ∀ q, (c.thread q).point ≠ .lockOwn := by
    intro q hq
    rcases hblocked q with hr | ⟨hr, -⟩ | ⟨-, hfork⟩ | ⟨hr, -⟩
    · simp [hq] at hr
    · simp [hq] at hr
    · obtain ⟨r, -, ⟨rfl, hr⟩ | ⟨-, hr⟩⟩ := h.owns.exists_holder hfork
      · simp [hq] at hr
      · rw [hnext r] at hr
        exact absurd hr (by decide)
    · simp [hq] at hr
  -- nor for the next one
  have hlockNext : ∀ q, (c.thread q).point ≠ .lockNext := by
    intro q hq
    rcases hblocked q with hr | ⟨hr, -⟩ | ⟨hr, -⟩ | ⟨-, hfork⟩
    · simp [hq] at hr
    · simp [hq] at hr
    · simp [hq] at hr
    · obtain ⟨r, -, ⟨hqr, hr⟩ | ⟨-, hr⟩⟩ := h.owns.exists_holder hfork
      · -- the holder of the next fork is before its own second lock, with `waiter` locked too
        have hrlock : (c.thread r).point = .lockNext := by
          rcases hblocked r with hr' | ⟨hr', -⟩ | ⟨hr', -⟩ | ⟨hr', -⟩
          · simp [hr'] at hr
          · simp [hr'] at hr
          · simp [hr'] at hr
          · exact hr'
        have heq : q = r :=
          h.owns.unique (m := .waiter) (by simp [Held, hq]) (by simp [Held, hrlock])
        exact nextFork_ne q (hqr.trans heq.symm)
      · rw [hnext r] at hr
        exact absurd hr (by decide)
  -- and `waiter` is free
  rcases hblocked p with hp | ⟨-, hwaiter⟩ | ⟨hp, -⟩ | ⟨hp, -⟩
  · exact hp
  · obtain ⟨r, -, hr⟩ := h.owns.exists_holder hwaiter
    rcases hblocked r with hr' | ⟨hr', -⟩ | ⟨hr', -⟩ | ⟨hr', -⟩
    · simp [Held, hr'] at hr
    · simp [Held, hr'] at hr
    · exact absurd hr' (hown r)
    · exact absurd hr' (hlockNext r)
  · exact absurd hp (hown p)
  · exact absurd hp (hlockNext p)

/-! ## Termination -/

/-- An upper bound for the statements a thread has left. -/
def rank (l : Local) : Nat :=
  match l.point with
  | .loopHead => 9 * (rounds - l.i) + 1
  | .lockWaiter => 9 * (rounds - 1 - l.i) + 8
  | .lockOwn => 9 * (rounds - 1 - l.i) + 7
  | .lockNext => 9 * (rounds - 1 - l.i) + 6
  | .unlockWaiter => 9 * (rounds - 1 - l.i) + 5
  | .eat => 9 * (rounds - 1 - l.i) + 4
  | .unlockOwn => 9 * (rounds - 1 - l.i) + 3
  | .unlockNext => 9 * (rounds - 1 - l.i) + 2
  | .returned => 0

theorem Move.rank_lt {s s' : Shared} {p : Phil} {l l' : Local} (hmove : Move p s l l' s') :
    rank l' < rank l := by
  cases hmove with
  | enter hi =>
    simp only [rank]
    omega
  | unlockNext =>
    simp only [rank]
    omega
  | _ => simp [rank]

theorem decreasing_rank : waiterSystem.Decreasing fun c => totalRank rank c.thread :=
  decreasing_totalRank rank fun _ _ _ _ _ hexec => (move_of_exec hexec).rank_lt

/-! ## Meals -/

/-- Thread `p` eats in this step. -/
def Eats (p : Phil) (q : Config Phil Local Shared × Phil) : Prop :=
  q.2 = p ∧ (q.1.thread p).point = .eat

instance (p : Phil) (q : Config Phil Local Shared × Phil) : Decidable (Eats p q) :=
  inferInstanceAs (Decidable (_ ∧ _))

/-- How often a thread has eaten. -/
def meals (l : Local) : Nat :=
  match l.point with
  | .unlockOwn | .unlockNext => l.i + 1
  | _ => l.i

theorem Move.meals_eq {s s' : Shared} {p : Phil} {l l' : Local} (hmove : Move p s l l' s') :
    meals l' = meals l + if l.point = .eat then 1 else 0 := by
  cases hmove <;> simp [meals]

theorem count_eats {tr : List (Config Phil Local Shared × Phil)} {c : Config Phil Local Shared}
    (h : waiterSystem.Execution tr c) (p : Phil) :
    tr.countP (fun q => decide (Eats p q)) = meals (c.thread p) := by
  refine System.Execution.countP_eq (f := fun d => meals (d.thread p)) ?_ ?_ h
  · rintro d rfl
    rfl
  · intro d q e _ hstep
    obtain ⟨l, s, hexec, rfl⟩ := Program.exec_cases hstep
    by_cases hq : q = p
    · subst hq
      simpa [Eats] using (move_of_exec hexec).meals_eq
    · simp [Eats, hq, Function.update_of_ne (Ne.symm hq)]

/-- The waiter solution feeds everybody: neighbours never eat at the same time; while a thread has
not returned, some thread can step; there is no infinite run; and a run that cannot be extended ends
with all threads returned, every philosopher fed in each round and all mutexes free. -/
theorem everybody_eats :
    (∀ c, waiterSystem.Reachable c → ∀ p q, Neighbours p q →
        ¬ ((c.thread p).point = .eat ∧ (c.thread q).point = .eat)) ∧
      (∀ c, waiterSystem.Reachable c → (∃ p, (c.thread p).point ≠ .returned) →
        ∃ p d, waiterSystem.Step c p d) ∧
      (∀ f : Nat → Config Phil Local Shared, waiterSystem.init (f 0) →
        ¬ ∀ n, ∃ p, waiterSystem.Step (f n) p (f (n + 1))) ∧
      ∀ tr c, waiterSystem.Complete tr c →
        (∀ p, (c.thread p).point = .returned) ∧
          (∀ p, tr.countP (fun q => decide (Eats p q)) = 50) ∧ ∀ m, c.shared m = none := by
  refine ⟨fun c hc p q hpq => (reachable_inv hc).not_both_eating hpq, ?_,
    fun f h₀ => System.no_infinite_run decreasing_rank f h₀, ?_⟩
  · rintro c hc ⟨p, hp⟩
    rw [← System.not_terminal_iff]
    intro hterm
    exact hp ((reachable_inv hc).returned_of_terminal hterm p)
  · rintro tr c ⟨hexec, hterm⟩
    have hc := reachable_inv hexec.reachable
    have hret := hc.returned_of_terminal hterm
    refine ⟨hret, fun p => ?_, fun m => hc.owns.free_iff.2 fun p => ?_⟩
    · -- one meal in each of the rounds that a returned thread has been through
      have hround := hc.round p
      simp only [Local.RoundOk, hret p] at hround
      rw [count_eats hexec p, meals, hret p, hround]
      rfl
    · cases m <;> simp [Held, hret p]

/-- There is such a run. -/
theorem exists_complete_run : ∃ tr c, waiterSystem.Complete tr c := by
  obtain ⟨tr, c, hrun, hterm⟩ :=
    System.exists_terminal_of_decreasing decreasing_rank ⟨[], System.Execution.nil (s := start) rfl⟩
  exact ⟨tr, c, ⟨start, rfl, hrun⟩, hterm⟩

end Waiter

end Sanntid.Philosophers
