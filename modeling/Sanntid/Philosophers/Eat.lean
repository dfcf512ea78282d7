import Sanntid.Transition.Threads
import Sanntid.Transition.Mutex
import Sanntid.Philosophers.Table

/-!
# One meal without precautions

`eat` of `ex3/taskF/main.c`: five threads, each locking its own fork and then the next one, eating
once, and unlocking the two forks.

A run ends with all philosophers fed or with each of them holding its own fork and waiting for the
next. `eat_outcome` says which: the second way exactly if nobody ever gets a second fork.
`deadlock_possible_iff` says when it is still open: a deadlock can be reached as long as nobody has
got a second fork, and a meal for everybody as long as the deadlock is not there.
-/

set_option autoImplicit false

namespace Sanntid.Philosophers

open Sanntid.Transition

namespace Eat

/-- The statement of `eat` that a thread executes next. -/
inductive Point where
  | lockOwn
  | lockNext
  | eat
  | unlockOwn
  | unlockNext
  | returned
  deriving DecidableEq

/-- Who has locked each of the `forks`. -/
abbrev Shared := Phil → Option Phil

/-- `pthread_mutex_lock`, which blocks on a locked mutex. -/
def lock (s : Shared) (fork : Phil) (p : Phil) (point : Point) : Option (Point × Shared) :=
  if s fork = none then some (point, Function.update s fork (some p)) else none

/-- `pthread_mutex_unlock`. -/
def unlock (s : Shared) (fork : Phil) (point : Point) : Option (Point × Shared) :=
  some (point, Function.update s fork none)

/-- One statement of `eat`; `none` where the philosopher has to wait. -/
def exec (p : Phil) (point : Point) (s : Shared) : Option (Point × Shared) :=
  match point with
  | .lockOwn => lock s p p .lockNext
  | .lockNext => lock s (nextFork p) p .eat
  | .eat => some (.unlockOwn, s)
  | .unlockOwn => unlock s p .unlockNext
  | .unlockNext => unlock s (nextFork p) .returned
  | .returned => none

/-- Philosopher `p` runs `eat` once. -/
def eat : Program Phil Point Shared where
  exec := exec

/-- All five threads before their first lock, all forks free. -/
def start : Config Phil Point Shared where
  thread := fun _ => .lockOwn
  shared := fun _ => none

/-- All interleavings of the five threads, from the start. -/
def eatSystem : System (Config Phil Point Shared) Phil := eat.system (· = start)

/-! ## What a statement does -/

/-- What one statement does to its thread and to the forks, by cases. -/
inductive Move (p : Phil) (s : Shared) : Point → Point → Shared → Prop
  | lockOwn : s p = none → Move p s .lockOwn .lockNext (Function.update s p (some p))
  | lockNext : s (nextFork p) = none →
      Move p s .lockNext .eat (Function.update s (nextFork p) (some p))
  | eat : Move p s .eat .unlockOwn s
  | unlockOwn : Move p s .unlockOwn .unlockNext (Function.update s p none)
  | unlockNext : Move p s .unlockNext .returned (Function.update s (nextFork p) none)

theorem move_of_exec {p : Phil} {point point' : Point} {s s' : Shared}
    (h : exec p point s = some (point', s')) : Move p s point point' s' := by
  cases point with
  | lockOwn | lockNext =>
    simp only [exec, lock, Option.ite_none_right_eq_some, Option.some.injEq, Prod.mk.injEq] at h
    obtain ⟨hfree, rfl, rfl⟩ := h
    constructor
    exact hfree
  | returned => simp [exec] at h
  | _ =>
    simp only [exec, unlock, Option.some.injEq, Prod.mk.injEq] at h
    obtain ⟨rfl, rfl⟩ := h
    constructor

theorem move_of_step {c d : Config Phil Point Shared} {p : Phil} (h : eatSystem.Step c p d) :
    Move p c.shared (c.thread p) (d.thread p) d.shared ∧ ∀ q ≠ p, d.thread q = c.thread q := by
  refine ⟨?_, fun q hq => Program.thread_of_ne h hq⟩
  obtain ⟨point, s, hexec, rfl⟩ := Program.exec_cases h
  simpa using move_of_exec hexec

/-- What a thread that cannot step waits for. -/
theorem exec_eq_none {s : Shared} {p : Phil} {point : Point} (h : exec p point s = none) :
    point = .returned ∨ point = .lockOwn ∧ s p ≠ none ∨
      point = .lockNext ∧ s (nextFork p) ≠ none := by
  cases point with
  | returned => exact Or.inl rfl
  | lockOwn | lockNext => simpa [exec, lock] using h
  | _ => simp [exec, unlock] at h

/-! ## Who holds what -/

/-- The thread has the fork of its own number. -/
@[simp] def Point.holdsOwn : Point → Bool
  | .lockNext | .eat | .unlockOwn => true
  | _ => false

/-- The thread has the fork of the next number. -/
@[simp] def Point.holdsNext : Point → Bool
  | .eat | .unlockOwn | .unlockNext => true
  | _ => false

/-- The thread has got its second fork. -/
@[simp] def Point.served : Point → Bool
  | .lockOwn | .lockNext => false
  | _ => true

/-- The forks that a thread holds at its program point. -/
def Held (p : Phil) (point : Point) (fork : Phil) : Prop :=
  fork = p ∧ point.holdsOwn = true ∨ fork = nextFork p ∧ point.holdsNext = true

theorem Move.owns {s s' : Shared} {thread : Phil → Point} {p : Phil} {point : Point}
    (h : Owns Held s thread) (hmove : Move p s (thread p) point s') :
    Owns Held s' (Function.update thread p point) := by
  have hne := nextFork_ne p
  generalize ht : thread p = t at hmove
  cases hmove with
  | eat =>
    apply h.stay
    intro fork
    simp [Held, ht]
  | lockOwn hfree | lockNext hfree =>
    apply h.lock hfree
    intro fork
    simp [Held, ht, or_comm]
  | unlockOwn | unlockNext =>
    refine h.unlock ?_ fun fork => ?_
    · simp [Held, ht]
    · simp [Held, ht]
      all_goals grind

theorem owns_of_reachable {c : Config Phil Point Shared} (h : eatSystem.Reachable c) :
    Owns Held c.shared c.thread := by
  apply h.invariant (I := fun c => Owns Held c.shared c.thread)
  · rintro c rfl fork p
    simp [start, Held]
  · intro c p d _ hc hstep
    obtain ⟨point, s, hexec, rfl⟩ := Program.exec_cases hstep
    exact (move_of_exec hexec).owns hc

/-- A thread that has got its second fork keeps that state. -/
theorem Move.served {p : Phil} {s s' : Shared} {point point' : Point}
    (h : Move p s point point' s') :
    point'.served = (point.served || decide (point = .lockNext)) := by
  cases h <;> simp

/-- Everybody holds its own fork and waits for the next one. -/
def Deadlocked (c : Config Phil Point Shared) : Prop := ∀ p, c.thread p = .lockNext

/-- Everybody has eaten and put both forks back. -/
def AllReturned (c : Config Phil Point Shared) : Prop := ∀ p, c.thread p = .returned

/-- When no thread can step, all have returned or each waits for the next. -/
theorem terminal_cases {c : Config Phil Point Shared} (h : Owns Held c.shared c.thread)
    (hterminal : eatSystem.Terminal c) : AllReturned c ∨ Deadlocked c := by
  have hblocked := fun q => exec_eq_none (Program.terminal_iff.1 hterminal q)
  -- a thread past its second lock can always step
  have hnext : ∀ q, (c.thread q).holdsNext = false := by
    intro q
    rcases hblocked q with hq | ⟨hq, -⟩ | ⟨hq, -⟩ <;> simp [hq]
  -- so nobody waits for its own fork
  have hown : ∀ q, c.thread q = .returned ∨ c.thread q = .lockNext := by
    intro q
    rcases hblocked q with hq | ⟨hq, hfork⟩ | ⟨hq, -⟩
    · exact .inl hq
    · obtain ⟨r, -, ⟨rfl, hr⟩ | ⟨-, hr⟩⟩ := h.exists_holder hfork
      · simp [hq] at hr
      · rw [hnext r] at hr
        cases hr
    · exact .inr hq
  by_cases hwaits : ∃ p, c.thread p = .lockNext
  · right
    obtain ⟨p, hp⟩ := hwaits
    intro q
    apply forall_of_nextFork (P := fun p => c.thread p = .lockNext) ?_ hp
    -- the fork that one waits for is held by the next philosopher, who waits too
    intro q hq
    have hfork : c.shared (nextFork q) ≠ none := by
      rcases hblocked q with hr | ⟨hr, -⟩ | ⟨-, hfork⟩
      · rw [hq] at hr
        cases hr
      · rw [hq] at hr
        cases hr
      · exact hfork
    obtain ⟨r, -, ⟨hr, hholds⟩ | ⟨-, hholds⟩⟩ := h.exists_holder hfork
    · rw [hr]
      rcases hown r with hret | hlock
      · rw [hret] at hholds
        cases hholds
      · exact hlock
    · rw [hnext r] at hholds
      cases hholds
  · left
    intro q
    exact (hown q).resolve_right fun hq => hwaits ⟨q, hq⟩

/-! ## Termination -/

/-- The statements that a thread has left. -/
def rank : Point → Nat
  | .lockOwn => 5
  | .lockNext => 4
  | .eat => 3
  | .unlockOwn => 2
  | .unlockNext => 1
  | .returned => 0

theorem decreasing_rank : eatSystem.Decreasing fun c => totalRank rank c.thread := by
  apply decreasing_totalRank rank
  intro p point s point' s' hexec
  cases move_of_exec hexec <;> simp [rank]

/-! ## Meals -/

/-- Thread `p` eats in this step. -/
def Eats (p : Phil) (q : Config Phil Point Shared × Phil) : Prop :=
  q.2 = p ∧ q.1.thread p = .eat

instance (p : Phil) (q : Config Phil Point Shared × Phil) : Decidable (Eats p q) :=
  inferInstanceAs (Decidable (_ ∧ _))

/-- How often a thread has eaten. -/
def meals : Point → Nat
  | .lockOwn | .lockNext | .eat => 0
  | .unlockOwn | .unlockNext | .returned => 1

theorem Move.meals_eq {p : Phil} {s s' : Shared} {point point' : Point}
    (h : Move p s point point' s') :
    meals point' = meals point + if point = .eat then 1 else 0 := by
  cases h <;> simp [meals]

theorem count_eats {tr : List (Config Phil Point Shared × Phil)} {c : Config Phil Point Shared}
    (h : eatSystem.Execution tr c) (p : Phil) :
    tr.countP (fun q => decide (Eats p q)) = meals (c.thread p) := by
  refine System.Execution.countP_eq (f := fun d => meals (d.thread p)) ?_ ?_ h
  · rintro d rfl
    rfl
  · intro d q e _ hstep
    obtain ⟨hmove, hother⟩ := move_of_step hstep
    rcases eq_or_ne q p with rfl | hq
    · simpa [Eats] using hmove.meals_eq
    · simp [Eats, hq, hother p hq.symm]

/-- Somebody has got a second fork exactly if some step of the run was such a lock. -/
theorem served_iff {tr : List (Config Phil Point Shared × Phil)} {c : Config Phil Point Shared}
    (h : eatSystem.Execution tr c) :
    (∃ p, (c.thread p).served = true) ↔ ∃ q ∈ tr, q.1.thread q.2 = .lockNext := by
  refine System.Execution.induct ?_ ?_ h
  · rintro c rfl
    simp [start]
  · intro tr c p d _ ih hstep
    obtain ⟨hmove, hother⟩ := move_of_step hstep
    have hserved := hmove.served
    constructor
    · rintro ⟨q, hq⟩
      -- somebody was served before, or the last step is the lock
      rcases eq_or_ne q p with rfl | hne
      · rw [hserved, Bool.or_eq_true, decide_eq_true_eq] at hq
        rcases hq with hq | hq
        · obtain ⟨r, hr, hlock⟩ := ih.1 ⟨q, hq⟩
          exact ⟨r, by simp [hr], hlock⟩
        · exact ⟨(c, q), by simp, hq⟩
      · rw [hother q hne] at hq
        obtain ⟨r, hr, hlock⟩ := ih.1 ⟨q, hq⟩
        exact ⟨r, by simp [hr], hlock⟩
    · rintro ⟨q, hq, hlock⟩
      rcases List.mem_append.1 hq with hq | hq
      · obtain ⟨r, hr⟩ := ih.2 ⟨q, hq, hlock⟩
        refine ⟨r, ?_⟩
        rcases eq_or_ne r p with rfl | hne
        · rw [hserved, hr, Bool.true_or]
        · rw [hother r hne, hr]
      · obtain rfl := List.mem_singleton.1 hq
        have hlock : c.thread p = .lockNext := hlock
        exact ⟨p, by rw [hserved, hlock]; rfl⟩

/-- A complete run ends with everybody fed once and all forks free, or with each philosopher holding
its own fork and nobody fed; and it ends so exactly if nobody has ever got a second fork. Neighbours
never eat at the same time. -/
theorem eat_outcome {tr : List (Config Phil Point Shared × Phil)} {c : Config Phil Point Shared}
    (h : eatSystem.Complete tr c) :
    (AllReturned c ∧ (∀ p, tr.countP (fun q => decide (Eats p q)) = 1) ∧
        (∀ fork, c.shared fork = none) ∨
      Deadlocked c ∧ (∀ p, tr.countP (fun q => decide (Eats p q)) = 0) ∧
        ∀ fork, c.shared fork = some fork) ∧
      (Deadlocked c ↔ ∀ q ∈ tr, q.1.thread q.2 ≠ .lockNext) ∧
      ∀ q ∈ tr, ∀ p r, Neighbours p r → ¬ (q.1.thread p = .eat ∧ q.1.thread r = .eat) := by
  obtain ⟨hexec, hterminal⟩ := h
  have howns := owns_of_reachable hexec.reachable
  have hserved := served_iff hexec
  refine ⟨?_, ?_, ?_⟩
  · rcases terminal_cases howns hterminal with hreturned | hdeadlocked
    · left
      refine ⟨hreturned, fun p => ?_, fun fork => howns.free_iff.2 fun p => ?_⟩
      · rw [count_eats hexec, hreturned p]
        rfl
      · simp [Held, hreturned p]
    · right
      refine ⟨hdeadlocked, fun p => ?_, fun fork => (howns fork fork).2 ?_⟩
      · rw [count_eats hexec, hdeadlocked p]
        rfl
      · simp [Held, hdeadlocked fork]
  · constructor
    · intro hdeadlocked q hq hlock
      obtain ⟨p, hp⟩ := hserved.2 ⟨q, hq, hlock⟩
      rw [hdeadlocked p] at hp
      cases hp
    · intro hnone
      rcases terminal_cases howns hterminal with hreturned | hdeadlocked
      · obtain ⟨q, hq, hlock⟩ := hserved.1 ⟨0, by rw [hreturned 0]; rfl⟩
        exact absurd hlock (hnone q hq)
      · exact hdeadlocked
  · rintro q hq p r hneighbours ⟨hp, hr⟩
    -- both would hold the fork between them
    have hq' := owns_of_reachable (hexec.reachable_of_mem hq).1
    apply hneighbours.not_both id hq'
    · simp [Held, hp]
    · simp [Held, hr]

/-- All five take their own fork. -/
theorem eat_outcome_deadlock : ∃ tr c, eatSystem.Complete tr c ∧ Deadlocked c ∧
    ∀ q ∈ tr, q.1.thread q.2 ≠ .lockNext := by
  obtain ⟨tr, c, hrun, hpoints, hforks⟩ := eatSystem.exists_run_of_replay start [0, 1, 2, 3, 4]
    (fun _ c => (∀ p, c.thread p = .lockNext) ∧ ∀ p, (c.shared p).isSome) (by decide)
  have hterminal : eatSystem.Terminal c := by
    apply Program.terminal_iff.2
    intro p
    have hfork := hforks (nextFork p)
    rw [Option.isSome_iff_ne_none] at hfork
    simp [eat, exec, lock, hpoints p, hfork]
  have hcomplete : eatSystem.Complete tr c := ⟨⟨start, rfl, hrun⟩, hterminal⟩
  exact ⟨tr, c, hcomplete, hpoints, (eat_outcome hcomplete).2.1.1 hpoints⟩

/-! ## What is still open -/

/-- A philosopher that has not got a second fork is before its first lock or before its second. -/
theorem Point.of_not_served {point : Point} (h : point.served = false) :
    point = .lockOwn ∨ point = .lockNext := by
  cases point <;> simp at h ⊢

/-- While nobody has got a second fork, the fork of a philosopher before its first lock is free. -/
theorem free_of_lockOwn {c : Config Phil Point Shared} (h : Owns Held c.shared c.thread)
    (hnone : ∀ p, (c.thread p).served = false) {p : Phil} (hp : c.thread p = .lockOwn) :
    c.shared p = none := by
  rw [h.free_iff]
  rintro q (⟨rfl, hq⟩ | ⟨-, hq⟩)
  · rw [hp] at hq
    cases hq
  · rcases Point.of_not_served (hnone q) with hpoint | hpoint
    · rw [hpoint] at hq
      cases hq
    · rw [hpoint] at hq
      cases hq

theorem served_mono {c d : Config Phil Point Shared} {p q : Phil} (h : eatSystem.Step c p d)
    (hq : (c.thread q).served = true) : (d.thread q).served = true := by
  obtain ⟨hmove, hother⟩ := move_of_step h
  rcases eq_or_ne q p with rfl | hne
  · rw [hmove.served, hq, Bool.true_or]
  · rw [hother q hne, hq]

theorem not_deadlocked_of_served {c : Config Phil Point Shared} {p : Phil}
    (h : (c.thread p).served = true) : ¬ Deadlocked c := by
  intro hdeadlocked
  rw [hdeadlocked p] at h
  cases h

/-- Nothing happens after a deadlock. -/
theorem deadlock_terminal {c d : Config Phil Point Shared} {p : Phil} (h : eatSystem.Reachable c)
    (hdeadlocked : Deadlocked c) : ¬ eatSystem.Step c p d := by
  intro hstep
  obtain ⟨hmove, -⟩ := move_of_step hstep
  have howner : c.shared (nextFork p) = some (nextFork p) :=
    (owns_of_reachable h _ _).2 (.inl ⟨rfl, by rw [hdeadlocked]; rfl⟩)
  rw [hdeadlocked p] at hmove
  generalize d.thread p = point at hmove
  generalize d.shared = s at hmove
  cases hmove with
  | lockNext hfree =>
    rw [howner] at hfree
    cases hfree

/-- While nobody has got a second fork, somebody takes its own fork or the deadlock is there. -/
theorem exists_step_unserved {c : Config Phil Point Shared} (h : eatSystem.Reachable c)
    (hnone : ∀ p, (c.thread p).served = false) (hnot : ¬ Deadlocked c) :
    ∃ p d, eatSystem.Step c p d ∧ ∀ q, (d.thread q).served = false := by
  obtain ⟨p, hp⟩ := not_forall.1 hnot
  have hpoint := (Point.of_not_served (hnone p)).resolve_right hp
  have hfree := free_of_lockOwn (owns_of_reachable h) hnone hpoint
  have hexec : eat.exec p (c.thread p) c.shared =
      some (.lockNext, Function.update c.shared p (some p)) := by
    simp [eat, exec, lock, hpoint, hfree]
  refine ⟨p, _, Program.step_of_exec hexec, ?_⟩
  exact (Function.forall_update_iff c.thread fun _ x => x.served = false).2
    ⟨rfl, fun q _ => hnone q⟩

/-- While the deadlock is not there, it can be avoided in the next step. -/
theorem exists_step_not_deadlocked {c : Config Phil Point Shared} (h : eatSystem.Reachable c)
    (hnot : ¬ Deadlocked c) (hreturned : ¬ AllReturned c) :
    ∃ p d, eatSystem.Step c p d ∧ ¬ Deadlocked d := by
  by_cases hserved : ∃ p, (c.thread p).served = true
  · obtain ⟨p, hp⟩ := hserved
    have hterminal : ¬ eatSystem.Terminal c := fun hterminal =>
      (terminal_cases (owns_of_reachable h) hterminal).elim hreturned hnot
    obtain ⟨q, d, hstep⟩ := System.not_terminal_iff.1 hterminal
    exact ⟨q, d, hstep, not_deadlocked_of_served (served_mono hstep hp)⟩
  · have hnone : ∀ p, (c.thread p).served = false := by simpa using hserved
    obtain ⟨p, hp⟩ := not_forall.1 hnot
    have hpoint := (Point.of_not_served (hnone p)).resolve_right hp
    have howns := owns_of_reachable h
    -- the philosopher whose second fork is the fork of `p`
    obtain ⟨q, rfl⟩ := nextFork_surjective p
    rcases Point.of_not_served (hnone q) with hq | hq
    · have hfree := free_of_lockOwn howns hnone hq
      have hexec : eat.exec q (c.thread q) c.shared =
          some (.lockNext, Function.update c.shared q (some q)) := by
        simp [eat, exec, lock, hq, hfree]
      refine ⟨q, _, Program.step_of_exec hexec, fun hdeadlocked => hp ?_⟩
      simpa [Function.update_of_ne (nextFork_ne q)] using hdeadlocked (nextFork q)
    · have hfree := free_of_lockOwn howns hnone hpoint
      have hexec : eat.exec q (c.thread q) c.shared =
          some (.eat, Function.update c.shared (nextFork q) (some q)) := by
        simp [eat, exec, lock, hq, hfree]
      refine ⟨q, _, Program.step_of_exec hexec, fun hdeadlocked => ?_⟩
      simpa using hdeadlocked q

/-- A deadlock can still be reached exactly while nobody has got a second fork; and a meal for
everybody exactly while the deadlock is not there. -/
theorem deadlock_possible_iff {c : Config Phil Point Shared} (h : eatSystem.Reachable c) :
    ((∃ tr d, eatSystem.Run c tr d ∧ Deadlocked d) ↔ ∀ p, (c.thread p).served = false) ∧
      ((∃ tr d, eatSystem.Run c tr d ∧ AllReturned d) ↔ ¬ Deadlocked c) := by
  constructor
  · constructor
    · rintro ⟨tr, d, hrun, hdeadlocked⟩ p
      rw [← Bool.not_eq_true]
      intro hp
      -- who has got a second fork stays served, and in a deadlock nobody is
      have hserved : (d.thread p).served = true :=
        hrun.preserves (I := fun c => (c.thread p).served = true)
          (fun _ _ _ _ hc hstep => served_mono hstep hc) h hp
      exact not_deadlocked_of_served hserved hdeadlocked
    · intro hnone
      -- steps that serve nobody lead to the deadlock
      obtain ⟨tr, d, hrun, -, hdeadlocked⟩ := System.exists_run_of_decreasing decreasing_rank
        (fun c hc hnone hnot => exists_step_unserved hc hnone hnot) h hnone
      exact ⟨tr, d, hrun, hdeadlocked⟩
  · constructor
    · rintro ⟨tr, d, hrun, hreturned⟩ hdeadlocked
      have hstays : Deadlocked d := hrun.preserves (I := Deadlocked)
        (fun c p d hc hdeadlocked hstep => (deadlock_terminal hc hdeadlocked hstep).elim) h
        hdeadlocked
      have hpoint := hreturned 0
      rw [hstays 0] at hpoint
      cases hpoint
    · intro hnot
      -- steps that avoid the deadlock lead to the end
      obtain ⟨tr, d, hrun, -, hreturned⟩ := System.exists_run_of_decreasing decreasing_rank
        (fun c hc hnot hreturned => exists_step_not_deadlocked hc hnot hreturned) h hnot
      exact ⟨tr, d, hrun, hreturned⟩

theorem deadlock_possible_at_start :
    (∃ tr d, eatSystem.Run start tr d ∧ Deadlocked d) ∧
      ∃ tr d, eatSystem.Run start tr d ∧ AllReturned d := by
  have hstart : eatSystem.Reachable start := ⟨[], System.Execution.nil rfl⟩
  refine ⟨(deadlock_possible_iff hstart).1.2 fun _ => rfl,
    (deadlock_possible_iff hstart).2.2 fun hdeadlocked => ?_⟩
  cases hdeadlocked 0

end Eat

end Sanntid.Philosophers
