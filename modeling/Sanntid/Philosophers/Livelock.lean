import Sanntid.Philosophers.Safe

/-!
# When `eat_safe` feeds somebody

Nothing in `eat_safe` keeps the threads out of step: each takes its own fork, finds the next one
taken, and puts its fork back, fifty times over (`exists_mealless_run`). That is the only way in
which nobody eats. `somebody_eats_iff`: in a run that cannot be extended somebody eats unless every
philosopher in every round takes its own fork and finds the next one with its owner.
-/

set_option autoImplicit false

namespace Sanntid.Philosophers.Safe

open Sanntid.Transition

/-! ## All threads in step -/

/-- A run in which no thread eats. -/
def Mealless (c d : Config Phil Local Shared) : Prop :=
  ∃ tr, safeSystem.Run c tr d ∧ ∀ q ∈ tr, (q.1.thread q.2).point ≠ .eat

theorem Mealless.trans {c d e : Config Phil Local Shared} (h : Mealless c d) (h' : Mealless d e) :
    Mealless c e := by
  obtain ⟨tr, hrun, htr⟩ := h
  obtain ⟨tr', hrun', htr'⟩ := h'
  refine ⟨tr ++ tr', hrun.append hrun', fun q hq => ?_⟩
  rcases List.mem_append.1 hq with hq | hq
  · exact htr q hq
  · exact htr' q hq

/-- All threads execute the statement they stand before, which is not a meal. -/
theorem mealless_sweep {l l' : Local} {s : Nat → Shared} (hl : l.point ≠ .eat)
    (h : ∀ p : Phil, exec p l (s p) = some (l', s (p + 1))) :
    Mealless ⟨fun _ => l, s 0⟩ ⟨fun _ => l', s 5⟩ := by
  obtain ⟨tr, hrun, hall⟩ := Program.sweep eatSafe (· = start) h
  refine ⟨tr, hrun, fun q hq => ?_⟩
  rw [hall q hq]
  exact hl

/-- The first `m` philosophers have their own fork. -/
def taken (m : Nat) : Shared := fun f => if f.val < m then some f else none

/-- The first `m` philosophers have put their own fork back. -/
def putBack (m : Nat) : Shared := fun f => if f.val < m then none else some f

theorem putBack_five : putBack 5 = fun _ => none := by
  funext f
  exact if_pos f.isLt

theorem taken_five : taken 5 = putBack 0 := by
  funext f
  exact if_pos f.isLt

theorem taken_succ (p : Phil) : Function.update (taken p) p (some p) = taken (p + 1) := by
  revert p
  decide

theorem putBack_succ (p : Phil) : Function.update (putBack p) p none = putBack (p + 1) := by
  revert p
  decide

/-- All threads at the head of the loop in round `i`, all forks free. -/
def atHead (i : Nat) : Config Phil Local Shared := ⟨fun _ => ⟨i, false, .loopHead⟩, fun _ => none⟩

/-- A round in which every attempt fails. -/
theorem mealless_round {i : Nat} (hi : i < rounds) : Mealless (atHead i) (atHead (i + 1)) := by
  -- five sweeps over the threads, one for each statement of the failing attempt
  have henter : Mealless (atHead i) ⟨fun _ => ⟨i, false, .tryOwn⟩, taken 0⟩ :=
    mealless_sweep (s := fun _ => taken 0) (by simp) fun p => by
      simp [exec, hi, Local.goto]
  have hown : Mealless ⟨fun _ => ⟨i, false, .tryOwn⟩, taken 0⟩
      ⟨fun _ => ⟨i, false, .tryNext⟩, taken 5⟩ :=
    mealless_sweep (s := taken) (by simp) fun p => by
      rw [← taken_succ p]
      simp [exec, trylock, taken, Local.goto]
  have hnext : Mealless ⟨fun _ => ⟨i, false, .tryNext⟩, taken 5⟩
      ⟨fun _ => ⟨i, false, .backOut⟩, taken 5⟩ :=
    mealless_sweep (s := fun _ => taken 5) (by simp) fun p => by
      simp [exec, trylock, taken, Local.goto]
  have hback : Mealless ⟨fun _ => ⟨i, false, .backOut⟩, putBack 0⟩
      ⟨fun _ => ⟨i, false, .giveUp⟩, putBack 5⟩ :=
    mealless_sweep (s := putBack) (by simp) fun p => by
      rw [← putBack_succ p]
      simp [exec, unlock, Local.goto]
  have hgive : Mealless ⟨fun _ => ⟨i, false, .giveUp⟩, fun _ => none⟩ (atHead (i + 1)) :=
    mealless_sweep (s := fun _ _ => none) (by simp) fun p => by
      simp [exec, Local.continue]
  rw [taken_five] at hnext
  rw [putBack_five] at hback
  exact ((henter.trans (taken_five ▸ hown)).trans hnext).trans (hback.trans hgive)

/-- Fifty such rounds are a run that cannot be extended. -/
theorem exists_mealless_run :
    ∃ tr c, safeSystem.Complete tr c ∧ ∀ q ∈ tr, (q.1.thread q.2).point ≠ .eat := by
  have hrounds : ∀ i ≤ rounds, Mealless start (atHead i) := by
    intro i
    induction i with
    | zero =>
      intro _
      exact ⟨[], System.Run.nil, by simp⟩
    | succ i ih =>
      intro hi
      exact (ih (by omega)).trans (mealless_round hi)
  have hleave : Mealless (atHead rounds) ⟨fun _ => ⟨rounds, false, .returned⟩, fun _ => none⟩ :=
    mealless_sweep (s := fun _ _ => none) (by simp) fun p => by
      simp [exec, Local.goto]
  obtain ⟨tr, hrun, hall⟩ := (hrounds rounds le_rfl).trans hleave
  refine ⟨tr, _, ⟨⟨start, rfl, hrun⟩, Program.terminal_iff.2 fun p => rfl⟩, hall⟩

/-- There is a run that cannot be extended in which nobody eats. -/
theorem livelock : ∃ tr c, safeSystem.Complete tr c ∧ ¬ ∃ q ∈ tr, ∃ p, Eats p q := by
  obtain ⟨tr, c, hcomplete, hall⟩ := exists_mealless_run
  refine ⟨tr, c, hcomplete, ?_⟩
  rintro ⟨q, hq, p, rfl, heat⟩
  exact hall q hq heat

/-! ## The only way in which nobody eats -/

/-- In round `k` thread `p`, which has its own fork, finds the next one with its owner. -/
def BacksOut (p : Phil) (k : Nat) (q : Config Phil Local Shared × Phil) : Prop :=
  q.2 = p ∧ (q.1.thread p).i = k ∧ (q.1.thread p).point = .tryNext ∧
    q.1.shared (nextFork p) = some (nextFork p)

/-- A thread stays at its meal while it does not eat. -/
theorem stays_at_eat {c d : Config Phil Local Shared}
    {tr : List (Config Phil Local Shared × Phil)} (h : safeSystem.Run c tr d) {p : Phil}
    (hp : (c.thread p).point = .eat) (hno : ∀ q ∈ tr, ¬ Eats p q) :
    (d.thread p).point = .eat := by
  induction h with
  | nil => exact hp
  | @snoc tr d e i _ hstep ih =>
    have hd := ih fun q hq => hno q (by simp [hq])
    have hi : p ≠ i := by
      rintro rfl
      exact hno (d, p) (by simp) ⟨rfl, hd⟩
    rw [Program.thread_of_ne hstep hi]
    exact hd

/-- A thread that has not eaten. -/
def Local.Fasting (l : Local) : Prop := l.justAte = false ∧ l.point.holdsNext = false

/-- The attempt of round `k` is over. -/
def Local.Past (k : Nat) (l : Local) : Prop :=
  k < l.i ∨ k = l.i ∧ (l.point = .backOut ∨ l.point = .giveUp)

theorem Move.fasting {s s' : Shared} {p : Phil} {l l' : Local} (hmove : Move p s l l' s')
    (hl : l.Fasting) (hl' : l'.point ≠ .eat) : l'.Fasting := by
  cases hmove with
  | takeNext _ => exact absurd rfl hl'
  | rest => exact absurd hl (by simp [Local.Fasting])
  | keepForks | goOn | setJustAte | unlockOwn | unlockNext | eat =>
    exact absurd hl (by simp [Local.Fasting])
  | _ => exact ⟨by first | exact hl.1 | rfl, rfl⟩

/-- An attempt is over because it was before, or because one of the forks is taken. -/
theorem Move.past {s s' : Shared} {p : Phil} {l l' : Local} {k : Nat} (hmove : Move p s l l' s')
    (hl : l.Fasting) (hk : l'.Past k) :
    l.Past k ∨ l.point = .tryOwn ∧ s p ≠ none ∨
      l.point = .tryNext ∧ k = l.i ∧ s (nextFork p) ≠ none := by
  cases hmove with
  | missOwn hown => exact Or.inr (Or.inl ⟨rfl, hown⟩)
  | missNext hnext =>
    rcases hk with hk | ⟨hk, -⟩
    · exact Or.inl (Or.inl hk)
    · exact Or.inr (Or.inr ⟨rfl, hk, hnext⟩)
  | rest => exact absurd hl (by simp [Local.Fasting])
  | keepForks | goOn | setJustAte | unlockOwn | unlockNext | eat =>
    exact absurd hl (by simp [Local.Fasting])
  | giveUp =>
    apply Or.inl
    -- the round ends, so that its attempt is over: it has backed out before
    rcases hk with hk | ⟨-, hk⟩
    · rcases Nat.lt_succ_iff_lt_or_eq.1 hk with hk | hk
      · exact Or.inl hk
      · exact Or.inr ⟨hk, Or.inr rfl⟩
    · simp at hk
  | backOut =>
    rcases hk with hk | ⟨hk, -⟩
    · exact Or.inl (Or.inl hk)
    · exact Or.inl (Or.inr ⟨hk, Or.inl rfl⟩)
  | _ =>
    rcases hk with hk | ⟨-, hk⟩
    · exact Or.inl (Or.inl hk)
    · simp at hk

/-- While nobody eats, a fork that is taken is with its owner. -/
theorem Inv.owner_of_fasting {c : Config Phil Local Shared} (h : Inv c)
    (hfast : ∀ p, (c.thread p).Fasting) {f : Phil} (hf : c.shared f ≠ none) :
    c.shared f = some f ∧ (c.thread f).point.holdsOwn = true := by
  obtain ⟨r, howner, ⟨rfl, hr⟩ | ⟨-, hr⟩⟩ := h.owns.exists_holder hf
  · exact ⟨howner, hr⟩
  · rw [(hfast r).2] at hr
    exact absurd hr (by decide)

/-- As long as no thread gets to a meal, every attempt that is over has backed out. -/
theorem backsOut_of_past {tr : List (Config Phil Local Shared × Phil)}
    {c : Config Phil Local Shared} (h : safeSystem.Execution tr c)
    (hno : ∀ q ∈ tr, ∀ p, (q.1.thread p).point ≠ .eat) (hc : ∀ p, (c.thread p).point ≠ .eat) :
    (∀ p, (c.thread p).Fasting) ∧
      ∀ p k, (c.thread p).Past k → ∃ q ∈ tr, BacksOut p k q := by
  revert hno hc
  refine System.Execution.induct ?_ ?_ h
  · rintro c rfl - -
    exact ⟨fun _ => ⟨rfl, rfl⟩, fun p k hk => by simp [start, Local.Past] at hk⟩
  · intro tr c i d hexec ih hstep hno hd
    obtain ⟨hfast, hpast⟩ := ih (fun q hq => hno q (by simp [hq])) (hno (c, i) (by simp))
    obtain ⟨l, s, hl, rfl⟩ := Program.exec_cases hstep
    have hmove := move_of_exec hl
    have hinv := reachable_inv hexec.reachable
    refine ⟨fun p => ?_, fun p k hk => ?_⟩
    · by_cases hp : p = i
      · subst hp
        have hdp := hd p
        simp only [Function.update_self] at hdp ⊢
        exact hmove.fasting (hfast p) hdp
      · simpa [Function.update_of_ne hp] using hfast p
    · have hold : (c.thread p).Past k → ∃ q ∈ tr ++ [(c, i)], BacksOut p k q := by
        intro hk
        obtain ⟨q, hq, hback⟩ := hpast p k hk
        exact ⟨q, by simp [hq], hback⟩
      by_cases hp : p = i
      · subst hp
        simp only [Function.update_self] at hk
        rcases hmove.past (hfast p) hk with hk | ⟨hpoint, hown⟩ | ⟨hpoint, rfl, hnext⟩
        · exact hold hk
        · -- its own fork could only be with the thread itself
          have hholds := (hinv.owner_of_fasting hfast hown).2
          simp [hpoint] at hholds
        · -- the attempt backs out in this step
          exact ⟨(c, p), by simp, rfl, rfl, hpoint, (hinv.owner_of_fasting hfast hnext).1⟩
      · simp only [Function.update_of_ne hp] at hk
        exact hold hk

/-- A failed attempt on the next fork skips the meal of the round. -/
theorem Move.rank_of_missNext {s s' : Shared} {p : Phil} {l l' : Local} (hmove : Move p s l l' s')
    (hl : l.point = .tryNext) (hs : s (nextFork p) ≠ none) : rank l' + 6 = rank l := by
  cases hmove with
  | takeNext hfree => exact absurd hfree hs
  | missNext _ => rfl
  | _ => simp at hl

/-- In a round in which a thread eats it has found the next fork free. -/
theorem free_of_eats {tr : List (Config Phil Local Shared × Phil)}
    {c d d' : Config Phil Local Shared} (h : safeSystem.Execution tr c) {p : Phil}
    (hq : (d, p) ∈ tr) (heat : (d.thread p).point = .eat) (hq' : (d', p) ∈ tr)
    (hround : (d'.thread p).i = (d.thread p).i) (hpoint : (d'.thread p).point = .tryNext) :
    d'.shared (nextFork p) = none := by
  by_contra hnext
  -- in one round the attempt comes before the meal, and the way out of it after
  have hrank : rank (d'.thread p) = rank (d.thread p) + 1 := by
    simp only [rank, hpoint, heat, hround, Point.place]
  have hmono : ∀ {u v tr'}, safeSystem.Run u tr' v → _ := fun hrun =>
    Program.rank_le (fun _ _ _ _ _ he => (move_of_exec he).rank_lt.le) hrun p
  obtain ⟨pre, post, rfl⟩ := List.append_of_mem hq
  obtain ⟨hpre, e, hstep, hpost⟩ := h.split
  rcases List.mem_append.1 hq' with hq' | hq'
  · -- the attempt came first: it failed, and the meal was skipped
    obtain ⟨before, between, rfl⟩ := List.append_of_mem hq'
    obtain ⟨-, u, hstep', hbetween⟩ := hpre.split
    obtain ⟨l, s, hl, rfl⟩ := Program.exec_cases hstep'
    have hskip := (move_of_exec hl).rank_of_missNext hpoint hnext
    have hle := (hmono hbetween).1
    simp only [Function.update_self] at hle
    omega
  · rcases List.mem_cons.1 hq' with hq' | hq'
    · obtain ⟨rfl, -⟩ := Prod.mk.inj hq'
      rw [heat] at hpoint
      exact absurd hpoint (by decide)
    · -- after the meal the round does not come back to the attempt
      obtain ⟨l, s, hl, rfl⟩ := Program.exec_cases hstep
      have hlt := (move_of_exec hl).rank_lt
      have hle := (hmono hpost).2 (d', p) hq'
      simp only [Function.update_self] at hle
      omega

/-- In every run that cannot be extended: somebody eats, unless every philosopher in every round
takes its own fork and finds the next one with its owner. -/
theorem somebody_eats_iff {tr : List (Config Phil Local Shared × Phil)}
    {c : Config Phil Local Shared} (h : safeSystem.Complete tr c) :
    (∃ q ∈ tr, ∃ p, Eats p q) ↔ ¬ ∀ p k, k < rounds → ∃ q ∈ tr, BacksOut p k q := by
  obtain ⟨hexec, hterm⟩ := h
  have hret := returned_of_terminal hterm
  constructor
  · rintro ⟨⟨d, p⟩, hq, -, rfl, (heat : (d.thread p).point = .eat)⟩ hall
    have hround := (reachable_inv (hexec.reachable_of_mem hq).1).round p
    simp only [Local.RoundOk, heat] at hround
    obtain ⟨⟨d', i⟩, hq', rfl, hsame, hpoint, hnext⟩ := hall p _ hround
    rw [free_of_eats hexec hq heat hq' hsame hpoint] at hnext
    exact absurd hnext (by simp)
  · intro hnot
    by_contra hnone
    apply hnot
    intro p k hk
    -- a thread that got to its meal would be there still
    have hno : ∀ q ∈ tr, ∀ p, (q.1.thread p).point ≠ .eat := by
      rintro ⟨d, i⟩ hq r hr
      obtain ⟨pre, post, rfl⟩ := List.append_of_mem hq
      obtain ⟨hpre, e, hstep, hpost⟩ := hexec.split
      have hlast := stays_at_eat (System.Run.cons_iff.2 ⟨rfl, e, hstep, hpost⟩) hr
        fun q' hq' he => hnone ⟨q', List.mem_append_right pre hq', r, he⟩
      rw [hret r] at hlast
      exact absurd hlast (by decide)
    have hpast : (c.thread p).Past k := by
      have hround := (reachable_inv hexec.reachable).round p
      rw [Local.RoundOk, hret p] at hround
      exact Or.inl (hround.symm ▸ hk)
    exact (backsOut_of_past hexec hno (by simp [hret])).2 p k hpast

/-- Philosopher 0 runs ahead and eats: not every attempt backs out, however the run goes on. -/
theorem first_to_eat :
    ∃ tr c, safeSystem.Complete tr c ∧
      ¬ ∀ p k, k < rounds → ∃ q ∈ tr, BacksOut p k q := by
  obtain ⟨tr, c, hrun, q, hq, heat⟩ := safeSystem.exists_run_of_replay start [0, 0, 0, 0]
    (fun tr _ => ∃ q ∈ tr, Eats 0 q) (by decide)
  obtain ⟨tr', d, hrun', hterm⟩ :=
    System.exists_terminal_of_decreasing decreasing_rank ⟨tr, start, rfl, hrun⟩
  have hcomplete : safeSystem.Complete (tr ++ tr') d := ⟨⟨start, rfl, hrun.append hrun'⟩, hterm⟩
  exact ⟨_, _, hcomplete, (somebody_eats_iff hcomplete).1 ⟨q, by simp [hq], 0, heat⟩⟩

end Sanntid.Philosophers.Safe
