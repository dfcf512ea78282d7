import Mathlib.Data.List.Induction
import Mathlib.Tactic

/-!
# Labelled transition systems with recorded runs

A `System` has a set of initial states and, for every label, a partial step function. A run
records each step as the pair of the state before it and its label, so a property of a run can
speak of what was executed, how often, and in which state. This file gives the rules by which the
rest of the development argues about runs: splitting a run at a step (`Execution.split`),
induction on executions (`Execution.induct`), invariants of reachable states
(`Reachable.invariant`), of executions whose steps all meet a condition
(`Execution.invariant_of_steps`), properties of all prefixes of a run (`Run.forall_prefix_iff`), and
termination from a decreasing measure (`no_infinite_run`, `exists_terminal_of_decreasing`).

Nothing here mentions a particular program.
-/

set_option autoImplicit false

namespace Sanntid.Transition

universe u v

/-- A transition system: initial states, and the state reached by a label where it is enabled. -/
structure System (σ : Type u) (Λ : Type v) where
  init : σ → Prop
  next : σ → Λ → Option σ

namespace System

variable {σ : Type u} {Λ : Type v} (S : System σ Λ)

/-- One step: the label `l` is enabled at `s` and leads to `t`. -/
def Step (s : σ) (l : Λ) (t : σ) : Prop := S.next s l = some t

/-- A run from `s₀`: the list holds the state before each step and the label of the step. -/
inductive Run (s₀ : σ) : List (σ × Λ) → σ → Prop
  | nil : Run s₀ [] s₀
  | snoc {tr : List (σ × Λ)} {s t : σ} {l : Λ} :
      Run s₀ tr s → S.Step s l t → Run s₀ (tr ++ [(s, l)]) t

/-- A run from an initial state. -/
def Execution (tr : List (σ × Λ)) (t : σ) : Prop := ∃ s₀, S.init s₀ ∧ S.Run s₀ tr t

/-- A state at the end of some execution. -/
def Reachable (t : σ) : Prop := ∃ tr, S.Execution tr t

/-- No label is enabled. -/
def Terminal (s : σ) : Prop := ∀ l, S.next s l = none

/-- An execution that cannot be extended. -/
def Complete (tr : List (σ × Λ)) (t : σ) : Prop := S.Execution tr t ∧ S.Terminal t

variable {S}

theorem not_terminal_iff {s : σ} : ¬ S.Terminal s ↔ ∃ l t, S.Step s l t := by
  simp only [Terminal, not_forall, Step]
  constructor
  · rintro ⟨l, hl⟩
    exact ⟨l, Option.ne_none_iff_exists'.1 hl⟩
  · rintro ⟨l, t, ht⟩
    exact ⟨l, by rw [ht]; simp⟩

/-! ## Composing and splitting runs -/

theorem Run.single {s t : σ} {l : Λ} (h : S.Step s l t) : S.Run s [(s, l)] t :=
  Run.snoc Run.nil h

theorem Run.append {s t u : σ} {tr tr' : List (σ × Λ)} (h : S.Run s tr t)
    (h' : S.Run t tr' u) : S.Run s (tr ++ tr') u := by
  induction h' with
  | nil => simpa using h
  | snoc _ hstep ih =>
    rw [← List.append_assoc]
    exact ih.snoc hstep

theorem Run.nil_iff {s t : σ} : S.Run s [] t ↔ s = t := by
  constructor
  · intro h
    generalize he : ([] : List (σ × Λ)) = tr at h
    cases h with
    | nil => rfl
    | snoc _ _ => simp at he
  · rintro rfl
    exact Run.nil

theorem Run.snoc_iff {s u : σ} {tr : List (σ × Λ)} {t : σ} {l : Λ} :
    S.Run s (tr ++ [(t, l)]) u ↔ S.Run s tr t ∧ S.Step t l u := by
  constructor
  · intro h
    generalize he : tr ++ [(t, l)] = tr' at h
    cases h with
    | nil => simp at he
    | snoc hrun hstep =>
      obtain ⟨rfl, hlast⟩ := List.append_inj' he rfl
      simp only [List.cons.injEq, Prod.mk.injEq, and_true] at hlast
      obtain ⟨rfl, rfl⟩ := hlast
      exact ⟨hrun, hstep⟩
  · rintro ⟨hrun, hstep⟩
    exact hrun.snoc hstep

/-- A run over a concatenation passes through a middle state. -/
theorem Run.split {s u : σ} {tr : List (σ × Λ)} :
    ∀ {tr' : List (σ × Λ)}, S.Run s (tr ++ tr') u → ∃ t, S.Run s tr t ∧ S.Run t tr' u := by
  intro tr'
  -- from the end of the second part, since runs grow at the end
  induction tr' using List.reverseRecOn generalizing u with
  | nil =>
    intro h
    exact ⟨u, by simpa using h, Run.nil⟩
  | append_singleton tr' p ih =>
    rcases p with ⟨v, l⟩
    intro h
    rw [← List.append_assoc, Run.snoc_iff] at h
    obtain ⟨t, hpre, hpost⟩ := ih h.1
    exact ⟨t, hpre, hpost.snoc h.2⟩

theorem Run.cons_iff {s u : σ} {tr : List (σ × Λ)} {t : σ} {l : Λ} :
    S.Run s ((t, l) :: tr) u ↔ s = t ∧ ∃ v, S.Step t l v ∧ S.Run v tr u := by
  constructor
  · intro h
    obtain ⟨v, hpre, hpost⟩ := Run.split (by simpa using h : S.Run s ([(t, l)] ++ tr) u)
    rw [← List.nil_append [(t, l)], Run.snoc_iff, Run.nil_iff] at hpre
    exact ⟨hpre.1, v, hpre.2, hpost⟩
  · rintro ⟨rfl, v, hstep, hpost⟩
    exact (Run.single hstep).append hpost

theorem Execution.nil {s : σ} (h : S.init s) : S.Execution [] s := ⟨s, h, Run.nil⟩

theorem Execution.snoc {tr : List (σ × Λ)} {s t : σ} {l : Λ} (h : S.Execution tr s)
    (hstep : S.Step s l t) : S.Execution (tr ++ [(s, l)]) t := by
  obtain ⟨s₀, hinit, hrun⟩ := h
  exact ⟨s₀, hinit, hrun.snoc hstep⟩

theorem Execution.append {tr tr' : List (σ × Λ)} {s t : σ} (h : S.Execution tr s)
    (h' : S.Run s tr' t) : S.Execution (tr ++ tr') t := by
  obtain ⟨s₀, hinit, hrun⟩ := h
  exact ⟨s₀, hinit, hrun.append h'⟩

/-- Every recorded step of an execution is taken from a state that the part before it reaches. -/
theorem Execution.split {pre post : List (σ × Λ)} {s t : σ} {l : Λ}
    (h : S.Execution (pre ++ (s, l) :: post) t) :
    S.Execution pre s ∧ ∃ u, S.Step s l u ∧ S.Run u post t := by
  obtain ⟨s₀, hinit, hrun⟩ := h
  obtain ⟨v, hpre, hpost⟩ := hrun.split
  obtain ⟨rfl, u, hstep, hrest⟩ := Run.cons_iff.1 hpost
  exact ⟨⟨s₀, hinit, hpre⟩, u, hstep, hrest⟩

theorem Execution.reachable {tr : List (σ × Λ)} {t : σ} (h : S.Execution tr t) :
    S.Reachable t :=
  ⟨tr, h⟩

theorem Execution.reachable_of_mem {tr : List (σ × Λ)} {t : σ} (h : S.Execution tr t)
    {s : σ} {l : Λ} (hmem : (s, l) ∈ tr) : S.Reachable s ∧ ∃ u, S.Step s l u := by
  obtain ⟨pre, post, rfl⟩ := List.append_of_mem hmem
  obtain ⟨hpre, u, hstep, -⟩ := h.split
  exact ⟨hpre.reachable, u, hstep⟩

theorem Reachable.step {s t : σ} {l : Λ} (h : S.Reachable s) (hstep : S.Step s l t) :
    S.Reachable t := by
  obtain ⟨tr, htr⟩ := h
  exact ⟨_, htr.snoc hstep⟩

theorem Reachable.run {s t : σ} {tr : List (σ × Λ)} (h : S.Reachable s) (hrun : S.Run s tr t) :
    S.Reachable t := by
  obtain ⟨tr', htr'⟩ := h
  exact ⟨_, htr'.append hrun⟩

/-! ## Induction on executions -/

/-- Induction on an execution: the property may depend on the whole recorded run. -/
@[elab_as_elim]
theorem Execution.induct {motive : List (σ × Λ) → σ → Prop}
    (init : ∀ s, S.init s → motive [] s)
    (snoc : ∀ tr s l t, S.Execution tr s → motive tr s → S.Step s l t →
      motive (tr ++ [(s, l)]) t)
    {tr : List (σ × Λ)} {t : σ} (h : S.Execution tr t) : motive tr t := by
  obtain ⟨s₀, h₀, hrun⟩ := h
  induction hrun with
  | nil => exact init s₀ h₀
  | snoc hrun hs ih => exact snoc _ _ _ _ ⟨s₀, h₀, hrun⟩ ih hs

/-- The invariant rule: a property of the initial states that every step from a reachable state
keeps holds of every reachable state. -/
theorem Reachable.invariant {I : σ → Prop} (hinit : ∀ s, S.init s → I s)
    (hstep : ∀ s l t, S.Reachable s → I s → S.Step s l t → I t) {t : σ} (h : S.Reachable t) :
    I t := by
  obtain ⟨tr, htr⟩ := h
  refine Execution.induct hinit ?_ htr
  intro tr s l t hexec ih hs
  exact hstep s l t hexec.reachable ih hs

/-- The invariant rule for executions whose steps all meet a condition `G` on the state before the
step and its label. -/
theorem Execution.invariant_of_steps {I : σ → Prop} {G : σ → Λ → Prop}
    (hinit : ∀ s, S.init s → I s) (hstep : ∀ s l t, I s → G s l → S.Step s l t → I t)
    {tr : List (σ × Λ)} {t : σ} (h : S.Execution tr t) (hG : ∀ p ∈ tr, G p.1 p.2) : I t := by
  revert hG
  refine Execution.induct (fun s hs _ => hinit s hs) ?_ h
  intro tr s l t _ ih hs hG
  exact hstep s l t (ih fun p hp => hG p (by simp [hp])) (hG (s, l) (by simp)) hs

/-- A property kept by every step from a reachable state is kept by every run from one. -/
theorem Run.preserves {I : σ → Prop}
    (hstep : ∀ s l t, S.Reachable s → I s → S.Step s l t → I t) {s t : σ}
    {tr : List (σ × Λ)} (hs : S.Reachable s) (hI : I s) (h : S.Run s tr t) : I t := by
  induction h with
  | nil => exact hI
  | snoc hrun hlast ih => exact hstep _ _ _ (hs.run hrun) ih hlast

/-- Where a step keeps a property of the run exactly when it meets a condition, the property holds
all along a run exactly when all steps meet the condition. -/
theorem Run.forall_prefix_iff {P : List (σ × Λ) → σ → Prop} {G : List (σ × Λ) → σ × Λ → Prop}
    {s₀ : σ} (hnil : P [] s₀)
    (hstep : ∀ tr s l t, S.Run s₀ tr s → P tr s → S.Step s l t →
      (P (tr ++ [(s, l)]) t ↔ G tr (s, l)))
    {tr : List (σ × Λ)} {t : σ} (h : S.Run s₀ tr t) :
    (∀ pre post s, tr = pre ++ post → S.Run s₀ pre s → P pre s) ↔
      ∀ pre q post, tr = pre ++ q :: post → G pre q := by
  constructor
  · rintro hP pre ⟨s, l⟩ post rfl
    -- the property before and after a step says that the step meets the condition
    obtain ⟨s', hpre, hpost⟩ := h.split
    obtain ⟨rfl, u, hs, -⟩ := Run.cons_iff.1 hpost
    apply (hstep pre s' l u hpre (hP pre _ s' rfl hpre) hs).1
    exact hP _ post u (by simp) (hpre.snoc hs)
  · rintro hG pre post s rfl hpre
    -- induction on the prefix, with what is left of the run general
    clear h
    induction hpre generalizing post with
    | nil => exact hnil
    | snoc hrun hs ih =>
      rename_i pre s u l
      have hkept : P pre s := by
        apply ih ((s, l) :: post)
        intro pre' q post' heq
        exact hG pre' q post' (by simpa using heq)
      exact (hstep pre s l u hrun hkept hs).2 (hG pre (s, l) post (by simp))

/-! ## Counting steps -/

/-- The number of steps of a kind, when the state keeps count of them. -/
theorem Execution.countP_eq {f : σ → Nat} {p : σ × Λ → Bool} (hinit : ∀ s, S.init s → f s = 0)
    (hstep : ∀ s l t, S.Reachable s → S.Step s l t → f t = f s + if p (s, l) then 1 else 0)
    {tr : List (σ × Λ)} {t : σ} (h : S.Execution tr t) : tr.countP p = f t := by
  refine Execution.induct (fun s hs => (hinit s hs).symm) ?_ h
  intro tr s l t hexec ih hs
  rw [List.countP_append, ih, hstep s l t hexec.reachable hs, List.countP_singleton]

/-- A bound on the number of steps of a kind, when each of them raises the state by `k` and no
step lowers it. -/
theorem Execution.mul_countP_le {f : σ → Nat} {p : σ × Λ → Bool} {k : Nat}
    (hstep : ∀ s l t, S.Reachable s → S.Step s l t → (f s + if p (s, l) then k else 0) ≤ f t)
    {tr : List (σ × Λ)} {t : σ} (h : S.Execution tr t) : k * tr.countP p ≤ f t := by
  refine Execution.induct (fun _ _ => by simp) ?_ h
  intro tr s l t hexec ih hs
  have hle := hstep s l t hexec.reachable hs
  rw [List.countP_append, List.countP_singleton, Nat.mul_add]
  split at hle
  · rw [if_pos (by assumption)]
    omega
  · rw [if_neg (by assumption)]
    omega

/-- Steps of one kind pay for steps of another, when the state holds the credit: each step of kind
`q` adds at most one to it, and each step of kind `p` takes one out. -/
theorem Execution.countP_le_countP (f : σ → Nat) {p q : σ × Λ → Bool}
    (hinit : ∀ s, S.init s → f s = 0)
    (hstep : ∀ s l t, S.Reachable s → S.Step s l t →
      (f t + if p (s, l) then 1 else 0) ≤ f s + if q (s, l) then 1 else 0)
    {tr : List (σ × Λ)} {t : σ} (h : S.Execution tr t) : tr.countP p + f t ≤ tr.countP q := by
  refine Execution.induct (fun s hs => by simp [hinit s hs]) ?_ h
  intro tr s l t hexec ih hs
  have hle := hstep s l t hexec.reachable hs
  rw [List.countP_append, List.countP_append, List.countP_singleton, List.countP_singleton]
  omega

/-! ## Termination from a measure -/

/-- Every step from a reachable state lowers `μ`. -/
def Decreasing (S : System σ Λ) (μ : σ → Nat) : Prop :=
  ∀ s l t, S.Reachable s → S.Step s l t → μ t < μ s

/-- No infinite sequence of steps starts from an initial state. -/
theorem no_infinite_run {μ : σ → Nat} (hμ : S.Decreasing μ) (f : Nat → σ) (h₀ : S.init (f 0)) :
    ¬ ∀ n, ∃ l, S.Step (f n) l (f (n + 1)) := by
  intro hstep
  have hreach : ∀ n, S.Reachable (f n) := by
    intro n
    induction n with
    | zero => exact ⟨[], Execution.nil h₀⟩
    | succ n ih =>
      obtain ⟨l, hl⟩ := hstep n
      exact ih.step hl
  -- every step costs one, so the measure runs out
  have hbound : ∀ n, n + μ (f n) ≤ μ (f 0) := by
    intro n
    induction n with
    | zero => simp
    | succ n ih =>
      obtain ⟨l, hl⟩ := hstep n
      have hlt := hμ _ _ _ (hreach n) hl
      omega
  have hlast := hbound (μ (f 0) + 1)
  omega

/-- Where every reachable state with `I` that is not at its goal has a step that keeps `I`, a
decreasing measure leads to the goal. -/
theorem exists_run_of_decreasing {μ : σ → Nat} (hμ : S.Decreasing μ) {I G : σ → Prop}
    (hstep : ∀ s, S.Reachable s → I s → ¬ G s → ∃ l t, S.Step s l t ∧ I t) :
    ∀ {s : σ}, S.Reachable s → I s → ∃ tr t, S.Run s tr t ∧ I t ∧ G t := by
  intro s
  induction hm : μ s using Nat.strongRecOn generalizing s with
  | _ m ih =>
    intro hs hI
    by_cases hG : G s
    · exact ⟨[], s, Run.nil, hI, hG⟩
    · obtain ⟨l, t, hst, ht⟩ := hstep s hs hI hG
      have hlt : μ t < m := hm ▸ hμ s l t hs hst
      obtain ⟨tr, u, hrun, hu⟩ := ih (μ t) hlt rfl (hs.step hst) ht
      exact ⟨(s, l) :: tr, u, Run.cons_iff.2 ⟨rfl, t, hst, hrun⟩, hu⟩

/-- Under a decreasing measure every reachable state runs on to a terminal one. -/
theorem exists_terminal_of_decreasing {μ : σ → Nat} (hμ : S.Decreasing μ) {s : σ}
    (h : S.Reachable s) : ∃ tr t, S.Run s tr t ∧ S.Terminal t := by
  obtain ⟨tr, t, hrun, -, hterm⟩ := exists_run_of_decreasing hμ (I := fun _ => True)
    (G := S.Terminal) (fun s _ _ hnot => by simpa using not_terminal_iff.1 hnot) h trivial
  exact ⟨tr, t, hrun, hterm⟩

/-! ## Replaying a schedule -/

/-- A property of every step of a recorded run and of the part before it, by position. -/
theorem forall_steps_iff {tr : List (σ × Λ)} {Q : List (σ × Λ) → σ × Λ → Prop} :
    (∀ pre p post, tr = pre ++ p :: post → Q pre p) ↔
      ∀ n, (hn : n < tr.length) → Q (tr.take n) tr[n] := by
  constructor
  · intro h n hn
    exact h _ _ (tr.drop (n + 1)) (by simp)
  · rintro h pre p post rfl
    simpa using h pre.length (by simp)

/-- The steps of a recorded run that is one step longer. -/
theorem forall_steps_snoc {tr : List (σ × Λ)} {p : σ × Λ} {Q : List (σ × Λ) → σ × Λ → Prop} :
    (∀ pre r post, tr ++ [p] = pre ++ r :: post → Q pre r) ↔
      (∀ pre r post, tr = pre ++ r :: post → Q pre r) ∧ Q tr p := by
  constructor
  · intro h
    refine ⟨?_, h tr p [] rfl⟩
    rintro pre r post rfl
    exact h pre r (post ++ [p]) (by simp)
  · rintro ⟨h, hp⟩ pre r post heq
    rcases List.eq_nil_or_concat post with rfl | ⟨post, last, rfl⟩
    · obtain ⟨rfl, hr⟩ := List.append_inj' heq rfl
      obtain rfl : p = r := by simpa using hr
      exact hp
    · rw [List.concat_eq_append, ← List.cons_append, ← List.append_assoc] at heq
      exact h pre r post (List.append_inj' heq rfl).1

/-- Follow a list of labels, recording the run; `none` when a label is not enabled. -/
def replay (S : System σ Λ) : σ → List Λ → Option (List (σ × Λ) × σ)
  | s, [] => some ([], s)
  | s, l :: ls =>
    match S.next s l with
    | none => none
    | some t => (replay S t ls).map fun r => ((s, l) :: r.1, r.2)

/-- A schedule that replays is a run. -/
theorem run_of_replay {ls : List Λ} :
    ∀ {s t : σ} {tr : List (σ × Λ)}, S.replay s ls = some (tr, t) → S.Run s tr t := by
  induction ls with
  | nil =>
    intro s t tr h
    simp only [replay, Option.some.injEq, Prod.mk.injEq] at h
    obtain ⟨rfl, rfl⟩ := h
    exact Run.nil
  | cons l ls ih =>
    intro s t tr h
    simp only [replay] at h
    cases hn : S.next s l with
    | none =>
      rw [hn] at h
      simp at h
    | some u =>
      rw [hn] at h
      simp only [Option.map_eq_some_iff, Prod.mk.injEq, Prod.exists] at h
      obtain ⟨tr', t', hrest, rfl, rfl⟩ := h
      exact Run.cons_iff.2 ⟨rfl, u, hn, ih hrest⟩

/-- A schedule whose replay passes a test gives a run that passes it. -/
theorem exists_run_of_replay (S : System σ Λ) (s : σ) (ls : List Λ)
    (P : List (σ × Λ) → σ → Prop) [∀ tr t, Decidable (P tr t)]
    (h : (S.replay s ls).map (fun r => decide (P r.1 r.2)) = some true) :
    ∃ tr t, S.Run s tr t ∧ P tr t := by
  rw [Option.map_eq_some_iff] at h
  obtain ⟨⟨tr, t⟩, hreplay, hP⟩ := h
  exact ⟨tr, t, run_of_replay hreplay, of_decide_eq_true hP⟩

end System

end Sanntid.Transition
