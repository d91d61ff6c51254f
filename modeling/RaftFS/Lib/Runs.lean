import Mathlib.Data.Finset.Card
import Mathlib.Data.Fintype.Card

/-!
# Guarded runs

A system is a set of starts and a partial step function. `Reach G` holds of the states a run
gets to when each of its steps meets `G` in the state it is taken from, and `Later G` relates a
state to the ones a run goes on to. An invariant is shown once for the starts and once for a
step; `Later.exists_step` finds the step that something came of, and `exists_later` a run that comes
to something. `exec` replays a list of actions, checking `G` before each. `Trace G` keeps the steps
of a run, for what is said of them.
-/

namespace Runs

/-- A transition system: its starts, and what an action makes of a state, if it is enabled. -/
structure Sys (σ α : Type*) where
  init : σ → Prop
  step : σ → α → Option σ

/-- A step condition: what the state and the action have to meet. -/
abbrev Guard (σ α : Type*) := σ → α → Prop

namespace Sys

variable {σ α : Type*} (M : Sys σ α) {G G' : Guard σ α}

/-- The states reached by steps that all meet `G`. -/
inductive Reach (G : Guard σ α) : σ → Prop
  | init {s : σ} : M.init s → Reach G s
  | step {s s' : σ} {a : α} : Reach G s → G s a → M.step s a = some s' → Reach G s'

/-- The states a run from `s` goes on to by steps that all meet `G`. -/
inductive Later (G : Guard σ α) (s : σ) : σ → Prop
  | refl : Later G s s
  | step {t t' : σ} {a : α} : Later G s t → G t a → M.step t a = some t' → Later G s t'

/-- Every step is allowed. -/
def anyStep : Guard σ α := fun _ _ => True

instance (s : σ) (a : α) : Decidable (anyStep s a) := .isTrue trivial

variable {M}

theorem Reach.inv {I : σ → Prop} (h0 : ∀ s, M.init s → I s)
    (h1 : ∀ s a s', M.Reach G s → I s → G s a → M.step s a = some s' → I s') :
    ∀ {s}, M.Reach G s → I s := by
  intro s h
  induction h with
  | init hs => exact h0 _ hs
  | step hr hg hs ih => exact h1 _ _ _ hr ih hg hs

/-- A condition that is not met less often reaches as much. -/
theorem Reach.mono {s : σ} (hG : ∀ s a, G s a → G' s a) (h : M.Reach G s) : M.Reach G' s := by
  induction h with
  | init hs => exact .init hs
  | step _ hg hst ih => exact .step ih (hG _ _ hg) hst

theorem Later.mono {s t : σ} (hG : ∀ s a, G s a → G' s a) (h : M.Later G s t) : M.Later G' s t := by
  induction h with
  | refl => exact .refl
  | step _ hg hst ih => exact .step ih (hG _ _ hg) hst

theorem Reach.later {s t : σ} (h : M.Reach G s) (hl : M.Later G s t) : M.Reach G t := by
  induction hl with
  | refl => exact h
  | step _ hg hs ih => exact .step ih hg hs

theorem Later.trans {s t u : σ} (h : M.Later G s t) (h' : M.Later G t u) : M.Later G s u := by
  induction h' with
  | refl => exact h
  | step _ hg hst ih => exact .step ih hg hst

/-- What holds of a state and is kept by each step holds of the states its run goes on to. -/
theorem Later.inv {I : σ → Prop} {s t : σ} (h0 : I s)
    (h1 : ∀ t a t', I t → G t a → M.step t a = some t' → I t') (h : M.Later G s t) : I t := by
  induction h with
  | refl => exact h0
  | step _ hg hst ih => exact h1 _ _ _ ih hg hst

/-- A reflexive and transitive relation that each step keeps holds between a state and the ones
its run goes on to. -/
theorem Later.rel {R : σ → σ → Prop} (hrefl : ∀ s, R s s)
    (htrans : ∀ s t u, R s t → R t u → R s u)
    (hstep : ∀ s a s', M.Reach G s → G s a → M.step s a = some s' → R s s') {s t : σ}
    (hs : M.Reach G s) (h : M.Later G s t) : R s t := by
  induction h with
  | refl => exact hrefl s
  | step hl hg hst ih => exact htrans _ _ _ ih (hstep _ _ _ (hs.later hl) hg hst)

/-- What can come to hold only by a step of the kind `E` held at first, or such a step is in the
run. -/
theorem Later.exists_step {P : σ → Prop} {E : σ → α → Prop} {s t : σ}
    (h1 : ∀ u a u', M.step u a = some u' → P u' → P u ∨ E u a) (h : M.Later G s t) (hP : P t) :
    P s ∨ ∃ u a u', M.Later G s u ∧ E u a ∧ M.step u a = some u' ∧ M.Later G u' t := by
  induction h with
  | refl => exact .inl hP
  | @step u u' a hl hg hst ih =>
    rcases h1 u a u' hst hP with hu | he
    · rcases ih hu with hs | ⟨v, b, v', hv, he, hst', hl'⟩
      · exact .inl hs
      · exact .inr ⟨v, b, v', hv, he, hst', hl'.step hg hst⟩
    · exact .inr ⟨u, a, u', hl, he, hst, .refl⟩

/-- Where each state either meets `P` or has a step that makes `μ` smaller, a run comes to `P`. -/
theorem exists_later {P : σ → Prop} {μ : σ → ℕ}
    (h : ∀ s, P s ∨ ∃ a s', G s a ∧ M.step s a = some s' ∧ μ s' < μ s) (s : σ) :
    ∃ t, M.Later G s t ∧ P t := by
  induction hm : μ s using Nat.strong_induction_on generalizing s with
  | _ m ih =>
    obtain hs | ⟨a, s', hg, hst, hlt⟩ := h s
    · exact ⟨s, .refl, hs⟩
    · obtain ⟨t, hl, ht⟩ := ih _ (hm ▸ hlt) s' rfl
      have hone : M.Later G s s' := .step .refl hg hst
      exact ⟨t, hone.trans hl, ht⟩

section Trace

variable (M)

/-- A run with its steps, the latest first, each with the state it was taken from. -/
inductive Trace (G : Guard σ α) : List (σ × α) → σ → Prop
  | init {s : σ} : M.init s → Trace G [] s
  | step {steps : List (σ × α)} {s s' : σ} {a : α} : Trace G steps s → G s a →
    M.step s a = some s' → Trace G ((s, a) :: steps) s'

variable {M}

theorem Trace.reach {steps : List (σ × α)} {s : σ} (h : M.Trace G steps s) : M.Reach G s := by
  induction h with
  | init hs => exact .init hs
  | step _ hg hst ih => exact .step ih hg hst

theorem Reach.trace {s : σ} (h : M.Reach G s) : ∃ steps, M.Trace G steps s := by
  induction h with
  | init hs => exact ⟨[], .init hs⟩
  | step _ hg hst ih =>
    obtain ⟨steps, ht⟩ := ih
    exact ⟨_, .step ht hg hst⟩

theorem Trace.inv {I : List (σ × α) → σ → Prop} (h0 : ∀ s, M.init s → I [] s)
    (h1 : ∀ steps s a s', M.Trace G steps s → I steps s → G s a → M.step s a = some s' →
      I ((s, a) :: steps) s') {steps : List (σ × α)} {s : σ} (h : M.Trace G steps s) :
    I steps s := by
  induction h with
  | init hs => exact h0 _ hs
  | step ht hg hst ih => exact h1 _ _ _ _ ht ih hg hst

end Trace

section Exec

variable (M) (G) [∀ s a, Decidable (G s a)]

/-- The state a list of actions leads to, if each is enabled and meets `G`. -/
def exec : σ → List α → Option σ
  | s, [] => some s
  | s, a :: as => if G s a then (M.step s a).bind fun s' => exec s' as else none

variable {M G}

theorem reach_of_exec : ∀ (as : List α) {s t : σ}, M.Reach G s → M.exec G s as = some t →
    M.Reach G t
  | [], s, t, h, he => by
    simp only [exec, Option.some.injEq] at he
    exact he ▸ h
  | a :: as, s, t, h, he => by
    simp only [exec] at he
    split_ifs at he with hg
    obtain ⟨s', hs', he'⟩ := Option.bind_eq_some_iff.1 he
    exact reach_of_exec as (.step h hg hs') he'

/-- The state a list of actions leads to, or `s` where one is not enabled or does not meet `G`. -/
def run (M : Sys σ α) (G : Guard σ α) [∀ s a, Decidable (G s a)] (s : σ) (as : List α) : σ :=
  (M.exec G s as).getD s

theorem exec_run {s : σ} {as : List α} (h : (M.exec G s as).isSome = true) :
    M.exec G s as = some (M.run G s as) := by
  obtain ⟨t, ht⟩ := Option.isSome_iff_exists.1 h
  rw [run, ht]
  rfl

theorem reach_run {s : σ} {as : List α} (hs : M.Reach G s) (h : (M.exec G s as).isSome = true) :
    M.Reach G (M.run G s as) :=
  reach_of_exec as hs (exec_run h)

theorem later_of_exec {s₀ : σ} : ∀ (as : List α) {s t : σ}, M.Later G s₀ s →
    M.exec G s as = some t → M.Later G s₀ t
  | [], s, t, h, he => by
    simp only [exec, Option.some.injEq] at he
    exact he ▸ h
  | a :: as, s, t, h, he => by
    simp only [exec] at he
    split_ifs at he with hg
    obtain ⟨s', hs', he'⟩ := Option.bind_eq_some_iff.1 he
    exact later_of_exec as (.step h hg hs') he'

theorem later_run {s : σ} {as : List α} (h : (M.exec G s as).isSome = true) :
    M.Later G s (M.run G s as) :=
  later_of_exec as .refl (exec_run h)

end Exec

end Sys

/-- Two sets of more than half the nodes share one. -/
theorem majorities_meet {ι : Type*} [Fintype ι] [DecidableEq ι] {A B : Finset ι}
    (hA : Fintype.card ι < 2 * A.card) (hB : Fintype.card ι < 2 * B.card) : (A ∩ B).Nonempty := by
  refine Finset.inter_nonempty_of_card_lt_card_add_card (Finset.subset_univ A)
    (Finset.subset_univ B) ?_
  rw [Finset.card_univ]
  omega

end Runs
