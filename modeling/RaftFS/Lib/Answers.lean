import Mathlib.Data.List.Basic
import Mathlib.Data.List.Induction

/-!
# Machines that answer

A machine takes a request in a state, and answers and goes on, or has no result. `run` puts requests
to it one after the other. One machine answers as another (`Alike`) where related states and
requests give no result on both sides, or the same answer and related states again; then they answer
alike over whole runs (`Alike.run`). Where each answered request sets a fact, clears it or leaves
it, the answers of a run tell whether it holds in the end (`run_since`).
-/

namespace Answers

variable {σ τ α γ β : Type*}

/-- The requests one after the other, and their answers. -/
def run (f : σ → α → Option (σ × β)) : σ → List α → Option (σ × List β)
  | s, [] => some (s, [])
  | s, a :: as => do
    let (s, b) ← f s a
    let (s, bs) ← run f s as
    return (s, b :: bs)

variable {f : σ → α → Option (σ × β)} {g : τ → γ → Option (τ × β)} {s s' : σ} {t : τ} {a : α}
  {as as' : List α} {b : β} {bs : List β}

theorem run_cons_eq_some {r : σ × List β} : run f s (a :: as) = some r ↔
    ∃ s₁ b bs, f s a = some (s₁, b) ∧ run f s₁ as = some (r.1, bs) ∧ r.2 = b :: bs := by
  obtain ⟨s', l⟩ := r
  simp only [run, Option.bind_eq_bind, Option.bind_eq_some_iff, Option.pure_def, Option.some.injEq,
    Prod.mk.injEq, Prod.exists]
  constructor
  · rintro ⟨s₁, b, h₁, s₂, bs, h₂, rfl, rfl⟩
    exact ⟨s₁, b, bs, h₁, h₂, rfl⟩
  · rintro ⟨s₁, b, bs, h₁, h₂, rfl⟩
    exact ⟨s₁, b, h₁, s', bs, h₂, rfl, rfl⟩

/-- A run is a run on from where its beginning has got to. -/
theorem run_append {r : σ × List β} : run f s (as ++ as') = some r ↔
    ∃ s₁ bs bs', run f s as = some (s₁, bs) ∧ run f s₁ as' = some (r.1, bs') ∧
      r.2 = bs ++ bs' := by
  induction as generalizing s r with
  | nil =>
    simp only [List.nil_append, run, Option.some.injEq, Prod.mk.injEq]
    constructor
    · exact fun h => ⟨s, [], r.2, ⟨rfl, rfl⟩, h, rfl⟩
    · rintro ⟨_, _, bs, ⟨rfl, rfl⟩, h, hr⟩
      exact h.trans (congrArg some (Prod.ext rfl hr.symm))
  | cons a as ih =>
    simp only [List.cons_append, run_cons_eq_some, ih]
    constructor
    · rintro ⟨s₁, b, _, h₁, ⟨s₂, bs, bs', h₂, h₃, rfl⟩, hr⟩
      exact ⟨s₂, b :: bs, bs', ⟨s₁, b, bs, h₁, h₂, rfl⟩, h₃, hr⟩
    · rintro ⟨s₂, _, bs', ⟨s₁, b, bs, h₁, h₂, rfl⟩, h₃, hr⟩
      exact ⟨s₁, b, bs ++ bs', h₁, ⟨s₂, bs, bs', h₂, h₃, rfl⟩, hr⟩

theorem run_concat (h : run f s as = some (s', bs)) {s'' : σ} (ha : f s' a = some (s'', b)) :
    run f s (as ++ [a]) = some (s'', bs ++ [b]) :=
  run_append.2 ⟨s', bs, [b], h, run_cons_eq_some.2 ⟨s'', b, [], ha, rfl, rfl⟩, rfl⟩

theorem length_run (h : run f s as = some (s', bs)) : bs.length = as.length := by
  induction as generalizing s bs with
  | nil =>
    obtain ⟨-, rfl⟩ := Prod.mk.inj (Option.some.inj h)
    rfl
  | cons a as ih =>
    obtain ⟨s₁, b, bs', -, h, rfl⟩ := run_cons_eq_some.1 h
    rw [List.length_cons, List.length_cons, ih h]

/-- No result on both, or the same answer and states that are related. -/
def Same (R : σ → τ → Prop) (r : Option (σ × β)) (r' : Option (τ × β)) : Prop :=
  r = none ∧ r' = none ∨ ∃ s t b, r = some (s, b) ∧ r' = some (t, b) ∧ R s t

/-- The machines answer alike in related states to related requests. -/
def Alike (R : σ → τ → Prop) (Q : α → γ → Prop) (f : σ → α → Option (σ × β))
    (g : τ → γ → Option (τ × β)) : Prop :=
  ∀ s t a c, R s t → Q a c → Same R (f s a) (g t c)

/-- They answer alike to the same number of requests, related in turn. -/
theorem Alike.run {R : σ → τ → Prop} {Q : α → γ → Prop} (h : Alike R Q f g) {cs : List γ}
    (hs : R s t) (ha : List.Forall₂ Q as cs) : Same R (run f s as) (run g t cs) := by
  induction ha generalizing s t with
  | nil => exact .inr ⟨s, t, [], rfl, rfl, hs⟩
  | @cons a c as cs hac _ ih =>
    rw [Answers.run, Answers.run]
    rcases h s t a c hs hac with ⟨hf, hg⟩ | ⟨s₁, t₁, b, hf, hg, h₁⟩
    · exact .inl ⟨by rw [hf]; rfl, by rw [hg]; rfl⟩
    rw [hf, hg]
    rcases ih h₁ with ⟨hf', hg'⟩ | ⟨s', t', bs, hf', hg', h'⟩
    · refine .inl ⟨?_, ?_⟩
      · simp [hf']
      · simp [hg']
    · refine .inr ⟨s', t', b :: bs, ?_, ?_, h'⟩
      · simp [hf']
      · simp [hg']

section Since

variable {ρ : Type*} (sets clears : ρ → Prop)

/-- One of the list sets a fact, and none after it clears it. -/
def Since (l : List ρ) : Prop :=
  ∃ l₁ r l₂, l = l₁ ++ r :: l₂ ∧ sets r ∧ ∀ d ∈ l₂, ¬ clears d

variable {sets clears} {l : List ρ} {r : ρ}

theorem not_since_nil : ¬ Since sets clears [] := by
  rintro ⟨l₁, r, l₂, h, -⟩
  simp at h

theorem since_concat :
    Since sets clears (l ++ [r]) ↔ sets r ∨ Since sets clears l ∧ ¬ clears r := by
  constructor
  · rintro ⟨l₁, d, l₂, h, hd, hl₂⟩
    rcases List.eq_nil_or_concat' l₂ with rfl | ⟨l₂, e, rfl⟩
    · obtain ⟨-, hr⟩ := List.append_inj' h rfl
      rw [(List.cons.inj hr).1]
      exact .inl hd
    · rw [← List.cons_append, ← List.append_assoc] at h
      obtain ⟨hl, hr⟩ := List.append_inj' h rfl
      rw [(List.cons.inj hr).1]
      exact .inr ⟨⟨l₁, d, l₂, hl, hd, fun e he => hl₂ e (List.mem_append_left _ he)⟩,
        hl₂ e (List.mem_append_right _ (List.mem_singleton_self e))⟩
  · rintro (h | ⟨⟨l₁, d, l₂, rfl, hd, hl₂⟩, hr⟩)
    · exact ⟨l, r, [], rfl, h, fun _ hd => absurd hd List.not_mem_nil⟩
    · refine ⟨l₁, d, l₂ ++ [r], by simp, hd, fun e he => ?_⟩
      rcases List.mem_append.1 he with he | he
      · exact hl₂ e he
      · exact List.mem_singleton.1 he ▸ hr

instance [DecidablePred sets] [DecidablePred clears] : Decidable (Since sets clears l) :=
  decidable_of_iff
    (l.foldl (fun v r => decide (sets r) || v && !decide (clears r)) false = true) <| by
    induction l using List.reverseRecOn with
    | nil => simpa using not_since_nil
    | append_singleton l r ih =>
      rw [since_concat, ← ih]
      simp

theorem since_map {μ : Type*} {g : μ → ρ} {l : List μ} :
    Since sets clears (l.map g) ↔ Since (fun x => sets (g x)) (fun x => clears (g x)) l := by
  constructor
  · rintro ⟨l₁, r, l₂, h, hr, hl₂⟩
    obtain ⟨k₁, k, rfl, rfl, hk⟩ := List.map_eq_append_iff.1 h
    obtain ⟨x, k₂, rfl, rfl, rfl⟩ := List.map_eq_cons_iff.1 hk
    exact ⟨k₁, x, k₂, rfl, hr, fun d hd => hl₂ _ (List.mem_map_of_mem hd)⟩
  · rintro ⟨k₁, x, k₂, rfl, hx, hk₂⟩
    refine ⟨k₁.map g, g x, k₂.map g, by simp, hx, fun d hd => ?_⟩
    obtain ⟨y, hy, rfl⟩ := List.mem_map.1 hd
    exact hk₂ y hy

/-- A fact that the answered requests set and clear holds after a run just where one of them has set
it and none after it has cleared it. -/
theorem run_since {sets clears : α × β → Prop} {P : σ → Prop} {V : α → Prop}
    (hstep : ∀ s a s' b, V a → f s a = some (s', b) →
      (P s' ↔ sets (a, b) ∨ P s ∧ ¬ clears (a, b)))
    (hs : ¬ P s) (h : run f s as = some (s', bs)) (hV : ∀ a ∈ as, V a) :
    P s' ↔ Since sets clears (as.zip bs) := by
  induction as using List.reverseRecOn generalizing s' bs with
  | nil =>
    obtain ⟨rfl, -⟩ := Prod.mk.inj (Option.some.inj h)
    exact iff_of_false hs not_since_nil
  | append_singleton as a ih =>
    obtain ⟨s₁, bs₁, bs₂, h₁, h₂, hbs⟩ := run_append.1 h
    obtain ⟨s₂, b, bs₃, ha, hnil, hbs₂⟩ := run_cons_eq_some.1 h₂
    obtain ⟨rfl, rfl⟩ := Prod.mk.inj (Option.some.inj hnil)
    simp only at hbs hbs₂
    have hlen := length_run h₁
    rw [hbs, hbs₂, List.zip_append hlen.symm, List.zip_cons_cons, List.zip_nil_left, since_concat,
      ← ih h₁ fun a' ha' => hV a' (List.mem_append_left _ ha')]
    exact hstep _ _ _ _ (hV a (List.mem_append_right _ (List.mem_singleton_self a))) ha

end Since

end Answers
