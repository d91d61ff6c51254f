import Mathlib.Order.Basic
import Mathlib.Order.WellFounded
import Mathlib.Data.List.Basic
import Mathlib.Data.List.Induction

/-!
# Forests by parent pointers

A forest is given by what each node's parent is, if it has one. `Below parent a p` says that the way
up from `p` comes to `a`. Where a subtree is cut off, what is left below a node outside it is what
was below it and not in the subtree (`Cut.below_iff`).

Where the children of a node have names, `Way child a names p` says that the names lead from `a`
down to `p`. They lead to one node at most (`Way.unique`), and to each node below `a` some do
(`Way.exists_of_below`).
-/

namespace Forest

variable {α : Type*} {parent parent' : α → Option α} {a b p d : α}

/-- `p` is `a`, or its parent is below `a`. -/
inductive Below (parent : α → Option α) (a : α) : α → Prop
  | refl : Below parent a a
  | step {p d : α} (hp : parent p = some d) (h : Below parent a d) : Below parent a p

namespace Below

theorem of_parent (h : parent p = some d) : Below parent d p := .step h .refl

theorem trans (h : Below parent a b) (h' : Below parent b p) : Below parent a p := by
  induction h' with
  | refl => exact h
  | step hp _ ih => exact .step hp ih

/-- What is below `a` is `a` or has its parent below `a`. -/
theorem eq_or_parent (h : Below parent a p) :
    p = a ∨ ∃ d, parent p = some d ∧ Below parent a d := by
  cases h with
  | refl => exact .inl rfl
  | step hp h => exact .inr ⟨_, hp, h⟩

/-- On the way up from `p` to another node `a` there is a child of `a`. -/
theorem exists_child (h : Below parent a p) (hne : p ≠ a) :
    ∃ c, parent c = some a ∧ Below parent c p := by
  induction h with
  | refl => exact absurd rfl hne
  | @step p d hp h ih =>
    by_cases hd : d = a
    · exact ⟨p, hd ▸ hp, .refl⟩
    · obtain ⟨c, hc, hcd⟩ := ih hd
      exact ⟨c, hc, .step hp hcd⟩

/-- Where parents come first, so does what others are below. -/
theorem le [Preorder α] (hle : ∀ p d, parent p = some d → d ≤ p) (h : Below parent a p) :
    a ≤ p := by
  induction h with
  | refl => exact le_rfl
  | step hp _ ih => exact ih.trans (hle _ _ hp)

/-- Where each node other than `a` has a parent before it, every node is below `a`. -/
theorem of_forall_lt [PartialOrder α] [WellFoundedLT α] {S : α → Prop}
    (h : ∀ p, S p → p ≠ a → ∃ d, parent p = some d ∧ d < p ∧ S d) :
    ∀ p, S p → Below parent a p := by
  intro p
  induction p using WellFoundedLT.induction with
  | ind p ih =>
    intro hp
    by_cases hpa : p = a
    · exact hpa ▸ .refl
    · obtain ⟨d, hd, hlt, hS⟩ := h p hp hpa
      exact .step hd (ih d hlt hS)

end Below

/-- `parent'` is `parent` with the subtree of `b` cut off. -/
structure Cut (parent parent' : α → Option α) (b : α) : Prop where
  inside : ∀ p, Below parent b p → parent' p = none
  outside : ∀ p, ¬ Below parent b p → parent' p = parent p

theorem Cut.below_iff (h : Cut parent parent' b) (ha : ¬ Below parent b a) :
    Below parent' a p ↔ Below parent a p ∧ ¬ Below parent b p := by
  constructor
  · intro hb
    induction hb with
    | refl => exact ⟨.refl, ha⟩
    | @step p d hp _ ih =>
      by_cases hbp : Below parent b p
      · rw [h.inside p hbp] at hp
        cases hp
      · rw [h.outside p hbp] at hp
        exact ⟨.step hp ih.1, hbp⟩
  · rintro ⟨hap, hbp⟩
    induction hap with
    | refl => exact .refl
    | @step p d hp _ ih =>
      exact .step ((h.outside p hbp).trans hp) (ih fun hd => hbp (.step hp hd))

/-- From `a` the names lead to `p`. -/
inductive Way {β : Type*} (child : α → β → α → Prop) : α → List β → α → Prop
  | nil {a : α} : Way child a [] a
  | cons {a c p : α} {name : β} {names : List β} (hc : child a name c) (h : Way child c names p) :
    Way child a (name :: names) p

namespace Way

variable {β : Type*} {child child' : α → β → α → Prop} {name : β} {names names' : List β} {q : α}

@[simp] theorem nil_iff : Way child a [] p ↔ p = a := by
  constructor
  · rintro ⟨⟩
    rfl
  · rintro rfl
    exact .nil

theorem cons_iff : Way child a (name :: names) p ↔ ∃ c, child a name c ∧ Way child c names p := by
  constructor
  · rintro ⟨⟩
    exact ⟨_, ‹_›, ‹_›⟩
  · rintro ⟨c, hc, h⟩
    exact .cons hc h

theorem append_iff :
    Way child a (names ++ names') p ↔ ∃ b, Way child a names b ∧ Way child b names' p := by
  induction names generalizing a with
  | nil => simp
  | cons name names ih =>
    simp only [List.cons_append, cons_iff, ih]
    constructor
    · rintro ⟨c, hc, b, h, h'⟩
      exact ⟨b, ⟨c, hc, h⟩, h'⟩
    · rintro ⟨b, ⟨c, hc, h⟩, h'⟩
      exact ⟨c, hc, b, h, h'⟩

theorem concat_iff :
    Way child a (names ++ [name]) p ↔ ∃ b, Way child a names b ∧ child b name p := by
  simp [append_iff, cons_iff]

theorem imp (himp : ∀ b name c, child b name c → child' b name c) (h : Way child a names p) :
    Way child' a names p := by
  induction h with
  | nil => exact .nil
  | cons hc _ ih => exact .cons (himp _ _ _ hc) ih

/-- Where a name leads from a node to one child at most, so do names to one node. -/
theorem unique (hdet : ∀ b name c c', child b name c → child b name c' → c = c')
    (h : Way child a names p) (h' : Way child a names q) : p = q := by
  induction h with
  | nil => exact (nil_iff.1 h').symm
  | cons hc _ ih =>
    obtain ⟨c', hc', h'⟩ := cons_iff.1 h'
    obtain rfl := hdet _ _ _ _ hc hc'
    exact ih h'

theorem exists_of_below (hchild : ∀ p d, parent p = some d → ∃ name, child d name p)
    (h : Below parent a p) : ∃ names, Way child a names p := by
  induction h with
  | refl => exact ⟨[], .nil⟩
  | @step p d hp _ ih =>
    obtain ⟨names, h⟩ := ih
    obtain ⟨name, hc⟩ := hchild p d hp
    exact ⟨names ++ [name], concat_iff.2 ⟨d, h, hc⟩⟩

section Below

variable (hparent : ∀ b name c, child b name c → parent c = some b)
include hparent

theorem to_below (h : Way child a names p) : Below parent a p := by
  induction h with
  | nil => exact .refl
  | cons hc _ ih => exact (Below.of_parent (hparent _ _ _ hc)).trans ih

/-- A way into a subtree passes its root. -/
theorem exists_mem_of_below (ha : ¬ Below parent b a) (h : Way child a names p)
    (hb : Below parent b p) : ∃ name ∈ names, ∃ d, child d name b := by
  induction names using List.reverseRecOn generalizing p with
  | nil =>
    obtain rfl := nil_iff.1 h
    exact absurd hb ha
  | append_singleton ns name ih =>
    obtain ⟨d, h, hc⟩ := concat_iff.1 h
    rcases hb.eq_or_parent with rfl | ⟨d', hd', hb⟩
    · exact ⟨name, by simp, d, hc⟩
    · obtain rfl := Option.some.inj ((hparent _ _ _ hc).symm.trans hd')
      obtain ⟨name', hn, hbc⟩ := ih h hb
      exact ⟨name', List.mem_append_left _ hn, hbc⟩

/-- Where a subtree is cut off, the ways left are those that do not come into it. -/
theorem cut_iff (hcut : ∀ d name c, child' d name c ↔ child d name c ∧ ¬ Below parent b c)
    (ha : ¬ Below parent b a) :
    Way child' a names p ↔ Way child a names p ∧ ¬ Below parent b p := by
  constructor
  · intro h
    induction h with
    | nil => exact ⟨.nil, ha⟩
    | cons hc _ ih =>
      obtain ⟨hc, hb⟩ := (hcut _ _ _).1 hc
      exact ⟨.cons hc (ih hb).1, (ih hb).2⟩
  · rintro ⟨h, hb⟩
    induction h with
    | nil => exact .nil
    | cons hc h ih =>
      have hcb := fun hbc => hb (Below.trans hbc (h.to_below hparent))
      exact .cons ((hcut _ _ _).2 ⟨hc, hcb⟩) (ih hcb hb)

end Below

end Way

end Forest
