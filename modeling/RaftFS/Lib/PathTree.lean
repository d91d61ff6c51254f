import Mathlib.Data.List.Basic
import Mathlib.Data.List.Nodup
import Mathlib.Data.List.Infix
import Mathlib.Tactic.SplitIfs

/-!
# Trees by their paths

A tree of named nodes as the list of its nodes, each with its path from the root and what it is, the
oldest first. Every path that is there goes through directories. What is at a path (`find`) and the
names in a directory (`names`) are said for each operation: a node more (`make`), the directories
down a path (`mkdirs`) and a subtree less (`cut`).
-/

namespace PathTree

/-- What a node is. -/
inductive Kind (φ : Type*)
  | dir
  | file (data : φ)
  deriving DecidableEq

namespace Kind

variable {φ ψ : Type*}

def map (f : φ → ψ) : Kind φ → Kind ψ
  | dir => dir
  | file data => file (f data)

@[simp] theorem map_dir (f : φ → ψ) : (dir : Kind φ).map f = dir := rfl

@[simp] theorem map_file (f : φ → ψ) (data : φ) : (file data).map f = file (f data) := rfl

@[simp] theorem map_eq_dir {f : φ → ψ} {k : Kind φ} : k.map f = dir ↔ k = dir := by
  cases k <;> simp

end Kind

end PathTree

/-- The nodes below a root directory, with their paths from it, the oldest first. -/
structure PathTree (α φ : Type*) where
  nodes : List (List α × PathTree.Kind φ)
  nodup : (nodes.map Prod.fst).Nodup
  root : ([], .dir) ∈ nodes
  parent : ∀ p a k, (p ++ [a], k) ∈ nodes → (p, .dir) ∈ nodes

namespace PathTree

variable {α φ ψ : Type*} [DecidableEq α] {t t' : PathTree α φ} {p q : List α} {a b : α}
  {k k' : Kind φ}

omit [DecidableEq α] in
theorem ext_nodes (h : t.nodes = t'.nodes) : t = t' := by
  cases t
  cases t'
  simpa using h

section Lookup

variable (t)

/-- What is at a path. -/
def find (p : List α) : Option (Kind φ) := (t.nodes.find? fun n => n.1 = p).map Prod.snd

def isDir (p : List α) : Bool :=
  match t.find p with
  | some .dir => true
  | _ => false

def isFile (p : List α) : Bool :=
  match t.find p with
  | some (.file _) => true
  | _ => false

/-- The last name of a path that leads to a child of `p`. -/
def childOf (p q : List α) : Option α := if q.dropLast = p then q.getLast? else none

/-- The names in a directory, the oldest first. -/
def names (p : List α) : List α := (t.nodes.map Prod.fst).filterMap (childOf p)

/-- A file on the way down `p`. -/
def hasFile (p : List α) : Bool := p.inits.any t.isFile

variable {t}

theorem find_eq_some_iff : t.find p = some k ↔ (p, k) ∈ t.nodes := by
  unfold find
  constructor
  · intro h
    obtain ⟨⟨q, k'⟩, hf, hk⟩ := Option.map_eq_some_iff.1 h
    have hq : q = p := by simpa using List.find?_some hf
    have hmem := List.mem_of_find?_eq_some hf
    rwa [hq, show k' = k from hk] at hmem
  · intro h
    rcases hf : t.nodes.find? fun n => n.1 = p with _ | ⟨q, k'⟩
    · have := List.find?_eq_none.1 hf _ h
      simp at this
    · have hq : q = p := by simpa using List.find?_some hf
      have hmem := List.mem_of_find?_eq_some hf
      rw [hq] at hmem
      have := List.inj_on_of_nodup_map t.nodup hmem h rfl
      rw [hf, Option.map_some, (Prod.mk.inj this).2]

theorem find_eq_none_iff : t.find p = none ↔ ∀ k, (p, k) ∉ t.nodes := by
  rw [Option.eq_none_iff_forall_ne_some]
  exact forall_congr' fun k => not_congr find_eq_some_iff

@[simp] theorem isDir_iff : t.isDir p = true ↔ t.find p = some .dir := by
  unfold isDir
  split
  · simp [*]
  · simp_all

@[simp] theorem isFile_iff : t.isFile p = true ↔ ∃ d, t.find p = some (.file d) := by
  unfold isFile
  split
  · simp [*]
  · rename_i h
    simp only [Bool.false_eq_true, false_iff, not_exists]
    exact fun d hd => h d hd

theorem find_parent (h : t.find (p ++ [a]) = some k) : t.find p = some .dir :=
  find_eq_some_iff.2 (t.parent p a k (find_eq_some_iff.1 h))

/-- What is there is there with all directories on the way. -/
theorem find_of_isPrefix (hq : t.find q = some k) (h : p <+: q) (hne : p ≠ q) :
    t.find p = some .dir := by
  induction q using List.reverseRecOn generalizing k with
  | nil => exact absurd (List.prefix_nil.1 h) hne
  | append_singleton q a ih =>
    have hp := (List.prefix_concat_iff.1 h).resolve_left hne
    have hd := find_parent hq
    by_cases h' : p = q
    · rw [h', hd]
    · exact ih hd hp h'

theorem find_ne_none_of_prefix (hq : t.find q ≠ none) (h : p <+: q) : t.find p ≠ none := by
  obtain ⟨k, hk⟩ := Option.ne_none_iff_exists'.1 hq
  by_cases hne : p = q
  · rw [hne, hk]
    exact Option.some_ne_none k
  · rw [find_of_isPrefix hk h hne]
    exact Option.some_ne_none _

theorem hasFile_iff : t.hasFile p = true ↔ ∃ q, q <+: p ∧ ∃ d, t.find q = some (.file d) := by
  simp [hasFile]

theorem childOf_eq_some_iff : childOf p q = some a ↔ q = p ++ [a] := by
  unfold childOf
  constructor
  · intro h
    split_ifs at h with hp
    rw [← hp]
    exact (List.dropLast_append_getLast? a h).symm
  · rintro rfl
    simp

theorem mem_names : a ∈ t.names p ↔ t.find (p ++ [a]) ≠ none := by
  simp only [names, List.mem_filterMap, childOf_eq_some_iff, exists_eq_right, List.mem_map,
    Prod.exists, ne_eq, find_eq_none_iff, not_forall, not_not]
  constructor
  · rintro ⟨_, k, hk, rfl⟩
    exact ⟨k, hk⟩
  · rintro ⟨k, hk⟩
    exact ⟨_, k, hk, rfl⟩

theorem nodup_names : (t.names p).Nodup := by
  refine t.nodup.filterMap fun q q' a hq hq' => ?_
  rw [Option.mem_def, childOf_eq_some_iff] at hq hq'
  rw [hq, hq']

/-- Where there is no directory there are no names. -/
theorem names_eq_nil (h : t.find p ≠ some .dir) : t.names p = [] := by
  refine List.eq_nil_iff_forall_not_mem.2 fun a ha => ?_
  obtain ⟨k, hk⟩ := Option.ne_none_iff_exists'.1 (mem_names.1 ha)
  exact h (find_parent hk)

end Lookup

/-- The tree of the root alone. -/
def empty : PathTree α φ where
  nodes := [([], .dir)]
  nodup := List.nodup_singleton _
  root := List.mem_singleton_self _
  parent p a k h := by simp at h

section Make

variable (t p a k)

/-- There is the directory `p`, and no `a` in it. -/
def CanMake : Prop := t.isDir p = true ∧ t.find (p ++ [a]) = none

instance : Decidable (t.CanMake p a) := inferInstanceAs (Decidable (_ ∧ _))

/-- A node `a` more in the directory `p`, if it can be made. -/
def make : PathTree α φ :=
  if h : t.CanMake p a then
    { nodes := t.nodes ++ [(p ++ [a], k)]
      nodup := by
        rw [List.map_append, List.nodup_append]
        refine ⟨t.nodup, List.nodup_singleton _, ?_⟩
        rintro q hq _ hq' rfl
        obtain ⟨⟨_, k'⟩, hn, rfl⟩ := List.mem_map.1 hq
        rw [List.map_singleton, List.mem_singleton] at hq'
        subst hq'
        exact find_eq_none_iff.1 h.2 k' hn
      root := List.mem_append_left _ t.root
      parent := by
        intro q b k' hn
        rcases List.mem_append.1 hn with hn | hn
        · exact List.mem_append_left _ (t.parent q b k' hn)
        · have hq := (Prod.mk.inj (List.mem_singleton.1 hn)).1
          rw [(List.append_inj' hq rfl).1]
          exact List.mem_append_left _ (find_eq_some_iff.1 (isDir_iff.1 h.1)) }
  else t

variable {t p a k}

theorem make_nodes (h : t.CanMake p a) : (t.make p a k).nodes = t.nodes ++ [(p ++ [a], k)] := by
  rw [make, dif_pos h]

theorem make_eq (h : ¬ t.CanMake p a) : t.make p a k = t := dif_neg h

theorem find_make (h : t.CanMake p a) :
    (t.make p a k).find q = if q = p ++ [a] then some k else t.find q := by
  ext k'
  rw [find_eq_some_iff, make_nodes h, List.mem_append, List.mem_singleton]
  split_ifs with hq
  · subst hq
    simp [find_eq_none_iff.1 h.2, eq_comm]
  · simp [hq, find_eq_some_iff]

end Make

section Mkdirs

/-- The directories `as` one in the other from `p` down, where they are not there. -/
def mkdirs : PathTree α φ → (p as : List α) → PathTree α φ
  | t, _, [] => t
  | t, p, a :: as => mkdirs (t.make p a .dir) (p ++ [a]) as

variable {as bs : List α}

theorem mkdirs_append :
    t.mkdirs p (as ++ bs) = (t.mkdirs p as).mkdirs (p ++ as) bs := by
  induction as generalizing t p with
  | nil => simp [mkdirs]
  | cons a as ih => simp [mkdirs, ih]

/-- The directories that are there are left. -/
theorem mkdirs_eq (h : t.find (p ++ as) ≠ none) : t.mkdirs p as = t := by
  induction as generalizing p with
  | nil => rfl
  | cons a as ih =>
    rw [List.append_cons] at h
    have ha : t.find (p ++ [a]) ≠ none := find_ne_none_of_prefix h (List.prefix_append _ _)
    rw [mkdirs, make_eq fun hc => ha hc.2, ih h]

/-- Where no file is on the way, all of it leads through directories, and the rest is as it was. -/
theorem find_mkdirs (hd : t.find p = some .dir) (hf : t.hasFile (p ++ as) = false) :
    (t.mkdirs p as).find q = if p <+: q ∧ q <+: p ++ as then some .dir else t.find q := by
  induction as generalizing t p with
  | nil =>
    rw [mkdirs, List.append_nil]
    split_ifs with hq
    · rw [(List.IsPrefix.eq_of_length_le hq.2 hq.1.length_le), hd]
    · rfl
  | cons a as ih =>
    rw [List.append_cons] at hf ⊢
    have hnot : ∀ r d, r <+: p ++ [a] ++ as → t.find r ≠ some (.file d) := by
      intro r d hr h
      rw [hasFile_iff.2 ⟨r, hr, d, h⟩] at hf
      cases hf
    have hmade : ∀ r, (t.make p a .dir).find r = if r = p ++ [a] then some .dir else t.find r := by
      intro r
      by_cases hc : t.CanMake p a
      · exact find_make hc
      · rw [make_eq hc]
        split_ifs with hr
        · obtain ⟨k, hk⟩ := Option.ne_none_iff_exists'.1 fun h0 => hc ⟨isDir_iff.2 hd, h0⟩
          cases k with
          | dir => rw [hr, hk]
          | file d => exact absurd hk (hnot _ d (List.prefix_append _ _))
        · rfl
    have hf' : (t.make p a .dir).hasFile (p ++ [a] ++ as) = false := by
      rw [Bool.eq_false_iff]
      intro h
      obtain ⟨r, hr, d, hd'⟩ := hasFile_iff.1 h
      rw [hmade] at hd'
      split_ifs at hd' with hra
      · cases hd'
      · exact hnot r d hr hd'
    rw [mkdirs, ih ((hmade _).trans (if_pos rfl)) hf', hmade]
    by_cases hpq : p <+: q
    · by_cases hpa : p ++ [a] <+: q
      · by_cases hqa : q = p ++ [a]
        · simp [hqa]
        · simp [hpq, hpa, hqa]
      · -- a path between `p` and `p ++ [a]` is `p`
        have hne : q ≠ p ++ [a] := fun h0 => hpa (h0 ▸ List.prefix_refl _)
        by_cases hqa : q <+: p ++ [a] ++ as
        · have hqp : q = p := by
            rcases List.prefix_or_prefix_of_prefix hqa (List.prefix_append (p ++ [a]) as) with h | h
            · exact ((List.prefix_concat_iff.1 h).resolve_left hne).eq_of_length_le hpq.length_le
            · exact absurd h hpa
          simp [hqp, hd]
        · rw [if_neg fun h => hqa h.2, if_neg hne, if_neg fun h => hqa h.2]
    · have hpa : ¬ p ++ [a] <+: q := fun h => hpq ((List.prefix_append p [a]).trans h)
      have hne : q ≠ p ++ [a] := fun h0 => hpa (h0 ▸ List.prefix_refl _)
      simp [hpq, hpa, hne]

end Mkdirs

section Cut

variable (t p)

/-- The tree without what is at `p` and below, unless that is the root. -/
def cut : PathTree α φ :=
  if h : p = [] then t
  else
    { nodes := t.nodes.filter fun n => ¬ p <+: n.1
      nodup := t.nodup.sublist (List.filter_sublist.map _)
      root := List.mem_filter.2 ⟨t.root, by simpa using h⟩
      parent := by
        intro q a k hn
        obtain ⟨hn, hp⟩ := List.mem_filter.1 hn
        refine List.mem_filter.2 ⟨t.parent q a k hn, ?_⟩
        simp only [decide_eq_true_eq] at hp ⊢
        exact fun h => hp (h.trans (List.prefix_append _ _)) }

variable {t p}

theorem cut_nodes (h : p ≠ []) : (t.cut p).nodes = t.nodes.filter fun n => ¬ p <+: n.1 := by
  rw [cut, dif_neg h]

theorem length_cut_le : (t.cut p).nodes.length ≤ t.nodes.length := by
  by_cases h : p = []
  · rw [cut, dif_pos h]
  · rw [cut_nodes h]
    exact List.length_filter_le _ _

theorem find_cut (h : p ≠ []) : (t.cut p).find q = if p <+: q then none else t.find q := by
  ext k
  rw [find_eq_some_iff, cut_nodes h, List.mem_filter]
  split_ifs with hq <;> simp [hq, find_eq_some_iff]

end Cut

section Map

variable (f : φ → ψ) (t)

/-- The same tree with other data in the files. -/
def map : PathTree α ψ where
  nodes := t.nodes.map fun n => (n.1, n.2.map f)
  nodup := by
    rw [List.map_map]
    exact t.nodup
  root := List.mem_map.2 ⟨_, t.root, rfl⟩
  parent p a k h := by
    obtain ⟨⟨q, k'⟩, hn, he⟩ := List.mem_map.1 h
    obtain ⟨rfl, rfl⟩ := Prod.mk.inj he
    exact List.mem_map.2 ⟨_, t.parent p a k' hn, rfl⟩

variable {f t}

@[simp] theorem find_map : (t.map f).find p = (t.find p).map (Kind.map f) := by
  ext k
  simp only [find_eq_some_iff, map, List.mem_map, Option.map_eq_some_iff, Prod.exists,
    Prod.mk.injEq]
  constructor
  · rintro ⟨q, k', hn, rfl, rfl⟩
    exact ⟨k', hn, rfl⟩
  · rintro ⟨k', hn, rfl⟩
    exact ⟨p, k', hn, rfl, rfl⟩

@[simp] theorem names_map : (t.map f).names p = t.names p := by
  rw [names, names, map, List.map_map]
  rfl

theorem isDir_map : (t.map f).isDir p = t.isDir p := by
  rw [Bool.eq_iff_iff]
  simp

theorem isFile_map : (t.map f).isFile p = t.isFile p := by
  rw [Bool.eq_iff_iff, isFile_iff, isFile_iff, find_map]
  constructor
  · rintro ⟨d, hd⟩
    obtain ⟨k, hk, hkd⟩ := Option.map_eq_some_iff.1 hd
    cases k with
    | dir => cases hkd
    | file d' => exact ⟨d', hk⟩
  · rintro ⟨d, hd⟩
    exact ⟨f d, by rw [hd]; rfl⟩

theorem hasFile_map : (t.map f).hasFile p = t.hasFile p := by
  have hfun : (t.map f).isFile = t.isFile := funext fun q => isFile_map
  rw [hasFile, hasFile, hfun]

omit [DecidableEq α] in
theorem map_nodes : (t.map f).nodes = t.nodes.map fun n => (n.1, n.2.map f) := rfl

theorem canMake_map : (t.map f).CanMake p a ↔ t.CanMake p a := by
  simp only [CanMake, isDir_map, find_map, Option.map_eq_none_iff]

theorem map_make : (t.make p a k).map f = (t.map f).make p a (k.map f) := by
  by_cases h : t.CanMake p a
  · refine ext_nodes ?_
    rw [make_nodes (canMake_map.2 h), map_nodes, make_nodes h, List.map_append]
    rfl
  · rw [make_eq h, make_eq fun h' => h (canMake_map.1 h')]

theorem map_mkdirs {as : List α} : (t.mkdirs p as).map f = (t.map f).mkdirs p as := by
  induction as generalizing t p with
  | nil => rfl
  | cons a as ih => rw [mkdirs, ih, map_make, mkdirs, Kind.map_dir]

theorem map_cut : (t.cut p).map f = (t.map f).cut p := by
  by_cases h : p = []
  · rw [cut, cut, dif_pos h, dif_pos h]
  · refine ext_nodes ?_
    rw [cut_nodes h, map_nodes, cut_nodes h, map_nodes, List.filter_map]
    rfl

end Map

end PathTree
