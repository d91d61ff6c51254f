import RaftFS.FSCalls
import RaftFS.Proofs.Heap
import RaftFS.Proofs.Paths

/-!
# Ways in the tree

The parts of a path lead down from the root by the names of the children (`Heap.Way`). The walk over
the parts goes that way as long as it meets directories, so that on a valid path
`GetParentFolderAndChild` comes to the directory that all parts but the last lead to
(`getParentFolderAndChild_cases`). Each inode has one way that leads to it, and each list of parts
is that of a path, which `ToFileInfo` reads back on its way up (`pathTo_eq`).
-/

namespace RaftFS

namespace FSNamespace

/-- No part has a slash. -/
theorem not_mem_of_mem_splitOn {α : Type*} [DecidableEq α] {a : α} :
    ∀ {l p : List α}, p ∈ l.splitOn a → a ∉ p
  | [], p, hp => by
    rw [List.splitOn_nil, List.mem_singleton] at hp
    rw [hp]
    exact List.not_mem_nil
  | x :: l, p, hp => by
    rw [List.splitOn_cons_eq_if_modifyHead] at hp
    split_ifs at hp with hx
    · rcases List.mem_cons.1 hp with rfl | hp
      · exact List.not_mem_nil
      · exact not_mem_of_mem_splitOn hp
    · rcases hl : l.splitOn a with _ | ⟨q, qs⟩
      · exact absurd hl (List.splitOn_ne_nil _ _)
      · rw [hl, List.modifyHead_cons] at hp
        rcases List.mem_cons.1 hp with rfl | hp
        · have hq : a ∉ q := not_mem_of_mem_splitOn (by rw [hl]; exact List.mem_cons_self)
          have hxa : a ≠ x := fun h0 => hx (by simp [h0])
          simp [hxa, hq]
        · exact not_mem_of_mem_splitOn (by rw [hl]; exact List.mem_cons_of_mem _ hp)

theorem not_mem_of_mem_splitPath {path p : Str} (h : validatePath path = true)
    (hp : p ∈ splitPath path) : '/' ∉ p := by
  obtain ⟨rest, rfl⟩ := validatePath_iff.1 h
  rw [splitPath_cons] at hp
  exact not_mem_of_mem_splitOn hp

theorem exists_splitPath {path : Str} (h : validatePath path = true) :
    ∃ parts name, splitPath path = parts ++ [name] ∧ '/' ∉ name := by
  have hsplit : splitPath path = _ ++ [_] :=
    (List.dropLast_concat_getLast (splitPath_ne_nil h)).symm
  exact ⟨_, _, hsplit, not_mem_of_mem_splitPath h (List.getLast_mem _)⟩

/-- The path of the parts. -/
def pathOf (parts : List Str) : Str := '/' :: ['/'].intercalate parts

theorem validatePath_pathOf (parts : List Str) : validatePath (pathOf parts) = true := rfl

theorem splitPath_pathOf {parts : List Str} (hne : parts ≠ []) (hs : ∀ p ∈ parts, '/' ∉ p) :
    splitPath (pathOf parts) = parts := by
  rw [pathOf, splitPath_cons]
  exact List.splitOn_intercalate '/' hs hne

theorem pathOf_splitPath {path : Str} (h : validatePath path = true) :
    pathOf (splitPath path) = path := by
  obtain ⟨rest, rfl⟩ := validatePath_iff.1 h
  rw [pathOf, splitPath_cons, List.intercalate_splitOn]

theorem pathOf_concat (parts : List Str) (name rest : Str) :
    pathOf (parts ++ [name ++ '/' :: rest]) = pathOf (parts ++ [name, rest]) := by
  refine congrArg ('/' :: ·) ?_
  induction parts with
  | nil =>
    rw [List.nil_append, List.nil_append, List.intercalate_singleton, List.intercalate_cons_cons,
      List.intercalate_singleton, List.append_assoc, List.singleton_append]
  | cons part parts ih =>
    rw [List.cons_append, List.cons_append, List.intercalate_cons_of_ne_nil (by simp),
      List.intercalate_cons_of_ne_nil (by simp), ih]

end FSNamespace

namespace Heap

variable {h : Heap} {root p d d' c c' : Ptr} {i : INode} {name name' : Str}
  {names names' : List Str} {cs : List Ptr} {m : Str → Option Ptr}

/-- `d` is a directory. -/
def IsDir (h : Heap) (d : Ptr) : Prop := ∃ cs m, h.dir d = some (cs, m)

theorem isDir_iff : h.IsDir d ↔ ∃ i, h.cell d = some i ∧ i.isDir = true := by
  constructor
  · rintro ⟨cs, m, hd⟩
    obtain ⟨i, hi, hb⟩ := dir_eq_some.1 hd
    exact ⟨i, hi, by simp only [INode.isDir, hb]⟩
  · rintro ⟨i, hi, hd⟩
    rcases hb : i.body with size | ⟨cs, m⟩
    · simp only [INode.isDir, hb] at hd
      cases hd
    · exact ⟨cs, m, dir_eq_some.2 ⟨i, hi, hb⟩⟩

theorem dir_eq_none (hd : ¬ h.IsDir d) : h.dir d = none := by
  rcases hdir : h.dir d with _ | ⟨cs, m⟩
  · rfl
  · exact absurd ⟨cs, m, hdir⟩ hd

/-- `c` is among the children of `d` and has the name `name`. -/
def Child (h : Heap) (d : Ptr) (name : Str) (c : Ptr) : Prop :=
  ∃ cs m, h.dir d = some (cs, m) ∧ c ∈ cs ∧ ∃ i, h.cell c = some i ∧ i.name = name

/-- From `a` the names lead to `p`. -/
abbrev Way (h : Heap) (a : Ptr) (names : List Str) (p : Ptr) : Prop :=
  Forest.Way h.Child a names p

theorem Child.isDir (hc : h.Child d name c) : h.IsDir d := by
  obtain ⟨cs, m, hd, -⟩ := hc
  exact ⟨cs, m, hd⟩

theorem Child.cell (hc : h.Child d name c) : ∃ i, h.cell c = some i ∧ i.name = name := by
  obtain ⟨_, _, -, -, hi⟩ := hc
  exact hi

namespace WellFormed

variable (hw : WellFormed h root)
include hw

theorem isDir_root : h.IsDir root := hw.root_dir

theorem ne_fresh (hd : h.IsDir d) : d ≠ h.fresh := by
  obtain ⟨i, hi, -⟩ := isDir_iff.1 hd
  exact (hw.lt_fresh d i hi).ne

theorem child_iff (hd : h.dir d = some (cs, m)) : h.Child d name c ↔ m name = some c := by
  rw [hw.map d cs m hd name c]
  constructor
  · rintro ⟨_, _, hd', hc, hi⟩
    obtain ⟨rfl, rfl⟩ := Prod.mk.inj (Option.some.inj (hd.symm.trans hd'))
    exact ⟨hc, hi⟩
  · rintro ⟨hc, hi⟩
    exact ⟨cs, m, hd, hc, hi⟩

theorem getChild_cases (hd : h.IsDir d) (name : Str) :
    (∃ c, h.Child d name c ∧ h.getChild d name = some (some c)) ∨
      (∀ c, ¬ h.Child d name c) ∧ h.getChild d name = some none := by
  obtain ⟨cs, m, hdir⟩ := hd
  simp only [hw.child_iff hdir, getChild_eq hdir, Option.some.injEq]
  rcases m name with _ | c
  · exact .inr ⟨fun c => Option.some_ne_none c ∘ Eq.symm, rfl⟩
  · exact .inl ⟨c, rfl, rfl⟩

theorem getChild_iff : h.getChild d name = some (some c) ↔ h.Child d name c := by
  constructor
  · intro hg
    obtain ⟨⟨cs, m⟩, hd, hm⟩ := Option.map_eq_some_iff.1 hg
    exact (hw.child_iff hd).2 hm
  · intro hc
    obtain ⟨cs, m, hd⟩ := hc.isDir
    rw [getChild_eq hd, (hw.child_iff hd).1 hc]

theorem child_unique (hc : h.Child d name c) (hc' : h.Child d name c') : c = c' := by
  have hg := hw.getChild_iff.2 hc
  rw [hw.getChild_iff.2 hc'] at hg
  exact (Option.some.inj (Option.some.inj hg)).symm

theorem parentOf_of_child (hc : h.Child d name c) : h.parentOf c = some d := by
  obtain ⟨cs, m, hd, hmem, -⟩ := hc
  exact hw.parentOf_child hd hmem

theorem child_parent (hc : h.Child d name c) (hi : h.cell c = some i) :
    i.name = name ∧ i.parent = some d := by
  obtain ⟨cs, m, hd, hmem, j, hj, hn⟩ := hc
  obtain ⟨-, k, hk, hp⟩ := hw.child d cs m hd c hmem
  obtain rfl := Option.some.inj (hi.symm.trans hj)
  obtain rfl := Option.some.inj (hi.symm.trans hk)
  exact ⟨hn, hp⟩

theorem child_inj (hc : h.Child d name c) (hc' : h.Child d' name' c) : d = d' ∧ name = name' := by
  obtain ⟨i, hi, -⟩ := hc.cell
  obtain ⟨hn, hp⟩ := hw.child_parent hc hi
  obtain ⟨hn', hp'⟩ := hw.child_parent hc' hi
  exact ⟨Option.some.inj (hp.symm.trans hp'), hn.symm.trans hn'⟩

theorem child_of_parentOf (hp : h.parentOf c = some d) : ∃ name, h.Child d name c := by
  obtain ⟨-, cs, m, hd, hmem⟩ := hw.parent_lt hp
  obtain ⟨-, i, hi, -⟩ := hw.child d cs m hd c hmem
  exact ⟨i.name, cs, m, hd, hmem, i, hi, rfl⟩

theorem child_ne_root (hc : h.Child d name c) : c ≠ root := by
  obtain ⟨cs, m, hd, hmem, -⟩ := hc
  exact (hw.child d cs m hd c hmem).1

theorem child_name (hc : h.Child d name c) : '/' ∉ name := by
  obtain ⟨i, hi, rfl⟩ := hc.cell
  exact (hw.linked c i hi (hw.child_ne_root hc)).1

theorem not_below_of_child (hc : h.Child d name c) : ¬ h.Below c d := by
  obtain ⟨cs, m, hd, hmem, -⟩ := hc
  exact hw.not_below_child hd hmem

theorem way_unique {a q : Ptr} (hp : h.Way a names p) (hq : h.Way a names q) : p = q := by
  have hdet : ∀ d name c c', h.Child d name c → h.Child d name c' → c = c' :=
    fun _ _ _ _ hc hc' => hw.child_unique hc hc'
  exact Forest.Way.unique hdet hp hq

theorem way_slash {a : Ptr} (hp : h.Way a names p) : ∀ name ∈ names, '/' ∉ name := by
  induction hp with
  | nil => simp
  | cons hc _ ih => exact List.forall_mem_cons.2 ⟨hw.child_name hc, ih⟩

theorem exists_way (hp : h.cell p = some i) : ∃ names, h.Way root names p :=
  Forest.Way.exists_of_below (fun _ _ hp => hw.child_of_parentOf hp) (hw.below_root hp)

theorem way_cell (hp : h.Way root names p) : ∃ i, h.cell p = some i := by
  rcases names.eq_nil_or_concat' with rfl | ⟨parts, name, rfl⟩
  · obtain rfl := Forest.Way.nil_iff.1 hp
    obtain ⟨i, hi, -⟩ := hw.rootDir
    exact ⟨i, hi⟩
  · obtain ⟨d, -, hc⟩ := Forest.Way.concat_iff.1 hp
    obtain ⟨i, hi, -⟩ := hc.cell
    exact ⟨i, hi⟩

end WellFormed

/-- The loop of `ToFileInfo` up the parents reads the way back. By induction on its parts, the last
one first. -/
theorem WellFormed.pathTo_eq (hw : WellFormed h root) {parts : List Str} (hd : h.Way root parts d)
    {fuel : ℕ} (hfuel : d < fuel) (path : Str) :
    h.pathTo fuel (some d) path = some (FSNamespace.pathOf (parts ++ [path])) := by
  induction parts using List.reverseRecOn generalizing d fuel path with
  | nil =>
    obtain rfl := Forest.Way.nil_iff.1 hd
    obtain ⟨fuel, rfl⟩ := Nat.exists_eq_add_of_le' (Nat.one_le_of_lt hfuel)
    obtain ⟨r, hr, hrd, hn, -⟩ := hw.rootDir
    have hroot : r.isRoot = true := by rw [INode.isRoot, hrd, hn]; rfl
    simp only [pathTo, hr, hroot, hn, Option.bind_eq_bind, Option.bind_some, Bool.not_true,
      Bool.false_eq_true, if_false, Option.pure_def]
    rw [List.nil_append, FSNamespace.pathOf, List.intercalate_singleton, List.singleton_append]
  | append_singleton parts name ih =>
    obtain ⟨e, he, hc⟩ := Forest.Way.concat_iff.1 hd
    obtain ⟨fuel, rfl⟩ := Nat.exists_eq_add_of_le' (Nat.one_le_of_lt hfuel)
    obtain ⟨i, hi, -⟩ := hc.cell
    obtain ⟨hn, hpar⟩ := hw.child_parent hc hi
    have hroot : i.isRoot = false := by
      rw [Bool.eq_false_iff]
      intro h0
      exact hw.child_ne_root hc (hw.name_root hi (by simpa using (Bool.and_eq_true_iff.1 h0).2))
    have hlt : e < fuel := (hw.parent_lt (hw.parentOf_of_child hc)).1.trans_le
      (Nat.le_of_lt_succ hfuel)
    simp only [pathTo, hi, hroot, hn, hpar, Option.bind_eq_bind, Option.bind_some, Bool.not_false,
      if_true]
    rw [ih he hlt, FSNamespace.pathOf_concat, List.append_assoc, List.singleton_append]

theorem isDir_of_way {a : Ptr} (hp : h.Way a names p) (hne : names ≠ []) : h.IsDir a := by
  cases hp with
  | nil => exact absurd rfl hne
  | cons hc _ => exact hc.isDir

end Heap

namespace FSNamespace

open Heap

variable {fs : FSNamespace} {path : Str} {h : Heap} {root : Ptr}

/-- The walk over the parts comes to the directory they lead to, if it is one. -/
theorem parentFolder_cases (hw : WellFormed h root) : ∀ (parts : List Str) {current : Ptr},
    h.IsDir current →
      (∃ d, h.IsDir d ∧ h.Way current parts d ∧ parentFolder h parts current = some (some d)) ∨
        (∀ d, h.Way current parts d → ¬ h.IsDir d) ∧ parentFolder h parts current = some none
  | [], current, hd => .inl ⟨current, hd, .nil, rfl⟩
  | part :: parts, current, hd => by
    simp only [parentFolder, Option.bind_eq_bind]
    rcases hw.getChild_cases hd part with ⟨next, hc, hg⟩ | ⟨hc, hg⟩
    · obtain ⟨i, hi, -⟩ := hc.cell
      have hway : ∀ d, h.Way current (part :: parts) d ↔ h.Way next parts d := by
        intro d
        refine ⟨fun h' => ?_, .cons hc⟩
        obtain ⟨c, hc', h'⟩ := Forest.Way.cons_iff.1 h'
        exact hw.child_unique hc' hc ▸ h'
      simp only [hg, Option.bind_some, hi, hway]
      split_ifs with hdir
      · exact parentFolder_cases hw parts (isDir_iff.2 ⟨i, hi, hdir⟩)
      · -- neither what the part names nor anything the parts lead to from it is a directory
        refine .inr ⟨fun d h' hd' => ?_, rfl⟩
        have hnext : ¬ h.IsDir next := by
          intro hn
          obtain ⟨j, hj, hjd⟩ := isDir_iff.1 hn
          rw [Option.some.inj (hi.symm.trans hj)] at hdir
          exact hdir hjd
        cases parts with
        | nil => exact hnext (Forest.Way.nil_iff.1 h' ▸ hd')
        | cons part' parts => exact hnext (isDir_of_way h' (List.cons_ne_nil _ _))
    · refine .inr ⟨fun d h' _ => ?_, by rw [hg]; rfl⟩
      obtain ⟨c, hc', -⟩ := Forest.Way.cons_iff.1 h'
      exact hc c hc'

/-- On a valid path `GetParentFolderAndChild` comes to the directory that all parts but the last
lead to, or to nothing. -/
theorem getParentFolderAndChild_cases (hw : WellFormed fs.heap fs.root) {parts : List Str}
    {name : Str} (hsplit : splitPath path = parts ++ [name]) :
    (∃ d, fs.heap.IsDir d ∧ fs.heap.Way fs.root parts d ∧
        fs.getParentFolderAndChild path = some (some d, name)) ∨
      (∀ d, fs.heap.Way fs.root parts d → ¬ fs.heap.IsDir d) ∧
        fs.getParentFolderAndChild path = some (none, []) := by
  have hget : (splitPath path).getLast? = some name := by simp [hsplit]
  have hdrop : (splitPath path).dropLast = parts := by simp [hsplit]
  by_cases hroot : path = ['/']
  · obtain ⟨rfl, rfl⟩ : parts = [] ∧ name = [] := by
      rw [hroot, show splitPath ['/'] = [[]] from splitPath_cons []] at hsplit
      simpa [List.append_eq_singleton_iff, eq_comm] using hsplit
    exact .inl ⟨fs.root, hw.isDir_root, .nil, by rw [getParentFolderAndChild, if_pos hroot]⟩
  · simp only [getParentFolderAndChild, if_neg hroot, hget, hdrop, Option.bind_eq_bind,
      Option.bind_some]
    rcases parentFolder_cases hw parts hw.isDir_root with ⟨d, hd, hway, hp⟩ | ⟨hway, hp⟩
    · exact .inl ⟨d, hd, hway, by rw [hp]; rfl⟩
    · exact .inr ⟨hway, by rw [hp]; rfl⟩

/-- The path leads to the child `it` of `d`, which has the name `name`. -/
structure Located (fs : FSNamespace) (path : Str) (d : Ptr) (name : Str) (it : Ptr) : Prop where
  way : ∃ parts, splitPath path = parts ++ [name] ∧ fs.heap.Way fs.root parts d
  child : fs.heap.Child d name it

theorem Located.unique {d d' it it' : Ptr} {name name' : Str} (hw : WellFormed fs.heap fs.root)
    (hl : fs.Located path d name it) (hl' : fs.Located path d' name' it') :
    d = d' ∧ name = name' ∧ it = it' := by
  obtain ⟨parts, hs, hway⟩ := hl.way
  obtain ⟨parts', hs', hway'⟩ := hl'.way
  obtain ⟨rfl, hn⟩ := List.append_inj' (hs.symm.trans hs') rfl
  obtain rfl := List.singleton_inj.1 hn
  obtain rfl := hw.way_unique hway hway'
  exact ⟨rfl, rfl, hw.child_unique hl.child hl'.child⟩

/-- A path names what it leads to, if its last part is not empty. -/
theorem target_eq_some_iff (hw : WellFormed fs.heap fs.root) (hv : validatePath path = true)
    {it : Ptr} : fs.target path = some it ↔ ∃ d name, name ≠ [] ∧ fs.Located path d name it := by
  obtain ⟨parts, name, hsplit, -⟩ := exists_splitPath hv
  have hloc : ∀ {d n}, fs.Located path d n it → n = name ∧ fs.heap.Way fs.root parts d := by
    intro d n hl
    obtain ⟨parts', hs, hway⟩ := hl.way
    obtain ⟨rfl, hn⟩ := List.append_inj' (hsplit.symm.trans hs) rfl
    exact ⟨(List.singleton_inj.1 hn).symm, hway⟩
  rcases getParentFolderAndChild_cases hw hsplit with ⟨d, hd, hway, hget⟩ | ⟨hnone, hget⟩
  · have htarget : fs.target path =
        if name.isEmpty then none else (fs.heap.getChild d name).join := by
      rw [target, hget]
      rfl
    rw [htarget, Option.ite_none_left_eq_some, List.isEmpty_iff, Option.join_eq_some_iff,
      hw.getChild_iff]
    constructor
    · rintro ⟨hn, hc⟩
      exact ⟨d, name, hn, ⟨parts, hsplit, hway⟩, hc⟩
    · rintro ⟨d', name', hn, hl⟩
      obtain ⟨rfl, hway'⟩ := hloc hl
      exact ⟨hn, hw.way_unique hway' hway ▸ hl.child⟩
  · have htarget : fs.target path = none := by
      rw [target, hget]
      rfl
    rw [htarget]
    refine iff_of_false (Option.some_ne_none it).symm ?_
    rintro ⟨d, n, -, hl⟩
    exact hnone d (hloc hl).2 hl.child.isDir

end FSNamespace

end RaftFS
