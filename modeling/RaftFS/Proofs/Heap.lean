import RaftFS.INode
import RaftFS.Lib.Forest
import Mathlib.Data.Finset.Card
import Mathlib.Data.List.Nodup
import Mathlib.Tactic.SplitIfs
import Mathlib.Order.Interval.Finset.Nat

/-!
# The tree in the heap

What makes a tree of the inodes in a heap (`WellFormed`): each inode but the root is a child of its
parent and lies after it, and a directory's two containers agree. A new child is put into both, and
a child is taken out of both with all that is below it; either way a tree is left. `DeleteChild`
and `DeleteAllChild` come to an end and do just that (`deleteChild_eq`).
-/

namespace RaftFS

namespace INodeBody

/-- One child more in both containers. -/
def insert (c : Ptr) (name : Str) : INodeBody → INodeBody
  | .file size => .file size
  | .dir children childrenMap => .dir (children ++ [c]) (Function.update childrenMap name (some c))

/-- One child less in both containers. -/
def erase (c : Ptr) (name : Str) : INodeBody → INodeBody
  | .file size => .file size
  | .dir children childrenMap => .dir (children.erase c) (Function.update childrenMap name none)

/-- No children. -/
def clear : INodeBody → INodeBody
  | .file size => .file size
  | .dir _ _ => .dir [] fun _ => none

end INodeBody

def INode.mapBody (f : INodeBody → INodeBody) (i : INode) : INode := { i with body := f i.body }

namespace Heap

variable {h h' : Heap} {p d c root it : Ptr} {i : INode} {cs : List Ptr} {m : Str → Option Ptr}
  {name : Str}

/-- The parent of an inode, if it is another one. -/
def parentOf (h : Heap) (p : Ptr) : Option Ptr :=
  (h.cell p).bind fun i => if i.parent = some p then none else i.parent

/-- `p` is in the subtree of `a`. -/
abbrev Below (h : Heap) (a p : Ptr) : Prop := Forest.Below h.parentOf a p

theorem dir_eq_some : h.dir d = some (cs, m) ↔ ∃ i, h.cell d = some i ∧ i.body = .dir cs m := by
  unfold dir
  constructor
  · intro hd
    split at hd
    · rename_i name owner time parent children childrenMap hc
      obtain ⟨rfl, rfl⟩ := Prod.mk.inj (Option.some.inj hd)
      exact ⟨_, hc, rfl⟩
    · cases hd
  · rintro ⟨⟨name, owner, time, parent, body⟩, hc, rfl⟩
    rw [hc]

theorem dir_congr (hc : h'.cell p = h.cell p) : h'.dir p = h.dir p := by
  unfold dir
  rw [hc]

theorem parentOf_congr (hc : h'.cell p = h.cell p) : h'.parentOf p = h.parentOf p := by
  unfold parentOf
  rw [hc]

theorem parentOf_eq_some_iff :
    h.parentOf p = some d ↔ ∃ i, h.cell p = some i ∧ i.parent = some d ∧ d ≠ p := by
  simp only [parentOf, Option.bind_eq_some_iff]
  constructor
  · rintro ⟨i, hi, hd⟩
    split_ifs at hd with hp
    refine ⟨i, hi, hd, fun h0 => hp (h0 ▸ hd)⟩
  · rintro ⟨i, hi, hd, hne⟩
    refine ⟨i, hi, ?_⟩
    rw [if_neg fun h0 => hne (Option.some.inj (hd.symm.trans h0)), hd]

theorem getChild_eq (hd : h.dir d = some (cs, m)) (name : Str) :
    h.getChild d name = some (m name) := by
  rw [getChild, hd]
  rfl

/-- The inode at `p` has its name and its parent still, or there is none still. -/
def Kept (h h' : Heap) (p : Ptr) : Prop :=
  (h'.cell p).map (fun i => (i.name, i.parent)) = (h.cell p).map fun i => (i.name, i.parent)

namespace Kept

theorem of_eq (hc : h'.cell p = h.cell p) : Kept h h' p := by
  rw [Kept, hc]

theorem of_mapBody {f : INodeBody → INodeBody} (hc : h'.cell p = (h.cell p).map (INode.mapBody f)) :
    Kept h h' p := by
  rw [Kept, hc, Option.map_map]
  rfl

theorem symm (hk : Kept h h' p) : Kept h' h p := Eq.symm hk

theorem exists_cell (hk : Kept h h' p) (hi : h.cell p = some i) :
    ∃ j, h'.cell p = some j ∧ j.name = i.name ∧ j.parent = i.parent := by
  rw [Kept, hi, Option.map_some, Option.map_eq_some_iff] at hk
  obtain ⟨j, hj, hij⟩ := hk
  exact ⟨j, hj, Prod.mk.inj hij⟩

theorem name_iff (hk : Kept h h' p) :
    (∃ j, h'.cell p = some j ∧ j.name = name) ↔ ∃ i, h.cell p = some i ∧ i.name = name := by
  constructor
  · rintro ⟨j, hj, rfl⟩
    obtain ⟨i, hi, hn, -⟩ := hk.symm.exists_cell hj
    exact ⟨i, hi, hn⟩
  · rintro ⟨i, hi, rfl⟩
    obtain ⟨j, hj, hn, -⟩ := hk.exists_cell hi
    exact ⟨j, hj, hn⟩

end Kept

/-- The inodes are a tree below `root`, which names itself and is its own parent. -/
structure WellFormed (h : Heap) (root : Ptr) : Prop where
  lt_fresh : ∀ p i, h.cell p = some i → p < h.fresh
  rootDir : ∃ i, h.cell root = some i ∧ i.isDir = true ∧ i.name = ['/'] ∧ i.parent = some root
  linked : ∀ p i, h.cell p = some i → p ≠ root → '/' ∉ i.name ∧
    ∃ d cs m, i.parent = some d ∧ d < p ∧ h.dir d = some (cs, m) ∧ p ∈ cs
  child : ∀ d cs m, h.dir d = some (cs, m) → ∀ c ∈ cs, c ≠ root ∧
    ∃ i, h.cell c = some i ∧ i.parent = some d
  nodup : ∀ d cs m, h.dir d = some (cs, m) → cs.Nodup
  map : ∀ d cs m, h.dir d = some (cs, m) → ∀ name c, m name = some c ↔
    c ∈ cs ∧ ∃ i, h.cell c = some i ∧ i.name = name

namespace WellFormed

variable (hw : WellFormed h root)
include hw

theorem root_dir : ∃ cs m, h.dir root = some (cs, m) := by
  obtain ⟨r, hr, hd, -⟩ := hw.rootDir
  rcases hb : r.body with size | ⟨cs, m⟩
  · simp only [INode.isDir, hb] at hd
    cases hd
  · exact ⟨cs, m, dir_eq_some.2 ⟨r, hr, hb⟩⟩

theorem rootDir_of_kept (hk : Kept h h' root) {f : Str → Option Ptr}
    (hd : h'.dir root = some (cs, f)) :
    ∃ i, h'.cell root = some i ∧ i.isDir = true ∧ i.name = ['/'] ∧ i.parent = some root := by
  obtain ⟨r, hr, -, hn, hp⟩ := hw.rootDir
  obtain ⟨i, hi, hb⟩ := dir_eq_some.1 hd
  obtain ⟨j, hj, hjn, hjp⟩ := hk.exists_cell hr
  obtain rfl := Option.some.inj (hi.symm.trans hj)
  exact ⟨i, hi, by simp only [INode.isDir, hb], hjn.trans hn, hjp.trans hp⟩

theorem parent_lt (hp : h.parentOf p = some d) :
    d < p ∧ ∃ cs m, h.dir d = some (cs, m) ∧ p ∈ cs := by
  obtain ⟨i, hi, hpar, hne⟩ := parentOf_eq_some_iff.1 hp
  by_cases hr : p = root
  · subst hr
    obtain ⟨r, hr, -, -, hrp⟩ := hw.rootDir
    obtain rfl := Option.some.inj (hr.symm.trans hi)
    exact absurd (Option.some.inj (hrp.symm.trans hpar)).symm hne
  · obtain ⟨-, e, cs, m, hpe, hlt, hd, hmem⟩ := hw.linked p i hi hr
    obtain rfl := Option.some.inj (hpe.symm.trans hpar)
    exact ⟨hlt, cs, m, hd, hmem⟩

theorem below_le {a : Ptr} (hb : h.Below a p) : a ≤ p :=
  hb.le fun _ _ hp => (hw.parent_lt hp).1.le

theorem child_lt (hd : h.dir d = some (cs, m)) (hc : c ∈ cs) : d < c := by
  obtain ⟨hr, i, hi, hp⟩ := hw.child d cs m hd c hc
  obtain ⟨-, e, _, _, hpe, hlt, -⟩ := hw.linked c i hi hr
  obtain rfl := Option.some.inj (hpe.symm.trans hp)
  exact hlt

theorem parentOf_child (hd : h.dir d = some (cs, m)) (hc : c ∈ cs) : h.parentOf c = some d := by
  obtain ⟨-, i, hi, hp⟩ := hw.child d cs m hd c hc
  exact parentOf_eq_some_iff.2 ⟨i, hi, hp, (hw.child_lt hd hc).ne⟩

theorem not_below_child (hd : h.dir d = some (cs, m)) (hc : c ∈ cs) : ¬ h.Below c d :=
  fun hb => absurd (hw.below_le hb) (not_le.2 (hw.child_lt hd hc))

theorem below_child (hd : h.dir d = some (cs, m)) (hc : c ∈ cs) {a : Ptr} :
    h.Below a c ↔ c = a ∨ h.Below a d := by
  constructor
  · intro hb
    refine hb.eq_or_parent.imp_right ?_
    rintro ⟨e, he, hb⟩
    rw [hw.parentOf_child hd hc] at he
    exact Option.some.inj he ▸ hb
  · rintro (rfl | hb)
    · exact .refl
    · exact .step (hw.parentOf_child hd hc) hb

theorem below_cases {a : Ptr} (hb : h.Below a p) (hne : p ≠ a) :
    ∃ cs m, h.dir a = some (cs, m) ∧ ∃ c ∈ cs, h.Below c p := by
  obtain ⟨c, hc, hcp⟩ := hb.exists_child hne
  obtain ⟨-, cs, m, hd, hmem⟩ := hw.parent_lt hc
  exact ⟨cs, m, hd, c, hmem, hcp⟩

theorem below_root (hp : h.cell p = some i) : h.Below root p := by
  refine Forest.Below.of_forall_lt (S := fun p => (h.cell p).isSome = true) ?_ p (by rw [hp]; rfl)
  intro q hq hr
  obtain ⟨j, hj⟩ := Option.isSome_iff_exists.1 hq
  obtain ⟨-, d, cs, m, hpar, hlt, hd, -⟩ := hw.linked q j hj hr
  obtain ⟨k, hk, -⟩ := dir_eq_some.1 hd
  exact ⟨d, parentOf_eq_some_iff.2 ⟨j, hj, hpar, hlt.ne⟩, hlt, by rw [hk]; rfl⟩

theorem not_below_root {a : Ptr} (hne : a ≠ root) : ¬ h.Below a root := by
  intro hb
  obtain ⟨r, hr, -, -, hrp⟩ := hw.rootDir
  rcases hb.eq_or_parent with rfl | ⟨e, he, -⟩
  · exact hne rfl
  · obtain ⟨k, hk, hkp, hke⟩ := parentOf_eq_some_iff.1 he
    obtain rfl := Option.some.inj (hr.symm.trans hk)
    exact hke (Option.some.inj (hkp.symm.trans hrp))

theorem name_root (hp : h.cell p = some i) (hn : i.name = ['/']) : p = root := by
  by_contra hr
  exact (hw.linked p i hp hr).1 (by simp [hn])

theorem find_child (hd : h.dir d = some (cs, m)) (hm : m name = some c) :
    cs.find? (fun c => (h.cell c).map INode.name = some name) = some c := by
  obtain ⟨hc, i, hi, hn⟩ := (hw.map d cs m hd name c).1 hm
  rcases hf : cs.find? (fun c => (h.cell c).map INode.name = some name) with _ | c'
  · have := List.find?_eq_none.1 hf c hc
    simp [hi, hn] at this
  · have hn' := List.find?_some hf
    simp only [decide_eq_true_eq, Option.map_eq_some_iff] at hn'
    have hm' := (hw.map d cs m hd name c').2 ⟨List.mem_of_find?_eq_some hf, hn'⟩
    rw [Option.some.inj (hm'.symm.trans hm)]

end WellFormed

section Insert

/-- The heap with the new inode `i` as a child of `d`. -/
def inserted (h : Heap) (d : Ptr) (i : INode) : Heap where
  cell p := if p = h.fresh then some i
    else if p = d then (h.cell d).map (INode.mapBody (.insert h.fresh i.name)) else h.cell p
  fresh := h.fresh + 1

theorem inserted_cell_fresh : (h.inserted d i).cell h.fresh = some i := if_pos rfl

theorem inserted_cell_self (hd : d ≠ h.fresh) : (h.inserted d i).cell d =
    (h.cell d).map (INode.mapBody (.insert h.fresh i.name)) := (if_neg hd).trans (if_pos rfl)

theorem inserted_cell_of_ne (hp : p ≠ h.fresh) (hd : p ≠ d) :
    (h.inserted d i).cell p = h.cell p := (if_neg hp).trans (if_neg hd)

theorem inserted_kept (hp : p ≠ h.fresh) : Kept h (h.inserted d i) p := by
  by_cases hd : p = d
  · subst hd
    exact .of_mapBody (inserted_cell_self hp)
  · exact .of_eq (inserted_cell_of_ne hp hd)

theorem inserted_dir_self (hd : d ≠ h.fresh) (hdir : h.dir d = some (cs, m)) :
    (h.inserted d i).dir d =
      some (cs ++ [h.fresh], Function.update m i.name (some h.fresh)) := by
  obtain ⟨k, hk, hb⟩ := dir_eq_some.1 hdir
  refine dir_eq_some.2 ⟨_, by rw [inserted_cell_self hd, hk]; rfl, ?_⟩
  simp only [INode.mapBody, hb, INodeBody.insert]

theorem inserted_dir_of_ne (hp : p ≠ h.fresh) (hd : p ≠ d) :
    (h.inserted d i).dir p = h.dir p := dir_congr (inserted_cell_of_ne hp hd)

theorem inserted_dir_eq_some (hdir : h.dir d = some (cs, m)) {e : Ptr} {es : List Ptr}
    {f : Str → Option Ptr} (he : (h.inserted d i).dir e = some (es, f)) :
    e = h.fresh ∧ i.body = .dir es f ∨ e ≠ h.fresh ∧
      (e = d ∧ es = cs ++ [h.fresh] ∧ f = Function.update m i.name (some h.fresh) ∨
        e ≠ d ∧ h.dir e = some (es, f)) := by
  by_cases hf : e = h.fresh
  · subst hf
    obtain ⟨j, hj, hb⟩ := dir_eq_some.1 he
    rw [inserted_cell_fresh] at hj
    obtain rfl := Option.some.inj hj
    exact .inl ⟨rfl, hb⟩
  · by_cases hd : e = d
    · subst hd
      rw [inserted_dir_self hf hdir] at he
      obtain ⟨rfl, rfl⟩ := Prod.mk.inj (Option.some.inj he)
      exact .inr ⟨hf, .inl ⟨rfl, rfl, rfl⟩⟩
    · rw [inserted_dir_of_ne hf hd] at he
      exact .inr ⟨hf, .inr ⟨hd, he⟩⟩

theorem exists_inserted_dir (hdir : h.dir d = some (cs, m)) {e : Ptr} (hf : e ≠ h.fresh)
    {es : List Ptr} {f : Str → Option Ptr} (he : h.dir e = some (es, f)) :
    ∃ es' f', (h.inserted d i).dir e = some (es', f') ∧ es ⊆ es' := by
  by_cases hd : e = d
  · subst hd
    obtain ⟨rfl, rfl⟩ := Prod.mk.inj (Option.some.inj (hdir.symm.trans he))
    exact ⟨_, _, inserted_dir_self hf hdir, List.subset_append_left _ _⟩
  · exact ⟨es, f, (inserted_dir_of_ne hf hd).trans he, List.Subset.refl _⟩

/-- A new inode: its parent is `d`, it has a part of a path for its name, and no children. -/
structure IsNew (d : Ptr) (i : INode) : Prop where
  parent : i.parent = some d
  name : '/' ∉ i.name
  body : ∀ cs m, i.body = .dir cs m → cs = [] ∧ m = fun _ => none

/-- The map of each directory has just its children, the new one under its name. -/
theorem WellFormed.inserted_map (hw : WellFormed h root) (hdir : h.dir d = some (cs, m))
    (hfree : m i.name = none) (hi : IsNew d i) {e : Ptr} {es : List Ptr} {f : Str → Option Ptr}
    (he : (h.inserted d i).dir e = some (es, f)) (name : Str) (c : Ptr) : f name = some c ↔
      c ∈ es ∧ ∃ j, (h.inserted d i).cell c = some j ∧ j.name = name := by
  rcases inserted_dir_eq_some hdir he with ⟨-, hb⟩ | ⟨-, ⟨rfl, rfl, rfl⟩ | ⟨-, he⟩⟩
  · obtain ⟨rfl, rfl⟩ := hi.body _ _ hb
    simp
  · by_cases hcf : c = h.fresh
    · subst hcf
      rw [Function.update_apply, inserted_cell_fresh]
      split_ifs with hn
      · simp [hn]
      · have hnone : m name ≠ some h.fresh := by
          intro hm
          obtain ⟨-, k, hk, -⟩ := (hw.map _ _ _ hdir name _).1 hm
          exact (hw.lt_fresh _ k hk).ne rfl
        simp [hnone, Ne.symm hn]
    · rw [(inserted_kept hcf).name_iff, Function.update_apply, List.mem_append, List.mem_singleton,
        or_iff_left hcf, ← hw.map _ _ _ hdir name c]
      split_ifs with hn
      · rw [hn, hfree]
        simp [Ne.symm hcf]
      · rfl
  · rw [hw.map _ _ _ he name c]
    refine and_congr_right fun hc => ?_
    obtain ⟨-, k, hk, -⟩ := hw.child _ _ _ he c hc
    exact (inserted_kept (hw.lt_fresh c k hk).ne).name_iff.symm

/-- A new inode under a name that is free leaves a tree. -/
theorem WellFormed.inserted (hw : WellFormed h root) (hdir : h.dir d = some (cs, m))
    (hfree : m i.name = none) (hi : IsNew d i) : WellFormed (h.inserted d i) root := by
  have hlive : ∀ {q j}, h.cell q = some j → q ≠ h.fresh := fun hq => (hw.lt_fresh _ _ hq).ne
  have hchild : ∀ {e es f c}, h.dir e = some (es, f) → c ∈ es → c ≠ root ∧
      ∃ j, (h.inserted d i).cell c = some j ∧ j.parent = some e := by
    intro e es f c he hc
    obtain ⟨hcr, k, hk, hkp⟩ := hw.child _ _ _ he c hc
    obtain ⟨j, hj, -, hjp⟩ := (inserted_kept (d := d) (i := i) (hlive hk)).exists_cell hk
    exact ⟨hcr, j, hj, hjp.trans hkp⟩
  obtain ⟨id, hid, -⟩ := dir_eq_some.1 hdir
  obtain ⟨rs, rm, hrdir⟩ := hw.root_dir
  obtain ⟨r, hr, -⟩ := dir_eq_some.1 hrdir
  refine ⟨fun p j hp => ?_, ?_, fun p j hp hpr => ?_, fun e es f he c hc => ?_,
    fun e es f he => ?_, fun e es f he => hw.inserted_map hdir hfree hi he⟩
  · by_cases hf : p = h.fresh
    · rw [hf]
      exact Nat.lt_succ_self _
    · obtain ⟨k, hk, -⟩ := (inserted_kept hf).symm.exists_cell hp
      exact (hw.lt_fresh p k hk).trans (Nat.lt_succ_self _)
  · obtain ⟨_, _, hd', -⟩ := exists_inserted_dir (i := i) hdir (hlive hr) hrdir
    exact hw.rootDir_of_kept (inserted_kept (hlive hr)) hd'
  · by_cases hf : p = h.fresh
    · subst hf
      rw [inserted_cell_fresh] at hp
      obtain rfl := Option.some.inj hp
      exact ⟨hi.name, d, _, _, hi.parent, hw.lt_fresh d id hid,
        inserted_dir_self (hlive hid) hdir, by simp⟩
    · obtain ⟨k, hk, hn, hpar⟩ := (inserted_kept hf).symm.exists_cell hp
      obtain ⟨hs, e, es, f, hke, hlt, hde, hmem⟩ := hw.linked p k hk hpr
      obtain ⟨ie, hie, -⟩ := dir_eq_some.1 hde
      obtain ⟨es', f', he', hsub⟩ := exists_inserted_dir (i := i) hdir (hlive hie) hde
      exact ⟨hn ▸ hs, e, es', f', hpar ▸ hke, hlt, he', hsub hmem⟩
  · rcases inserted_dir_eq_some hdir he with ⟨-, hb⟩ | ⟨-, ⟨rfl, rfl, -⟩ | ⟨-, he⟩⟩
    · rw [(hi.body _ _ hb).1] at hc
      cases hc
    · rcases List.mem_append.1 hc with hc | hc
      · exact hchild hdir hc
      · rw [List.mem_singleton.1 hc]
        exact ⟨(hlive hr).symm, i, inserted_cell_fresh, hi.parent⟩
    · exact hchild he hc
  · rcases inserted_dir_eq_some hdir he with ⟨-, hb⟩ | ⟨-, ⟨rfl, rfl, -⟩ | ⟨-, he⟩⟩
    · rw [(hi.body _ _ hb).1]
      exact List.nodup_nil
    · refine List.nodup_append.2 ⟨hw.nodup _ _ _ hdir, List.nodup_singleton _, ?_⟩
      rintro a ha b hb rfl
      obtain ⟨-, k, hk, -⟩ := hw.child _ _ _ hdir a ha
      exact hlive hk (List.mem_singleton.1 hb)
    · exact hw.nodup _ _ _ he

theorem addChild_alloc (hdir : h.dir d = some (cs, m)) (hd : d ≠ h.fresh)
    (hi : i.parent = some d) : (h.alloc i).1.addChild d h.fresh = some (h.inserted d i) := by
  obtain ⟨k, hk, hb⟩ := dir_eq_some.1 hdir
  have hi' : { i with parent := some d } = i := by rw [← hi]
  have hd' : ((h.alloc i).1.write h.fresh i).cell d = h.cell d := by
    simp only [alloc, write, Function.update_of_ne hd]
  have hdir' : ((h.alloc i).1.write h.fresh i).dir d = some (cs, m) := (dir_congr hd').trans hdir
  have hc : (h.alloc i).1.cell h.fresh = some i := Function.update_self _ _ _
  simp only [addChild, hc, Option.bind_eq_bind, Option.bind_some, hi', hdir', Option.pure_def,
    Option.some.injEq, setDir, hd', hk]
  simp only [inserted, write, alloc, Heap.mk.injEq, and_true]
  funext p
  by_cases hf : p = h.fresh
  · rw [hf, Function.update_of_ne (Ne.symm hd), Function.update_self, if_pos rfl]
  · rw [if_neg hf]
    by_cases hpd : p = d
    · rw [hpd, Function.update_self, if_pos rfl, hk]
      simp only [Option.map_some, INode.mapBody, hb, INodeBody.insert]
    · rw [Function.update_of_ne hpd, Function.update_of_ne hf, Function.update_of_ne hf,
        if_neg hpd]

/-- What `INodeDirectory::CreateFile` makes. -/
def newFile (h : Heap) (env : Ptr → Alloc) (d : Ptr) (name : Str) : INode :=
  ⟨name, unknownOwner, (env h.fresh).now, some d, .file (env h.fresh).junk⟩

/-- What `INodeDirectory::CreateDir` makes. -/
def newDir (h : Heap) (env : Ptr → Alloc) (d : Ptr) (name : Str) : INode :=
  ⟨name, unknownOwner, (env h.fresh).now, some d, .dir [] fun _ => none⟩

theorem isNew_newFile (env : Ptr → Alloc) (hn : '/' ∉ name) : IsNew d (h.newFile env d name) :=
  ⟨rfl, hn, fun _ _ hb => by cases hb⟩

theorem isNew_newDir (env : Ptr → Alloc) (hn : '/' ∉ name) : IsNew d (h.newDir env d name) :=
  ⟨rfl, hn, fun _ _ hb => by cases hb; exact ⟨rfl, rfl⟩⟩

theorem createFile_eq (env : Ptr → Alloc) (hdir : h.dir d = some (cs, m)) (hd : d ≠ h.fresh) :
    h.createFile env d name = some (if (m name).isSome then (h, none)
      else (h.inserted d (h.newFile env d name), some h.fresh)) := by
  have ha := addChild_alloc (i := h.newFile env d name) hdir hd rfl
  simp only [createFile, getChild_eq hdir, Option.bind_eq_bind, Option.bind_some]
  split_ifs
  · rfl
  · exact congrArg (Option.bind · _) ha

theorem createDir_eq (env : Ptr → Alloc) (hdir : h.dir d = some (cs, m)) (hd : d ≠ h.fresh) :
    h.createDir env d name = some (if (m name).isSome then (h, none)
      else (h.inserted d (h.newDir env d name), some h.fresh)) := by
  have ha := addChild_alloc (i := h.newDir env d name) hdir hd rfl
  simp only [createDir, getChild_eq hdir, Option.bind_eq_bind, Option.bind_some]
  split_ifs
  · rfl
  · exact congrArg (Option.bind · _) ha

end Insert

section Prune

open Classical in
/-- The heap without the subtree of the child `it` of `d`, which has the name `name`. -/
noncomputable def pruned (h : Heap) (d it : Ptr) (name : Str) : Heap where
  cell p := if p = d then (h.cell d).map (INode.mapBody (.erase it name))
    else if h.Below it p then none else h.cell p
  fresh := h.fresh

theorem pruned_cell_self :
    (h.pruned d it name).cell d = (h.cell d).map (INode.mapBody (.erase it name)) := if_pos rfl

theorem pruned_cell_below (hp : p ≠ d) (hb : h.Below it p) : (h.pruned d it name).cell p = none :=
  (if_neg hp).trans (if_pos hb)

theorem pruned_cell_of_ne (hp : p ≠ d) (hb : ¬ h.Below it p) :
    (h.pruned d it name).cell p = h.cell p :=
  (if_neg hp).trans (if_neg hb)

theorem pruned_dir_self (hdir : h.dir d = some (cs, m)) :
    (h.pruned d it name).dir d = some (cs.erase it, Function.update m name none) := by
  obtain ⟨k, hk, hb⟩ := dir_eq_some.1 hdir
  refine dir_eq_some.2 ⟨k.mapBody (.erase it name), by rw [pruned_cell_self, hk]; rfl, ?_⟩
  simp only [INode.mapBody, hb, INodeBody.erase]

theorem pruned_kept (hb : ¬ h.Below it p) : Kept h (h.pruned d it name) p := by
  by_cases hp : p = d
  · subst hp
    exact .of_mapBody pruned_cell_self
  · exact .of_eq (pruned_cell_of_ne hp hb)

theorem exists_pruned_dir {e : Ptr} (hb : ¬ h.Below it e) {es : List Ptr} {f : Str → Option Ptr}
    (he : h.dir e = some (es, f)) : ∃ es' f', (h.pruned d it name).dir e = some (es', f') := by
  by_cases hed : e = d
  · subst hed
    exact ⟨_, _, pruned_dir_self he⟩
  · exact ⟨es, f, (dir_congr (pruned_cell_of_ne hed hb)).trans he⟩

variable (hd : ¬ h.Below it d)
include hd

theorem not_below_of_pruned {j : INode} (hj : (h.pruned d it name).cell p = some j) :
    ¬ h.Below it p := by
  intro hb
  have hp : p ≠ d := fun h0 => hd (h0 ▸ hb)
  rw [pruned_cell_below hp hb] at hj
  cases hj

theorem pruned_dir_eq_some (hdir : h.dir d = some (cs, m)) {e : Ptr} {es : List Ptr}
    {f : Str → Option Ptr} (he : (h.pruned d it name).dir e = some (es, f)) :
    ¬ h.Below it e ∧ (e = d ∧ es = cs.erase it ∧ f = Function.update m name none ∨
      e ≠ d ∧ h.dir e = some (es, f)) := by
  by_cases hed : e = d
  · subst hed
    rw [pruned_dir_self hdir] at he
    obtain ⟨rfl, rfl⟩ := Prod.mk.inj (Option.some.inj he)
    exact ⟨hd, .inl ⟨rfl, rfl, rfl⟩⟩
  · by_cases hb : h.Below it e
    · obtain ⟨j, hj, -⟩ := dir_eq_some.1 he
      rw [pruned_cell_below hed hb] at hj
      cases hj
    · rw [dir_congr (pruned_cell_of_ne hed hb)] at he
      exact ⟨hb, .inr ⟨hed, he⟩⟩

theorem pruned_cut : Forest.Cut h.parentOf (h.pruned d it name).parentOf it := by
  constructor
  · intro p hb
    have hp : p ≠ d := fun h0 => hd (h0 ▸ hb)
    rw [parentOf, pruned_cell_below hp hb]
    rfl
  · intro p hb
    by_cases hp : p = d
    · subst hp
      simp only [parentOf, pruned_cell_self]
      cases h.cell p with
      | none => rfl
      | some i => rfl
    · exact parentOf_congr (pruned_cell_of_ne hp hb)

end Prune

theorem WellFormed.mem_pruned_dir (hw : WellFormed h root) (hdir : h.dir d = some (cs, m))
    (hit : it ∈ cs) {e : Ptr} {es es' : List Ptr} {f f' : Str → Option Ptr}
    (he : h.dir e = some (es, f)) (he' : (h.pruned d it name).dir e = some (es', f')) :
    c ∈ es' ↔ c ∈ es ∧ ¬ h.Below it c := by
  have hd := hw.not_below_child hdir hit
  obtain ⟨heb, ⟨rfl, rfl, -⟩ | ⟨hed, hde⟩⟩ := pruned_dir_eq_some hd hdir he'
  · obtain ⟨rfl, rfl⟩ := Prod.mk.inj (Option.some.inj (hdir.symm.trans he))
    rw [(hw.nodup _ _ _ hdir).mem_erase_iff, and_comm]
    refine and_congr_right fun hc => ?_
    rw [hw.below_child hdir hc, or_iff_left hd]
  · obtain ⟨rfl, rfl⟩ := Prod.mk.inj (Option.some.inj (hde.symm.trans he))
    refine (and_iff_left_of_imp fun hc hb => ?_).symm
    rcases (hw.below_child hde hc).1 hb with rfl | hb
    · have hpd := hw.parentOf_child hdir hit
      rw [hw.parentOf_child hde hc] at hpd
      exact hed (Option.some.inj hpd)
    · exact heb hb

/-- The map of each directory that is left has just the children that are. -/
theorem WellFormed.pruned_map (hw : WellFormed h root) (hdir : h.dir d = some (cs, m))
    (hm : m name = some it) {e : Ptr} {es : List Ptr} {f : Str → Option Ptr}
    (he : (h.pruned d it name).dir e = some (es, f)) (x : Str) (c : Ptr) : f x = some c ↔
      c ∈ es ∧ ∃ j, (h.pruned d it name).cell c = some j ∧ j.name = x := by
  obtain ⟨hit, ki, hki, hname⟩ := (hw.map _ _ _ hdir name it).1 hm
  have hd := hw.not_below_child hdir hit
  have hkept : c ∈ es → Kept h (h.pruned d it name) c := by
    intro hc
    obtain ⟨-, ⟨rfl, -, -⟩ | ⟨-, hde⟩⟩ := pruned_dir_eq_some hd hdir he
    · exact pruned_kept ((hw.mem_pruned_dir hdir hit hdir he).1 hc).2
    · exact pruned_kept ((hw.mem_pruned_dir hdir hit hde he).1 hc).2
  rw [and_congr_right fun hc => (hkept hc).name_iff]
  obtain ⟨-, ⟨rfl, rfl, rfl⟩ | ⟨-, he⟩⟩ := pruned_dir_eq_some hd hdir he
  · rw [(hw.nodup _ _ _ hdir).mem_erase_iff, and_assoc, ← hw.map _ _ _ hdir x c,
      Function.update_apply]
    split_ifs with hx
    · rw [hx, hm]
      simp [eq_comm]
    · refine (and_iff_right_of_imp fun hc h0 => ?_).symm
      obtain ⟨-, k, hk, hkn⟩ := (hw.map _ _ _ hdir x c).1 hc
      rw [h0] at hk
      obtain rfl := Option.some.inj (hk.symm.trans hki)
      exact hx (hkn.symm.trans hname)
  · exact hw.map _ _ _ he x c

/-- A directory without one of its children, and all that is below it, leaves a tree. -/
theorem WellFormed.pruned (hw : WellFormed h root) (hdir : h.dir d = some (cs, m))
    (hm : m name = some it) : WellFormed (h.pruned d it name) root := by
  obtain ⟨hit, -⟩ := (hw.map _ _ _ hdir name it).1 hm
  have hd : ¬ h.Below it d := hw.not_below_child hdir hit
  have hrb : ¬ h.Below it root := hw.not_below_root (hw.child _ _ _ hdir it hit).1
  obtain ⟨rs, rm, hrdir⟩ := hw.root_dir
  have hchild : ∀ {e es f c}, h.dir e = some (es, f) → c ∈ es → ¬ h.Below it c → c ≠ root ∧
      ∃ j, (h.pruned d it name).cell c = some j ∧ j.parent = some e := by
    intro e es f c he hc hb
    obtain ⟨hcr, k, hk, hkp⟩ := hw.child _ _ _ he c hc
    have hkept : Kept h (h.pruned d it name) c := pruned_kept hb
    obtain ⟨j, hj, -, hjp⟩ := hkept.exists_cell hk
    exact ⟨hcr, j, hj, hjp.trans hkp⟩
  refine ⟨fun p j hp => ?_, ?_, fun p j hp hpr => ?_, fun e es f he c hc => ?_,
    fun e es f he => ?_, fun e es f he => hw.pruned_map hdir hm he⟩
  · obtain ⟨k, hk, -⟩ := (pruned_kept (not_below_of_pruned hd hp)).symm.exists_cell hp
    exact hw.lt_fresh p k hk
  · obtain ⟨_, _, hd'⟩ : ∃ es f, (h.pruned d it name).dir root = some (es, f) :=
      exists_pruned_dir hrb hrdir
    exact hw.rootDir_of_kept (pruned_kept hrb) hd'
  · have hpb := not_below_of_pruned hd hp
    obtain ⟨k, hk, hn, hpar⟩ := (pruned_kept hpb).symm.exists_cell hp
    obtain ⟨hs, e, es, f, hke, hlt, hde, hmem⟩ := hw.linked p k hk hpr
    have heb : ¬ h.Below it e := fun hb => hpb ((hw.below_child hde hmem).2 (.inr hb))
    obtain ⟨es', f', he'⟩ : ∃ es' f', (h.pruned d it name).dir e = some (es', f') :=
      exists_pruned_dir heb hde
    exact ⟨hn ▸ hs, e, es', f', hpar ▸ hke, hlt, he',
      (hw.mem_pruned_dir hdir hit hde he').2 ⟨hmem, hpb⟩⟩
  · obtain ⟨-, ⟨rfl, -, -⟩ | ⟨-, hde⟩⟩ := pruned_dir_eq_some hd hdir he
    · obtain ⟨hc₀, hcb⟩ := (hw.mem_pruned_dir hdir hit hdir he).1 hc
      exact hchild hdir hc₀ hcb
    · obtain ⟨hc₀, hcb⟩ := (hw.mem_pruned_dir hdir hit hde he).1 hc
      exact hchild hde hc₀ hcb
  · obtain ⟨-, ⟨rfl, rfl, -⟩ | ⟨-, he⟩⟩ := pruned_dir_eq_some hd hdir he
    · exact (hw.nodup _ _ _ hdir).erase it
    · exact hw.nodup _ _ _ he

section Delete

open Classical in
/-- The heap without what is strictly below the directory `x`. -/
noncomputable def emptied (h : Heap) (x : Ptr) : Heap where
  cell p := if p = x then (h.cell x).map (INode.mapBody .clear)
    else if h.Below x p then none else h.cell p
  fresh := h.fresh

variable {x : Ptr}

theorem emptied_cell_self : (h.emptied x).cell x = (h.cell x).map (INode.mapBody .clear) :=
  if_pos rfl

theorem emptied_cell_below (hp : p ≠ x) (hb : h.Below x p) : (h.emptied x).cell p = none :=
  (if_neg hp).trans (if_pos hb)

theorem emptied_cell_of_not (hb : ¬ h.Below x p) : (h.emptied x).cell p = h.cell p := by
  have hp : p ≠ x := fun h0 => hb (h0 ▸ .refl)
  exact (if_neg hp).trans (if_neg hb)

theorem eq_of_cell (hf : h'.fresh = h.fresh) (hc : ∀ p, h'.cell p = h.cell p) : h' = h := by
  cases h
  cases h'
  simp only [Heap.mk.injEq]
  exact ⟨funext hc, hf⟩

theorem WellFormed.emptied_nil (hw : WellFormed h root) (hdir : h.dir x = some ([], m)) :
    h.emptied x = h := by
  refine eq_of_cell rfl fun p => ?_
  by_cases hp : p = x
  · subst hp
    obtain ⟨k, hk, hb⟩ := dir_eq_some.1 hdir
    have hm : m = fun _ => none := by
      funext name
      refine Option.eq_none_iff_forall_not_mem.2 fun c hc => ?_
      exact absurd ((hw.map _ _ _ hdir name c).1 hc).1 List.not_mem_nil
    rw [emptied_cell_self, hk, Option.map_some, INode.mapBody, hb, hm, INodeBody.clear, ← hm, ← hb]
  · refine emptied_cell_of_not fun hb => ?_
    obtain ⟨cs, f, hd, c, hc, -⟩ := hw.below_cases hb hp
    obtain ⟨rfl, -⟩ := Prod.mk.inj (Option.some.inj (hdir.symm.trans hd))
    cases hc

/-- A directory can be emptied one child at a time. -/
theorem WellFormed.emptied_pruned (hw : WellFormed h root) (hdir : h.dir d = some (cs, m))
    (hm : m name = some it) : (h.pruned d it name).emptied d = h.emptied d := by
  obtain ⟨hit, -⟩ := (hw.map _ _ _ hdir name it).1 hm
  have hd := hw.not_below_child hdir hit
  have hdit : h.Below d it := .of_parent (hw.parentOf_child hdir hit)
  have hbelow : ∀ {p}, (h.pruned d it name).Below d p ↔ h.Below d p ∧ ¬ h.Below it p :=
    (pruned_cut hd).below_iff hd
  refine eq_of_cell rfl fun p => ?_
  by_cases hp : p = d
  · subst hp
    rw [emptied_cell_self, emptied_cell_self, pruned_cell_self]
    rcases hk : h.cell p with _ | k
    · rfl
    · obtain ⟨k', hk', hb⟩ := dir_eq_some.1 hdir
      obtain rfl := Option.some.inj (hk.symm.trans hk')
      simp only [Option.map_some, INode.mapBody, hb, INodeBody.erase, INodeBody.clear]
  · by_cases hit' : h.Below it p
    · rw [emptied_cell_of_not fun h0 => (hbelow.1 h0).2 hit', pruned_cell_below hp hit',
        emptied_cell_below hp (hdit.trans hit')]
    · by_cases hdp : h.Below d p
      · rw [emptied_cell_below hp (hbelow.2 ⟨hdp, hit'⟩), emptied_cell_below hp hdp]
      · rw [emptied_cell_of_not fun h0 => hdp (hbelow.1 h0).1, emptied_cell_of_not hdp,
          pruned_cell_of_ne hp hit']

/-- Once nothing is strictly below the child, taking it out of its directory is all that is left to
do. -/
theorem free_eq_pruned (hdir : h.dir d = some (cs, m)) (hd : ¬ h.Below it d)
    (hf : h'.fresh = h.fresh) (hsame : ∀ p, ¬ h.Below it p → h'.cell p = h.cell p)
    (hgone : ∀ p, h.Below it p → p ≠ it → h'.cell p = none) :
    (h'.setDir d (cs.erase it) (Function.update m name none)).free it = h.pruned d it name := by
  obtain ⟨k, hk, hb⟩ := dir_eq_some.1 hdir
  have hk' : h'.cell d = some k := (hsame d hd).trans hk
  refine eq_of_cell (by rw [setDir, hk']; exact hf) fun p => ?_
  simp only [setDir, hk', free, write]
  by_cases hp : p = it
  · subst hp
    have hpd : p ≠ d := fun h0 => hd (h0 ▸ .refl)
    rw [Function.update_self, pruned_cell_below hpd .refl]
  · rw [Function.update_of_ne hp]
    by_cases hpd : p = d
    · subst hpd
      rw [Function.update_self, pruned_cell_self, hk]
      simp only [Option.map_some, INode.mapBody, hb, INodeBody.erase]
    · rw [Function.update_of_ne hpd]
      by_cases hb' : h.Below it p
      · rw [hgone p hb' hp, pruned_cell_below hpd hb']
      · rw [hsame p hb', pruned_cell_of_ne hpd hb']

variable {recursive : Bool} {fuel : ℕ}

/-- `DeleteChild` where the child has no children, or `DeleteAllChild` deletes them. -/
theorem WellFormed.deleteChild_of (hw : WellFormed h root) (hdir : h.dir d = some (cs, m))
    (hm : m name = some it) (hall : ∀ es f, h.dir it = some (es, f) → es ≠ [] →
      recursive = true ∧ h.deleteAllChild it fuel = some (h.emptied it, true)) :
    h.deleteChild d name recursive (fuel + 1) = some (h.pruned d it name, true) := by
  obtain ⟨hit, i, hi, -⟩ := (hw.map _ _ _ hdir name it).1 hm
  have hd := hw.not_below_child hdir hit
  have hrest : ∀ h' : Heap, h'.fresh = h.fresh → (∀ p, ¬ h.Below it p → h'.cell p = h.cell p) →
      (∀ p, h.Below it p → p ≠ it → h'.cell p = none) → h'.dir d = some (cs, m) ∧
        (h'.setDir d (cs.erase it) (Function.update m name none)).free it = h.pruned d it name :=
    fun h' hf hsame hgone =>
      ⟨(dir_congr (hsame d hd)).trans hdir, free_eq_pruned hdir hd hf hsame hgone⟩
  rw [deleteChild]
  simp only [Option.bind_eq_bind, hdir, Option.bind_some, hw.find_child hdir hm, hi]
  rcases hdit : h.dir it with _ | ⟨es, f⟩
  · have hfile : i.isDir = false := by
      rcases hb : i.body with size | ⟨es, f⟩
      · simp only [INode.isDir, hb]
      · rw [dir_eq_some.2 ⟨i, hi, hb⟩] at hdit
        cases hdit
    obtain ⟨-, hfree⟩ := hrest h rfl (fun _ _ => rfl) fun p hb hp => by
      obtain ⟨_, _, hd', -⟩ := hw.below_cases hb hp
      rw [hdit] at hd'
      cases hd'
    simp [hfile, hdir, hfree]
  · have hdirit : i.isDir = true := by
      obtain ⟨j, hj, hb⟩ := dir_eq_some.1 hdit
      obtain rfl := Option.some.inj (hi.symm.trans hj)
      simp only [INode.isDir, hb]
    by_cases hes : es = []
    · subst hes
      obtain ⟨-, hfree⟩ := hrest h rfl (fun _ _ => rfl) fun p hb hp => by
        obtain ⟨_, _, hd', c, hc, -⟩ := hw.below_cases hb hp
        obtain ⟨rfl, -⟩ := Prod.mk.inj (Option.some.inj (hdit.symm.trans hd'))
        cases hc
      simp [hdirit, isEmpty, hdit, hdir, hfree]
    · obtain ⟨rfl, hdel⟩ := hall es f hdit hes
      obtain ⟨hdir', hfree⟩ := hrest (h.emptied it) rfl (fun p => emptied_cell_of_not)
        fun p hb hp => emptied_cell_below hp hb
      simp [hdirit, isEmpty, hdit, hes, hdel, hdir', hfree]

theorem WellFormed.deleteChild_refused (hw : WellFormed h root) (hdir : h.dir d = some (cs, m))
    (hm : m name = some it) {es : List Ptr} {f : Str → Option Ptr} (hdit : h.dir it = some (es, f))
    (hes : es ≠ []) : h.deleteChild d name false (fuel + 1) = some (h, false) := by
  obtain ⟨i, hi, hb⟩ := dir_eq_some.1 hdit
  have hdirit : i.isDir = true := by simp only [INode.isDir, hb]
  rw [deleteChild]
  simp only [Option.bind_eq_bind, hdir, Option.bind_some, hw.find_child hdir hm, hi]
  simp [hdirit, isEmpty, hdit, hes]

/-- The inodes that lie after `x`. -/
def above (h : Heap) (x : Ptr) : Finset Ptr :=
  (Finset.range h.fresh).filter fun p => x < p ∧ (h.cell p).isSome = true

theorem mem_above (hw : WellFormed h root) : p ∈ h.above x ↔ x < p ∧ ∃ i, h.cell p = some i := by
  simp only [above, Finset.mem_filter, Finset.mem_range, Option.isSome_iff_exists]
  refine and_iff_right_of_imp ?_
  rintro ⟨-, i, hi⟩
  exact hw.lt_fresh p i hi

theorem card_above_le : (h.above x).card ≤ h.fresh := by
  refine (Finset.card_filter_le _ _).trans ?_
  rw [Finset.card_range]

theorem WellFormed.above_child_lt (hw : WellFormed h root) (hdir : h.dir d = some (cs, m))
    (hc : c ∈ cs) : (h.above c).card < (h.above d).card := by
  have hlt := hw.child_lt hdir hc
  obtain ⟨-, i, hi, -⟩ := hw.child _ _ _ hdir c hc
  have hsub : h.above c ⊆ h.above d := by
    intro p hp
    obtain ⟨hcp, hlive⟩ := (mem_above hw).1 hp
    exact (mem_above hw).2 ⟨hlt.trans hcp, hlive⟩
  refine Finset.card_lt_card ((Finset.ssubset_iff_of_subset hsub).2 ⟨c, ?_, fun h0 => ?_⟩)
  · exact (mem_above hw).2 ⟨hlt, i, hi⟩
  · exact lt_irrefl c ((mem_above hw).1 h0).1

theorem WellFormed.above_pruned_lt (hw : WellFormed h root) (hdir : h.dir d = some (cs, m))
    (hm : m name = some it) : ((h.pruned d it name).above d).card < (h.above d).card := by
  have hw' := hw.pruned hdir hm
  obtain ⟨hit, i, hi, -⟩ := (hw.map _ _ _ hdir name it).1 hm
  have hd := hw.not_below_child hdir hit
  have hsub : (h.pruned d it name).above d ⊆ h.above d := by
    intro p hp
    obtain ⟨hlt, j, hj⟩ := (mem_above hw').1 hp
    obtain ⟨k, hk, -⟩ := (pruned_kept (not_below_of_pruned hd hj)).symm.exists_cell hj
    exact (mem_above hw).2 ⟨hlt, k, hk⟩
  refine Finset.card_lt_card ((Finset.ssubset_iff_of_subset hsub).2 ⟨it, ?_, fun h0 => ?_⟩)
  · exact (mem_above hw).2 ⟨hw.child_lt hdir hit, i, hi⟩
  · obtain ⟨-, j, hj⟩ := (mem_above hw').1 h0
    exact not_below_of_pruned hd hj .refl

/-- `DeleteAllChild` comes to an end and empties the directory. -/
theorem deleteAllChild_eq : ∀ (k : ℕ) {h : Heap} {x : Ptr} {cs : List Ptr} {m : Str → Option Ptr}
    {fuel : ℕ}, WellFormed h root → h.dir x = some (cs, m) → (h.above x).card ≤ k →
      2 * k + 1 ≤ fuel → h.deleteAllChild x fuel = some (h.emptied x, true) := by
  intro k
  induction k with
  | zero =>
    intro h x cs m fuel hw hdir hk hfuel
    obtain ⟨fuel, rfl⟩ := Nat.exists_eq_add_of_le' (show 1 ≤ fuel by omega)
    cases cs with
    | nil =>
      rw [deleteAllChild, hw.emptied_nil hdir]
      simp [hdir]
    | cons c cs =>
      have := hw.above_child_lt hdir List.mem_cons_self
      omega
  | succ k ih =>
    intro h x cs m fuel hw hdir hk hfuel
    obtain ⟨fuel, rfl⟩ := Nat.exists_eq_add_of_le' (show 2 ≤ fuel by omega)
    cases cs with
    | nil =>
      rw [deleteAllChild, hw.emptied_nil hdir]
      simp [hdir]
    | cons c cs =>
      obtain ⟨-, i, hi, -⟩ := hw.child _ _ _ hdir c List.mem_cons_self
      have hm : m i.name = some c := (hw.map _ _ _ hdir _ c).2 ⟨List.mem_cons_self, i, hi, rfl⟩
      have hlt := hw.above_child_lt hdir (c := c) List.mem_cons_self
      have hlt' := hw.above_pruned_lt hdir hm
      have hchild : h.deleteChild x i.name true (fuel + 1) = some (h.pruned x c i.name, true) :=
        hw.deleteChild_of hdir hm fun es f hdc _ =>
          ⟨rfl, ih hw hdc (by omega) (by omega)⟩
      have hrest : (h.pruned x c i.name).deleteAllChild x (fuel + 1) =
          some ((h.pruned x c i.name).emptied x, true) :=
        ih (hw.pruned hdir hm) (pruned_dir_self hdir) (by omega) (by omega)
      rw [hw.emptied_pruned hdir hm] at hrest
      rw [deleteAllChild]
      simp only [Option.bind_eq_bind, hdir, Option.bind_some, hi, hchild, if_true, hrest]

/-- `DeleteChild` comes to an end. It deletes the child's subtree, unless the child has children and
the deletion is not recursive. -/
theorem WellFormed.deleteChild_eq (hw : WellFormed h root) (hdir : h.dir d = some (cs, m))
    (hm : m name = some it) {k : ℕ} (hk : h.fresh ≤ k) (hfuel : 2 * k + 2 ≤ fuel)
    (hrec : ∀ es f, h.dir it = some (es, f) → es ≠ [] → recursive = true) :
    h.deleteChild d name recursive fuel = some (h.pruned d it name, true) := by
  obtain ⟨fuel, rfl⟩ := Nat.exists_eq_add_of_le' (show 1 ≤ fuel by omega)
  refine hw.deleteChild_of hdir hm fun es f hdit hes => ⟨hrec es f hdit hes, ?_⟩
  exact deleteAllChild_eq k hw hdit (card_above_le.trans hk) (by omega)

end Delete

end Heap

end RaftFS
