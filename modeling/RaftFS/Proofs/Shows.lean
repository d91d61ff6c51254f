import RaftFS.FSTree
import RaftFS.Proofs.Effects
import RaftFS.Proofs.Kinds
import Mathlib.Data.List.Sort

/-!
# The tree that a heap shows

A heap shows a tree where the tree has the heap's inodes for its nodes, each by the way to it, in
the order in which they were allocated (`Heap.Shows`). A directory keeps its children in that order,
so that it lists the names that the tree has (`Shows.listDirName_eq`). A new child is a node made, a
deletion is a subtree cut, and a heap shows one tree.
-/

namespace RaftFS

open PathTree (Kind)

/-- What an inode is in a tree: a file keeps the time it was made and the size that memory held. -/
def INode.kind (i : INode) : Kind Alloc :=
  match i.body with
  | .file size => .file ⟨i.createTime, size⟩
  | .dir _ _ => .dir

namespace INode

theorem kind_eq_dir {i : INode} : i.kind = .dir ↔ i.isDir = true := by
  unfold kind isDir
  cases i.body <;> simp

theorem exists_kind_file {i : INode} : (∃ data, i.kind = .file data) ↔ i.isFile = true := by
  unfold kind isFile isDir
  cases i.body <;> simp

theorem kind_mapBody_insert (i : INode) (c : Ptr) (name : Str) :
    (i.mapBody (.insert c name)).kind = i.kind := by
  rcases i with ⟨_, _, _, _, _ | _⟩ <;> rfl

theorem kind_mapBody_erase (i : INode) (c : Ptr) (name : Str) :
    (i.mapBody (.erase c name)).kind = i.kind := by
  rcases i with ⟨_, _, _, _, _ | _⟩ <;> rfl

end INode

namespace Heap

variable {h : Heap} {root p d it c : Ptr} {i : INode} {name : Str} {parts parts' : List Str}
  {cs : List Ptr} {m : Str → Option Ptr} {t t' : FSTree Alloc} {k : Kind Alloc}

/-- The inode at `p` is the node. -/
def IsNode (h : Heap) (root p : Ptr) (node : List Str × Kind Alloc) : Prop :=
  h.Way root node.1 p ∧ ∃ i, h.cell p = some i ∧ i.kind = node.2

/-- The tree has the heap's inodes in the order in which they lie there, and so has each directory
its children. -/
structure Shows (h : Heap) (root : Ptr) (t : FSTree Alloc) : Prop where
  ordered : ∀ d cs m, h.dir d = some (cs, m) → cs.Pairwise (· < ·)
  nodes : ∃ (ps : List Ptr) (node : Ptr → List Str × Kind Alloc), ps.Pairwise (· < ·) ∧
    (∀ p, p ∈ ps ↔ ∃ i, h.cell p = some i) ∧ (∀ p ∈ ps, h.IsNode root p (node p)) ∧
    t.nodes = ps.map node

theorem WellFormed.way_names_unique (hw : WellFormed h root) (hp : h.Way root parts p)
    (hp' : h.Way root parts' p) : parts = parts' := by
  induction parts using List.reverseRecOn generalizing p parts' with
  | nil =>
    obtain rfl := Forest.Way.nil_iff.1 hp
    rcases parts'.eq_nil_or_concat' with rfl | ⟨parts', name, rfl⟩
    · rfl
    · obtain ⟨d, -, hc⟩ := Forest.Way.concat_iff.1 hp'
      exact absurd rfl (hw.child_ne_root hc)
  | append_singleton parts name ih =>
    obtain ⟨d, hd, hc⟩ := Forest.Way.concat_iff.1 hp
    rcases parts'.eq_nil_or_concat' with rfl | ⟨parts', name', rfl⟩
    · exact absurd (Forest.Way.nil_iff.1 hp') (hw.child_ne_root hc)
    · obtain ⟨d', hd', hc'⟩ := Forest.Way.concat_iff.1 hp'
      obtain ⟨rfl, rfl⟩ := hw.child_inj hc hc'
      rw [ih hd hd']

theorem WellFormed.isNode_unique (hw : WellFormed h root) {n n' : List Str × Kind Alloc}
    (hn : h.IsNode root p n) (hn' : h.IsNode root p n') : n = n' := by
  obtain ⟨hway, i, hi, hk⟩ := hn
  obtain ⟨hway', j, hj, hk'⟩ := hn'
  obtain rfl := Option.some.inj (hi.symm.trans hj)
  exact Prod.ext (hw.way_names_unique hway hway') (hk.symm.trans hk')

theorem WellFormed.below_iff_prefix (hw : WellFormed h root) (hit : h.Way root parts it)
    (hp : h.Way root parts' p) : h.Below it p ↔ parts <+: parts' := by
  constructor
  · intro hb
    obtain ⟨names, hn⟩ : ∃ names, h.Way it names p :=
      Forest.Way.exists_of_below (fun _ _ hp => hw.child_of_parentOf hp) hb
    rw [hw.way_names_unique hp (Forest.Way.append_iff.2 ⟨it, hit, hn⟩)]
    exact List.prefix_append _ _
  · rintro ⟨names, rfl⟩
    obtain ⟨it', hit', hn⟩ := Forest.Way.append_iff.1 hp
    obtain rfl := hw.way_unique hit' hit
    exact hn.to_below fun _ _ _ hc => hw.parentOf_of_child hc

namespace Shows

section Reads

variable (hw : WellFormed h root) (hs : h.Shows root t)
include hw hs

/-- The nodes of the tree are what the ways lead to. -/
theorem find_eq_some_iff : t.find parts = some k ↔
    ∃ p i, h.Way root parts p ∧ h.cell p = some i ∧ i.kind = k := by
  obtain ⟨ps, node, -, hmem, hnode, hnodes⟩ := hs.nodes
  rw [PathTree.find_eq_some_iff, hnodes, List.mem_map]
  constructor
  · rintro ⟨p, hp, he⟩
    obtain ⟨hway, i, hi, hk⟩ := hnode p hp
    rw [he] at hway hk
    exact ⟨p, i, hway, hi, hk⟩
  · rintro ⟨p, i, hway, hi, hk⟩
    have hp := (hmem p).2 ⟨i, hi⟩
    exact ⟨p, hp, hw.isNode_unique (hnode p hp) ⟨hway, i, hi, hk⟩⟩

theorem find_way (hp : h.Way root parts p) (hi : h.cell p = some i) :
    t.find parts = some i.kind :=
  (hs.find_eq_some_iff hw).2 ⟨p, i, hp, hi, rfl⟩

theorem find_dir_iff : t.find parts = some .dir ↔ ∃ d, h.Way root parts d ∧ h.IsDir d := by
  rw [hs.find_eq_some_iff hw]
  simp only [INode.kind_eq_dir, isDir_iff, exists_and_left]

theorem find_ne_none_iff : t.find parts ≠ none ↔ ∃ p, h.Way root parts p := by
  rw [Option.ne_none_iff_exists']
  constructor
  · rintro ⟨k, hk⟩
    obtain ⟨p, i, hp, -⟩ := (hs.find_eq_some_iff hw).1 hk
    exact ⟨p, hp⟩
  · rintro ⟨p, hp⟩
    obtain ⟨i, hi⟩ := hw.way_cell hp
    exact ⟨_, hs.find_way hw hp hi⟩

/-- A heap shows one tree. -/
theorem unique (hs' : h.Shows root t') : t = t' := by
  obtain ⟨ps, node, hps, hmem, hnode, hnodes⟩ := hs.nodes
  obtain ⟨ps', node', hps', hmem', hnode', hnodes'⟩ := hs'.nodes
  have hsame : ps = ps' := hps.eq_of_mem_iff hps' fun p => (hmem p).trans (hmem' p).symm
  subst hsame
  refine PathTree.ext_nodes ?_
  rw [hnodes, hnodes']
  exact List.map_congr_left fun p hp => hw.isNode_unique (hnode p hp) (hnode' p hp)

/-- A directory lists the names in it. -/
theorem listDirName_eq (hd : h.Way root parts d) (hdir : h.IsDir d) :
    h.listDirName d = some (t.names parts) := by
  obtain ⟨cs, m, hcs⟩ := hdir
  obtain ⟨l, hl, hmap⟩ := hw.listDirName_eq hcs
  obtain ⟨ps, node, hps, hmem, hnode, hnodes⟩ := hs.nodes
  have hchild : ∀ c, c ∈ cs ↔ ∃ name, h.Child d name c := by
    refine fun c => ⟨fun hc => ?_, ?_⟩
    · obtain ⟨-, i, hi, -⟩ := hw.child d cs m hcs c hc
      exact ⟨i.name, cs, m, hcs, hc, i, hi, rfl⟩
    · rintro ⟨name, hc⟩
      exact ((hw.map d cs m hcs name c).1 ((hw.child_iff hcs).1 hc)).1
  have hfilter : ps.filter (· ∈ cs) = cs := by
    refine (hps.sublist List.filter_sublist).eq_of_mem_iff (hs.ordered d cs m hcs) fun c => ?_
    simp only [List.mem_filter, decide_eq_true_eq, hmem]
    refine and_iff_right_of_imp fun hc => ?_
    obtain ⟨-, i, hi, -⟩ := hw.child d cs m hcs c hc
    exact ⟨i, hi⟩
  have hname : ∀ p ∈ ps, PathTree.childOf parts (node p).1 =
      if p ∈ cs then (h.cell p).map INode.name else none := by
    intro p hp
    obtain ⟨hway, i, hi, -⟩ := hnode p hp
    split_ifs with hc
    · obtain ⟨name, hc⟩ := (hchild p).1 hc
      have hn := hw.way_names_unique hway (Forest.Way.concat_iff.2 ⟨d, hd, hc⟩)
      rw [PathTree.childOf_eq_some_iff.2 hn, hi, Option.map_some, (hw.child_parent hc hi).1]
    · refine Option.eq_none_iff_forall_ne_some.2 fun a ha => hc ?_
      rw [PathTree.childOf_eq_some_iff.1 ha] at hway
      obtain ⟨d', hd', hc'⟩ := Forest.Way.concat_iff.1 hway
      exact (hchild p).2 ⟨a, hw.way_unique hd' hd ▸ hc'⟩
  have hsome : ps.filter ((fun b => b.isSome) ∘ PathTree.childOf parts ∘ Prod.fst ∘ node) = cs := by
    rw [← hfilter]
    refine List.filter_congr fun p hp => ?_
    obtain ⟨i, hi⟩ := (hmem p).1 hp
    simp only [Function.comp_apply, hname p hp, hi]
    split_ifs with hc <;> simp [hc]
  refine hl.trans (congrArg some (List.map_injective_iff.2 (Option.some_injective Str) ?_))
  rw [← hmap, PathTree.names, hnodes, List.map_map, List.filterMap_map,
    List.map_filterMap_some_eq_filter_map_isSome, List.filter_map, hsome]
  refine List.map_congr_left fun p hc => ?_
  have hp : p ∈ ps := by
    rw [← hfilter] at hc
    exact List.mem_of_mem_filter hc
  exact ((hname p hp).trans (if_pos hc)).symm

theorem canMake (hd : h.Way root parts d) (hdir : h.dir d = some (cs, m)) (hfree : m name = none) :
    t.CanMake parts name := by
  refine ⟨PathTree.isDir_iff.2 ((hs.find_dir_iff hw).2 ⟨d, hd, cs, m, hdir⟩), ?_⟩
  by_contra h0
  obtain ⟨p, hp⟩ := (hs.find_ne_none_iff hw).1 h0
  obtain ⟨d', hd', hc⟩ := Forest.Way.concat_iff.1 hp
  obtain rfl := hw.way_unique hd' hd
  cases ((hw.child_iff hdir).1 hc).symm.trans hfree

end Reads

/-- A new child is a node made. -/
theorem inserted (hw : WellFormed h root) (hs : h.Shows root t) (hd : h.Way root parts d)
    (hdir : h.dir d = some (cs, m)) (hfree : m i.name = none) (hi : IsNew d i) :
    (h.inserted d i).Shows root (t.make parts i.name i.kind) := by
  have hchild : ∀ e n c, (h.inserted d i).Child e n c ↔
      h.Child e n c ∨ e = d ∧ n = i.name ∧ c = h.fresh :=
    fun _ _ _ => hw.inserted_child_iff hdir hfree hi
  have hway : ∀ {ns p}, h.Way root ns p → (h.inserted d i).Way root ns p := fun hp =>
    Forest.Way.imp (fun _ _ _ hc => (hchild _ _ _).2 (.inl hc)) hp
  have hcan := hs.canMake hw hd hdir hfree
  obtain ⟨ps, node, hps, hmem, hnode, hnodes⟩ := hs.nodes
  have hlt : ∀ p ∈ ps, p < h.fresh := by
    intro p hp
    obtain ⟨j, hj⟩ := (hmem p).1 hp
    exact hw.lt_fresh p j hj
  refine ⟨fun e es f he => ?_, ps ++ [h.fresh],
    Function.update node h.fresh (parts ++ [i.name], i.kind), ?_, fun p => ?_, fun p hp => ?_, ?_⟩
  · rcases inserted_dir_eq_some hdir he with ⟨-, hb⟩ | ⟨-, ⟨rfl, rfl, -⟩ | ⟨-, he⟩⟩
    · rw [(hi.body _ _ hb).1]
      exact .nil
    · refine List.pairwise_append.2 ⟨hs.ordered _ _ _ hdir, List.pairwise_singleton _ _, ?_⟩
      intro c hc c' hc'
      rw [List.mem_singleton.1 hc']
      obtain ⟨-, j, hj, -⟩ := hw.child _ _ _ hdir c hc
      exact hw.lt_fresh c j hj
    · exact hs.ordered _ _ _ he
  · refine List.pairwise_append.2 ⟨hps, List.pairwise_singleton _ _, fun p hp p' hp' => ?_⟩
    rw [List.mem_singleton.1 hp']
    exact hlt p hp
  · rw [List.mem_append, List.mem_singleton, hmem]
    by_cases hf : p = h.fresh
    · rw [hf]
      exact iff_of_true (.inr rfl) ⟨i, inserted_cell_fresh⟩
    · rw [or_iff_left hf]
      constructor
      · rintro ⟨j, hj⟩
        obtain ⟨j', hj', -⟩ := (inserted_kept (d := d) (i := i) hf).exists_cell hj
        exact ⟨j', hj'⟩
      · rintro ⟨j, hj⟩
        obtain ⟨j', hj', -⟩ := (inserted_kept (d := d) (i := i) hf).symm.exists_cell hj
        exact ⟨j', hj'⟩
  · rcases List.mem_append.1 hp with hp | hp
    · have hf : p ≠ h.fresh := (hlt p hp).ne
      rw [Function.update_of_ne hf]
      obtain ⟨hp', j, hj, hk⟩ := hnode p hp
      refine ⟨hway hp', ?_⟩
      by_cases hpd : p = d
      · subst hpd
        exact ⟨_, by rw [inserted_cell_self hf, hj]; rfl, (j.kind_mapBody_insert _ _).trans hk⟩
      · exact ⟨j, (inserted_cell_of_ne hf hpd).trans hj, hk⟩
    · rw [List.mem_singleton.1 hp, Function.update_self]
      exact ⟨Forest.Way.concat_iff.2 ⟨d, hway hd, (hchild _ _ _).2 (.inr ⟨rfl, rfl, rfl⟩)⟩, i,
        inserted_cell_fresh, rfl⟩
  · rw [PathTree.make_nodes hcan, List.map_append, List.map_singleton, Function.update_self, hnodes]
    refine congrArg (· ++ _) (List.map_congr_left fun p hp => ?_)
    rw [Function.update_of_ne (hlt p hp).ne]

theorem chain (env : Ptr → Alloc) : ∀ (names : List Str) {h : Heap} {d : Ptr} {parts : List Str}
    {t : FSTree Alloc}, WellFormed h root → h.Shows root t → h.Way root parts d →
      h.Missing d names → (chain env h d names).Shows root (t.mkdirs parts names) ∧
        (t.mkdirs parts names).nodes.length = t.nodes.length + names.length
  | [], _, _, _, _, _, hs, _, _ => ⟨hs, rfl⟩
  | name :: names, h, d, parts, t, hw, hs, hd, hm => by
    obtain ⟨cs, m, hdir, hfree⟩ := hm.exists_dir hw
    have hcan := hs.canMake hw hd hdir hfree
    have hs' := hs.inserted hw hd hdir hfree (hm.isNew env)
    have hd' : (h.inserted d (h.newDir env d name)).Way root (parts ++ [name]) h.fresh := by
      refine Forest.Way.concat_iff.2 ⟨d, ?_, (hm.child_iff hw env).2 (.inr ⟨rfl, rfl, rfl⟩)⟩
      exact Forest.Way.imp (fun _ _ _ hc => (hm.child_iff hw env).2 (.inl hc)) hd
    obtain ⟨hshow, hlen⟩ := chain env names (hm.wellFormed hw env) hs' hd' (hm.next hw env)
    refine ⟨hshow, hlen.trans ?_⟩
    change (t.make parts name .dir).nodes.length + names.length = _
    rw [PathTree.make_nodes hcan, List.length_append, List.length_singleton, List.length_cons]
    omega

/-- A deletion is a subtree cut. -/
theorem pruned (hw : WellFormed h root) (hs : h.Shows root t) (hd : h.Way root parts d)
    (hc : h.Child d name it) : (h.pruned d it name).Shows root (t.cut (parts ++ [name])) := by
  classical
  have hnot := hw.not_below_of_child hc
  have hit : h.Way root (parts ++ [name]) it := Forest.Way.concat_iff.2 ⟨d, hd, hc⟩
  obtain ⟨cs, m, hdir⟩ := hc.isDir
  obtain ⟨ps, node, hps, hmem, hnode, hnodes⟩ := hs.nodes
  have hkept : ∀ p, ¬ h.Below it p → Kept h (h.pruned d it name) p := fun _ => pruned_kept
  have hcell : ∀ p, (∃ i, (h.pruned d it name).cell p = some i) ↔
      (∃ i, h.cell p = some i) ∧ ¬ h.Below it p := by
    refine fun p => ⟨?_, ?_⟩
    · rintro ⟨i, hi⟩
      have hb := not_below_of_pruned hnot hi
      obtain ⟨j, hj, -⟩ := (hkept p hb).symm.exists_cell hi
      exact ⟨⟨j, hj⟩, hb⟩
    · rintro ⟨⟨i, hi⟩, hb⟩
      obtain ⟨j, hj, -⟩ := (hkept p hb).exists_cell hi
      exact ⟨j, hj⟩
  refine ⟨fun e es f he => ?_, ps.filter fun p => ¬ h.Below it p, node, hps.sublist
    List.filter_sublist, fun p => ?_, fun p hp => ?_, ?_⟩
  · obtain ⟨-, ⟨rfl, rfl, -⟩ | ⟨-, he⟩⟩ := pruned_dir_eq_some hnot hdir he
    · exact (hs.ordered _ _ _ hdir).sublist List.erase_sublist
    · exact hs.ordered _ _ _ he
  · simp only [List.mem_filter, decide_eq_true_eq, hcell, hmem]
  · obtain ⟨hp, hb⟩ := List.mem_filter.1 hp
    have hb : ¬ h.Below it p := by simpa using hb
    obtain ⟨hp', i, hi, hk⟩ := hnode p hp
    refine ⟨(hw.pruned_way_iff hc).2 ⟨hp', hb⟩, ?_⟩
    by_cases hpd : p = d
    · subst hpd
      exact ⟨_, by rw [pruned_cell_self, hi]; rfl, (i.kind_mapBody_erase _ _).trans hk⟩
    · exact ⟨i, (pruned_cell_of_ne hpd hb).trans hi, hk⟩
  · rw [PathTree.cut_nodes (by simp), hnodes, List.filter_map]
    refine congrArg (List.map node) (List.filter_congr fun p hp => ?_)
    simp only [Function.comp_apply, hw.below_iff_prefix hit (hnode p hp).1]

end Shows

end Heap

/-- A namespace just built shows the root alone. -/
theorem FSNamespace.init_shows (env : Ptr → Alloc) :
    (FSNamespace.init env).heap.Shows (FSNamespace.init env).root PathTree.empty := by
  have hcell : ∀ p i, (FSNamespace.init env).heap.cell p = some i → p = 0 ∧ i.body =
      .dir [] fun _ => none := by
    intro p i hi
    simp only [FSNamespace.init, Option.ite_none_right_eq_some, Option.some.injEq] at hi
    exact ⟨hi.1, hi.2 ▸ rfl⟩
  refine ⟨fun d cs m hd => ?_, [0], fun _ => ([], .dir), List.pairwise_singleton _ _, fun p => ?_,
    fun p hp => ?_, rfl⟩
  · obtain ⟨i, hi, hb⟩ := Heap.dir_eq_some.1 hd
    rw [(hcell d i hi).2] at hb
    cases hb
    exact .nil
  · rw [List.mem_singleton]
    constructor
    · rintro rfl
      exact ⟨_, rfl⟩
    · rintro ⟨i, hi⟩
      exact (hcell p i hi).1
  · rw [List.mem_singleton.1 hp]
    exact ⟨.nil, _, rfl, rfl⟩

end RaftFS
