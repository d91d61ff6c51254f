import RaftFS.Proofs.Directories
import RaftFS.Proofs.Reads
import RaftFS.Proofs.Shows

/-!
# The namespace does what it is for

The namespace refines the tree: a call has a result on the one where it has one on the other, with
the same answer, and leaves a namespace that shows the tree left. What `ListDir` and `GetFileInfo`
answer is what they answer on the tree.
-/

namespace RaftFS

open PathTree (Kind)

namespace FSNamespace

open Heap

variable {fs : FSNamespace} {path : Str} {t : FSTree Alloc} {parts : List Str} {name : Str}

theorem getLast?_splitPath (hsplit : splitPath path = parts ++ [name]) :
    (splitPath path).getLast? = some name := by
  rw [hsplit, List.getLast?_concat]

theorem dropLast_splitPath (hsplit : splitPath path = parts ++ [name]) :
    (splitPath path).dropLast = parts := by
  rw [hsplit, List.dropLast_concat]

theorem exists_of_meetsFile {h : Heap} {root : Ptr} (hw : h.WellFormed root) :
    ∀ (parts : List Str) {d : Ptr}, h.IsDir d → meetsFile h parts d = true →
      ∃ pre p i, pre <+: parts ∧ h.Way d pre p ∧ h.cell p = some i ∧ i.isFile = true
  | [], _, _, hm => by cases hm
  | part :: parts, d, hdir, hm => by
    obtain ⟨cs, m, hd⟩ := hdir
    rcases hc : m part with _ | sub
    · simp [meetsFile, getChild_eq hd, hc] at hm
    · have hchild : h.Child d part sub := (hw.child_iff hd).2 hc
      obtain ⟨i, hi, -⟩ := hchild.cell
      rw [meetsFile_found hd hc, hi, Option.any_some] at hm
      split_ifs at hm with hdir
      · obtain ⟨pre, p, j, hpre, hp, hj⟩ :=
          exists_of_meetsFile hw parts (isDir_iff.2 ⟨i, hi, hdir⟩) hm
        exact ⟨part :: pre, p, j, List.cons_prefix_cons.2 ⟨rfl, hpre⟩, .cons hchild hp, hj⟩
      · exact ⟨[part], sub, i, List.cons_prefix_cons.2 ⟨rfl, List.nil_prefix⟩,
          .cons hchild .nil, hi, by simpa [INode.isFile] using hdir⟩

theorem makeDirLoop_through {h : Heap} {root d p : Ptr} {i : INode} {part : Str}
    {pre rest : List Str} {env : Ptr → Alloc} {makeParents : Bool} {k newDir : ℕ}
    (hw : h.WellFormed root) (hp : h.Way d pre p) (hi : h.cell p = some i)
    (hfile : i.isFile = true) :
    makeDirLoop env makeParents (pre ++ part :: rest) h d k newDir = none := by
  have hnot : ¬ h.IsDir p := by
    intro hd
    obtain ⟨j, hj, hjd⟩ := isDir_iff.1 hd
    obtain rfl := Option.some.inj (hi.symm.trans hj)
    simp [INode.isFile, hjd] at hfile
  rw [makeDirLoop_way hw hp]
  simp [makeDirLoop, getChild, dir_eq_none hnot]

section Matches

variable (hw : fs.heap.WellFormed fs.root) (hs : fs.heap.Shows fs.root t)

/-- An operation has no result on the namespace and none on the tree, or one with the same answer on
both. The namespace left shows the tree left, and has used a place for each node that is made. -/
def Matches (fs : FSNamespace) (t : FSTree Alloc) (r : Option (FSNamespace × Bool))
    (r' : Option (FSTree Alloc × Bool)) : Prop :=
  r = none ∧ r' = none ∨ ∃ fs' t' b, r = some (fs', b) ∧ r' = some (t', b) ∧
    fs'.heap.Shows fs'.root t' ∧
      fs'.heap.fresh = fs.heap.fresh + (t'.nodes.length - t.nodes.length)

theorem matches_same {b : Bool} (hs : fs.heap.Shows fs.root t) :
    Matches fs t (some (fs, b)) (some (t, b)) :=
  .inr ⟨fs, t, b, rfl, rfl, hs, by rw [Nat.sub_self, Nat.add_zero]⟩

include hw hs

theorem hasFile_iff_way : t.hasFile parts = true ↔
    ∃ pre p i, pre <+: parts ∧ fs.heap.Way fs.root pre p ∧ fs.heap.cell p = some i ∧
      i.isFile = true := by
  simp only [PathTree.hasFile_iff, hs.find_eq_some_iff hw, ← INode.exists_kind_file]
  constructor
  · rintro ⟨pre, hpre, data, p, i, hp, hi, hk⟩
    exact ⟨pre, p, i, hpre, hp, hi, data, hk⟩
  · rintro ⟨pre, p, i, hpre, hp, hi, data, hk⟩
    exact ⟨pre, hpre, data, p, i, hp, hi, hk⟩

/-- All parts but the last lead to a directory just where each proper prefix does. -/
theorem isDir_iff_prefixes (name : Str) : t.isDir parts = true ↔
    ∀ pre, pre <+: parts ++ [name] → pre ≠ parts ++ [name] →
      ∃ p, fs.heap.Way fs.root pre p ∧ fs.heap.IsDir p := by
  rw [PathTree.isDir_iff]
  constructor
  · intro hd pre hpre hne
    have hpre := (List.prefix_concat_iff.1 hpre).resolve_left hne
    rw [← hs.find_dir_iff hw]
    by_cases h0 : pre = parts
    · rw [h0, hd]
    · exact PathTree.find_of_isPrefix hd hpre h0
  · intro hall
    exact (hs.find_dir_iff hw).2 (hall parts (List.prefix_append _ _) (by simp))

theorem makeDir_matches (hv : validatePath path = true) (env : Ptr → Alloc) (owner : Str)
    (makeParents : Bool) :
    Matches fs t (fs.makeDir env path owner makeParents) (t.makeDir path makeParents) := by
  obtain ⟨parts, name, hsplit, -⟩ := exists_splitPath hv
  rw [FSTree.makeDir, dropLast_splitPath hsplit]
  by_cases hfile : t.hasFile parts = true
  · -- the path goes through a file
    obtain ⟨pre, p, i, ⟨rest, rfl⟩, hp, hi, hif⟩ := (hasFile_iff_way hw hs).1 hfile
    obtain ⟨part, rest, hrest⟩ : ∃ part rest', rest ++ [name] = part :: rest' :=
      List.exists_cons_of_ne_nil (by simp)
    refine .inl ⟨?_, if_pos hfile⟩
    rw [makeDir, hsplit, List.append_assoc, hrest, makeDirLoop_through hw hp hi hif]
    rfl
  simp only [if_neg hfile, Bool.or_eq_true]
  by_cases hfound : t.find (splitPath path) = none
  · have hmeets : fs.hasFile path = false := by
      rw [Bool.eq_false_iff]
      intro hmeets
      obtain ⟨pre, p, i, hpre, hp, hi, hif⟩ := exists_of_meetsFile hw _ hw.isDir_root hmeets
      by_cases h0 : pre = splitPath path
      · exact (hs.find_ne_none_iff hw).2 ⟨p, hp⟩ (h0 ▸ hfound)
      · rw [hsplit] at hpre h0
        have hpre := (List.prefix_concat_iff.1 hpre).resolve_left h0
        exact hfile ((hasFile_iff_way hw hs).2 ⟨pre, p, i, hpre, hp, hi, hif⟩)
    obtain ⟨old, names, e, hold, hway, hm, hrun⟩ := makeDir_cases hw hv hmeets env owner makeParents
    have hall : names.length ≤ 1 ↔ t.isDir parts = true := by
      rw [isDir_iff_prefixes hw hs name, ← hsplit, hold]
      exact hm.length_le_one_iff hway fun q hq => hw.way_unique hq hway
    rw [hall] at hrun
    rcases hrun with ⟨hmay, hrun⟩ | ⟨hmay, hrun⟩
    · obtain ⟨hshow, hlen⟩ := hs.chain env names hw hway hm
      have hthere : t.mkdirs [] old = t :=
        PathTree.mkdirs_eq ((hs.find_ne_none_iff hw).2 ⟨e, hway⟩)
      have hmkdirs : t.mkdirs [] (splitPath path) = t.mkdirs old names := by
        rw [hold, PathTree.mkdirs_append, hthere, List.nil_append]
      rw [hrun, if_pos hmay, hmkdirs]
      refine .inr ⟨_, _, true, rfl, rfl, hshow, ?_⟩
      rw [hlen, (grown_chain names hw hm).fresh, Nat.add_sub_cancel_left]
    · rw [hrun, if_neg hmay]
      exact matches_same hs
  · -- what is there passes for made
    obtain ⟨p, hp⟩ := (hs.find_ne_none_iff hw).1 hfound
    obtain ⟨k, hk⟩ := Option.ne_none_iff_exists'.1 hfound
    rw [hsplit] at hk
    rw [makeDir_of_way hw hp, if_pos (.inr (PathTree.isDir_iff.2 (PathTree.find_parent hk))),
      PathTree.mkdirs_eq (by simpa using hfound)]
    exact matches_same hs

/-- What `DeleteDir` and `RemoveFile` ask of the inode the path leads to, asked of the tree. -/
theorem deletable_iff (hplain : fs.Plain) (hsplit : splitPath path = parts ++ [name])
    (kind : INode → Bool) (visitor : Str) (recursive : Bool) :
    (∃ d name it, fs.Deletable kind path visitor recursive d name it) ↔ name ≠ [] ∧
      (∃ p i, fs.heap.Way fs.root (parts ++ [name]) p ∧ fs.heap.cell p = some i ∧ kind i = true) ∧
      (recursive = true ∨ t.names (parts ++ [name]) = []) := by
  have hempty : ∀ {p}, fs.heap.Way fs.root (parts ++ [name]) p →
      ((∀ cs m, fs.heap.dir p = some (cs, m) → cs = []) ↔ t.names (parts ++ [name]) = []) := by
    intro p hp
    by_cases hd : fs.heap.IsDir p
    · have hlist := hs.listDirName_eq hw hp hd
      obtain ⟨cs, m, hcs⟩ := hd
      obtain ⟨l, hl, hmap⟩ := hw.listDirName_eq hcs
      obtain rfl := Option.some.inj (hl.symm.trans hlist)
      have hlen := congrArg List.length hmap
      simp only [List.length_map] at hlen
      rw [← List.length_eq_zero_iff, ← hlen, List.length_eq_zero_iff]
      refine ⟨fun hall => hall cs m hcs, fun h0 cs' m' hcs' => ?_⟩
      obtain ⟨rfl, rfl⟩ := Prod.mk.inj (Option.some.inj (hcs.symm.trans hcs'))
      exact h0
    · refine iff_of_true (fun cs m hcs => absurd ⟨cs, m, hcs⟩ hd) (PathTree.names_eq_nil ?_)
      intro hk
      obtain ⟨q, hq, hqd⟩ := (hs.find_dir_iff hw).1 hk
      exact hd (hw.way_unique hq hp ▸ hqd)
  constructor
  · rintro ⟨d, n, it, hdel⟩
    obtain ⟨parts', hsplit', hway⟩ := hdel.way
    obtain ⟨rfl, hn⟩ := List.append_inj' (hsplit.symm.trans hsplit') rfl
    obtain rfl := List.singleton_inj.1 hn
    obtain ⟨i, hi, hkind, -⟩ := hdel.inode
    have hit : fs.heap.Way fs.root (parts ++ [name]) it :=
      Forest.Way.concat_iff.2 ⟨d, hway, hdel.child⟩
    exact ⟨hdel.name_ne, ⟨it, i, hit, hi, hkind⟩, hdel.empty.imp_right (hempty hit).1⟩
  · rintro ⟨hn, ⟨p, i, hp, hi, hkind⟩, hrec⟩
    obtain ⟨d, hway, hc⟩ := Forest.Way.concat_iff.1 hp
    have howner := hplain.owner p i hi (hw.child_ne_root hc)
    exact ⟨d, name, p, ⟨⟨⟨parts, hsplit, hway⟩, hc⟩, hn, ⟨i, hi, hkind, by
      rw [mayDelete, howner, beq_self_eq_true, Bool.or_true]⟩, hrec.imp_right (hempty hp).2⟩⟩

theorem deleteInode_matches (hplain : fs.Plain) (hv : validatePath path = true)
    {kind : INode → Bool} {found : Bool} (hfound : found = true ↔ ∃ p i,
      fs.heap.Way fs.root (splitPath path) p ∧ fs.heap.cell p = some i ∧ kind i = true)
    (visitor : Str) (recursive : Bool) :
    Matches fs t (fs.deleteInode kind path visitor recursive)
      (some (t.deleteNode found (splitPath path) recursive)) := by
  obtain ⟨parts, name, hsplit, -⟩ := exists_splitPath hv
  have hiff := deletable_iff hw hs hplain hsplit kind visitor recursive
  rw [hsplit] at hfound
  rw [← hfound] at hiff
  have hcond : (splitPath path).getLast? ≠ some [] ∧ found = true ∧
      (recursive = true ∨ t.names (splitPath path) = []) ↔
      ∃ d name it, fs.Deletable kind path visitor recursive d name it := by
    rw [hiff, getLast?_splitPath hsplit, hsplit, ne_eq, Option.some.injEq]
  rw [FSTree.deleteNode]
  rcases deleteInode_cases hw hv kind visitor recursive with ⟨d, n, it, hdel, hrun⟩ | ⟨hnone, hrun⟩
  · rw [hrun, if_pos (hcond.2 ⟨d, n, it, hdel⟩)]
    obtain ⟨parts', hsplit', hway⟩ := hdel.way
    refine .inr ⟨_, _, true, rfl, rfl, ?_, ?_⟩
    · rw [hsplit']
      exact hs.pruned hw hway hdel.child
    · rw [Nat.sub_eq_zero_of_le PathTree.length_cut_le]
      rfl
  · rw [hrun, if_neg fun h0 => by
      obtain ⟨d, n, it, hdel⟩ := hcond.1 h0
      exact hnone d n it hdel]
    exact matches_same hs

theorem createFile_of_canMake (hsplit : splitPath path = parts ++ [name]) (hn : name ≠ [])
    (hcan : t.CanMake parts name) (env : Ptr → Alloc) (owner : Str) :
    ∃ fs', fs.createFile env path owner = some (fs', true) := by
  obtain ⟨hdir, hfree⟩ := hcan
  obtain ⟨d, hway, hd⟩ := (hs.find_dir_iff hw).1 (PathTree.isDir_iff.1 hdir)
  rcases getParentFolderAndChild_cases hw hsplit with ⟨d', -, hway', hget⟩ | ⟨hnone, -⟩
  · obtain rfl := hw.way_unique hway hway'
    obtain ⟨cs, m, hcs⟩ := hd
    have hm : m name = none := by
      refine Option.eq_none_iff_forall_ne_some.2 fun c hc => ?_
      refine (hs.find_ne_none_iff hw).2 ⟨c, ?_⟩ hfree
      exact Forest.Way.concat_iff.2 ⟨d, hway, (hw.child_iff hcs).2 hc⟩
    refine ⟨{ fs with heap := fs.heap.inserted d (fs.heap.newFile env d name) }, ?_⟩
    simp only [createFile, hget, Option.bind_eq_bind, Option.bind_some, List.isEmpty_iff, if_neg hn,
      createFile_eq env hcs (hw.ne_fresh ⟨cs, m, hcs⟩), hm, Option.isSome_none, Bool.false_eq_true,
      if_false, Option.pure_def, Option.isSome_some]
  · exact absurd hd (hnone d hway)

theorem createFile_matches (hv : validatePath path = true) (env : Ptr → Alloc) (owner : Str) :
    Matches fs t (fs.createFile env path owner)
      (some (t.createFile path (env fs.heap.fresh))) := by
  obtain ⟨parts, name, hsplit, hslash⟩ := exists_splitPath hv
  rw [FSTree.createFile, getLast?_splitPath hsplit, dropLast_splitPath hsplit]
  simp only []
  rcases createFile_cases hw hv env owner with hrun |
    ⟨parts', name', d, cs, m, hsplit', hn, -, hway, hd, hm, hrun⟩
  · have hnot : ¬ (name ≠ [] ∧ t.CanMake parts name) := by
      rintro ⟨hn, hcan⟩
      obtain ⟨fs', hrun'⟩ := createFile_of_canMake hw hs hsplit hn hcan env owner
      cases hrun'.symm.trans hrun
    rw [hrun, if_neg hnot]
    exact matches_same hs
  · obtain ⟨rfl, hn'⟩ := List.append_inj' (hsplit.symm.trans hsplit') rfl
    obtain rfl := List.singleton_inj.1 hn'
    have hcan := hs.canMake hw hway hd hm
    rw [hrun, if_pos ⟨hn, hcan⟩]
    refine .inr ⟨_, _, true, rfl, rfl,
      hs.inserted hw hway hd (i := fs.heap.newFile env d name) hm (isNew_newFile env hslash), ?_⟩
    rw [PathTree.make_nodes hcan, List.length_append, Nat.add_sub_cancel_left]
    rfl

end Matches

section Reads

variable (hw : fs.heap.WellFormed fs.root) (hs : fs.heap.Shows fs.root t)
include hw hs

theorem find_eq_none_of_way (name : Str)
    (hnone : ∀ d, fs.heap.Way fs.root parts d → ¬ fs.heap.IsDir d) :
    t.find parts ≠ some .dir ∧ t.find (parts ++ [name]) = none := by
  have hd : t.find parts ≠ some .dir := by
    intro h0
    obtain ⟨d, hd, hdir⟩ := (hs.find_dir_iff hw).1 h0
    exact hnone d hd hdir
  refine ⟨hd, ?_⟩
  by_contra h0
  obtain ⟨k, hk⟩ := Option.ne_none_iff_exists'.1 h0
  exact hd (PathTree.find_parent hk)

/-- `ListDir` lists what the tree has, where the tree has an answer. -/
theorem listDir_shows (hv : validatePath path = true) : fs.listDir path = t.listDir path := by
  obtain ⟨parts, name, hsplit, -⟩ := exists_splitPath hv
  rw [FSTree.listDir, getLast?_splitPath hsplit, dropLast_splitPath hsplit, hsplit]
  simp only [Option.some.injEq]
  rcases getParentFolderAndChild_cases hw hsplit with ⟨d, hd, hway, hget⟩ | ⟨hnone, hget⟩
  · split_ifs with hn hfile
    · simp only [listDir, hget, hn, Option.bind_eq_bind, Option.bind_some, List.isEmpty_nil,
        if_true]
      exact hs.listDirName_eq hw hway hd
    all_goals rw [listDir_child hget hn]
    · obtain ⟨data, hk⟩ := PathTree.isFile_iff.1 hfile
      obtain ⟨c, i, hc, hi, hik⟩ := (hs.find_eq_some_iff hw).1 hk
      obtain ⟨d', hway', hchild⟩ := Forest.Way.concat_iff.1 hc
      obtain rfl := hw.way_unique hway' hway
      have hnot : ¬ fs.heap.IsDir c := by
        intro hcd
        obtain ⟨j, hj, hjd⟩ := isDir_iff.1 hcd
        obtain rfl := Option.some.inj (hi.symm.trans hj)
        cases (INode.kind_eq_dir.2 hjd).symm.trans hik
      rw [hw.getChild_iff.2 hchild]
      simp [listDirName, dir_eq_none hnot]
    · rcases hw.getChild_cases hd name with ⟨c, hc, hg⟩ | ⟨hc, hg⟩
      · have hp : fs.heap.Way fs.root (parts ++ [name]) c := Forest.Way.concat_iff.2 ⟨d, hway, hc⟩
        obtain ⟨i, hi, -⟩ := hc.cell
        have hcd : fs.heap.IsDir c := by
          refine isDir_iff.2 ⟨i, hi, ?_⟩
          by_contra hid
          obtain ⟨data, hk⟩ := INode.exists_kind_file.2
            (show i.isFile = true by simpa [INode.isFile] using hid)
          exact hfile (PathTree.isFile_iff.2 ⟨data, by rw [hs.find_way hw hp hi, hk]⟩)
        rw [hg]
        exact hs.listDirName_eq hw hp hcd
      · rw [hg, PathTree.names_eq_nil]
        · rfl
        · intro hk
          obtain ⟨c, hp, -⟩ := (hs.find_dir_iff hw).1 hk
          obtain ⟨d', hway', hchild⟩ := Forest.Way.concat_iff.1 hp
          exact hc c (hw.way_unique hway' hway ▸ hchild)
  · obtain ⟨hdir, hfree⟩ := find_eq_none_of_way hw hs name hnone
    have hl : fs.listDir path = some [] := by
      simp only [listDir, hget, Option.bind_eq_bind, Option.bind_some, Option.pure_def]
    rw [hl]
    split_ifs with hn hfile
    · rw [PathTree.names_eq_nil hdir]
    · obtain ⟨data, hk⟩ := PathTree.isFile_iff.1 hfile
      cases hfree.symm.trans hk
    · rw [PathTree.names_eq_nil (by simp [hfree])]

/-- `GetFileInfo` looks up what the tree has, where the tree has an answer. -/
theorem getFileInfo_shows (hplain : fs.Plain) (hv : validatePath path = true) (info : FileInfo) :
    fs.getFileInfo path info = t.getFileInfo path info := by
  obtain ⟨parts, name, hsplit, -⟩ := exists_splitPath hv
  rw [FSTree.getFileInfo, getLast?_splitPath hsplit, dropLast_splitPath hsplit, hsplit]
  simp only [Option.some.injEq]
  rcases getParentFolderAndChild_cases hw hsplit with ⟨d, hd, hway, hget⟩ | ⟨hnone, hget⟩
  · have hdir : t.isDir parts = true := PathTree.isDir_iff.2 ((hs.find_dir_iff hw).2 ⟨d, hway, hd⟩)
    by_cases hn : name = []
    · rw [if_pos (.inl hn)]
      simp only [getFileInfo, hget, hn, Option.bind_eq_bind, Option.bind_some, List.isEmpty_nil,
        if_true, Option.pure_def]
    · rw [if_neg (by simp [hn, hdir]), getFileInfo_child hget hn]
      rcases hw.getChild_cases hd name with ⟨c, hc, hg⟩ | ⟨hc, hg⟩
      · obtain ⟨i, hi, -⟩ := hc.cell
        rw [hg, hs.find_way hw (Forest.Way.concat_iff.2 ⟨d, hway, hc⟩) hi]
        rcases hb : i.body with size | ⟨cs, m⟩
        · have howner := hplain.owner c i hi (hw.child_ne_root hc)
          rw [Option.bind_some, Option.elim_some, hw.toFileInfo_eq hway hc hi hb, ← hsplit,
            pathOf_splitPath hv, howner]
          simp only [INode.kind, hb]
          rfl
        · simp [INode.kind, hb, toFileInfo, hi]
      · have hfree : t.find (parts ++ [name]) = none := by
          by_contra h0
          obtain ⟨c, hp⟩ := (hs.find_ne_none_iff hw).1 h0
          obtain ⟨d', hway', hchild⟩ := Forest.Way.concat_iff.1 hp
          exact hc c (hw.way_unique hway' hway ▸ hchild)
        rw [hg, hfree]
        rfl
  · obtain ⟨hdir, -⟩ := find_eq_none_of_way hw hs name hnone
    rw [if_pos (.inr (Bool.eq_false_iff.2 fun h0 => hdir (PathTree.isDir_iff.1 h0)))]
    simp only [getFileInfo, hget, Option.bind_eq_bind, Option.bind_some, Option.pure_def]

end Reads

/-- The namespace is one that calls on valid paths lead to, and is what the specification has. -/
structure Refines (fs : FSNamespace) (s : FSSpec) : Prop where
  reach : fsCalls.Reach FSCall.ValidPath fs
  shown : fs.heap.Shows fs.root s.tree
  fresh : fs.heap.fresh = s.made

theorem init_refines (env : Ptr → Alloc) : (FSNamespace.init env).Refines .init :=
  ⟨.init ⟨env, rfl⟩, init_shows env, rfl⟩

namespace Refines

variable {s : FSSpec} {c : FSCall} {cs : List FSCall}

theorem wellFormed (h : fs.Refines s) : fs.heap.WellFormed fs.root :=
  reach_wellFormed (fun _ _ hc => hc) h.reach

theorem plain (h : fs.Refines s) : fs.Plain := reach_plain (fun _ _ hc => hc) h.reach

/-- A call on a valid path, on the namespace and on the tree. -/
theorem run_matches (h : fs.Refines s) (hv : validatePath c.path = true) :
    Matches fs s.tree (c.run fs) (c.onTree (fun env => env s.made) s.tree) := by
  have hw := h.wellFormed
  cases c with
  | makeDir env absDir owner makeParents =>
    exact makeDir_matches hw h.shown hv env owner makeParents
  | deleteDir absDir visitor recursive =>
    refine deleteInode_matches hw h.shown h.plain hv ?_ visitor recursive
    simp only [PathTree.isDir_iff, h.shown.find_eq_some_iff hw, INode.kind_eq_dir]
    exact Iff.rfl
  | createFile env newFile owner =>
    have hm := createFile_matches hw h.shown hv env owner
    rwa [h.fresh] at hm
  | removeFile fileName visitor =>
    refine deleteInode_matches hw h.shown h.plain hv ?_ visitor false
    rw [PathTree.isFile_iff]
    simp only [h.shown.find_eq_some_iff hw, ← INode.exists_kind_file]
    constructor
    · rintro ⟨data, p, i, hp, hi, hk⟩
      exact ⟨p, i, hp, hi, data, hk⟩
    · rintro ⟨p, i, hp, hi, data, hk⟩
      exact ⟨data, p, i, hp, hi, hk⟩

/-- The namespace and the specification answer alike to a call on a valid path. -/
theorem alike : Answers.Alike Refines (fun c c' => c' = c ∧ validatePath c.path = true) FSCall.run
    FSSpec.call := by
  rintro fs s c _ h ⟨rfl, hv⟩
  rw [FSSpec.call]
  rcases h.run_matches hv with ⟨hrun, htree⟩ | ⟨fs', t', b, hrun, htree, hshow, hfresh⟩
  · exact .inl ⟨hrun, by rw [htree, Option.map_none]⟩
  · refine .inr ⟨fs', _, b, hrun, by rw [htree, Option.map_some], ?_, hshow, ?_⟩
    · exact FSCall.reach_run h.reach hv hrun
    · rw [hfresh, h.fresh]

theorem call (h : fs.Refines s) (hv : validatePath c.path = true) :
    Answers.Same Refines (c.run fs) (s.call c) :=
  alike fs s c c h ⟨rfl, hv⟩

theorem calls (h : fs.Refines s) (hv : ∀ c ∈ cs, validatePath c.path = true) :
    Answers.Same Refines (fs.calls cs) (s.calls cs) :=
  alike.run h (List.forall₂_same.2 fun c hc => ⟨rfl, hv c hc⟩)

end Refines

end FSNamespace

open FSNamespace in
/-- Any calls on valid paths have results from the empty namespace just where they have on the empty
tree, with the same answers. Then the namespace lists and looks up what the tree has, wherever the
tree has an answer, and has none where the tree has none. -/
theorem namespace_refines (env : Ptr → Alloc) (cs : List FSCall)
    (hv : ∀ c ∈ cs, validatePath c.path = true) :
    (FSNamespace.init env).calls cs = none ∧ FSSpec.init.calls cs = none ∨
      ∃ fs s bs, (FSNamespace.init env).calls cs = some (fs, bs) ∧
        FSSpec.init.calls cs = some (s, bs) ∧ fs.heap.Shows fs.root s.tree ∧
        ∀ path, validatePath path = true → fs.listDir path = s.tree.listDir path ∧
          ∀ info, fs.getFileInfo path info = s.tree.getFileInfo path info := by
  rcases (init_refines env).calls hv with hnone | ⟨fs, s, bs, hrun, hspec, h⟩
  · exact .inl hnone
  · refine .inr ⟨fs, s, bs, hrun, hspec, h.shown, fun path hp => ⟨?_, fun info => ?_⟩⟩
    · exact listDir_shows h.wellFormed h.shown hp
    · exact getFileInfo_shows h.wellFormed h.shown h.plain hp info

/-- The file `/f` and the directory `/d` are made, `/f` is not made again, and the root lists the
two. -/
theorem namespace_refines_listed : ∃ (env : Ptr → Alloc) (fs : FSNamespace),
    (FSNamespace.init env).calls [.createFile env ['/', 'f'] [], .makeDir env ['/', 'd'] [] false,
      .createFile env ['/', 'f'] []] = some (fs, [true, true, false]) ∧
    fs.listDir ['/'] = some [['f'], ['d']] := by
  let env : Ptr → Alloc := fun _ => ⟨0, 0⟩
  have hrefines := namespace_refines env [.createFile env ['/', 'f'] [],
    .makeDir env ['/', 'd'] [] false, .createFile env ['/', 'f'] []] (by simp [FSCall.path]; decide)
  rcases hrefines with ⟨-, hspec⟩ | ⟨fs, s, bs, hrun, hspec, -, hread⟩
  · cases hspec
  · obtain ⟨rfl, rfl⟩ := Prod.mk.inj (Option.some.inj hspec)
    exact ⟨env, fs, hrun, ((hread ['/'] rfl).1).trans rfl⟩

end RaftFS
