import RaftFS.Proofs.Chain

/-!
# The namespace is a tree

Every call of the namespace on a valid path leaves a tree of its inodes. It has a result unless it
is a `MakeDir` that comes to a file on its way (`namespace_tree`).
-/

namespace RaftFS

namespace Heap

open FSNamespace

/-- `DeleteChild` deletes a child if the deletion is recursive or the child has none of its own, and
otherwise changes nothing. -/
theorem WellFormed.deleteChild_cases {h : Heap} {root d it : Ptr} {name : Str}
    (hw : h.WellFormed root) (hc : h.Child d name it) (recursive : Bool) :
    (recursive = true ∨ ∀ cs m, h.dir it = some (cs, m) → cs = []) ∧
        (∀ fuel, deleteFuel h ≤ fuel →
          h.deleteChild d name recursive fuel = some (h.pruned d it name, true)) ∨
      ¬ (recursive = true ∨ ∀ cs m, h.dir it = some (cs, m) → cs = []) ∧
        ∀ fuel, deleteFuel h ≤ fuel → h.deleteChild d name recursive fuel = some (h, false) := by
  obtain ⟨cs, m, hdir⟩ := hc.isDir
  have hm := (hw.child_iff hdir).1 hc
  by_cases hrec : recursive = true ∨ ∀ cs m, h.dir it = some (cs, m) → cs = []
  · refine .inl ⟨hrec, fun fuel hfuel => ?_⟩
    exact hw.deleteChild_eq hdir hm le_rfl hfuel fun es f hdit hes =>
      hrec.resolve_right fun h0 => hes (h0 es f hdit)
  · refine .inr ⟨hrec, fun fuel hfuel => ?_⟩
    push Not at hrec
    obtain ⟨hne, es, f, hdit, hes⟩ := hrec
    obtain rfl : recursive = false := by simpa using hne
    obtain ⟨fuel, rfl⟩ :=
      Nat.exists_eq_add_of_le' (show 1 ≤ fuel by rw [deleteFuel] at hfuel; omega)
    exact hw.deleteChild_refused hdir hm hdit hes

end Heap

namespace FSNamespace

open Heap

variable {fs : FSNamespace} {path : Str}

theorem createFile_cases (hw : WellFormed fs.heap fs.root) (hv : validatePath path = true)
    (env : Ptr → Alloc) (owner : Str) :
    fs.createFile env path owner = some (fs, false) ∨
      ∃ parts name d cs m, splitPath path = parts ++ [name] ∧ name ≠ [] ∧ '/' ∉ name ∧
        fs.heap.Way fs.root parts d ∧ fs.heap.dir d = some (cs, m) ∧ m name = none ∧
        fs.createFile env path owner = some
          ({ fs with heap := fs.heap.inserted d (fs.heap.newFile env d name) }, true) := by
  obtain ⟨parts, name, hsplit, hslash⟩ := exists_splitPath hv
  rcases getParentFolderAndChild_cases hw hsplit with ⟨d, hd, hway, hget⟩ | ⟨-, hget⟩
  · simp only [createFile, hget, Option.bind_eq_bind, Option.bind_some]
    obtain ⟨cs, m, hdir⟩ := hd
    rw [createFile_eq env hdir (hw.ne_fresh ⟨cs, m, hdir⟩)]
    split_ifs with hempty hm
    · exact .inl rfl
    · exact .inl rfl
    · exact .inr ⟨parts, name, d, cs, m, hsplit, by simpa using hempty, hslash, hway, hdir,
        by simpa using hm, rfl⟩
  · exact .inl (by rw [createFile, hget]; rfl)

/-- What `DeleteDir` and `RemoveFile` ask of the inode `it` that the path leads to. -/
structure Deletable (fs : FSNamespace) (kind : INode → Bool) (path visitor : Str)
    (recursive : Bool) (d : Ptr) (name : Str) (it : Ptr) : Prop extends
    Located fs path d name it where
  name_ne : name ≠ []
  inode : ∃ i, fs.heap.cell it = some i ∧ kind i = true ∧ mayDelete i visitor = true
  empty : recursive = true ∨ ∀ cs m, fs.heap.dir it = some (cs, m) → cs = []

/-- `DeleteDir` and `RemoveFile` delete what the path leads to if they may, or change nothing. -/
theorem deleteInode_cases (hw : WellFormed fs.heap fs.root) (hv : validatePath path = true)
    (kind : INode → Bool) (visitor : Str) (recursive : Bool) :
    (∃ d name it, fs.Deletable kind path visitor recursive d name it ∧
        fs.deleteInode kind path visitor recursive = some
          ({ fs with heap := fs.heap.pruned d it name }, true)) ∨
      (∀ d name it, ¬ fs.Deletable kind path visitor recursive d name it) ∧
        fs.deleteInode kind path visitor recursive = some (fs, false) := by
  obtain ⟨parts, name, hsplit, -⟩ := exists_splitPath hv
  have hloc : ∀ {d n it}, fs.Deletable kind path visitor recursive d n it →
      fs.heap.Way fs.root parts d ∧ n = name := by
    intro d n it hdel
    obtain ⟨parts', hs, hway⟩ := hdel.way
    obtain ⟨rfl, hn⟩ := List.append_inj' (hsplit.symm.trans hs) rfl
    exact ⟨hway, (List.singleton_inj.1 hn).symm⟩
  rcases getParentFolderAndChild_cases hw hsplit with ⟨d, hd, hway, hget⟩ | ⟨hnone, hget⟩
  · have hloc' : ∀ {d' n it}, fs.Deletable kind path visitor recursive d' n it →
        fs.Deletable kind path visitor recursive d name it := by
      intro d' n it hdel
      obtain ⟨hway', rfl⟩ := hloc hdel
      exact hw.way_unique hway' hway ▸ hdel
    simp only [deleteInode, hget, Option.bind_eq_bind, Option.bind_some]
    by_cases hempty : name = []
    · exact .inr ⟨fun d' n it hdel => (hloc' hdel).name_ne hempty, by rw [hempty]; rfl⟩
    · rw [if_neg (by simpa using hempty)]
      rcases hw.getChild_cases hd name with ⟨it, hc, hg⟩ | ⟨hc, hg⟩
      · obtain ⟨i, hi, -⟩ := hc.cell
        have hit : ∀ {d' n it'}, fs.Deletable kind path visitor recursive d' n it' →
            fs.Deletable kind path visitor recursive d name it := by
          intro d' n it' hdel
          have hdel' := hloc' hdel
          exact hw.child_unique hdel'.child hc ▸ hdel'
        simp only [hg, hi, Option.bind_some, Bool.and_eq_true]
        split_ifs with hkind
        · rcases hw.deleteChild_cases hc recursive with ⟨hrec, hdel⟩ | ⟨hrec, hdel⟩
          · refine .inl
              ⟨d, name, it, ⟨⟨⟨parts, hsplit, hway⟩, hc⟩, hempty, ⟨i, hi, hkind⟩, hrec⟩, ?_⟩
            rw [hdel _ le_rfl]
            rfl
          · refine .inr ⟨fun d' n it' hdel' => hrec (hit hdel').empty, ?_⟩
            rw [hdel _ le_rfl]
            rfl
        · refine .inr ⟨fun d' n it' hdel => ?_, rfl⟩
          obtain ⟨j, hj, hj'⟩ := (hit hdel).inode
          obtain rfl := Option.some.inj (hi.symm.trans hj)
          exact hkind hj'
      · exact .inr ⟨fun d' n it hdel => hc it (hloc' hdel).child, by rw [hg]; rfl⟩
  · exact .inr ⟨fun d n it hdel => hnone d (hloc hdel).1 hdel.child.isDir,
      by rw [deleteInode, hget]; rfl⟩

end FSNamespace

namespace FSCall

open FSNamespace Heap

/-- A call has a result, which is a tree again. -/
theorem run_spec {fs : FSNamespace} (hw : WellFormed fs.heap fs.root) {call : FSCall}
    (hc : ValidCall fs call) : ∃ h b, WellFormed h fs.root ∧
      call.run fs = some ({ fs with heap := h }, b) := by
  obtain ⟨hv, hfile⟩ := hc
  cases call with
  | makeDir env absDir owner makeParents =>
    obtain ⟨_, names, e, -, -, hm, ⟨-, h⟩ | ⟨-, h⟩⟩ :=
      makeDir_cases hw hv (hfile rfl) env owner makeParents
    · exact ⟨_, _, wellFormed_chain names hw hm, h⟩
    · exact ⟨_, _, hw, h⟩
  | deleteDir absDir visitor recursive | removeFile fileName visitor =>
    rcases deleteInode_cases hw hv _ _ _ with ⟨d, name, it, hdel, h⟩ | ⟨-, h⟩
    · obtain ⟨cs, m, hd⟩ := hdel.child.isDir
      exact ⟨_, _, hw.pruned hd ((hw.child_iff hd).1 hdel.child), h⟩
    · exact ⟨_, _, hw, h⟩
  | createFile env newFile owner =>
    rcases createFile_cases hw hv env owner with h | ⟨_, name, d, cs, m, -, -, hs, -, hd, hm, h⟩
    · exact ⟨_, _, hw, h⟩
    · exact ⟨_, _, hw.inserted hd hm (isNew_newFile env hs), h⟩

theorem run_wellFormed {fs fs' : FSNamespace} {b : Bool} (hw : WellFormed fs.heap fs.root)
    {call : FSCall} (hv : ValidPath fs call) (h : call.run fs = some (fs', b)) :
    WellFormed fs'.heap fs'.root := by
  by_cases hc : ValidCall fs call
  · obtain ⟨h', b', hw', hrun⟩ := run_spec hw hc
    obtain ⟨rfl, -⟩ := Prod.mk.inj (Option.some.inj (hrun.symm.trans h))
    exact hw'
  · obtain ⟨hmake, hfile⟩ : call.isMakeDir = true ∧ fs.hasFile call.path = true := by
      by_contra h0
      exact hc ⟨hv, fun hm => by simpa [hm] using h0⟩
    cases call with
    | makeDir env absDir owner makeParents =>
      rcases makeDir_file hw hfile env owner makeParents with hrun | hrun
      · cases hrun.symm.trans h
      · obtain ⟨rfl, -⟩ := Prod.mk.inj (Option.some.inj (hrun.symm.trans h))
        exact hw
    | _ => cases hmake

end FSCall

theorem FSNamespace.wellFormed_init (env : Ptr → Alloc) :
    Heap.WellFormed (FSNamespace.init env).heap (FSNamespace.init env).root := by
  have hcell : ∀ p i, (FSNamespace.init env).heap.cell p = some i → p = 0 ∧
      i = ⟨['/'], ['r', 'a', 'f', 't', 'f', 's'], (env 0).now, some 0, .dir [] fun _ => none⟩ := by
    intro p i hi
    simp only [FSNamespace.init] at hi
    split_ifs at hi with hp
    exact ⟨hp, (Option.some.inj hi).symm⟩
  have hdir : ∀ d cs m, (FSNamespace.init env).heap.dir d = some (cs, m) →
      cs = [] ∧ m = fun _ => none := by
    intro d cs m hd
    obtain ⟨i, hi, hb⟩ := Heap.dir_eq_some.1 hd
    obtain ⟨-, rfl⟩ := hcell d i hi
    cases hb
    exact ⟨rfl, rfl⟩
  refine ⟨fun p i hi => ?_, ⟨⟨_, _, _, _, .dir [] fun _ => none⟩, rfl, rfl, rfl, rfl⟩,
    fun p i hi hp => ?_,
    fun d cs m hd c hc => ?_, fun d cs m hd => ?_, fun d cs m hd name c => ?_⟩
  · rw [(hcell p i hi).1]
    exact one_pos
  · exact absurd (hcell p i hi).1 hp
  · rw [(hdir d cs m hd).1] at hc
    cases hc
  · rw [(hdir d cs m hd).1]
    exact List.nodup_nil
  · obtain ⟨rfl, rfl⟩ := hdir d cs m hd
    simp

theorem reach_wellFormed {G : Runs.Guard FSNamespace FSCall}
    (hG : ∀ fs call, G fs call → FSCall.ValidPath fs call) {fs : FSNamespace}
    (h : fsCalls.Reach G fs) : Heap.WellFormed fs.heap fs.root := by
  refine h.inv (I := fun fs => Heap.WellFormed fs.heap fs.root) ?_ ?_
  · rintro _ ⟨env, rfl⟩
    exact FSNamespace.wellFormed_init env
  · intro fs call fs' _ hI hg hst
    obtain ⟨⟨_, b⟩, hrun, rfl⟩ := Option.map_eq_some_iff.1 hst
    exact FSCall.run_wellFormed hI (hG fs call hg) hrun

theorem Heap.WellFormed.climb_root {h : Heap} {root p : Ptr} {i : INode} (hw : h.WellFormed root)
    (hp : h.cell p = some i) : ∃ k, FSNamespace.climb h p k = some root := by
  induction hw.below_root hp generalizing i with
  | refl => exact ⟨0, rfl⟩
  | @step p d hpd _ ih =>
    obtain ⟨j, hj, hpar, -⟩ := Heap.parentOf_eq_some_iff.1 hpd
    obtain ⟨-, cs, m, hd, -⟩ := hw.parent_lt hpd
    obtain ⟨k, hk, -⟩ := Heap.dir_eq_some.1 hd
    obtain ⟨n, hn⟩ := ih hk
    exact ⟨n + 1, by simp only [FSNamespace.climb, hj, hpar, Option.bind_eq_bind, Option.bind_some,
      hn]⟩

namespace FSNamespace

/-- The name of an inode. -/
def nameOf (fs : FSNamespace) (p : Ptr) : Option Str := (fs.heap.cell p).map INode.name

/-- The containers of each directory agree, with no name twice and each child pointing back, and all
inodes are below the root, which alone is named `/` and is its own parent. -/
structure IsTree (fs : FSNamespace) : Prop where
  names : ∀ d cs m, fs.heap.dir d = some (cs, m) → (cs.map fs.nameOf).Nodup
  map : ∀ d cs m, fs.heap.dir d = some (cs, m) → ∀ name c,
    m name = some c ↔ c ∈ cs ∧ fs.nameOf c = some name
  parent : ∀ d cs m, fs.heap.dir d = some (cs, m) → ∀ c ∈ cs,
    ∃ i, fs.heap.cell c = some i ∧ i.parent = some d
  root : ∃ r, fs.heap.cell fs.root = some r ∧ r.isDir = true ∧ r.name = ['/'] ∧
    r.parent = some fs.root
  rootName : ∀ p, fs.nameOf p = some ['/'] → p = fs.root
  climbs : ∀ p i, fs.heap.cell p = some i → ∃ k, climb fs.heap p k = some fs.root

theorem isTree_of_wellFormed {fs : FSNamespace} (hw : fs.heap.WellFormed fs.root) : IsTree fs where
  names d cs m hd := by
    refine List.Nodup.map_on (fun a ha b hb hab => ?_) (hw.nodup d cs m hd)
    obtain ⟨-, i, hi, -⟩ := hw.child d cs m hd a ha
    obtain ⟨-, j, hj, -⟩ := hw.child d cs m hd b hb
    have hij : j.name = i.name := by simpa [nameOf, hi, hj, eq_comm] using hab
    have hma := (hw.map d cs m hd i.name a).2 ⟨ha, i, hi, rfl⟩
    have hmb := (hw.map d cs m hd i.name b).2 ⟨hb, j, hj, hij⟩
    exact Option.some.inj (hma.symm.trans hmb)
  map d cs m hd name c := by
    rw [nameOf, Option.map_eq_some_iff]
    exact hw.map d cs m hd name c
  parent d cs m hd c hc := (hw.child d cs m hd c hc).2
  root := hw.rootDir
  rootName p hp := by
    obtain ⟨i, hi, hn⟩ := Option.map_eq_some_iff.1 hp
    exact hw.name_root hi hn
  climbs _ _ hp := hw.climb_root hp

end FSNamespace

open FSNamespace in
/-- Every namespace that calls on valid paths lead to is a tree, as long as `MakeDir` is not called
on a path with a file in it. So what `GetChild` finds, `DeleteChild` finds among the children, and
every such call has a result. -/
theorem namespace_tree {fs : FSNamespace} (h : fsCalls.Reach FSCall.ValidCall fs) :
    IsTree fs ∧
      (∀ d cs m name it, fs.heap.dir d = some (cs, m) → fs.heap.getChild d name = some (some it) →
        cs.find? (fun c => (fs.heap.cell c).map INode.name = some name) = some it) ∧
      ∀ call : FSCall, call.ValidCall fs → ∃ r, call.run fs = some r := by
  have hw := reach_wellFormed (fun _ _ hc => hc.1) h
  refine ⟨isTree_of_wellFormed hw, fun d cs m name it hd hget => ?_, fun call hc => ?_⟩
  · rw [Heap.getChild_eq hd] at hget
    exact hw.find_child hd (Option.some.inj hget)
  · obtain ⟨h', b, -, hrun⟩ := FSCall.run_spec hw hc
    exact ⟨_, hrun⟩

/-- A namespace just built. -/
def emptyFS : FSNamespace := FSNamespace.init fun _ => ⟨0, 0⟩

theorem reach_emptyFS {G : Runs.Guard FSNamespace FSCall} : fsCalls.Reach G emptyFS :=
  .init ⟨_, rfl⟩

/-- Below `/a` the directory `/a/b` is made and deleted, and two files are left. -/
theorem namespace_tree_files :
    ∃ fs cs m, fsCalls.Reach FSCall.ValidCall fs ∧ fs.heap.dir 1 = some (cs, m) ∧
      cs.length = 2 ∧ (cs.map fs.nameOf).Nodup ∧
      ∃ r, FSCall.run fs (.deleteDir ['/', 'a'] [] true) = some r := by
  let fs := fsCalls.run FSCall.ValidCall emptyFS
    [.makeDir (fun _ => ⟨0, 0⟩) ['/', 'a', '/', 'b'] [] true,
      .createFile (fun _ => ⟨0, 0⟩) ['/', 'a', '/', 'c'] [],
      .createFile (fun _ => ⟨0, 0⟩) ['/', 'a', '/', 'd'] [],
      .deleteDir ['/', 'a', '/', 'b'] [] true]
  have hs : fsCalls.Reach FSCall.ValidCall fs :=
    Runs.Sys.reach_run reach_emptyFS (by decide +kernel)
  obtain ⟨⟨cs, m⟩, hd⟩ : ∃ p, fs.heap.dir 1 = some p :=
    Option.isSome_iff_exists.1 (by decide +kernel)
  have hlen : (fs.heap.dir 1).map (·.1.length) = some 2 := by decide +kernel
  rw [hd] at hlen
  obtain ⟨htree, -, hcalls⟩ := namespace_tree hs
  exact ⟨fs, cs, m, hs, hd, Option.some.inj hlen, htree.names 1 cs m hd,
    hcalls _ (by decide +kernel)⟩

end RaftFS
