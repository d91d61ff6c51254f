import RaftFS.Proofs.Directories
import RaftFS.Proofs.Effects

/-!
# Directories without a name

`MakeDir` takes an empty last part for a name, and the other operations for the directory before it.
So they agree on the path of a directory just made as long as it does not end in a slash
(`makeDir_denotes_iff`). A directory without a name is the target of no path.
-/

namespace RaftFS

open FSNamespace

namespace FSNamespace

open Heap

variable {fs fs' : FSNamespace} {path : Str} {p d : Ptr} {i : INode} {name : Str}

theorem Plain.deletable (hp : fs.Plain) (hw : fs.heap.WellFormed fs.root)
    (hl : fs.Located path d name p) (hn : name ≠ []) (hi : fs.heap.cell p = some i)
    {kind : INode → Bool} (hk : kind i = true) (visitor : Str) {recursive : Bool}
    (hrec : recursive = true ∨ i.isFile = true) :
    fs.Deletable kind path visitor recursive d name p where
  toLocated := hl
  name_ne := hn
  inode := by
    refine ⟨i, hi, hk, ?_⟩
    rw [mayDelete, hp.owner p i hi (hw.child_ne_root hl.child), beq_self_eq_true, Bool.or_true]
  empty := by
    refine hrec.imp_right fun hfile cs m hd => ?_
    obtain ⟨j, hj, hb⟩ := dir_eq_some.1 hd
    obtain rfl := Option.some.inj (hi.symm.trans hj)
    simp [INode.isFile, INode.isDir, hb] at hfile

theorem deleteInode_of_deletable (hw : fs.heap.WellFormed fs.root) (hv : validatePath path = true)
    {kind : INode → Bool} {visitor : Str} {recursive : Bool}
    (hdel : fs.Deletable kind path visitor recursive d name p) :
    ∃ fs', fs.deleteInode kind path visitor recursive = some (fs', true) ∧
      ∀ q, fs.heap.Below p q → fs'.heap.cell q = none := by
  rcases deleteInode_cases hw hv kind visitor recursive with ⟨d', name', it, hdel', hrun⟩ |
    ⟨hnone, -⟩
  · obtain ⟨rfl, rfl, rfl⟩ := hdel.unique hw hdel'.toLocated
    refine ⟨_, hrun, fun q hb => pruned_cell_below (fun h0 => ?_) hb⟩
    exact hw.not_below_of_child hdel.child (h0 ▸ hb)
  · exact absurd hdel (hnone _ _ _)

/-- By the path of its way anybody deletes an inode with a name, with all below it. -/
theorem Plain.exists_deletion (hp : fs.Plain) (hw : fs.heap.WellFormed fs.root)
    (hi : fs.heap.cell p = some i) (hroot : p ≠ fs.root) (hn : i.name ≠ []) (visitor : Str) :
    ∃ call fs', FSCall.ValidPath fs call ∧ call.visitor? = some visitor ∧
      fs.target call.path = some p ∧ call.run fs = some (fs', true) ∧
      ∀ q, fs.heap.Below p q → fs'.heap.cell q = none := by
  obtain ⟨names, hway⟩ := hw.exists_way hi
  rcases names.eq_nil_or_concat' with rfl | ⟨parts, name, rfl⟩
  · exact absurd (Forest.Way.nil_iff.1 hway) hroot
  · have hsplit := splitPath_pathOf (by simp) (hw.way_slash hway)
    have hv : validatePath (pathOf (parts ++ [name])) = true := validatePath_pathOf _
    obtain ⟨d, hd, hc⟩ := Forest.Way.concat_iff.1 hway
    obtain ⟨rfl, -⟩ := hw.child_parent hc hi
    have hl : fs.Located (pathOf (parts ++ [i.name])) d i.name p := ⟨⟨parts, hsplit, hd⟩, hc⟩
    have htarget := (target_eq_some_iff hw hv).2 ⟨d, i.name, hn, hl⟩
    cases hk : i.isDir with
    | true =>
      have hdel := hp.deletable hw hl hn hi hk visitor (.inl rfl)
      obtain ⟨fs', hrun, hgone⟩ := deleteInode_of_deletable hw hv hdel
      exact ⟨.deleteDir _ visitor true, fs', hv, rfl, htarget, hrun, hgone⟩
    | false =>
      have hfile : i.isFile = true := by rw [INode.isFile, hk]; rfl
      have hdel : fs.Deletable INode.isFile (pathOf (parts ++ [i.name])) visitor false d i.name p :=
        hp.deletable hw hl hn hi hfile visitor (.inr hfile)
      obtain ⟨fs', hrun, hgone⟩ := deleteInode_of_deletable hw hv hdel
      exact ⟨.removeFile _ visitor, fs', hv, rfl, htarget, hrun, hgone⟩

theorem Plain.inReach (hp : fs.Plain) (hw : fs.heap.WellFormed fs.root)
    (hi : fs.heap.cell p = some i) (hroot : p ≠ fs.root) (hn : i.name ≠ []) : fs.InReach p := by
  obtain ⟨call, fs', hv, -, htarget, hrun, hgone⟩ := hp.exists_deletion hw hi hroot hn []
  exact ⟨call, hv, htarget, fs', hrun, hgone p .refl⟩

theorem InReach.name_ne (hw : fs.heap.WellFormed fs.root) (h : fs.InReach p)
    (hi : fs.heap.cell p = some i) : i.name ≠ [] := by
  obtain ⟨call, hv, htarget, -⟩ := h
  obtain ⟨d, name, hn, hl⟩ := (target_eq_some_iff hw hv).1 htarget
  rw [(hw.child_parent hl.child hi).1]
  exact hn

/-- What `MakeDir` has made is the last of the new directories, and the path leads to it. -/
theorem makeDir_new (hw : fs.heap.WellFormed fs.root) (hv : validatePath path = true)
    {env : Ptr → Alloc} {owner : Str} {makeParents : Bool}
    (hrun : fs.makeDir env path owner makeParents = some (fs', true))
    (hnew : fs.heap.cell p = none) (hway : fs'.heap.Way fs'.root (splitPath path) p) :
    fs'.heap.IsDir p := by
  cases hfile : fs.hasFile path with
  | false =>
    obtain ⟨old, names, e, hsplit, hold, hm, ⟨-, h⟩ | ⟨-, h⟩⟩ :=
      makeDir_cases hw hv hfile env owner makeParents
    · obtain ⟨rfl, -⟩ := Prod.mk.inj (Option.some.inj (h.symm.trans hrun))
      have hw' : (chain env fs.heap e names).WellFormed fs.root := wellFormed_chain names hw hm
      rw [hsplit] at hway
      obtain ⟨q, hq, hdir⟩ := chain_prefix env hw hold hm (List.prefix_refl _)
      exact hw'.way_unique hway hq ▸ hdir
    · cases h.symm.trans hrun
  | true =>
    rcases makeDir_file hw hfile env owner makeParents with h | h
    · cases h.symm.trans hrun
    · obtain ⟨rfl, -⟩ := Prod.mk.inj (Option.some.inj (h.symm.trans hrun))
      obtain ⟨i, hi⟩ := hw.way_cell hway
      cases hnew.symm.trans hi

/-- Without a call that makes one, there is no directory without a name. -/
theorem reach_named (h : fsCalls.Reach FSCall.NamedCall fs) :
    ∀ p i, fs.heap.cell p = some i → i.name ≠ [] := by
  refine h.inv (I := fun fs => ∀ p i, fs.heap.cell p = some i → i.name ≠ []) ?_ ?_
  · rintro _ ⟨env, rfl⟩ p i hi
    simp only [FSNamespace.init, Option.ite_none_right_eq_some, Option.some.injEq] at hi
    obtain ⟨-, rfl⟩ := hi
    exact List.cons_ne_nil _ _
  · intro fs call fs' hr hI hg hst p i hi
    obtain ⟨⟨_, b⟩, hrun, rfl⟩ := Option.map_eq_some_iff.1 hst
    have hw := reach_wellFormed (fun _ _ hc => hc.1) hr
    obtain ⟨-, he⟩ := FSCall.run_effect hw hg.1 hrun
    rcases he.cell hw hi with ⟨j, hj, hs⟩ | ⟨-, -, -, hnew⟩
    · rw [hs.name]
      exact hI p j hj
    · intro h0
      have := (hnew h0).2
      rw [hg.2] at this
      cases this

theorem way_named (hnamed : ∀ p i, fs.heap.cell p = some i → i.name ≠ []) {a : Ptr}
    {names : List Str} (hway : fs.heap.Way a names p) : [] ∉ names := by
  induction hway with
  | nil => exact List.not_mem_nil
  | cons hc _ ih =>
    obtain ⟨i, hi, rfl⟩ := hc.cell
    exact fun h0 => (List.mem_cons.1 h0).elim (fun h0 => hnamed _ i hi h0.symm) ih

/-- Where all inodes have names, a call that is such that it makes a directory without one does. -/
theorem exists_unnamed (hw : fs.heap.WellFormed fs.root)
    (hnamed : ∀ p i, fs.heap.cell p = some i → i.name ≠ []) {call : FSCall} {b : Bool}
    (hv : call.ValidPath fs) (hrun : call.run fs = some (fs', b))
    (hmakes : call.makesUnnamed fs = true) :
    ∃ p i, fs'.heap.cell p = some i ∧ p ≠ fs'.root ∧ i.name = [] := by
  cases call with
  | makeDir env path owner makeParents =>
    simp only [FSCall.makesUnnamed, Bool.and_eq_true, List.contains_iff_mem, Bool.not_eq_true',
      Bool.or_eq_true, decide_eq_true_eq] at hmakes
    obtain ⟨⟨hmem, hfile⟩, hmay⟩ := hmakes
    obtain ⟨old, names, e, hsplit, hway, hm, hcase⟩ :=
      makeDir_cases hw hv hfile env owner makeParents
    have hlen : makeParents = true ∨ names.length ≤ 1 := by
      refine hmay.imp_right fun hget => ?_
      obtain ⟨parts, name, hlast, -⟩ := exists_splitPath hv
      rcases getParentFolderAndChild_cases hw hlast with ⟨d, hd, hparts, -⟩ | ⟨-, hnone⟩
      · refine (hm.length_le_one_iff hway fun q hq => hw.way_unique hq hway).2
          fun pre hpre hne => ?_
        rw [← hsplit, hlast] at hpre hne
        exact exists_isDir_of_prefix hparts hd ((List.prefix_concat_iff.1 hpre).resolve_left hne)
      · exact absurd hnone hget
    rcases hcase with ⟨-, h⟩ | ⟨hnot, -⟩
    · obtain ⟨rfl, -⟩ := Prod.mk.inj (Option.some.inj (h.symm.trans hrun))
      have hmem' : [] ∈ names :=
        (List.mem_append.1 (hsplit ▸ hmem)).resolve_left (way_named hnamed hway)
      obtain ⟨k, hk, hk'⟩ := List.getElem_of_mem hmem'
      have hgrown : fs.heap.Grown (chain env fs.heap e names) env e names :=
        grown_chain names hw hm
      refine ⟨_, _, hgrown.made k [] (by rw [List.getElem?_eq_getElem hk, hk']), ?_, rfl⟩
      obtain ⟨r, hr, -⟩ := hw.rootDir
      exact ((hw.lt_fresh _ r hr).trans_le (Nat.le_add_right _ k)).ne'
    · exact absurd hlen hnot
  | _ => cases hmakes

/-- A directory just made is listed by the path it was made for, and deleted by it. -/
theorem makeDir_denotes (hw : fs.heap.WellFormed fs.root) (hw' : fs'.heap.WellFormed fs'.root)
    (hp : fs'.Plain) (hv : validatePath path = true) {env : Ptr → Alloc} {owner : Str}
    {makeParents : Bool} (hrun : fs.makeDir env path owner makeParents = some (fs', true))
    (hnew : fs.heap.cell p = none) (hway : fs'.heap.Way fs'.root (splitPath path) p)
    (hlast : (splitPath path).getLast? ≠ some []) :
    (∃ l, fs'.heap.listDirName p = some l ∧ fs'.listDir path = some l) ∧
      ∃ fs'', fs'.deleteDir path owner true = some (fs'', true) ∧ fs''.heap.cell p = none := by
  have hdir := makeDir_new hw hv hrun hnew hway
  obtain ⟨parts, name, hsplit, -⟩ := exists_splitPath hv
  rw [hsplit] at hway
  obtain ⟨d, hd, hc⟩ := Forest.Way.concat_iff.1 hway
  have hn : name ≠ [] := by simpa [hsplit] using hlast
  constructor
  · obtain ⟨l, hl⟩ := hw'.listDirName_iff.2 hdir
    refine ⟨l, hl, ?_⟩
    rcases getParentFolderAndChild_cases hw' hsplit with ⟨d', -, hd', hget⟩ | ⟨hnone, -⟩
    · obtain rfl := hw'.way_unique hd' hd
      simp [listDir, hget, hn, hw'.getChild_iff.2 hc, hl]
    · exact absurd hc.isDir (hnone d hd)
  · obtain ⟨i, hi, hk⟩ := isDir_iff.1 hdir
    have hl : fs'.Located path d name p := ⟨⟨parts, hsplit, hd⟩, hc⟩
    obtain ⟨fs'', hrun', hgone⟩ :=
      deleteInode_of_deletable hw' hv (hp.deletable hw' hl hn hi hk owner (.inl rfl))
    exact ⟨fs'', hrun', hgone p .refl⟩

end FSNamespace

/-- In every namespace that calls on valid paths lead to, a directory that `MakeDir` has just made
for a path is listed and deleted by that path just where the path does not end in a slash. Where no
call was such that it makes a directory without a name, every inode but the root has one and is
deleted by its path, and stays so just where the next call is not such either. -/
theorem makeDir_denotes_iff {fs : FSNamespace} (h : fsCalls.Reach FSCall.ValidPath fs) :
    (∀ path env owner makeParents fs' p, validatePath path = true →
      fs.makeDir env path owner makeParents = some (fs', true) → fs.heap.cell p = none →
      fs'.heap.Way fs'.root (splitPath path) p →
        ((∃ l, fs'.heap.listDirName p = some l ∧ fs'.listDir path = some l) ∧
            (∃ fs'', fs'.deleteDir path owner true = some (fs'', true) ∧
              fs''.heap.cell p = none) ↔
          (splitPath path).getLast? ≠ some [])) ∧
    (fsCalls.Reach FSCall.NamedCall fs →
      (∀ p i, fs.heap.cell p = some i → p ≠ fs.root → i.name ≠ [] ∧ fs.InReach p) ∧
      ∀ (call : FSCall) fs' b, call.ValidPath fs → call.run fs = some (fs', b) →
        ((∀ p i, fs'.heap.cell p = some i → p ≠ fs'.root → i.name ≠ [] ∧ fs'.InReach p) ↔
          call.NamedCall fs)) := by
  have hw := reach_wellFormed (fun _ _ hc => hc) h
  have hreach : ∀ {fs}, fsCalls.Reach FSCall.NamedCall fs → ∀ p i, fs.heap.cell p = some i →
      p ≠ fs.root → i.name ≠ [] ∧ fs.InReach p := by
    intro fs hn p i hi hroot
    have hw := reach_wellFormed (fun _ _ hc => hc.1) hn
    have hname := reach_named hn p i hi
    exact ⟨hname, (reach_plain (fun _ _ hc => hc.1) hn).inReach hw hi hroot hname⟩
  refine ⟨fun path env owner makeParents fs' p hv hrun hnew hway => ?_, fun hn => ⟨hreach hn, ?_⟩⟩
  · have hcall : FSCall.ValidPath fs (.makeDir env path owner makeParents) := hv
    have h' := FSCall.reach_run h hcall hrun
    have hw' := reach_wellFormed (fun _ _ hc => hc) h'
    constructor
    · rintro ⟨-, fs'', hdel, -⟩ hlast
      rcases deleteInode_cases hw' hv INode.isDir owner true with ⟨d, name, it, hdel', -⟩ |
        ⟨-, hrun'⟩
      · obtain ⟨parts, hs, -⟩ := hdel'.way
        rw [hs, List.getLast?_concat] at hlast
        exact hdel'.name_ne (Option.some.inj hlast)
      · cases hrun'.symm.trans hdel
    · exact makeDir_denotes hw hw' (reach_plain (fun _ _ hc => hc) h') hv hrun hnew hway
  · intro call fs' b hv hrun
    constructor
    · intro hall
      refine ⟨hv, ?_⟩
      by_contra hmakes
      obtain ⟨p, i, hi, hroot, hname⟩ :=
        exists_unnamed hw (reach_named hn) hv hrun (by simpa using hmakes)
      exact (hall p i hi hroot).1 hname
    · intro hg
      exact hreach (FSCall.reach_run hn hg hrun)

/-- `/d/e` is made, listed and deleted. -/
theorem makeDir_denotes_iff_nested :
    ∃ fs₁ fs₂,
      fileAndDir.makeDir (fun _ => ⟨0, 0⟩) ['/', 'd', '/', 'e'] [] true = some (fs₁, true) ∧
      (∃ l, fs₁.listDir ['/', 'd', '/', 'e'] = some l) ∧
      fs₁.deleteDir ['/', 'd', '/', 'e'] [] true = some (fs₂, true) := by
  obtain ⟨fs₁, b, hrun⟩ : ∃ fs₁ b,
      fileAndDir.makeDir (fun _ => ⟨0, 0⟩) ['/', 'd', '/', 'e'] [] true = some (fs₁, b) :=
    Prod.exists.1 (Option.isSome_iff_exists.1 (by decide +kernel))
  have hb : (fileAndDir.makeDir (fun _ => ⟨0, 0⟩) ['/', 'd', '/', 'e'] [] true).map Prod.snd =
      some true := by decide +kernel
  have hd : (fileAndDir.makeDir (fun _ => ⟨0, 0⟩) ['/', 'd', '/', 'e'] [] true).map
      (fun r => r.1.heap.getChild r.1.root ['d']) = some (some (some 2)) := by decide +kernel
  have he : (fileAndDir.makeDir (fun _ => ⟨0, 0⟩) ['/', 'd', '/', 'e'] [] true).map
      (fun r => r.1.heap.getChild 2 ['e']) = some (some (some 3)) := by decide +kernel
  rw [hrun] at hb hd he
  obtain rfl := Option.some.inj hb
  have hcall : FSCall.ValidPath fileAndDir
      (.makeDir (fun _ => ⟨0, 0⟩) ['/', 'd', '/', 'e'] [] true) := rfl
  have hw₁ := reach_wellFormed (fun _ _ hc => hc) (FSCall.reach_run reach_fileAndDir hcall hrun)
  have hway : fs₁.heap.Way fs₁.root (splitPath ['/', 'd', '/', 'e']) 3 := by
    rw [show splitPath ['/', 'd', '/', 'e'] = [['d'], ['e']] by decide +kernel]
    exact .cons (hw₁.getChild_iff.1 (Option.some.inj hd))
      (.cons (hw₁.getChild_iff.1 (Option.some.inj he)) .nil)
  have hnew : fileAndDir.heap.cell 3 = none := Option.isNone_iff_eq_none.1 (by decide +kernel)
  obtain ⟨⟨l, -, hl⟩, fs₂, hdel, -⟩ := ((makeDir_denotes_iff reach_fileAndDir).1 _ _ [] true fs₁ 3
    hcall hrun hnew hway).2 (by decide +kernel)
  exact ⟨fs₁, fs₂, hrun, ⟨l, hl⟩, hdel⟩

/-- For `/`, `MakeDir` makes a directory without a name in the root. `ListDir` lists the root by
that path, `DeleteDir` deletes nothing by it, and no path deletes the new directory. -/
theorem makeDir_denotes_slash :
    ∃ fs, fsCalls.Reach FSCall.ValidPath fs ∧
      emptyFS.makeDir (fun _ => ⟨0, 0⟩) ['/'] [] true = some (fs, true) ∧
      emptyFS.heap.cell 1 = none ∧ fs.heap.Way fs.root (splitPath ['/']) 1 ∧
      fs.heap.listDirName 1 = some [] ∧ fs.listDir ['/'] = some [[]] ∧
      fs.deleteDir ['/'] [] true = some (fs, false) ∧
      fs.nameOf 1 = some [] ∧ 1 ≠ fs.root ∧ ¬ fs.InReach 1 := by
  obtain ⟨fs, b, hrun⟩ : ∃ fs b, emptyFS.makeDir (fun _ => ⟨0, 0⟩) ['/'] [] true = some (fs, b) :=
    Prod.exists.1 (Option.isSome_iff_exists.1 (by decide +kernel))
  have hb : (emptyFS.makeDir (fun _ => ⟨0, 0⟩) ['/'] [] true).map (fun r => (r.2, r.1.root)) =
      some (true, 0) := by decide +kernel
  have hname : (emptyFS.makeDir (fun _ => ⟨0, 0⟩) ['/'] [] true).map
      (fun r => (r.1.heap.getChild r.1.root [], r.1.nameOf 1)) =
        some (some (some 1), some []) := by decide +kernel
  have hlist : (emptyFS.makeDir (fun _ => ⟨0, 0⟩) ['/'] [] true).map
      (fun r => (r.1.heap.listDirName 1, r.1.listDir ['/'])) =
        some (some [], some [[]]) := by decide +kernel
  have hdel : (emptyFS.makeDir (fun _ => ⟨0, 0⟩) ['/'] [] true).map
      (fun r => (r.1.deleteDir ['/'] [] true).map Prod.snd) = some (some false) := by decide +kernel
  rw [hrun] at hb hname hlist hdel
  simp only [Option.map_some, Option.some.injEq, Prod.mk.injEq] at hb hname hlist
  obtain ⟨rfl, hroot⟩ := hb
  obtain ⟨hg, hname⟩ := hname
  replace hdel := Option.some.inj hdel
  have hcall : FSCall.ValidPath emptyFS (.makeDir (fun _ => ⟨0, 0⟩) ['/'] [] true) := rfl
  have h : fsCalls.Reach FSCall.ValidPath fs := FSCall.reach_run reach_emptyFS hcall hrun
  have hw := reach_wellFormed (fun _ _ hc => hc) h
  have hv : validatePath ['/'] = true := rfl
  refine ⟨fs, h, hrun, Option.isNone_iff_eq_none.1 (by decide +kernel),
    .cons (hw.getChild_iff.1 hg) .nil, hlist.1, hlist.2, ?_, hname, by rw [hroot]; decide, ?_⟩
  · rcases deleteInode_cases hw hv INode.isDir [] true with ⟨_, _, _, -, hrun'⟩ | ⟨-, hrun'⟩
    · simp [deleteDir, hrun'] at hdel
    · exact hrun'
  · intro hin
    obtain ⟨i, hi, hn⟩ := Option.map_eq_some_iff.1 hname
    exact hin.name_ne hw hi hn

end RaftFS
