import RaftFS.Proofs.Tree

/-!
# The kinds of inodes

`MakeDir`, `ListDir` and `GetFileInfo` take what `GetChild` finds for the kind they want, where the
other operations ask. They are right just where the path has no inode of the other kind there
(`kinds_iff`), and otherwise read a file as a directory or a directory as a file (`kinds_mixed`).
-/

namespace RaftFS

open FSNamespace

namespace Heap

variable {h : Heap} {root p : Ptr} {i : INode}

theorem exists_mapM {α β : Type} {f : α → Option β} : ∀ {l : List α},
    (∀ a ∈ l, ∃ b, f a = some b) → ∃ bs, l.mapM f = some bs ∧ l.map f = bs.map some
  | [], _ => ⟨[], rfl, rfl⟩
  | a :: l, hl => by
    obtain ⟨b, hb⟩ := hl a List.mem_cons_self
    obtain ⟨bs, hbs, hmap⟩ := exists_mapM fun x hx => hl x (List.mem_cons_of_mem a hx)
    exact ⟨b :: bs, by simp [List.mapM_cons, hb, hbs], by simp [hb, hmap]⟩

theorem WellFormed.listDirName_eq (hw : WellFormed h root) {d : Ptr} {cs : List Ptr}
    {m : Str → Option Ptr} (hd : h.dir d = some (cs, m)) : ∃ l, h.listDirName d = some l ∧
      cs.map (fun c => (h.cell c).map INode.name) = l.map some := by
  have hsome : ∀ c ∈ cs, ∃ name, (h.cell c).map INode.name = some name := by
    intro c hc
    obtain ⟨-, i, hi, -⟩ := hw.child d cs m hd c hc
    exact ⟨i.name, by rw [hi]; rfl⟩
  obtain ⟨l, hl, hmap⟩ := exists_mapM hsome
  exact ⟨l, by simp only [listDirName, hd, Option.bind_eq_bind, Option.bind_some, hl], hmap⟩

theorem WellFormed.listDirName_iff (hw : WellFormed h root) {d : Ptr} :
    (∃ l, h.listDirName d = some l) ↔ h.IsDir d := by
  constructor
  · rintro ⟨l, hl⟩
    by_contra hd
    simp [listDirName, dir_eq_none hd] at hl
  · rintro ⟨cs, m, hd⟩
    obtain ⟨l, hl, -⟩ := hw.listDirName_eq hd
    exact ⟨l, hl⟩

theorem WellFormed.toFileInfo_eq (hw : WellFormed h root) {d : Ptr} {parts : List Str} {name : Str}
    {size : ℤ} (hd : h.Way root parts d) (hc : h.Child d name p) (hi : h.cell p = some i)
    (hb : i.body = .file size) : h.toFileInfo p = some
      { path := pathOf (parts ++ [name]), size := size, creator := i.owner
        createTime := i.createTime.tdiv 1000000000 } := by
  obtain ⟨hn, hpar⟩ := hw.child_parent hc hi
  obtain ⟨j, hj⟩ := hw.way_cell hd
  have hpath := hw.pathTo_eq hd ((hw.lt_fresh d j hj).trans (Nat.lt_succ_self _)) name
  simp only [toFileInfo, hi, hb, hn, hpar, hpath, Option.bind_eq_bind, Option.bind_some,
    Option.pure_def]

theorem WellFormed.toFileInfo_iff (hw : WellFormed h root) (hp : h.cell p = some i) :
    (∃ info, h.toFileInfo p = some info) ↔ i.isFile = true := by
  rcases hb : i.body with size | ⟨cs, m⟩
  · obtain ⟨names, hway⟩ := hw.exists_way hp
    rcases names.eq_nil_or_concat' with rfl | ⟨parts, name, rfl⟩
    · obtain rfl := Forest.Way.nil_iff.1 hway
      obtain ⟨r, hr, hd, -⟩ := hw.rootDir
      obtain rfl := Option.some.inj (hr.symm.trans hp)
      simp [INode.isDir, hb] at hd
    · obtain ⟨d, hd, hc⟩ := Forest.Way.concat_iff.1 hway
      simp [hw.toFileInfo_eq hd hc hp hb, INode.isFile, INode.isDir, hb]
  · simp [toFileInfo, hp, INode.isFile, INode.isDir, hb]

end Heap

namespace FSNamespace

variable {fs : FSNamespace} {path : Str}

/-- What the lookup of a valid path comes to. -/
theorem lookup_cases (hw : fs.heap.WellFormed fs.root) (hv : validatePath path = true) :
    (fs.target path = none ∧ ((∃ child, fs.getParentFolderAndChild path = some (none, child)) ∨
      ∃ d child, fs.getParentFolderAndChild path = some (some d, child) ∧ fs.heap.IsDir d ∧
        (child = [] ∨ child ≠ [] ∧ fs.heap.getChild d child = some none))) ∨
    ∃ p i d child, fs.target path = some p ∧ fs.heap.cell p = some i ∧
      fs.getParentFolderAndChild path = some (some d, child) ∧ child ≠ [] ∧
      fs.heap.getChild d child = some (some p) := by
  obtain ⟨parts, child, hsplit, -⟩ := exists_splitPath hv
  rcases getParentFolderAndChild_cases hw hsplit with ⟨d, hd, -, hget⟩ | ⟨-, hget⟩
  · by_cases hempty : child = []
    · exact .inl ⟨by simp [target, hget, hempty], .inr ⟨d, child, hget, hd, .inl hempty⟩⟩
    · rcases hw.getChild_cases hd child with ⟨p, hc, ho⟩ | ⟨-, ho⟩
      · obtain ⟨i, hi, -⟩ := hc.cell
        exact .inr ⟨p, i, d, child, by simp [target, hget, hempty, ho], hi, hget, hempty, ho⟩
      · exact .inl ⟨by simp [target, hget, hempty, ho],
          .inr ⟨d, child, hget, hd, .inr ⟨hempty, ho⟩⟩⟩
  · exact .inl ⟨by simp [target, hget], .inl ⟨[], hget⟩⟩

theorem names_iff {p : Ptr} {i : INode} (ht : fs.target path = some p)
    (hi : fs.heap.cell p = some i) {kind : INode → Bool} :
    fs.Names kind path ↔ kind i = true := by
  constructor
  · rintro ⟨q, j, hq, hj, hk⟩
    obtain rfl := Option.some.inj (ht.symm.trans hq)
    obtain rfl := Option.some.inj (hi.symm.trans hj)
    exact hk
  · exact fun hk => ⟨p, i, ht, hi, hk⟩

theorem not_names {kind : INode → Bool} (ht : fs.target path = none) : ¬ fs.Names kind path := by
  rintro ⟨q, j, hq, -⟩
  rw [ht] at hq
  cases hq

theorem listDir_iff (hw : fs.heap.WellFormed fs.root) (hv : validatePath path = true) :
    (∃ l, fs.listDir path = some l) ↔ ¬ fs.Names INode.isFile path := by
  rcases lookup_cases hw hv with ⟨ht, h⟩ | ⟨p, i, d, child, ht, hi, hget, hempty, hp⟩
  · refine iff_of_true ?_ (not_names ht)
    rcases h with ⟨child, hget⟩ | ⟨d, child, hget, hd, hempty | ⟨hempty, hnone⟩⟩
    · exact ⟨[], by simp [listDir, hget]⟩
    · obtain ⟨l, hl⟩ := hw.listDirName_iff.2 hd
      exact ⟨l, by simp [listDir, hget, hempty, hl]⟩
    · exact ⟨[], by simp [listDir, hget, hempty, hnone]⟩
  · rw [names_iff ht hi]
    have hl : fs.listDir path = fs.heap.listDirName p := by simp [listDir, hget, hempty, hp]
    rw [hl, hw.listDirName_iff, Heap.isDir_iff]
    simp [hi, INode.isFile]

theorem getFileInfo_iff (hw : fs.heap.WellFormed fs.root) (hv : validatePath path = true)
    (info : FileInfo) :
    (∃ r, fs.getFileInfo path info = some r) ↔ ¬ fs.Names INode.isDir path := by
  rcases lookup_cases hw hv with ⟨ht, h⟩ | ⟨p, i, d, child, ht, hi, hget, hempty, hp⟩
  · refine iff_of_true ?_ (not_names ht)
    rcases h with ⟨child, hget⟩ | ⟨d, child, hget, hd, hempty | ⟨hempty, hnone⟩⟩
    · exact ⟨(true, info), by simp [getFileInfo, hget]⟩
    · exact ⟨(true, info), by simp [getFileInfo, hget, hempty]⟩
    · exact ⟨(false, info), by simp [getFileInfo, hget, hempty, hnone]⟩
  · rw [names_iff ht hi]
    have hl : fs.getFileInfo path info = (fs.heap.toFileInfo p).map fun info => (true, info) := by
      simp [getFileInfo, hget, hempty, hp, Option.map_eq_bind]
    rw [hl]
    have hiff := hw.toFileInfo_iff hi
    simp only [Option.map_eq_some_iff, INode.isFile, Bool.not_eq_true'] at hiff ⊢
    rw [← Bool.not_eq_false, not_not, ← hiff]
    exact ⟨fun ⟨_, info, h, _⟩ => ⟨info, h⟩, fun ⟨info, h⟩ => ⟨_, info, h, rfl⟩⟩

/-- `MakeDir` on a path with a file in it never reports a failure. -/
theorem makeDir_iff (hw : fs.heap.WellFormed fs.root) (hv : validatePath path = true)
    (env : Ptr → Alloc) (owner : Str) (makeParents : Bool) :
    ((∃ r, fs.makeDir env path owner makeParents = some r) ∧
      (fs.hasFile path = true → fs.makeDir env path owner makeParents = some (fs, false))) ↔
      fs.hasFile path = false := by
  constructor
  · rintro ⟨⟨r, hr⟩, hfalse⟩
    by_contra hfile
    have hfile' : fs.hasFile path = true := by simpa using hfile
    have hf := hfalse hfile'
    rcases makeDir_file hw hfile' env owner makeParents with h | h
    · cases h.symm.trans hf
    · have := (Prod.mk.inj (Option.some.inj (h.symm.trans hf))).2
      cases this
  · intro hfile
    refine ⟨?_, fun h0 => by rw [hfile] at h0; cases h0⟩
    obtain ⟨_, _, _, -, -, -, ⟨-, hrun⟩ | ⟨-, hrun⟩⟩ :=
      makeDir_cases hw hv hfile env owner makeParents
    · exact ⟨_, hrun⟩
    · exact ⟨_, hrun⟩

end FSNamespace

/-- In every namespace that calls on valid paths lead to: `MakeDir` reads nothing as the wrong kind,
and fails without a change on a path with a file in it, just where there is none in it. `ListDir`
reads nothing as the wrong kind just where the path does not name a file, and `GetFileInfo` just
where it does not name a directory. -/
theorem kinds_iff {fs : FSNamespace} (h : fsCalls.Reach FSCall.ValidPath fs) {path : Str}
    (hv : validatePath path = true) :
    (∀ env owner makeParents, ((∃ r, fs.makeDir env path owner makeParents = some r) ∧
        (fs.hasFile path = true → fs.makeDir env path owner makeParents = some (fs, false))) ↔
      fs.hasFile path = false) ∧
    ((∃ l, fs.listDir path = some l) ↔ ¬ fs.Names INode.isFile path) ∧
    ∀ info, (∃ r, fs.getFileInfo path info = some r) ↔ ¬ fs.Names INode.isDir path := by
  have hw := reach_wellFormed (fun _ _ hc => hc) h
  exact ⟨fun env owner makeParents => makeDir_iff hw hv env owner makeParents, listDir_iff hw hv,
    fun info => getFileInfo_iff hw hv info⟩

/-- The file `/f` and the directory `/d`. -/
def fileAndDir : FSNamespace := fsCalls.run FSCall.ValidPath emptyFS
  [.createFile (fun _ => ⟨0, 0⟩) ['/', 'f'] [], .makeDir (fun _ => ⟨0, 0⟩) ['/', 'd'] [] true]

theorem reach_fileAndDir : fsCalls.Reach FSCall.ValidPath fileAndDir :=
  Runs.Sys.reach_run reach_emptyFS (by decide +kernel)

/-- `/d` can be listed, and `/d/e` can be made in it. -/
theorem kinds_iff_right : (∃ l, fileAndDir.listDir ['/', 'd'] = some l) ∧
    ∀ env, ∃ r, fileAndDir.makeDir env ['/', 'd', '/', 'e'] [] false = some r := by
  obtain ⟨-, hlist, -⟩ := kinds_iff reach_fileAndDir (show validatePath ['/', 'd'] = true from rfl)
  obtain ⟨hmake, -⟩ :=
    kinds_iff reach_fileAndDir (show validatePath ['/', 'd', '/', 'e'] = true from rfl)
  exact ⟨hlist.2 (by decide +kernel), fun env => ((hmake env [] false).2 (by decide +kernel)).1⟩

/-- `/f/g` reads the file `/f` as a directory, and so does the list of `/f`, which `MakeDir` says it
has made. The info of `/d` reads the directory as a file. -/
theorem kinds_mixed : ∃ fs, fsCalls.Reach FSCall.ValidPath fs ∧
    fs.hasFile ['/', 'f'] = true ∧ fs.Names INode.isFile ['/', 'f'] ∧
    fs.Names INode.isDir ['/', 'd'] ∧
    fs.makeDir (fun _ => ⟨0, 0⟩) ['/', 'f', '/', 'g'] [] true = none ∧
    fs.makeDir (fun _ => ⟨0, 0⟩) ['/', 'f'] [] true = some (fs, true) ∧
    fs.listDir ['/', 'f'] = none ∧ fs.getFileInfo ['/', 'd'] {} = none := by
  have hw := reach_wellFormed (fun _ _ hc => hc) reach_fileAndDir
  have hfile : fileAndDir.hasFile ['/', 'f'] = true := by decide +kernel
  have hdir : fileAndDir.makeDir (fun _ => ⟨0, 0⟩) ['/', 'f'] [] true ≠ none := by
    rw [← Option.isSome_iff_ne_none]
    decide +kernel
  refine ⟨fileAndDir, reach_fileAndDir, hfile, by decide +kernel, by decide +kernel, ?_, ?_, ?_, ?_⟩
  · rw [← Option.isNone_iff_eq_none]
    decide +kernel
  · exact (makeDir_file hw hfile _ [] true).resolve_left hdir
  · decide +kernel
  · rw [← Option.isNone_iff_eq_none]
    decide +kernel

end RaftFS
