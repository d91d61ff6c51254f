import RaftFS.Proofs.Effects
import RaftFS.Proofs.Kinds

/-!
# Files

A file that `CreateFile` makes is all that is new, and `RemoveFile` on the same path takes just that
away again (`create_remove`). The info of a file has the path it was asked for by, character for
character (`getFileInfo_path`).
-/

namespace RaftFS

open FSNamespace

namespace Heap

variable {h : Heap} {root p d : Ptr} {i : INode} {name : Str} {cs : List Ptr}
  {m : Str → Option Ptr}

/-- `h'` is `h` with a new file, the last of the children of `d`. -/
structure WithFile (h h' : Heap) (env : Ptr → Alloc) (d : Ptr) (name : Str) : Prop where
  new : h.cell h.fresh = none
  file : h'.cell h.fresh = some (h.newFile env d name)
  top : h'.cell d = (h.cell d).map (INode.mapBody (.insert h.fresh name))
  same : ∀ p, p ≠ h.fresh → p ≠ d → h'.cell p = h.cell p

theorem WellFormed.cell_fresh (hw : WellFormed h root) : h.cell h.fresh = none := by
  rcases hf : h.cell h.fresh with _ | i
  · rfl
  · exact absurd (hw.lt_fresh _ i hf) (lt_irrefl _)

theorem WellFormed.withFile (hw : WellFormed h root) (hd : h.IsDir d) (env : Ptr → Alloc)
    (name : Str) : h.WithFile (h.inserted d (h.newFile env d name)) env d name where
  new := hw.cell_fresh
  file := inserted_cell_fresh
  top := inserted_cell_self (hw.ne_fresh hd)
  same _ hp hpd := inserted_cell_of_ne hp hpd

theorem erase_insert {c : Ptr} (hc : c ∉ cs) (hm : m name = none) :
    ((INodeBody.dir cs m).insert c name).erase c name = .dir cs m := by
  have hcs : (cs ++ [c]).erase c = cs := by
    rw [List.erase_append_right _ hc, List.erase_cons_head, List.append_nil]
  have hf : Function.update (Function.update m name (some c)) name none = m := by
    rw [Function.update_idem, ← hm, Function.update_eq_self]
  simp only [INodeBody.insert, INodeBody.erase, hcs, hf]

/-- A file put into a directory and taken out again leaves the heap as it was. -/
theorem WellFormed.pruned_inserted (hw : WellFormed h root) (hdir : h.dir d = some (cs, m))
    (hfree : m i.name = none) (hi : IsNew d i) (hfile : i.isFile = true) :
    (h.inserted d i).pruned d h.fresh i.name = { h with fresh := h.fresh + 1 } := by
  have hw₁ := hw.inserted hdir hfree hi
  have hd := hw.ne_fresh ⟨cs, m, hdir⟩
  obtain ⟨k, hk, hb⟩ := dir_eq_some.1 hdir
  have hbelow : ∀ p, (h.inserted d i).Below h.fresh p → p = h.fresh := by
    intro p hp
    by_contra hne
    obtain ⟨es, f, hes, -⟩ := hw₁.below_cases hp hne
    obtain ⟨j, hj, hjb⟩ := dir_eq_some.1 hes
    obtain rfl := Option.some.inj (inserted_cell_fresh.symm.trans hj)
    simp [INode.isFile, INode.isDir, hjb] at hfile
  refine eq_of_cell rfl fun p => ?_
  by_cases hpd : p = d
  · subst hpd
    have hnot : h.fresh ∉ cs := by
      intro hmem
      obtain ⟨-, j, hj, -⟩ := hw.child _ cs m hdir _ hmem
      exact (hw.lt_fresh _ j hj).ne rfl
    rw [pruned_cell_self, inserted_cell_self hd, hk]
    simp only [Option.map_some, INode.mapBody, hb, erase_insert hnot hfree]
    rw [← hb]
  · by_cases hf : p = h.fresh
    · subst hf
      rw [pruned_cell_below hpd .refl, hw.cell_fresh]
    · rw [pruned_cell_of_ne hpd fun h0 => hf (hbelow p h0), inserted_cell_of_ne hf hpd]

/-- The loop of `ToFileInfo` up the parents from `p` stops at `r`. -/
inductive EndsAt (h : Heap) : Option Ptr → Ptr → Prop
  | stop {p : Ptr} {i : INode} (hp : h.cell p = some i) (hroot : i.isRoot = true) :
    EndsAt h (some p) p
  | up {p r : Ptr} {i : INode} (hp : h.cell p = some i) (hroot : i.isRoot = false)
    (hup : EndsAt h i.parent r) : EndsAt h (some p) r

theorem WellFormed.isRoot_iff (hw : WellFormed h root) (hp : h.cell p = some i) :
    i.isRoot = true ↔ p = root := by
  constructor
  · intro h0
    exact hw.name_root hp (by simpa using (Bool.and_eq_true_iff.1 h0).2)
  · rintro rfl
    obtain ⟨r, hr, hd, hn, -⟩ := hw.rootDir
    obtain rfl := Option.some.inj (hr.symm.trans hp)
    rw [INode.isRoot, hd, hn]
    rfl

theorem WellFormed.endsAt (hw : WellFormed h root) (hb : h.Below root p) (hp : h.cell p = some i) :
    h.EndsAt (some p) root := by
  induction hb generalizing i with
  | refl => exact .stop hp ((hw.isRoot_iff hp).2 rfl)
  | @step p d hpd _ ih =>
    obtain ⟨j, hj, hpar, -⟩ := parentOf_eq_some_iff.1 hpd
    obtain rfl := Option.some.inj (hp.symm.trans hj)
    obtain ⟨-, cs, m, hd, -⟩ := hw.parent_lt hpd
    obtain ⟨k, hk, -⟩ := dir_eq_some.1 hd
    have hroot : i.isRoot = false := by
      rw [Bool.eq_false_iff, Ne, hw.isRoot_iff hp]
      rintro rfl
      exact hw.not_below_root (hw.parent_lt hpd).1.ne (.of_parent hpd)
    exact .up hp hroot (hpar ▸ ih hk)

end Heap

namespace FSNamespace

open Heap

variable {fs fs₁ : FSNamespace} {path owner : Str} {parts : List Str} {name : Str} {d : Ptr}
  {cs : List Ptr} {m : Str → Option Ptr} {env : Ptr → Alloc}

/-- The path leads to the file that is made for it. -/
theorem located_inserted (env : Ptr → Alloc) (hw : fs.heap.WellFormed fs.root)
    (hsplit : splitPath path = parts ++ [name]) (hs : '/' ∉ name)
    (hway : fs.heap.Way fs.root parts d) (hd : fs.heap.dir d = some (cs, m)) (hm : m name = none)
    (hfs₁ : fs₁ = { fs with heap := fs.heap.inserted d (fs.heap.newFile env d name) }) :
    fs₁.Located path d name fs.heap.fresh := by
  have hchild : ∀ e n c, fs₁.heap.Child e n c ↔
      fs.heap.Child e n c ∨ e = d ∧ n = name ∧ c = fs.heap.fresh := by
    subst hfs₁
    exact fun e n c => hw.inserted_child_iff hd hm (isNew_newFile env hs)
  have hroot : fs₁.root = fs.root := by rw [hfs₁]
  refine ⟨⟨parts, hsplit, ?_⟩, (hchild _ _ _).2 (.inr ⟨rfl, rfl, rfl⟩)⟩
  rw [hroot]
  exact Forest.Way.imp (fun e n c hc => (hchild e n c).2 (.inl hc)) hway

/-- `RemoveFile` takes a file just made away again, whoever asks. -/
theorem removeFile_inserted (hw : fs.heap.WellFormed fs.root) (hv : validatePath path = true)
    (hs : '/' ∉ name) (hn : name ≠ []) (hd : fs.heap.dir d = some (cs, m)) (hm : m name = none)
    (hfs₁ : fs₁ = { fs with heap := fs.heap.inserted d (fs.heap.newFile env d name) })
    (hl : fs₁.Located path d name fs.heap.fresh) (visitor : Str) : fs₁.removeFile path visitor =
      some ({ fs with heap := { fs.heap with fresh := fs.heap.fresh + 1 } }, true) := by
  have hnew : IsNew d (fs.heap.newFile env d name) := isNew_newFile env hs
  have hw₁ : fs₁.heap.WellFormed fs₁.root := by
    rw [hfs₁]
    exact hw.inserted hd hm hnew
  have hcell : fs₁.heap.cell fs.heap.fresh = some (fs.heap.newFile env d name) := by
    rw [hfs₁]
    exact inserted_cell_fresh
  rcases deleteInode_cases hw₁ hv INode.isFile visitor false with ⟨d', name', it, hdel, hrun⟩ |
    ⟨hnone, -⟩
  · obtain ⟨rfl, rfl, rfl⟩ := hl.unique hw₁ hdel.toLocated
    rw [removeFile, hrun, hfs₁]
    exact congrArg (fun h => some (FSNamespace.mk h fs.root fs.commitedIndex, true))
      (hw.pruned_inserted hd hm hnew rfl)
  · refine absurd ⟨hl, hn, ⟨_, hcell, rfl, ?_⟩, .inr fun es f he => ?_⟩ (hnone _ _ _)
    · rw [mayDelete, newFile, beq_self_eq_true, Bool.or_true]
    · obtain ⟨j, hj, hb⟩ := dir_eq_some.1 he
      obtain rfl := Option.some.inj (hcell.symm.trans hj)
      cases hb

end FSNamespace

/-- In every namespace that calls on valid paths lead to, `CreateFile` on a valid path that is a
success puts one file into a directory, which the path leads to, and `RemoveFile` by the same owner
takes it away again: but for the place used, all is as it was. If `CreateFile` is no success it
changes nothing. -/
theorem create_remove {fs : FSNamespace} (h : fsCalls.Reach FSCall.ValidPath fs) {path : Str}
    (hv : validatePath path = true) (env : Ptr → Alloc) (owner : Str) :
    ∃ fs₁ b, fs.createFile env path owner = some (fs₁, b) ∧ (b = false → fs₁ = fs) ∧
      (b = true →
        (∃ d name, fs.heap.WithFile fs₁.heap env d name ∧
          fs₁.Located path d name fs.heap.fresh ∧ fs₁.Names INode.isFile path ∧
          fs₁ = { fs with heap := fs₁.heap }) ∧
        fs₁.removeFile path owner =
          some ({ fs with heap := { fs.heap with fresh := fs.heap.fresh + 1 } }, true)) := by
  have hw := reach_wellFormed (fun _ _ hc => hc) h
  rcases createFile_cases hw hv env owner with hrun |
    ⟨parts, name, d, cs, m, hsplit, hn, hs, hway, hd, hm, hrun⟩
  · exact ⟨fs, false, hrun, fun _ => rfl, fun hb => absurd hb Bool.false_ne_true⟩
  · refine ⟨_, true, hrun, fun hb => absurd hb.symm Bool.false_ne_true, fun _ => ?_⟩
    have hl := located_inserted env hw hsplit hs hway hd hm rfl
    have hnew : Heap.IsNew d (fs.heap.newFile env d name) := Heap.isNew_newFile env hs
    have hw₁ := hw.inserted hd hm hnew
    refine ⟨⟨d, name, hw.withFile ⟨cs, m, hd⟩ env name, hl, ?_, rfl⟩,
      removeFile_inserted hw hv hs hn hd hm rfl hl owner⟩
    exact ⟨_, _, (target_eq_some_iff hw₁ hv).2 ⟨d, name, hn, hl⟩, Heap.inserted_cell_fresh, rfl⟩

/-- `/d/f` is created and removed again, and `/f` is there already. -/
theorem create_remove_nested :
    (∃ fs₁, fileAndDir.createFile (fun _ => ⟨0, 0⟩) ['/', 'd', '/', 'f'] [] = some (fs₁, true) ∧
      ∃ fs₂, fs₁.removeFile ['/', 'd', '/', 'f'] [] = some (fs₂, true) ∧
        fs₂.heap.cell = fileAndDir.heap.cell) ∧
    fileAndDir.createFile (fun _ => ⟨0, 0⟩) ['/', 'f'] [] = some (fileAndDir, false) := by
  obtain ⟨fs₁, b, hrun, -, hrest⟩ := create_remove reach_fileAndDir
    (show validatePath ['/', 'd', '/', 'f'] = true from rfl) (fun _ => ⟨0, 0⟩) []
  obtain ⟨fs₂, b₂, hrun₂, hsame, -⟩ := create_remove reach_fileAndDir
    (show validatePath ['/', 'f'] = true from rfl) (fun _ => ⟨0, 0⟩) []
  have hb : (fileAndDir.createFile (fun _ => ⟨0, 0⟩) ['/', 'd', '/', 'f'] []).map Prod.snd =
      some true := by decide +kernel
  have hb₂ : (fileAndDir.createFile (fun _ => ⟨0, 0⟩) ['/', 'f'] []).map Prod.snd =
      some false := by decide +kernel
  rw [hrun] at hb
  rw [hrun₂] at hb₂
  obtain rfl := Option.some.inj hb
  obtain rfl := Option.some.inj hb₂
  exact ⟨⟨fs₁, hrun, _, (hrest rfl).2, rfl⟩, by rw [hrun₂, hsame rfl]⟩

/-- In every namespace that calls on valid paths lead to, `GetFileInfo` on a valid path that leads
to a file is a success, and the info has that very path. The loop that finds it ends at the
root. -/
theorem getFileInfo_path {fs : FSNamespace} (h : fsCalls.Reach FSCall.ValidPath fs) {path : Str}
    (hv : validatePath path = true) {d f : Ptr} {child : Str} {i : INode}
    (hp : fs.getParentFolderAndChild path = some (some d, child))
    (hg : fs.heap.getChild d child = some (some f)) (hi : fs.heap.cell f = some i)
    (hfile : i.isFile = true) (info : FileInfo) :
    (∃ info', fs.getFileInfo path info = some (true, info') ∧ info'.path = path) ∧
      fs.heap.EndsAt i.parent fs.root := by
  have hw := reach_wellFormed (fun _ _ hc => hc) h
  have hc := hw.getChild_iff.1 hg
  obtain ⟨parts, name, hsplit, -⟩ := exists_splitPath hv
  obtain ⟨hway, rfl⟩ : fs.heap.Way fs.root parts d ∧ name = child := by
    rcases getParentFolderAndChild_cases hw hsplit with ⟨d', -, hway, hget⟩ | ⟨-, hget⟩
    · obtain ⟨hd, hn⟩ := Prod.mk.inj (Option.some.inj (hget.symm.trans hp))
      exact ⟨Option.some.inj hd ▸ hway, hn⟩
    · cases hget.symm.trans hp
  obtain ⟨hn, hpar⟩ := hw.child_parent hc hi
  have hne : name ≠ [] := hn ▸ (reach_plain (fun _ _ hc => hc) h).name f i hi hfile
  obtain ⟨size, hb⟩ : ∃ size, i.body = .file size := by
    rcases hb : i.body with size | ⟨cs, m⟩
    · exact ⟨size, rfl⟩
    · simp [INode.isFile, INode.isDir, hb] at hfile
  have hinfo := hw.toFileInfo_eq hway hc hi hb
  rw [← hsplit, pathOf_splitPath hv] at hinfo
  refine ⟨⟨{ path := path, size := size, creator := i.owner
             createTime := i.createTime.tdiv 1000000000 }, ?_, rfl⟩, ?_⟩
  · simp only [getFileInfo, hp, hg, hinfo, List.isEmpty_iff, if_neg hne, Option.bind_eq_bind,
      Option.bind_some, Option.pure_def]
  · obtain ⟨j, hj⟩ := hw.way_cell hway
    exact hpar ▸ hw.endsAt (hw.below_root hj) hj

/-- The file `/f` in the directory with an empty name, which `/` leads to in `MakeDir`. -/
def unnamedDir : FSNamespace := fsCalls.run FSCall.ValidPath emptyFS
  [.makeDir (fun _ => ⟨0, 0⟩) ['/'] [] true,
    .createFile (fun _ => ⟨0, 0⟩) ['/', '/', 'f'] []]

theorem reach_unnamedDir : fsCalls.Reach FSCall.ValidPath unnamedDir :=
  Runs.Sys.reach_run reach_emptyFS (by decide +kernel)

/-- The info of `//f` has both slashes. -/
theorem getFileInfo_path_slashes :
    ∃ info, unnamedDir.getFileInfo ['/', '/', 'f'] {} = some (true, info) ∧
      info.path = ['/', '/', 'f'] := by
  have hp : unnamedDir.getParentFolderAndChild ['/', '/', 'f'] = some (some 1, ['f']) := by
    decide +kernel
  have hg : unnamedDir.heap.getChild 1 ['f'] = some (some 2) := by decide +kernel
  have hfile : (unnamedDir.heap.cell 2).any INode.isFile = true := by decide +kernel
  obtain ⟨i, hi, hif⟩ := (Option.any_eq_true _ _).1 hfile
  exact (getFileInfo_path reach_unnamedDir rfl hp hg hi hif {}).1

end RaftFS
