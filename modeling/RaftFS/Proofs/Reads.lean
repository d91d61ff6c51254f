import RaftFS.ClientRPCService
import RaftFS.Proofs.Kinds

/-!
# What the reads answer

`GetFileInfo` answers a success where all parts but the last of a path lead nowhere, and `ListDir`
where the path leads nowhere, so that a client takes what is missing for there. Where the path leads
to what is asked for, the answers are right (`reads_iff`).
-/

namespace RaftFS

open FSNamespace

namespace FSNamespace

open Heap

variable {fs : FSNamespace} {path : Str} {p d : Ptr} {parts : List Str} {name : Str}

/-- The path names `p`. An empty last part stands for the directory the others lead to. -/
def Denotes (fs : FSNamespace) (path : Str) (p : Ptr) : Prop :=
  ∃ parts name, splitPath path = parts ++ [name] ∧
    (name = [] ∧ fs.heap.Way fs.root parts p ∧ fs.heap.IsDir p ∨
      name ≠ [] ∧ fs.heap.Way fs.root (parts ++ [name]) p)

/-- The answer is a success with the info of the file that the path names, or tells that the path
names no file. -/
def TellsFile (fs : FSNamespace) (path : Str) (resp : FileInfoResponse) : Prop :=
  (∃ p i size, fs.Denotes path p ∧ fs.heap.cell p = some i ∧ i.body = .file size ∧
    resp.status = .kOK ∧ resp.info =
      { path := path, size := size, creator := i.owner
        createTime := i.createTime.tdiv 1000000000 }) ∨
  (∀ p i, fs.Denotes path p → fs.heap.cell p = some i → i.isFile = false) ∧
    resp.status = .kNotFound

/-- The answer is a success with the names in the directory that the path names, each once, or tells
that the path names no directory. -/
def TellsDir (fs : FSNamespace) (path : Str) (resp : ListDirResponse) : Prop :=
  (∃ p l, fs.Denotes path p ∧ fs.heap.IsDir p ∧ resp.status = .kOK ∧ resp.dirList = some l ∧
    l.Nodup ∧ ∀ name, name ∈ l ↔ ∃ c, fs.heap.Child p name c) ∨
  (∀ p, fs.Denotes path p → ¬ fs.heap.IsDir p) ∧ resp.status = .kNotFound

theorem exists_split_iff {P : List Str → Str → Prop} (hsplit : splitPath path = parts ++ [name]) :
    (∃ parts name, splitPath path = parts ++ [name] ∧ P parts name) ↔ P parts name := by
  constructor
  · rintro ⟨parts', name', hs, h⟩
    obtain ⟨rfl, hn⟩ := List.append_inj' (hsplit.symm.trans hs) rfl
    obtain rfl := List.singleton_inj.1 hn
    exact h
  · exact fun h => ⟨parts, name, hsplit, h⟩

theorem denotes_iff (hsplit : splitPath path = parts ++ [name]) : fs.Denotes path p ↔
    name = [] ∧ fs.heap.Way fs.root parts p ∧ fs.heap.IsDir p ∨
      name ≠ [] ∧ ∃ d, fs.heap.Way fs.root parts d ∧ fs.heap.Child d name p := by
  have hway : (∃ d, fs.heap.Way fs.root parts d ∧ fs.heap.Child d name p) ↔
      fs.heap.Way fs.root (parts ++ [name]) p := Forest.Way.concat_iff.symm
  rw [hway]
  exact exists_split_iff hsplit

theorem exists_listDirName (hw : fs.heap.WellFormed fs.root) (hd : fs.heap.IsDir d) :
    ∃ l, fs.heap.listDirName d = some l ∧ l.Nodup ∧
      ∀ name, name ∈ l ↔ ∃ c, fs.heap.Child d name c := by
  obtain ⟨cs, m, hdir⟩ := hd
  obtain ⟨l, hl, hmap⟩ := hw.listDirName_eq hdir
  have htree := isTree_of_wellFormed hw
  have hnames : cs.map fs.nameOf = l.map some := hmap
  refine ⟨l, hl, ?_, fun name => ?_⟩
  · have hnodup := htree.names d cs m hdir
    rw [hnames] at hnodup
    exact hnodup.of_map
  · have hmem : name ∈ l ↔ some name ∈ cs.map fs.nameOf := by
      rw [hnames, List.mem_map_of_injective (Option.some_injective Str)]
    simp only [hmem, List.mem_map, hw.child_iff hdir, htree.map d cs m hdir]

/-- What the two handlers have to tell apart: where the path leads to. -/
theorem found_cases (hw : fs.heap.WellFormed fs.root) (hsplit : splitPath path = parts ++ [name]) :
    (fs.getParentFolderAndChild path = some (none, []) ∧
        (∀ d, fs.heap.Way fs.root parts d → ¬ fs.heap.IsDir d) ∧ ∀ p, ¬ fs.Denotes path p) ∨
      ∃ d, fs.heap.Way fs.root parts d ∧ fs.heap.IsDir d ∧
        fs.getParentFolderAndChild path = some (some d, name) ∧
        (∀ d', fs.heap.Way fs.root parts d' → d' = d) ∧
        (name = [] ∧ (∀ p, fs.Denotes path p ↔ p = d) ∨
          name ≠ [] ∧ ∀ p, fs.Denotes path p ↔ fs.heap.Child d name p) := by
  simp only [denotes_iff hsplit]
  rcases getParentFolderAndChild_cases hw hsplit with ⟨d, hd, hway, hget⟩ | ⟨hnone, hget⟩
  · have hunique : ∀ d', fs.heap.Way fs.root parts d' → d' = d := fun d' h' =>
      hw.way_unique h' hway
    refine .inr ⟨d, hway, hd, hget, hunique, ?_⟩
    by_cases hn : name = []
    · refine .inl ⟨hn, fun p => ⟨?_, ?_⟩⟩
      · rintro (⟨-, h', -⟩ | ⟨h0, -⟩)
        · exact hunique p h'
        · exact absurd hn h0
      · rintro rfl
        exact .inl ⟨hn, hway, hd⟩
    · refine .inr ⟨hn, fun p => ⟨?_, fun hc => .inr ⟨hn, d, hway, hc⟩⟩⟩
      rintro (⟨h0, -⟩ | ⟨-, d', h', hc⟩)
      · exact absurd h0 hn
      · exact hunique d' h' ▸ hc
  · refine .inl ⟨hget, hnone, fun p => ?_⟩
    rintro (⟨-, h', hd⟩ | ⟨-, d, h', hc⟩)
    · exact hnone p h' hd
    · exact hnone d h' hc.isDir

theorem listDir_child (hget : fs.getParentFolderAndChild path = some (some d, name))
    (hn : name ≠ []) : fs.listDir path = (fs.heap.getChild d name).bind fun target =>
      target.elim (some []) fs.heap.listDirName := by
  simp only [FSNamespace.listDir, hget, Option.bind_eq_bind, Option.bind_some,
    List.isEmpty_iff, if_neg hn]
  rcases fs.heap.getChild d name with _ | _ | c <;> rfl

theorem getFileInfo_child (hget : fs.getParentFolderAndChild path = some (some d, name))
    (hn : name ≠ []) (info : FileInfo) :
    fs.getFileInfo path info = (fs.heap.getChild d name).bind fun target =>
      target.elim (some (false, info)) fun file =>
        (fs.heap.toFileInfo file).map fun info => (true, info) := by
  simp only [FSNamespace.getFileInfo, hget, Option.bind_eq_bind, Option.bind_some,
    List.isEmpty_iff, if_neg hn]
  rcases fs.heap.getChild d name with _ | _ | c
  · rfl
  · rfl
  · simp only [Option.bind_some, Option.elim_some, Option.map_eq_bind]
    rfl

end FSNamespace

namespace ClientRPCService

open Heap

variable {fs : FSNamespace} {path : Str} {d c : Ptr} {parts : List Str} {name : Str}

theorem getFileInfo_eq (hv : validatePath path = true) : getFileInfo fs path =
    (fs.getFileInfo path {}).map fun r =>
      { status := if r.1 then .kOK else .kNotFound, info := r.2 } := by
  rw [getFileInfo, hv]
  rcases fs.getFileInfo path {} with _ | ⟨_ | _, info⟩ <;> rfl

theorem listDir_eq (hv : validatePath path = true) : listDir fs path =
    (fs.listDir path).map fun l => { status := .kOK, dirList := some l } := by
  rw [listDir, hv]
  rcases fs.listDir path with _ | l <;> rfl

section ListDir

theorem listDir_tells (hw : fs.heap.WellFormed fs.root) (hv : validatePath path = true)
    (hp : fs.Denotes path c) (hd : fs.heap.IsDir c) (hl : fs.listDir path = fs.heap.listDirName c) :
    ∃ resp, listDir fs path = some resp ∧ fs.TellsDir path resp := by
  obtain ⟨l, hlist, hnodup, hmem⟩ := exists_listDirName hw hd
  rw [hlist] at hl
  exact ⟨_, by rw [listDir_eq hv, hl]; rfl, .inl ⟨c, l, hp, hd, rfl, rfl, hnodup, hmem⟩⟩

theorem listDir_misleads (hv : validatePath path = true) (hl : fs.listDir path = some [])
    (hnone : ∀ p, ¬ fs.Denotes path p) :
    ¬ ∃ resp, listDir fs path = some resp ∧ fs.TellsDir path resp := by
  rintro ⟨resp, hresp, ⟨p, l, hp, -⟩ | ⟨-, hstatus⟩⟩
  · exact hnone p hp
  · rw [listDir_eq hv, hl] at hresp
    obtain rfl := Option.some.inj hresp
    cases hstatus

theorem tellsDir_iff (hw : fs.heap.WellFormed fs.root) (hv : validatePath path = true) :
    (∃ resp, listDir fs path = some resp ∧ fs.TellsDir path resp) ↔
      ∃ p, fs.Denotes path p ∧ fs.heap.IsDir p := by
  obtain ⟨parts, name, hsplit, -⟩ := exists_splitPath hv
  rcases found_cases hw hsplit with ⟨hget, -, hnone⟩ | ⟨d, -, hd, hget, -, ⟨hn, hden⟩ | ⟨hn, hden⟩⟩
  · refine iff_of_false (listDir_misleads hv ?_ hnone) (not_exists.2 fun p hp => hnone p hp.1)
    simp only [FSNamespace.listDir, hget, Option.bind_eq_bind, Option.bind_some, Option.pure_def]
  · have hp := (hden d).2 rfl
    refine iff_of_true (listDir_tells hw hv hp hd ?_) ⟨d, hp, hd⟩
    simp only [FSNamespace.listDir, hget, hn, Option.bind_eq_bind, Option.bind_some,
      List.isEmpty_nil, if_true]
  · have hl := listDir_child hget hn
    rcases hw.getChild_cases hd name with ⟨c, hc, hg⟩ | ⟨hc, hg⟩
    · rw [hg] at hl
      by_cases hcd : fs.heap.IsDir c
      · exact iff_of_true (listDir_tells hw hv ((hden c).2 hc) hcd hl) ⟨c, (hden c).2 hc, hcd⟩
      · refine iff_of_false ?_ ?_
        · rintro ⟨resp, hresp, -⟩
          obtain ⟨l, hl', -⟩ := Option.map_eq_some_iff.1 ((listDir_eq hv).symm.trans hresp)
          exact hcd (hw.listDirName_iff.1 ⟨l, hl.symm.trans hl'⟩)
        · rintro ⟨p, hp, hpd⟩
          exact hcd (hw.child_unique ((hden p).1 hp) hc ▸ hpd)
    · rw [hg] at hl
      have hnone : ∀ p, ¬ fs.Denotes path p := fun p hp => hc p ((hden p).1 hp)
      exact iff_of_false (listDir_misleads hv hl hnone) (not_exists.2 fun p hp => hnone p hp.1)

end ListDir

section GetFileInfo

theorem getFileInfo_misleads (hv : validatePath path = true)
    (hl : fs.getFileInfo path {} = some (true, {}))
    (hdir : ∀ p, fs.Denotes path p → fs.heap.IsDir p) :
    ¬ ∃ resp, getFileInfo fs path = some resp ∧ fs.TellsFile path resp := by
  rintro ⟨resp, hresp, ⟨p, i, size, hp, hi, hb, -⟩ | ⟨-, hstatus⟩⟩
  · obtain ⟨cs, m, hd⟩ := hdir p hp
    obtain ⟨j, hj, hjb⟩ := dir_eq_some.1 hd
    obtain rfl := Option.some.inj (hi.symm.trans hj)
    cases hb.symm.trans hjb
  · rw [getFileInfo_eq hv, hl] at hresp
    obtain rfl := Option.some.inj hresp
    cases hstatus

/-- A child with the name is a file, or it is a directory and there is no answer. -/
theorem getFileInfo_found (hw : fs.heap.WellFormed fs.root) (hv : validatePath path = true)
    (hsplit : splitPath path = parts ++ [name]) (hway : fs.heap.Way fs.root parts d)
    (hget : fs.getParentFolderAndChild path = some (some d, name)) (hn : name ≠ [])
    (hc : fs.heap.Child d name c) (hden : fs.Denotes path c) :
    (∃ resp, getFileInfo fs path = some resp ∧ fs.TellsFile path resp) ↔ ¬ fs.heap.IsDir c := by
  have hl := getFileInfo_child hget hn {}
  rw [hw.getChild_iff.2 hc, Option.bind_some, Option.elim_some] at hl
  obtain ⟨i, hi, -⟩ := hc.cell
  rcases hb : i.body with size | ⟨cs, m⟩
  · rw [hw.toFileInfo_eq hway hc hi hb, ← hsplit, pathOf_splitPath hv] at hl
    refine iff_of_true ⟨_, by rw [getFileInfo_eq hv, hl]; rfl,
      .inl ⟨c, i, size, hden, hi, hb, rfl, rfl⟩⟩ fun hd => ?_
    obtain ⟨j, hj, hjd⟩ := isDir_iff.1 hd
    obtain rfl := Option.some.inj (hi.symm.trans hj)
    simp [INode.isDir, hb] at hjd
  · -- the directory is read as a file
    have hnone : fs.heap.toFileInfo c = none := by simp [toFileInfo, hi, hb]
    rw [hnone] at hl
    refine iff_of_false ?_ (not_not.2 ⟨cs, m, dir_eq_some.2 ⟨i, hi, hb⟩⟩)
    rintro ⟨resp, hresp, -⟩
    rw [getFileInfo_eq hv, hl] at hresp
    cases hresp

theorem tellsFile_iff (hw : fs.heap.WellFormed fs.root) (hv : validatePath path = true) :
    (∃ resp, getFileInfo fs path = some resp ∧ fs.TellsFile path resp) ↔
      ∃ parts name d, splitPath path = parts ++ [name] ∧ fs.heap.Way fs.root parts d ∧
        fs.heap.IsDir d ∧ name ≠ [] ∧ ∀ c, fs.heap.Child d name c → ¬ fs.heap.IsDir c := by
  obtain ⟨parts, name, hsplit, -⟩ := exists_splitPath hv
  simp only [exists_and_left]
  rw [exists_split_iff hsplit]
  rcases found_cases hw hsplit with ⟨hget, hnot, hnone⟩ |
    ⟨d, hway, hd, hget, hunique, ⟨hn, hden⟩ | ⟨hn, hden⟩⟩
  · refine iff_of_false (getFileInfo_misleads hv ?_ fun p hp => absurd hp (hnone p)) ?_
    · simp only [FSNamespace.getFileInfo, hget, Option.bind_eq_bind, Option.bind_some,
        Option.pure_def]
    · rintro ⟨d, hway, hd, -⟩
      exact hnot d hway hd
  · refine iff_of_false (getFileInfo_misleads hv ?_ fun p hp => (hden p).1 hp ▸ hd) ?_
    · simp only [FSNamespace.getFileInfo, hget, hn, Option.bind_eq_bind, Option.bind_some,
        List.isEmpty_nil, if_true, Option.pure_def]
    · rintro ⟨d, -, -, h0, -⟩
      exact h0 hn
  · rcases hw.getChild_cases hd name with ⟨c, hc, hg⟩ | ⟨hc, hg⟩
    · rw [getFileInfo_found hw hv hsplit hway hget hn hc ((hden c).2 hc)]
      constructor
      · exact fun hnot => ⟨d, hway, hd, hn, fun c' hc' => hw.child_unique hc hc' ▸ hnot⟩
      · rintro ⟨d', hway', -, -, hall⟩
        exact hall c (hunique d' hway' ▸ hc)
    · have hl := getFileInfo_child hget hn {}
      rw [hg] at hl
      refine iff_of_true ⟨_, by rw [getFileInfo_eq hv, hl]; rfl, .inr ⟨fun p i hp => ?_, rfl⟩⟩
        ⟨d, hway, hd, hn, fun c hc' => absurd hc' (hc c)⟩
      exact absurd ((hden p).1 hp) (hc p)

end GetFileInfo

end ClientRPCService

/-- In every namespace that calls on valid paths lead to, the answer of `GetFileInfo` on a valid
path is right just where all parts but the last lead to a directory and the last is not empty and
does not name a directory in it, and that of `ListDir` just where the path names a directory. -/
theorem reads_iff {fs : FSNamespace} (h : fsCalls.Reach FSCall.ValidPath fs) {path : Str}
    (hv : validatePath path = true) :
    ((∃ resp, ClientRPCService.getFileInfo fs path = some resp ∧ fs.TellsFile path resp) ↔
      ∃ parts name d, splitPath path = parts ++ [name] ∧ fs.heap.Way fs.root parts d ∧
        fs.heap.IsDir d ∧ name ≠ [] ∧ ∀ c, fs.heap.Child d name c → ¬ fs.heap.IsDir c) ∧
    ((∃ resp, ClientRPCService.listDir fs path = some resp ∧ fs.TellsDir path resp) ↔
      ∃ p, fs.Denotes path p ∧ fs.heap.IsDir p) := by
  have hw := reach_wellFormed (fun _ _ hc => hc) h
  exact ⟨ClientRPCService.tellsFile_iff hw hv, ClientRPCService.tellsDir_iff hw hv⟩

/-- The root is listed with its children. -/
theorem reads_iff_root : ∃ resp, ClientRPCService.listDir fileAndDir ['/'] = some resp ∧
    fileAndDir.TellsDir ['/'] resp := by
  have hw := reach_wellFormed (fun _ _ hc => hc) reach_fileAndDir
  have hsplit : splitPath ['/'] = [] ++ [[]] := by decide +kernel
  refine (reads_iff reach_fileAndDir rfl).2.2 ⟨fileAndDir.root, ?_, hw.isDir_root⟩
  exact ⟨[], [], hsplit, .inl ⟨rfl, .nil, hw.isDir_root⟩⟩

/-- In the empty namespace nothing is at `/d` or at `/d/f`, but `ListDir` and `GetFileInfo` answer a
success. -/
theorem reads_missing : fsCalls.Reach FSCall.ValidPath emptyFS ∧
    ClientRPCService.listDir emptyFS ['/', 'd'] = some { status := .kOK, dirList := some [] } ∧
    (∀ resp, ClientRPCService.listDir emptyFS ['/', 'd'] = some resp →
      ¬ emptyFS.TellsDir ['/', 'd'] resp) ∧
    ClientRPCService.getFileInfo emptyFS ['/', 'd', '/', 'f'] =
      some { status := .kOK, info := {} } ∧
    ∀ resp, ClientRPCService.getFileInfo emptyFS ['/', 'd', '/', 'f'] = some resp →
      ¬ emptyFS.TellsFile ['/', 'd', '/', 'f'] resp := by
  have hw : emptyFS.heap.WellFormed emptyFS.root := wellFormed_init _
  have hroot : emptyFS.heap.getChild emptyFS.root ['d'] = some none := by decide +kernel
  have hchild : ∀ c, ¬ emptyFS.heap.Child emptyFS.root ['d'] c := by
    intro c hc
    cases hroot.symm.trans (hw.getChild_iff.2 hc)
  have hway : ∀ {names p}, ¬ emptyFS.heap.Way emptyFS.root (['d'] :: names) p := by
    intro names p hp
    obtain ⟨c, hc, -⟩ := Forest.Way.cons_iff.1 hp
    exact hchild c hc
  have hsplit : splitPath ['/', 'd'] = [] ++ [['d']] := by decide +kernel
  have hsplit' : splitPath ['/', 'd', '/', 'f'] = [['d']] ++ [['f']] := by decide +kernel
  have hv : validatePath ['/', 'd'] = true := rfl
  have hv' : validatePath ['/', 'd', '/', 'f'] = true := rfl
  refine ⟨reach_emptyFS, by decide +kernel, fun resp hresp htells => ?_, by decide +kernel,
    fun resp hresp htells => ?_⟩
  · obtain ⟨p, hp, -⟩ := (ClientRPCService.tellsDir_iff hw hv).1 ⟨resp, hresp, htells⟩
    rcases (denotes_iff hsplit).1 hp with ⟨h0, -⟩ | ⟨-, d, hd, hc⟩
    · cases h0
    · obtain rfl := Forest.Way.nil_iff.1 hd
      exact hchild p hc
  · obtain ⟨parts, name, d, hs, hd, -⟩ :=
      (ClientRPCService.tellsFile_iff hw hv').1 ⟨resp, hresp, htells⟩
    obtain ⟨rfl, -⟩ := List.append_inj' (hs.symm.trans hsplit') rfl
    exact hway hd

end RaftFS
