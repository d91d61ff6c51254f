import RaftFS.Proofs.Heap
import RaftFS.Proofs.Namespace
import RaftFS.Proofs.Threads

/-!
# Replicas

The nodes apply one log, each by its own clock and in its own memory. A restamp changes the creation
times and the sizes in a heap and leaves the rest of it, and the operations commute with it, so that
the namespaces of two replays of the same entries are restamps of one. They are read alike but for
what a restamp changes (`replicas_read_alike`). The namespace of a node is a replay of the entries
the node has applied (`trace_replayed`).
-/

namespace RaftFS

/-- What becomes of the times directories and files are created at and of the sizes, by where they
lie, and of the index up to which the log is applied. -/
structure Restamp where
  dirTime : Ptr → ℤ → ℤ
  fileTime : Ptr → ℤ → ℤ
  size : Ptr → ℤ → ℤ
  index : ℕ → ℕ

namespace Restamp

variable (r : Restamp)

def inode (p : Ptr) (i : INode) : INode :=
  match i.body with
  | .file size =>
    { i with createTime := r.fileTime p i.createTime, body := .file (r.size p size) }
  | .dir _ _ => { i with createTime := r.dirTime p i.createTime }

def heap (h : Heap) : Heap where
  cell := fun p => (h.cell p).map (r.inode p)
  fresh := h.fresh

def fs (fs : FSNamespace) : FSNamespace :=
  { fs with heap := r.heap fs.heap, commitedIndex := r.index fs.commitedIndex }

/-- The clock and the memory of `env'` are those of `env`, restamped. -/
structure Carries (env env' : Ptr → Alloc) : Prop where
  dirTime : ∀ p, (env' p).now = r.dirTime p (env p).now
  fileTime : ∀ p, (env' p).now = r.fileTime p (env p).now
  size : ∀ p, (env' p).junk = r.size p (env p).junk

section INode

variable {r} {p : Ptr} {i : INode}

@[simp] theorem inode_name : (r.inode p i).name = i.name := by
  unfold inode
  split <;> rfl

@[simp] theorem inode_owner : (r.inode p i).owner = i.owner := by
  unfold inode
  split <;> rfl

@[simp] theorem inode_parent : (r.inode p i).parent = i.parent := by
  unfold inode
  split <;> rfl

@[simp] theorem inode_isDir : (r.inode p i).isDir = i.isDir := by
  unfold inode
  split <;> simp_all [INode.isDir]

@[simp] theorem inode_isFile : (r.inode p i).isFile = i.isFile := by
  simp only [INode.isFile, inode_isDir]

@[simp] theorem inode_isRoot : (r.inode p i).isRoot = i.isRoot := by
  simp only [INode.isRoot, inode_isDir, inode_name]

end INode

section Heap

variable {r} {h : Heap} {p d : Ptr} {i : INode} {name : Str} {env env' : Ptr → Alloc}

@[simp] theorem heap_cell : (r.heap h).cell p = (h.cell p).map (r.inode p) := rfl

@[simp] theorem heap_fresh : (r.heap h).fresh = h.fresh := rfl

@[simp] theorem heap_dir : (r.heap h).dir d = h.dir d := by
  unfold Heap.dir
  rw [heap_cell]
  rcases h.cell d with _ | ⟨_, _, _, _, _ | _⟩ <;> rfl

theorem heap_update {o : Option INode} {fresh : Ptr} :
    Heap.mk (Function.update (r.heap h).cell p (o.map (r.inode p))) fresh =
      r.heap ⟨Function.update h.cell p o, fresh⟩ := by
  refine Heap.eq_of_cell rfl fun q => ?_
  rw [heap_cell]
  rcases eq_or_ne q p with rfl | hq
  · simp only [Function.update_self]
  · simp only [Function.update_of_ne hq, heap_cell]

theorem heap_write : (r.heap h).write p (r.inode p i) = r.heap (h.write p i) :=
  heap_update (o := some i)

@[simp] theorem heap_free : (r.heap h).free p = r.heap (h.free p) := heap_update (o := none)

theorem heap_setDir {cs cs' : List Ptr} {m m' : Str → Option Ptr} (hd : h.dir d = some (cs, m)) :
    (r.heap h).setDir d cs' m' = r.heap (h.setDir d cs' m') := by
  obtain ⟨i, hc, hi⟩ := Heap.dir_eq_some.1 hd
  unfold Heap.setDir
  rw [heap_cell, hc, Option.map_some, ← heap_write]
  simp only [inode, hi]

@[simp] theorem heap_getChild : (r.heap h).getChild d name = h.getChild d name := by
  simp only [Heap.getChild, heap_dir]

@[simp] theorem heap_isEmpty : (r.heap h).isEmpty d = h.isEmpty d := by
  simp only [Heap.isEmpty, heap_dir]

theorem heap_addChild : (r.heap h).addChild d p = (h.addChild d p).map r.heap := by
  simp only [Heap.addChild, heap_cell, Option.bind_eq_bind, Option.bind_map, Option.map_bind]
  refine Option.bind_congr fun i _ => ?_
  have hw : (r.heap h).write p { r.inode p i with parent := some d } =
      r.heap (h.write p { i with parent := some d }) := by
    rw [← heap_write]
    rcases i with ⟨_, _, _, _, _ | _⟩ <;> rfl
  simp only [Function.comp_apply, Option.map_bind]
  simp only [hw, heap_dir]
  refine Option.bind_congr fun dir hd => ?_
  simp only [Option.pure_def, Option.map_some, inode_name, heap_setDir hd]

theorem heap_alloc : (r.heap h).alloc (r.inode h.fresh i) = (h.alloc i).map r.heap id :=
  Prod.ext (heap_update (o := some i)) rfl

theorem heap_createFile (hr : r.Carries env env') :
    (r.heap h).createFile env' d name = (h.createFile env d name).map (Prod.map r.heap id) := by
  simp only [Heap.createFile, heap_getChild, Option.bind_eq_bind, Option.map_bind]
  refine Option.bind_congr fun o _ => ?_
  have ha := heap_alloc (r := r) (h := h) (i := ⟨name, unknownOwner, (env h.fresh).now, some d,
    .file (env h.fresh).junk⟩)
  simp only [inode, ← hr.fileTime, ← hr.size] at ha
  simp only [Function.comp_apply, heap_fresh, ha]
  split_ifs
  · rfl
  · simp only [Prod.map_fst, Prod.map_snd, id_eq, heap_addChild, Option.bind_map, Option.map_bind]
    rfl

theorem heap_createDir (hr : r.Carries env env') :
    (r.heap h).createDir env' d name = (h.createDir env d name).map (Prod.map r.heap id) := by
  simp only [Heap.createDir, heap_getChild, Option.bind_eq_bind, Option.map_bind]
  refine Option.bind_congr fun o _ => ?_
  have ha := heap_alloc (r := r) (h := h) (i := ⟨name, unknownOwner, (env h.fresh).now, some d,
    .dir [] fun _ => none⟩)
  simp only [inode, ← hr.dirTime] at ha
  simp only [Function.comp_apply, heap_fresh, ha]
  split_ifs
  · rfl
  · simp only [Prod.map_fst, Prod.map_snd, id_eq, heap_addChild, Option.bind_map, Option.map_bind]
    rfl

@[simp] theorem heap_pathTo : ∀ (fuel : ℕ) (o : Option Ptr) (path : Str),
    (r.heap h).pathTo fuel o path = h.pathTo fuel o path
  | 0, none, _ | _ + 1, none, _ | 0, some _, _ => rfl
  | fuel + 1, some p, path => by
    simp only [Heap.pathTo, heap_cell, Option.bind_eq_bind, Option.bind_map, heap_pathTo fuel]
    refine Option.bind_congr fun i _ => ?_
    simp only [Function.comp_apply, inode_isRoot, inode_parent, inode_name]

theorem cell_name : ((r.heap h).cell p).map INode.name = (h.cell p).map INode.name := by
  rw [heap_cell, Option.map_map]
  congr 1
  funext i
  exact inode_name

@[simp] theorem heap_listDirName : (r.heap h).listDirName d = h.listDirName d := by
  simp only [Heap.listDirName, heap_dir, cell_name]

/-- By induction on the fuel the two deletions share. -/
theorem heap_delete : ∀ k : ℕ,
    (∀ (h : Heap) (d : Ptr) (name : Str) (recursive : Bool),
      (r.heap h).deleteChild d name recursive k =
        (h.deleteChild d name recursive k).map (Prod.map r.heap id)) ∧
    ∀ (h : Heap) (d : Ptr),
      (r.heap h).deleteAllChild d k = (h.deleteAllChild d k).map (Prod.map r.heap id)
  | 0 => ⟨fun _ _ _ _ => by simp only [Heap.deleteChild, Option.map_none],
      fun _ _ => by simp only [Heap.deleteAllChild, Option.map_none]⟩
  | k + 1 => by
    obtain ⟨ihc, iha⟩ := heap_delete k
    refine ⟨fun h d name recursive => ?_, fun h d => ?_⟩
    · simp only [Heap.deleteChild, heap_dir, cell_name, Option.bind_eq_bind, Option.map_bind]
      refine Option.bind_congr fun dir _ => ?_
      simp only [Function.comp_apply, Option.map_bind]
      refine Option.bind_congr fun it _ => ?_
      rw [heap_cell, Option.bind_map]
      refine Option.bind_congr fun i _ => ?_
      have hempty : (if i.isDir then ((r.heap h).isEmpty it).bind fun empty =>
            if empty then some (r.heap h, true)
            else if recursive then (r.heap h).deleteAllChild it k else some (r.heap h, false)
          else some (r.heap h, true)) =
          (if i.isDir then (h.isEmpty it).bind fun empty => if empty then some (h, true)
            else if recursive then h.deleteAllChild it k else some (h, false)
          else some (h, true)).map (Prod.map r.heap id) := by
        split_ifs
        · rw [heap_isEmpty, Option.map_bind]
          refine Option.bind_congr fun empty _ => ?_
          rw [Function.comp_apply, iha]
          split_ifs <;> rfl
        · rw [heap_isEmpty, Option.map_bind]
          refine Option.bind_congr fun empty _ => ?_
          rw [Function.comp_apply]
          split_ifs <;> rfl
        · rfl
      simp only [Function.comp_apply, inode_isDir, hempty, Option.bind_map]
      refine Option.bind_congr fun result _ => ?_
      obtain ⟨h', empty⟩ := result
      simp only [Prod.map_apply, id_eq, heap_dir]
      split_ifs
      · rfl
      · rw [Option.map_bind]
        refine Option.bind_congr fun dir' hd => ?_
        simp only [Function.comp_apply, Option.pure_def, Option.map_some, Prod.map_apply, id_eq,
          heap_setDir hd, heap_free]
    · simp only [Heap.deleteAllChild, heap_dir, Option.bind_eq_bind, Option.map_bind]
      refine Option.bind_congr fun dir _ => ?_
      rcases dir with ⟨_ | ⟨front, cs⟩, m⟩
      · rfl
      · simp only [Function.comp_apply, heap_cell, Option.bind_map, Option.map_bind]
        refine Option.bind_congr fun i _ => ?_
        simp only [Function.comp_apply, inode_name, ihc, Option.bind_map]
        refine Option.bind_congr fun result _ => ?_
        obtain ⟨h', deleted⟩ := result
        simp only [Prod.map_apply, id_eq, iha]
        split_ifs <;> rfl

end Heap

section Namespace

open FSNamespace

variable {r} {h : Heap} {s : FSNamespace} {env env' : Ptr → Alloc} {path owner : Str}

@[simp] theorem parentFolder_heap : ∀ (parts : List Str) (current : Ptr),
    parentFolder (r.heap h) parts current = parentFolder h parts current
  | [], _ => rfl
  | part :: parts, current => by
    simp only [parentFolder, heap_getChild, Option.bind_eq_bind]
    refine Option.bind_congr fun next _ => ?_
    cases next with
    | none => rfl
    | some next =>
      simp only [heap_cell, Option.bind_map]
      refine Option.bind_congr fun i _ => ?_
      simp only [Function.comp_apply, inode_isDir, parentFolder_heap parts]

@[simp] theorem getParentFolderAndChild_fs :
    (r.fs s).getParentFolderAndChild path = s.getParentFolderAndChild path := by
  simp only [getParentFolderAndChild, fs, parentFolder_heap]

@[simp] theorem climb_heap : ∀ (k : ℕ) (p : Ptr), climb (r.heap h) p k = climb h p k
  | 0, _ => rfl
  | k + 1, p => by
    simp only [climb, heap_cell, Option.bind_eq_bind, Option.bind_map]
    refine Option.bind_congr fun i _ => ?_
    simp only [Function.comp_apply, inode_parent, climb_heap k]

/-- How the loop of `MakeDir` ends, restamped. -/
def exit : MakeDirExit → MakeDirExit
  | .returned h made => .returned (r.heap h) made
  | .left h current i newDir => .left (r.heap h) current i newDir

theorem makeDirLoop_heap (hr : r.Carries env env') (makeParents : Bool) :
    ∀ (parts : List Str) (h : Heap) (current : Ptr) (i newDir : ℕ),
      makeDirLoop env' makeParents parts (r.heap h) current i newDir =
        (makeDirLoop env makeParents parts h current i newDir).map r.exit
  | [], _, _, _, _ => rfl
  | part :: parts, h, current, i, newDir => by
    simp only [makeDirLoop, heap_getChild, heap_createDir hr, Option.bind_eq_bind,
      Option.map_bind, Option.bind_map]
    refine Option.bind_congr fun sub _ => ?_
    cases sub with
    | some sub => exact makeDirLoop_heap hr makeParents parts h sub (i + 1) newDir
    | none =>
      simp only [Function.comp_apply]
      generalize (if newDir = 0 then i else newDir) = missing
      split_ifs
      · rw [Option.map_bind]
        refine Option.bind_congr fun result _ => ?_
        obtain ⟨h', made⟩ := result
        exact makeDirLoop_heap hr makeParents parts h' current (i + 1) _
      · rw [Option.map_bind]
        refine Option.bind_congr fun result _ => ?_
        obtain ⟨h', made⟩ := result
        cases made with
        | none => rfl
        | some sub => exact makeDirLoop_heap hr makeParents parts h' sub (i + 1) _
      · rfl

theorem makeDir_fs (hr : r.Carries env env') {makeParents : Bool} :
    (r.fs s).makeDir env' path owner makeParents =
      (s.makeDir env path owner makeParents).map (Prod.map r.fs id) := by
  simp only [makeDir, fs, makeDirLoop_heap hr, Option.bind_eq_bind, Option.map_bind,
    Option.bind_map]
  refine Option.bind_congr fun exit _ => ?_
  cases exit with
  | returned h made => rfl
  | left h current i newDir =>
    simp only [Function.comp_apply, exit]
    split_ifs
    · simp only [climb_heap, Option.map_bind]
      refine Option.bind_congr fun current _ => ?_
      simp only [Function.comp_apply, Option.map_bind]
      refine Option.bind_congr fun part _ => ?_
      simp only [Function.comp_apply, deleteFuel, heap_fresh, (heap_delete _).1, Option.bind_map]
      rfl
    · rfl

theorem deleteInode_fs {kind : INode → Bool} (hk : ∀ p i, kind (r.inode p i) = kind i)
    {recursive : Bool} :
    (r.fs s).deleteInode kind path owner recursive =
      (s.deleteInode kind path owner recursive).map (Prod.map r.fs id) := by
  simp only [deleteInode, getParentFolderAndChild_fs, Option.bind_eq_bind, Option.map_bind]
  refine Option.bind_congr fun result _ => ?_
  obtain ⟨parent, child⟩ := result
  cases parent with
  | none => rfl
  | some parent =>
    simp only [Function.comp_apply]
    split_ifs
    · rfl
    · simp only [fs, heap_getChild, Option.map_bind]
      refine Option.bind_congr fun target _ => ?_
      cases target with
      | none => rfl
      | some target =>
        simp only [Function.comp_apply, heap_cell, Option.map_bind, Option.bind_map]
        refine Option.bind_congr fun i _ => ?_
        have hm : mayDelete (r.inode target i) owner = mayDelete i owner := by
          simp only [mayDelete, inode_owner]
        simp only [hk, hm]
        split_ifs
        · simp only [deleteFuel, heap_fresh, (heap_delete _).1, Option.bind_map, Option.map_bind]
          rfl
        · rfl

theorem createFile_fs (hr : r.Carries env env') :
    (r.fs s).createFile env' path owner =
      (s.createFile env path owner).map (Prod.map r.fs id) := by
  simp only [FSNamespace.createFile, getParentFolderAndChild_fs, Option.bind_eq_bind,
    Option.map_bind]
  refine Option.bind_congr fun result _ => ?_
  obtain ⟨parent, child⟩ := result
  cases parent with
  | none => rfl
  | some parent =>
    simp only [Function.comp_apply]
    split_ifs
    · rfl
    · simp only [fs, heap_createFile hr, Option.map_bind, Option.bind_map]
      rfl

theorem applyEntry_fs (hr : r.Carries env env') (e : Entry) :
    Node.applyEntry env' (r.fs s) e = (Node.applyEntry env s e).map (Prod.map r.fs id) := by
  unfold Node.applyEntry
  split
  case h_1 => simp only [makeDir_fs hr, Option.map_map]; rfl
  case h_2 => simp only [deleteDir, deleteInode_fs fun _ _ => inode_isDir, Option.map_map]; rfl
  case h_3 => simp only [createFile_fs hr, Option.map_map]; rfl
  case h_4 => simp only [removeFile, deleteInode_fs fun _ _ => inode_isFile, Option.map_map]; rfl
  case h_5 => rfl

theorem listDir_fs : (r.fs s).listDir path = s.listDir path := by
  have hh : (r.fs s).heap = r.heap s.heap := rfl
  simp only [listDir, getParentFolderAndChild_fs, hh, heap_listDirName, heap_getChild]

end Namespace

end Restamp

namespace FSNamespace

/-- The namespace after the entries, each applied by the clock and in the memory it comes with. -/
def replay (fs : FSNamespace) : List ((Ptr → Alloc) × Entry) → Option FSNamespace
  | [] => some fs
  | (env, e) :: l => do
    let (fs, _) ← Node.applyEntry env fs e
    replay fs l

theorem replay_append {l l' : List ((Ptr → Alloc) × Entry)} {fs : FSNamespace} :
    fs.replay (l ++ l') = (fs.replay l).bind fun fs => fs.replay l' := by
  induction l generalizing fs with
  | nil => rfl
  | cons a l ih =>
    simp only [List.cons_append, replay, Option.bind_eq_bind, Option.bind_assoc, ih]

/-- The namespace is what the entries make of the empty one, up to the index. -/
def Replayed (fs : FSNamespace) (l : List ((Ptr → Alloc) × Entry)) : Prop :=
  ∃ env fs', (init env).replay l = some fs' ∧ fs = fs'.setCommitedIndex fs.commitedIndex

end FSNamespace

namespace Restamp

open FSNamespace

variable {r : Restamp}

theorem replay_fs {l l' : List ((Ptr → Alloc) × Entry)} {s : FSNamespace}
    (h : List.Forall₂ (fun a b => r.Carries a.1 b.1 ∧ b.2 = a.2) l l') :
    (r.fs s).replay l' = (s.replay l).map r.fs := by
  induction h generalizing s with
  | nil => rfl
  | @cons a b l l' hab _ ih =>
    obtain ⟨env, e⟩ := a
    obtain ⟨env', e'⟩ := b
    obtain ⟨hr, rfl⟩ := hab
    simp only [replay, applyEntry_fs hr, Option.bind_eq_bind, Option.bind_map, Option.map_bind]
    exact Option.bind_congr fun _ _ => ih

/-- Nothing becomes of the heap. -/
def setIndex (m : ℕ) : Restamp where
  dirTime := fun _ t => t
  fileTime := fun _ t => t
  size := fun _ t => t
  index := fun _ => m

theorem setIndex_fs {m : ℕ} : (setIndex m).fs = (·.setCommitedIndex m) := by
  funext s
  have hi : ∀ p i, (setIndex m).inode p i = i := by
    rintro p ⟨_, _, _, _, _ | _⟩ <;> rfl
  have hh : (setIndex m).heap s.heap = s.heap := by
    refine Heap.eq_of_cell rfl fun p => ?_
    rw [heap_cell, funext (hi p), Option.map_id']
  simp only [fs, hh]
  rfl

end Restamp

theorem Node.applyEntry_setCommitedIndex {env : Ptr → Alloc} {fs : FSNamespace} {e : Entry}
    (m : ℕ) : applyEntry env (fs.setCommitedIndex m) e =
      (applyEntry env fs e).map (Prod.map (·.setCommitedIndex m) id) := by
  have hr : (Restamp.setIndex m).Carries env env := ⟨fun _ => rfl, fun _ => rfl, fun _ => rfl⟩
  have h := Restamp.applyEntry_fs (s := fs) hr e
  rwa [Restamp.setIndex_fs] at h

namespace Restamp

open FSNamespace

variable {l : List ((Ptr → Alloc) × Entry)} {env : Ptr → Alloc}

/-- What the clock reads and the memory holds where the `k`th of the entries is applied; a `k` past
the last stands for the last. -/
def reading (l : List ((Ptr → Alloc) × Entry)) (k : ℕ) : Ptr → Alloc :=
  match l[min k (l.length - 1)]? with
  | some (env, _) => env
  | none => fun _ => ⟨0, 0⟩

/-- From the place of an entry among those applied to what is read there, and from `-1` to what is
read at the start. -/
def readings (env : Ptr → Alloc) (l : List ((Ptr → Alloc) × Entry)) : Restamp where
  dirTime := fun p t => if t < 0 then (env p).now else (reading l t.toNat p).now
  fileTime := fun p t => (reading l t.toNat p).now
  size := fun p t => (reading l t.toNat p).junk
  index := id

/-- The entries, each by a clock that shows its place among them. -/
def placed (es : List Entry) : List ((Ptr → Alloc) × Entry) :=
  es.zipIdx.map fun (e, k) => (fun _ => ⟨k, k⟩, e)

theorem placed_readings :
    List.Forall₂ (fun a b => (readings env l).Carries a.1 b.1 ∧ b.2 = a.2)
      (placed (l.map Prod.snd)) l := by
  rw [List.forall₂_iff_get]
  refine ⟨by simp [placed], fun k _ hk => ?_⟩
  have hr : reading l k = l[k].1 := by
    unfold reading
    rw [min_eq_left (by omega), List.getElem?_eq_getElem hk]
  have hp : (placed (l.map Prod.snd)).get ⟨k, by simpa [placed] using hk⟩ =
      (fun _ => ⟨k, k⟩, l[k].2) := by
    simp [placed]
  rw [hp, List.get_eq_getElem]
  refine ⟨⟨fun p => ?_, fun p => ?_, fun p => ?_⟩, rfl⟩
  · simp only [readings, Int.toNat_natCast, hr]
    rw [if_neg (by omega)]
  · simp only [readings, Int.toNat_natCast, hr]
  · simp only [readings, Int.toNat_natCast, hr]

theorem init_readings :
    (readings env l).fs (FSNamespace.init fun _ => ⟨-1, 0⟩) = FSNamespace.init env := by
  have hh : (readings env l).heap (FSNamespace.init fun _ => ⟨-1, 0⟩).heap =
      (FSNamespace.init env).heap := by
    refine Heap.eq_of_cell rfl fun p => ?_
    simp only [heap_cell, FSNamespace.init]
    split_ifs with hp
    · subst hp
      rfl
    · rfl
  simp only [fs, hh]
  rfl

/-- Every replay of the entries is one by their places, restamped. -/
theorem exists_replay {fs : FSNamespace} (h : (FSNamespace.init env).replay l = some fs) :
    ∃ s, (FSNamespace.init fun _ => ⟨-1, 0⟩).replay (placed (l.map Prod.snd)) = some s ∧
      fs = (readings env l).fs s := by
  rw [← init_readings (l := l), replay_fs placed_readings, Option.map_eq_some_iff] at h
  obtain ⟨s, hs, rfl⟩ := h
  exact ⟨s, hs, rfl⟩

theorem toFileInfo_heap (r r' : Restamp) (h : Heap) (p : Ptr) :
    (r.heap h).toFileInfo p = none ∧ (r'.heap h).toFileInfo p = none ∨
      ∃ i size info info', h.cell p = some i ∧ i.body = .file size ∧
        (r.heap h).toFileInfo p = some info ∧ (r'.heap h).toFileInfo p = some info' ∧
        info.path = info'.path ∧ info.creator = info'.creator ∧
        info.createTime = (r.fileTime p i.createTime).tdiv 1000000000 ∧
        info'.createTime = (r'.fileTime p i.createTime).tdiv 1000000000 := by
  simp only [Heap.toFileInfo, heap_cell, heap_fresh, heap_pathTo]
  rcases h.cell p with _ | ⟨name, owner, time, parent, size | ⟨cs, m⟩⟩
  · exact .inl ⟨rfl, rfl⟩
  · cases hp : h.pathTo (h.fresh + 1) parent name with
    | none =>
      left
      simp [inode, hp]
    | some path =>
      right
      simp [inode, hp]
  · exact .inl ⟨rfl, rfl⟩

/-- What a path is looked up to is the same in all restamps of a namespace: nothing, the info as it
was, or the info of one inode. -/
theorem getFileInfo_fs (s : FSNamespace) (path : Str) :
    (∀ r info, (fs r s).getFileInfo path info = none) ∨
      (∃ rt, ∀ r info, (fs r s).getFileInfo path info = some (rt, info)) ∨
      ∃ p, ∀ r info, (fs r s).getFileInfo path info =
        ((heap r s.heap).toFileInfo p).map (Prod.mk true) := by
  have hh : ∀ r, (fs r s).heap = heap r s.heap := fun _ => rfl
  simp only [getFileInfo, getParentFolderAndChild_fs, hh, heap_getChild, Option.bind_eq_bind]
  cases s.getParentFolderAndChild path with
  | none => exact .inl fun _ _ => rfl
  | some parentChild =>
    obtain ⟨parent, child⟩ := parentChild
    simp only [Option.bind_some]
    cases parent with
    | none => exact .inr (.inl ⟨true, fun _ _ => rfl⟩)
    | some parent =>
      simp only
      split_ifs
      · exact .inr (.inl ⟨true, fun _ _ => rfl⟩)
      · cases s.heap.getChild parent child with
        | none => exact .inl fun _ _ => rfl
        | some target =>
          cases target with
          | none => exact .inr (.inl ⟨false, fun _ _ => rfl⟩)
          | some target =>
            refine .inr (.inr ⟨target, fun r info => ?_⟩)
            simp only [Option.bind_some, Option.pure_def, Option.map_eq_bind]
            rfl

theorem exists_reading {l l' : List ((Ptr → Alloc) × Entry)} (hl : l.map Prod.snd = l'.map Prod.snd)
    (hne : l ≠ []) (t : ℕ) :
    ∃ (k : ℕ) (e : Entry), l[k]? = some (reading l t, e) ∧ l'[k]? = some (reading l' t, e) := by
  have hlen : l.length = l'.length := by simpa using congrArg List.length hl
  have hpos := List.length_pos_iff.2 hne
  have hk : min t (l.length - 1) < l.length := by omega
  obtain ⟨⟨env, e⟩, hk⟩ : ∃ a, l[min t (l.length - 1)]? = some a :=
    ⟨_, List.getElem?_eq_getElem hk⟩
  have he : (l'[min t (l.length - 1)]?).map Prod.snd = some e := by
    rw [← List.getElem?_map, ← hl, List.getElem?_map, hk]
    rfl
  obtain ⟨⟨env', _⟩, hk', rfl⟩ := Option.map_eq_some_iff.1 he
  exact ⟨min t (l.length - 1), _, by rw [reading, hk], by rw [reading, ← hlen, hk']⟩

end Restamp

section Run

variable {n : ℕ}

open FSNamespace

/-- What a step of `FSUpdateLoop` makes of the namespace. -/
theorem Node.fsUpdateLoop_fs {nd nd' : Node n} {env : Ptr → Alloc}
    {applied : Option (ℕ × Entry × Option Bool)}
    (h : nd.fsUpdateLoop env = some (nd', applied)) :
    (applied = none ∧ ∃ m, nd'.fs = nd.fs.setCommitedIndex m) ∨
      ∃ i e rt, applied = some (i, e, rt) ∧ applyEntry env nd.fs e = some (nd'.fs, rt) := by
  simp only [fsUpdateLoop] at h
  split at h
  case h_8 =>
    simp only [Option.bind_eq_bind, Option.bind_eq_some_iff, Prod.exists] at h
    obtain ⟨e, -, fs, rt, hap, h⟩ := h
    simp only [Option.pure_def, Option.some.injEq, Prod.mk.injEq] at h
    obtain ⟨rfl, rfl⟩ := h
    exact .inr ⟨_, e, rt, rfl, hap⟩
  case h_3 => simp at h
  case h_9 =>
    simp only [Option.some.injEq, Prod.mk.injEq] at h
    obtain ⟨rfl, rfl⟩ := h
    exact .inl ⟨rfl, _, rfl⟩
  all_goals
    try split_ifs at h
    all_goals
      simp only [Option.some.injEq, Prod.mk.injEq] at h
      obtain ⟨rfl, rfl⟩ := h
      exact .inl ⟨rfl, _, rfl⟩

/-- The entry `x` applies in a step, with its clock and its memory. -/
def application (x : Fin n) : Cluster n × Action n → Option ((Ptr → Alloc) × Entry)
  | (s, .fsStep y env) =>
    if y = x then ((s.node x).fsUpdateLoop env).bind fun (_, applied) =>
      applied.map fun (_, e, _) => (env, e)
    else none
  | _ => none

theorem FSNamespace.Replayed.setCommitedIndex {fs : FSNamespace}
    {l : List ((Ptr → Alloc) × Entry)} (h : fs.Replayed l) (m : ℕ) :
    (fs.setCommitedIndex m).Replayed l := by
  obtain ⟨env, fs', hr, hfs⟩ := h
  exact ⟨env, fs', hr, by rw [hfs]; rfl⟩

theorem FSNamespace.Replayed.applyEntry {fs fs' : FSNamespace} {l : List ((Ptr → Alloc) × Entry)}
    {env : Ptr → Alloc} {e : Entry} {rt : Option Bool} (h : fs.Replayed l)
    (ha : Node.applyEntry env fs e = some (fs', rt)) : fs'.Replayed (l ++ [(env, e)]) := by
  obtain ⟨env₀, fs₀, hr, hfs⟩ := h
  rw [hfs, Node.applyEntry_setCommitedIndex, Option.map_eq_some_iff] at ha
  obtain ⟨⟨fs₁, _⟩, ha, he⟩ := ha
  obtain ⟨rfl, rfl⟩ := Prod.mk.inj he
  refine ⟨env₀, fs₁, ?_, rfl⟩
  rw [replay_append, hr, Option.bind_some, replay, ha]
  rfl

theorem step_fs {s s' : Cluster n} {a : Action n} (hst : s.step a = some s') (x : Fin n)
    (ha : ∀ y env, a ≠ .fsStep y env) : (s'.node x).fs = (s.node x).fs := by
  obtain ⟨t, hc, hr⟩ := Cluster.step_changes hst
  rw [(hr.frame x).1.fs]
  obtain ⟨_, hl, -⟩ := hc.local x
  generalize t.node x = nd at hl ⊢
  cases hl with
  | frame h => exact h.fs
  | aeHandle _ _ h => exact (Cluster.FSFrame.onAppendEntries h).fs
  | clientRequest => rfl
  | clientStep h => exact (Cluster.FSFrame.onMetaOperation h).fs
  | fsStep => exact absurd rfl (ha _ _)

/-- The namespace of `x` stays a replay of what `x` has applied. -/
theorem step_replayed {s s' : Cluster n} {a : Action n} (hst : s.step a = some s') (x : Fin n)
    {l : List ((Ptr → Alloc) × Entry)} (h : (s.node x).fs.Replayed l) :
    (s'.node x).fs.Replayed (l ++ (application x (s, a)).toList) := by
  cases a with
  | fsStep y env =>
    simp only [Cluster.step, Option.bind_eq_bind, Option.bind_eq_some_iff, Option.pure_def,
      Option.some.injEq, Prod.exists] at hst
    obtain ⟨nd, applied, hfs, rfl⟩ := hst
    simp only [application, Cluster.log, Cluster.setNode]
    rcases eq_or_ne y x with rfl | hne
    · rw [if_pos rfl, Function.update_self, hfs, Option.bind_some]
      rcases Node.fsUpdateLoop_fs hfs with ⟨rfl, m, hm⟩ | ⟨i, e, rt, rfl, hap⟩
      · rw [hm, Option.map_none, Option.toList_none, List.append_nil]
        exact h.setCommitedIndex m
      · exact h.applyEntry hap
    · rw [if_neg hne, Function.update_of_ne hne.symm, Option.toList_none, List.append_nil]
      exact h
  | _ =>
    rw [step_fs hst x (by simp)]
    change (s.node x).fs.Replayed (l ++ [])
    rwa [List.append_nil]

/-- In any run the namespace of a node is a replay of the entries the node has applied. -/
theorem trace_replayed {G : Runs.Guard (Cluster n) (Action n)}
    {steps : List (Cluster n × Action n)} {s : Cluster n} (h : (cluster n).Trace G steps s)
    (x : Fin n) : (s.node x).fs.Replayed (steps.reverse.filterMap (application x)) := by
  refine h.inv (I := fun steps s =>
    (s.node x).fs.Replayed (steps.reverse.filterMap (application x))) ?_ ?_
  · rintro _ ⟨env, junk, rfl⟩
    exact ⟨env x, _, rfl, rfl⟩
  · intro steps s a s' _ hI _ hst
    have hone : [(s, a)].filterMap (application x) = (application x (s, a)).toList := by
      rw [List.filterMap_cons]
      cases application x (s, a) <;> rfl
    rw [List.reverse_cons, List.filterMap_append, hone]
    exact step_replayed hst x hI

end Run

open FSNamespace

/-- Two nodes that have applied the same entries list every path alike and look up every path with
the same result, path and creator. The creation time of a file is on each of them what its own clock
read, in whole seconds, when it applied the same one of the entries. -/
theorem replicas_read_alike {fs₁ fs₂ : FSNamespace} {l₁ l₂ : List ((Ptr → Alloc) × Entry)}
    (h₁ : fs₁.Replayed l₁) (h₂ : fs₂.Replayed l₂) (hl : l₁.map Prod.snd = l₂.map Prod.snd)
    (path : Str) (info : FileInfo) :
    fs₁.listDir path = fs₂.listDir path ∧
    (fs₁.getFileInfo path info = none ∧ fs₂.getFileInfo path info = none ∨
      ∃ rt info₁ info₂, fs₁.getFileInfo path info = some (rt, info₁) ∧
        fs₂.getFileInfo path info = some (rt, info₂) ∧
        info₁.path = info₂.path ∧ info₁.creator = info₂.creator ∧
        (info₁ = info ∧ info₂ = info ∨
          ∃ (k : ℕ) (env₁ env₂ : Ptr → Alloc) (e : Entry) (p : Ptr),
            l₁[k]? = some (env₁, e) ∧ l₂[k]? = some (env₂, e) ∧
            info₁.createTime = (env₁ p).now.tdiv 1000000000 ∧
            info₂.createTime = (env₂ p).now.tdiv 1000000000)) := by
  obtain ⟨env₁, fs₁', hr₁, hfs₁⟩ := h₁
  obtain ⟨env₂, fs₂', hr₂, hfs₂⟩ := h₂
  obtain ⟨s, hs, rfl⟩ := Restamp.exists_replay hr₁
  obtain ⟨s', hs', rfl⟩ := Restamp.exists_replay hr₂
  obtain rfl : s = s' := by rw [hl, hs', Option.some.injEq] at hs; exact hs.symm
  rw [hfs₁, hfs₂]
  refine ⟨Restamp.listDir_fs.trans Restamp.listDir_fs.symm, ?_⟩
  rcases Restamp.getFileInfo_fs s path with hnone | ⟨rt, hsame⟩ | ⟨p, hfile⟩
  · exact .inl ⟨hnone _ info, hnone _ info⟩
  · exact .inr ⟨rt, info, info, hsame _ info, hsame _ info, rfl, rfl, .inl ⟨rfl, rfl⟩⟩
  · rcases Restamp.toFileInfo_heap (Restamp.readings env₁ l₁) (Restamp.readings env₂ l₂) s.heap p
      with ⟨hn₁, hn₂⟩ | ⟨i, size, info₁, info₂, hi, hsize, hs₁, hs₂, hpath, hcreator, ht₁, ht₂⟩
    · exact .inl ⟨(hfile _ info).trans (by rw [hn₁]; rfl), (hfile _ info).trans (by rw [hn₂]; rfl)⟩
    · refine .inr ⟨true, info₁, info₂, (hfile _ info).trans (by rw [hs₁]; rfl),
        (hfile _ info).trans (by rw [hs₂]; rfl), hpath, hcreator, .inr ?_⟩
      have hne : l₁ ≠ [] := by
        rintro rfl
        obtain rfl := Option.some.inj hs
        simp only [FSNamespace.init, Option.ite_none_right_eq_some, Option.some.injEq] at hi
        rw [← hi.2] at hsize
        cases hsize
      obtain ⟨k, e, hk₁, hk₂⟩ := Restamp.exists_reading hl hne i.createTime.toNat
      exact ⟨k, _, _, e, p, hk₁, hk₂, ht₁, ht₂⟩

/-- Each of two nodes has made the file `/f`. -/
theorem replicas_read_alike_file :
    ∃ (fs₁ fs₂ : FSNamespace) (rt : Bool) (info₁ info₂ : FileInfo),
      fs₁.listDir ['/', 'f'] = fs₂.listDir ['/', 'f'] ∧
      fs₁.getFileInfo ['/', 'f'] {} = some (rt, info₁) ∧
      fs₂.getFileInfo ['/', 'f'] {} = some (rt, info₂) ∧
      info₁.path = info₂.path ∧ info₁.creator = info₂.creator := by
  let e : Entry := ⟨1, 1, .kCreate, ['/', 'f']⟩
  let l₁ : List ((Ptr → Alloc) × Entry) := [(fun _ => ⟨5000000000, 0⟩, e)]
  let l₂ : List ((Ptr → Alloc) × Entry) := [(fun _ => ⟨9000000000, 1⟩, e)]
  let env : Ptr → Alloc := fun _ => ⟨0, 0⟩
  let fs₁ := ((FSNamespace.init env).replay l₁).get (by decide +kernel)
  let fs₂ := ((FSNamespace.init env).replay l₂).get (by decide +kernel)
  have h₁ : fs₁.Replayed l₁ := ⟨env, fs₁, (Option.some_get _).symm, rfl⟩
  have h₂ : fs₂.Replayed l₂ := ⟨env, fs₂, (Option.some_get _).symm, rfl⟩
  have hsome : (fs₁.getFileInfo ['/', 'f'] {}).isSome = true := by decide +kernel
  obtain ⟨hlist, ⟨hnone, -⟩ | ⟨rt, info₁, info₂, hi₁, hi₂, hpath, hcreator, -⟩⟩ :=
    replicas_read_alike h₁ h₂ rfl ['/', 'f'] {}
  · rw [hnone] at hsome
    cases hsome
  · exact ⟨fs₁, fs₂, rt, info₁, info₂, hlist, hi₁, hi₂, hpath, hcreator⟩

/-- The size that `GetFileInfo` returns is what memory held on each node, and the time is what each
clock read. -/
theorem replicas_read_apart :
    ∃ (fs₁ fs₂ : FSNamespace) (l₁ l₂ : List ((Ptr → Alloc) × Entry)), fs₁.Replayed l₁ ∧
      fs₂.Replayed l₂ ∧ l₁.map Prod.snd = l₂.map Prod.snd ∧
      ∃ path info info₁ info₂, fs₁.getFileInfo path info = some (true, info₁) ∧
        fs₂.getFileInfo path info = some (true, info₂) ∧ info₁.size ≠ info₂.size ∧
        info₁.createTime ≠ info₂.createTime := by
  let e : Entry := ⟨1, 1, .kCreate, ['/', 'f']⟩
  let l₁ : List ((Ptr → Alloc) × Entry) := [(fun _ => ⟨5000000000, 0⟩, e)]
  let l₂ : List ((Ptr → Alloc) × Entry) := [(fun _ => ⟨9000000000, 1⟩, e)]
  let env : Ptr → Alloc := fun _ => ⟨0, 0⟩
  let fs₁ := ((FSNamespace.init env).replay l₁).get (by decide +kernel)
  let fs₂ := ((FSNamespace.init env).replay l₂).get (by decide +kernel)
  have h₁ : fs₁.Replayed l₁ := ⟨env, fs₁, (Option.some_get _).symm, rfl⟩
  have h₂ : fs₂.Replayed l₂ := ⟨env, fs₂, (Option.some_get _).symm, rfl⟩
  exact ⟨fs₁, fs₂, l₁, l₂, h₁, h₂, rfl, ['/', 'f'], {}, ⟨['/', 'f'], 0, unknownOwner, 5⟩,
    ⟨['/', 'f'], 1, unknownOwner, 9⟩, by decide +kernel, by decide +kernel, by decide, by decide⟩

end RaftFS
