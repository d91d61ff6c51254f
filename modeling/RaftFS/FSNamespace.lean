import RaftFS.INode

/-!
# The namespace

The operations a log entry is applied with, and those that only read, on the tree below the root.
There is no result where an operation of an inode has none.
-/

namespace RaftFS

structure FSNamespace where
  heap : Heap
  root : Ptr
  commitedIndex : ℕ

namespace FSNamespace

variable (fs : FSNamespace) (env : Ptr → Alloc)

/-- The empty namespace: the root directory, which is its own parent. -/
def init : FSNamespace where
  heap :=
    { cell := fun p => if p = 0 then
        some ⟨['/'], ['r', 'a', 'f', 't', 'f', 's'], (env 0).now, some 0, .dir [] fun _ => none⟩
        else none
      fresh := 1 }
  root := 0
  commitedIndex := 0

def setCommitedIndex (newIndex : ℕ) : FSNamespace := { fs with commitedIndex := newIndex }

def validatePath (path : Str) : Bool := path.head? == some '/'

/-- The parts between the slashes, without the one before the first. -/
def splitPath (absPath : Str) : List Str := (absPath.splitOn '/').tail

/-- The walk of `GetParentFolderAndChild` over all parts but the last. -/
def parentFolder (h : Heap) : List Str → Ptr → Option (Option Ptr)
  | [], current => some (some current)
  | part :: parts, current => do
    match ← h.getChild current part with
    | none => return none
    | some next =>
      let i ← h.cell next
      if i.isDir then parentFolder h parts next else return none

/-- `GetParentFolderAndChild`. -/
def getParentFolderAndChild (absPath : Str) : Option (Option Ptr × Str) :=
  if absPath = ['/'] then some (some fs.root, [])
  else do
    let last ← (splitPath absPath).getLast?
    match ← parentFolder fs.heap (splitPath absPath).dropLast fs.root with
    | none => return (none, [])
    | some current => return (some current, last)

/-- How the loop of `MakeDir` ends: it returns, or it goes on to the code after it. -/
inductive MakeDirExit
  | returned (h : Heap) (made : Bool)
  | left (h : Heap) (current : Ptr) (i newDir : ℕ)

/-- The loop of `MakeDir` over the parts from the `i`th on. It goes to what a part names whether
or not that is a directory. -/
def makeDirLoop (makeParents : Bool) :
    List Str → Heap → Ptr → (i newDir : ℕ) → Option MakeDirExit
  | [], h, current, i, newDir => some (.left h current i newDir)
  | part :: parts, h, current, i, newDir => do
    match ← h.getChild current part with
    | some sub => makeDirLoop makeParents parts h sub (i + 1) newDir
    | none =>
      if parts.isEmpty then
        let (h, made) ← h.createDir env current part
        makeDirLoop makeParents parts h current (i + 1) (if made.isSome then 0 else newDir)
      else
        let newDir := if newDir = 0 then i else newDir
        if makeParents then
          let (h, made) ← h.createDir env current part
          match made with
          | some sub => makeDirLoop makeParents parts h sub (i + 1) newDir
          | none => return .left h current i newDir
        else return .returned h false

/-- `k` steps up from `p`. -/
def climb (h : Heap) (p : Ptr) : ℕ → Option Ptr
  | 0 => some p
  | k + 1 => do climb h (← (← h.cell p).parent) k

/-- More fuel than a deletion of any tree in the heap needs. -/
def deleteFuel (h : Heap) : ℕ := 2 * h.fresh + 2

/-- `MakeDir`. The owner is not used. -/
def makeDir (absDir : Str) (_owner : Str) (makeParents : Bool) : Option (FSNamespace × Bool) := do
  let dirSplit := splitPath absDir
  match ← makeDirLoop env makeParents dirSplit fs.heap fs.root 0 0 with
  | .returned h made => return ({ fs with heap := h }, made)
  | .left h current i newDir =>
    if newDir ≠ 0 ∧ newDir ≠ i then
      let current ← climb h current (i - (newDir - 1))
      let part ← dirSplit[newDir]?
      let (h, _) ← h.deleteChild current part true (deleteFuel h)
      return ({ fs with heap := h }, false)
    else return ({ fs with heap := h }, true)

/-- The visitor may delete the inode. -/
def mayDelete (i : INode) (visitor : Str) : Bool := i.owner == visitor || i.owner == unknownOwner

/-- What `DeleteDir` and `RemoveFile` share: they delete what the path names if it is of the kind
`kind` tests for and the visitor may delete it. -/
def deleteInode (kind : INode → Bool) (path visitor : Str) (recursive : Bool) :
    Option (FSNamespace × Bool) := do
  match ← fs.getParentFolderAndChild path with
  | (none, _) => return (fs, false)
  | (some parent, child) =>
    if child.isEmpty then return (fs, false)
    match ← fs.heap.getChild parent child with
    | none => return (fs, false)
    | some target =>
      let i ← fs.heap.cell target
      if kind i && mayDelete i visitor then
        let (h, deleted) ← fs.heap.deleteChild parent child recursive (deleteFuel fs.heap)
        return ({ fs with heap := h }, deleted)
      else return (fs, false)

def deleteDir (absDir visitor : Str) (recursive : Bool) : Option (FSNamespace × Bool) :=
  fs.deleteInode INode.isDir absDir visitor recursive

def removeFile (fileName visitor : Str) : Option (FSNamespace × Bool) :=
  fs.deleteInode INode.isFile fileName visitor false

/-- `CreateFile`. The owner is not used. -/
def createFile (newFile : Str) (_owner : Str) : Option (FSNamespace × Bool) := do
  match ← fs.getParentFolderAndChild newFile with
  | (none, _) => return (fs, false)
  | (some parent, child) =>
    if child.isEmpty then return (fs, false)
    let (h, file) ← fs.heap.createFile env parent child
    return ({ fs with heap := h }, file.isSome)

/-- `ListDir`. It lists what the path names whether or not that is a directory. -/
def listDir (absDir : Str) : Option (List Str) := do
  match ← fs.getParentFolderAndChild absDir with
  | (none, _) => return []
  | (some parent, child) =>
    if child.isEmpty then fs.heap.listDirName parent
    else
      match ← fs.heap.getChild parent child with
      | none => return []
      | some targetDir => fs.heap.listDirName targetDir

/-- `GetFileInfo`, and the info, which stays as it is where there is no path to look up. It reads
what the path names as a file whether or not that is one. -/
def getFileInfo (filename : Str) (info : FileInfo) : Option (Bool × FileInfo) := do
  match ← fs.getParentFolderAndChild filename with
  | (none, _) => return (true, info)
  | (some parent, child) =>
    if child.isEmpty then return (true, info)
    match ← fs.heap.getChild parent child with
    | none => return (false, info)
    | some targetFile => return (true, ← fs.heap.toFileInfo targetFile)

end FSNamespace

end RaftFS
