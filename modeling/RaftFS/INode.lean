import RaftFS.Protocol
import Mathlib.Data.Int.Notation
import Mathlib.Logic.Function.Basic

/-!
# Inodes

The inodes lie in a heap. A directory has its children twice, in order and by name, and each
inode points to its parent. An operation has no result where the source reads an inode as a
directory or a file that is not one, or reads past the end of a directory's children.
-/

namespace RaftFS

/-- Where an inode lies. -/
abbrev Ptr := ℕ

/-- What the clock reads and what memory holds where an inode is allocated. -/
structure Alloc where
  now : ℤ
  junk : ℤ

inductive INodeBody
  | file (size : ℤ)
  | dir (children : List Ptr) (childrenMap : Str → Option Ptr)

structure INode where
  name : Str
  owner : Str
  createTime : ℤ
  parent : Option Ptr
  body : INodeBody

namespace INode

def isDir (i : INode) : Bool :=
  match i.body with
  | .file _ => false
  | .dir _ _ => true

def isFile (i : INode) : Bool := !i.isDir

/-- A file is never the root. -/
def isRoot (i : INode) : Bool := i.isDir && i.name == ['/']

end INode

/-- The inodes allocated, and the next place. -/
structure Heap where
  cell : Ptr → Option INode
  fresh : Ptr

/-- The owner of an inode made without one. -/
def unknownOwner : Str := ['u', 'n', 'k', 'n', 'o', 'w', 'n']

namespace Heap

variable (h : Heap)

/-- A directory's children, in order and by name. -/
def dir (p : Ptr) : Option (List Ptr × (Str → Option Ptr)) :=
  match h.cell p with
  | some ⟨_, _, _, _, .dir children childrenMap⟩ => some (children, childrenMap)
  | _ => none

def write (p : Ptr) (i : INode) : Heap := { h with cell := Function.update h.cell p (some i) }

def free (p : Ptr) : Heap := { h with cell := Function.update h.cell p none }

def alloc (i : INode) : Heap × Ptr :=
  ({ cell := Function.update h.cell h.fresh (some i), fresh := h.fresh + 1 }, h.fresh)

def setDir (p : Ptr) (children : List Ptr) (childrenMap : Str → Option Ptr) : Heap :=
  match h.cell p with
  | some i => h.write p { i with body := .dir children childrenMap }
  | none => h

def getChild (d : Ptr) (childName : Str) : Option (Option Ptr) :=
  (h.dir d).map fun (_, childrenMap) => childrenMap childName

def isEmpty (d : Ptr) : Option Bool := (h.dir d).map fun (children, _) => children.isEmpty

/-- `AddChild` of an inode named `name`, whose parent is set to `d` where it is not. -/
def addChild (d newChild : Ptr) : Option Heap := do
  let i ← h.cell newChild
  let h := h.write newChild { i with parent := some d }
  let (children, childrenMap) ← h.dir d
  return h.setDir d (children ++ [newChild]) (Function.update childrenMap i.name (some newChild))

/-- `INodeDirectory::CreateFile`. The constructor it calls leaves the size unset. -/
def createFile (env : Ptr → Alloc) (d : Ptr) (fileName : Str) : Option (Heap × Option Ptr) := do
  if (← h.getChild d fileName).isSome then return (h, none)
  let (h, p) := h.alloc ⟨fileName, unknownOwner, (env h.fresh).now, some d,
    .file (env h.fresh).junk⟩
  let h ← h.addChild d p
  return (h, some p)

/-- `INodeDirectory::CreateDir`. -/
def createDir (env : Ptr → Alloc) (d : Ptr) (dirName : Str) : Option (Heap × Option Ptr) := do
  if (← h.getChild d dirName).isSome then return (h, none)
  let (h, p) := h.alloc ⟨dirName, unknownOwner, (env h.fresh).now, some d, .dir [] fun _ => none⟩
  let h ← h.addChild d p
  return (h, some p)

/-- `ListDirName`. -/
def listDirName (d : Ptr) : Option (List Str) := do
  let (children, _) ← h.dir d
  children.mapM fun c => (h.cell c).map INode.name

/-- The loop of `ToFileInfo` up the parents, from the one at `p`, with fuel for its rounds. -/
def pathTo : (fuel : ℕ) → (p : Option Ptr) → Str → Option Str
  | _, none, path => some path
  | 0, some _, _ => none
  | fuel + 1, some p, path => do
    let i ← h.cell p
    if !i.isRoot then pathTo fuel i.parent (i.name ++ '/' :: path)
    else return i.name ++ path

/-- `ToFileInfo`. The clock counts nanoseconds, and the info is in seconds. -/
def toFileInfo (file : Ptr) : Option FileInfo := do
  let i ← h.cell file
  match i.body with
  | .file size =>
    let path ← h.pathTo (h.fresh + 1) i.parent i.name
    return { path := path, size := size, creator := i.owner
             createTime := i.createTime.tdiv 1000000000 }
  | .dir _ _ => none

end Heap

mutual

/-- `DeleteChild`, with fuel for its recursion through `DeleteAllChild`. -/
def Heap.deleteChild (h : Heap) (d : Ptr) (childName : Str) (recursive : Bool) :
    ℕ → Option (Heap × Bool)
  | 0 => none
  | fuel + 1 => do
    let (children, _) ← h.dir d
    let it ← children.find? fun c => (h.cell c).map INode.name = some childName
    let i ← h.cell it
    let (h, empty) ← (if i.isDir then do
        if ← h.isEmpty it then some (h, true)
        else if recursive then Heap.deleteAllChild h it fuel
        else some (h, false)
      else some (h, true))
    if !empty then return (h, false)
    let (children, childrenMap) ← h.dir d
    return ((h.setDir d (children.erase it) (Function.update childrenMap childName none)).free it,
      true)

/-- `DeleteAllChild`: deletes the first child until there is none. -/
def Heap.deleteAllChild (h : Heap) (d : Ptr) : ℕ → Option (Heap × Bool)
  | 0 => none
  | fuel + 1 => do
    let (children, _) ← h.dir d
    match children with
    | [] => return (h, true)
    | front :: _ =>
      let i ← h.cell front
      let (h, deleted) ← Heap.deleteChild h d i.name true fuel
      if deleted then Heap.deleteAllChild h d fuel else return (h, false)

end

end RaftFS
