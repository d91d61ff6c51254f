import RaftFS.FSCalls
import RaftFS.Protocol
import RaftFS.Lib.Answers
import RaftFS.Lib.PathTree

/-!
# What the namespace is for

The namespace as a tree of names, with what each operation makes of it and answers. There is no
answer where a path goes through a file, a file is to be listed or a directory is asked for its
info. An empty last part of a path stands for the directory that the others lead to, which is
listed; nothing is made or deleted there but by `MakeDir`, to which it is a name.

`FSSpec` is the tree as a machine of its own. Besides the tree it counts the nodes that have ever
been made, for what there is to keep in a file depends on where it comes to lie.
-/

namespace RaftFS

open FSNamespace (splitPath)

/-- A tree of names. -/
abbrev FSTree (φ : Type) := PathTree Str φ

namespace FSTree

variable {φ : Type} (t : FSTree φ)

/-- `MakeDir`. What is there at the path passes for made. -/
def makeDir (absDir : Str) (makeParents : Bool) : Option (FSTree φ × Bool) :=
  if t.hasFile (splitPath absDir).dropLast then none
  else if makeParents || t.isDir (splitPath absDir).dropLast then
    some (t.mkdirs [] (splitPath absDir), true)
  else some (t, false)

/-- Deletes what is found at the parts, if it is empty or the deletion is recursive. -/
def deleteNode (found : Bool) (parts : List Str) (recursive : Bool) : FSTree φ × Bool :=
  if parts.getLast? ≠ some [] ∧ found = true ∧ (recursive = true ∨ t.names parts = []) then
    (t.cut parts, true)
  else (t, false)

/-- `DeleteDir`. -/
def deleteDir (absDir : Str) (recursive : Bool) : FSTree φ × Bool :=
  t.deleteNode (t.isDir (splitPath absDir)) (splitPath absDir) recursive

/-- `RemoveFile`. -/
def removeFile (fileName : Str) : FSTree φ × Bool :=
  t.deleteNode (t.isFile (splitPath fileName)) (splitPath fileName) false

/-- `CreateFile`, of a file with the data. -/
def createFile (newFile : Str) (data : φ) : FSTree φ × Bool :=
  match (splitPath newFile).getLast? with
  | some name =>
    if name ≠ [] ∧ t.CanMake (splitPath newFile).dropLast name then
      (t.make (splitPath newFile).dropLast name (.file data), true)
    else (t, false)
  | none => (t, false)

/-- `ListDir`. -/
def listDir (absDir : Str) : Option (List Str) :=
  if (splitPath absDir).getLast? = some [] then some (t.names (splitPath absDir).dropLast)
  else if t.isFile (splitPath absDir) then none
  else some (t.names (splitPath absDir))

/-- `GetFileInfo`, of a file that keeps what the clock read and what memory held. -/
def getFileInfo (t : FSTree Alloc) (filename : Str) (info : FileInfo) :
    Option (Bool × FileInfo) :=
  if (splitPath filename).getLast? = some [] ∨ t.isDir (splitPath filename).dropLast = false then
    some (true, info)
  else match t.find (splitPath filename) with
    | some (.file data) =>
      some (true, { path := filename, size := data.junk, creator := unknownOwner
                    createTime := data.now.tdiv 1000000000 })
    | some .dir => none
    | none => some (false, info)

end FSTree

/-- A call on the tree, where a file that is made keeps `data` of what there is to keep. -/
def FSCall.onTree {φ : Type} (data : (Ptr → Alloc) → φ) (t : FSTree φ) :
    FSCall → Option (FSTree φ × Bool)
  | .makeDir _ absDir _ makeParents => t.makeDir absDir makeParents
  | .deleteDir absDir _ recursive => some (t.deleteDir absDir recursive)
  | .createFile env newFile _ => some (t.createFile newFile (data env))
  | .removeFile fileName _ => some (t.removeFile fileName)

/-- The tree, and how many nodes have ever been made. -/
structure FSSpec where
  tree : FSTree Alloc
  made : ℕ

namespace FSSpec

def init : FSSpec where
  tree := .empty
  made := 1

/-- A call counts the nodes it makes. -/
def call (s : FSSpec) (c : FSCall) : Option (FSSpec × Bool) :=
  (c.onTree (fun env => env s.made) s.tree).map fun (t, b) =>
    ({ tree := t, made := s.made + (t.nodes.length - s.tree.nodes.length) }, b)

/-- The calls one after the other, and their answers. -/
def calls : FSSpec → List FSCall → Option (FSSpec × List Bool) := Answers.run call

end FSSpec

/-- The calls one after the other, and their answers. -/
def FSNamespace.calls : FSNamespace → List FSCall → Option (FSNamespace × List Bool) :=
  Answers.run FSCall.run

namespace FSTree

/-- A write as `FSUpdateLoop` has it done, on a tree whose files keep nothing. -/
def write (t : FSTree Unit) : MetaOp × Str → Option (FSTree Unit × Bool)
  | (.kMkdir, path) => t.makeDir path true
  | (.kRmdir, path) => some (t.deleteDir path true)
  | (.kCreate, path) => some (t.createFile path ())
  | (.kDelete, path) => some (t.removeFile path)
  | _ => none

/-- The writes one after the other, and their answers. -/
def writes : FSTree Unit → List (MetaOp × Str) → Option (FSTree Unit × List Bool) :=
  Answers.run write

end FSTree

end RaftFS
