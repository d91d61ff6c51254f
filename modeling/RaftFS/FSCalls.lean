import RaftFS.FSNamespace
import RaftFS.Lib.Runs

/-!
# Calls of the namespace

The namespace as a system of its own, whose steps are the calls that change it. A call that has no
result is not a step.
-/

namespace RaftFS

inductive FSCall
  | makeDir (env : Ptr → Alloc) (absDir owner : Str) (makeParents : Bool)
  | deleteDir (absDir visitor : Str) (recursive : Bool)
  | createFile (env : Ptr → Alloc) (newFile owner : Str)
  | removeFile (fileName visitor : Str)

namespace FSCall

def path : FSCall → Str
  | .makeDir _ absDir _ _ => absDir
  | .deleteDir absDir _ _ => absDir
  | .createFile _ newFile _ => newFile
  | .removeFile fileName _ => fileName

def run (fs : FSNamespace) : FSCall → Option (FSNamespace × Bool)
  | .makeDir env absDir owner makeParents => fs.makeDir env absDir owner makeParents
  | .deleteDir absDir visitor recursive => fs.deleteDir absDir visitor recursive
  | .createFile env newFile owner => fs.createFile env newFile owner
  | .removeFile fileName visitor => fs.removeFile fileName visitor

def isMakeDir : FSCall → Bool
  | .makeDir _ _ _ _ => true
  | .deleteDir _ _ _ | .createFile _ _ _ | .removeFile _ _ => false

/-- A call on a valid path. -/
def ValidPath (_ : FSNamespace) (call : FSCall) : Prop :=
  FSNamespace.validatePath call.path = true

instance (fs : FSNamespace) (call : FSCall) : Decidable (ValidPath fs call) :=
  inferInstanceAs (Decidable (_ = _))

end FSCall

/-- The namespaces, and the calls that change them. -/
def fsCalls : Runs.Sys FSNamespace FSCall where
  init fs := ∃ env, fs = FSNamespace.init env
  step fs call := (call.run fs).map (·.1)

namespace FSNamespace

/-- The way from `current` by the parts comes to a file. -/
def meetsFile (h : Heap) : List Str → (current : Ptr) → Bool
  | [], _ => false
  | part :: parts, current =>
    match h.getChild current part with
    | some (some sub) =>
      if (h.cell sub).any INode.isDir then meetsFile h parts sub else true
    | _ => false

/-- A part of the path names a file. -/
def hasFile (fs : FSNamespace) (path : Str) : Bool := meetsFile fs.heap (splitPath path) fs.root

end FSNamespace

/-- A call on a valid path that is not a `MakeDir` on a path with a file in it. -/
def FSCall.ValidCall (fs : FSNamespace) (call : FSCall) : Prop :=
  ValidPath fs call ∧ (call.isMakeDir = true → fs.hasFile call.path = false)

instance (fs : FSNamespace) (call : FSCall) : Decidable (call.ValidCall fs) :=
  inferInstanceAs (Decidable (_ ∧ (_ → _)))

namespace FSNamespace

/-- The inode a path names, if the last part is not empty. -/
def target (fs : FSNamespace) (path : Str) : Option Ptr := do
  match ← fs.getParentFolderAndChild path with
  | (none, _) => none
  | (some parent, child) =>
    if child.isEmpty then none else (fs.heap.getChild parent child).join

/-- The path names an inode of the kind. -/
def Names (fs : FSNamespace) (kind : INode → Bool) (path : Str) : Prop :=
  ∃ p i, fs.target path = some p ∧ fs.heap.cell p = some i ∧ kind i = true

/-- A path names the inode, and a call on that path takes it away. -/
def InReach (fs : FSNamespace) (p : Ptr) : Prop :=
  ∃ call : FSCall, call.ValidPath fs ∧ fs.target call.path = some p ∧
    ∃ fs', call.run fs = some (fs', true) ∧ fs'.heap.cell p = none

instance (fs : FSNamespace) (kind : INode → Bool) (path : Str) : Decidable (fs.Names kind path) :=
  decidable_of_iff (((fs.target path).bind fs.heap.cell).any kind = true) <| by
    simp only [Names, Option.any_eq_true, Option.bind_eq_some_iff]
    exact ⟨fun ⟨i, ⟨p, hp, hi⟩, hk⟩ => ⟨p, i, hp, hi, hk⟩,
      fun ⟨p, i, hp, hi, hk⟩ => ⟨i, ⟨p, hp, hi⟩, hk⟩⟩

end FSNamespace

namespace FSCall

/-- A `MakeDir` on a path with an empty part, that meets no file and may make what is missing. -/
def makesUnnamed (fs : FSNamespace) : FSCall → Bool
  | .makeDir _ absDir _ makeParents =>
    (FSNamespace.splitPath absDir).contains [] && !fs.hasFile absDir &&
      (makeParents || fs.getParentFolderAndChild absDir ≠ some (none, []))
  | .deleteDir _ _ _ | .createFile _ _ _ | .removeFile _ _ => false

/-- A call on a valid path that makes no directory without a name. -/
def NamedCall (fs : FSNamespace) (call : FSCall) : Prop :=
  ValidPath fs call ∧ call.makesUnnamed fs = false

instance (fs : FSNamespace) (call : FSCall) : Decidable (call.NamedCall fs) :=
  inferInstanceAs (Decidable (_ ∧ _))

end FSCall

end RaftFS
