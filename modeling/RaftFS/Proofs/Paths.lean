import RaftFS.FSNamespace
import Mathlib.Tactic.SplitIfs

/-!
# The parts of a path

`GetParentFolderAndChild` and `MakeDir` once more, with the indices they read the parts of the path
by. On a valid path there is a part, and every index read is that of one: what faults there are, are
those of the tree (`getParentFolderAndChildAt_eq`, `makeDirAt_eq`).
-/

namespace RaftFS

namespace FSNamespace

/-- What goes wrong: a difference of sizes wraps around, a part is read that is not there, or the
operation has no result for the tree. -/
inductive Fault
  | underflow | outOfRange | tree
  deriving DecidableEq, Repr

/-- The result of an operation on the tree. -/
def ofTree {α : Type} : Option α → Except Fault α
  | some a => .ok a
  | none => .error .tree

/-- `dir_split.size() - 1`. -/
def lastIndex (dirSplit : List Str) : Except Fault ℕ :=
  if dirSplit.length = 0 then .error .underflow else .ok (dirSplit.length - 1)

/-- `dir_split[i]`. -/
def part (dirSplit : List Str) (i : ℕ) : Except Fault Str :=
  match dirSplit[i]? with
  | some p => .ok p
  | none => .error .outOfRange

/-- `dir_split.back()`. -/
def back (dirSplit : List Str) : Except Fault Str :=
  match dirSplit.getLast? with
  | some p => .ok p
  | none => .error .outOfRange

/-- The loop of `GetParentFolderAndChild` with `k` rounds to go. -/
def parentFolderAt (h : Heap) (dirSplit : List Str) :
    (k i : ℕ) → Ptr → Except Fault (Option Ptr)
  | 0, _, current => .ok (some current)
  | k + 1, i, current => do
    let p ← part dirSplit i
    match ← ofTree (h.getChild current p) with
    | none => return none
    | some next =>
      let inode ← ofTree (h.cell next)
      if inode.isDir then parentFolderAt h dirSplit k (i + 1) next else return none

/-- `GetParentFolderAndChild` by indices. -/
def getParentFolderAndChildAt (fs : FSNamespace) (absPath : Str) :
    Except Fault (Option Ptr × Str) :=
  if absPath = ['/'] then .ok (some fs.root, [])
  else do
    let dirSplit := splitPath absPath
    let last ← lastIndex dirSplit
    match ← parentFolderAt fs.heap dirSplit last 0 fs.root with
    | none => return (none, [])
    | some current =>
      let child ← back dirSplit
      return (some current, child)

/-- The loop of `MakeDir` with `k` rounds to go. -/
def makeDirLoopAt (env : Ptr → Alloc) (makeParents : Bool) (dirSplit : List Str) :
    (k : ℕ) → Heap → Ptr → (i newDir : ℕ) → Except Fault MakeDirExit
  | 0, h, current, i, newDir => .ok (.left h current i newDir)
  | k + 1, h, current, i, newDir => do
    let p ← part dirSplit i
    match ← ofTree (h.getChild current p) with
    | some sub => makeDirLoopAt env makeParents dirSplit k h sub (i + 1) newDir
    | none =>
      let last ← lastIndex dirSplit
      if i ≠ last then
        let newDir := if newDir = 0 then i else newDir
        if makeParents then
          let p ← part dirSplit i
          let (h, made) ← ofTree (h.createDir env current p)
          match made with
          | some sub => makeDirLoopAt env makeParents dirSplit k h sub (i + 1) newDir
          | none => return .left h current i newDir
        else return .returned h false
      else
        let p ← part dirSplit i
        let (h, made) ← ofTree (h.createDir env current p)
        makeDirLoopAt env makeParents dirSplit k h current (i + 1)
          (if made.isSome then 0 else newDir)

/-- `MakeDir` by indices. -/
def makeDirAt (fs : FSNamespace) (env : Ptr → Alloc) (absDir : Str) (makeParents : Bool) :
    Except Fault (FSNamespace × Bool) := do
  let dirSplit := splitPath absDir
  match ← makeDirLoopAt env makeParents dirSplit dirSplit.length fs.heap fs.root 0 0 with
  | .returned h made => return ({ fs with heap := h }, made)
  | .left h current i newDir =>
    if newDir ≠ 0 ∧ newDir ≠ i then
      let current ← ofTree (climb h current (i - (newDir - 1)))
      let p ← part dirSplit newDir
      let (h, _) ← ofTree (h.deleteChild current p true (deleteFuel h))
      return ({ fs with heap := h }, false)
    else return ({ fs with heap := h }, true)

@[simp] theorem ok_bind {α β : Type} (a : α) (f : α → Except Fault β) :
    (Except.ok a >>= f) = f a := rfl

theorem ofTree_bind {α β : Type} (o : Option α) {f : α → Except Fault β} {g : α → Option β}
    (h : ∀ a, o = some a → f a = ofTree (g a)) : (ofTree o >>= f) = ofTree (o >>= g) := by
  cases o with
  | none => rfl
  | some a => exact h a rfl

theorem part_of_drop {dirSplit parts : List Str} {p : Str} {i : ℕ}
    (h : dirSplit.drop i = p :: parts) : part dirSplit i = .ok p := by
  have hi : dirSplit[i]? = some p := by
    rw [← Nat.add_zero i, ← List.getElem?_drop, h]
    rfl
  rw [part, hi]

theorem validatePath_iff {path : Str} : validatePath path = true ↔ ∃ rest, path = '/' :: rest := by
  cases path with
  | nil => simp [validatePath]
  | cons c rest => simp [validatePath]

theorem splitPath_cons (rest : Str) : splitPath ('/' :: rest) = rest.splitOn '/' := by
  have h := List.splitOn_append_cons_self [] rest (a := '/')
  rw [List.nil_append, List.splitOn_nil] at h
  rw [splitPath, h]
  rfl

theorem splitPath_ne_nil {path : Str} (h : validatePath path = true) : splitPath path ≠ [] := by
  obtain ⟨rest, rfl⟩ := validatePath_iff.1 h
  rw [splitPath_cons]
  exact List.splitOn_ne_nil _ _

theorem parentFolderAt_eq (h : Heap) {dirSplit : List Str} {last : Str} :
    ∀ (parts : List Str) (i : ℕ) (current : Ptr), dirSplit.drop i = parts ++ [last] →
      parentFolderAt h dirSplit parts.length i current = ofTree (parentFolder h parts current)
  | [], _, _, _ => rfl
  | p :: parts, i, current, hp => by
    have htail : dirSplit.drop (i + 1) = parts ++ [last] := by
      rw [← List.tail_drop, hp]
      rfl
    simp only [List.length_cons, parentFolderAt, parentFolder, part_of_drop hp,
      ok_bind]
    refine ofTree_bind _ fun next _ => ?_
    cases next with
    | none => rfl
    | some next =>
      refine ofTree_bind _ fun inode _ => ?_
      split_ifs
      · exact parentFolderAt_eq h parts (i + 1) next htail
      · rfl

/-- On a valid path no difference wraps around, and every part read is there. -/
theorem getParentFolderAndChildAt_eq (fs : FSNamespace) {path : Str}
    (h : validatePath path = true) :
    fs.getParentFolderAndChildAt path = ofTree (fs.getParentFolderAndChild path) := by
  simp only [getParentFolderAndChildAt, getParentFolderAndChild]
  split_ifs
  · rfl
  obtain ⟨parts, last, hsplit⟩ : ∃ parts last, splitPath path = parts ++ [last] :=
    ⟨_, _, (List.dropLast_concat_getLast (splitPath_ne_nil h)).symm⟩
  have hlast : lastIndex (splitPath path) = .ok parts.length := by
    simp [lastIndex, hsplit]
  have hback : back (splitPath path) = .ok last := by
    simp [back, hsplit]
  have hget : (splitPath path).getLast? = some last := by
    simp [hsplit]
  have hdrop : (splitPath path).dropLast = parts := by
    simp [hsplit]
  have hwalk : parentFolderAt fs.heap (splitPath path) parts.length 0 fs.root =
      ofTree (parentFolder fs.heap parts fs.root) :=
    parentFolderAt_eq fs.heap parts 0 fs.root hsplit
  rw [hlast, hback, hget, hdrop, ok_bind, hwalk]
  refine ofTree_bind _ fun current _ => ?_
  cases current with
  | none => rfl
  | some current => rfl

theorem makeDirLoopAt_eq (env : Ptr → Alloc) (makeParents : Bool) {dirSplit : List Str} :
    ∀ (parts : List Str) (h : Heap) (current : Ptr) (i newDir : ℕ), dirSplit.drop i = parts →
      makeDirLoopAt env makeParents dirSplit parts.length h current i newDir =
        ofTree (makeDirLoop env makeParents parts h current i newDir)
  | [], _, _, _, _, _ => rfl
  | p :: parts, h, current, i, newDir, hp => by
    have htail : dirSplit.drop (i + 1) = parts := by
      rw [← List.tail_drop, hp]
      rfl
    have hlen : dirSplit.length = i + parts.length + 1 := by
      have := congrArg List.length hp
      simp only [List.length_drop, List.length_cons] at this
      omega
    have hlast : lastIndex dirSplit = .ok (i + parts.length) := by
      simp [lastIndex, hlen]
    simp only [List.length_cons, makeDirLoopAt, makeDirLoop, part_of_drop hp, hlast,
      ok_bind]
    refine ofTree_bind _ fun sub _ => ?_
    cases sub with
    | some sub => exact makeDirLoopAt_eq env makeParents parts h sub (i + 1) newDir htail
    | none =>
      cases parts with
      | nil =>
        simp only [List.length_nil, Nat.add_zero, ne_eq, not_true_eq_false, if_false,
          List.isEmpty_nil, if_true]
        refine ofTree_bind _ fun made _ => ?_
        exact makeDirLoopAt_eq env makeParents [] _ _ _ _ htail
      | cons q parts =>
        have hne : i ≠ i + (q :: parts).length := by
          rw [List.length_cons]
          omega
        simp only [hne, ne_eq, not_false_eq_true, if_true, List.isEmpty_cons, Bool.false_eq_true,
          if_false]
        split_ifs
        all_goals
          try rfl
        all_goals
          refine ofTree_bind _ fun made _ => ?_
          obtain ⟨h', _ | sub⟩ := made
          · rfl
          · exact makeDirLoopAt_eq env _ (q :: parts) h' sub (i + 1) _ htail

/-- The first missing level that `MakeDir` remembers is one of the path's. -/
theorem makeDirLoop_newDir {env : Ptr → Alloc} {makeParents : Bool} :
    ∀ (parts : List Str) {h h' : Heap} {current current' : Ptr} {i i' newDir newDir' : ℕ},
      makeDirLoop env makeParents parts h current i newDir = some (.left h' current' i' newDir') →
        newDir = 0 ∨ newDir < i + parts.length → newDir' = 0 ∨ newDir' < i + parts.length
  | [], _, _, _, _, _, _, _, _, hl, hd => by
    obtain ⟨-, -, -, rfl⟩ := MakeDirExit.left.inj (Option.some.inj hl)
    exact hd
  | p :: parts, h, h', current, current', i, i', newDir, newDir', hl, hd => by
    rw [List.length_cons, ← Nat.add_assoc, Nat.add_right_comm] at hd ⊢
    simp only [makeDirLoop, Option.bind_eq_bind, Option.bind_eq_some_iff] at hl
    obtain ⟨sub, -, hl⟩ := hl
    cases sub with
    | some sub => exact makeDirLoop_newDir parts hl hd
    | none =>
      by_cases he : parts.isEmpty = true
      · simp only [if_pos he] at hl
        obtain ⟨made, -, hl⟩ := Option.bind_eq_some_iff.1 hl
        refine makeDirLoop_newDir parts hl ?_
        split_ifs
        · exact .inl rfl
        · exact hd
      · simp only [if_neg he] at hl
        have hd' : (if newDir = 0 then i else newDir) = 0 ∨
            (if newDir = 0 then i else newDir) < i + 1 + parts.length := by
          split_ifs
          · omega
          · exact hd
        by_cases hm : makeParents = true
        · simp only [if_pos hm] at hl
          obtain ⟨⟨h₁, made⟩, -, hl⟩ := Option.bind_eq_some_iff.1 hl
          cases made with
          | none =>
            obtain ⟨-, -, -, rfl⟩ := MakeDirExit.left.inj (Option.some.inj hl)
            exact hd'
          | some sub => exact makeDirLoop_newDir parts hl hd'
        · simp only [if_neg hm] at hl
          cases hl

/-- On any path no difference wraps around in `MakeDir`, and every part read is there. -/
theorem makeDirAt_eq (fs : FSNamespace) (env : Ptr → Alloc) (path owner : Str)
    (makeParents : Bool) :
    fs.makeDirAt env path makeParents = ofTree (fs.makeDir env path owner makeParents) := by
  simp only [makeDirAt, makeDir]
  refine (congrArg (· >>= _)
    (makeDirLoopAt_eq env makeParents _ fs.heap fs.root 0 0 List.drop_zero)).trans ?_
  refine ofTree_bind _ fun exit hexit => ?_
  cases exit with
  | returned h made => rfl
  | left h current i newDir =>
    simp only []
    split_ifs with hn
    · have hlt : newDir < (splitPath path).length := by
        have := makeDirLoop_newDir _ hexit (.inl rfl)
        omega
      have hpart : part (splitPath path) newDir = .ok (splitPath path)[newDir] := by
        rw [part, List.getElem?_eq_getElem hlt]
      refine ofTree_bind _ fun current _ => ?_
      rw [hpart, List.getElem?_eq_getElem hlt]
      exact ofTree_bind _ fun deleted _ => rfl
    · rfl

end FSNamespace

end RaftFS
