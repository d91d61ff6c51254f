import RaftFS.Consensus

/-!
# What the operations leave of the namespace

An operation changes the heap only, so the index up to which the log is applied is the loop's
own to keep.
-/

namespace RaftFS

namespace FSNamespace

variable {fs fs' : FSNamespace} {env : Ptr → Alloc} {path owner : Str} {b : Bool}

theorem makeDir_commitedIndex {makeParents : Bool}
    (h : fs.makeDir env path owner makeParents = some (fs', b)) :
    fs'.commitedIndex = fs.commitedIndex := by
  simp only [makeDir, Option.bind_eq_bind, Option.bind_eq_some_iff] at h
  obtain ⟨exit, -, h⟩ := h
  cases exit with
  | returned h' made =>
    simp only [Option.pure_def, Option.some.injEq, Prod.mk.injEq] at h
    rw [← h.1]
  | left h' current i newDir =>
    simp only [] at h
    split_ifs at h
    · simp only [Option.bind_eq_some_iff, Option.pure_def, Option.some.injEq, Prod.mk.injEq] at h
      obtain ⟨_, -, _, -, _, -, h, -⟩ := h
      rw [← h]
    · simp only [Option.pure_def, Option.some.injEq, Prod.mk.injEq] at h
      rw [← h.1]

theorem deleteInode_commitedIndex {kind : INode → Bool} {recursive : Bool}
    (h : fs.deleteInode kind path owner recursive = some (fs', b)) :
    fs'.commitedIndex = fs.commitedIndex := by
  simp only [deleteInode, Option.bind_eq_bind, Option.bind_eq_some_iff,
    Option.pure_def] at h
  obtain ⟨⟨parent, child⟩, -, h⟩ := h
  cases parent with
  | none =>
    simp only [Option.some.injEq, Prod.mk.injEq] at h
    rw [← h.1]
  | some parent =>
    simp only [] at h
    split_ifs at h
    · simp only [Option.some.injEq, Prod.mk.injEq] at h
      rw [← h.1]
    · simp only [Option.bind_eq_some_iff] at h
      obtain ⟨target, -, h⟩ := h
      cases target with
      | none =>
        simp only [Option.some.injEq, Prod.mk.injEq] at h
        rw [← h.1]
      | some target =>
        simp only [Option.bind_eq_some_iff] at h
        obtain ⟨i, -, h⟩ := h
        split_ifs at h
        · simp only [Option.bind_eq_some_iff, Option.some.injEq, Prod.mk.injEq] at h
          obtain ⟨_, -, h, -⟩ := h
          rw [← h]
        · simp only [Option.some.injEq, Prod.mk.injEq] at h
          rw [← h.1]

theorem createFile_commitedIndex (h : fs.createFile env path owner = some (fs', b)) :
    fs'.commitedIndex = fs.commitedIndex := by
  simp only [createFile, Option.bind_eq_bind, Option.bind_eq_some_iff,
    Option.pure_def] at h
  obtain ⟨⟨parent, child⟩, -, h⟩ := h
  cases parent with
  | none =>
    simp only [Option.some.injEq, Prod.mk.injEq] at h
    rw [← h.1]
  | some parent =>
    simp only [] at h
    split_ifs at h
    · simp only [Option.some.injEq, Prod.mk.injEq] at h
      rw [← h.1]
    · simp only [Option.bind_eq_some_iff, Option.some.injEq, Prod.mk.injEq] at h
      obtain ⟨_, -, h, -⟩ := h
      rw [← h]

end FSNamespace

theorem Node.applyEntry_commitedIndex {env : Ptr → Alloc} {fs fs' : FSNamespace} {e : Entry}
    {rt : Option Bool} (h : applyEntry env fs e = some (fs', rt)) :
    fs'.commitedIndex = fs.commitedIndex := by
  unfold applyEntry at h
  split at h
  case h_5 =>
    simp only [Option.some.injEq, Prod.mk.injEq] at h
    rw [← h.1]
  all_goals
    obtain ⟨⟨_, _⟩, hop, he⟩ := Option.map_eq_some_iff.1 h
    simp only [Prod.mk.injEq] at he
    obtain ⟨rfl, -⟩ := he
  · exact FSNamespace.makeDir_commitedIndex hop
  · exact FSNamespace.deleteInode_commitedIndex hop
  · exact FSNamespace.createFile_commitedIndex hop
  · exact FSNamespace.deleteInode_commitedIndex hop

end RaftFS
