import RaftFS.Proofs.Kinds

/-!
# The directories of a path

On a path without a file in it `MakeDir` makes just the directories that are missing, if it may, and
changes nothing otherwise (`makeDir_exact`).
-/

namespace RaftFS

open FSNamespace

namespace FSNamespace

variable {fs : FSNamespace} {path : Str} {p : Ptr}

theorem makeDir_of_way (hw : fs.heap.WellFormed fs.root)
    (hway : fs.heap.Way fs.root (splitPath path) p) (env : Ptr → Alloc) (owner : Str)
    (makeParents : Bool) : fs.makeDir env path owner makeParents = some (fs, true) := by
  have hl : makeDirLoop env makeParents (splitPath path ++ []) fs.heap fs.root 0 0 =
      some (.left fs.heap p (0 + (splitPath path).length) 0) := makeDirLoop_way hw hway
  rw [List.append_nil] at hl
  rw [makeDir, hl]
  rfl

theorem chain_prefix {old names parts : List Str} {e : Ptr} (env : Ptr → Alloc)
    (hw : fs.heap.WellFormed fs.root) (hway : fs.heap.Way fs.root old e)
    (hm : fs.heap.Missing e names) (hpre : parts <+: old ++ names) :
    ∃ p, (Heap.chain env fs.heap e names).Way fs.root parts p ∧
      (Heap.chain env fs.heap e names).IsDir p := by
  obtain ⟨hold, hnew⟩ := Heap.chain_way env names hw hm
  rcases List.prefix_or_prefix_of_prefix hpre (List.prefix_append old names) with hpre | ⟨pre, rfl⟩
  · obtain ⟨e', he', hdir, -⟩ := hnew [] (List.nil_prefix)
    obtain rfl := Forest.Way.nil_iff.1 he'
    exact Heap.exists_isDir_of_prefix (hold hway) hdir hpre
  · obtain ⟨p, hp, hdir, -⟩ := hnew pre ((List.prefix_append_right_inj old).1 hpre)
    exact ⟨p, Forest.Way.append_iff.2 ⟨e, hold hway, hp⟩, hdir⟩

end FSNamespace

/-- In every namespace that calls on valid paths lead to, `MakeDir` on a valid path without a file
in it is a success just where it may make parents or all of the path but its last part is there.
Then every part leads to a directory, those that were missing are new, one in the other and each the
last in its parent, and a second call changes nothing. Otherwise nothing is changed. The code after
the loop never undoes anything. -/
theorem makeDir_exact {fs : FSNamespace} (h : fsCalls.Reach FSCall.ValidPath fs) {path : Str}
    (hv : validatePath path = true) (hfile : fs.hasFile path = false) (env : Ptr → Alloc)
    (owner : Str) (makeParents : Bool) :
    ∃ fs' b, fs.makeDir env path owner makeParents = some (fs', b) ∧
      (b = true ↔ makeParents = true ∨ ∀ parts, parts <+: splitPath path → parts ≠ splitPath path →
        ∃ p, fs.heap.Way fs.root parts p ∧ fs.heap.IsDir p) ∧
      (b = true →
        (∀ parts, parts <+: splitPath path →
          ∃ p, fs'.heap.Way fs'.root parts p ∧ fs'.heap.IsDir p) ∧
        (∃ old names e, splitPath path = old ++ names ∧ fs.heap.Way fs.root old e ∧
          fs.heap.Missing e names ∧ fs.heap.Grown fs'.heap env e names ∧
          fs' = { fs with heap := fs'.heap }) ∧
        ∀ env' owner', fs'.makeDir env' path owner' makeParents = some (fs', true)) ∧
      (b = false → fs' = fs) ∧
      ∀ h' c i newDir, makeDirLoop env makeParents (splitPath path) fs.heap fs.root 0 0 =
        some (.left h' c i newDir) → ¬ (newDir ≠ 0 ∧ newDir ≠ i) := by
  have hw := reach_wellFormed (fun _ _ hc => hc) h
  have hundo : ∀ h' c i newDir, makeDirLoop env makeParents (splitPath path) fs.heap fs.root 0 0 =
      some (.left h' c i newDir) → ¬ (newDir ≠ 0 ∧ newDir ≠ i) := by
    intro h' c i newDir hl hnew
    obtain ⟨_, _, _, -, -, -, ⟨-, _, _, hl'⟩ | ⟨-, hl'⟩⟩ :=
      makeDirLoop_cases hw hv hfile env makeParents
    · obtain ⟨-, -, -, h0⟩ := MakeDirExit.left.inj (Option.some.inj (hl.symm.trans hl'))
      exact hnew.1 h0
    · cases hl.symm.trans hl'
  obtain ⟨old, names, e, hsplit, hway, hm, hrun⟩ := makeDir_cases hw hv hfile env owner makeParents
  have hiff := hm.length_le_one_iff hway fun q hq => hw.way_unique hq hway
  rw [← hsplit] at hiff
  rw [hiff] at hrun
  rcases hrun with ⟨hmay, hrun⟩ | ⟨hmay, hrun⟩
  · have hpre : ∀ parts, parts <+: splitPath path →
        ∃ p, (Heap.chain env fs.heap e names).Way fs.root parts p ∧
          (Heap.chain env fs.heap e names).IsDir p := fun parts hp =>
      chain_prefix env hw hway hm (hsplit ▸ hp)
    obtain ⟨p, hp, -⟩ := hpre _ (List.prefix_refl _)
    refine ⟨_, true, hrun, iff_of_true rfl hmay, fun _ => ⟨hpre, ?_, fun env' owner' => ?_⟩,
      fun hb => absurd hb Bool.true_eq_false.mp, hundo⟩
    · exact ⟨old, names, e, hsplit, hway, hm, Heap.grown_chain names hw hm, rfl⟩
    · exact makeDir_of_way (Heap.wellFormed_chain names hw hm) hp env' owner' makeParents
  · exact ⟨fs, false, hrun, iff_of_false Bool.false_ne_true hmay,
      fun hb => absurd hb Bool.false_ne_true, fun _ => rfl, hundo⟩

/-- Below the directory `/d`, `/d/a/b` is made if parents may be made, and otherwise not. -/
theorem makeDir_exact_nested :
    (∃ fs', fileAndDir.makeDir (fun _ => ⟨0, 0⟩) ['/', 'd', '/', 'a', '/', 'b'] [] true =
        some (fs', true) ∧
      ∃ p, fs'.heap.Way fs'.root [['d'], ['a'], ['b']] p ∧ fs'.heap.IsDir p) ∧
    fileAndDir.makeDir (fun _ => ⟨0, 0⟩) ['/', 'd', '/', 'a', '/', 'b'] [] false =
      some (fileAndDir, false) := by
  have hv : validatePath ['/', 'd', '/', 'a', '/', 'b'] = true := rfl
  have hfile : fileAndDir.hasFile ['/', 'd', '/', 'a', '/', 'b'] = false := by decide +kernel
  have hsplit : splitPath ['/', 'd', '/', 'a', '/', 'b'] = [['d'], ['a'], ['b']] := by
    decide +kernel
  obtain ⟨fs', b, hrun, hiff, hdone, -⟩ :=
    makeDir_exact reach_fileAndDir hv hfile (fun _ => ⟨0, 0⟩) [] true
  obtain ⟨fs₁, b₁, hrun₁, -, -, hsame, -⟩ :=
    makeDir_exact reach_fileAndDir hv hfile (fun _ => ⟨0, 0⟩) [] false
  obtain rfl := hiff.2 (.inl rfl)
  refine ⟨⟨fs', hrun, (hdone rfl).1 _ (by rw [hsplit])⟩, ?_⟩
  have hb₁ : (fileAndDir.makeDir (fun _ => ⟨0, 0⟩) ['/', 'd', '/', 'a', '/', 'b'] [] false).map
      Prod.snd = some false := by decide +kernel
  rw [hrun₁] at hb₁
  obtain rfl := Option.some.inj hb₁
  rw [hrun₁, hsame rfl]

end RaftFS
