import RaftFS.Proofs.Effects
import RaftFS.Proofs.Kinds

/-!
# Deletion

`DeleteChild` and `DeleteAllChild` come to an end with any fuel there is for them. `DeleteDir` takes
the subtree of the directory the path leads to, and nothing else, out of the namespace if it may,
and changes nothing otherwise (`deleteDir_exact`).
-/

namespace RaftFS

open FSNamespace

namespace Heap

variable {h : Heap} {root d it : Ptr} {name : Str}

/-- `h'` is `h` without the subtree of the child `it` of `d`, which has the name `name`. -/
structure Without (h h' : Heap) (d : Ptr) (name : Str) (it : Ptr) : Prop where
  gone : ∀ p, h.Below it p → h'.cell p = none
  top : h'.cell d = (h.cell d).map (INode.mapBody (.erase it name))
  same : ∀ p, p ≠ d → ¬ h.Below it p → h'.cell p = h.cell p
  fresh : h'.fresh = h.fresh

theorem WellFormed.without_pruned (hw : WellFormed h root) (hc : h.Child d name it) :
    h.Without (h.pruned d it name) d name it where
  gone p hb := by
    have hp : p ≠ d := fun h0 => hw.not_below_of_child hc (h0 ▸ hb)
    exact pruned_cell_below hp hb
  top := pruned_cell_self
  same _ hp hb := pruned_cell_of_ne hp hb
  fresh := rfl

theorem WellFormed.deleteChild_ends (hw : WellFormed h root) (hc : h.Child d name it)
    (recursive : Bool) :
    ∃ r, ∀ fuel, deleteFuel h ≤ fuel → h.deleteChild d name recursive fuel = some r := by
  rcases hw.deleteChild_cases hc recursive with ⟨-, hdel⟩ | ⟨-, hdel⟩
  · exact ⟨_, hdel⟩
  · exact ⟨_, hdel⟩

theorem WellFormed.deleteAllChild_ends (hw : WellFormed h root) (hd : h.IsDir d) :
    ∃ h', ∀ fuel, deleteFuel h ≤ fuel → h.deleteAllChild d fuel = some (h', true) := by
  obtain ⟨cs, m, hdir⟩ := hd
  refine ⟨_, fun fuel hfuel => deleteAllChild_eq h.fresh hw hdir card_above_le ?_⟩
  rw [deleteFuel] at hfuel
  omega

end Heap

/-- In every namespace that calls on valid paths lead to, `DeleteChild` and `DeleteAllChild` come to
an end. `DeleteDir` on a valid path is a success just where the path leads to a directory that the
visitor may delete and that is empty, or the deletion is recursive. Then the inodes of its subtree
are gone, its parent has the other children in their order, and the rest is as it was; otherwise all
is. -/
theorem deleteDir_exact {fs : FSNamespace} (h : fsCalls.Reach FSCall.ValidPath fs) {path : Str}
    (hv : validatePath path = true) (visitor : Str) (recursive : Bool) :
    (∀ d name it, fs.heap.Child d name it →
      ∃ r, ∀ fuel, deleteFuel fs.heap ≤ fuel →
        fs.heap.deleteChild d name recursive fuel = some r) ∧
    (∀ d, fs.heap.IsDir d →
      ∃ h', ∀ fuel, deleteFuel fs.heap ≤ fuel → fs.heap.deleteAllChild d fuel = some (h', true)) ∧
    ∃ fs' b, fs.deleteDir path visitor recursive = some (fs', b) ∧
      (b = true ↔ ∃ d name it, fs.Deletable INode.isDir path visitor recursive d name it) ∧
      (∀ d name it, fs.Deletable INode.isDir path visitor recursive d name it →
        fs.heap.Without fs'.heap d name it ∧ fs' = { fs with heap := fs'.heap }) ∧
      (b = false → fs' = fs) := by
  have hw := reach_wellFormed (fun _ _ hc => hc) h
  refine ⟨fun d name it hc => hw.deleteChild_ends hc recursive,
    fun d hd => hw.deleteAllChild_ends hd, ?_⟩
  rcases deleteInode_cases hw hv INode.isDir visitor recursive with ⟨d, name, it, hdel, hrun⟩ |
    ⟨hnone, hrun⟩
  · refine ⟨_, true, hrun, ⟨fun _ => ⟨d, name, it, hdel⟩, fun _ => rfl⟩,
      fun d' name' it' hdel' => ?_, fun hb => by cases hb⟩
    obtain ⟨rfl, rfl, rfl⟩ := hdel.unique hw hdel'.toLocated
    exact ⟨hw.without_pruned hdel.child, rfl⟩
  · refine ⟨fs, false, hrun, ⟨fun hb => absurd hb Bool.false_ne_true, ?_⟩,
      fun d name it hdel => absurd hdel (hnone d name it), fun _ => rfl⟩
    rintro ⟨d, name, it, hdel⟩
    exact absurd hdel (hnone d name it)

/-- The file `/f`, and `/d` with the directory `/d/e` and the file `/d/g` in it. -/
def nestedDir : FSNamespace := fsCalls.run FSCall.ValidPath fileAndDir
  [.makeDir (fun _ => ⟨0, 0⟩) ['/', 'd', '/', 'e'] [] true,
    .createFile (fun _ => ⟨0, 0⟩) ['/', 'd', '/', 'g'] []]

theorem reach_nestedDir : fsCalls.Reach FSCall.ValidPath nestedDir :=
  Runs.Sys.reach_run reach_fileAndDir (by decide +kernel)

/-- `/d` is deleted with what lies in it, and is not deleted where the deletion is not recursive. -/
theorem deleteDir_exact_nested :
    nestedDir.listDir ['/', 'd'] = some [['e'], ['g']] ∧
    (∃ fs' d name it, nestedDir.deleteDir ['/', 'd'] [] true = some (fs', true) ∧
      nestedDir.heap.Without fs'.heap d name it ∧ fs'.listDir ['/'] = some [['f']]) ∧
    nestedDir.deleteDir ['/', 'd'] [] false = some (nestedDir, false) := by
  have hv : validatePath ['/', 'd'] = true := rfl
  obtain ⟨-, -, fs', b, hrun, hiff, hgone, -⟩ := deleteDir_exact reach_nestedDir hv [] true
  obtain ⟨-, -, fs₁, b₁, hrun₁, -, -, hsame⟩ := deleteDir_exact reach_nestedDir hv [] false
  have hb : (nestedDir.deleteDir ['/', 'd'] [] true).map Prod.snd = some true := by decide +kernel
  have hb₁ : (nestedDir.deleteDir ['/', 'd'] [] false).map Prod.snd = some false := by
    decide +kernel
  have hlist : (nestedDir.deleteDir ['/', 'd'] [] true).map (fun r => r.1.listDir ['/']) =
      some (some [['f']]) := by decide +kernel
  rw [hrun] at hb hlist
  rw [hrun₁] at hb₁
  obtain rfl := Option.some.inj hb
  obtain rfl := Option.some.inj hb₁
  obtain ⟨d, name, it, hdel⟩ := hiff.1 rfl
  refine ⟨by decide +kernel, ⟨fs', d, name, it, hrun, (hgone d name it hdel).1,
    Option.some.inj hlist⟩, ?_⟩
  rw [hrun₁, hsame rfl]

end RaftFS
