import RaftFS.Proofs.Unnamed

/-!
# Owners

`MakeDir` and `CreateFile` do not hand on the owner, so that nobody owns what they make, and anybody
may delete it. Only a directory that has no name, and is in the root or in another such directory,
is deleted by nobody (`owner_protects_iff`).
-/

namespace RaftFS

open FSNamespace

namespace FSCall

open Heap

/-- Whose an inode is that the call makes. -/
def owner? : FSCall → Option Str
  | .makeDir _ _ owner _ => some owner
  | .createFile _ _ owner => some owner
  | .deleteDir _ _ _ | .removeFile _ _ => none

variable {fs fs' : FSNamespace} {call : FSCall} {b : Bool} {h : Heap} {p a : Ptr}
  {names : List Str}

theorem Effect.way_of_unnamed (hw : fs.heap.WellFormed fs.root) (he : Effect fs call h)
    (hway : fs.heap.Way fs.root names p) (hnames : ∀ name ∈ names, name = []) :
    h.Way fs.root names p := by
  obtain ⟨i, hi⟩ := hw.way_cell hway
  rcases hg : h.cell p with _ | j
  · obtain ⟨d, name, it, hc, hn, hb⟩ := he.gone hw hi hg
    have hparent : ∀ d n c, fs.heap.Child d n c → fs.heap.parentOf c = some d :=
      fun _ _ _ hc => hw.parentOf_of_child hc
    have hroot := hw.not_below_root (hw.child_ne_root hc)
    obtain ⟨name', hmem, d', hc'⟩ := Forest.Way.exists_mem_of_below hparent hroot hway hb
    obtain ⟨-, rfl⟩ := hw.child_inj hc hc'
    exact absurd (hnames _ hmem) hn
  · exact he.way hw hg hway

theorem way_of_later (hw : fs.heap.WellFormed fs.root) (hway : fs.heap.Way fs.root names p)
    (hnames : ∀ name ∈ names, name = []) (hl : fsCalls.Later ValidPath fs fs') :
    fs'.heap.WellFormed fs'.root ∧ fs'.heap.Way fs'.root names p := by
  refine hl.inv (I := fun fs => fs.heap.WellFormed fs.root ∧ fs.heap.Way fs.root names p)
    ⟨hw, hway⟩ ?_
  rintro fs call fs' ⟨hw, hway⟩ hv hst
  obtain ⟨⟨fs', b⟩, hrun, rfl⟩ := Option.map_eq_some_iff.1 hst
  obtain ⟨hfs, he⟩ := run_effect hw hv hrun
  have hroot : fs'.root = fs.root := by rw [hfs]
  refine ⟨run_wellFormed hw hv hrun, ?_⟩
  rw [hroot]
  exact he.way_of_unnamed hw hway hnames

/-- What has a name on its way is deleted by anybody, with what has the name. -/
theorem exists_deletion_of_named (hw : fs.heap.WellFormed fs.root) (hp : fs.Plain)
    (hway : fs.heap.Way fs.root names p) (hnames : ¬ ∀ name ∈ names, name = []) (visitor : Str) :
    ∃ call fs' b, ValidPath fs call ∧ call.visitor? = some visitor ∧
      call.run fs = some (fs', b) ∧ fs'.heap.cell p = none := by
  push Not at hnames
  obtain ⟨name, hmem, hn⟩ := hnames
  obtain ⟨pre, post, rfl⟩ := List.append_of_mem hmem
  obtain ⟨d, -, hrest⟩ := Forest.Way.append_iff.1 hway
  obtain ⟨c, hc, hpost⟩ := Forest.Way.cons_iff.1 hrest
  have hparent : ∀ d n c, fs.heap.Child d n c → fs.heap.parentOf c = some d :=
    fun _ _ _ hc => hw.parentOf_of_child hc
  obtain ⟨i, hi, rfl⟩ := hc.cell
  obtain ⟨call, fs', hv, hvis, -, hrun, hgone⟩ :=
    hp.exists_deletion hw hi (hw.child_ne_root hc) hn visitor
  exact ⟨call, fs', true, hv, hvis, hrun, hgone p (hpost.to_below hparent)⟩

end FSCall

/-- In a namespace that calls on valid paths lead to, an inode that a call makes for an owner lies
at part of the path. It is taken away by calls of the owner only, whatever calls come later, just
where that part has no name in it. Then no call takes it away. -/
theorem owner_protects_iff {fs fs₁ : FSNamespace} (h : fsCalls.Reach FSCall.ValidPath fs)
    {call : FSCall} (hv : call.ValidPath fs) {owner : Str} (_howner : call.owner? = some owner)
    {b : Bool} (hrun : call.run fs = some (fs₁, b)) {p : Ptr} {i : INode}
    (hnew : fs.heap.cell p = none) (hi : fs₁.heap.cell p = some i) :
    ∃ names, names <+: splitPath call.path ∧ fs₁.heap.Way fs₁.root names p ∧
      ((∀ fs₂ (call' : FSCall) fs₃ b', fsCalls.Later FSCall.ValidPath fs₁ fs₂ →
          call'.ValidPath fs₂ → call'.run fs₂ = some (fs₃, b') → fs₂.heap.cell p ≠ none →
            fs₃.heap.cell p = none → call'.visitor? = some owner) ↔
        ∀ name ∈ names, name = []) := by
  have h₁ := FSCall.reach_run h hv hrun
  have hw := reach_wellFormed (fun _ _ hc => hc) h
  have hw₁ := reach_wellFormed (fun _ _ hc => hc) h₁
  obtain ⟨hfs₁, he⟩ := FSCall.run_effect hw hv hrun
  have hroot : fs₁.root = fs.root := by rw [hfs₁]
  obtain ⟨names, hpre, hway⟩ := he.new_way hw hnew hi
  rw [← hroot] at hway
  refine ⟨names, hpre, hway, ?_, fun hnames fs₂ call' fs₃ b' hl hv' hrun' _ hgone => ?_⟩
  · intro hprot
    by_contra hnames
    obtain ⟨call', fs₃, b', hv', hvis, hrun', hgone⟩ := FSCall.exists_deletion_of_named hw₁
      (reach_plain (fun _ _ hc => hc) h₁) hway hnames ('a' :: owner)
    have howner := hprot fs₁ call' fs₃ b' .refl hv' hrun' (by simp [hi]) hgone
    rw [hvis, Option.some_inj] at howner
    exact absurd howner (List.cons_ne_self _ _)
  · obtain ⟨hw₂, hway₂⟩ := FSCall.way_of_later hw₁ hway hnames hl
    have hl₃ := FSCall.way_of_later hw₂ hway₂ hnames (.step .refl hv'
      (Option.map_eq_some_iff.2 ⟨_, hrun', rfl⟩))
    obtain ⟨j, hj⟩ := hl₃.1.way_cell hl₃.2
    cases hgone.symm.trans hj

/-- The directory without a name that is made for `/` is deleted by nobody. -/
theorem owner_protects_iff_slash : ∃ fs₁, fsCalls.Reach FSCall.ValidPath fs₁ ∧
    (∃ i, fs₁.heap.cell 1 = some i) ∧
    ∀ fs₂ (call : FSCall) fs₃ b, fsCalls.Later FSCall.ValidPath fs₁ fs₂ → call.ValidPath fs₂ →
      call.run fs₂ = some (fs₃, b) → fs₂.heap.cell 1 ≠ none → fs₃.heap.cell 1 = none →
        call.visitor? = some ['o'] := by
  have hv : FSCall.ValidPath emptyFS (.makeDir (fun _ => ⟨0, 0⟩) ['/'] ['o'] true) := rfl
  obtain ⟨fs₁, b, hrun⟩ : ∃ fs₁ b, emptyFS.makeDir (fun _ => ⟨0, 0⟩) ['/'] ['o'] true =
      some (fs₁, b) := Prod.exists.1 (Option.isSome_iff_exists.1 (by decide +kernel))
  have hg : (emptyFS.makeDir (fun _ => ⟨0, 0⟩) ['/'] ['o'] true).map
      (fun r => r.1.heap.getChild r.1.root []) = some (some (some 1)) := by decide +kernel
  rw [hrun] at hg
  have h₁ := FSCall.reach_run reach_emptyFS hv hrun
  have hc := (reach_wellFormed (fun _ _ hc => hc) h₁).getChild_iff.1 (Option.some.inj hg)
  obtain ⟨i, hi, -⟩ := hc.cell
  have hnew : emptyFS.heap.cell 1 = none := Option.isNone_iff_eq_none.1 (by decide +kernel)
  obtain ⟨names, hpre, -, hiff⟩ := owner_protects_iff reach_emptyFS hv rfl hrun hnew hi
  have hsplit : splitPath ['/'] = [[]] := by decide +kernel
  refine ⟨fs₁, h₁, ⟨i, hi⟩, hiff.2 fun name hmem => ?_⟩
  exact List.mem_singleton.1 (hsplit ▸ hpre.subset hmem)

/-- The file that `a` has created is removed by `b`. -/
theorem owner_not_kept : ∃ fs₁ fs₂, fsCalls.Reach FSCall.ValidPath fs₁ ∧
    emptyFS.heap.cell 1 = none ∧
    emptyFS.createFile (fun _ => ⟨0, 0⟩) ['/', 'f'] ['a'] = some (fs₁, true) ∧
    (∃ i, fs₁.heap.cell 1 = some i) ∧
    fs₁.removeFile ['/', 'f'] ['b'] = some (fs₂, true) ∧ fs₂.heap.cell 1 = none := by
  obtain ⟨fs₁, b, hrun⟩ : ∃ fs₁ b, emptyFS.createFile (fun _ => ⟨0, 0⟩) ['/', 'f'] ['a'] =
      some (fs₁, b) := Prod.exists.1 (Option.isSome_iff_exists.1 (by decide +kernel))
  have hcall : FSCall.ValidPath emptyFS (.createFile (fun _ => ⟨0, 0⟩) ['/', 'f'] ['a']) := rfl
  have hb : (emptyFS.createFile (fun _ => ⟨0, 0⟩) ['/', 'f'] ['a']).map
      (fun r => (r.2, r.1.target ['/', 'f'])) = some (true, some 1) := by decide +kernel
  have hfile : (emptyFS.createFile (fun _ => ⟨0, 0⟩) ['/', 'f'] ['a']).map
      (fun r => (r.1.heap.cell 1).any INode.isFile) = some true := by decide +kernel
  rw [hrun] at hb hfile
  simp only [Option.map_some, Option.some.injEq, Prod.mk.injEq] at hb
  obtain ⟨rfl, htarget⟩ := hb
  obtain ⟨i, hi, hkind⟩ := (Option.any_eq_true _ _).1 (Option.some.inj hfile)
  have h₁ := FSCall.reach_run reach_emptyFS hcall hrun
  have hw₁ := reach_wellFormed (fun _ _ hc => hc) h₁
  have hv : validatePath ['/', 'f'] = true := rfl
  obtain ⟨d, name, hn, hl⟩ := (target_eq_some_iff hw₁ hv).1 htarget
  have hdel : fs₁.Deletable INode.isFile ['/', 'f'] ['b'] false d name 1 :=
    (reach_plain (fun _ _ hc => hc) h₁).deletable hw₁ hl hn hi hkind ['b'] (.inr hkind)
  obtain ⟨fs₂, hrun₂, hgone⟩ := deleteInode_of_deletable hw₁ hv hdel
  exact ⟨fs₁, fs₂, h₁, Option.isNone_iff_eq_none.1 (by decide +kernel), hrun, ⟨i, hi⟩, hrun₂,
    hgone 1 .refl⟩

end RaftFS
