import RaftFS.Proofs.Entries
import RaftFS.Proofs.Refines
import RaftFS.Proofs.Replicas
import RaftFS.Proofs.Safety

/-!
# What a node serves

An entry that a node applies is a call of the namespace. So in any run the namespace of a node is
what the specification makes of the entries that the node has applied, the results on record are the
specification's answers, and what the node reads is what the tree has (`node_serves`).
-/

namespace RaftFS

open FSNamespace

/-- The call that `FSUpdateLoop` makes for an entry. -/
def Entry.call (env : Ptr → Alloc) (e : Entry) : Option FSCall :=
  match e.op with
  | .kMkdir => some (.makeDir env e.value unknownOwner true)
  | .kRmdir => some (.deleteDir e.value unknownOwner true)
  | .kCreate => some (.createFile env e.value unknownOwner)
  | .kDelete => some (.removeFile e.value unknownOwner)
  | _ => none

namespace Entry

variable {env : Ptr → Alloc} {e : Entry} {c : FSCall}

theorem applyEntry_eq (h : e.call env = some c) (fs : FSNamespace) :
    Node.applyEntry env fs e = (c.run fs).map (Prod.map id some) := by
  obtain ⟨term, index, op, value⟩ := e
  cases op with
  | kMkdir | kRmdir | kCreate | kDelete =>
    obtain rfl := Option.some.inj h
    rfl
  | _ => cases h

theorem call_path (h : e.call env = some c) : c.path = e.value := by
  unfold call at h
  split at h
  case h_5 => cases h
  all_goals
    rw [← Option.some.inj h]
    rfl

theorem exists_call {call : WriteCall} (hop : e.op = call.op) (env : Ptr → Alloc) :
    ∃ c, e.call env = some c := by
  unfold Entry.call
  cases call with
  | _ => exact ⟨_, by rw [hop]; rfl⟩

end Entry

variable {n : ℕ}

open Cluster FSNamespace

/-- What `x` has applied, with the index and what the operation returned, oldest first. -/
def applications (x : Fin n) (history : List (Event n)) : List (ℕ × Entry × Option Bool) :=
  (history.filterMap fun
    | .applied y i e rt => if y = x then some (i, e, rt) else none
    | _ => none).reverse

/-- The namespace is, up to the index, what the specification makes of the entries applied, each by
some clock and in some memory, and what they returned are the specification's answers. -/
structure Serves (fs : FSNamespace) (done : List (ℕ × Entry × Option Bool)) (s : FSSpec) :
    Prop where
  refines : ∃ m, (fs.setCommitedIndex m).Refines s
  calls : ∃ cs bs, List.Forall₂ (fun a c => ∃ env, a.2.1.call env = some c) done cs ∧
    FSSpec.init.calls cs = some (s, bs) ∧ done.map (·.2.2) = bs.map some

namespace Serves

variable {fs fs' : FSNamespace} {done : List (ℕ × Entry × Option Bool)} {s : FSSpec}
  {env : Ptr → Alloc} {e : Entry} {c : FSCall}

/-- An entry that is applied is a call on the tree, and has the tree's answer. Where the tree has
none, the entry has no result. -/
theorem applyEntry (h : Serves fs done s) (hc : e.call env = some c)
    (hv : validatePath e.value = true) : Node.applyEntry env fs e = none ∧ s.call c = none ∨
      ∃ fs' s' b, Node.applyEntry env fs e = some (fs', some b) ∧ s.call c = some (s', b) ∧
        ∀ i, Serves fs' (done ++ [(i, e, some b)]) s' := by
  obtain ⟨⟨m, hm⟩, cs, bs, hcs, hspec, hbs⟩ := h
  have hrun : Node.applyEntry env (fs.setCommitedIndex m) e =
      (Node.applyEntry env fs e).map (Prod.map (·.setCommitedIndex m) id) :=
    Node.applyEntry_setCommitedIndex m
  rw [e.applyEntry_eq hc] at hrun
  have hvalid : validatePath c.path = true := by rw [Entry.call_path hc, hv]
  rcases hm.call hvalid with
    ⟨hnone, htree⟩ | ⟨fs₁, s', b, hsome, htree, h₁⟩
  · rw [hnone] at hrun
    exact .inl ⟨Option.map_eq_none_iff.1 hrun.symm, htree⟩
  · rw [hsome] at hrun
    obtain ⟨⟨fs', rt⟩, hap, he⟩ := Option.map_eq_some_iff.1 hrun.symm
    obtain ⟨rfl, rfl⟩ := Prod.mk.inj he
    refine .inr ⟨fs', s', b, hap, htree, fun i => ⟨⟨m, h₁⟩, cs ++ [c], bs ++ [b], ?_, ?_, ?_⟩⟩
    · exact List.rel_append hcs (.cons ⟨env, hc⟩ .nil)
    · exact Answers.run_concat hspec htree
    · rw [List.map_append, List.map_append, hbs]
      rfl

theorem setCommitedIndex (h : Serves fs done s) (m : ℕ) : Serves (fs.setCommitedIndex m) done s :=
  ⟨h.refines, h.calls⟩

theorem listDir (h : Serves fs done s) {path : Str} (hv : validatePath path = true) :
    fs.listDir path = s.tree.listDir path := by
  obtain ⟨m, hm⟩ := h.refines
  have hlist : (fs.setCommitedIndex m).listDir path = s.tree.listDir path :=
    listDir_shows hm.wellFormed hm.shown hv
  exact hlist

theorem getFileInfo (h : Serves fs done s) {path : Str} (hv : validatePath path = true)
    (info : FileInfo) : fs.getFileInfo path info = s.tree.getFileInfo path info := by
  obtain ⟨m, hm⟩ := h.refines
  have hlook : (fs.setCommitedIndex m).getFileInfo path info = s.tree.getFileInfo path info :=
    getFileInfo_shows hm.wellFormed hm.shown hm.plain hv info
  exact hlook

end Serves

section Run

variable {s s' : Cluster n} {a : Action n}

theorem step_applications (hst : s.step a = some s') (x : Fin n)
    (ha : ∀ y env, a ≠ .fsStep y env) :
    applications x s'.history = applications x s.history := by
  obtain ⟨t, hc, hr⟩ := step_changes hst
  rw [(hr.frame x).2]
  cases hc with
  | aeTake hc ha h =>
    rename_i commit _
    cases commit with
    | _ => simp [applications]
  | rvTake hc ha h =>
    rename_i won _
    cases won with
    | _ => simp [applications]
  | fsStep => exact absurd rfl (ha _ _)
  | _ => rfl

/-- A step leaves the namespace of a node as it is, but for the index, and what it has applied, or
the node applies an entry of its log. -/
theorem step_applies (hst : s.step a = some s') (x : Fin n) :
    (applications x s'.history = applications x s.history ∧
      ∃ m, (s'.node x).fs = (s.node x).fs.setCommitedIndex m) ∨
    ∃ env i c e rt, (s.node x).fsThread = .apply i c ∧ (s.node x).log.getEntry i = some e ∧
      Node.applyEntry env (s.node x).fs e = some ((s'.node x).fs, rt) ∧
      applications x s'.history = applications x s.history ++ [(i, e, rt)] := by
  by_cases ha : ∀ y env, a ≠ .fsStep y env
  · exact .inl ⟨step_applications hst x ha, (s.node x).fs.commitedIndex, step_fs hst x ha⟩
  obtain ⟨y, env, rfl⟩ : ∃ y env, a = .fsStep y env := by simpa using ha
  obtain ⟨⟨nd, applied⟩, hfs, hst⟩ := Option.bind_eq_some_iff.1 hst
  obtain rfl := Option.some.inj hst
  simp only [log_node, log_history, setNode_node, setNode_history]
  rcases eq_or_ne y x with rfl | hne
  · rw [Function.update_self]
    rcases Node.fsUpdateLoop_fs hfs with ⟨rfl, m, hm⟩ | ⟨i, e, rt, rfl, hap⟩
    · exact .inl ⟨rfl, m, hm⟩
    · obtain ⟨_, _, _, -, -, hstep⟩ := Node.fsUpdateLoop_cases hfs
      cases hstep with
      | apply hth he => exact .inr ⟨env, i, _, e, rt, hth, he, hap, by simp [applications]⟩
  · rw [Function.update_of_ne hne.symm]
    refine .inl ⟨?_, (s.node x).fs.commitedIndex, rfl⟩
    cases applied with
    | none => rfl
    | some p => simp [applications, hne]

theorem reach_call {G : Runs.Guard (Cluster n) (Action n)} (h : (cluster n).Reach G s) {x : Fin n}
    {e : Entry} (he : e ∈ (s.node x).log.memoryLog) (env : Ptr → Alloc) :
    validatePath e.value = true ∧ ∃ c, e.call env = some c := by
  obtain ⟨_, _, call, -, -, hop, hv⟩ := (reach_submitted h).log x e he
  exact ⟨hv, Entry.exists_call hop env⟩

/-- In any run a node serves what it has applied. -/
theorem reach_serves {G : Runs.Guard (Cluster n) (Action n)} (h : (cluster n).Reach G s)
    (x : Fin n) : ∃ spec, Serves (s.node x).fs (applications x s.history) spec := by
  refine h.inv (I := fun s => ∃ spec, Serves (s.node x).fs (applications x s.history) spec) ?_ ?_
  · rintro _ ⟨env, junk, rfl⟩
    exact ⟨.init, ⟨0, init_refines (env x)⟩, [], [], .nil, rfl, rfl⟩
  · rintro s a s' hs ⟨spec, hI⟩ _ hst
    rcases step_applies hst x with ⟨hdone, m, hm⟩ | ⟨env, i, c, e, rt, -, he, hap, hdone⟩
    · rw [hdone, hm]
      exact ⟨spec, hI.setCommitedIndex m⟩
    · obtain ⟨hv, c, hc⟩ := reach_call hs (LogManager.mem_of_getEntry he).1 env
      rcases hI.applyEntry hc hv with ⟨hnone, -⟩ | ⟨fs', spec', b, hap', -, h'⟩
      · cases hap.symm.trans hnone
      · obtain ⟨rfl, rfl⟩ := Prod.mk.inj (Option.some.inj (hap'.symm.trans hap))
        rw [hdone]
        exact ⟨spec', h' i⟩

/-- The tree has no answer for a `Mkdir` whose path goes through a file, and for nothing else. -/
theorem Entry.call_eq_none {env : Ptr → Alloc} {e : Entry} {c : FSCall} (hc : e.call env = some c)
    (spec : FSSpec) : spec.call c = none ↔
      e.op = .kMkdir ∧ spec.tree.hasFile (splitPath e.value).dropLast = true := by
  unfold Entry.call at hc
  rw [FSSpec.call, Option.map_eq_none_iff]
  split at hc
  case h_5 => cases hc
  all_goals
    rename_i hop
    rw [← Option.some.inj hc, hop]
    simp [FSCall.onTree, FSTree.makeDir]

theorem fsStep_apply_eq_none {x : Fin n} {i c : ℕ} {e : Entry}
    (hth : (s.node x).fsThread = .apply i c) (he : (s.node x).log.getEntry i = some e)
    (env : Ptr → Alloc) :
    s.step (.fsStep x env) = none ↔ Node.applyEntry env (s.node x).fs e = none := by
  rw [Cluster.fsStep_eq_none]
  simp [hth, he]

end Run

/-- In any run the entries that a node has applied, taken for calls, have answers from the empty
tree, which are the results on record. The node lists and looks up every path as the tree left does.
`FSUpdateLoop` has no result for the next entry just where that is a `Mkdir` whose path goes through
a file of the tree. -/
theorem node_serves {s : Cluster n} (h : (cluster n).Reach Runs.Sys.anyStep s) (x : Fin n) :
    ∃ cs spec bs,
      List.Forall₂ (fun a c => ∃ env, a.2.1.call env = some c) (applications x s.history) cs ∧
      FSSpec.init.calls cs = some (spec, bs) ∧
      (applications x s.history).map (·.2.2) = bs.map some ∧
      (∀ path, validatePath path = true →
        (s.node x).fs.listDir path = spec.tree.listDir path ∧
          ∀ info, (s.node x).fs.getFileInfo path info = spec.tree.getFileInfo path info) ∧
      ∀ i c e env, (s.node x).fsThread = .apply i c → (s.node x).log.getEntry i = some e →
        ((cluster n).step s (.fsStep x env) = none ↔
          e.op = .kMkdir ∧ spec.tree.hasFile (splitPath e.value).dropLast = true) := by
  obtain ⟨spec, hs⟩ := reach_serves h x
  obtain ⟨cs, bs, hcs, hspec, hbs⟩ := hs.calls
  refine ⟨cs, spec, bs, hcs, hspec, hbs, fun path hv => ⟨hs.listDir hv, hs.getFileInfo hv⟩, ?_⟩
  intro i c e env hth he
  obtain ⟨hv, call, hc⟩ := reach_call h (LogManager.mem_of_getEntry he).1 env
  rw [← Entry.call_eq_none hc]
  refine (fsStep_apply_eq_none hth he env).trans ?_
  rcases hs.applyEntry hc hv with ⟨hnone, htree⟩ | ⟨fs', s', b, hsome, htree, -⟩
  · simp [hnone, htree]
  · simp [hsome, htree]

/-- Node `2` has made two directories, and the tree lists them. -/
theorem node_serves_two :
    ∃ s, (cluster 3).Reach Runs.Sys.anyStep s ∧ ∃ cs spec,
      List.Forall₂ (fun a c => ∃ env, a.2.1.call env = some c) (applications 2 s.history) cs ∧
      FSSpec.init.calls cs = some (spec, [true, true]) ∧
      spec.tree.listDir ['/'] = some [['a'], ['b']] := by
  let s := (cluster 3).run Runs.Sys.anyStep start3 (secondCommit ++ applyNext 2)
  have hs : (cluster 3).Reach Runs.Sys.anyStep s :=
    Runs.Sys.reach_run reach_start3 (by decide +kernel)
  obtain ⟨cs, spec, bs, hcs, hspec, hbs, hread, -⟩ := node_serves hs 2
  obtain ⟨hlist, -⟩ := hread ['/'] rfl
  have hrt : (applications 2 s.history).map (·.2.2) = [true, true].map some := by decide +kernel
  have hroot : (s.node 2).fs.listDir ['/'] = some [['a'], ['b']] := by decide +kernel
  obtain rfl := (List.map_injective_iff.2 (Option.some_injective Bool)) (hbs.symm.trans hrt)
  exact ⟨s, hs, cs, spec, hcs, hspec, hlist.symm.trans hroot⟩

end RaftFS
