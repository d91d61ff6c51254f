import RaftFS.Proofs.Serves
import Mathlib.Data.Fintype.Lattice

/-!
# One sequence of writes

What a tree answers and what becomes of its names does not depend on what its files keep
(`Entry.alike_write`). So where what is applied is safe and applied in order, there is one sequence
of writes, each of which a client has asked for, and at every time of the run every node has applied
the first of them, shows the tree they make, and has on record what they answer (`replicated`).
-/

namespace RaftFS

open FSNamespace

namespace FSTree

variable {φ ψ : Type} {t : FSTree φ} {f : φ → ψ} {path : Str}

theorem makeDir_map (makeParents : Bool) : FSTree.makeDir (t.map f) path makeParents =
    (t.makeDir path makeParents).map (Prod.map (·.map f) id) := by
  unfold makeDir
  rw [PathTree.hasFile_map, PathTree.isDir_map, ← PathTree.map_mkdirs]
  split_ifs
  all_goals rfl

theorem deleteNode_map (found : Bool) (parts : List Str) (recursive : Bool) :
    FSTree.deleteNode (t.map f) found parts recursive =
      Prod.map (·.map f) id (t.deleteNode found parts recursive) := by
  unfold deleteNode
  rw [PathTree.names_map, ← PathTree.map_cut]
  split_ifs
  all_goals rfl

theorem createFile_map (data : φ) : FSTree.createFile (t.map f) path (f data) =
    Prod.map (·.map f) id (t.createFile path data) := by
  unfold createFile
  cases (splitPath path).getLast? with
  | none => rfl
  | some name =>
    simp only [PathTree.canMake_map]
    split_ifs
    · rw [Prod.map_apply, PathTree.map_make, PathTree.Kind.map_file]
      rfl
    · rfl

end FSTree

theorem Entry.write_map {φ : Type} {env : Ptr → Alloc} {e : Entry} {c : FSCall}
    (hc : e.call env = some c) (data : (Ptr → Alloc) → φ) (t : FSTree φ) :
    FSTree.write (t.map fun _ => ()) (e.op, e.value) =
      (c.onTree data t).map (Prod.map (·.map fun _ => ()) id) := by
  unfold Entry.call at hc
  split at hc
  case h_5 => cases hc
  all_goals
    rename_i hop
    rw [← Option.some.inj hc, hop]
    simp only [FSTree.write, FSCall.onTree, Option.map_some]
  · exact FSTree.makeDir_map true
  · rw [FSTree.deleteDir, PathTree.isDir_map, FSTree.deleteNode_map]
    rfl
  · rw [FSTree.createFile_map (f := fun _ => ())]
  · rw [FSTree.removeFile, PathTree.isFile_map, FSTree.deleteNode_map]
    rfl

theorem Entry.write_eq_none {env : Ptr → Alloc} {e : Entry} {c : FSCall} (hc : e.call env = some c)
    (s : FSSpec) :
    FSTree.write (s.tree.map fun _ => ()) (e.op, e.value) = none ↔ s.call c = none := by
  rw [Entry.write_map hc (fun env => env s.made), FSSpec.call, Option.map_eq_none_iff,
    Option.map_eq_none_iff]

/-- The specification answers a call as the names alone answer the write. -/
theorem Entry.alike_write : Answers.Alike
    (fun (s : FSSpec) (t : FSTree Unit) => s.tree.map (fun _ => ()) = t)
    (fun c w => ∃ (env : Ptr → Alloc) (e : Entry), e.call env = some c ∧ w = (e.op, e.value))
    FSSpec.call FSTree.write := by
  rintro s _ c _ rfl ⟨env, e, hc, rfl⟩
  rw [Entry.write_map hc (fun env => env s.made), FSSpec.call]
  cases c.onTree (fun env => env s.made) s.tree with
  | none => exact .inl ⟨rfl, rfl⟩
  | some r => exact .inr ⟨_, _, r.2, rfl, rfl, rfl⟩

/-- The writes of what is applied. -/
def writesOf (done : List (ℕ × Entry × Option Bool)) : List (MetaOp × Str) :=
  done.map fun a => (a.2.1.op, a.2.1.value)

theorem Serves.writes {fs : FSNamespace} {done : List (ℕ × Entry × Option Bool)} {spec : FSSpec}
    (h : Serves fs done spec) : ∃ t bs, FSTree.writes .empty (writesOf done) = some (t, bs) ∧
      done.map (·.2.2) = bs.map some ∧
      fs.heap.Shows fs.root spec.tree ∧ spec.tree.map (fun _ => ()) = t := by
  obtain ⟨⟨m, hm⟩, cs, bs, hcs, hspec, hbs⟩ := h
  have hq : List.Forall₂ (fun c w => ∃ (env : Ptr → Alloc) (e : Entry), e.call env = some c ∧
      w = (e.op, e.value)) cs (writesOf done) := by
    rw [writesOf, List.forall₂_map_right_iff]
    refine hcs.flip.imp ?_
    rintro c a ⟨env, hc⟩
    exact ⟨env, a.2.1, hc, rfl⟩
  have hempty : FSSpec.init.tree.map (fun _ => ()) = (PathTree.empty : FSTree Unit) := rfl
  rcases Entry.alike_write.run hempty hq with ⟨hnone, -⟩ | ⟨spec', t, bs', hspec', hrun, ht⟩
  · cases hnone.symm.trans hspec
  · obtain ⟨rfl, rfl⟩ := Prod.mk.inj (Option.some.inj (hspec'.symm.trans hspec))
    exact ⟨t, bs', hrun, hbs, hm.shown, ht⟩

variable {n : ℕ}

open Ballots Cluster

section History

variable {s s' : Cluster n} {x : Fin n}

theorem appliedIndices_eq (x : Fin n) (history : List (Event n)) :
    appliedIndices x history = (applications x history).map (·.1) := by
  rw [appliedIndices, applications, List.map_reverse, List.map_filterMap]
  congr 2
  funext ev
  cases ev with
  | applied y i e rt =>
    simp only
    split_ifs
    all_goals rfl
  | becameLeader | committed => rfl

theorem mem_applications {history : List (Event n)} {i : ℕ} {e : Entry} {rt : Option Bool} :
    (i, e, rt) ∈ applications x history ↔ .applied x i e rt ∈ history := by
  simp only [applications, List.mem_reverse, List.mem_filterMap]
  constructor
  · rintro ⟨ev, hev, hi⟩
    cases ev with
    | applied y j e' rt' =>
      simp only [Option.ite_none_right_eq_some, Option.some.injEq, Prod.mk.injEq] at hi
      obtain ⟨rfl, rfl, rfl, rfl⟩ := hi
      exact hev
    | becameLeader | committed => simp at hi
  · exact fun hev => ⟨_, hev, if_pos rfl⟩

theorem Cluster.Change.history {a : Action n} (h : s.Change a s') : s.history <:+ s'.history := by
  cases h with
  | aeTake | rvTake | fsStep => exact List.suffix_append _ _
  | _ => exact List.suffix_rfl

theorem step_history {a : Action n} (hst : s.step a = some s') : s.history <:+ s'.history := by
  obtain ⟨t, hc, hr⟩ := step_changes hst
  cases hr with
  | _ => exact hc.history

theorem later_history {G : Runs.Guard (Cluster n) (Action n)} (hl : (cluster n).Later G s s') :
    s.history <:+ s'.history :=
  hl.inv (I := fun t => s.history <:+ t.history) List.suffix_rfl
    fun _ _ _ hI _ hst => hI.trans (step_history hst)

theorem applications_later {G : Runs.Guard (Cluster n) (Action n)}
    (hl : (cluster n).Later G s s') (x : Fin n) :
    applications x s.history <+: applications x s'.history := by
  rw [applications, applications, List.reverse_prefix]
  exact (later_history hl).filterMap _

theorem reach_applied {G : Runs.Guard (Cluster n) (Action n)} (h : (cluster n).Reach G s)
    (x : Fin n) : ∀ a ∈ applications x s.history, Submitted s a.2.1 := by
  refine h.inv (I := fun s => ∀ a ∈ applications x s.history, Submitted s a.2.1) ?_ ?_
  · rintro _ ⟨env, junk, rfl⟩ a ha
    simp [applications, Cluster.init] at ha
  · intro s a s' hs hI hg hst
    have hlater : ∀ {e}, Submitted s e → Submitted s' e := fun he =>
      Submitted.later hs (.step .refl hg hst) he
    rcases step_applies hst x with ⟨hdone, -⟩ | ⟨env, i, c, e, rt, -, he, -, hdone⟩
    · rw [hdone]
      exact fun a ha => hlater (hI a ha)
    · rw [hdone]
      intro a ha
      rcases List.mem_append.1 ha with ha | ha
      · exact hlater (hI a ha)
      · rw [List.mem_singleton.1 ha]
        exact hlater ((reach_submitted hs).log x e (LogManager.mem_of_getEntry he).1)

end History

/-- Lists that agree wherever two of them have an element are the beginnings of one. -/
theorem exists_common {α : Type*} {L : Fin n → List α}
    (h : ∀ x y (i : ℕ) a b, (L x)[i]? = some a → (L y)[i]? = some b → a = b) :
    ∃ l, (∀ a ∈ l, ∃ x, a ∈ L x) ∧ ∀ x, L x <+: l := by
  rcases isEmpty_or_nonempty (Fin n) with hn | hn
  · exact ⟨[], fun a ha => (List.not_mem_nil ha).elim, fun x => hn.elim x⟩
  · obtain ⟨y, hy⟩ := Finite.exists_max fun x => (L x).length
    refine ⟨L y, fun a ha => ⟨y, ha⟩, fun x => List.prefix_iff_getElem?.2 fun i hi => ?_⟩
    have hlt : i < (L y).length := hi.trans_le (hy x)
    rw [List.getElem?_eq_getElem hlt]
    exact congrArg some
      (h y x i _ _ (List.getElem?_eq_getElem hlt) (List.getElem?_eq_getElem hi))

/-- What is applied is safe, and applied in order. -/
def Replicating (s : Cluster n) (a : Action n) : Prop := s.Applying a ∧ KeepsIndex s a

instance (s : Cluster n) (a : Action n) : Decidable (Replicating s a) :=
  inferInstanceAs (Decidable (_ ∧ _))

theorem Replicating.applying {s : Cluster n} (h : (cluster n).Reach Replicating s) :
    (cluster n).Reach Applying s :=
  h.mono (fun _ _ hg => hg.1)

theorem Replicating.keepsIndex {s : Cluster n} (h : (cluster n).Reach Replicating s) :
    (cluster n).Reach KeepsIndex s :=
  h.mono (fun _ _ hg => hg.2)

/-- A node that keeps its index has come to the entry after the ones it has applied, which are those
of the indices `1`, `2`, ... in order. -/
theorem reach_counted {s : Cluster n} (h : (cluster n).Reach KeepsIndex s) (x : Fin n) :
    Counted (s.node x) (applications x s.history).length ∧
      appliedIndices x s.history = List.range' 1 (applications x s.history).length := by
  have hlen : (applications x s.history).length = (appliedIndices x s.history).length := by
    rw [appliedIndices_eq, List.length_map]
  rw [hlen]
  refine reach_fs (I := fun nd is => Counted nd is.length ∧ is = List.range' 1 is.length)
    (fun env junk => ⟨⟨Nat.zero_le _, rfl, fun i hi => by cases hi⟩, rfl⟩)
    (fun nd nd' is hI hf => ⟨hI.1.frame hf, hI.2⟩) ?_ h x
  intro s x env nd applied is hr hg hst ⟨hcount, his⟩
  obtain ⟨fs, th, m, rfl, rfl, hs⟩ := Node.fsUpdateLoop_cases hst
  obtain ⟨⟨rfl, hp⟩ | ⟨e, rt, rfl, hle, hp⟩, hbegun⟩ := hcount.next (reach_gateOk hr x) hg hs
  · rw [Option.map_none, Option.toList_none, List.append_nil]
    exact ⟨⟨hcount.le, hp, hbegun⟩, his⟩
  · rw [Option.map_some, Option.toList_some, List.length_append, List.length_singleton]
    exact ⟨⟨hle, hp, hbegun⟩, by rw [List.range'_1_concat, ← his, Nat.add_comm 1]⟩

theorem applications_place {s : Cluster n} (h : (cluster n).Reach KeepsIndex s) {x : Fin n}
    {k i : ℕ} {e : Entry} {rt : Option Bool}
    (hk : (applications x s.history)[k]? = some (i, e, rt)) :
    i = k + 1 ∧ .applied x i e rt ∈ s.history := by
  have hi : (List.range' 1 (applications x s.history).length)[k]? = some i := by
    rw [← (reach_counted h x).2, appliedIndices_eq, List.getElem?_map, hk, Option.map_some]
  obtain ⟨hlt, hi⟩ := List.getElem?_eq_some_iff.1 hi
  rw [List.getElem_range', Nat.one_mul, Nat.add_comm] at hi
  exact ⟨hi.symm, mem_applications.1 (List.mem_of_getElem? hk)⟩

theorem chosen_entry {t : LCore n} {s : Cluster n} (hl : Linked True True t s) {U V N M i : ℕ}
    {e e' : Entry} (hi : 0 < i) (hU : t.Chosen Entry.term IsQuorum U N) (hN : i ≤ N)
    (he : (t.canon U)[i - 1]? = some e)
    (hV : t.Chosen Entry.term IsQuorum V M) (hM : i ≤ M) (he' : (t.canon V)[i - 1]? = some e') :
    e = e' := by
  have heq := hl.run.chosen_agree quorums_meet hU hV (hl.run.won_of_chosen quorums_meet hU)
    (hl.run.won_of_chosen quorums_meet hV) (i := i - 1) (by omega) (by omega)
  rw [he, he'] at heq
  exact Option.some.inj heq

/-- Where what is applied is safe, an index is applied with one entry. -/
theorem applied_agree {s : Cluster n} (h : (cluster n).Reach Applying s) {x y : Fin n} {i : ℕ}
    {e e' : Entry} {rt rt' : Option Bool} (hx : .applied x i e rt ∈ s.history)
    (hy : .applied y i e' rt' ∈ s.history) : e = e' := by
  obtain ⟨t, hl⟩ := linked_of_applying h
  obtain ⟨hi, T, N, hch, hN, he⟩ := hl.event _ hx trivial
  obtain ⟨-, U, M, hch', hM, he'⟩ := hl.event _ hy trivial
  exact chosen_entry hl hi hch hN he hch' hM he'

theorem writesOf_agree {s : Cluster n} (h : (cluster n).Reach Replicating s) (x y : Fin n) (k : ℕ)
    (w w' : MetaOp × Str) (hw : (writesOf (applications x s.history))[k]? = some w)
    (hw' : (writesOf (applications y s.history))[k]? = some w') : w = w' := by
  rw [writesOf, List.getElem?_map, Option.map_eq_some_iff] at hw hw'
  obtain ⟨⟨i, e, rt⟩, hk, rfl⟩ := hw
  obtain ⟨⟨i', e', rt'⟩, hk', rfl⟩ := hw'
  obtain ⟨rfl, he⟩ := applications_place (Replicating.keepsIndex h) hk
  obtain ⟨rfl, he'⟩ := applications_place (Replicating.keepsIndex h) hk'
  rw [applied_agree (Replicating.applying h) he he']

/-- Where what is applied is safe and applied in order: there is one sequence of writes, each of
which a client has asked for, so that at any time of the run each node has applied the first so many
of them, each once, has on record what they answer on the empty tree, and shows the tree that they
leave. -/
theorem replicated {s' : Cluster n} (h : (cluster n).Reach Replicating s') :
    ∃ ws : List (MetaOp × Str), (∀ w ∈ ws, ∃ e, Submitted s' e ∧ w = (e.op, e.value)) ∧
      ∀ s x, (cluster n).Reach Replicating s → (cluster n).Later Replicating s s' →
        ∃ k t t' bs, k ≤ ws.length ∧ appliedIndices x s.history = List.range' 1 k ∧
          writesOf (applications x s.history) = ws.take k ∧
          FSTree.writes .empty (ws.take k) = some (t, bs) ∧
          (applications x s.history).map (·.2.2) = bs.map some ∧
          (s.node x).fs.heap.Shows (s.node x).fs.root t' ∧ t'.map (fun _ => ()) = t := by
  obtain ⟨ws, hasked, hpre⟩ := exists_common (L := fun x => writesOf (applications x s'.history))
    (writesOf_agree h)
  refine ⟨ws, fun w hw => ?_, fun s x hs hl => ?_⟩
  · obtain ⟨x, hx⟩ := hasked w hw
    obtain ⟨a, ha, rfl⟩ := List.mem_map.1 hx
    exact ⟨a.2.1, reach_applied h x a ha, rfl⟩
  · obtain ⟨spec, hserves⟩ := reach_serves hs x
    obtain ⟨t, bs, hrun, hbs, hshow, ht⟩ := hserves.writes
    obtain ⟨-, hk⟩ := reach_counted (Replicating.keepsIndex hs) x
    have hlen : (writesOf (applications x s.history)).length =
        (applications x s.history).length := by rw [writesOf, List.length_map]
    have hprefix : writesOf (applications x s.history) <+: ws :=
      ((applications_later hl x).map _).trans (hpre x)
    have htake : ws.take (applications x s.history).length =
        writesOf (applications x s.history) := by
      rw [← hlen]
      exact (List.prefix_iff_eq_take.1 hprefix).symm
    exact ⟨_, t, spec.tree, bs, hlen ▸ hprefix.length_le, hk, htake.symm, by rw [htake, hrun], hbs,
      hshow, ht⟩

/-- Nodes `1` and `2` have applied the one write, with the same answer. -/
theorem replicated_both : ∃ s, ∃ ws : List (MetaOp × Str), (cluster 3).Reach Replicating s ∧
    ∀ x, x = 1 ∨ x = 2 → appliedIndices x s.history = [1] ∧
      writesOf (applications x s.history) = ws.take 1 ∧
      ∃ t, FSTree.writes .empty (ws.take 1) = some (t, [true]) := by
  let s := (cluster 3).run Replicating start3 (readyToCommit ++ [.aeReturn 3] ++ call 0 1 4 ++
    call 0 2 5 ++ applyNext 1 ++ applyNext 2)
  have hs : (cluster 3).Reach Replicating s := Runs.Sys.reach_run reach_start3 (by decide +kernel)
  obtain ⟨ws, -, hws⟩ := replicated hs
  refine ⟨s, ws, hs, fun x hx => ?_⟩
  have hone : appliedIndices x s.history = [1] ∧
      (applications x s.history).map (·.2.2) = [true].map some := by
    rcases hx with rfl | rfl
    all_goals decide +kernel
  obtain ⟨k, t, -, bs, -, hk, hwrites, hrun, hbs, -⟩ := hws s x hs .refl
  obtain rfl : k = 1 := by
    have := congrArg List.length (hk.symm.trans hone.1)
    simpa using this
  obtain rfl := List.map_injective_iff.2 (Option.some_injective Bool) (hbs.symm.trans hone.2)
  exact ⟨hone.1, hwrites, t, hrun⟩

end RaftFS
