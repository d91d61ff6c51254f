import RaftFS.Proofs.Replicated

/-!
# What the answers say

The answers that the calls on a namespace have had tell what it has: a path is there as soon as a
call has made it, until one deletes it or what it lies in, and it is a file if it was created since.
What `ListDir` and `GetFileInfo` read can be told from the answers alone (`answers_tell`), and what
a node reads from the results it has on record (`node_answers_tell`).
-/

namespace RaftFS

open FSNamespace

section Effects

/-- An operation on the path that succeeds leaves something at `q`. -/
def MetaOp.Makes (op : MetaOp) (path : Str) (q : List Str) : Prop :=
  op = .kMkdir ∧ q <+: splitPath path ∨ op = .kCreate ∧ q = splitPath path

/-- An operation on the path that succeeds leaves a file at `q` of its own. -/
def MetaOp.Creates (op : MetaOp) (path : Str) (q : List Str) : Prop :=
  op = .kCreate ∧ q = splitPath path

/-- An operation on the path that succeeds leaves nothing at `q`. -/
def MetaOp.Deletes (op : MetaOp) (path : Str) (q : List Str) : Prop :=
  (op = .kRmdir ∨ op = .kDelete) ∧ splitPath path <+: q

instance (op : MetaOp) (path : Str) (q : List Str) : Decidable (op.Makes path q) :=
  inferInstanceAs (Decidable (_ ∨ _))

instance (op : MetaOp) (path : Str) (q : List Str) : Decidable (op.Creates path q) :=
  inferInstanceAs (Decidable (_ ∧ _))

instance (op : MetaOp) (path : Str) (q : List Str) : Decidable (op.Deletes path q) :=
  inferInstanceAs (Decidable (_ ∧ _))

/-- From the operations with their paths and answers, the oldest first: something is at `q`. -/
def There (l : List ((MetaOp × Str) × Bool)) (q : List Str) : Prop :=
  q = [] ∨ Answers.Since (fun r => r.2 = true ∧ r.1.1.Makes r.1.2 q)
    (fun r => r.2 = true ∧ r.1.1.Deletes r.1.2 q) l

/-- From the operations with their paths and answers, the oldest first: a file is at `q`. -/
def ThereFile (l : List ((MetaOp × Str) × Bool)) (q : List Str) : Prop :=
  Answers.Since (fun r => r.2 = true ∧ r.1.1.Creates r.1.2 q)
    (fun r => r.2 = true ∧ r.1.1.Deletes r.1.2 q) l

/-- From the operations with their paths and answers, the oldest first: a directory is at `q`. -/
def ThereDir (l : List ((MetaOp × Str) × Bool)) (q : List Str) : Prop :=
  There l q ∧ ¬ ThereFile l q

instance (l : List ((MetaOp × Str) × Bool)) (q : List Str) : Decidable (There l q) :=
  inferInstanceAs (Decidable (_ ∨ _))

instance (l : List ((MetaOp × Str) × Bool)) (q : List Str) : Decidable (ThereFile l q) :=
  inferInstanceAs (Decidable (Answers.Since _ _ l))

instance (l : List ((MetaOp × Str) × Bool)) (q : List Str) : Decidable (ThereDir l q) :=
  inferInstanceAs (Decidable (_ ∧ _))

/-- The operation of a call. -/
def FSCall.op : FSCall → MetaOp
  | .makeDir _ _ _ _ => .kMkdir
  | .deleteDir _ _ _ => .kRmdir
  | .createFile _ _ _ => .kCreate
  | .removeFile _ _ => .kDelete

end Effects

section Tree

namespace FSTree

variable {φ : Type} {t t' : FSTree φ} {path : Str} {b : Bool} {q : List Str}

theorem prefix_dropLast {p l : List Str} (h : p <+: l) (hne : p ≠ l) : p <+: l.dropLast := by
  rcases List.eq_nil_or_concat' l with rfl | ⟨l, a, rfl⟩
  · exact absurd (List.prefix_nil.1 h) hne
  · rw [List.dropLast_concat]
    exact (List.prefix_concat_iff.1 h).resolve_left hne

/-- A directory that is made has all the way to it. What was there before is left, be it a file. -/
theorem find_makeDir {makeParents : Bool} (h : t.makeDir path makeParents = some (t', b)) :
    t'.find q = if b = true ∧ q <+: splitPath path then (t.find q).or (some .dir)
      else t.find q := by
  unfold makeDir at h
  split_ifs at h with hfile hdir
  · obtain ⟨rfl, rfl⟩ := Prod.mk.inj (Option.some.inj h)
    simp only [true_and]
    by_cases hthere : t.find (splitPath path) = none
    · -- no file is on the way
      have hfree : t.hasFile ([] ++ splitPath path) = false := by
        rw [List.nil_append, Bool.eq_false_iff]
        intro hf
        obtain ⟨p, hp, d, hd⟩ := PathTree.hasFile_iff.1 hf
        rcases eq_or_ne p (splitPath path) with rfl | hne
        · rw [hthere] at hd
          cases hd
        · exact hfile (PathTree.hasFile_iff.2 ⟨p, prefix_dropLast hp hne, d, hd⟩)
      rw [PathTree.find_mkdirs (PathTree.find_eq_some_iff.2 t.root) hfree]
      simp only [List.nil_prefix, true_and, List.nil_append]
      split_ifs with hq
      · rcases hk : t.find q with _ | k
        · rfl
        · cases k with
          | dir => rfl
          | file d =>
            rw [List.nil_append, PathTree.hasFile_iff.2 ⟨q, hq, d, hk⟩] at hfree
            cases hfree
      · rfl
    · rw [PathTree.mkdirs_eq (by rwa [List.nil_append])]
      split_ifs with hq
      · obtain ⟨k, hk⟩ := Option.ne_none_iff_exists'.1 (PathTree.find_ne_none_of_prefix hthere hq)
        rw [hk]
        rfl
      · rfl
  · obtain ⟨rfl, rfl⟩ := Prod.mk.inj (Option.some.inj h)
    simp

/-- What is deleted is gone with all that is under it. -/
theorem find_deleteNode {found recursive : Bool} {parts : List Str} (hne : parts ≠ [])
    (h : t.deleteNode found parts recursive = (t', b)) :
    t'.find q = if b = true ∧ parts <+: q then none else t.find q := by
  unfold deleteNode at h
  split_ifs at h with hdel
  · obtain ⟨rfl, rfl⟩ := Prod.mk.inj h
    simp only [true_and]
    exact PathTree.find_cut hne
  · obtain ⟨rfl, rfl⟩ := Prod.mk.inj h
    simp

theorem find_createFile {data : φ} (h : t.createFile path data = (t', b)) :
    t'.find q = if b = true ∧ q = splitPath path then some (.file data) else t.find q := by
  unfold createFile at h
  rcases List.eq_nil_or_concat' (splitPath path) with hnil | ⟨parts, name, hsplit⟩
  · rw [hnil] at h
    obtain ⟨rfl, rfl⟩ := Prod.mk.inj h
    simp
  · rw [getLast?_splitPath hsplit, dropLast_splitPath hsplit] at h
    simp only at h
    split_ifs at h with hmake
    · obtain ⟨rfl, rfl⟩ := Prod.mk.inj h
      rw [PathTree.find_make hmake.2, hsplit]
      simp only [true_and]
    · obtain ⟨rfl, rfl⟩ := Prod.mk.inj h
      simp

end FSTree

section Call

variable {φ : Type} {t t' : FSTree φ} {data : (Ptr → Alloc) → φ} {c : FSCall} {b : Bool}
  {q : List Str}

/-- What a call with its answer does to what is at `q`. -/
theorem FSCall.there_onTree (hv : validatePath c.path = true)
    (h : c.onTree data t = some (t', b)) :
    t'.find q ≠ none ↔ b = true ∧ c.op.Makes c.path q ∨
      t.find q ≠ none ∧ ¬ (b = true ∧ c.op.Deletes c.path q) := by
  cases c with
  | makeDir env absDir owner makeParents =>
    rw [FSTree.find_makeDir h]
    simp only [op, path, MetaOp.Makes, MetaOp.Deletes]
    split_ifs with hq <;> simp [hq]
  | deleteDir absDir visitor recursive =>
    rw [FSTree.find_deleteNode (splitPath_ne_nil hv) (Option.some.inj h)]
    simp only [op, path, MetaOp.Makes, MetaOp.Deletes]
    split_ifs with hq <;> simp [hq]
  | createFile env newFile owner =>
    rw [FSTree.find_createFile (Option.some.inj h)]
    simp only [op, path, MetaOp.Makes, MetaOp.Deletes]
    split_ifs with hq <;> simp [hq]
  | removeFile fileName visitor =>
    rw [FSTree.find_deleteNode (splitPath_ne_nil hv) (Option.some.inj h)]
    simp only [op, path, MetaOp.Makes, MetaOp.Deletes]
    split_ifs with hq <;> simp [hq]

/-- What a call with its answer does to the file that is at `q`. -/
theorem FSCall.file_onTree (hv : validatePath c.path = true)
    (h : c.onTree data t = some (t', b)) :
    t'.isFile q = true ↔ b = true ∧ c.op.Creates c.path q ∨
      t.isFile q = true ∧ ¬ (b = true ∧ c.op.Deletes c.path q) := by
  rw [PathTree.isFile_iff, PathTree.isFile_iff]
  cases c with
  | makeDir env absDir owner makeParents =>
    rw [FSTree.find_makeDir h]
    simp only [op, path, MetaOp.Creates, MetaOp.Deletes]
    split_ifs with hq
    · rcases t.find q with _ | k <;> simp
    · simp
  | deleteDir absDir visitor recursive =>
    rw [FSTree.find_deleteNode (splitPath_ne_nil hv) (Option.some.inj h)]
    simp only [op, path, MetaOp.Creates, MetaOp.Deletes]
    split_ifs with hq <;> simp [hq]
  | createFile env newFile owner =>
    rw [FSTree.find_createFile (Option.some.inj h)]
    simp only [op, path, MetaOp.Creates, MetaOp.Deletes]
    split_ifs with hq <;> simp [hq]
  | removeFile fileName visitor =>
    rw [FSTree.find_deleteNode (splitPath_ne_nil hv) (Option.some.inj h)]
    simp only [op, path, MetaOp.Creates, MetaOp.Deletes]
    split_ifs with hq <;> simp [hq]

end Call

end Tree

section Spec

variable {cs : List FSCall} {s : FSSpec} {bs : List Bool} {q : List Str}

/-- The calls with their answers. -/
def answered (cs : List FSCall) (bs : List Bool) : List ((MetaOp × Str) × Bool) :=
  (cs.map fun c => (c.op, c.path)).zip bs

/-- After any calls from the empty tree, what is there and what is a file can be told from the
answers. -/
theorem FSSpec.calls_tell (h : FSSpec.init.calls cs = some (s, bs))
    (hv : ∀ c ∈ cs, validatePath c.path = true) :
    (s.tree.find q ≠ none ↔ There (answered cs bs) q) ∧
      (s.tree.isFile q = true ↔ ThereFile (answered cs bs) q) := by
  have hzip : answered cs bs = (cs.zip bs).map (Prod.map (fun c => (c.op, c.path)) id) := by
    rw [answered, List.zip_map_left]
  have hcall : ∀ {s s' : FSSpec} {c : FSCall} {b : Bool}, s.call c = some (s', b) →
      c.onTree (fun env => env s.made) s.tree = some (s'.tree, b) := by
    intro s s' c b hc
    obtain ⟨⟨t, b'⟩, htree, he⟩ := Option.map_eq_some_iff.1 hc
    obtain ⟨rfl, rfl⟩ := Prod.mk.inj he
    exact htree
  rw [There, ThereFile, hzip, Answers.since_map, Answers.since_map]
  constructor
  · by_cases hq : q = []
    · rw [hq, PathTree.find_eq_some_iff.2 s.tree.root]
      simp
    · rw [or_iff_right hq]
      refine Answers.run_since (P := fun s : FSSpec => s.tree.find q ≠ none)
        (fun s c s' b hv hc => FSCall.there_onTree hv (hcall hc)) ?_ h hv
      simp [FSSpec.init, PathTree.find, PathTree.empty, Ne.symm hq]
  · refine Answers.run_since (P := fun s : FSSpec => s.tree.isFile q = true)
      (fun s c s' b hv hc => FSCall.file_onTree hv (hcall hc)) ?_ h hv
    rw [PathTree.isFile_iff]
    rintro ⟨d, hd⟩
    have hmem := PathTree.find_eq_some_iff.1 hd
    simp [FSSpec.init, PathTree.empty] at hmem

end Spec

section Reads

/-- The parts of the directory that `ListDir` lists. -/
def listed (path : Str) : List Str :=
  if (splitPath path).getLast? = some [] then (splitPath path).dropLast else splitPath path

/-- What the namespace reads at the path is what the operations with their answers tell of it. The
path of a file is asked for, or one that has an empty last part, or the directory it lies in is
looked up in vain. -/
structure Tells (l : List ((MetaOp × Str) × Bool)) (fs : FSNamespace) (path : Str) : Prop where
  listDir : ∀ names, fs.listDir path = some names →
    names.Nodup ∧ ∀ a, a ∈ names ↔ There l (listed path ++ [a])
  listDir_none : fs.listDir path = none ↔
    (splitPath path).getLast? ≠ some [] ∧ ThereFile l (splitPath path)
  found : (splitPath path).getLast? ≠ some [] → ThereFile l (splitPath path) → ∀ info,
    ∃ info', fs.getFileInfo path info = some (true, info') ∧ info'.path = path
  missing : ∀ info, fs.getFileInfo path info = some (false, info) ↔
    (splitPath path).getLast? ≠ some [] ∧ ThereDir l (splitPath path).dropLast ∧
      ¬ There l (splitPath path)
  getFileInfo_none : ∀ info, fs.getFileInfo path info = none ↔
    (splitPath path).getLast? ≠ some [] ∧ ThereDir l (splitPath path)

variable {l : List ((MetaOp × Str) × Bool)} {t : FSTree Alloc} {fs : FSNamespace} {path : Str}

theorem Tells.of_tree (hthere : ∀ q, t.find q ≠ none ↔ There l q)
    (hfile : ∀ q, t.isFile q = true ↔ ThereFile l q) (hlist : fs.listDir path = t.listDir path)
    (hinfo : ∀ info, fs.getFileInfo path info = t.getFileInfo path info) : Tells l fs path := by
  have hdir : ∀ q, t.isDir q = true ↔ ThereDir l q := by
    intro q
    rw [ThereDir, ← hthere, ← hfile, PathTree.isDir_iff, PathTree.isFile_iff]
    rcases t.find q with _ | k
    · simp
    · cases k <;> simp
  have hparent : t.find (splitPath path) ≠ none → t.isDir (splitPath path).dropLast = true := by
    intro h
    rw [PathTree.isDir_iff]
    obtain ⟨k, hk⟩ := Option.ne_none_iff_exists'.1 h
    rcases List.eq_nil_or_concat' (splitPath path) with hnil | ⟨parts, name, hsplit⟩
    · rw [hnil]
      exact PathTree.find_eq_some_iff.2 t.root
    · rw [hsplit] at hk ⊢
      rw [List.dropLast_concat]
      exact PathTree.find_parent hk
  constructor
  · intro names h
    rw [hlist, FSTree.listDir] at h
    have hnames : names = t.names (listed path) := by
      unfold listed
      split_ifs at h ⊢ with hlast hf
      · exact (Option.some.inj h).symm
      · exact (Option.some.inj h).symm
    rw [hnames]
    exact ⟨PathTree.nodup_names, fun a => PathTree.mem_names.trans (hthere _)⟩
  · rw [hlist, FSTree.listDir, ← hfile]
    split_ifs with hlast hf
    · simp [hlast]
    · exact iff_of_true rfl ⟨hlast, hf⟩
    · exact iff_of_false (by simp) fun h => hf h.2
  · intro hlast hf info
    obtain ⟨d, hd⟩ := PathTree.isFile_iff.1 ((hfile _).2 hf)
    rw [hinfo, FSTree.getFileInfo, if_neg (by simp [hlast, hparent (by simp [hd])]), hd]
    exact ⟨_, rfl, rfl⟩
  · intro info
    rw [hinfo, FSTree.getFileInfo, ← hthere (splitPath path), ← hdir]
    split_ifs with hlook
    · refine iff_of_false (by simp) fun h => hlook.elim h.1 fun h' => ?_
      rw [h.2.1] at h'
      cases h'
    · obtain ⟨hlast, hd⟩ := not_or.1 hlook
      rcases t.find (splitPath path) with _ | k
      · simpa [hlast] using hd
      · cases k <;> simp
  · intro info
    rw [hinfo, FSTree.getFileInfo, ← hdir]
    split_ifs with hlook
    · refine iff_of_false (by simp) fun h => hlook.elim h.1 fun h' => ?_
      rw [hparent (by simp [PathTree.isDir_iff.1 h.2])] at h'
      cases h'
    · obtain ⟨hlast, -⟩ := not_or.1 hlook
      rw [PathTree.isDir_iff]
      rcases t.find (splitPath path) with _ | k
      · simp
      · cases k <;> simp [hlast]

end Reads

section Runs

open Cluster

variable {n : ℕ}

/-- After any calls on valid paths from the empty namespace, whatever is read of a path can be told
from what the calls have answered. -/
theorem answers_tell {env : Ptr → Alloc} {cs : List FSCall} {fs : FSNamespace} {bs : List Bool}
    (h : (FSNamespace.init env).calls cs = some (fs, bs))
    (hv : ∀ c ∈ cs, validatePath c.path = true) {path : Str} (hp : validatePath path = true) :
    Tells (answered cs bs) fs path := by
  rcases (init_refines env).calls hv with ⟨hnone, -⟩ | ⟨fs', s, bs', hrun, hspec, hr⟩
  · cases hnone.symm.trans h
  · obtain ⟨rfl, rfl⟩ := Prod.mk.inj (Option.some.inj (hrun.symm.trans h))
    exact .of_tree (fun q => (FSSpec.calls_tell hspec hv).1)
      (fun q => (FSSpec.calls_tell hspec hv).2) (listDir_shows hr.wellFormed hr.shown hp)
      (getFileInfo_shows hr.wellFormed hr.shown hr.plain hp)

/-- A file is made and deleted, and then it is not found. -/
theorem answers_tell_deleted : ∃ (env : Ptr → Alloc) (fs : FSNamespace),
    (FSNamespace.init env).calls [.createFile env ['/', 'f'] [], .removeFile ['/', 'f'] []] =
      some (fs, [true, true]) ∧ fs.getFileInfo ['/', 'f'] {} = some (false, {}) := by
  let env : Ptr → Alloc := fun _ => ⟨0, 0⟩
  have hrun : ((FSNamespace.init env).calls [.createFile env ['/', 'f'] [],
      .removeFile ['/', 'f'] []]).map (·.2) = some [true, true] := rfl
  obtain ⟨⟨fs, bs⟩, hrun, rfl⟩ := Option.map_eq_some_iff.1 hrun
  have htell : Tells _ fs ['/', 'f'] := answers_tell hrun (by simp [FSCall.path]; decide) rfl
  exact ⟨env, fs, hrun, (htell.missing {}).2 ⟨by decide, by decide, by decide⟩⟩

theorem Entry.call_op {env : Ptr → Alloc} {e : Entry} {c : FSCall} (h : e.call env = some c) :
    c.op = e.op := by
  unfold call at h
  split at h
  case h_5 => cases h
  all_goals
    rename_i hop
    rw [← Option.some.inj h, hop]
    rfl

/-- What a node has applied, as operations with their paths and results. -/
def results (x : Fin n) (history : List (Event n)) : List ((MetaOp × Str) × Bool) :=
  (applications x history).map fun a => ((a.2.1.op, a.2.1.value), a.2.2 == some true)

/-- Entries that are applied are the calls they stand for. -/
theorem answered_of_calls {done : List (ℕ × Entry × Option Bool)} {cs : List FSCall}
    {bs : List Bool} (h : List.Forall₂ (fun a c => ∃ env, a.2.1.call env = some c) done cs)
    (hbs : done.map (·.2.2) = bs.map some) (hv : ∀ a ∈ done, validatePath a.2.1.value = true) :
    (done.map fun a => ((a.2.1.op, a.2.1.value), a.2.2 == some true)) = answered cs bs ∧
      ∀ c ∈ cs, validatePath c.path = true := by
  induction h generalizing bs with
  | nil =>
    obtain rfl := List.map_eq_nil_iff.1 hbs.symm
    exact ⟨rfl, fun _ hc => absurd hc List.not_mem_nil⟩
  | @cons a c done cs hac _ ih =>
    obtain ⟨env, hac⟩ := hac
    obtain ⟨b, bs, rfl, hb, hbs⟩ := List.map_eq_cons_iff.1 hbs.symm
    have hb : a.2.2 = some b := hb.symm
    obtain ⟨hl, hvs⟩ := ih hbs.symm fun a' ha' => hv a' (List.mem_cons_of_mem _ ha')
    constructor
    · rw [List.map_cons, hl, hb, ← Entry.call_op hac, ← Entry.call_path hac]
      cases b <;> rfl
    · intro c' hc'
      rcases List.mem_cons.1 hc' with rfl | hc'
      · rw [Entry.call_path hac]
        exact hv a List.mem_cons_self
      · exact hvs c' hc'

/-- In any run, whatever a node reads of a path can be told from the results of the operations it
has applied. -/
theorem node_answers_tell {s : Cluster n} (h : (cluster n).Reach Runs.Sys.anyStep s) (x : Fin n)
    {path : Str} (hp : validatePath path = true) :
    Tells (results x s.history) (s.node x).fs path := by
  obtain ⟨spec, hs⟩ := reach_serves h x
  obtain ⟨cs, bs, hcs, hspec, hbs⟩ := hs.calls
  obtain ⟨hresults, hv⟩ := answered_of_calls hcs hbs fun a ha => (reach_applied h x a ha).valid
  rw [results, hresults]
  exact .of_tree (fun q => (FSSpec.calls_tell hspec hv).1) (fun q => (FSSpec.calls_tell hspec hv).2)
    (hs.listDir hp) (hs.getFileInfo hp)

/-- Node `2` has made two directories, which tells what it lists in the root. -/
theorem node_answers_tell_two :
    ∃ s, (cluster 3).Reach Runs.Sys.anyStep s ∧
      results 2 s.history = [((.kMkdir, ['/', 'a']), true), ((.kMkdir, ['/', 'b']), true)] ∧
      ∃ names, (s.node 2).fs.listDir ['/'] = some names ∧
        ∀ a, a ∈ names ↔ There (results 2 s.history) [a] := by
  let s := (cluster 3).run Runs.Sys.anyStep start3 (secondCommit ++ applyNext 2)
  have hs : (cluster 3).Reach Runs.Sys.anyStep s :=
    Runs.Sys.reach_run reach_start3 (by decide +kernel)
  have htell : Tells (results 2 s.history) (s.node 2).fs ['/'] := node_answers_tell hs 2 rfl
  have hroot : (s.node 2).fs.listDir ['/'] = some [['a'], ['b']] := by decide +kernel
  exact ⟨s, hs, by decide +kernel, _, hroot, (htell.listDir _ hroot).2⟩

end Runs

end RaftFS
