import RaftFS.Proofs.Tree

/-!
# What a call does

A call puts a file or directories into the heap, cuts off a subtree or changes nothing
(`run_effect`). Whichever it is, an inode that is left is what it was but for its children, and its
way leads to it still (`Effect.way`). Nobody owns what the calls make (`reach_plain`).
-/

namespace RaftFS

/-- `i'` is `i` but for its children. -/
structure INode.Stays (i i' : INode) : Prop where
  name : i'.name = i.name
  owner : i'.owner = i.owner
  parent : i'.parent = i.parent
  isDir : i'.isDir = i.isDir

theorem INode.Stays.refl (i : INode) : i.Stays i := ⟨rfl, rfl, rfl, rfl⟩

theorem INode.Stays.insert (i : INode) (c : Ptr) (name : Str) :
    i.Stays (i.mapBody (.insert c name)) := by
  rcases i with ⟨_, _, _, _, _ | _⟩ <;> exact ⟨rfl, rfl, rfl, rfl⟩

theorem INode.Stays.erase (i : INode) (c : Ptr) (name : Str) :
    i.Stays (i.mapBody (.erase c name)) := by
  rcases i with ⟨_, _, _, _, _ | _⟩ <;> exact ⟨rfl, rfl, rfl, rfl⟩

theorem INode.Stays.adopt (i : INode) (c : Ptr) (name : Option Str) :
    i.Stays (i.mapBody (Heap.adopt c name)) := by
  cases name with
  | none => exact .refl i
  | some name => exact .insert i c name

namespace Heap

variable {h : Heap} {root p d d' it c : Ptr} {name n : Str} {names : List Str} {i : INode}

/-- Where directories are put into the heap, an inode has stayed or is one of them, which nobody
owns. -/
theorem WellFormed.chain_cell (hw : WellFormed h root) (hm : h.Missing d names)
    {env : Ptr → Alloc} (hi : (chain env h d names).cell p = some i) :
    (∃ j, h.cell p = some j ∧ j.Stays i) ∨
      h.fresh ≤ p ∧ i.isDir = true ∧ i.owner = unknownOwner ∧ i.name ∈ names := by
  have hg : Grown h (chain env h d names) env d names := grown_chain names hw hm
  rcases lt_or_ge p h.fresh with hlt | hge
  · left
    by_cases hpd : p = d
    · subst hpd
      rw [hg.top] at hi
      obtain ⟨j, hj, rfl⟩ := Option.map_eq_some_iff.1 hi
      exact ⟨j, hj, .adopt j _ _⟩
    · rw [hg.same p hlt hpd] at hi
      exact ⟨i, hi, .refl i⟩
  · have hw' : WellFormed (chain env h d names) root := wellFormed_chain names hw hm
    have hlt := hw'.lt_fresh _ _ hi
    obtain ⟨k, rfl⟩ := Nat.exists_eq_add_of_le hge
    rw [hg.fresh] at hlt
    have hk := Nat.lt_of_add_lt_add_left hlt
    rw [hg.made k _ (List.getElem?_eq_getElem hk)] at hi
    obtain rfl := Option.some.inj hi
    obtain ⟨cs, m, hb⟩ := exists_adopt (h.fresh + k + 1) names[k + 1]?
    exact .inr ⟨hge, by simp only [INode.isDir, hb], rfl, List.getElem_mem hk⟩

theorem WellFormed.pruned_child_iff (hw : WellFormed h root) (hc : h.Child d name it) :
    (h.pruned d it name).Child d' n c ↔ h.Child d' n c ∧ ¬ h.Below it c := by
  obtain ⟨cs, m, hdir, hit, -⟩ := hc
  have hd := hw.not_below_child hdir hit
  constructor
  · rintro ⟨es', f', he', hmem, hn⟩
    obtain ⟨es, f, he⟩ : ∃ es f, h.dir d' = some (es, f) := by
      obtain ⟨-, ⟨rfl, -, -⟩ | ⟨-, he⟩⟩ := pruned_dir_eq_some hd hdir he'
      · exact ⟨cs, m, hdir⟩
      · exact ⟨es', f', he⟩
    obtain ⟨hmem, hb⟩ := (hw.mem_pruned_dir hdir hit he he').1 hmem
    exact ⟨⟨es, f, he, hmem, (pruned_kept hb).name_iff.1 hn⟩, hb⟩
  · rintro ⟨⟨es, f, he, hmem, hn⟩, hb⟩
    have heb : ¬ h.Below it d' := fun h0 => hb ((hw.below_child he hmem).2 (.inr h0))
    obtain ⟨es', f', he'⟩ : ∃ es' f', (h.pruned d it name).dir d' = some (es', f') :=
      exists_pruned_dir heb he
    exact ⟨es', f', he', (hw.mem_pruned_dir hdir hit he he').2 ⟨hmem, hb⟩,
      (pruned_kept hb).name_iff.2 hn⟩

theorem WellFormed.pruned_way_iff (hw : WellFormed h root) (hc : h.Child d name it) :
    (h.pruned d it name).Way root names p ↔ h.Way root names p ∧ ¬ h.Below it p := by
  have hparent : ∀ d n c, h.Child d n c → h.parentOf c = some d :=
    fun _ _ _ hc => hw.parentOf_of_child hc
  exact Forest.Way.cut_iff hparent (fun _ _ _ => hw.pruned_child_iff hc)
    (hw.not_below_root (hw.child_ne_root hc))

end Heap

namespace FSCall

open FSNamespace Heap

/-- Who deletes. -/
def visitor? : FSCall → Option Str
  | .deleteDir _ visitor _ => some visitor
  | .removeFile _ visitor => some visitor
  | .makeDir _ _ _ _ | .createFile _ _ _ => none

/-- What a call may make of the heap. -/
inductive Effect (fs : FSNamespace) : FSCall → Heap → Prop
  | same {call : FSCall} : Effect fs call fs.heap
  | file {env : Ptr → Alloc} {path owner : Str} {d : Ptr} {cs : List Ptr} {m : Str → Option Ptr}
    {parts : List Str} {name : Str} (hsplit : splitPath path = parts ++ [name])
    (hway : fs.heap.Way fs.root parts d) (hd : fs.heap.dir d = some (cs, m)) (hm : m name = none)
    (hn : name ≠ []) (hs : '/' ∉ name) : Effect fs (.createFile env path owner)
      (fs.heap.inserted d (fs.heap.newFile env d name))
  | dirs {env : Ptr → Alloc} {path owner : Str} {makeParents : Bool} {old names : List Str}
    {e : Ptr} (hfile : fs.hasFile path = false) (hsplit : splitPath path = old ++ names)
    (hway : fs.heap.Way fs.root old e) (hm : fs.heap.Missing e names)
    (hmay : makeParents = true ∨ names.length ≤ 1) : Effect fs (.makeDir env path owner makeParents)
      (chain env fs.heap e names)
  | cut {call : FSCall} {visitor : Str} {d it : Ptr} {name : Str}
    (hcall : call.visitor? = some visitor) (hc : fs.heap.Child d name it) (hn : name ≠ []) :
    Effect fs call (fs.heap.pruned d it name)

variable {fs fs' : FSNamespace} {call : FSCall} {b : Bool} {h : Heap} {p : Ptr} {i : INode}
  {names : List Str}

theorem reach_run {G : Runs.Guard FSNamespace FSCall} (h : fsCalls.Reach G fs) (hG : G fs call)
    (hrun : call.run fs = some (fs', b)) : fsCalls.Reach G fs' :=
  .step h hG (Option.map_eq_some_iff.2 ⟨_, hrun, rfl⟩)

theorem run_effect (hw : WellFormed fs.heap fs.root) (hv : ValidPath fs call)
    (hrun : call.run fs = some (fs', b)) :
    fs' = { fs with heap := fs'.heap } ∧ Effect fs call fs'.heap := by
  have hdone : ∀ {h b'}, call.run fs = some ({ fs with heap := h }, b') → Effect fs call h →
      fs' = { fs with heap := fs'.heap } ∧ Effect fs call fs'.heap := by
    intro h b' h' he
    obtain ⟨rfl, -⟩ := Prod.mk.inj (Option.some.inj (hrun.symm.trans h'))
    exact ⟨rfl, he⟩
  cases call with
  | makeDir env path owner makeParents =>
    cases hfile : fs.hasFile path with
    | false =>
      obtain ⟨old, names, e, hsplit, hway, hm, ⟨hmay, h⟩ | ⟨-, h⟩⟩ :=
        makeDir_cases hw hv hfile env owner makeParents
      · exact hdone h (.dirs hfile hsplit hway hm hmay)
      · exact hdone h .same
    | true =>
      rcases makeDir_file hw hfile env owner makeParents with h | h
      · cases h.symm.trans hrun
      · exact hdone h .same
  | deleteDir path visitor recursive | removeFile path visitor =>
    rcases deleteInode_cases hw hv _ visitor _ with ⟨d, name, it, hdel, h⟩ | ⟨-, h⟩
    · exact hdone h (.cut rfl hdel.child hdel.name_ne)
    · exact hdone h .same
  | createFile env path owner =>
    rcases createFile_cases hw hv env owner with
      h | ⟨_, _, _, _, _, hsplit, hn, hs, hway, hd, hm, h⟩
    · exact hdone h .same
    · exact hdone h (.file hsplit hway hd hm hn hs)

/-- An empty part that is missing is made. -/
theorem makesUnnamed_of_missing (hw : WellFormed fs.heap fs.root) {env : Ptr → Alloc}
    {path owner : Str} {makeParents : Bool} {old : List Str} {e : Ptr}
    (hfile : fs.hasFile path = false) (hsplit : splitPath path = old ++ names)
    (hway : fs.heap.Way fs.root old e) (hm : fs.heap.Missing e names)
    (hmay : makeParents = true ∨ names.length ≤ 1) (hmem : [] ∈ names) :
    makesUnnamed fs (.makeDir env path owner makeParents) = true := by
  have hmem' : [] ∈ splitPath path := hsplit ▸ List.mem_append_right old hmem
  have hfound : names.length ≤ 1 → fs.getParentFolderAndChild path ≠ some (none, []) := by
    intro hlen hget
    have hall := (hm.length_le_one_iff hway fun q hq => hw.way_unique hq hway).1 hlen
    rw [← hsplit] at hall
    rcases (splitPath path).eq_nil_or_concat' with h0 | ⟨parts, name, hlast⟩
    · rw [h0] at hmem'
      cases hmem'
    · obtain ⟨d, hd, hdir⟩ := hall parts (hlast ▸ List.prefix_append parts [name]) (by simp [hlast])
      rcases getParentFolderAndChild_cases hw hlast with ⟨d', -, -, hget'⟩ | ⟨hnone, -⟩
      · cases hget'.symm.trans hget
      · exact hnone d hd hdir
  simp only [makesUnnamed, List.contains_iff_mem, hfile, Bool.and_eq_true, hmem', Bool.or_eq_true,
    Bool.not_false, true_and, decide_eq_true_eq]
  exact hmay.imp_right hfound

namespace Effect

variable (hw : WellFormed fs.heap fs.root) (he : Effect fs call h)
include hw he

/-- An inode that is left has stayed, or is new and nobody's. A new one has a name, unless the call
is such that it makes a directory without one. -/
theorem cell (hi : h.cell p = some i) :
    (∃ j, fs.heap.cell p = some j ∧ j.Stays i) ∨ fs.heap.fresh ≤ p ∧ call.visitor? = none ∧
      i.owner = unknownOwner ∧
        (i.name = [] → i.isDir = true ∧ call.makesUnnamed fs = true) := by
  cases he with
  | same => exact .inl ⟨i, hi, .refl i⟩
  | @file env path owner d cs m parts name hsplit hway hd hm hn hs =>
    by_cases hf : p = fs.heap.fresh
    · subst hf
      rw [inserted_cell_fresh] at hi
      obtain rfl := Option.some.inj hi
      exact .inr ⟨le_rfl, rfl, rfl, fun h0 => absurd h0 hn⟩
    · by_cases hpd : p = d
      · subst hpd
        rw [inserted_cell_self hf] at hi
        obtain ⟨j, hj, rfl⟩ := Option.map_eq_some_iff.1 hi
        exact .inl ⟨j, hj, .insert j _ _⟩
      · rw [inserted_cell_of_ne hf hpd] at hi
        exact .inl ⟨i, hi, .refl i⟩
  | dirs hfile hsplit hway hm hmay =>
    rcases hw.chain_cell hm hi with hold | ⟨hge, hdir, ho, hmem⟩
    · exact .inl hold
    · refine .inr ⟨hge, rfl, ho, fun h0 => ⟨hdir, ?_⟩⟩
      exact makesUnnamed_of_missing hw hfile hsplit hway hm hmay (h0 ▸ hmem)
  | @cut _ visitor d it name hcall hc hn =>
    left
    have hb := not_below_of_pruned (hw.not_below_of_child hc) hi
    by_cases hpd : p = d
    · subst hpd
      rw [pruned_cell_self] at hi
      obtain ⟨j, hj, rfl⟩ := Option.map_eq_some_iff.1 hi
      exact ⟨j, hj, .erase j _ _⟩
    · rw [pruned_cell_of_ne hpd hb] at hi
      exact ⟨i, hi, .refl i⟩

/-- As long as an inode is left, its way leads to it. -/
theorem way (hi : h.cell p = some i) (hp : fs.heap.Way fs.root names p) :
    h.Way fs.root names p := by
  cases he with
  | same => exact hp
  | @file env path owner d cs m parts name hsplit hway hd hm hn hs =>
    have himp : ∀ e n c, fs.heap.Child e n c →
        (fs.heap.inserted d (fs.heap.newFile env d name)).Child e n c := fun _ _ _ hc =>
      (hw.inserted_child_iff hd hm (isNew_newFile env hs)).2 (.inl hc)
    exact Forest.Way.imp himp hp
  | dirs hfile hsplit hway hm => exact (chain_way _ _ hw hm).1 hp
  | cut hcall hc hn =>
    exact (hw.pruned_way_iff hc).2 ⟨hp, not_below_of_pruned (hw.not_below_of_child hc) hi⟩

/-- The way of a new inode is part of the path. -/
theorem new_way (hnew : fs.heap.cell p = none) (hi : h.cell p = some i) :
    ∃ names, names <+: splitPath call.path ∧ h.Way fs.root names p := by
  rcases he.cell hw hi with ⟨j, hj, -⟩ | ⟨hge, hvis, -, -⟩
  · cases hnew.symm.trans hj
  cases he with
  | same => cases hnew.symm.trans hi
  | @file env path owner d cs m parts name hsplit hway hd hm hn hs =>
    have hnew : IsNew d (fs.heap.newFile env d name) := isNew_newFile env hs
    have hchild : ∀ e n c, (fs.heap.inserted d (fs.heap.newFile env d name)).Child e n c ↔
        fs.heap.Child e n c ∨ e = d ∧ n = name ∧ c = fs.heap.fresh := fun _ _ _ =>
      hw.inserted_child_iff hd hm hnew
    have hp : p = fs.heap.fresh :=
      le_antisymm (Nat.le_of_lt_succ ((hw.inserted hd hm hnew).lt_fresh p i hi)) hge
    refine ⟨parts ++ [name], hsplit ▸ List.prefix_refl _, Forest.Way.concat_iff.2 ⟨d, ?_, ?_⟩⟩
    · exact Forest.Way.imp (fun _ _ _ hc => (hchild _ _ _).2 (.inl hc)) hway
    · exact (hchild _ _ _).2 (.inr ⟨rfl, rfl, hp⟩)
  | @dirs env path owner makeParents old names e hfile hsplit hway hm =>
    have hw' : WellFormed (chain env fs.heap e names) fs.root := wellFormed_chain names hw hm
    have hlt := hw'.lt_fresh p i hi
    obtain ⟨k, rfl⟩ := Nat.exists_eq_add_of_le hge
    rw [(grown_chain names hw hm).fresh] at hlt
    have hk := Nat.lt_of_add_lt_add_left hlt
    obtain ⟨hold, hmade⟩ := chain_way env names hw hm
    obtain ⟨q, hq, -, hlen⟩ := hmade (names.take (k + 1)) (List.take_prefix _ _)
    have hqk : q = fs.heap.fresh + k := by
      have := hlen (by simpa using List.ne_nil_of_length_pos (Nat.zero_lt_of_lt hk))
      rw [List.length_take_of_le hk] at this
      exact Nat.succ_injective this
    refine ⟨old ++ names.take (k + 1), ?_, Forest.Way.append_iff.2 ⟨e, hold hway, hqk ▸ hq⟩⟩
    change old ++ names.take (k + 1) <+: splitPath path
    rw [hsplit]
    exact (List.prefix_append_right_inj old).2 (List.take_prefix _ _)
  | cut hcall hc hn => cases hvis.symm.trans hcall

/-- Only a deletion takes an inode away, and it cuts off a subtree that the inode is in. -/
theorem gone (hi : fs.heap.cell p = some i) (hg : h.cell p = none) :
    ∃ d name it, fs.heap.Child d name it ∧ name ≠ [] ∧ fs.heap.Below it p := by
  cases he with
  | same => cases hi.symm.trans hg
  | @file env path owner d cs m parts name hsplit hway hd hm hn hs =>
    have hf := (hw.lt_fresh p i hi).ne
    have hkept := inserted_kept (d := d) (i := fs.heap.newFile env d name) hf
    obtain ⟨j, hj, -⟩ := hkept.exists_cell hi
    cases hj.symm.trans hg
  | @dirs env path owner makeParents old names e hfile hsplit hway hm =>
    have hgr : Heap.Grown fs.heap (chain env fs.heap e names) env e names := grown_chain names hw hm
    by_cases hpe : p = e
    · subst hpe
      rw [hgr.top, hi] at hg
      cases hg
    · rw [hgr.same p (hw.lt_fresh p i hi) hpe, hi] at hg
      cases hg
  | @cut _ visitor d it name hcall hc hn =>
    refine ⟨d, name, it, hc, hn, ?_⟩
    by_contra hb
    have hkept : Kept fs.heap (fs.heap.pruned d it name) p := pruned_kept hb
    obtain ⟨j, hj, -⟩ := hkept.exists_cell hi
    cases hj.symm.trans hg

end Effect

end FSCall

namespace FSNamespace

/-- No inode but the root has an owner, and every file has a name. -/
structure Plain (fs : FSNamespace) : Prop where
  owner : ∀ p i, fs.heap.cell p = some i → p ≠ fs.root → i.owner = unknownOwner
  name : ∀ p i, fs.heap.cell p = some i → i.isFile = true → i.name ≠ []

theorem reach_plain {G : Runs.Guard FSNamespace FSCall}
    (hG : ∀ fs call, G fs call → FSCall.ValidPath fs call) {fs : FSNamespace}
    (h : fsCalls.Reach G fs) : fs.Plain := by
  refine h.inv (I := Plain) ?_ ?_
  · rintro _ ⟨env, rfl⟩
    constructor
    · intro p i hi hp
      simp only [FSNamespace.init, Option.ite_none_right_eq_some] at hi
      exact absurd hi.1 hp
    · intro p i hi hfile
      simp only [FSNamespace.init, Option.ite_none_right_eq_some, Option.some.injEq] at hi
      obtain ⟨-, rfl⟩ := hi
      cases hfile
  · intro fs call fs' hr hI hg hst
    obtain ⟨⟨_, b⟩, hrun, rfl⟩ := Option.map_eq_some_iff.1 hst
    have hw := reach_wellFormed hG hr
    obtain ⟨hfs, he⟩ := FSCall.run_effect hw (hG fs call hg) hrun
    have hroot := congrArg FSNamespace.root hfs
    constructor
    · intro p i hi hp
      rcases he.cell hw hi with ⟨j, hj, hs⟩ | ⟨-, -, ho, -⟩
      · exact hs.owner.trans (hI.owner p j hj (hroot ▸ hp))
      · exact ho
    · intro p i hi hfile
      rcases he.cell hw hi with ⟨j, hj, hs⟩ | ⟨-, -, -, hn⟩
      · rw [hs.name]
        exact hI.name p j hj (by rwa [INode.isFile, ← hs.isDir])
      · intro h0
        rw [INode.isFile, (hn h0).1] at hfile
        cases hfile

end FSNamespace

end RaftFS
