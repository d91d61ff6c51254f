import RaftFS.Proofs.Ways

/-!
# What `MakeDir` makes

The loop of `MakeDir` goes down as far as the parts lead, and makes the missing ones one in the
other (`Heap.chain`). Where it makes more than the last part it has remembered the first, but
forgets it again with the last, so that the code after the loop undoes nothing
(`makeDirLoop_chain`).
-/

namespace RaftFS

namespace Heap

variable {h h' : Heap} {root p d e c a : Ptr} {i : INode} {name n : Str} {names : List Str}
  {cs : List Ptr} {m : Str → Option Ptr} {env : Ptr → Alloc}

/-- Besides the children there were, there is the new one. -/
theorem WellFormed.inserted_child_iff (hw : WellFormed h root) (hdir : h.dir d = some (cs, m))
    (hfree : m i.name = none) (hi : IsNew d i) :
    (h.inserted d i).Child e n c ↔ h.Child e n c ∨ e = d ∧ n = i.name ∧ c = h.fresh := by
  have hw' := hw.inserted hdir hfree hi
  have hd := hw.ne_fresh ⟨cs, m, hdir⟩
  have hiff : ∀ {es f}, (h.inserted d i).dir e = some (es, f) →
      ((h.inserted d i).Child e n c ↔ h.Child e n c ∨ e = d ∧ n = i.name ∧ c = h.fresh) := by
    intro es f he
    rw [hw'.child_iff he]
    rcases inserted_dir_eq_some hdir he with ⟨rfl, hb⟩ | ⟨hf, ⟨rfl, rfl, rfl⟩ | ⟨hed, he⟩⟩
    · obtain ⟨rfl, rfl⟩ := hi.body _ _ hb
      have hnot : ¬ h.Child h.fresh n c := fun hc => hw.ne_fresh hc.isDir rfl
      simp [hnot, hd.symm]
    · rw [hw.child_iff hdir, Function.update_apply]
      split_ifs with hn
      · simp [hn, hfree, eq_comm]
      · simp [hn]
    · simp [hw.child_iff he, hed]
  constructor
  · intro hc
    obtain ⟨es, f, he⟩ := hc.isDir
    exact (hiff he).1 hc
  · intro hc
    have hdir' : ∃ es f, (h.inserted d i).dir e = some (es, f) := by
      rcases hc with hc | ⟨rfl, -, -⟩
      · obtain ⟨es, f, he⟩ := hc.isDir
        obtain ⟨es', f', he', -⟩ := exists_inserted_dir (i := i) hdir (hw.ne_fresh hc.isDir) he
        exact ⟨es', f', he'⟩
      · exact ⟨_, _, inserted_dir_self hd hdir⟩
    obtain ⟨es, f, he⟩ := hdir'
    exact (hiff he).2 hc

/-- The directories `names` below `d`, one in the other. -/
def chain (env : Ptr → Alloc) : Heap → Ptr → List Str → Heap
  | h, _, [] => h
  | h, d, name :: names => chain env (h.inserted d (h.newDir env d name)) h.fresh names

theorem inserted_fresh_dir : (h.inserted d (h.newDir env d name)).dir h.fresh =
    some ([], fun _ => none) :=
  dir_eq_some.2 ⟨_, inserted_cell_fresh, rfl⟩

/-- `d` has no child of the first name, nor do the names have a slash. -/
structure Missing (h : Heap) (d : Ptr) (names : List Str) : Prop where
  isDir : h.IsDir d
  free : ∀ name ∈ names.head?, ∀ c, ¬ h.Child d name c
  slash : ∀ name ∈ names, '/' ∉ name

namespace Missing

variable (hw : WellFormed h root) (hm : h.Missing d (name :: names))
include hm

theorem isNew (env : Ptr → Alloc) : IsNew d (h.newDir env d name) :=
  isNew_newDir env (hm.slash name List.mem_cons_self)

include hw

theorem exists_dir : ∃ cs m, h.dir d = some (cs, m) ∧ m name = none := by
  obtain ⟨cs, m, hd⟩ := hm.isDir
  refine ⟨cs, m, hd, Option.eq_none_iff_forall_ne_some.2 fun c hc => ?_⟩
  exact hm.free name rfl c ((hw.child_iff hd).2 hc)

theorem wellFormed (env : Ptr → Alloc) : WellFormed (h.inserted d (h.newDir env d name)) root := by
  obtain ⟨cs, m, hd, hfree⟩ := hm.exists_dir hw
  exact hw.inserted hd hfree (hm.isNew env)

theorem child_iff (env : Ptr → Alloc) : (h.inserted d (h.newDir env d name)).Child e n c ↔
    h.Child e n c ∨ e = d ∧ n = name ∧ c = h.fresh := by
  obtain ⟨cs, m, hd, hfree⟩ := hm.exists_dir hw
  exact hw.inserted_child_iff hd hfree (hm.isNew env)

theorem next (env : Ptr → Alloc) :
    (h.inserted d (h.newDir env d name)).Missing h.fresh names where
  isDir := ⟨_, _, inserted_fresh_dir⟩
  free next _ c hc := by
    rw [(hm.wellFormed hw env).child_iff inserted_fresh_dir] at hc
    cases hc
  slash n hn := hm.slash n (List.mem_cons_of_mem _ hn)

end Missing

theorem wellFormed_chain : ∀ (names : List Str) {h : Heap} {d : Ptr}, WellFormed h root →
    h.Missing d names → WellFormed (chain env h d names) root
  | [], _, _, hw, _ => hw
  | _ :: names, _, _, hw, hm =>
    wellFormed_chain names (hm.wellFormed hw env) (hm.next hw env)

/-- A child `p` more, if it has a name. -/
def adopt (p : Ptr) : Option Str → INodeBody → INodeBody
  | none, b => b
  | some name, b => b.insert p name

theorem exists_adopt (p : Ptr) (name : Option Str) :
    ∃ cs m, adopt p name (.dir [] fun _ => none) = .dir cs m := by
  cases name with
  | none => exact ⟨_, _, rfl⟩
  | some name => exact ⟨_, _, rfl⟩

/-- `h'` is `h` with the new directories `names` below `d`, one in the other, each at the end of its
parent's children. -/
structure Grown (h h' : Heap) (env : Ptr → Alloc) (d : Ptr) (names : List Str) : Prop where
  fresh : h'.fresh = h.fresh + names.length
  same : ∀ p, p < h.fresh → p ≠ d → h'.cell p = h.cell p
  top : h'.cell d = (h.cell d).map (INode.mapBody (adopt h.fresh names.head?))
  made : ∀ k name, names[k]? = some name → h'.cell (h.fresh + k) = some
    { name := name
      owner := unknownOwner
      createTime := (env (h.fresh + k)).now
      parent := some (if k = 0 then d else h.fresh + k - 1)
      body := adopt (h.fresh + k + 1) names[k + 1]? (.dir [] fun _ => none) }

theorem grown_chain : ∀ (names : List Str) {h : Heap} {d : Ptr}, WellFormed h root →
    h.Missing d names → Grown h (chain env h d names) env d names
  | [], h, d, hw, hm => by
    refine ⟨rfl, fun p _ _ => rfl, ?_, fun k name hk => by cases hk⟩
    rw [chain]
    rcases h.cell d with _ | i <;> rfl
  | name :: names, h, d, hw, hm => by
    obtain ⟨hfresh, hsame, htop, hmade⟩ :=
      grown_chain names (hm.wellFormed hw env) (hm.next hw env)
    have hd := hw.ne_fresh hm.isDir
    have hf : (h.inserted d (h.newDir env d name)).fresh = h.fresh + 1 := rfl
    rw [hf] at hfresh hsame htop hmade
    refine ⟨?_, fun p hp hpd => ?_, ?_, fun k n hk => ?_⟩
    · rw [chain, hfresh, List.length_cons, Nat.add_right_comm, Nat.add_assoc]
    · rw [chain, hsame p (Nat.lt_succ_of_lt hp) hp.ne, inserted_cell_of_ne hp.ne hpd]
    · obtain ⟨i, hi, -⟩ := isDir_iff.1 hm.isDir
      rw [chain, hsame d (Nat.lt_succ_of_lt (hw.lt_fresh d i hi)) hd, inserted_cell_self hd]
      rfl
    · cases k with
      | zero =>
        obtain rfl := Option.some.inj hk
        rw [chain, Nat.add_zero, htop, inserted_cell_fresh, List.getElem?_cons_succ,
          ← List.head?_eq_getElem?]
        rfl
      | succ k =>
        rw [List.getElem?_cons_succ] at hk
        have hk' : h.fresh + 1 + k = h.fresh + (k + 1) := by rw [Nat.add_assoc, Nat.add_comm 1]
        have hparent : (if k = 0 then h.fresh else h.fresh + (k + 1) - 1) = h.fresh + k := by
          split_ifs with h0
          · rw [h0, Nat.add_zero]
          · rfl
        have hk := hmade k n hk
        rw [hk', hparent] at hk
        rw [chain, hk]
        rfl

/-- The ways there were are there, and the names lead from `d` down the new directories. -/
theorem chain_way (env : Ptr → Alloc) : ∀ (names : List Str) {h : Heap} {d : Ptr},
    WellFormed h root → h.Missing d names →
      (∀ {a ns p}, h.Way a ns p → (chain env h d names).Way a ns p) ∧
      ∀ pre, pre <+: names → ∃ p, (chain env h d names).Way d pre p ∧
        (chain env h d names).IsDir p ∧ (pre ≠ [] → p + 1 = h.fresh + pre.length)
  | [], h, d, hw, hm => by
    refine ⟨fun hp => hp, fun pre hpre => ?_⟩
    obtain rfl := List.prefix_nil.1 hpre
    exact ⟨d, .nil, hm.isDir, fun h0 => absurd rfl h0⟩
  | name :: names, h, d, hw, hm => by
    have hgrown : Grown h (chain env h d (name :: names)) env d (name :: names) :=
      grown_chain _ hw hm
    obtain ⟨hold, hnew⟩ := chain_way env names (hm.wellFormed hw env) (hm.next hw env)
    have hins : ∀ e n c, h.Child e n c → (h.inserted d (h.newDir env d name)).Child e n c :=
      fun _ _ _ hc => (hm.child_iff hw env).2 (.inl hc)
    refine ⟨fun hp => hold (Forest.Way.imp hins hp), fun pre hpre => ?_⟩
    rcases pre with _ | ⟨n, pre⟩
    · refine ⟨d, .nil, ?_, fun h0 => absurd rfl h0⟩
      obtain ⟨i, hi, hid⟩ := isDir_iff.1 hm.isDir
      refine isDir_iff.2 ⟨_, by rw [hgrown.top, hi]; rfl, ?_⟩
      rcases i with ⟨_, _, _, _, _ | ⟨cs, m⟩⟩
      · cases hid
      · rfl
    · obtain ⟨rfl, hpre'⟩ := List.cons_prefix_cons.1 hpre
      obtain ⟨p, hp, hpd, hlen⟩ := hnew pre hpre'
      have hfirst : (h.inserted d (h.newDir env d n)).Way d [n] h.fresh :=
        Forest.Way.cons ((hm.child_iff hw env).2 (.inr ⟨rfl, rfl, rfl⟩)) .nil
      refine ⟨p, Forest.Way.append_iff.2 ⟨h.fresh, hold hfirst, hp⟩, hpd, fun _ => ?_⟩
      rcases pre with _ | ⟨n', pre⟩
      · obtain rfl := Forest.Way.nil_iff.1 hp
        rfl
      · rw [hlen (List.cons_ne_nil _ _)]
        exact (Nat.add_assoc h.fresh 1 _).trans (congrArg (h.fresh + ·) (Nat.add_comm 1 _))

theorem exists_isDir_of_prefix {old parts : List Str} (hway : h.Way a old e) (he : h.IsDir e)
    (hpre : parts <+: old) : ∃ p, h.Way a parts p ∧ h.IsDir p := by
  obtain ⟨rest, rfl⟩ := hpre
  obtain ⟨p, hp, hrest⟩ := Forest.Way.append_iff.1 hway
  rcases rest.eq_nil_or_concat' with rfl | ⟨rest, name, rfl⟩
  · obtain rfl := Forest.Way.nil_iff.1 hrest
    exact ⟨_, hp, he⟩
  · exact ⟨p, hp, isDir_of_way hrest (by simp)⟩

/-- All proper prefixes lead to directories just where no part but the last is missing. -/
theorem Missing.length_le_one_iff {old : List Str} (hm : h.Missing e names) (hway : h.Way a old e)
    (hunique : ∀ q, h.Way a old q → q = e) : names.length ≤ 1 ↔
      ∀ parts, parts <+: old ++ names → parts ≠ old ++ names →
        ∃ p, h.Way a parts p ∧ h.IsDir p := by
  constructor
  · intro hlen parts hpre hne
    have hold : parts <+: old := by
      rcases names with _ | ⟨name, _ | _⟩
      · rwa [List.append_nil] at hpre
      · exact (List.prefix_concat_iff.1 hpre).resolve_left hne
      · simp at hlen
    exact exists_isDir_of_prefix hway hm.isDir hold
  · intro hall
    by_contra hlen
    rcases names with _ | ⟨name, _ | ⟨name', names⟩⟩
    · simp at hlen
    · simp at hlen
    · obtain ⟨p, hp, -⟩ := hall (old ++ [name]) ⟨name' :: names, by simp⟩ (by simp)
      obtain ⟨e', he', hc⟩ := Forest.Way.concat_iff.1 hp
      obtain rfl := hunique e' he'
      exact hm.free name rfl p hc

end Heap

namespace FSNamespace

open Heap

variable {h : Heap} {root d e : Ptr} {env : Ptr → Alloc} {makeParents : Bool} {part : Str}
  {parts names : List Str} {i newDir : ℕ} {cs : List Ptr} {m : Str → Option Ptr}

theorem makeDirLoop_found (hd : h.dir d = some (cs, m)) {sub : Ptr} (hm : m part = some sub) :
    makeDirLoop env makeParents (part :: parts) h d i newDir =
      makeDirLoop env makeParents parts h sub (i + 1) newDir := by
  simp only [makeDirLoop, getChild_eq hd, hm, Option.bind_eq_bind, Option.bind_some]

theorem makeDirLoop_last (hd : h.dir d = some (cs, m)) (hf : d ≠ h.fresh) (hm : m part = none) :
    makeDirLoop env makeParents [part] h d i newDir =
      some (.left (h.inserted d (h.newDir env d part)) d (i + 1) 0) := by
  simp only [makeDirLoop, getChild_eq hd, hm, Option.bind_eq_bind, Option.bind_some,
    List.isEmpty_nil, if_true, createDir_eq env hd hf, Option.isSome_none, Bool.false_eq_true,
    if_false, Option.isSome_some]

theorem makeDirLoop_missing (hd : h.dir d = some (cs, m)) (hf : d ≠ h.fresh) (hm : m part = none)
    (hp : parts ≠ []) (hmp : makeParents = true) :
    makeDirLoop env makeParents (part :: parts) h d i newDir =
      makeDirLoop env makeParents parts (h.inserted d (h.newDir env d part)) h.fresh (i + 1)
        (if newDir = 0 then i else newDir) := by
  simp only [makeDirLoop, getChild_eq hd, hm, Option.bind_eq_bind, Option.bind_some,
    List.isEmpty_iff, if_neg hp, if_pos hmp, createDir_eq env hd hf, Option.isSome_none,
    Bool.false_eq_true, if_false]

theorem makeDirLoop_refused (hd : h.dir d = some (cs, m)) (hm : m part = none) (hp : parts ≠ [])
    (hmp : ¬ makeParents = true) :
    makeDirLoop env makeParents (part :: parts) h d i newDir = some (.returned h false) := by
  simp only [makeDirLoop, getChild_eq hd, hm, Option.bind_eq_bind, Option.bind_some,
    List.isEmpty_iff, if_neg hp, if_neg hmp, Option.pure_def]

theorem makeDirLoop_way (hw : WellFormed h root) (hway : h.Way d parts e) :
    makeDirLoop env makeParents (parts ++ names) h d i newDir =
      makeDirLoop env makeParents names h e (i + parts.length) newDir := by
  induction hway generalizing i with
  | nil => rfl
  | cons hc _ ih =>
    obtain ⟨cs, m, hd⟩ := hc.isDir
    rw [List.cons_append, makeDirLoop_found hd ((hw.child_iff hd).1 hc), ih, List.length_cons,
      Nat.add_assoc, Nat.add_comm 1]

/-- The loop makes what is missing, if it is just the last part or the loop may. It does not
remember a missing level to the end. -/
theorem makeDirLoop_chain : ∀ (names : List Str) {h : Heap} {d : Ptr} {i newDir : ℕ},
    WellFormed h root → h.Missing d names → makeParents = true ∨ names.length ≤ 1 →
      newDir = 0 ∨ names ≠ [] →
        ∃ c j, makeDirLoop env makeParents names h d i newDir =
          some (.left (chain env h d names) c j 0)
  | [], h, d, i, newDir, _, _, _, hn => by
    obtain rfl := hn.resolve_right fun h0 => h0 rfl
    exact ⟨d, i, rfl⟩
  | name :: names, h, d, i, newDir, hw, hm, hmay, _ => by
    obtain ⟨cs, m, hd, hfree⟩ := hm.exists_dir hw
    have hf := hw.ne_fresh hm.isDir
    by_cases hne : names = []
    · subst hne
      exact ⟨d, i + 1, makeDirLoop_last hd hf hfree⟩
    · have hmp : makeParents = true := hmay.resolve_right fun hlen => hne (by simpa using hlen)
      rw [makeDirLoop_missing hd hf hfree hne hmp]
      exact makeDirLoop_chain names (hm.wellFormed hw env) (hm.next hw env) (.inl hmp) (.inr hne)

theorem meetsFile_found (hd : h.dir d = some (cs, m)) {sub : Ptr} (hm : m part = some sub) :
    meetsFile h (part :: parts) d =
      if (h.cell sub).any INode.isDir then meetsFile h parts sub else true := by
  simp only [meetsFile, getChild_eq hd, hm]

/-- Where no part names a file, the parts lead to a directory up to the first missing one. -/
theorem exists_missing (hw : WellFormed h root) : ∀ (parts : List Str) {d : Ptr}, h.IsDir d →
    (∀ p ∈ parts, '/' ∉ p) → meetsFile h parts d = false →
      ∃ old names e, parts = old ++ names ∧ h.Way d old e ∧ h.Missing e names
  | [], d, hd, hs, _ => ⟨[], [], d, rfl, .nil, ⟨hd, by simp, hs⟩⟩
  | part :: parts, d, hdir, hs, hfile => by
    obtain ⟨cs, m, hd⟩ := hdir
    rcases hm : m part with _ | sub
    · refine ⟨[], part :: parts, d, rfl, .nil, ⟨⟨cs, m, hd⟩, ?_, hs⟩⟩
      rintro name ⟨⟩ c hc
      rw [hw.child_iff hd, hm] at hc
      cases hc
    · rw [meetsFile_found hd hm] at hfile
      split_ifs at hfile with hsub
      obtain ⟨j, hj, hjd⟩ := (Option.any_eq_true _ _).1 hsub
      obtain ⟨old, names, e, rfl, hway, hmiss⟩ := exists_missing hw parts (isDir_iff.2 ⟨j, hj, hjd⟩)
        (fun p hp => hs p (List.mem_cons_of_mem _ hp)) hfile
      exact ⟨part :: old, names, e, rfl, .cons ((hw.child_iff hd).2 hm) hway, hmiss⟩

/-- Where a part names a file, the loop goes up to it, and if it comes to an end it has changed
nothing. -/
theorem makeDirLoop_file (hw : WellFormed h root) : ∀ (parts : List Str) {d : Ptr} {i newDir : ℕ}
    {exit : MakeDirExit}, h.IsDir d → meetsFile h parts d = true →
      makeDirLoop env makeParents parts h d i newDir = some exit →
        ∃ c j, exit = .left h c j newDir
  | [], _, _, _, _, _, hfile, _ => by cases hfile
  | part :: parts, d, i, newDir, exit, hdir, hfile, hl => by
    obtain ⟨cs, m, hd⟩ := hdir
    rcases hm : m part with _ | sub
    · simp [meetsFile, getChild_eq hd, hm] at hfile
    · rw [makeDirLoop_found hd hm] at hl
      rw [meetsFile_found hd hm] at hfile
      split_ifs at hfile with hsub
      · obtain ⟨j, hj, hjd⟩ := (Option.any_eq_true _ _).1 hsub
        exact makeDirLoop_file hw parts (isDir_iff.2 ⟨j, hj, hjd⟩) hfile hl
      · cases parts with
        | nil => exact ⟨sub, i + 1, (Option.some.inj hl).symm⟩
        | cons part' parts =>
          have hnot : ¬ h.IsDir sub := by
            intro hs
            obtain ⟨j, hj, hjd⟩ := isDir_iff.1 hs
            exact hsub ((Option.any_eq_true _ _).2 ⟨j, hj, hjd⟩)
          simp [makeDirLoop, getChild, dir_eq_none hnot] at hl

variable {fs : FSNamespace} {path : Str}

/-- The loop of `MakeDir` on a path without a file in it. -/
theorem makeDirLoop_cases (hw : WellFormed fs.heap fs.root) (hv : validatePath path = true)
    (hfile : fs.hasFile path = false) (env : Ptr → Alloc) (makeParents : Bool) :
    ∃ old names e, splitPath path = old ++ names ∧ fs.heap.Way fs.root old e ∧
      fs.heap.Missing e names ∧
        ((makeParents = true ∨ names.length ≤ 1) ∧
            (∃ c j, makeDirLoop env makeParents (splitPath path) fs.heap fs.root 0 0 =
              some (.left (chain env fs.heap e names) c j 0)) ∨
          ¬ (makeParents = true ∨ names.length ≤ 1) ∧
            makeDirLoop env makeParents (splitPath path) fs.heap fs.root 0 0 =
              some (.returned fs.heap false)) := by
  obtain ⟨old, names, e, hsplit, hway, hm⟩ := exists_missing hw (splitPath path) hw.isDir_root
    (fun p hp => not_mem_of_mem_splitPath hv hp) hfile
  refine ⟨old, names, e, hsplit, hway, hm, ?_⟩
  rw [hsplit, makeDirLoop_way hw hway]
  by_cases hmay : makeParents = true ∨ names.length ≤ 1
  · exact .inl ⟨hmay, makeDirLoop_chain names hw hm hmay (.inl rfl)⟩
  · refine .inr ⟨hmay, ?_⟩
    obtain ⟨hmp, hlen⟩ := not_or.1 hmay
    rcases names with _ | ⟨name, names⟩
    · simp at hlen
    · obtain ⟨cs, m, hd, hfree⟩ := hm.exists_dir hw
      exact makeDirLoop_refused hd hfree (by simpa using hlen) hmp

/-- `MakeDir` on a path without a file in it makes the missing directories, or changes nothing. -/
theorem makeDir_cases (hw : WellFormed fs.heap fs.root) (hv : validatePath path = true)
    (hfile : fs.hasFile path = false) (env : Ptr → Alloc) (owner : Str) (makeParents : Bool) :
    ∃ old names e, splitPath path = old ++ names ∧ fs.heap.Way fs.root old e ∧
      fs.heap.Missing e names ∧
        ((makeParents = true ∨ names.length ≤ 1) ∧ fs.makeDir env path owner makeParents =
            some ({ fs with heap := chain env fs.heap e names }, true) ∨
          ¬ (makeParents = true ∨ names.length ≤ 1) ∧
            fs.makeDir env path owner makeParents = some (fs, false)) := by
  obtain ⟨old, names, e, hsplit, hway, hm, ⟨hmay, c, j, hl⟩ | ⟨hmay, hl⟩⟩ :=
    makeDirLoop_cases hw hv hfile env makeParents
  · exact ⟨old, names, e, hsplit, hway, hm, .inl ⟨hmay, by rw [makeDir, hl]; rfl⟩⟩
  · exact ⟨old, names, e, hsplit, hway, hm, .inr ⟨hmay, by rw [makeDir, hl]; rfl⟩⟩

theorem makeDir_file (hw : WellFormed fs.heap fs.root) (hfile : fs.hasFile path = true)
    (env : Ptr → Alloc) (owner : Str) (makeParents : Bool) :
    fs.makeDir env path owner makeParents = none ∨
      fs.makeDir env path owner makeParents = some (fs, true) := by
  rw [makeDir]
  rcases hl : makeDirLoop env makeParents (splitPath path) fs.heap fs.root 0 0 with _ | exit
  · exact .inl rfl
  · obtain ⟨c, j, rfl⟩ := makeDirLoop_file hw _ hw.isDir_root hfile hl
    exact .inr rfl

end FSNamespace

end RaftFS
