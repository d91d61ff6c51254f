import RaftFS.Options
import Mathlib.Data.List.Nodup

/-!
# The servers of a hosts file

All servers read the same hosts file, each on its own host. They agree on who has which id and on
the quorum exactly when no name is in the file twice (`servers_agree_iff`). Then the ids are the
places in the file, which a client counts by, and the remotes of each are all the others
(`server_of_nodup`).
-/

namespace RaftFS

section Map

variable {id : ℕ} {h : Str} {hosts : List (ℕ × Str)}

theorem setHost_eq_append (hlt : ∀ p ∈ hosts, p.1 < id) :
    setHost id h hosts = hosts ++ [(id, h)] := by
  induction hosts with
  | nil => rfl
  | cons p hosts ih =>
    have hp := hlt p List.mem_cons_self
    rw [setHost, if_neg hp.not_gt, if_neg hp.ne', ih fun q hq => hlt q (List.mem_cons_of_mem _ hq),
      List.cons_append]

theorem setHost_eq_self (hs : hosts.Pairwise fun p q => p.1 < q.1) (hmem : (id, h) ∈ hosts) :
    setHost id h hosts = hosts := by
  induction hosts with
  | nil => exact absurd hmem List.not_mem_nil
  | cons p hosts ih =>
    obtain ⟨hp, hs⟩ := List.pairwise_cons.1 hs
    rcases List.mem_cons.1 hmem with rfl | hmem
    · rw [setHost, if_neg (lt_irrefl _), if_pos rfl]
    · have hlt := hp _ hmem
      rw [setHost, if_neg hlt.not_gt, if_neg hlt.ne', ih hs hmem]

end Map

section Loop

/-- The names other than `self`, with the ids they have from `id` on. -/
def others (self : Str) : List Str → (id : ℕ) → List (ℕ × Str)
  | [], _ => []
  | h :: hs, id => if h = self then others self hs (id + 1) else (id, h) :: others self hs (id + 1)

/-- The id of the last name that is `self`. -/
def lastId (self : Str) : List Str → (id : ℕ) → Option ℕ
  | [], _ => none
  | h :: hs, id => (lastId self hs (id + 1)).or (if h = self then some id else none)

variable {self : Str} {hs : List Str} {id k : ℕ} {b : Str} {o : Options}

theorem exists_place_cons {h : Str} {P : ℕ → Prop} :
    (∃ i, k = id + i ∧ (h :: hs)[i]? = some b ∧ P i) ↔
      k = id ∧ h = b ∧ P 0 ∨ ∃ i, k = id + 1 + i ∧ hs[i]? = some b ∧ P (i + 1) := by
  constructor
  · rintro ⟨i, hk, hi, hP⟩
    cases i with
    | zero => exact .inl ⟨hk, Option.some.inj hi, hP⟩
    | succ i => exact .inr ⟨i, by omega, hi, hP⟩
  · rintro (⟨rfl, rfl, hP⟩ | ⟨i, hk, hi, hP⟩)
    · exact ⟨0, rfl, rfl, hP⟩
    · exact ⟨i + 1, by omega, hi, hP⟩

theorem mem_others :
    (k, b) ∈ others self hs id ↔ ∃ i, k = id + i ∧ hs[i]? = some b ∧ b ≠ self := by
  induction hs generalizing id with
  | nil => simp [others]
  | cons h hs ih =>
    rw [exists_place_cons (P := fun _ => b ≠ self), ← ih, others]
    split_ifs with hself
    · rw [or_iff_right]
      rintro ⟨-, rfl, hne⟩
      exact hne hself
    · rw [List.mem_cons, Prod.mk.injEq]
      refine or_congr_left ⟨?_, fun h => ⟨h.1, h.2.1.symm⟩⟩
      rintro ⟨rfl, rfl⟩
      exact ⟨rfl, rfl, hself⟩

theorem lastId_eq_none : lastId self hs id = none ↔ self ∉ hs := by
  induction hs generalizing id with
  | nil => simp [lastId]
  | cons h hs ih =>
    rw [lastId, Option.or_eq_none_iff, ih, List.mem_cons, not_or, and_comm]
    split_ifs with hself
    · simp [hself]
    · simp [Ne.symm hself]

theorem lastId_eq_some : lastId self hs id = some k ↔
    ∃ i, k = id + i ∧ hs[i]? = some self ∧ ∀ j, i < j → hs[j]? ≠ some self := by
  induction hs generalizing id k with
  | nil => simp [lastId]
  | cons h hs ih =>
    have hafter : ∀ i, (∀ j, i + 1 < j → (h :: hs)[j]? ≠ some self) ↔
        ∀ j, i < j → hs[j]? ≠ some self := by
      refine fun i => ⟨fun H j hj => H (j + 1) (Nat.succ_lt_succ hj), fun H j hj => ?_⟩
      obtain ⟨j, rfl⟩ := Nat.exists_eq_succ_of_ne_zero (Nat.ne_zero_of_lt hj)
      exact H j (Nat.lt_of_succ_lt_succ hj)
    have hrest : (∀ j, 0 < j → (h :: hs)[j]? ≠ some self) ↔ self ∉ hs := by
      rw [List.mem_iff_getElem?, not_exists]
      refine ⟨fun H j => H (j + 1) j.succ_pos, fun H j hj => ?_⟩
      obtain ⟨j, rfl⟩ := Nat.exists_eq_succ_of_ne_zero hj.ne'
      exact H j
    rw [exists_place_cons (P := fun i => ∀ j, i < j → (h :: hs)[j]? ≠ some self), lastId,
      Option.or_eq_some_iff, ih, lastId_eq_none, or_comm, hrest]
    simp only [hafter]
    refine or_congr_left ?_
    split_ifs with hself
    · simp only [hself, true_and, Option.some.injEq, and_comm, eq_comm]
    · simp [hself]

theorem length_others (self : Str) (hs : List Str) (id : ℕ) :
    (others self hs id).length + hs.count self = hs.length := by
  induction hs generalizing id with
  | nil => rfl
  | cons h hs ih =>
    rw [others, List.count_cons, List.length_cons, ← ih (id + 1)]
    split_ifs with hself heq heq
    · omega
    · exact absurd (beq_iff_eq.2 hself) heq
    · exact absurd (beq_iff_eq.1 heq) hself
    · rw [List.length_cons]
      omega

theorem others_sorted : (others self hs id).Pairwise fun p q => p.1 < q.1 := by
  induction hs generalizing id with
  | nil => exact .nil
  | cons h hs ih =>
    rw [others]
    split_ifs with hself
    · exact ih
    · refine List.pairwise_cons.2 ⟨fun p hp => ?_, ih⟩
      obtain ⟨i, hk, -⟩ := mem_others.1 hp
      simp only [hk]
      omega

theorem getHostsLoop_eq (hlt : ∀ p ∈ o.hosts, p.1 < id) (found : Bool) :
    Options.getHostsLoop hs id found o = ({ o with
      hosts := o.hosts ++ others o.selfName hs id
      selfId := (lastId o.selfName hs id).or o.selfId }, found || decide (o.selfName ∈ hs)) := by
  induction hs generalizing id found o with
  | nil => simp [Options.getHostsLoop, others, lastId]
  | cons h hs ih =>
    rw [Options.getHostsLoop, others, lastId]
    split_ifs with hself
    · rw [ih (o := { o with selfId := some id }) fun p hp => (hlt p hp).trans (Nat.lt_succ_self id)]
      simp [hself]
    · rw [setHost_eq_append hlt, ih]
      · simp [Ne.symm hself]
      · intro p hp
        rcases List.mem_append.1 hp with hp | hp
        · exact (hlt p hp).trans (Nat.lt_succ_self id)
        · obtain rfl := List.mem_singleton.1 hp
          exact Nat.lt_succ_self id

/-- From where the others are there already, the loop adds nothing. -/
theorem getHostsLoop_again (hsort : o.hosts.Pairwise fun p q => p.1 < q.1)
    (hmem : ∀ p ∈ others o.selfName hs id, p ∈ o.hosts) (found : Bool) :
    Options.getHostsLoop hs id found o = ({ o with
      selfId := (lastId o.selfName hs id).or o.selfId }, found || decide (o.selfName ∈ hs)) := by
  induction hs generalizing id found o with
  | nil => simp [Options.getHostsLoop, lastId]
  | cons h hs ih =>
    rw [others] at hmem
    rw [Options.getHostsLoop, lastId]
    split_ifs at hmem ⊢ with hself
    · rw [ih (o := { o with selfId := some id }) hsort hmem]
      simp [hself]
    · rw [setHost_eq_self hsort (hmem _ List.mem_cons_self),
        ih hsort fun p hp => hmem p (List.mem_cons_of_mem _ hp)]
      simp [Ne.symm hself]

end Loop

section Server

variable {text a b : Str}

/-- What a server is built with. Its second reading of the file changes nothing. -/
theorem server_eq (text a : Str) : server text a = if a ∈ words text then some
    { selfId := lastId a (words text) 1
      remotes := others a (words text) 1
      quorumSize := ((others a (words text) 1).length + 1) / 2 + 1 } else none := by
  have hname : ({} : Options).getSelfName a = { selfName := a } := rfl
  have hread : Options.getHostsLoop (words text) 1 false { selfName := a } =
      ({ selfName := a, hosts := others a (words text) 1, selfId := lastId a (words text) 1 },
        decide (a ∈ words text)) := by
    rw [getHostsLoop_eq fun p hp => absurd hp List.not_mem_nil]
    simp
  unfold server
  rw [hname, Options.getHosts, hread]
  split_ifs with hmem
  · simp only [hmem, decide_true, if_true, Option.bind_eq_bind, Option.bind_some, raftConsensus]
    rw [Options.getHosts, getHostsLoop_again others_sorted fun p hp => hp]
    simp [hmem]
  · simp [hmem]

/-- A server on a host of the file. Servers agree where each is built with a quorum of the names in
the file, and the others have it under its own id, and no other. -/
def ServersAgree (text : Str) : Prop :=
  ∀ a ∈ words text, ∃ cfg, server text a = some cfg ∧
    cfg.quorumSize = quorumSize (words text).length ∧
    ∀ b ∈ words text, b ≠ a → ∃ cfg', server text b = some cfg' ∧
      ∀ k, (k, a) ∈ cfg'.remotes ↔ cfg.selfId = some k

theorem quorumSize_others (hn : (words text).Nodup) (ha : a ∈ words text) :
    ((others a (words text) 1).length + 1) / 2 + 1 = quorumSize (words text).length := by
  have hlen := length_others a (words text) 1
  rw [List.count_eq_one_of_mem hn ha] at hlen
  rw [quorumSize, ← hlen, Nat.add_sub_cancel]

/-- The servers agree exactly when no name is in the file twice. -/
theorem servers_agree_iff (text : Str) : ServersAgree text ↔ (words text).Nodup := by
  constructor
  · intro h
    rw [List.nodup_iff_getElem?_ne_getElem?]
    intro i j hij hj heq
    obtain ⟨v, hv⟩ : ∃ v, (words text)[j]? = some v := ⟨_, List.getElem?_eq_getElem hj⟩
    have hmem := List.mem_of_getElem? hv
    obtain ⟨cfg, hcfg, hquorum, hothers⟩ := h v hmem
    by_cases hb : ∃ b ∈ words text, b ≠ v
    · -- another server has the name under two ids
      obtain ⟨b, hb, hne⟩ := hb
      obtain ⟨cfg', hcfg', hids⟩ := hothers b hb hne
      rw [server_eq, if_pos hb] at hcfg'
      obtain rfl := Option.some.inj hcfg'
      have hi := (hids (1 + i)).1 (mem_others.2 ⟨i, rfl, heq.trans hv, hne.symm⟩)
      have hj := (hids (1 + j)).1 (mem_others.2 ⟨j, rfl, hv, hne.symm⟩)
      have := Option.some.inj (hi.symm.trans hj)
      omega
    · -- the one server there is counts itself once
      rw [server_eq, if_pos hmem] at hcfg
      obtain rfl := Option.some.inj hcfg
      have hnone : others v (words text) 1 = [] := by
        refine List.eq_nil_iff_forall_not_mem.2 fun p hp => ?_
        obtain ⟨i, -, hi, hne⟩ := mem_others.1 hp
        exact hb ⟨_, List.mem_of_getElem? hi, hne⟩
      simp only [hnone, List.length_nil, quorumSize] at hquorum
      omega
  · intro hn a ha
    refine ⟨_, by rw [server_eq, if_pos ha], quorumSize_others hn ha, fun b hb hne => ?_⟩
    refine ⟨_, by rw [server_eq, if_pos hb], fun k => ?_⟩
    rw [mem_others, lastId_eq_some]
    refine exists_congr fun i => and_congr_right fun _ => and_congr_right fun hi => ?_
    refine iff_of_true hne.symm fun j hij hj => ?_
    exact List.nodup_iff_getElem?_ne_getElem?.1 hn i j hij (List.getElem?_eq_some_iff.1 hj).1
      (hi.trans hj.symm)

end Server

section File

variable {w gap lead last trail x y : Str} {c : Char}

/-- A name as the file can have it. -/
def IsName (w : Str) : Prop := w ≠ [] ∧ ∀ c ∈ w, isSpace c = false

/-- What stands between two names. -/
def IsGap (gap : Str) : Prop := gap ≠ [] ∧ ∀ c ∈ gap, isSpace c = true

theorem words_of_isName (h : IsName w) : words w = [w] := by
  rw [words, List.splitOnP_eq_singleton fun c hc => by simp [h.2 c hc]]
  simp [h.1]

theorem words_append_cons (hc : isSpace c = true) : words (x ++ c :: y) = words x ++ words y := by
  rw [words, List.splitOnP_append_cons _ _ hc, List.filter_append]
  rfl

theorem words_spaces (h : ∀ c ∈ lead, isSpace c = true) : words (lead ++ y) = words y := by
  induction lead with
  | nil => rfl
  | cons c lead ih =>
    rw [List.cons_append]
    have hc := words_append_cons (x := []) (y := lead ++ y) (h c List.mem_cons_self)
    rw [List.nil_append] at hc
    rw [hc, ih fun d hd => h d (List.mem_cons_of_mem _ hd)]
    rfl

theorem words_line (hw : IsName w) (hg : IsGap gap) : words (w ++ gap ++ y) = w :: words y := by
  obtain ⟨c, gap, rfl⟩ := List.exists_cons_of_ne_nil hg.1
  rw [List.append_assoc, List.cons_append, words_append_cons (hg.2 c List.mem_cons_self),
    words_spaces fun d hd => hg.2 d (List.mem_cons_of_mem _ hd), words_of_isName hw]
  rfl

/-- The text of a file: names with white space after each of them but the last, where there may be
some, as before the first. -/
def fileText (lead : Str) (lines : List (Str × Str)) (last trail : Str) : Str :=
  lead ++ (lines.flatMap fun p => p.1 ++ p.2) ++ (last ++ trail)

theorem words_fileText {lines : List (Str × Str)} (hlead : ∀ c ∈ lead, isSpace c = true)
    (hlines : ∀ p ∈ lines, IsName p.1 ∧ IsGap p.2) (hlast : IsName last)
    (htrail : ∀ c ∈ trail, isSpace c = true) :
    words (fileText lead lines last trail) = lines.map Prod.fst ++ [last] := by
  rw [fileText, List.append_assoc, words_spaces hlead]
  induction lines with
  | nil =>
    rcases eq_or_ne trail [] with rfl | hne
    · rw [List.append_nil]
      exact words_of_isName hlast
    · have hline := words_line (y := []) hlast ⟨hne, htrail⟩
      rw [List.append_nil] at hline
      exact hline
  | cons p lines ih =>
    obtain ⟨hw, hg⟩ := hlines p List.mem_cons_self
    rw [List.flatMap_cons, List.append_assoc, words_line hw hg,
      ih fun q hq => hlines q (List.mem_cons_of_mem _ hq)]
    rfl

/-- From a file of different names, parted by any white space, each server is built with its place
for an id, the others under theirs, and a quorum of all. A client has it in that place, too. -/
theorem hosts_file_read {lines : List (Str × Str)} (hlead : ∀ c ∈ lead, isSpace c = true)
    (hlines : ∀ p ∈ lines, IsName p.1 ∧ IsGap p.2) (hlast : IsName last)
    (htrail : ∀ c ∈ trail, isSpace c = true) (hn : (lines.map Prod.fst ++ [last]).Nodup)
    {i : ℕ} {a : Str} (hi : (lines.map Prod.fst ++ [last])[i]? = some a) :
    ∃ remotes,
      server (fileText lead lines last trail) a = some
        { selfId := some (i + 1), remotes := remotes
          quorumSize := quorumSize (lines.length + 1) } ∧
      (∀ k b, (k, b) ∈ remotes ↔
        ∃ j, k = j + 1 ∧ (lines.map Prod.fst ++ [last])[j]? = some b ∧ j ≠ i) ∧
      remotes.length = lines.length ∧
      (({} : Options).getAllHosts (fileText lead lines last trail)).allHosts[i]? = some a := by
  have hwords := words_fileText hlead hlines hlast htrail
  have hlen : (lines.map Prod.fst ++ [last]).length = lines.length + 1 := by simp
  have hmem := List.mem_of_getElem? hi
  have hother : ∀ {j : ℕ} {b : Str}, (lines.map Prod.fst ++ [last])[j]? = some b →
      (b ≠ a ↔ j ≠ i) := by
    intro j b hj
    refine not_congr ⟨fun h => ?_, fun h => ?_⟩
    · have hlt := (List.getElem?_eq_some_iff.1 hj).1
      exact (List.getElem?_inj hlt hn).1 (hj.trans (by rw [h, hi]))
    · exact Option.some.inj (hj.symm.trans (h ▸ hi))
  refine ⟨others a (lines.map Prod.fst ++ [last]) 1, ?_, fun k b => ?_, ?_, ?_⟩
  · have hquorum := quorumSize_others (hwords.symm ▸ hn) (hwords.symm ▸ hmem)
    have hid : lastId a (lines.map Prod.fst ++ [last]) 1 = some (i + 1) := by
      refine lastId_eq_some.2 ⟨i, Nat.add_comm i 1, hi, fun j hj hja => ?_⟩
      exact absurd rfl ((hother hja).2 hj.ne')
    rw [server_eq, hquorum, hwords, if_pos hmem, hid, hlen]
  · rw [mem_others]
    refine exists_congr fun j => ?_
    rw [Nat.add_comm 1 j]
    exact and_congr_right fun _ => and_congr_right fun hj => hother hj
  · have hcount := length_others a (lines.map Prod.fst ++ [last]) 1
    rw [List.count_eq_one_of_mem hn hmem, hlen] at hcount
    omega
  · have hall : (({} : Options).getAllHosts (fileText lead lines last trail)).allHosts =
        words (fileText lead lines last trail) := rfl
    rw [hall, hwords, hi]

/-- A file of three names, one a line. -/
theorem hosts_file_read_three : ∃ remotes, server ['a', '\n', 'b', '\n', 'c', '\n'] ['b'] =
    some { selfId := some 2, remotes := remotes, quorumSize := 2 } ∧ (3, ['c']) ∈ remotes := by
  have hname : ∀ c : Char, isSpace c = false → IsName [c] := fun c hc =>
    ⟨List.cons_ne_nil _ _, fun d hd => List.mem_singleton.1 hd ▸ hc⟩
  have hspace : ∀ d ∈ ['\n'], isSpace d = true := fun d hd => List.mem_singleton.1 hd ▸ rfl
  have hgap : IsGap ['\n'] := ⟨List.cons_ne_nil _ _, hspace⟩
  have hlines : ∀ p ∈ [(['a'], ['\n']), (['b'], ['\n'])], IsName p.1 ∧ IsGap p.2 := by
    intro p hp
    simp only [List.mem_cons, List.not_mem_nil, or_false] at hp
    rcases hp with rfl | rfl
    · exact ⟨hname 'a' rfl, hgap⟩
    · exact ⟨hname 'b' rfl, hgap⟩
  obtain ⟨remotes, hserver, hremotes, -, -⟩ := hosts_file_read (i := 1) (a := ['b'])
    (fun c hc => absurd hc List.not_mem_nil) hlines (hname 'c' rfl) hspace (by decide) rfl
  exact ⟨remotes, hserver, (hremotes 3 ['c']).2 ⟨2, rfl, rfl, by decide⟩⟩

end File

end RaftFS
