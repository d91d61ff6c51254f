import RaftFS.Proofs.Leadership
import RaftFS.Proofs.LogOrder

/-!
# The lookups in the log

On a numbered log the search from the end, the search from the front and the binary search find
the same, but for the `int` that `GetEntryLoc` counts with (`searches_agree`): where it would have
to count past the largest one there is no result (`getEntryLoc_overflows`). The entries of a
request are those of the leader's log right after `prevLogIndex`, and that is the index before the
remote's next one, which is never `0` at a leader (`reach_prevLogIndex`).
-/

namespace RaftFS

/-- The place of the first entry with the index `i`, or the length if there is none. -/
def placeOf (l : List Entry) (i : ℤ) : ℕ := l.findIdx fun e => (e.index : ℤ) = i

theorem placeOf_cons (e : Entry) (l : List Entry) (i : ℤ) :
    placeOf (e :: l) i = if (e.index : ℤ) = i then 0 else placeOf l i + 1 := by
  unfold placeOf
  rw [List.findIdx_cons]
  by_cases h : (e.index : ℤ) = i
  · simp [h]
  · simp [h]

theorem Numbered.placeOf_of_mem {l : List Entry} (h : Numbered l) {i : ℤ} (h1 : 1 ≤ i)
    (hi : i ≤ l.length) : placeOf l i = (i - 1).toNat := by
  have hlt : (i - 1).toNat < l.length := by omega
  refine (List.findIdx_eq hlt).2 ⟨?_, fun j hj => ?_⟩
  · have := h _ _ (List.getElem?_eq_getElem hlt)
    rw [decide_eq_true_eq]
    omega
  · have := h _ _ (List.getElem?_eq_getElem (hj.trans hlt))
    rw [decide_eq_false_iff_not]
    omega

theorem Numbered.placeOf_of_not_mem {l : List Entry} (h : Numbered l) {i : ℤ}
    (hi : ¬ (1 ≤ i ∧ i ≤ l.length)) : placeOf l i = l.length := by
  refine List.findIdx_eq_length_of_false fun e he => ?_
  obtain ⟨p, hp⟩ := List.mem_iff_getElem?.1 he
  obtain ⟨hlt, -⟩ := List.getElem?_eq_some_iff.1 hp
  have := h p e hp
  rw [decide_eq_false_iff_not]
  omega

namespace LogManager

variable {log : LogManager}

section Searches

theorem getEntryLocLoop_eq (x : ℤ) : ∀ (l : List Entry) (i : ℕ), i ≤ intMax →
    getEntryLocLoop x l i = if i + placeOf l x ≤ intMax then
      some (if placeOf l x < l.length then ((i + placeOf l x : ℕ) : ℤ) else -1) else none
  | [], i, hi => by
    simp [getEntryLocLoop, placeOf, hi]
  | e :: l, i, hi => by
    simp only [getEntryLocLoop, placeOf_cons, List.length_cons]
    by_cases he : (e.index : ℤ) = x
    · simp [he, hi]
    · simp only [if_neg he, Nat.add_lt_add_iff_right]
      by_cases hlt : i < intMax
      · rw [if_pos hlt, getEntryLocLoop_eq x l (i + 1) hlt, Nat.add_right_comm i 1, Nat.add_assoc]
      · rw [if_neg hlt, if_neg (by omega)]

theorem getEntryLoc_eq (log : LogManager) (i : ℤ) : log.getEntryLoc i =
    if placeOf log.memoryLog i ≤ intMax then
      some (if placeOf log.memoryLog i < log.memoryLog.length then
        (placeOf log.memoryLog i : ℤ) else -1) else none := by
  unfold getEntryLoc
  rw [getEntryLocLoop_eq i _ 0 (Nat.zero_le _), Nat.zero_add]

theorem getEntryLoc_of_mem (hn : Numbered log.memoryLog) {i : ℤ} (h1 : 1 ≤ i)
    (hi : i ≤ log.memoryLog.length) :
    log.getEntryLoc i = if i ≤ intMax + 1 then some (i - 1) else none := by
  have hlt : (i - 1).toNat < log.memoryLog.length := by omega
  have hle : (i - 1).toNat ≤ intMax ↔ i ≤ intMax + 1 := by omega
  rw [getEntryLoc_eq, hn.placeOf_of_mem h1 hi]
  simp only [if_pos hlt, hle]
  rw [Int.toNat_of_nonneg (by omega)]

theorem getEntryLoc_of_not_mem (hn : Numbered log.memoryLog) {i : ℤ}
    (hi : ¬ (1 ≤ i ∧ i ≤ log.memoryLog.length)) :
    log.getEntryLoc i = if log.memoryLog.length ≤ intMax then some (-1) else none := by
  rw [getEntryLoc_eq, hn.placeOf_of_not_mem hi, if_neg (lt_irrefl _)]

theorem getEntry_isSome_iff (hn : Numbered log.memoryLog) (i : ℤ) :
    (log.getEntry i).isSome ↔ 1 ≤ i ∧ i ≤ log.memoryLog.length := by
  constructor
  · intro h
    obtain ⟨e, he⟩ := Option.isSome_iff_exists.1 h
    obtain ⟨hm, hi⟩ := mem_of_getEntry he
    obtain ⟨p, hp⟩ := List.mem_iff_getElem?.1 hm
    obtain ⟨hlt, -⟩ := List.getElem?_eq_some_iff.1 hp
    have := hn p e hp
    omega
  · rintro ⟨h1, hi⟩
    lift i to ℕ using by omega
    rw [getEntry_eq hn (by omega), List.getElem?_eq_getElem (by omega)]
    rfl

/-- `GetEntry` finds an entry at the indices of the log and no others, and `GetEntryLoc` comes to
its place there and to `-1` elsewhere. -/
def LookupsAgree (log : LogManager) (i : ℤ) : Prop :=
  ((log.getEntry i).isSome ↔ 1 ≤ i ∧ i ≤ log.memoryLog.length) ∧
    ∃ loc, log.getEntryLoc i = some loc ∧ ((log.getEntry i).isSome ↔ loc ≠ -1) ∧
      (loc ≠ -1 → loc = i - 1 ∧ log.getEntry i = log.memoryLog[loc.toNat]?)

theorem lookupsAgree_iff (hn : Numbered log.memoryLog) (i : ℤ) :
    log.LookupsAgree i ↔ log.memoryLog.length ≤ intMax ∨ 1 ≤ i ∧ i ≤ intMax + 1 := by
  simp only [LookupsAgree, getEntry_isSome_iff hn, true_and]
  by_cases hi : 1 ≤ i ∧ i ≤ log.memoryLog.length
  · obtain ⟨h1, h2⟩ := hi
    rw [getEntryLoc_of_mem hn h1 h2]
    constructor
    · rintro ⟨loc, hloc, -⟩
      rw [Option.ite_none_right_eq_some] at hloc
      exact .inr ⟨h1, hloc.1⟩
    · intro hc
      refine ⟨i - 1, if_pos (by omega), by omega, fun _ => ⟨rfl, ?_⟩⟩
      lift i to ℕ using by omega
      rw [getEntry_eq hn (by omega)]
      congr 1
      omega
  · rw [getEntryLoc_of_not_mem hn hi]
    constructor
    · rintro ⟨loc, hloc, -⟩
      rw [Option.ite_none_right_eq_some] at hloc
      exact .inl hloc.1
    · intro hc
      exact ⟨-1, if_pos (by omega), by simpa using hi, fun h => absurd rfl h⟩

/-- `GetEntry` of each index after `p`, up to the last. -/
def entriesAfter (log : LogManager) (p : ℕ) : List (Option Entry) :=
  (List.range' (p + 1) (log.memoryLog.length - p)).map fun i : ℕ => log.getEntry i

theorem entriesAfter_eq (hn : Numbered log.memoryLog) (p : ℕ) :
    log.entriesAfter p = (log.memoryLog.drop p).map some := by
  refine List.ext_getElem (by simp [entriesAfter]) fun j h1 h2 => ?_
  rw [List.length_map, List.length_drop] at h2
  have hlt : p + j < log.memoryLog.length := by omega
  simp only [entriesAfter, List.getElem_map, List.getElem_range', List.getElem_drop]
  rw [getEntry_eq hn (by omega)]
  have hp : p + 1 + 1 * j - 1 = p + j := by omega
  rw [hp, List.getElem?_eq_getElem hlt]

end Searches

end LogManager

namespace Cluster

variable {n : ℕ}

section Requests

theorem reach_entries_eq {G : Runs.Guard (Cluster n) (Action n)} {s : Cluster n}
    (h : (cluster n).Reach G s) : ∀ c ∈ s.aeCalls, Numbered c.srcLog →
      c.req.entries = c.srcLog.drop c.req.prevLogIndex := by
  refine reach_aeCalls (P := fun _ c => Numbered c.srcLog →
    c.req.entries = c.srcLog.drop c.req.prevLogIndex) ?_ ?_ h
  · exact fun _ _ _ _ _ _ hold => hold
  · exact fun s x r _ _ hn => Node.appendEntriesRequest_entries x r hn

/-- The next indices of a leader are positive. -/
def NextPos (nd : Node n) : Prop := nd.currentRole = .kLeader → ∀ r, 0 < nd.nextIndex r

theorem NextPos.update {s : Cluster n} {x : Fin n} {nd : Node n}
    (hI : ∀ y, NextPos (s.node y)) (h : NextPos nd) (y : Fin n) :
    NextPos (Function.update s.node x nd y) :=
  forall_update (P := fun _ => NextPos) hI h y

theorem NextPos.onAppendEntries {nd nd' : Node n} {req : AppendEntriesRequest n}
    {resp : AppendEntriesResponse} (h : NextPos nd)
    (hap : nd.onAppendEntries req = some (nd', resp)) : NextPos nd' := by
  rcases Node.onAppendEntries_cases hap with ⟨-, rfl, -⟩ | ⟨_, _, _, _, _, _, hacc, rfl⟩
  · exact h
  · intro hl
    simp only [hacc.role] at hl
    split_ifs at hl
    exact h hl

theorem NextPos.onAppendEntriesResponse {nd nd' : Node n} {id : Fin n}
    {req : AppendEntriesRequest n} {resp : AppendEntriesResponse} {commit : Option ℕ}
    {next : Node.Next} (h : NextPos nd)
    (hap : nd.onAppendEntriesResponse id req resp = some (nd', commit, next)) : NextPos nd' := by
  rcases Node.onAppendEntriesResponse_cases hap with
    ⟨-, -, -, hr⟩ | ⟨-, -, rfl⟩ | ⟨-, ni, rfl, hni⟩
  · obtain ⟨_, _, _, rfl, -⟩ := Node.recordAck_cases hr
    intro hl r
    simp only [Function.update_apply]
    split_ifs
    · exact Nat.succ_pos _
    · exact h hl r
  · intro hl
    cases hl
  · intro hl r
    rcases hni r with he | hpos
    · simp only [he]
      exact h hl r
    · exact hpos

theorem NextPos.onRequestVote {nd : Node n} (h : NextPos nd) (req : ReqVoteRequest n) :
    NextPos (nd.onRequestVote req).1 := by
  obtain ⟨_, _, _, _, he, hrole, -⟩ := Node.onRequestVote_cases req nd
  rw [he]
  rcases hrole with ⟨-, rfl⟩ | ⟨-, rfl, -⟩
  · intro hl
    cases hl
  · exact h

theorem NextPos.onRequestVoteResponse {nd nd' : Node n} {self id : Fin n} {resp : ReqVoteResponse}
    {won : Bool} {next : Node.Next} (h : NextPos nd)
    (hap : nd.onRequestVoteResponse self id resp = (nd', won, next)) : NextPos nd' := by
  obtain ⟨_, _, _, _, _, _, he, hcases⟩ := Node.onRequestVoteResponse_cases self id resp nd
  obtain ⟨rfl, -⟩ := Prod.mk.inj (hap.symm.trans he)
  rcases hcases with ⟨-, -, -, -, -, hni⟩ | ⟨-, rfl, rfl, -⟩
  · exact fun _ => hni
  · exact h

theorem reach_nextIndex_pos {G : Runs.Guard (Cluster n) (Action n)} {s : Cluster n}
    (h : (cluster n).Reach G s) (x : Fin n) : NextPos (s.node x) := by
  refine reach_inv (I := fun s => ∀ x, NextPos (s.node x)) (fun env junk x => ?_) ?_ ?_
    (fun s x r h hI _ => NextPos.update hI (hI x)) (fun s x r h hI _ => NextPos.update hI (hI x))
    h x
  · intro hl
    cases hl
  · intro s t hI hq x hl
    rw [(hq.core x).nextIndex]
    exact hI x ((hq.core x).currentRole ▸ hl)
  · intro s a t _ _ hI hm
    cases hm with
    | timeout =>
      refine NextPos.update hI fun hl => ?_
      rw [(Node.startLeaderElection_office _ _).2.1] at hl
      cases hl
    | aeHandle hc hp hap => exact NextPos.update hI ((hI _).onAppendEntries hap)
    | aeTake hc ha hap => exact NextPos.update hI ((hI _).onAppendEntriesResponse hap)
    | rvHandle => exact NextPos.update hI ((hI _).onRequestVote _)
    | rvTake hc ha hap => exact NextPos.update hI ((hI _).onRequestVoteResponse hap)
    | append => exact NextPos.update hI (hI _)

/-- The `prevLogIndex` of a leader's request is never negative: the next index is past it. -/
theorem reach_prevLogIndex {G : Runs.Guard (Cluster n) (Action n)} {s : Cluster n}
    (h : (cluster n).Reach G s) {x : Fin n} (hl : (s.node x).currentRole = .kLeader) (r : Fin n) :
    ((s.node x).appendEntriesRequest x r).prevLogIndex + 1 = (s.node x).nextIndex r := by
  have hpos := reach_nextIndex_pos h x hl r
  simp only [Node.appendEntriesRequest]
  omega

end Requests

end Cluster

open Cluster

/-- A log of `m` entries. -/
def mkdirs (m : ℕ) : LogManager where
  memoryLog := (List.range m).map fun p => ⟨1, p + 1, .kMkdir, ['/', 'a']⟩

theorem length_mkdirs (m : ℕ) : (mkdirs m).memoryLog.length = m := by
  simp [mkdirs]

theorem numbered_mkdirs (m : ℕ) : Numbered (mkdirs m).memoryLog := by
  intro p e he
  simp only [mkdirs, List.getElem?_map, Option.map_eq_some_iff] at he
  obtain ⟨q, hq, rfl⟩ := he
  obtain ⟨hlt, hq⟩ := List.getElem?_eq_some_iff.1 hq
  rw [List.getElem_range] at hq
  rw [← hq]

theorem getEntryLoc_mkdirs {m : ℕ} (h : intMax + 1 < m) :
    ((mkdirs m).getEntry m).isSome ∧ (mkdirs m).getEntryLoc m = none := by
  have hn := numbered_mkdirs m
  have hlen := length_mkdirs m
  constructor
  · rw [LogManager.getEntry_isSome_iff hn]
    omega
  · rw [LogManager.getEntryLoc_of_mem hn (by omega) (by omega), if_neg (by omega)]

/-- On a log with the indices from `1` on, `GetEntry` and `GetEntryLoc` agree on `i` just if an
`int` counts to the length of the log or to the place of `i`. `GetEntry` finds the indices of the
log and no others, `GetEntriesStartAt` gives what `GetEntry` finds after `p`, and a request made of
the log in any run has what `GetEntry` finds after its `prevLogIndex`, which is the index before the
remote's next one. -/
theorem searches_agree {log : LogManager} (hn : Numbered log.memoryLog) :
    (∀ i : ℤ, log.LookupsAgree i ↔ log.memoryLog.length ≤ intMax ∨ 1 ≤ i ∧ i ≤ intMax + 1) ∧
      (∀ i : ℤ, (log.getEntry i).isSome ↔ 1 ≤ i ∧ i ≤ log.memoryLog.length) ∧
      (∀ p : ℕ, (log.getEntriesStartAt p).map some = log.entriesAfter p ∧
        (log.memoryLog.length ≤ p → log.getEntriesStartAt p = [])) ∧
      ∀ (n : ℕ) (s : Cluster n), (cluster n).Reach Runs.Sys.anyStep s →
        (∀ c ∈ s.aeCalls, c.srcLog = log.memoryLog →
          c.req.entries.map some = log.entriesAfter c.req.prevLogIndex) ∧
        ∀ x, (s.node x).currentRole = .kLeader → ∀ r,
          ((s.node x).appendEntriesRequest x r).prevLogIndex + 1 = (s.node x).nextIndex r := by
  refine ⟨LogManager.lookupsAgree_iff hn, LogManager.getEntry_isSome_iff hn, fun p => ?_, ?_⟩
  · rw [LogManager.entriesAfter_eq hn, LogManager.getEntriesStartAt_eq hn]
    exact ⟨rfl, List.drop_eq_nil_of_le⟩
  · intro n s h
    refine ⟨fun c hc hlog => ?_, fun x hl r => reach_prevLogIndex h hl r⟩
    rw [LogManager.entriesAfter_eq hn, reach_entries_eq h c hc (hlog ▸ hn), hlog]

/-- Two entries that a leader has, and its request for them. -/
theorem searches_agree_two :
    (mkdirs 2).LookupsAgree 2 ∧ (mkdirs 2).LookupsAgree 3 ∧ (mkdirs 2).getEntriesStartAt 2 = [] ∧
      ∃ s : Cluster 3, (cluster 3).Reach Runs.Sys.anyStep s ∧ ∃ c ∈ s.aeCalls,
        c.req.entries.map some = [(mkdirs 2).getEntry 1, (mkdirs 2).getEntry 2] := by
  let s := (cluster 3).run Runs.Sys.anyStep start3
    (elect 0 1 0 ++ write 0 0 ['/', 'a'] ++ write 0 1 ['/', 'a'] ++ [.aeFail 0, .remoteWake 0 1])
  have hs : (cluster 3).Reach Runs.Sys.anyStep s :=
    Runs.Sys.reach_run reach_start3 (by decide +kernel)
  let c : AppendEntriesCall 3 := ⟨0, 1, by decide, ⟨1, 0, 0, 1, (mkdirs 2).memoryLog, 0⟩,
    (mkdirs 2).memoryLog, .built⟩
  have hc : s.aeCalls[1]? = some c := by decide +kernel
  obtain ⟨hi, -, hp, hr⟩ := searches_agree (numbered_mkdirs 2)
  exact ⟨(hi 2).2 (.inl (by decide)), (hi 3).2 (.inl (by decide)), (hp 2).2 le_rfl, s, hs, c,
    List.mem_of_getElem? hc, (hr 3 s hs).1 c (List.mem_of_getElem? hc) rfl⟩

/-- The last entry of a log is there for `GetEntry`, and past what `GetEntryLoc` counts to. -/
theorem getEntryLoc_overflows :
    Numbered (mkdirs 2147483649).memoryLog ∧
      ((mkdirs 2147483649).getEntry (2147483649 : ℕ)).isSome ∧
      (mkdirs 2147483649).getEntryLoc (2147483649 : ℕ) = none ∧
      ¬ (mkdirs 2147483649).LookupsAgree (2147483649 : ℕ) := by
  obtain ⟨hsome, hnone⟩ := getEntryLoc_mkdirs (m := 2147483649) (by decide)
  refine ⟨numbered_mkdirs _, hsome, hnone, ?_⟩
  rintro ⟨-, loc, hloc, -⟩
  rw [hnone] at hloc
  cases hloc

end RaftFS
