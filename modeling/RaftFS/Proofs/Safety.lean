import RaftFS.Proofs.Simulation

/-!
# Logs that match, and commits that stay

What the winners' logs give for the cluster. Logs match where every batch is in its place
(`log_matching`). What is committed a quorum has (`commit_quorum`), every later leader has
(`leader_completeness`) and every node applies (`state_machine_safety`), where moreover nothing is
lost, what is counted was acknowledged, and a commit index is followed only into a log that
matches. Each result is followed by a run in which it fails.
-/

namespace RaftFS

variable {n : ℕ}

open Ballots Cluster

/-- The entry of index `i` of a log, as `GetEntry` finds it. -/
def entryAt (l : List Entry) (i : ℕ) : Option Entry := ({ memoryLog := l } : LogManager).getEntry i

theorem entryAt_eq {l : List Entry} (h : Numbered l) {i : ℕ} (hi : 0 < i) :
    entryAt l i = l[i - 1]? :=
  LogManager.getEntry_eq h hi

/-- Two nodes whose logs have entries of one index and one term have the same entries up to that
index, where the logs' batches are in place. -/
theorem log_matching {s : Cluster n} (h : (cluster n).Reach Matching s) {x y : Fin n} {i : ℕ}
    {e e' : Entry} (he : (s.node x).log.getEntry i = some e)
    (he' : (s.node y).log.getEntry i = some e') (ht : e.term = e'.term) {j : ℕ} (hj : j ≤ i) :
    (s.node x).log.getEntry j = (s.node y).log.getEntry j := by
  obtain ⟨t, hl⟩ := linked_of_matching h
  have hx := hl.node x
  have hy := hl.node y
  obtain ⟨hi, he⟩ := (LogManager.getEntry_eq_some_iff hx.numbered).1 he
  obtain ⟨-, he'⟩ := (LogManager.getEntry_eq_some_iff hy.numbered).1 he'
  rw [hx.log] at he
  rw [hy.log] at he'
  ext e''
  rw [LogManager.getEntry_eq_some_iff hx.numbered, LogManager.getEntry_eq_some_iff hy.numbered,
    hx.log, hy.log, getElem?_eq_of_term (hl.run.inv.log_ok x) (hl.run.inv.log_ok y) he he' ht
      (Nat.sub_le_sub_right hj 1)]

/-- A leader and a node that has got both its entries. -/
theorem log_matching_two :
    ∃ s, (cluster 3).Reach Matching s ∧ ∃ e, (s.node 0).log.getEntry (2 : ℕ) = some e ∧
      (s.node 2).log.getEntry (2 : ℕ) = some e ∧
      (s.node 0).log.getEntry (1 : ℕ) = (s.node 2).log.getEntry (1 : ℕ) := by
  let s := (cluster 3).run Matching start3 (elect 0 1 0 ++ write 0 0 ['/', 'a'] ++
    write 0 1 ['/', 'b'] ++ call 0 2 1)
  have hs : (cluster 3).Reach Matching s := Runs.Sys.reach_run reach_start3 (by decide +kernel)
  let e : Entry := ⟨1, 2, .kMkdir, ['/', 'b']⟩
  have h0 : (s.node 0).log.getEntry (2 : ℕ) = some e := by decide +kernel
  have h2 : (s.node 2).log.getEntry (2 : ℕ) = some e := by decide +kernel
  exact ⟨s, hs, e, h0, h2, log_matching hs h0 h2 rfl (by decide)⟩

/-- Nodes `0` and `1` lead the first two terms, and each appends an entry it sends to no one. Then
node `1`, the leader of the fourth, appends a second one and sends it to node `0`, whose log
ends with the first entry of the first term. -/
def crossedLogs : List (Action 3) :=
  elect 0 1 0 ++ write 0 0 ['/', 'a'] ++ elect 1 2 1 ++ write 1 0 ['/', 'b'] ++
    [.leaderTimeout 2, .remoteWake 2 1, .rvSend 2, .rvHandle 2, .aeFail 1] ++ elect 1 2 3 ++
    write 1 1 ['/', 'c'] ++ call 1 0 3

/-- The term of the entry before a batch is sent and not looked at. -/
theorem logs_crossed :
    ∃ s, (cluster 3).Reach Runs.Sys.anyStep s ∧ ∃ e, (s.node 0).log.getEntry 2 = some e ∧
      (s.node 1).log.getEntry 2 = some e ∧
      (s.node 0).log.getEntry 1 = some ⟨1, 1, .kMkdir, ['/', 'a']⟩ ∧
      (s.node 1).log.getEntry 1 = some ⟨2, 1, .kMkdir, ['/', 'b']⟩ := by
  let s := (cluster 3).run Runs.Sys.anyStep start3 crossedLogs
  have hs : (cluster 3).Reach Runs.Sys.anyStep s :=
    Runs.Sys.reach_run reach_start3 (by decide +kernel)
  exact ⟨s, hs, ⟨4, 2, .kMkdir, ['/', 'c']⟩, by decide +kernel⟩

/-- The leader's log is on record with what it commits. -/
theorem committed_log {s s' : Cluster n} {a : Action n} (h : (cluster n).step s a = some s')
    {x : Fin n} {T N : ℕ} {l : List Entry} (hh : s'.history = .committed x T N l :: s.history) :
    (s'.node x).log.memoryLog = l := by
  obtain ⟨t, hc, hr⟩ := step_changes h
  have ht : t.history = .committed x T N l :: s.history ∧
      (t.node x).log.memoryLog = (s'.node x).log.memoryLog := by
    cases hr with
    | none => exact ⟨hh, rfl⟩
    | wait | appendEntries | requestVote =>
      refine ⟨hh, (forall_update (P := fun y nd => (t.node y).log.memoryLog = nd.log.memoryLog)
        (fun _ => rfl) ?_ x)⟩
      rfl
  rw [← ht.2]
  have hsame : s.history ≠ .committed x T N l :: s.history := (List.cons_ne_self _ _).symm
  cases hc with
  | aeTake hc ha hap =>
    rename_i commit _
    cases commit with
    | none => exact absurd ht.1 hsame
    | some N' =>
      have hev := (List.cons.inj ht.1).1
      simp only [Event.committed.injEq] at hev
      obtain ⟨rfl, -, -, rfl⟩ := hev
      simp
  | rvTake hc ha hap =>
    rename_i won _
    cases won with
    | false => exact absurd ht.1 hsame
    | true =>
      have hev := (List.cons.inj ht.1).1
      simp at hev
  | fsStep hap =>
    rename_i applied
    cases applied with
    | none => exact absurd ht.1 hsame
    | some p =>
      have hev := (List.cons.inj ht.1).1
      simp at hev
  | _ => exact absurd ht.1 hsame

/-- When a leader sets its commit index to `N`, more than half the nodes have its entry at each
index up to `N`, where what is counted was acknowledged and nothing is lost. -/
theorem commit_quorum {s s' : Cluster n} {a : Action n} (h : (cluster n).Reach Committing s)
    (hg : s.Committing a) (hst : (cluster n).step s a = some s') {x : Fin n} {T N : ℕ}
    {l : List Entry} (hh : s'.history = .committed x T N l :: s.history) {i : ℕ} (hi : 0 < i)
    (hN : i ≤ N) : ∃ e, (s'.node x).log.getEntry i = some e ∧
      n < 2 * (Finset.univ.filter fun y => (s'.node y).log.getEntry i = some e).card := by
  obtain ⟨t, hl⟩ := linked_of_committing (h.step hg hst)
  obtain ⟨hn, hch, hheld⟩ := hl.event (.committed x T N l) (hh ▸ List.mem_cons_self) trivial
  obtain ⟨Q, hQ, hkept⟩ := hl.run.chosen_kept quorums_meet hch
  have hlen := hch.1.le
  have hx := hl.node x
  have hlog := committed_log hst hh
  have hlt : i - 1 < N := by omega
  obtain ⟨e, he⟩ : ∃ e, (t.canon T)[i - 1]? = some e := ⟨_, List.getElem?_eq_getElem (by omega)⟩
  have hget : ∀ {y}, t.Held T N (s'.node y).log.memoryLog →
      (s'.node y).log.getEntry i = some e := by
    intro y hy
    rw [LogManager.getEntry_eq_some_iff (hl.node y).numbered]
    exact ⟨hi, by rw [hy.getElem?_eq hlen hlt, he]⟩
  refine ⟨e, hget (by rw [hlog]; exact hheld), ?_⟩
  have hsub : Q ⊆ Finset.univ.filter fun y => (s'.node y).log.getEntry i = some e := by
    intro v hv
    refine Finset.mem_filter.2 ⟨Finset.mem_univ v, hget ?_⟩
    rw [(hl.node v).log]
    exact hkept v hv
  have := Finset.card_le_card hsub
  have := hQ.lt_card
  omega

/-- Node `0` leads and has appended an entry, and node `1` has acknowledged it. Node `2` had it
first in a request it answered with the term it was in before, and now has it in a second. -/
def readyToCommit (path : Str := ['/', 'a']) (req : WriteCall := .mkdir) : List (Action 3) :=
  elect 0 1 0 ++ write 0 0 path req ++ [.aeFail 0] ++ call 0 1 1 ++ [.aeReturn 1] ++ call 0 2 2 ++
    [.aeReturn 2] ++ call 0 2 3

/-- Node `0` commits the entry when it learns that node `2` has it too. -/
theorem commit_quorum_all :
    ∃ s s', (cluster 3).Reach Committing s ∧ (cluster 3).step s (.aeReturn 3) = some s' ∧
      ∃ l, s'.history = .committed 0 1 1 l :: s.history ∧
      ∃ e, (s'.node 0).log.getEntry (1 : ℕ) = some e ∧
        3 < 2 * (Finset.univ.filter fun y => (s'.node y).log.getEntry (1 : ℕ) = some e).card := by
  let s := (cluster 3).run Committing start3 readyToCommit
  have hs : (cluster 3).Reach Committing s := Runs.Sys.reach_run reach_start3 (by decide +kernel)
  let s' := ((cluster 3).step s (.aeReturn 3)).get (by decide +kernel)
  have hst : (cluster 3).step s (.aeReturn 3) = some s' := (Option.some_get _).symm
  have hh : s'.history = .committed 0 1 1 [⟨1, 1, .kMkdir, ['/', 'a']⟩] :: s.history := by
    decide +kernel
  exact ⟨s, s', hs, hst, _, hh, commit_quorum hs (by decide +kernel) hst hh one_pos le_rfl⟩

/-- Nodes `1` and `2` have the first entry and are sent two: they push the second and erase it
again, and acknowledge both. The first has been acknowledged by neither in the leader's term. -/
def acknowledgedAndErased : List (Action 3) :=
  elect 0 1 0 ++ write 0 0 ['/', 'a'] ++ [.aeFail 0] ++ call 0 1 1 ++ [.aeFail 1] ++ call 0 2 2 ++
    [.aeReturn 2] ++ write 0 1 ['/', 'b'] ++ call 0 1 3 ++ [.aeReturn 3] ++ call 0 2 4

/-- The leader commits both entries, and no other node has the second. -/
theorem commit_without_quorum :
    ∃ s s', (cluster 3).Reach Runs.Sys.anyStep s ∧
      (cluster 3).step s (.aeReturn 4) = some s' ∧
      ∃ l, s'.history = .committed 0 1 2 l :: s.history ∧
      (s'.node 0).log.memoryLog = [⟨1, 1, .kMkdir, ['/', 'a']⟩, ⟨1, 2, .kMkdir, ['/', 'b']⟩] ∧
      (s'.node 1).log.memoryLog = [⟨1, 1, .kMkdir, ['/', 'a']⟩] ∧
      (s'.node 2).log.memoryLog = [⟨1, 1, .kMkdir, ['/', 'a']⟩] := by
  let s := (cluster 3).run Runs.Sys.anyStep start3 acknowledgedAndErased
  have hs : (cluster 3).Reach Runs.Sys.anyStep s :=
    Runs.Sys.reach_run reach_start3 (by decide +kernel)
  let s' := ((cluster 3).step s (.aeReturn 4)).get (by decide +kernel)
  have hst : (cluster 3).step s (.aeReturn 4) = some s' := (Option.some_get _).symm
  exact ⟨s, s', hs, hst, (s'.node 0).log.memoryLog, by decide +kernel⟩

/-- A leader of a later term than one in which an index was committed has, when it becomes leader,
the entries up to that index that the leader that committed it had. -/
theorem leader_completeness {s : Cluster n} (h : (cluster n).Reach Committing s) {x y : Fin n}
    {T U N : ℕ} {l l' : List Entry} (hx : .committed x T N l ∈ s.history)
    (hy : .becameLeader y U l' ∈ s.history) (hTU : T < U) {i : ℕ} (hi : 0 < i) (hN : i ≤ N) :
    ∃ e, entryAt l i = some e ∧ entryAt l' i = some e := by
  obtain ⟨t, hl⟩ := linked_of_committing h
  obtain ⟨hn, hch, hheld⟩ := hl.event _ hx trivial
  obtain ⟨hn', b, hb, hbt, -, rfl⟩ := hl.event _ hy
  have hlen := hch.1.le
  have hheld' := hl.run.chosen_held quorums_meet hch hb (hbt ▸ hTU)
  obtain ⟨e, he⟩ : ∃ e, (t.canon T)[i - 1]? = some e := ⟨_, List.getElem?_eq_getElem (by omega)⟩
  refine ⟨e, ?_, ?_⟩
  · rw [entryAt_eq hn hi, hheld.getElem?_eq hlen (by omega), he]
  · rw [entryAt_eq hn' hi, hheld'.getElem?_eq hlen (by omega), he]

/-- Node `1` has the entry committed, and wins the second term. -/
theorem leader_completeness_next :
    ∃ s l l', (cluster 3).Reach Committing s ∧ .committed 0 1 1 l ∈ s.history ∧
      .becameLeader 1 2 l' ∈ s.history ∧ ∃ e, entryAt l 1 = some e ∧ entryAt l' 1 = some e := by
  let s := (cluster 3).run Committing start3 (readyToCommit ++ [.aeReturn 3] ++ elect 1 2 1)
  have hs : (cluster 3).Reach Committing s := Runs.Sys.reach_run reach_start3 (by decide +kernel)
  let l : List Entry := [⟨1, 1, .kMkdir, ['/', 'a']⟩]
  have hx : .committed 0 1 1 l ∈ s.history := by decide +kernel
  have hy : .becameLeader 1 2 l ∈ s.history := by decide +kernel
  exact ⟨s, l, l, hs, hx, hy, leader_completeness hs hx hy (by decide) one_pos le_rfl⟩

/-- After the logs have crossed, the leader of the fourth term commits both its entries with the
acknowledgements of both nodes, of which node `0` has the second entry only. -/
def crossedCommits : List (Action 3) :=
  crossedLogs ++ [.aeReturn 3] ++ call 1 0 4 ++
    [.aeReturn 4, .aeSend 2, .aeHandle 2, .aeReturn 2, .aeSend 5, .aeHandle 5, .aeReturn 5]

/-- Node `0`, whose first entry is another than the one committed, wins the fifth term. -/
theorem leader_incomplete :
    ∃ s, (cluster 3).Reach Runs.Sys.anyStep s ∧ .committed 1 4 2
        [⟨2, 1, .kMkdir, ['/', 'b']⟩, ⟨4, 2, .kMkdir, ['/', 'c']⟩] ∈ s.history ∧
      .becameLeader 0 5 [⟨1, 1, .kMkdir, ['/', 'a']⟩, ⟨4, 2, .kMkdir, ['/', 'c']⟩] ∈ s.history := by
  let s := (cluster 3).run Runs.Sys.anyStep start3 (crossedCommits ++ elect 0 2 4)
  exact ⟨s, Runs.Sys.reach_run reach_start3 (by decide +kernel), by decide +kernel⟩

/-- Two nodes that apply an entry at one index apply the same operation on the same path. -/
theorem state_machine_safety {s : Cluster n} (h : (cluster n).Reach Applying s) {x y : Fin n}
    {i : ℕ} {e e' : Entry} {rt rt' : Option Bool} (hx : .applied x i e rt ∈ s.history)
    (hy : .applied y i e' rt' ∈ s.history) : e.op = e'.op ∧ e.value = e'.value := by
  obtain ⟨t, hl⟩ := linked_of_applying h
  obtain ⟨hi, T, N, hch, hN, he⟩ := hl.event _ hx trivial
  obtain ⟨-, T', N', hch', hN', he'⟩ := hl.event _ hy trivial
  have heq := hl.run.chosen_agree quorums_meet hch hch' (hl.run.won_of_chosen quorums_meet hch)
    (hl.run.won_of_chosen quorums_meet hch') (i := i - 1) (by omega) (by omega)
  rw [he, he'] at heq
  rw [Option.some.inj heq]
  exact ⟨rfl, rfl⟩

/-- Node `x` goes through its `FSUpdateLoop` until it has applied an entry. -/
def applyNext (x : Fin 3) : List (Action 3) := List.replicate 5 (.fsStep x fun _ => ⟨0, 0⟩)

/-- Node `0` has committed an entry, node `2` has applied it, and the leader appends a second one,
which it commits too. Node `2` learns of the commit. -/
def secondCommit : List (Action 3) :=
  readyToCommit ++ [.aeReturn 3] ++ call 0 2 4 ++ [.aeReturn 4] ++ applyNext 2 ++
    List.replicate 2 (.fsStep 2 fun _ => ⟨0, 0⟩) ++ write 0 1 ['/', 'b'] ++ call 0 1 5 ++
    [.aeReturn 5] ++ call 0 2 6 ++ [.aeReturn 6] ++ call 0 2 7

/-- Nodes `1` and `2` learn of the commit and apply the entry. -/
theorem state_machine_safety_both :
    ∃ s e e', (cluster 3).Reach Applying s ∧ .applied 1 1 e (some true) ∈ s.history ∧
      .applied 2 1 e' (some true) ∈ s.history ∧ e.op = e'.op ∧ e.value = e'.value := by
  let s := (cluster 3).run Applying start3 (readyToCommit ++ [.aeReturn 3] ++ call 0 1 4 ++
    call 0 2 5 ++ applyNext 1 ++ applyNext 2)
  have hs : (cluster 3).Reach Applying s := Runs.Sys.reach_run reach_start3 (by decide +kernel)
  let e : Entry := ⟨1, 1, .kMkdir, ['/', 'a']⟩
  have hx : .applied 1 1 e (some true) ∈ s.history := by decide +kernel
  have hy : .applied 2 1 e (some true) ∈ s.history := by decide +kernel
  exact ⟨s, e, e, hs, hx, hy, state_machine_safety hs hx hy⟩

/-- Nodes `0` and `2` follow the commits of node `1`, and apply different entries at the first
index. -/
theorem applied_apart :
    ∃ s, (cluster 3).Reach Runs.Sys.anyStep s ∧
      .applied 0 1 ⟨1, 1, .kMkdir, ['/', 'a']⟩ (some true) ∈ s.history ∧
      .applied 2 1 ⟨2, 1, .kMkdir, ['/', 'b']⟩ (some true) ∈ s.history := by
  let s := (cluster 3).run Runs.Sys.anyStep start3 (crossedCommits ++ call 1 0 6 ++ call 1 2 7 ++
    applyNext 0 ++ applyNext 2)
  exact ⟨s, Runs.Sys.reach_run reach_start3 (by decide +kernel), by decide +kernel⟩

end RaftFS
