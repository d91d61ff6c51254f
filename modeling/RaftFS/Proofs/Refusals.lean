import RaftFS.Proofs.Calls
import RaftFS.Proofs.LogOrder

/-!
# Requests refused, and empty logs

`OnAppendEntries` refuses a request of an older term, one that would leave a gap, and a batch that
the log does not take. After the last two it still follows the leader's commit index, so a request
refused leaves the log and the commit index alone just where there is none to follow
(`refused_keeps_log`). Where the log is empty and nothing is stored, that reads the last entry of
the empty log. `empty_log_untouched` says which of the requests in a run this happens to.
-/

namespace RaftFS

variable {n : ℕ}

namespace LogManager

variable {log : LogManager} {front : Entry} {es : List Entry}

theorem exists_appendBatch (log : LogManager) (front : Entry) (es : List Entry) :
    ∃ log' ok, log.appendBatch (front :: es) = some (log', ok) := by
  unfold appendBatch
  rcases log.memoryLog.getLast? with _ | back
  · exact ⟨_, _, rfl⟩
  · simp only
    split_ifs
    all_goals exact ⟨_, _, rfl⟩

theorem appendsAt_eq_none_iff : log.appendsAt (front :: es) = none ↔
    log.memoryLog ≠ [] ∧ front.index ≠ log.getLastLogIndex + 1 ∧
      ∀ e ∈ log.memoryLog, ¬ (e.index = front.index ∧ e.term = front.term) := by
  unfold appendsAt getLastLogIndex
  rcases hl : log.memoryLog.getLast? with _ | back
  · simp [List.getLast?_eq_none_iff.1 hl]
  · have hne : log.memoryLog ≠ [] := by
      rintro h0
      simp [h0] at hl
    simp only [Option.map_some, Option.getD_some, ne_eq, hne, not_false_eq_true, true_and]
    split_ifs with h1 h2
    · exact iff_of_false (by simp) fun h => h.1 h1
    · obtain ⟨x, hx, hi, ht⟩ := firstSame_spec h2
      exact iff_of_false (by simp) fun h => h.2 x (List.mem_of_getElem? hx) ⟨hi, ht⟩
    · refine iff_of_true rfl ⟨h1, fun e he hs => h2 ?_⟩
      refine List.findIdx_lt_length_of_exists ⟨e, he, ?_⟩
      simp only [decide_eq_true_eq]
      exact ⟨hs.1.symm, hs.2.symm⟩

theorem lowerBound_zero {l : List Entry} (h : ∀ e ∈ l, 0 < e.index) :
    ∀ (fuel first len : ℕ), lowerBound l 0 fuel first len = first
  | 0, first, len => rfl
  | fuel + 1, first, len => by
    simp only [lowerBound]
    split_ifs
    · rfl
    · rcases hm : l[first + len / 2]? with _ | middle
      · rfl
      · have := h middle (List.mem_of_getElem? hm)
        simp only
        rw [if_neg (by omega)]
        exact lowerBound_zero h fuel first _

theorem getEntriesStartAt_zero (h : ∀ e ∈ log.memoryLog, 0 < e.index) :
    log.getEntriesStartAt 0 = log.memoryLog := by
  rw [getEntriesStartAt, lowerBound_zero h, List.drop_zero]

end LogManager

namespace Node

variable {nd : Node n} {req : AppendEntriesRequest n} {log : LogManager}

/-- The request begins past the log's end, or the log, which is not empty, has neither the first
entry of its batch nor ends right before it. -/
def Refused (req : AppendEntriesRequest n) (log : LogManager) : Prop :=
  log.getLastLogIndex < req.prevLogIndex ∨
    ∃ front ∈ req.entries.head?, log.memoryLog ≠ [] ∧ front.index ≠ log.getLastLogIndex + 1 ∧
      ∀ e ∈ log.memoryLog, ¬ (e.index = front.index ∧ e.term = front.term)

/-- A request is either refused, and the log left as it is, or its entries are stored. -/
theorem storeEntries_cases (req : AppendEntriesRequest n) (log : LogManager) :
    (Refused req log ∧ storeEntries req log = some (log, false)) ∨
      (¬ Refused req log ∧ ∃ log', storeEntries req log = some (log', true) ∧
        (log'.memoryLog = [] ↔ log.memoryLog = [] ∧ req.entries = [])) := by
  unfold Refused storeEntries
  by_cases h1 : req.prevLogIndex ≤ log.getLastLogIndex
  · simp only [if_pos h1, not_lt.2 h1, false_or]
    rcases hes : req.entries with _ | ⟨front, es⟩
    · exact .inr ⟨by simp, log, rfl, by simp⟩
    · obtain ⟨log', ok, hap⟩ := log.exists_appendBatch front es
      have hiff : log.appendsAt (front :: es) = none ↔ _ := LogManager.appendsAt_eq_none_iff
      simp only [List.head?_cons, Option.mem_some_iff, exists_eq_left', List.isEmpty_cons,
        Bool.false_eq_true, if_false, hap]
      rcases LogManager.appendBatch_laid hap (by simp) with ⟨q, hq, rfl, hl, -⟩ | ⟨hq, rfl, rfl⟩
      · refine .inr ⟨fun h => ?_, log', rfl, iff_of_false hl.ne_nil_of (by simp)⟩
        rw [hiff.2 h] at hq
        cases hq
      · exact .inl ⟨hiff.1 hq, rfl⟩
  · rw [if_neg h1]
    exact .inl ⟨.inl (not_le.1 h1), rfl⟩

section Commit

theorem followCommit_eq (h0 : nd.log.getLastCommitIndex < req.leaderCommitIndex)
    (h1 : req.leaderCommitIndex ≤ nd.log.getLastLogIndex) :
    followCommit req nd = some (notifyFS
      { nd with log := { nd.log with lastCommitedIndex := req.leaderCommitIndex } }) := by
  have hlast : 0 < nd.log.getLastLogIndex := by omega
  unfold followCommit LogManager.setLastCommitIndex
  unfold LogManager.getLastLogIndex at h1 hlast
  rw [if_pos h0]
  rcases hl : nd.log.memoryLog.getLast? with _ | back
  · simp [hl] at hlast
  · simp only [hl, Option.map_some, Option.getD_some] at h1
    simp only [Option.map_some, if_pos h1]

/-- A request that is refused for its place sets the commit index all the same. -/
theorem onAppendEntries_refused (ht : nd.currentTerm ≤ req.term) (hr : Refused req nd.log)
    (h0 : nd.log.getLastCommitIndex < req.leaderCommitIndex)
    (h1 : req.leaderCommitIndex ≤ nd.log.getLastLogIndex) :
    ∃ nd' resp, onAppendEntries req nd = some (nd', resp) ∧ resp.success = false ∧
      nd'.log = { nd.log with lastCommitedIndex := req.leaderCommitIndex } := by
  have hne : nd.log.memoryLog.isEmpty = false := by
    by_contra hemp
    have hemp : nd.log.memoryLog = [] := by simpa using hemp
    simp only [LogManager.getLastLogIndex, hemp, List.getLast?_nil, Option.map_none,
      Option.getD_none] at h1
    omega
  obtain ⟨-, hst⟩ | ⟨hno, -⟩ := storeEntries_cases req nd.log
  · obtain ⟨role, leader, pool, hcu, -⟩ := catchUp_eq req ht
    unfold onAppendEntries
    have hfc : followCommit req { catchUp req nd with log := nd.log } = some _ :=
      followCommit_eq h0 h1
    rw [hcu] at hfc
    rw [if_neg (not_lt.2 ht)]
    simp only [hcu, hst, Option.bind_eq_bind, Option.bind_some, hfc]
    simp only [notifyFS, hne, Bool.and_false, Bool.false_eq_true, if_false]
    exact ⟨_, _, rfl, rfl, rfl⟩
  · exact absurd hr hno

/-- On every node and for every request, a request refused leaves the log and the commit index as
they were, unless it is refused for its place and has a larger commit index inside the log. -/
theorem refused_keeps_log (req : AppendEntriesRequest n) (nd : Node n) :
    (∀ nd' resp, onAppendEntries req nd = some (nd', resp) → resp.success = false →
      nd'.log = nd.log) ↔
    (nd.currentTerm ≤ req.term → Refused req nd.log →
      req.leaderCommitIndex ≤ nd.log.getLastCommitIndex ∨
        nd.log.getLastLogIndex < req.leaderCommitIndex) := by
  constructor
  · intro hkeep ht hr
    by_contra! hlt
    obtain ⟨nd', resp, hap, hs, hlog⟩ := onAppendEntries_refused ht hr hlt.1 hlt.2
    have hsame := hkeep nd' resp hap hs
    rw [hlog] at hsame
    have hc : req.leaderCommitIndex = nd.log.lastCommitedIndex :=
      congrArg LogManager.lastCommitedIndex hsame
    have hne : nd.log.memoryLog ≠ [] := by
      intro h0
      simp only [LogManager.getLastLogIndex, h0, List.getLast?_nil, Option.map_none,
        Option.getD_none] at hlt
      omega
    rw [LogManager.getLastCommitIndex_of_ne hne] at hlt
    omega
  · intro hcond nd' resp hap hs
    rcases onAppendEntries_cases hap with ⟨-, rfl, -⟩ | ⟨_, _, _, log, log', _, ha, rfl⟩
    · rfl
    · have hst := ha.stored
      rw [hs] at hst
      rcases storeEntries_cases req nd.log with ⟨hr, hst'⟩ | ⟨-, _, hst', -⟩
      · obtain ⟨rfl, -⟩ := Prod.mk.inj (Option.some.inj (hst'.symm.trans hst))
        rcases ha.commit with rfl | ⟨-, hlt, hle, -⟩
        · rfl
        · rcases hcond ha.term_le hr with h | h
          · exact absurd hlt (not_lt.2 h)
          · exact absurd hle (not_le.2 h)
      · cases (Prod.mk.inj (Option.some.inj (hst'.symm.trans hst))).2

end Commit

end Node

open Cluster

/-- Node `1` has got two entries and learned that the first is committed, of which node `2` has only
the first. When node `1` leads, node `2` refuses its first request and commits its entry. -/
theorem refused_commits :
    ∃ s, (cluster 3).Reach Runs.Sys.anyStep s ∧ ∃ c ∈ s.aeCalls, c.phase = .sent ∧
      ∃ nd resp, (s.node c.dst).onAppendEntries c.req = some (nd, resp) ∧
        resp.success = false ∧ (s.node c.dst).log.getLastCommitIndex = 0 ∧
        nd.log.getLastCommitIndex = 1 := by
  let s := (cluster 3).run Runs.Sys.anyStep start3 (elect 0 1 0 ++ write 0 0 ['/', 'a'] ++
    [.aeFail 0] ++ call 0 1 1 ++ [.aeReturn 1] ++ call 0 2 2 ++ [.aeReturn 2] ++ call 0 2 3 ++
    [.aeReturn 3] ++ write 0 1 ['/', 'b'] ++ call 0 1 4 ++ elect 1 2 1 ++ [.aeSend 5])
  have hs : (cluster 3).Reach Runs.Sys.anyStep s :=
    Runs.Sys.reach_run reach_start3 (by decide +kernel)
  obtain ⟨c, hc, hp, hr⟩ : ∃ c ∈ s.aeCalls, c.phase = .sent ∧
      ((s.node c.dst).onAppendEntries c.req).any (fun r => !r.2.success &&
        (s.node c.dst).log.getLastCommitIndex == 0 && r.1.log.getLastCommitIndex == 1) = true := by
    decide +kernel
  obtain ⟨⟨nd, resp⟩, hap, hr⟩ := Option.any_eq_true .. |>.1 hr
  simp only [Bool.and_eq_true, Bool.not_eq_true', beq_iff_eq] at hr
  exact ⟨s, hs, c, hc, hp, nd, resp, hap, hr.1.1, hr.1.2, hr.2⟩

section Empty

theorem Node.exists_followCommit_iff (req : AppendEntriesRequest n) (nd : Node n) :
    (∃ nd', nd.followCommit req = some nd') ↔
      nd.log.memoryLog ≠ [] ∨ req.leaderCommitIndex = 0 := by
  unfold Node.followCommit LogManager.setLastCommitIndex
  rcases hl : nd.log.memoryLog.getLast? with _ | back
  · have h0 : nd.log.memoryLog = [] := List.getLast?_eq_none_iff.1 hl
    rw [LogManager.getLastCommitIndex_of_eq h0]
    split_ifs with hc
    · exact iff_of_false (by simp) (by simp [h0, hc.ne'])
    · exact iff_of_true ⟨_, rfl⟩ (.inr (by omega))
  · have hne : nd.log.memoryLog ≠ [] := by
      rintro h0
      simp [h0] at hl
    refine iff_of_true ?_ (.inl hne)
    split_ifs
    all_goals exact ⟨_, rfl⟩

theorem Node.storeEntries_eq_nil (req : AppendEntriesRequest n) (log : LogManager) :
    ∃ log' ok, Node.storeEntries req log = some (log', ok) ∧ (log'.memoryLog = [] ↔
      log.memoryLog = [] ∧ (req.entries = [] ∨ 0 < req.prevLogIndex)) := by
  have hgap : log.memoryLog = [] → (Node.Refused req log ↔ 0 < req.prevLogIndex) := by
    intro h0
    simp [Node.Refused, LogManager.getLastLogIndex, h0]
  rcases Node.storeEntries_cases req log with ⟨hr, hst⟩ | ⟨hr, log', hst, hlog⟩
  · exact ⟨log, false, hst, fun h0 => ⟨h0, .inr ((hgap h0).1 hr)⟩, And.left⟩
  · refine ⟨log', true, hst, hlog.trans ⟨fun h => ⟨h.1, .inl h.2⟩, fun h => ⟨h.1, ?_⟩⟩⟩
    exact h.2.resolve_right fun hp => hr ((hgap h.1).2 hp)

/-- A request is handled without a look at the last entry of an empty log just where the log is not
empty, the request is behind, its entries are stored, or it has neither entries nor a commit
index. -/
theorem Node.onAppendEntries_isSome_iff (req : AppendEntriesRequest n) (nd : Node n) :
    (nd.onAppendEntries req).isSome ↔ nd.log.memoryLog ≠ [] ∨ req.term < nd.currentTerm ∨
      (req.prevLogIndex = 0 ∧ req.entries ≠ []) ∨
      (req.entries = [] ∧ req.leaderCommitIndex = 0) := by
  unfold Node.onAppendEntries
  by_cases ht : req.term < nd.currentTerm
  · simp [ht]
  · obtain ⟨role, leader, pool, hcu, -⟩ := Node.catchUp_eq req (not_lt.1 ht)
    obtain ⟨log, ok, hst, hlog⟩ := Node.storeEntries_eq_nil req nd.log
    have hfc := Node.exists_followCommit_iff req { Node.catchUp req nd with log := log }
    rw [hcu] at hfc
    simp only [hcu, hst, Option.bind_eq_bind, Option.bind_some, ht, false_or]
    rcases hf : Node.followCommit req _ with _ | nd'
    · rw [hf] at hfc
      have hempty : log.memoryLog = [] ∧ req.leaderCommitIndex ≠ 0 := by simpa using hfc
      obtain ⟨h0, hor⟩ := hlog.1 hempty.1
      refine iff_of_false (by simp) ?_
      rintro (h | ⟨hp, he⟩ | ⟨-, hc⟩)
      · exact h h0
      · exact hor.elim he (by omega)
      · exact hempty.2 hc
    · obtain ⟨log', fs, rfl, hm, -⟩ := Node.followCommit_cases hf
      have hsome := hfc.1 ⟨_, hf⟩
      simp only at hm hsome
      simp only [Option.bind_some, hm]
      by_cases hprint : req.entries ≠ [] ∧ log.memoryLog = []
      · obtain ⟨h0, hor⟩ := hlog.1 hprint.2
        have hgap := hor.resolve_left hprint.1
        have hcond : (!req.entries.isEmpty && log.memoryLog.isEmpty) = true := by
          simp [hprint]
        rw [if_pos hcond]
        refine iff_of_false (by simp) ?_
        rintro (h | h | h)
        · exact h h0
        · omega
        · exact hprint.1 h.1
      · have hcond : (!req.entries.isEmpty && log.memoryLog.isEmpty) = false := by
          rw [← Bool.not_eq_true, Bool.and_eq_true, Bool.not_eq_true', List.isEmpty_eq_false_iff,
            List.isEmpty_iff]
          exact hprint
        simp only [hcond, Bool.false_eq_true, if_false]
        refine iff_of_true (by split_ifs <;> rfl) ?_
        by_cases h1 : log.memoryLog = []
        · have he : req.entries = [] := not_not.1 fun he => hprint ⟨he, h1⟩
          exact .inr (.inr ⟨he, hsome.resolve_left (not_not.2 h1)⟩)
        · by_cases h0 : nd.log.memoryLog = []
          · have hno : ¬ (req.entries = [] ∨ 0 < req.prevLogIndex) :=
              fun h => h1 (hlog.2 ⟨h0, h⟩)
            rw [not_or] at hno
            exact .inr (.inl ⟨by omega, hno.1⟩)
          · exact .inl h0

/-- Every entry of a log or a request has an index, and a request with no place before it and no
entries comes from an empty log. -/
structure Indexed (s : Cluster n) : Prop where
  log : ∀ x, ∀ e ∈ (s.node x).log.memoryLog, 0 < e.index
  sent : ∀ c ∈ s.aeCalls, (∀ e ∈ c.req.entries, 0 < e.index) ∧
    (c.req.prevLogIndex = 0 → c.req.entries = [] → c.req.leaderCommitIndex = 0)

theorem reach_indexed {G : Runs.Guard (Cluster n) (Action n)} {s : Cluster n}
    (h : (cluster n).Reach G s) : Indexed s := by
  refine h.inv ?_ ?_
  · rintro _ ⟨env, junk, rfl⟩
    exact ⟨fun x e he => by simp [Cluster.init, Node.init] at he,
      fun c hc => by simp [Cluster.init] at hc⟩
  · intro s a s' _ hI _ hst
    have hlog : ∀ x, ∀ e ∈ (s'.node x).log.memoryLog, 0 < e.index := by
      intro x e he
      cases step_log hst x with
      | same h => exact hI.log x e (h ▸ he)
      | stored _ hc _ _ hl =>
        rcases hl.mem he with he | he
        · exact hI.log x e he
        · exact (hI.sent _ (List.mem_of_getElem? hc)).1 e he
      | appended _ _ hl =>
        rw [hl] at he
        rcases List.mem_append.1 he with he | he
        · exact hI.log x e he
        · rw [List.mem_singleton.1 he]
          exact Nat.succ_pos _
    refine ⟨hlog, fun c hc => ?_⟩
    obtain ⟨k, hk⟩ := List.mem_iff_getElem?.1 hc
    cases step_aeCalls hst hk with
    | same hc₀ | handled hc₀ =>
      have hold := hI.sent _ (List.mem_of_getElem? hc₀)
      exact hold
    | @made x r =>
      refine ⟨fun e he => hlog x e (Node.mem_of_appendEntriesRequest he), fun hp he => ?_⟩
      simp only [Node.appendEntriesRequest] at hp he ⊢
      refine LogManager.getLastCommitIndex_of_eq ?_
      by_contra hne
      obtain ⟨back, hb⟩ := Option.ne_none_iff_exists'.1 (mt List.getLast?_eq_none_iff.1 hne)
      have hpos := hlog x back (List.mem_of_getLast? hb)
      have hlast : (s'.node x).log.getLastLogIndex = back.index := by
        simp [LogManager.getLastLogIndex, hb]
      rw [hp, if_pos (by omega), LogManager.getEntriesStartAt_zero (hlog x)] at he
      exact hne he

/-- In every run, handling a request of a leader touches the last entry of an empty log just where
the node's log is empty, the request is not behind and not for the start of the log, and it has
entries or a commit index. -/
theorem empty_log_untouched {s : Cluster n} (h : (cluster n).Reach Runs.Sys.anyStep s)
    {c : AppendEntriesCall n} (hc : c ∈ s.aeCalls) :
    ((s.node c.dst).onAppendEntries c.req).isSome ↔
      (s.node c.dst).log.memoryLog ≠ [] ∨ c.req.term < (s.node c.dst).currentTerm ∨
        c.req.prevLogIndex = 0 ∨ (c.req.entries = [] ∧ c.req.leaderCommitIndex = 0) := by
  have hstart := ((reach_indexed h).sent c hc).2
  rw [Node.onAppendEntries_isSome_iff]
  constructor
  · rintro (h | h | h | h)
    · exact .inl h
    · exact .inr (.inl h)
    · exact .inr (.inr (.inl h.1))
    · exact .inr (.inr (.inr h))
  · rintro (h | h | h | h)
    · exact .inl h
    · exact .inr (.inl h)
    · by_cases he : c.req.entries = []
      · exact .inr (.inr (.inr ⟨he, hstart h he⟩))
      · exact .inr (.inr (.inl ⟨h, he⟩))
    · exact .inr (.inr (.inr h))

/-- The first request to a node whose log is empty is for the start of the log. -/
theorem empty_log_untouched_first :
    ∃ s, (cluster 3).Reach Runs.Sys.anyStep s ∧ ∃ c ∈ s.aeCalls,
      (s.node c.dst).log.memoryLog = [] ∧ ((s.node c.dst).onAppendEntries c.req).isSome := by
  let s := (cluster 3).run Runs.Sys.anyStep start3 (elect 0 1 0)
  have hs : (cluster 3).Reach Runs.Sys.anyStep s :=
    Runs.Sys.reach_run reach_start3 (by decide +kernel)
  obtain ⟨c, hc, hl, hp⟩ : ∃ c ∈ s.aeCalls, (s.node c.dst).log.memoryLog = [] ∧
      c.req.prevLogIndex = 0 := by decide +kernel
  exact ⟨s, hs, c, hc, hl, (empty_log_untouched hs hc).2 (.inr (.inr (.inl hp)))⟩

/-- Node `1` has got an entry from node `0`, leads the second term and appends another, which it
sends to node `2`. The log of node `2` is empty, and it looks at the last entry. -/
theorem empty_log_read :
    ∃ s, (cluster 3).Reach Runs.Sys.anyStep s ∧ ∃ c ∈ s.aeCalls, c.phase = .sent ∧
      (s.node c.dst).log.memoryLog = [] ∧ c.req.entries ≠ [] ∧
      (s.node c.dst).onAppendEntries c.req = none := by
  let s := (cluster 3).run Runs.Sys.anyStep start3 (elect 0 1 0 ++ write 0 0 ['/', 'a'] ++
    [.aeFail 0] ++ call 0 1 1 ++ elect 1 0 1 ++ write 1 0 ['/', 'b'] ++
      [.remoteWake 1 2, .aeSend 3])
  have hs : (cluster 3).Reach Runs.Sys.anyStep s :=
    Runs.Sys.reach_run reach_start3 (by decide +kernel)
  obtain ⟨c, hc, hp, hl, he, hnone⟩ : ∃ c ∈ s.aeCalls, c.phase = .sent ∧
      (s.node c.dst).log.memoryLog = [] ∧ c.req.entries ≠ [] ∧
      ((s.node c.dst).onAppendEntries c.req).isNone = true := by decide +kernel
  exact ⟨s, hs, c, hc, hp, hl, he, Option.isNone_iff_eq_none.1 hnone⟩

end Empty

end RaftFS
