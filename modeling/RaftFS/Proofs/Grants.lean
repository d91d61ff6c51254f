import RaftFS.Proofs.LogOrder
import Mathlib.Data.Prod.Lex

/-!
# Votes granted

A candidate is to get a vote in a term that is not behind, from a node that has given it to no one
else and whose log is not ahead, the last term first and then the last index. `OnRequestVote`
compares the last index and the last term each on its own, and does not compare the request's term.
`vote_decision` says where the two decide alike, and for which two logs neither node gets the
other's vote.
-/

namespace RaftFS

variable {n : ℕ}

namespace Node

variable {nd : Node n} {req : ReqVoteRequest n} {log log' : LogManager}

/-- The rule for a vote. -/
def MayGrant (req : ReqVoteRequest n) (nd : Node n) : Prop :=
  nd.currentTerm ≤ req.term ∧
    (nd.voteFor req.term = none ∨ nd.voteFor req.term = some req.candidateId) ∧
    toLex nd.log.getLastLogTermAndIndex ≤ toLex (req.lastLogTerm, req.lastLogIndex)

/-- A node with the log `log'` that is free to vote grants its vote to a candidate with `log`. -/
def Acceptable (n : ℕ) (log log' : LogManager) : Prop :=
  ∀ (nd : Node n) (req : ReqVoteRequest n), nd.log = log' → nd.currentTerm ≤ req.term →
    nd.voteFor req.term = none →
    (req.lastLogTerm, req.lastLogIndex) = log.getLastLogTermAndIndex →
    (nd.onRequestVote req).2.voteGranted = true

/-- The log `log` ends in a later term than `log'` and with a smaller index. -/
def Crossed (log log' : LogManager) : Prop :=
  log'.getLastLogTerm < log.getLastLogTerm ∧ log.getLastLogIndex < log'.getLastLogIndex

theorem voteGranted_iff (req : ReqVoteRequest n) (nd : Node n) :
    (nd.onRequestVote req).2.voteGranted = true ↔ Grants req nd := by
  unfold onRequestVote Grants
  simp only [LogManager.getLastLogTermAndIndex]
  by_cases ht : nd.currentTerm < req.term
  · obtain ⟨pool, hf⟩ := changeToFollower_eq nd req.term
    simp only [if_pos ht, hf]
    split_ifs with hg
    · exact iff_of_true rfl ⟨hg.1.1, hg.1.2, hg.2⟩
    · exact iff_of_false (by simp) fun h => hg ⟨⟨h.1, h.2.1⟩, h.2.2⟩
  · simp only [if_neg ht]
    split_ifs with hg
    · exact iff_of_true rfl ⟨hg.1.1, hg.1.2, hg.2⟩
    · exact iff_of_false (by simp) fun h => hg ⟨⟨h.1, h.2.1⟩, h.2.2⟩

theorem mayGrant_iff : MayGrant req nd ↔ nd.currentTerm ≤ req.term ∧
    (nd.voteFor req.term = none ∨ nd.voteFor req.term = some req.candidateId) ∧
    (nd.log.getLastLogTerm < req.lastLogTerm ∨
      nd.log.getLastLogTerm = req.lastLogTerm ∧ nd.log.getLastLogIndex ≤ req.lastLogIndex) := by
  unfold MayGrant LogManager.getLastLogTermAndIndex
  rw [Prod.Lex.toLex_le_toLex]

/-- A vote is decided by the rule, unless it is granted in a term that is behind, or refused to a
candidate whose last term is later and whose last index is smaller. -/
theorem grants_iff_mayGrant (req : ReqVoteRequest n) (nd : Node n) :
    (Grants req nd ↔ MayGrant req nd) ↔
      ((nd.voteFor req.term = none ∨ nd.voteFor req.term = some req.candidateId) →
        ¬ (req.term < nd.currentTerm ∧ nd.log.getLastLogTerm ≤ req.lastLogTerm ∧
            nd.log.getLastLogIndex ≤ req.lastLogIndex) ∧
          ¬ (nd.currentTerm ≤ req.term ∧ nd.log.getLastLogTerm < req.lastLogTerm ∧
            req.lastLogIndex < nd.log.getLastLogIndex)) := by
  rw [mayGrant_iff]
  unfold Grants
  by_cases hfree : nd.voteFor req.term = none ∨ nd.voteFor req.term = some req.candidateId
  · simp only [hfree, and_true, true_and, true_implies]
    omega
  · simp only [hfree, and_false, false_and, false_implies]

/-- A node just built, with the log `log`. -/
def withLog (n : ℕ) (log : LogManager) : Node n :=
  { init (fun _ => ⟨0, 0⟩) (fun _ => 0) with log := log }

theorem acceptable_iff (x : Fin n) : Acceptable n log log' ↔
    log'.getLastLogIndex ≤ log.getLastLogIndex ∧ log'.getLastLogTerm ≤ log.getLastLogTerm := by
  constructor
  · intro h
    have hg := h (withLog n log') ⟨0, x, log.getLastLogIndex, log.getLastLogTerm⟩ rfl le_rfl rfl rfl
    rw [voteGranted_iff] at hg
    exact ⟨hg.1, hg.2.1⟩
  · rintro ⟨hi, ht⟩ nd req rfl - hfree hlast
    obtain ⟨hterm, hindex⟩ := Prod.mk.inj hlast
    rw [voteGranted_iff]
    exact ⟨hindex ▸ hi, hterm ▸ ht, .inl hfree⟩

theorem acceptable_or_iff (x : Fin n) : (Acceptable n log log' ∨ Acceptable n log' log) ↔
    ¬ (Crossed log log' ∨ Crossed log' log) := by
  rw [acceptable_iff x, acceptable_iff x]
  unfold Crossed
  omega

end Node

open Node Cluster

/-- For every request and every node, the vote is granted as the rule has it, unless the node has
not voted for another candidate and either the request is behind and its last term and index are
not, or the request is not behind, its last term is later and its last index smaller. Of any two
logs one is acceptable to the other just where they do not end with the term of one later and the
index of the other larger. -/
theorem vote_decision (req : ReqVoteRequest n) (nd : Node n) :
    (((nd.onRequestVote req).2.voteGranted = true ↔ MayGrant req nd) ↔
      ((nd.voteFor req.term = none ∨ nd.voteFor req.term = some req.candidateId) →
        ¬ (req.term < nd.currentTerm ∧ nd.log.getLastLogTerm ≤ req.lastLogTerm ∧
            nd.log.getLastLogIndex ≤ req.lastLogIndex) ∧
          ¬ (nd.currentTerm ≤ req.term ∧ nd.log.getLastLogTerm < req.lastLogTerm ∧
            req.lastLogIndex < nd.log.getLastLogIndex))) ∧
    ∀ log log' : LogManager, (Acceptable n log log' ∨ Acceptable n log' log) ↔
      ¬ (Crossed log log' ∨ Crossed log' log) := by
  refine ⟨?_, fun log log' => acceptable_or_iff req.candidateId⟩
  rw [voteGranted_iff]
  exact grants_iff_mayGrant req nd

/-- Node `1` is in the second term when the request of node `0` of the first comes in, which it has
not voted in, and votes for it. And node `1`, with one entry of the second term, does not get the
vote of node `0`, with two of the first: neither of their logs is acceptable to the other. -/
theorem votes_astray :
    (∃ s, (cluster 3).Reach Runs.Sys.anyStep s ∧ ∃ c ∈ s.rvCalls, c.phase = .sent ∧
      c.req.term < (s.node c.dst).currentTerm ∧
      ((s.node c.dst).onRequestVote c.req).2.voteGranted = true) ∧
    ∃ s, (cluster 3).Reach Runs.Sys.anyStep s ∧ ∃ c ∈ s.rvCalls, c.phase = .sent ∧
      MayGrant c.req (s.node c.dst) ∧
      ((s.node c.dst).onRequestVote c.req).2.voteGranted = false ∧
      ¬ (Acceptable 3 (s.node c.src).log (s.node c.dst).log ∨
        Acceptable 3 (s.node c.dst).log (s.node c.src).log) := by
  constructor
  · let s := (cluster 3).run Runs.Sys.anyStep start3 [.leaderTimeout 0, .remoteWake 0 1, .rvSend 0,
      .leaderTimeout 2, .leaderTimeout 2, .remoteWake 2 1, .rvSend 1, .rvHandle 1]
    exact ⟨s, Runs.Sys.reach_run reach_start3 (by decide +kernel), by decide +kernel⟩
  · let s := (cluster 3).run Runs.Sys.anyStep start3 (elect 0 1 0 ++ write 0 0 ['/', 'a'] ++
      write 0 1 ['/', 'b'] ++ elect 1 2 1 ++ write 1 0 ['/', 'c'] ++
      [.leaderTimeout 2, .remoteWake 2 1, .rvSend 2, .rvHandle 2, .leaderTimeout 1,
        .remoteWake 1 0, .rvSend 3])
    obtain ⟨c, hc, hp, ht, hv, hl, hg, h1, h2⟩ : ∃ c ∈ s.rvCalls, c.phase = .sent ∧
        (s.node c.dst).currentTerm ≤ c.req.term ∧ (s.node c.dst).voteFor c.req.term = none ∧
        (s.node c.dst).log.getLastLogTerm < c.req.lastLogTerm ∧
        ((s.node c.dst).onRequestVote c.req).2.voteGranted = false ∧
        (s.node c.dst).log.getLastLogTerm < (s.node c.src).log.getLastLogTerm ∧
        (s.node c.src).log.getLastLogIndex < (s.node c.dst).log.getLastLogIndex := by
      decide +kernel
    refine ⟨s, Runs.Sys.reach_run reach_start3 (by decide +kernel), c, hc, hp,
      mayGrant_iff.2 ⟨ht, .inl hv, .inl hl⟩, hg, ?_⟩
    rw [acceptable_or_iff c.dst, not_not]
    exact .inl ⟨h1, h2⟩

end RaftFS
