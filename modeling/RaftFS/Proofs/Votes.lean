import RaftFS.Proofs.Moves

/-!
# Votes

A vote once given stays (`vote_uniqueness`), in any run. So two nodes that a quorum each voted for
in a term are one. What a candidate counts is a vote in the term it stands in only if the response
is to a request of that term, which the code does not look at: with that condition on the
responses counted, a term has one leader (`election_safety`), and without it a term may have two
(`two_leaders`).
-/

namespace RaftFS

variable {n : ℕ}

open Cluster

/-- `nd'` has reached the term of `nd` and has all its votes, and what votes it has more are in
terms it has reached. -/
structure Node.VotesKept (nd nd' : Node n) : Prop where
  term : nd.currentTerm ≤ nd'.currentTerm
  kept : ∀ {T y}, nd.voteFor T = some y → nd'.voteFor T = some y
  added : ∀ {T}, nd'.voteFor T ≠ nd.voteFor T → T ≤ nd'.currentTerm

namespace Node.VotesKept

variable {nd nd' nd'' : Node n}

theorem of_term (h : nd.currentTerm ≤ nd'.currentTerm) (hv : nd'.voteFor = nd.voteFor) :
    nd.VotesKept nd' := by
  refine ⟨h, fun hy => ?_, fun hne => ?_⟩
  · rw [hv]
    exact hy
  · rw [hv] at hne
    exact absurd rfl hne

theorem rfl : nd.VotesKept nd := of_term le_rfl (Eq.refl _)

theorem trans (h : nd.VotesKept nd') (h' : nd'.VotesKept nd'') : nd.VotesKept nd'' := by
  refine ⟨h.term.trans h'.term, fun hy => h'.kept (h.kept hy), fun {T} hne => ?_⟩
  by_cases h1 : nd''.voteFor T = nd'.voteFor T
  · rw [h1] at hne
    exact (h.added hne).trans h'.term
  · exact h'.added h1

theorem of_update {T : ℕ} {y : Fin n} (h : nd.currentTerm ≤ nd'.currentTerm)
    (hT : T ≤ nd'.currentTerm) (hv : nd.voteFor T = none ∨ nd.voteFor T = some y)
    (he : nd'.voteFor = Function.update nd.voteFor T (some y)) : nd.VotesKept nd' := by
  refine ⟨h, fun {U z} hz => ?_, fun {U} hne => ?_⟩
  · rw [he, Function.update_apply]
    split_ifs with hU
    · subst hU
      rw [hz] at hv
      exact (hv.resolve_left (by simp)).symm
    · exact hz
  · rw [he, Function.update_apply] at hne
    split_ifs at hne with hU
    · exact hU ▸ hT
    · exact absurd (Eq.refl _) hne

theorem startLeaderElection (self : Fin n) (nd : Node n) :
    nd.VotesKept (nd.startLeaderElection self) := by
  unfold Node.startLeaderElection
  simp only
  split_ifs with h
  · exact of_update (Nat.le_succ _) le_rfl (.inl h) (Eq.refl _)
  · exact of_term (Nat.le_succ _) (Eq.refl _)

theorem onRequestVote (req : ReqVoteRequest n) (nd : Node n) :
    nd.VotesKept (nd.onRequestVote req).1 := by
  obtain ⟨role, leader, pool, vote, he, -, ⟨hg, -, rfl⟩ | ⟨-, rfl⟩⟩ := nd.onRequestVote_cases req
  · rw [he]
    exact of_update (le_max_left _ _) (le_max_right _ _) hg.2.2 (Eq.refl _)
  · rw [he]
    exact of_term (le_max_left _ _) (Eq.refl _)

theorem onAppendEntries {req : AppendEntriesRequest n} {resp : AppendEntriesResponse}
    (h : nd.onAppendEntries req = some (nd', resp)) : nd.VotesKept nd' := by
  rcases Node.onAppendEntries_cases h with ⟨-, rfl, -⟩ | ⟨_, _, _, _, _, _, ha, rfl⟩
  · exact rfl
  · exact of_term ha.term_le (Eq.refl _)

theorem onAppendEntriesResponse {id : Fin n} {req : AppendEntriesRequest n}
    {resp : AppendEntriesResponse} {commit : Option ℕ} {next : Node.Next}
    (h : nd.onAppendEntriesResponse id req resp = some (nd', commit, next)) :
    nd.VotesKept nd' := by
  rcases Node.onAppendEntriesResponse_cases h with ⟨-, -, -, h'⟩ | ⟨hlt, -, rfl⟩ | ⟨-, _, rfl, -⟩
  · obtain ⟨_, _, _, rfl, -⟩ := Node.recordAck_cases h'
    exact of_term le_rfl (Eq.refl _)
  · exact of_term hlt.le (Eq.refl _)
  · exact of_term le_rfl (Eq.refl _)

theorem onRequestVoteResponse {self id : Fin n} {resp : ReqVoteResponse} {won : Bool}
    {next : Node.Next} (h : nd.onRequestVoteResponse self id resp = (nd', won, next)) :
    nd.VotesKept nd' := by
  obtain ⟨_, _, _, _, _, _, h', -⟩ := nd.onRequestVoteResponse_cases self id resp
  rw [h] at h'
  rw [(Prod.mk.inj h').1]
  exact of_term le_rfl (Eq.refl _)

theorem of_same (h : SameCore nd nd') : nd.VotesKept nd' := of_term h.currentTerm.ge h.voteFor

end Node.VotesKept

/-- Each node has kept its votes since `s`. -/
def VotesKept (s s' : Cluster n) : Prop := ∀ x, (s.node x).VotesKept (s'.node x)

theorem VotesKept.setNode {s : Cluster n} {x : Fin n} {nd : Node n}
    (h : (s.node x).VotesKept nd) : VotesKept s (s.setNode x nd) := by
  intro y
  rw [setNode_node, Function.update_apply]
  split_ifs with hy
  · exact hy ▸ h
  · exact Node.VotesKept.rfl

theorem VotesKept.of_quiet {s t : Cluster n} (h : Quiet s t) : VotesKept s t :=
  fun x => .of_same (h.core x)

theorem VotesKept.of_move {s t : Cluster n} {a : Action n} (h : s.Move a t) : VotesKept s t := by
  cases h with
  | timeout => exact VotesKept.setNode (.startLeaderElection _ _)
  | aeHandle hc hp h => exact VotesKept.setNode (.onAppendEntries h)
  | aeTake hc ha h => exact VotesKept.setNode (.onAppendEntriesResponse h)
  | rvHandle => exact VotesKept.setNode (.onRequestVote _ _)
  | rvTake hc ha h => exact VotesKept.setNode (.onRequestVoteResponse h)
  | append => exact VotesKept.setNode (.of_term le_rfl rfl)

theorem VotesKept.callAppendEntries (s : Cluster n) (x r : Fin n) (h : x ≠ r) :
    VotesKept s (s.callAppendEntries x r h) :=
  VotesKept.setNode (.of_term le_rfl rfl)

theorem VotesKept.callRequestVote (s : Cluster n) (x r : Fin n) (h : x ≠ r) :
    VotesKept s (s.callRequestVote x r h) :=
  VotesKept.setNode (.of_term le_rfl rfl)

theorem VotesKept.of_resume {t t' : Cluster n} (h : t.Resume t') : VotesKept t t' := by
  cases h with
  | none => exact fun _ => .rfl
  | wait => exact VotesKept.setNode (.of_term le_rfl rfl)
  | appendEntries => exact VotesKept.callAppendEntries _ _ _ _
  | requestVote => exact VotesKept.callRequestVote _ _ _ _

/-- A node keeps its votes in all the run that follows. -/
theorem votesKept_later {G : Runs.Guard (Cluster n) (Action n)} {s s' : Cluster n}
    (h : (cluster n).Reach G s) (hl : (cluster n).Later G s s') : VotesKept s s' := by
  refine hl.rel (fun _ _ => .rfl) (fun _ _ _ h h' x => (h x).trans (h' x)) ?_ h
  intro s a s' hs _ hst x
  obtain ⟨t, hc, hr⟩ := step_changes hst
  have ht : VotesKept s t := (hc.quiet_or_move (reach_gateOk hs)).elim .of_quiet .of_move
  exact (ht x).trans (VotesKept.of_resume hr x)

/-- The terms voted in have been reached, a request for votes names its sender, and a vote granted
in a response is one the node that granted it has. -/
structure Votes (s : Cluster n) : Prop where
  reached : ∀ x {T y}, (s.node x).voteFor T = some y → T ≤ (s.node x).currentTerm
  candidate : ∀ c ∈ s.rvCalls, c.req.candidateId = c.src
  granted : ∀ c ∈ s.rvCalls, ∀ resp ∈ c.phase.resp?, resp.voteGranted = true →
    (s.node c.dst).voteFor c.req.term = some c.src

namespace Votes

variable {s t : Cluster n}

theorem reached_of_kept (h : Votes s) (hk : VotesKept s t) (x : Fin n) {T : ℕ} {y : Fin n}
    (hy : (t.node x).voteFor T = some y) : T ≤ (t.node x).currentTerm := by
  by_cases hT : (t.node x).voteFor T = (s.node x).voteFor T
  · rw [hT] at hy
    exact (h.reached x hy).trans (hk x).term
  · exact (hk x).added hT

theorem not_voted_next (h : Votes s) (x : Fin n) :
    (s.node x).voteFor ((s.node x).currentTerm + 1) = none := by
  rcases hv : (s.node x).voteFor ((s.node x).currentTerm + 1) with _ | y
  · rfl
  · have := h.reached x hv
    omega

theorem of_kept (h : Votes s) (hk : VotesKept s t) (hc : t.rvCalls = s.rvCalls) : Votes t where
  reached := h.reached_of_kept hk
  candidate := hc ▸ h.candidate
  granted := hc ▸ fun c hcm resp hr hg => (hk c.dst).kept (h.granted c hcm resp hr hg)

theorem quiet (h : Votes s) (hq : Quiet s t) : Votes t where
  reached := h.reached_of_kept (.of_quiet hq)
  candidate c hc := by
    obtain ⟨c', hc', ph, rfl, -⟩ := hq.rvCalls c hc
    exact h.candidate c' hc'
  granted c hc resp hr hg := by
    obtain ⟨c', hc', ph, rfl, hph⟩ := hq.rvCalls c hc
    exact (VotesKept.of_quiet hq _).kept (h.granted c' hc' resp (hph ▸ hr) hg)

theorem move {a : Action n} (h : Votes s) (hm : s.Move a t) : Votes t := by
  have hk := VotesKept.of_move hm
  cases hm with
  | timeout | aeHandle | aeTake | rvTake | append => exact h.of_kept hk rfl
  | @rvHandle k c hc hp =>
    have hmem := List.mem_of_getElem? hc
    refine ⟨h.reached_of_kept hk, forall_set h.candidate (h.candidate c hmem), forall_set ?_ ?_⟩
    · exact fun c' hc' resp hr hg => (hk c'.dst).kept (h.granted c' hc' resp hr hg)
    · rintro resp hr hg
      obtain rfl : _ = resp := Option.some.inj hr
      obtain ⟨_, _, _, _, he, -, ⟨-, -, rfl⟩ | ⟨hng, -⟩⟩ := (s.node c.dst).onRequestVote_cases c.req
      · simp only [setRVCall_node, setNode_node, Function.update_self, he, h.candidate c hmem]
      · rw [hng] at hg
        simp at hg

theorem callRequestVote (h : Votes s) (x r : Fin n) (hne : x ≠ r) :
    Votes (s.callRequestVote x r hne) := by
  have hk := VotesKept.callRequestVote s x r hne
  refine ⟨h.reached_of_kept hk, forall_concat h.candidate rfl, forall_concat ?_ ?_⟩
  · exact fun c hc resp hr hg => (hk c.dst).kept (h.granted c hc resp hr hg)
  · intro resp hr
    simp [Phase.resp?] at hr

end Votes

theorem reach_votes {G : Runs.Guard (Cluster n) (Action n)} {s : Cluster n}
    (h : (cluster n).Reach G s) : Votes s := by
  refine reach_inv (fun env junk => ?_) (fun s t => Votes.quiet) (fun s a t _ _ => Votes.move)
    (fun s x r h hI _ => hI.of_kept (.callAppendEntries s x r h) rfl)
    (fun s x r h hI _ => hI.callRequestVote x r h) h
  exact ⟨fun x T y hy => by simp [Cluster.init, Node.init] at hy,
    fun c hc => by simp [Cluster.init] at hc, fun c hc => by simp [Cluster.init] at hc⟩

/-- In every run, for every node: its term never goes down, it has reached the terms it has voted
in, a vote never changes, a vote it has granted in a response it has ever after, and an election it
starts is in a term it has not voted in and begins with its own vote. -/
theorem vote_uniqueness {s s' : Cluster n} (h : (cluster n).Reach Runs.Sys.anyStep s)
    (hl : (cluster n).Later Runs.Sys.anyStep s s') (x : Fin n) :
    (s.node x).currentTerm ≤ (s'.node x).currentTerm ∧
      (∀ T y, (s.node x).voteFor T = some y →
        T ≤ (s.node x).currentTerm ∧ (s'.node x).voteFor T = some y) ∧
      (∀ c ∈ s.rvCalls, c.dst = x → ∀ resp ∈ c.phase.resp?, resp.voteGranted = true →
        c.req.candidateId = c.src ∧ (s'.node x).voteFor c.req.term = some c.src) ∧
      ∀ t, (cluster n).step s (.leaderTimeout x) = some t →
        (s.node x).voteFor (t.node x).currentTerm = none ∧
          (t.node x).currentTerm = (s.node x).currentTerm + 1 ∧
          (t.node x).voteFor (t.node x).currentTerm = some x ∧ (t.node x).votePool = {x} := by
  have hv := reach_votes h
  have hk := votesKept_later h hl x
  refine ⟨hk.term, fun T y hy => ⟨hv.reached x hy, hk.kept hy⟩, ?_, fun t ht => ?_⟩
  · rintro c hc rfl resp hr hg
    exact ⟨hv.candidate c hc, hk.kept (hv.granted c hc resp hr hg)⟩
  · have hnone := hv.not_voted_next x
    change (if _ then none else some _) = some t at ht
    split_ifs at ht
    obtain rfl := Option.some.inj ht
    simp only [setNode_node, Function.update_self, Node.startLeaderElection_eq hnone, hnone,
      and_self]

/-- A cluster of three nodes just built. -/
def start3 : Cluster 3 := Cluster.init (fun _ _ => ⟨0, 0⟩) fun _ _ => 0

theorem reach_start3 {G : Runs.Guard (Cluster 3) (Action 3)} : (cluster 3).Reach G start3 :=
  .init ⟨_, _, rfl⟩

/-- Node `x` stands and gets the vote of `r`, in its call `k`. -/
def elect (x r : Fin 3) (k : ℕ) : List (Action 3) :=
  [.leaderTimeout x, .remoteWake x r, .rvSend k, .rvHandle k, .rvReturn k]

/-- Node `1` votes for node `0` in the first term, and then stands in the second itself. -/
theorem vote_uniqueness_granted :
    ∃ s s', (cluster 3).Reach Runs.Sys.anyStep s ∧ (cluster 3).Later Runs.Sys.anyStep s s' ∧
      (s'.node 1).voteFor 1 = some 0 ∧
      ∃ t, (cluster 3).step s (.leaderTimeout 1) = some t ∧ (t.node 1).votePool = {1} := by
  let s := (cluster 3).run Runs.Sys.anyStep start3
    [.leaderTimeout 0, .remoteWake 0 1, .rvSend 0, .rvHandle 0]
  let s' := (cluster 3).run Runs.Sys.anyStep s [.leaderTimeout 1, .rvReturn 0]
  have hs : (cluster 3).Reach Runs.Sys.anyStep s :=
    Runs.Sys.reach_run reach_start3 (by decide +kernel)
  have hs' : (cluster 3).Later Runs.Sys.anyStep s s' := Runs.Sys.later_run (by decide +kernel)
  obtain ⟨-, -, hgranted, hstand⟩ := vote_uniqueness hs hs' 1
  obtain ⟨c, hc, hd, hsrc, ht, resp, hr, hg⟩ : ∃ c ∈ s.rvCalls, c.dst = 1 ∧ c.src = 0 ∧
      c.req.term = 1 ∧ ∃ resp ∈ c.phase.resp?, resp.voteGranted = true := by decide +kernel
  have hv := (hgranted c hc hd resp hr hg).2
  rw [hsrc, ht] at hv
  obtain ⟨t, hst⟩ : ∃ t, (cluster 3).step s (.leaderTimeout 1) = some t := ⟨_, rfl⟩
  exact ⟨s, s', hs, hs', hv, t, hst, (hstand t hst).2.2.2⟩

/-- The response counted, if any, is to a request of the term the candidate stands in. -/
def CountsOwnTerm (s : Cluster n) : Action n → Prop
  | .rvReturn k => ∀ c ∈ s.rvCalls[k]?, ∀ resp ∈ c.phase.resp?,
      Node.Counts resp (s.node c.src) → c.req.term = (s.node c.src).currentTerm
  | _ => True

instance (s : Cluster n) (a : Action n) : Decidable (CountsOwnTerm s a) :=
  Action.decidable (Q := True) (fun
    | .rvReturn k => some (inferInstanceAs (Decidable (∀ c ∈ s.rvCalls[k]?, ∀ resp ∈ c.phase.resp?,
        Node.Counts resp (s.node c.src) → c.req.term = (s.node c.src).currentTerm)))
    | _ => none) a

/-- The nodes in a candidate's pool have voted for it in its term, and a quorum has voted for
whoever became leader. -/
structure Elections (s : Cluster n) : Prop where
  pool : ∀ x, (s.node x).currentRole = .kCandidate → ∀ v ∈ (s.node x).votePool,
    (s.node v).voteFor (s.node x).currentTerm = some x
  won : ∀ {x T l}, .becameLeader x T l ∈ s.history →
    ∃ Q, IsQuorum Q ∧ ∀ v ∈ Q, (s.node v).voteFor T = some x

namespace Elections

variable {s t : Cluster n}

theorem update (h : Elections s) {x : Fin n} {nd : Node n}
    (hn : t.node = Function.update s.node x nd) (hk : VotesKept s t)
    (hx : nd.currentRole = .kCandidate →
      ∀ v ∈ nd.votePool, (t.node v).voteFor nd.currentTerm = some x)
    (hh : ∀ {y T l}, .becameLeader y T l ∈ t.history → .becameLeader y T l ∈ s.history ∨
      ∃ Q, IsQuorum Q ∧ ∀ v ∈ Q, (t.node v).voteFor T = some y) : Elections t := by
  refine ⟨fun y => ?_, fun {y T l} hy => ?_⟩
  · by_cases hyx : y = x
    · subst hyx
      have hnd : t.node y = nd := by rw [hn, Function.update_self]
      rw [hnd]
      exact hx
    · have hnd : t.node y = s.node y := by rw [hn, Function.update_of_ne hyx]
      rw [hnd]
      exact fun hr v hv => (hk v).kept (h.pool y hr v hv)
  · rcases hh hy with hy | hy
    · obtain ⟨Q, hQ, hv⟩ := h.won hy
      exact ⟨Q, hQ, fun v hvQ => (hk v).kept (hv v hvQ)⟩
    · exact hy

theorem pool_of_same (h : Elections s) (hk : VotesKept s t) {x : Fin n} {nd : Node n}
    (hs : nd.currentRole = .kCandidate → (s.node x).currentRole = .kCandidate ∧
      nd.votePool = (s.node x).votePool ∧ nd.currentTerm = (s.node x).currentTerm) :
    nd.currentRole = .kCandidate →
      ∀ v ∈ nd.votePool, (t.node v).voteFor nd.currentTerm = some x := by
  intro hr v hv
  obtain ⟨h1, h2, h3⟩ := hs hr
  rw [h3]
  exact (hk v).kept (h.pool x h1 v (h2 ▸ hv))

theorem quiet (h : Elections s) (hq : Quiet s t) : Elections t := by
  have hk := VotesKept.of_quiet hq
  refine ⟨fun x hr v hv => ?_, fun {x T l} hy => ?_⟩
  · rw [(hq.core x).currentTerm]
    exact (hk v).kept (h.pool x ((hq.core x).currentRole ▸ hr) v ((hq.core x).votePool ▸ hv))
  · rcases hq.history _ hy with hy | ⟨_, _, _, _, he, -⟩
    · obtain ⟨Q, hQ, hv⟩ := h.won hy
      exact ⟨Q, hQ, fun v hvQ => (hk v).kept (hv v hvQ)⟩
    · simp at he

theorem timeout (h : Elections s) (hv : Votes s) {x : Fin n} :
    Elections (s.setNode x ((s.node x).startLeaderElection x)) := by
  have hnone := hv.not_voted_next x
  refine h.update rfl (VotesKept.setNode (.startLeaderElection _ _)) ?_ .inl
  rw [Node.startLeaderElection_eq hnone]
  intro _ v hv
  rw [Finset.mem_singleton.1 hv]
  simp

theorem aeHandle (h : Elections s) {k : ℕ} {c : AppendEntriesCall n} {nd : Node n}
    {resp : AppendEntriesResponse}
    (hap : (s.node c.dst).onAppendEntries c.req = some (nd, resp)) :
    Elections ((s.setNode c.dst nd).setAECall k { c with phase := .handled resp }) := by
  have hk : VotesKept s (s.setNode c.dst nd) := VotesKept.setNode (.onAppendEntries hap)
  refine h.update rfl hk (h.pool_of_same hk fun hr => ?_) .inl
  rcases Node.onAppendEntries_cases hap with ⟨-, rfl, -⟩ | ⟨_, _, _, _, _, _, ha, rfl⟩
  · exact ⟨hr, rfl, rfl⟩
  · have hrole := ha.role
    simp only at hr
    split_ifs at hrole with hif
    · rw [hr] at hrole
      simp at hrole
    · exact absurd (.inr (hrole ▸ hr)) hif

theorem aeTake (h : Elections s) {c : AppendEntriesCall n} {nd : Node n}
    {resp : AppendEntriesResponse} {commit : Option ℕ} {next : Node.Next}
    (hap : (s.node c.src).onAppendEntriesResponse c.dst c.req resp = some (nd, commit, next)) :
    Elections ((s.setNode c.src nd).log
      (commit.map fun N => .committed c.src nd.currentTerm N nd.log.memoryLog)) := by
  have hk : VotesKept s (s.setNode c.src nd) := VotesKept.setNode (.onAppendEntriesResponse hap)
  refine h.update rfl hk (h.pool_of_same hk fun hr => ?_) fun hy => ?_
  · rcases Node.onAppendEntriesResponse_cases hap with ⟨-, -, -, h'⟩ | ⟨-, -, rfl⟩ | ⟨-, _, rfl, -⟩
    · obtain ⟨_, _, _, rfl, -⟩ := Node.recordAck_cases h'
      exact ⟨hr, rfl, rfl⟩
    · simp [Node.changeToFollower] at hr
    · exact ⟨hr, rfl, rfl⟩
  · left
    cases commit with
    | none => exact hy
    | some N => simpa using hy

theorem rvHandle (h : Elections s) {k : ℕ} {c : RequestVoteCall n} {ph : Phase ReqVoteResponse} :
    Elections ((s.setNode c.dst ((s.node c.dst).onRequestVote c.req).1).setRVCall k
      { c with phase := ph }) := by
  have hk : VotesKept s (s.setNode c.dst ((s.node c.dst).onRequestVote c.req).1) :=
    VotesKept.setNode (.onRequestVote _ _)
  refine h.update rfl hk (h.pool_of_same hk fun hr => ?_) .inl
  obtain ⟨_, _, _, _, he, hrole, -⟩ := (s.node c.dst).onRequestVote_cases c.req
  rw [he] at hr ⊢
  rcases hrole with ⟨-, rfl⟩ | ⟨hle, rfl, rfl⟩
  · simp at hr
  · exact ⟨hr, rfl, max_eq_left hle⟩

/-- What is counted is a vote in the term the candidate stands in. -/
theorem counted (h : Elections s) (hv : Votes s) {a : Action n} (hg : CountsOwnTerm s a) {k : ℕ}
    {c : RequestVoteCall n} {resp : ReqVoteResponse} (hc : s.rvCalls[k]? = some c)
    (ha : a = .rvReturn k ∧ c.phase = .handled resp ∨ a = .rvNotConnected k ∧ resp = {})
    (hcnt : Node.Counts resp (s.node c.src)) : ∀ v ∈ insert c.dst (s.node c.src).votePool,
      (s.node v).voteFor (s.node c.src).currentTerm = some c.src := by
  intro v hvm
  rcases Finset.mem_insert.1 hvm with rfl | hvm
  · rcases ha with ⟨rfl, hp⟩ | ⟨-, rfl⟩
    · have hr : resp ∈ c.phase.resp? := by
        rw [hp]
        rfl
      rw [← hg c hc resp hr hcnt]
      exact hv.granted c (List.mem_of_getElem? hc) resp hr hcnt.2.1
    · simp [Node.Counts] at hcnt
  · exact h.pool _ hcnt.1 v hvm

theorem rvTake (h : Elections s) (hv : Votes s) {a : Action n} (hg : CountsOwnTerm s a) {k : ℕ}
    {c : RequestVoteCall n} {resp : ReqVoteResponse} {nd : Node n} {won : Bool} {next : Node.Next}
    (hc : s.rvCalls[k]? = some c)
    (ha : a = .rvReturn k ∧ c.phase = .handled resp ∨ a = .rvNotConnected k ∧ resp = {})
    (hap : (s.node c.src).onRequestVoteResponse c.src c.dst resp = (nd, won, next)) :
    Elections ((s.setNode c.src nd).log
      (if won then some (.becameLeader c.src nd.currentTerm nd.log.memoryLog) else none)) := by
  have hk : VotesKept s (s.setNode c.src nd) := VotesKept.setNode (.onRequestVoteResponse hap)
  have hpool : Node.Counts resp (s.node c.src) → ∀ v ∈ insert c.dst (s.node c.src).votePool,
      ((s.setNode c.src nd).node v).voteFor (s.node c.src).currentTerm = some c.src :=
    fun hcnt v hvm => (hk v).kept (h.counted hv hg hc ha hcnt v hvm)
  obtain ⟨_, _, _, _, _, _, he, hcase⟩ :=
    (s.node c.src).onRequestVoteResponse_cases c.src c.dst resp
  rw [hap] at he
  obtain ⟨rfl, rfl, -⟩ := Prod.mk.inj he |>.imp id Prod.mk.inj
  rcases hcase with ⟨rfl, hcnt, rfl, rfl, hQ, -⟩ | ⟨rfl, rfl, rfl, hp⟩
  · refine h.update rfl hk (fun hr => by simp at hr) fun {y T l} hy => ?_
    simp only [if_true, log_history, Option.toList_some, List.singleton_append, List.mem_cons,
      Event.becameLeader.injEq, setNode_history] at hy
    rcases hy with ⟨rfl, rfl, -⟩ | hy
    · exact .inr ⟨_, hQ, hpool hcnt⟩
    · exact .inl hy
  · refine h.update rfl hk (fun hr v hvm => ?_) .inl
    rcases hp with rfl | ⟨hcnt, rfl⟩
    · exact (hk v).kept (h.pool _ hr v hvm)
    · exact hpool hcnt v hvm

theorem move {a : Action n} (h : Elections s) (hv : Votes s) (hg : CountsOwnTerm s a)
    (hm : s.Move a t) : Elections t := by
  cases hm with
  | timeout => exact h.timeout hv
  | aeHandle hc hp hap => exact h.aeHandle hap
  | aeTake hc ha hap => exact h.aeTake hap
  | rvHandle => exact h.rvHandle
  | rvTake hc ha hap => exact h.rvTake hv hg hc ha hap
  | append =>
    have hk := VotesKept.of_move (s := s) (.append ‹_›)
    exact h.update rfl hk (h.pool_of_same hk fun hr => ⟨hr, rfl, rfl⟩) .inl

end Elections

theorem reach_elections {G : Runs.Guard (Cluster n) (Action n)}
    (hG : ∀ s a, G s a → CountsOwnTerm s a) {s : Cluster n} (h : (cluster n).Reach G s) :
    Elections s := by
  refine reach_inv (fun env junk => ?_) (fun s t => Elections.quiet)
    (fun s a t hr hg hI => hI.move (reach_votes hr) (hG s a hg)) (fun s x r h hI _ => ?_)
    (fun s x r h hI _ => ?_) h
  · exact ⟨fun x hr => by simp [Cluster.init, Node.init] at hr,
      fun hy => by simp [Cluster.init] at hy⟩
  · have hk := VotesKept.callAppendEntries s x r h
    exact hI.update rfl hk (hI.pool_of_same hk fun hr => ⟨hr, rfl, rfl⟩) .inl
  · have hk := VotesKept.callRequestVote s x r h
    exact hI.update rfl hk (hI.pool_of_same hk fun hr => ⟨hr, rfl, rfl⟩) .inl

/-- Where every response counted is to a request of the candidate's term, a term has at most one
leader. -/
theorem election_safety {s : Cluster n} (h : (cluster n).Reach CountsOwnTerm s) {x y : Fin n}
    {T : ℕ} {l l' : List Entry} (hx : .becameLeader x T l ∈ s.history)
    (hy : .becameLeader y T l' ∈ s.history) : x = y := by
  have hE := reach_elections (fun _ _ hg => hg) h
  obtain ⟨Q, hQ, hv⟩ := hE.won hx
  obtain ⟨Q', hQ', hv'⟩ := hE.won hy
  obtain ⟨v, hvm⟩ := quorums_meet hQ hQ'
  have h1 := hv v (Finset.mem_inter.1 hvm).1
  rw [hv' v (Finset.mem_inter.1 hvm).2] at h1
  exact (Option.some.inj h1).symm

/-- Node `0` wins the first term and, its call of node `1` being over, node `2` the second. -/
theorem election_safety_won :
    ∃ s, (cluster 3).Reach CountsOwnTerm s ∧ .becameLeader 2 2 [] ∈ s.history ∧
      .becameLeader 0 1 [] ∈ s.history ∧ ∀ y l, .becameLeader y 1 l ∈ s.history → 0 = y := by
  let s := (cluster 3).run CountsOwnTerm start3
    (elect 0 1 0 ++ [.leaderTimeout 2] ++ elect 2 1 1)
  have hs : (cluster 3).Reach CountsOwnTerm s := Runs.Sys.reach_run reach_start3 (by decide +kernel)
  have h2 : .becameLeader 2 2 [] ∈ s.history := by decide +kernel
  have h1 : .becameLeader 0 1 [] ∈ s.history := by decide +kernel
  exact ⟨s, hs, h2, h1, fun y l hy => election_safety hs h1 hy⟩

/-- A candidate counts the vote of an earlier term: node `1` votes for node `0` in the first term,
node `0` stands in the second before it takes the response, and node `1` votes for node `2` in the
second. -/
theorem two_leaders :
    ∃ s, (cluster 3).Reach Runs.Sys.anyStep s ∧ .becameLeader 0 2 [] ∈ s.history ∧
      .becameLeader 2 2 [] ∈ s.history := by
  let s := (cluster 3).run Runs.Sys.anyStep start3
    [.leaderTimeout 0, .remoteWake 0 1, .rvSend 0, .rvHandle 0, .leaderTimeout 0, .rvReturn 0,
      .leaderTimeout 2, .leaderTimeout 2, .remoteWake 2 1, .rvSend 1, .rvHandle 1, .rvReturn 1]
  exact ⟨s, Runs.Sys.reach_run reach_start3 (by decide +kernel), by decide +kernel,
    by decide +kernel⟩

end RaftFS
