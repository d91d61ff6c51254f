import RaftFS.Proofs.Grants
import RaftFS.Proofs.Loops
import RaftFS.Proofs.Safety
import Mathlib.Data.Finset.Lattice.Fold

/-!
# A leader is possible

Whatever a run has come to, a node whose log is not behind those of enough others can be made leader
by elections alone (`leader_possible`): its loops give up on their calls, it stands until no one is
in its term, and it asks each of the others in turn (`poll`). A node that is alone never leads
(`alone_never_leads`).
-/

namespace RaftFS

variable {n : ℕ}

namespace Node

theorem SameWork.rfl {nd : Node n} : SameWork nd nd :=
  ⟨Eq.refl _, Eq.refl _, Eq.refl _, Eq.refl _, Eq.refl _⟩

theorem SameWork.trans {nd nd' nd'' : Node n} (h : SameWork nd nd') (h' : SameWork nd' nd'') :
    SameWork nd nd'' :=
  ⟨h'.log.trans h.log, h'.pendingEntries.trans h.pendingEntries, h'.fs.trans h.fs,
    h'.fsThread.trans h.fsThread, h'.clients.trans h.clients⟩

theorem onRequestVoteResponse_remoteThread (self id : Fin n) (resp : ReqVoteResponse) (nd : Node n)
    (f : Fin n → RemoteThread) :
    onRequestVoteResponse self id resp { nd with remoteThread := f } =
      ({ (onRequestVoteResponse self id resp nd).1 with remoteThread := f },
        (onRequestVoteResponse self id resp nd).2) := by
  unfold onRequestVoteResponse
  simp only
  split_ifs <;> rfl

theorem onRequestVoteResponse_counts (self id : Fin n) {resp : ReqVoteResponse} {nd : Node n}
    (h : Counts resp nd) :
    ((onRequestVoteResponse self id resp nd).1.currentTerm = nd.currentTerm) ∧
      ((onRequestVoteResponse self id resp nd).1.currentRole = .kLeader ∧
          (∀ r, (onRequestVoteResponse self id resp nd).1.nextIndex r =
            nd.log.getLastLogIndex + 1) ∨
        (onRequestVoteResponse self id resp nd).1.currentRole = .kCandidate ∧
          (onRequestVoteResponse self id resp nd).1.votePool = insert id nd.votePool ∧
          ¬ IsQuorum (insert id nd.votePool)) := by
  unfold onRequestVoteResponse IsQuorum
  simp only [h.1, ne_eq, not_true_eq_false, if_false, if_pos h.2]
  split_ifs with hq
  · exact ⟨rfl, .inl ⟨rfl, fun _ => rfl⟩⟩
  · exact ⟨rfl, .inr ⟨rfl, rfl, hq⟩⟩

end Node

namespace Cluster

variable {s t : Cluster n} {x y : Fin n}

theorem forall_of_update {P : Fin n → Node n → Prop} {nd : Node n}
    (ht : t.node = Function.update s.node x nd) (h : ∀ z, P z (s.node z)) (hx : P x nd) :
    ∀ z, P z (t.node z) := by
  rw [ht]
  exact forall_update h hx

theorem forall_of_updates {P : Fin n → Node n → Prop} {nd nd' : Node n}
    (ht : t.node = Function.update (Function.update s.node y nd') x nd)
    (h : ∀ z, z ≠ x → z ≠ y → P z (s.node z)) (hy : P y nd') (hx : P x nd) (z : Fin n) :
    P z (t.node z) := by
  rw [ht]
  by_cases hzx : z = x
  · subst hzx
    rwa [Function.update_self]
  · rw [Function.update_of_ne hzx]
    by_cases hzy : z = y
    · subst hzy
      rwa [Function.update_self]
    · rw [Function.update_of_ne hzy]
      exact h z hzx hzy

theorem free_loop {G : Runs.Guard (Cluster n) (Action n)} (h : (cluster n).Reach G s)
    (x y : Fin n) :
    ∃ t f, (cluster n).Later CountsOwnTerm s t ∧ (t.node x).remoteThread y = .waiting ∧
      t.node = Function.update s.node x { s.node x with remoteThread := f } := by
  have hin := reach_inCall h x y
  rcases hth : (s.node x).remoteThread y with _ | k | k
  · exact ⟨s, (s.node x).remoteThread, .refl, hth, (Function.update_eq_self x s.node).symm⟩
  · rw [hth] at hin
    obtain ⟨c, hk, rfl, rfl⟩ := hin
    have hst : s.step (.aeFail k) = some (s.setThread c.src c.dst .waiting) := by
      simp [step, hk, inAECall, hth]
    exact ⟨_, _, .step (a := .aeFail k) .refl trivial hst, by simp [setThread], rfl⟩
  · rw [hth] at hin
    obtain ⟨c, hk, rfl, rfl⟩ := hin
    have hst : s.step (.rvFail k) = some (s.setThread c.src c.dst .waiting) := by
      simp [step, hk, inRVCall, hth]
    exact ⟨_, _, .step (a := .rvFail k) .refl trivial hst, by simp [setThread], rfl⟩

theorem goOn_node (s : Cluster n) (h : x ≠ y) (next : Node.Next) : ∃ f,
    (s.goOn x y h next).node = Function.update s.node x { s.node x with remoteThread := f } := by
  have hg := goOn_goes s x y h next
  generalize s.goOn x y h next = t at hg
  cases hg with
  | wait | appendEntries | requestVote => exact ⟨_, rfl⟩

/-- A candidate asks a node for its vote and takes up the response. -/
theorem poll (hne : x ≠ y) (hth : (s.node x).remoteThread y = .waiting)
    (hc : (s.node x).currentRole = .kCandidate) :
    ∃ t f, (cluster n).Later CountsOwnTerm s t ∧ t.node = Function.update
      (Function.update s.node y ((s.node y).onRequestVote ((s.node x).reqVoteRequest x)).1) x
      { ((s.node x).onRequestVoteResponse x y
        ((s.node y).onRequestVote ((s.node x).reqVoteRequest x)).2).1 with remoteThread := f } := by
  let c : RequestVoteCall n := ⟨x, y, hne, (s.node x).reqVoteRequest x, .built⟩
  let r := (s.node y).onRequestVote c.req
  let s₁ := s.callRequestVote x y hne
  let s₂ := s₁.setRVCall s.rvCalls.length { c with phase := .sent }
  let s₃ := (s₂.setNode y r.1).setRVCall s.rvCalls.length { c with phase := .handled r.2 }
  have hth₁ : (s₁.node x).remoteThread y = .requestVote s.rvCalls.length := by
    simp [s₁, callRequestVote, setThread]
  have hc₁ : s₁.rvCalls[s.rvCalls.length]? = some c := List.getElem?_concat_length
  have hlt : s.rvCalls.length < s₁.rvCalls.length := (List.getElem?_eq_some_iff.1 hc₁).1
  have hc₂ : s₂.rvCalls[s.rvCalls.length]? = some { c with phase := .sent } :=
    List.getElem?_set_self hlt
  have hc₃ : s₃.rvCalls[s.rvCalls.length]? = some { c with phase := .handled r.2 } :=
    List.getElem?_set_self (List.getElem?_eq_some_iff.1 hc₂).1
  have hy₂ : s₂.node y = s.node y := by
    simp [s₂, s₁, callRequestVote, setThread, Function.update_of_ne (Ne.symm hne)]
  have hx₃ : s₃.node x = s₁.node x := by
    simp [s₃, s₂, Function.update_of_ne hne]
  have hst₁ : s.step (.remoteWake x y) = some s₁ := by
    simp only [step, dif_pos hne, hth, if_true, remoteHostLoop, hc, s₁]
  have hst₂ : s₁.step (.rvSend s.rvCalls.length) = some s₂ := by
    simp only [step, hc₁, Option.bind_eq_bind, Option.bind_some, inRVCall, c, hth₁, decide_true,
      and_self, if_true, s₂]
  have hst₃ : s₂.step (.rvHandle s.rvCalls.length) = some s₃ := by
    simp only [step, hc₂, Option.bind_eq_bind, Option.bind_some, if_true, s₃, c, hy₂, r]
    rfl
  have hst₄ : s₃.step (.rvReturn s.rvCalls.length) =
      some (s₃.takeRequestVote { c with phase := .handled r.2 } r.2) := by
    simp only [step, hc₃, Option.bind_eq_bind, Option.bind_some, inRVCall, c, hx₃, hth₁,
      decide_true, if_true]
  have hg : CountsOwnTerm s₃ (.rvReturn s.rvCalls.length) := by
    intro c' hc' resp _ _
    obtain rfl := Option.some.inj (hc₃.symm.trans hc')
    change (s.node x).currentTerm = (s₃.node x).currentTerm
    rw [hx₃]
    simp [s₁, callRequestVote, setThread]
  have hl₁ : (cluster n).Later CountsOwnTerm s s₁ := .step (a := .remoteWake x y) .refl trivial hst₁
  have hl₂ : (cluster n).Later CountsOwnTerm s s₂ := .step (a := .rvSend _) hl₁ trivial hst₂
  have hl₃ : (cluster n).Later CountsOwnTerm s s₃ := .step (a := .rvHandle _) hl₂ trivial hst₃
  let o := (s₃.node x).onRequestVoteResponse x y r.2
  obtain ⟨f, hf⟩ := goOn_node ((s₃.setNode x o.1).log
    (if o.2.1 then some (.becameLeader x o.1.currentTerm o.1.log.memoryLog) else none)) hne o.2.2
  refine ⟨_, f, hl₃.step hg hst₄, hf.trans ?_⟩
  have hx : s₃.node x = { s.node x with remoteThread := (s₁.node x).remoteThread } := by
    rw [hx₃]
    simp [s₁, callRequestVote, setThread]
  have ho : o.1 = { ((s.node x).onRequestVoteResponse x y r.2).1 with
      remoteThread := (s₁.node x).remoteThread } := by
    simp only [o, hx, Node.onRequestVoteResponse_remoteThread]
  funext z
  by_cases hzx : z = x
  · subst hzx
    simp [ho, c, r]
  · by_cases hzy : z = y
    · subst hzy
      simp [s₃, c, r, Function.update_of_ne hzx]
    · simp [s₃, s₂, s₁, callRequestVote, setThread, Function.update_of_ne hzx,
        Function.update_of_ne hzy]

section Standing

/-- A node that is no leader can come as many terms ahead as it will. -/
theorem raise (h : (cluster n).Reach Runs.Sys.anyStep s) (hx : (s.node x).currentRole ≠ .kLeader) :
    ∀ m, ∃ t nd, (cluster n).Later CountsOwnTerm s t ∧ t.node = Function.update s.node x nd ∧
      nd.currentTerm = (s.node x).currentTerm + m + 1 ∧ nd.currentRole = .kCandidate ∧
      nd.votePool = {x} ∧ (s.node x).SameWork nd := by
  have hstand : ∀ t, (cluster n).Reach Runs.Sys.anyStep t → (t.node x).currentRole ≠ .kLeader →
      ∃ nd, t.step (.leaderTimeout x) = some (t.setNode x nd) ∧
        nd.currentTerm = (t.node x).currentTerm + 1 ∧ nd.currentRole = .kCandidate ∧
        nd.votePool = {x} ∧ (t.node x).SameWork nd := by
    intro t ht hl
    have hno := (reach_votes ht).not_voted_next x
    refine ⟨(t.node x).startLeaderElection x, ?_, ?_⟩
    · have hl' : (t.node x).isLeader = false := by simpa [Node.isLeader] using hl
      simp only [step, hl', Bool.false_eq_true, if_false]
    · rw [Node.startLeaderElection_eq hno]
      exact ⟨rfl, rfl, rfl, rfl, rfl, rfl, rfl, rfl⟩
  intro m
  induction m with
  | zero =>
    obtain ⟨nd, hst, hterm, hrole, hpool, hwork⟩ := hstand s h hx
    exact ⟨_, nd, .step (a := .leaderTimeout x) .refl trivial hst, rfl, hterm, hrole, hpool, hwork⟩
  | succ m ih =>
    obtain ⟨t, nd, hl, hnode, hterm, hrole, -, hwork⟩ := ih
    have ht := h.later (hl.mono fun _ _ _ => trivial)
    have hnd : t.node x = nd := by rw [hnode, Function.update_self]
    obtain ⟨nd', hst, hterm', hrole', hpool', hwork'⟩ := hstand t ht (by simp [hnd, hrole])
    refine ⟨_, nd', .step (a := .leaderTimeout x) hl trivial hst, ?_, ?_, hrole', hpool', ?_⟩
    · rw [setNode_node, hnode, Function.update_idem]
    · rw [hterm', hnd, hterm]
      omega
    · exact hwork.trans (hnd ▸ hwork')

/-- Since `s`, the node `x` stands in the term `T`, which no one but `V` has reached, and has the
votes of `V`, or it leads and is to send each of the others what comes after its log. -/
structure Standing (s : Cluster n) (x : Fin n) (T : ℕ) (V : Finset (Fin n)) (t : Cluster n) :
    Prop where
  later : (cluster n).Later CountsOwnTerm s t
  term : (t.node x).currentTerm = T
  role : (t.node x).currentRole = .kLeader ∧
      (∀ r, (t.node x).nextIndex r = (s.node x).log.getLastLogIndex + 1) ∨
    (t.node x).currentRole = .kCandidate ∧ V ⊆ (t.node x).votePool ∧ ¬ IsQuorum V
  le : ∀ y, (t.node y).currentTerm ≤ T
  behind : ∀ y, y ∉ V → (t.node y).currentTerm < T
  work : ∀ y, (s.node y).SameWork (t.node y)

variable {T : ℕ} {V : Finset (Fin n)}

/-- A node that has not reached the term has not voted in it, and gives its vote. -/
theorem Standing.grants (hs : (cluster n).Reach Runs.Sys.anyStep s) (h : Standing s x T V t)
    (hy : y ∉ V) (hindex : (s.node y).log.getLastLogIndex ≤ (s.node x).log.getLastLogIndex)
    (hlast : (s.node y).log.getLastLogTerm ≤ (s.node x).log.getLastLogTerm) :
    ((t.node y).onRequestVote ((t.node x).reqVoteRequest x)).2.voteGranted = true ∧
      ((t.node y).onRequestVote ((t.node x).reqVoteRequest x)).2.term = T ∧
      ((t.node y).onRequestVote ((t.node x).reqVoteRequest x)).1.currentTerm = T := by
  have hterm : ((t.node x).reqVoteRequest x).term = T := h.term
  have hlt := h.behind y hy
  have hcur : ((t.node y).onRequestVote ((t.node x).reqVoteRequest x)).1.currentTerm = T := by
    obtain ⟨_, _, _, _, he, -⟩ := (t.node y).onRequestVote_cases ((t.node x).reqVoteRequest x)
    rw [he, ← hterm]
    exact max_eq_right (hterm ▸ hlt.le)
  refine ⟨(Node.voteGranted_iff _ _).2 ⟨?_, ?_, .inl ?_⟩, ?_, hcur⟩
  · rw [(h.work y).log]
    exact hindex.trans_eq (congrArg LogManager.getLastLogIndex (h.work x).log).symm
  · rw [(h.work y).log]
    exact hlast.trans_eq (congrArg LogManager.getLastLogTerm (h.work x).log).symm
  · rcases hv : (t.node y).voteFor ((t.node x).reqVoteRequest x).term with _ | z
    · rfl
    · have := (reach_votes (hs.later (h.later.mono fun _ _ _ => trivial))).reached y hv
      omega
  · rw [Node.onRequestVote_term, hcur]

/-- A vote that must be given, and how it is counted. -/
theorem Standing.ask (hs : (cluster n).Reach Runs.Sys.anyStep s) (h : Standing s x T V t)
    (hx : x ∈ V) (hy : y ∉ V)
    (hindex : (s.node y).log.getLastLogIndex ≤ (s.node x).log.getLastLogIndex)
    (hlast : (s.node y).log.getLastLogTerm ≤ (s.node x).log.getLastLogTerm) :
    ∃ t', Standing s x T (insert y V) t' := by
  rcases h.role with hlead | ⟨hcand, hpool, hno⟩
  · exact ⟨t, { h with
      role := .inl hlead
      behind := fun z hz => h.behind z fun hV => hz (Finset.mem_insert_of_mem hV) }⟩
  have hne : x ≠ y := fun he => hy (he ▸ hx)
  obtain ⟨t₁, f₁, hl₁, hth, hn₁⟩ := free_loop (hs.later (h.later.mono fun _ _ _ => trivial)) x y
  have hx₁ : t₁.node x = { t.node x with remoteThread := f₁ } := by rw [hn₁, Function.update_self]
  have hoff₁ : ∀ z, z ≠ x → t₁.node z = t.node z := fun z hz => by
    rw [hn₁, Function.update_of_ne hz]
  have h₁ : Standing s x T V t₁ := by
    refine ⟨h.later.trans hl₁, by rw [hx₁]; exact h.term, by rw [hx₁]; exact h.role,
      forall_of_update (P := fun _ nd => nd.currentTerm ≤ T) hn₁ h.le (h.le x),
      forall_of_update (P := fun y nd => y ∉ V → nd.currentTerm < T) hn₁ h.behind (h.behind x),
      forall_of_update (P := fun y nd => (s.node y).SameWork nd) hn₁ h.work
        ((h.work x).trans ⟨rfl, rfl, rfl, rfl, rfl⟩)⟩
  obtain ⟨hgrant, hresp, hcur⟩ := h₁.grants hs hy hindex hlast
  obtain ⟨t₂, f₂, hl₂, hn₂⟩ := poll hne hth (by rw [hx₁]; exact hcand)
  have hworky := (h₁.work y).trans ((t₁.node y).onRequestVote_work ((t₁.node x).reqVoteRequest x))
  generalize (t₁.node y).onRequestVote ((t₁.node x).reqVoteRequest x) = r at *
  have hcount : Node.Counts r.2 (t₁.node x) := by
    rw [hx₁]
    exact ⟨hcand, hgrant, (hresp.trans h.term.symm).le⟩
  obtain ⟨hterm₂, hrole₂⟩ := Node.onRequestVoteResponse_counts x y hcount
  have hworkx : (t₁.node x).SameWork ((t₁.node x).onRequestVoteResponse x y r.2).1 :=
    Node.onRequestVoteResponse_work rfl
  have hx₂ : t₂.node x = { ((t₁.node x).onRequestVoteResponse x y r.2).1 with
      remoteThread := f₂ } := by
    rw [hn₂, Function.update_self]
  have hT : ((t₁.node x).onRequestVoteResponse x y r.2).1.currentTerm = T :=
    hterm₂.trans h₁.term
  refine ⟨t₂, h₁.later.trans hl₂, by rw [hx₂]; exact hT, ?_, ?_, ?_, ?_⟩
  · rw [hx₂]
    rcases hrole₂ with ⟨hlead, hnext⟩ | ⟨hcand₂, hpool₂, hno₂⟩
    · exact .inl ⟨hlead, fun z => (hnext z).trans (by rw [(h₁.work x).log])⟩
    · have hsub : insert y V ⊆ insert y (t₁.node x).votePool := by
        rw [hx₁]
        exact Finset.insert_subset_insert y hpool
      exact .inr ⟨hcand₂, hsub.trans_eq hpool₂.symm, fun hq =>
        hno₂ (hq.trans (Finset.card_le_card hsub))⟩
  · exact forall_of_updates (P := fun _ nd => nd.currentTerm ≤ T) hn₂ (fun z _ _ => h₁.le z)
      hcur.le hT.le
  · refine forall_of_updates (P := fun z nd => z ∉ insert y V → nd.currentTerm < T) hn₂ ?_ ?_ ?_
    · exact fun z _ _ hz => h₁.behind z fun hV => hz (Finset.mem_insert_of_mem hV)
    · exact fun hz => absurd (Finset.mem_insert_self y V) hz
    · exact fun hz => absurd (Finset.mem_insert_of_mem hx) hz
  · exact forall_of_updates (P := fun z nd => (s.node z).SameWork nd) hn₂
      (fun z _ _ => h₁.work z) hworky ((h₁.work x).trans
        ⟨hworkx.log, hworkx.pendingEntries, hworkx.fs, hworkx.fsThread, hworkx.clients⟩)

theorem Standing.askAll (hs : (cluster n).Reach Runs.Sys.anyStep s) (h : Standing s x T {x} t)
    (Q : Finset (Fin n))
    (hindex : ∀ y ∈ Q, (s.node y).log.getLastLogIndex ≤ (s.node x).log.getLastLogIndex)
    (hlast : ∀ y ∈ Q, (s.node y).log.getLastLogTerm ≤ (s.node x).log.getLastLogTerm) :
    ∃ t', Standing s x T (insert x Q) t' := by
  induction Q using Finset.induction_on with
  | empty => exact ⟨t, h⟩
  | insert y Q hy ih =>
    obtain ⟨t', ht'⟩ := ih (fun z hz => hindex z (Finset.mem_insert_of_mem hz))
      (fun z hz => hlast z (Finset.mem_insert_of_mem hz))
    rw [Finset.insert_comm]
    by_cases hyx : y ∈ insert x Q
    · exact ⟨t', (Finset.insert_eq_of_mem hyx).symm ▸ ht'⟩
    · exact ht'.ask hs (Finset.mem_insert_self x Q) hyx (hindex y (Finset.mem_insert_self y Q))
        (hlast y (Finset.mem_insert_self y Q))

end Standing

section Possible

/-- It stands until it is past every term, and asks for votes until it has a quorum of them. -/
theorem exists_standing {Q : Finset (Fin n)} (hn : 2 ≤ n)
    (hs : (cluster n).Reach Runs.Sys.anyStep s) (hQ : IsQuorum (insert x Q))
    (hindex : ∀ y ∈ Q, (s.node y).log.getLastLogIndex ≤ (s.node x).log.getLastLogIndex)
    (hlast : ∀ y ∈ Q, (s.node y).log.getLastLogTerm ≤ (s.node x).log.getLastLogTerm)
    (hx : (s.node x).currentRole ≠ .kLeader) :
    ∃ t T, Standing s x T (insert x Q) t ∧ (t.node x).currentRole = .kLeader ∧
      (∀ r, (t.node x).nextIndex r = (s.node x).log.getLastLogIndex + 1) ∧
      ∀ y, (s.node y).currentTerm < T := by
  have hsup : ∀ y, (s.node y).currentTerm ≤ Finset.univ.sup fun y => (s.node y).currentTerm :=
    fun y => Finset.le_sup (f := fun y => (s.node y).currentTerm) (Finset.mem_univ y)
  obtain ⟨t₀, nd, hl, hnode, hterm, hrole, hpool, hwork⟩ :=
    raise hs hx (Finset.univ.sup fun y => (s.node y).currentTerm)
  have hx₀ : t₀.node x = nd := by rw [hnode, Function.update_self]
  have hpast : ∀ y, (s.node y).currentTerm < nd.currentTerm := fun y => by
    have := hsup y
    omega
  have halone : ¬ IsQuorum {x} := by
    unfold IsQuorum quorumSize
    rw [Finset.card_singleton]
    omega
  have hstart : Standing s x nd.currentTerm {x} t₀ := by
    refine ⟨hl, by rw [hx₀], .inr ⟨by rw [hx₀, hrole], by rw [hx₀, hpool], halone⟩, ?_, ?_, ?_⟩
    · exact forall_of_update (P := fun _ d => d.currentTerm ≤ nd.currentTerm) hnode
        (fun y => (hpast y).le) le_rfl
    · refine forall_of_update (P := fun y d => y ∉ ({x} : Finset (Fin n)) →
        d.currentTerm < nd.currentTerm) hnode (fun y _ => hpast y) fun hy => ?_
      exact absurd (Finset.mem_singleton_self x) hy
    · exact forall_of_update (P := fun y d => (s.node y).SameWork d) hnode (fun _ => .rfl) hwork
  obtain ⟨t, ht⟩ := hstart.askAll hs Q hindex hlast
  rcases ht.role with ⟨hlead, hnext⟩ | ⟨-, -, hno⟩
  · exact ⟨t, _, ht, hlead, hnext, hpast⟩
  · exact absurd hQ hno

/-- From whatever state, a node can be made leader by elections alone if it and the others whose
logs end no later than its own, in the last index and in the last term, are a quorum. It leads in a
term that no one was in, and no log, namespace or client has changed. -/
theorem leader_possible {Q : Finset (Fin n)} (hn : 2 ≤ n)
    (hs : (cluster n).Reach Runs.Sys.anyStep s) (hQ : IsQuorum (insert x Q))
    (hindex : ∀ y ∈ Q, (s.node y).log.getLastLogIndex ≤ (s.node x).log.getLastLogIndex)
    (hlast : ∀ y ∈ Q, (s.node y).log.getLastLogTerm ≤ (s.node x).log.getLastLogTerm)
    (hx : (s.node x).currentRole ≠ .kLeader) :
    ∃ t, (cluster n).Later CountsOwnTerm s t ∧ (t.node x).currentRole = .kLeader ∧
      (∀ y, (s.node y).currentTerm < (t.node x).currentTerm) ∧
      ∀ y, (s.node y).SameWork (t.node y) := by
  obtain ⟨t, T, ht, hlead, -, hpast⟩ := exists_standing hn hs hQ hindex hlast hx
  exact ⟨t, ht.later, hlead, fun y => ht.term.symm ▸ hpast y, ht.work⟩

/-- Node `0` leads and has appended an entry, node `1` has acknowledged it, and node `1` can lead
next. -/
theorem leader_possible_next : ∃ s t, (cluster 3).Reach Runs.Sys.anyStep s ∧
    (s.node 0).currentRole = .kLeader ∧ (cluster 3).Later CountsOwnTerm s t ∧
    (t.node 1).currentRole = .kLeader := by
  let s := (cluster 3).run Runs.Sys.anyStep start3 readyToCommit
  have hs : (cluster 3).Reach Runs.Sys.anyStep s := Runs.Sys.reach_run reach_start3 (by decide)
  obtain ⟨t, hl, hlead, -⟩ := leader_possible (x := 1) (Q := {0}) (by decide) hs
    (by unfold IsQuorum; decide) (by decide) (by decide) (by decide)
  exact ⟨s, t, hs, by decide, hl, hlead⟩

end Possible

section Alone

/-- A node that has no other to ask never leads. -/
theorem alone_never_leads {s : Cluster 1} (h : (cluster 1).Reach Runs.Sys.anyStep s) (x : Fin 1) :
    (s.node x).currentRole ≠ .kLeader := by
  refine reach_inv (I := fun s : Cluster 1 => ∀ x, (s.node x).currentRole ≠ .kLeader)
    (fun _ _ _ => by simp [init, Node.init]) ?_ ?_ (fun _ _ _ hne => ?_) (fun _ _ _ hne => ?_) h x
  · intro s t hI hq x
    rw [(hq.core x).currentRole]
    exact hI x
  · intro s a t _ _ hI hm
    cases hm with
    | @timeout y _ =>
      refine forall_update (P := fun _ nd => nd.currentRole ≠ .kLeader) hI ?_
      rw [((s.node y).startLeaderElection_office y).2.1]
      decide
    | @aeHandle _ c | @aeTake _ _ c | @rvHandle _ c | @rvTake _ _ c =>
      exact absurd (Subsingleton.elim _ _) c.ne
    | @append y => exact forall_update (P := fun _ nd => nd.currentRole ≠ .kLeader) hI (hI y)
  · exact absurd (Subsingleton.elim _ _) hne
  · exact absurd (Subsingleton.elim _ _) hne

end Alone

end Cluster

end RaftFS
