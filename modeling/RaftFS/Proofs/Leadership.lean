import RaftFS.Proofs.Acks
import RaftFS.Proofs.Calls

/-!
# Leadership

A node's term, role and leader change in six ways (`Office`). The leader a node names, and the
sender of a request, became leader in the term in question (`leader_genuine`). A node loses the lead
only with its term, so an acknowledgement that is recorded answers a request of the term the node
still leads (`ack_not_stale`). A client's entry is appended by the leader of its term if the node
keeps its office in between (`appended_by_leader`), and otherwise not (`appended_by_follower`).
-/

namespace RaftFS

variable {n : ℕ}

namespace Node

variable {nd nd' : Node n} {self id : Fin n}

theorem startLeaderElection_office (self : Fin n) (nd : Node n) :
    (nd.startLeaderElection self).currentTerm = nd.currentTerm + 1 ∧
      (nd.startLeaderElection self).currentRole = .kCandidate ∧
      (nd.startLeaderElection self).leaderId = none := by
  unfold startLeaderElection
  simp only
  split_ifs
  · exact ⟨rfl, rfl, rfl⟩
  · exact ⟨rfl, rfl, rfl⟩

theorem catchUp_leaderId (req : AppendEntriesRequest n) (h : nd.currentTerm ≤ req.term) :
    (catchUp req nd).leaderId =
      if (nd.currentTerm < req.term ∨ nd.currentRole = .kCandidate) ∨ nd.leaderId = none then
        some req.leaderId
      else nd.leaderId := by
  unfold catchUp
  by_cases hc : nd.currentTerm < req.term ∨ nd.currentRole = .kCandidate
  · have hc' : nd.currentTerm < req.term ∨
        nd.currentRole = .kCandidate ∧ nd.currentTerm ≤ req.term := hc.imp_right fun h' => ⟨h', h⟩
    simp only [if_pos hc']
    rw [if_neg (Option.some_ne_none _), if_pos (.inl hc)]
  · have hc' : ¬ (nd.currentTerm < req.term ∨
        nd.currentRole = .kCandidate ∧ nd.currentTerm ≤ req.term) :=
      fun h' => hc (h'.imp_right And.left)
    simp only [if_neg hc', or_iff_right hc]
    split_ifs
    · rfl
    · rfl

theorem onAppendEntries_leaderId {req : AppendEntriesRequest n} {resp : AppendEntriesResponse}
    (h : onAppendEntries req nd = some (nd', resp)) (ht : nd.currentTerm ≤ req.term) :
    nd'.leaderId = (catchUp req nd).leaderId := by
  unfold onAppendEntries at h
  rw [if_neg (not_lt.2 ht)] at h
  simp only [Option.bind_eq_bind, Option.bind_eq_some_iff] at h
  obtain ⟨⟨log, ok⟩, -, nd1, hfc, h⟩ := h
  obtain ⟨log', fs, rfl, -⟩ := followCommit_cases hfc
  split_ifs at h
  all_goals
    simp only [Option.some.injEq, Prod.mk.injEq] at h
    obtain ⟨rfl, -⟩ := h
    rfl

theorem onRequestVote_leaderId (req : ReqVoteRequest n) (nd : Node n) :
    (onRequestVote req nd).1.leaderId =
      if nd.currentTerm < req.term then none else nd.leaderId := by
  unfold onRequestVote
  simp only
  split_ifs
  all_goals rfl

theorem onRequestVoteResponse_leaderId {resp : ReqVoteResponse} {won : Bool} {next : Next}
    (h : onRequestVoteResponse self id resp nd = (nd', won, next)) :
    nd'.leaderId = if won then some self else nd.leaderId := by
  simp only [onRequestVoteResponse] at h
  split_ifs at h
  all_goals
    simp only [Prod.mk.injEq] at h
    obtain ⟨rfl, rfl, -⟩ := h
    rfl

end Node

namespace Cluster

section Offices

variable {s s' t : Cluster n} {a : Action n} {x : Fin n}

/-- `l` has become leader in the term `T`. -/
def HasLed (s : Cluster n) (l : Fin n) (T : ℕ) : Prop := ∃ log, .becameLeader l T log ∈ s.history

/-- The action takes `x` out of its term or its office: `x` stands for election, or it takes a
message of a later term, or as a candidate a request of its own term. -/
def Disturbs (s : Cluster n) (x : Fin n) : Action n → Prop
  | .leaderTimeout y => y = x
  | .aeHandle k => ∃ c ∈ s.aeCalls[k]?, c.dst = x ∧ ((s.node x).currentTerm < c.req.term ∨
      (s.node x).currentRole = .kCandidate ∧ (s.node x).currentTerm = c.req.term)
  | .rvHandle k => ∃ c ∈ s.rvCalls[k]?, c.dst = x ∧ (s.node x).currentTerm < c.req.term
  | .aeReturn k => ∃ c ∈ s.aeCalls[k]?, c.src = x ∧
      ∃ resp ∈ c.phase.resp?, (s.node x).currentTerm < resp.term
  | _ => False

/-- What becomes of the term, the role and the leader of `x`. -/
inductive Office (s : Cluster n) (a : Action n) (x : Fin n) (nd : Node n)
    (history : List (Event n)) : Prop
  | keep (ht : nd.currentTerm = (s.node x).currentTerm)
    (hr : nd.currentRole = (s.node x).currentRole) (hl : nd.leaderId = (s.node x).leaderId)
  | stand (h : Disturbs s x a) (ht : nd.currentTerm = (s.node x).currentTerm + 1)
    (hr : nd.currentRole = .kCandidate) (hl : nd.leaderId = none)
  | win (h : (s.node x).currentRole = .kCandidate)
    (ht : nd.currentTerm = (s.node x).currentTerm) (hr : nd.currentRole = .kLeader)
    (hl : nd.leaderId = some x) (hh : ∃ log, .becameLeader x nd.currentTerm log ∈ history)
  | stepDown (h : Disturbs s x a) (ht : (s.node x).currentTerm < nd.currentTerm)
    (hr : nd.currentRole = .kFollower) (hl : nd.leaderId = none)
  | defer {c : AppendEntriesCall n} (hc : c ∈ s.aeCalls) (h : Disturbs s x a)
    (hd : (s.node x).currentTerm < c.req.term ∨
      (s.node x).currentRole = .kCandidate ∧ (s.node x).currentTerm = c.req.term)
    (ht : nd.currentTerm = c.req.term) (hr : nd.currentRole = .kFollower)
    (hl : nd.leaderId = some c.req.leaderId)
  | learn {c : AppendEntriesCall n} (hc : c ∈ s.aeCalls)
    (hrole : (s.node x).currentRole ≠ .kCandidate) (h : (s.node x).leaderId = none)
    (hreq : (s.node x).currentTerm = c.req.term) (ht : nd.currentTerm = (s.node x).currentTerm)
    (hr : nd.currentRole = (s.node x).currentRole) (hl : nd.leaderId = some c.req.leaderId)

theorem Office.update {y : Fin n} {nd : Node n} {history : List (Event n)}
    (h : Office s a y nd history) (x : Fin n) :
    Office s a x (Function.update s.node y nd x) history :=
  forall_update (P := fun x nd => Office s a x nd history) (fun _ => .keep rfl rfl rfl) h x

theorem Office.onAppendEntries {k : ℕ} {c : AppendEntriesCall n} {nd : Node n}
    {resp : AppendEntriesResponse} (hc : s.aeCalls[k]? = some c)
    (h : (s.node c.dst).onAppendEntries c.req = some (nd, resp)) (history : List (Event n)) :
    Office s (.aeHandle k) c.dst nd history := by
  have hmem := List.mem_of_getElem? hc
  rcases Node.onAppendEntries_cases h with
    ⟨-, rfl, -⟩ | ⟨role, leader, pool, log, log', fs, ha, rfl⟩
  · exact .keep rfl rfl rfl
  · have hl : leader = _ := (Node.onAppendEntries_leaderId h ha.term_le).trans
      (Node.catchUp_leaderId c.req ha.term_le)
    have hrole := ha.role
    by_cases hd : (s.node c.dst).currentTerm < c.req.term ∨
        (s.node c.dst).currentRole = .kCandidate
    · rw [if_pos (.inl hd)] at hl
      rw [if_pos hd] at hrole
      have hd' : (s.node c.dst).currentTerm < c.req.term ∨
          (s.node c.dst).currentRole = .kCandidate ∧
            (s.node c.dst).currentTerm = c.req.term := by
        rcases ha.term_le.lt_or_eq with hlt | heq
        · exact .inl hlt
        · exact hd.imp_right fun hr => ⟨hr, heq⟩
      exact .defer hmem ⟨c, hc, rfl, hd'⟩ hd' rfl hrole hl
    · rw [if_neg hd] at hrole
      simp only [or_iff_right hd] at hl
      obtain ⟨hlt, hcand⟩ := not_or.1 hd
      have heq : (s.node c.dst).currentTerm = c.req.term := ha.term_le.antisymm (not_lt.1 hlt)
      split_ifs at hl with hnone
      · exact .learn hmem hcand hnone heq heq.symm hrole hl
      · exact .keep heq.symm hrole hl

theorem Change.office (h : s.Change a t) (x : Fin n) : Office s a x (t.node x) t.history := by
  cases h with
  | wake | aeSend | aeFail | rvSend | rvFail => exact .keep rfl rfl rfl
  | @timeout y h =>
    obtain ⟨ht, hr, hl⟩ := (s.node y).startLeaderElection_office y
    refine Office.update ?_ x
    exact .stand rfl ht hr hl
  | aeHandle hc hp h => exact Office.update (Office.onAppendEntries hc h _) x
  | @aeTake a k c resp nd commit next hc ha h =>
    refine Office.update ?_ x
    rcases Node.onAppendEntriesResponse_cases h with ⟨-, -, -, hr⟩ | ⟨hlt, -, rfl⟩ | ⟨-, _, rfl, -⟩
    · obtain ⟨_, _, _, rfl, -⟩ := Node.recordAck_cases hr
      exact .keep rfl rfl rfl
    · rcases ha with ⟨rfl, hp⟩ | ⟨-, rfl⟩
      · exact .stepDown ⟨c, hc, rfl, resp, by rw [hp]; rfl, hlt⟩ hlt rfl rfl
      · exact absurd hlt (Nat.not_lt_zero _)
    · exact .keep rfl rfl rfl
  | @rvHandle k c hc hp =>
    refine Office.update ?_ x
    obtain ⟨role, leader, _, _, he, hrole, -⟩ := (s.node c.dst).onRequestVote_cases c.req
    have hl := (s.node c.dst).onRequestVote_leaderId c.req
    rw [he] at hl ⊢
    rcases hrole with ⟨hlt, rfl⟩ | ⟨hle, rfl, -⟩
    · rw [if_pos hlt] at hl
      exact .stepDown ⟨c, hc, rfl, hlt⟩ (lt_of_lt_of_eq hlt (max_eq_right hlt.le).symm) rfl hl
    · rw [if_neg (not_lt.2 hle)] at hl
      exact .keep (max_eq_left hle) rfl hl
  | @rvTake _ k c resp nd won next hc ha h =>
    refine Office.update ?_ x
    have hl := Node.onRequestVoteResponse_leaderId h
    obtain ⟨_, _, _, _, _, _, he, hw⟩ := Node.onRequestVoteResponse_cases c.src c.dst resp
      (s.node c.src)
    rw [h] at he
    obtain ⟨rfl, rfl, rfl⟩ := he
    rcases hw with ⟨rfl, hcount, rfl, -⟩ | ⟨rfl, rfl, -⟩
    · exact .win hcount.1 rfl rfl hl ⟨_, List.mem_cons_self⟩
    · exact .keep rfl rfl hl
  | clientRequest | fsWake =>
    refine Office.update ?_ x
    exact .keep rfl rfl rfl
  | clientStep h =>
    obtain ⟨_, _, _, -, -, rfl⟩ := Node.onMetaOperation_cases h
    refine Office.update ?_ x
    exact .keep rfl rfl rfl
  | fsStep h =>
    obtain ⟨_, _, _, rfl, -⟩ := Node.fsUpdateLoop_cases h
    refine Office.update ?_ x
    exact .keep rfl rfl rfl

theorem step_office (h : s.step a = some s') (x : Fin n) :
    Office s a x (s'.node x) s'.history := by
  obtain ⟨t, hc, hr⟩ := step_changes h
  obtain ⟨f, hf⟩ := hr.node x
  rw [(hr.frame x).2, hf]
  cases hc.office x with
  | keep ht hr hl => exact .keep ht hr hl
  | stand h ht hr hl => exact .stand h ht hr hl
  | win h ht hr hl hh => exact .win h ht hr hl hh
  | stepDown h ht hr hl => exact .stepDown h ht hr hl
  | defer hc h hd ht hr hl => exact .defer hc h hd ht hr hl
  | learn hc hrole h hreq ht hr hl => exact .learn hc hrole h hreq ht hr hl

end Offices

/-- Each node's leader has led in the node's term, a leader is its own and a candidate has none, and
the sender of a request has led in the request's term. -/
structure Led (s : Cluster n) : Prop where
  node : ∀ x, (∀ l, (s.node x).leaderId = some l → HasLed s l (s.node x).currentTerm) ∧
    ((s.node x).currentRole = .kLeader → (s.node x).leaderId = some x) ∧
    ((s.node x).currentRole = .kCandidate → (s.node x).leaderId = none)
  sent : ∀ c ∈ s.aeCalls, c.req.leaderId = c.src ∧ HasLed s c.src c.req.term

theorem Led.step {s s' : Cluster n} {a : Action n} (h : Led s) (hst : s.step a = some s') :
    Led s' := by
  have hmono : ∀ {l T}, HasLed s l T → HasLed s' l T :=
    fun ⟨log, hl⟩ => ⟨log, (step_keeps hst).history _ hl⟩
  have hnode : ∀ x, (∀ l, (s'.node x).leaderId = some l → HasLed s' l (s'.node x).currentTerm) ∧
      ((s'.node x).currentRole = .kLeader → (s'.node x).leaderId = some x) ∧
      ((s'.node x).currentRole = .kCandidate → (s'.node x).leaderId = none) := by
    intro x
    obtain ⟨hknown, hleader, hcand⟩ := h.node x
    have hreq : ∀ c ∈ s.aeCalls, ∀ l, some c.req.leaderId = some l → HasLed s' l c.req.term := by
      intro c hc l hl
      obtain ⟨hsrc, hled⟩ := h.sent c hc
      obtain rfl := Option.some.inj hl
      exact hmono (hsrc ▸ hled)
    cases step_office hst x with
    | keep ht hr hl =>
      rw [ht, hr, hl]
      exact ⟨fun l hll => hmono (hknown l hll), hleader, hcand⟩
    | stand _ _ hr hl | stepDown _ _ hr hl =>
      rw [hr, hl]
      exact ⟨fun l hll => by simp at hll, by simp, fun _ => rfl⟩
    | win _ _ hr hl hh =>
      rw [hr, hl]
      refine ⟨fun l hll => ?_, fun _ => rfl, by simp⟩
      obtain rfl := Option.some.inj hll
      exact hh
    | defer hc _ _ ht hr hl =>
      rw [ht, hr, hl]
      exact ⟨hreq _ hc, by simp, by simp⟩
    | learn hc hrole hnone heq ht hr hl =>
      rw [ht, hr, hl, heq]
      refine ⟨hreq _ hc, fun hlead => ?_, fun hc => absurd hc hrole⟩
      rw [hleader hlead] at hnone
      simp at hnone
  refine ⟨hnode, fun c hc => ?_⟩
  obtain ⟨k, hk⟩ := List.mem_iff_getElem?.1 hc
  cases step_aeCalls hst hk with
  | same hc₀ | handled hc₀ =>
    obtain ⟨hsrc, hled⟩ := h.sent _ (List.mem_of_getElem? hc₀)
    exact ⟨hsrc, hmono hled⟩
  | made _ _ hl => exact ⟨rfl, (hnode _).1 _ ((hnode _).2.1 hl)⟩

theorem reach_led {G : Runs.Guard (Cluster n) (Action n)} {s : Cluster n}
    (h : (cluster n).Reach G s) : Led s := by
  refine h.inv ?_ fun _ _ _ _ hI _ hst => hI.step hst
  rintro _ ⟨env, junk, rfl⟩
  refine ⟨fun x => ?_, fun c hc => by simp [Cluster.init] at hc⟩
  simp [Cluster.init, Node.init]

/-- What the caller and the callee of a request are bound to: the caller has not gone back in term
and leads the request's term if it is still in it, and a success answers with a term not later
than the request's. -/
structure Answers (s : Cluster n) : Prop where
  caller : ∀ c ∈ s.aeCalls, c.req.term ≤ (s.node c.src).currentTerm ∧
    (c.req.term = (s.node c.src).currentTerm → (s.node c.src).currentRole = .kLeader)
  success : ∀ c ∈ s.aeCalls, ∀ resp ∈ c.phase.resp?, resp.success = true → resp.term ≤ c.req.term

/-- Once a node has led a term, it leads it as long as it is in it. -/
theorem Office.leads {s : Cluster n} {a : Action n} {x : Fin n} {nd : Node n}
    {history : List (Event n)} (h : Office s a x nd history) {T : ℕ}
    (hle : T ≤ (s.node x).currentTerm)
    (hl : T = (s.node x).currentTerm → (s.node x).currentRole = .kLeader) :
    T ≤ nd.currentTerm ∧ (T = nd.currentTerm → nd.currentRole = .kLeader) := by
  cases h with
  | keep ht hr | learn _ _ _ _ ht hr =>
    rw [ht, hr]
    exact ⟨hle, hl⟩
  | stand _ ht => exact ⟨by omega, fun h => by omega⟩
  | win _ ht hr => exact ⟨ht ▸ hle, fun _ => hr⟩
  | stepDown _ ht => exact ⟨by omega, fun h => by omega⟩
  | defer _ _ hd ht =>
    rcases hd with hlt | ⟨hcand, heq⟩
    · exact ⟨by omega, fun h => by omega⟩
    · refine ⟨by omega, fun h => ?_⟩
      rw [hl (by omega)] at hcand
      cases hcand

theorem Answers.step {s s' : Cluster n} {a : Action n} (h : Answers s) (hst : s.step a = some s') :
    Answers s' := by
  have hcaller : ∀ c ∈ s.aeCalls, c.req.term ≤ (s'.node c.src).currentTerm ∧
      (c.req.term = (s'.node c.src).currentTerm → (s'.node c.src).currentRole = .kLeader) := by
    intro c hc
    obtain ⟨hle, hl⟩ := h.caller c hc
    exact (step_office hst c.src).leads hle hl
  refine ⟨fun c hc => ?_, fun c hc resp hr hok => ?_⟩
  · obtain ⟨k, hk⟩ := List.mem_iff_getElem?.1 hc
    cases step_aeCalls hst hk with
    | same hc₀ | handled hc₀ =>
      obtain ⟨hle, hl⟩ := hcaller _ (List.mem_of_getElem? hc₀)
      exact ⟨hle, hl⟩
    | made _ _ hl => exact ⟨le_rfl, fun _ => hl⟩
  · obtain ⟨k, hk⟩ := List.mem_iff_getElem?.1 hc
    cases step_aeCalls hst hk with
    | same hc₀ hp => exact h.success _ (List.mem_of_getElem? hc₀) resp (hp ▸ hr) hok
    | handled hc₀ ha hap =>
      obtain rfl := Option.some.inj hr
      rcases Node.onAppendEntries_cases hap with ⟨-, -, rfl⟩ | ⟨_, _, _, _, _, _, ha, -⟩
      · simp at hok
      · exact ha.resp_term ▸ ha.term_le
    | made => cases hr

theorem reach_answers {G : Runs.Guard (Cluster n) (Action n)} {s : Cluster n}
    (h : (cluster n).Reach G s) : Answers s := by
  refine h.inv ?_ fun _ _ _ _ hI _ hst => hI.step hst
  rintro _ ⟨env, junk, rfl⟩
  exact ⟨fun c hc => by simp [Cluster.init] at hc, fun c hc => by simp [Cluster.init] at hc⟩

/-- `RemoteHostLoop` takes up the response to the call `k`, and it is an acknowledgement to record.
-/
structure RecordsAck (s : Cluster n) (a : Action n) (k : ℕ) (c : AppendEntriesCall n)
    (resp : AppendEntriesResponse) : Prop where
  call : s.aeCalls[k]? = some c
  taken : a = .aeReturn k ∧ c.phase = .handled resp ∨ a = .aeNotConnected k ∧ resp = {}
  term : resp.term = (s.node c.src).currentTerm
  success : resp.success = true
  entries : c.req.entries ≠ []

/-- The acknowledgements to record are those that `recordAck` gets, and a response that is none puts
nothing on record and commits nothing. -/
theorem recordsAck_cases {s : Cluster n} {a : Action n} {k : ℕ} {c : AppendEntriesCall n}
    {resp : AppendEntriesResponse} (hc : s.aeCalls[k]? = some c)
    (ha : a = .aeReturn k ∧ c.phase = .handled resp ∨ a = .aeNotConnected k ∧ resp = {}) :
    (RecordsAck s a k c resp ∧ (s.node c.src).onAppendEntriesResponse c.dst c.req resp =
        ((s.node c.src).recordAck c.dst c.req resp).map fun r => (r.1, r.2, .wait)) ∨
      (¬ RecordsAck s a k c resp ∧ ∀ nd commit next,
        (s.node c.src).onAppendEntriesResponse c.dst c.req resp = some (nd, commit, next) →
          commit = none ∧ nd.pendingEntries = (s.node c.src).pendingEntries ∧
            nd.log = (s.node c.src).log) := by
  by_cases hr : resp.term = (s.node c.src).currentTerm ∧ resp.success = true ∧ c.req.entries ≠ []
  · obtain ⟨ht, hs, he⟩ := hr
    exact .inl ⟨⟨hc, ha, ht, hs, he⟩, Node.onAppendEntriesResponse_success c.dst ht hs he⟩
  · refine .inr ⟨fun h => hr ⟨h.term, h.success, h.entries⟩, fun nd commit next h => ?_⟩
    rcases Node.onAppendEntriesResponse_cases h with
      ⟨ht, hs, he, -⟩ | ⟨-, rfl, rfl⟩ | ⟨rfl, _, rfl, -⟩
    · exact absurd ⟨ht, hs, he⟩ hr
    · exact ⟨rfl, rfl, rfl⟩
    · exact ⟨rfl, rfl, rfl⟩

end Cluster

open Cluster

/-- In any run, the leader a node names became leader in the node's term, a leader names itself and
a candidate no one, and a request was sent by the leader it names, which became leader in the
request's term. -/
theorem leader_genuine {s : Cluster n} (h : (cluster n).Reach Runs.Sys.anyStep s) :
    (∀ x, (∀ l, (s.node x).leaderId = some l → HasLed s l (s.node x).currentTerm) ∧
        ((s.node x).currentRole = .kLeader → (s.node x).leaderId = some x) ∧
        ((s.node x).currentRole = .kCandidate → (s.node x).leaderId = none)) ∧
      ∀ c ∈ s.aeCalls, c.req.leaderId = c.src ∧ HasLed s c.src c.req.term :=
  ⟨(reach_led h).node, (reach_led h).sent⟩

/-- Node `2` has got a request of node `0`, and node `1` stands in the next term. -/
theorem leader_genuine_heard :
    ∃ s, (cluster 3).Reach Runs.Sys.anyStep s ∧ (s.node 2).leaderId = some 0 ∧
      HasLed s 0 (s.node 2).currentTerm ∧ (s.node 0).leaderId = some 0 ∧
      (s.node 1).leaderId = none ∧ ∃ c ∈ s.aeCalls, c.req.leaderId = 0 ∧ HasLed s 0 c.req.term := by
  let s := (cluster 3).run Runs.Sys.anyStep start3
    (elect 0 1 0 ++ [.remoteWake 0 2, .aeSend 1, .aeHandle 1, .leaderTimeout 1])
  have hs : (cluster 3).Reach Runs.Sys.anyStep s :=
    Runs.Sys.reach_run reach_start3 (by decide +kernel)
  have h2 : (s.node 2).leaderId = some 0 := by decide +kernel
  obtain ⟨c, hc, hsrc⟩ : ∃ c ∈ s.aeCalls, c.src = 0 := by decide +kernel
  obtain ⟨hnode, hsent⟩ := leader_genuine hs
  refine ⟨s, hs, h2, (hnode 2).1 0 h2, (hnode 0).2.1 (by decide +kernel),
    (hnode 1).2.2 (by decide +kernel), c, hc, ?_⟩
  rw [← hsrc]
  exact hsent c hc

/-- In any run, an acknowledgement that is recorded answers a request of the caller's term, which
the caller has led from when it made the request until now. -/
theorem ack_not_stale {s t : Cluster n} (hs : (cluster n).Reach Runs.Sys.anyStep s)
    (hl : (cluster n).Later Runs.Sys.anyStep s t) {a : Action n} {k : ℕ} {c : AppendEntriesCall n}
    {resp : AppendEntriesResponse} (hr : RecordsAck t a k c resp) (hk : k < s.aeCalls.length) :
    c.req.term = (t.node c.src).currentTerm ∧ (t.node c.src).currentRole = .kLeader ∧
      (s.node c.src).currentTerm = c.req.term ∧ (s.node c.src).currentRole = .kLeader := by
  have ht := hs.later hl
  have hmem := List.mem_of_getElem? hr.call
  obtain ⟨hle, hlead⟩ := (reach_answers ht).caller c hmem
  have hterm : c.req.term = (t.node c.src).currentTerm := by
    refine hle.antisymm ?_
    rw [← hr.term]
    rcases hr.taken with ⟨-, hp⟩ | ⟨-, hresp⟩
    · exact (reach_answers ht).success c hmem resp (by rw [hp]; rfl) hr.success
    · rw [hresp]
      exact Nat.zero_le _
  refine ⟨hterm, hlead hterm, ?_⟩
  obtain ⟨ph, hc⟩ := (keeps_later hl).aeCalls k _ (List.getElem?_eq_getElem hk)
  obtain rfl := Option.some.inj (hr.call.symm.trans hc)
  obtain ⟨hle₀, hlead₀⟩ := (reach_answers hs).caller _ (List.getElem_mem hk)
  have hmono := (votesKept_later hs hl (s.aeCalls[k]).src).term
  have heq : (s.aeCalls[k]).req.term = (s.node (s.aeCalls[k]).src).currentTerm := by
    simp only at hterm
    omega
  exact ⟨heq.symm, hlead₀ heq⟩

/-- Node `0` takes up node `1`'s acknowledgement of an entry. -/
theorem ack_not_stale_first :
    ∃ s t c resp, (cluster 3).Reach Runs.Sys.anyStep s ∧
      (cluster 3).Later Runs.Sys.anyStep s t ∧ RecordsAck t (.aeReturn 1) 1 c resp ∧
      (t.node c.src).onAppendEntriesResponse c.dst c.req resp =
        ((t.node c.src).recordAck c.dst c.req resp).map (fun r => (r.1, r.2, .wait)) ∧
      c.src = 0 ∧ (s.node 0).currentTerm = c.req.term ∧ (t.node 0).currentRole = .kLeader := by
  let s := (cluster 3).run Runs.Sys.anyStep start3
    (elect 0 1 0 ++ [.aeSend 0, .aeHandle 0, .aeReturn 0, .clientRequest 0 .mkdir ['/', 'a'],
      .clientStep 0 0, .clientStep 0 0, .clientStep 0 0, .remoteWake 0 1])
  have hs : (cluster 3).Reach Runs.Sys.anyStep s :=
    Runs.Sys.reach_run reach_start3 (by decide +kernel)
  let t := (cluster 3).run Runs.Sys.anyStep s [.aeSend 1, .remoteWake 0 2, .aeHandle 1]
  have hl : (cluster 3).Later Runs.Sys.anyStep s t := Runs.Sys.later_run (by decide +kernel)
  obtain ⟨c, resp, hc, hsrc, hp, ht, hok, hne⟩ : ∃ c resp, t.aeCalls[1]? = some c ∧ c.src = 0 ∧
      c.phase = .handled resp ∧ resp.term = (t.node 0).currentTerm ∧ resp.success = true ∧
      c.req.entries ≠ [] := by
    refine ⟨(t.aeCalls[1]?).get (by decide +kernel), ⟨1, true, 1⟩, (Option.some_get _).symm, ?_⟩
    decide +kernel
  obtain ⟨hr, htake⟩ : RecordsAck t (.aeReturn 1) 1 c resp ∧
      (t.node c.src).onAppendEntriesResponse c.dst c.req resp =
        ((t.node c.src).recordAck c.dst c.req resp).map (fun r => (r.1, r.2, .wait)) :=
    (recordsAck_cases hc (.inl ⟨rfl, hp⟩)).resolve_right
      fun hno => hno.1 ⟨hc, .inl ⟨rfl, hp⟩, hsrc ▸ ht, hok, hne⟩
  obtain ⟨-, hrole, hterm, -⟩ := ack_not_stale hs hl hr (by decide +kernel)
  rw [hsrc] at hrole hterm
  exact ⟨s, t, c, resp, hs, hl, hr, htake, hsrc, hterm, hrole⟩

section Appends

/-- The thread is about to read the term for its entry. -/
def ClientThread.isLed : ClientThread n → Bool
  | .led _ _ => true
  | _ => false

instance (s : Cluster n) (x : Fin n) (a : Action n) : Decidable (Disturbs s x a) :=
  Action.decidable (Q := False) (fun
    | .leaderTimeout y => some (inferInstanceAs (Decidable (y = x)))
    | .aeHandle k => some (inferInstanceAs (Decidable (∃ c ∈ s.aeCalls[k]?, _ ∧ (_ ∨ _ ∧ _))))
    | .rvHandle k => some (inferInstanceAs (Decidable (∃ c ∈ s.rvCalls[k]?, _ ∧ _)))
    | .aeReturn k => some (inferInstanceAs (Decidable (∃ c ∈ s.aeCalls[k]?,
        _ ∧ ∃ r ∈ c.phase.resp?, _)))
    | _ => none) a

/-- A client's thread does not read the term of a follower, nor append to the log of a candidate. -/
def ServesOffice (s : Cluster n) : Action n → Prop
  | .clientStep x c => ∀ th ∈ (s.node x).clients[c]?,
      (th.isLed = true → (s.node x).currentRole ≠ .kFollower) ∧
        (th.built?.isSome = true → (s.node x).currentRole ≠ .kCandidate)
  | _ => True

instance (s : Cluster n) (a : Action n) : Decidable (ServesOffice s a) :=
  Action.decidable (Q := True) (fun
    | .clientStep x c => some (inferInstanceAs (Decidable (∀ th ∈ (s.node x).clients[c]?, _ ∧ _)))
    | _ => none) a

/-- Nor is a node disturbed while a client's thread has an entry to append to its log. -/
def KeepsOffice (s : Cluster n) (a : Action n) : Prop :=
  ServesOffice s a ∧ ∀ x, Disturbs s x a → ∀ th ∈ (s.node x).clients, th.built? = none

instance (s : Cluster n) (a : Action n) : Decidable (KeepsOffice s a) :=
  inferInstanceAs (Decidable (_ ∧ ∀ x, Disturbs s x a → ∀ th ∈ (s.node x).clients, _))

theorem WriteCall.handler_built (call : WriteCall) (path : Str) (nd : Node n) :
    (call.handler path nd).built? = none := by
  rw [handler_eq, Node.onWrite]
  split_ifs
  all_goals rfl

/-- An entry to append is of its node's term, and the node is not a follower. -/
theorem reach_built {s : Cluster n} (h : (cluster n).Reach KeepsOffice s) (x : Fin n) :
    ∀ th ∈ (s.node x).clients, ∀ e ∈ th.built?,
      (s.node x).currentRole ≠ .kFollower ∧ e.term = (s.node x).currentTerm := by
  refine h.inv (I := fun s => ∀ th ∈ (s.node x).clients, ∀ e ∈ th.built?,
    (s.node x).currentRole ≠ .kFollower ∧ e.term = (s.node x).currentTerm) ?_ ?_
  · rintro _ ⟨env, junk, rfl⟩ th hth
    simp [Cluster.init, Node.init] at hth
  · intro s a s' _ hI hg hst th hth e he
    have hold : ((s.node x).currentRole ≠ .kFollower ∧ e.term = (s.node x).currentTerm) ∧
        ¬ Disturbs s x a := by
      cases step_clients hst x hth with
      | same hth =>
        refine ⟨hI th hth e he, fun hd => ?_⟩
        rw [hg.2 x hd th hth] at he
        cases he
      | new =>
        rw [WriteCall.handler_built] at he
        cases he
      | goOn hth₀ hs =>
        cases hs with
        | built =>
          obtain rfl := Option.some.inj he
          exact ⟨⟨(hg.1 _ hth₀).1 rfl, rfl⟩, id⟩
        | _ => cases he
    obtain ⟨⟨hrole, hterm⟩, hnot⟩ := hold
    cases step_office hst x with
    | keep ht hr | learn _ _ _ _ ht hr => exact ⟨hr ▸ hrole, ht ▸ hterm⟩
    | win _ ht hr => exact ⟨by rw [hr]; simp, ht ▸ hterm⟩
    | stand hd | stepDown hd | defer _ hd => exact absurd hd hnot

/-- Where no client's thread reads the term of a follower or appends at a candidate, and no node is
disturbed that has an entry to append, an entry is appended by the leader of its term. -/
theorem appended_by_leader {s : Cluster n} (h : (cluster n).Reach KeepsOffice s) {x : Fin n} {c : ℕ}
    {e : Entry} (hg : KeepsOffice s (.clientStep x c))
    (he : (s.node x).clients[c]? = some (.built e)) :
    (s.node x).currentRole = .kLeader ∧ e.term = (s.node x).currentTerm ∧ HasLed s x e.term := by
  obtain ⟨hrole, hterm⟩ := reach_built h x _ (List.mem_of_getElem? he) e rfl
  have hcand := (hg.1 _ he).2 rfl
  have hlead : (s.node x).currentRole = .kLeader := by
    rcases hr : (s.node x).currentRole with _ | _ | _
    · exact absurd hr hrole
    · exact absurd hr hcand
    · rfl
  obtain ⟨hknown, hself, -⟩ := (reach_led h).node x
  exact ⟨hlead, hterm, hterm ▸ hknown x (hself hlead)⟩

/-- Node `0` leads the first term and is about to append a client's entry. -/
theorem appended_by_leader_first :
    ∃ s e, (cluster 3).Reach KeepsOffice s ∧ (s.node 0).clients[0]? = some (.built e) ∧
      e.term = 1 ∧ (s.node 0).currentRole = .kLeader ∧ e.term = (s.node 0).currentTerm := by
  let s := (cluster 3).run KeepsOffice start3
    (elect 0 1 0 ++ [.clientRequest 0 .mkdir ['/', 'a'], .clientStep 0 0, .clientStep 0 0])
  have hs : (cluster 3).Reach KeepsOffice s := Runs.Sys.reach_run reach_start3 (by decide +kernel)
  have he : (s.node 0).clients[0]? = some (.built ⟨1, 0, .kMkdir, ['/', 'a']⟩) := by
    decide +kernel
  obtain ⟨hrole, hterm, -⟩ := appended_by_leader hs (by decide +kernel) he
  exact ⟨s, _, hs, he, rfl, hrole, hterm⟩

/-- Node `0` lets a request in as the leader of the first term. Before the thread looks at the
leader and the term, a request of node `1`, which has won the second, makes a follower of node `0`.
The entry has the second term, and is appended all the same. -/
theorem appended_by_follower :
    ∃ s s' e, (cluster 3).Reach Runs.Sys.anyStep s ∧
      (s.node 0).clients[0]? = some (.built e) ∧ e.term = 2 ∧
      (s.node 0).currentRole = .kFollower ∧ (s.node 0).leaderId = some 1 ∧
      (cluster 3).step s (.clientStep 0 0) = some s' ∧
      (s'.node 0).log.memoryLog = [⟨2, 1, .kMkdir, ['/', 'a']⟩] := by
  let s := (cluster 3).run Runs.Sys.anyStep start3
    (elect 0 1 0 ++ [.clientRequest 0 .mkdir ['/', 'a']] ++ elect 1 2 1 ++
      [.remoteWake 1 0, .aeSend 2, .aeHandle 2, .clientStep 0 0, .clientStep 0 0])
  have hs : (cluster 3).Reach Runs.Sys.anyStep s :=
    Runs.Sys.reach_run reach_start3 (by decide +kernel)
  let s' := ((cluster 3).step s (.clientStep 0 0)).get (by decide +kernel)
  have hst : (cluster 3).step s (.clientStep 0 0) = some s' := (Option.some_get _).symm
  have he : (s.node 0).clients[0]? = some (.built ⟨2, 0, .kMkdir, ['/', 'a']⟩) := by
    decide +kernel
  exact ⟨s, s', _, hs, he, rfl, by decide +kernel, by decide +kernel, hst, by decide +kernel⟩

end Appends

end RaftFS
