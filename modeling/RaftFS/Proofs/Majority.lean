import RaftFS.Proofs.Committed
import RaftFS.Proofs.Leadership
import RaftFS.Proofs.Recorded

/-!
# A majority and the leader's count

The leader is not on record for its own entries, and counts `quorumSize` remotes where it and one
remote fewer would be a majority. In a run whose acknowledgements are all recorded, an index of the
leader's term that a majority has is committed just where it is not held by the leader and exactly
half the nodes, rounded down, or is committed with a later one (`majority_commits`).
-/

namespace RaftFS

variable {n : ℕ}

open Node

namespace Cluster

/-- The remote whose acknowledgement of the index `i` the step takes up, if it is one to a request
that `x` made in the term `T`. -/
def takesAck (x : Fin n) (T i : ℕ) (p : Cluster n × Action n) : Option (Fin n) :=
  match p.2 with
  | .aeReturn k => (p.1.aeCalls[k]?.filter fun c => c.src = x ∧ c.req.term = T ∧
      (∃ resp ∈ c.phase.resp?, resp.success = true) ∧ ∃ e ∈ c.req.entries, e.index = i).map (·.dst)
  | _ => none

/-- The remotes that have acknowledged the index `i` to `x` in the term `T`. -/
def ackedBy (x : Fin n) (T i : ℕ) (steps : List (Cluster n × Action n)) : Finset (Fin n) :=
  (steps.filterMap (takesAck x T i)).toFinset

/-- A success for entries that a leader takes up in the term of its request is of that term, and the
last of the entries it brings to a quorum has the largest index of them, within the log. -/
def CountsAcks (s : Cluster n) : Action n → Prop
  | .aeReturn k => ∀ c ∈ s.aeCalls[k]?, ∀ resp ∈ c.phase.resp?, resp.success = true →
      c.req.entries ≠ [] → c.req.term = (s.node c.src).currentTerm → resp.term = c.req.term ∧
        ∀ e ∈ broughtToQuorum c.dst c.req (s.node c.src),
          ∃ last ∈ (broughtToQuorum c.dst c.req (s.node c.src)).getLast?,
            e.index ≤ last.index ∧ last.index ≤ (s.node c.src).log.getLastLogIndex
  | _ => True

instance (s : Cluster n) (a : Action n) : Decidable (CountsAcks s a) :=
  Action.decidable (Q := True) (fun
    | .aeReturn k => some (inferInstanceAs (Decidable (∀ c ∈ s.aeCalls[k]?, ∀ resp ∈ c.phase.resp?,
        _ → _ → _ → _ ∧ ∀ e ∈ broughtToQuorum c.dst c.req (s.node c.src),
          ∃ last ∈ (broughtToQuorum c.dst c.req (s.node c.src)).getLast?, _)))
    | _ => none) a

section Steps

variable {x : Fin n} {T i : ℕ} {s s' : Cluster n} {a : Action n}
  {steps : List (Cluster n × Action n)}

theorem takesAck_eq_some {r : Fin n} (h : takesAck x T i (s, a) = some r) :
    ∃ k c resp, a = .aeReturn k ∧ s.aeCalls[k]? = some c ∧ c.phase = .handled resp ∧
      resp.success = true ∧ c.src = x ∧ c.dst = r ∧ c.req.term = T ∧
      ∃ e ∈ c.req.entries, e.index = i := by
  unfold takesAck at h
  split at h
  · obtain ⟨c, hc, rfl⟩ := Option.map_eq_some_iff.1 h
    obtain ⟨hc, hp⟩ := Option.filter_eq_some_iff.1 hc
    simp only [decide_eq_true_eq] at hp
    obtain ⟨hsrc, ht, ⟨resp, hresp, hs⟩, he⟩ := hp
    refine ⟨_, c, resp, ‹_›, hc, ?_, hs, hsrc, rfl, ht, he⟩
    cases hph : c.phase with
    | handled r => rw [hph] at hresp; rw [Option.some.inj hresp]
    | built | sent => rw [hph] at hresp; cases hresp
  · cases h

theorem ackedBy_of_none {p : Cluster n × Action n} (h : takesAck x T i p = none) :
    ackedBy x T i (p :: steps) = ackedBy x T i steps := by
  simp [ackedBy, h]

theorem ackedBy_of_some {p : Cluster n × Action n} {r : Fin n} (h : takesAck x T i p = some r) :
    ackedBy x T i (p :: steps) = insert r (ackedBy x T i steps) := by
  simp [ackedBy, h]

theorem notMem_ackedBy : x ∉ ackedBy x T i steps := by
  intro hx
  obtain ⟨⟨s, a⟩, -, hp⟩ := List.mem_filterMap.1 (List.mem_toFinset.1 hx)
  obtain ⟨_, c, _, -, -, -, -, hsrc, hdst, -⟩ := takesAck_eq_some hp
  exact c.ne (hsrc.trans hdst.symm)

/-- Nothing is taken from the record of who has acknowledged an index. -/
theorem Change.pending {t : Cluster n} (h : s.Change a t) (i : ℕ) (x : Fin n) :
    (s.node x).pendingEntries i ⊆ (t.node x).pendingEntries i := by
  have hself : ∀ y, (s.node y).pendingEntries i ⊆ (s.node y).pendingEntries i :=
    fun _ => Finset.Subset.refl _
  have hupd : ∀ {y : Fin n} {nd : Node n}, (s.node y).pendingEntries i ⊆ nd.pendingEntries i →
      (s.node x).pendingEntries i ⊆ (Function.update s.node y nd x).pendingEntries i :=
    fun hy => forall_update (P := fun x nd => (s.node x).pendingEntries i ⊆ nd.pendingEntries i)
      hself hy x
  cases h with
  | wake | aeSend | aeFail | rvSend | rvFail => exact hself x
  | @timeout y h =>
    refine hupd ?_
    rw [(startLeaderElection_work _ _).pendingEntries]
  | aeHandle hc hp hap =>
    refine hupd ?_
    rcases onAppendEntries_cases hap with ⟨-, rfl, -⟩ | ⟨_, _, _, _, _, _, -, rfl⟩
    · exact hself _
    · exact hself _
  | aeTake hc ha hap =>
    refine hupd ?_
    rcases onAppendEntriesResponse_cases hap with ⟨-, -, -, hr⟩ | ⟨-, -, rfl⟩ | ⟨-, _, rfl, -⟩
    · rw [recordAck_pending hr]
      exact subset_countAcks _ _ _ _ _ i
    · exact hself _
    · exact hself _
  | @rvHandle k c hc hp =>
    refine hupd ?_
    rw [(onRequestVote_work _ _).pendingEntries]
  | @rvTake _ k c resp nd won next hc ha hap =>
    refine hupd ?_
    rw [(onRequestVoteResponse_work hap).pendingEntries]
  | clientRequest | fsWake => exact hupd (hself _)
  | clientStep h =>
    obtain ⟨_, _, _, -, -, rfl⟩ := onMetaOperation_cases h
    exact hupd (hself _)
  | fsStep h =>
    obtain ⟨_, _, _, rfl, -⟩ := fsUpdateLoop_cases h
    exact hupd (hself _)

theorem step_pending (h : s.step a = some s') (x : Fin n) (i : ℕ) :
    (s.node x).pendingEntries i ⊆ (s'.node x).pendingEntries i := by
  obtain ⟨t, hch, hr⟩ := step_changes h
  obtain ⟨f, hf⟩ := hr.node x
  rw [hf]
  exact hch.pending i x

/-- What a success does to the leader that takes it up: to its term, its entries and its commit
index, and to who is on record where it is an acknowledgement. -/
structure TakesSuccess (s s' : Cluster n) (c : AppendEntriesCall n) : Prop where
  currentTerm : (s'.node c.src).currentTerm = (s.node c.src).currentTerm
  memoryLog : (s'.node c.src).log.memoryLog = (s.node c.src).log.memoryLog
  commit : (s'.node c.src).log.getLastCommitIndex = (s.node c.src).log.getLastCommitIndex ∨
    c.req.term = (s.node c.src).currentTerm ∧ ∃ e ∈ broughtToQuorum c.dst c.req (s.node c.src),
      (s'.node c.src).log.getLastCommitIndex = e.index
  brought : c.req.term = (s.node c.src).currentTerm →
    ∀ e ∈ broughtToQuorum c.dst c.req (s.node c.src),
      e.index ≤ (s'.node c.src).log.getLastCommitIndex
  recorded : c.req.term = (s.node c.src).currentTerm → ∀ e ∈ c.req.entries,
    (s.node c.src).log.getLastCommitIndex < e.index →
      c.dst ∈ (s'.node c.src).pendingEntries e.index

theorem takesSuccess {k : ℕ} {c : AppendEntriesCall n} {resp : AppendEntriesResponse}
    (hr : (cluster n).Reach CountsAcks s) (hg : CountsAcks s (.aeReturn k))
    (hst : s.step (.aeReturn k) = some s') (hc : s.aeCalls[k]? = some c)
    (hp : c.phase = .handled resp) (hs : resp.success = true) : TakesSuccess s s' c := by
  have hmem := List.mem_of_getElem? hc
  have hresp : resp ∈ c.phase.resp? := by rw [hp]; rfl
  have hle := ((reach_answers hr).caller c hmem).1
  have hsucc := (reach_answers hr).success c hmem resp hresp hs
  have hin : s.inAECall k c = true := by
    simp only [Cluster.step, hc, Option.bind_eq_bind, Option.bind_some, hp] at hst
    split_ifs at hst with hin
    exact hin
  by_cases hack : c.req.term = (s.node c.src).currentTerm ∧ c.req.entries ≠ []
  · obtain ⟨hterm, hlast⟩ := hg c hc resp hresp hs hack.2 hack.1
    obtain ⟨N, hcount, hN, hbrought⟩ : ∃ N, (countAcks c.dst (s.node c.src).log.getLastCommitIndex
        c.req.entries (s.node c.src).pendingEntries
          (s.node c.src).log.getLastCommitIndex).2 = N ∧
        (N = (s.node c.src).log.getLastCommitIndex ∨
          N ≤ (s.node c.src).log.getLastLogIndex ∧
            ∃ e ∈ broughtToQuorum c.dst c.req (s.node c.src), N = e.index) ∧
        ∀ e ∈ broughtToQuorum c.dst c.req (s.node c.src), e.index ≤ N := by
      refine ⟨_, rfl, ?_⟩
      rw [countAcks_brought]
      rcases hl : (broughtToQuorum c.dst c.req (s.node c.src)).getLast? with _ | last
      · rw [List.getLast?_eq_none_iff.1 hl]
        exact ⟨.inl rfl, fun e he => by cases he⟩
      · have hm := List.mem_of_getLast? hl
        obtain ⟨last', hl', -, hin⟩ := hlast last hm
        obtain rfl := Option.some.inj (hl.symm.trans hl')
        refine ⟨.inr ⟨hin, last, hm, rfl⟩, fun e he => ?_⟩
        obtain ⟨last', hl', hle, -⟩ := hlast e he
        obtain rfl := Option.some.inj (hl.symm.trans hl')
        exact hle
    obtain ⟨log, fs, commit, hrec, hm, hset⟩ :=
      recordAck_eq c.dst c.req resp hcount (.inl (reach_srcLog hr c hmem hack.2))
    replace hset := hset (hN.imp_right And.left)
    have htake := onAppendEntriesResponse_success c.dst (hterm.trans hack.1) hs hack.2
    rw [hrec, Option.map_some] at htake
    obtain ⟨s'', f, hst', hnode⟩ := exists_step_aeReturn hc hp hin htake
    obtain rfl := Option.some.inj (hst.symm.trans hst')
    refine ⟨by rw [hnode], by rw [hnode]; exact hm, ?_, fun _ => ?_, fun _ e he hlt => ?_⟩
    · rw [hnode]
      rcases hN with hsame | ⟨-, e, he, hi⟩
      · exact .inl (hset.trans hsame)
      · exact .inr ⟨hack.1, e, he, hset.trans hi⟩
    · rw [hnode]
      exact fun e he => (hbrought e he).trans hset.ge
    · rw [hnode]
      simp only [countAcks_pending, hlt, true_and]
      rw [if_pos ⟨e, he, rfl⟩]
      exact Finset.mem_insert_self _ _
  · have htake : (s.node c.src).onAppendEntriesResponse c.dst c.req resp =
        some (s.node c.src, none, .wait) := by
      by_cases h1 : resp.term = (s.node c.src).currentTerm
      · have he : c.req.entries = [] := not_not.1 fun he => hack ⟨by omega, he⟩
        rw [onAppendEntriesResponse, if_pos h1, hs, if_pos rfl, if_pos (List.isEmpty_iff.2 he)]
      · rw [onAppendEntriesResponse, if_neg h1, if_neg (by omega)]
    obtain ⟨s'', f, hst', hnode⟩ := exists_step_aeReturn hc hp hin htake
    obtain rfl := Option.some.inj (hst.symm.trans hst')
    have hnil : c.req.term = (s.node c.src).currentTerm → c.req.entries = [] :=
      fun ht => not_not.1 fun he => hack ⟨ht, he⟩
    refine ⟨by rw [hnode], by rw [hnode], .inl (by rw [hnode]), fun ht e he => ?_,
      fun ht e he => ?_⟩
    · simp [broughtToQuorum, hnil ht] at he
    · rw [hnil ht] at he
      cases he

theorem quorumSize_pos (n : ℕ) : 0 < quorumSize n := Nat.succ_pos _

theorem takesAck_le {G : Runs.Guard (Cluster n) (Action n)} (hr : (cluster n).Reach G s)
    {r : Fin n} (h : takesAck x T i (s, a) = some r) : T ≤ (s.node x).currentTerm := by
  obtain ⟨_, c, _, -, hc, -, -, rfl, -, rfl, -⟩ := takesAck_eq_some h
  exact ((reach_answers hr).caller c (List.mem_of_getElem? hc)).1

/-- All who have acknowledged an index in the node's term are on record for it or it is committed,
and a quorum of them has it committed. -/
structure Tallied (steps : List (Cluster n × Action n)) (s : Cluster n) : Prop where
  later : ∀ x T i, (s.node x).currentTerm < T → ackedBy x T i steps = ∅
  pending : ∀ x i, (s.node x).log.getLastCommitIndex < i →
    ackedBy x (s.node x).currentTerm i steps ⊆ (s.node x).pendingEntries i
  few : ∀ x i, (s.node x).log.getLastCommitIndex < i →
    (ackedBy x (s.node x).currentTerm i steps).card < quorumSize n

theorem Tallied.step (h : Tallied steps s) (hr : (cluster n).Reach CountsAcks s)
    (hg : CountsAcks s a) (hst : s.step a = some s') : Tallied ((s, a) :: steps) s' := by
  have hterm : ∀ x, (s.node x).currentTerm ≤ (s'.node x).currentTerm :=
    fun x => (votesKept_later hr (.step .refl hg hst) x).term
  have hlater : ∀ x T i, (s.node x).currentTerm < T → ackedBy x T i ((s, a) :: steps) = ∅ := by
    intro x T i hlt
    rw [ackedBy_of_none, h.later x T i hlt]
    by_contra hne
    obtain ⟨r, hr'⟩ := Option.ne_none_iff_exists'.1 hne
    exact absurd (takesAck_le hr hr') (not_le.2 hlt)
  have hboth : ∀ x i, (s'.node x).log.getLastCommitIndex < i →
      ackedBy x (s'.node x).currentTerm i ((s, a) :: steps) ⊆ (s'.node x).pendingEntries i ∧
        (ackedBy x (s'.node x).currentTerm i ((s, a) :: steps)).card < quorumSize n := by
    intro x i hi
    have hold : (s.node x).log.getLastCommitIndex < i := (step_commit hst x).trans_lt hi
    rcases (hterm x).lt_or_eq with hlt | heq
    · rw [hlater x _ i hlt]
      exact ⟨Finset.empty_subset _, quorumSize_pos n⟩
    · rw [← heq]
      rcases htk : takesAck x (s.node x).currentTerm i (s, a) with _ | r
      · rw [ackedBy_of_none htk]
        exact ⟨(h.pending x i hold).trans (step_pending hst x i), h.few x i hold⟩
      · obtain ⟨k, c, resp, rfl, hc, hp, hs, rfl, rfl, ht, e, he, rfl⟩ := takesAck_eq_some htk
        have htake := takesSuccess hr hg hst hc hp hs
        rw [ackedBy_of_some htk]
        refine ⟨Finset.insert_subset (htake.recorded ht e he hold)
          ((h.pending c.src e.index hold).trans (step_pending hst c.src e.index)), ?_⟩
        by_contra hq
        have hcard := Finset.card_le_card
          (Finset.insert_subset_insert c.dst (h.pending c.src e.index hold))
        have hmem : e ∈ broughtToQuorum c.dst c.req (s.node c.src) := by
          refine List.mem_filter.2 ⟨he, ?_⟩
          simp only [decide_eq_true_eq]
          exact ⟨hold, by omega⟩
        exact absurd (htake.brought ht e hmem) (not_le.2 hi)
  exact ⟨fun x T i hlt => hlater x T i ((hterm x).trans_lt hlt), fun x i hi => (hboth x i hi).1,
    fun x i hi => (hboth x i hi).2⟩

theorem trace_tallied (h : (cluster n).Trace CountsAcks steps s) : Tallied steps s := by
  refine h.inv ?_ fun _ _ _ _ ht hI hg hst => hI.step ht.reach hg hst
  rintro _ ⟨env, junk, rfl⟩
  exact ⟨fun x T i _ => rfl, fun x i _ => Finset.empty_subset _, fun x i _ => quorumSize_pos n⟩

end Steps

end Cluster

open Cluster

/-- In every run whose acknowledgements are all recorded, when a leader has taken up a success, all
the indices of its term are committed for which it and the remotes that have acknowledged them are a
majority, just where each that exactly half the nodes, rounded down, have acknowledged was committed
before, or is committed with a later one that as many as the leader counts have acknowledged. -/
theorem majority_commits {steps : List (Cluster n × Action n)} {s s' : Cluster n} {k : ℕ}
    {c : AppendEntriesCall n} {resp : AppendEntriesResponse}
    (h : (cluster n).Trace CountsAcks steps s) (hg : CountsAcks s (.aeReturn k))
    (hst : (cluster n).step s (.aeReturn k) = some s') (hc : s.aeCalls[k]? = some c)
    (hp : c.phase = .handled resp) (hs : resp.success = true) :
    (∀ N, (∃ e ∈ (s'.node c.src).log.memoryLog, e.index = N ∧
          e.term = (s'.node c.src).currentTerm) →
        n < 2 * (insert c.src (ackedBy c.src (s'.node c.src).currentTerm N
          ((s, .aeReturn k) :: steps))).card →
        N ≤ (s'.node c.src).log.getLastCommitIndex) ↔
      ∀ N, (∃ e ∈ (s.node c.src).log.memoryLog, e.index = N ∧
          e.term = (s.node c.src).currentTerm) →
        (ackedBy c.src (s.node c.src).currentTerm N ((s, .aeReturn k) :: steps)).card = n / 2 →
        N ≤ (s.node c.src).log.getLastCommitIndex ∨
          c.req.term = (s.node c.src).currentTerm ∧ ∃ e ∈ c.req.entries, N ≤ e.index ∧
            quorumSize n ≤ (insert c.dst ((s.node c.src).pendingEntries e.index)).card := by
  have hr := h.reach
  have htake := takesSuccess hr hg hst hc hp hs
  have hmono := step_commit hst c.src
  have hfew := ((trace_tallied h).step hr hg hst).few c.src
  have hpos : 0 < n := Fin.pos c.src
  have hquorum : quorumSize n = n / 2 + 1 := by
    unfold quorumSize
    rw [Nat.sub_add_cancel hpos]
  rw [htake.memoryLog]
  rw [htake.currentTerm] at hfew ⊢
  refine forall_congr' fun N => imp_congr_right fun hN => ?_
  rw [Finset.card_insert_of_notMem notMem_ackedBy]
  constructor
  · intro hall hhalf
    have hle := hall (by omega)
    rcases htake.commit with heq | ⟨ht, e, he, heq⟩
    · exact .inl (heq ▸ hle)
    · obtain ⟨hmem, hq⟩ := List.mem_filter.1 he
      simp only [decide_eq_true_eq] at hq
      exact .inr ⟨ht, e, hmem, heq ▸ hle, hq.2⟩
  · intro hhalf hmaj
    by_contra hlt
    have hcard := hfew N (not_le.1 hlt)
    rcases hhalf (by omega) with hle | ⟨ht, e, he, hNe, hq⟩
    · exact hlt (hle.trans hmono)
    · rcases le_or_gt e.index (s.node c.src).log.getLastCommitIndex with hold | hnew
      · exact hlt ((hNe.trans hold).trans hmono)
      · have hmem : e ∈ broughtToQuorum c.dst c.req (s.node c.src) := by
          refine List.mem_filter.2 ⟨he, ?_⟩
          simp only [decide_eq_true_eq]
          exact ⟨hnew, hq⟩
        exact hlt (hNe.trans (htake.brought ht e hmem))

/-- Nodes `1` and `2` have acknowledged the leader's entry. -/
theorem majority_commits_both :
    ∃ steps s s', (cluster 3).Trace CountsAcks steps s ∧
      (cluster 3).step s (.aeReturn 3) = some s' ∧ (s'.node 0).log.getLastCommitIndex = 1 ∧
      ∀ N, (∃ e ∈ (s'.node 0).log.memoryLog, e.index = N ∧ e.term = (s'.node 0).currentTerm) →
        3 < 2 * (insert 0 (ackedBy 0 (s'.node 0).currentTerm N
          ((s, .aeReturn 3) :: steps))).card →
        N ≤ (s'.node 0).log.getLastCommitIndex := by
  let s := (cluster 3).run CountsAcks start3 (elect 0 1 0 ++ call 0 2 1 ++ [.aeReturn 1] ++
    write 0 0 ['/', 'a'] ++ [.aeFail 0] ++ call 0 1 2 ++ [.aeReturn 2] ++ call 0 2 3)
  have hs : (cluster 3).Reach CountsAcks s := Runs.Sys.reach_run reach_start3 (by decide +kernel)
  obtain ⟨steps, htrace⟩ := hs.trace
  let s' := ((cluster 3).step s (.aeReturn 3)).get (by decide +kernel)
  have hst : (cluster 3).step s (.aeReturn 3) = some s' := (Option.some_get _).symm
  let e : Entry := ⟨1, 1, .kMkdir, ['/', 'a']⟩
  let c : AppendEntriesCall 3 :=
    ⟨0, 2, by decide, ⟨1, 0, 0, 1, [e], 0⟩, [e], .handled ⟨1, true, 1⟩⟩
  have hc : s.aeCalls[3]? = some c := by decide +kernel
  have hlog : (s.node 0).log.memoryLog = [e] := by decide +kernel
  have hg : CountsAcks s (.aeReturn 3) := by decide +kernel
  have hnew : (s'.node 0).log.getLastCommitIndex = 1 := by decide +kernel
  have hterm : (s.node 0).currentTerm = 1 := by decide +kernel
  have hquorum : quorumSize 3 ≤ (insert 2 ((s.node 0).pendingEntries 1)).card := by
    decide +kernel
  clear_value s s'
  refine ⟨steps, s, s', htrace, hst, hnew, ?_⟩
  refine (majority_commits (c := c) htrace hg hst hc rfl rfl).2 fun N hN _ => .inr ?_
  obtain ⟨_, he, rfl, -⟩ := hN
  obtain rfl := List.mem_singleton.1 (hlog ▸ he)
  exact ⟨hterm.symm, e, List.mem_singleton_self e, le_rfl, hquorum⟩

/-- Node `1` has acknowledged the leader's entry, and two of three nodes have it. It is not
committed. -/
theorem majority_waits :
    ∃ steps s s' c resp, (cluster 3).Trace Runs.Sys.anyStep steps s ∧
      (cluster 3).step s (.aeReturn 1) = some s' ∧ s.aeCalls[1]? = some c ∧ c.src = 0 ∧
      c.phase = .handled resp ∧ resp.success = true ∧ (s'.node 0).currentRole = .kLeader ∧
      (∃ e ∈ (s'.node 0).log.memoryLog, e.index = 1 ∧ e.term = (s'.node 0).currentTerm) ∧
      3 < 2 * (insert 0 (ackedBy 0 (s'.node 0).currentTerm 1
        ((s, .aeReturn 1) :: steps))).card ∧
      (s'.node 0).log.getLastCommitIndex = 0 := by
  let s := (cluster 3).run Runs.Sys.anyStep start3
    (elect 0 1 0 ++ write 0 0 ['/', 'a'] ++ [.aeFail 0] ++ call 0 1 1)
  have hs : (cluster 3).Reach Runs.Sys.anyStep s :=
    Runs.Sys.reach_run reach_start3 (by decide +kernel)
  obtain ⟨steps, htrace⟩ := hs.trace
  let s' := ((cluster 3).step s (.aeReturn 1)).get (by decide +kernel)
  have hst : (cluster 3).step s (.aeReturn 1) = some s' := (Option.some_get _).symm
  let e : Entry := ⟨1, 1, .kMkdir, ['/', 'a']⟩
  let c : AppendEntriesCall 3 :=
    ⟨0, 1, by decide, ⟨1, 0, 0, 1, [e], 0⟩, [e], .handled ⟨1, true, 1⟩⟩
  have hc : s.aeCalls[1]? = some c := by decide +kernel
  have htk : takesAck 0 (s'.node 0).currentTerm 1 (s, .aeReturn 1) = some 1 := by decide +kernel
  have hrole : (s'.node 0).currentRole = .kLeader := by decide +kernel
  have hmem : ∃ e ∈ (s'.node 0).log.memoryLog,
      e.index = 1 ∧ e.term = (s'.node 0).currentTerm := by decide +kernel
  have hcommit : (s'.node 0).log.getLastCommitIndex = 0 := by decide +kernel
  clear_value s s'
  refine ⟨steps, s, s', c, ⟨1, true, 1⟩, htrace, hst, hc, rfl, rfl, rfl, hrole, hmem, ?_, hcommit⟩
  rw [ackedBy_of_some htk, Finset.card_insert_of_notMem (by simp [notMem_ackedBy])]
  have hpos := Finset.card_pos.2 (Finset.insert_nonempty (1 : Fin 3)
    (ackedBy 0 (s'.node 0).currentTerm 1 steps))
  omega

end RaftFS
