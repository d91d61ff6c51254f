import RaftFS.Proofs.Apply

/-!
# The commit index

The commit index never goes back, and the namespace's index stays within it (`commit_bounds`). A
batch that is handled late may erase entries behind its end. Where none does, what is committed is
in the log (`committed_exist`) and what was acknowledged stays there (`acked_kept`). Otherwise both
may be lost (`committed_lost`, `acked_lost`).
-/

namespace RaftFS

variable {n : ℕ}

open Cluster

theorem step_commit {s s' : Cluster n} {a : Action n} (h : (cluster n).step s a = some s')
    (x : Fin n) :
    (s.node x).log.getLastCommitIndex ≤ (s'.node x).log.getLastCommitIndex := by
  obtain ⟨t, hc, hr⟩ := step_changes h
  refine le_trans ?_ (hr.frame x).1.commit
  obtain ⟨_, hl, -⟩ := hc.local x
  generalize t.node x = nd at hl ⊢
  cases hl with
  | frame h => exact h.commit
  | aeHandle _ _ h => exact Node.onAppendEntries_commit h
  | clientRequest => exact le_rfl
  | clientStep h => exact (FSFrame.onMetaOperation h).commit
  | fsStep h =>
    obtain ⟨_, _, _, rfl, -⟩ := Node.fsUpdateLoop_cases h
    exact le_rfl

/-- The last index applied in the pass. -/
def FSThread.counted? : FSThread → Option ℕ
  | .loop _ c | .gateLeader _ c | .gatePending _ c | .gateFollower _ c | .apply _ c | .finish c =>
    some c
  | .test | .blocking | .blocked => none

/-- The next index of the pass. -/
def FSThread.next? : FSThread → Option ℕ
  | .loop i _ | .gateLeader i _ | .gatePending i _ | .gateFollower i _ | .apply i _ => some i
  | .test | .blocking | .blocked | .finish _ => none

/-- The namespace's index and what the pass has counted to are committed, and the pass is past
index `0`. -/
structure Within (nd : Node n) : Prop where
  index : nd.fs.commitedIndex ≤ nd.log.getLastCommitIndex
  counted : ∀ c ∈ nd.fsThread.counted?, c ≤ nd.log.getLastCommitIndex
  next_pos : ∀ i ∈ nd.fsThread.next?, 0 < i

namespace Within

variable {nd nd' : Node n}

theorem frame (h : Within nd) (hf : FSFrame nd nd') : Within nd' := by
  rcases hf.fsThread with hth | ⟨-, hth⟩
  · exact ⟨hf.fs ▸ h.index.trans hf.commit, fun c hc => (h.counted c (hth ▸ hc)).trans hf.commit,
      hth ▸ h.next_pos⟩
  · refine ⟨hf.fs ▸ h.index.trans hf.commit, fun c hc => ?_, fun i hi => ?_⟩
    · simp [hth, FSThread.counted?] at hc
    · simp [hth, FSThread.next?] at hi

theorem fsStep (h : Within nd) (hg : GateOk nd) {m : ℕ} {th : FSThread}
    {applied : Option (ℕ × Entry × Option Bool)} (hs : nd.FSStep m th applied) :
    m ≤ nd.log.getLastCommitIndex ∧ (∀ c ∈ th.counted?, c ≤ nd.log.getLastCommitIndex) ∧
      ∀ i ∈ th.next?, 0 < i := by
  have hc := h.counted
  have hp := h.next_pos
  cases hs with
  | start hth hne =>
    refine ⟨h.index, fun c hc => ?_, fun i hi => ?_⟩
    · obtain rfl : 0 = c := Option.some.inj hc
      exact Nat.zero_le _
    · obtain rfl : nd.fs.commitedIndex + 1 = i := Option.some.inj hi
      exact Nat.succ_pos _
  | block hth | blocked hth =>
    exact ⟨h.index, fun c hc => by simp [FSThread.counted?] at hc,
      fun i hi => by simp [FSThread.next?] at hi⟩
  | next hth hi =>
    rw [hth] at hc hp
    exact ⟨h.index, hc, hp⟩
  | done hth hi | stop hth hr =>
    rw [hth] at hc
    exact ⟨h.index, hc, fun i hi => by simp [FSThread.next?] at hi⟩
  | gate hth hth' =>
    refine ⟨h.index, ?_⟩
    rcases hth with hth | hth | hth
    all_goals
      rw [hth] at hc hp
      rcases hth' with rfl | rfl | rfl
      all_goals exact ⟨hc, hp⟩
  | @apply i c e rt hth he =>
    refine ⟨h.index, fun c hc => ?_, fun j hj => ?_⟩
    · obtain rfl : i = c := Option.some.inj hc
      exact hg i (by rw [hth]; rfl)
    · obtain rfl : i + 1 = j := Option.some.inj hj
      exact Nat.succ_pos _
  | finish hth =>
    rw [hth] at hc
    exact ⟨hc _ rfl, fun c hc => by simp [FSThread.counted?] at hc,
      fun i hi => by simp [FSThread.next?] at hi⟩

end Within

theorem reach_within {G : Runs.Guard (Cluster n) (Action n)} {s : Cluster n}
    (h : (cluster n).Reach G s) (x : Fin n) : Within (s.node x) := by
  refine reach_fs (I := fun nd _ => Within nd) (fun env junk => ⟨le_rfl, ?_, ?_⟩)
    (fun _ _ _ hI hf => hI.frame hf) ?_ h x
  · simp [Node.init, FSThread.counted?]
  · simp [Node.init, FSThread.next?]
  · intro s x env nd applied is hr _ hst hI
    obtain ⟨fs, th, m, rfl, rfl, hs⟩ := Node.fsUpdateLoop_cases hst
    obtain ⟨hi, hc, hp⟩ := hI.fsStep (reach_gateOk hr x) hs
    exact ⟨hi, hc, hp⟩

/-- In any run, no step takes a node's commit index back, and the namespace's index is committed. -/
theorem commit_bounds {s : Cluster n} (h : (cluster n).Reach Runs.Sys.anyStep s) (x : Fin n) :
    (s.node x).fs.commitedIndex ≤ (s.node x).log.getLastCommitIndex ∧
      ∀ a s', (cluster n).step s a = some s' →
        (s.node x).log.getLastCommitIndex ≤ (s'.node x).log.getLastCommitIndex :=
  ⟨(reach_within h x).index, fun _ _ hst => step_commit hst x⟩

/-- Node `2` has applied the first entry, and learns that the second is committed. -/
theorem commit_bounds_second :
    ∃ s s', (cluster 3).Reach Runs.Sys.anyStep s ∧ (cluster 3).step s (.aeHandle 7) = some s' ∧
      (s.node 2).fs.commitedIndex = 1 ∧ (s'.node 2).log.getLastCommitIndex = 2 ∧
      (s.node 2).fs.commitedIndex ≤ (s.node 2).log.getLastCommitIndex ∧
      (s.node 2).log.getLastCommitIndex ≤ (s'.node 2).log.getLastCommitIndex := by
  let s := (cluster 3).run Runs.Sys.anyStep start3 secondCommit.dropLast
  have hs : (cluster 3).Reach Runs.Sys.anyStep s :=
    Runs.Sys.reach_run reach_start3 (by decide +kernel)
  let s' := ((cluster 3).step s (.aeHandle 7)).get (by decide +kernel)
  have hst : (cluster 3).step s (.aeHandle 7) = some s' := (Option.some_get _).symm
  obtain ⟨hfs, hstep⟩ := commit_bounds hs 2
  exact ⟨s, s', hs, hst, by decide +kernel, by decide +kernel, hfs, hstep _ _ hst⟩

section Kept

/-- A batch written over the log reaches at most one entry past its end, and at least to the commit
index. -/
def KeepsCommitted (s : Cluster n) : Action n → Prop
  | .aeHandle k => NoGap s (.aeHandle k) ∧ ∀ c ∈ s.aeCalls[k]?,
      ∀ q ∈ (s.node c.dst).storesAt c.req, q < (s.node c.dst).log.memoryLog.length →
        (s.node c.dst).log.getLastCommitIndex ≤ q + c.req.entries.length
  | _ => True

instance (s : Cluster n) (a : Action n) : Decidable (KeepsCommitted s a) :=
  Action.decidable (Q := True) (fun
    | .aeHandle k => some (inferInstanceAs (Decidable (NoGap s (.aeHandle k) ∧ ∀ c ∈ s.aeCalls[k]?,
        ∀ q ∈ (s.node c.dst).storesAt c.req, _ → _)))
    | _ => none) a

theorem KeepsCommitted.noGap {s : Cluster n} {a : Action n} (h : KeepsCommitted s a) :
    NoGap s a := by
  cases a with
  | aeHandle k => exact h.1
  | _ => trivial

/-- The log reaches to the commit index. -/
def Reaching (log : LogManager) : Prop := log.lastCommitedIndex ≤ log.memoryLog.length

theorem length_laid {l es l' : List Entry} {q c : ℕ} (hl : LogManager.Laid l es q l')
    (hf : q < l.length → q + es.length ≤ l.length + 1) (hc : c ≤ l.length)
    (hq : q < l.length → c ≤ q + es.length) : c ≤ l'.length := by
  rcases hl.le.lt_or_eq with hlt | heq
  · rw [(hl.inside hlt).1, LogManager.laidOver_eq hl.le (hf hlt),
      LogManager.length_overlay hl.le]
    exact le_min (hq hlt) hc
  · rw [(hl.atEnd heq).1, List.length_append]
    omega

theorem Reaching.onAppendEntries {nd nd' : Node n} {req : AppendEntriesRequest n}
    {resp : AppendEntriesResponse} (h : Reaching nd.log)
    (hap : nd.onAppendEntries req = some (nd', resp)) (hn' : Numbered nd'.log.memoryLog)
    (hq : ∀ q ∈ nd.storesAt req, q < nd.log.memoryLog.length →
      q + req.entries.length ≤ nd.log.memoryLog.length + 1 ∧
        nd.log.getLastCommitIndex ≤ q + req.entries.length) : Reaching nd'.log := by
  rcases Node.onAppendEntries_cases hap with ⟨-, rfl, -⟩ | ⟨_, _, _, log, log', _, ha, rfl⟩
  · exact h
  · obtain ⟨hcommit, hl⟩ := Node.storeEntries_laid ha.term_le ha.stored
    have hlog : Reaching log := by
      unfold Reaching
      rw [hcommit]
      rcases hl with ⟨q, hqs, -, -, hlaid⟩ | ⟨-, rfl, -⟩
      · refine length_laid hlaid (fun hlt => (hq q hqs hlt).1) h fun hlt => ?_
        have hne : nd.log.memoryLog ≠ [] := List.ne_nil_of_length_pos (by omega)
        rw [← LogManager.getLastCommitIndex_of_ne hne]
        exact (hq q hqs hlt).2
      · exact h
    have hm := ha.memoryLog
    rcases ha.commit with rfl | ⟨hset, -, hle, -⟩
    · exact hlog
    · have hnum : Numbered log.memoryLog := hm ▸ hn'
      rw [LogManager.getLastLogIndex_eq hnum] at hle
      simp only [Reaching, hset, hm]
      exact hle

theorem Reaching.onAppendEntriesResponse {nd nd' : Node n} {id : Fin n}
    {req : AppendEntriesRequest n} {resp : AppendEntriesResponse} {commit : Option ℕ}
    {next : Node.Next} (h : Reaching nd.log) (hn : Numbered nd.log.memoryLog)
    (hap : nd.onAppendEntriesResponse id req resp = some (nd', commit, next)) :
    Reaching nd'.log := by
  rcases Node.onAppendEntriesResponse_cases hap with ⟨-, -, -, hr⟩ | ⟨-, -, rfl⟩ | ⟨-, _, rfl, -⟩
  · obtain ⟨_, log, _, rfl, hm, -, ⟨-, rfl⟩ | ⟨e, -, -, hc, hle⟩⟩ := Node.recordAck_cases hr
    · exact h
    · rw [LogManager.getLastLogIndex_eq hn] at hle
      simp only [Reaching, hc, hm]
      exact hle
  · exact h
  · exact h

theorem Reaching.update {s : Cluster n} {x : Fin n} {nd : Node n}
    (hI : ∀ y, Reaching (s.node y).log) (h : Reaching nd.log) (y : Fin n) :
    Reaching (Function.update s.node x nd y).log :=
  forall_update (P := fun _ nd => Reaching nd.log) hI h y

theorem reach_reaching {s : Cluster n} (h : (cluster n).Reach KeepsCommitted s) (x : Fin n) :
    Numbered (s.node x).log.memoryLog ∧ Reaching (s.node x).log := by
  refine ⟨(reach_numbered (fun _ _ => KeepsCommitted.noGap) h).log x, ?_⟩
  refine reach_inv (I := fun s => ∀ x, Reaching (s.node x).log) (fun env junk x => le_rfl) ?_ ?_
    (fun s x r h hI _ => Reaching.update hI (hI x)) (fun s x r h hI _ => Reaching.update hI (hI x))
    h x
  · intro s t hI hq x
    rw [(hq.core x).log]
    exact hI x
  · intro s a t hr hg hI hm
    have hL := reach_numbered (fun _ _ => KeepsCommitted.noGap) hr
    cases hm with
    | timeout =>
      refine Reaching.update hI ?_
      rw [(Node.startLeaderElection_work _ _).log]
      exact hI _
    | aeHandle hc hp hap =>
      exact Reaching.update hI ((hI _).onAppendEntries hap
        (hL.numbered_handled hg.1 hc hap)
        fun q hq hlt => ⟨hg.1 _ hc q hq hlt, hg.2 _ hc q hq hlt⟩)
    | aeTake hc ha hap =>
      exact Reaching.update hI ((hI _).onAppendEntriesResponse (hL.log _) hap)
    | rvHandle =>
      refine Reaching.update hI ?_
      rw [(Node.onRequestVote_work _ _).log]
      exact hI _
    | rvTake hc ha hap =>
      refine Reaching.update hI ?_
      rw [(Node.onRequestVoteResponse_work hap).log]
      exact hI _
    | append he =>
      refine Reaching.update hI ?_
      simp only [Reaching, LogManager.append, List.length_append]
      exact (hI _).trans (Nat.le_add_right _ _)

/-- Where a batch reaches neither two entries past the end of the log it is written over nor short
of the commit index, a node's log has every entry up to its commit index, so `FSUpdateLoop` finds
the one it is about to apply. -/
theorem committed_exist {s : Cluster n} (h : (cluster n).Reach KeepsCommitted s) (x : Fin n) :
    (s.node x).log.getLastCommitIndex ≤ (s.node x).log.getLastLogIndex ∧
      (∀ i : ℕ, 0 < i → i ≤ (s.node x).log.getLastCommitIndex →
        ∃ e, (s.node x).log.getEntry i = some e) ∧
      ∀ i c, (s.node x).fsThread = .apply i c → ∃ e, (s.node x).log.getEntry i = some e := by
  obtain ⟨hn, hr⟩ := reach_reaching h x
  have hle : (s.node x).log.getLastCommitIndex ≤ (s.node x).log.memoryLog.length :=
    LogManager.getLastCommitIndex_le_last.trans hr
  have hget : ∀ i : ℕ, 0 < i → i ≤ (s.node x).log.getLastCommitIndex →
      ∃ e, (s.node x).log.getEntry i = some e := by
    intro i h0 hi
    rw [LogManager.getEntry_eq hn h0]
    exact ⟨_, List.getElem?_eq_getElem (by omega)⟩
  refine ⟨LogManager.getLastLogIndex_eq hn ▸ hle, hget, fun i c hth => hget i ?_ ?_⟩
  · exact (reach_within h x).next_pos i (by rw [hth]; rfl)
  · exact reach_gateOk h x i (by rw [hth]; rfl)

/-- Node `2` is about to apply the second entry. -/
theorem committed_exist_second :
    ∃ s, (cluster 3).Reach KeepsCommitted s ∧ (s.node 2).log.getLastCommitIndex = 2 ∧
      (s.node 2).log.getLastCommitIndex ≤ (s.node 2).log.getLastLogIndex ∧
      (s.node 2).fsThread = .apply 2 0 ∧ ∃ e, (s.node 2).log.getEntry (2 : ℕ) = some e := by
  let s := (cluster 3).run KeepsCommitted start3
    (secondCommit ++ List.replicate 4 (.fsStep 2 fun _ => ⟨0, 0⟩))
  have hs : (cluster 3).Reach KeepsCommitted s :=
    Runs.Sys.reach_run reach_start3 (by decide +kernel)
  have hth : (s.node 2).fsThread = .apply 2 0 := by decide +kernel
  obtain ⟨hle, -, hap⟩ := committed_exist hs 2
  exact ⟨s, hs, by decide +kernel, hle, hth, hap 2 0 hth⟩

/-- Node `2` has both entries and has learned that they are committed, when a request with only the
first, which its sender had given up on, is handled. The second is erased, and `FSUpdateLoop` is
about to apply it. -/
theorem committed_lost :
    ∃ s, (cluster 3).Reach Runs.Sys.anyStep s ∧ (s.node 2).log.getLastCommitIndex = 2 ∧
      (s.node 2).log.getLastLogIndex = 1 ∧ (s.node 2).fsThread = .apply 2 1 ∧
      (s.node 2).log.getEntry 2 = none := by
  let s := (cluster 3).run Runs.Sys.anyStep start3 (elect 0 1 0 ++ write 0 0 ['/', 'a'] ++
    [.aeFail 0, .remoteWake 0 2, .aeSend 1, .aeFail 1] ++ write 0 1 ['/', 'b'] ++
    call 0 2 2 ++ [.aeReturn 2] ++ call 0 2 3 ++ [.aeReturn 3] ++ call 0 1 4 ++ [.aeReturn 4] ++
    call 0 2 5 ++ applyNext 2 ++ List.replicate 3 (.fsStep 2 fun _ => ⟨0, 0⟩) ++ [.aeHandle 1])
  exact ⟨s, Runs.Sys.reach_run reach_start3 (by decide +kernel), by decide +kernel⟩

end Kept

section Acknowledged

/-- `x` handles no message of a later term than `T`. -/
def HandlesUpTo (x : Fin n) (T : ℕ) (s : Cluster n) : Action n → Prop
  | .aeHandle k => ∀ c ∈ s.aeCalls[k]?, c.dst = x → c.req.term ≤ T
  | .rvHandle k => ∀ c ∈ s.rvCalls[k]?, c.dst = x → c.req.term ≤ T
  | .aeReturn k => ∀ c ∈ s.aeCalls[k]?, c.src = x → ∀ resp ∈ c.phase.resp?, resp.term ≤ T
  | .rvReturn k => ∀ c ∈ s.rvCalls[k]?, c.src = x → ∀ resp ∈ c.phase.resp?, resp.term ≤ T
  | _ => True

instance (x : Fin n) (T : ℕ) (s : Cluster n) (a : Action n) : Decidable (HandlesUpTo x T s a) :=
  Action.decidable (Q := True) (fun
    | .aeHandle k => some (inferInstanceAs (Decidable (∀ c ∈ s.aeCalls[k]?, _ → _)))
    | .rvHandle k => some (inferInstanceAs (Decidable (∀ c ∈ s.rvCalls[k]?, _ → _)))
    | .aeReturn k => some (inferInstanceAs (Decidable (∀ c ∈ s.aeCalls[k]?,
        _ → ∀ resp ∈ c.phase.resp?, _)))
    | .rvReturn k => some (inferInstanceAs (Decidable (∀ c ∈ s.rvCalls[k]?,
        _ → ∀ resp ∈ c.phase.resp?, _)))
    | _ => none) a

/-- Written over `l` from `q` on, `es` reaches to `k` and has the terms of `l` up to there. -/
def KeepsFirst (l es : List Entry) (q k : ℕ) : Prop :=
  q < k → k ≤ q + es.length ∧ ∀ p ∈ es.zip (l.drop q), p.1.index ≤ k → p.1.term = p.2.term

instance (l es : List Entry) (q k : ℕ) : Decidable (KeepsFirst l es q k) :=
  inferInstanceAs (Decidable (_ → _ ∧ ∀ p ∈ es.zip (l.drop q), _ → _))

/-- A request of the term `T` that is written at `x` keeps the first `k` entries. -/
def KeepsAcked (x : Fin n) (T k : ℕ) (s : Cluster n) : Action n → Prop
  | .aeHandle j => ∀ c ∈ s.aeCalls[j]?, c.dst = x → c.req.term = T →
      ∀ q ∈ (s.node x).storesAt c.req, KeepsFirst (s.node x).log.memoryLog c.req.entries q k
  | _ => True

instance (x : Fin n) (T k : ℕ) (s : Cluster n) (a : Action n) :
    Decidable (KeepsAcked x T k s a) :=
  Action.decidable (Q := True) (fun
    | .aeHandle j => some (inferInstanceAs (Decidable (∀ c ∈ s.aeCalls[j]?, _ → _ →
        ∀ q ∈ (s.node x).storesAt c.req, _)))
    | _ => none) a

/-- The first `k` entries are kept just where the batch reaches to `k` with the log's terms. -/
theorem take_laid_iff {l src l' : List Entry} {q k : ℕ} (hn : Numbered l) (hs : Numbered src)
    (hl : LogManager.Laid l (src.drop q) q l')
    (hf : q < l.length → q + (src.drop q).length ≤ l.length + 1) (hk : k ≤ l.length) :
    l'.take k = l.take k ↔ KeepsFirst l (src.drop q) q k := by
  rcases hl.le.lt_or_eq with hlt | heq
  · rw [(hl.inside hlt).1, LogManager.laidOver_eq hl.le (hf hlt)]
    constructor
    · intro h hqk
      have hget : ∀ i < k, (LogManager.overlay l (src.drop q) q)[i]? = l[i]? := by
        intro i hi
        rw [← List.getElem?_take_of_lt hi, h, List.getElem?_take_of_lt hi]
      refine ⟨?_, fun ⟨e, x⟩ hp hi => ?_⟩
      · have hlen := congrArg List.length h
        rw [List.length_take, List.length_take, LogManager.length_overlay hl.le] at hlen
        omega
      · obtain ⟨j, hj⟩ := List.mem_iff_getElem?.1 hp
        obtain ⟨he, hx⟩ := List.getElem?_zip_eq_some.1 hj
        have hidx : e.index = q + j + 1 := hs.drop he
        rw [List.getElem?_drop] at hx
        have hpick := hget (q + j) (by simp only at hi; omega)
        rw [LogManager.getElem?_overlay hl.le he hx, hx] at hpick
        rw [← Option.some.inj hpick, LogManager.pick_term]
    · intro h
      refine List.ext_getElem? fun i => ?_
      rw [List.getElem?_take, List.getElem?_take]
      split_ifs with hi
      · rcases lt_or_ge i q with hiq | hiq
        · exact LogManager.getElem?_overlay_of_lt hiq hl.le
        · obtain ⟨j, rfl⟩ := Nat.exists_eq_add_of_le hiq
          obtain ⟨hlen, hterm⟩ := h (by omega)
          have hx := List.getElem?_eq_getElem (l := l) (i := q + j) (by omega)
          have he := List.getElem?_eq_getElem (l := src.drop q) (i := j) (by omega)
          have hidx := hs.drop he
          have hmem : ((src.drop q)[j], l[q + j]) ∈ (src.drop q).zip (l.drop q) :=
            List.mem_of_getElem? (List.getElem?_zip_eq_some.2
              ⟨he, by rw [List.getElem?_drop]; exact hx⟩)
          have hsame : (src.drop q)[j].index = l[q + j].index ∧
              (src.drop q)[j].term = l[q + j].term :=
            ⟨by rw [hidx, hn _ _ hx], hterm _ hmem (by simp only; omega)⟩
          rw [LogManager.getElem?_overlay hl.le he hx, hx, LogManager.pick, if_pos hsame]
      · rfl
  · rw [(hl.atEnd heq).1, List.take_append_of_le_length hk]
    exact ⟨fun _ hlt => absurd hlt (by omega), fun _ => rfl⟩

/-- What an acknowledgement of `T` up to `k` leaves `x` with: it has reached the term, and its first
`k` entries are those of `first`. -/
structure Acked (x : Fin n) (T : ℕ) (first : List Entry) (s : Cluster n) : Prop where
  reach : (cluster n).Reach NoGap s
  term : T ≤ (s.node x).currentTerm
  isPrefix : first <+: (s.node x).log.memoryLog

theorem Acked.step {x : Fin n} {T : ℕ} {first : List Entry} {s s' : Cluster n} {a : Action n}
    (h : Acked x T first s) (hg : NoGap s a) (hu : HandlesUpTo x T s a)
    (hk : KeepsAcked x T first.length s a) (hst : (cluster n).step s a = some s') :
    Acked x T first s' := by
  have hL := reach_numbered (fun _ _ => id) h.reach
  have hlen := h.isPrefix.length_le
  refine ⟨h.reach.step hg hst, h.term.trans ?_, ?_⟩
  · exact (votesKept_later h.reach (.step .refl hg hst) x).term
  · obtain ⟨t, hch, hr⟩ := step_changes hst
    rw [(hr.frame x).1.memoryLog]
    obtain ⟨_, hl, -⟩ := hch.local x
    generalize t.node x = nd at hl ⊢
    cases hl with
    | frame h' => exact h'.memoryLog ▸ h.isPrefix
    | @aeHandle j c nd resp hc hx hap =>
      subst hx
      have hmem := List.mem_of_getElem? hc
      obtain ⟨hsrc, hes⟩ := hL.sent c hmem
      rcases hL.handled (fun _ => id) hmem hap with ⟨hq, hlaid⟩ | heq
      · -- only a request of the term itself is written
        have hT : c.req.term = T :=
          le_antisymm (hu c hc rfl) (h.term.trans (Node.storesAt_term_le hq))
        have hkeep := hk c hc rfl hT _ hq
        have hgap := hg c hc _ hq
        rw [hes] at hkeep hgap
        rw [List.prefix_iff_eq_take, (take_laid_iff (hL.log _) hsrc hlaid hgap hlen).2 hkeep]
        exact List.prefix_iff_eq_take.1 h.isPrefix
      · exact heq ▸ h.isPrefix
    | clientRequest => exact h.isPrefix
    | clientStep h' =>
      obtain ⟨_, _, log, -, hs, rfl⟩ := Node.onMetaOperation_cases h'
      cases hs with
      | append => exact h.isPrefix.trans (List.prefix_append _ _)
      | _ => exact h.isPrefix
    | fsStep h' =>
      obtain ⟨_, _, _, rfl, -⟩ := Node.fsUpdateLoop_cases h'
      exact h.isPrefix

/-- What a node has acknowledged up to `k` in a term, it keeps, as long as it handles no message of
a later term and each request of the term that it writes reaches to `k` with the terms its log has,
and where no batch leaves a gap. -/
theorem acked_kept {s s' t : Cluster n} (h : (cluster n).Reach NoGap s) {k : ℕ}
    (hg : NoGap s (.aeHandle k)) (hst : (cluster n).step s (.aeHandle k) = some s')
    {c : AppendEntriesCall n} {resp : AppendEntriesResponse} (hc : s'.aeCalls[k]? = some c)
    (hr : c.phase = .handled resp) (hok : resp.success = true)
    (hl : (cluster n).Later (fun s a => NoGap s a ∧ HandlesUpTo c.dst c.req.term s a ∧
      KeepsAcked c.dst c.req.term resp.lastLogIndex s a) s' t) {i : ℕ} (hi : 0 < i)
    (hk : i ≤ resp.lastLogIndex) :
    (t.node c.dst).log.getEntry i = (s'.node c.dst).log.getEntry i := by
  have hs' : (cluster n).Reach NoGap s' := h.step hg hst
  have hn := (reach_numbered (fun _ _ => id) hs').log c.dst
  have hlast : resp.lastLogIndex = (s'.node c.dst).log.memoryLog.length ∧
      c.req.term ≤ (s'.node c.dst).currentTerm := by
    obtain ⟨c₀, nd, resp₀, hc₀, hap, rfl⟩ := aeHandle_eq_some hst
    obtain ⟨hlt, -⟩ := List.getElem?_eq_some_iff.1 hc₀
    obtain rfl : _ = c := Option.some.inj ((List.getElem?_set_self hlt).symm.trans hc)
    obtain rfl : resp₀ = resp := Phase.handled.inj hr
    rw [← LogManager.getLastLogIndex_eq hn]
    simp only [setAECall_node, setNode_node, Function.update_self]
    rcases Node.onAppendEntries_cases hap with ⟨-, -, rfl⟩ | ⟨_, _, _, _, _, _, ha, rfl⟩
    · simp at hok
    · exact ⟨ha.resp_last hok, le_rfl⟩
  obtain ⟨hlast, hterm⟩ := hlast
  have hacked : Acked c.dst c.req.term (s'.node c.dst).log.memoryLog t := by
    refine hl.inv ⟨hs', hterm, List.prefix_rfl⟩ fun t a t' ht hg hstep => ?_
    obtain ⟨hgap, hu, hkeep⟩ := hg
    rw [hlast] at hkeep
    exact ht.step hgap hu hkeep hstep
  rw [LogManager.getEntry_eq hn hi, LogManager.getEntry_eq
    ((reach_numbered (fun _ _ => id) hacked.reach).log c.dst) hi]
  obtain ⟨m, hm⟩ := hacked.isPrefix
  rw [← hm, List.getElem?_append_left (by omega)]

/-- Node `2` has acknowledged the first entry, and handles a request with both. -/
theorem acked_kept_next :
    ∃ s s' t c, (cluster 3).Reach NoGap s ∧ (cluster 3).step s (.aeHandle 1) = some s' ∧
      s'.aeCalls[1]? = some c ∧ c.phase = .handled ⟨0, true, 1⟩ ∧
      (cluster 3).Later (fun s a => NoGap s a ∧ HandlesUpTo c.dst c.req.term s a ∧
        KeepsAcked c.dst c.req.term 1 s a) s' t ∧
      (t.node c.dst).log.getEntry (1 : ℕ) = (s'.node c.dst).log.getEntry (1 : ℕ) := by
  let s := (cluster 3).run NoGap start3
    (elect 0 1 0 ++ write 0 0 ['/', 'a'] ++ [.remoteWake 0 2, .aeSend 1])
  have hs : (cluster 3).Reach NoGap s := Runs.Sys.reach_run reach_start3 (by decide +kernel)
  let s' := ((cluster 3).step s (.aeHandle 1)).get (by decide +kernel)
  have hst : (cluster 3).step s (.aeHandle 1) = some s' := (Option.some_get _).symm
  let c := (s'.aeCalls[1]?).get (by decide +kernel)
  have hc : s'.aeCalls[1]? = some c := (Option.some_get _).symm
  have hr : c.phase = .handled ⟨0, true, 1⟩ := by decide +kernel
  let G : Runs.Guard (Cluster 3) (Action 3) := fun s a => NoGap s a ∧
    HandlesUpTo c.dst c.req.term s a ∧ KeepsAcked c.dst c.req.term 1 s a
  let t := (cluster 3).run G s' (.aeReturn 1 :: write 0 1 ['/', 'b'] ++ call 0 2 2)
  have hl : (cluster 3).Later G s' t := Runs.Sys.later_run (by decide +kernel)
  exact ⟨s, s', t, c, hs, hst, hc, hr, hl,
    acked_kept hs (by decide +kernel) hst hc hr rfl hl one_pos le_rfl⟩

/-- Node `2` has acknowledged both entries, and its leader has counted it, when the request with
only the first, which its sender had given up on, is handled. -/
theorem acked_lost :
    ∃ s s' t, (cluster 3).Reach Runs.Sys.anyStep s ∧
      (cluster 3).step s (.aeHandle 3) = some s' ∧
      (∃ c ∈ s'.aeCalls[3]?, c.src = 0 ∧ c.dst = 2 ∧ c.req.term = 1 ∧
        c.phase = .handled ⟨1, true, 2⟩) ∧
      (cluster 3).Later (HandlesUpTo 2 1) s' t ∧
      (s'.node 2).log.getEntry 2 = some ⟨1, 2, .kMkdir, ['/', 'b']⟩ ∧
      (t.node 0).pendingEntries 2 = {2} ∧ (t.node 2).log.getEntry 2 = none := by
  let s := (cluster 3).run Runs.Sys.anyStep start3 (elect 0 1 0 ++ write 0 0 ['/', 'a'] ++
    [.aeFail 0, .remoteWake 0 2, .aeSend 1, .aeFail 1] ++ write 0 1 ['/', 'b'] ++
    call 0 2 2 ++ [.aeReturn 2, .remoteWake 0 2, .aeSend 3])
  have hs : (cluster 3).Reach Runs.Sys.anyStep s :=
    Runs.Sys.reach_run reach_start3 (by decide +kernel)
  let s' := ((cluster 3).step s (.aeHandle 3)).get (by decide +kernel)
  have hst : (cluster 3).step s (.aeHandle 3) = some s' := (Option.some_get _).symm
  let t := (cluster 3).run (HandlesUpTo 2 1) s' [.aeReturn 3, .aeHandle 1]
  exact ⟨s, s', t, hs, hst, by decide +kernel, Runs.Sys.later_run (by decide +kernel),
    by decide +kernel⟩

end Acknowledged

end RaftFS
