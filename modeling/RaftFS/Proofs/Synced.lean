import RaftFS.Proofs.Brings
import RaftFS.Proofs.Committed
import RaftFS.Proofs.Heartbeats
import RaftFS.Proofs.Majority

/-!
# Logs in step with the leader's

Where each follower's log is a part of the leader's and ends right before what the leader is to send
it next, each call brings the follower to where the leader's log ended when the call was built, and
the answer to it moves the next index on just as far. So the logs stay in step (`Synced.step`), and
what all the remotes have acknowledged the leader has committed.
-/

namespace RaftFS

variable {n : ℕ}

open LogManager Node

/-- The request is still on its way to the log. -/
def ClientThread.Entering : ClientThread n → Prop
  | .accepted _ _ | .led _ _ | .built _ => True
  | .waiting _ | .answered _ _ _ _ => False

namespace Cluster

variable {s s' t : Cluster n} {a : Action n} {x y : Fin n} {T b : ℕ}

section Books

/-- The next indices and the commit index are as they were. -/
structure SameBooks (nd nd' : Node n) : Prop where
  nextIndex : nd'.nextIndex = nd.nextIndex
  commit : nd'.log.lastCommitedIndex = nd.log.lastCommitedIndex

/-- A leader that takes up no answer leaves its books as they are. -/
theorem Change.books (h : s.Change a t) (hlead : (s.node x).currentRole = .kLeader)
    (hx : ∀ (k : ℕ) c, s.aeCalls[k]? = some c → c.phase.resp? = none → c.dst = x →
      c.req.term < (s.node x).currentTerm)
    (hno : ∀ (k : ℕ) c, a = .aeReturn k ∨ a = .aeNotConnected k → s.aeCalls[k]? = some c →
      c.src ≠ x) : SameBooks (s.node x) (t.node x) := by
  have hother : ∀ {y : Fin n} {nd : Node n}, (y = x → SameBooks (s.node x) nd) →
      SameBooks (s.node x) (Function.update s.node y nd x) := by
    intro y nd hy
    rw [Function.update_apply]
    split_ifs with hxy
    · exact hy hxy.symm
    · exact ⟨rfl, rfl⟩
  cases h with
  | wake | aeSend | aeFail | rvSend | rvFail => exact ⟨rfl, rfl⟩
  | timeout hrole =>
    refine hother ?_
    rintro rfl
    exact absurd hlead hrole
  | aeHandle hc hp h =>
    refine hother ?_
    rintro rfl
    have hlt := hx _ _ hc (by rw [hp]; rfl) rfl
    rcases Node.onAppendEntries_cases h with ⟨-, rfl, -⟩ | ⟨_, _, _, _, _, _, ha, -⟩
    · exact ⟨rfl, rfl⟩
    · exact absurd ha.term_le (not_le.2 hlt)
  | aeTake hc ha h =>
    refine hother fun hsrc => absurd hsrc (hno _ _ ?_ hc)
    exact ha.imp And.left And.left
  | @rvHandle k c =>
    refine hother ?_
    rintro rfl
    obtain ⟨_, _, _, _, he, -⟩ := Node.onRequestVote_cases c.req (s.node c.dst)
    rw [he]
    exact ⟨rfl, rfl⟩
  | @rvTake _ k c resp nd won next hc ha h =>
    refine hother ?_
    rintro rfl
    obtain ⟨_, _, _, _, _, _, he, hcases⟩ := Node.onRequestVoteResponse_cases c.src c.dst resp
      (s.node c.src)
    obtain ⟨rfl, -⟩ := Prod.mk.inj (h.symm.trans he)
    rcases hcases with ⟨-, ⟨hcand, -⟩, -⟩ | ⟨-, -, rfl, -⟩
    · rw [hlead] at hcand
      cases hcand
    · exact ⟨rfl, rfl⟩
  | clientRequest | fsWake => exact hother fun h => by subst h; exact ⟨rfl, rfl⟩
  | clientStep h =>
    refine hother ?_
    rintro rfl
    obtain ⟨_, _, _, -, hs, rfl⟩ := Node.onMetaOperation_cases h
    cases hs with
    | _ => exact ⟨rfl, rfl⟩
  | fsStep h =>
    refine hother ?_
    rintro rfl
    obtain ⟨_, _, _, rfl, -⟩ := Node.fsUpdateLoop_cases h
    exact ⟨rfl, rfl⟩

theorem step_books (h : s.step a = some s') (hlead : (s.node x).currentRole = .kLeader)
    (hx : ∀ (k : ℕ) c, s.aeCalls[k]? = some c → c.phase.resp? = none → c.dst = x →
      c.req.term < (s.node x).currentTerm)
    (hno : ∀ (k : ℕ) c, a = .aeReturn k ∨ a = .aeNotConnected k → s.aeCalls[k]? = some c →
      c.src ≠ x) : SameBooks (s.node x) (s'.node x) := by
  obtain ⟨t, hc, hr⟩ := step_changes h
  obtain ⟨f, hf⟩ := hr.node x
  rw [hf]
  exact ⟨(hc.books hlead hx hno).nextIndex, (hc.books hlead hx hno).commit⟩

theorem aeReturn_eq_some {k : ℕ} (h : s.step (.aeReturn k) = some s') :
    ∃ c resp nd commit next f, s.aeCalls[k]? = some c ∧ c.phase = .handled resp ∧
      (s.node c.src).remoteThread c.dst = .appendEntries k ∧
      (s.node c.src).onAppendEntriesResponse c.dst c.req resp = some (nd, commit, next) ∧
      s'.node c.src = { nd with remoteThread := f } := by
  obtain ⟨c, hc, h⟩ := Option.bind_eq_some_iff.1 h
  split at h
  · rename_i resp hp
    split_ifs at h with hin
    simp only [takeAppendEntries, Option.bind_eq_bind, Option.bind_eq_some_iff, Prod.exists,
      Option.pure_def, Option.some.injEq] at h
    obtain ⟨nd, commit, next, hap, rfl⟩ := h
    obtain ⟨f, hf⟩ := (goOn_resume ((s.setNode c.src nd).log _) c.src c.dst c.ne next).node c.src
    refine ⟨c, resp, nd, commit, next, f, hc, hp, of_decide_eq_true hin, hap, ?_⟩
    rw [hf]
    simp
  · cases h

end Books

/-- No election is called, and the calls of `x` go through. -/
def Through (x : Fin n) (s : Cluster n) : Action n → Prop
  | .leaderTimeout _ => False
  | .aeNotConnected k | .aeFail k => ∀ c ∈ s.aeCalls[k]?, c.src ≠ x
  | _ => True

theorem Through.ne (h : s.Through x a) (y : Fin n) : a ≠ .leaderTimeout y := by
  rintro rfl
  exact h

theorem Through.loop_cases (h : s.Through x a) (hst : s.step a = some s')
    (hl : s.remoteLoop a = some (x, y)) :
    (a = .remoteWake x y ∧ (s.node x).remoteThread y = .waiting) ∨
      (∃ k, a = .aeReturn k ∧ (s.node x).remoteThread y = .appendEntries k) ∨
      ∃ k, (s.node x).remoteThread y = .requestVote k := by
  rcases Cluster.loop_cases hst hl with hw | ⟨k, rfl | rfl | rfl, hth⟩ | hrv
  · exact .inl hw
  · exact .inr (.inl ⟨k, rfl, hth⟩)
  · obtain ⟨c, hc, he⟩ := Option.map_eq_some_iff.1 hl
    exact absurd (congrArg Prod.fst he) (h c hc)
  · obtain ⟨c, hc, he⟩ := Option.map_eq_some_iff.1 hl
    exact absurd (congrArg Prod.fst he) (h c hc)
  · exact .inr (.inr hrv)

theorem aeHandle_sent {k : ℕ} {c : AppendEntriesCall n} (h : s.step (.aeHandle k) = some s')
    (hc : s.aeCalls[k]? = some c) : c.phase = .sent := by
  obtain ⟨d, hd, h⟩ := Option.bind_eq_some_iff.1 h
  obtain rfl := Option.some.inj (hd.symm.trans hc)
  split_ifs at h with hp
  exact hp

theorem step_made (h : s.step a = some s') {c : AppendEntriesCall n}
    (hc : s'.aeCalls[s.aeCalls.length]? = some c) :
    (s'.node c.src).remoteThread c.dst = .appendEntries s.aeCalls.length := by
  obtain ⟨t, hch, hg⟩ := step_goes h
  have hlen := (hch.aeCalls s').2
  have hold : t.aeCalls[s.aeCalls.length]? ≠ some c := by
    rw [← hlen, List.getElem?_eq_none le_rfl]
    simp
  split at hg
  · cases hg with
    | wait | requestVote => exact absurd hc hold
    | appendEntries hne =>
      rw [← hlen] at hc ⊢
      simp only [callAppendEntries, List.getElem?_concat_length, Option.some.injEq] at hc
      subst hc
      simp [callAppendEntries, setThread]
  · subst hg
    exact absurd hc hold

/-- The log of `y` is a part of the leader's and ends right before what the loop of `x` for `y` is
to send, or has sent and `y` has not handled. Where `y` has, it is as the call brings it. -/
inductive InStep (x y : Fin n) (T : ℕ) (s : Cluster n) : Prop
  | waiting (h : (s.node x).remoteThread y = .waiting)
    (hF : (s.node y).log.memoryLog <+: (s.node x).log.memoryLog)
    (hn : (s.node x).nextIndex y = (s.node y).log.memoryLog.length + 1)
  | called {k m : ℕ} {c : AppendEntriesCall n} (h : (s.node x).remoteThread y = .appendEntries k)
    (hc : s.aeCalls[k]? = some c) (hsrc : c.src = x) (hdst : c.dst = y) (ht : c.req.term = T)
    (hp : c.phase.resp? = none)
    (hF : (s.node y).log.memoryLog <+: (s.node x).log.memoryLog)
    (hn : (s.node x).nextIndex y = (s.node y).log.memoryLog.length + 1)
    (hb : Brings (s.node x).log.memoryLog c.req (s.node y).log.memoryLog.length m)
  | answered {k p m : ℕ} {c : AppendEntriesCall n} {resp : AppendEntriesResponse}
    (h : (s.node x).remoteThread y = .appendEntries k)
    (hc : s.aeCalls[k]? = some c) (hsrc : c.src = x) (hdst : c.dst = y)
    (hp : c.phase = .handled resp) (hok : resp.success = true) (ht : resp.term = T)
    (hlast : resp.lastLogIndex = m)
    (hcom : c.req.leaderCommitIndex ≤ (s.node y).log.getLastCommitIndex)
    (hF : (s.node y).log.memoryLog = (s.node x).log.memoryLog.take m)
    (hn : (s.node x).nextIndex y = p + 1) (hb : Brings (s.node x).log.memoryLog c.req p m)

namespace InStep

theorem isPrefix (h : InStep x y T s) : (s.node y).log.memoryLog <+: (s.node x).log.memoryLog := by
  cases h with
  | waiting _ hF | called _ _ _ _ _ _ hF => exact hF
  | answered _ _ _ _ _ _ _ _ _ hF => exact hF ▸ List.take_prefix _ _

theorem nextIndex_le (h : InStep x y T s) :
    (s.node x).nextIndex y ≤ (s.node y).log.memoryLog.length + 1 := by
  cases h with
  | waiting _ _ hn | called _ _ _ _ _ _ _ hn => exact hn.le
  | answered _ _ _ _ _ _ _ _ _ hF hn hb =>
    rw [hn, hF, List.length_take_of_le hb.len]
    exact Nat.succ_le_succ hb.le

theorem exists_next (h : InStep x y T s) :
    ∃ p, (s.node x).nextIndex y = p + 1 ∧ p ≤ (s.node x).log.memoryLog.length := by
  cases h with
  | waiting _ hF hn | called _ _ _ _ _ _ hF hn => exact ⟨_, hn, hF.length_le⟩
  | answered _ _ _ _ _ _ _ _ _ _ hn hb => exact ⟨_, hn, hb.le.trans hb.len⟩

/-- What the follower has where it has answered the call that its loop is in. -/
theorem of_answered (h : InStep x y T s) {k : ℕ} {c : AppendEntriesCall n}
    (hth : (s.node x).remoteThread y = .appendEntries k) (hc : s.aeCalls[k]? = some c)
    (hp : c.phase.resp? ≠ none) : ∃ p m resp, c.phase = .handled resp ∧ resp.success = true ∧
      resp.term = T ∧ resp.lastLogIndex = m ∧
      c.req.leaderCommitIndex ≤ (s.node y).log.getLastCommitIndex ∧
      (s.node y).log.memoryLog = (s.node x).log.memoryLog.take m ∧
      (s.node x).nextIndex y = p + 1 ∧ Brings (s.node x).log.memoryLog c.req p m := by
  cases h with
  | waiting h' =>
    rw [hth] at h'
    cases h'
  | called h' hc' _ _ _ hp' =>
    rw [hth] at h'
    cases h'
    obtain rfl := Option.some.inj (hc.symm.trans hc')
    exact absurd hp' hp
  | answered h' hc' _ _ hp' hok ht hlast hcom hF hn hb =>
    rw [hth] at h'
    cases h'
    obtain rfl := Option.some.inj (hc.symm.trans hc')
    exact ⟨_, _, _, hp', hok, ht, hlast, hcom, hF, hn, hb⟩

theorem not_requestVote (h : InStep x y T s) (k : ℕ) :
    (s.node x).remoteThread y ≠ .requestVote k := by
  cases h with
  | waiting h | called h | answered h => simp [h]

end InStep

/-- All nodes are in the term, `x` leads it and the others follow. -/
structure Leads (x : Fin n) (T : ℕ) (s : Cluster n) : Prop where
  term : ∀ y, (s.node y).currentTerm = T
  leads : (s.node x).currentRole = .kLeader
  follow : ∀ y, y ≠ x → (s.node y).currentRole = .kFollower

namespace Leads

variable {G : Runs.Guard (Cluster n) (Action n)}

theorem not_candidate (h : Leads x T s) (y : Fin n) : (s.node y).currentRole ≠ .kCandidate := by
  by_cases hy : y = x
  · rw [hy, h.leads]
    simp
  · rw [h.follow y hy]
    simp

theorem term_le (h : Leads x T s) (hr : (cluster n).Reach G s) {k : ℕ} {c : AppendEntriesCall n}
    (hc : s.aeCalls[k]? = some c) : c.req.term ≤ T := by
  obtain ⟨z, hz⟩ := reach_carries hr _ (.inl ⟨c, List.mem_of_getElem? hc, .inl rfl⟩)
  exact hz.trans (h.term z).le

end Leads

/-- The logs are in step with that of the leader `x`. What is on record as acknowledged is what the
next indices tell, past the index `b`, and what all have acknowledged is committed. -/
structure Synced (x : Fin n) (T b : ℕ) (s : Cluster n) : Prop extends Leads x T s where
  numbered : Numbered (s.node x).log.memoryLog
  commit_le : (s.node x).log.lastCommitedIndex ≤ (s.node x).log.memoryLog.length
  inStep : ∀ y, y ≠ x → InStep x y T s
  only : ∀ (k : ℕ) c, s.aeCalls[k]? = some c → c.phase.resp? = none → c.req.term = T →
    c.src = x ∧ (s.node x).remoteThread c.dst = .appendEntries k
  idle : ∀ y, y ≠ x → ∀ th ∈ (s.node y).clients, ¬ th.Entering
  acked : ∀ i, b < i → (s.node x).log.getLastCommitIndex < i → ∀ y, y ≠ x →
    i < (s.node x).nextIndex y → y ∈ (s.node x).pendingEntries i
  all : 3 ≤ n → ∀ i, b < i → (∀ y, y ≠ x → i < (s.node x).nextIndex y) →
    i ≤ (s.node x).log.getLastCommitIndex

namespace Synced

variable {G : Runs.Guard (Cluster n) (Action n)}

theorem lt_of_dst (h : Synced x T b s) (hr : (cluster n).Reach G s) (k : ℕ)
    (c : AppendEntriesCall n) (hc : s.aeCalls[k]? = some c) (hp : c.phase.resp? = none)
    (hx : c.dst = x) : c.req.term < (s.node x).currentTerm := by
  rw [h.term x]
  refine lt_of_le_of_ne (h.toLeads.term_le hr hc) fun ht => c.ne ?_
  exact (h.only k c hc hp ht).1.trans hx.symm

/-- The leader's log only grows. -/
theorem step_leaderLog (h : Synced x T b s) (hr : (cluster n).Reach G s)
    (hst : s.step a = some s') :
    (s.node x).log.memoryLog <+: (s'.node x).log.memoryLog ∧
      Numbered (s'.node x).log.memoryLog := by
  cases step_log hst x with
  | same hl =>
    rw [hl]
    exact ⟨List.prefix_rfl, h.numbered⟩
  | @stored k q c ha hc hx hq hl =>
    subst ha
    have hlt := h.lt_of_dst hr k c hc (by rw [aeHandle_sent hst hc]; rfl) hx
    exact absurd (storesAt_term_le hq) (not_le.2 hlt)
  | appended _ _ hl =>
    rw [hl]
    exact ⟨List.prefix_append _ _, h.numbered.concat rfl⟩

/-- The log of a follower changes where it handles the call that its loop is in, and nowhere
else. -/
theorem step_followerLog (h : Synced x T b s) (hr : (cluster n).Reach G s)
    (hst : s.step a = some s') (hy : y ≠ x)
    (hk : ∀ k, a = .aeHandle k → (s.node x).remoteThread y ≠ .appendEntries k) :
    (s'.node y).log.memoryLog = (s.node y).log.memoryLog := by
  cases step_log hst y with
  | same hl => exact hl
  | @stored k q c ha hc hdst hq hl =>
    have hp : c.phase.resp? = none := by
      rw [aeHandle_sent (ha ▸ hst) hc]
      rfl
    have ht : c.req.term = T :=
      le_antisymm (h.toLeads.term_le hr hc) ((h.term y).ge.trans (storesAt_term_le hq))
    exact absurd (hdst ▸ (h.only k c hc hp ht).2) (hk k ha)
  | appended _ hth _ => exact absurd trivial (h.idle y hy _ (List.mem_of_getElem? hth))

/-- What a step makes of the leader's books: it leaves them, or it takes up the answer of `y`. -/
inductive LeaderStep (s : Cluster n) (a : Action n) (x : Fin n) (nd : Node n) : Prop
  | same (h : SameBooks (s.node x) nd)
    (hno : ∀ (k : ℕ) c, a = .aeReturn k → s.aeCalls[k]? = some c → c.src ≠ x)
  | taken {k p m : ℕ} {y : Fin n} {c : AppendEntriesCall n} (ha : a = .aeReturn k)
    (hl : s.remoteLoop a = some (x, y)) (hy : y ≠ x) (hc : s.aeCalls[k]? = some c)
    (hb : Brings (s.node x).log.memoryLog c.req p m)
    (hF : (s.node y).log.memoryLog = (s.node x).log.memoryLog.take m)
    (hn : (s.node x).nextIndex y = p + 1) (h : TakesUp y p m (s.node x) nd)

theorem step_leader (h : Synced x T b s) (hr : (cluster n).Reach G s) (hg : s.Through x a)
    (hst : s.step a = some s') : LeaderStep s a x (s'.node x) := by
  by_cases ha : ∃ k c, a = .aeReturn k ∧ s.aeCalls[k]? = some c ∧ c.src = x
  · obtain ⟨k, c, rfl, hc, rfl⟩ := ha
    obtain ⟨d, resp, nd, commit, next, f, hd, hp, hth, hap, hnode⟩ := aeReturn_eq_some hst
    obtain rfl := Option.some.inj (hc.symm.trans hd)
    have hloop : s.remoteLoop (.aeReturn k) = some (c.src, c.dst) := by
      simp [remoteLoop, hc]
    have hresp : c.phase.resp? ≠ none := by simp [hp, Phase.resp?]
    obtain ⟨p, m, _, hp', hok, ht, hlast, -, hF, hnext, hb⟩ :=
      (h.inStep c.dst c.ne.symm).of_answered hth hc hresp
    obtain rfl := Phase.handled.inj (hp.symm.trans hp')
    have htakes := onAppendEntriesResponse_takesUp hap h.numbered hb (ht.trans (h.term _).symm)
      hok hlast hnext
    rw [hnode]
    exact .taken rfl hloop c.ne.symm hc hb hF hnext
      ⟨htakes.memoryLog, htakes.nextIndex, htakes.commit, htakes.pending, htakes.quorum⟩
  · refine .same (step_books hst h.leads (h.lt_of_dst hr) ?_) fun k c h1 h2 h3 =>
      ha ⟨k, c, h1, h2, h3⟩
    rintro k c (rfl | rfl) hc hsrc
    · exact ha ⟨k, c, rfl, hc, hsrc⟩
    · exact hg c hc hsrc

/-- The loop of the leader for `y` goes on. -/
theorem inStep_goes (hg : t.Goes x y s') (hx : Leads x T s')
    (hL : Numbered (s'.node x).log.memoryLog)
    (hc : (s'.node x).log.lastCommitedIndex ≤ (s'.node x).log.memoryLog.length)
    (hF : (s'.node y).log.memoryLog <+: (s'.node x).log.memoryLog)
    (hn : (s'.node x).nextIndex y = (s'.node y).log.memoryLog.length + 1) : InStep x y T s' := by
  cases hg with
  | wait => exact .waiting (by simp [setThread]) hF hn
  | appendEntries hne =>
    have hnode : (t.callAppendEntries x y hne).node x = { t.node x with
        remoteThread := Function.update (t.node x).remoteThread y
          (.appendEntries t.aeCalls.length) } := Function.update_self _ _ _
    have hterm := hx.term x
    have hle := hF.length_le
    refine .called (k := t.aeCalls.length) (m := (t.node x).log.memoryLog.length) ?_
      List.getElem?_concat_length rfl rfl ?_ rfl hF hn ?_
    · simp [callAppendEntries, setThread]
    · rw [hnode] at hterm
      exact hterm
    · rw [hnode] at hL hc hn hle ⊢
      have hb : Brings (t.node x).log.memoryLog ((t.node x).appendEntriesRequest x y) _ _ :=
        appendEntriesRequest_brings x y hL hn hle hc
      exact hb
  | requestVote hne hcand =>
    have hlead := hx.leads
    simp only [callRequestVote, setThread, setNode_node, Function.update_self] at hlead
    rw [hcand] at hlead
    cases hlead

theorem step_commit_le (h : Synced x T b s) (hl : LeaderStep s a x (s'.node x))
    (hL : (s.node x).log.memoryLog <+: (s'.node x).log.memoryLog) :
    (s'.node x).log.lastCommitedIndex ≤ (s'.node x).log.memoryLog.length := by
  refine le_trans ?_ hL.length_le
  cases hl with
  | same hb => exact hb.commit.le.trans h.commit_le
  | taken _ _ _ _ _ _ _ htk => exact htk.commit.trans (max_le h.commit_le le_rfl)

/-- What `y` has and what it is to be sent next, where the loop of the leader for `y` goes on. -/
theorem step_loop (h : Synced x T b s) (hr : (cluster n).Reach G s) (hg : s.Through x a)
    (hst : s.step a = some s') (hy : y ≠ x) (hl : s.remoteLoop a = some (x, y)) :
    (s'.node y).log.memoryLog <+: (s'.node x).log.memoryLog ∧
      (s'.node x).nextIndex y = (s'.node y).log.memoryLog.length + 1 := by
  have hL := (h.step_leaderLog hr hst).1
  have hls := h.step_leader hr hg hst
  have hin := h.inStep y hy
  rcases hg.loop_cases hst hl with ⟨rfl, hth⟩ | ⟨k, rfl, hth⟩ | ⟨k, hth⟩
  · have hF := h.step_followerLog hr hst hy (fun k hk => by cases hk)
    cases hin with
    | waiting _ hpre hn =>
      cases hls with
      | same hb => exact ⟨hF ▸ hpre.trans hL, by rw [hb.nextIndex, hF, hn]⟩
      | taken ha => cases ha
    | called h' | answered h' =>
      rw [hth] at h'
      cases h'
  · have hF := h.step_followerLog hr hst hy (fun k hk => by cases hk)
    cases hls with
    | same _ hno =>
      obtain ⟨c, hc, he⟩ := Option.map_eq_some_iff.1 hl
      exact absurd (congrArg Prod.fst he) (hno k c rfl hc)
    | @taken _ p m z _ _ hl' _ _ hb hFz _ htk =>
      obtain rfl : z = y := (Prod.mk.inj (Option.some.inj (hl'.symm.trans hl))).2
      rw [hF, hFz]
      refine ⟨(List.take_prefix _ _).trans hL, ?_⟩
      rw [htk.nextIndex, Function.update_self, List.length_take_of_le hb.len]
  · exact absurd hth (hin.not_requestVote k)

theorem step_nextIndex_eq (h : Synced x T b s) (hr : (cluster n).Reach G s) (hg : s.Through x a)
    (hst : s.step a = some s') (hl : s.remoteLoop a ≠ some (x, y)) :
    (s'.node x).nextIndex y = (s.node x).nextIndex y := by
  cases h.step_leader hr hg hst with
  | same hb => rw [hb.nextIndex]
  | taken _ hl' _ _ _ _ _ htk =>
    rw [htk.nextIndex, Function.update_of_ne]
    rintro rfl
    exact hl hl'

theorem step_nextIndex_le (h : Synced x T b s) (hr : (cluster n).Reach G s) (hg : s.Through x a)
    (hst : s.step a = some s') (y : Fin n) : (s.node x).nextIndex y ≤ (s'.node x).nextIndex y := by
  cases h.step_leader hr hg hst with
  | same hb => exact (congrFun hb.nextIndex y).ge
  | taken _ _ _ _ hb _ hn htk =>
    rw [htk.nextIndex, Function.update_apply]
    split_ifs with hy
    · rw [hy, hn]
      exact Nat.succ_le_succ hb.le
    · exact le_rfl

/-- The answer that the leader takes up moves the next index past what the call has brought. -/
theorem step_return (h : Synced x T b s) (hr : (cluster n).Reach G s) {k : ℕ}
    {c : AppendEntriesCall n} (hst : s.step (.aeReturn k) = some s') (hc : s.aeCalls[k]? = some c)
    (hsrc : c.src = x) :
    (s'.node x).nextIndex c.dst = c.req.prevLogIndex + c.req.entries.length + 1 := by
  cases h.step_leader (a := .aeReturn k) hr trivial hst with
  | same _ hno => exact absurd hsrc (hno k c rfl hc)
  | @taken j p m z d ha hl _ hd hb _ _ htk =>
    cases ha
    obtain rfl := Option.some.inj (hc.symm.trans hd)
    have hz : (c.src, c.dst) = (x, z) := by
      simpa [remoteLoop, hc] using hl
    rw [(Prod.mk.inj hz).2, htk.nextIndex, Function.update_self, hb.length_eq]

/-- The follower that handles the call of its loop is brought where the call brings it. -/
theorem step_handled (h : Synced x T b s) {k m : ℕ} {c : AppendEntriesCall n}
    (hst : s.step (.aeHandle k) = some s') (hth : (s.node x).remoteThread c.dst = .appendEntries k)
    (hc : s.aeCalls[k]? = some c) (hsrc : c.src = x) (ht : c.req.term = T)
    (hF : (s.node c.dst).log.memoryLog <+: (s.node x).log.memoryLog)
    (hn : (s.node x).nextIndex c.dst = (s.node c.dst).log.memoryLog.length + 1)
    (hb : Brings (s.node x).log.memoryLog c.req (s.node c.dst).log.memoryLog.length m) :
    InStep x c.dst T s' := by
  obtain ⟨d, nd, resp, hd, hap, rfl⟩ := aeHandle_eq_some hst
  obtain rfl := Option.some.inj (hc.symm.trans hd)
  subst hsrc
  obtain ⟨hlog, hok, hterm, hlast, hcom⟩ := onAppendEntries_brought hap h.numbered hb
    (ht.trans (h.term _).symm) (List.prefix_iff_eq_take.1 hF)
  have hsrc : ((s.setNode c.dst nd).setAECall k { c with phase := .handled resp }).node c.src =
      s.node c.src := Function.update_of_ne c.ne _ _
  have hdst : ((s.setNode c.dst nd).setAECall k { c with phase := .handled resp }).node c.dst =
      nd := Function.update_self _ _ _
  have hcall := List.getElem?_set_self (a := { c with phase := .handled resp })
    (List.getElem?_eq_some_iff.1 hc).1
  refine .answered (hsrc ▸ hth) hcall rfl rfl rfl hok (hterm.trans (h.term _)) hlast ?_ ?_
    (p := (s.node c.dst).log.memoryLog.length) ?_ ?_
  · rw [hdst]
    exact hcom
  · rw [hsrc, hdst]
    exact hlog
  · rw [hsrc]
    exact hn
  · rw [hsrc]
    exact hb

theorem step_inStep (h : Synced x T b s) (hr : (cluster n).Reach G s) (hg : s.Through x a)
    (hst : s.step a = some s') (hlead : Leads x T s') (hy : y ≠ x) : InStep x y T s' := by
  obtain ⟨hL, hnum⟩ := h.step_leaderLog hr hst
  by_cases hl : s.remoteLoop a = some (x, y)
  · obtain ⟨t, -, hgoes⟩ := step_goes hst
    rw [hl] at hgoes
    obtain ⟨hF, hn⟩ := h.step_loop hr hg hst hy hl
    exact inStep_goes hgoes hlead hnum (h.step_commit_le (h.step_leader hr hg hst) hL) hF hn
  have hth := step_remoteThread hst hl
  have hn := h.step_nextIndex_eq hr hg hst hl
  cases h.inStep y hy with
  | waiting h' hpre hnext =>
    have hF := h.step_followerLog hr hst hy fun k _ hk => by
      rw [h'] at hk
      cases hk
    exact .waiting (hth.trans h') (hF ▸ hpre.trans hL) (by rw [hn, hF, hnext])
  | @called k m c h' hc hsrc hdst ht hp hpre hnext hb =>
    by_cases ha : a = .aeHandle k
    · subst ha hdst
      exact h.step_handled hst h' hc hsrc ht hpre hnext hb
    · have hF := h.step_followerLog hr hst hy fun j hj hj' => by
        rw [h'] at hj'
        cases hj'
        exact ha hj
      obtain ⟨ph, hc', hph⟩ := step_call hst hc
      have hnone : ph.resp? = none := by
        rcases hph with he | ⟨ha', -⟩
        · exact he.trans hp
        · exact absurd ha' ha
      exact .called (hth.trans h') hc' hsrc hdst ht hnone (hF ▸ hpre.trans hL)
        (by rw [hn, hF, hnext]) (by rw [hF]; exact hb.mono hL)
  | @answered k p m c resp h' hc hsrc hdst hp hok ht hlast hcom hF hnext hb =>
    have ha : a ≠ .aeHandle k := by
      rintro rfl
      have hsent := aeHandle_sent hst hc
      rw [hp] at hsent
      cases hsent
    have hF' := h.step_followerLog hr hst hy fun j hj hj' => by
      rw [h'] at hj'
      cases hj'
      exact ha hj
    obtain ⟨ph, hc', hph⟩ := step_call hst hc
    have hhandled : ph = .handled resp := by
      rcases hph with he | ⟨ha', -⟩
      · rw [hp] at he
        cases ph with
        | handled r => rw [Option.some.inj he]
        | built | sent => cases he
      · exact absurd ha' ha
    refine .answered (hth.trans h') hc' hsrc hdst hhandled hok ht hlast
      (hcom.trans (step_commit hst y)) ?_ (hn.trans hnext) (hb.mono hL)
    obtain ⟨l, hl⟩ := hL
    rw [hF', hF, ← hl, List.take_append_of_le_length hb.len]

theorem step_only (h : Synced x T b s) (hg : s.Through x a) (hst : s.step a = some s')
    (hlead : Leads x T s') (k : ℕ) (c : AppendEntriesCall n) (hc : s'.aeCalls[k]? = some c)
    (hp : c.phase.resp? = none) (ht : c.req.term = T) :
    c.src = x ∧ (s'.node x).remoteThread c.dst = .appendEntries k := by
  cases step_aeCalls hst hc with
  | @same c₀ ph hc₀ hph =>
    have hp₀ : c₀.phase.resp? = none := hph.symm.trans hp
    obtain ⟨hsrc, hth⟩ := h.only k c₀ hc₀ hp₀ ht
    have hl : s.remoteLoop a ≠ some (x, c₀.dst) := by
      intro hl
      rcases hg.loop_cases hst hl with ⟨-, hth'⟩ | ⟨j, rfl, hth'⟩ | ⟨j, hth'⟩
      · rw [hth] at hth'
        cases hth'
      · rw [hth] at hth'
        cases hth'
        obtain ⟨d, _, _, _, _, _, hd, hpd, -⟩ := aeReturn_eq_some hst
        obtain rfl := Option.some.inj (hc₀.symm.trans hd)
        rw [hpd] at hp₀
        cases hp₀
      · rw [hth] at hth'
        cases hth'
    exact ⟨hsrc, (step_remoteThread hst hl).trans hth⟩
  | handled => cases hp
  | @made z r hne hk hl =>
    have hz : z = x := by
      by_contra hz
      rw [hlead.follow z hz] at hl
      cases hl
    subst hk
    exact ⟨hz, hz ▸ step_made hst hc⟩

theorem step_idle (h : Synced x T b s) (hst : s.step a = some s') (hlead : Leads x T s)
    (hy : y ≠ x) (th : ClientThread n) (hth : th ∈ (s'.node y).clients) : ¬ th.Entering := by
  cases step_clients hst y hth with
  | same hmem => exact h.idle y hy th hmem
  | @new call path =>
    have hwrite : ∀ op, ¬ (onWrite op path (s.node y)).Entering := by
      intro op
      have hrole : (s.node y).isLeader = false := by
        rw [isLeader, hlead.follow y hy]
        rfl
      simp only [onWrite, hrole, Bool.not_false, if_true]
      split_ifs
      · exact id
      · exact id
    cases call with
    | _ => exact hwrite _
  | goOn hc hs =>
    have hold := h.idle y hy _ (List.mem_of_getElem? hc)
    cases hs with
    | ok | timeout => exact id
    | noLeader | led | built | append => exact absurd trivial hold

theorem step_acked (h : Synced x T b s) (hls : LeaderStep s a x (s'.node x))
    (hst : s.step a = some s') (i : ℕ) (hi : b < i)
    (hlt : (s'.node x).log.getLastCommitIndex < i) (y : Fin n) (hy : y ≠ x)
    (hnext : i < (s'.node x).nextIndex y) : y ∈ (s'.node x).pendingEntries i := by
  have hlt₀ := (step_commit hst x).trans_lt hlt
  have hold : i < (s.node x).nextIndex y → y ∈ (s'.node x).pendingEntries i := fun hn =>
    step_pending hst x i (h.acked i hi hlt₀ y hy hn)
  cases hls with
  | same hb => exact hold (by rwa [hb.nextIndex] at hnext)
  | @taken _ p m z _ _ _ _ _ _ _ hn htk =>
    rw [htk.nextIndex, Function.update_apply] at hnext
    split_ifs at hnext with hz
    · subst hz
      rcases le_or_gt i p with hp | hp
      · exact hold (by omega)
      · exact htk.pending i hp (by omega) hlt₀
    · exact hold hnext

theorem isQuorum_of_others (hn : 3 ≤ n) {Q : Finset (Fin n)} (h : ∀ y, y ≠ x → y ∈ Q) :
    IsQuorum Q := by
  have hcard : (Finset.univ.erase x).card ≤ Q.card :=
    Finset.card_le_card fun y hy => h y (Finset.ne_of_mem_erase hy)
  rw [Finset.card_erase_of_mem (Finset.mem_univ x), Finset.card_univ, Fintype.card_fin] at hcard
  unfold IsQuorum quorumSize
  omega

theorem step_all (h : Synced x T b s) (hls : LeaderStep s a x (s'.node x))
    (hst : s.step a = some s') (hn : 3 ≤ n) (i : ℕ) (hi : b < i)
    (hall : ∀ y, y ≠ x → i < (s'.node x).nextIndex y) :
    i ≤ (s'.node x).log.getLastCommitIndex := by
  have hmono := step_commit hst x
  cases hls with
  | same hb => exact (h.all hn i hi fun y hy => by rw [← hb.nextIndex]; exact hall y hy).trans hmono
  | @taken _ p m z _ _ _ hz _ _ _ hnz htk =>
    have hiz := hall z hz
    rw [htk.nextIndex, Function.update_self] at hiz
    have hold : ∀ y, y ≠ x → y ≠ z → i < (s.node x).nextIndex y := by
      intro y hy hyz
      have := hall y hy
      rwa [htk.nextIndex, Function.update_of_ne hyz] at this
    by_contra hlt
    have hlt₀ : (s.node x).log.getLastCommitIndex < i := hmono.trans_lt (not_le.1 hlt)
    rcases le_or_gt i p with hp | hp
    · -- all had acknowledged it before
      refine hlt ((h.all hn i hi fun y hy => ?_).trans hmono)
      by_cases hyz : y = z
      · rw [hyz, hnz]
        omega
      · exact hold y hy hyz
    · refine hlt (htk.quorum i hp (by omega) hlt₀ (isQuorum_of_others (x := x) hn fun y hy => ?_))
      by_cases hyz : y = z
      · rw [hyz]
        exact Finset.mem_insert_self _ _
      · exact Finset.mem_insert_of_mem (h.acked i hi hlt₀ y hy (hold y hy hyz))

/-- The logs stay in step where no election is called and the calls of the leader go through. -/
theorem step (h : Synced x T b s) (hr : (cluster n).Reach G s) (hg : s.Through x a)
    (hst : s.step a = some s') : Synced x T b s' := by
  have hnode := step_settled hr h.term (h.toLeads.not_candidate) hst hg.ne
  have hlead : Leads x T s' := ⟨fun y => (hnode y).1, (hnode x).2.trans h.leads,
    fun y hy => (hnode y).2.trans (h.follow y hy)⟩
  obtain ⟨hL, hnum⟩ := h.step_leaderLog hr hst
  have hls := h.step_leader hr hg hst
  exact ⟨hlead, hnum, h.step_commit_le hls hL, fun y hy => h.step_inStep hr hg hst hlead hy,
    h.step_only hg hst hlead, fun y hy => h.step_idle hst h.toLeads hy, h.step_acked hls hst,
    h.step_all hls hst⟩

/-- Where the logs are equal, nothing is on its way and the next index of each is the one after the
log, they are in step. -/
theorem start (h : Leads x T s) (hnum : Numbered (s.node x).log.memoryLog)
    (hc : (s.node x).log.lastCommitedIndex ≤ (s.node x).log.memoryLog.length)
    (hth : ∀ y, y ≠ x → (s.node x).remoteThread y = .waiting)
    (hlog : ∀ y, y ≠ x → (s.node y).log.memoryLog = (s.node x).log.memoryLog)
    (hnext : ∀ y, y ≠ x → (s.node x).nextIndex y = (s.node x).log.memoryLog.length + 1)
    (hcalls : ∀ c ∈ s.aeCalls, c.req.term = T → c.phase.resp? ≠ none)
    (hidle : ∀ y, y ≠ x → ∀ th ∈ (s.node y).clients, ¬ th.Entering) (hn : 3 ≤ n) :
    Synced x T (s.node x).log.memoryLog.length s := by
  refine ⟨h, hnum, hc, fun y hy => ?_, fun k c hk hp ht => ?_, hidle, fun i hi _ y hy hlt => ?_,
    fun _ i hi hall => ?_⟩
  · exact .waiting (hth y hy) (by rw [hlog y hy]) (by rw [hlog y hy, hnext y hy])
  · exact absurd hp (hcalls c (List.mem_of_getElem? hk) ht)
  · rw [hnext y hy] at hlt
    omega
  · obtain ⟨y, hy⟩ : ∃ y, y ≠ x := by
      have : Nontrivial (Fin n) := Fin.nontrivial_iff_two_le.2 (by omega)
      exact exists_ne x
    have := hall y hy
    rw [hnext y hy] at this
    omega

end Synced

end Cluster

end RaftFS
