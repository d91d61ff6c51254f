import RaftFS.Proofs.Acks
import RaftFS.Proofs.Committed
import RaftFS.Proofs.Leadership
import Mathlib.Order.Interval.Finset.Nat

/-!
# The leader's gate

A leader's `FSUpdateLoop` lets an index through that a quorum is on record for. Who is on record is
what this node has counted as a leader, and the commit index may have come from elsewhere: from the
leaders it followed, or from a later index that was brought to a quorum. Where it has not, every
index that is committed and not applied has its quorum on record, and one pass applies them all
(`gate_open`). A new leader that has followed a commit waits at the gate (`gate_shut`).
-/

namespace RaftFS

variable {n : ℕ}

namespace Node

/-- A quorum is on record for every index after `lo` up to `hi`. -/
def OnRecord (nd : Node n) (lo hi : ℕ) : Prop :=
  ∀ i ∈ Finset.Ioc lo hi, quorumSize n ≤ (nd.pendingEntries i).card

instance (nd : Node n) (lo hi : ℕ) : Decidable (nd.OnRecord lo hi) :=
  inferInstanceAs (Decidable (∀ i ∈ Finset.Ioc lo hi, _))

variable {nd nd' : Node n} {lo mid hi : ℕ}

theorem OnRecord.trans (h : nd.OnRecord lo mid) (h' : nd.OnRecord mid hi) : nd.OnRecord lo hi := by
  intro i hi
  rw [Finset.mem_Ioc] at hi
  rcases le_or_gt i mid with hm | hm
  · exact h i (Finset.mem_Ioc.2 ⟨hi.1, hm⟩)
  · exact h' i (Finset.mem_Ioc.2 ⟨hm, hi.2⟩)

theorem OnRecord.mono (h : nd.OnRecord lo hi)
    (hp : ∀ i, nd.pendingEntries i ⊆ nd'.pendingEntries i) : nd'.OnRecord lo hi :=
  fun i hi => (h i hi).trans (Finset.card_le_card (hp i))

end Node

/-- The pass is over, and this is what it has counted to. -/
def FSThread.ended? : FSThread → Option ℕ
  | .finish c => some c
  | _ => none

namespace Cluster

open Node

/-- A leader's commit index does not get past an index that is not applied and has no quorum on
record: not when it becomes leader, not with the commit of a later index, not by following another
leader of its term, and not by a pass that takes the namespace's index back. -/
def KeepsGate (s : Cluster n) : Action n → Prop
  | .rvReturn k => ∀ c ∈ s.rvCalls[k]?, ∀ resp ∈ c.phase.resp?, Counts resp (s.node c.src) →
      quorumSize n ≤ (insert c.dst (s.node c.src).votePool).card →
        (s.node c.src).OnRecord (s.node c.src).fs.commitedIndex
          (s.node c.src).log.lastCommitedIndex
  | .aeReturn k => ∀ c ∈ s.aeCalls[k]?, ∀ resp ∈ c.phase.resp?, resp.success = true →
      resp.term = (s.node c.src).currentTerm →
      ∀ last ∈ (broughtToQuorum c.dst c.req (s.node c.src)).getLast?,
        last.index ≤ (s.node c.src).log.getLastLogIndex →
        ∀ i ∈ Finset.Ioc (s.node c.src).log.lastCommitedIndex last.index,
          (∃ e ∈ broughtToQuorum c.dst c.req (s.node c.src), e.index = i) ∨
            quorumSize n ≤ ((s.node c.src).pendingEntries i).card
  | .aeHandle k => ∀ c ∈ s.aeCalls[k]?, (s.node c.dst).currentRole = .kLeader →
      c.req.term = (s.node c.dst).currentTerm →
      ∀ r ∈ storeEntries c.req (s.node c.dst).log,
        c.req.leaderCommitIndex ≤ r.1.getLastLogIndex →
        (s.node c.dst).OnRecord (s.node c.dst).log.lastCommitedIndex c.req.leaderCommitIndex
  | .fsStep x _ => (s.node x).currentRole = .kLeader → ∀ c ∈ (s.node x).fsThread.ended?,
      (s.node x).OnRecord c (s.node x).fs.commitedIndex
  | _ => True

instance (s : Cluster n) (a : Action n) : Decidable (KeepsGate s a) :=
  Action.decidable (Q := True) (fun
    | .rvReturn k => some (inferInstanceAs (Decidable (∀ c ∈ s.rvCalls[k]?, ∀ resp ∈ c.phase.resp?,
        _ → _ → _)))
    | .aeReturn k => some (inferInstanceAs (Decidable (∀ c ∈ s.aeCalls[k]?, ∀ resp ∈ c.phase.resp?,
        _ → _ → ∀ last ∈ (broughtToQuorum c.dst c.req (s.node c.src)).getLast?, _ →
          ∀ i ∈ Finset.Ioc _ last.index,
            (∃ e ∈ broughtToQuorum c.dst c.req (s.node c.src), _) ∨ _)))
    | .aeHandle k => some (inferInstanceAs (Decidable (∀ c ∈ s.aeCalls[k]?, _ → _ →
        ∀ r ∈ storeEntries c.req (s.node c.dst).log, _ → _)))
    | .fsStep x _ => some (inferInstanceAs (Decidable (_ → ∀ c ∈ (s.node x).fsThread.ended?, _)))
    | _ => none) a

/-- A leader has a quorum on record for every index that is committed and not applied. -/
def GateOpen (nd : Node n) : Prop :=
  nd.currentRole = .kLeader → nd.OnRecord nd.fs.commitedIndex nd.log.lastCommitedIndex

theorem GateOpen.of_same {nd nd' : Node n} (h : GateOpen nd)
    (hr : nd'.currentRole = .kLeader → nd.currentRole = .kLeader)
    (hp : nd'.pendingEntries = nd.pendingEntries) (hfs : nd'.fs = nd.fs)
    (hl : nd'.log.lastCommitedIndex = nd.log.lastCommitedIndex) : GateOpen nd' := by
  intro hlead
  rw [hfs, hl]
  exact (h (hr hlead)).mono fun i => by rw [hp]

theorem GateOpen.update {s : Cluster n} {x : Fin n} {nd : Node n}
    (hI : ∀ y, GateOpen (s.node y)) (h : GateOpen nd) (y : Fin n) :
    GateOpen (Function.update s.node x nd y) :=
  forall_update (P := fun _ => GateOpen) hI h y

theorem GateOpen.onAppendEntries {nd nd' : Node n} {req : AppendEntriesRequest n}
    {resp : AppendEntriesResponse} (h : GateOpen nd)
    (hap : nd.onAppendEntries req = some (nd', resp))
    (hg : nd.currentRole = .kLeader → req.term = nd.currentTerm →
      ∀ r ∈ storeEntries req nd.log, req.leaderCommitIndex ≤ r.1.getLastLogIndex →
        nd.OnRecord nd.log.lastCommitedIndex req.leaderCommitIndex) : GateOpen nd' := by
  rcases onAppendEntries_cases hap with ⟨-, rfl, -⟩ | ⟨role, _, _, log, log', _, ha, rfl⟩
  · exact h
  · intro hlead
    have hrole := ha.role
    rw [show role = .kLeader from hlead] at hrole
    split_ifs at hrole with hd
    obtain ⟨hle, -⟩ := not_or.1 hd
    have hterm : req.term = nd.currentTerm := (not_lt.1 hle).antisymm ha.term_le
    have hold : log.lastCommitedIndex = nd.log.lastCommitedIndex :=
      (storeEntries_laid ha.term_le ha.stored).1
    have hopen := h hrole.symm
    rcases ha.commit with rfl | ⟨hset, -, hin, -⟩
    · exact fun i hi => hopen i (hold ▸ hi)
    · have hnew := hg hrole.symm hterm _ ha.stored hin
      exact fun i hi => (hopen.trans hnew) i (hset ▸ hi)

theorem GateOpen.recordAck {nd nd' : Node n} {id : Fin n} {req : AppendEntriesRequest n}
    {resp : AppendEntriesResponse} {commit : Option ℕ} (h : GateOpen nd)
    (hr : nd.recordAck id req resp = some (nd', commit))
    (hg : ∀ last ∈ (broughtToQuorum id req nd).getLast?, last.index ≤ nd.log.getLastLogIndex →
      ∀ i ∈ Finset.Ioc nd.log.lastCommitedIndex last.index,
        (∃ e ∈ broughtToQuorum id req nd, e.index = i) ∨
          quorumSize n ≤ (nd.pendingEntries i).card) : GateOpen nd' := by
  have hpend := recordAck_pending hr
  have hsub : ∀ i, nd.pendingEntries i ⊆ nd'.pendingEntries i := by
    intro i
    rw [hpend]
    exact subset_countAcks _ _ _ _ _ i
  obtain ⟨_, log, _, rfl, -, -, hc⟩ := recordAck_cases hr
  intro hlead
  have hopen := (h hlead).mono hsub
  rcases hc with ⟨-, rfl⟩ | ⟨last, hlast, -, hset, hin⟩
  · exact hopen
  · refine hopen.trans fun i hi => ?_
    rw [hset] at hi
    rcases hg last hlast hin i hi with ⟨e, he, rfl⟩ | hq
    · obtain ⟨hmem, hcount⟩ := List.mem_filter.1 he
      simp only [decide_eq_true_eq] at hcount
      rw [hpend, countAcks_pending, if_pos ⟨hcount.1, e, hmem, rfl⟩]
      exact hcount.2
    · exact hq.trans (Finset.card_le_card (hsub i))

theorem GateOpen.fsUpdateLoop {nd nd' : Node n} {env : Ptr → Alloc}
    {applied : Option (ℕ × Entry × Option Bool)} (h : GateOpen nd)
    (hfs : nd.fsUpdateLoop env = some (nd', applied))
    (hg : nd.currentRole = .kLeader → ∀ c ∈ nd.fsThread.ended?, nd.OnRecord c nd.fs.commitedIndex) :
    GateOpen nd' := by
  obtain ⟨fs, th, m, rfl, hm, hs⟩ := fsUpdateLoop_cases hfs
  intro hlead
  simp only [hm]
  cases hs with
  | finish hth => exact (hg hlead _ (by rw [hth]; rfl)).trans (h hlead)
  | _ => exact h hlead

theorem Change.gateOpen {s t : Cluster n} {a : Action n} (h : s.Change a t) (hg : KeepsGate s a)
    (hI : ∀ x, GateOpen (s.node x)) : ∀ x, GateOpen (t.node x) := by
  cases h with
  | wake | aeSend | aeFail | rvSend | rvFail => exact hI
  | @timeout y h =>
    refine GateOpen.update hI fun hlead => ?_
    obtain ⟨-, hr, -⟩ := (s.node y).startLeaderElection_office y
    rw [hr] at hlead
    cases hlead
  | @aeHandle k c nd resp hc hp hap =>
    exact GateOpen.update hI ((hI c.dst).onAppendEntries hap (hg c hc))
  | @aeTake a k c resp nd commit next hc ha hap =>
    refine GateOpen.update hI ?_
    rcases onAppendEntriesResponse_cases hap with ⟨ht, hs, -, hr⟩ | ⟨-, -, rfl⟩ | ⟨-, _, rfl, -⟩
    · rcases ha with ⟨rfl, hp⟩ | ⟨-, rfl⟩
      · exact (hI c.src).recordAck hr (hg c hc resp (by rw [hp]; rfl) hs ht)
      · cases hs
    · intro hlead
      cases hlead
    · exact (hI c.src).of_same id rfl rfl rfl
  | @rvHandle k c hc hp =>
    refine GateOpen.update hI ?_
    obtain ⟨role, _, _, _, he, hrole, -⟩ := (s.node c.dst).onRequestVote_cases c.req
    rw [he]
    refine (hI c.dst).of_same (fun hlead => ?_) rfl rfl rfl
    rcases hrole with ⟨-, rfl⟩ | ⟨-, rfl, -⟩
    · cases hlead
    · exact hlead
  | @rvTake a k c resp nd won next hc ha hap =>
    refine GateOpen.update hI ?_
    obtain ⟨_, _, _, _, _, _, he, hw⟩ := onRequestVoteResponse_cases c.src c.dst resp (s.node c.src)
    rw [hap] at he
    obtain ⟨rfl, rfl, rfl⟩ := he
    rcases hw with ⟨-, hcount, -, rfl, hq, -⟩ | ⟨-, rfl, -⟩
    · rcases ha with ⟨rfl, hp⟩ | ⟨-, rfl⟩
      · exact fun _ => hg c hc resp (by rw [hp]; rfl) hcount hq
      · cases hcount.2.1
    · exact (hI c.src).of_same id rfl rfl rfl
  | clientRequest | fsWake => exact GateOpen.update hI ((hI _).of_same id rfl rfl rfl)
  | clientStep h =>
    refine GateOpen.update hI ?_
    obtain ⟨_, _, log, -, hs, rfl⟩ := onMetaOperation_cases h
    refine (hI _).of_same id rfl rfl ?_
    cases hs with
    | _ => rfl
  | fsStep h => exact GateOpen.update hI ((hI _).fsUpdateLoop h hg)

theorem reach_gateOpen {s : Cluster n} (h : (cluster n).Reach KeepsGate s) (x : Fin n) :
    GateOpen (s.node x) := by
  refine h.inv (I := fun s => ∀ x, GateOpen (s.node x)) ?_ ?_ x
  · rintro _ ⟨env, junk, rfl⟩ x hlead
    cases hlead
  · intro s a s' _ hI hg hst y
    obtain ⟨t, hch, hr⟩ := step_changes hst
    obtain ⟨f, hf⟩ := hr.node y
    rw [hf]
    exact (hch.gateOpen hg hI y).of_same id rfl rfl rfl

section Pass

/-- Only `FSUpdateLoop` of `x` takes steps. -/
def FSOf (x : Fin n) (_ : Cluster n) : Action n → Prop
  | .fsStep y _ => y = x
  | _ => False

instance (x : Fin n) (s : Cluster n) (a : Action n) : Decidable (FSOf x s a) :=
  Action.decidable (Q := False) (fun
    | .fsStep y _ => some (inferInstanceAs (Decidable (y = x)))
    | _ => none) a

/-- Where a pass is that began with the namespace's index `lo` and the commit index `hi`, when the
namespace has the index `m` and the indices `is` have been applied, after those in `old`. -/
def InPass (lo hi : ℕ) (old : List ℕ) : FSThread → (m : ℕ) → (is : List ℕ) → Prop
  | .test, m, is => m = lo ∧ is = old ∨ m = hi
  | .blocking, m, _ | .blocked, m, _ => m = hi
  | .loop i c, m, is => m = lo ∧ lo < i ∧ i ≤ hi + 1 ∧ (c + 1 = i ∨ i = lo + 1 ∧ lo < hi) ∧
      is = old ++ List.range' (lo + 1) (i - 1 - lo)
  | .gateLeader i c, m, is | .gatePending i c, m, is | .apply i c, m, is => m = lo ∧ lo < i ∧
      i ≤ hi ∧ (c + 1 = i ∨ i = lo + 1 ∧ lo < hi) ∧
      is = old ++ List.range' (lo + 1) (i - 1 - lo)
  | .gateFollower _ _, _, _ => False
  | .finish c, _, is => c = hi ∧ is = old ++ List.range' (lo + 1) (hi - lo)

theorem InPass.fsUpdateLoop {nd nd' : Node n} {lo : ℕ} {old is : List ℕ} {env : Ptr → Alloc}
    {applied : Option (ℕ × Entry × Option Bool)} (hle : lo ≤ nd.log.getLastCommitIndex)
    (hlead : nd.currentRole = .kLeader)
    (hopen : ∀ i, lo < i → i ≤ nd.log.getLastCommitIndex →
      quorumSize n ≤ (nd.pendingEntries i).card)
    (h : InPass lo nd.log.getLastCommitIndex old nd.fsThread nd.fs.commitedIndex is)
    (hfs : nd.fsUpdateLoop env = some (nd', applied)) :
    InPass lo nd.log.getLastCommitIndex old nd'.fsThread nd'.fs.commitedIndex
      (is ++ (applied.map (·.1)).toList) := by
  have hleader : nd.isLeader = true := isLeader_eq_true.2 hlead
  unfold Node.fsUpdateLoop at hfs
  rcases hth : nd.fsThread with _ | _ | _ | ⟨i, c⟩ | ⟨i, c⟩ | ⟨i, c⟩ | ⟨i, c⟩ | ⟨i, c⟩ | c
  all_goals
    rw [hth] at h
    simp only [hth, hleader, if_true] at hfs
  · -- the test: a pass begins only where there is something to apply
    split_ifs at hfs with hne
    all_goals
      obtain ⟨rfl, rfl⟩ := Prod.mk.inj (Option.some.inj hfs)
      simp only [Option.map_none, Option.toList_none, List.append_nil]
    · obtain ⟨rfl, rfl⟩ := h.resolve_right (Ne.symm hne)
      exact ⟨rfl, Nat.lt_succ_self _, by omega, .inr ⟨rfl, by omega⟩, by simp⟩
    · exact (not_not.1 hne).symm
  · obtain ⟨rfl, rfl⟩ := Prod.mk.inj (Option.some.inj hfs)
    exact h
  · cases hfs
  · split_ifs at hfs with hi
    all_goals
      obtain ⟨rfl, rfl⟩ := Prod.mk.inj (Option.some.inj hfs)
      simp only [Option.map_none, Option.toList_none, List.append_nil]
      obtain ⟨hm, hlt, hle', hc, his⟩ := h
    · exact ⟨hm, hlt, hi, hc, his⟩
    · obtain rfl : i = nd.log.getLastCommitIndex + 1 := by omega
      refine ⟨by omega, ?_⟩
      rw [his, Nat.add_sub_cancel]
  · obtain ⟨rfl, rfl⟩ := Prod.mk.inj (Option.some.inj hfs)
    simpa [InPass] using h
  · -- the gate is open
    obtain ⟨hm, hlt, hle', hc, his⟩ := h
    rw [if_pos (hopen i hlt hle')] at hfs
    obtain ⟨rfl, rfl⟩ := Prod.mk.inj (Option.some.inj hfs)
    simpa [InPass] using ⟨hm, hlt, hle', hc, his⟩
  · exact h.elim
  · obtain ⟨hm, hlt, hle', -, his⟩ := h
    simp only [Option.bind_eq_bind, Option.bind_eq_some_iff, Prod.exists, Option.pure_def] at hfs
    obtain ⟨e, -, fs, rt, hap, hfs⟩ := hfs
    obtain ⟨rfl, rfl⟩ := Prod.mk.inj (Option.some.inj hfs)
    refine ⟨(applyEntry_commitedIndex hap).trans hm, by omega, by omega, .inl rfl, ?_⟩
    simp only [Option.map_some, Option.toList_some, his, List.append_assoc]
    have hlen : i + 1 - 1 - lo = i - 1 - lo + 1 := by omega
    have hlast : lo + 1 + (i - 1 - lo) = i := by omega
    rw [hlen, List.range'_1_concat, hlast]
  · obtain ⟨rfl, rfl⟩ := Prod.mk.inj (Option.some.inj hfs)
    exact .inr h.1

/-- The pass of a leader that takes steps alone. -/
structure Pass (x : Fin n) (s t : Cluster n) : Prop where
  currentRole : (t.node x).currentRole = (s.node x).currentRole
  log : (t.node x).log = (s.node x).log
  pending : (t.node x).pendingEntries = (s.node x).pendingEntries
  place : InPass (s.node x).fs.commitedIndex (s.node x).log.getLastCommitIndex
    (appliedIndices x s.history) (t.node x).fsThread (t.node x).fs.commitedIndex
    (appliedIndices x t.history)

theorem step_fsStep {s s' : Cluster n} {x : Fin n} {env : Ptr → Alloc}
    (h : s.step (.fsStep x env) = some s') :
    ∃ applied, (s.node x).fsUpdateLoop env = some (s'.node x, applied) ∧
      appliedIndices x s'.history = appliedIndices x s.history ++ (applied.map (·.1)).toList := by
  obtain ⟨⟨nd, applied⟩, hfs, h⟩ := Option.bind_eq_some_iff.1 h
  obtain rfl := Option.some.inj h
  refine ⟨applied, ?_, ?_⟩
  · simp only [log_node, setNode_node, Function.update_self]
    exact hfs
  · rcases applied with _ | ⟨i, e, rt⟩
    · simp
    · simp [appliedIndices]

theorem Pass.later {s t : Cluster n} {x : Fin n} (hr : (s.node x).currentRole = .kLeader)
    (hw : (s.node x).fs.commitedIndex ≤ (s.node x).log.getLastCommitIndex)
    (ho : ∀ i, (s.node x).fs.commitedIndex < i → i ≤ (s.node x).log.getLastCommitIndex →
      quorumSize n ≤ ((s.node x).pendingEntries i).card)
    (hth : (s.node x).fsThread = .test) (h : (cluster n).Later (FSOf x) s t) : Pass x s t := by
  refine h.inv (I := Pass x s) ⟨rfl, rfl, rfl, ?_⟩ ?_
  · rw [hth]
    exact .inl ⟨rfl, rfl⟩
  · intro t a t' hI hg hst
    obtain ⟨env, rfl⟩ : ∃ env, a = .fsStep x env := by
      cases a with
      | fsStep y env => exact ⟨env, by rw [show y = x from hg]⟩
      | _ => exact hg.elim
    obtain ⟨applied, hfs, happ⟩ := step_fsStep hst
    have hplace := hI.place
    obtain ⟨fs, th, _, hnode, -⟩ := fsUpdateLoop_cases hfs
    rw [← hI.log] at hplace hw ho
    rw [← hI.pending] at ho
    have hnext := hplace.fsUpdateLoop hw (hI.currentRole.trans hr) ho hfs
    rw [hI.log, ← happ] at hnext
    refine ⟨?_, ?_, ?_, hnext⟩
    · rw [hnode, ← hI.currentRole]
    · rw [hnode, ← hI.log]
    · rw [hnode, ← hI.pending]

/-- A bound on the steps to the end of the pass, where the commit index is `hi`. -/
def passLeft (hi : ℕ) : FSThread → ℕ
  | .test => 5 * (hi + 2) + 1
  | .loop i _ => 5 * (hi + 2 - i) + 1
  | .gateLeader i _ => 5 * (hi + 1 - i) + 5
  | .gatePending i _ => 5 * (hi + 1 - i) + 4
  | .gateFollower i _ => 5 * (hi + 1 - i) + 3
  | .apply i _ => 5 * (hi + 1 - i) + 2
  | .blocking => 1
  | .blocked | .finish _ => 0

theorem passLeft_lt {nd nd' : Node n} {env : Ptr → Alloc}
    {applied : Option (ℕ × Entry × Option Bool)} (hne : ∀ c, nd.fsThread ≠ .finish c)
    (hfs : nd.fsUpdateLoop env = some (nd', applied)) :
    passLeft nd.log.getLastCommitIndex nd'.fsThread <
      passLeft nd.log.getLastCommitIndex nd.fsThread := by
  unfold Node.fsUpdateLoop at hfs
  cases hth : nd.fsThread with
  | blocked =>
    rw [hth] at hfs
    cases hfs
  | finish c => exact absurd hth (hne c)
  | apply i c =>
    simp only [hth, Option.bind_eq_bind, Option.bind_eq_some_iff, Prod.exists,
      Option.pure_def] at hfs
    obtain ⟨e, -, fs, rt, -, hfs⟩ := hfs
    obtain ⟨rfl, -⟩ := Prod.mk.inj (Option.some.inj hfs)
    simp only [passLeft]
    omega
  | blocking =>
    simp only [hth] at hfs
    obtain ⟨rfl, -⟩ := Prod.mk.inj (Option.some.inj hfs)
    simp [passLeft]
  | test | loop | gateLeader | gatePending | gateFollower =>
    simp only [hth] at hfs
    split_ifs at hfs
    all_goals
      obtain ⟨rfl, -⟩ := Prod.mk.inj (Option.some.inj hfs)
      simp only [passLeft]
      omega

/-- A pass comes to its end, or to a step that has no result. -/
theorem exists_passed (x : Fin n) (env : Ptr → Alloc) (t : Cluster n) :
    ∃ t', (cluster n).Later (FSOf x) t t' ∧ ((∃ c, (t'.node x).fsThread = .finish c) ∨
      t'.step (.fsStep x env) = none) := by
  refine Runs.Sys.exists_later
    (μ := fun u => passLeft (u.node x).log.getLastCommitIndex (u.node x).fsThread) (fun u => ?_) t
  by_cases hend : ∃ c, (u.node x).fsThread = .finish c
  · exact .inl (.inl hend)
  · cases hst : u.step (.fsStep x env) with
    | none => exact .inl (.inr rfl)
    | some u' =>
      obtain ⟨applied, hfs, -⟩ := step_fsStep hst
      have hlt := passLeft_lt (fun c hc => hend ⟨c, hc⟩) hfs
      obtain ⟨_, _, _, hnode, -⟩ := fsUpdateLoop_cases hfs
      have hlog : (u'.node x).log = (u.node x).log := by rw [hnode]
      exact .inr ⟨.fsStep x env, u', rfl, hst, hlog.symm ▸ hlt⟩

end Pass

end Cluster

open Cluster

end RaftFS
