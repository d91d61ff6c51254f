import RaftFS.Proofs.Threads

/-!
# Moves

A change is quiet or it is one of six moves. What is said of terms, votes and logs is shown to
survive the quiet steps at once, and then each move and each new call (`reach_inv`).
-/

namespace RaftFS

variable {n : ℕ}

namespace Cluster

/-- The parts of a node that other nodes may learn of are the same. -/
structure SameCore (nd nd' : Node n) : Prop where
  currentTerm : nd'.currentTerm = nd.currentTerm
  currentRole : nd'.currentRole = nd.currentRole
  voteFor : nd'.voteFor = nd.voteFor
  votePool : nd'.votePool = nd.votePool
  nextIndex : nd'.nextIndex = nd.nextIndex
  log : nd'.log = nd.log

theorem SameCore.rfl {nd : Node n} : SameCore nd nd := ⟨Eq.refl _, Eq.refl _, Eq.refl _, Eq.refl _,
  Eq.refl _, Eq.refl _⟩

/-- A node applied a committed entry of its log. -/
def Applies (s : Cluster n) (ev : Event n) : Prop :=
  ∃ (x : Fin n) (i : ℕ) (e : Entry) (rt : Option Bool), ev = .applied x i e rt ∧
    i ≤ (s.node x).log.getLastCommitIndex ∧ (s.node x).log.getEntry i = some e

/-- Nothing happens but that threads move, a call is sent, or an entry is applied. -/
structure Quiet (s t : Cluster n) : Prop where
  core : ∀ x, SameCore (s.node x) (t.node x)
  aeCalls : ∀ c ∈ t.aeCalls, ∃ c' ∈ s.aeCalls, ∃ ph, c = { c' with phase := ph } ∧
    ph.resp? = c'.phase.resp?
  rvCalls : ∀ c ∈ t.rvCalls, ∃ c' ∈ s.rvCalls, ∃ ph, c = { c' with phase := ph } ∧
    ph.resp? = c'.phase.resp?
  history : ∀ ev ∈ t.history, ev ∈ s.history ∨ Applies s ev

theorem Quiet.refl (s : Cluster n) : Quiet s s where
  core _ := .rfl
  aeCalls c hc := ⟨c, hc, _, rfl, rfl⟩
  rvCalls c hc := ⟨c, hc, _, rfl, rfl⟩
  history _ h := .inl h

theorem Quiet.setNode {s : Cluster n} {x : Fin n} {nd : Node n} (h : SameCore (s.node x) nd) :
    Quiet s (s.setNode x nd) :=
  { Quiet.refl s with core := forall_update (fun _ => .rfl) h }

/-- A change that is not quiet. -/
inductive Move (s : Cluster n) : Action n → Cluster n → Prop
  | timeout {x : Fin n} (h : (s.node x).currentRole ≠ .kLeader) :
    Move s (.leaderTimeout x) (s.setNode x ((s.node x).startLeaderElection x))
  | aeHandle {k : ℕ} {c : AppendEntriesCall n} {nd : Node n} {resp : AppendEntriesResponse}
    (hc : s.aeCalls[k]? = some c) (hp : c.phase = .sent)
    (h : (s.node c.dst).onAppendEntries c.req = some (nd, resp)) :
    Move s (.aeHandle k) ((s.setNode c.dst nd).setAECall k { c with phase := .handled resp })
  | aeTake {a : Action n} {k : ℕ} {c : AppendEntriesCall n} {resp : AppendEntriesResponse}
    {nd : Node n} {commit : Option ℕ} {next : Node.Next} (hc : s.aeCalls[k]? = some c)
    (ha : a = .aeReturn k ∧ c.phase = .handled resp ∨ a = .aeNotConnected k ∧ resp = {})
    (h : (s.node c.src).onAppendEntriesResponse c.dst c.req resp = some (nd, commit, next)) :
    Move s a ((s.setNode c.src nd).log
      (commit.map fun N => .committed c.src nd.currentTerm N nd.log.memoryLog))
  | rvHandle {k : ℕ} {c : RequestVoteCall n} (hc : s.rvCalls[k]? = some c) (hp : c.phase = .sent) :
    Move s (.rvHandle k) ((s.setNode c.dst ((s.node c.dst).onRequestVote c.req).1).setRVCall k
      { c with phase := .handled ((s.node c.dst).onRequestVote c.req).2 })
  | rvTake {a : Action n} {k : ℕ} {c : RequestVoteCall n} {resp : ReqVoteResponse}
    {nd : Node n} {won : Bool} {next : Node.Next} (hc : s.rvCalls[k]? = some c)
    (ha : a = .rvReturn k ∧ c.phase = .handled resp ∨ a = .rvNotConnected k ∧ resp = {})
    (h : (s.node c.src).onRequestVoteResponse c.src c.dst resp = (nd, won, next)) :
    Move s a ((s.setNode c.src nd).log
      (if won then some (.becameLeader c.src nd.currentTerm nd.log.memoryLog) else none))
  | append {x : Fin n} {c : ℕ} {e : Entry} (h : (s.node x).clients[c]? = some (.built e)) :
    Move s (.clientStep x c) (s.setNode x { s.node x with
      clients := (s.node x).clients.set c (.waiting ((s.node x).log.append e).2)
      log := ((s.node x).log.append e).1 })

theorem Change.quiet_or_move {s t : Cluster n} {a : Action n} (h : s.Change a t)
    (hs : ∀ x, GateOk (s.node x)) : Quiet s t ∨ Move s a t := by
  cases h with
  | timeout h => exact .inr (.timeout h)
  | wake | aeFail | rvFail => exact .inl (Quiet.refl s)
  | @aeSend k c hc hp =>
    refine .inl { Quiet.refl s with aeCalls := forall_set (Quiet.refl s).aeCalls ?_ }
    exact ⟨c, List.mem_of_getElem? hc, _, rfl, by rw [hp]; rfl⟩
  | aeHandle hc hp h => exact .inr (.aeHandle hc hp h)
  | aeTake hc ha h => exact .inr (.aeTake hc ha h)
  | @rvSend k c hc hp =>
    refine .inl { Quiet.refl s with rvCalls := forall_set (Quiet.refl s).rvCalls ?_ }
    exact ⟨c, List.mem_of_getElem? hc, _, rfl, by rw [hp]; rfl⟩
  | rvHandle hc hp => exact .inr (.rvHandle hc hp)
  | rvTake hc ha h => exact .inr (.rvTake hc ha h)
  | clientRequest | fsWake => exact .inl (Quiet.setNode ⟨rfl, rfl, rfl, rfl, rfl, rfl⟩)
  | clientStep h =>
    obtain ⟨th, th', log, hth, hs, rfl⟩ := Node.onMetaOperation_cases h
    cases hs with
    | append => exact .inr (.append hth)
    | _ => exact .inl (Quiet.setNode ⟨rfl, rfl, rfl, rfl, rfl, rfl⟩)
  | @fsStep x env nd applied h =>
    obtain ⟨fs, th, _, rfl, -, ha⟩ := Node.fsUpdateLoop_cases h
    have hq : Quiet s (s.setNode x { s.node x with fs := fs, fsThread := th }) :=
      Quiet.setNode ⟨rfl, rfl, rfl, rfl, rfl, rfl⟩
    refine .inl ⟨hq.core, hq.aeCalls, hq.rvCalls, fun ev hev => ?_⟩
    cases ha with
    | @apply i _ e rt hth he =>
      rcases List.mem_cons.1 hev with rfl | hev
      · exact .inr ⟨x, i, e, rt, rfl, hs x i (by rw [hth]; rfl), he⟩
      · exact .inl hev
    | _ => exact .inl hev

/-- What holds at the start and survives quiet steps, the moves allowed and new calls holds in
every state reached. -/
theorem reach_inv {G : Runs.Guard (Cluster n) (Action n)} {I : Cluster n → Prop}
    (start : ∀ env junk, I (init env junk)) (quiet : ∀ s t, I s → Quiet s t → I t)
    (move : ∀ s a t, (cluster n).Reach G s → G s a → I s → s.Move a t → I t)
    (appendEntries : ∀ s x r h, I s → (s.node x).currentRole = .kLeader →
      I (s.callAppendEntries x r h))
    (requestVote : ∀ s x r h, I s → (s.node x).currentRole = .kCandidate →
      I (s.callRequestVote x r h)) {s : Cluster n} (h : (cluster n).Reach G s) : I s := by
  refine h.inv ?_ ?_
  · rintro _ ⟨env, junk, rfl⟩
    exact start env junk
  · intro s a s' hs hI hg hst
    obtain ⟨t, hch, hre⟩ := step_changes hst
    have ht : I t := (hch.quiet_or_move (reach_gateOk hs)).elim (quiet s t hI) (move s a t hs hg hI)
    cases hre with
    | none => exact ht
    | wait => exact quiet _ _ ht (Quiet.setNode ⟨rfl, rfl, rfl, rfl, rfl, rfl⟩)
    | appendEntries h hl => exact appendEntries _ _ _ h ht hl
    | requestVote h hl => exact requestVote _ _ _ h ht hl

end Cluster

end RaftFS
