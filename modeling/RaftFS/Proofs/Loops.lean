import RaftFS.Timers
import RaftFS.Proofs.Leadership

/-!
# The remote loops

A step moves the `RemoteHostLoop` that takes it and no other (`step_goes`). A loop in a call of
`AppendEntries` is moved by the return of that call or by its failure, and one that waits is moved
by its waking up (`loop_cases`).
-/

namespace RaftFS

variable {n : ℕ}

namespace Cluster

variable {s s' t : Cluster n} {a : Action n} {x r : Fin n}

/-- How the loop of `x` for `r` goes on. -/
inductive Goes (t : Cluster n) (x r : Fin n) : Cluster n → Prop
  | wait : Goes t x r (t.setThread x r .waiting)
  | appendEntries (h : x ≠ r) (hl : (t.node x).currentRole = .kLeader) :
    Goes t x r (t.callAppendEntries x r h)
  | requestVote (h : x ≠ r) (hl : (t.node x).currentRole = .kCandidate) :
    Goes t x r (t.callRequestVote x r h)

theorem remoteHostLoop_goes (t : Cluster n) (x r : Fin n) (h : x ≠ r) :
    t.Goes x r (t.remoteHostLoop x r h) := by
  unfold remoteHostLoop
  split
  · exact .appendEntries h ‹_›
  · exact .wait
  · exact .requestVote h ‹_›

theorem goOn_goes (t : Cluster n) (x r : Fin n) (h : x ≠ r) (next : Node.Next) :
    t.Goes x r (t.goOn x r h next) := by
  cases next with
  | wait => exact .wait
  | goOn => exact remoteHostLoop_goes t x r h

/-- A step changes one node or one call, and then the loop that takes it goes on. -/
def StepGoes (s : Cluster n) (a : Action n) (s' : Cluster n) : Prop :=
  ∃ t, s.Change a t ∧ match s.remoteLoop a with
    | some (x, r) => t.Goes x r s'
    | none => s' = t

theorem StepGoes.loop (hl : s.remoteLoop a = some (x, r)) (hc : s.Change a t)
    (hg : t.Goes x r s') : StepGoes s a s' :=
  ⟨t, hc, by rw [hl]; exact hg⟩

theorem takeAppendEntries_goes {k : ℕ} {c : AppendEntriesCall n} {resp : AppendEntriesResponse}
    (hl : s.remoteLoop a = some (c.src, c.dst)) (hc : s.aeCalls[k]? = some c)
    (ha : a = .aeReturn k ∧ c.phase = .handled resp ∨ a = .aeNotConnected k ∧ resp = {})
    (h : s.takeAppendEntries c resp = some s') : StepGoes s a s' := by
  simp only [takeAppendEntries, Option.bind_eq_bind, Option.bind_eq_some_iff, Prod.exists,
    Option.pure_def, Option.some.injEq] at h
  obtain ⟨nd, commit, next, h, rfl⟩ := h
  exact .loop hl (.aeTake hc ha h) (goOn_goes _ _ _ _ _)

theorem step_goes (h : s.step a = some s') : StepGoes s a s' := by
  cases a with
  | leaderTimeout x =>
    simp only [step] at h
    split_ifs at h with h1
    obtain rfl := Option.some.inj h
    exact ⟨_, .timeout (by simpa using h1), rfl⟩
  | remoteWake x r =>
    simp only [step] at h
    split_ifs at h with h1 h2
    obtain rfl := Option.some.inj h
    exact .loop rfl .wake (remoteHostLoop_goes _ _ _ h1)
  | aeSend k =>
    obtain ⟨c, hc, h⟩ := Option.bind_eq_some_iff.1 h
    split_ifs at h with h1
    obtain rfl := Option.some.inj h
    exact ⟨_, .aeSend hc h1.2, rfl⟩
  | aeHandle k =>
    obtain ⟨c, hc, h⟩ := Option.bind_eq_some_iff.1 h
    split_ifs at h with h1
    obtain ⟨⟨nd, resp⟩, hr, h⟩ := Option.bind_eq_some_iff.1 h
    obtain rfl := Option.some.inj h
    exact ⟨_, .aeHandle hc h1 hr, rfl⟩
  | aeReturn k =>
    obtain ⟨c, hc, h⟩ := Option.bind_eq_some_iff.1 h
    have hl : s.remoteLoop (.aeReturn k) = some (c.src, c.dst) := by simp [remoteLoop, hc]
    split at h
    · rename_i resp hp
      split_ifs at h
      exact takeAppendEntries_goes hl hc (.inl ⟨rfl, hp⟩) h
    · simp at h
  | aeNotConnected k =>
    obtain ⟨c, hc, h⟩ := Option.bind_eq_some_iff.1 h
    have hl : s.remoteLoop (.aeNotConnected k) = some (c.src, c.dst) := by simp [remoteLoop, hc]
    split_ifs at h
    exact takeAppendEntries_goes hl hc (.inr ⟨rfl, rfl⟩) h
  | aeFail k =>
    obtain ⟨c, hc, h⟩ := Option.bind_eq_some_iff.1 h
    have hl : s.remoteLoop (.aeFail k) = some (c.src, c.dst) := by simp [remoteLoop, hc]
    split_ifs at h
    obtain rfl := Option.some.inj h
    exact .loop hl .aeFail .wait
  | rvSend k =>
    obtain ⟨c, hc, h⟩ := Option.bind_eq_some_iff.1 h
    split_ifs at h with h1
    obtain rfl := Option.some.inj h
    exact ⟨_, .rvSend hc h1.2, rfl⟩
  | rvHandle k =>
    obtain ⟨c, hc, h⟩ := Option.bind_eq_some_iff.1 h
    split_ifs at h with h1
    obtain rfl := Option.some.inj h
    exact ⟨_, .rvHandle hc h1, rfl⟩
  | rvReturn k =>
    obtain ⟨c, hc, h⟩ := Option.bind_eq_some_iff.1 h
    have hl : s.remoteLoop (.rvReturn k) = some (c.src, c.dst) := by simp [remoteLoop, hc]
    split at h
    · rename_i resp hp
      split_ifs at h
      obtain rfl := Option.some.inj h
      exact .loop hl (.rvTake hc (.inl ⟨rfl, hp⟩) rfl) (goOn_goes _ _ _ _ _)
    · simp at h
  | rvNotConnected k =>
    obtain ⟨c, hc, h⟩ := Option.bind_eq_some_iff.1 h
    have hl : s.remoteLoop (.rvNotConnected k) = some (c.src, c.dst) := by simp [remoteLoop, hc]
    split_ifs at h
    obtain rfl := Option.some.inj h
    exact .loop hl (.rvTake hc (.inr ⟨rfl, rfl⟩) rfl) (goOn_goes _ _ _ _ _)
  | rvFail k =>
    obtain ⟨c, hc, h⟩ := Option.bind_eq_some_iff.1 h
    have hl : s.remoteLoop (.rvFail k) = some (c.src, c.dst) := by simp [remoteLoop, hc]
    split_ifs at h
    obtain rfl := Option.some.inj h
    exact .loop hl .rvFail .wait
  | clientRequest x call path =>
    obtain rfl := Option.some.inj h
    exact ⟨_, .clientRequest, rfl⟩
  | clientStep x c =>
    obtain ⟨nd, hnd, rfl⟩ := Option.map_eq_some_iff.1 h
    exact ⟨_, .clientStep hnd, rfl⟩
  | fsStep x env =>
    obtain ⟨⟨nd, applied⟩, hnd, h⟩ := Option.bind_eq_some_iff.1 h
    obtain rfl := Option.some.inj h
    exact ⟨_, .fsStep hnd, rfl⟩
  | fsWake x =>
    simp only [step] at h
    split_ifs at h with h1
    obtain rfl := Option.some.inj h
    exact ⟨_, .fsWake h1, rfl⟩

/-- What changes a node moves none of its remote loops. -/
theorem Change.remoteThread (h : s.Change a t) (x : Fin n) :
    (t.node x).remoteThread = (s.node x).remoteThread := by
  have hup : ∀ {y : Fin n} {nd : Node n}, nd.remoteThread = (s.node y).remoteThread →
      (Function.update s.node y nd x).remoteThread = (s.node x).remoteThread := fun hy =>
    forall_update (P := fun x nd => nd.remoteThread = (s.node x).remoteThread) (fun _ => rfl) hy x
  cases h with
  | wake | aeSend | aeFail | rvSend | rvFail => rfl
  | timeout =>
    refine hup ?_
    unfold Node.startLeaderElection
    simp only
    split_ifs <;> rfl
  | aeHandle hc hp h =>
    refine hup ?_
    rcases Node.onAppendEntries_cases h with ⟨-, rfl, -⟩ | ⟨_, _, _, _, _, _, _, rfl⟩
    · rfl
    · rfl
  | aeTake hc ha h =>
    refine hup ?_
    rcases Node.onAppendEntriesResponse_cases h with ⟨-, -, -, hr⟩ | ⟨-, -, rfl⟩ | ⟨-, _, rfl, -⟩
    · obtain ⟨_, _, _, rfl, -⟩ := Node.recordAck_cases hr
      rfl
    · rfl
    · rfl
  | @rvHandle k c =>
    refine hup ?_
    obtain ⟨_, _, _, _, he, -⟩ := (s.node c.dst).onRequestVote_cases c.req
    rw [he]
  | @rvTake _ k c resp nd won next hc ha h =>
    refine hup ?_
    obtain ⟨_, _, _, _, _, _, he, -⟩ := Node.onRequestVoteResponse_cases c.src c.dst resp
      (s.node c.src)
    rw [h] at he
    obtain ⟨rfl, -, -⟩ := he
    rfl
  | clientRequest | fsWake =>
    refine hup ?_
    rfl
  | clientStep h =>
    obtain ⟨_, _, _, -, -, rfl⟩ := Node.onMetaOperation_cases h
    refine hup ?_
    rfl
  | fsStep h =>
    obtain ⟨_, _, _, rfl, -⟩ := Node.fsUpdateLoop_cases h
    refine hup ?_
    rfl

theorem setThread_remoteThread {th : RemoteThread} {y q : Fin n} (h : (y, q) ≠ (x, r)) :
    ((s.setThread x r th).node y).remoteThread q = (s.node y).remoteThread q := by
  simp only [setThread, setNode_node, Function.update_apply]
  split_ifs with hy
  · subst hy
    have hq : q ≠ r := fun hq => h (by rw [hq])
    exact Function.update_of_ne hq _ _
  · rfl

theorem step_remoteThread (h : s.step a = some s') (hne : s.remoteLoop a ≠ some (x, r)) :
    (s'.node x).remoteThread r = (s.node x).remoteThread r := by
  obtain ⟨t, hc, hg⟩ := step_goes h
  rw [← hc.remoteThread x]
  rcases hl : s.remoteLoop a with _ | ⟨y, q⟩
  · rw [hl] at hg
    exact hg ▸ rfl
  · rw [hl] at hg hne
    have hq : (x, r) ≠ (y, q) := fun he => hne (by rw [he])
    cases hg with
    | wait | appendEntries | requestVote => exact setThread_remoteThread hq

/-- What a loop is in, if it takes a step. -/
theorem loop_cases (h : s.step a = some s') (hl : s.remoteLoop a = some (x, r)) :
    (a = .remoteWake x r ∧ (s.node x).remoteThread r = .waiting) ∨
      (∃ k, (a = .aeReturn k ∨ a = .aeNotConnected k ∨ a = .aeFail k) ∧
        (s.node x).remoteThread r = .appendEntries k) ∨
      ∃ k, (s.node x).remoteThread r = .requestVote k := by
  cases a with
  | remoteWake y q =>
    obtain ⟨rfl, rfl⟩ := Prod.mk.inj (Option.some.inj hl)
    simp only [step] at h
    split_ifs at h with h1 h2
    exact .inl ⟨rfl, h2⟩
  | aeReturn k =>
    obtain ⟨c, hc, h⟩ := Option.bind_eq_some_iff.1 h
    simp only [remoteLoop, hc, Option.map_some, Option.some.injEq, Prod.mk.injEq] at hl
    obtain ⟨rfl, rfl⟩ := hl
    split at h
    · split_ifs at h with h1
      exact .inr (.inl ⟨k, .inl rfl, of_decide_eq_true h1⟩)
    · simp at h
  | aeNotConnected k =>
    obtain ⟨c, hc, h⟩ := Option.bind_eq_some_iff.1 h
    simp only [remoteLoop, hc, Option.map_some, Option.some.injEq, Prod.mk.injEq] at hl
    obtain ⟨rfl, rfl⟩ := hl
    split_ifs at h with h1
    exact .inr (.inl ⟨k, .inr (.inl rfl), of_decide_eq_true h1.1⟩)
  | aeFail k =>
    obtain ⟨c, hc, h⟩ := Option.bind_eq_some_iff.1 h
    simp only [remoteLoop, hc, Option.map_some, Option.some.injEq, Prod.mk.injEq] at hl
    obtain ⟨rfl, rfl⟩ := hl
    split_ifs at h with h1
    exact .inr (.inl ⟨k, .inr (.inr rfl), of_decide_eq_true h1⟩)
  | rvReturn k =>
    obtain ⟨c, hc, h⟩ := Option.bind_eq_some_iff.1 h
    simp only [remoteLoop, hc, Option.map_some, Option.some.injEq, Prod.mk.injEq] at hl
    obtain ⟨rfl, rfl⟩ := hl
    split at h
    · split_ifs at h with h1
      exact .inr (.inr ⟨k, of_decide_eq_true h1⟩)
    · simp at h
  | rvNotConnected k =>
    obtain ⟨c, hc, h⟩ := Option.bind_eq_some_iff.1 h
    simp only [remoteLoop, hc, Option.map_some, Option.some.injEq, Prod.mk.injEq] at hl
    obtain ⟨rfl, rfl⟩ := hl
    split_ifs at h with h1
    exact .inr (.inr ⟨k, of_decide_eq_true h1.1⟩)
  | rvFail k =>
    obtain ⟨c, hc, h⟩ := Option.bind_eq_some_iff.1 h
    simp only [remoteLoop, hc, Option.map_some, Option.some.injEq, Prod.mk.injEq] at hl
    obtain ⟨rfl, rfl⟩ := hl
    split_ifs at h with h1
    exact .inr (.inr ⟨k, of_decide_eq_true h1⟩)
  | _ => cases hl

section InCall

/-- Where the loop of `x` for `r` is in a call, it has made the call, of `r`. -/
def InCall (s : Cluster n) (x r : Fin n) : RemoteThread → Prop
  | .waiting => True
  | .appendEntries k => ∃ c, s.aeCalls[k]? = some c ∧ c.src = x ∧ c.dst = r
  | .requestVote k => ∃ c, s.rvCalls[k]? = some c ∧ c.src = x ∧ c.dst = r

/-- The calls of `s` are there, in some phase. -/
structure CallsStay (s s' : Cluster n) : Prop where
  aeCalls : ∀ (k : ℕ) (c : AppendEntriesCall n), s.aeCalls[k]? = some c →
    ∃ ph, s'.aeCalls[k]? = some { c with phase := ph }
  rvCalls : ∀ (k : ℕ) (c : RequestVoteCall n), s.rvCalls[k]? = some c →
    ∃ ph, s'.rvCalls[k]? = some { c with phase := ph }

theorem InCall.stay {th : RemoteThread} (h : s.InCall x r th) (hs : CallsStay s s') :
    s'.InCall x r th := by
  cases th with
  | waiting => trivial
  | appendEntries k =>
    obtain ⟨c, hk, hc⟩ := h
    obtain ⟨ph, hk'⟩ := hs.aeCalls k c hk
    exact ⟨_, hk', hc⟩
  | requestVote k =>
    obtain ⟨c, hk, hc⟩ := h
    obtain ⟨ph, hk'⟩ := hs.rvCalls k c hk
    exact ⟨_, hk', hc⟩

theorem Change.callsStay (h : s.Change a t) : CallsStay s t := by
  refine ⟨h.keeps.aeCalls, fun k c hk => ?_⟩
  cases h with
  | @rvSend j d hd | @rvHandle j d hd =>
    by_cases hjk : j = k
    · subst hjk
      obtain rfl := Option.some.inj (hd.symm.trans hk)
      obtain ⟨hlt, -⟩ := List.getElem?_eq_some_iff.1 hd
      exact ⟨_, List.getElem?_set_self hlt⟩
    · exact ⟨c.phase, (List.getElem?_set_ne hjk).trans hk⟩
  | _ => exact ⟨c.phase, hk⟩

/-- A loop that goes on waits, or it is in a call that it has just made. -/
theorem Goes.inCall (h : t.Goes x r s') : CallsStay t s' ∧ ∃ th, s'.InCall x r th ∧
    ∀ y q, (s'.node y).remoteThread q =
      if (y, q) = (x, r) then th else (t.node y).remoteThread q := by
  have hthread : ∀ (th : RemoteThread) (y q : Fin n), ((t.setThread x r th).node y).remoteThread q =
      if (y, q) = (x, r) then th else (t.node y).remoteThread q := by
    intro th y q
    split_ifs with he
    · obtain ⟨rfl, rfl⟩ := Prod.mk.inj he
      simp [setThread]
    · exact setThread_remoteThread he
  cases h with
  | wait =>
    refine ⟨⟨fun k c hk => ⟨c.phase, hk⟩, fun k c hk => ⟨c.phase, hk⟩⟩, .waiting, ?_, hthread _⟩
    trivial
  | appendEntries hne =>
    refine ⟨⟨fun k c hk => ⟨c.phase, ?_⟩, fun k c hk => ⟨c.phase, hk⟩⟩,
      .appendEntries t.aeCalls.length, ⟨_, List.getElem?_concat_length, rfl, rfl⟩, hthread _⟩
    obtain ⟨hlt, -⟩ := List.getElem?_eq_some_iff.1 hk
    exact (List.getElem?_append_left hlt).trans hk
  | requestVote hne =>
    refine ⟨⟨fun k c hk => ⟨c.phase, hk⟩, fun k c hk => ⟨c.phase, ?_⟩⟩,
      .requestVote t.rvCalls.length, ⟨_, List.getElem?_concat_length, rfl, rfl⟩, hthread _⟩
    obtain ⟨hlt, -⟩ := List.getElem?_eq_some_iff.1 hk
    exact (List.getElem?_append_left hlt).trans hk

theorem reach_inCall {G : Runs.Guard (Cluster n) (Action n)} (h : (cluster n).Reach G s) :
    ∀ x r, s.InCall x r ((s.node x).remoteThread r) := by
  refine h.inv (I := fun s => ∀ x r, s.InCall x r ((s.node x).remoteThread r)) ?_ ?_
  · rintro _ ⟨env, junk, rfl⟩ x r
    trivial
  · intro s a s' _ hI _ hst x r
    obtain ⟨t, hc, hg⟩ := step_goes hst
    have ht : ∀ x r, t.InCall x r ((t.node x).remoteThread r) := by
      intro x r
      rw [hc.remoteThread x]
      exact (hI x r).stay hc.callsStay
    rcases hl : s.remoteLoop a with _ | ⟨y, q⟩
    · rw [hl] at hg
      exact hg ▸ ht x r
    · rw [hl] at hg
      obtain ⟨hstay, th, hth, hthread⟩ := hg.inCall
      rw [hthread x r]
      split_ifs with he
      · obtain ⟨rfl, rfl⟩ := Prod.mk.inj he
        exact hth
      · exact (ht x r).stay hstay

end InCall

end Cluster

end RaftFS
