import RaftFS.Cluster
import RaftFS.Proofs.Node

/-!
# What a step does

A step of the cluster first changes one node or one call (`Change`), and then the thread that took a
response goes on (`Resume`): it waits, or it builds its next call.
-/

namespace RaftFS

variable {n : ℕ}

/-- A condition on actions is decided where it is on the kinds that it speaks of, and comes to `Q`
on the others. -/
def Action.decidable {P : Action n → Prop} {Q : Prop} [Decidable Q]
    (d : (a : Action n) → Option (Decidable (P a))) (a : Action n)
    (h : ∀ a, d a = none → (P a ↔ Q) := by intro a _; cases a <;> first | rfl | contradiction) :
    Decidable (P a) :=
  match hd : d a with
  | some p => p
  | none => decidable_of_iff Q (h a hd).symm

namespace Cluster

section Fields

variable (s : Cluster n) (x : Fin n) (nd : Node n) (ev : Option (Event n)) (k : ℕ)
  (c : AppendEntriesCall n) (d : RequestVoteCall n)

@[simp] theorem setNode_node : (s.setNode x nd).node = Function.update s.node x nd := rfl
@[simp] theorem setNode_history : (s.setNode x nd).history = s.history := rfl
@[simp] theorem setAECall_node : (s.setAECall k c).node = s.node := rfl
@[simp] theorem setAECall_history : (s.setAECall k c).history = s.history := rfl
@[simp] theorem setRVCall_node : (s.setRVCall k d).node = s.node := rfl
@[simp] theorem setRVCall_history : (s.setRVCall k d).history = s.history := rfl
@[simp] theorem log_node : (s.log ev).node = s.node := rfl
@[simp] theorem log_history : (s.log ev).history = ev.toList ++ s.history := rfl

end Fields

/-- What an action does before its thread goes on. -/
inductive Change (s : Cluster n) : Action n → Cluster n → Prop
  | timeout {x : Fin n} (h : (s.node x).currentRole ≠ .kLeader) :
    Change s (.leaderTimeout x) (s.setNode x ((s.node x).startLeaderElection x))
  | wake {x r : Fin n} : Change s (.remoteWake x r) s
  | aeSend {k : ℕ} {c : AppendEntriesCall n} (hc : s.aeCalls[k]? = some c) (hp : c.phase = .built) :
    Change s (.aeSend k) (s.setAECall k { c with phase := .sent })
  | aeHandle {k : ℕ} {c : AppendEntriesCall n} {nd : Node n} {resp : AppendEntriesResponse}
    (hc : s.aeCalls[k]? = some c) (hp : c.phase = .sent)
    (h : (s.node c.dst).onAppendEntries c.req = some (nd, resp)) :
    Change s (.aeHandle k) ((s.setNode c.dst nd).setAECall k { c with phase := .handled resp })
  | aeTake {a : Action n} {k : ℕ} {c : AppendEntriesCall n} {resp : AppendEntriesResponse}
    {nd : Node n} {commit : Option ℕ} {next : Node.Next} (hc : s.aeCalls[k]? = some c)
    (ha : a = .aeReturn k ∧ c.phase = .handled resp ∨ a = .aeNotConnected k ∧ resp = {})
    (h : (s.node c.src).onAppendEntriesResponse c.dst c.req resp = some (nd, commit, next)) :
    Change s a ((s.setNode c.src nd).log
      (commit.map fun N => .committed c.src nd.currentTerm N nd.log.memoryLog))
  | aeFail {k : ℕ} : Change s (.aeFail k) s
  | rvSend {k : ℕ} {c : RequestVoteCall n} (hc : s.rvCalls[k]? = some c) (hp : c.phase = .built) :
    Change s (.rvSend k) (s.setRVCall k { c with phase := .sent })
  | rvHandle {k : ℕ} {c : RequestVoteCall n} (hc : s.rvCalls[k]? = some c) (hp : c.phase = .sent) :
    Change s (.rvHandle k) ((s.setNode c.dst ((s.node c.dst).onRequestVote c.req).1).setRVCall k
      { c with phase := .handled ((s.node c.dst).onRequestVote c.req).2 })
  | rvTake {a : Action n} {k : ℕ} {c : RequestVoteCall n} {resp : ReqVoteResponse}
    {nd : Node n} {won : Bool} {next : Node.Next} (hc : s.rvCalls[k]? = some c)
    (ha : a = .rvReturn k ∧ c.phase = .handled resp ∨ a = .rvNotConnected k ∧ resp = {})
    (h : (s.node c.src).onRequestVoteResponse c.src c.dst resp = (nd, won, next)) :
    Change s a ((s.setNode c.src nd).log
      (if won then some (.becameLeader c.src nd.currentTerm nd.log.memoryLog) else none))
  | rvFail {k : ℕ} : Change s (.rvFail k) s
  | clientRequest {x : Fin n} {call : WriteCall} {path : Str} :
    Change s (.clientRequest x call path) (s.setNode x { s.node x with
      clients := (s.node x).clients ++ [call.handler path (s.node x)] })
  | clientStep {x : Fin n} {c : ℕ} {nd : Node n} (h : (s.node x).onMetaOperation c = some nd) :
    Change s (.clientStep x c) (s.setNode x nd)
  | fsStep {x : Fin n} {env : Ptr → Alloc} {nd : Node n}
    {applied : Option (ℕ × Entry × Option Bool)}
    (h : (s.node x).fsUpdateLoop env = some (nd, applied)) :
    Change s (.fsStep x env) ((s.setNode x nd).log
      (applied.map fun (i, e, rt) => .applied x i e rt))
  | fsWake {x : Fin n} (h : (s.node x).fsThread = .blocked) :
    Change s (.fsWake x) (s.setNode x { s.node x with fsThread := .test })

/-- How a thread goes on. -/
inductive Resume (t : Cluster n) : Cluster n → Prop
  | none : Resume t t
  | wait {x r : Fin n} : Resume t (t.setThread x r .waiting)
  | appendEntries {x r : Fin n} (h : x ≠ r) (hl : (t.node x).currentRole = .kLeader) :
    Resume t (t.callAppendEntries x r h)
  | requestVote {x r : Fin n} (h : x ≠ r) (hl : (t.node x).currentRole = .kCandidate) :
    Resume t (t.callRequestVote x r h)

theorem remoteHostLoop_resume (t : Cluster n) (x r : Fin n) (h : x ≠ r) :
    t.Resume (t.remoteHostLoop x r h) := by
  unfold remoteHostLoop
  split
  · exact .appendEntries h ‹_›
  · exact .wait
  · exact .requestVote h ‹_›

theorem goOn_resume (t : Cluster n) (x r : Fin n) (h : x ≠ r) (next : Node.Next) :
    t.Resume (t.goOn x r h next) := by
  cases next with
  | wait => exact .wait
  | goOn => exact remoteHostLoop_resume t x r h

theorem takeAppendEntries_change {s s' : Cluster n} {a : Action n} {k : ℕ}
    {c : AppendEntriesCall n} {resp : AppendEntriesResponse} (hc : s.aeCalls[k]? = some c)
    (ha : a = .aeReturn k ∧ c.phase = .handled resp ∨ a = .aeNotConnected k ∧ resp = {})
    (h : s.takeAppendEntries c resp = some s') : ∃ t, s.Change a t ∧ t.Resume s' := by
  simp only [takeAppendEntries, Option.bind_eq_bind, Option.bind_eq_some_iff, Prod.exists,
    Option.pure_def, Option.some.injEq] at h
  obtain ⟨nd, commit, next, h, rfl⟩ := h
  exact ⟨_, .aeTake hc ha h, goOn_resume _ _ _ _ _⟩

theorem takeRequestVote_change {s : Cluster n} {a : Action n} {k : ℕ} {c : RequestVoteCall n}
    {resp : ReqVoteResponse} (hc : s.rvCalls[k]? = some c)
    (ha : a = .rvReturn k ∧ c.phase = .handled resp ∨ a = .rvNotConnected k ∧ resp = {}) :
    ∃ t, s.Change a t ∧ t.Resume (s.takeRequestVote c resp) :=
  ⟨_, .rvTake hc ha rfl, goOn_resume _ _ _ _ _⟩

/-- Every step is a change, after which its thread goes on. -/
theorem step_changes {s s' : Cluster n} {a : Action n} (h : s.step a = some s') :
    ∃ t, s.Change a t ∧ t.Resume s' := by
  cases a with
  | leaderTimeout x =>
    simp only [step] at h
    split_ifs at h with h1
    obtain rfl := Option.some.inj h
    exact ⟨_, .timeout (by simpa using h1), .none⟩
  | remoteWake x r =>
    simp only [step] at h
    split_ifs at h with h1 h2
    obtain rfl := Option.some.inj h
    exact ⟨_, .wake, remoteHostLoop_resume _ _ _ h1⟩
  | aeSend k =>
    obtain ⟨c, hc, h⟩ := Option.bind_eq_some_iff.1 h
    split_ifs at h with h1
    obtain rfl := Option.some.inj h
    exact ⟨_, .aeSend hc h1.2, .none⟩
  | aeHandle k =>
    obtain ⟨c, hc, h⟩ := Option.bind_eq_some_iff.1 h
    split_ifs at h with h1
    obtain ⟨⟨nd, resp⟩, hr, h⟩ := Option.bind_eq_some_iff.1 h
    obtain rfl := Option.some.inj h
    exact ⟨_, .aeHandle hc h1 hr, .none⟩
  | aeReturn k =>
    obtain ⟨c, hc, h⟩ := Option.bind_eq_some_iff.1 h
    split at h
    · rename_i resp hp
      split_ifs at h
      exact takeAppendEntries_change hc (.inl ⟨rfl, hp⟩) h
    · simp at h
  | aeNotConnected k =>
    obtain ⟨c, hc, h⟩ := Option.bind_eq_some_iff.1 h
    split_ifs at h
    exact takeAppendEntries_change hc (.inr ⟨rfl, rfl⟩) h
  | aeFail k =>
    obtain ⟨c, hc, h⟩ := Option.bind_eq_some_iff.1 h
    split_ifs at h
    obtain rfl := Option.some.inj h
    exact ⟨_, .aeFail, .wait⟩
  | rvSend k =>
    obtain ⟨c, hc, h⟩ := Option.bind_eq_some_iff.1 h
    split_ifs at h with h1
    obtain rfl := Option.some.inj h
    exact ⟨_, .rvSend hc h1.2, .none⟩
  | rvHandle k =>
    obtain ⟨c, hc, h⟩ := Option.bind_eq_some_iff.1 h
    split_ifs at h with h1
    obtain rfl := Option.some.inj h
    exact ⟨_, .rvHandle hc h1, .none⟩
  | rvReturn k =>
    obtain ⟨c, hc, h⟩ := Option.bind_eq_some_iff.1 h
    split at h
    · rename_i resp hp
      split_ifs at h
      obtain rfl := Option.some.inj h
      exact takeRequestVote_change hc (.inl ⟨rfl, hp⟩)
    · simp at h
  | rvNotConnected k =>
    obtain ⟨c, hc, h⟩ := Option.bind_eq_some_iff.1 h
    split_ifs at h
    obtain rfl := Option.some.inj h
    exact takeRequestVote_change hc (.inr ⟨rfl, rfl⟩)
  | rvFail k =>
    obtain ⟨c, hc, h⟩ := Option.bind_eq_some_iff.1 h
    split_ifs at h
    obtain rfl := Option.some.inj h
    exact ⟨_, .rvFail, .wait⟩
  | clientRequest x call path =>
    obtain rfl := Option.some.inj h
    exact ⟨_, .clientRequest, .none⟩
  | clientStep x c =>
    obtain ⟨nd, hnd, rfl⟩ := Option.map_eq_some_iff.1 h
    exact ⟨_, .clientStep hnd, .none⟩
  | fsStep x env =>
    obtain ⟨⟨nd, applied⟩, hnd, h⟩ := Option.bind_eq_some_iff.1 h
    obtain rfl := Option.some.inj h
    exact ⟨_, .fsStep hnd, .none⟩
  | fsWake x =>
    simp only [step] at h
    split_ifs at h with h1
    obtain rfl := Option.some.inj h
    exact ⟨_, .fsWake h1, .none⟩

theorem aeHandle_eq_some {s s' : Cluster n} {k : ℕ} (h : s.step (.aeHandle k) = some s') :
    ∃ c nd resp, s.aeCalls[k]? = some c ∧
      (s.node c.dst).onAppendEntries c.req = some (nd, resp) ∧
      s' = (s.setNode c.dst nd).setAECall k { c with phase := .handled resp } := by
  obtain ⟨c, hc, h⟩ := Option.bind_eq_some_iff.1 h
  split_ifs at h with h1
  obtain ⟨⟨nd, resp⟩, hr, h⟩ := Option.bind_eq_some_iff.1 h
  exact ⟨c, nd, resp, hc, hr, (Option.some.inj h).symm⟩

section Frames

variable {s : Cluster n} {x : Fin n} {nd : Node n}

theorem forall_update {P : Fin n → Node n → Prop} (h : ∀ y, P y (s.node y)) (hx : P x nd)
    (y : Fin n) : P y (Function.update s.node x nd y) := by
  rw [Function.update_apply]
  split_ifs with hy
  · exact hy ▸ hx
  · exact h y

theorem forall_set {α : Type*} {P : α → Prop} {l : List α} {k : ℕ} {a : α} (h : ∀ b ∈ l, P b)
    (ha : P a) : ∀ b ∈ l.set k a, P b := by
  intro b hb
  rcases List.mem_or_eq_of_mem_set hb with hb | rfl
  · exact h b hb
  · exact ha

theorem forall_concat {α : Type*} {P : α → Prop} {l : List α} {a : α} (h : ∀ b ∈ l, P b)
    (ha : P a) : ∀ b ∈ l ++ [a], P b := by
  intro b hb
  rcases List.mem_append.1 hb with hb | hb
  · exact h b hb
  · rw [List.mem_singleton.1 hb]
    exact ha

theorem getElem?_set_cases {α : Type*} {l : List α} {i j : ℕ} {a b : α}
    (h : (l.set i a)[j]? = some b) : i = j ∧ b = a ∨ l[j]? = some b := by
  rw [List.getElem?_set] at h
  split_ifs at h with h1 h2
  · exact .inl ⟨h1, (Option.some.inj h).symm⟩
  · exact .inr h

theorem getElem?_concat_cases {α : Type*} {l : List α} {j : ℕ} {a b : α}
    (h : (l ++ [a])[j]? = some b) : l[j]? = some b ∨ j = l.length ∧ b = a := by
  rcases lt_or_ge j l.length with hj | hj
  · exact .inl (by rwa [List.getElem?_append_left hj] at h)
  · rw [List.getElem?_append_right hj, List.getElem?_singleton] at h
    split_ifs at h with h0
    exact .inr ⟨by omega, (Option.some.inj h).symm⟩

theorem Resume.node {t t' : Cluster n} (h : t.Resume t') (x : Fin n) :
    ∃ f, t'.node x = { t.node x with remoteThread := f } := by
  cases h with
  | none => exact ⟨_, rfl⟩
  | wait | appendEntries | requestVote =>
    refine forall_update (s := t)
      (P := fun y nd => ∃ f, nd = { t.node y with remoteThread := f }) (fun y => ⟨_, rfl⟩) ?_ x
    exact ⟨_, rfl⟩

end Frames

end Cluster

end RaftFS
