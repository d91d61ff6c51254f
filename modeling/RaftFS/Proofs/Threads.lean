import RaftFS.Proofs.Steps

/-!
# A node's own threads

What a step leaves to the threads of a node that make no calls, its `FSUpdateLoop` and its clients'
threads. A step is one of theirs, or a request the node handles, or it leaves the node's entries,
clients and namespace as they are (`Change.local`). Between its own steps `FSUpdateLoop` finds the
namespace as it left it and a commit index that has not gone back (`reach_fs`), so an index it has
let through stays committed (`reach_gateOk`).
-/

namespace RaftFS

variable {n : ℕ}

/-- The `MetaOp` of a write. -/
def WriteCall.op : WriteCall → MetaOp
  | .mkdir => .kMkdir
  | .rmdir => .kRmdir
  | .createFile => .kCreate
  | .deleteFile => .kDelete

theorem WriteCall.handler_eq (call : WriteCall) (path : Str) (nd : Node n) :
    call.handler path nd = nd.onWrite call.op path := by
  cases call with
  | _ => rfl

/-- The indices whose entries `x` has applied, oldest first. -/
def appliedIndices (x : Fin n) (history : List (Event n)) : List ℕ :=
  (history.filterMap fun
    | .applied y i _ _ => if y = x then some i else none
    | _ => none).reverse

theorem mem_appliedIndices {x : Fin n} {history : List (Event n)} {i : ℕ} :
    i ∈ appliedIndices x history ↔ ∃ e rt, .applied x i e rt ∈ history := by
  simp only [appliedIndices, List.mem_reverse, List.mem_filterMap]
  constructor
  · rintro ⟨ev, hev, hi⟩
    cases ev with
    | applied y j e rt =>
      simp only [Option.ite_none_right_eq_some, Option.some.injEq] at hi
      obtain ⟨rfl, rfl⟩ := hi
      exact ⟨e, rt, hev⟩
    | becameLeader | committed => simp at hi
  · rintro ⟨e, rt, hev⟩
    exact ⟨_, hev, if_pos rfl⟩

namespace Cluster

/-- What `FSUpdateLoop` finds when others have taken steps: it may have been woken, and the commit
index is not less. -/
structure FSFrame (nd nd' : Node n) : Prop where
  fs : nd'.fs = nd.fs
  fsThread : nd'.fsThread = nd.fsThread ∨ nd.fsThread = .blocked ∧ nd'.fsThread = .test
  commit : nd.log.getLastCommitIndex ≤ nd'.log.getLastCommitIndex

/-- Nor do the entries and the clients change. -/
structure Frame (nd nd' : Node n) : Prop extends FSFrame nd nd' where
  memoryLog : nd'.log.memoryLog = nd.log.memoryLog
  clients : nd'.clients = nd.clients

theorem Frame.rfl {nd : Node n} : Frame nd nd :=
  ⟨⟨Eq.refl _, .inl (Eq.refl _), le_rfl⟩, Eq.refl _, Eq.refl _⟩

theorem Frame.of_same {nd nd' : Node n} (hl : nd'.log = nd.log) (hfs : nd'.fs = nd.fs)
    (hth : nd'.fsThread = nd.fsThread) (hcl : nd'.clients = nd.clients) : Frame nd nd' :=
  ⟨⟨hfs, .inl hth, by rw [hl]⟩, by rw [hl], hcl⟩

theorem Frame.of_work {nd nd' : Node n} (h : Node.SameWork nd nd') : Frame nd nd' :=
  .of_same h.log h.fs h.fsThread h.clients

/-- What an action makes of the node `x`, as its own threads see it, and the indices `x` applies
in it. -/
inductive Local (s : Cluster n) (x : Fin n) : Action n → Node n → List ℕ → Prop
  | frame {a : Action n} {nd : Node n} (h : Frame (s.node x) nd) : Local s x a nd []
  | aeHandle {k : ℕ} {c : AppendEntriesCall n} {nd : Node n} {resp : AppendEntriesResponse}
    (hc : s.aeCalls[k]? = some c) (hx : c.dst = x)
    (h : (s.node x).onAppendEntries c.req = some (nd, resp)) : Local s x (.aeHandle k) nd []
  | clientRequest {call : WriteCall} {path : Str} :
    Local s x (.clientRequest x call path) { s.node x with
      clients := (s.node x).clients ++ [call.handler path (s.node x)] } []
  | clientStep {c : ℕ} {nd : Node n} (h : (s.node x).onMetaOperation c = some nd) :
    Local s x (.clientStep x c) nd []
  | fsStep {env : Ptr → Alloc} {nd : Node n} {applied : Option (ℕ × Entry × Option Bool)}
    (h : (s.node x).fsUpdateLoop env = some (nd, applied)) :
    Local s x (.fsStep x env) nd (applied.map (·.1)).toList

theorem Local.update {s : Cluster n} {a : Action n} {y : Fin n} {nd : Node n} {applied : List ℕ}
    {history : List (Event n)} (h : Local s y a nd applied) (hh : ∀ x, appliedIndices x history =
      appliedIndices x s.history ++ if x = y then applied else []) (x : Fin n) :
    ∃ applied, Local s x a (Function.update s.node y nd x) applied ∧
      appliedIndices x history = appliedIndices x s.history ++ applied := by
  have hx := hh x
  rw [Function.update_apply]
  split_ifs at hx ⊢ with hxy
  · subst hxy
    exact ⟨applied, h, hx⟩
  · exact ⟨[], .frame .rfl, hx⟩

theorem Change.local {s t : Cluster n} {a : Action n} (h : s.Change a t) (x : Fin n) :
    ∃ applied, Local s x a (t.node x) applied ∧
      appliedIndices x t.history = appliedIndices x s.history ++ applied := by
  cases h with
  | wake | aeSend | aeFail | rvSend | rvFail =>
    exact ⟨[], .frame .rfl, (List.append_nil _).symm⟩
  | timeout =>
    exact Local.update (.frame (.of_work (Node.startLeaderElection_work _ _))) (fun y => by simp) x
  | aeHandle hc hp h => exact Local.update (.aeHandle hc rfl h) (fun y => by simp) x
  | aeTake hc ha h =>
    rename_i commit next
    refine Local.update (.frame ?_) (fun y => ?_) x
    · have hcommit := Node.onAppendEntriesResponse_commit h
      have hth := Node.onAppendEntriesResponse_fsThread h
      rcases Node.onAppendEntriesResponse_cases h with ⟨-, -, -, hr⟩ | ⟨-, -, rfl⟩ | ⟨-, _, rfl, -⟩
      · obtain ⟨_, _, _, rfl, hm, -, -⟩ := Node.recordAck_cases hr
        exact ⟨⟨rfl, hth, hcommit⟩, hm, rfl⟩
      · exact .of_same rfl rfl rfl rfl
      · exact .of_same rfl rfl rfl rfl
    · cases commit with
      | none => simp
      | some N => simp [appliedIndices]
  | rvHandle hc hp =>
    exact Local.update (.frame (.of_work (Node.onRequestVote_work _ _))) (fun y => by simp) x
  | rvTake hc ha h =>
    rename_i won next
    refine Local.update (.frame (.of_work (Node.onRequestVoteResponse_work h))) (fun y => ?_) x
    cases won with
    | false => simp
    | true => simp [appliedIndices]
  | clientRequest => exact Local.update .clientRequest (fun y => by simp) x
  | clientStep h => exact Local.update (.clientStep h) (fun y => by simp) x
  | @fsStep y env nd applied h =>
    refine Local.update (.fsStep h) (fun z => ?_) x
    rcases applied with _ | ⟨i, e, rt⟩
    · simp
    · by_cases hz : z = y
      · simp [appliedIndices, hz]
      · simp [appliedIndices, hz, Ne.symm hz]
  | fsWake h =>
    refine Local.update (.frame ?_) (fun y => by simp) x
    exact ⟨⟨rfl, .inr ⟨h, rfl⟩, le_rfl⟩, rfl, rfl⟩

theorem Resume.frame {t t' : Cluster n} (h : t.Resume t') (x : Fin n) :
    Frame (t.node x) (t'.node x) ∧ t'.history = t.history := by
  obtain ⟨f, hf⟩ := h.node x
  rw [hf]
  refine ⟨.of_same rfl rfl rfl rfl, ?_⟩
  cases h with
  | _ => rfl

theorem FSFrame.onAppendEntries {nd nd' : Node n} {req : AppendEntriesRequest n}
    {resp : AppendEntriesResponse} (h : nd.onAppendEntries req = some (nd', resp)) :
    FSFrame nd nd' := by
  refine ⟨?_, Node.onAppendEntries_fsThread h, Node.onAppendEntries_commit h⟩
  rcases Node.onAppendEntries_cases h with ⟨-, rfl, -⟩ | ⟨_, _, _, _, _, _, -, rfl⟩
  · rfl
  · rfl

theorem FSFrame.onMetaOperation {nd nd' : Node n} {c : ℕ} (h : nd.onMetaOperation c = some nd') :
    FSFrame nd nd' := by
  obtain ⟨th, th', log, -, hs, rfl⟩ := Node.onMetaOperation_cases h
  refine ⟨rfl, .inl rfl, ?_⟩
  cases hs with
  | append => exact LogManager.append_commit _
  | _ => exact le_rfl

/-- A client's thread after a step of the cluster: it was there, the request has just come in, or it
has just gone a step on. -/
inductive ClientStep (s : Cluster n) (x : Fin n) : Action n → ClientThread n → Prop
  | same {a : Action n} {th : ClientThread n} (h : th ∈ (s.node x).clients) : ClientStep s x a th
  | new {call : WriteCall} {path : Str} :
    ClientStep s x (.clientRequest x call path) (call.handler path (s.node x))
  | goOn {c : ℕ} {th th' : ClientThread n} {log : LogManager}
    (h : (s.node x).clients[c]? = some th) (hs : (s.node x).MetaStep th th' log) :
    ClientStep s x (.clientStep x c) th'

theorem step_clients {s s' : Cluster n} {a : Action n} (h : s.step a = some s') (x : Fin n)
    {th : ClientThread n} (hth : th ∈ (s'.node x).clients) : ClientStep s x a th := by
  obtain ⟨t, hc, hr⟩ := step_changes h
  rw [(hr.frame x).1.clients] at hth
  obtain ⟨_, hl, -⟩ := hc.local x
  generalize t.node x = nd at hl hth
  cases hl with
  | frame h => exact .same (h.clients ▸ hth)
  | aeHandle _ _ h => exact .same (Node.onAppendEntries_clients h ▸ hth)
  | clientRequest =>
    rcases List.mem_append.1 hth with hth | hth
    · exact .same hth
    · rw [List.mem_singleton.1 hth]
      exact .new
  | clientStep h =>
    obtain ⟨th₀, th', _, hth₀, hs, rfl⟩ := Node.onMetaOperation_cases h
    rcases List.mem_or_eq_of_mem_set hth with hth | rfl
    · exact .same hth
    · exact .goOn hth₀ hs
  | fsStep h =>
    obtain ⟨_, _, _, rfl, -⟩ := Node.fsUpdateLoop_cases h
    exact .same hth

/-- A node's entries after a step: as they were, with those of a request written over them, or with
one that a client's thread has appended. -/
inductive LogStep (s : Cluster n) (a : Action n) (x : Fin n) (l' : List Entry) : Prop
  | same (h : l' = (s.node x).log.memoryLog)
  | stored {k q : ℕ} {c : AppendEntriesCall n} (ha : a = .aeHandle k) (hc : s.aeCalls[k]? = some c)
    (hx : c.dst = x) (hq : q ∈ (s.node x).storesAt c.req)
    (hl : LogManager.Laid (s.node x).log.memoryLog c.req.entries q l')
  | appended {c : ℕ} {e : Entry} (ha : a = .clientStep x c)
    (h : (s.node x).clients[c]? = some (.built e))
    (hl : l' = ((s.node x).log.append e).1.memoryLog)

theorem step_log {s s' : Cluster n} {a : Action n} (h : s.step a = some s') (x : Fin n) :
    LogStep s a x (s'.node x).log.memoryLog := by
  obtain ⟨t, hch, hr⟩ := step_changes h
  rw [(hr.frame x).1.memoryLog]
  obtain ⟨_, hl, -⟩ := hch.local x
  generalize t.node x = nd at hl ⊢
  cases hl with
  | frame h => exact .same h.memoryLog
  | aeHandle hc hx hap =>
    rcases Node.onAppendEntries_laid hap with ⟨q, hq, -, -, hlaid⟩ | ⟨-, heq, -⟩
    · exact .stored rfl hc hx hq hlaid
    · exact .same heq
  | clientRequest => exact .same rfl
  | clientStep h =>
    obtain ⟨_, _, _, hth, hs, rfl⟩ := Node.onMetaOperation_cases h
    cases hs with
    | append => exact .appended rfl hth rfl
    | _ => exact .same rfl
  | fsStep h =>
    obtain ⟨_, _, _, rfl, -⟩ := Node.fsUpdateLoop_cases h
    exact .same rfl

/-- `FSUpdateLoop` has a next step unless it sleeps, or is to apply an entry that is not there or
that has no answer. -/
theorem fsStep_eq_none {s : Cluster n} {x : Fin n} {env : Ptr → Alloc} :
    s.step (.fsStep x env) = none ↔ (s.node x).fsThread = .blocked ∨
      ∃ i c, (s.node x).fsThread = .apply i c ∧
        ((s.node x).log.getEntry i).bind (Node.applyEntry env (s.node x).fs) = none := by
  have hstep : s.step (.fsStep x env) = none ↔ (s.node x).fsUpdateLoop env = none := by
    cases h : (s.node x).fsUpdateLoop env with
    | none => simp [step, h]
    | some r => simp [step, h]
  rw [hstep, Node.fsUpdateLoop]
  cases hth : (s.node x).fsThread with
  | apply i c =>
    cases he : (s.node x).log.getEntry i with
    | none => simp [he]
    | some e =>
      cases hap : Node.applyEntry env (s.node x).fs e with
      | none => simp [he, hap]
      | some r => simp [he, hap]
  | blocked => simp
  | blocking | finish => simp
  | test | loop | gateLeader | gatePending | gateFollower =>
    simp only [reduceCtorEq, false_and, exists_false, or_self, iff_false]
    split_ifs
    all_goals exact not_false

/-- What `FSUpdateLoop` keeps in its own steps, and in what it finds after those of others, holds
of every node and the indices it has applied. -/
theorem reach_fs {G : Runs.Guard (Cluster n) (Action n)} {I : Node n → List ℕ → Prop}
    (start : ∀ env junk, I (Node.init env junk) [])
    (frame : ∀ nd nd' is, I nd is → FSFrame nd nd' → I nd' is)
    (fsStep : ∀ s x env nd applied is, (cluster n).Reach G s → G s (.fsStep x env) →
      (s.node x).fsUpdateLoop env = some (nd, applied) → I (s.node x) is →
      I nd (is ++ (applied.map (·.1)).toList))
    {s : Cluster n} (h : (cluster n).Reach G s) (x : Fin n) :
    I (s.node x) (appliedIndices x s.history) := by
  refine Runs.Sys.Reach.inv (I := fun s => I (s.node x) (appliedIndices x s.history)) ?_ ?_ h
  · rintro _ ⟨env, junk, rfl⟩
    exact start _ _
  · intro s a s' hs hI hg hst
    obtain ⟨t, hc, hr⟩ := step_changes hst
    obtain ⟨hnd, hh⟩ := hr.frame x
    rw [hh]
    refine frame _ _ _ ?_ hnd.toFSFrame
    obtain ⟨applied, hl, hap⟩ := hc.local x
    rw [hap]
    generalize t.node x = nd at hl ⊢
    cases hl with
    | frame h =>
      rw [List.append_nil]
      exact frame _ _ _ hI h.toFSFrame
    | aeHandle hc hx h =>
      rw [List.append_nil]
      exact frame _ _ _ hI (.onAppendEntries h)
    | clientRequest =>
      rw [List.append_nil]
      exact frame _ _ _ hI ⟨rfl, .inl rfl, le_rfl⟩
    | clientStep h =>
      rw [List.append_nil]
      exact frame _ _ _ hI (.onMetaOperation h)
    | fsStep h => exact fsStep _ _ _ _ _ _ hs hg h hI

section Gate

/-- The place of `FSUpdateLoop` between the test of the index and the entry applied. -/
def Passing : FSThread → ℕ → Prop
  | .gateLeader i _, j | .gatePending i _, j | .gateFollower i _, j | .apply i _, j => i = j
  | _, _ => False

/-- An index that `FSUpdateLoop` has let through is committed. -/
def GateOk (nd : Node n) : Prop := ∀ i, Passing nd.fsThread i → i ≤ nd.log.getLastCommitIndex

theorem GateOk.frame {nd nd' : Node n} (h : GateOk nd) (hf : FSFrame nd nd') : GateOk nd' := by
  intro i hi
  rcases hf.fsThread with hth | ⟨-, hth⟩
  · rw [hth] at hi
    exact (h i hi).trans hf.commit
  · rw [hth] at hi
    exact hi.elim

theorem GateOk.fsUpdateLoop {nd nd' : Node n} {env : Ptr → Alloc}
    {applied : Option (ℕ × Entry × Option Bool)} (h : GateOk nd)
    (hs : nd.fsUpdateLoop env = some (nd', applied)) : GateOk nd' := by
  obtain ⟨fs, th, _, rfl, -, hstep⟩ := Node.fsUpdateLoop_cases hs
  intro i hi
  cases hstep with
  | next hth hle => exact (show _ = i from hi) ▸ hle
  | gate hth hth' =>
    apply h
    rcases hth' with rfl | rfl | rfl
    all_goals
      rcases hth with hth | hth | hth
      all_goals
        rw [hth]
        exact hi
  | _ => exact hi.elim

theorem reach_gateOk {G : Runs.Guard (Cluster n) (Action n)} {s : Cluster n}
    (h : (cluster n).Reach G s) (x : Fin n) : GateOk (s.node x) :=
  reach_fs (I := fun nd _ => GateOk nd) (fun _ _ _ hi => hi.elim) (fun _ _ _ hI hf => hI.frame hf)
    (fun _ _ _ _ _ _ _ _ hs hI => hI.fsUpdateLoop hs) h x

end Gate

end Cluster

end RaftFS
