import RaftFS.Lib.Runs
import RaftFS.Proofs.Log
import RaftFS.Proofs.Namespace

/-!
# What a node's functions do

One lemma for each handler of a message, saying what it may do to the node and what it answers.
-/

namespace RaftFS

variable {n : ℕ}

/-- Enough nodes to win an election or to commit. -/
def IsQuorum (Q : Finset (Fin n)) : Prop := quorumSize n ≤ Q.card

theorem IsQuorum.lt_card {Q : Finset (Fin n)} (h : IsQuorum Q) : n < 2 * Q.card := by
  unfold IsQuorum quorumSize at h
  omega

theorem quorums_meet {A B : Finset (Fin n)} (hA : IsQuorum A) (hB : IsQuorum B) :
    (A ∩ B).Nonempty :=
  Runs.majorities_meet (by simpa using hA.lt_card) (by simpa using hB.lt_card)

/-- The entry a client's thread has built and not yet appended. -/
def ClientThread.built? : ClientThread n → Option Entry
  | .built e => some e
  | _ => none

namespace Node

variable {nd nd' : Node n} {self id : Fin n}

section Roles

@[simp] theorem isLeader_eq_true : nd.isLeader = true ↔ nd.currentRole = .kLeader := by
  simp [isLeader]

@[simp] theorem isFollower_eq_true : nd.isFollower = true ↔ nd.currentRole = .kFollower := by
  simp [isFollower]

theorem startLeaderElection_eq (h : nd.voteFor (nd.currentTerm + 1) = none) :
    startLeaderElection self nd = { nd with
      currentTerm := nd.currentTerm + 1
      currentRole := .kCandidate
      leaderId := none
      voteFor := Function.update nd.voteFor (nd.currentTerm + 1) (some self)
      votePool := {self} } := by
  simp only [startLeaderElection, h, if_true]

theorem changeToFollower_eq (nd : Node n) (U : ℕ) : ∃ pool, changeToFollower U nd = { nd with
    votePool := pool, currentRole := .kFollower, currentTerm := U, leaderId := none } :=
  ⟨_, rfl⟩

/-- Catching up changes the term, the role, the leader and the pool only. -/
theorem catchUp_eq (req : AppendEntriesRequest n) (h : nd.currentTerm ≤ req.term) :
    ∃ role leader pool, catchUp req nd = { nd with
        currentTerm := req.term, currentRole := role, leaderId := leader, votePool := pool } ∧
      role = if nd.currentTerm < req.term ∨ nd.currentRole = .kCandidate then .kFollower
        else nd.currentRole := by
  unfold catchUp
  by_cases hc : nd.currentTerm < req.term ∨ nd.currentRole = .kCandidate
  · have hc' : nd.currentTerm < req.term ∨
        nd.currentRole = .kCandidate ∧ nd.currentTerm ≤ req.term := hc.imp_right fun h' => ⟨h', h⟩
    simp only [if_pos hc, if_pos hc']
    exact ⟨_, _, _, rfl, rfl⟩
  · have hc' : ¬ (nd.currentTerm < req.term ∨
        nd.currentRole = .kCandidate ∧ nd.currentTerm ≤ req.term) :=
      fun h' => hc (h'.imp_right And.left)
    have heq : nd.currentTerm = req.term := by
      rw [not_or] at hc
      omega
    simp only [if_neg hc, if_neg hc']
    rw [← heq]
    split_ifs
    · exact ⟨_, _, _, rfl, rfl⟩
    · exact ⟨_, _, _, rfl, rfl⟩

end Roles

section AppendEntries

variable {req : AppendEntriesRequest n} {resp : AppendEntriesResponse}

/-- The place in its log from which the node writes the entries of the request, if it does. -/
def storesAt (req : AppendEntriesRequest n) (nd : Node n) : Option ℕ :=
  if nd.currentTerm ≤ req.term ∧ req.prevLogIndex ≤ nd.log.getLastLogIndex then
    nd.log.appendsAt req.entries
  else none

theorem storesAt_term_le {q : ℕ} (h : q ∈ storesAt req nd) : nd.currentTerm ≤ req.term := by
  simp only [storesAt, Option.mem_def, Option.ite_none_right_eq_some] at h
  exact h.1.1

theorem storeEntries_laid {log : LogManager} {ok : Bool} (ht : nd.currentTerm ≤ req.term)
    (h : storeEntries req nd.log = some (log, ok)) :
    log.lastCommitedIndex = nd.log.lastCommitedIndex ∧
      ((∃ q, storesAt req nd = some q ∧ ok = true ∧ req.prevLogIndex ≤ nd.log.getLastLogIndex ∧
          LogManager.Laid nd.log.memoryLog req.entries q log.memoryLog) ∨
        (storesAt req nd = none ∧ log = nd.log ∧ (ok = true → req.entries = []))) := by
  unfold storeEntries at h
  unfold storesAt
  split_ifs at h with h1 h2
  · simp only [Option.some.injEq, Prod.mk.injEq] at h
    obtain ⟨rfl, rfl⟩ := h
    have he : req.entries = [] := List.isEmpty_iff.1 h2
    exact ⟨rfl, .inr ⟨by simp [he, LogManager.appendsAt], rfl, fun _ => he⟩⟩
  · have he : req.entries ≠ [] := fun h0 => h2 (List.isEmpty_iff.2 h0)
    rw [if_pos ⟨ht, h1⟩]
    rcases LogManager.appendBatch_laid h he with ⟨q, hq, hok, hl, hc⟩ | ⟨hq, rfl, rfl⟩
    · exact ⟨hc, .inl ⟨q, hq, hok, h1, hl⟩⟩
    · exact ⟨rfl, .inr ⟨hq, rfl, fun h0 => by simp at h0⟩⟩
  · simp only [Option.some.injEq, Prod.mk.injEq] at h
    obtain ⟨rfl, rfl⟩ := h
    exact ⟨rfl, .inr ⟨if_neg fun h0 => h1 h0.2, rfl, fun h0 => by simp at h0⟩⟩

/-- The commit index is set to the leader's, if that is larger and not past the log's end. -/
theorem followCommit_cases (h : followCommit req nd = some nd') :
    ∃ log fs, nd' = { nd with log := log, fsThread := fs } ∧ log.memoryLog = nd.log.memoryLog ∧
      (fs = nd.fsThread ∨ nd.fsThread = .blocked ∧ fs = .test) ∧
      (log = nd.log ∨ log.lastCommitedIndex = req.leaderCommitIndex ∧
        nd.log.getLastCommitIndex < req.leaderCommitIndex ∧
        req.leaderCommitIndex ≤ nd.log.getLastLogIndex ∧ nd.log.memoryLog ≠ []) := by
  unfold followCommit at h
  split_ifs at h with h1
  · obtain ⟨log, hlog, rfl⟩ := Option.map_eq_some_iff.1 h
    obtain ⟨hne, hm, hc⟩ := LogManager.setLastCommitIndex_spec hlog
    refine ⟨log, _, rfl, hm, ?_, ?_⟩
    · simp only
      split_ifs with h2
      · exact .inr ⟨h2, rfl⟩
      · exact .inl rfl
    · rcases hc with ⟨rfl, -⟩ | ⟨hc, hle⟩
      · exact .inl rfl
      · exact .inr ⟨hc, h1, hle, hne⟩
  · obtain rfl := Option.some.inj h
    exact ⟨_, _, rfl, rfl, .inl rfl, .inl rfl⟩

/-- A request that is not behind is accepted: the node catches up, stores the entries and
follows the commit index. -/
structure Accepts (req : AppendEntriesRequest n) (resp : AppendEntriesResponse) (nd : Node n)
    (role : Role) (log log' : LogManager) (fs : FSThread) : Prop where
  term_le : nd.currentTerm ≤ req.term
  role : role = if nd.currentTerm < req.term ∨ nd.currentRole = .kCandidate then .kFollower
    else nd.currentRole
  stored : storeEntries req nd.log = some (log, resp.success)
  resp_term : resp.term = nd.currentTerm
  resp_last : resp.success = true → resp.lastLogIndex = log'.getLastLogIndex
  memoryLog : log'.memoryLog = log.memoryLog
  fsThread : fs = nd.fsThread ∨ nd.fsThread = .blocked ∧ fs = .test
  commit : log' = log ∨ log'.lastCommitedIndex = req.leaderCommitIndex ∧
    log.getLastCommitIndex < req.leaderCommitIndex ∧
    req.leaderCommitIndex ≤ log.getLastLogIndex ∧ log.memoryLog ≠ []

theorem onAppendEntries_cases (h : onAppendEntries req nd = some (nd', resp)) :
    (req.term < nd.currentTerm ∧ nd' = nd ∧ resp = { term := nd.currentTerm }) ∨
      ∃ role leader pool log log' fs, Accepts req resp nd role log log' fs ∧
        nd' = { nd with
          currentTerm := req.term, currentRole := role, leaderId := leader, votePool := pool
          log := log', fsThread := fs } := by
  unfold onAppendEntries at h
  split_ifs at h with h1
  · simp only [Option.some.injEq, Prod.mk.injEq] at h
    exact .inl ⟨h1, h.1.symm, h.2.symm⟩
  · right
    have hle : nd.currentTerm ≤ req.term := not_lt.1 h1
    obtain ⟨role, leader, pool, hcu, hrole⟩ := catchUp_eq req hle
    simp only [hcu, Option.bind_eq_bind, Option.bind_eq_some_iff] at h
    obtain ⟨⟨log, ok⟩, hst, nd1, hfc, h⟩ := h
    obtain ⟨log', fs, rfl, hm, hfs, hc⟩ := followCommit_cases hfc
    have hgen : ∀ r : AppendEntriesResponse, r.success = ok → r.term = nd.currentTerm →
        (r.success = true → r.lastLogIndex = log'.getLastLogIndex) →
        Accepts req r nd role log log' fs :=
      fun r hok ht hl => ⟨hle, hrole, by rw [hok]; exact hst, ht, hl, hm, hfs, hc⟩
    obtain ⟨r, hr, ht⟩ : ∃ r : AppendEntriesResponse,
        (if req.prevLogIndex ≤ nd.log.getLastLogIndex then { term := nd.currentTerm }
          else { term := nd.currentTerm, lastLogIndex := nd.log.getLastLogIndex }) = r ∧
          r.term = nd.currentTerm := ⟨_, rfl, by split_ifs <;> rfl⟩
    rw [hr] at h
    split_ifs at h with h2 h3
    · simp only [Option.some.injEq, Prod.mk.injEq] at h
      obtain ⟨rfl, rfl⟩ := h
      exact ⟨role, leader, pool, log, log', fs, hgen _ h3.symm ht fun _ => rfl, rfl⟩
    · simp only [Option.some.injEq, Prod.mk.injEq] at h
      obtain ⟨rfl, rfl⟩ := h
      exact ⟨role, leader, pool, log, log', fs, hgen _ (by simpa using h3) ht (by simp), rfl⟩

theorem appendEntriesRequest_entries (self r : Fin n) (hn : Numbered nd.log.memoryLog) :
    (appendEntriesRequest self r nd).entries =
      nd.log.memoryLog.drop (appendEntriesRequest self r nd).prevLogIndex := by
  simp only [appendEntriesRequest, LogManager.getLastLogIndex_eq hn]
  split_ifs with h
  · exact LogManager.getEntriesStartAt_eq hn _
  · rw [List.drop_eq_nil_of_le (not_lt.1 h)]

theorem mem_of_appendEntriesRequest {r : Fin n} {e : Entry}
    (h : e ∈ (appendEntriesRequest self r nd).entries) : e ∈ nd.log.memoryLog := by
  simp only [appendEntriesRequest] at h
  split_ifs at h
  · exact List.mem_of_mem_drop h
  · simp at h

/-- The log after a request: the entries are written from `storesAt` on, or it is unchanged. -/
theorem onAppendEntries_laid (h : onAppendEntries req nd = some (nd', resp)) :
    (∃ q, storesAt req nd = some q ∧ resp.success = true ∧
        req.prevLogIndex ≤ nd.log.getLastLogIndex ∧
        LogManager.Laid nd.log.memoryLog req.entries q nd'.log.memoryLog) ∨
      (storesAt req nd = none ∧ nd'.log.memoryLog = nd.log.memoryLog ∧
        (resp.success = true → req.entries = [])) := by
  rcases onAppendEntries_cases h with ⟨hlt, rfl, rfl⟩ | ⟨_, _, _, _, _, _, ha, rfl⟩
  · refine .inr ⟨if_neg fun h0 => ?_, rfl, fun h0 => by simp at h0⟩
    omega
  · simp only [ha.memoryLog]
    rcases (storeEntries_laid ha.term_le ha.stored).2 with h1 | ⟨h1, rfl, h2⟩
    · exact .inl h1
    · exact .inr ⟨h1, rfl, h2⟩

theorem onAppendEntries_commit (h : onAppendEntries req nd = some (nd', resp)) :
    nd.log.getLastCommitIndex ≤ nd'.log.getLastCommitIndex := by
  rcases onAppendEntries_cases h with ⟨-, rfl, -⟩ | ⟨_, _, _, log, log', _, ha, rfl⟩
  · exact le_rfl
  · obtain ⟨hc, hl⟩ := storeEntries_laid ha.term_le ha.stored
    have hle : nd.log.getLastCommitIndex ≤ log.getLastCommitIndex := by
      refine LogManager.getLastCommitIndex_le (fun hne => ?_) hc
      rcases hl with ⟨_, -, -, -, hl⟩ | ⟨-, rfl, -⟩
      · exact hl.ne_nil_of
      · exact hne
    rcases ha.commit with rfl | ⟨hset, hlt, -, hne⟩
    · exact hle
    · simp only
      have hne' : log'.memoryLog ≠ [] := ha.memoryLog ▸ hne
      rw [LogManager.getLastCommitIndex_of_ne hne', hset]
      omega

theorem onAppendEntries_fsThread (h : onAppendEntries req nd = some (nd', resp)) :
    nd'.fsThread = nd.fsThread ∨ nd.fsThread = .blocked ∧ nd'.fsThread = .test := by
  rcases onAppendEntries_cases h with ⟨-, rfl, -⟩ | ⟨_, _, _, _, _, _, ha, rfl⟩
  · exact .inl rfl
  · exact ha.fsThread

theorem onAppendEntries_clients (h : onAppendEntries req nd = some (nd', resp)) :
    nd'.clients = nd.clients := by
  rcases onAppendEntries_cases h with ⟨-, rfl, -⟩ | ⟨_, _, _, _, _, _, -, rfl⟩
  · rfl
  · rfl

end AppendEntries

section RequestVote

/-- The log, who has acknowledged what, the namespace with its loop, and the clients' threads are as
they were. -/
structure SameWork (nd nd' : Node n) : Prop where
  log : nd'.log = nd.log
  pendingEntries : nd'.pendingEntries = nd.pendingEntries
  fs : nd'.fs = nd.fs
  fsThread : nd'.fsThread = nd.fsThread
  clients : nd'.clients = nd.clients

theorem startLeaderElection_work (self : Fin n) (nd : Node n) :
    SameWork nd (startLeaderElection self nd) := by
  unfold startLeaderElection
  simp only
  split_ifs
  · exact ⟨rfl, rfl, rfl, rfl, rfl⟩
  · exact ⟨rfl, rfl, rfl, rfl, rfl⟩

/-- A vote: the candidate's last index and term are not behind, and no one else has it. -/
def Grants (req : ReqVoteRequest n) (nd : Node n) : Prop :=
  nd.log.getLastLogIndex ≤ req.lastLogIndex ∧ nd.log.getLastLogTerm ≤ req.lastLogTerm ∧
    (nd.voteFor req.term = none ∨ nd.voteFor req.term = some req.candidateId)

theorem onRequestVote_cases (req : ReqVoteRequest n) (nd : Node n) :
    ∃ role leader pool vote,
      (onRequestVote req nd).1 = { nd with
        currentTerm := max nd.currentTerm req.term, currentRole := role, leaderId := leader
        votePool := pool, voteFor := vote } ∧
      (nd.currentTerm < req.term ∧ role = .kFollower ∨
        req.term ≤ nd.currentTerm ∧ role = nd.currentRole ∧ pool = nd.votePool) ∧
      (Grants req nd ∧ (onRequestVote req nd).2.voteGranted = true ∧
          vote = Function.update nd.voteFor req.term (some req.candidateId) ∨
        (onRequestVote req nd).2.voteGranted = false ∧ vote = nd.voteFor) := by
  unfold onRequestVote Grants
  by_cases ht : nd.currentTerm < req.term
  · obtain ⟨pool, hf⟩ := changeToFollower_eq nd req.term
    simp only [LogManager.getLastLogTermAndIndex, if_pos ht, hf, max_eq_right ht.le]
    split_ifs with hg
    · exact ⟨_, _, _, _, rfl, .inl ⟨ht, rfl⟩, .inl ⟨⟨hg.1.1, hg.1.2, hg.2⟩, rfl, rfl⟩⟩
    · exact ⟨_, _, _, _, rfl, .inl ⟨ht, rfl⟩, .inr ⟨rfl, rfl⟩⟩
  · simp only [LogManager.getLastLogTermAndIndex, if_neg ht, max_eq_left (not_lt.1 ht)]
    split_ifs with hg
    · exact ⟨_, _, _, _, rfl, .inr ⟨not_lt.1 ht, rfl, rfl⟩, .inl ⟨⟨hg.1.1, hg.1.2, hg.2⟩, rfl, rfl⟩⟩
    · exact ⟨_, _, _, _, rfl, .inr ⟨not_lt.1 ht, rfl, rfl⟩, .inr ⟨rfl, rfl⟩⟩

theorem onRequestVote_term (req : ReqVoteRequest n) (nd : Node n) :
    (onRequestVote req nd).2.term = (onRequestVote req nd).1.currentTerm := by
  unfold onRequestVote
  simp only
  split_ifs <;> rfl

theorem onRequestVote_work (req : ReqVoteRequest n) (nd : Node n) :
    SameWork nd (onRequestVote req nd).1 := by
  obtain ⟨_, _, _, _, he, -⟩ := onRequestVote_cases req nd
  rw [he]
  exact ⟨rfl, rfl, rfl, rfl, rfl⟩

/-- The response is counted: the node is a candidate, and the response grants a vote and is not
of a later term. -/
def Counts (resp : ReqVoteResponse) (nd : Node n) : Prop :=
  nd.currentRole = .kCandidate ∧ resp.voteGranted = true ∧ resp.term ≤ nd.currentTerm

instance (resp : ReqVoteResponse) (nd : Node n) : Decidable (Counts resp nd) :=
  inferInstanceAs (Decidable (_ ∧ _ ∧ _))

theorem onRequestVoteResponse_cases (self id : Fin n) (resp : ReqVoteResponse) (nd : Node n) :
    ∃ won next, (∃ role leader pool ni, onRequestVoteResponse self id resp nd = ({ nd with
        currentRole := role, leaderId := leader, votePool := pool, nextIndex := ni }, won, next) ∧
      (won = true ∧ Counts resp nd ∧ role = .kLeader ∧ pool = insert id nd.votePool ∧
          IsQuorum pool ∧ (∀ r, 0 < ni r) ∨
        won = false ∧ role = nd.currentRole ∧ ni = nd.nextIndex ∧
          (pool = nd.votePool ∨ Counts resp nd ∧ pool = insert id nd.votePool))) := by
  simp only [onRequestVoteResponse, Counts, IsQuorum]
  split_ifs with h1 h2 h3
  · exact ⟨_, _, _, _, _, _, rfl, .inr ⟨rfl, rfl, rfl, .inl rfl⟩⟩
  · exact ⟨_, _, _, _, _, _, rfl,
      .inl ⟨rfl, ⟨not_not.1 h1, h2⟩, rfl, rfl, h3, fun _ => Nat.succ_pos _⟩⟩
  · exact ⟨_, _, _, _, _, _, rfl, .inr ⟨rfl, rfl, rfl, .inr ⟨⟨not_not.1 h1, h2⟩, rfl⟩⟩⟩
  · exact ⟨_, _, _, _, _, _, rfl, .inr ⟨rfl, rfl, rfl, .inl rfl⟩⟩

theorem onRequestVoteResponse_work {resp : ReqVoteResponse} {won : Bool} {next : Next}
    (h : onRequestVoteResponse self id resp nd = (nd', won, next)) : SameWork nd nd' := by
  obtain ⟨_, _, _, _, _, _, he, -⟩ := onRequestVoteResponse_cases self id resp nd
  rw [h] at he
  rw [(Prod.mk.inj he).1]
  exact ⟨rfl, rfl, rfl, rfl, rfl⟩

end RequestVote

section Acknowledgements

variable {req : AppendEntriesRequest n} {resp : AppendEntriesResponse}

/-- The entries of a request that are not committed and that a quorum has acknowledged, once `id`
has. -/
def broughtToQuorum (id : Fin n) (req : AppendEntriesRequest n) (nd : Node n) : List Entry :=
  req.entries.filter fun e => nd.log.getLastCommitIndex < e.index ∧
    quorumSize n ≤ (insert id (nd.pendingEntries e.index)).card

/-- The new commit index is the last of them. -/
theorem countAcks_commit (id : Fin n) (commitIndex : ℕ) : ∀ (es : List Entry)
    (pending : ℕ → Finset (Fin n)) (newCommit : ℕ),
    (countAcks id commitIndex es pending newCommit).2 = (((es.filter fun e =>
      commitIndex < e.index ∧ quorumSize n ≤ (insert id (pending e.index)).card).getLast?).map
        (·.index)).getD newCommit
  | [], pending, newCommit => rfl
  | e :: es, pending, newCommit => by
    by_cases h : e.index ≤ commitIndex
    · have h' : ¬ commitIndex < e.index := not_lt.2 h
      simp only [countAcks, if_pos h, countAcks_commit id commitIndex es, List.filter_cons, h',
        false_and, decide_false, Bool.false_eq_true, if_false]
    · have h' : commitIndex < e.index := not_le.1 h
      have hp : ∀ i, insert id (Function.update pending e.index (insert id (pending e.index)) i) =
          insert id (pending i) := by
        intro i
        by_cases hi : i = e.index
        · rw [hi, Function.update_self, Finset.insert_idem]
        · rw [Function.update_of_ne hi]
      simp only [countAcks, if_neg h, countAcks_commit id commitIndex es, List.filter_cons, h', hp,
        Function.update_self, true_and, decide_eq_true_eq]
      split_ifs
      · rw [List.getLast?_cons]
        rcases List.getLast? _ with _ | x
        · rfl
        · rfl
      · rfl

theorem recordAck_cases {commit : Option ℕ} (h : recordAck id req resp nd = some (nd', commit)) :
    ∃ pending log fs, nd' = { nd with
        nextIndex := Function.update nd.nextIndex id (resp.lastLogIndex + 1)
        pendingEntries := pending, log := log, fsThread := fs } ∧
      log.memoryLog = nd.log.memoryLog ∧
      (fs = nd.fsThread ∨ nd.fsThread = .blocked ∧ fs = .test) ∧
      (commit = none ∧ log = nd.log ∨ ∃ e, (broughtToQuorum id req nd).getLast? = some e ∧
        commit = some e.index ∧ log.lastCommitedIndex = e.index ∧
        e.index ≤ nd.log.getLastLogIndex) := by
  have hcount : (countAcks id nd.log.getLastCommitIndex req.entries nd.pendingEntries
      nd.log.getLastCommitIndex).2 =
        ((broughtToQuorum id req nd).getLast?.map (·.index)).getD nd.log.getLastCommitIndex :=
    countAcks_commit _ _ _ _ _
  simp only [recordAck, resetNextIndex] at h
  rcases hl : (broughtToQuorum id req nd).getLast? with _ | e
  · rw [hl] at hcount
    simp only [hcount, Option.map_none, Option.getD_none, ne_eq, not_true_eq_false, if_false,
      Option.some.injEq, Prod.mk.injEq] at h
    obtain ⟨rfl, rfl⟩ := h
    exact ⟨_, _, _, rfl, rfl, .inl rfl, .inl ⟨rfl, rfl⟩⟩
  · have hlt : nd.log.getLastCommitIndex < e.index := by
      have := (List.mem_filter.1 (List.mem_of_getLast? hl)).2
      simp only [decide_eq_true_eq] at this
      exact this.1
    rw [hl] at hcount
    simp only [hcount, Option.map_some, Option.getD_some, ne_eq, hlt.ne, not_false_eq_true,
      if_true, Option.map_eq_some_iff, Prod.mk.injEq] at h
    obtain ⟨log, hlog, rfl, rfl⟩ := h
    obtain ⟨hne, hm, hc⟩ := LogManager.setLastCommitIndex_spec hlog
    refine ⟨_, log, _, rfl, hm, ?_, ?_⟩
    · simp only
      split_ifs with h2
      · exact .inr ⟨h2, rfl⟩
      · exact .inl rfl
    · rcases hc with ⟨rfl, -⟩ | ⟨hc, hle⟩
      · have : nd.log.lastCommitedIndex ≠ e.index := by
          rw [← LogManager.getLastCommitIndex_of_ne hne]
          exact hlt.ne
        exact .inl ⟨if_neg this, rfl⟩
      · exact .inr ⟨e, rfl, if_pos hc, hc, hle⟩

theorem onAppendEntriesResponse_cases {commit : Option ℕ} {next : Next}
    (h : onAppendEntriesResponse id req resp nd = some (nd', commit, next)) :
    (resp.term = nd.currentTerm ∧ resp.success = true ∧ req.entries ≠ [] ∧
        recordAck id req resp nd = some (nd', commit)) ∨
      (nd.currentTerm < resp.term ∧ commit = none ∧ nd' = changeToFollower resp.term nd) ∨
      (commit = none ∧ ∃ ni, nd' = { nd with nextIndex := ni } ∧
        ∀ r, ni r = nd.nextIndex r ∨ 0 < ni r) := by
  simp only [onAppendEntriesResponse] at h
  split_ifs at h with h1 h2 h3 h4
  · simp only [Option.some.injEq, Prod.mk.injEq] at h
    obtain ⟨rfl, rfl, -⟩ := h
    exact .inr (.inr ⟨rfl, _, rfl, fun _ => .inl rfl⟩)
  · obtain ⟨⟨x, c⟩, hr, he⟩ := Option.map_eq_some_iff.1 h
    simp only [Prod.mk.injEq] at he
    obtain ⟨rfl, rfl, -⟩ := he
    exact .inl ⟨h1, h2, fun h0 => h3 (List.isEmpty_iff.2 h0), hr⟩
  · simp only [Option.some.injEq, Prod.mk.injEq] at h
    obtain ⟨rfl, rfl, -⟩ := h
    refine .inr (.inr ⟨rfl, ?_⟩)
    simp only [backOff, resetNextIndex]
    split_ifs with h5
    all_goals
      refine ⟨_, rfl, fun r => ?_⟩
      rw [Function.update_apply]
      split_ifs
    · right
      omega
    · exact .inl rfl
    · right
      omega
    · exact .inl rfl
  · simp only [Option.some.injEq, Prod.mk.injEq] at h
    obtain ⟨rfl, rfl, -⟩ := h
    exact .inr (.inl ⟨h4, rfl, rfl⟩)
  · simp only [Option.some.injEq, Prod.mk.injEq] at h
    obtain ⟨rfl, rfl, -⟩ := h
    exact .inr (.inr ⟨rfl, _, rfl, fun _ => .inl rfl⟩)

theorem onAppendEntriesResponse_commit {commit : Option ℕ} {next : Next}
    (h : onAppendEntriesResponse id req resp nd = some (nd', commit, next)) :
    nd.log.getLastCommitIndex ≤ nd'.log.getLastCommitIndex := by
  rcases onAppendEntriesResponse_cases h with ⟨-, -, -, hr⟩ | ⟨-, -, rfl⟩ | ⟨-, _, rfl, -⟩
  · obtain ⟨_, log, _, rfl, hm, -, ⟨-, rfl⟩ | ⟨e, he, -, hc, hle⟩⟩ := recordAck_cases hr
    · exact le_rfl
    · have hlt : nd.log.getLastCommitIndex < e.index := by
        have := (List.mem_filter.1 (List.mem_of_getLast? he)).2
        simp only [decide_eq_true_eq] at this
        exact this.1
      have hne : nd.log.memoryLog ≠ [] := by
        intro h0
        rw [LogManager.getLastLogIndex, h0] at hle
        simp only [List.getLast?_nil, Option.map_none, Option.getD_none, Nat.le_zero] at hle
        omega
      simp only
      rw [LogManager.getLastCommitIndex_of_ne (hm ▸ hne : log.memoryLog ≠ []), hc]
      exact hlt.le
  · exact le_rfl
  · exact le_rfl

theorem onAppendEntriesResponse_fsThread {commit : Option ℕ} {next : Next}
    (h : onAppendEntriesResponse id req resp nd = some (nd', commit, next)) :
    nd'.fsThread = nd.fsThread ∨ nd.fsThread = .blocked ∧ nd'.fsThread = .test := by
  rcases onAppendEntriesResponse_cases h with ⟨-, -, -, hr⟩ | ⟨-, -, rfl⟩ | ⟨-, _, rfl, -⟩
  · obtain ⟨_, _, _, rfl, -, hfs, -⟩ := recordAck_cases hr
    exact hfs
  · exact .inl rfl
  · exact .inl rfl

end Acknowledgements

section Threads

/-- A step of a client's thread: the place it goes to, and the log. -/
inductive MetaStep (nd : Node n) : ClientThread n → ClientThread n → LogManager → Prop
  | noLeader {op : MetaOp} {path : Str} : MetaStep nd (.accepted op path)
    (.answered op path none { status := .kNoLeader }) nd.log
  | led {op : MetaOp} {path : Str} : MetaStep nd (.accepted op path) (.led op path) nd.log
  | built {op : MetaOp} {path : Str} :
    MetaStep nd (.led op path) (.built ⟨nd.currentTerm, 0, op, path⟩) nd.log
  | append {e : Entry} :
    MetaStep nd (.built e) (.waiting (nd.log.append e).2) (nd.log.append e).1
  | ok {e : Entry} (h : e.index ≤ nd.log.getLastCommitIndex) : MetaStep nd (.waiting e)
    (.answered e.op e.value (some e) { status := .kOK }) nd.log
  | timeout {e : Entry} : MetaStep nd (.waiting e)
    (.answered e.op e.value (some e) { status := .kTimeout }) nd.log

/-- A client's thread touches only the clients, and the log when it appends its entry. -/
theorem onMetaOperation_cases {c : ℕ} (h : onMetaOperation c nd = some nd') :
    ∃ th th' log, nd.clients[c]? = some th ∧ MetaStep nd th th' log ∧
      nd' = { nd with clients := nd.clients.set c th', log := log } := by
  simp only [onMetaOperation] at h
  split at h
  · rename_i hth
    split_ifs at h
    · exact ⟨_, _, _, hth, .noLeader, (Option.some.inj h).symm⟩
    · exact ⟨_, _, _, hth, .led, (Option.some.inj h).symm⟩
  · rename_i hth
    exact ⟨_, _, _, hth, .built, (Option.some.inj h).symm⟩
  · rename_i hth
    exact ⟨_, _, _, hth, .append, (Option.some.inj h).symm⟩
  · rename_i hth
    split_ifs at h with hle
    · exact ⟨_, _, _, hth, .ok hle, (Option.some.inj h).symm⟩
    · exact ⟨_, _, _, hth, .timeout, (Option.some.inj h).symm⟩
  · simp at h

/-- A step of `FSUpdateLoop`: the namespace's index, the place it goes to, and the entry applied. -/
inductive FSStep (nd : Node n) : ℕ → FSThread → Option (ℕ × Entry × Option Bool) → Prop
  | start (h : nd.fsThread = .test) (hne : nd.log.getLastCommitIndex ≠ nd.fs.commitedIndex) :
    FSStep nd nd.fs.commitedIndex (.loop (nd.fs.commitedIndex + 1) 0) none
  | block (h : nd.fsThread = .test) : FSStep nd nd.fs.commitedIndex .blocking none
  | blocked (h : nd.fsThread = .blocking) : FSStep nd nd.fs.commitedIndex .blocked none
  | next {i c : ℕ} (h : nd.fsThread = .loop i c) (hi : i ≤ nd.log.getLastCommitIndex) :
    FSStep nd nd.fs.commitedIndex (.gateLeader i c) none
  | done {i c : ℕ} (h : nd.fsThread = .loop i c) (hi : nd.log.getLastCommitIndex < i) :
    FSStep nd nd.fs.commitedIndex (.finish c) none
  | gate {i c : ℕ} {th : FSThread} (h : nd.fsThread = .gateLeader i c ∨
      nd.fsThread = .gatePending i c ∨ nd.fsThread = .gateFollower i c)
    (hth : th = .gatePending i c ∨ th = .gateFollower i c ∨ th = .apply i c) :
    FSStep nd nd.fs.commitedIndex th none
  | stop {i c : ℕ} (h : nd.fsThread = .gateFollower i c) (hr : nd.currentRole ≠ .kFollower) :
    FSStep nd nd.fs.commitedIndex (.finish c) none
  | apply {i c : ℕ} {e : Entry} {rt : Option Bool} (h : nd.fsThread = .apply i c)
    (he : nd.log.getEntry i = some e) :
    FSStep nd nd.fs.commitedIndex (.loop (i + 1) i) (some (i, e, rt))
  | finish {c : ℕ} (h : nd.fsThread = .finish c) : FSStep nd c .test none

/-- `FSUpdateLoop` touches only the namespace. -/
theorem fsUpdateLoop_cases {env : Ptr → Alloc} {applied : Option (ℕ × Entry × Option Bool)}
    (h : fsUpdateLoop env nd = some (nd', applied)) :
    ∃ fs th index, nd' = { nd with fs := fs, fsThread := th } ∧ fs.commitedIndex = index ∧
      FSStep nd index th applied := by
  simp only [fsUpdateLoop] at h
  split at h
  case h_8 i c hth =>
    simp only [Option.bind_eq_bind, Option.bind_eq_some_iff, Prod.exists] at h
    obtain ⟨e, he, fs, rt, hap, h⟩ := h
    simp only [Option.pure_def, Option.some.injEq, Prod.mk.injEq] at h
    obtain ⟨rfl, rfl⟩ := h
    exact ⟨fs, _, _, rfl, applyEntry_commitedIndex hap, .apply hth he⟩
  case h_3 => simp at h
  all_goals
    rename_i hth
    try split_ifs at h with hif
    all_goals
      simp only [Option.some.injEq, Prod.mk.injEq] at h
      obtain ⟨rfl, rfl⟩ := h
      refine ⟨_, _, _, rfl, rfl, ?_⟩
  · exact .start hth hif
  · exact .block hth
  · exact .blocked hth
  · exact .next hth hif
  · exact .done hth (not_le.1 hif)
  · exact .gate (.inl hth) (.inl rfl)
  · exact .gate (.inl hth) (.inr (.inl rfl))
  · exact .gate (.inr (.inl hth)) (.inr (.inr rfl))
  · exact .gate (.inr (.inl hth)) (.inr (.inl rfl))
  · exact .gate (.inr (.inr hth)) (.inr (.inr rfl))
  · exact .stop hth fun hr => hif (isFollower_eq_true.2 hr)
  · exact .finish hth

end Threads

end Node

end RaftFS
