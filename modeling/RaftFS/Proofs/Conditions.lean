import RaftFS.Proofs.LogOrder

/-!
# Conditions on a step

What the code does not test and the guarantees need, as conditions on the state before a step.
`Matching` is for the logs to match: no stale vote is counted, a batch put at the end of a log
follows the entry it followed in the sender's, and only a leader appends. `Durable` is for what is
committed to stay: a batch loses no entry, the nodes counted for the new commit index have in this
term answered a request with its entry, and that entry is of this term. `Following` is for a
follower's commit index: where it is taken with nothing written, the log agrees there with the
sender's.
-/

namespace RaftFS

variable {n : ℕ}

/-- The batch reaches at most one entry past the end of `l`, and if it is put at the end of `l`, the
entry before it is of the same term there as in `src`. -/
def MatchesAt (l src es : List Entry) (q : ℕ) : Prop :=
  (q < l.length → q + es.length ≤ l.length + 1) ∧
    (q = l.length → ∀ back ∈ l.getLast?, ∀ e ∈ src[q - 1]?, back.term = e.term)

instance (l src es : List Entry) (q : ℕ) : Decidable (MatchesAt l src es q) :=
  inferInstanceAs (Decidable (_ ∧ (_ → ∀ back ∈ l.getLast?, ∀ e ∈ src[q - 1]?, _)))

/-- The batch has the indices and terms that `l` has from `q` on, as far as both go. -/
def SameFrom (l es : List Entry) (q : ℕ) : Prop :=
  ∀ p ∈ es.zip (l.drop q), p.1.index = p.2.index ∧ p.1.term = p.2.term

instance (l es : List Entry) (q : ℕ) : Decidable (SameFrom l es q) :=
  inferInstanceAs (Decidable (∀ p ∈ es.zip (l.drop q), _))

/-- The batch does not reach past the end of `l`, and it ends before it only where it disagrees
with `l`. -/
def LosesNothing (l es : List Entry) (q : ℕ) : Prop :=
  q < l.length → q + es.length ≤ l.length ∧ (SameFrom l es q → q + es.length = l.length)

instance (l es : List Entry) (q : ℕ) : Decidable (LosesNothing l es q) :=
  inferInstanceAs (Decidable (_ → _))

namespace Cluster

variable (s : Cluster n)

/-- The votes counted, the batches written and the entries appended are in their place. -/
def Matching : Action n → Prop
  | .rvReturn k => CountsOwnTerm s (.rvReturn k)
  | .aeHandle k => ∀ c ∈ s.aeCalls[k]?, ∀ q ∈ (s.node c.dst).storesAt c.req,
      MatchesAt (s.node c.dst).log.memoryLog c.srcLog c.req.entries q
  | .clientStep x c => ∀ cl ∈ (s.node x).clients[c]?, ∀ e ∈ cl.built?,
      (s.node x).currentRole = .kLeader ∧ (s.node x).currentTerm = e.term
  | _ => True

instance (a : Action n) : Decidable (s.Matching a) :=
  Action.decidable (Q := True) (fun
    | .rvReturn k => some (inferInstanceAs (Decidable (CountsOwnTerm s (.rvReturn k))))
    | .aeHandle k => some (inferInstanceAs (Decidable (∀ c ∈ s.aeCalls[k]?,
        ∀ q ∈ (s.node c.dst).storesAt c.req, MatchesAt _ _ _ q)))
    | .clientStep x c => some (inferInstanceAs (Decidable (∀ cl ∈ (s.node x).clients[c]?,
        ∀ e ∈ cl.built?, _ ∧ _)))
    | _ => none) a

theorem Matching.countsOwnTerm {s : Cluster n} {a : Action n} (h : s.Matching a) :
    CountsOwnTerm s a := by
  cases a with
  | rvReturn k => exact h
  | _ => trivial

/-- `id` has answered with success a request of `x` with `e`, in the term `x` is in. -/
def HasAcked (x id : Fin n) (e : Entry) : Prop :=
  ∃ c ∈ s.aeCalls, c.src = x ∧ c.dst = id ∧ c.req.term = (s.node x).currentTerm ∧
    (∃ resp ∈ c.phase.resp?, resp.success = true) ∧ e ∈ c.req.entries

instance (x id : Fin n) (e : Entry) : Decidable (s.HasAcked x id e) :=
  inferInstanceAs (Decidable (∃ c ∈ s.aeCalls, _ ∧ _ ∧ _ ∧ (∃ resp ∈ c.phase.resp?, _) ∧ _))

/-- The batches written lose nothing. An entry that becomes the last committed is of the leader's
term, and the nodes counted for it have acknowledged it in that term. -/
def Durable : Action n → Prop
  | .aeHandle k => ∀ c ∈ s.aeCalls[k]?, ∀ q ∈ (s.node c.dst).storesAt c.req,
      LosesNothing (s.node c.dst).log.memoryLog c.req.entries q
  | .aeReturn k => ∀ c ∈ s.aeCalls[k]?, ∀ resp ∈ c.phase.resp?,
      resp.term = (s.node c.src).currentTerm → resp.success = true →
      ∀ e ∈ ((s.node c.src).broughtToQuorum c.dst c.req).getLast?,
        e.term = (s.node c.src).currentTerm ∧
          ∀ id ∈ insert c.dst ((s.node c.src).pendingEntries e.index), s.HasAcked c.src id e
  | _ => True

instance (a : Action n) : Decidable (s.Durable a) :=
  Action.decidable (Q := True) (fun
    | .aeHandle k => some (inferInstanceAs (Decidable (∀ c ∈ s.aeCalls[k]?,
        ∀ q ∈ (s.node c.dst).storesAt c.req, LosesNothing _ _ q)))
    | .aeReturn k => some (inferInstanceAs (Decidable (∀ c ∈ s.aeCalls[k]?,
        ∀ resp ∈ c.phase.resp?, _ → _ →
          ∀ e ∈ ((s.node c.src).broughtToQuorum c.dst c.req).getLast?, _ ∧
            ∀ id ∈ insert c.dst ((s.node c.src).pendingEntries e.index), _)))
    | _ => none) a

/-- Where a node takes the commit index of a request and writes none of its entries, its log has at
that index an entry of the same term as the sender's had. -/
def Following : Action n → Prop
  | .aeHandle k => ∀ c ∈ s.aeCalls[k]?, (s.node c.dst).storesAt c.req = none →
      (s.node c.dst).currentTerm ≤ c.req.term →
      (s.node c.dst).log.getLastCommitIndex < c.req.leaderCommitIndex →
      c.req.leaderCommitIndex ≤ (s.node c.dst).log.getLastLogIndex →
      ∀ e ∈ (s.node c.dst).log.memoryLog[c.req.leaderCommitIndex - 1]?,
        ∀ e' ∈ c.srcLog[c.req.leaderCommitIndex - 1]?, e.term = e'.term
  | _ => True

instance (a : Action n) : Decidable (s.Following a) :=
  Action.decidable (Q := True) (fun
    | .aeHandle k => some (inferInstanceAs (Decidable (∀ c ∈ s.aeCalls[k]?, _ → _ → _ → _ →
        ∀ e ∈ (s.node c.dst).log.memoryLog[c.req.leaderCommitIndex - 1]?,
          ∀ e' ∈ c.srcLog[c.req.leaderCommitIndex - 1]?, _)))
    | _ => none) a

/-- What it takes for commits to be safe. -/
def Committing (a : Action n) : Prop := s.Matching a ∧ s.Durable a

instance (a : Action n) : Decidable (s.Committing a) := inferInstanceAs (Decidable (_ ∧ _))

/-- What it takes for what is applied to be safe. -/
def Applying (a : Action n) : Prop := s.Matching a ∧ s.Durable a ∧ s.Following a

instance (a : Action n) : Decidable (s.Applying a) := inferInstanceAs (Decidable (_ ∧ _ ∧ _))

end Cluster

end RaftFS
