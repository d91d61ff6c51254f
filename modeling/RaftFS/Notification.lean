import RaftFS.Cluster

/-!
# The notification

A thread that has a new commit index sets it in the log and then calls `fs_commit.notify_all()`,
both under `m`. `FSUpdateLoop` tests and blocks under `fs_m`, so it may take steps between the two,
which are one step in `RaftFS.Cluster`. Here they are two: the cluster with, for each node, the
thread that has its notification still to make.
-/

namespace RaftFS

variable {n : ℕ}

namespace Node

variable (id : Fin n) (req : AppendEntriesRequest n) (resp : AppendEntriesResponse) (nd : Node n)

/-- `OnAppendEntries` finds the leader's commit index larger than that of the log it has stored the
entries in. -/
def FollowsCommit : Prop :=
  nd.currentTerm ≤ req.term ∧
    ∃ r ∈ storeEntries req nd.log, r.1.getLastCommitIndex < req.leaderCommitIndex

instance : Decidable (FollowsCommit req nd) := inferInstanceAs (Decidable (_ ∧ ∃ r ∈ _, _))

/-- `RemoteHostLoop` finds a new commit index when it has counted an acknowledgement. -/
def CountsCommit : Prop :=
  resp.term = nd.currentTerm ∧ resp.success = true ∧ req.entries ≠ [] ∧
    nd.log.getLastCommitIndex ≠ (countAcks id nd.log.getLastCommitIndex req.entries
      nd.pendingEntries nd.log.getLastCommitIndex).2

instance : Decidable (CountsCommit id req resp nd) := inferInstanceAs (Decidable (_ ∧ _ ∧ _ ∧ _))

end Node

/-- What is left to do after the notification: `OnAppendEntries` gives its response to the call `k`,
and `RemoteHostLoop` for `r` waits. -/
inductive Rest (n : ℕ)
  | respond (k : ℕ) (resp : AppendEntriesResponse)
  | wait (r : Fin n)
  deriving DecidableEq, Repr

namespace Cluster

variable (s : Cluster n)

/-- The node whose mutex the action takes, if it takes one. -/
def mutex? : Action n → Option (Fin n)
  | .leaderTimeout x | .remoteWake x _ => some x
  | .aeHandle k => s.aeCalls[k]?.map (·.dst)
  | .aeReturn k | .aeNotConnected k | .aeFail k => s.aeCalls[k]?.map (·.src)
  | .rvHandle k => s.rvCalls[k]?.map (·.dst)
  | .rvReturn k | .rvNotConnected k | .rvFail k => s.rvCalls[k]?.map (·.src)
  | .aeSend _ | .rvSend _ | .clientRequest _ _ _ | .clientStep _ _ | .fsStep _ _ | .fsWake _ => none

/-- The node `x` becomes `nd`, but for its `FSUpdateLoop`, which has not been notified. -/
def setUnnotified (x : Fin n) (nd : Node n) : Cluster n :=
  s.setNode x { nd with fsThread := (s.node x).fsThread }

/-- The action as far as the notification, if it comes to one: the node, what is left to do, and
the cluster. -/
def commits : Action n → Option (Fin n × Rest n × Cluster n)
  | .aeHandle k => do
    let c ← s.aeCalls[k]?
    if c.phase = .sent ∧ (s.node c.dst).FollowsCommit c.req then
      let (nd, resp) ← (s.node c.dst).onAppendEntries c.req
      return (c.dst, .respond k resp, s.setUnnotified c.dst nd)
    else none
  | .aeReturn k => do
    let c ← s.aeCalls[k]?
    match c.phase with
    | .handled resp =>
      if s.inAECall k c ∧ (s.node c.src).CountsCommit c.dst c.req resp then
        let (nd, commit, _) ← (s.node c.src).onAppendEntriesResponse c.dst c.req resp
        let ev := commit.map fun N => Event.committed c.src nd.currentTerm N nd.log.memoryLog
        return (c.src, .wait c.dst, (s.setUnnotified c.src nd).log ev)
      else none
    | _ => none
  | _ => none

/-- The notification of `x`. -/
def notifyAll (x : Fin n) : Cluster n := s.setNode x (s.node x).notifyFS

def finish (x : Fin n) : Rest n → Option (Cluster n)
  | .respond k resp => s.aeCalls[k]?.map fun c => s.setAECall k { c with phase := .handled resp }
  | .wait r => some (s.setThread x r .waiting)

end Cluster

/-- The cluster, and for each node what the thread that has set its commit index and has not made
the notification has left to do. -/
structure FineCluster (n : ℕ) extends Cluster n where
  owed : Fin n → Option (Rest n)

inductive FineAction (n : ℕ)
  | act (a : Action n)
  | notify (x : Fin n)

namespace FineCluster

/-- No one has a notification to make. -/
def settled (s : Cluster n) : FineCluster n := { s with owed := fun _ => none }

def step (s : FineCluster n) : FineAction n → Option (FineCluster n)
  | .act a =>
    -- the mutex is held until the notification is made and the rest is done
    if ∃ x ∈ s.mutex? a, (s.owed x).isSome then none
    else match s.commits a with
      | some (x, rest, t) => some { t with owed := Function.update s.owed x (some rest) }
      | none => (s.toCluster.step a).map fun t => { t with owed := s.owed }
  | .notify x => do
    let rest ← s.owed x
    let t ← (s.notifyAll x).finish x rest
    return { t with owed := Function.update s.owed x none }

/-- `FSUpdateLoop` of `x` is blocked, the log's commit index is not the namespace's, and no thread
has a notification to make. -/
def SleepsOnWork (s : FineCluster n) (x : Fin n) : Prop :=
  (s.node x).fsThread = .blocked ∧
    (s.node x).log.getLastCommitIndex ≠ (s.node x).fs.commitedIndex ∧ s.owed x = none

end FineCluster

/-- The cluster with commits and notifications apart. -/
def fineCluster (n : ℕ) : Runs.Sys (FineCluster n) (FineAction n) where
  init s := ∃ env junk, s = .settled (.init env junk)
  step := FineCluster.step

end RaftFS
