import RaftFS.Cluster

/-!
# The timers

The cluster with what its threads take from the clock. `PostponeElection` puts a node's next
election off, `CheckLeaderLoop` starts it when it is due and waits on `new_event` until then, and a
`RemoteHostLoop` waits on `new_event` for a quarter of a second. Every node reads a clock of its
own. A thread may be late, and it may be woken before its time.

When a thread could go on, when an election was last put off and when a call was built are kept for
what is said of them; the code does not keep them.
-/

namespace RaftFS

variable {n : ℕ}

/-- The clock counts nanoseconds. -/
def milliseconds (k : ℕ) : ℕ := 1000000 * k

/-- Where `CheckLeaderLoop` is: before its first `PostponeElection`, at the top of the loop, or
waiting until a time, if any. The first two tell since when. -/
inductive CheckThread
  | start (since : ℕ)
  | ready (since : ℕ)
  | waiting (deadline : Option ℕ)
  deriving DecidableEq, Repr

/-- From when on the thread can go on, unless it is notified. -/
def CheckThread.due : CheckThread → Option ℕ
  | .start since | .ready since => some since
  | .waiting deadline => deadline

structure Timer (n : ℕ) where
  nextElection : ℕ
  postponedAt : ℕ
  checkThread : CheckThread
  remoteDue : Fin n → ℕ

namespace Timer

def lowerBound : ℕ := 500

def upperBound : ℕ := 1000

variable (now : ℕ) (tm : Timer n)

/-- `PostponeElection`, with the delay drawn. -/
def postponeElection (delay : ℕ) : Timer n :=
  { tm with nextElection := now + milliseconds delay, postponedAt := now }

/-- `CheckLeaderLoop` returns from its wait. -/
def wake : Timer n :=
  { tm with checkThread := match tm.checkThread with
      | .waiting none => .ready now
      | .waiting (some deadline) => .ready (min now deadline)
      | thread => thread }

/-- The `RemoteHostLoop` for `r` goes into its wait. -/
def waitRemote (r : Fin n) : Timer n :=
  { tm with remoteDue := Function.update tm.remoteDue r (now + milliseconds 250) }

/-- `CheckLeaderLoop` goes into its wait. -/
def waitCheck (leader : Bool) : Timer n :=
  { tm with checkThread := .waiting (if leader then none else some tm.nextElection) }

end Timer

namespace Node

/-- `OnAppendEntries` calls `ChangeToFollower`. -/
def StepsDown (req : AppendEntriesRequest n) (nd : Node n) : Prop :=
  nd.currentTerm < req.term ∨ nd.currentRole = .kCandidate ∧ nd.currentTerm ≤ req.term

/-- `OnRequestVote` calls `PostponeElection`, in `ChangeToFollower` or for a vote in its term. -/
def PostponesFor (req : ReqVoteRequest n) (nd : Node n) : Prop :=
  nd.currentTerm < req.term ∨
    (nd.onRequestVote req).2.voteGranted = true ∧ req.term = nd.currentTerm

instance (req : AppendEntriesRequest n) (nd : Node n) : Decidable (StepsDown req nd) :=
  inferInstanceAs (Decidable (_ ∨ _))

instance (req : ReqVoteRequest n) (nd : Node n) : Decidable (PostponesFor req nd) :=
  inferInstanceAs (Decidable (_ ∨ _))

end Node

namespace Cluster

variable (s : Cluster n)

/-- The node that calls `PostponeElection` in the action. -/
def postpones : Action n → Option (Fin n)
  | .aeHandle k => do
    let c ← s.aeCalls[k]?
    if (s.node c.dst).currentTerm ≤ c.req.term then some c.dst else none
  | .aeReturn k => do
    let c ← s.aeCalls[k]?
    let resp ← c.phase.resp?
    if (s.node c.src).currentTerm < resp.term then some c.src else none
  | .rvHandle k => do
    let c ← s.rvCalls[k]?
    if (s.node c.dst).PostponesFor c.req then some c.dst else none
  | _ => none

/-- The node whose `new_event` is notified in the action. -/
def notifies : Action n → Option (Fin n)
  | .aeHandle k => do
    let c ← s.aeCalls[k]?
    if (s.node c.dst).StepsDown c.req then some c.dst else none
  | .aeReturn k => do
    let c ← s.aeCalls[k]?
    let resp ← c.phase.resp?
    if (s.node c.src).currentTerm < resp.term then some c.src else none
  | .rvHandle k => do
    let c ← s.rvCalls[k]?
    if (s.node c.dst).currentTerm < c.req.term then some c.dst else none
  | .rvReturn k => do
    let c ← s.rvCalls[k]?
    let resp ← c.phase.resp?
    if ((s.node c.src).onRequestVoteResponse c.src c.dst resp).2.1 then some c.src else none
  | .clientStep x c => do
    let th ← (s.node x).clients[c]?
    match th with
    | .built _ => some x
    | _ => none
  | _ => none

/-- The `RemoteHostLoop` that takes the action, by its node and its remote. -/
def remoteLoop : Action n → Option (Fin n × Fin n)
  | .remoteWake x r => some (x, r)
  | .aeReturn k | .aeNotConnected k | .aeFail k => s.aeCalls[k]?.map fun c => (c.src, c.dst)
  | .rvReturn k | .rvNotConnected k | .rvFail k => s.rvCalls[k]?.map fun c => (c.src, c.dst)
  | _ => none

end Cluster

/-- The cluster, what the nodes' clocks read, their timers, and when each call of `AppendEntries`
was built, by its caller's clock. -/
structure TimedCluster (n : ℕ) extends Cluster n where
  now : Fin n → ℕ
  timer : Fin n → Timer n
  builtAt : ℕ → ℕ

/-- The clocks go to new readings, a step is taken that is not one of `CheckLeaderLoop`, or
`CheckLeaderLoop` takes a step or returns from its wait. -/
inductive TimedAction (n : ℕ)
  | tick (now : Fin n → ℕ)
  | act (a : Action n) (delay : ℕ)
  | checkLoop (x : Fin n) (delay : ℕ)
  | checkWake (x : Fin n)

namespace TimedCluster

def init (env : Fin n → Ptr → Alloc) (junk : Fin n → Fin n → ℕ) (now delay : Fin n → ℕ) :
    TimedCluster n where
  toCluster := .init env junk
  now := now
  timer := fun x =>
    { nextElection := now x + milliseconds (delay x)
      postponedAt := now x
      checkThread := .start (now x)
      remoteDue := fun _ => now x }
  builtAt := fun _ => 0

variable (s : TimedCluster n)

def setTimer (x : Fin n) (tm : Timer n) : TimedCluster n :=
  { s with timer := Function.update s.timer x tm }

/-- What the action makes of the timer of `y`, where it makes `t` of the cluster. -/
def timerAfter (a : Action n) (delay : ℕ) (t : Cluster n) (y : Fin n) : Timer n :=
  let tm := s.timer y
  let tm := if s.postpones a = some y then tm.postponeElection (s.now y) delay else tm
  let tm := if s.notifies a = some y then tm.wake (s.now y) else tm
  match s.remoteLoop a with
  | some (x, r) =>
    if x = y ∧ (t.node x).remoteThread r = .waiting then tm.waitRemote (s.now y) r else tm
  | none => tm

/-- When the calls were built, with the next one's time if the action builds it. -/
def builtAfter (a : Action n) : ℕ → ℕ :=
  match s.remoteLoop a with
  | some (x, _) => Function.update s.builtAt s.aeCalls.length (s.now x)
  | none => s.builtAt

/-- The election of `x` is due. -/
def Due (x : Fin n) : Prop := (s.node x).isLeader = false ∧ (s.timer x).nextElection ≤ s.now x

instance (x : Fin n) : Decidable (s.Due x) := inferInstanceAs (Decidable (_ ∧ _))

/-- The election that `CheckLeaderLoop` starts. -/
def electLeader (x : Fin n) (delay : ℕ) : TimedCluster n :=
  { s with
    toCluster := s.setNode x ((s.node x).startLeaderElection x)
    timer := Function.update s.timer x ((s.timer x).postponeElection (s.now x) delay) }

/-- `CheckLeaderLoop` of `x` from the top of the loop into its wait. -/
def checkLeader (x : Fin n) (delay : ℕ) : TimedCluster n :=
  let s := if s.Due x then s.electLeader x delay else s
  s.setTimer x ((s.timer x).waitCheck (s.node x).isLeader)

/-- The delay is one that may be drawn. -/
def Drawn (delay : ℕ) : Prop := Timer.lowerBound ≤ delay ∧ delay ≤ Timer.upperBound

instance (delay : ℕ) : Decidable (Drawn delay) := inferInstanceAs (Decidable (_ ∧ _))

def step : TimedAction n → Option (TimedCluster n)
  | .tick now => some { s with now := now }
  | .act (.leaderTimeout _) _ => none
  | .act a delay =>
    if Drawn delay then
      (s.toCluster.step a).map fun t =>
        { toCluster := t, now := s.now, timer := s.timerAfter a delay t
          builtAt := s.builtAfter a }
    else none
  | .checkLoop x delay =>
    if Drawn delay then
      match (s.timer x).checkThread with
      | .start _ => some (s.setTimer x { (s.timer x).postponeElection (s.now x) delay with
          checkThread := .ready (s.now x) })
      | .ready _ => some (s.checkLeader x delay)
      | .waiting _ => none
    else none
  | .checkWake x =>
    match (s.timer x).checkThread with
    | .waiting _ => some (s.setTimer x ((s.timer x).wake (s.now x)))
    | _ => none

/-- The action has `x` call `PostponeElection`. -/
def Postpones (x : Fin n) : TimedAction n → Prop
  | .act a _ => s.postpones a = some x
  | .checkLoop y _ => y = x ∧ match (s.timer x).checkThread with
      | .start _ => True
      | .ready _ => s.Due x
      | .waiting _ => False
  | _ => False

/-- The action has `x` call `StartLeaderElection`. -/
def Elects (x : Fin n) : TimedAction n → Prop
  | .checkLoop y _ => y = x ∧ s.Due x ∧ ∃ since, (s.timer x).checkThread = .ready since
  | _ => False

end TimedCluster

/-- A cluster of `n` nodes with clocks. -/
def timedCluster (n : ℕ) : Runs.Sys (TimedCluster n) (TimedAction n) where
  init s := ∃ env junk now delay, (∀ x, TimedCluster.Drawn (delay x)) ∧
    s = .init env junk now delay
  step := TimedCluster.step

end RaftFS
