import RaftFS.Consensus
import RaftFS.Lib.Runs

/-!
# The cluster

The nodes, and every call one has made of another. A call is built under the caller's mutex, sent
once the mutex is released, handled by the callee at any later time or never, and its response is
taken up by the caller under the mutex, unless the caller has given up on it before. A call given
up on may still be handled. A call is handled once.

A step is one stretch under a mutex, or one step of a thread that takes none.
-/

namespace RaftFS

inductive Phase (ρ : Type)
  | built
  | sent
  | handled (resp : ρ)
  deriving DecidableEq, Repr

/-- The callee's response, once it has handled the call. -/
def Phase.resp? {ρ : Type} : Phase ρ → Option ρ
  | .handled resp => some resp
  | _ => none

/-- A call of `AppendEntries`. The caller's log when it built the request is kept with it; it is
not sent. -/
structure AppendEntriesCall (n : ℕ) where
  src : Fin n
  dst : Fin n
  ne : src ≠ dst
  req : AppendEntriesRequest n
  srcLog : List Entry
  phase : Phase AppendEntriesResponse
  deriving DecidableEq, Repr

/-- A call of `RequestVote`. -/
structure RequestVoteCall (n : ℕ) where
  src : Fin n
  dst : Fin n
  ne : src ≠ dst
  req : ReqVoteRequest n
  phase : Phase ReqVoteResponse
  deriving DecidableEq, Repr

/-- What a run is asked about: who became leader in which term and with what log; who set its
commit index from acknowledgements, in which term, to what and with what log; who applied which
entry at which index, and what the operation returned. -/
inductive Event (n : ℕ)
  | becameLeader (x : Fin n) (term : ℕ) (log : List Entry)
  | committed (x : Fin n) (term index : ℕ) (log : List Entry)
  | applied (x : Fin n) (index : ℕ) (e : Entry) (rt : Option Bool)
  deriving DecidableEq

structure Cluster (n : ℕ) where
  node : Fin n → Node n
  aeCalls : List (AppendEntriesCall n)
  rvCalls : List (RequestVoteCall n)
  history : List (Event n)

/-- A write a client can ask for. -/
inductive WriteCall
  | mkdir | rmdir | createFile | deleteFile
  deriving DecidableEq, Repr

inductive Action (n : ℕ)
  | leaderTimeout (x : Fin n)
  | remoteWake (x r : Fin n)
  | aeSend (k : ℕ)
  | aeHandle (k : ℕ)
  | aeReturn (k : ℕ)
  | aeNotConnected (k : ℕ)
  | aeFail (k : ℕ)
  | rvSend (k : ℕ)
  | rvHandle (k : ℕ)
  | rvReturn (k : ℕ)
  | rvNotConnected (k : ℕ)
  | rvFail (k : ℕ)
  | clientRequest (x : Fin n) (call : WriteCall) (path : Str)
  | clientStep (x : Fin n) (c : ℕ)
  | fsStep (x : Fin n) (env : Ptr → Alloc)
  | fsWake (x : Fin n)

/-- The handler of a write. -/
def WriteCall.handler {n : ℕ} : WriteCall → Str → Node n → ClientThread n
  | .mkdir => Node.mkdir
  | .rmdir => Node.rmdir
  | .createFile => Node.createFile
  | .deleteFile => Node.deleteFile

namespace Cluster

variable {n : ℕ}

def init (env : Fin n → Ptr → Alloc) (junk : Fin n → Fin n → ℕ) : Cluster n where
  node := fun x => Node.init (env x) (junk x)
  aeCalls := []
  rvCalls := []
  history := []

variable (s : Cluster n)

def setNode (x : Fin n) (nd : Node n) : Cluster n := { s with node := Function.update s.node x nd }

def setThread (x r : Fin n) (t : RemoteThread) : Cluster n :=
  s.setNode x { s.node x with remoteThread := Function.update (s.node x).remoteThread r t }

/-- The leader `x` builds a request for `r`. -/
def callAppendEntries (x r : Fin n) (h : x ≠ r) : Cluster n :=
  { s.setThread x r (.appendEntries s.aeCalls.length) with
    aeCalls := s.aeCalls ++
      [⟨x, r, h, (s.node x).appendEntriesRequest x r, (s.node x).log.memoryLog, .built⟩] }

/-- The candidate `x` builds a request for `r`. -/
def callRequestVote (x r : Fin n) (h : x ≠ r) : Cluster n :=
  { s.setThread x r (.requestVote s.rvCalls.length) with
    rvCalls := s.rvCalls ++ [⟨x, r, h, (s.node x).reqVoteRequest x, .built⟩] }

/-- `RemoteHostLoop` from the top of its loop until it releases the mutex. -/
def remoteHostLoop (x r : Fin n) (h : x ≠ r) : Cluster n :=
  match (s.node x).currentRole with
  | .kLeader => s.callAppendEntries x r h
  | .kFollower => s.setThread x r .waiting
  | .kCandidate => s.callRequestVote x r h

def goOn (x r : Fin n) (h : x ≠ r) : Node.Next → Cluster n
  | .wait => s.setThread x r .waiting
  | .goOn => s.remoteHostLoop x r h

def log (ev : Option (Event n)) : Cluster n := { s with history := ev.toList ++ s.history }

/-- `RemoteHostLoop` with the response `resp` to the leader's call `c`. -/
def takeAppendEntries (c : AppendEntriesCall n) (resp : AppendEntriesResponse) :
    Option (Cluster n) := do
  let (nd, commit, next) ← (s.node c.src).onAppendEntriesResponse c.dst c.req resp
  let ev := commit.map fun N => Event.committed c.src nd.currentTerm N nd.log.memoryLog
  return ((s.setNode c.src nd).log ev).goOn c.src c.dst c.ne next

/-- `RemoteHostLoop` with the response `resp` to the candidate's call `c`. -/
def takeRequestVote (c : RequestVoteCall n) (resp : ReqVoteResponse) : Cluster n :=
  let (nd, won, next) := (s.node c.src).onRequestVoteResponse c.src c.dst resp
  let ev := if won then some (.becameLeader c.src nd.currentTerm nd.log.memoryLog) else none
  ((s.setNode c.src nd).log ev).goOn c.src c.dst c.ne next

def setAECall (k : ℕ) (c : AppendEntriesCall n) : Cluster n :=
  { s with aeCalls := s.aeCalls.set k c }

def setRVCall (k : ℕ) (c : RequestVoteCall n) : Cluster n :=
  { s with rvCalls := s.rvCalls.set k c }

/-- The `RemoteHostLoop` that made the call `k` is still in it. -/
def inAECall (k : ℕ) (c : AppendEntriesCall n) : Bool :=
  (s.node c.src).remoteThread c.dst = .appendEntries k

def inRVCall (k : ℕ) (c : RequestVoteCall n) : Bool :=
  (s.node c.src).remoteThread c.dst = .requestVote k

def step (s : Cluster n) : Action n → Option (Cluster n)
  | .leaderTimeout x =>
    if (s.node x).isLeader then none
    else some (s.setNode x ((s.node x).startLeaderElection x))
  | .remoteWake x r =>
    if h : x ≠ r then
      if (s.node x).remoteThread r = .waiting then some (s.remoteHostLoop x r h) else none
    else none
  | .aeSend k => do
    let c ← s.aeCalls[k]?
    if s.inAECall k c ∧ c.phase = .built then some (s.setAECall k { c with phase := .sent })
    else none
  | .aeHandle k => do
    let c ← s.aeCalls[k]?
    if c.phase = .sent then
      let (nd, resp) ← (s.node c.dst).onAppendEntries c.req
      return (s.setNode c.dst nd).setAECall k { c with phase := .handled resp }
    else none
  | .aeReturn k => do
    let c ← s.aeCalls[k]?
    match c.phase with
    | .handled resp =>
      if s.inAECall k c then s.takeAppendEntries c resp else none
    | _ => none
  | .aeNotConnected k => do
    let c ← s.aeCalls[k]?
    -- the response stays as it was built
    if s.inAECall k c ∧ c.phase = .built then s.takeAppendEntries c {} else none
  | .aeFail k => do
    let c ← s.aeCalls[k]?
    if s.inAECall k c then some (s.setThread c.src c.dst .waiting) else none
  | .rvSend k => do
    let c ← s.rvCalls[k]?
    if s.inRVCall k c ∧ c.phase = .built then some (s.setRVCall k { c with phase := .sent })
    else none
  | .rvHandle k => do
    let c ← s.rvCalls[k]?
    if c.phase = .sent then
      let (nd, resp) := (s.node c.dst).onRequestVote c.req
      return (s.setNode c.dst nd).setRVCall k { c with phase := .handled resp }
    else none
  | .rvReturn k => do
    let c ← s.rvCalls[k]?
    match c.phase with
    | .handled resp =>
      if s.inRVCall k c then some (s.takeRequestVote c resp) else none
    | _ => none
  | .rvNotConnected k => do
    let c ← s.rvCalls[k]?
    if s.inRVCall k c ∧ c.phase = .built then some (s.takeRequestVote c {}) else none
  | .rvFail k => do
    let c ← s.rvCalls[k]?
    if s.inRVCall k c then some (s.setThread c.src c.dst .waiting) else none
  | .clientRequest x call path =>
    let nd := s.node x
    some (s.setNode x { nd with clients := nd.clients ++ [call.handler path nd] })
  | .clientStep x c => ((s.node x).onMetaOperation c).map (s.setNode x)
  | .fsStep x env => do
    let (nd, applied) ← (s.node x).fsUpdateLoop env
    return (s.setNode x nd).log (applied.map fun (i, e, rt) => .applied x i e rt)
  | .fsWake x =>
    if (s.node x).fsThread = .blocked then
      some (s.setNode x { s.node x with fsThread := .test })
    else none

end Cluster

/-- A cluster of `n` nodes. -/
def cluster (n : ℕ) : Runs.Sys (Cluster n) (Action n) where
  init s := ∃ env junk, s = Cluster.init env junk
  step := Cluster.step

end RaftFS
