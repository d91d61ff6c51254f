import RaftFS.LogManager
import RaftFS.FSNamespace
import Mathlib.Data.Finset.Card
import Mathlib.Data.Fintype.Card

/-!
# A node

What one node of a cluster of `n` keeps, and what its functions do to it under the mutex. The
threads that let go of the mutex in the middle of a function keep their place in the node: one
`RemoteHostLoop` for each remote, the `FSUpdateLoop`, and a thread for each client request.
What several nodes and their messages make of this is in `RaftFS.Cluster`. When an election times
out is left open, so `PostponeElection` does nothing here.
-/

namespace RaftFS

inductive Role
  | kFollower | kCandidate | kLeader
  deriving DecidableEq, Repr

/-- Where a `RemoteHostLoop` is: waiting, or in a call with the mutex released. The calls of a
kind are numbered over the cluster. -/
inductive RemoteThread
  | waiting
  | appendEntries (call : ℕ)
  | requestVote (call : ℕ)
  deriving DecidableEq, Repr

/-- Where `FSUpdateLoop` is. In a pass, `i` is the next index and `commited` the last one applied
in the pass, `0` before the first. -/
inductive FSThread
  | test
  | blocking
  | blocked
  | loop (i commited : ℕ)
  | gateLeader (i commited : ℕ)
  | gatePending (i commited : ℕ)
  | gateFollower (i commited : ℕ)
  | apply (i commited : ℕ)
  | finish (commited : ℕ)
  deriving DecidableEq, Repr

/-- Where a client's request is: let in by the handler, past the test of the leader id, with its
entry made, waiting for the entry's index, or answered. -/
inductive ClientThread (n : ℕ)
  | accepted (op : MetaOp) (path : Str)
  | led (op : MetaOp) (path : Str)
  | built (e : Entry)
  | waiting (e : Entry)
  | answered (op : MetaOp) (path : Str) (e : Option Entry) (resp : WriteResponse n)
  deriving DecidableEq, Repr

structure Node (n : ℕ) where
  currentTerm : ℕ
  currentRole : Role
  leaderId : Option (Fin n)
  voteFor : ℕ → Option (Fin n)
  votePool : Finset (Fin n)
  nextIndex : Fin n → ℕ
  log : LogManager
  pendingEntries : ℕ → Finset (Fin n)
  fs : FSNamespace
  remoteThread : Fin n → RemoteThread
  fsThread : FSThread
  clients : List (ClientThread n)

/-- `remotes.size()` is one less than the nodes. -/
def quorumSize (n : ℕ) : ℕ := ((n - 1) + 1) / 2 + 1

namespace Node

variable {n : ℕ}

/-- A node just built. Its next indices are whatever was in memory. -/
def init (env : Ptr → Alloc) (junk : Fin n → ℕ) : Node n where
  currentTerm := 0
  currentRole := .kFollower
  leaderId := none
  voteFor := fun _ => none
  votePool := ∅
  nextIndex := junk
  log := {}
  pendingEntries := fun _ => ∅
  fs := FSNamespace.init env
  remoteThread := fun _ => .waiting
  fsThread := .test
  clients := []

def isLeader (nd : Node n) : Bool := nd.currentRole == .kLeader

def isFollower (nd : Node n) : Bool := nd.currentRole == .kFollower

def startLeaderElection (self : Fin n) (nd : Node n) : Node n :=
  let term := nd.currentTerm + 1
  let nd := { nd with
    currentTerm := term
    currentRole := .kCandidate
    leaderId := none
    votePool := ∅ }
  if nd.voteFor term = none then
    { nd with
      voteFor := Function.update nd.voteFor term (some self)
      votePool := {self} }
  else nd

def changeToLeader (self : Fin n) (nd : Node n) : Node n :=
  { nd with
    currentRole := .kLeader
    leaderId := some self
    nextIndex := fun _ => nd.log.getLastLogIndex + 1 }

def changeToFollower (newTerm : ℕ) (nd : Node n) : Node n :=
  { nd with
    votePool := if nd.currentRole = .kCandidate then ∅ else nd.votePool
    currentRole := .kFollower
    currentTerm := newTerm
    leaderId := none }

/-- `fs_commit.notify_all()`. -/
def notifyFS (nd : Node n) : Node n :=
  { nd with fsThread := if nd.fsThread = .blocked then .test else nd.fsThread }

/-- The term check of `OnAppendEntries`, once the request's term is not behind. -/
def catchUp (req : AppendEntriesRequest n) (nd : Node n) : Node n :=
  let nd :=
    if nd.currentTerm < req.term ∨ nd.currentRole = .kCandidate ∧ nd.currentTerm ≤ req.term then
      { changeToFollower req.term nd with leaderId := some req.leaderId }
    else nd
  if nd.leaderId = none then { nd with leaderId := some req.leaderId } else nd

/-- What `OnAppendEntries` does to the log before it looks at the commit index, and whether the
request is still a success. -/
def storeEntries (req : AppendEntriesRequest n) (log : LogManager) : Option (LogManager × Bool) :=
  if req.prevLogIndex ≤ log.getLastLogIndex then
    if req.entries.isEmpty then some (log, true) else log.appendBatch req.entries
  else some (log, false)

/-- Follows the leader's commit index. -/
def followCommit (req : AppendEntriesRequest n) (nd : Node n) : Option (Node n) :=
  if nd.log.getLastCommitIndex < req.leaderCommitIndex then
    (nd.log.setLastCommitIndex req.leaderCommitIndex).map fun log => notifyFS { nd with log := log }
  else some nd

/-- There is no result where the source reads the last entry of an empty log, to set the commit
index or to print the log. -/
def onAppendEntries (req : AppendEntriesRequest n) (nd : Node n) :
    Option (Node n × AppendEntriesResponse) :=
  if req.term < nd.currentTerm then some (nd, { term := nd.currentTerm })
  else do
    -- the response has the term from before the catching up
    let resp : AppendEntriesResponse := { term := nd.currentTerm }
    let nd := catchUp req nd
    let (log, success) ← storeEntries req nd.log
    -- a gap is reported with the last index
    let resp :=
      if req.prevLogIndex ≤ nd.log.getLastLogIndex then resp
      else { resp with lastLogIndex := nd.log.getLastLogIndex }
    let nd ← followCommit req { nd with log := log }
    if !req.entries.isEmpty && nd.log.memoryLog.isEmpty then none
    else if success then
      some (nd, { resp with success := true, lastLogIndex := nd.log.getLastLogIndex })
    else some (nd, { resp with success := false })

def onRequestVote (req : ReqVoteRequest n) (nd : Node n) : Node n × ReqVoteResponse :=
  let (lastTerm, lastIndex) := nd.log.getLastLogTermAndIndex
  let nd := if nd.currentTerm < req.term then changeToFollower req.term nd else nd
  if (lastIndex ≤ req.lastLogIndex ∧ lastTerm ≤ req.lastLogTerm) ∧
      (nd.voteFor req.term = none ∨ nd.voteFor req.term = some req.candidateId) then
    ({ nd with voteFor := Function.update nd.voteFor req.term (some req.candidateId) },
      { term := nd.currentTerm, voteGranted := true })
  else (nd, { term := nd.currentTerm, voteGranted := false })

/-- The request the leader's `RemoteHostLoop` makes for the remote `r`. -/
def appendEntriesRequest (self r : Fin n) (nd : Node n) : AppendEntriesRequest n :=
  let prev := nd.nextIndex r - 1
  { term := nd.currentTerm
    leaderId := self
    prevLogIndex := prev
    prevLogTerm := nd.log.getLastLogTerm
    entries := if prev < nd.log.getLastLogIndex then nd.log.getEntriesStartAt prev else []
    leaderCommitIndex := nd.log.getLastCommitIndex }

/-- The request a candidate's `RemoteHostLoop` makes. -/
def reqVoteRequest (self : Fin n) (nd : Node n) : ReqVoteRequest n :=
  { term := nd.currentTerm
    candidateId := self
    lastLogIndex := nd.log.getLastLogIndex
    lastLogTerm := nd.log.getLastLogTerm }

def resetNextIndex (r : Fin n) (newIndex : ℕ) (nd : Node n) : Node n :=
  { nd with nextIndex := Function.update nd.nextIndex r newIndex }

/-- The loop over the entries acknowledged by `id`: who has acknowledged what, and the new commit
index, which is the last entry's that a quorum has acknowledged. -/
def countAcks (id : Fin n) (commitIndex : ℕ) :
    List Entry → (ℕ → Finset (Fin n)) → ℕ → (ℕ → Finset (Fin n)) × ℕ
  | [], pending, newCommit => (pending, newCommit)
  | e :: es, pending, newCommit =>
    if e.index ≤ commitIndex then countAcks id commitIndex es pending newCommit
    else
      let pending := Function.update pending e.index (insert id (pending e.index))
      countAcks id commitIndex es pending
        (if quorumSize n ≤ (pending e.index).card then e.index else newCommit)

/-- An acknowledgement of entries by `id`. The second result is the commit index set, if any. -/
def recordAck (id : Fin n) (req : AppendEntriesRequest n) (resp : AppendEntriesResponse)
    (nd : Node n) : Option (Node n × Option ℕ) :=
  let nd := resetNextIndex id (resp.lastLogIndex + 1) nd
  let commitIndex := nd.log.getLastCommitIndex
  let (pending, newCommit) := countAcks id commitIndex req.entries nd.pendingEntries commitIndex
  let nd := { nd with pendingEntries := pending }
  if commitIndex ≠ newCommit then
    (nd.log.setLastCommitIndex newCommit).map fun log =>
      (notifyFS { nd with log := log },
        if log.lastCommitedIndex = newCommit then some newCommit else none)
  else some (nd, none)

/-- Backs off the next index of a remote that has rejected a request. -/
def backOff (id : Fin n) (req : AppendEntriesRequest n) (nd : Node n) : Node n :=
  if 5 < req.prevLogIndex then resetNextIndex id (req.prevLogIndex - 5) nd
  else resetNextIndex id 1 nd

/-- What `RemoteHostLoop` does next after a response. -/
inductive Next
  | wait | goOn
  deriving DecidableEq, Repr

/-- The response to a leader's request. Besides the node it gives the commit index set, if any. -/
def onAppendEntriesResponse (id : Fin n) (req : AppendEntriesRequest n)
    (resp : AppendEntriesResponse) (nd : Node n) : Option (Node n × Option ℕ × Next) :=
  if resp.term = nd.currentTerm then
    if resp.success then
      if req.entries.isEmpty then some (nd, none, .wait)
      else (recordAck id req resp nd).map fun (nd, commit) => (nd, commit, .wait)
    else some (backOff id req nd, none, .goOn)
  else if nd.currentTerm < resp.term then some (changeToFollower resp.term nd, none, .wait)
  else some (nd, none, .wait)

/-- The response to a candidate's request. Besides the node it tells whether the election was
won. The term that was voted in is not looked at. -/
def onRequestVoteResponse (self id : Fin n) (resp : ReqVoteResponse) (nd : Node n) :
    Node n × Bool × Next :=
  if nd.currentRole ≠ .kCandidate then (nd, false, .goOn)
  else if resp.voteGranted ∧ resp.term ≤ nd.currentTerm then
    let nd := { nd with votePool := insert id nd.votePool }
    if quorumSize n ≤ nd.votePool.card then (changeToLeader self nd, true, .goOn)
    else (nd, false, .wait)
  else (nd, false, .wait)

/-- What the four writes of `ClientRPCService` have in common. -/
def onWrite (op : MetaOp) (path : Str) (nd : Node n) : ClientThread n :=
  if !FSNamespace.validatePath path then .answered op path none { status := .kPathError }
  else if !nd.isLeader then
    .answered op path none { status := .kNotLeader, leaderId := some nd.leaderId }
  else .accepted op path

def mkdir (path : Str) (nd : Node n) : ClientThread n := onWrite .kMkdir path nd

def rmdir (path : Str) (nd : Node n) : ClientThread n := onWrite .kRmdir path nd

def createFile (path : Str) (nd : Node n) : ClientThread n := onWrite .kCreate path nd

def deleteFile (path : Str) (nd : Node n) : ClientThread n := onWrite .kDelete path nd

/-- The next step of `OnMetaOperation` in the thread `c`, none of them under the mutex. The entry
is the thread's own copy, since the log may free the one it was given. -/
def onMetaOperation (c : ℕ) (nd : Node n) : Option (Node n) :=
  let next (t : ClientThread n) (nd : Node n) : Node n := { nd with clients := nd.clients.set c t }
  match nd.clients[c]? with
  | some (.accepted op path) =>
    if nd.leaderId = none then some (next (.answered op path none { status := .kNoLeader }) nd)
    else some (next (.led op path) nd)
  | some (.led op path) =>
    some (next (.built { term := nd.currentTerm, index := 0, op := op, value := path }) nd)
  | some (.built e) =>
    let (log, e) := nd.log.append e
    some (next (.waiting e) { nd with log := log })
  | some (.waiting e) =>
    if e.index ≤ nd.log.getLastCommitIndex then
      some (next (.answered e.op e.value (some e) { status := .kOK }) nd)
    else some (next (.answered e.op e.value (some e) { status := .kTimeout }) nd)
  | _ => none

/-- Applies an entry to the namespace. The second result is what the operation returns, if there
is one for the entry. -/
def applyEntry (env : Ptr → Alloc) (fs : FSNamespace) (e : Entry) :
    Option (FSNamespace × Option Bool) :=
  match e.op with
  | .kMkdir => (fs.makeDir env e.value unknownOwner true).map fun (fs, rt) => (fs, some rt)
  | .kRmdir => (fs.deleteDir e.value unknownOwner true).map fun (fs, rt) => (fs, some rt)
  | .kCreate => (fs.createFile env e.value unknownOwner).map fun (fs, rt) => (fs, some rt)
  | .kDelete => (fs.removeFile e.value unknownOwner).map fun (fs, rt) => (fs, some rt)
  | _ => some (fs, none)

/-- The next step of `FSUpdateLoop`, and the entry applied in it, if any, with its index and what
its operation returned. -/
def fsUpdateLoop (env : Ptr → Alloc) (nd : Node n) :
    Option (Node n × Option (ℕ × Entry × Option Bool)) :=
  let goto (t : FSThread) : Option (Node n × Option (ℕ × Entry × Option Bool)) :=
    some ({ nd with fsThread := t }, none)
  match nd.fsThread with
  | .test =>
    if nd.log.getLastCommitIndex ≠ nd.fs.commitedIndex then goto (.loop (nd.fs.commitedIndex + 1) 0)
    else goto .blocking
  | .blocking => goto .blocked
  | .blocked => none
  | .loop i commited =>
    if i ≤ nd.log.getLastCommitIndex then goto (.gateLeader i commited) else goto (.finish commited)
  | .gateLeader i commited =>
    if nd.isLeader then goto (.gatePending i commited) else goto (.gateFollower i commited)
  | .gatePending i commited =>
    if quorumSize n ≤ (nd.pendingEntries i).card then goto (.apply i commited)
    else goto (.gateFollower i commited)
  | .gateFollower i commited =>
    if nd.isFollower then goto (.apply i commited) else goto (.finish commited)
  | .apply i _ => do
    -- there is no result on the null entry of an index that is not in the log
    let e ← nd.log.getEntry i
    let (fs, rt) ← applyEntry env nd.fs e
    return ({ nd with fs := fs, fsThread := .loop (i + 1) i }, some (i, e, rt))
  | .finish commited =>
    some ({ nd with fs := nd.fs.setCommitedIndex commited, fsThread := .test }, none)

end Node

end RaftFS
