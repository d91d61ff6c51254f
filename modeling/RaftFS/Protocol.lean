import Mathlib.Data.Int.Notation
import Mathlib.Data.Nat.Notation

/-!
# The thrift structures

The messages of `Raft.thrift`, the statuses of `Client.thrift` and the file info of
`Filesystem.thrift`. A node of a cluster of `n` is
named by its place in the hosts file, and the leader id `-1` is `none`. The `i64` terms and
indices only ever count up from `0`, so they are naturals.
-/

namespace RaftFS

/-- A `std::string`. -/
abbrev Str := List Char

inductive MetaOp
  | kMkdir | kRmdir | kCreate | kDelete | kGetFileInfo | kListDir | kNoop
  deriving DecidableEq, Repr

inductive Status
  | kOK | kNoLeader | kNotLeader | kNotFound | kTimeout | kExist | kCommError | kPathError
  deriving DecidableEq, Repr

structure Entry where
  term : ℕ
  index : ℕ
  op : MetaOp
  value : Str
  deriving DecidableEq, Repr

structure ReqVoteRequest (n : ℕ) where
  term : ℕ
  candidateId : Fin n
  lastLogIndex : ℕ
  lastLogTerm : ℕ
  deriving DecidableEq, Repr

/-- The defaults are what a response holds before anything is written to it. -/
structure ReqVoteResponse where
  term : ℕ := 0
  voteGranted : Bool := false
  deriving DecidableEq, Repr

structure AppendEntriesRequest (n : ℕ) where
  term : ℕ
  leaderId : Fin n
  prevLogIndex : ℕ
  prevLogTerm : ℕ
  entries : List Entry
  leaderCommitIndex : ℕ
  deriving DecidableEq, Repr

/-- The defaults are what a response holds before anything is written to it. -/
structure AppendEntriesResponse where
  term : ℕ := 0
  success : Bool := false
  lastLogIndex : ℕ := 0
  deriving DecidableEq, Repr

/-- `MkdirResponse` and the responses of the other writes. A leader id that is set may be `-1`. -/
structure WriteResponse (n : ℕ) where
  status : Status
  leaderId : Option (Option (Fin n)) := none
  deriving DecidableEq, Repr

/-- The defaults are what the info holds before anything is written to it. -/
structure FileInfo where
  path : Str := []
  size : ℤ := 0
  creator : Str := []
  createTime : ℤ := 0
  deriving DecidableEq, Repr

/-- The defaults are what a response holds before anything is written to it. -/
structure GetLeaderResponse (n : ℕ) where
  status : Status := .kOK
  leaderId : Option (Fin n)
  deriving DecidableEq, Repr

/-- The defaults are what a response holds before anything is written to it. -/
structure FileInfoResponse where
  status : Status := .kOK
  info : FileInfo := {}
  deriving DecidableEq, Repr

/-- The list is optional. -/
structure ListDirResponse where
  status : Status := .kOK
  dirList : Option (List Str) := none
  deriving DecidableEq, Repr

end RaftFS
