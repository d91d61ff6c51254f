import RaftFS.ClientRPCService
import RaftFS.Cluster

/-!
# The client

`FSClient` keeps the ids of a leader and of a follower, which are the places of the two in its list
of hosts, counted from one, or `-1`. What the network does and what the servers answer is given to
each call.
-/

namespace RaftFS

/-- A socket, and the client of a service over it, which are always made together. -/
structure Sock where
  host : Str
  isOpen : Bool
  deriving DecidableEq, Repr

/-- The ids are `int32_t`, which no list of hosts outgrows. -/
structure FSClient where
  hosts : List Str
  leaderId : ℤ
  followerId : ℤ
  leaderSock : Option Sock
  followerSock : Option Sock
  deriving DecidableEq, Repr

/-- The places in a call where a connection is opened. -/
inductive Attempt
  | start | retry (k : ℕ) | leader | newFollower | leaderAgain | redirect | check
  deriving DecidableEq, Repr

/-- Which hosts a connection can be opened to, and what the servers answer. There is no answer where
there is a transport exception. -/
structure Answers (n : ℕ) where
  connects : Attempt → Str → Bool
  leader : Option (GetLeaderResponse n) := none
  write : Option (WriteResponse n) := none
  list : Option ListDirResponse := none
  leaderList : Option ListDirResponse := none
  info : Option FileInfoResponse := none

namespace FSClient

/-- What goes wrong: a host is read that is not in the list, a remainder is taken by zero, or a
service is called that there is no client of. -/
inductive Fault
  | outOfRange | division | nullRpc
  deriving DecidableEq, Repr

variable {n : ℕ} (answers : Answers n) (c : FSClient)

/-- `hosts[i]`. -/
def hostAt (i : ℤ) : Except Fault Str :=
  if i < 0 then .error .outOfRange
  else match c.hosts[i.toNat]? with
    | some host => .ok host
    | none => .error .outOfRange

/-- `i % hosts.size()`. -/
def modHosts (i : ℤ) : Except Fault ℤ :=
  if c.hosts.length = 0 then .error .division else .ok (i % c.hosts.length)

/-- The step to another follower. -/
def nextFollower : Except Fault FSClient := do
  let r ← c.modHosts (c.followerId + 1)
  return { c with followerId := r + 1 }

/-- `ResetRPCClient` for the follower and the host with its id. -/
def resetFollower (connects : Str → Bool) : Except Fault FSClient := do
  let host ← c.hostAt (c.followerId - 1)
  return { c with followerSock := some ⟨host, connects host⟩ }

/-- `ResetRPCClient` for the leader and the host with its id. -/
def resetLeader (connects : Str → Bool) : Except Fault FSClient := do
  let host ← c.hostAt (c.leaderId - 1)
  return { c with leaderSock := some ⟨host, connects host⟩ }

/-- There is a follower and its socket is open. -/
def followerOpen : Bool := c.followerSock.any Sock.isOpen

/-- The loop of `ConnectFollower` with `left` rounds to go. -/
def reconnect (connects : Attempt → Str → Bool) :
    (left retry : ℕ) → FSClient → Except Fault FSClient
  | left, retry, c => do
    let c ← c.resetFollower (connects (.retry retry))
    if c.followerOpen then return c
    else match left with
      | 0 => return c
      | left + 1 => reconnect connects left (retry + 1) (← c.nextFollower)

def connectFollower (connects : Attempt → Str → Bool) : Except Fault (FSClient × Bool) := do
  let c ← if !c.followerOpen then reconnect connects c.hosts.length 0 c else .ok c
  return (c, c.followerOpen)

/-- The id of a node in an answer. -/
def idOf : Option (Fin n) → ℤ
  | none => -1
  | some x => x + 1

/-- `GetLeader` with an answer that is a success. -/
def takeLeader (leaderId : ℤ) : Except Fault FSClient := do
  let c := { c with leaderId := leaderId }
  let c ← c.resetLeader (answers.connects .leader)
  -- if the follower and the leader are the same host, the follower is changed
  if c.leaderId = c.followerId then (← c.nextFollower).resetFollower (answers.connects .newFollower)
  else return c

/-- `GetLeader`. It gives no id where an exception leaves it. -/
def getLeader : Except Fault (FSClient × Option ℤ) := do
  if c.leaderId = -1 then
    let (c, connected) ← c.connectFollower answers.connects
    if connected then
      match answers.leader with
      | none => return (c, none)
      | some resp =>
        if resp.status = .kOK then
          let c ← c.takeLeader answers (idOf resp.leaderId)
          return (c, some c.leaderId)
        else return (c, some c.leaderId)
    else return (c, some c.leaderId)
  else return (c, some c.leaderId)

/-- The constructor, which gives no client where an exception leaves it. -/
def new (hosts : List Str) (rand : ℕ) : Except Fault (Option FSClient) := do
  let c : FSClient := ⟨hosts, -1, 0, none, none⟩
  let r ← c.modHosts rand
  let c ← { c with followerId := r + 1 }.resetFollower (answers.connects .start)
  let (c, leader) ← c.getLeader answers
  match leader with
  | none => return none
  | some leaderId =>
    -- the leader's name is printed
    if leaderId ≠ -1 then
      let _ ← c.hostAt (leaderId - 1)
      return some c
    else return some c

/-- How asking the leader ends. -/
inductive Asked (n : ℕ)
  | thrown
  | noLeader
  | commError
  | answered (resp : WriteResponse n)

/-- The status that the caller is given. -/
def Asked.status : Asked n → Option Status
  | .thrown => none
  | .noLeader => some .kNoLeader
  | .commError => some .kCommError
  | .answered resp => some resp.status

/-- Some of the writes make the leader's client if there is none. -/
def makeLeader (makes : Bool) : Except Fault FSClient :=
  if makes && c.leaderSock.isNone then c.resetLeader (answers.connects .leaderAgain) else .ok c

/-- What the four writes have in common. -/
def askLeader (makes : Bool) : Except Fault (FSClient × Asked n) := do
  let (c, leader) ← c.getLeader answers
  match leader with
  | none => return (c, .thrown)
  | some leaderId =>
    if leaderId = -1 then return (c, .noLeader)
    else
      let c ← c.makeLeader answers makes
      match c.leaderSock with
      | none => .error .nullRpc
      | some sock =>
        match answers.write with
        | none => return (c, .commError)
        | some resp => return (c, if sock.isOpen then .answered resp else .commError)

def mkdir : Except Fault (FSClient × Option Status) := do
  let (c, asked) ← c.askLeader answers true
  return (c, asked.status)

def rmdir : Except Fault (FSClient × Option Status) := do
  let (c, asked) ← c.askLeader answers true
  return (c, asked.status)

def createFile : Except Fault (FSClient × Option Status) := do
  let (c, asked) ← c.askLeader answers false
  return (c, asked.status)

/-- `DeleteFile`. It alone goes on to another leader that an answer names. -/
def deleteFile : Except Fault (FSClient × Option Status) := do
  let (c, asked) ← c.askLeader answers false
  match asked with
  | .answered ⟨.kOK, some leaderId⟩ =>
    if idOf leaderId ≠ c.leaderId then
      let c ← { c with leaderId := idOf leaderId }.resetLeader (answers.connects .redirect)
      return (c, some .kOK)
    else return (c, some .kOK)
  | _ => return (c, asked.status)

/-- `ListDir`, and the list, where it is written. -/
def listDir : Except Fault (FSClient × Status × Option (List Str)) := do
  let (c, connected) ← c.connectFollower answers.connects
  if !connected then return (c, .kCommError, none)
  match answers.list with
  | none => return (c, .kCommError, none)
  | some resp =>
    if resp.status = .kNotFound then
      -- the leader is asked where the follower does not find the directory
      match c.leaderSock, answers.leaderList with
      | none, _ => .error .nullRpc
      | some _, none => return (c, .kCommError, none)
      | some sock, some resp =>
        if sock.isOpen then return (c, resp.status, some (resp.dirList.getD []))
        else return (c, .kCommError, none)
    else return (c, resp.status, some (resp.dirList.getD []))

/-- `GetFileInfo`, and the info, where it is written. -/
def getFileInfo : Except Fault (FSClient × Status × Option FileInfo) := do
  let (c, connected) ← c.connectFollower answers.connects
  if !connected then return (c, .kCommError, none)
  match answers.info with
  | none => return (c, .kCommError, none)
  | some resp => return (c, resp.status, if resp.status = .kOK then some resp.info else none)

/-- The loop of `CheckLeaders` over the hosts. An exception ends it. -/
def checkHosts (answers : ℕ → Answers n) : List Str → (k : ℕ) → FSClient → Except Fault FSClient
  | [], _, c => .ok c
  | host :: hosts, k, c => do
    let c := { c with
      followerSock := some ⟨host, (answers k).connects .check host⟩, leaderId := -1 }
    let (c, leader) ← c.getLeader (answers k)
    if leader.isSome then checkHosts answers hosts (k + 1) c else return c

def checkLeaders (answers : ℕ → Answers n) : Except Fault FSClient :=
  checkHosts answers c.hosts 0 c

end FSClient

/-- A call of the client, or a connection that is lost. -/
inductive ClientCall (n : ℕ)
  | new (hosts : List Str) (rand : ℕ) (answers : Answers n)
  | mkdir (answers : Answers n)
  | rmdir (answers : Answers n)
  | createFile (answers : Answers n)
  | deleteFile (answers : Answers n)
  | listDir (answers : Answers n)
  | getFileInfo (answers : Answers n)
  | checkLeaders (answers : ℕ → Answers n)
  | leaderLost
  | followerLost

namespace ClientCall

variable {n : ℕ}

/-- What a call makes of the client, if there is one, or of there being none. -/
def run : Option FSClient → ClientCall n → Option (Except FSClient.Fault (Option FSClient))
  | none, .new hosts rand answers => some (FSClient.new answers hosts rand)
  | some c, .mkdir answers => some ((c.mkdir answers).map fun r => some r.1)
  | some c, .rmdir answers => some ((c.rmdir answers).map fun r => some r.1)
  | some c, .createFile answers => some ((c.createFile answers).map fun r => some r.1)
  | some c, .deleteFile answers => some ((c.deleteFile answers).map fun r => some r.1)
  | some c, .listDir answers => some ((c.listDir answers).map fun r => some r.1)
  | some c, .getFileInfo answers => some ((c.getFileInfo answers).map fun r => some r.1)
  | some c, .checkLeaders answers => some ((c.checkLeaders answers).map some)
  | some c, .leaderLost => some (.ok (some
      { c with leaderSock := c.leaderSock.map fun sock => { sock with isOpen := false } }))
  | some c, .followerLost => some (.ok (some
      { c with followerSock := c.followerSock.map fun sock => { sock with isOpen := false } }))
  | _, _ => none

end ClientCall

/-- A program that makes a client and calls it. A fault ends it. -/
def client (n : ℕ) : Runs.Sys (Except FSClient.Fault (Option FSClient)) (ClientCall n) where
  init s := s = .ok none
  step s call := do call.run (← s.toOption)

end RaftFS
