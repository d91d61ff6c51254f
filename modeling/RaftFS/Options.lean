import RaftFS.Consensus

/-!
# Options

The hosts file has the names of the servers, and the places they stand in are their ids. A server
looks itself up by the name of its host, and makes the others its remotes. A client takes the whole
list. What the file and the host have is given where they are read.
-/

namespace RaftFS

/-- What `>>` passes over. -/
def isSpace (c : Char) : Bool := c = ' ' || ('\t'.toNat ≤ c.toNat && c.toNat ≤ '\r'.toNat)

/-- What `>>` reads of a text, word by word until there is none left. -/
def words (text : Str) : List Str := (text.splitOnP isSpace).filter fun w => !w.isEmpty

/-- `std::map::operator[]`, assigned to. -/
def setHost (id : ℕ) (h : Str) : List (ℕ × Str) → List (ℕ × Str)
  | [] => [(id, h)]
  | (k, v) :: hosts =>
    if id < k then (id, h) :: (k, v) :: hosts
    else if id = k then (id, h) :: hosts
    else (k, v) :: setHost id h hosts

structure Options where
  selfName : Str := []
  /-- There is none before `GetHosts` has found the host. -/
  selfId : Option ℕ := none
  hosts : List (ℕ × Str) := []
  allHosts : List Str := []

namespace Options

/-- `GetSelfName` on the host `hostname`. -/
def getSelfName (hostname : Str) (o : Options) : Options :=
  if o.selfName.isEmpty then { o with selfName := hostname } else o

/-- The loop of `GetHosts` over the words, and whether the host was found. -/
def getHostsLoop : List Str → (id : ℕ) → (foundSelf : Bool) → Options → Options × Bool
  | [], _, foundSelf, o => (o, foundSelf)
  | h :: hs, id, foundSelf, o =>
    if h = o.selfName then getHostsLoop hs (id + 1) true { o with selfId := some id }
    else getHostsLoop hs (id + 1) foundSelf { o with hosts := setHost id h o.hosts }

/-- `GetHosts` from a file with the text, which does not return where the host is not found. -/
def getHosts (text : Str) (o : Options) : Option Options :=
  let (o, foundSelf) := getHostsLoop (words text) 1 false o
  if foundSelf then some o else none

/-- `GetAllHosts` from a file with the text, which is read once. -/
def getAllHosts (text : Str) (o : Options) : Options :=
  if !o.allHosts.isEmpty then o else { o with allHosts := o.allHosts ++ words text }

end Options

/-- What `RaftConsensus` keeps of the options. -/
structure ServerConfig where
  selfId : Option ℕ
  remotes : List (ℕ × Str)
  quorumSize : ℕ
  deriving DecidableEq

/-- The constructor of `RaftConsensus`, which takes the id before it reads the hosts. -/
def raftConsensus (text : Str) (opt : Options) : Option ServerConfig :=
  let selfId := opt.selfId
  (opt.getHosts text).map fun opt =>
    { selfId := selfId, remotes := opt.hosts, quorumSize := (opt.hosts.length + 1) / 2 + 1 }

/-- What a server on the host is built with by `main`, which has read the hosts before. -/
def server (text hostname : Str) : Option ServerConfig := do
  let opt ← (({} : Options).getSelfName hostname).getHosts text
  raftConsensus text opt

end RaftFS
