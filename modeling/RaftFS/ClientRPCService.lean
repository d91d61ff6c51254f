import RaftFS.Consensus

/-!
# The requests that only read

The handlers of `ClientRPCService` that answer from the node as it is. The handlers of the writes
are those of the node.
-/

namespace RaftFS

namespace ClientRPCService

/-- `GetLeader`. It leaves the status as it is. -/
def getLeader {n : ℕ} (nd : Node n) : GetLeaderResponse n := { leaderId := nd.leaderId }

def getFileInfo (fs : FSNamespace) (file : Str) : Option FileInfoResponse := do
  if !FSNamespace.validatePath file then return { status := .kPathError }
  let (found, info) ← fs.getFileInfo file {}
  if !found then return { status := .kNotFound, info := info }
  return { status := .kOK, info := info }

def listDir (fs : FSNamespace) (dir : Str) : Option ListDirResponse := do
  if !FSNamespace.validatePath dir then return { status := .kPathError }
  return { status := .kOK, dirList := some (← fs.listDir dir) }

end ClientRPCService

end RaftFS
