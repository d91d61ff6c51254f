import RaftFS.Lib.Runs
import RaftFS.Lib.Ballots
import RaftFS.Lib.Completeness
import RaftFS.Lib.Forest
import RaftFS.Lib.Strides
import RaftFS.Cluster
import RaftFS.Notification
import RaftFS.Client
import RaftFS.Proofs.Votes
import RaftFS.Proofs.LogOrder
import RaftFS.Proofs.Safety
import RaftFS.Proofs.Apply
import RaftFS.Proofs.Reply
import RaftFS.Proofs.Committed
import RaftFS.Proofs.Leadership
import RaftFS.Proofs.Entries
import RaftFS.Proofs.Kinds
import RaftFS.Proofs.Overlap
import RaftFS.Proofs.Refusals
import RaftFS.Proofs.Grants
import RaftFS.Proofs.Acks
import RaftFS.Proofs.Recorded
import RaftFS.Proofs.Gate
import RaftFS.Proofs.Majority
import RaftFS.Proofs.Replicas
import RaftFS.Proofs.CatchUp
import RaftFS.Proofs.Wakeups
import RaftFS.Proofs.Deletion
import RaftFS.Proofs.Directories
import RaftFS.Proofs.Unnamed
import RaftFS.Proofs.Files
import RaftFS.Proofs.Ownership
import RaftFS.Proofs.Reads
import RaftFS.Proofs.Failover
import RaftFS.Proofs.HostList
import RaftFS.Proofs.Lookups
import RaftFS.Proofs.Refines
import RaftFS.Proofs.Serves
import RaftFS.Proofs.Replicated
import RaftFS.Proofs.Durable
import RaftFS.Proofs.Timers
import RaftFS.Proofs.Heartbeats
import RaftFS.Proofs.Electable
import RaftFS.Proofs.Answered
import RaftFS.Proofs.Progress
import RaftFS.Proofs.Options
import RaftFS.Proofs.KeptLeader
import RaftFS.Proofs.InTime
