import LinKV.Raft.LogMatching
import LinKV.Raft.Safety
import LinKV.Raft.Replication
import LinKV.Server.Replication
import LinKV.Raft.Durability
import LinKV.Raft.Rounds
import LinKV.Raft.Liveness
import LinKV.Raft.DiskSafety
import LinKV.Mvcc.Compaction
import LinKV.Raft.ReadWait
import LinKV.Raft.ReadComplete
import LinKV.Raft.Persistence
import LinKV.Raft.CommitRule
import LinKV.Raft.ReadSlot
import LinKV.Raft.CatchUp
import LinKV.Raft.VotedFor
import LinKV.Raft.Progress
import LinKV.Storage.Crash
import LinKV.Storage.Formats
import LinKV.Mvcc.Refinement
import LinKV.Mvcc.Invariant
import LinKV.Mvcc.Bindings
import LinKV.Mvcc.Revocation
import LinKV.Mvcc.Deadlines
import LinKV.Server.TxnResults
import LinKV.Server.Truthful
import LinKV.Server.Reaper
import LinKV.Watch.Closed
import LinKV.Watch.Delivery
import LinKV.Watch.Registry
import LinKV.LinDB.Equivalence
import LinKV.LinDB.Recovery
import LinKV.Server.Replicas
import LinKV.Server.Duplicates
import LinKV.Server.Install
import LinKV.Server.Wire
import LinKV.Client.ExactlyOnce
import LinKV.Client.Retry
import LinKV.Client.Resume
