import KvRaft.LTS.Basic
import KvRaft.Consensus.Protocol
import KvRaft.Consensus.Safety
import KvRaft.Consensus.Tally
import KvRaft.Raft.Node
import KvRaft.Raft.Cluster
import KvRaft.Raft.Spec
import KvRaft.Raft.Election
import KvRaft.Raft.Refinement
import KvRaft.Raft.Simulation
import KvRaft.Raft.Replication
import KvRaft.Raft.Safety
import KvRaft.Raft.Stream
import KvRaft.Raft.Delivery
import KvRaft.Raft.LogIndices
import KvRaft.Raft.Issued
import KvRaft.Raft.Terms
import KvRaft.Raft.CommitSound
import KvRaft.Raft.CommitRule
import KvRaft.Raft.Durable
import KvRaft.Raft.CrashElection
import KvRaft.Raft.CrashSafety
import KvRaft.Raft.IndexOrder
import KvRaft.Raft.Restart
import KvRaft.Kv.Sound
import KvRaft.Kv.Service
import KvRaft.Kv.Requests
import KvRaft.Kv.Once
import KvRaft.Kv.Reads
import KvRaft.Kv.Acknowledged
import KvRaft.Kv.ExactlyOnce
import KvRaft.Kv.Compaction
import KvRaft.Kv.Meaning
import KvRaft.Rpc.Turns
import KvRaft.Rpc.Segments
import KvRaft.Raft.Register
import KvRaft.Kv.WaitChannels
import KvRaft.Kv.Notified
import KvRaft.SkipList.Refinement
import KvRaft.SkipList.Snapshot
import KvRaft.SkipList.LoadFailure
import KvRaft.SkipList.Atomic
import KvRaft.Fiber.Bookkeeping
import KvRaft.Fiber.ContextTable
import KvRaft.Fiber.Yield
import KvRaft.Fiber.Scheduler
import KvRaft.Fiber.Reuse
import KvRaft.Raft.Tidy
import KvRaft.Raft.Slices
import KvRaft.Raft.Progress
import KvRaft.Raft.Snapshots
import KvRaft.Raft.Repair
import KvRaft.Raft.Duplicates
import KvRaft.Fiber.TimerSet
import KvRaft.Kv.StateSize
import KvRaft.Fiber.Idle
import KvRaft.Fiber.Sleep
import KvRaft.Fiber.Nonblock
import KvRaft.Rpc.Config
import KvRaft.Rpc.Replies
import KvRaft.LTS.LogOrder
import KvRaft.Kv.History
import KvRaft.Raft.Origin
import KvRaft.Raft.CompactSafety
import KvRaft.Kv.Stack
