import Hayven.Cli.BranchPoll
import Hayven.Cli.DirtyRecord
import Hayven.Cli.Gossip
import Hayven.Cli.GrowingPull
import Hayven.Cli.GuardRuns
import Hayven.Conflict.ContractDiffLaws
import Hayven.Crdt.Clock
import Hayven.Crdt.MerkleCache
import Hayven.Crdt.OpSets
import Hayven.Crdt.OrsetRelease
import Hayven.Crdt.SegmentWindow
import Hayven.Daemon.ClaimExpiry
import Hayven.Daemon.Integrity
import Hayven.Daemon.RegistryAbsence
import Hayven.Daemon.RegistryLockRuns
import Hayven.Daemon.StartLock
import Hayven.Daemon.TraceLaws
import Hayven.Db.ChangePackLaws
import Hayven.Db.ContextCacheLaws
import Hayven.Db.FleetMemoryLaws
import Hayven.Db.FreshnessRuns
import Hayven.Db.FtsLaws
import Hayven.Db.IdMigration
import Hayven.Db.LaneLaws
import Hayven.Db.MinimalSelection
import Hayven.Db.ModuleFrame
import Hayven.Db.PytestHandles
import Hayven.Graph.EntityIds
import Hayven.Graph.Incremental
import Hayven.Graph.NativeStreamLaws
import Hayven.Graph.NodeFileLaws
import Hayven.Graph.OrderFree
import Hayven.Graph.Refusals
import Hayven.Graph.Reresolve
import Hayven.Graph.SharedIndexRuns
import Hayven.Graph.WorkspaceCandidates
import Hayven.Mcp.SessionLaws
import Hayven.Trace.GoProfile
import Hayven.Native.NdjsonLines
import Hayven.Native.RoundTrip
import Hayven.Native.SignatureLaws
import Hayven.Native.WatcherRuns
import Hayven.Proxy.CompactionRuns
import Hayven.Trace.Accepted
import Hayven.Trace.BunFlusherLaws
import Hayven.Trace.ProfileLaws
import Hayven.Util.FileLockRuns
import Hayven.Util.ScaffoldLaws
import Hayven.Worktree.PruneRuns
