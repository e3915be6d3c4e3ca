import Slsfs.Lib.Overlay
import Slsfs.Lib.Run
import Slsfs.Lib.Count
import Slsfs.Ssbd.Isolation
import Slsfs.Ssbd.Ledger
import Slsfs.Datafunction.BlockLoop
import Slsfs.Datafunction.Coordinator
import Slsfs.Datafunction.Overlap
import Slsfs.Datafunction.Visibility
import Slsfs.Datafunction.Sequential
import Slsfs.Datafunction.Atomic
import Slsfs.Datafunction.Replicas
import Slsfs.Datafunction.CacheRange
import Slsfs.Proxy.AtMostOnce
import Slsfs.Proxy.Affinity
import Slsfs.Ssbd.Frame
import Slsfs.Ssbd.PendingLog
import Slsfs.Datafunction.Storage
import Slsfs.Datafunction.Directory
import Slsfs.Datafunction.CacheTransfer
import Slsfs.Proxy.FileBindings
import Slsfs.Lib.Delimited
import Slsfs.Lib.Recency
import Slsfs.Datafunction.LruList
import Slsfs.Datafunction.Bookkeeping
import Slsfs.Datafunction.FailedRequest
import Slsfs.Lib.Framing
import Slsfs.Datafunction.Wire
import Slsfs.Pack
import Slsfs.JsonReplacement
import Slsfs.Proxy.Forwarding
import Slsfs.Proxy.WorkerSet
import Slsfs.Proxy.Connection
import Slsfs.Lib.Ring
import Slsfs.Proxy.Ring
import Slsfs.Proxy.ReadLoop
import Slsfs.SocketWriter
import Slsfs.Datafunction.Deadline
import Slsfs.Datafunction.ConcurrentAddfile
import Slsfs.Datafunction.BlockSplit
import Slsfs.Datafunction.Placement
import Slsfs.Ssbd.ReadBounds
import Slsfs.Lib.Loop
import Slsfs.Datafunction.Rollback
import Slsfs.Datafunction.Reassembly
import Slsfs.Lib.Gather
import Slsfs.Datafunction.SparseRead
import Slsfs.Datafunction.CacheFill
import Slsfs.Datafunction.Malformed
import Slsfs.Lib.Linked
import Slsfs.Datafunction.LruCache
import Slsfs.Datafunction.BackendJobs
import Slsfs.Datafunction.DirectoryParse
import Slsfs.Proxy.Handover
import Slsfs.Proxy.Selection
import Slsfs.Proxy.ActiveLoad
import Slsfs.Proxy.StartingWorkers
import Slsfs.Proxy.MaxQueue
import Slsfs.Proxy.Liveness
import Slsfs.Proxy.Topics
import Slsfs.Datafunction.KeyValue
import Slsfs.Lib.Base64
import Slsfs.Datafunction.BlockIds
import Slsfs.Lib.Window
import Slsfs.Proxy.MovingInterval
import Slsfs.Proxy.MovingIntervalGlobal
import Slsfs.Datafunction.FileNames
import Slsfs.Lib.Program
import Slsfs.Ssbd.Steps
import Slsfs.Ssbd.Interleaving
import Slsfs.Ssbd.Crash
import Slsfs.FileSystem
import Slsfs.Datafunction.Version
import Slsfs.Proxy.Membership
import Slsfs.Proxy.Heartbeat
import Slsfs.Proxy.Trigger
import Slsfs.Proxy.TriggerTopic
import Slsfs.Datafunction.KeepAlive
import Slsfs.Datafunction.CacheSharing
