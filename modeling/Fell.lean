import Fell.Lib.Positional
import Fell.Lib.Framing
import Fell.Lib.LengthPrefixed
import Fell.Lib.UpperBound
import Fell.Lib.Transition
import Fell.Platform
import Fell.Storage.LogFormat
import Fell.Storage.SegmentReader
import Fell.Storage.OffsetIndex
import Fell.Storage.LogRecovery
import Fell.Storage.PartitionStore
import Fell.Storage.Log
import Fell.Lib.Blocks
import Fell.Storage.Segments
import Fell.Storage.Crash
import Fell.Replication.PartitionMeta
import Fell.Broker.Protocol
import Fell.Broker.FrameDecoder
import Fell.Broker.Roles
import Fell.Replication.Election
import Fell.Replication.ReplicaManager
import Fell.Replication.Quorum
import Fell.Replication.ReplProtocol
import Fell.Broker.DeferredAck
import Fell.Replication.Follower
import Fell.Storage.Visibility
import Fell.Broker.CatchUp
import Fell.Broker.SyncStream
import Fell.Replication.Acknowledgement
import Fell.Broker.RequestHandler
import Fell.Broker.EventLoop
import Fell.Broker.Delivery
import Fell.Storage.Reopen
import Fell.Broker.Durability
import Fell.Replication.ReplicaSync
import Fell.Broker.Leadership
import Fell.Lib.Paths
import Fell.Replication.Cluster
import Fell.Replication.Fencing
import Fell.Replication.FollowerSockets
import Fell.Broker.TopicRegistry
import Fell.Broker.TopicRestart
import Fell.Broker.TopicIsolation
import Fell.Broker.DecoderState
import Fell.Broker.Parsing
import Fell.Broker.Outbound
import Fell.Broker.Subscription
import Fell.Replication.ReceiveLoop
import Fell.Storage.ShortWrite
import Fell.Replication.RejectedSync
import Fell.Cli.Producer
import Fell.Cli.Consumer
import Fell.Storage.Backlog
import Fell.Storage.IndexedRead
import Fell.Cli.CutMetadata
import Fell.Broker.RoundRobin
import Fell.Broker.Backpressure
import Fell.Broker.PollBatch
import Fell.Storage.OnceCallbacks
import Fell.Replication.ReleaseOrder
import Fell.Lib.OwnedMap
import Fell.Replication.Epochs
import Fell.Replication.Isr
import Fell.Broker.References
import Fell.Broker.Locking
import Fell.Cli.ConsumerLoop
import Fell.Lib.Monitor
import Fell.Replication.Shutdown
import Fell.Storage.Wakeup
import Fell.Broker.SmallPayload
import Fell.Cli.ProducerLoop
import Fell.Broker.Replicated
import Fell.Storage.Flush
import Fell.Broker.Phantom
import Fell.Storage.Timestamps
import Fell.Broker.Teardown
import Fell.Broker.Agreement
import Fell.Broker.Notify
import Fell.Broker.PeerList
