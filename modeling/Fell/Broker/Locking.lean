import Fell.Lib.LockOrder
import Fell.Platform

/-!
# The locks of the broker

The threads of a broker process, and what they do with its locks: the event
loop, the I/O thread of each partition store, the worker of each replica
manager, the replication server, and a replication client for each partition
that is followed.

A function is the list of the locks it takes and gives back, in order. Scoped
locks (`std::lock_guard`, `std::unique_lock`, `std::shared_lock`) are `locked`.
What a function does in between is left out, and what decides how far it gets,
or how often it goes round, is an argument. A wait on a condition variable gives
its lock back and takes it again: it is an end of one scope and the beginning of
the next.

The locks are ranked (`Lock.rank`), and every function takes them in that order
(`orderly_locks`), so the threads cannot deadlock (`never_deadlocked`).
-/

namespace Fell.Broker

open Platform LockThread

/-- The mutexes of a broker. Those of partitions come with their topic and index. -/
inductive Lock
  /-- `Broker::repl_mu_`. -/
  | replMu
  /-- `Broker::response_mu_`. -/
  | responseMu
  /-- `PartitionMetaRegistry::mu_`. -/
  | metaRegistryMu
  /-- `TopicRegistry::mu_`. -/
  | topicRegistryMu
  /-- `PartitionMeta::mu`. -/
  | metaMu (tp : Bytes × UInt16)
  /-- `ReplicaManager::pending_mu_`. -/
  | pendingMu (tp : Bytes × UInt16)
  /-- `ReplicaManager::queue_mu_`. -/
  | commitQueueMu (tp : Bytes × UInt16)
  /-- `ReplicaManager::fds_mu_`. -/
  | fdsMu (tp : Bytes × UInt16)
  /-- `PartitionStore::queue_mu_`. -/
  | queueMu (tp : Bytes × UInt16)
  /-- `PartitionStore::mu_`. -/
  | storeMu (tp : Bytes × UInt16)
  /-- `PartitionStore::once_cb_mu_`. -/
  | onceCbMu (tp : Bytes × UInt16)
  /-- `ReplicationClient::out_mu_`. -/
  | outMu (tp : Bytes × UInt16)
  deriving DecidableEq

/-- The order in which the mutexes are taken. -/
def Lock.rank : Lock → ℕ
  | .replMu => 0
  | .pendingMu _ => 1
  | .metaMu _ => 2
  | .topicRegistryMu => 3
  | .metaRegistryMu => 3
  | .fdsMu _ => 3
  | .responseMu => 3
  | .commitQueueMu _ => 3
  | .queueMu _ => 3
  | .storeMu _ => 3
  | .onceCbMu _ => 3
  | .outMu _ => 4

namespace Locking

/-- A mutex held for itself alone. -/
def guard (l : Lock) : List (LockOp Lock) := locked l .exclusive []

/-- `n` times the same. -/
def times (n : ℕ) (ops : List (LockOp Lock)) : List (LockOp Lock) :=
  (List.range n).flatMap fun _ => ops

/-! ## The registries -/

/-- `PartitionMetaRegistry::get`. -/
def metaRegistryGet : List (LockOp Lock) := guard .metaRegistryMu

/-- `PartitionMetaRegistry::epoch`. -/
def epoch (tp : Bytes × UInt16) : List (LockOp Lock) := metaRegistryGet ++ guard (.metaMu tp)

/-- `PartitionMetaRegistry::assign_roles`, for the partitions it goes through. -/
def assignRoles (tps : List (Bytes × UInt16)) : List (LockOp Lock) :=
  tps.flatMap fun tp => metaRegistryGet ++ guard (.metaMu tp)

/-- `TopicRegistry::get_partition`, `num_partitions` and `list_topics`. -/
def topicRegistryRead : List (LockOp Lock) := locked .topicRegistryMu .shared []

/-- `TopicRegistry::create_topic`. -/
def createTopic : List (LockOp Lock) := guard .topicRegistryMu

/-! ## The partition store -/

section

variable (tp : Bytes × UInt16)

/-- `PartitionStore::append`. -/
def append : List (LockOp Lock) := guard (.queueMu tp)

/-- `PartitionStore::fetch`. -/
def fetch : List (LockOp Lock) := guard (.storeMu tp)

/-- `PartitionStore::next_offset`. -/
def nextOffset : List (LockOp Lock) := guard (.storeMu tp)

/-- The commit callback of a `ReplicationClient`. -/
def onceCallback : List (LockOp Lock) := guard (.outMu tp)

/-- `PartitionStore::set_once_commit_callback`: a callback that is called at once is called
    inside. -/
def setOnceCommitCallback (committed : Bool) : List (LockOp Lock) :=
  locked (.onceCbMu tp) .exclusive (if committed then onceCallback tp else [])

/-- `PartitionStore::fire_once_callbacks`: the callbacks are called outside. -/
def fireOnceCallbacks (callbacks : ℕ) : List (LockOp Lock) :=
  guard (.onceCbMu tp) ++ times callbacks (onceCallback tp)

/-- `PartitionStore::take_batch`, with the number of its waits. -/
def takeBatch (waits : ℕ) : List (LockOp Lock) := times (waits + 1) (guard (.queueMu tp))

/-- `ReplicaManager::enqueue_committed`. -/
def enqueueCommitted : List (LockOp Lock) := guard (.commitQueueMu tp)

/-- A round of `PartitionStore::io_loop`. -/
def ioRound (waits callbacks : ℕ) (installed rotates : Bool) : List (LockOp Lock) :=
  takeBatch tp waits ++ fireOnceCallbacks tp callbacks ++
    (if installed then enqueueCommitted tp else []) ++
    (if rotates then guard (.storeMu tp) else [])

/-! ## The replica manager -/

/-- `ReplicaManager::register_pending`. -/
def registerPending : List (LockOp Lock) :=
  locked (.pendingMu tp) .exclusive (guard (.metaMu tp))

/-- `ReplicaManager::set_follower_fd`. -/
def setFollowerFd : List (LockOp Lock) := guard (.fdsMu tp)

/-- `ReplicaManager::on_replica_ack`. -/
def onReplicaAck : List (LockOp Lock) := locked (.pendingMu tp) .exclusive (guard (.metaMu tp))

/-- `Broker::post_response`. -/
def postResponse : List (LockOp Lock) := guard .responseMu

/-- A round of `ReplicaManager::worker_loop`, with the number of its waits and of the responses
    it posts. -/
def workerRound (waits responses : ℕ) : List (LockOp Lock) :=
  times (waits + 1) (guard (.commitQueueMu tp)) ++ guard (.pendingMu tp) ++
    times responses postResponse ++ guard (.metaMu tp) ++ guard (.fdsMu tp)

/-! ## The broker -/

/-- `Broker::drain_response_queue`. -/
def drainResponseQueue : List (LockOp Lock) := guard .responseMu

/-- `Broker::get_or_create_replica_manager`. -/
def getOrCreateReplicaManager (found : Bool) : List (LockOp Lock) :=
  locked .replMu .exclusive (if found then [] else metaRegistryGet ++ topicRegistryRead)

/-- `Broker::get_or_create_replication_client`. -/
def getOrCreateReplicationClient : List (LockOp Lock) := guard .replMu

/-- The callback of `Broker` for a REPLICA_ACK. -/
def replicaAckCb (found : Bool) (responses : ℕ) : List (LockOp Lock) :=
  locked .replMu .exclusive
    (if found then onReplicaAck tp ++ times responses postResponse else [])

/-- The callback of `Broker` for a FETCH_LOG. -/
def fetchLogCb (found : Bool) : List (LockOp Lock) :=
  locked .replMu .exclusive (if found then setFollowerFd tp else [])

/-- `Broker::initialize_replication`: the partitions of all topics, with whether they are led. -/
def initializeReplication (tps : List ((Bytes × UInt16) × Bool)) : List (LockOp Lock) :=
  topicRegistryRead ++ assignRoles (tps.map Prod.fst) ++ tps.flatMap fun tp =>
    metaRegistryGet ++
      if tp.2 then getOrCreateReplicaManager false else getOrCreateReplicationClient

/-! ## Requests -/

/-- How far a request on a partition gets. -/
inductive Reached
  /-- It is malformed. -/
  | nothing
  /-- The topic or the partition does not exist. -/
  | topic
  /-- This broker is not the leader. -/
  | role
  | partition

/-- A request on a partition: its topic, its role and the partition itself are looked up before
    `body`. -/
def onPartition (body : List (LockOp Lock)) : Reached → List (LockOp Lock)
  | .nothing => []
  | .topic => topicRegistryRead
  | .role => topicRegistryRead ++ metaRegistryGet
  | .partition => topicRegistryRead ++ metaRegistryGet ++ topicRegistryRead ++ body

/-- How a publish on a partition ends: answered at once, or deferred to a replica manager, which
    is there already or is created. -/
inductive Published
  | answered
  | deferred (found : Bool)

/-- `RequestHandler::handle_publish` and `handle_publish_v2`. -/
def handlePublish (reached : Reached) (published : Published) : List (LockOp Lock) :=
  onPartition (append tp ++ match published with
    | .answered => []
    | .deferred found => getOrCreateReplicaManager found ++ registerPending tp) reached

/-- `RequestHandler::handle_subscribe`. -/
def handleSubscribe (reached : Reached) : List (LockOp Lock) := onPartition (nextOffset tp) reached

/-- `RequestHandler::handle_fetch`. -/
def handleFetch (reached : Reached) : List (LockOp Lock) := onPartition (fetch tp) reached

end

/-- `RequestHandler::handle_metadata_req`. -/
def handleMetadataReq (partitions : ℕ) : List (LockOp Lock) :=
  topicRegistryRead ++ times partitions metaRegistryGet

/-- `RequestHandler::handle_create_topic`: the partitions of the topic, if it is created. -/
def handleCreateTopic (created : List (Bytes × UInt16)) : List (LockOp Lock) :=
  createTopic ++ assignRoles created

/-! ## The replication threads -/

section

variable (tp : Bytes × UInt16)

/-- `ReplicationServer::handle_fetch_log`: the numbers of records fetched in the rounds of its
    loop, if the partition exists. -/
def handleFetchLog (found : Bool) (rounds : Option (List ℕ)) : List (LockOp Lock) :=
  topicRegistryRead ++ match rounds with
    | none => []
    | some counts =>
      fetchLogCb tp found ++ counts.flatMap fun n => fetch tp ++ times n (epoch tp)

/-- `ReplicationServer::handle_leader_election`: the registry of topics is read while the
    metadata is locked. -/
def handleLeaderElection (newer : Bool) : List (LockOp Lock) :=
  metaRegistryGet ++ locked (.metaMu tp) .exclusive (if newer then topicRegistryRead else [])

/-- `ReplicationClient::maybe_elect_self`. -/
def maybeElectSelf (found : Bool) : List (LockOp Lock) :=
  topicRegistryRead ++ if found then metaRegistryGet ++ guard (.metaMu tp) else []

/-- What `ReplicationClient::connect_to_leader` comes to. -/
inductive Connected
  /-- There is no address of the leader. -/
  | unknown
  /-- This broker is the leader, or the connection failed. -/
  | failed (found : Bool)
  /-- `send_fetch_log` follows. -/
  | connected

/-- `ReplicationClient::connect_to_leader`. -/
def connectToLeader (c : Connected) : List (LockOp Lock) :=
  metaRegistryGet ++ guard (.metaMu tp) ++ match c with
    | .unknown => []
    | .failed found => maybeElectSelf tp found
    | .connected => topicRegistryRead

/-- What `ReplicationClient::on_replica_sync` comes to. -/
inductive Synced
  | noPartition
  | gap
  | appended (committed : Bool)

/-- `ReplicationClient::on_replica_sync`. -/
def onReplicaSync (r : Synced) : List (LockOp Lock) :=
  topicRegistryRead ++ match r with
    | .noPartition => []
    | .gap => nextOffset tp
    | .appended committed =>
      nextOffset tp ++ setOnceCommitCallback tp committed ++ append tp

/-- The drain of `out_acks_` in `ReplicationClient::event_loop`. -/
def drainAcks : List (LockOp Lock) := guard (.outMu tp)

end

/-! ## Calls -/

/-- What a thread of the broker does at a time. -/
inductive Call
  | initializeReplication (tps : List ((Bytes × UInt16) × Bool))
  | drainResponseQueue
  | handleMetadataReq (partitions : ℕ)
  | handleCreateTopic (created : List (Bytes × UInt16))
  | handlePublish (tp : Bytes × UInt16) (reached : Reached) (published : Published)
  | handleSubscribe (tp : Bytes × UInt16) (reached : Reached)
  | handleFetch (tp : Bytes × UInt16) (reached : Reached)
  | ioRound (tp : Bytes × UInt16) (waits callbacks : ℕ) (installed rotates : Bool)
  | workerRound (tp : Bytes × UInt16) (waits responses : ℕ)
  | handleFetchLog (tp : Bytes × UInt16) (found : Bool) (rounds : Option (List ℕ))
  | handleReplicaAck (tp : Bytes × UInt16) (found : Bool) (responses : ℕ)
  | handleLeaderElection (tp : Bytes × UInt16) (newer : Bool)
  | connectToLeader (tp : Bytes × UInt16) (c : Connected)
  | onReplicaSync (tp : Bytes × UInt16) (r : Synced)
  | drainAcks (tp : Bytes × UInt16)

/-- What a call does with locks. -/
def Call.locks : Call → List (LockOp Lock)
  | .initializeReplication tps => Locking.initializeReplication tps
  | .drainResponseQueue => Locking.drainResponseQueue
  | .handleMetadataReq partitions => Locking.handleMetadataReq partitions
  | .handleCreateTopic created => Locking.handleCreateTopic created
  | .handlePublish tp reached published => Locking.handlePublish tp reached published
  | .handleSubscribe tp reached => Locking.handleSubscribe tp reached
  | .handleFetch tp reached => Locking.handleFetch tp reached
  | .ioRound tp waits callbacks installed rotates =>
    Locking.ioRound tp waits callbacks installed rotates
  | .workerRound tp waits responses => Locking.workerRound tp waits responses
  | .handleFetchLog tp found rounds => Locking.handleFetchLog tp found rounds
  | .handleReplicaAck tp found responses => replicaAckCb tp found responses
  | .handleLeaderElection tp newer => Locking.handleLeaderElection tp newer
  | .connectToLeader tp c => Locking.connectToLeader tp c
  | .onReplicaSync tp r => Locking.onReplicaSync tp r
  | .drainAcks tp => Locking.drainAcks tp

/-! ## Every call takes the locks in order -/

section

variable {tp : Bytes × UInt16} {ops : List (LockOp Lock)}

theorem orderly_guard (l : Lock) : Orderly Lock.rank (guard l) :=
  orderly_locked orderly_nil (by simp)

theorem orderly_times (n : ℕ) (h : Orderly Lock.rank ops) : Orderly Lock.rank (times n ops) :=
  Orderly.flatMap (fun _ => h) _

@[simp] theorem acquired_guard (l : Lock) : acquired (guard l) = [l] := acquired_locked

theorem mem_acquired_times {n : ℕ} {l : Lock} (h : l ∈ acquired (times n ops)) :
    l ∈ acquired ops := by
  induction n with
  | zero => exact absurd h List.not_mem_nil
  | succ n ih =>
    rw [times, List.range_succ, List.flatMap_append, acquired_append, List.mem_append] at h
    rcases h with h | h
    · exact ih h
    · simpa using h

theorem orderly_topicRegistryRead : Orderly Lock.rank topicRegistryRead :=
  orderly_locked orderly_nil (by simp)

theorem orderly_metaRegistryGet : Orderly Lock.rank metaRegistryGet := orderly_guard _

theorem orderly_epoch : Orderly Lock.rank (epoch tp) :=
  orderly_metaRegistryGet.append (orderly_guard _)

theorem orderly_assignRoles (tps : List (Bytes × UInt16)) : Orderly Lock.rank (assignRoles tps) :=
  Orderly.flatMap (fun _ => orderly_epoch) _

theorem orderly_setOnceCommitCallback (committed : Bool) :
    Orderly Lock.rank (setOnceCommitCallback tp committed) := by
  refine orderly_locked ?_ ?_
  · split
    · exact orderly_guard _
    · exact orderly_nil
  · split <;> simp [onceCallback, Lock.rank]

/-- `register_pending` and `on_replica_ack` lock the metadata inside. -/
theorem orderly_registerPending : Orderly Lock.rank (registerPending tp) :=
  orderly_locked (orderly_guard _) (by simp [Lock.rank])

theorem orderly_getOrCreateReplicaManager (found : Bool) :
    Orderly Lock.rank (getOrCreateReplicaManager found) := by
  refine orderly_locked ?_ ?_
  · split
    · exact orderly_nil
    · exact orderly_metaRegistryGet.append orderly_topicRegistryRead
  · split <;> simp [metaRegistryGet, topicRegistryRead, Lock.rank]

theorem orderly_replicaAckCb (found : Bool) (responses : ℕ) :
    Orderly Lock.rank (replicaAckCb tp found responses) := by
  refine orderly_locked ?_ ?_
  · split
    · exact orderly_registerPending.append (orderly_times _ (orderly_guard _))
    · exact orderly_nil
  · split
    · intro l hl
      rw [acquired_append, List.mem_append] at hl
      rcases hl with hl | hl
      · rcases (by simpa [onReplicaAck] using hl) with rfl | rfl <;> simp [Lock.rank]
      · obtain rfl : l = .responseMu := by simpa [postResponse] using mem_acquired_times hl
        decide
    · simp

theorem orderly_fetchLogCb (found : Bool) : Orderly Lock.rank (fetchLogCb tp found) := by
  refine orderly_locked ?_ ?_
  · split
    · exact orderly_guard _
    · exact orderly_nil
  · split <;> simp [setFollowerFd, Lock.rank]

theorem orderly_onPartition (h : Orderly Lock.rank ops) (reached : Reached) :
    Orderly Lock.rank (onPartition ops reached) := by
  have hrole := orderly_topicRegistryRead.append orderly_metaRegistryGet
  cases reached with
  | nothing => exact orderly_nil
  | topic => exact orderly_topicRegistryRead
  | role => exact hrole
  | «partition» => exact (hrole.append orderly_topicRegistryRead).append h

theorem orderly_initializeReplication (tps : List ((Bytes × UInt16) × Bool)) :
    Orderly Lock.rank (initializeReplication tps) := by
  refine (orderly_topicRegistryRead.append (orderly_assignRoles _)).append
    (Orderly.flatMap (fun tp => orderly_metaRegistryGet.append ?_) _)
  split
  · exact orderly_getOrCreateReplicaManager false
  · exact orderly_guard _

theorem orderly_handlePublish (reached : Reached) (published : Published) :
    Orderly Lock.rank (handlePublish tp reached published) := by
  refine orderly_onPartition ((orderly_guard _).append ?_) _
  cases published with
  | answered => exact orderly_nil
  | deferred found => exact (orderly_getOrCreateReplicaManager found).append orderly_registerPending

theorem orderly_ioRound (waits callbacks : ℕ) (installed rotates : Bool) :
    Orderly Lock.rank (ioRound tp waits callbacks installed rotates) := by
  refine ((Orderly.append (orderly_times _ (orderly_guard _)) ?_).append ?_).append ?_
  · exact (orderly_guard _).append (orderly_times _ (orderly_guard _))
  · split
    · exact orderly_guard _
    · exact orderly_nil
  · split
    · exact orderly_guard _
    · exact orderly_nil

theorem orderly_workerRound (waits responses : ℕ) :
    Orderly Lock.rank (workerRound tp waits responses) :=
  ((((orderly_times _ (orderly_guard _)).append (orderly_guard _)).append
    (orderly_times _ (orderly_guard _))).append (orderly_guard _)).append (orderly_guard _)

theorem orderly_handleFetchLog (found : Bool) (rounds : Option (List ℕ)) :
    Orderly Lock.rank (handleFetchLog tp found rounds) := by
  refine orderly_topicRegistryRead.append ?_
  cases rounds with
  | none => exact orderly_nil
  | some counts =>
    exact (orderly_fetchLogCb found).append
      (Orderly.flatMap (fun n => (orderly_guard _).append (orderly_times n orderly_epoch)) _)

theorem orderly_handleLeaderElection (newer : Bool) :
    Orderly Lock.rank (handleLeaderElection tp newer) := by
  refine orderly_metaRegistryGet.append (orderly_locked ?_ ?_)
  · split
    · exact orderly_topicRegistryRead
    · exact orderly_nil
  · split <;> simp [topicRegistryRead, Lock.rank]

theorem orderly_connectToLeader (c : Connected) : Orderly Lock.rank (connectToLeader tp c) := by
  refine (orderly_metaRegistryGet.append (orderly_guard _)).append ?_
  cases c with
  | unknown => exact orderly_nil
  | failed found =>
    refine orderly_topicRegistryRead.append ?_
    split
    · exact orderly_epoch
    · exact orderly_nil
  | connected => exact orderly_topicRegistryRead

theorem orderly_onReplicaSync (r : Synced) : Orderly Lock.rank (onReplicaSync tp r) := by
  refine orderly_topicRegistryRead.append ?_
  cases r with
  | noPartition => exact orderly_nil
  | gap => exact orderly_guard _
  | appended committed =>
    exact ((orderly_guard _).append (orderly_setOnceCommitCallback committed)).append
      (orderly_guard _)

end

theorem orderly_locks (c : Call) : Orderly Lock.rank c.locks := by
  cases c with
  | initializeReplication tps => exact orderly_initializeReplication tps
  | drainResponseQueue => exact orderly_guard _
  | handleMetadataReq partitions =>
    exact orderly_topicRegistryRead.append (orderly_times _ orderly_metaRegistryGet)
  | handleCreateTopic created => exact (orderly_guard _).append (orderly_assignRoles created)
  | handlePublish tp reached published => exact orderly_handlePublish reached published
  | handleSubscribe tp reached => exact orderly_onPartition (orderly_guard _) reached
  | handleFetch tp reached => exact orderly_onPartition (orderly_guard _) reached
  | ioRound tp waits callbacks installed rotates => exact orderly_ioRound ..
  | workerRound tp waits responses => exact orderly_workerRound ..
  | handleFetchLog tp found rounds => exact orderly_handleFetchLog found rounds
  | handleReplicaAck tp found responses => exact orderly_replicaAckCb found responses
  | handleLeaderElection tp newer => exact orderly_handleLeaderElection newer
  | connectToLeader tp c => exact orderly_connectToLeader c
  | onReplicaSync tp r => exact orderly_onReplicaSync r
  | drainAcks tp => exact orderly_guard _

/-! ## No deadlock -/

variable {ι : Type*}

/-- The threads, each with the calls it is going to make, before any has begun. -/
def started (calls : ι → List Call) (i : ι) : LockThread Lock := ⟨[], (calls i).flatMap Call.locks⟩

theorem allOrderly_started (calls : ι → List Call) : AllOrderly Lock.rank (started calls) :=
  fun i => Orderly.flatMap orderly_locks (calls i)

/-- The threads of a broker do not deadlock: whatever they are called for, in whatever order
    they move, some thread is not blocked, until all their calls have returned, and from every
    state all of them can return. -/
theorem never_deadlocked [DecidableEq ι] [Finite ι] {calls : ι → List Call} {is : List ι}
    {s : ι → LockThread Lock} (hrun : Run Step (started calls) is s) :
    ((∃ i, (s i).rest ≠ []) → ∃ i, Unblocked s i) ∧
      ∃ is' s', Run Step s is' s' ∧ ∀ i, (s' i).rest = [] ∧ (s' i).held = [] := by
  have hord := Run.allOrderly hrun (allOrderly_started calls)
  refine ⟨?_, ?_⟩
  · rintro ⟨i, hi⟩
    exact exists_unblocked hord hi
  · exact hord.exists_run_done

/-- A replication server that handles a REPLICA_ACK, and an event loop that defers the
    acknowledgement of a publish. -/
def ackAndPublish : Bool → List Call
  | true => [.handleReplicaAck ([97], 0) true 1]
  | false => [.handlePublish ([97], 0) .partition (.deferred false)]

/-- The server has locked the replica managers. -/
def ackTaken : Bool → LockThread Lock :=
  Function.update (started ackAndPublish) true
    ⟨[(.replMu, .exclusive)], (replicaAckCb ([97], 0) true 1).tail⟩

theorem run_ackTaken : Run Step (started ackAndPublish) [true] ackTaken :=
  .single (.acquire rfl fun _ _ h => absurd h List.not_mem_nil)

theorem never_deadlocked_ackTaken :
    ((∃ i, (ackTaken i).rest ≠ []) → ∃ i, Unblocked ackTaken i) ∧
      ∃ is' s', Run Step ackTaken is' s' ∧ ∀ i, (s' i).rest = [] ∧ (s' i).held = [] :=
  never_deadlocked run_ackTaken

end Locking

end Fell.Broker
