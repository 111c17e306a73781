import Fell.Broker.FrameDecoder
import Fell.Broker.Roles
import Fell.Storage.PartitionStore

/-!
# Request handling

`RequestHandler` (`broker/request_handler.cpp`) answers the frames of a client. A
handler reads the request and checks it against the topics and the roles. Some requests
are answered then; the others go on to a partition (`Access`), where what they find
depends on the threads of the partition. That part is told apart, since the partition may
have changed by then.

`meta_reg_->get` throws no exception, so the branches that catch one are left out.

* `course_handle`: the ways a request can go, from which follow
* `keeps_handle`: no request changes the configuration, and
* `append_of_handle`: only `PUBLISH` and `PUBLISH_V2` append;
* `handleCreateTopic_eq`: with a configuration and the metadata, creating a topic is
  what `Broker.handleCreateTopic` says.
-/

namespace Fell.Broker

open Platform Positional Replication Storage

/-- What the handlers keep with a connection (`ConnectionState`). -/
structure Session where
  subTopic : Bytes := []
  subPartition : UInt16 := 0
  fetchOffset : UInt64 := 0
  subscribed : Bool := false
  rrCounter : UInt16 := 0

/-- What a request asks of a partition. -/
inductive Access
  | append (payload : Payload)
  | subscribe (startOffset : UInt64)
  | fetch (offset : UInt64) (maxMessages : UInt16)
  deriving DecidableEq

/-- What the checks of a request come to. -/
inductive Outcome
  | reply (response : Bytes)
  | access (topic : Bytes) (partition : UInt16) (a : Access)
  deriving DecidableEq

/-- `RequestHandler`, with the registry it refers to. -/
structure RequestHandler where
  /-- The number of partitions of each topic in `registry_`. -/
  topics : AList fun _ : Bytes => ℕ+
  /-- The partitions that are null pointers, as `recover_all` has found no directory. -/
  missing : Bytes → UInt16 → Bool
  cfg : Option ClusterConfig
  metaReg : Option PartitionMetaRegistry
  /-- Whether there is a `defer_cb_`. -/
  deferCb : Bool

/-- A request that has been checked. -/
structure Handled where
  outcome : Outcome
  session : Session
  handler : RequestHandler

namespace RequestHandler

variable (h : RequestHandler) (sess : Session)

/-! ## The registry -/

/-- `TopicRegistry::num_partitions`. -/
def numPartitions (topic : Bytes) : UInt16 :=
  match h.topics.lookup topic with
  | none => 0
  | some count => UInt16.ofNat count

/-- `TopicRegistry::get_partition`: whether there is one. -/
def getPartition (topic : Bytes) (partition : UInt16) : Bool :=
  match h.topics.lookup topic with
  | none => false
  | some count => partition.toNat < count && !h.missing topic partition

/-- `TopicRegistry::create_topic`, of a topic that does not exist. -/
def createTopic (topic : Bytes) (numPartitions : ℕ+) : RequestHandler :=
  { h with
    topics := h.topics.insert topic numPartitions
    missing := fun t p => t ≠ topic && h.missing t p }

/-! ## Checks -/

/-- The request is answered with an error. -/
def refuse (code : ErrCode) (msg : String) : Handled := ⟨.reply (encodeError code msg), sess, h⟩

/-- The role of the broker is known, and it is not the leader. -/
def notLeader (topic : Bytes) (partition : UInt16) : Bool :=
  match h.metaReg with
  | none => false
  | some reg => (reg.find topic partition).role ≠ .leader

/-- The last checks of the requests that go on to a partition: that the broker leads it, and
    that it is found. -/
def locate (topic : Bytes) (partition : UInt16) (a : Access) : Handled :=
  let h := { h with metaReg := h.metaReg.map (PartitionMetaRegistry.get · topic partition) }
  if h.notLeader topic partition then h.refuse sess .notLeader "Not leader for partition"
  else if h.getPartition topic partition then ⟨.access topic partition a, sess, h⟩
  else h.refuse sess .unknownPartition "Partition registry lookup failed"

/-! ## The handlers -/

/-- A broker in the response to `METADATA_REQ`. -/
def addBroker (id : UInt32) (host : Bytes) (clientPort : UInt16) : Bytes :=
  hostToBe32 id ++ UInt8.ofNat host.length :: (host ++ hostToBe16 clientPort)

/-- A partition in the response to `METADATA_REQ`. -/
def addPartition (reg : PartitionMetaRegistry) (topic : Bytes) (partition : UInt16) : Bytes :=
  hostToBe16 partition ++ hostToBe32 (reg.find topic partition).leaderId

/-- `handle_metadata_req`. -/
def handleMetadataReq (payload : Bytes) : Handled :=
  if payload.length < TopicReq.size then
    h.refuse sess .malformedRequest "payload too small for METADATA_REQ"
  else
    let topic := (TopicReq.ofPayload payload).topicName
    match h.cfg, h.metaReg with
    | some cfg, some reg =>
      let partitions := (List.range (h.numPartitions topic).toNat).map UInt16.ofNat
      let resp := hostToBe16 (UInt16.ofNat (1 + cfg.peers.length)) ++
        addBroker cfg.brokerId (ascii "127.0.0.1") cfg.clientPort ++
        cfg.peers.flatMap (fun peer => addBroker peer.brokerId (ascii peer.host) peer.clientPort) ++
        hostToBe16 (h.numPartitions topic) ++ partitions.flatMap (addPartition reg topic)
      ⟨.reply (encodeFrame .metadataResp resp), sess,
        { h with metaReg := some (partitions.foldl (PartitionMetaRegistry.get · topic ·) reg) }⟩
    | _, _ => h.refuse sess .metadataUnavailable "Cluster metadata unavailable"

/-- The roles of a new topic are seeded. -/
def seedRoles (topic : Bytes) (numPartitions : UInt16) : RequestHandler :=
  match h.cfg, h.metaReg with
  | some cfg, some reg =>
    let numBrokers := max 1 (UInt32.ofNat (1 + cfg.peers.length))
    { h with
      metaReg := some (reg.assignRoles cfg.brokerId numBrokers [topic] [numPartitions]) }
  | _, _ => h

/-- `handle_create_topic`. -/
def handleCreateTopic (payload : Bytes) : Handled :=
  if payload.length < CreateTopicReq.size then
    h.refuse sess .malformedRequest "payload too small for CREATE_TOPIC"
  else
    let req := CreateTopicReq.ofPayload payload
    if req.nameLen = 0 then h.refuse sess .malformedRequest "Topic name cannot be empty"
    else
      if hn : req.numPartitions.toNat = 0 then
        h.refuse sess .malformedRequest "Partition count must be at least 1"
      else if req.topicName ∈ h.topics then h.refuse sess .malformedRequest "Topic already exists"
      else
        ⟨.reply (encodeAck 0), sess,
          (h.createTopic req.topicName (partitionCount req hn)).seedRoles
            req.topicName req.numPartitions⟩

/-- The partition field that asks for round robin. -/
def roundRobin : UInt16 := 0xFFFF

/-- A message without a key: the partition it names, or the next one in turn. -/
def publishKeyless (topic : Bytes) (partition : UInt16) (message : Payload) : Handled :=
  let total := h.numPartitions topic
  if partition = roundRobin then
    h.locate { sess with rrCounter := sess.rrCounter + 1 } topic (sess.rrCounter % total)
      (.append message)
  else if total ≤ partition then h.refuse sess .unknownPartition "Partition index out of bounds"
  else h.locate sess topic partition (.append message)

/-- `handle_publish`, up to the append. -/
def handlePublish (payload : Bytes) : Handled :=
  if payload.length < PublishReq.size then
    h.refuse sess .malformedRequest "payload too small for PUBLISH header"
  else
    let req := PublishReq.ofPayload payload
    if payload.length ≠ PublishReq.size + req.payloadSize.toNat then
      h.refuse sess .malformedRequest "Payload size mismatch in PUBLISH"
    else if req.topicLen = 0 then h.refuse sess .malformedRequest "Topic name cannot be empty"
    else if h.numPartitions req.topicName = 0 then
      h.refuse sess .unknownTopic "Topic does not exist"
    else
      h.publishKeyless sess req.topicName req.partition
        (.take req.payloadSize (payload.drop PublishReq.size))

/-- `fnv1a`. -/
def fnv1a (data : Bytes) : UInt64 :=
  data.foldl (fun hash b => (hash ^^^ b.toUInt64) * 1099511628211) 14695981039346656037

/-- `handle_publish_v2`, up to the append. -/
def handlePublishV2 (payload : Bytes) : Handled :=
  if payload.length < PublishV2Req.size then
    h.refuse sess .malformedRequest "payload too small for PUBLISH_V2 header"
  else
    let req := PublishV2Req.ofPayload payload
    if payload.length ≠ PublishV2Req.size + req.payloadSize.toNat then
      h.refuse sess .malformedRequest "Payload size mismatch in PUBLISH_V2"
    else if req.topicLen = 0 then h.refuse sess .malformedRequest "Topic name cannot be empty"
    else if h.numPartitions req.topicName = 0 then
      h.refuse sess .unknownTopic "Topic does not exist"
    else
      let message := Payload.take req.payloadSize (payload.drop PublishV2Req.size)
      if 0 < req.keyLen then
        let partition := fnv1a req.routingKey % (h.numPartitions req.topicName).toUInt64
        h.locate sess req.topicName partition.toUInt16 (.append message)
      else h.publishKeyless sess req.topicName req.partition message

/-- The checks of the partition that `SUBSCRIBE` and `FETCH` name. -/
def checkPartition (req : TopicReq) (partition : UInt16) (a : Access) : Handled :=
  if req.topicLen = 0 then h.refuse sess .malformedRequest "Topic name cannot be empty"
  else if h.numPartitions req.topicName = 0 then
    h.refuse sess .unknownTopic "Topic does not exist"
  else if h.numPartitions req.topicName ≤ partition then
    h.refuse sess .unknownPartition "Partition index out of bounds"
  else h.locate sess req.topicName partition a

/-- `handle_subscribe`, up to the look at the partition. -/
def handleSubscribe (payload : Bytes) : Handled :=
  if payload.length < SubscribeReq.size then
    h.refuse sess .malformedRequest "Payload too small for SUBSCRIBE"
  else
    let req := SubscribeReq.ofPayload payload
    h.checkPartition sess req.toTopicReq req.partition (.subscribe req.startOffset)

/-- `handle_fetch`, up to the look at the partition. -/
def handleFetch (payload : Bytes) : Handled :=
  if payload.length < FetchReq.size then
    h.refuse sess .malformedRequest "Payload too small for FETCH"
  else
    let req := FetchReq.ofPayload payload
    h.checkPartition sess req.toTopicReq req.partition (.fetch req.offset req.maxMessages)

/-- `handle`, up to the access to a partition. -/
def handle (f : Frame) : Handled :=
  if f.op = .metadataReq then h.handleMetadataReq sess f.payload
  else if f.op = .createTopic then h.handleCreateTopic sess f.payload
  else if f.op = .publish then h.handlePublish sess f.payload
  else if f.op = .publishV2 then h.handlePublishV2 sess f.payload
  else if f.op = .subscribe then h.handleSubscribe sess f.payload
  else if f.op = .fetch then h.handleFetch sess f.payload
  else h.refuse sess .unknownOp "Unknown operation"

/-! ## At the partition -/

/-- The response to a refused append. -/
def refusal : AppendError → Bytes
  | .closed => encodeError .internalError "Partition is closed"
  | .busy => encodeError .busy "Partition append queue is full"

/-- The acknowledgement of an append is deferred. -/
def Defers : Prop := (∃ cfg ∈ h.cfg, cfg.acks = -1) ∧ h.deferCb = true

/-- The start offset that asks for the end of the log. -/
def latest : UInt64 := 0xFFFFFFFFFFFFFFFF

/-- The rest of `handle_subscribe`, at the `next_offset()` of the partition. -/
def subscribeAt (topic : Bytes) (partition : UInt16) (startOffset nextOffset : UInt64) :
    Bytes × Session :=
  if startOffset ≠ latest ∧ nextOffset < startOffset then
    (encodeError .invalidOffset "Start offset lies in the future", sess)
  else
    let fetchOffset := if startOffset = latest then nextOffset else startOffset
    (encodeAck fetchOffset,
      { sess with subTopic := topic, subPartition := partition, fetchOffset, subscribed := true })

/-- The frame of a message in the response to `FETCH`. -/
def fetchFrame (msg : Record) : Bytes :=
  encodeFrame .fetchResponse
    (FetchResponseHeader.encode ⟨msg.offset, msg.timestampMs, msg.payload.size⟩ ++
      msg.payload.bytes)

/-- The rest of `handle_fetch`, with the messages found. -/
def fetched (messages : List Record) : Bytes × Session :=
  (if messages.flatMap fetchFrame = [] then encodeAck 0 else messages.flatMap fetchFrame,
    messages.foldl (fun sess msg => { sess with fetchOffset := msg.offset + 1 }) sess)

/-! ## What the handlers do -/

variable {h sess}

/-- How a request goes: it is answered, refused, or comes to a partition. -/
inductive Course (h : RequestHandler) (sess : Session) (f : Frame) : Handled → Prop
  | metadata (hop : f.op = .metadataReq) : Course h sess f (h.handleMetadataReq sess f.payload)
  | create (hop : f.op = .createTopic) : Course h sess f (h.handleCreateTopic sess f.payload)
  | refuse (code : ErrCode) (msg : String) : Course h sess f (h.refuse sess code msg)
  /-- Round robin goes on with the session. -/
  | publish (hop : f.op = .publish ∨ f.op = .publishV2) (sess' : Session) (topic : Bytes)
      (partition : UInt16) (message : Payload) :
      Course h sess f (h.locate sess' topic partition (.append message))
  | read (topic : Bytes) (partition : UInt16) {a : Access} (ha : ∀ message, a ≠ .append message) :
      Course h sess f (h.locate sess topic partition a)

theorem course_publishKeyless {f : Frame} (hop : f.op = .publish ∨ f.op = .publishV2)
    (topic : Bytes) (partition : UInt16) (message : Payload) :
    Course h sess f (h.publishKeyless sess topic partition message) := by
  rw [publishKeyless]
  split_ifs
  · exact .publish hop _ _ _ _
  · exact .refuse _ _
  · exact .publish hop _ _ _ _

theorem course_checkPartition (f : Frame) (req : TopicReq) (partition : UInt16) {a : Access}
    (ha : ∀ message, a ≠ .append message) :
    Course h sess f (h.checkPartition sess req partition a) := by
  rw [checkPartition]
  split_ifs
  iterate 3 exact .refuse _ _
  exact .read _ _ ha

/-- There is no other way. -/
theorem course_handle (f : Frame) : Course h sess f (h.handle sess f) := by
  rw [handle]
  split_ifs with hmeta hcreate hp hp₂
  · exact .metadata hmeta
  · exact .create hcreate
  · simp only [handlePublish]
    split_ifs
    iterate 4 exact .refuse _ _
    exact course_publishKeyless (.inl hp) _ _ _
  · simp only [handlePublishV2]
    split_ifs
    iterate 4 exact .refuse _ _
    -- With a key there is no round robin.
    · exact .publish (.inr hp₂) _ _ _ _
    · exact course_publishKeyless (.inr hp₂) _ _ _
  · rw [handleSubscribe]
    split_ifs
    · exact .refuse _ _
    · exact course_checkPartition _ _ _ nofun
  · rw [handleFetch]
    split_ifs
    · exact .refuse _ _
    · exact course_checkPartition _ _ _ nofun
  · exact .refuse _ _

/-- The configuration stays as it is. -/
structure Keeps (h : RequestHandler) (r : Handled) : Prop where
  cfg : r.handler.cfg = h.cfg
  deferCb : r.handler.deferCb = h.deferCb

theorem keeps_refuse (code : ErrCode) (msg : String) : Keeps h (h.refuse sess code msg) :=
  ⟨rfl, rfl⟩

theorem keeps_locate (topic : Bytes) (partition : UInt16) (a : Access) :
    Keeps h (h.locate sess topic partition a) := by
  simp only [locate]
  split_ifs <;> exact ⟨rfl, rfl⟩

theorem keeps_handleMetadataReq (payload : Bytes) :
    Keeps h (h.handleMetadataReq sess payload) := by
  rw [handleMetadataReq]
  split_ifs
  · exact keeps_refuse _ _
  · dsimp only
    split
    · exact ⟨rfl, rfl⟩
    · exact keeps_refuse _ _

theorem keeps_handleCreateTopic (payload : Bytes) :
    Keeps h (h.handleCreateTopic sess payload) := by
  have hseed : ∀ (h : RequestHandler) (t : Bytes) (n : UInt16),
      (h.seedRoles t n).cfg = h.cfg ∧ (h.seedRoles t n).deferCb = h.deferCb := by
    intro h t n
    rw [seedRoles]
    split <;> exact ⟨rfl, rfl⟩
  simp only [handleCreateTopic]
  split_ifs
  iterate 4 exact keeps_refuse _ _
  exact ⟨(hseed _ _ _).1, (hseed _ _ _).2⟩

theorem Course.keeps {f : Frame} {r : Handled} (hc : Course h sess f r) : Keeps h r := by
  cases hc with
  | metadata => exact keeps_handleMetadataReq _
  | create => exact keeps_handleCreateTopic _
  | refuse => exact keeps_refuse _ _
  | publish | read => exact keeps_locate _ _ _

/-- No request changes the configuration. -/
theorem keeps_handle (f : Frame) : Keeps h (h.handle sess f) := (course_handle f).keeps

theorem outcome_locate {topic t : Bytes} {partition p : UInt16} {a a' : Access}
    (hout : (h.locate sess topic partition a).outcome = .access t p a') :
    topic = t ∧ partition = p ∧ a = a' := by
  simp only [locate, refuse] at hout
  split_ifs at hout
  simpa using hout

/-- A request that names its partition is refused with an error, or comes to the partition. -/
theorem outcome_checkPartition {req : TopicReq} {partition : UInt16} {a : Access} :
    (∃ code msg, (h.checkPartition sess req partition a).outcome =
        .reply (encodeError code msg)) ∨
      (h.checkPartition sess req partition a).outcome = .access req.topicName partition a := by
  simp only [checkPartition, locate]
  split_ifs
  iterate 4 exact .inl ⟨_, _, rfl⟩
  · exact .inr rfl
  · exact .inl ⟨_, _, rfl⟩

theorem outcome_handleMetadataReq {payload t : Bytes} {p : UInt16} {a : Access} :
    (h.handleMetadataReq sess payload).outcome ≠ .access t p a := by
  rw [handleMetadataReq]
  split_ifs
  · exact nofun
  · dsimp only
    split <;> exact nofun

theorem outcome_handleCreateTopic {payload t : Bytes} {p : UInt16} {a : Access} :
    (h.handleCreateTopic sess payload).outcome ≠ .access t p a := by
  simp only [handleCreateTopic]
  intro hout
  split_ifs at hout <;> cases hout

/-- `METADATA_REQ` has a response. -/
theorem reply_of_metadataReq {f : Frame} (hop : f.op = .metadataReq) :
    ∃ resp, (h.handle sess f).outcome = .reply resp := by
  have hhandle : h.handle sess f = h.handleMetadataReq sess f.payload := if_pos hop
  cases hout : (h.handle sess f).outcome with
  | reply resp => exact ⟨resp, rfl⟩
  | access t p a =>
    rw [hhandle] at hout
    exact absurd hout outcome_handleMetadataReq

theorem Course.op_of_append {f : Frame} {r : Handled} (hc : Course h sess f r) {t : Bytes}
    {p : UInt16} {message : Payload} (hout : r.outcome = .access t p (.append message)) :
    f.op = .publish ∨ f.op = .publishV2 := by
  cases hc with
  | metadata => exact absurd hout outcome_handleMetadataReq
  | create => exact absurd hout outcome_handleCreateTopic
  | refuse => exact nomatch hout
  | publish hop => exact hop
  | read _ _ ha => exact absurd (outcome_locate hout).2.2 (ha message)

/-- Only `PUBLISH` and `PUBLISH_V2` append. -/
theorem append_of_handle {f : Frame} {t : Bytes} {p : UInt16} {message : Payload}
    (hout : (h.handle sess f).outcome = .access t p (.append message)) :
    f.op = .publish ∨ f.op = .publishV2 := (course_handle f).op_of_append hout

end RequestHandler

/-- The handler of a broker, which has a configuration, the metadata and a `defer_cb_`. -/
def requestHandler (b : Broker) (missing : Bytes → UInt16 → Bool) : RequestHandler where
  topics := b.topics
  missing := missing
  cfg := some b.cfg
  metaReg := some b.metaReg
  deferCb := true

/-- It defers acknowledgements with `acks=-1`. -/
theorem defers_requestHandler (b : Broker) (missing : Bytes → UInt16 → Bool) :
    (b.requestHandler missing).Defers ↔ b.cfg.acks = -1 :=
  ⟨fun ⟨⟨_, hcfg, hacks⟩, _⟩ => Option.some.inj hcfg ▸ hacks, fun hacks => ⟨⟨_, rfl, hacks⟩, rfl⟩⟩

/-- A broker creates topics as `Broker.handleCreateTopic` says. -/
theorem handleCreateTopic_eq (b : Broker) (missing : Bytes → UInt16 → Bool) (sess : Session)
    (payload : Bytes) :
    let r := (b.requestHandler missing).handleCreateTopic sess payload
    r.outcome = .reply (b.handleCreateTopic payload).1 ∧
      r.handler.topics = (b.handleCreateTopic payload).2.topics ∧
      r.handler.metaReg = some (b.handleCreateTopic payload).2.metaReg := by
  rw [RequestHandler.handleCreateTopic, Broker.handleCreateTopic]
  dsimp only
  split_ifs with h₁ h₂ h₃ hmem hmem' hmem'
  iterate 4 exact ⟨rfl, rfl, rfl⟩
  · exact absurd hmem hmem'
  · exact absurd hmem' hmem
  · exact ⟨rfl, rfl, rfl⟩

end Fell.Broker
