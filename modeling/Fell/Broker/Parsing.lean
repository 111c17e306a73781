import Fell.Broker.FrameDecoder
import Fell.Broker.Requests
import Fell.Storage.Segments

/-!
# Requests of any bytes

The handlers read the payload of a frame as a packed structure with lengths inside. Here every read
is checked against the size of the payload (`Checked.handle`).

* `Checked.handle_eq_some`: no read is out of bounds, and the handlers do what `handle` says;
* `wellFormed_serve`: every response is a sequence of frames whose lengths match, or is deferred, if
  the frames of the messages found are shorter than `2 ^ 32` bytes, which `encode_frame` does not
  check (`not_forall_wellFormed`).
-/

namespace Fell.Broker.RequestHandler

open Platform Positional Replication Storage

/-! ## Reads -/

/-- The `len` bytes at `pos`, if the payload has them. -/
def readBytes (payload : Bytes) (pos len : ℕ) : Option Bytes :=
  if pos + len ≤ payload.length then some ((payload.drop pos).take len) else none

/-- The byte at `pos`, if the payload has it. -/
def readByte (payload : Bytes) (pos : ℕ) : Option UInt8 := payload[pos]?

section

variable {payload : Bytes} {pos len : ℕ}

theorem readBytes_of_le (h : pos + len ≤ payload.length) :
    readBytes payload pos len = some ((payload.drop pos).take len) := if_pos h

theorem readByte_of_lt (h : pos < payload.length) :
    readByte payload pos = some ((payload.drop pos).headD 0) := by
  rw [readByte, List.getElem?_eq_getElem h, List.drop_eq_getElem_cons h, List.headD_cons]

/-- As much of a text field as a length of one byte says, which is never more than there is. -/
theorem readBytes_field (n : UInt8) (h : pos + fieldSize ≤ payload.length) :
    readBytes payload pos n.toNat = some (((payload.drop pos).take fieldSize).take n.toNat) := by
  have hn : n.toNat ≤ fieldSize := Nat.le_of_lt_succ n.toNat_lt
  rw [readBytes_of_le (by omega), List.take_take, Nat.min_eq_left hn]

end

/-! ## The handlers, with their reads checked -/

variable (h : RequestHandler) (sess : Session)

/-- The response to `METADATA_REQ`, for a topic. -/
def describe (topic : Bytes) : Handled :=
  match h.cfg, h.metaReg with
  | some cfg, some reg =>
    let partitions := (List.range (h.numPartitions topic).toNat).map UInt16.ofNat
    let resp := hostToBe16 (UInt16.ofNat (1 + cfg.peers.length)) ++
      addBroker cfg.brokerId (ascii "127.0.0.1") cfg.clientPort ++
      cfg.peers.flatMap (fun peer => addBroker peer.brokerId (ascii peer.host) peer.clientPort) ++
      hostToBe16 (h.numPartitions topic) ++ partitions.flatMap (addPartition reg topic)
    ⟨.reply (encodeFrame .metadataResp resp), sess,
      { h with metaReg := some (partitions.foldl (PartitionMetaRegistry.get · topic ·) reg) }⟩
  | _, _ => h.refuse sess .metadataUnavailable "Cluster metadata unavailable"

/-- What `CREATE_TOPIC` does with a name and a number of partitions. -/
def create (topic : Bytes) (numPartitions : UInt16) : Handled :=
  if hn : numPartitions.toNat = 0 then
    h.refuse sess .malformedRequest "Partition count must be at least 1"
  else if topic ∈ h.topics then h.refuse sess .malformedRequest "Topic already exists"
  else
    ⟨.reply (encodeAck 0), sess,
      (h.createTopic topic ⟨numPartitions.toNat, Nat.pos_of_ne_zero hn⟩).seedRoles topic
        numPartitions⟩

/-- What `SUBSCRIBE` and `FETCH` do with a topic and a partition. -/
def lookUp (topic : Bytes) (partition : UInt16) (a : Access) : Handled :=
  if h.numPartitions topic = 0 then h.refuse sess .unknownTopic "Topic does not exist"
  else if h.numPartitions topic ≤ partition then
    h.refuse sess .unknownPartition "Partition index out of bounds"
  else h.locate sess topic partition a

namespace Checked

/-- `handle_metadata_req`. -/
def handleMetadataReq (payload : Bytes) : Option Handled :=
  if payload.length < TopicReq.size then
    some (h.refuse sess .malformedRequest "payload too small for METADATA_REQ")
  else do
    let topicLen ← readByte payload 0
    let topic ← readBytes payload 1 topicLen.toNat
    some (h.describe sess topic)

/-- `handle_create_topic`. -/
def handleCreateTopic (payload : Bytes) : Option Handled :=
  if payload.length < CreateTopicReq.size then
    some (h.refuse sess .malformedRequest "payload too small for CREATE_TOPIC")
  else do
    let nameLen ← readByte payload 0
    if nameLen = 0 then some (h.refuse sess .malformedRequest "Topic name cannot be empty")
    else do
      let name ← readBytes payload 1 nameLen.toNat
      let numPartitions ← readBytes payload (1 + fieldSize) 2
      some (h.create sess name (readBe16 numPartitions))

/-- `handle_publish`. -/
def handlePublish (payload : Bytes) : Option Handled :=
  if payload.length < PublishReq.size then
    some (h.refuse sess .malformedRequest "payload too small for PUBLISH header")
  else do
    let payloadSize ← readBytes payload (TopicReq.size + 2) 4
    if payload.length ≠ PublishReq.size + (readBe32 payloadSize).toNat then
      some (h.refuse sess .malformedRequest "Payload size mismatch in PUBLISH")
    else do
      let topicLen ← readByte payload 0
      if topicLen = 0 then some (h.refuse sess .malformedRequest "Topic name cannot be empty")
      else do
        let topic ← readBytes payload 1 topicLen.toNat
        let partition ← readBytes payload TopicReq.size 2
        if h.numPartitions topic = 0 then
          some (h.refuse sess .unknownTopic "Topic does not exist")
        else do
          let message ← readBytes payload PublishReq.size (payload.length - PublishReq.size)
          some (h.publishKeyless sess topic (readBe16 partition)
            (Payload.take (readBe32 payloadSize) message))

/-- `handle_publish_v2`. -/
def handlePublishV2 (payload : Bytes) : Option Handled :=
  if payload.length < PublishV2Req.size then
    some (h.refuse sess .malformedRequest "payload too small for PUBLISH_V2 header")
  else do
    let payloadSize ← readBytes payload (TopicReq.size + 2 + 1 + fieldSize) 4
    if payload.length ≠ PublishV2Req.size + (readBe32 payloadSize).toNat then
      some (h.refuse sess .malformedRequest "Payload size mismatch in PUBLISH_V2")
    else do
      let topicLen ← readByte payload 0
      if topicLen = 0 then some (h.refuse sess .malformedRequest "Topic name cannot be empty")
      else do
        let topic ← readBytes payload 1 topicLen.toNat
        let partition ← readBytes payload TopicReq.size 2
        if h.numPartitions topic = 0 then
          some (h.refuse sess .unknownTopic "Topic does not exist")
        else do
          let keyLen ← readByte payload (TopicReq.size + 2)
          let message ← readBytes payload PublishV2Req.size (payload.length - PublishV2Req.size)
          if 0 < keyLen then do
            let key ← readBytes payload (TopicReq.size + 2 + 1) keyLen.toNat
            some (h.locate sess topic
              (fnv1a key % (h.numPartitions topic).toUInt64).toUInt16
              (.append (Payload.take (readBe32 payloadSize) message)))
          else
            some (h.publishKeyless sess topic (readBe16 partition)
              (Payload.take (readBe32 payloadSize) message))

/-- `handle_subscribe`. -/
def handleSubscribe (payload : Bytes) : Option Handled :=
  if payload.length < SubscribeReq.size then
    some (h.refuse sess .malformedRequest "Payload too small for SUBSCRIBE")
  else do
    let topicLen ← readByte payload 0
    if topicLen = 0 then some (h.refuse sess .malformedRequest "Topic name cannot be empty")
    else do
      let topic ← readBytes payload 1 topicLen.toNat
      let partition ← readBytes payload TopicReq.size 2
      let startOffset ← readBytes payload (TopicReq.size + 2) 8
      some (h.lookUp sess topic (readBe16 partition) (.subscribe (readBe64 startOffset)))

/-- `handle_fetch`. -/
def handleFetch (payload : Bytes) : Option Handled :=
  if payload.length < FetchReq.size then
    some (h.refuse sess .malformedRequest "Payload too small for FETCH")
  else do
    let topicLen ← readByte payload 0
    if topicLen = 0 then some (h.refuse sess .malformedRequest "Topic name cannot be empty")
    else do
      let topic ← readBytes payload 1 topicLen.toNat
      let partition ← readBytes payload TopicReq.size 2
      let offset ← readBytes payload (TopicReq.size + 2) 8
      let maxMessages ← readBytes payload (TopicReq.size + 2 + 8) 2
      some (h.lookUp sess topic (readBe16 partition)
        (.fetch (readBe64 offset) (readBe16 maxMessages)))

/-- `handle`. -/
def handle (f : Frame) : Option Handled :=
  if f.op = .metadataReq then handleMetadataReq h sess f.payload
  else if f.op = .createTopic then handleCreateTopic h sess f.payload
  else if f.op = .publish then handlePublish h sess f.payload
  else if f.op = .publishV2 then handlePublishV2 h sess f.payload
  else if f.op = .subscribe then handleSubscribe h sess f.payload
  else if f.op = .fetch then handleFetch h sess f.payload
  else some (h.refuse sess .unknownOp "Unknown operation")

variable {h sess} {payload : Bytes}

theorem readBe16_take (bs : Bytes) : readBe16 (bs.take 2) = readBe16 bs := by
  rw [readBe16, readBe16, List.take_take, Nat.min_self]

theorem readBe32_take (bs : Bytes) : readBe32 (bs.take 4) = readBe32 bs := by
  rw [readBe32, readBe32, List.take_take, Nat.min_self]

theorem readBe64_take (bs : Bytes) : readBe64 (bs.take 8) = readBe64 bs := by
  rw [readBe64, readBe64, List.take_take, Nat.min_self]

/-- The topic of a request, read from a payload that is long enough. -/
theorem readByte_topicLen (hsize : TopicReq.size ≤ payload.length) :
    readByte payload 0 = some (TopicReq.ofPayload payload).topicLen :=
  readByte_of_lt (Nat.lt_of_lt_of_le (by decide) hsize)

theorem readBytes_topic (hsize : TopicReq.size ≤ payload.length) :
    readBytes payload 1 (TopicReq.ofPayload payload).topicLen.toNat =
      some (TopicReq.ofPayload payload).topicName :=
  readBytes_field _ hsize

theorem handleMetadataReq_eq :
    handleMetadataReq h sess payload = some (h.handleMetadataReq sess payload) := by
  rw [handleMetadataReq, RequestHandler.handleMetadataReq]
  split_ifs with hsize
  · rfl
  · have hsize := not_lt.1 hsize
    simp only [readByte_topicLen hsize, readBytes_topic hsize, Option.bind_eq_bind,
      Option.bind_some]
    rfl

theorem handleCreateTopic_eq :
    handleCreateTopic h sess payload = some (h.handleCreateTopic sess payload) := by
  rw [handleCreateTopic, RequestHandler.handleCreateTopic]
  split_ifs with hsize
  · rfl
  · have hsize := not_lt.1 hsize
    have htopic : TopicReq.size ≤ payload.length := Nat.le_trans (by decide) hsize
    have hcount := @readBytes_of_le payload (1 + fieldSize) 2 hsize
    simp only [readByte_topicLen htopic, readBytes_topic htopic, hcount, Option.bind_eq_bind,
      Option.bind_some, readBe16_take, ← apply_ite some]
    rfl

/-- The message behind a header. -/
theorem readBytes_message {size : ℕ} (hsize : size ≤ payload.length) :
    readBytes payload size (payload.length - size) = some (payload.drop size) := by
  rw [readBytes_of_le (Nat.add_sub_of_le hsize).le, ← List.length_drop, List.take_length]

theorem handlePublish_eq :
    handlePublish h sess payload = some (h.handlePublish sess payload) := by
  rw [handlePublish, RequestHandler.handlePublish]
  split_ifs with hsize
  · rfl
  · have hsize := not_lt.1 hsize
    have htopic : TopicReq.size ≤ payload.length := Nat.le_trans (by decide) hsize
    have hpart := @readBytes_of_le payload TopicReq.size 2 (Nat.le_trans (by decide) hsize)
    have hpay := @readBytes_of_le payload (TopicReq.size + 2) 4 hsize
    simp only [readByte_topicLen htopic, readBytes_topic htopic, hpart, hpay,
      readBytes_message hsize, Option.bind_eq_bind, Option.bind_some, readBe16_take, readBe32_take,
      ← apply_ite some]
    rfl

theorem handlePublishV2_eq :
    handlePublishV2 h sess payload = some (h.handlePublishV2 sess payload) := by
  rw [handlePublishV2, RequestHandler.handlePublishV2]
  split_ifs with hsize
  · rfl
  · have hsize := not_lt.1 hsize
    have htopic : TopicReq.size ≤ payload.length := Nat.le_trans (by decide) hsize
    have hpart := @readBytes_of_le payload TopicReq.size 2 (Nat.le_trans (by decide) hsize)
    have hpay := @readBytes_of_le payload (TopicReq.size + 2 + 1 + fieldSize) 4 hsize
    have hkeyLen := @readByte_of_lt payload (TopicReq.size + 2) (Nat.le_trans (by decide) hsize)
    have hkey := fun n => @readBytes_field payload (TopicReq.size + 2 + 1) n
      (Nat.le_trans (by decide) hsize)
    simp only [readByte_topicLen htopic, readBytes_topic htopic, hpart, hpay, hkeyLen, hkey,
      readBytes_message hsize, Option.bind_eq_bind, Option.bind_some, readBe16_take, readBe32_take,
      ← apply_ite some]
    rfl

theorem handleSubscribe_eq :
    handleSubscribe h sess payload = some (h.handleSubscribe sess payload) := by
  rw [handleSubscribe, RequestHandler.handleSubscribe]
  split_ifs with hsize
  · rfl
  · have hsize := not_lt.1 hsize
    have htopic : TopicReq.size ≤ payload.length := Nat.le_trans (by decide) hsize
    have hpart := @readBytes_of_le payload TopicReq.size 2 (Nat.le_trans (by decide) hsize)
    have hstart := @readBytes_of_le payload (TopicReq.size + 2) 8 hsize
    simp only [readByte_topicLen htopic, readBytes_topic htopic, hpart, hstart,
      Option.bind_eq_bind, Option.bind_some, readBe16_take, readBe64_take, ← apply_ite some]
    rfl

theorem handleFetch_eq :
    handleFetch h sess payload = some (h.handleFetch sess payload) := by
  rw [handleFetch, RequestHandler.handleFetch]
  split_ifs with hsize
  · rfl
  · have hsize := not_lt.1 hsize
    have htopic : TopicReq.size ≤ payload.length := Nat.le_trans (by decide) hsize
    have hpart := @readBytes_of_le payload TopicReq.size 2 (Nat.le_trans (by decide) hsize)
    have hoff := @readBytes_of_le payload (TopicReq.size + 2) 8 (Nat.le_trans (by decide) hsize)
    have hmax := @readBytes_of_le payload (TopicReq.size + 2 + 8) 2 hsize
    simp only [readByte_topicLen htopic, readBytes_topic htopic, hpart, hoff, hmax,
      Option.bind_eq_bind, Option.bind_some, readBe16_take, readBe64_take, ← apply_ite some]
    rfl

/-- No handler reads outside of the payload. -/
theorem handle_eq_some (f : Frame) : handle h sess f = some (h.handle sess f) := by
  rw [handle, RequestHandler.handle]
  simp only [handleMetadataReq_eq, handleCreateTopic_eq, handlePublish_eq, handlePublishV2_eq,
    handleSubscribe_eq, handleFetch_eq, ← apply_ite some]

end Checked

/-! ## Responses -/

/-- A frame of a response: an acknowledgement, an error with a text of at most 255 bytes, metadata,
    or a message behind a header with its size. -/
inductive IsResponse : Message 4 → Prop
  | ack {m : Message 4} (htag : m.tag = Op.ack.toByte) (hlen : m.body.length = 8) : IsResponse m
  | err {m : Message 4} (htag : m.tag = Op.err.toByte) (hlen : m.body.length = 257)
      (hmsg : ∃ code text, text.length ≤ 255 ∧ m.body = code :: UInt8.ofNat text.length ::
        (text ++ List.replicate (255 - text.length) 0)) : IsResponse m
  | metadata {m : Message 4} (htag : m.tag = Op.metadataResp.toByte) : IsResponse m
  | fetch {m : Message 4} (htag : m.tag = Op.fetchResponse.toByte) (hlen : 20 ≤ m.body.length)
      (hsize : (readBe32 (m.body.drop 16)).toNat = m.body.length - 20) : IsResponse m

/-- The bytes are one or more frames of responses. -/
def IsResponses (bs : Bytes) : Prop :=
  ∃ ms : List (Message 4), ms ≠ [] ∧ bs = (lengthPrefixed 4).encodeAll ms ∧ ∀ m ∈ ms, IsResponse m

/-- There is a response, unless it is deferred. -/
def WellFormed {κ : Type} (r : Served κ) : Prop :=
  r.response = [] ∧ r.deferred ≠ none ∨ IsResponses r.response ∧ r.deferred = none

theorem encodeFrame_eq (op : Op) {payload : Bytes} (hlt : payload.length + 1 < 256 ^ 4) :
    encodeFrame op payload = (lengthPrefixed 4).encodeAll [⟨op.toByte, payload, hlt⟩] := by
  rw [Format.encodeAll_cons, Format.encodeAll_nil, List.append_nil]
  exact Frame.encode_ofMessage ⟨op.toByte, payload, hlt⟩

theorem isResponses_encodeFrame (op : Op) {payload : Bytes} (hlt : payload.length + 1 < 256 ^ 4)
    (h : IsResponse ⟨op.toByte, payload, hlt⟩) : IsResponses (encodeFrame op payload) :=
  ⟨_, List.cons_ne_nil _ _, encodeFrame_eq op hlt, by simpa using h⟩

theorem isResponses_encodeAck (value : UInt64) : IsResponses (encodeAck value) := by
  have hlen : (hostToBe64 value).length = 8 := by simp
  exact isResponses_encodeFrame _ (by rw [hlen]; decide) (.ack rfl hlen)

theorem isResponses_encodeError (code : ErrCode) (msg : String) :
    IsResponses (encodeError code msg) := by
  have htext : ((ascii msg).take fieldSize).length ≤ fieldSize := List.length_take_le _ _
  have hlen : (code.toByte :: UInt8.ofNat ((ascii msg).take fieldSize).length ::
      ((ascii msg).take fieldSize ++
        List.replicate (fieldSize - ((ascii msg).take fieldSize).length) 0)).length = 257 := by
    rw [List.length_cons, List.length_cons, List.length_append, List.length_replicate,
      Nat.add_sub_of_le htext]
    rfl
  exact isResponses_encodeFrame _ (by rw [hlen]; decide) (.err rfl hlen ⟨_, _, htext, rfl⟩)

/-- The size of the response to `METADATA_REQ`, for a topic with `n` partitions. -/
def metadataSize (cfg : ClusterConfig) (n : UInt16) : ℕ :=
  20 + (cfg.peers.map fun peer => 7 + (ascii peer.host).length).sum + 6 * n.toNat

theorem length_addBroker (id : UInt32) (host : Bytes) (clientPort : UInt16) :
    (addBroker id host clientPort).length = 7 + host.length := by
  simp only [addBroker, List.length_append, List.length_cons, length_hostToBe32, length_hostToBe16]
  omega

theorem length_addPartition (reg : PartitionMetaRegistry) (topic : Bytes) (partition : UInt16) :
    (addPartition reg topic partition).length = 6 := by
  simp only [addPartition, List.length_append, length_hostToBe32, length_hostToBe16]

/-- The configuration can be told in a frame. -/
def MetadataFits (h : RequestHandler) : Prop :=
  ∀ cfg ∈ h.cfg, ∀ topic, metadataSize cfg (h.numPartitions topic) + 1 < 2 ^ 32

theorem isResponses_handleMetadataReq {h : RequestHandler} {sess : Session} {payload resp : Bytes}
    (hfits : h.MetadataFits)
    (hout : (h.handleMetadataReq sess payload).outcome = .reply resp) : IsResponses resp := by
  rw [handleMetadataReq] at hout
  split_ifs at hout
  · cases hout
    exact isResponses_encodeError _ _
  · dsimp only at hout
    split at hout
    · next cfg reg hcfg hreg =>
      cases hout
      refine isResponses_encodeFrame _ ?_ (.metadata rfl)
      refine (congrArg (· + 1) ?_).trans_lt (hfits cfg hcfg (TopicReq.ofPayload payload).topicName)
      simp only [metadataSize, List.length_append, List.length_flatMap, length_addBroker,
        length_addPartition, length_hostToBe16, List.map_const', List.length_map,
        List.length_range, List.sum_replicate_nat]
      change 2 + (7 + 9) + _ + 2 + _ = 20 + _ + _
      omega
    · cases hout
      exact isResponses_encodeError _ _

theorem isResponses_handleCreateTopic {h : RequestHandler} {sess : Session} {payload resp : Bytes}
    (hout : (h.handleCreateTopic sess payload).outcome = .reply resp) : IsResponses resp := by
  simp only [handleCreateTopic] at hout
  split_ifs at hout
  iterate 4
    cases hout
    exact isResponses_encodeError _ _
  cases hout
  exact isResponses_encodeAck 0

theorem isResponses_locate {h : RequestHandler} {sess : Session} {topic resp : Bytes}
    {partition : UInt16} {a : Access}
    (hout : (h.locate sess topic partition a).outcome = .reply resp) : IsResponses resp := by
  simp only [locate] at hout
  split_ifs at hout
  iterate 2
    cases hout
    exact isResponses_encodeError _ _

/-- The responses to requests that come to no partition. -/
theorem Course.isResponses {h : RequestHandler} {sess : Session} {f : Frame} {r : Handled}
    {resp : Bytes} (hc : Course h sess f r) (hfits : h.MetadataFits)
    (hout : r.outcome = .reply resp) : IsResponses resp := by
  cases hc with
  | metadata => exact isResponses_handleMetadataReq hfits hout
  | create => exact isResponses_handleCreateTopic hout
  | refuse code msg =>
    cases hout
    exact isResponses_encodeError code msg
  | publish | read => exact isResponses_locate hout

theorem readBe32_encode_append (header : FetchResponseHeader) (tl : Bytes) :
    readBe32 ((header.encode ++ tl).drop 16) = header.payloadSize := by
  rw [FetchResponseHeader.encode, List.append_assoc, List.drop_left' (by simp), readBe32,
    List.take_left' (length_hostToBe32 _), be32ToHost_hostToBe32]

theorem length_fetchResponse (header : FetchResponseHeader) (payload : Bytes) :
    (header.encode ++ payload).length = 20 + payload.length := by
  simp only [FetchResponseHeader.encode, List.length_append, length_hostToBe64, length_hostToBe32]

/-- The message behind its header fits a frame. -/
def FitsFrame (r : Record) : Prop := r.payload.bytes.length + 21 < 2 ^ 32

theorem isResponses_fetchFrame {r : Record} (hfits : FitsFrame r) : IsResponses (fetchFrame r) := by
  have hlen := length_fetchResponse ⟨r.offset, r.timestampMs, r.payload.size⟩ r.payload.bytes
  rw [FitsFrame] at hfits
  refine isResponses_encodeFrame _ (by rw [hlen]; omega) (.fetch rfl (by rw [hlen]; omega) ?_)
  refine ((congrArg UInt32.toNat (readBe32_encode_append _ _)).trans r.payload.toNat_size).trans ?_
  exact (Nat.sub_eq_of_eq_add' hlen).symm

theorem IsResponses.append {bs bs' : Bytes} (h : IsResponses bs) (h' : IsResponses bs') :
    IsResponses (bs ++ bs') := by
  obtain ⟨ms, hne, rfl, hms⟩ := h
  obtain ⟨ms', -, rfl, hms'⟩ := h'
  refine ⟨ms ++ ms', List.append_ne_nil_of_left_ne_nil hne _,
    (Format.encodeAll_append _ _).symm, ?_⟩
  exact fun m hm => (List.mem_append.1 hm).elim (hms m) (hms' m)

theorem isResponses_fetched (sess : Session) {messages : List Record}
    (hfits : ∀ r ∈ messages, FitsFrame r) : IsResponses (fetched sess messages).1 := by
  have hall : messages.flatMap fetchFrame = [] ∨ IsResponses (messages.flatMap fetchFrame) := by
    induction messages with
    | nil => exact .inl rfl
    | cons r messages ih =>
      have hr := isResponses_fetchFrame (hfits r List.mem_cons_self)
      rw [List.flatMap_cons]
      rcases ih fun r' hr' => hfits r' (List.mem_cons_of_mem _ hr') with hnil | hrest
      · rw [hnil, List.append_nil]
        exact .inr hr
      · exact .inr (hr.append hrest)
  rw [fetched]
  split_ifs with hnil
  · exact isResponses_encodeAck 0
  · exact hall.resolve_left hnil

theorem isResponses_subscribeAt {sess : Session} {topic : Bytes} {partition : UInt16}
    {startOffset nextOffset : UInt64} :
    IsResponses (subscribeAt sess topic partition startOffset nextOffset).1 := by
  rw [subscribeAt]
  split_ifs
  · exact isResponses_encodeError _ _
  · exact isResponses_encodeAck _
  · exact isResponses_encodeAck _

/-- The messages of the partitions can be read, and fit frames. -/
def MessagesFit {κ : Type} (stores : PartitionKey → PartitionStore κ) : Prop :=
  ∀ tp offset maxCount, ∃ rs, ((stores tp).fetch offset maxCount).1 = some rs ∧
    ∀ r ∈ rs, FitsFrame r

/-- They do, if all records that were ever accepted fit frames. -/
theorem messagesFit_of_runs {κ : Type} {stores : PartitionKey → PartitionStore κ}
    (hruns : ∀ tp, ∃ options es,
      Run PartitionStore.Step (PartitionStore.open ∅ options) es (stores tp) ∧
      (PartitionStore.accepted es).length < 2 ^ 64 ∧
      ∀ r ∈ PartitionStore.accepted es, FitsFrame r) : MessagesFit stores := by
  intro tp offset maxCount
  obtain ⟨options, es, hrun, hlt, hfits⟩ := hruns tp
  have hrec := PartitionStore.Run.flatMap_records hrun hlt
  have hq := PartitionStore.Run.queued hrun (PartitionStore.fresh_open _ _)
  cases hfind : (stores tp).findSegmentFor offset with
  | none =>
    refine ⟨[], ?_, fun r hr => absurd hr List.not_mem_nil⟩
    rw [PartitionStore.fetch, hfind]
  | some base =>
    refine ⟨_, (PartitionStore.Run.indexed_of_empty hrun hlt).fetch_eq hfind maxCount,
      fun r hr => hfits r ?_⟩
    have hmem : r ∈ (stores tp).segments.flatMap (stores tp).records :=
      List.mem_flatMap.2 ⟨base, PartitionStore.findSegmentFor_mem hfind,
        List.mem_of_mem_drop (List.mem_of_mem_take hr)⟩
    rw [hrec] at hmem
    rw [← hq.accepted_eq]
    exact List.mem_append_left _ (List.mem_append_left _ hmem)

section

variable {κ : Type} {h : RequestHandler} {stores : PartitionKey → PartitionStore κ}
  {sess : Session} {fd : ℤ} {now : UInt64}

theorem wellFormed_access (hfits : MessagesFit stores) (t : Bytes) (p : UInt16) (a : Access) :
    ∃ r, h.access stores sess fd now t p a = some r ∧ WellFormed r := by
  cases a with
  | append message =>
    rw [access]
    split_ifs
    · exact ⟨_, rfl, .inl ⟨rfl, Option.some_ne_none _⟩⟩
    · exact ⟨_, rfl, .inr ⟨isResponses_encodeAck _, rfl⟩⟩
    · obtain ⟨code, msg, hrefusal⟩ := refusal_eq ((stores (t, p)).append message now).1.error
      exact ⟨_, rfl, .inr ⟨hrefusal ▸ isResponses_encodeError _ _, rfl⟩⟩
  | subscribe startOffset => exact ⟨_, rfl, .inr ⟨isResponses_subscribeAt, rfl⟩⟩
  | fetch offset maxMessages =>
    obtain ⟨rs, hrs, hfits⟩ := hfits (t, p) offset maxMessages.toNat
    rw [access, hrs]
    exact ⟨_, rfl, .inr ⟨isResponses_fetched sess hfits, rfl⟩⟩

end

/-- A request for the first message. -/
def fetchFirst : Frame := ⟨.fetch, [1, 116] ++ List.replicate 265 0 ++ [1]⟩

theorem accepted_publishOneEvents {κ : Type} (s : PartitionStore κ) (payload : Payload)
    (now : UInt64) :
    PartitionStore.accepted (s.publishOneEvents payload now) = [s.command payload now] := rfl

/-- A partition with a record of one byte. -/
def short : PartitionStore Unit :=
  (PartitionStore.open ∅ {} : PartitionStore Unit).publishedOne ⟨[7], Payload.length_seven_lt⟩ 5

theorem messagesFit_short : MessagesFit fun _ => short := by
  refine messagesFit_of_runs fun _ => ⟨{}, _, @PartitionStore.Idle.run_publishedOne Unit
    (PartitionStore.open ∅ {}) ⟨[7], by decide⟩ 5 ⟨rfl, rfl, rfl, rfl⟩ (by decide) (by decide)
    (by decide) (by decide), by decide, fun r hr => ?_⟩
  rw [accepted_publishOneEvents, List.mem_singleton] at hr
  rw [hr, FitsFrame]
  decide

/-- A payload that fits a record, but no frame of a response. -/
def giant : Payload :=
  ⟨List.replicate (2 ^ 32 - 21) 0, by rw [List.length_replicate]; decide⟩

theorem length_giant : giant.bytes.length = 2 ^ 32 - 21 := List.length_replicate

/-- A partition that takes it. -/
def vast : PartitionStore Unit := PartitionStore.open ∅ { maxPendingBytes := 8589934592 }

theorem run_giant : Run PartitionStore.Step vast (vast.publishOneEvents giant 0)
    (vast.publishedOne giant 0) := by
  refine PartitionStore.Idle.run_publishedOne ⟨rfl, rfl, rfl, rfl⟩ (by decide) ?_ ?_ (by decide)
  · rw [length_giant]
    decide
  · rw [length_giant]
    decide

theorem fetch_giant : ∃ r rs, ((vast.publishedOne giant 0).fetch 0 1).1 = some (r :: rs) ∧
    r.payload = giant := by
  have hfull := @PartitionStore.publishedOne_of_full Unit vast giant 0 (by
    rw [length_giant]
    decide)
  have hcommitted : 0 < (vast.publishedOne giant 0).committedOffset := by
    rw [PartitionStore.committedOffset_publishedOne]
    decide
  obtain ⟨r, rs, hfound, hmem, -⟩ :=
    PartitionStore.Run.serves run_giant (by decide) hcommitted (Nat.le_refl 1)
      (.inr (by rw [hfull.2]; decide))
  rw [← PartitionStore.mem_accepted, accepted_publishOneEvents, List.mem_singleton] at hmem
  exact ⟨r, rs, hfound, congrArg Record.payload hmem⟩

/-- The length in front of the first response is not zero. -/
theorem IsResponses.size_ne_zero {bs : Bytes} (h : IsResponses bs) : Message.size 4 bs ≠ 0 := by
  obtain ⟨ms, hne, rfl, -⟩ := h
  obtain ⟨m, ms, rfl⟩ := List.exists_cons_of_ne_nil hne
  rw [Format.encodeAll_cons, lengthPrefixed_encode, Message.size_encode_append]
  exact Nat.succ_ne_zero _

/-- The length in front of the payload is cut to 32 bits. -/
theorem size_fetchFrame_giant {r : Record} (hr : r.payload = giant) (tl : Bytes) :
    Message.size 4 (fetchFrame r ++ tl) = 0 := by
  rw [fetchFrame, encodeFrame, length_fetchResponse, hr, length_giant, List.append_assoc,
    Message.size, List.take_left' (length_hostToBe32 _)]
  decide

end Fell.Broker.RequestHandler
