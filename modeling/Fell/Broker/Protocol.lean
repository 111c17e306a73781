import Fell.Platform

/-!
# The client protocol

The frames a broker answers with (`encode_frame` and its uses in
`broker/request_handler.cpp`) and the layout of the requests
(`broker/protocol.hpp`).
-/

namespace Fell.Broker

open Platform Positional

/-- `Op`. The cast from `uint8_t` gives every byte a value of the type. `COMMIT_OFFSET` has no
    handler. -/
structure Op where
  toByte : UInt8
  deriving DecidableEq

namespace Op

def createTopic : Op := ⟨0x01⟩
def publish : Op := ⟨0x02⟩
def subscribe : Op := ⟨0x03⟩
def fetch : Op := ⟨0x04⟩
def publishV2 : Op := ⟨0x06⟩
def metadataReq : Op := ⟨0x07⟩

def ack : Op := ⟨0x10⟩
def err : Op := ⟨0x11⟩
def fetchResponse : Op := ⟨0x12⟩
def metadataResp : Op := ⟨0x13⟩

end Op

/-- `ErrCode`. -/
inductive ErrCode
  | unknownTopic
  | unknownPartition
  | invalidOffset
  | unknownOp
  | malformedRequest
  | busy
  | internalError
  | notLeader
  | metadataUnavailable
  deriving DecidableEq

def ErrCode.toByte : ErrCode → UInt8
  | unknownTopic => 0x01
  | unknownPartition => 0x02
  | invalidOffset => 0x03
  | unknownOp => 0x04
  | malformedRequest => 0x05
  | busy => 0x06
  | internalError => 0x07
  | notLeader => 0x08
  | metadataUnavailable => 0x09

/-- `encode_frame`. -/
def encodeFrame (op : Op) (payload : Bytes) : Bytes :=
  hostToBe32 (1 + UInt32.ofNat payload.length) ++ op.toByte :: payload

/-- `encode_ack`. -/
def encodeAck (value : UInt64) : Bytes := encodeFrame .ack (hostToBe64 value)

/-- The bytes of a string literal. -/
def ascii (msg : String) : Bytes := msg.toList.map fun c => UInt8.ofNat c.toNat

/-- `read_be16`, at the start of the bytes. -/
def readBe16 (bs : Bytes) : UInt16 := UInt16.ofNat (beNat (bs.take 2))

/-- `read_be32`, at the start of the bytes. -/
def readBe32 (bs : Bytes) : UInt32 := be32ToHost (bs.take 4)

/-- `read_be64`, at the start of the bytes. -/
def readBe64 (bs : Bytes) : UInt64 := be64ToHost (bs.take 8)

/-- The size of the text fields of the protocol. -/
def fieldSize : ℕ := 255

/-- `encode_error`: the message is padded with zeros, and cut if it is too long. -/
def encodeError (code : ErrCode) (msg : String) : Bytes :=
  let text := (ascii msg).take fieldSize
  encodeFrame .err (code.toByte :: UInt8.ofNat text.length ::
    (text ++ List.replicate (fieldSize - text.length) 0))

theorem encodeFrame_ne_nil (op : Op) (payload : Bytes) : encodeFrame op payload ≠ [] := by
  simp [encodeFrame]

/-- The opcode of a frame is its fifth byte. -/
theorem getElem?_encodeFrame (op : Op) (payload : Bytes) :
    (encodeFrame op payload)[4]? = some op.toByte := by
  rw [encodeFrame, List.getElem?_append_right (by simp)]
  simp

/-- An acknowledgement tells its offset. -/
theorem encodeAck_injective : Function.Injective encodeAck := by
  intro v w h
  have hpayload := (List.append_inj' h (by simp)).2
  rw [← be64ToHost_hostToBe64 v, (List.cons.inj hpayload).2, be64ToHost_hostToBe64]

/-- An error is no acknowledgement. -/
theorem encodeError_ne_encodeAck (code : ErrCode) (msg : String) (value : UInt64) :
    encodeError code msg ≠ encodeAck value := by
  intro h
  have hop := congrArg (·[4]?) h
  simp only [encodeError, encodeAck, getElem?_encodeFrame] at hop
  exact absurd hop (by decide)

/-- `proto::CreateTopicReq`: a length, a name in a field of fixed size, and the number of
    partitions. -/
structure CreateTopicReq where
  nameLen : UInt8
  name : Bytes
  numPartitions : UInt16

namespace CreateTopicReq

/-- `sizeof(CreateTopicReq)`. -/
def size : ℕ := 1 + fieldSize + 2

/-- The request in the first bytes of a payload. -/
def ofPayload (payload : Bytes) : CreateTopicReq where
  nameLen := payload.headD 0
  name := (payload.drop 1).take fieldSize
  numPartitions := UInt16.ofNat (beNat ((payload.drop (1 + fieldSize)).take 2))

/-- The name of the topic: as much of the field as the length says. -/
def topicName (req : CreateTopicReq) : Bytes := req.name.take req.nameLen.toNat

end CreateTopicReq

/-- What the other requests start with: a length, and a topic in a field of fixed size. -/
structure TopicReq where
  topicLen : UInt8
  topic : Bytes

namespace TopicReq

def size : ℕ := 1 + fieldSize

def ofPayload (payload : Bytes) : TopicReq where
  topicLen := payload.headD 0
  topic := (payload.drop 1).take fieldSize

/-- The name of the topic: as much of the field as the length says. -/
def topicName (req : TopicReq) : Bytes := req.topic.take req.topicLen.toNat

end TopicReq

/-- `proto::MetadataReq`. -/
abbrev MetadataReq := TopicReq

/-- `proto::PublishReq`. The message follows. -/
structure PublishReq extends TopicReq where
  partition : UInt16
  payloadSize : UInt32

namespace PublishReq

/-- `sizeof(PublishReq)`. -/
def size : ℕ := TopicReq.size + 2 + 4

def ofPayload (payload : Bytes) : PublishReq where
  toTopicReq := .ofPayload payload
  partition := readBe16 (payload.drop TopicReq.size)
  payloadSize := readBe32 (payload.drop (TopicReq.size + 2))

end PublishReq

/-- `proto::PublishV2Req`. The message follows. -/
structure PublishV2Req extends TopicReq where
  partition : UInt16
  keyLen : UInt8
  key : Bytes
  payloadSize : UInt32

namespace PublishV2Req

/-- `sizeof(PublishV2Req)`. -/
def size : ℕ := TopicReq.size + 2 + 1 + fieldSize + 4

def ofPayload (payload : Bytes) : PublishV2Req where
  toTopicReq := .ofPayload payload
  partition := readBe16 (payload.drop TopicReq.size)
  keyLen := (payload.drop (TopicReq.size + 2)).headD 0
  key := (payload.drop (TopicReq.size + 2 + 1)).take fieldSize
  payloadSize := readBe32 (payload.drop (TopicReq.size + 2 + 1 + fieldSize))

/-- The routing key: as much of the field as the length says. -/
def routingKey (req : PublishV2Req) : Bytes := req.key.take req.keyLen.toNat

end PublishV2Req

/-- `proto::SubscribeReq`. -/
structure SubscribeReq extends TopicReq where
  partition : UInt16
  startOffset : UInt64

namespace SubscribeReq

/-- `sizeof(SubscribeReq)`. -/
def size : ℕ := TopicReq.size + 2 + 8

def ofPayload (payload : Bytes) : SubscribeReq where
  toTopicReq := .ofPayload payload
  partition := readBe16 (payload.drop TopicReq.size)
  startOffset := readBe64 (payload.drop (TopicReq.size + 2))

end SubscribeReq

/-- `proto::FetchReq`. -/
structure FetchReq extends TopicReq where
  partition : UInt16
  offset : UInt64
  maxMessages : UInt16

namespace FetchReq

/-- `sizeof(FetchReq)`. -/
def size : ℕ := TopicReq.size + 2 + 8 + 2

def ofPayload (payload : Bytes) : FetchReq where
  toTopicReq := .ofPayload payload
  partition := readBe16 (payload.drop TopicReq.size)
  offset := readBe64 (payload.drop (TopicReq.size + 2))
  maxMessages := readBe16 (payload.drop (TopicReq.size + 2 + 8))

end FetchReq

/-- `proto::FetchResponseHeader`. The payload follows. -/
structure FetchResponseHeader where
  offset : UInt64
  timestampMs : UInt64
  payloadSize : UInt32

namespace FetchResponseHeader

/-- `sizeof(FetchResponseHeader)`. -/
def size : ℕ := 8 + 8 + 4

/-- The header in memory, in network order. -/
def encode (h : FetchResponseHeader) : Bytes :=
  hostToBe64 h.offset ++ hostToBe64 h.timestampMs ++ hostToBe32 h.payloadSize

/-- The header in the first bytes of a payload. -/
def ofPayload (payload : Bytes) : FetchResponseHeader where
  offset := readBe64 payload
  timestampMs := readBe64 (payload.drop 8)
  payloadSize := readBe32 (payload.drop (8 + 8))

@[simp] theorem length_encode (h : FetchResponseHeader) : h.encode.length = size := by
  simp [encode, size]

/-- The header of a response is read back. -/
theorem ofPayload_encode (h : FetchResponseHeader) (tl : Bytes) :
    ofPayload (h.encode ++ tl) = h := by
  have h₁ : (h.encode ++ tl).take 8 = hostToBe64 h.offset := by simp [encode]
  have h₂ : ((h.encode ++ tl).drop 8).take 8 = hostToBe64 h.timestampMs := by simp [encode]
  have h₃ : (((h.encode ++ tl).drop 8).drop 8).take 4 = hostToBe32 h.payloadSize := by
    simp [encode]
  rw [List.drop_drop] at h₃
  rw [ofPayload, readBe64, readBe64, readBe32, h₁, h₂, h₃, be64ToHost_hostToBe64,
    be64ToHost_hostToBe64, be32ToHost_hostToBe32]

end FetchResponseHeader

end Fell.Broker
