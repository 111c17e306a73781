import Fell.Platform
import Fell.Storage.LogFormat

/-!
# The replication protocol

The frames on a replication connection (`replication/repl_protocol.hpp`), as the leader
sends them. A frame is a length-prefixed message (`Lib.LengthPrefixed`) with the
opcode for its tag. It is sent piece by piece, each with a `send_data` of its own: the
length, the opcode, the header and, if it is not empty, the payload.
-/

namespace Fell.Replication

open Platform Storage

/-- `ReplOp`. `HEARTBEAT_ACK` is never sent, nor handled. -/
structure ReplOp where
  toByte : UInt8
  deriving DecidableEq

namespace ReplOp

def fetchLog : ReplOp := ⟨0x01⟩
def replicaSync : ReplOp := ⟨0x02⟩
def replicaSyncEnd : ReplOp := ⟨0x03⟩
def replicaAck : ReplOp := ⟨0x04⟩
def heartbeat : ReplOp := ⟨0x05⟩
def leaderElection : ReplOp := ⟨0x07⟩

end ReplOp

/-- A topic name as the frames hold it: in a field of 255 bytes, behind its length. -/
@[ext] structure TopicField where
  name : Bytes
  length_le : name.length ≤ 255

namespace TopicField

/-- A name that is too long for the field is cut. -/
def ofName (name : Bytes) : TopicField := ⟨name.take 255, List.length_take_le _ _⟩

def encode (t : TopicField) : Bytes :=
  UInt8.ofNat t.name.length :: (t.name ++ List.replicate (255 - t.name.length) 0)

/-- A name that fits is not cut. -/
theorem ofName_name (t : TopicField) : ofName t.name = t :=
  TopicField.ext (List.take_of_length_le t.length_le)

@[simp] theorem length_encode (t : TopicField) : t.encode.length = 256 := by
  have := t.length_le
  rw [encode, List.length_cons, List.length_append, List.length_replicate]
  omega

end TopicField

/-- `ReplicaSyncHeader`. -/
structure ReplicaSyncHeader where
  topic : TopicField
  partition : UInt16
  epoch : UInt32 := 0
  offset : UInt64 := 0
  timestampMs : UInt64 := 0
  payloadSize : UInt32 := 0

/-- `sizeof(ReplicaSyncHeader)`. -/
def replicaSyncHeaderSize : ℕ := 282

namespace ReplicaSyncHeader

/-- The header in memory, in network order. -/
def encode (h : ReplicaSyncHeader) : Bytes :=
  h.topic.encode ++ hostToBe16 h.partition ++ hostToBe32 h.epoch ++
    (hostToBe64 h.offset ++ (hostToBe64 h.timestampMs ++ hostToBe32 h.payloadSize))

@[simp] theorem length_encode (h : ReplicaSyncHeader) :
    h.encode.length = replicaSyncHeaderSize := by
  simp [encode, replicaSyncHeaderSize]

/-- The position of the offset in a header. -/
def offsetPos : ℕ := 262

theorem offset_encode_append (h : ReplicaSyncHeader) (tl : Bytes) :
    be64ToHost (((h.encode ++ tl).drop offsetPos).take 8) = h.offset := by
  have hfront : (h.topic.encode ++ hostToBe16 h.partition ++ hostToBe32 h.epoch).length =
      offsetPos := by
    simp [offsetPos]
  rw [encode, List.append_assoc _ _ tl, ← hfront, List.drop_left, List.append_assoc,
    ← length_hostToBe64 h.offset, List.take_left, be64ToHost_hostToBe64]

/-- The header of a record. -/
def ofRecord (topic : TopicField) (partition : UInt16) (epoch : UInt32) (r : Record) :
    ReplicaSyncHeader where
  topic
  partition
  epoch
  offset := r.offset
  timestampMs := r.timestampMs
  payloadSize := r.payload.size

end ReplicaSyncHeader

/-! ## Frames -/

/-- The length field of a frame with a payload of so many bytes. -/
def frameSize (payloadSize : UInt32) : UInt32 :=
  UInt32.ofNat replicaSyncHeaderSize + payloadSize + 1

/-- The pieces of a frame. -/
def framePieces (op : ReplOp) (hdr : ReplicaSyncHeader) (payload : Payload) : List Bytes :=
  [hostToBe32 (frameSize payload.size), [op.toByte], hdr.encode] ++
    if payload.bytes = [] then [] else [payload.bytes]

/-- The payload leaves room in the length field for the header and the opcode. -/
def FitsFrame (payload : Payload) : Prop :=
  replicaSyncHeaderSize + payload.bytes.length + 1 < 2 ^ 32

instance (payload : Payload) : Decidable (FitsFrame payload) := inferInstanceAs (Decidable (_ < _))

/-- A frame, as a message. -/
def frame (op : ReplOp) (hdr : ReplicaSyncHeader) (payload : Payload) (h : FitsFrame payload) :
    Message 4 where
  tag := op.toByte
  body := hdr.encode ++ payload.bytes
  length_lt := by
    rw [List.length_append, ReplicaSyncHeader.length_encode]
    exact h

theorem toNat_frameSize {payload : Payload} (h : FitsFrame payload) :
    (frameSize payload.size).toNat = replicaSyncHeaderSize + payload.bytes.length + 1 := by
  rw [FitsFrame] at h
  rw [frameSize, UInt32.toNat_add, UInt32.toNat_add, Payload.toNat_size, Nat.mod_add_mod]
  exact Nat.mod_eq_of_lt h

/-- Put together, the pieces are the frame. -/
theorem flatten_framePieces (op : ReplOp) (hdr : ReplicaSyncHeader) {payload : Payload}
    (h : FitsFrame payload) :
    (framePieces op hdr payload).flatten = (frame op hdr payload h).encode := by
  have hpay : (if payload.bytes = [] then [] else [payload.bytes]).flatten = payload.bytes := by
    split_ifs with hnil
    · rw [hnil]
      rfl
    · exact List.append_nil _
  have hlen : (hdr.encode ++ payload.bytes).length + 1 =
      replicaSyncHeaderSize + payload.bytes.length + 1 := by
    rw [List.length_append, ReplicaSyncHeader.length_encode]
  rw [framePieces, List.flatten_append, hpay, Message.encode, frame]
  dsimp only
  rw [hlen, ← toNat_frameSize h]
  simp [hostToBe32]

/-- The offset in a `REPLICA_SYNC` frame. -/
def syncOffset? (m : Message 4) : Option UInt64 :=
  if m.tag = ReplOp.replicaSync.toByte then
    some (be64ToHost ((m.body.drop ReplicaSyncHeader.offsetPos).take 8))
  else none

/-- The offsets that the `REPLICA_SYNC` frames of a stream carry. -/
def syncOffsets (ms : List (Message 4)) : List ℕ := (ms.filterMap syncOffset?).map (·.toNat)

theorem syncOffset?_sync (hdr : ReplicaSyncHeader) (payload : Payload) (h : FitsFrame payload) :
    syncOffset? (frame .replicaSync hdr payload h) = some hdr.offset := by
  refine (if_pos rfl).trans ?_
  exact congrArg some (hdr.offset_encode_append payload.bytes)

theorem syncOffset?_syncEnd (hdr : ReplicaSyncHeader) (payload : Payload) (h : FitsFrame payload) :
    syncOffset? (frame .replicaSyncEnd hdr payload h) = none :=
  if_neg (by simp [frame, ReplOp.replicaSyncEnd, ReplOp.replicaSync])

end Fell.Replication
