import Fell.Replication.PartitionMeta
import Fell.Replication.ReplProtocol

/-!
# The records on a replication connection

A leader sends records to a follower from two places: `ReplicaManager::worker_loop` sends
those that have just been committed, `ReplicationServer::handle_fetch_log` those that the
follower asks for. The follower takes them from its receive buffer frame by frame
(`ReplicationClient::on_readable`, `handle_frame`), and hands them to `on_replica_sync`.

* `workerPieces_eq_fetchLogPieces`: for a record, both send the same bytes;
* `drainFrames_eq`: the inner loop of `on_readable` takes the frames that are whole from the
  front of the buffer;
* `sync_roundtrip`: whatever the chunks in which the bytes arrive, `on_replica_sync` is given
  the records that were sent.
-/

namespace Fell.Replication

open Platform Storage

/-! ## The senders -/

/-- What `worker_loop` sends to a follower for a record, piece by piece. -/
def workerPieces (m : PartitionMeta) (epoch : UInt32) (r : Record) : List Bytes :=
  framePieces .replicaSync
    { topic := .ofName m.topic
      partition := m.partitionIdx
      epoch
      offset := r.offset
      timestampMs := r.timestampMs
      payloadSize := r.payload.size } r.payload

/-- `FetchLogReq`. -/
structure FetchLogReq where
  topicLen : UInt8
  /-- The field for the name of the topic. -/
  topic : Bytes
  partition : UInt16
  startOffset : UInt64
  followerId : UInt32
  length_topic : topic.length = 255

namespace FetchLogReq

variable (req : FetchLogReq)

/-- The topic that the request names. -/
def name : Bytes := req.topic.take req.topicLen.toNat

/-- The name is copied to the header of the answer. -/
def field : TopicField where
  name := req.name
  length_le := (List.length_take_le' _ _).trans req.length_topic.le

end FetchLogReq

/-- What `handle_fetch_log` sends for a record, piece by piece. -/
def fetchLogPieces (req : FetchLogReq) (epoch : UInt32) (r : Record) : List Bytes :=
  framePieces .replicaSync
    { topic := req.field
      partition := req.partition
      epoch
      offset := r.offset
      timestampMs := r.timestampMs
      payloadSize := r.payload.size } r.payload

/-- Both senders write the record in the same way. -/
theorem workerPieces_eq_fetchLogPieces {m : PartitionMeta} {req : FetchLogReq}
    (htopic : req.name = m.topic) (hpart : req.partition = m.partitionIdx) (epoch : UInt32)
    (r : Record) : workerPieces m epoch r = fetchLogPieces req epoch r := by
  have hfield : TopicField.ofName m.topic = req.field := by
    rw [← htopic]
    exact req.field.ofName_name
  rw [workerPieces, fetchLogPieces, hfield, hpart]

/-! ## The receiver -/

namespace ReplicaSyncHeader

/-- The header that is copied from the front of a payload. -/
def decode (bs : Bytes) : ReplicaSyncHeader where
  topic := .ofName ((bs.drop 1).take (bs.headD 0).toNat)
  partition := be16ToHost ((bs.drop 256).take 2)
  epoch := be32ToHost ((bs.drop 258).take 4)
  offset := be64ToHost ((bs.drop 262).take 8)
  timestampMs := be64ToHost ((bs.drop 270).take 8)
  payloadSize := be32ToHost ((bs.drop 278).take 4)

/-- A field of `k` bytes behind `n` others. -/
theorem take_drop_field (front field tl : Bytes) {n k : ℕ} (hn : front.length = n)
    (hk : field.length = k) : ((front ++ (field ++ tl)).drop n).take k = field := by
  rw [List.drop_left' hn, List.take_left' hk]

theorem name_encode (t : TopicField) (tl : Bytes) :
    ((t.encode ++ tl).drop 1).take ((t.encode ++ tl).headD 0).toNat = t.name := by
  have hlen : (UInt8.ofNat t.name.length).toNat = t.name.length := by
    rw [UInt8.toNat_ofNat']
    exact Nat.mod_eq_of_lt (t.length_le.trans_lt (by decide))
  rw [TopicField.encode, List.cons_append, List.headD_cons, List.drop_succ_cons, List.drop_zero,
    hlen, List.append_assoc, List.take_left' rfl]

/-- The header is read back as it was written. -/
theorem decode_encode (h : ReplicaSyncHeader) : decode h.encode = h := by
  obtain ⟨t, p, e, o, ts, sz⟩ := h
  have hencode : encode ⟨t, p, e, o, ts, sz⟩ = t.encode ++ (hostToBe16 p ++ (hostToBe32 e ++
      (hostToBe64 o ++ (hostToBe64 ts ++ hostToBe32 sz)))) := by
    simp only [encode, List.append_assoc]
  have hpart := take_drop_field t.encode (hostToBe16 p) (hostToBe32 e ++
    (hostToBe64 o ++ (hostToBe64 ts ++ hostToBe32 sz))) (n := 256) (by simp) (length_hostToBe16 p)
  have hepoch := take_drop_field (t.encode ++ hostToBe16 p) (hostToBe32 e)
    (hostToBe64 o ++ (hostToBe64 ts ++ hostToBe32 sz)) (n := 258) (by simp) (length_hostToBe32 e)
  have hoffset := take_drop_field (t.encode ++ hostToBe16 p ++ hostToBe32 e) (hostToBe64 o)
    (hostToBe64 ts ++ hostToBe32 sz) (n := 262) (by simp) (length_hostToBe64 o)
  have htimestamp := take_drop_field (t.encode ++ hostToBe16 p ++ hostToBe32 e ++ hostToBe64 o)
    (hostToBe64 ts) (hostToBe32 sz) (n := 270) (by simp) (length_hostToBe64 ts)
  have hsize := take_drop_field
    (t.encode ++ hostToBe16 p ++ hostToBe32 e ++ hostToBe64 o ++ hostToBe64 ts)
    (hostToBe32 sz) [] (n := 278) (by simp) (length_hostToBe32 sz)
  simp only [List.append_assoc, List.append_nil] at hpart hepoch hoffset htimestamp hsize
  rw [hencode, decode, name_encode, hpart, hepoch, hoffset, htimestamp, hsize,
    be16ToHost_hostToBe16, be32ToHost_hostToBe32, be64ToHost_hostToBe64, be64ToHost_hostToBe64,
    be32ToHost_hostToBe32, TopicField.ofName_name]

end ReplicaSyncHeader

/-- What `on_replica_sync` is given. -/
structure ReplicaSync where
  topic : Bytes
  partition : UInt16
  epoch : UInt32
  offset : UInt64
  timestampMs : UInt64
  payload : Bytes
  deriving DecidableEq

/-- The payload is taken from the bytes that follow the header, as many as it says. -/
def ReplicaSync.ofHeader (hdr : ReplicaSyncHeader) (payload : Bytes) : ReplicaSync where
  topic := hdr.topic.name
  partition := hdr.partition
  epoch := hdr.epoch
  offset := hdr.offset
  timestampMs := hdr.timestampMs
  payload := payload.take hdr.payloadSize.toNat

namespace ReplicationClient

variable {σ : Type} (onReplicaSync : σ → ReplicaSync → Option σ)

/-- `handle_frame`, of a frame whose payload begins where the bytes `payload` do; they go on behind
    it. The state of the broker is changed by `on_replica_sync`, which gives none when it closes
    the connection. -/
def handleFrame (st : σ) (opcode : UInt8) (payload : Bytes) (size : ℕ) : Option σ :=
  if opcode = ReplOp.replicaSync.toByte then
    if replicaSyncHeaderSize ≤ size then
      onReplicaSync st
        (.ofHeader (.decode (payload.take replicaSyncHeaderSize))
          (payload.drop replicaSyncHeaderSize))
    else some st
  else some st

/-- The inner loop of `on_readable`, for at most so many rounds. A round erases at least four
    bytes, so there are no more of them than bytes. -/
def drainFrames : ℕ → σ → Bytes → Option (σ × Bytes)
  | 0, st, recvBuf => some (st, recvBuf)
  | fuel + 1, st, recvBuf =>
    if 5 ≤ recvBuf.length then
      let len := be32ToHost (recvBuf.take 4)
      -- The sum is a `uint32_t`, and so is the size of the payload.
      if (4 + len).toNat ≤ recvBuf.length then
        (handleFrame onReplicaSync st (recvBuf.getD 4 0) (recvBuf.drop 5) (len - 1).toNat).bind
          fun st => drainFrames fuel st (recvBuf.drop (4 + len.toNat))
      else some (st, recvBuf)
    else some (st, recvBuf)

/-- `on_readable`, when a chunk is received. -/
def receive (c : σ × Bytes) (chunk : Bytes) : Option (σ × Bytes) :=
  drainFrames onReplicaSync (c.2 ++ chunk).length c.1 (c.2 ++ chunk)

/-! ## Whole frames -/

variable {topic : TopicField} {partition : UInt16} {epoch : UInt32}

/-- The bytes sent for a record. -/
def syncBytes (topic : TopicField) (partition : UInt16) (epoch : UInt32) (r : Record) : Bytes :=
  (framePieces .replicaSync (.ofRecord topic partition epoch r) r.payload).flatten

/-- What is to be delivered for a record. -/
def syncOf (topic : TopicField) (partition : UInt16) (epoch : UInt32) (r : Record) :
    ReplicaSync where
  topic := topic.name
  partition
  epoch
  offset := r.offset
  timestampMs := r.timestampMs
  payload := r.payload.bytes

/-- The payload leaves room in the length field for the rest of the frame, the field included. -/
def Short (r : Record) : Prop := r.payload.bytes.length < 2 ^ 32 - 300

theorem Short.fitsFrame {r : Record} (h : Short r) : FitsFrame r.payload := by
  rw [Short] at h
  rw [FitsFrame, replicaSyncHeaderSize]
  omega

/-- The length field of a frame, with which the loop reckons. -/
theorem toNat_frameSize_of_short {r : Record} (h : Short r) :
    (4 + frameSize r.payload.size).toNat = 4 + (frameSize r.payload.size).toNat ∧
      (frameSize r.payload.size - 1).toNat = replicaSyncHeaderSize + r.payload.bytes.length := by
  have hsize := toNat_frameSize h.fitsFrame
  rw [Short] at h
  have hlt : 4 + (frameSize r.payload.size).toNat < 2 ^ 32 := by
    rw [hsize, replicaSyncHeaderSize]
    omega
  refine ⟨?_, ?_⟩
  · rw [UInt32.toNat_add]
    exact Nat.mod_eq_of_lt hlt
  · rw [UInt32.toNat_sub_of_le, hsize]
    · rfl
    · rw [UInt32.le_iff_toNat_le, hsize]
      exact Nat.le_add_left 1 _

theorem syncBytes_eq (r : Record) :
    syncBytes topic partition epoch r = hostToBe32 (frameSize r.payload.size) ++
      (ReplOp.replicaSync.toByte ::
        ((ReplicaSyncHeader.ofRecord topic partition epoch r).encode ++ r.payload.bytes)) := by
  rw [syncBytes, framePieces]
  split_ifs with hnil
  · simp [hnil]
  · simp

theorem length_syncBytes {r : Record} (h : Short r) :
    (syncBytes topic partition epoch r).length = 4 + (frameSize r.payload.size).toNat := by
  rw [syncBytes_eq, toNat_frameSize h.fitsFrame]
  simp

/-- A frame at the front of the buffer is delivered. -/
theorem handleFrame_sync (st : σ) (r : Record) (tl : Bytes) :
    handleFrame onReplicaSync st ReplOp.replicaSync.toByte
      ((ReplicaSyncHeader.ofRecord topic partition epoch r).encode ++ r.payload.bytes ++ tl)
      (replicaSyncHeaderSize + r.payload.bytes.length) =
        onReplicaSync st (syncOf topic partition epoch r) := by
  have hlen := ReplicaSyncHeader.length_encode (.ofRecord topic partition epoch r)
  rw [handleFrame, if_pos rfl, if_pos (Nat.le_add_right _ _), List.append_assoc,
    List.take_left' hlen, List.drop_left' hlen, ReplicaSyncHeader.decode_encode]
  congr 1
  rw [ReplicaSync.ofHeader, syncOf]
  simp only [ReplicaSyncHeader.ofRecord]
  rw [List.take_left' (Payload.toNat_size r.payload).symm]

/-- With a whole frame at its front, the loop delivers it and goes on. -/
theorem drainFrames_of_whole {r : Record} (h : Short r) (fuel : ℕ) (st : σ) (tl : Bytes) :
    drainFrames onReplicaSync (fuel + 1) st (syncBytes topic partition epoch r ++ tl) =
      (onReplicaSync st (syncOf topic partition epoch r)).bind fun st =>
        drainFrames onReplicaSync fuel st tl := by
  obtain ⟨hadd, hsub⟩ := toNat_frameSize_of_short h
  have hlen := @length_syncBytes topic partition epoch r h
  have hfield : be32ToHost ((syncBytes topic partition epoch r ++ tl).take 4) =
      frameSize r.payload.size := by
    rw [syncBytes_eq, List.append_assoc, List.take_left' (length_hostToBe32 _),
      be32ToHost_hostToBe32]
  have hop : (syncBytes topic partition epoch r ++ tl).getD 4 0 = ReplOp.replicaSync.toByte := by
    rw [syncBytes_eq, List.append_assoc, List.getD_eq_getElem?_getD,
      List.getElem?_append_right (by simp)]
    simp
  have hpayload : (syncBytes topic partition epoch r ++ tl).drop 5 =
      (ReplicaSyncHeader.ofRecord topic partition epoch r).encode ++ r.payload.bytes ++ tl := by
    rw [syncBytes_eq, List.append_assoc, show (5 : ℕ) = 4 + 1 from rfl, ← List.drop_drop,
      List.drop_left' (length_hostToBe32 _)]
    rfl
  have hpos := toNat_frameSize h.fitsFrame
  rw [drainFrames, if_pos (by rw [List.length_append, hlen, hpos]; omega)]
  simp only [hfield, hop, hpayload, hadd, hsub]
  rw [if_pos (by rw [List.length_append, hlen]; omega), handleFrame_sync, List.drop_left' hlen]

/-- With a part of a frame in the buffer, the loop ends. -/
theorem drainFrames_of_part {r : Record} (h : Short r) (fuel : ℕ) (st : σ) {buf tl tl' : Bytes}
    (heq : buf ++ tl = syncBytes topic partition epoch r ++ tl')
    (hlt : buf.length < (syncBytes topic partition epoch r).length) :
    drainFrames onReplicaSync fuel st buf = some (st, buf) := by
  cases fuel with
  | zero => rfl
  | succ fuel =>
    rw [drainFrames]
    split_ifs with hfive
    · -- The length field is there, and says that the frame is longer than the buffer.
      have hfield : be32ToHost (buf.take 4) = frameSize r.payload.size := by
        have htake : buf.take 4 = (buf ++ tl).take 4 := by
          rw [List.take_append_of_le_length (by omega)]
        rw [htake, heq, syncBytes_eq, List.append_assoc, List.take_left' (length_hostToBe32 _),
          be32ToHost_hostToBe32]
      simp only [hfield]
      rw [if_neg]
      rw [(toNat_frameSize_of_short h).1, ← @length_syncBytes topic partition epoch r h]
      exact Nat.not_le.2 hlt
    · rfl

/-! ## Streams -/

/-- The bytes sent for records. -/
def stream (topic : TopicField) (partition : UInt16) (epoch : UInt32) (rs : List Record) : Bytes :=
  rs.flatMap (syncBytes topic partition epoch)

/-- The records are delivered one after the other. -/
def deliverAll (topic : TopicField) (partition : UInt16) (epoch : UInt32) (st : σ)
    (rs : List Record) : Option σ :=
  rs.foldlM (fun st r => onReplicaSync st (syncOf topic partition epoch r)) st

theorem deliverAll_append (st : σ) (rs₁ rs₂ : List Record) :
    deliverAll onReplicaSync topic partition epoch st (rs₁ ++ rs₂) =
      (deliverAll onReplicaSync topic partition epoch st rs₁).bind fun st =>
        deliverAll onReplicaSync topic partition epoch st rs₂ :=
  List.foldlM_append

/-- The buffer holds no whole frame of the records to come. -/
def Unfinished (topic : TopicField) (partition : UInt16) (epoch : UInt32) (buf : Bytes) :
    List Record → Prop
  | [] => True
  | r :: _ => buf.length < (syncBytes topic partition epoch r).length

/-- The inner loop delivers the records whose frames are whole, and leaves a part of a frame. -/
theorem drainFrames_eq {rs : List Record} (hrs : ∀ r ∈ rs, Short r) {fuel : ℕ} {st : σ}
    {buf tl : Bytes} (hfuel : buf.length ≤ fuel)
    (heq : buf ++ tl = stream topic partition epoch rs) :
    ∃ rs₁ rs₂ buf', rs = rs₁ ++ rs₂ ∧ buf' ++ tl = stream topic partition epoch rs₂ ∧
      Unfinished topic partition epoch buf' rs₂ ∧
      drainFrames onReplicaSync fuel st buf =
        (deliverAll onReplicaSync topic partition epoch st rs₁).map (·, buf') := by
  induction rs generalizing fuel st buf with
  | nil =>
    obtain ⟨rfl, rfl⟩ := List.append_eq_nil_iff.1 heq
    refine ⟨[], [], [], rfl, rfl, trivial, ?_⟩
    cases fuel <;> rfl
  | cons r rs ih =>
    have hr := hrs r List.mem_cons_self
    rcases Nat.lt_or_ge buf.length (syncBytes topic partition epoch r).length with hlt | hge
    · exact ⟨[], r :: rs, buf, rfl, heq, hlt, drainFrames_of_part onReplicaSync hr fuel st heq hlt⟩
    · -- The first frame is whole: the buffer goes on behind it.
      obtain ⟨buf₁, rfl, htl⟩ : ∃ buf₁, buf = syncBytes topic partition epoch r ++ buf₁ ∧
          buf₁ ++ tl = stream topic partition epoch rs := by
        obtain ⟨buf₁, h₁, h₂⟩ | ⟨c, h₁, h₂⟩ := List.append_eq_append_iff.1 heq
        · have hnil : buf₁ = [] := by
            have := congrArg List.length h₁
            rw [List.length_append] at this
            exact List.eq_nil_of_length_eq_zero (by omega)
          subst hnil
          exact ⟨[], by rw [h₁, List.append_nil, List.append_nil], h₂⟩
        · exact ⟨c, h₁, h₂.symm⟩
      rw [List.length_append] at hfuel
      have hpos : 0 < (syncBytes topic partition epoch r).length := by
        rw [length_syncBytes hr]
        omega
      obtain ⟨n, rfl⟩ : ∃ n, fuel = n + 1 := ⟨fuel - 1, by omega⟩
      rw [drainFrames_of_whole onReplicaSync hr]
      cases hst : onReplicaSync st (syncOf topic partition epoch r) with
      | none =>
        -- The connection is closed, and nothing more is delivered.
        obtain ⟨rs₁, rs₂, buf', rfl, hrest, hpart, -⟩ :=
          @ih (fun r' h => hrs r' (.tail r h)) n st buf₁ (by omega) htl
        refine ⟨r :: rs₁, rs₂, buf', rfl, hrest, hpart, ?_⟩
        rw [deliverAll, List.foldlM_cons, hst]
        rfl
      | some st' =>
        obtain ⟨rs₁, rs₂, buf', rfl, hrest, hpart, hdrain⟩ :=
          @ih (fun r' h => hrs r' (.tail r h)) n st' buf₁ (by omega) htl
        refine ⟨r :: rs₁, rs₂, buf', rfl, hrest, hpart, ?_⟩
        rw [deliverAll, List.foldlM_cons, hst]
        exact hdrain

/-- Chunk by chunk, the records are delivered. -/
theorem receive_eq {rs : List Record} (hrs : ∀ r ∈ rs, Short r) {st : σ} {buf : Bytes}
    {chunks : List Bytes} (hpart : Unfinished topic partition epoch buf rs)
    (heq : buf ++ chunks.flatten = stream topic partition epoch rs) :
    chunks.foldlM (receive onReplicaSync) (st, buf) =
      (deliverAll onReplicaSync topic partition epoch st rs).map (·, []) := by
  induction chunks generalizing rs st buf with
  | nil =>
    rw [List.flatten_nil, List.append_nil] at heq
    cases rs with
    | nil =>
      rw [heq]
      rfl
    | cons r rs =>
      -- At the end of the stream no frame is left unfinished.
      have hle : (syncBytes topic partition epoch r).length ≤ buf.length := by
        rw [heq, stream, List.flatMap_cons, List.length_append]
        exact Nat.le_add_right _ _
      exact absurd hpart (Nat.not_lt.2 hle)
  | cons chunk chunks ih =>
    rw [List.flatten_cons, ← List.append_assoc] at heq
    obtain ⟨rs₁, rs₂, buf', rfl, hrest, hpart', hdrain⟩ :=
      @drainFrames_eq _ onReplicaSync _ _ _ _ hrs _ st _ _ le_rfl heq
    have hih := fun st' =>
      @ih rs₂ (fun r h => hrs r (List.mem_append_right _ h)) st' buf' hpart' hrest
    rw [List.foldlM_cons, receive, hdrain, deliverAll_append]
    cases deliverAll onReplicaSync topic partition epoch st rs₁ with
    | none => rfl
    | some st' => exact hih st'

end ReplicationClient

open ReplicationClient

/-- Both senders write the same bytes for a record of a topic, and whatever the chunks in which the
    bytes of records arrive, `on_replica_sync` is given these records, in order and as they were
    sent, until it closes the connection. -/
theorem sync_roundtrip {topic : Bytes} (hle : topic.length ≤ 255)
    {partition : UInt16} {m : PartitionMeta} (hm : m.topic = topic ∧ m.partitionIdx = partition)
    {req : FetchLogReq} (hreq : req.name = topic ∧ req.partition = partition) (epoch : UInt32)
    {rs : List Record} (hrs : ∀ r ∈ rs, r.payload.bytes.length < 2 ^ 32 - 300) :
    (∀ r ∈ rs, (workerPieces m epoch r).flatten = (fetchLogPieces req epoch r).flatten) ∧
    ∀ {σ : Type} (onReplicaSync : σ → ReplicaSync → Option σ) (st : σ) (chunks : List Bytes),
      chunks.flatten = (rs.flatMap fun r => (workerPieces m epoch r).flatten) →
        chunks.foldlM (receive onReplicaSync) (st, []) =
          (rs.foldlM (fun st r => onReplicaSync st
            ⟨topic, partition, epoch, r.offset, r.timestampMs, r.payload.bytes⟩) st).map
            (·, []) := by
  obtain ⟨rfl, rfl⟩ := hm
  refine ⟨fun r _ => congrArg List.flatten ?_, fun onReplicaSync st chunks hchunks => ?_⟩
  · exact workerPieces_eq_fetchLogPieces hreq.1 hreq.2 epoch r
  · have hname : (TopicField.ofName m.topic).name = m.topic := List.take_of_length_le hle
    have hpart : Unfinished (TopicField.ofName m.topic) m.partitionIdx epoch [] rs := by
      cases rs with
      | nil => trivial
      | cons r rs =>
        rw [Unfinished, length_syncBytes (hrs r List.mem_cons_self), List.length_nil]
        omega
    refine (receive_eq onReplicaSync hrs hpart hchunks).trans ?_
    rw [deliverAll]
    simp only [syncOf, hname]

/-- One record, received in two chunks. -/
theorem sync_roundtrip_twoChunks :
    let m : PartitionMeta := { topic := [116] }
    let r : Record := ⟨7, 9, ⟨[1, 2], by decide⟩⟩
    let bytes := (workerPieces m 3 r).flatten
    [bytes.take 100, bytes.drop 100].foldlM
        (receive fun (st : List ReplicaSync) x => some (st ++ [x])) ([], []) =
      some ([⟨[116], 0, 3, 7, 9, [1, 2]⟩], []) := by
  intro m r bytes
  have h := (@sync_roundtrip [116] (by decide) 0 m ⟨rfl, rfl⟩
    ⟨1, 116 :: List.replicate 254 0, 0, 0, 1, by rw [List.length_cons, List.length_replicate]⟩
    ⟨rfl, rfl⟩ 3 [r] (by simp [r])).2
    (fun (st : List ReplicaSync) x => some (st ++ [x])) [] [bytes.take 100, bytes.drop 100]
    (by simp [bytes])
  exact h

end Fell.Replication
