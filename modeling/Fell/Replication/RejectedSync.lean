import Fell.Replication.ReceiveLoop

/-!
# Rejected records

`on_replica_sync` rejects a record that is not the next one, or that the partition does not accept:
it closes the connection and clears the receive buffer, two calls below the loop that is to erase
the frame from it. What follows is undefined (`not_cleanAbort`), wherever the record is in the
buffer. And when it is `append` that rejects the record, the callback for its commit is registered
already.

* `Receiver.frameLoop`: the inner loop of `on_readable`, up to an access out of bounds;
* `frameLoop_ended`: without one, it is the loop `drainFrames`, which is taken for it elsewhere.
-/

namespace Fell.Replication

open Platform Storage

variable {σ : Type}

/-! ## The loop as a function -/

instance (a : Access) (frame : ℕ) : Decidable (a.Within frame) :=
  inferInstanceAs (Decidable (_ ∧ _))

instance (handle : Handler σ) (r : Receiver σ) : Decidable (r.InBounds handle) :=
  inferInstanceAs (Decidable (∀ a ∈ r.accesses handle, _))

/-- How the loop comes out. -/
inductive Outcome (σ : Type)
  | ended (r : Receiver σ)
  /-- In this state, an access is out of bounds. -/
  | undefined (r : Receiver σ)

namespace Receiver

/-- The inner loop of `on_readable`, for at most so many rounds. -/
def frameLoop (handle : Handler σ) : ℕ → Receiver σ → Outcome σ
  | 0, r => .ended r
  | fuel + 1, r =>
    if Found r.recvBuf then
      if r.InBounds handle then frameLoop handle fuel (r.next handle) else .undefined r
    else .ended r

end Receiver

namespace ReplicationClient

/-- `on_replica_sync`, as `handleFrame` and `drainFrames` are given it. -/
def State.sync (c : State) (m : ReplicaSync) : Option State :=
  let h := c.onReplicaSync
    ⟨.ofName m.topic, m.partition, m.epoch, m.offset, m.timestampMs, .ofNat m.payload.length⟩
    m.payload
  if h.keeps then some h.state else none

/-- Only the payload that the header tells of matters. -/
theorem State.onReplicaSync_congr {c : State} {hdr : ReplicaSyncHeader} {bs bs' : Bytes}
    (h : Payload.take hdr.payloadSize bs = Payload.take hdr.payloadSize bs') :
    c.onReplicaSync hdr bs = c.onReplicaSync hdr bs' := by
  rw [State.onReplicaSync, State.onReplicaSync, h]

/-- In bounds, the record is all that `on_replica_sync` makes use of. -/
theorem State.sync_ofHeader {c : State} {hdr : ReplicaSyncHeader} {payload : Bytes} {size : ℕ}
    (hsize : size ≤ replicaSyncHeaderSize + payload.length)
    (h : (c.onReplicaSync hdr payload).Fits size) :
    c.sync (.ofHeader hdr payload) = some (c.onReplicaSync hdr payload).state := by
  rw [State.sync, ReplicaSync.ofHeader]
  dsimp only
  rw [TopicField.ofName_name]
  cases hp : c.partitionOf hdr with
  | none =>
    have hnone : ∀ (n : UInt32) (bs : Bytes),
        c.onReplicaSync { hdr with payloadSize := n } bs = { state := c } := fun n bs => by
      have hp' : c.partitionOf { hdr with payloadSize := n } = none := hp
      rw [State.onReplicaSync, hp']
    have hself : c.onReplicaSync hdr payload = { state := c } := hnone hdr.payloadSize payload
    rw [hnone, hself]
    rfl
  | some p =>
    -- The payload is whole, so the header is the one received.
    have hlen := ((State.fits_onReplicaSync hsize).1 h p hp).2.1
    have htake : (payload.take hdr.payloadSize.toNat).length = hdr.payloadSize.toNat := by
      rw [List.length_take]
      omega
    rw [htake, UInt32.ofNat_toNat]
    have hcongr : c.onReplicaSync hdr (payload.take hdr.payloadSize.toNat) =
        c.onReplicaSync hdr payload := by
      refine State.onReplicaSync_congr (Payload.ext ?_)
      exact List.take_take.trans (by rw [min_self, Payload.take])
    rw [hcongr, if_pos h.2]

/-- In bounds, a round hands the record to `on_replica_sync`. -/
theorem handleFrame_of_inBounds {r : Receiver State} (hfound : Found r.recvBuf)
    (hin : r.InBounds State.handleFrame) :
    handleFrame State.sync r.state (r.recvBuf.getD 4 0) (r.recvBuf.drop 5)
      (frameLen r.recvBuf - 1).toNat = some (r.handled State.handleFrame).state := by
  obtain ⟨⟨hpos, hle⟩, hfits⟩ := (Receiver.inBounds_iff hfound).1 hin
  rw [Receiver.toNat_frameLen_sub_one hpos]
  rw [Receiver.handled_of_pos hpos, State.handleFrame] at hfits ⊢
  rw [handleFrame]
  split_ifs at hfits ⊢ with hop hsize
  · rw [fits_copied] at hfits
    rw [copied, if_pos hsize]
    refine State.sync_ofHeader ?_ (hfits hsize)
    rw [List.length_drop, List.length_drop]
    omega
  · rw [copied, if_neg hsize]
  · rfl

/-- As long as it stays in bounds, the loop is that of whole frames. -/
theorem frameLoop_ended {fuel : ℕ} {r r' : Receiver State}
    (h : r.frameLoop State.handleFrame fuel = .ended r') :
    drainFrames State.sync fuel r.state r.recvBuf = some (r'.state, r'.recvBuf) := by
  induction fuel generalizing r with
  | zero =>
    cases h
    rfl
  | succ fuel ih =>
    rw [Receiver.frameLoop] at h
    rw [drainFrames]
    dsimp only
    rw [← frameLen]
    split_ifs at h with hfound hin
    · rw [if_pos hfound.1, if_pos hfound.2, handleFrame_of_inBounds hfound hin]
      exact ih h
    · cases h
      split_ifs with hfive hlen
      · exact absurd ⟨hfive, hlen⟩ hfound
      · rfl
      · rfl

/-! ## Frames -/

/-- A well-formed `REPLICA_SYNC` frame. -/
structure SyncMessage where
  hdr : ReplicaSyncHeader
  payload : Payload
  payloadSize_eq : hdr.payloadSize = payload.size
  fits : FitsFrame payload

namespace SyncMessage

variable (m : SyncMessage)

/-- The bytes that are sent for it. -/
def encode : Bytes := (frame .replicaSync m.hdr m.payload m.fits).encode

variable (tl : Bytes)

theorem take_payload : Payload.take m.hdr.payloadSize (m.payload.bytes ++ tl) = m.payload := by
  rw [m.payloadSize_eq, Payload.take_append]

theorem size_encode_append :
    Message.size 4 (m.encode ++ tl) = replicaSyncHeaderSize + m.payload.bytes.length + 1 := by
  rw [encode, Message.size_encode_append, frame, List.length_append,
    ReplicaSyncHeader.length_encode]

theorem length_encode :
    m.encode.length = 4 + (replicaSyncHeaderSize + m.payload.bytes.length + 1) := by
  rw [encode, Message.length_encode, frame, List.length_append, ReplicaSyncHeader.length_encode]

theorem whole : Message.Whole 4 (m.encode ++ tl) := by
  rw [Message.Whole, size_encode_append, List.length_append, length_encode]
  omega

/-- The loop finds the frame, also if its length field is so large that the sum wraps around. -/
theorem found : Found (m.encode ++ tl) := by
  have hle := (m.whole tl).2
  refine ⟨?_, ?_⟩
  · rw [List.length_append, length_encode]
    omega
  · rw [← toNat_frameLen] at hle
    rw [UInt32.toNat_add]
    exact (Nat.mod_le _ _).trans hle

/-- The opcode, and what follows it. -/
theorem split_encode :
    (m.encode ++ tl).getD 4 0 = ReplOp.replicaSync.toByte ∧
      (m.encode ++ tl).drop 5 = m.hdr.encode ++ (m.payload.bytes ++ tl) := by
  have hsplit : m.encode ++ tl =
      Positional.beBytes 4 (replicaSyncHeaderSize + m.payload.bytes.length + 1) ++
        ReplOp.replicaSync.toByte :: (m.hdr.encode ++ (m.payload.bytes ++ tl)) := by
    rw [encode, frame, Message.encode]
    simp
  rw [hsplit, List.getD_eq_getElem?_getD, List.getElem?_append_right (by simp)]
  refine ⟨by simp, ?_⟩
  rw [show (5 : ℕ) = 4 + 1 from rfl, ← List.drop_drop, List.drop_left' (by simp)]
  rfl

theorem drop_encode : (m.encode ++ tl).drop (4 + (frameLen (m.encode ++ tl)).toNat) = tl := by
  rw [toNat_frameLen, size_encode_append, ← length_encode, List.drop_left]

end SyncMessage

namespace State

variable (c : State)

/-- `on_replica_sync` rejects the record: it is not the next one, or `append` does not accept it. -/
def Rejects (m : SyncMessage) : Prop :=
  ∃ p, c.partitionOf m.hdr = some p ∧
    (m.hdr.offset ≠ p.nextOffsetOfWriter ∨ (p.append m.payload c.now).1.accepted = false)

/-- The client after a record. -/
def after (m : SyncMessage) : State := (c.onReplicaSync m.hdr m.payload.bytes).state

/-- None of the records is rejected when its turn comes. -/
def Passes : State → List SyncMessage → Prop
  | _, [] => True
  | c, m :: ms => ¬c.Rejects m ∧ (c.after m).Passes ms

variable {c} {m : SyncMessage}

/-- The records that can be appended are those that are not rejected. -/
theorem takes_iff :
    c.Takes m.hdr (replicaSyncHeaderSize + m.payload.bytes.length) ↔ ¬c.Rejects m := by
  have hsize : m.hdr.payloadSize.toNat = m.payload.bytes.length := by
    rw [m.payloadSize_eq, Payload.toNat_size]
  rw [Takes, Rejects, hsize, not_exists]
  refine forall_congr' fun p => ?_
  rw [not_and, not_or, not_not, Bool.not_eq_false, PartitionStore.accepted_append_iff,
    and_iff_right (Nat.le_refl _)]

end State

/-- The connection is closed and the buffer empty, with no access out of bounds, and the partitions
    are as they were in the state `c`. -/
def CleanAbort (c : State) (o : Outcome State) : Prop :=
  ∃ c', o = .ended ⟨[], c'⟩ ∧ c'.connected = false ∧ c'.partitions = c.partitions

section

variable {c : State} {m : SyncMessage}

/-- A round with a frame at the front is in bounds unless the record is rejected. -/
theorem inBounds_iff_not_rejects (tl : Bytes) :
    Receiver.InBounds State.handleFrame ⟨m.encode ++ tl, c⟩ ↔ ¬c.Rejects m := by
  obtain ⟨hop, hdrop⟩ := m.split_encode tl
  rw [inBounds_iff_framed (m.found tl), Framed]
  dsimp only
  rw [hop, hdrop, m.size_encode_append, Nat.add_sub_cancel,
    List.take_left' (ReplicaSyncHeader.length_encode _), ReplicaSyncHeader.decode_encode,
    State.takes_iff, and_iff_right (m.whole tl), forall_prop_of_true rfl,
    forall_prop_of_true (Nat.le_add_right _ _)]

/-- And then it takes the frame, and appends the record. -/
theorem next_eq (tl : Bytes) :
    Receiver.next State.handleFrame ⟨m.encode ++ tl, c⟩ = ⟨tl, c.after m⟩ := by
  obtain ⟨hop, hdrop⟩ := m.split_encode tl
  have hhandled : (Receiver.handled State.handleFrame ⟨m.encode ++ tl, c⟩).state = c.after m := by
    rw [Receiver.handled_of_pos (m.whole tl).1]
    dsimp only
    rw [hop, hdrop, m.size_encode_append, Nat.add_sub_cancel, State.handleFrame, if_pos rfl, copied,
      if_pos (Nat.le_add_right _ _), List.take_left' (ReplicaSyncHeader.length_encode _),
      ReplicaSyncHeader.decode_encode, List.drop_left' (ReplicaSyncHeader.length_encode _)]
    dsimp only
    rw [State.after]
    congr 1
    refine State.onReplicaSync_congr ?_
    rw [m.take_payload, ← List.append_nil m.payload.bytes, m.take_payload]
  rw [Receiver.next, hhandled, m.drop_encode]

/-- The loop goes on up to a record that is rejected, and no further. -/
theorem frameLoop_of_rejects {ms : List SyncMessage} (hpass : c.Passes ms)
    (hrej : (ms.foldl State.after c).Rejects m) (tl : Bytes) {fuel : ℕ} (hfuel : ms.length < fuel) :
    Receiver.frameLoop State.handleFrame fuel
        ⟨ms.flatMap SyncMessage.encode ++ (m.encode ++ tl), c⟩ =
      .undefined ⟨m.encode ++ tl, ms.foldl State.after c⟩ := by
  induction ms generalizing c fuel with
  | nil =>
    obtain ⟨n, rfl⟩ : ∃ n, fuel = n + 1 := Nat.exists_eq_succ_of_ne_zero (Nat.ne_zero_of_lt hfuel)
    have hout : ¬Receiver.InBounds State.handleFrame ⟨m.encode ++ tl, c⟩ := fun h =>
      (inBounds_iff_not_rejects tl).1 h hrej
    rw [Receiver.frameLoop]
    exact (if_pos (m.found tl)).trans (if_neg hout)
  | cons m' ms ih =>
    obtain ⟨n, rfl⟩ : ∃ n, fuel = n + 1 := Nat.exists_eq_succ_of_ne_zero (Nat.ne_zero_of_lt hfuel)
    rw [List.flatMap_cons, List.append_assoc, Receiver.frameLoop]
    refine (if_pos (m'.found _)).trans ((if_pos ?_).trans ?_)
    · exact (inBounds_iff_not_rejects _).2 hpass.1
    · rw [next_eq]
      exact ih hpass.2 hrej (Nat.lt_of_succ_lt_succ hfuel)

end

/-- A record that `append` rejects leaves its callback behind, which is called when another record
    gets its offset. -/
theorem partitionOf_after_of_refused {c : State} {m : SyncMessage} {p : PartitionStore SyncAck}
    (hp : c.partitionOf m.hdr = some p) (hnext : m.hdr.offset = p.nextOffsetOfWriter)
    (hcommitted : ¬m.hdr.offset < p.committedOffset)
    (hrej : (p.append m.payload c.now).1.accepted = false) :
    (c.after m).partitionOf m.hdr =
      some { p with onceCallbacks := p.onceCallbacks ++ [(m.hdr.offset, c.ackOf m.hdr)] } := by
  have hpayload : Payload.take m.hdr.payloadSize m.payload.bytes = m.payload := by
    rw [← List.append_nil m.payload.bytes, m.take_payload]
  have hcallback : (p.setOnceCommitCallback m.hdr.offset (c.ackOf m.hdr)).2 =
      { p with onceCallbacks := p.onceCallbacks ++ [(m.hdr.offset, c.ackOf m.hdr)] } := by
    rw [PartitionStore.setOnceCommitCallback, if_neg hcommitted]
  have hrej' : ((p.setOnceCommitCallback m.hdr.offset (c.ackOf m.hdr)).2.append m.payload
      c.now).1.accepted = false := by
    rw [← Bool.not_eq_true, State.accepted_iff, ← PartitionStore.accepted_append_iff, hrej]
    exact Bool.false_ne_true
  rw [State.after, State.onReplicaSync, hp]
  dsimp only
  rw [if_neg (not_not.2 hnext), hpayload, State.partitionOf]
  dsimp only
  rw [Function.update_self, PartitionStore.append_of_rejected hrej', hcallback]

/-- There are at least as many bytes as frames. -/
theorem length_le_length_flatMap (ms : List SyncMessage) :
    ms.length ≤ (ms.flatMap SyncMessage.encode).length := by
  induction ms with
  | nil => exact Nat.le_refl _
  | cons m ms ih =>
    rw [List.flatMap_cons, List.length_append, List.length_cons, m.length_encode]
    omega

/-- **Rejected records.** Wherever a record is in a buffer of frames, if it is rejected the client
    does not end with a clean abort. -/
theorem not_cleanAbort {c : State} {ms : List SyncMessage} (hpass : c.Passes ms) {m : SyncMessage}
    (hrej : (ms.foldl State.after c).Rejects m) (tl : Bytes) :
    let buf := ms.flatMap SyncMessage.encode ++ (m.encode ++ tl)
    ¬CleanAbort (ms.foldl State.after c)
      (Receiver.frameLoop State.handleFrame buf.length ⟨buf, c⟩) := by
  rintro buf ⟨c', hended, -⟩
  have hfuel : ms.length < buf.length := by
    have := length_le_length_flatMap ms
    rw [List.length_append, List.length_append, m.length_encode]
    omega
  rw [frameLoop_of_rejects hpass hrej tl hfuel] at hended
  cases hended

/-- A client of a broker with one partition, of the topic `t`. -/
def lone (p : PartitionStore SyncAck) : State where
  brokerId := 1
  connected := true
  partitions x := if x = ([116], 0) then some p else none
  outAcks := []
  now := 0

/-- A record for it, of one byte. -/
def loneRecord (offset : UInt64) : SyncMessage where
  hdr := { topic := ⟨[116], by decide⟩, partition := 0, offset, payloadSize := 1 }
  payload := ⟨[7], Payload.length_seven_lt⟩
  payloadSize_eq := rfl
  fits := by decide

theorem partitionOf_lone (p : PartitionStore SyncAck) (offset : UInt64) :
    (lone p).partitionOf (loneRecord offset).hdr = some p := by
  simp [State.partitionOf, lone, loneRecord]

theorem frameLoop_lone {p : PartitionStore SyncAck} {offset : UInt64}
    (hrej : (lone p).Rejects (loneRecord offset)) :
    Receiver.frameLoop State.handleFrame (loneRecord offset).encode.length
      ⟨(loneRecord offset).encode, lone p⟩ = .undefined ⟨(loneRecord offset).encode, lone p⟩ := by
  have hpos : 0 < (loneRecord offset).encode.length := by
    rw [SyncMessage.length_encode]
    omega
  simpa using @frameLoop_of_rejects (lone p) (loneRecord offset) [] trivial hrej [] _ hpos

/-- A record behind a gap. -/
theorem not_cleanAbort_gap :
    let c := lone (PartitionStore.open ∅ {})
    ¬CleanAbort c (Receiver.frameLoop State.handleFrame ((loneRecord 1).encode ++ []).length
      ⟨(loneRecord 1).encode ++ [], c⟩) :=
  @not_cleanAbort (lone (PartitionStore.open ∅ {})) [] trivial (loneRecord 1)
    ⟨_, partitionOf_lone _ _, .inl (by decide)⟩ []

/-- With a record behind a gap, the loop comes to an access out of bounds, and so it does with one
    for a partition that is shut down. The latter leaves its callback behind. -/
theorem rejected_not_clean :
    let p : PartitionStore SyncAck := PartitionStore.open ∅ {}
    let closed : PartitionStore SyncAck := { p with shutdown := true }
    Receiver.frameLoop State.handleFrame (loneRecord 1).encode.length
        ⟨(loneRecord 1).encode, lone p⟩ = .undefined ⟨(loneRecord 1).encode, lone p⟩ ∧
      Receiver.frameLoop State.handleFrame (loneRecord 0).encode.length
        ⟨(loneRecord 0).encode, lone closed⟩ = .undefined ⟨(loneRecord 0).encode, lone closed⟩ ∧
      ((lone closed).after (loneRecord 0)).partitionOf (loneRecord 0).hdr =
        some { closed with onceCallbacks := [(0, (([116], 0), ⟨0, 1, 1⟩))] } := by
  intro p closed
  have hgap : (lone p).Rejects (loneRecord 1) := ⟨_, partitionOf_lone _ _, .inl (by decide)⟩
  have hclosed : (lone closed).Rejects (loneRecord 0) := ⟨_, partitionOf_lone _ _, .inr rfl⟩
  refine ⟨frameLoop_lone hgap, frameLoop_lone hclosed, ?_⟩
  exact partitionOf_after_of_refused (partitionOf_lone _ _) rfl (by decide) rfl

end ReplicationClient

end Fell.Replication
