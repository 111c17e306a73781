import Fell.Replication.Follower
import Fell.Replication.ReplicaSync

/-!
# The receive loops of replication

`ReplicationServer::on_readable` and `ReplicationClient::on_readable` have the same loop: the frames
that are whole are taken from the front of the receive buffer, handed to `handle_frame`, and erased.
The length field is not checked, the sums made with it are `uint32_t`s, and a handler may empty or
destroy the buffer, from which the loop then erases. Here the loop is modelled with every access it
makes to the buffer, and whatever may follow on one that is out of bounds.

* `Receiver.inBounds_iff`: what is to hold for a round to be in bounds;
* `ReplicationClient.inBounds_iff_framed`, `ReplicationServer.inBounds_iff_framed`: what it comes to
  for the two handlers;
* `receive_inBounds_iff`: in which runs all rounds are in bounds.
-/

namespace Fell.Replication

open Platform Storage

variable {σ : Type}

/-! ## The loop -/

/-- What a handler does. -/
structure Handled (σ : Type) where
  state : σ
  /-- The pieces that it reads, from the byte behind the opcode on: where they begin, and their
      lengths. -/
  reads : List (ℕ × ℕ) := []
  /-- The receive buffer is left as it was, and not emptied or destroyed. -/
  keeps : Bool := true

/-- All that is read is in the first `size` bytes, and the buffer is left. -/
def Handled.Fits (h : Handled σ) (size : ℕ) : Prop :=
  (∀ x ∈ h.reads, x.1 + x.2 ≤ size) ∧ h.keeps = true

/-- `handle_frame`, of an opcode, the bytes behind it and the size of the payload. -/
abbrev Handler (σ : Type) := σ → UInt8 → Bytes → ℕ → Handled σ

/-- A receive buffer, and the state of the broker. -/
structure Receiver (σ : Type) where
  recvBuf : Bytes
  state : σ

/-- The length field at the front of the buffer. -/
def frameLen (buf : Bytes) : UInt32 := be32ToHost (buf.take 4)

theorem toNat_frameLen (buf : Bytes) : (frameLen buf).toNat = Message.size 4 buf :=
  toNat_be32ToHost_take buf

/-- The loop finds a frame. The sum is a `uint32_t`. -/
def Found (buf : Bytes) : Prop := 5 ≤ buf.length ∧ (4 + frameLen buf).toNat ≤ buf.length

instance (buf : Bytes) : Decidable (Found buf) := inferInstanceAs (Decidable (_ ∧ _))

/-- An access to a piece of the buffer, which has `size` bytes then. -/
structure Access where
  start : ℕ
  length : ℕ
  size : ℕ
  deriving DecidableEq

/-- The access is to bytes of the buffer, and of the frame at the front of it. -/
def Access.Within (a : Access) (frame : ℕ) : Prop :=
  a.start + a.length ≤ frame ∧ a.start + a.length ≤ a.size

namespace Receiver

variable (handle : Handler σ) (r : Receiver σ)

/-- The handling of the frame at the front. -/
def handled : Handled σ :=
  handle r.state (r.recvBuf.getD 4 0) (r.recvBuf.drop 5) (frameLen r.recvBuf - 1).toNat

/-- The accesses of a round: the length field, the opcode, what the handler reads, and the bytes
    erased. The iterator is moved twice, so what is erased is not reckoned as a `uint32_t`. -/
def accesses : List Access :=
  let size := r.recvBuf.length
  let h := r.handled handle
  [⟨0, 4, size⟩, ⟨4, 1, size⟩] ++ h.reads.map (fun x => ⟨5 + x.1, x.2, size⟩) ++
    [⟨0, 4 + (frameLen r.recvBuf).toNat, if h.keeps then size else 0⟩]

/-- All accesses of a round are within the frame. -/
def InBounds : Prop := ∀ a ∈ r.accesses handle, a.Within (4 + (frameLen r.recvBuf).toNat)

/-- The receiver after a round in bounds. -/
def next : Receiver σ :=
  ⟨r.recvBuf.drop (4 + (frameLen r.recvBuf).toNat), (r.handled handle).state⟩

variable {handle r}

/-- The size that the handler is given, if the length field is not zero. -/
theorem toNat_frameLen_sub_one {buf : Bytes} (hpos : 0 < Message.size 4 buf) :
    (frameLen buf - 1).toNat = Message.size 4 buf - 1 := by
  rw [← toNat_frameLen] at hpos ⊢
  have hle : 1 ≤ frameLen buf := UInt32.le_iff_toNat_le.2 hpos
  rw [UInt32.toNat_sub_of_le _ _ hle]
  rfl

theorem handled_of_pos (hpos : 0 < Message.size 4 r.recvBuf) :
    r.handled handle = handle r.state (r.recvBuf.getD 4 0) (r.recvBuf.drop 5)
      (Message.size 4 r.recvBuf - 1) := by
  rw [handled, toNat_frameLen_sub_one hpos]

/-- The accesses, one by one. -/
theorem forall_accesses {P : Access → Prop} :
    (∀ a ∈ r.accesses handle, P a) ↔ P ⟨0, 4, r.recvBuf.length⟩ ∧ P ⟨4, 1, r.recvBuf.length⟩ ∧
      (∀ x ∈ (r.handled handle).reads, P ⟨5 + x.1, x.2, r.recvBuf.length⟩) ∧
      P ⟨0, 4 + Message.size 4 r.recvBuf,
        if (r.handled handle).keeps then r.recvBuf.length else 0⟩ := by
  rw [accesses, toNat_frameLen]
  simp only [List.forall_mem_append, List.forall_mem_cons, List.forall_mem_map, List.not_mem_nil,
    false_imp_iff, implies_true, and_true, and_assoc]

/-- A round is in bounds if there is a whole frame, the handler reads within its payload, and the
    buffer is left to the loop. -/
theorem inBounds_iff (hfound : Found r.recvBuf) :
    r.InBounds handle ↔ Message.Whole 4 r.recvBuf ∧
      (r.handled handle).Fits (Message.size 4 r.recvBuf - 1) := by
  have hfive := hfound.1
  rw [InBounds, forall_accesses, toNat_frameLen]
  simp only [Access.Within, Message.Whole, Handled.Fits]
  constructor
  · rintro ⟨-, hop, hreads, herase⟩
    -- From a buffer that is not there, nothing can be erased.
    have hkeeps : (r.handled handle).keeps = true := by
      by_contra hdrop
      rw [if_neg hdrop] at herase
      omega
    rw [if_pos hkeeps] at herase
    refine ⟨⟨by omega, by omega⟩, fun x hx => ?_, hkeeps⟩
    have := (hreads x hx).1
    omega
  · rintro ⟨⟨hpos, hle⟩, hreads, hkeeps⟩
    rw [if_pos hkeeps]
    refine ⟨⟨by omega, by omega⟩, ⟨by omega, by omega⟩, fun x hx => ?_, by omega, by omega⟩
    have := hreads x hx
    exact ⟨by omega, by omega⟩

/-- The bytes of the frame are taken from the buffer. -/
theorem length_next (hfound : Found r.recvBuf) :
    (r.next handle).recvBuf.length < r.recvBuf.length := by
  have hfive := hfound.1
  rw [next, List.length_drop]
  omega

/-! ## Runs -/

/-- What happens in a step. -/
inductive Event
  | received (chunk : Bytes)
  | framed
  | closed
  | other

/-- A step of `on_readable`, or of another thread. -/
inductive Step (handle : Handler σ) (r : Receiver σ) : Event → Receiver σ → Prop
  /-- The loop has ended, and bytes are received. -/
  | receive (chunk : Bytes) (h : ¬Found r.recvBuf) :
      Step handle r (.received chunk) { r with recvBuf := r.recvBuf ++ chunk }
  /-- The peer has closed the connection, or there is an error. -/
  | close (h : ¬Found r.recvBuf) : Step handle r .closed { r with recvBuf := [] }
  | frame (hfound : Found r.recvBuf) (h : r.InBounds handle) : Step handle r .framed (r.next handle)
  /-- On an access out of bounds, anything may follow. -/
  | undefined (hfound : Found r.recvBuf) (h : ¬r.InBounds handle) (r' : Receiver σ) :
      Step handle r .framed r'
  | other (state : σ) : Step handle r .other { r with state := state }

/-- A step that is safe, if it is a round of the loop: it is in bounds and takes bytes from the
    buffer. -/
def SafeStep (handle : Handler σ) (r : Receiver σ) (e : Event) (r' : Receiver σ) : Prop :=
  Step handle r e r' ∧
    (e = .framed → r.InBounds handle ∧ r'.recvBuf.length < r.recvBuf.length)

theorem Step.found {r' : Receiver σ} (hst : Step handle r .framed r') : Found r.recvBuf := by
  cases hst with
  | frame hfound _ => exact hfound
  | undefined hfound _ _ => exact hfound

/-- The rounds that are safe are those in bounds. -/
theorem Step.safe_iff {e : Event} {r' : Receiver σ} (hst : Step handle r e r') :
    SafeStep handle r e r' ↔ (e = .framed → r.InBounds handle) := by
  refine ⟨fun h he => (h.2 he).1, fun h => ⟨hst, fun he => ⟨h he, ?_⟩⟩⟩
  subst he
  cases hst with
  | frame hfound _ => exact length_next hfound
  | undefined _ hout _ => exact absurd (h rfl) hout

/-- If `P` says which rounds are in bounds, the runs that are safe are those whose rounds meet
    `P`. -/
theorem run_safe_iff {P : Receiver σ → Prop}
    (hP : ∀ r : Receiver σ, Found r.recvBuf → (r.InBounds handle ↔ P r)) {r₀ : Receiver σ}
    {es : List Event} :
    Run (SafeStep handle) r₀ es r ↔
      Run (Guarded (Step handle) fun r e => e = .framed → P r) r₀ es r := by
  constructor
  · refine Run.mono fun {r e r'} h => ⟨h.1, fun he => ?_⟩
    subst he
    exact (hP r h.1.found).1 (h.1.safe_iff.1 h rfl)
  · refine Run.mono fun {r e r'} h => h.1.safe_iff.2 fun he => ?_
    subst he
    exact (hP r h.1.found).2 (h.2 rfl)

end Receiver

/-- A handler copies a struct of `n` bytes from the front of the payload, if it has as many, and
    goes on. -/
def copied (st : σ) (size n : ℕ) (handle : Handled σ) : Handled σ :=
  if n ≤ size then { handle with reads := (0, n) :: handle.reads } else { state := st }

theorem fits_copied {st : σ} {size n : ℕ} {h : Handled σ} :
    (copied st size n h).Fits size ↔ (n ≤ size → h.Fits size) := by
  rw [copied]
  split_ifs with hn
  · rw [Handled.Fits, List.forall_mem_cons, and_assoc]
    exact ⟨fun h _ => h.2, fun h => ⟨(Nat.zero_add n).trans_le hn, h hn⟩⟩
  · exact iff_of_true ⟨nofun, rfl⟩ fun h => absurd h hn

/-! ## The client -/

namespace ReplicationClient

/-- A partition and the acknowledgement of a record of it. -/
abbrev SyncAck := (Bytes × UInt16) × ReplicaAck

/-- The client without its receive buffer, and the partitions of its broker. -/
structure State where
  brokerId : UInt32
  /-- `fd_` is a socket. -/
  connected : Bool
  /-- `get_partition`. -/
  partitions : Bytes × UInt16 → Option (PartitionStore SyncAck)
  outAcks : List SyncAck
  /-- The time, in milliseconds. -/
  now : UInt64

namespace State

variable (c : State)

/-- The partition that a header names. -/
def partitionOf (hdr : ReplicaSyncHeader) : Option (PartitionStore SyncAck) :=
  c.partitions (hdr.topic.name, hdr.partition)

/-- The acknowledgement that the callback of a record queues. -/
def ackOf (hdr : ReplicaSyncHeader) : SyncAck :=
  ((hdr.topic.name, hdr.partition), ⟨hdr.epoch, hdr.offset + 1, c.brokerId⟩)

/-- `on_replica_sync`, of a header and the bytes behind it. -/
def onReplicaSync (hdr : ReplicaSyncHeader) (payload : Bytes) : Handled State :=
  match c.partitionOf hdr with
  | none => { state := c }
  | some p =>
    if hdr.offset ≠ p.nextOffsetOfWriter then
      { state := { c with connected := false }, keeps := false }
    else
      let (fired, p) := p.setOnceCommitCallback hdr.offset (c.ackOf hdr)
      let (result, p) := p.append (.take hdr.payloadSize payload) c.now
      { state :=
          { c with
            connected := c.connected && result.accepted
            partitions := Function.update c.partitions (hdr.topic.name, hdr.partition) p
            outAcks := c.outAcks ++ fired }
        reads := [(replicaSyncHeaderSize, hdr.payloadSize.toNat)]
        keeps := result.accepted }

/-- `handle_frame`. -/
def handleFrame : Handler State := fun c opcode payload size =>
  if opcode = ReplOp.replicaSync.toByte then
    copied c size replicaSyncHeaderSize
      (c.onReplicaSync (.decode (payload.take replicaSyncHeaderSize))
        (payload.drop replicaSyncHeaderSize))
  else { state := c } -- Nothing is to be done on `REPLICA_SYNC_END`.

/-- The record of a header can be appended, and the payload is in a frame with `size` bytes behind
    the opcode. -/
def Takes (hdr : ReplicaSyncHeader) (size : ℕ) : Prop :=
  ∀ p, c.partitionOf hdr = some p → hdr.offset = p.nextOffsetOfWriter ∧
    replicaSyncHeaderSize + hdr.payloadSize.toNat ≤ size ∧ p.shutdown = false ∧
      ¬p.queueFull hdr.payloadSize.toNat

variable {c}

/-- The callback makes no difference to whether a record is accepted. -/
theorem accepted_iff {p : PartitionStore SyncAck} {offset : UInt64} {cb : SyncAck}
    {payload : Payload} {now : UInt64} :
    ((p.setOnceCommitCallback offset cb).2.append payload now).1.accepted = true ↔
      p.shutdown = false ∧ ¬p.queueFull payload.bytes.length := by
  rw [PartitionStore.setOnceCommitCallback_snd]
  exact PartitionStore.accepted_append_iff

theorem fits_onReplicaSync {hdr : ReplicaSyncHeader} {payload : Bytes} {size : ℕ}
    (hsize : size ≤ replicaSyncHeaderSize + payload.length) :
    (c.onReplicaSync hdr payload).Fits size ↔ c.Takes hdr size := by
  rw [onReplicaSync, Takes]
  cases hp : c.partitionOf hdr with
  | none => exact iff_of_true ⟨nofun, rfl⟩ nofun
  | some p =>
    simp only [Option.some.injEq, forall_eq']
    split_ifs with hoff
    · exact iff_of_false (fun h => Bool.false_ne_true h.2) fun h => hoff h.1
    · rw [Handled.Fits, List.forall_mem_singleton, accepted_iff, and_iff_right (not_not.1 hoff)]
      refine and_congr_right fun hle => ?_
      -- The frame has the whole payload.
      have hlen : (Payload.take hdr.payloadSize payload).bytes.length = hdr.payloadSize.toNat := by
        rw [Payload.take, List.length_take]
        omega
      rw [hlen]

end State

/-- A whole frame is at the front of the buffer, and a record in it can be appended. -/
def Framed (r : Receiver State) : Prop :=
  Message.Whole 4 r.recvBuf ∧
    (r.recvBuf.getD 4 0 = ReplOp.replicaSync.toByte →
      replicaSyncHeaderSize ≤ Message.size 4 r.recvBuf - 1 →
        r.state.Takes (.decode ((r.recvBuf.drop 5).take replicaSyncHeaderSize))
          (Message.size 4 r.recvBuf - 1))

theorem inBounds_iff_framed {r : Receiver State} (hfound : Found r.recvBuf) :
    r.InBounds State.handleFrame ↔ Framed r := by
  rw [Receiver.inBounds_iff hfound, Framed]
  refine and_congr_right fun hwhole => ?_
  have hle := hwhole.2
  rw [Receiver.handled_of_pos hwhole.1, State.handleFrame]
  split_ifs with hop
  · rw [fits_copied, forall_prop_of_true hop]
    refine forall_congr' fun hsize => State.fits_onReplicaSync ?_
    rw [List.length_drop, List.length_drop]
    omega
  · exact iff_of_true ⟨nofun, rfl⟩ fun h => absurd h hop

end ReplicationClient

/-! ## The server -/

/-- The request that is copied from the front of a payload. -/
def FetchLogReq.decode (bs : Bytes) : FetchLogReq where
  topicLen := bs.headD 0
  topic := (bs.drop 1 ++ List.replicate 255 0).take 255
  partition := be16ToHost ((bs.drop 256).take 2)
  startOffset := be64ToHost ((bs.drop 258).take 8)
  followerId := be32ToHost ((bs.drop 266).take 4)
  length_topic := by
    rw [List.length_take, List.length_append, List.length_replicate]
    omega

/-- What the server does to the state of the broker, the registered callbacks included. -/
structure ReplicationServer (σ : Type) where
  /-- `get_partition` finds a partition. -/
  hasPartition : σ → Bytes → UInt16 → Bool
  /-- The rest of `handle_fetch_log`, of a partition that is found. -/
  serveLog : σ → FetchLogReq → σ
  handleReplicaAck : σ → Bytes → σ
  handleHeartbeat : σ → Bytes → σ
  handleLeaderElection : σ → Bytes → σ

namespace ReplicationServer

/-- `sizeof(FetchLogReq)`. -/
def fetchLogReqSize : ℕ := 270

/-- `sizeof(ReplicaAck)`. -/
def replicaAckSize : ℕ := 274

/-- `sizeof(Heartbeat)`. -/
def heartbeatSize : ℕ := 20

/-- `sizeof(LeaderElection)`. -/
def leaderElectionSize : ℕ := 274

variable (server : ReplicationServer σ)

/-- `handle_fetch_log`. The buffer that the loop works on is destroyed if the partition is not
    found. -/
def handleFetchLog (st : σ) (req : FetchLogReq) : Handled σ :=
  if server.hasPartition st req.name req.partition then { state := server.serveLog st req }
  else { state := st, keeps := false }

/-- `handle_frame`. -/
def handleFrame : Handler σ := fun st opcode payload size =>
  if opcode = ReplOp.fetchLog.toByte then
    copied st size fetchLogReqSize (server.handleFetchLog st (.decode payload))
  else if opcode = ReplOp.replicaAck.toByte then
    copied st size replicaAckSize
      { state := server.handleReplicaAck st (payload.take replicaAckSize) }
  else if opcode = ReplOp.heartbeat.toByte then
    copied st size heartbeatSize { state := server.handleHeartbeat st (payload.take heartbeatSize) }
  else if opcode = ReplOp.leaderElection.toByte then
    copied st size leaderElectionSize
      { state := server.handleLeaderElection st (payload.take leaderElectionSize) }
  else { state := st }

/-- A whole frame is at the front of the buffer, and the partition of a request in it is found. -/
def Framed (r : Receiver σ) : Prop :=
  Message.Whole 4 r.recvBuf ∧
    (r.recvBuf.getD 4 0 = ReplOp.fetchLog.toByte →
      fetchLogReqSize ≤ Message.size 4 r.recvBuf - 1 →
        let req := FetchLogReq.decode (r.recvBuf.drop 5)
        server.hasPartition r.state req.name req.partition = true)

variable {server}

theorem fits_handleFetchLog {st : σ} {req : FetchLogReq} {size : ℕ} :
    (server.handleFetchLog st req).Fits size ↔
      server.hasPartition st req.name req.partition = true := by
  rw [handleFetchLog]
  split_ifs with hknown
  · exact iff_of_true ⟨nofun, rfl⟩ hknown
  · exact iff_of_false (fun h => Bool.false_ne_true h.2) hknown

theorem inBounds_iff_framed {r : Receiver σ} (hfound : Found r.recvBuf) :
    r.InBounds server.handleFrame ↔ server.Framed r := by
  rw [Receiver.inBounds_iff hfound, Framed]
  refine and_congr_right fun hwhole => ?_
  rw [Receiver.handled_of_pos hwhole.1, handleFrame]
  split_ifs with hop
  · rw [fits_copied, forall_prop_of_true hop]
    exact forall_congr' fun _ => fits_handleFetchLog
  all_goals
    refine iff_of_true ?_ fun h => absurd h hop
    first
      | exact fits_copied.2 fun _ => ⟨nofun, rfl⟩
      | exact ⟨nofun, rfl⟩

end ReplicationServer

/-- **The receive loops.** Whatever is received, in whichever chunks, and whatever other threads do,
    all rounds of a run are in bounds and take bytes from the buffer if and only if in each there
    is a whole frame at the front of the buffer, and it is, for the client, no record that cannot
    be appended to a partition it has, and for the server, no request for the log of a partition
    it has not. -/
theorem receive_inBounds_iff (server : ReplicationServer σ) (es : List Receiver.Event)
    (c₀ c : Receiver ReplicationClient.State) (s₀ s : Receiver σ) :
    (Run (Receiver.SafeStep ReplicationClient.State.handleFrame) c₀ es c ↔
      Run (Guarded (Receiver.Step ReplicationClient.State.handleFrame) fun r e =>
        e = .framed → ReplicationClient.Framed r) c₀ es c) ∧
    (Run (Receiver.SafeStep server.handleFrame) s₀ es s ↔
      Run (Guarded (Receiver.Step server.handleFrame) fun r e =>
        e = .framed → server.Framed r) s₀ es s) :=
  ⟨Receiver.run_safe_iff fun _ => ReplicationClient.inBounds_iff_framed,
    Receiver.run_safe_iff fun _ => ReplicationServer.inBounds_iff_framed⟩

/-- A client that has received five bytes erases `2 ^ 32 + 3` of them, and a server that is asked
    for the log of a partition it has not erases the request from a buffer that is gone. -/
theorem not_receive_inBounds :
    let c : ReplicationClient.State := ⟨0, true, fun _ => none, [], 0⟩
    let client : Receiver ReplicationClient.State := ⟨[255, 255, 255, 255, 0], c⟩
    let server : ReplicationServer Unit :=
      ⟨fun _ _ _ => false, fun st _ => st, fun st _ => st, fun st _ => st, fun st _ => st⟩
    let request : Bytes := [0, 0, 1, 15, ReplOp.fetchLog.toByte] ++ List.replicate 270 0
    (Run (Receiver.Step ReplicationClient.State.handleFrame) ⟨[], c⟩ [.received client.recvBuf]
        client ∧
      Found client.recvBuf ∧
      client.accesses ReplicationClient.State.handleFrame =
        [⟨0, 4, 5⟩, ⟨4, 1, 5⟩, ⟨0, 2 ^ 32 + 3, 5⟩] ∧
      ∀ r, ¬Receiver.SafeStep ReplicationClient.State.handleFrame client .framed r) ∧
    (Run (Receiver.Step server.handleFrame) ⟨[], ()⟩ [.received request] ⟨request, ()⟩ ∧
      Found request ∧
      Receiver.accesses server.handleFrame ⟨request, ()⟩ =
        [⟨0, 4, 275⟩, ⟨4, 1, 275⟩, ⟨5, 270, 275⟩, ⟨0, 275, 0⟩] ∧
      ∀ r, ¬Receiver.SafeStep server.handleFrame ⟨request, ()⟩ .framed r) := by
  intro c client server request
  have hclient : client.accesses ReplicationClient.State.handleFrame =
      [⟨0, 4, 5⟩, ⟨4, 1, 5⟩, ⟨0, 2 ^ 32 + 3, 5⟩] := by decide +kernel
  have hserver : Receiver.accesses server.handleFrame ⟨request, ()⟩ =
      [⟨0, 4, 275⟩, ⟨4, 1, 275⟩, ⟨5, 270, 275⟩, ⟨0, 275, 0⟩] := by decide +kernel
  refine ⟨⟨.single (.receive _ (by decide)), by decide +kernel, hclient, fun r h => ?_⟩,
    .single (.receive _ (by decide)), by decide +kernel, hserver, fun r h => ?_⟩
  · have herase := ((h.2 rfl).1 ⟨0, 2 ^ 32 + 3, 5⟩ (by rw [hclient]; decide)).2
    exact absurd herase (by decide)
  · have herase := ((h.2 rfl).1 ⟨0, 275, 0⟩ (by rw [hserver]; decide)).2
    exact absurd herase (by decide)

end Fell.Replication
