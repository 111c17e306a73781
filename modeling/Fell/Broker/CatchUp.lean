import Fell.Broker.DeferredAck
import Fell.Replication.ReplProtocol
import Fell.Storage.Visibility

/-!
# Catching up and streaming

A follower that connects is sent the log from the offset it asks for on, by
`handle_fetch_log` of the replication server, and from its registration on also what is
committed, by the worker of the replica manager (`replication/replication_server.cpp`,
`replication/replica_manager.cpp`). The two threads share the sockets, and a frame takes
them three or four calls of `send_data`.

The system is put together from the partition store, with its readers, and the leader; a
step more of the worker is what it sends to the followers, with `fds_mu_` held. A socket
is open all the time, and a call of `send_data` transfers all its bytes, so that what is on
a socket is what the events of a run tell.

Left out: requests for partitions that do not exist, or have no replica manager yet.

* `Run.live`: a run is a run of the partition store and its readers;
* `Step.awaiting_eq`, `Run.awaiting_isSuffix`: what is committed and not yet streamed is
  the end of the log;
* `sent_or_awaited`: when catching up ends, every committed record from the start offset on
  has been sent, or the worker is going to send it.
-/

namespace Fell.Broker

open Platform Replication Storage

/-- The threads that fetch from a partition. -/
inductive FetchThread
  | eventLoop
  | replicationServer
  deriving DecidableEq

/-- A call of `send_data`. -/
structure Send (σ : Type) where
  socket : σ
  data : Bytes
  /-- The record whose frame it is the last piece of. Nothing is sent of this. -/
  completes : Option Record

/-- A frame is sent piece by piece. -/
def sendAll {σ : Type} (socket : σ) (completes : Option Record) : List Bytes → List (Send σ)
  | [] => []
  | data :: rest =>
    ⟨socket, data, if rest = [] then completes else none⟩ :: sendAll socket completes rest

section

variable {σ : Type} {socket : σ} {completes : Option Record}

/-- What is left to send of a frame is sent the same way. -/
theorem sendAll_eq_cons {pieces : List Bytes} {x : Send σ} {rest : List (Send σ)}
    (h : sendAll socket completes pieces = x :: rest) :
    ∃ data pieces', pieces = data :: pieces' ∧ rest = sendAll socket completes pieces' ∧
      x = ⟨socket, data, if pieces' = [] then completes else none⟩ := by
  cases pieces with
  | nil => exact absurd h (by simp [sendAll])
  | cons data pieces' =>
    obtain ⟨hx, hrest⟩ := List.cons.inj h
    exact ⟨data, pieces', rfl, hrest.symm, hx.symm⟩

theorem sendAll_eq_nil {pieces : List Bytes} :
    sendAll socket completes pieces = [] ↔ pieces = [] := by
  cases pieces <;> simp [sendAll]

/-- One of the pieces of a frame is the last. -/
theorem exists_mem_sendAll {pieces : List Bytes} (h : pieces ≠ []) :
    ∃ x ∈ sendAll socket completes pieces, x.socket = socket ∧ x.completes = completes := by
  induction pieces with
  | nil => exact absurd rfl h
  | cons data rest ih =>
    by_cases hrest : rest = []
    · exact ⟨_, List.mem_cons_self, rfl, if_pos hrest⟩
    · obtain ⟨x, hx, hprop⟩ := ih hrest
      exact ⟨x, List.mem_cons_of_mem _ hx, hprop⟩

theorem framePieces_ne_nil (op : ReplOp) (hdr : ReplicaSyncHeader) (payload : Payload) :
    framePieces op hdr payload ≠ [] := by
  simp [framePieces]

end

/-- A call of `handle_fetch_log`: the socket and the offset of the request, and the next offset
    to send. -/
structure CatchUp (σ : Type) where
  socket : σ
  startOffset : UInt64
  offset : UInt64

/-- Where the replication server is in `handle_fetch_log`. -/
inductive Server (σ : Type)
  | idle
  | requested (followerId : UInt32) (startOffset : UInt64) (socket : σ)
  /-- The follower is registered. At the condition of the loop. -/
  | looping (c : CatchUp σ)
  | fetching (c : CatchUp σ)
  /-- In the loop over the messages, with what is left to send of the current one. -/
  | sending (c : CatchUp σ) (sends : List (Send σ)) (msgs : List Record)
  /-- Behind the loop, with what is left to send of `REPLICA_SYNC_END`. -/
  | ending (c : CatchUp σ) (sends : List (Send σ))
  /-- `fetch` has thrown an exception. -/
  | failed

/-- Where the worker is in the last part of `worker_loop`. -/
inductive Streamer (σ : Type)
  | idle
  /-- The progress of the leader is recorded. -/
  | ready (qc : QueuedCommit) (epoch : UInt32)
  /-- `fds_mu_` is held, and this is left to send. -/
  | sending (sends : List (Send σ))

namespace Streamer

variable {σ : Type}

/-- The records the worker is about to send. -/
def toSend : Streamer σ → List Record
  | .ready qc _ => qc.records
  | _ => []

/-- What the worker is still to send, with the lock held. -/
def sends : Streamer σ → List (Send σ)
  | .sending sends => sends
  | _ => []

end Streamer

/-- A partition on its leader, with the threads that send it to the followers. -/
structure Feed (κ σ : Type) where
  live : Live κ FetchThread
  leader : Leader
  streamer : Streamer σ := .idle
  followerFds : List (UInt32 × σ) := []
  server : Server σ := .idle

namespace Feed

variable {κ σ : Type}

section

variable (s : Feed κ σ)

/-- `committed_offset`. -/
def committedOffset : UInt64 := s.live.store.committedOffset

/-- The pieces of the frame of a record. A request names the topic of the partition, so that the
    headers of the two threads agree. -/
def syncSends (epoch : UInt32) (socket : σ) (r : Record) : List (Send σ) :=
  sendAll socket (some r) <| framePieces .replicaSync
    (.ofRecord (.ofName s.leader.partition.topic) s.leader.partition.partitionIdx epoch r) r.payload

/-- The pieces of `REPLICA_SYNC_END`. -/
def endSends (socket : σ) : List (Send σ) :=
  sendAll socket none <| framePieces .replicaSyncEnd
    { topic := .ofName s.leader.partition.topic, partition := s.leader.partition.partitionIdx }
    .empty

/-- `set_follower_fd`. -/
def setFollowerFd (followerId : UInt32) (socket : σ) : List (UInt32 × σ) :=
  s.followerFds.filter (·.1 ≠ followerId) ++ [(followerId, socket)]

/-- What the commit callback makes of a step of the store. -/
def notified (e : Live.Event κ FetchThread) : Leader :=
  { s.leader with
    manager :=
      match e with
      | .stored e => Publishing.commitCallback s.leader.manager e
      | _ => s.leader.manager }

end

/-- What happens in a step. -/
inductive Event (κ σ : Type)
  | lived (e : Live.Event κ FetchThread)
  | led (e : Leader.Event)
  | finished
  | locked (qc : QueuedCommit)
  | unlocked
  | sent (x : Send σ)
  | requested (followerId : UInt32) (startOffset : UInt64) (socket : σ)
  | registered (followerId : UInt32) (startOffset : UInt64) (socket : σ)
  | entered
  | framed (r : Record)
  | looped
  | left
  | ended

/-- The steps of the leader in which the worker neither takes up a commit nor ends with it. -/
def Amid : Leader.Event → Prop
  | .enqueued _ | .popped | .finished => False
  | _ => True

/-- The number of records `handle_fetch_log` asks for. -/
def fetchCount : ℕ := 128

/-- A step of one of the threads. -/
inductive Step (maxLag : UInt64) (s : Feed κ σ) : Event κ σ → Feed κ σ → Prop
  /-- The I/O thread, and what others read and append. -/
  | live {e : Live.Event κ FetchThread} {live : Live κ FetchThread}
      (hst : Live.Step s.live e live) (he : e.reader ≠ some .replicationServer) :
      Step maxLag s (.lived e) { s with live, leader := s.notified e }
  | lead {e : Leader.Event} {leader : Leader} (hst : Leader.Step maxLag s.leader e leader)
      (he : Amid e) : Step maxLag s (.led e) { s with leader }
  | pop {leader : Leader} (hst : Leader.Step maxLag s.leader .popped leader)
      (hidle : s.streamer = .idle) : Step maxLag s (.led .popped) { s with leader }
  | finish {qc : QueuedCommit} (hw : s.leader.manager.worker = .posted qc)
      (hidle : s.streamer = .idle) :
      Step maxLag s .finished
        { s with
          leader := s.leader.finishCommit qc
          streamer := .ready qc s.leader.partition.epoch }
  /-- `fds_mu_` is taken, and the followers are gone through in any order. -/
  | lock {qc : QueuedCommit} {epoch : UInt32} (order : List (UInt32 × σ))
      (hs : s.streamer = .ready qc epoch) (horder : order.Perm s.followerFds) :
      Step maxLag s (.locked qc)
        { s with
          streamer := .sending
            (order.flatMap fun f => qc.records.flatMap (s.syncSends epoch f.2)) }
  | stream {x : Send σ} {rest : List (Send σ)} (hs : s.streamer = .sending (x :: rest)) :
      Step maxLag s (.sent x) { s with streamer := .sending rest }
  | unlock (hs : s.streamer = .sending []) : Step maxLag s .unlocked { s with streamer := .idle }
  | request (followerId : UInt32) (startOffset : UInt64) (socket : σ) (hs : s.server = .idle) :
      Step maxLag s (.requested followerId startOffset socket)
        { s with server := .requested followerId startOffset socket }
  /-- The callback of the broker registers the follower, under `fds_mu_`. -/
  | register {followerId : UInt32} {startOffset : UInt64} {socket : σ}
      (hs : s.server = .requested followerId startOffset socket)
      (hlock : ∀ sends, s.streamer ≠ .sending sends) :
      Step maxLag s (.registered followerId startOffset socket)
        { s with
          followerFds := s.setFollowerFd followerId socket
          server := .looping ⟨socket, startOffset, startOffset⟩ }
  | enter {c : CatchUp σ} (hs : s.server = .looping c) (hlt : c.offset < s.committedOffset) :
      Step maxLag s .entered { s with server := .fetching c }
  | fetch {c : CatchUp σ} {e : Live.Event κ FetchThread} {live : Live κ FetchThread}
      (hs : s.server = .fetching c) (hst : Live.Step s.live e live)
      (he : e = .located .replicationServer c.offset fetchCount ∨
        e = .advanced .replicationServer) :
      Step maxLag s (.lived e) { s with live }
  | fetchFail {c : CatchUp σ} {live : Live κ FetchThread} (hs : s.server = .fetching c)
      (hst : Live.Step s.live (.failed .replicationServer c.offset fetchCount) live) :
      Step maxLag s (.lived (.failed .replicationServer c.offset fetchCount))
        { s with live, server := .failed }
  | fetched {c : CatchUp σ} {found : List Record} {live : Live κ FetchThread}
      (hs : s.server = .fetching c)
      (hst : Live.Step s.live (.returned .replicationServer c.offset fetchCount found) live)
      (hne : found ≠ []) :
      Step maxLag s (.lived (.returned .replicationServer c.offset fetchCount found))
        { s with live, server := .sending c [] found }
  /-- Nothing is found: the loop is left. -/
  | fetchedNone {c : CatchUp σ} {live : Live κ FetchThread} (hs : s.server = .fetching c)
      (hst : Live.Step s.live (.returned .replicationServer c.offset fetchCount []) live) :
      Step maxLag s (.lived (.returned .replicationServer c.offset fetchCount []))
        { s with live, server := .ending c (s.endSends c.socket) }
  | frame {c : CatchUp σ} {msg : Record} {msgs : List Record}
      (hs : s.server = .sending c [] (msg :: msgs)) :
      Step maxLag s (.framed msg)
        { s with
          server := .sending c (s.syncSends s.leader.partition.epoch c.socket msg) msgs }
  | send {c : CatchUp σ} {x : Send σ} {rest : List (Send σ)} {msgs : List Record}
      (hs : s.server = .sending c (x :: rest) msgs) :
      Step maxLag s (.sent x)
        { s with
          server :=
            .sending (if rest = [] then { c with offset := c.offset + 1 } else c) rest msgs }
  | loop {c : CatchUp σ} (hs : s.server = .sending c [] []) :
      Step maxLag s .looped { s with server := .looping c }
  | leave {c : CatchUp σ} (hs : s.server = .looping c) (hge : ¬c.offset < s.committedOffset) :
      Step maxLag s .left { s with server := .ending c (s.endSends c.socket) }
  | sendEnd {c : CatchUp σ} {x : Send σ} {rest : List (Send σ)}
      (hs : s.server = .ending c (x :: rest)) :
      Step maxLag s (.sent x) { s with server := .ending c rest }
  | finishEnd {c : CatchUp σ} (hs : s.server = .ending c []) :
      Step maxLag s .ended { s with server := .idle }

variable {maxLag : UInt64} {s s' s₀ : Feed κ σ} {e : Event κ σ} {es : List (Event κ σ)}

/-! ## The partition store -/

/-- What the store and its readers do in a step. -/
def Event.ofLive : Event κ σ → List (Live.Event κ FetchThread)
  | .lived e => [e]
  | _ => []

/-- What the store and its readers have done. -/
def liveEvents (es : List (Event κ σ)) : List (Live.Event κ FetchThread) := es.flatMap Event.ofLive

/-- The records committed in a step. -/
def Event.written : Event κ σ → List Record
  | .lived e => e.written
  | _ => []

theorem Step.live_cases (hst : Step maxLag s e s') :
    (e.ofLive = [] ∧ e.written = [] ∧ s'.live = s.live) ∨
      ∃ e', e = .lived e' ∧ Live.Step s.live e' s'.live := by
  cases hst with
  | live hst he => exact .inr ⟨_, rfl, hst⟩
  | fetch hs hst he => exact .inr ⟨_, rfl, hst⟩
  | fetchFail hs hst => exact .inr ⟨_, rfl, hst⟩
  | fetched hs hst hne => exact .inr ⟨_, rfl, hst⟩
  | fetchedNone hs hst => exact .inr ⟨_, rfl, hst⟩
  | _ => exact .inl ⟨rfl, rfl, rfl⟩

theorem Step.live_run (hst : Step maxLag s e s') : Run Live.Step s.live e.ofLive s'.live := by
  rcases hst.live_cases with ⟨he, -, hs⟩ | ⟨e', rfl, hst'⟩
  · rw [he, hs]
    exact .nil
  · exact .single hst'

/-- A run is a run of the store and its readers. -/
theorem Run.live (hr : Run (Step maxLag) s₀ es s) : Run Live.Step s₀.live (liveEvents es) s.live :=
  hr.project Feed.live Event.ofLive Step.live_run

/-- The store has just been opened, and nobody has been sent anything. -/
structure Started (s₀ : Feed κ σ) : Prop where
  live : s₀.live.Started
  worker : s₀.leader.manager.worker = .waiting
  commitQueue : s₀.leader.manager.commitQueue = []
  streamer : s₀.streamer = .idle
  followerFds : s₀.followerFds = []
  server : s₀.server = .idle

/-- No offset of the run reaches `2 ^ 64`. -/
def Fits (s₀ : Feed κ σ) (es : List (Event κ σ)) : Prop := Live.Fits s₀.live (liveEvents es)

theorem Fits.of_snoc (h : Fits s₀ (es ++ [e])) : Fits s₀ es := by
  rw [Fits, liveEvents, List.flatMap_append] at h
  exact h.of_append

theorem Step.wholeLog_eq (hst : Step maxLag s e s') (h : s.live.Coherent) :
    s'.live.store.wholeLog = s.live.store.wholeLog ++ e.written := by
  rcases hst.live_cases with ⟨-, hwr, hs⟩ | ⟨e', rfl, hst'⟩
  · rw [hwr, hs, List.append_nil]
  · exact hst'.wholeLog_eq h

/-- The whole log, and where it ends. -/
theorem Run.numbered_wholeLog (hr : Run (Step maxLag) s₀ es s) (h : Started s₀)
    (hfit : Fits s₀ es) :
    ∃ b, Numbered b s.live.store.wholeLog ∧
      b + s.live.store.wholeLog.length = s.committedOffset.toNat :=
  Live.Run.numbered_wholeLog (Run.live hr) h.live hfit

/-! ## What the worker has not yet taken up to send -/

/-- The records of the commit that the worker carries. -/
def carried : Worker → List Record
  | .popped qc | .swept qc _ | .posted qc => qc.records
  | .waiting => []

/-- The records that are committed and that the worker has not begun to send: those in its hands,
    those queued for it, and those it has not been told of. -/
def awaiting (s : Feed κ σ) : List Record :=
  s.streamer.toSend ++ (carried s.leader.manager.worker ++
    (s.leader.manager.commitQueue.flatMap (·.records) ++ s.live.store.unnotified))

/-- The records the worker begins to send in a step. -/
def Event.streamed : Event κ σ → List Record
  | .locked qc => qc.records
  | _ => []

/-- The worker does one thing at a time. -/
def Alternates (s : Feed κ σ) : Prop :=
  s.streamer = .idle ∨ s.leader.manager.worker = .waiting

/-- In the middle of a commit, the worker carries on with it. -/
theorem worker_of_amid {leader leader' : Leader} {e : Leader.Event}
    (hst : Leader.Step maxLag leader e leader') (he : Amid e) :
    leader'.manager.commitQueue = leader.manager.commitQueue ∧
      carried leader'.manager.worker = carried leader.manager.worker ∧
      (leader.manager.worker = .waiting → leader'.manager.worker = .waiting) := by
  cases hst with
  | register offset ackResponse producerFd => exact ⟨rfl, rfl, id⟩
  | ack followerId ackedOffset => exact ⟨rfl, rfl, id⟩
  | change replicas => exact ⟨rfl, rfl, id⟩
  | process hw => exact ⟨rfl, by rw [hw]; rfl, fun h => by simp [hw] at h⟩
  | post hw => exact ⟨rfl, by rw [hw]; rfl, fun h => by simp [hw] at h⟩
  | enqueue | pop | finish => exact he.elim

/-- The commit callback queues what it is called for. -/
theorem commitQueue_notified (e : Live.Event κ FetchThread) :
    (s.notified e).manager.commitQueue.flatMap (·.records) =
      s.leader.manager.commitQueue.flatMap (·.records) ++ e.toldOf := by
  cases e with
  | stored e =>
    cases e with
    | notified batch fired =>
      cases batch with
      | nil => exact (List.append_nil _).symm
      | cons cmd rest =>
        refine List.flatMap_append.trans (congrArg _ ?_)
        exact List.flatMap_singleton _ _
    | _ => exact (List.append_nil _).symm
  | _ => exact (List.append_nil _).symm

theorem worker_notified (e : Live.Event κ FetchThread) :
    (s.notified e).manager.worker = s.leader.manager.worker := by
  cases e with
  | stored e =>
    cases e with
    | notified batch fired => cases batch <;> rfl
    | _ => rfl
  | _ => rfl

theorem notified_of_toldOf {e : Live.Event κ FetchThread} (h : e.toldOf = []) :
    s.notified e = s.leader := by
  cases e with
  | stored e =>
    cases e with
    | notified batch fired =>
      obtain rfl : batch = [] := h
      rfl
    | _ => rfl
  | _ => rfl

theorem Step.alternates (hst : Step maxLag s e s') (h : s.Alternates) : s'.Alternates := by
  cases hst with
  | live hst he => exact h.imp_right (worker_notified _).trans
  | lead hst he => exact h.imp_right (worker_of_amid hst he).2.2
  | pop hst hidle => exact .inl hidle
  | finish hw hidle => exact .inr rfl
  | lock order hs horder => exact .inr (h.resolve_left (by simp [hs]))
  | stream hs => exact .inr (h.resolve_left (by simp [hs]))
  | unlock hs => exact .inl rfl
  | _ => exact h

/-- What is committed is awaiting until the worker begins to send it. -/
theorem Step.awaiting_eq (hst : Step maxLag s e s') (h : s.Alternates) :
    s.awaiting ++ e.written = e.streamed ++ s'.awaiting := by
  cases hst with
  | live hst he =>
    -- What is written is not notified yet, and what is notified is queued for the worker.
    simp only [awaiting, commitQueue_notified, worker_notified, List.append_assoc, Event.streamed,
      List.nil_append, hst.unnotified_eq]
    rfl
  | lead hst he =>
    obtain ⟨hq, hc, -⟩ := worker_of_amid hst he
    simp [awaiting, Event.written, Event.streamed, hq, hc]
  | pop hst hidle =>
    cases hst with
    | pop hw hq => simp [awaiting, Event.written, Event.streamed, hw, hq, carried]
  | finish hw hidle =>
    simp [awaiting, Event.written, Event.streamed, hidle, hw, carried, Streamer.toSend,
      Leader.finishCommit]
  | lock order hs horder =>
    -- It is only now that the worker looks at who is to be sent what it carries.
    have hw := h.resolve_left (by simp [hs])
    simp [awaiting, Event.written, Event.streamed, hs, hw, carried, Streamer.toSend]
  | stream hs => simp [awaiting, Event.written, Event.streamed, hs, Streamer.toSend]
  | unlock hs => simp [awaiting, Event.written, Event.streamed, hs, Streamer.toSend]
  | fetch hs hst he =>
    have hun := hst.unnotified_eq
    rcases he with rfl | rfl <;>
      simpa [awaiting, Event.written, Event.streamed, Live.Event.written, Live.Event.toldOf]
        using hun.symm
  | fetchFail hs hst | fetched hs hst | fetchedNone hs hst =>
    have hun := hst.unnotified_eq
    simpa [awaiting, Event.written, Event.streamed, Live.Event.written, Live.Event.toldOf]
      using hun.symm
  | _ => simp [awaiting, Event.written, Event.streamed]

/-- What is awaiting is the end of the log. -/
theorem Run.awaiting_isSuffix (hr : Run (Step maxLag) s₀ es s) (h : Started s₀)
    (hfit : Fits s₀ es) : s.Alternates ∧ s.awaiting <:+ s.live.store.wholeLog := by
  refine hr.invariant (I := fun es s => Fits s₀ es →
    s.Alternates ∧ s.awaiting <:+ s.live.store.wholeLog) (fun _ => ?_) ?_ hfit
  · refine ⟨.inl h.streamer, ?_⟩
    have hun : s₀.live.store.unnotified = [] := by
      rw [PartitionStore.unnotified, h.live.fresh.io]
    simp [awaiting, h.streamer, h.worker, h.commitQueue, hun, carried, Streamer.toSend]
  · intro es s e s' hr ih hst hfit
    obtain ⟨halt, pre, hpre⟩ := ih hfit.of_snoc
    refine ⟨hst.alternates halt, pre ++ e.streamed, ?_⟩
    rw [hst.wholeLog_eq (Live.Run.coherent (Run.live hr) h.live hfit.of_snoc), ← hpre,
      List.append_assoc, List.append_assoc, hst.awaiting_eq halt]

/-! ## What is sent -/

/-- The worker sends what is committed to the socket, when it takes up the next commit. -/
def Registered (s : Feed κ σ) (socket : σ) : Prop :=
  ∃ followerId, (followerId, socket) ∈ s.followerFds

/-- A record has been sent on a socket. -/
def Sent (es : List (Event κ σ)) (socket : σ) (r : Record) : Prop :=
  ∃ x, .sent x ∈ es ∧ x.socket = socket ∧ x.completes = some r

/-- The worker is going to send a record on a socket: it has not taken it up yet, and the
    socket is that of a follower, or it has, and the record is left to send. -/
def Awaits (s : Feed κ σ) (socket : σ) (r : Record) : Prop :=
  (r ∈ s.awaiting ∧ s.Registered socket) ∨
    ∃ x ∈ s.streamer.sends, x.socket = socket ∧ x.completes = some r

theorem Sent.snoc {socket : σ} {r : Record} (h : Sent es socket r) : Sent (es ++ [e]) socket r :=
  let ⟨x, hx, hprop⟩ := h
  ⟨x, List.mem_append_left _ hx, hprop⟩

/-- What the worker takes up, it has to send to all followers. -/
theorem exists_mem_sends {epoch : UInt32} {socket : σ} {r : Record} {records : List Record}
    {order : List (UInt32 × σ)} (hr : r ∈ records) (horder : order.Perm s.followerFds)
    (hreg : s.Registered socket) :
    ∃ x ∈ order.flatMap fun f => records.flatMap (s.syncSends epoch f.2),
      x.socket = socket ∧ x.completes = some r := by
  obtain ⟨followerId, hmem⟩ := hreg
  obtain ⟨x, hx, hprop⟩ := exists_mem_sendAll (framePieces_ne_nil .replicaSync
    (.ofRecord (.ofName s.leader.partition.topic) s.leader.partition.partitionIdx epoch r)
    r.payload)
  exact ⟨x, List.mem_flatMap.2 ⟨_, horder.mem_iff.2 hmem, List.mem_flatMap.2 ⟨r, hr, hx⟩⟩, hprop⟩

/-- What the worker is going to send, it sends in a step, or is going to send afterwards. -/
theorem Step.awaits (hst : Step maxLag s e s') (halt : s.Alternates) {socket : σ} {r : Record}
    (hreg : s.Registered socket → s'.Registered socket)
    (h : s.Awaits socket r ∨ r ∈ e.written ∧ s.Registered socket) :
    s'.Awaits socket r ∨ Sent (es ++ [e]) socket r := by
  -- A record is awaiting until the sends are lined up, for all sockets that are registered then.
  have hnew : r ∈ s.awaiting ++ e.written → s.Registered socket → s'.Awaits socket r := by
    intro hr hsocket
    rw [hst.awaiting_eq halt, List.mem_append] at hr
    rcases hr with hr | hr
    · cases hst with
      | lock order hs horder => exact .inr (exists_mem_sends hr horder hsocket)
      | _ => exact absurd hr List.not_mem_nil
    · exact .inl ⟨hr, hreg hsocket⟩
  rcases h with (⟨hr, hsocket⟩ | ⟨x, hx, hprop⟩) | ⟨hr, hsocket⟩
  · exact .inl (hnew (List.mem_append_left _ hr) hsocket)
  · cases hst with
    | stream hs =>
      rw [hs, Streamer.sends, List.mem_cons] at hx
      rcases hx with rfl | hx
      · exact .inr ⟨x, List.mem_append_right _ (List.mem_singleton_self _), hprop⟩
      · exact .inl (.inr ⟨x, hx, hprop⟩)
    | finish hw hidle => simp [hidle, Streamer.sends] at hx
    | lock order hs horder => simp [hs, Streamer.sends] at hx
    | unlock hs => simp [hs, Streamer.sends] at hx
    | _ => exact .inl (.inr ⟨x, hx, hprop⟩)
  · exact .inl (hnew (List.mem_append_right _ hr) hsocket)

/-! ## Catching up -/

/-- What a step commits comes behind the log. -/
structure Later (s : Feed κ σ) (e : Event κ σ) (s' : Feed κ σ) : Prop where
  wholeLog : s'.live.store.wholeLog = s.live.store.wholeLog ++ e.written
  le : s.committedOffset ≤ s'.committedOffset
  new : ∀ r ∈ e.written, s.committedOffset ≤ r.offset

/-- A step moves the committed offset on by what it commits. -/
theorem Run.toNat_committedOffset (hr : Run (Step maxLag) s₀ es s) (h : Started s₀)
    (hst : Step maxLag s e s') (hfit : Fits s₀ (es ++ [e])) :
    s'.committedOffset.toNat = s.committedOffset.toNat + e.written.length := by
  rcases hst.live_cases with ⟨-, hwr, hs⟩ | ⟨e', rfl, hst'⟩
  · rw [committedOffset, committedOffset, hs, hwr]
    rfl
  · rw [Fits, liveEvents, List.flatMap_append] at hfit
    exact (Live.Run.step_written (Run.live hr) h.live hst' hfit).2

theorem Run.later (hr : Run (Step maxLag) s₀ es s) (h : Started s₀) (hst : Step maxLag s e s')
    (hfit : Fits s₀ (es ++ [e])) : Later s e s' := by
  refine ⟨hst.wholeLog_eq (Live.Run.coherent (Run.live hr) h.live hfit.of_snoc), ?_, ?_⟩
  · rw [UInt64.le_iff_toNat_le, Run.toNat_committedOffset hr h hst hfit]
    exact Nat.le_add_right _ _
  · rcases hst.live_cases with ⟨-, hwr, -⟩ | ⟨e', rfl, hst'⟩
    · exact fun r hr => absurd hr (by simp [hwr])
    · rw [Fits, liveEvents, List.flatMap_append] at hfit
      obtain ⟨hnum, -⟩ := Live.Run.step_written (Run.live hr) h.live hst' hfit
      exact fun r hr => UInt64.le_iff_toNat_le.2 (hnum.le_offset hr)

/-- All records of the log from the start offset up to the next offset have been sent. -/
structure SentUpTo (es : List (Event κ σ)) (s : Feed κ σ) (c : CatchUp σ) : Prop where
  registered : s.Registered c.socket
  offset : c.offset = c.startOffset ∨ c.offset ≤ s.committedOffset
  sent : ∀ r ∈ s.live.store.wholeLog, c.startOffset ≤ r.offset → r.offset < c.offset →
    Sent es c.socket r

/-- The records that are left to send are the next ones of the log. -/
def InHand (s : Feed κ σ) (c : CatchUp σ) (sends : List (Send σ)) (msgs : List Record) : Prop :=
  ∃ todo, Numbered c.offset.toNat todo ∧ (∀ r ∈ todo, r ∈ s.live.store.wholeLog) ∧
    (sends = [] ∧ todo = msgs ∨
      ∃ r pieces, pieces ≠ [] ∧ sends = sendAll c.socket (some r) pieces ∧ todo = r :: msgs)

/-- How far `handle_fetch_log` is. -/
def Progress (es : List (Event κ σ)) (s : Feed κ σ) : Prop :=
  match s.server with
  | .looping c => SentUpTo es s c
  | .fetching c => SentUpTo es s c ∧ c.offset < s.committedOffset
  | .sending c sends msgs => SentUpTo es s c ∧ s.InHand c sends msgs
  | .ending c _ => s.Registered c.socket ∧ ∀ r ∈ s.live.store.wholeLog,
      c.startOffset ≤ r.offset → Sent es c.socket r ∨ s.Awaits c.socket r
  | .idle | .requested .. | .failed => True

theorem SentUpTo.later {c : CatchUp σ} (h : SentUpTo es s c) (hl : Later s e s')
    (hfds : s'.followerFds = s.followerFds) : SentUpTo (es ++ [e]) s' c where
  registered := by
    rw [Registered, hfds]
    exact h.registered
  offset := h.offset.imp_right fun hle => UInt64.le_trans hle hl.le
  sent r hr hstart hlt := by
    rw [hl.wholeLog, List.mem_append] at hr
    rcases hr with hr | hr
    · exact (h.sent r hr hstart hlt).snoc
    · -- What is committed now lies behind all that has been sent.
      have hle := hl.new r hr
      rcases h.offset with heq | hle'
      · exact absurd (UInt64.lt_of_le_of_lt hstart (heq ▸ hlt)) (UInt64.lt_irrefl _)
      · exact absurd (UInt64.lt_of_le_of_lt (UInt64.le_trans hle' hle) hlt) (UInt64.lt_irrefl _)

theorem InHand.later {c : CatchUp σ} {sends : List (Send σ)} {msgs : List Record}
    (h : s.InHand c sends msgs) (hl : Later s e s') : s'.InHand c sends msgs := by
  obtain ⟨todo, hnum, hmem, hcase⟩ := h
  refine ⟨todo, hnum, fun r hr => ?_, hcase⟩
  rw [hl.wholeLog]
  exact List.mem_append_left _ (hmem r hr)

/-- While `REPLICA_SYNC_END` is sent, what is committed is the worker's to send. -/
theorem Step.sent_or_awaits (hst : Step maxLag s e s') (halt : s.Alternates) (hl : Later s e s')
    (hfds : s'.followerFds = s.followerFds) {c : CatchUp σ} (hreg : s.Registered c.socket)
    (h : ∀ r ∈ s.live.store.wholeLog, c.startOffset ≤ r.offset →
      Sent es c.socket r ∨ s.Awaits c.socket r) :
    s'.Registered c.socket ∧ ∀ r ∈ s'.live.store.wholeLog, c.startOffset ≤ r.offset →
      Sent (es ++ [e]) c.socket r ∨ s'.Awaits c.socket r := by
  have hreg' : s'.Registered c.socket := by
    rw [Registered, hfds]
    exact hreg
  refine ⟨hreg', fun r hr hstart => ?_⟩
  rw [hl.wholeLog, List.mem_append] at hr
  rcases hr with hr | hr
  · rcases h r hr hstart with hsent | haw
    · exact .inl hsent.snoc
    · exact (hst.awaits halt (fun _ => hreg') (.inl haw)).symm
  · exact (hst.awaits halt (fun _ => hreg') (.inr ⟨hr, hreg⟩)).symm

/-- What the other threads do. -/
theorem Progress.frame (h : Progress es s) (hst : Step maxLag s e s') (halt : s.Alternates)
    (hl : Later s e s') (hfds : s'.followerFds = s.followerFds) (hserver : s'.server = s.server) :
    Progress (es ++ [e]) s' := by
  rw [Progress] at h ⊢
  rw [hserver]
  cases hs : s.server with
  | looping c =>
    simp only [hs] at h
    exact h.later hl hfds
  | fetching c =>
    simp only [hs] at h
    exact ⟨h.1.later hl hfds, UInt64.lt_of_lt_of_le h.2 hl.le⟩
  | sending c sends msgs =>
    simp only [hs] at h
    exact ⟨h.1.later hl hfds, h.2.later hl⟩
  | ending c sends =>
    simp only [hs] at h
    exact hst.sent_or_awaits halt hl hfds h.1 h.2
  | idle | requested | failed => trivial

/-- A record sent to the last piece is the one at the next offset. -/
theorem SentUpTo.next {c : CatchUp σ} {r : Record} {x : Send σ} (h : SentUpTo es s c) {b : ℕ}
    (hlog : Numbered b s.live.store.wholeLog)
    (hend : b + s.live.store.wholeLog.length = s.committedOffset.toNat)
    (hr : r ∈ s.live.store.wholeLog) (hoff : r.offset.toNat = c.offset.toNat)
    (hx : x.socket = c.socket ∧ x.completes = some r) (hl : Later s (.sent x) s')
    (hfds : s'.followerFds = s.followerFds) :
    SentUpTo (es ++ [.sent x]) s' { c with offset := c.offset + 1 } ∧
      (c.offset + 1).toNat = c.offset.toNat + 1 := by
  have hlt := hlog.offset_lt hr
  have hcommitted : c.offset.toNat < s.committedOffset.toNat := by omega
  have hnext : (c.offset + 1).toNat = c.offset.toNat + 1 :=
    toNat_add_one_of_lt (UInt64.lt_iff_toNat_lt.2 hcommitted)
  have hlater := h.later hl hfds
  refine ⟨⟨hlater.registered, .inr (UInt64.le_trans ?_ hl.le), fun r' hr' hstart hlt' => ?_⟩, hnext⟩
  · rw [UInt64.le_iff_toNat_le, hnext]
    omega
  · rcases Nat.lt_or_ge r'.offset.toNat c.offset.toNat with hbefore | hge
    · exact hlater.sent r' hr' hstart (UInt64.lt_iff_toNat_lt.2 hbefore)
    · rw [UInt64.lt_iff_toNat_lt, hnext] at hlt'
      have hold : s'.live.store.wholeLog = s.live.store.wholeLog :=
        hl.wholeLog.trans (List.append_nil _)
      have hsame : r' = r := hlog.eq_of_offset (hold ▸ hr') hr (by omega)
      exact hsame ▸ ⟨x, List.mem_append_right _ (List.mem_singleton_self _), hx⟩

/-- `fetch` returns consecutive committed records from the offset on, if there are any. -/
def FetchesCommitted (s : Feed κ σ) : Event κ σ → Prop
  | .lived (.returned .replicationServer offset _ found) => offset < s.committedOffset →
      found ≠ [] ∧ Numbered offset.toNat found ∧ ∀ r ∈ found, r ∈ s.live.store.wholeLog
  | _ => True

theorem Step.progress (hst : Step maxLag s e s') (hfetch : s.FetchesCommitted e)
    (halt : s.Alternates) (hl : Later s e s') {b : ℕ} (hlog : Numbered b s.live.store.wholeLog)
    (hend : b + s.live.store.wholeLog.length = s.committedOffset.toNat) (h : Progress es s) :
    Progress (es ++ [e]) s' := by
  have hst' := hst
  cases hst with
  | live | lead | pop | finish | lock | stream | unlock =>
    exact h.frame hst' halt hl rfl rfl
  | request | fetchFail | finishEnd => trivial
  | register hs hlock =>
    -- There is nothing yet between the offset asked for and the one to go on from.
    refine ⟨⟨_, List.mem_append_right _ (List.mem_singleton_self _)⟩, .inl rfl, ?_⟩
    exact fun r _ hstart hlt => absurd (UInt64.lt_of_le_of_lt hstart hlt) (UInt64.lt_irrefl _)
  | enter hs hlt =>
    simp only [Progress, hs] at h
    exact ⟨h.later hl rfl, hlt⟩
  | fetch hs hst he => exact h.frame hst' halt hl rfl rfl
  | fetched hs hst hne =>
    simp only [Progress, hs] at h
    obtain ⟨-, hnum, hmem⟩ := hfetch h.2
    refine ⟨h.1.later hl rfl, _, hnum, fun r hr => ?_, .inl ⟨rfl, rfl⟩⟩
    rw [hl.wholeLog]
    exact List.mem_append_left _ (hmem r hr)
  | fetchedNone hs hst =>
    simp only [Progress, hs] at h
    exact absurd rfl (hfetch h.2).1
  | frame hs =>
    simp only [Progress, hs] at h
    obtain ⟨hsent, hhand⟩ := h
    obtain ⟨todo, hnum, hmem, hcase⟩ := hhand.later hl
    refine ⟨hsent.later hl rfl, todo, hnum, hmem, .inr ⟨_, _, framePieces_ne_nil _ _ _, rfl, ?_⟩⟩
    rcases hcase with ⟨-, htodo⟩ | ⟨r, pieces, hne, hsends, -⟩
    · exact htodo
    · exact absurd (sendAll_eq_nil.1 hsends.symm) hne
  | @send c x rest msgs hs =>
    simp only [Progress, hs] at h
    obtain ⟨hsent, hhand⟩ := h
    obtain ⟨todo, hnum, hmem, hcase⟩ := hhand.later hl
    rcases hcase with ⟨hnil, -⟩ | ⟨r, pieces, hne, hsends, rfl⟩
    · exact absurd hnil (List.cons_ne_nil _ _)
    obtain ⟨data, pieces', rfl, rfl, rfl⟩ := sendAll_eq_cons hsends.symm
    have hold := hl.wholeLog.trans (List.append_nil _)
    by_cases hlast : pieces' = []
    · -- With the last piece the record is sent.
      have hif : sendAll c.socket (some r) pieces' = [] := sendAll_eq_nil.2 hlast
      obtain ⟨hoff, hnum⟩ := numbered_cons.1 hnum
      rw [if_pos hif] at hl ⊢
      obtain ⟨hnew, hnext⟩ := hsent.next hlog hend (hold ▸ hmem r List.mem_cons_self) hoff
        ⟨rfl, if_pos hlast⟩ hl rfl
      exact ⟨hnew, _, hnext ▸ hnum, fun r hr => hmem r (List.mem_cons_of_mem _ hr),
        .inl ⟨hif, rfl⟩⟩
    · rw [if_neg (mt sendAll_eq_nil.1 hlast)] at hl ⊢
      exact ⟨hsent.later hl rfl, _, hnum, hmem, .inr ⟨r, pieces', hlast, rfl, rfl⟩⟩
  | loop hs =>
    simp only [Progress, hs] at h
    exact h.1.later hl rfl
  | leave hs hge =>
    -- All that is committed has been sent. What is committed later is left to the worker.
    simp only [Progress, hs] at h
    have hlater := h.later hl rfl
    refine ⟨hlater.registered, fun r hr hstart => .inl (hlater.sent r hr hstart ?_)⟩
    have hlt := hlog.offset_lt (hl.wholeLog.trans (List.append_nil _) ▸ hr)
    have hle := UInt64.le_iff_toNat_le.1 (UInt64.not_lt.1 hge)
    exact UInt64.lt_iff_toNat_lt.2 (by omega)
  | sendEnd hs =>
    simp only [Progress, hs] at h
    exact hst'.sent_or_awaits halt hl rfl h.1 h.2

/-- How far it is, in every run in which `fetch` returns committed records. -/
theorem Run.progress (hr : Run (Guarded (Step maxLag) FetchesCommitted) s₀ es s) (h : Started s₀)
    (hfit : Fits s₀ es) : Progress es s := by
  refine hr.invariant (I := fun es s => Fits s₀ es → Progress es s) (fun _ => ?_) ?_ hfit
  · rw [Progress, h.server]
    trivial
  · intro es s e s' hr ih hst hfit
    have hr' := hr.of_guarded
    obtain ⟨b, hlog, hend⟩ := Run.numbered_wholeLog hr' h hfit.of_snoc
    exact hst.1.progress hst.2 (Run.awaiting_isSuffix hr' h hfit.of_snoc).1
      (Run.later hr' h hst.1 hfit) hlog hend (ih hfit.of_snoc)

/-- In every run in which `fetch` returns committed records: while `REPLICA_SYNC_END` is sent,
    every committed record from the start offset on has been sent on the socket, or the worker
    is going to send it. -/
theorem sent_or_awaited (h : Started s₀) (hr : Run (Guarded (Step maxLag) FetchesCommitted) s₀ es s)
    (hfit : Fits s₀ es) {c : CatchUp σ} {sends : List (Send σ)}
    (hserver : s.server = .ending c sends) {r : Record} (hmem : r ∈ s.live.store.wholeLog)
    (hstart : c.startOffset ≤ r.offset) : Sent es c.socket r ∨ s.Awaits c.socket r := by
  have hprogress := Run.progress hr h hfit
  simp only [Progress, hserver] at hprogress
  exact hprogress.2 r hmem hstart

/-- What the I/O thread does up to a commit, it does beside the others. -/
theorem run_of_live {G : Feed κ σ → Event κ σ → Prop}
    {les : List (Live.Event κ FetchThread)} {live : Live κ FetchThread}
    (hr : Run Live.Step s.live les live)
    (hles : ∀ e ∈ les, e.reader = none ∧ e.toldOf = [])
    (hG : ∀ s e, e.reader = none → G s (.lived e)) :
    Run (Guarded (Step maxLag) G) s (les.map .lived) { s with live } := by
  induction hr with
  | nil => exact .nil
  | @snoc les live live' e hr hst ih =>
    obtain ⟨hreader, htold⟩ := hles e (by simp)
    have hsame := notified_of_toldOf (s := { s with live }) htold
    have hstep : Step maxLag { s with live } (.lived e) _ := .live hst (by simp [hreader])
    rw [hsame] at hstep
    rw [List.map_append]
    exact (ih fun e he => hles e (List.mem_append_left _ he)).snoc
      ⟨hstep, hG _ e hreader⟩

/-- A leader with an empty log. -/
def emptyFeed : Feed Unit Unit where
  live := { store := Live.emptyStore }
  leader := ⟨{}, { topic := [] }⟩

theorem started_emptyFeed : Started emptyFeed :=
  ⟨Live.started_emptyStore, rfl, rfl, rfl, rfl, rfl⟩

/-- A follower asks for the log. -/
def requestedFeed : Feed Unit Unit := { emptyFeed with server := .requested 1 0 () }

/-- The follower is registered. -/
def loopingFeed : Feed Unit Unit :=
  { emptyFeed with followerFds := [(1, ())], server := .looping ⟨(), 0, 0⟩ }

/-- It has nothing to catch up with. -/
def endingFeed : Feed Unit Unit :=
  { loopingFeed with server := .ending ⟨(), 0, 0⟩ (loopingFeed.endSends ()) }

theorem run_endingFeed {G : Feed Unit Unit → Event Unit Unit → Prop}
    (h₁ : G emptyFeed (.requested 1 0 ())) (h₂ : G requestedFeed (.registered 1 0 ()))
    (h₃ : G loopingFeed .left) :
    Run (Guarded (Step maxLag) G) emptyFeed [.requested 1 0 (), .registered 1 0 (), .left]
      endingFeed := by
  have hrequest : Step maxLag emptyFeed (.requested 1 0 ()) requestedFeed := .request 1 0 () rfl
  have hregister : Step maxLag requestedFeed (.registered 1 0 ()) loopingFeed :=
    .register rfl (by simp [requestedFeed, emptyFeed])
  have hleave : Step maxLag loopingFeed .left endingFeed := .leave rfl (by decide)
  exact .cons ⟨hrequest, h₁⟩ (.cons ⟨hregister, h₂⟩ (.single ⟨hleave, h₃⟩))

/-- What is committed while `REPLICA_SYNC_END` is sent is awaiting. -/
theorem sent_or_awaited_firstRecord :
    ∃ (es : List (Event Unit Unit)) (s : Feed Unit Unit) (c : CatchUp Unit)
      (sends : List (Send Unit)), Run (Guarded (Step 0) FetchesCommitted) emptyFeed es s ∧
      s.server = .ending c sends ∧ Live.firstRecord ∈ s.live.store.wholeLog ∧
      (Sent es c.socket Live.firstRecord ∨ s.Awaits c.socket Live.firstRecord) := by
  have hend : Run (Guarded (Step 0) FetchesCommitted) emptyFeed _ endingFeed :=
    run_endingFeed trivial trivial trivial
  have hcommit : Run (Guarded (Step 0) FetchesCommitted) endingFeed _
      { endingFeed with live := { store := Live.firstWritten } } :=
    run_of_live Live.run_firstWritten Live.reader_firstCommitEvents
      fun s e he => by cases e <;> trivial
  have hrun := hend.append hcommit
  have hmem : Live.firstRecord ∈ Live.firstWritten.wholeLog := by decide
  exact ⟨_, _, _, _, hrun, rfl, hmem,
    sent_or_awaited started_emptyFeed hrun (by decide : 0 + 1 < 2 ^ 64) rfl hmem (by decide)⟩

end Feed

end Fell.Broker
