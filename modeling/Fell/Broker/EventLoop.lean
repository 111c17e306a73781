import Fell.Broker.DeferredAck
import Fell.Broker.RequestHandler
import Fell.Lib.Deferral

/-!
# The event loop

One thread of the broker serves all clients (`Broker::event_loop` in `broker/broker.cpp`).
It accepts connections, reads what has arrived on one of them, has the requests handled
(`RequestHandler`) and puts their responses in the outbound buffer of the connection, from
where they are sent when the socket is ready. Acknowledgements that were deferred are
released by other threads, which put them in the response queue (`post_response`); the
event loop moves them to the outbound buffers (`drain_response_queue`).

The partitions have threads of their own, and so have their replica managers and the
replication server. They act between any two steps of the event loop.

A socket that is ready for reading and for writing at once is taken as ready for one after the
other. That `on_writable` is called for a connection which `on_readable` has just closed is left
out.

A connection is found by its descriptor, which the operating system gives out again when
the connection is closed. To tell connections apart, they are numbered.

* `Run.deferral`: a run of the broker is a run of a server that defers responses
  (`Lib.Deferral`).
-/

namespace Fell.Broker

open Platform Replication Storage

/-- A partition, by its topic and its index. -/
abbrev PartitionKey := Bytes × UInt16

/-! ## Connections -/

/-- `OutboundState`. -/
structure OutboundState where
  data : Bytes := []
  writeOffset : ℕ := 0

/-- What the poller watches a socket for. -/
structure Interest where
  read : Bool
  write : Bool

/-- `ConnectionState`. -/
structure ConnectionState where
  /-- The number of the connection. The source keeps no such record, and no function reads
      it: statements about the connection do. -/
  id : ℕ
  decoder : FrameDecoder
  session : Session := {}
  outbound : OutboundState := {}
  readDisabled : Bool := false
  interest : Interest := ⟨true, false⟩

namespace ConnectionState

variable (c : ConnectionState)

/-- Bytes are put in the outbound buffer. -/
def enqueue (data : Bytes) : ConnectionState :=
  { c with
    outbound := { c.outbound with data := c.outbound.data ++ data }
    interest := ⟨!c.readDisabled, true⟩ }

/-- The number of unsent bytes from which on no more is read. -/
def backpressureThreshold : ℕ := 16 * 1024 * 1024

/-- Reading is disabled when too much is unsent. -/
def throttle : ConnectionState :=
  if backpressureThreshold < c.outbound.data.length - c.outbound.writeOffset ∧
      c.readDisabled = false then
    { c with interest := ⟨false, true⟩, readDisabled := true }
  else c

/-- The responses to the requests of one `recv` are put in the outbound buffer. -/
def finishBatch (resp : Bytes) : ConnectionState :=
  (if resp = [] then c else c.enqueue resp).throttle

/-- `on_writable`, when `sent` bytes are sent. -/
def onWritable (sent : ℕ) : ConnectionState :=
  let out := { c.outbound with writeOffset := c.outbound.writeOffset + sent }
  if out.writeOffset = out.data.length then
    { c with outbound := {}, readDisabled := false, interest := ⟨true, false⟩ }
  else { c with outbound := out }

@[simp] theorem id_enqueue (data : Bytes) : (c.enqueue data).id = c.id := rfl

@[simp] theorem id_finishBatch (resp : Bytes) : (c.finishBatch resp).id = c.id := by
  rw [finishBatch, throttle]
  split_ifs <;> rfl

@[simp] theorem id_onWritable (sent : ℕ) : (c.onWritable sent).id = c.id := by
  rw [onWritable]
  dsimp only
  split_ifs <;> rfl

end ConnectionState

/-- The response to a request. -/
structure Reply where
  /-- The partition that an acknowledgement is about, if a record was appended. -/
  origin : Option PartitionKey
  bytes : Bytes
  deriving DecidableEq

/-- `PendingResponse`. -/
structure PendingResponse where
  fd : ℤ
  data : Bytes
  /-- The partition whose acknowledgement it is. The source keeps no such record. -/
  origin : PartitionKey

/-- The response, as a reply to the descriptor it is for. -/
def PendingResponse.reply (r : PendingResponse) : ℤ × Reply := (r.fd, ⟨some r.origin, r.data⟩)

/-- Where `on_readable` is with the frames of one `recv`. -/
structure Batch where
  fd : ℤ
  /-- The frames not yet handled. -/
  frames : List Frame
  /-- `batch_resp`, response by response. -/
  responses : List Reply

/-- The first frame is handled, with this response. -/
def Batch.answer (b : Batch) (r : Reply) : Batch :=
  { b with frames := b.frames.tail, responses := b.responses ++ [r] }

/-- The first frame is handled, with no response. -/
def Batch.skip (b : Batch) : Batch := { b with frames := b.frames.tail }

/-- Where the event loop is. -/
inductive Loop
  /-- Between two events. -/
  | polling
  /-- In `on_readable`, about to read. -/
  | reading (fd : ℤ)
  /-- In `on_readable`, between two frames. -/
  | handling (b : Batch)
  /-- In a handler, at a partition. -/
  | accessing (b : Batch) (tp : PartitionKey) (a : Access)
  /-- In a publish request that is to be deferred: the record is appended. -/
  | appended (b : Batch) (tp : PartitionKey) (offset : UInt64)
  /-- The replica manager is looked up. -/
  | managed (b : Batch) (tp : PartitionKey) (offset : UInt64)

namespace Loop

/-- The batch in the hands of the event loop. -/
def batch? : Loop → Option Batch
  | .polling | .reading _ => none
  | .handling b | .accessing b _ _ | .appended b _ _ | .managed b _ _ => some b

/-- The requests received on a descriptor and not answered yet. -/
def framesOf (l : Loop) (fd : ℤ) : List Frame :=
  match l.batch? with
  | none => []
  | some b => if fd = b.fd then b.frames else []

/-- The responses not yet in the outbound buffer. -/
def responsesOf (l : Loop) (fd : ℤ) : List Reply :=
  match l.batch? with
  | none => []
  | some b => if fd = b.fd then b.responses else []

end Loop

/-- A broker with its clients. -/
structure Serving (κ : Type) where
  broker : Broker
  missing : Bytes → UInt16 → Bool
  maxFrameSize : UInt64
  /-- The stores of the partitions. -/
  stores : PartitionKey → PartitionStore κ
  /-- The replica managers. One that is not created yet has nothing to do. -/
  managers : PartitionKey → ReplicaManager
  /-- `conn_mgr_`. -/
  conns : ℤ → Option ConnectionState
  /-- How many connections have been accepted. -/
  opened : ℕ
  /-- The responses that a thread is about to put in the queue. -/
  posting : List PendingResponse
  responseQueue : List PendingResponse
  loop : Loop

namespace Serving

variable {κ : Type} (s : Serving κ)

/-- A partition on its leader. -/
def leader (tp : PartitionKey) : Leader := ⟨s.managers tp, s.broker.metaReg.find tp.1 tp.2⟩

/-- The replica manager of the partition is created, and its commit callback installed. -/
def Managed (tp : PartitionKey) : Prop := makeKey tp.1 tp.2 ∈ s.broker.replicaManagers

instance (tp : PartitionKey) : Decidable (s.Managed tp) := inferInstanceAs (Decidable (_ ∈ _))

/-- The connection is as told. -/
def setConn (fd : ℤ) (c : ConnectionState) : Serving κ :=
  { s with conns := Function.update s.conns fd (some c) }

/-- `ConnectionManager::add`, of a descriptor that has no connection. -/
def addConn (fd : ℤ) : Serving κ :=
  { s.setConn fd { id := s.opened, decoder := { maxFrameSize := s.maxFrameSize } } with
    opened := s.opened + 1 }

/-- `ConnectionManager::remove`. -/
def removeConn (fd : ℤ) : Serving κ := { s with conns := Function.update s.conns fd none }

/-- `RequestHandler::handle`, up to the access to a partition. -/
def handle (c : ConnectionState) (f : Frame) : Handled :=
  (s.broker.requestHandler s.missing).handle c.session f

/-- The registries and the connection after a request has been checked. -/
def afterHandle (fd : ℤ) (c : ConnectionState) (r : Handled) : Serving κ :=
  { s.setConn fd { c with session := r.session } with
    broker :=
      { s.broker with
        topics := r.handler.topics
        metaReg := r.handler.metaReg.getD s.broker.metaReg }
    missing := r.handler.missing }

/-- The response in the queue goes to the connection that has its descriptor, if any. -/
def deliver (r : PendingResponse) : Serving κ :=
  match s.conns r.fd with
  | none => s
  | some c => s.setConn r.fd (c.enqueue r.data)

/-- `drain_response_queue`. -/
def drainResponseQueue : Serving κ :=
  s.responseQueue.foldl deliver { s with responseQueue := [] }

/-- `get_or_create_replica_manager`. -/
def getOrCreateReplicaManager (tp : PartitionKey) : Serving κ :=
  { s with broker := s.broker.getOrCreateReplicaManager tp.1 tp.2 }

/-- The store of a partition has changed, and told its commit callback of it. -/
def setStore (tp : PartitionKey) (e : PartitionStore.Event κ) (store : PartitionStore κ) :
    Serving κ :=
  { s with
    stores := Function.update s.stores tp store
    managers :=
      if s.Managed tp then
        Function.update s.managers tp (Publishing.commitCallback (s.managers tp) e)
      else s.managers }

/-- What a thread of the replica manager has done, and the responses it posts. -/
def setLeader (tp : PartitionKey) (l : Leader) (passed : List Response) : Serving κ :=
  { s with
    managers := Function.update s.managers tp l.manager
    broker :=
      { s.broker with metaReg := s.broker.metaReg.modify tp.1 tp.2 fun _ => l.partition }
    posting := s.posting ++ passed.map fun x => ⟨x.1, x.2, tp⟩ }

/-! ## Steps -/

/-- What happens in a step. -/
inductive Event (κ : Type)
  | accepted (fd : ℤ) (id : ℕ)
  | closed (fd : ℤ)
  | received (id : ℕ) (frames : List Frame)
  /-- A request is answered, with what was done to a partition for it. -/
  | answered (fd : ℤ) (id : ℕ) (f : Frame) (r : Reply)
      (did : Option (PartitionKey × PartitionStore.Event κ))
  /-- A record is appended, whose acknowledgement is to be deferred. -/
  | deferred (fd : ℤ) (id : ℕ) (f : Frame) (tp : PartitionKey) (cmd : Record)
  | flushed (id : ℕ) (responses : List Reply)
  | drained (responses : List (PendingResponse × Option ℕ))
  | stored (tp : PartitionKey) (e : PartitionStore.Event κ)
  | led (tp : PartitionKey) (e : Leader.Event)
  | wentOn

/-- The acknowledgement of a record. -/
def ackReply (tp : PartitionKey) (offset : UInt64) : Reply := ⟨some tp, encodeAck offset⟩

/-- A step of the broker. -/
inductive Step (s : Serving κ) : Event κ → Serving κ → Prop
  | accept {fd : ℤ} (hl : s.loop = .polling) (hc : s.conns fd = none) :
      Step s (.accepted fd s.opened) (s.addConn fd)
  /-- The connection is closed: hung up, at its end, or sending frames too large. -/
  | hangUp {fd : ℤ} (hl : s.loop = .polling ∨ s.loop = .reading fd) :
      Step s (.closed fd) { s.removeConn fd with loop := .polling }
  | readable {fd : ℤ} {c : ConnectionState} (hl : s.loop = .polling) (hc : s.conns fd = some c) :
      Step s .wentOn { s with loop := .reading fd }
  | receive {fd : ℤ} {c : ConnectionState} (data : Bytes) (hl : s.loop = .reading fd)
      (hc : s.conns fd = some c) (hpos : data ≠ []) (hlen : data.length ≤ 4096)
      (hpush : (c.decoder.push data).1 ≠ -1) :
      Step s (.received c.id (c.decoder.push data).2.1)
        { s.setConn fd { c with decoder := (c.decoder.push data).2.2 } with
          loop := .handling ⟨fd, (c.decoder.push data).2.1, []⟩ }
  | wouldBlock {fd : ℤ} (hl : s.loop = .reading fd) : Step s .wentOn { s with loop := .polling }
  | reply {b : Batch} {c : ConnectionState} {f : Frame} {fs : List Frame} {resp : Bytes}
      (hl : s.loop = .handling b) (hc : s.conns b.fd = some c) (hf : b.frames = f :: fs)
      (hout : (s.handle c f).outcome = .reply resp) :
      Step s (.answered b.fd c.id f ⟨none, resp⟩ none)
        { s.afterHandle b.fd c (s.handle c f) with loop := .handling (b.answer ⟨none, resp⟩) }
  | locate {b : Batch} {c : ConnectionState} {f : Frame} {fs : List Frame} {t : Bytes}
      {p : UInt16} {a : Access} (hl : s.loop = .handling b) (hc : s.conns b.fd = some c)
      (hf : b.frames = f :: fs) (hout : (s.handle c f).outcome = .access t p a) :
      Step s .wentOn
        { s.afterHandle b.fd c (s.handle c f) with loop := .accessing b (t, p) a }
  | subscribe {b : Batch} {c : ConnectionState} {f : Frame} {fs : List Frame}
      {tp : PartitionKey} {startOffset : UInt64} {r : Bytes × Session}
      (hl : s.loop = .accessing b tp (.subscribe startOffset)) (hc : s.conns b.fd = some c)
      (hf : b.frames = f :: fs)
      (hr : RequestHandler.subscribeAt c.session tp.1 tp.2 startOffset
        (s.stores tp).nextOffsetOfWriter = r) :
      Step s (.answered b.fd c.id f ⟨none, r.1⟩ none)
        { s.setConn b.fd { c with session := r.2 } with
          loop := .handling (b.answer ⟨none, r.1⟩) }
  /-- An exception in `fetch` ends the process. -/
  | fetch {b : Batch} {c : ConnectionState} {f : Frame} {fs : List Frame}
      {tp : PartitionKey} {offset : UInt64} {maxMessages : UInt16} {found : List Record}
      {r : Bytes × Session} (hl : s.loop = .accessing b tp (.fetch offset maxMessages))
      (hc : s.conns b.fd = some c) (hf : b.frames = f :: fs)
      (hfound : ((s.stores tp).fetch offset maxMessages.toNat).1 = some found)
      (hr : RequestHandler.fetched c.session found = r) :
      Step s
        (.answered b.fd c.id f ⟨none, r.1⟩
          (some (tp, .fetched offset maxMessages.toNat (some found))))
        { (s.setConn b.fd { c with session := r.2 }).setStore tp
            (.fetched offset maxMessages.toNat (some found))
            ((s.stores tp).fetch offset maxMessages.toNat).2 with
          loop := .handling (b.answer ⟨none, r.1⟩) }
  | refuse {b : Batch} {c : ConnectionState} {f : Frame} {fs : List Frame} {tp : PartitionKey}
      {payload : Payload} (now : UInt64) (hl : s.loop = .accessing b tp (.append payload))
      (hc : s.conns b.fd = some c) (hf : b.frames = f :: fs)
      (hacc : ((s.stores tp).append payload now).1.accepted = false) :
      Step s
        (.answered b.fd c.id f
          ⟨none, RequestHandler.refusal ((s.stores tp).append payload now).1.error⟩
          (some (tp, .refused ((s.stores tp).append payload now).1.error)))
        { s.setStore tp (.refused ((s.stores tp).append payload now).1.error)
            ((s.stores tp).append payload now).2 with
          loop := .handling
            (b.answer ⟨none, RequestHandler.refusal ((s.stores tp).append payload now).1.error⟩) }
  | append {b : Batch} {c : ConnectionState} {f : Frame} {fs : List Frame} {tp : PartitionKey}
      {payload : Payload} (now : UInt64) (hl : s.loop = .accessing b tp (.append payload))
      (hc : s.conns b.fd = some c) (hf : b.frames = f :: fs)
      (hacc : ((s.stores tp).append payload now).1.accepted = true)
      (hacks : s.broker.cfg.acks ≠ -1) :
      Step s
        (.answered b.fd c.id f (ackReply tp ((s.stores tp).append payload now).1.offset)
          (some (tp, .appended ((s.stores tp).command payload now))))
        { s.setStore tp (.appended ((s.stores tp).command payload now))
            ((s.stores tp).append payload now).2 with
          loop := .handling (b.answer (ackReply tp ((s.stores tp).append payload now).1.offset)) }
  | appendDeferred {b : Batch} {c : ConnectionState} {f : Frame} {fs : List Frame}
      {tp : PartitionKey} {payload : Payload} (now : UInt64)
      (hl : s.loop = .accessing b tp (.append payload)) (hc : s.conns b.fd = some c)
      (hf : b.frames = f :: fs) (hacc : ((s.stores tp).append payload now).1.accepted = true)
      (hacks : s.broker.cfg.acks = -1) :
      Step s (.deferred b.fd c.id f tp ((s.stores tp).command payload now))
        { s.setStore tp (.appended ((s.stores tp).command payload now))
            ((s.stores tp).append payload now).2 with
          loop := .appended b.skip tp ((s.stores tp).append payload now).1.offset }
  | manage {b : Batch} {tp : PartitionKey} {offset : UInt64}
      (hl : s.loop = .appended b tp offset) :
      Step s .wentOn { s.getOrCreateReplicaManager tp with loop := .managed b tp offset }
  | register {b : Batch} {tp : PartitionKey} {offset : UInt64}
      (hl : s.loop = .managed b tp offset) :
      Step s (.led tp (.registered offset (encodeAck offset) b.fd))
        { s with
          managers := Function.update s.managers tp ((s.managers tp).registerPending
            (s.leader tp).partition offset (encodeAck offset) b.fd)
          loop := .handling b }
  | flush {b : Batch} {c : ConnectionState} (hl : s.loop = .handling b)
      (hc : s.conns b.fd = some c) (hf : b.frames = []) :
      Step s (.flushed c.id b.responses)
        { s.setConn b.fd (c.finishBatch (b.responses.flatMap Reply.bytes)) with
          loop := .reading b.fd }
  | drain (hl : s.loop = .polling) :
      Step s
        (.drained (s.responseQueue.map fun r => (r, (s.conns r.fd).map ConnectionState.id)))
        s.drainResponseQueue
  | write {fd : ℤ} {c : ConnectionState} (sent : ℕ) (hl : s.loop = .polling)
      (hc : s.conns fd = some c)
      (hsent : c.outbound.writeOffset + sent ≤ c.outbound.data.length) :
      Step s .wentOn (s.setConn fd (c.onWritable sent))
  /-- A thread of the partition moves, or another one that uses it. -/
  | store {tp : PartitionKey} {e : PartitionStore.Event κ} {store' : PartitionStore κ}
      (hst : PartitionStore.Step (s.stores tp) e store') :
      Step s (.stored tp e) (s.setStore tp e store')
  /-- The worker of the replica manager moves, or the replication server. -/
  | lead {tp : PartitionKey} {e : Leader.Event} {l : Leader} (hm : s.Managed tp)
      (hst : Leader.Step s.broker.cfg.maxLagMessages (s.leader tp) e l)
      (hw : Publishing.ByWorker e) : Step s (.led tp e) (s.setLeader tp l e.passed)
  /-- A thread posts a response. -/
  | post {r : PendingResponse} {rs rs' : List PendingResponse} (hp : s.posting = rs ++ r :: rs') :
      Step s .wentOn
        { s with posting := rs ++ rs', responseQueue := s.responseQueue ++ [r] }
  /-- Elections and heartbeats change the metadata. -/
  | change (metaReg : PartitionMetaRegistry) :
      Step s .wentOn { s with broker := { s.broker with metaReg := metaReg } }

/-! ## What is owed -/

/-- The acknowledgement that is about to be registered. -/
def registering (tp : PartitionKey) : List (ℤ × Reply) :=
  match s.loop with
  | .appended b tp' offset | .managed b tp' offset =>
    if tp' = tp then [(b.fd, ackReply tp offset)] else []
  | _ => []

/-- The acknowledgements that are deferred: about to be registered, held back by the replica
    manager, about to be posted, or in the response queue. -/
def owed (tp : PartitionKey) : List (ℤ × Reply) :=
  s.registering tp ++ ((s.leader tp).held.map (fun x => (x.1, ⟨some tp, x.2⟩)) ++
    ((s.posting.filter (·.origin = tp)).map PendingResponse.reply ++
      (s.responseQueue.filter (·.origin = tp)).map PendingResponse.reply))

/-- The broker, as a server that defers responses. -/
def deferral : Deferral ℤ PartitionKey Frame Reply where
  conn fd := (s.conns fd).map ConnectionState.id
  opened := s.opened
  unhandled := s.loop.framesOf
  batch := s.loop.responsesOf
  owed tp := s.owed tp

/-- What happens to the responses in a step. -/
def Event.deferral : Event κ → List (Deferral.Event ℤ PartitionKey Frame Reply)
  | .accepted fd id => [.opened fd id]
  | .closed fd => [.closed fd]
  | .received id frames => [.received id frames]
  | .answered fd id f r _ => [.answered fd id f r]
  | .deferred fd id f tp cmd => [.deferred fd id f tp (ackReply tp cmd.offset)]
  | .flushed id responses => [.flushed id responses]
  | .drained responses => responses.map fun x => .delivered x.2 x.1.origin x.1.reply.2
  | .stored .. | .led .. | .wentOn => []

variable {s} {s' s₀ : Serving κ} {e : Event κ} {es : List (Event κ)}

@[simp] theorem conn_deferral (fd : ℤ) :
    s.deferral.conn fd = (s.conns fd).map ConnectionState.id := rfl

@[simp] theorem opened_deferral : s.deferral.opened = s.opened := rfl

@[simp] theorem unhandled_deferral : s.deferral.unhandled = s.loop.framesOf := rfl

@[simp] theorem batch_deferral : s.deferral.batch = s.loop.responsesOf := rfl

@[simp] theorem owed_deferral (tp : PartitionKey) : s.deferral.owed tp = s.owed tp := rfl

/-- A change that leaves the connections and the requests in place, and all that is owed. -/
theorem deferral_of_perm (hconn : ∀ fd, (s'.conns fd).map ConnectionState.id =
      (s.conns fd).map ConnectionState.id) (hopened : s'.opened = s.opened)
    (hframes : s'.loop.framesOf = s.loop.framesOf)
    (hresp : s'.loop.responsesOf = s.loop.responsesOf)
    (howed : ∀ tp, (s'.owed tp).Perm (s.owed tp)) : s'.deferral = s.deferral :=
  Deferral.ext (funext hconn) hopened hframes hresp
    (funext fun tp => Multiset.coe_eq_coe.2 (howed tp))

theorem deferral_congr (hconn : ∀ fd, (s'.conns fd).map ConnectionState.id =
      (s.conns fd).map ConnectionState.id) (hopened : s'.opened = s.opened)
    (hframes : s'.loop.framesOf = s.loop.framesOf)
    (hresp : s'.loop.responsesOf = s.loop.responsesOf) (howed : s'.owed = s.owed) :
    s'.deferral = s.deferral :=
  deferral_of_perm hconn hopened hframes hresp fun tp => .of_eq (congrFun howed tp)

theorem conn_setConn {fd : ℤ} {c c' : ConnectionState} (hc : s.conns fd = some c)
    (hid : c'.id = c.id) (fd' : ℤ) :
    ((s.setConn fd c').conns fd').map ConnectionState.id =
      (s.conns fd').map ConnectionState.id := by
  simp only [setConn, Function.update_apply]
  split_ifs with heq
  · rw [heq, hc, Option.map_some, Option.map_some, hid]
  · rfl

/-- The store does not tell the replica manager of responses. -/
theorem held_setStore (tp tp' : PartitionKey) (e : PartitionStore.Event κ) (st : PartitionStore κ) :
    ((s.setStore tp e st).leader tp').held = (s.leader tp').held := by
  have hcb : ∀ rm : ReplicaManager, (Publishing.commitCallback rm e).pending = rm.pending ∧
      (Publishing.commitCallback rm e).worker = rm.worker := by
    intro rm
    simp only [Publishing.commitCallback]
    split <;> exact ⟨rfl, rfl⟩
  simp only [setStore, leader, Leader.held, Leader.toSend]
  split_ifs
  · rw [Function.update_apply]
    split_ifs with heq
    · rw [(hcb _).1, (hcb _).2, heq]
    · rfl
  · rfl

/-- What is owed depends on the replica managers and the responses on their way. -/
theorem owed_congr (hreg : ∀ tp, s'.registering tp = s.registering tp)
    (hheld : ∀ tp, (s'.leader tp).held = (s.leader tp).held) (hpost : s'.posting = s.posting)
    (hqueue : s'.responseQueue = s.responseQueue) : s'.owed = s.owed := by
  funext tp
  rw [owed, owed, hreg, hheld, hpost, hqueue]

theorem conn_update (s : Serving κ) (fd : ℤ) (c : Option ConnectionState) :
    (fun fd' => (Function.update s.conns fd c fd').map ConnectionState.id) =
      Function.update s.deferral.conn fd (c.map ConnectionState.id) := by
  funext fd'
  simp only [Function.update_apply, deferral]
  split_ifs <;> rfl

section

variable {b : Batch} {c : ConnectionState} {f : Frame} {fs : List Frame} {r : Reply}

theorem framesOf_eq {l : Loop} (hb : l.batch? = some b) :
    l.framesOf = Function.update (fun _ => []) b.fd b.frames := by
  funext fd
  rw [Loop.framesOf, hb, Function.update_apply]

theorem responsesOf_eq {l : Loop} (hb : l.batch? = some b) :
    l.responsesOf = Function.update (fun _ => []) b.fd b.responses := by
  funext fd
  rw [Loop.responsesOf, hb, Function.update_apply]

theorem framesOf_none {l : Loop} (hb : l.batch? = none) : l.framesOf = fun _ => [] := by
  funext fd
  rw [Loop.framesOf, hb]

theorem responsesOf_none {l : Loop} (hb : l.batch? = none) : l.responsesOf = fun _ => [] := by
  funext fd
  rw [Loop.responsesOf, hb]

theorem framesOf_self {l : Loop} (hb : l.batch? = some b) : l.framesOf b.fd = b.frames := by
  rw [framesOf_eq hb, Function.update_self]

theorem responsesOf_self {l : Loop} (hb : l.batch? = some b) :
    l.responsesOf b.fd = b.responses := by
  rw [responsesOf_eq hb, Function.update_self]

/-- A request is answered: its response is put in the batch. -/
theorem deferral_answer (hb : s.loop.batch? = some b) (hb' : s'.loop.batch? = some (b.answer r))
    (hf : b.frames = f :: fs) (hc : s.conns b.fd = some c)
    (hconn : ∀ fd, (s'.conns fd).map ConnectionState.id = (s.conns fd).map ConnectionState.id)
    (hopened : s'.opened = s.opened) (howed : s'.owed = s.owed) :
    Deferral.Step s.deferral (.answered b.fd c.id f r) s'.deferral := by
  have hd : s.deferral.conn b.fd = some c.id := by rw [conn_deferral, hc, Option.map_some]
  have hu : s.deferral.unhandled b.fd = f :: fs := (framesOf_self hb).trans hf
  have hs : s'.deferral =
      { s.deferral with
        unhandled := Function.update s.deferral.unhandled b.fd fs
        batch := Function.update s.deferral.batch b.fd (s.deferral.batch b.fd ++ [r]) } := by
    refine Deferral.ext (funext hconn) hopened ?_ ?_ ?_
    · simp [framesOf_eq hb, framesOf_eq hb', Batch.answer, hf]
    · simp [responsesOf_eq hb, responsesOf_eq hb', Batch.answer]
    · exact funext fun tp => by rw [owed_deferral, owed_deferral, howed]
  rw [hs]
  exact .answer r hd hu

/-- The acknowledgement of a request is deferred. -/
theorem deferral_defer {tp : PartitionKey} {offset : UInt64} (hb : s.loop.batch? = some b)
    (hl' : s'.loop = .appended b.skip tp offset) (hf : b.frames = f :: fs)
    (hc : s.conns b.fd = some c) (hconn : s'.conns = s.conns) (hopened : s'.opened = s.opened)
    (hreg : ∀ tp, s.registering tp = [])
    (hheld : ∀ tp, (s'.leader tp).held = (s.leader tp).held) (hpost : s'.posting = s.posting)
    (hqueue : s'.responseQueue = s.responseQueue) :
    Deferral.Step s.deferral (.deferred b.fd c.id f tp (ackReply tp offset)) s'.deferral := by
  have hd : s.deferral.conn b.fd = some c.id := by rw [conn_deferral, hc, Option.map_some]
  have hu : s.deferral.unhandled b.fd = f :: fs := (framesOf_self hb).trans hf
  have hb' : s'.loop.batch? = some b.skip := by rw [hl']; rfl
  have hs : s'.deferral =
      { s.deferral with
        unhandled := Function.update s.deferral.unhandled b.fd fs
        owed := Function.update s.deferral.owed tp
          ((b.fd, ackReply tp offset) ::ₘ s.deferral.owed tp) } := by
    refine Deferral.ext (funext fun fd => by simp [hconn]) hopened ?_ ?_ ?_
    · simp [framesOf_eq hb, framesOf_eq hb', Batch.skip, hf]
    · simp [responsesOf_eq hb, responsesOf_eq hb', Batch.skip]
    · funext tp'
      have howed : s'.owed tp' = s'.registering tp' ++ s.owed tp' := by
        rw [owed, owed, hreg, List.nil_append, hheld, hpost, hqueue]
      simp only [owed_deferral, howed, Function.update_apply, registering, hl']
      split_ifs with heq heq' heq'
      · rw [heq']
        rfl
      · exact absurd heq.symm heq'
      · exact absurd heq'.symm heq
      · rfl
  rw [hs]
  exact .defer tp (ackReply tp offset) hd hu

end

theorem owed_deferral_congr (h : s'.owed = s.owed) : s'.deferral.owed = s.deferral.owed :=
  funext fun tp => by rw [owed_deferral, owed_deferral, h]

theorem run_of_deferral_eq (h : s'.deferral = s.deferral) :
    Run Deferral.Step s.deferral [] s'.deferral := h ▸ .nil

theorem registering_of_none (hb : s.loop.batch? = none) (tp : PartitionKey) :
    s.registering tp = [] := by
  rw [registering]
  cases hl : s.loop with
  | polling | reading => rfl
  | _ => simp [hl, Loop.batch?] at hb

/-- Between batches, the event loop owes nothing itself. -/
theorem deferral_between {l : Loop} (hb : s.loop.batch? = none) (hb' : l.batch? = none) :
    Serving.deferral { s with loop := l } = s.deferral := by
  refine deferral_congr (fun _ => rfl) rfl ((framesOf_none hb').trans (framesOf_none hb).symm)
    ((responsesOf_none hb').trans (responsesOf_none hb).symm) ?_
  refine owed_congr (fun tp => ?_) (fun _ => rfl) rfl rfl
  rw [registering_of_none hb' tp, registering_of_none hb tp]

/-- An acknowledgement that is registered is held back. -/
theorem owed_register {b : Batch} {tp : PartitionKey} {offset : UInt64}
    (hl : s.loop = .managed b tp offset) (h : (s.leader tp).Sound) (tp' : PartitionKey) :
    (owed { s with
      managers := Function.update s.managers tp ((s.managers tp).registerPending
        (s.leader tp).partition offset (encodeAck offset) b.fd)
      loop := .handling b } tp').Perm (s.owed tp') := by
  have hreg : registering { s with
      managers := Function.update s.managers tp ((s.managers tp).registerPending
        (s.leader tp).partition offset (encodeAck offset) b.fd)
      loop := .handling b } tp' = [] := rfl
  rw [owed, owed, hreg, List.nil_append]
  by_cases heq : tp' = tp
  · -- The entry takes the place of what the event loop was about to register.
    subst heq
    have hperm :=
      (@Leader.Step.register 0 (s.leader tp') offset (encodeAck offset) b.fd).held_perm h
    have hheld : (leader { s with
        managers := Function.update s.managers tp' ((s.managers tp').registerPending
          (s.leader tp').partition offset (encodeAck offset) b.fd)
        loop := .handling b } tp').held = _ := congrArg (fun rm => Leader.held ⟨rm, _⟩)
      (Function.update_self tp' _ _)
    have hreg' : s.registering tp' = [(b.fd, ackReply tp' offset)] := by simp [registering, hl]
    rw [hheld, hreg']
    refine ((hperm.map _).append_right _).trans ?_
    simp [Leader.Event.registration, ackReply]
  · have hheld : (leader { s with
        managers := Function.update s.managers tp ((s.managers tp).registerPending
          (s.leader tp).partition offset (encodeAck offset) b.fd)
        loop := .handling b } tp').held = (s.leader tp').held :=
      congrArg (fun rm => Leader.held ⟨rm, _⟩) (Function.update_of_ne heq _ _)
    have hreg' : s.registering tp' = [] := by simp [registering, hl, Ne.symm heq]
    rw [hheld, hreg', List.nil_append]

/-- The responses that a thread takes from the replica manager are posted. -/
theorem owed_setLeader {maxLag : UInt64} {tp : PartitionKey} {e : Leader.Event} {l : Leader}
    (hst : Leader.Step maxLag (s.leader tp) e l) (hw : Publishing.ByWorker e)
    (h : (s.leader tp).Sound) (tp' : PartitionKey) :
    ((s.setLeader tp l e.passed).owed tp').Perm (s.owed tp') := by
  have hreg : e.registration = [] := by
    cases e with
    | registered => exact hw.elim
    | _ => rfl
  have hperm := hst.held_perm h
  rw [hreg, List.map_nil, List.append_nil] at hperm
  refine List.Perm.append_left _ ?_
  by_cases heq : tp' = tp
  · -- What is no longer held is about to be posted.
    subst heq
    have hheld : ((s.setLeader tp' l e.passed).leader tp').held = l.held :=
      congrArg (fun rm => Leader.held ⟨rm, _⟩) (Function.update_self tp' _ _)
    have hpost : ((s.setLeader tp' l e.passed).posting.filter (·.origin = tp')).map
        PendingResponse.reply = (s.posting.filter (·.origin = tp')).map PendingResponse.reply ++
          e.passed.map fun x => (x.1, ⟨some tp', x.2⟩) := by
      simp [setLeader, List.filter_map, Function.comp_def, PendingResponse.reply]
    have hqueue : (s.setLeader tp' l e.passed).responseQueue = s.responseQueue := rfl
    rw [hheld, hpost, hqueue]
    refine (List.Perm.append_left _ (List.perm_append_comm.append_right _)).trans ?_
    have hmap := (List.perm_append_comm.trans hperm).map fun x : Response =>
      ((x.1, ⟨some tp', x.2⟩) : ℤ × Reply)
    simpa using hmap.append_right _
  · have hheld : ((s.setLeader tp l e.passed).leader tp').held = (s.leader tp').held :=
      congrArg (fun rm => Leader.held ⟨rm, _⟩) (Function.update_of_ne heq _ _)
    have hpost : (s.setLeader tp l e.passed).posting.filter (·.origin = tp') =
        s.posting.filter (·.origin = tp') := by
      simp [setLeader, List.filter_map, Function.comp_def, Ne.symm heq]
    rw [hheld, hpost]
    rfl

/-- What `drain_response_queue` does to the connections leaves their numbers. -/
theorem foldl_deliver (rs : List PendingResponse) :
    ∃ conns, rs.foldl deliver s = { s with conns := conns } ∧
      ∀ fd, (conns fd).map ConnectionState.id = (s.conns fd).map ConnectionState.id := by
  induction rs generalizing s with
  | nil => exact ⟨s.conns, rfl, fun _ => rfl⟩
  | cons r rs ih =>
    obtain ⟨conns, heq, hid⟩ := @ih (s.deliver r)
    rw [List.foldl_cons, heq]
    have hr : s.deliver r = { s with conns := (s.deliver r).conns } := by
      rw [deliver]
      split <;> rfl
    refine ⟨conns, by rw [hr], fun fd => (hid fd).trans ?_⟩
    rw [deliver]
    split
    · rfl
    · rename_i c hc
      exact conn_setConn hc (c.id_enqueue r.data) fd

theorem loop_drainResponseQueue : s.drainResponseQueue.loop = s.loop := by
  obtain ⟨conns, hfold, -⟩ := @foldl_deliver κ { s with responseQueue := [] } s.responseQueue
  rw [drainResponseQueue, hfold]

theorem deferral_drain (hl : s.loop = .polling) :
    Run Deferral.Step s.deferral
      (Event.drained (κ := κ) (s.responseQueue.map fun r =>
        (r, (s.conns r.fd).map ConnectionState.id))).deferral s.drainResponseQueue.deferral := by
  have hb : s.loop.batch? = none := by rw [hl]; rfl
  obtain ⟨conns, hfold, hid⟩ := @foldl_deliver κ { s with responseQueue := [] } s.responseQueue
  have hs : s.drainResponseQueue.deferral =
      { s.deferral with owed := fun tp => ↑(owed { s with responseQueue := [] } tp) } := by
    rw [drainResponseQueue, hfold]
    exact Deferral.ext (funext hid) rfl rfl rfl rfl
  have hrun := @Deferral.run_deliver _ _ _ _ s.deferral _ _
    (s.responseQueue.map fun r => (r.origin, r.reply))
    (fun tp => ↑(owed { s with responseQueue := [] } tp))
    (fun fd => congrFun (responsesOf_none hb) fd) fun tp => ?_
  · rw [hs]
    convert hrun using 1
    simp [Event.deferral, PendingResponse.reply, Function.comp_def]
  · have hqueue : ((s.responseQueue.map fun r => (r.origin, r.reply)).filter (·.1 = tp)).map
        Prod.snd = (s.responseQueue.filter (·.origin = tp)).map PendingResponse.reply := by
      simp [List.filter_map, Function.comp_def]
    have hsplit : s.owed tp = owed { s with responseQueue := [] } tp ++
        (s.responseQueue.filter (·.origin = tp)).map PendingResponse.reply := by
      simp [owed, registering, leader]
    rw [owed_deferral, hqueue, hsplit, Multiset.coe_add, Multiset.coe_eq_coe]
    exact List.perm_append_comm

/-- A step of the broker, as what it does to the responses. The entries of the replica
    managers hold their responses. -/
theorem Step.deferral (hst : Step s e s') (h : ∀ tp, (s.leader tp).Sound) :
    Run Deferral.Step s.deferral e.deferral s'.deferral := by
  cases hst with
  | @accept fd hl hc =>
    have hd : s.deferral.conn fd = none := by rw [conn_deferral, hc, Option.map_none]
    have hs : (s.addConn fd).deferral =
        { s.deferral with
          conn := Function.update s.deferral.conn fd (some s.deferral.opened)
          opened := s.deferral.opened + 1 } :=
      Deferral.ext (conn_update s fd _) rfl rfl rfl rfl
    rw [hs]
    exact .single (.open hd)
  | @hangUp fd hl =>
    -- What is owed to the connection stays owed to its descriptor.
    have hb : s.loop.batch? = none := by rcases hl with hl | hl <;> rw [hl] <;> rfl
    have hs : Serving.deferral { s.removeConn fd with loop := .polling } =
        { s.deferral with conn := Function.update s.deferral.conn fd none } := by
      refine Deferral.ext (conn_update s fd none) rfl (framesOf_none hb).symm
        (responsesOf_none hb).symm (owed_deferral_congr ?_)
      refine owed_congr (fun tp => ?_) (fun _ => rfl) rfl rfl
      exact (registering_of_none rfl tp).trans (registering_of_none hb tp).symm
    rw [hs]
    exact .single (.close (congrFun (framesOf_none hb) fd) (congrFun (responsesOf_none hb) fd))
  | readable hl | wouldBlock hl =>
    exact run_of_deferral_eq (deferral_between (by rw [hl]; rfl) rfl)
  | @receive fd c data hl hc hpos hlen hpush =>
    have hb : s.loop.batch? = none := by rw [hl]; rfl
    have hd : s.deferral.conn fd = some c.id := by rw [conn_deferral, hc, Option.map_some]
    have hs : Serving.deferral
        { s.setConn fd { c with decoder := (c.decoder.push data).2.2 } with
          loop := .handling ⟨fd, (c.decoder.push data).2.1, []⟩ } =
        { s.deferral with
          unhandled := Function.update s.deferral.unhandled fd (c.decoder.push data).2.1 } := by
      refine Deferral.ext (funext (conn_setConn hc rfl)) rfl ?_ ?_ (owed_deferral_congr ?_)
      · rw [unhandled_deferral, framesOf_eq rfl, unhandled_deferral, framesOf_none hb]
      · rw [batch_deferral, responsesOf_eq rfl, batch_deferral, responsesOf_none hb]
        exact Function.update_eq_self fd _
      · exact owed_congr (fun tp => by simp [registering, hl]) (fun _ => rfl) rfl rfl
    rw [hs]
    exact .single (.receive _ hd (congrFun (framesOf_none hb) fd))
  | reply hl hc hf | subscribe hl hc hf =>
    refine .single (deferral_answer (by rw [hl]; rfl) rfl hf hc (conn_setConn hc rfl) rfl ?_)
    exact owed_congr (fun tp => by simp [registering, hl]) (fun _ => rfl) rfl rfl
  | @locate b c f fs t p a hl hc hf hout =>
    refine run_of_deferral_eq (deferral_congr (conn_setConn hc rfl) rfl (by rw [hl]; rfl)
      (by rw [hl]; rfl) ?_)
    exact owed_congr (fun tp => by simp [registering, hl]) (fun _ => rfl) rfl rfl
  | @fetch b c f fs tp offset maxMessages found r hl hc hf hfound hr =>
    refine .single (deferral_answer (by rw [hl]; rfl) rfl hf hc (conn_setConn hc rfl) rfl ?_)
    exact owed_congr (fun tp => by simp [registering, hl])
      (fun tp' => held_setStore tp tp' _ ((s.stores tp).fetch offset maxMessages.toNat).2) rfl rfl
  | @refuse b c f fs tp payload now hl hc hf | @append b c f fs tp payload now hl hc hf =>
    refine .single (deferral_answer (by rw [hl]; rfl) rfl hf hc (fun _ => rfl) rfl ?_)
    exact owed_congr (fun tp => by simp [registering, hl])
      (fun tp' => held_setStore tp tp' _ ((s.stores tp).append payload now).2) rfl rfl
  | @appendDeferred b c f fs tp payload now hl hc hf hacc hacks =>
    have hoff : ((s.stores tp).command payload now).offset =
        ((s.stores tp).append payload now).1.offset := by
      rw [PartitionStore.append_of_accepted hacc]
      rfl
    -- There is no response yet, and the acknowledgement is owed from here on.
    rw [Event.deferral, hoff]
    exact .single (deferral_defer (by rw [hl]; rfl) rfl hf hc rfl rfl
      (fun tp => by simp [registering, hl])
      (fun tp' => held_setStore tp tp' _ ((s.stores tp).append payload now).2) rfl rfl)
  | @manage b tp offset hl =>
    refine run_of_deferral_eq (deferral_congr (fun _ => rfl) rfl (by rw [hl]; rfl)
      (by rw [hl]; rfl) ?_)
    exact owed_congr (fun tp => by simp [registering, hl]) (fun _ => rfl) rfl rfl
  | @register b tp offset hl =>
    exact run_of_deferral_eq (deferral_of_perm (fun _ => rfl) rfl (by rw [hl]; rfl)
      (by rw [hl]; rfl) (owed_register hl (h tp)))
  | @flush b c hl hc hf =>
    have hb : s.loop.batch? = some b := by rw [hl]; rfl
    have hd : s.deferral.conn b.fd = some c.id := by rw [conn_deferral, hc, Option.map_some]
    have hs : Serving.deferral
        { s.setConn b.fd (c.finishBatch (b.responses.flatMap Reply.bytes)) with
          loop := .reading b.fd } =
        { s.deferral with batch := Function.update s.deferral.batch b.fd [] } := by
      refine Deferral.ext (funext (conn_setConn hc (by simp))) rfl ?_ ?_ (owed_deferral_congr ?_)
      · rw [unhandled_deferral, framesOf_none rfl, unhandled_deferral, framesOf_eq hb, hf]
        exact (Function.update_eq_self b.fd _).symm
      · rw [batch_deferral, responsesOf_none rfl, batch_deferral, responsesOf_eq hb,
          Function.update_idem]
        exact (Function.update_eq_self b.fd _).symm
      · exact owed_congr (fun tp => by simp [registering, hl]) (fun _ => rfl) rfl rfl
    rw [hs, Event.deferral, ← responsesOf_self hb]
    exact .single (.flush hd)
  | drain hl => exact deferral_drain hl
  | @write fd c sent hl hc hsent =>
    exact run_of_deferral_eq (deferral_congr (conn_setConn hc (by simp)) rfl rfl rfl rfl)
  | @store tp e store' hst =>
    refine run_of_deferral_eq (deferral_congr (fun _ => rfl) rfl rfl rfl ?_)
    exact owed_congr (fun _ => rfl) (fun _ => held_setStore _ _ _ _) rfl rfl
  | @lead tp e l hm hst hw =>
    exact run_of_deferral_eq (deferral_of_perm (fun _ => rfl) rfl rfl rfl
      (owed_setLeader hst hw (h tp)))
  | @post r rs rs' hp =>
    refine run_of_deferral_eq (deferral_of_perm (fun _ => rfl) rfl rfl rfl fun tp => ?_)
    refine List.Perm.append_left _ (List.Perm.append_left _ ?_)
    rw [← List.map_append, ← List.map_append, ← List.filter_append, ← List.filter_append, hp]
    refine List.Perm.map _ (List.Perm.filter _ ?_)
    simpa using (List.perm_append_singleton r (rs' ++ s.responseQueue)).append_left rs
  | change metaReg =>
    exact run_of_deferral_eq (deferral_congr (fun _ => rfl) rfl rfl rfl rfl)

/-! ## The replica managers -/

theorem managers_setStore_of_nil (s : Serving κ) (tp : PartitionKey) {e : PartitionStore.Event κ}
    (st : PartitionStore κ) (he : e.toldOf = []) : (s.setStore tp e st).managers = s.managers := by
  have hcb : ∀ rm : ReplicaManager, Publishing.commitCallback rm e = rm := by
    intro rm
    simp only [Publishing.commitCallback]
    split
    · exact absurd he (List.cons_ne_nil _ _)
    · rfl
  simp only [setStore, hcb, Function.update_eq_self, ite_self]

/-- What a step may do to the replica manager of a partition: nothing, tell it of a batch that
    is committed, or let one of its own threads move. -/
theorem Step.manager_cases (hst : Step s e s') (tp : PartitionKey) :
    (s'.managers tp = s.managers tp ∧ ∀ e', e ≠ .led tp e') ∨
    (∃ cmd rest fired, e = .stored tp (.notified (cmd :: rest) fired) ∧
      s'.managers tp = (s.managers tp).enqueueCommitted ⟨cmd.offset, cmd :: rest⟩) ∨
    ∃ e' l, e = .led tp e' ∧ Leader.Step s.broker.cfg.maxLagMessages (s.leader tp) e' l ∧
      s'.managers tp = l.manager ∧ (∀ reg ∈ e'.registration, reg.2.2 = encodeAck reg.1) ∧
      e'.enqueue = [] := by
  cases hst with
  | @fetch b c f fs tp' offset maxMessages found r hl hc hf hfound hr =>
    exact .inl ⟨congrFun (managers_setStore_of_nil (s.setConn b.fd { c with session := r.2 }) tp'
      ((s.stores tp').fetch offset maxMessages.toNat).2 rfl) tp, fun _ he => by cases he⟩
  | @refuse b c f fs tp' payload now | @append b c f fs tp' payload now
  | @appendDeferred b c f fs tp' payload now =>
    exact .inl ⟨congrFun (managers_setStore_of_nil s tp'
      ((s.stores tp').append payload now).2 rfl) tp, fun _ he => by cases he⟩
  | @register b tp' offset hl =>
    by_cases heq : tp = tp'
    · subst heq
      refine .inr (.inr ⟨_, _, rfl, .register offset (encodeAck offset) b.fd,
        Function.update_self tp _ _, fun reg hreg => ?_, rfl⟩)
      rw [List.mem_singleton.1 hreg]
    · exact .inl ⟨Function.update_of_ne heq _ _, fun e' he => heq (Event.led.inj he).1.symm⟩
  | drain hl =>
    obtain ⟨conns, hfold, -⟩ := @foldl_deliver κ { s with responseQueue := [] } s.responseQueue
    exact .inl ⟨by rw [drainResponseQueue, hfold], fun _ he => by cases he⟩
  | @store tp' e store' hst =>
    by_cases heq : tp = tp'
    · subst heq
      rcases htold : e.toldOf with _ | ⟨cmd, rest⟩
      · exact .inl ⟨congrFun (managers_setStore_of_nil s tp store' htold) tp,
          fun _ he => by cases he⟩
      · -- Of the events of a store, only this one is told of.
        cases e with
        | notified batch fired =>
          obtain rfl : batch = cmd :: rest := htold
          by_cases hm : s.Managed tp
          · refine .inr (.inl ⟨cmd, rest, fired, rfl, ?_⟩)
            simp [setStore, hm, Publishing.commitCallback]
          · exact .inl ⟨by simp [setStore, hm], fun _ he => by cases he⟩
        | _ => cases htold
    · refine .inl ⟨?_, fun _ he => by cases he⟩
      simp only [setStore]
      split_ifs
      · exact Function.update_of_ne heq _ _
      · rfl
  | @lead tp' e l hm hst hw =>
    by_cases heq : tp = tp'
    · subst heq
      refine .inr (.inr ⟨e, l, rfl, hst, Function.update_self tp _ _, ?_, ?_⟩)
      · cases e with
        | registered => exact hw.elim
        | _ => exact fun reg hreg => absurd hreg List.not_mem_nil
      · cases e with
        | enqueued => exact hw.elim
        | _ => rfl
    · exact .inl ⟨Function.update_of_ne heq _ _, fun e' he => heq (Event.led.inj he).1.symm⟩
  | accept | hangUp | readable | receive | wouldBlock | reply | locate | subscribe | manage | flush
  | write | post | change => exact .inl ⟨rfl, fun _ he => by cases he⟩

/-- The entries of the replica managers hold their responses. -/
theorem Step.sound (hst : Step s e s') (h : ∀ tp, (s.leader tp).Sound) (tp : PartitionKey) :
    (s'.leader tp).Sound := by
  have hs : s'.leader tp = ⟨s'.managers tp, (s'.leader tp).partition⟩ := rfl
  rcases hst.manager_cases tp with ⟨heq, -⟩ | ⟨cmd, rest, fired, -, heq⟩ |
    ⟨e', l, -, hlst, heq, hreg, -⟩
  · rw [hs, heq]
    exact h tp
  · rw [hs, heq]
    exact h tp
  · rw [hs, heq]
    refine hlst.sound (h tp) fun reg hmem => ?_
    rw [hreg reg hmem]
    exact encodeFrame_ne_nil _ _

/-! ## Runs -/

/-- A broker that has just started: no connection has been accepted, and no acknowledgement
    deferred. -/
structure Started (s : Serving κ) : Prop where
  managers : ∀ tp, s.managers tp = {}
  conns : ∀ fd, s.conns fd = none
  posting : s.posting = []
  responseQueue : s.responseQueue = []
  loop : s.loop = .polling

theorem Started.new (h : Started s) : s.deferral.New where
  conn fd := by rw [conn_deferral, h.conns, Option.map_none]
  unhandled fd := by rw [unhandled_deferral, h.loop]; rfl
  batch fd := by rw [batch_deferral, h.loop]; rfl
  owed tp := by
    have hheld : (s.leader tp).held = [] := by rw [leader, h.managers]; rfl
    rw [owed_deferral, owed, hheld, h.posting, h.responseQueue, registering, h.loop]
    rfl

theorem Run.sound (hr : Run Step s₀ es s) (h : Started s₀) (tp : PartitionKey) :
    (s.leader tp).Sound := by
  refine hr.invariant (I := fun _ s => ∀ tp, (s.leader tp).Sound) (fun tp => ?_)
    (fun _ ih hst => hst.sound ih) tp
  rw [leader, h.managers]
  exact fun pa hpa => absurd hpa List.not_mem_nil

/-- What has happened to the responses. -/
def deferralEvents (es : List (Event κ)) : List (Deferral.Event ℤ PartitionKey Frame Reply) :=
  es.flatMap Event.deferral

/-- A run of the broker is a run of a server that defers responses. -/
theorem Run.deferral (hr : Run Step s₀ es s) (h : Started s₀) :
    Run Deferral.Step s₀.deferral (deferralEvents es) s.deferral :=
  hr.simulate Serving.deferral Event.deferral fun hr hst => hst.deferral (Run.sound hr h)

end Serving

end Fell.Broker
