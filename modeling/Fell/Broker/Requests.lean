import Fell.Broker.EventLoop

/-!
# Requests, from the frame to the response

`RequestHandler::handle` as a whole: the checks of a request (`RequestHandler.handle`), and then
what it does at the partition it comes to, with no other thread in between. The event loop takes
the same steps one by one (`Serving.run_serve`).

* `publishes`: a publish request is answered with an error and changes no partition, or its record
  is the only one appended, to the partition that the routing rules name, and its offset is
  acknowledged;
* `serve_publish_eq_publishV2`: without a key, the two publish requests are the same.
-/

namespace Fell.Broker

open Platform Replication Storage

/-- The arguments of `defer_cb_`. -/
structure DeferredAck where
  topic : Bytes
  partition : UInt16
  offset : UInt64
  ackResp : Bytes
  producerFd : ℤ

/-- What a request comes to. -/
structure Served (κ : Type) where
  response : Bytes
  deferred : Option DeferredAck := none
  session : Session
  handler : RequestHandler
  stores : PartitionKey → PartitionStore κ

namespace RequestHandler

instance (h : RequestHandler) : Decidable h.Defers :=
  inferInstanceAs (Decidable (_ ∧ _))

variable {κ : Type} (h : RequestHandler) (stores : PartitionKey → PartitionStore κ)
  (sess : Session) (fd : ℤ) (now : UInt64)

/-- What is done at a partition. There is no result if `fetch` throws an exception. -/
def access (t : Bytes) (p : UInt16) : Access → Option (Served κ)
  | .append message =>
    let result := (stores (t, p)).append message now
    let stores := Function.update stores (t, p) result.2
    if result.1.accepted then
      let ack := encodeAck result.1.offset
      if h.Defers then
        some ⟨[], some ⟨t, p, result.1.offset, ack, fd⟩, sess, h, stores⟩
      else some ⟨ack, none, sess, h, stores⟩
    else some ⟨refusal result.1.error, none, sess, h, stores⟩
  | .subscribe startOffset =>
    let r := subscribeAt sess t p startOffset (stores (t, p)).nextOffsetOfWriter
    some ⟨r.1, none, r.2, h, stores⟩
  | .fetch offset maxMessages =>
    let result := (stores (t, p)).fetch offset maxMessages.toNat
    result.1.map fun messages =>
      let r := fetched sess messages
      ⟨r.1, none, r.2, h, Function.update stores (t, p) result.2⟩

/-- `handle`, for a request received on the descriptor `fd` at the time `now`. -/
def serve (f : Frame) : Option (Served κ) :=
  let r := h.handle sess f
  match r.outcome with
  | .reply resp => some ⟨resp, none, r.session, r.handler, stores⟩
  | .access t p a => r.handler.access stores r.session fd now t p a

end RequestHandler

/-! ## Publish requests -/

/-- What a publish request asks for. `PUBLISH` has no key. -/
structure Publication where
  topic : Bytes
  partition : UInt16
  key : Bytes
  payloadSize : UInt32
  /-- The bytes behind the fixed header. -/
  message : Bytes

/-- The publish request in a frame. -/
def Frame.publication (f : Frame) : Publication :=
  if f.op = .publish then
    let req := PublishReq.ofPayload f.payload
    ⟨req.topicName, req.partition, [], req.payloadSize, f.payload.drop PublishReq.size⟩
  else
    let req := PublishV2Req.ofPayload f.payload
    ⟨req.topicName, req.partition, req.routingKey, req.payloadSize,
      f.payload.drop PublishV2Req.size⟩

/-- The partition a message is for: the one the key is hashed to, or else the one that is named, or
    else the next one in turn. -/
def Publication.target (pub : Publication) (count rrCounter : UInt16) : UInt16 :=
  if pub.key ≠ [] then (RequestHandler.fnv1a pub.key % count.toUInt64).toUInt16
  else if pub.partition < count then pub.partition
  else rrCounter % count

namespace RequestHandler

section

variable {h : RequestHandler} {sess : Session} {f : Frame}

theorem handle_publish (hop : f.op = .publish) :
    h.handle sess f = h.handlePublish sess f.payload := by
  rw [handle, hop]
  rfl

theorem handle_publishV2 (hop : f.op = .publishV2) :
    h.handle sess f = h.handlePublishV2 sess f.payload := by
  rw [handle, hop]
  rfl

/-- A message is turned down, or goes on to a partition that the broker leads. -/
def Admitted (h : RequestHandler) (pub : Publication) (p : UInt16) (r : Handled) : Prop :=
  (∃ code msg, r.outcome = .reply (encodeError code msg)) ∨
    p < h.numPartitions pub.topic ∧ (∀ reg ∈ h.metaReg, (reg.find pub.topic p).role = .leader) ∧
      pub.message.length = pub.payloadSize.toNat ∧
      ∃ message : Payload, message.bytes = pub.message ∧
        r.outcome = .access pub.topic p (.append message)

theorem admitted_refuse (pub : Publication) (p : UInt16) (code : ErrCode) (msg : String) :
    Admitted h pub p (h.refuse sess code msg) := .inl ⟨code, msg, rfl⟩

theorem admitted_locate {pub : Publication} {p : UInt16} {message : Payload}
    (hp : p < h.numPartitions pub.topic) (hmsg : message.bytes = pub.message)
    (hlen : pub.message.length = pub.payloadSize.toNat) :
    Admitted h pub p (h.locate sess pub.topic p (.append message)) := by
  rw [locate]
  split_ifs with hrole hfound
  · exact .inl ⟨_, _, rfl⟩
  · refine .inr ⟨hp, fun reg hreg => ?_, hlen, message, hmsg, rfl⟩
    rw [Option.mem_def] at hreg
    simpa [notLeader, hreg] using hrole
  · exact .inl ⟨_, _, rfl⟩

theorem mod_lt_of_ne_zero (a : UInt16) {n : UInt16} (hn : n ≠ 0) : a % n < n := by
  have hpos : 0 < n.toNat := Nat.pos_of_ne_zero fun h => hn (UInt16.toNat_inj.1 h)
  rw [UInt16.lt_iff_toNat_lt, UInt16.toNat_mod]
  exact Nat.mod_lt _ hpos

theorem hash_lt {n : UInt16} (hn : n ≠ 0) (a : UInt64) : (a % n.toUInt64).toUInt16 < n := by
  have hpos : 0 < n.toNat := Nat.pos_of_ne_zero fun h => hn (UInt16.toNat_inj.1 h)
  have hlt := Nat.mod_lt a.toNat hpos
  rw [UInt16.lt_iff_toNat_lt, UInt64.toNat_toUInt16, UInt64.toNat_mod, UInt16.toNat_toUInt64]
  exact (Nat.mod_le _ _).trans_lt hlt

/-- The index that asks for round robin is that of no partition. -/
theorem not_roundRobin_lt (n : UInt16) : ¬roundRobin < n := by
  rw [UInt16.lt_iff_toNat_lt]
  exact Nat.not_lt.2 (Nat.le_of_lt_succ n.toNat_lt)

theorem admitted_publishKeyless {pub : Publication} {message : Payload} (hkey : pub.key = [])
    (hn : h.numPartitions pub.topic ≠ 0) (hmsg : message.bytes = pub.message)
    (hlen : pub.message.length = pub.payloadSize.toNat) :
    Admitted h pub (pub.target (h.numPartitions pub.topic) sess.rrCounter)
      (h.publishKeyless sess pub.topic pub.partition message) := by
  rw [publishKeyless, Publication.target, if_neg (not_not.2 hkey)]
  by_cases hlt : pub.partition < h.numPartitions pub.topic
  · have hrr : pub.partition ≠ roundRobin := fun hrr => not_roundRobin_lt _ (hrr ▸ hlt)
    rw [if_pos hlt, if_neg hrr, if_neg (UInt16.not_le.2 hlt)]
    exact admitted_locate hlt hmsg hlen
  · rw [if_neg hlt, if_pos (UInt16.not_lt.1 hlt)]
    split_ifs with hrr
    · exact admitted_locate (mod_lt_of_ne_zero _ hn) hmsg hlen
    · exact admitted_refuse _ _ _ _

/-- The bytes behind the fixed header are the message, if their number is the one announced. -/
theorem bytes_take_drop {payload : Bytes} {header : ℕ} {size : UInt32}
    (hlen : payload.length = header + size.toNat) :
    (payload.drop header).length = size.toNat ∧
      (Payload.take size (payload.drop header)).bytes = payload.drop header := by
  have hdrop : (payload.drop header).length = size.toNat := by
    rw [List.length_drop, hlen, Nat.add_sub_cancel_left]
  exact ⟨hdrop, List.take_of_length_le hdrop.le⟩

theorem length_key {payload : Bytes} (hsize : PublishV2Req.size ≤ payload.length) :
    (PublishV2Req.ofPayload payload).key.length = fieldSize := by
  rw [PublishV2Req.size] at hsize
  simp only [PublishV2Req.ofPayload, List.length_take, List.length_drop]
  omega

/-- A key of a length that is not zero is not empty. -/
theorem routingKey_ne_nil {payload : Bytes} (hsize : PublishV2Req.size ≤ payload.length)
    (hkey : 0 < (PublishV2Req.ofPayload payload).keyLen) :
    (PublishV2Req.ofPayload payload).routingKey ≠ [] := by
  have hkey := UInt8.lt_iff_toNat_lt.1 hkey
  have hlen := length_key hsize
  intro hnil
  have := congrArg List.length hnil
  rw [PublishV2Req.routingKey, List.length_take, hlen] at this
  simp only [fieldSize, List.length_nil, UInt8.toNat_zero] at this hkey
  omega

theorem routingKey_eq_nil {req : PublishV2Req} (hkey : ¬0 < req.keyLen) : req.routingKey = [] := by
  have : req.keyLen.toNat = 0 := by
    rw [UInt8.lt_iff_toNat_lt] at hkey
    simpa using hkey
  rw [PublishV2Req.routingKey, this, List.take_zero]

theorem admitted_handle (h : RequestHandler) (sess : Session)
    (hop : f.op = .publish ∨ f.op = .publishV2) :
    Admitted h f.publication
      (f.publication.target (h.numPartitions f.publication.topic) sess.rrCounter)
      (h.handle sess f) := by
  rcases hop with hop | hop
  · rw [handle_publish hop, Frame.publication, if_pos hop, handlePublish]
    dsimp only
    split_ifs with hsize hlen htopic hn
    iterate 4 exact admitted_refuse _ _ _ _
    obtain ⟨hlen, hmsg⟩ := bytes_take_drop (not_not.1 hlen)
    exact @admitted_publishKeyless h sess ⟨_, _, [], _, _⟩ _ rfl hn hmsg hlen
  · have hne : f.op ≠ .publish := by
      rw [hop]
      decide
    rw [handle_publishV2 hop, Frame.publication, if_neg hne, handlePublishV2]
    dsimp only
    split_ifs with hsize hlen htopic hn hkey
    iterate 4 exact admitted_refuse _ _ _ _
    · obtain ⟨hlen, hmsg⟩ := bytes_take_drop (not_not.1 hlen)
      rw [Publication.target, if_pos (routingKey_ne_nil (not_lt.1 hsize) hkey)]
      exact @admitted_locate h sess ⟨_, _, _, _, _⟩ _ _ (hash_lt hn _) hmsg hlen
    · obtain ⟨hlen, hmsg⟩ := bytes_take_drop (not_not.1 hlen)
      exact @admitted_publishKeyless h sess ⟨_, _, _, _, _⟩ _ (routingKey_eq_nil hkey) hn hmsg hlen

end

section

variable {κ : Type} {h : RequestHandler} {stores : PartitionKey → PartitionStore κ}
  {sess : Session} {fd : ℤ} {now : UInt64} {f : Frame}

/-- The request is answered with an error, and no partition has changed. -/
def Rejected (stores : PartitionKey → PartitionStore κ) (r : Served κ) : Prop :=
  (∃ code msg, r.response = encodeError code msg) ∧ r.deferred = none ∧ r.stores = stores

/-- The record of `message` is appended to the partition `p` of the topic, no other partition has
    changed, and the offset of the record is acknowledged, at once or later. -/
structure Published (stores : PartitionKey → PartitionStore κ) (fd : ℤ) (now : UInt64)
    (topic : Bytes) (p : UInt16) (message : Payload) (r : Served κ) : Prop where
  appended : r.stores (topic, p) = (stores (topic, p)).enqueue message now
  queue : (r.stores (topic, p)).queue =
    (stores (topic, p)).queue ++ [(stores (topic, p)).command message now]
  others : ∀ tp ≠ (topic, p), r.stores tp = stores tp
  acknowledged :
    let offset := ((stores (topic, p)).command message now).offset
    r.response = encodeAck offset ∧ r.deferred = none ∨
      r.response = [] ∧ r.deferred = some ⟨topic, p, offset, encodeAck offset, fd⟩

theorem refusal_eq (error : AppendError) : ∃ code msg, refusal error = encodeError code msg := by
  cases error <;> exact ⟨_, _, rfl⟩

theorem access_append (h : RequestHandler) (stores : PartitionKey → PartitionStore κ)
    (sess : Session) (fd : ℤ) (now : UInt64) (t : Bytes) (p : UInt16) (message : Payload) :
    ∃ r, h.access stores sess fd now t p (.append message) = some r ∧
      (Rejected stores r ∨ Published stores fd now t p message r) := by
  rw [access]
  cases hacc : ((stores (t, p)).append message now).1.accepted with
  | false =>
    rw [if_neg Bool.false_ne_true]
    refine ⟨_, rfl, .inl ⟨refusal_eq _, rfl, ?_⟩⟩
    rw [PartitionStore.append_of_rejected hacc]
    exact Function.update_eq_self _ _
  | true =>
    rw [if_pos rfl, PartitionStore.append_of_accepted hacc]
    have happ := Function.update_self (t, p) ((stores (t, p)).enqueue message now) stores
    have hothers : ∀ tp ≠ (t, p),
        Function.update stores (t, p) ((stores (t, p)).enqueue message now) tp = stores tp :=
      fun tp hne => Function.update_of_ne hne _ _
    split_ifs
    · exact ⟨_, rfl, .inr ⟨happ, congrArg _ happ, hothers, .inr ⟨rfl, rfl⟩⟩⟩
    · exact ⟨_, rfl, .inr ⟨happ, congrArg _ happ, hothers, .inl ⟨rfl, rfl⟩⟩⟩

/-- A publish request is answered with an error and changes no partition, or its message is
    appended to the partition it is for, which this broker leads, and acknowledged. -/
theorem publishes (h : RequestHandler) (stores : PartitionKey → PartitionStore κ)
    (sess : Session) (fd : ℤ) (now : UInt64) (hop : f.op = .publish ∨ f.op = .publishV2) :
    ∃ r, h.serve stores sess fd now f = some r ∧
      (Rejected stores r ∨
        let pub := f.publication
        let p := pub.target (h.numPartitions pub.topic) sess.rrCounter
        p < h.numPartitions pub.topic ∧
          (∀ reg ∈ h.metaReg, (reg.find pub.topic p).role = .leader) ∧
          pub.message.length = pub.payloadSize.toNat ∧
          ∃ message : Payload, message.bytes = pub.message ∧
            Published stores fd now pub.topic p message r) := by
  rw [serve]
  rcases admitted_handle h sess hop with
    ⟨code, msg, hout⟩ | ⟨hp, hrole, hlen, message, hmsg, hout⟩
  · rw [hout]
    exact ⟨_, rfl, .inl ⟨⟨code, msg, rfl⟩, rfl, rfl⟩⟩
  · rw [hout]
    obtain ⟨r, hr, hrej | hpub⟩ := access_append (h.handle sess f).handler stores
      (h.handle sess f).session fd now _ _ message
    · exact ⟨r, hr, .inl hrej⟩
    · exact ⟨r, hr, .inr ⟨hp, hrole, hlen, message, hmsg, hpub⟩⟩

/-- A handler with a topic of one partition, and neither a configuration nor the metadata. -/
def lone : RequestHandler where
  topics := AList.insert (ascii "t") ⟨1, Nat.one_pos⟩ ∅
  missing _ _ := false
  cfg := none
  metaReg := none
  deferCb := false

theorem not_defers_lone : ¬lone.Defers := fun h => Bool.false_ne_true h.2

/-- A request to publish the byte `7`. -/
def publishSeven : Frame :=
  ⟨.publish, [1, 116] ++ List.replicate 256 0 ++ [0, 0, 0, 1, 7]⟩

theorem response_publishSeven :
    (lone.serve (fun _ => Publishing.emptyStore) {} 5 0 publishSeven).map Served.response =
      some (encodeAck 0) := by
  decide +kernel

theorem publishes_lone : ∃ r : Served Unit,
    lone.serve (fun _ => Publishing.emptyStore) {} 5 0 publishSeven = some r ∧
      ∃ message : Payload, message.bytes = publishSeven.publication.message ∧
        Published (fun _ => Publishing.emptyStore) 5 0 publishSeven.publication.topic
          (publishSeven.publication.target (lone.numPartitions publishSeven.publication.topic) 0)
          message r := by
  obtain ⟨r, hr, ⟨⟨code, msg, herr⟩, -⟩ | ⟨-, -, -, message, hmsg, hpub⟩⟩ :=
    publishes lone (fun _ => Publishing.emptyStore) {} 5 0
      (.inl rfl : publishSeven.op = .publish ∨ publishSeven.op = .publishV2)
  · have hresp := response_publishSeven
    rw [hr, Option.map_some, herr] at hresp
    exact absurd (Option.some.inj hresp) (encodeError_ne_encodeAck _ _ _)
  · exact ⟨r, hr, message, hmsg, hpub⟩

end

/-! ## The two publish requests -/

/-- A `PUBLISH` and a `PUBLISH_V2` without a key, which are alike in all other respects, and of the
    size that they announce. -/
structure Twins (f f' : Frame) : Prop where
  op : f.op = .publish
  op' : f'.op = .publishV2
  topic : (PublishReq.ofPayload f.payload).toTopicReq =
    (PublishV2Req.ofPayload f'.payload).toTopicReq
  partition : (PublishReq.ofPayload f.payload).partition =
    (PublishV2Req.ofPayload f'.payload).partition
  payloadSize : (PublishReq.ofPayload f.payload).payloadSize =
    (PublishV2Req.ofPayload f'.payload).payloadSize
  message : f.payload.drop PublishReq.size = f'.payload.drop PublishV2Req.size
  keyLen : (PublishV2Req.ofPayload f'.payload).keyLen = 0
  length : f.payload.length =
    PublishReq.size + (PublishReq.ofPayload f.payload).payloadSize.toNat
  length' : f'.payload.length =
    PublishV2Req.size + (PublishV2Req.ofPayload f'.payload).payloadSize.toNat

theorem Twins.handle_eq {f f' : Frame} (ht : Twins f f') (h : RequestHandler) (sess : Session) :
    h.handle sess f = h.handle sess f' := by
  have hsize : ¬f.payload.length < PublishReq.size := by
    rw [ht.length]
    exact Nat.not_lt.2 (Nat.le_add_right _ _)
  have hsize' : ¬f'.payload.length < PublishV2Req.size := by
    rw [ht.length']
    exact Nat.not_lt.2 (Nat.le_add_right _ _)
  have hkey : ¬0 < (PublishV2Req.ofPayload f'.payload).keyLen := by
    rw [ht.keyLen]
    decide
  rw [handle_publish ht.op, handle_publishV2 ht.op', handlePublish, handlePublishV2, if_neg hsize,
    if_neg hsize']
  dsimp only
  rw [if_neg (not_not.2 ht.length), if_neg (not_not.2 ht.length'), if_neg hkey, ht.topic,
    ht.partition, ht.payloadSize, ht.message]

/-- Without a key, `PUBLISH` and `PUBLISH_V2` are the same. -/
theorem serve_publish_eq_publishV2 {κ : Type} {f f' : Frame} (ht : Twins f f') (h : RequestHandler)
    (stores : PartitionKey → PartitionStore κ) (sess : Session) (fd : ℤ) (now : UInt64) :
    h.serve stores sess fd now f = h.serve stores sess fd now f' := by
  rw [serve, serve, ht.handle_eq]

/-- The same request as `publishSeven`, with some bytes in the field of the key. -/
def publishSevenV2 : Frame :=
  ⟨.publishV2, [1, 116] ++ List.replicate 256 0 ++ [0] ++ List.replicate 255 3 ++ [0, 0, 0, 1, 7]⟩

theorem twins_publishSeven : Twins publishSeven publishSevenV2 where
  op := rfl
  op' := rfl
  topic := congrArg₂ TopicReq.mk (by decide +kernel) (by decide +kernel)
  partition := by decide +kernel
  payloadSize := by decide +kernel
  message := by decide +kernel
  keyLen := by decide +kernel
  length := by decide +kernel
  length' := by decide +kernel

theorem serve_publishSevenV2 : Twins publishSeven publishSevenV2 ∧
    lone.serve (fun _ => Publishing.emptyStore) {} 5 0 publishSeven =
      lone.serve (fun _ => Publishing.emptyStore) {} 5 0 publishSevenV2 :=
  ⟨twins_publishSeven, serve_publish_eq_publishV2 twins_publishSeven _ _ _ _ _⟩

theorem isSome_metaReg_locate {h : RequestHandler} {sess : Session} (t : Bytes) (p : UInt16)
    (a : Access) : (h.locate sess t p a).handler.metaReg.isSome = h.metaReg.isSome := by
  simp only [locate]
  split_ifs <;> exact Option.isSome_map

/-- No request takes the metadata away. -/
theorem Course.isSome_metaReg {h : RequestHandler} {sess : Session} {f : Frame} {r : Handled}
    (hc : Course h sess f r) : r.handler.metaReg.isSome = h.metaReg.isSome := by
  cases hc with
  | metadata =>
    simp only [handleMetadataReq]
    split_ifs
    · rfl
    · split
      · next hreg => rw [hreg]; rfl
      · rfl
  | create =>
    simp only [handleCreateTopic]
    split_ifs
    iterate 4 rfl
    simp only [seedRoles]
    split
    · next hreg => exact (congrArg Option.isSome hreg).symm
    · rfl
  | refuse => rfl
  | publish | read => exact isSome_metaReg_locate _ _ _

end RequestHandler

/-! ## The event loop -/

namespace Serving

variable {κ : Type} {s : Serving κ} {b : Batch} {c : ConnectionState} {f : Frame}
  {fs : List Frame} {now : UInt64} {r : Served κ}

/-- The request is answered: its response is in the batch, or is to be deferred. -/
structure Answered (s : Serving κ) (b : Batch) (c : ConnectionState) (r : Served κ)
    (s' : Serving κ) : Prop where
  stores : s'.stores = r.stores
  conn : s'.conns = Function.update s.conns b.fd (some { c with session := r.session })
  handler : s'.broker.requestHandler s'.missing = r.handler
  loop : match r.deferred with
    | none => ∃ origin, s'.loop = .handling (b.answer ⟨origin, r.response⟩)
    | some d => r.response = [] ∧ d.producerFd = b.fd ∧ d.ackResp = encodeAck d.offset ∧
        s'.loop = .appended b.skip (d.topic, d.partition) d.offset

/-- The registries of the broker are those the handler leaves. -/
theorem requestHandler_afterHandle (c : ConnectionState) (f : Frame) (fd : ℤ) :
    (s.afterHandle fd c (s.handle c f)).broker.requestHandler
      (s.afterHandle fd c (s.handle c f)).missing = (s.handle c f).handler := by
  have hkeeps : RequestHandler.Keeps (s.broker.requestHandler s.missing) (s.handle c f) :=
    RequestHandler.keeps_handle f
  have hmeta : (s.handle c f).handler.metaReg.isSome :=
    (RequestHandler.course_handle f).isSome_metaReg.trans rfl
  obtain ⟨reg, hreg⟩ := Option.isSome_iff_exists.1 hmeta
  generalize s.handle c f = r at *
  obtain ⟨out, sess, ⟨topics, missing, cfg, metaReg, deferCb⟩⟩ := r
  obtain ⟨rfl, rfl⟩ := hkeeps
  obtain rfl : metaReg = some reg := hreg
  rfl

theorem step_access {t : Bytes} {p : UInt16} {a : Access} (hl : s.loop = .accessing b (t, p) a)
    (hc : s.conns b.fd = some c) (hf : b.frames = f :: fs)
    (hr : (s.broker.requestHandler s.missing).access s.stores c.session b.fd now t p a = some r) :
    ∃ e s', Step s e s' ∧ s.Answered b c r s' := by
  have hself : s.conns = Function.update s.conns b.fd (some c) := by
    rw [← hc, Function.update_eq_self]
  cases a with
  | append message =>
    rw [RequestHandler.access] at hr
    cases hacc : ((s.stores (t, p)).append message now).1.accepted with
    | false =>
      rw [hacc, if_neg Bool.false_ne_true, Option.some.injEq] at hr
      subst hr
      exact ⟨_, _, .refuse now hl hc hf hacc, rfl, hself, rfl, none, rfl⟩
    | true =>
      rw [hacc, if_pos rfl] at hr
      by_cases hacks : s.broker.cfg.acks = -1
      · rw [if_pos ((defers_requestHandler _ _).2 hacks), Option.some.injEq] at hr
        subst hr
        exact ⟨_, _, .appendDeferred now hl hc hf hacc hacks, rfl, hself, rfl, rfl, rfl, rfl, rfl⟩
      · rw [if_neg (fun h => hacks ((defers_requestHandler _ _).1 h)), Option.some.injEq] at hr
        subst hr
        exact ⟨_, _, .append now hl hc hf hacc hacks, rfl, hself, rfl, some (t, p), rfl⟩
  | subscribe startOffset =>
    rw [RequestHandler.access, Option.some.injEq] at hr
    subst hr
    exact ⟨_, _, .subscribe hl hc hf rfl, rfl, rfl, rfl, none, rfl⟩
  | fetch offset maxMessages =>
    rw [RequestHandler.access, Option.map_eq_some_iff] at hr
    obtain ⟨found, hfound, rfl⟩ := hr
    exact ⟨_, _, .fetch hl hc hf hfound rfl, rfl, rfl, rfl, none, rfl⟩

/-- What a request comes to with no other thread in between is a run of the event loop. -/
theorem run_serve (hl : s.loop = .handling b) (hc : s.conns b.fd = some c) (hf : b.frames = f :: fs)
    (hr : (s.broker.requestHandler s.missing).serve s.stores c.session b.fd now f = some r) :
    ∃ es s', Run Step s es s' ∧ s.Answered b c r s' := by
  change (match (s.handle c f).outcome with
    | .reply resp => some _
    | .access t p a => (s.handle c f).handler.access _ _ _ _ t p a) = some r at hr
  cases hout : (s.handle c f).outcome with
  | reply resp =>
    simp only [hout, Option.some.injEq] at hr
    subst hr
    exact ⟨_, _, .single (.reply hl hc hf hout), rfl, rfl, requestHandler_afterHandle c f b.fd,
      none, rfl⟩
  | access t p a =>
    simp only [hout] at hr
    have hlocate := Step.locate hl hc hf hout
    rw [← requestHandler_afterHandle c f b.fd] at hr
    obtain ⟨e, s', hst, hans⟩ := step_access (s :=
      { s.afterHandle b.fd c (s.handle c f) with loop := .accessing b (t, p) a }) rfl
      (Function.update_self _ _ _) hf hr
    refine ⟨_, s', .cons hlocate (.single hst), hans.stores, ?_, hans.handler, hans.loop⟩
    rw [hans.conn]
    exact Function.update_idem _ _ _

end Serving

end Fell.Broker
