import Fell.Broker.Durability
import Fell.Broker.Leadership
import Fell.Broker.Requests

/-!
# Subscribing behind an acknowledged record

`append` gives out the offsets, and with `acks=1` a record is acknowledged when it is queued.
`SUBSCRIBE` compares its start offset with `next_offset()`, which is that of the writer: it lags
behind by the records that are queued or in flight. So a client that subscribes right behind the
record it has published may be told that this offset lies in the future.

* `Run.lists_of_acked`: a partition with an acknowledged record is found from then on;
* `subscribed_behind_ack`: if a `SUBSCRIBE` looks at its partition only when nothing is queued or in
  flight there, it is answered as it should be;
* `not_subscribed_behind_ack`: otherwise it may not be.
-/

namespace Fell.Broker

open Platform Replication Storage

/-- A well-formed `SUBSCRIBE` to a partition, from an offset on. -/
structure SubscribesTo (f : Frame) (tp : PartitionKey) (startOffset : UInt64) : Prop where
  op : f.op = .subscribe
  size : SubscribeReq.size ≤ f.payload.length
  topicLen : (SubscribeReq.ofPayload f.payload).topicLen ≠ 0
  topic : (SubscribeReq.ofPayload f.payload).topicName = tp.1
  partition : (SubscribeReq.ofPayload f.payload).partition = tp.2
  startOffset : (SubscribeReq.ofPayload f.payload).startOffset = startOffset

namespace RequestHandler

variable {h : RequestHandler} {sess : Session} {f : Frame} {tp : PartitionKey}
  {startOffset : UInt64}

/-- The partition is in the registry, and among those the handlers count. -/
def Lists (h : RequestHandler) (tp : PartitionKey) : Prop :=
  tp.2 < h.numPartitions tp.1 ∧ h.getPartition tp.1 tp.2 = true

theorem Lists.congr {h' : RequestHandler} (hl : h.Lists tp)
    (htopics : h'.topics.lookup tp.1 = h.topics.lookup tp.1)
    (hmissing : h'.missing tp.1 tp.2 = h.missing tp.1 tp.2) : h'.Lists tp := by
  rw [Lists, numPartitions, getPartition, htopics, hmissing]
  exact hl

theorem Lists.mem_topics (hl : h.Lists tp) : tp.1 ∈ h.topics := by
  have hfound := hl.2
  rw [getPartition] at hfound
  cases hlookup : h.topics.lookup tp.1 with
  | none => simp [hlookup] at hfound
  | some n => exact AList.lookup_isSome.1 (by rw [hlookup]; rfl)

theorem Lists.seedRoles (hl : h.Lists tp) (topic : Bytes) (n : UInt16) :
    (h.seedRoles topic n).Lists tp := by
  rw [RequestHandler.seedRoles]
  split
  · exact hl
  · exact hl

theorem Lists.locate (hl : h.Lists tp) (topic : Bytes) (partition : UInt16) (a : Access) :
    (h.locate sess topic partition a).handler.Lists tp := by
  simp only [RequestHandler.locate]
  split_ifs <;> exact hl

/-- A topic is created only under a name that no topic has. -/
theorem Lists.handleCreateTopic (hl : h.Lists tp) (payload : Bytes) :
    (h.handleCreateTopic sess payload).handler.Lists tp := by
  simp only [RequestHandler.handleCreateTopic]
  split_ifs with hsize hname hn hmem
  · exact hl
  · exact hl
  · exact hl
  · exact hl
  · have hne : tp.1 ≠ (CreateTopicReq.ofPayload payload).topicName :=
      fun heq => hmem (heq ▸ hl.mem_topics)
    refine Lists.seedRoles (hl.congr (AList.lookup_insert_ne hne) ?_) _ _
    simp [createTopic, hne]

theorem Lists.handleMetadataReq (hl : h.Lists tp) (payload : Bytes) :
    (h.handleMetadataReq sess payload).handler.Lists tp := by
  rw [RequestHandler.handleMetadataReq]
  split_ifs
  · exact hl
  · dsimp only
    split <;> exact hl

/-- No request takes a partition away. -/
theorem Course.lists {r : Handled} (hc : Course h sess f r) (hl : h.Lists tp) :
    r.handler.Lists tp := by
  cases hc with
  | metadata => exact hl.handleMetadataReq _
  | create => exact hl.handleCreateTopic _
  | refuse => exact hl
  | publish | read => exact hl.locate _ _ _

theorem getPartition_of_locate {topic t : Bytes} {partition p : UInt16} {a a' : Access}
    (hout : (h.locate sess topic partition a).outcome = .access t p a') :
    h.getPartition t p = true := by
  obtain ⟨rfl, rfl, rfl⟩ := outcome_locate hout
  simp only [locate, refuse] at hout
  split_ifs at hout with hrole hfound
  exact hfound

/-- A publish request is let through to a partition that is listed. -/
theorem lists_of_append {t : Bytes} {p : UInt16} {message : Payload}
    (hout : (h.handle sess f).outcome = .access t p (.append message)) : h.Lists (t, p) := by
  constructor
  · rcases admitted_handle h sess (append_of_handle hout) with
      ⟨code, msg, hreply⟩ | ⟨hp, -, -, _, -, hacc⟩
    · rw [hreply] at hout
      cases hout
    · rw [hacc] at hout
      cases hout
      exact hp
  · have hc : Course h sess f (h.handle sess f) := course_handle f
    generalize h.handle sess f = r at hc hout
    cases hc with
    | metadata => exact absurd hout outcome_handleMetadataReq
    | create => exact absurd hout outcome_handleCreateTopic
    | refuse => cases hout
    | publish | read => exact getPartition_of_locate hout

end RequestHandler

namespace SubscribesTo

open RequestHandler

variable {h : RequestHandler} {sess : Session} {f : Frame} {tp : PartitionKey}
  {startOffset : UInt64}

theorem handle_eq (hf : SubscribesTo f tp startOffset) :
    h.handle sess f = h.checkPartition sess (SubscribeReq.ofPayload f.payload).toTopicReq tp.2
      (.subscribe startOffset) := by
  have hhandle : h.handle sess f = h.handleSubscribe sess f.payload := by
    simp only [handle, hf.op]
    rfl
  rw [hhandle, handleSubscribe, if_neg (Nat.not_lt.2 hf.size), ← hf.partition, ← hf.startOffset]

/-- The request comes to its partition, if it comes to any. -/
theorem eq_of_access (hf : SubscribesTo f tp startOffset) {t : Bytes} {p : UInt16} {a : Access}
    (hout : (h.handle sess f).outcome = .access t p a) :
    (t, p) = tp ∧ a = .subscribe startOffset := by
  rw [hf.handle_eq, checkPartition] at hout
  split_ifs at hout
  iterate 3 cases hout
  obtain ⟨htopic, hpart, rfl⟩ := outcome_locate hout
  exact ⟨Prod.ext (htopic.symm.trans hf.topic) hpart.symm, rfl⟩

/-- The checks do not look at the offset. -/
theorem ne_invalidOffset_of_reply (hf : SubscribesTo f tp startOffset) {resp : Bytes}
    (hout : (h.handle sess f).outcome = .reply resp) (msg : String) :
    resp ≠ encodeError .invalidOffset msg := by
  have hcode : ∀ {code text}, code ≠ .invalidOffset →
      (h.refuse sess code text).outcome = .reply resp → resp ≠ encodeError .invalidOffset msg := by
    intro code text hne hout heq
    cases hout
    exact hne (code_of_encodeError heq)
  rw [hf.handle_eq, checkPartition] at hout
  simp only [locate] at hout
  split_ifs at hout
  iterate 5 exact hcode (by decide) hout

/-- On the leader of a partition that is listed, the request comes to the partition. -/
theorem outcome_of_lists (hf : SubscribesTo f tp startOffset) (hl : h.Lists tp)
    {reg : PartitionMetaRegistry} (hreg : h.metaReg = some reg)
    (hrole : (reg.find tp.1 tp.2).role = .leader) :
    (h.handle sess f).outcome = .access tp.1 tp.2 (.subscribe startOffset) := by
  rw [hf.handle_eq, checkPartition_eq hf.topicLen hf.topic hl.1, locate]
  have hlead : ({ h with metaReg := h.metaReg.map (PartitionMetaRegistry.get · tp.1 tp.2) } :
      RequestHandler).notLeader tp.1 tp.2 = false := by
    simp [notLeader, hreg, hrole]
  rw [if_neg (by rw [hlead]; exact Bool.false_ne_true)]
  exact congrArg Handled.outcome (if_pos hl.2)

end SubscribesTo

namespace Serving

open PartitionStore (accepted)

variable {κ : Type} {s s' s₀ : Serving κ} {e : Event κ} {es : List (Event κ)} {tp : PartitionKey}
  {k : UInt64}

/-! ## Acknowledged records -/

/-- A publish request was answered with the acknowledgement of the offset. -/
def Acked (es : List (Event κ)) (tp : PartitionKey) (k : UInt64) : Prop :=
  ∃ fd id f did, Event.answered fd id f (ackReply tp k) did ∈ es

/-- An acknowledgement is the answer to an append at the partition, of the offset it gives out. -/
theorem Step.append_of_acked {fd : ℤ} {id : ℕ} {f : Frame}
    {did : Option (PartitionKey × PartitionStore.Event κ)}
    (hst : Step s (.answered fd id f (ackReply tp k) did) s') :
    (∃ b message, s.loop = .accessing b tp (.append message)) ∧
      ∃ r ∈ accepted ((Event.answered fd id f (ackReply tp k) did).storeEvents tp),
        r.offset = k := by
  generalize hr : ackReply tp k = r at hst
  cases hst with
  | @append b c _ fs tp' payload now hl hc hf hacc hacks =>
    obtain rfl : tp = tp' := Option.some.inj (congrArg Reply.origin hr)
    have hk : k = ((s.stores tp).append payload now).1.offset :=
      encodeAck_injective (congrArg Reply.bytes hr)
    refine ⟨⟨b, payload, hl⟩, (s.stores tp).command payload now, ?_, ?_⟩
    · simp [Event.storeEvents, accepted, PartitionStore.Event.accepted]
    · rw [hk, PartitionStore.append_of_accepted hacc]
      rfl
  | _ => cases hr

theorem Run.accepted_of_acked (hr : Run Step s₀ es s) (h : Acked es tp k) :
    ∃ r ∈ accepted (storeEvents tp es), r.offset = k := by
  refine hr.invariant (I := fun es _ => Acked es tp k →
    ∃ r ∈ accepted (storeEvents tp es), r.offset = k) ?_ ?_ h
  · rintro ⟨fd, id, f, did, he⟩
    exact absurd he List.not_mem_nil
  · rintro es s e s' - ih hst ⟨fd, id, f, did, he⟩
    rcases List.mem_append.1 he with he | he
    · obtain ⟨r, hr, hoff⟩ := ih ⟨fd, id, f, did, he⟩
      exact ⟨r, mem_accepted_snoc hr e, hoff⟩
    · obtain rfl := List.mem_singleton.1 he
      obtain ⟨r, hr, hoff⟩ := hst.append_of_acked.2
      refine ⟨r, ?_, hoff⟩
      rw [storeEvents_snoc, accepted, List.flatMap_append]
      exact List.mem_append_right _ hr

/-! ## Partitions stay listed -/

/-- The handlers find the partition. -/
def Lists (s : Serving κ) (tp : PartitionKey) : Prop :=
  (s.broker.requestHandler s.missing).Lists tp

theorem Lists.congr (h : s.Lists tp) (htopics : s'.broker.topics = s.broker.topics)
    (hmissing : s'.missing = s.missing) : s'.Lists tp := by
  refine RequestHandler.Lists.congr h ?_ ?_
  · exact congrArg (AList.lookup tp.1) htopics
  · exact congrArg (fun m => m tp.1 tp.2) hmissing

theorem Lists.afterHandle (h : s.Lists tp) (c : ConnectionState) (f : Frame) (fd : ℤ) :
    (s.afterHandle fd c (s.handle c f)).Lists tp := by
  rw [Lists, requestHandler_afterHandle]
  exact (RequestHandler.course_handle f).lists h

theorem Step.lists (hst : Step s e s') (h : s.Lists tp) : s'.Lists tp := by
  cases hst with
  | @reply b c f | @locate b c f => exact h.afterHandle c f b.fd
  | drain =>
    obtain ⟨conns, hfold, -⟩ := @foldl_deliver κ { s with responseQueue := [] } s.responseQueue
    rw [drainResponseQueue, hfold]
    exact h.congr rfl rfl
  | @manage b tp' offset hl =>
    refine h.congr ?_ rfl
    simp only [getOrCreateReplicaManager, Broker.getOrCreateReplicaManager]
    split_ifs <;> rfl
  | _ => exact h.congr rfl rfl

/-- A partition at which a record is to be appended is listed. -/
def Appending (s : Serving κ) : Prop :=
  ∀ b tp message, s.loop = .accessing b tp (.append message) → s.Lists tp

theorem Step.appending (hst : Step s e s') (h : s.Appending) : s'.Appending := by
  intro b' tp' message' hl'
  refine hst.lists ?_
  cases hst with
  | @locate b c f fs t p a hl hc hf hout =>
    cases hl'
    exact RequestHandler.lists_of_append hout
  | accept | write | store | lead | post | change => exact h _ _ _ hl'
  | drain =>
    rw [loop_drainResponseQueue] at hl'
    exact h _ _ _ hl'
  | _ => cases hl'

theorem Run.appending (hr : Run Step s₀ es s) (h : Started s₀) : s.Appending := by
  refine hr.invariant (I := fun _ s => s.Appending) ?_ fun _ ih hst => hst.appending ih
  intro b tp message hl
  rw [h.loop] at hl
  cases hl

/-- A partition with an acknowledged record is listed from then on. -/
theorem Run.lists_of_acked (hr : Run Step s₀ es s) (h : Started s₀) (hack : Acked es tp k) :
    s.Lists tp := by
  refine hr.invariant (I := fun es s => Acked es tp k → s.Lists tp) ?_ ?_ hack
  · rintro ⟨fd, id, f, did, he⟩
    exact absurd he List.not_mem_nil
  · rintro es s e s' hr ih hst ⟨fd, id, f, did, he⟩
    rcases List.mem_append.1 he with he | he
    · exact hst.lists (ih ⟨fd, id, f, did, he⟩)
    · obtain rfl := List.mem_singleton.1 he
      obtain ⟨⟨b, message, hl⟩, -⟩ := hst.append_of_acked
      exact hst.lists (Run.appending hr h b tp message hl)

/-! ## The result -/

/-- The broker leads the partition that a `SUBSCRIBE` names. -/
def Leads (s : Serving κ) (f : Frame) : Prop :=
  let req := SubscribeReq.ofPayload f.payload
  (s.broker.metaReg.find req.topicName req.partition).role = .leader

/-- A `SUBSCRIBE` is answered on the leader of its partition and, at the partition, when nothing is
    queued or in flight there. -/
def CaughtUp (s : Serving κ) : Event κ → Prop
  | .answered _ _ f _ _ => f.op = .subscribe →
      (∀ b, s.loop = .handling b → s.Leads f) ∧
      ∀ b tp a, s.loop = .accessing b tp a →
        (s.stores tp).inFlight = [] ∧ (s.stores tp).queue = []
  | _ => True

/-- With nothing queued or in flight, the writer is behind all records that are accepted. -/
theorem Run.lt_nextOffsetOfWriter (hr : Run Step s₀ es s)
    (hf : PartitionStore.Fresh (s₀.stores tp))
    (hlt : (s₀.stores tp).nextOffset.toNat + (accepted (storeEvents tp es)).length < 2 ^ 64)
    (hin : (s.stores tp).inFlight = []) (hqueue : (s.stores tp).queue = []) {r : Record}
    (hmem : r ∈ accepted (storeEvents tp es)) : r.offset < (s.stores tp).nextOffsetOfWriter := by
  have hq := PartitionStore.Run.queued (Run.store hr tp) hf
  have hacc := hq.accepted_eq
  rw [hin, hqueue, List.append_nil, List.append_nil] at hacc
  obtain ⟨i, hi, rfl⟩ := List.mem_iff_getElem.1 hmem
  have hoff := hq.consecutive i _ (List.getElem?_eq_getElem hi)
  rw [PartitionStore.nextOffsetOfWriter, hq.writerNextOffset, hacc, hoff, UInt64.lt_iff_toNat_lt,
    PartitionStore.toNat_add_ofNat (by omega), PartitionStore.toNat_add_ofNat (by omega)]
  omega

/-- What is answered at the partition, behind the record `k`. -/
theorem subscribeAt_of_lt {sess : Session} {startOffset nextOffset : UInt64}
    (hk : k < nextOffset) :
    (startOffset = k + 1 → ∀ msg,
      (RequestHandler.subscribeAt sess tp.1 tp.2 startOffset nextOffset).1 ≠
        encodeError .invalidOffset msg) ∧
    (startOffset = RequestHandler.latest → ∃ v,
      (RequestHandler.subscribeAt sess tp.1 tp.2 startOffset nextOffset).1 = encodeAck v ∧
        k < v) := by
  constructor
  · intro hstart msg
    have hle : ¬nextOffset < startOffset := by
      rw [hstart, UInt64.lt_iff_toNat_lt, UInt64.toNat_add]
      rw [UInt64.lt_iff_toNat_lt] at hk
      have := Nat.mod_le (k.toNat + UInt64.toNat 1) (2 ^ 64)
      have hone : UInt64.toNat 1 = 1 := rfl
      omega
    rw [RequestHandler.subscribeAt, if_neg fun hc => hle hc.2]
    exact (encodeError_ne_encodeAck _ _ _).symm
  · intro hstart
    rw [RequestHandler.subscribeAt, if_neg fun hc => hc.1 hstart]
    exact ⟨nextOffset, by rw [if_pos hstart], hk⟩

/-- In every run in which each `SUBSCRIBE` is answered on the leader of its partition and, at the
    partition, when nothing is queued or in flight there: once a record is acknowledged, a
    `SUBSCRIBE` from the next offset on is not told that it lies in the future, and one from the end
    of the log starts behind the record. -/
theorem subscribed_behind_ack (hstart : Started s₀) (hopen : Opened s₀)
    (hr : Run (Guarded Step CaughtUp) s₀ es s)
    (hlt : (s₀.stores tp).nextOffset.toNat + (accepted (storeEvents tp es)).length < 2 ^ 64)
    (hack : Acked es tp k) {fd : ℤ} {id : ℕ} {f : Frame} {r : Reply}
    {did : Option (PartitionKey × PartitionStore.Event κ)} {startOffset : UInt64}
    (hst : Guarded Step CaughtUp s (.answered fd id f r did) s')
    (hf : SubscribesTo f tp startOffset) :
    (startOffset = k + 1 → ∀ msg, r.bytes ≠ encodeError .invalidOffset msg) ∧
      (startOffset = RequestHandler.latest → ∃ v, r.bytes = encodeAck v ∧ k < v) := by
  obtain ⟨hst, hg⟩ := hst
  obtain ⟨hleads, hdrained⟩ := hg hf.op
  have hlocated := Run.located hr.of_guarded hstart
  -- The request is handled where its frame says.
  have haccess : ∀ {b tp' a fs}, s.loop = .accessing b tp' a → b.frames = f :: fs →
      tp' = tp ∧ a = .subscribe startOffset := by
    intro b tp' a fs hl hfs
    obtain ⟨handler, sess, hout⟩ := hlocated _ _ _ _ _ hl hfs
    exact hf.eq_of_access hout
  cases hst with
  | @reply b c _ fs resp hl hc hfs hout =>
    refine ⟨fun _ => hf.ne_invalidOffset_of_reply hout, fun _ => ?_⟩
    have hrole := hleads b hl
    rw [Leads, hf.topic, hf.partition] at hrole
    have hacc : (s.handle c f).outcome = .access tp.1 tp.2 (.subscribe startOffset) :=
      hf.outcome_of_lists (Run.lists_of_acked hr.of_guarded hstart hack) rfl hrole
    exact absurd (hout.symm.trans hacc) nofun
  | @subscribe b c _ fs tp' startOffset' resp hl hc hfs hresp =>
    obtain ⟨rfl, hstart'⟩ := haccess hl hfs
    obtain rfl : startOffset' = startOffset := Access.subscribe.inj hstart'
    obtain ⟨hin, hqueue⟩ := hdrained b tp' _ hl
    obtain ⟨rec, hmem, rfl⟩ := Run.accepted_of_acked hr.of_guarded hack
    rw [← hresp]
    exact subscribeAt_of_lt
      (Run.lt_nextOffsetOfWriter hr.of_guarded (hopen.fresh tp') hlt hin hqueue hmem)
  | fetch hl hc hfs | refuse now hl hc hfs | append now hl hc hfs =>
    exact absurd (haccess hl hfs).2 nofun

/-! ## A client that subscribes behind its record -/

/-- A `SUBSCRIBE` from the offset `1` on. -/
def subscribeFrame : Frame := ⟨.subscribe, [1, 116] ++ List.replicate 263 0 ++ [1]⟩

theorem subscribesTo_subscribeFrame : SubscribesTo subscribeFrame first 1 := by
  constructor <;> decide +kernel

theorem lists_single : (single 1).Lists first := by
  constructor <;> decide +kernel

theorem leads_single : ((single 1).broker.metaReg.find first.1 first.2).role = .leader := by
  decide +kernel

/-- A client on the descriptor `5`, of a broker that leads the partition. -/
structure Client (s : Serving Unit) (decoder : FrameDecoder) (store : PartitionStore Unit)
    (l : Loop) : Prop where
  conn : ∃ c, s.conns 5 = some c ∧ c.id = 0 ∧ c.decoder = decoder
  acks : s.broker.cfg.acks = 1
  managed : s.Managed first
  lists : s.Lists first
  leads : (s.broker.metaReg.find first.1 first.2).role = .leader
  store : s.stores first = store
  loop : s.loop = l

section

variable {s : Serving Unit} {d : FrameDecoder} {store : PartitionStore Unit} {l : Loop}
  {f : Frame} {fs : List Frame} {rs : List Reply}

/-- A request is let through to the partition. -/
theorem Client.locate {a : Access} (h : Client s d store (.handling ⟨5, f :: fs, rs⟩))
    (hop : f.op ≠ .createTopic)
    (hout : ∀ c ∈ s.conns 5, (s.handle c f).outcome = .access first.1 first.2 a) :
    ∃ s', Step s .wentOn s' ∧ Client s' d store (.accessing ⟨5, f :: fs, rs⟩ first a) := by
  obtain ⟨c, hc, hid, hd⟩ := h.conn
  have hst := Step.locate h.loop hc rfl (hout c hc)
  obtain ⟨reg, hreg, hfind⟩ :=
    (@RequestHandler.leaves_handle (s.broker.requestHandler s.missing) c.session f hop).metaReg _
      rfl
  have hc' : Function.update s.conns 5 (some { c with session := (s.handle c f).session }) 5 =
      some _ := Function.update_self _ _ _
  refine ⟨_, hst, ⟨_, hc', hid, hd⟩, h.acks, h.managed, hst.lists h.lists, ?_, h.store, rfl⟩
  change (Option.getD ((s.broker.requestHandler s.missing).handle c.session f).handler.metaReg
    s.broker.metaReg |>.find first.1 first.2).role = .leader
  rw [hreg, Option.getD_some, hfind]
  exact h.leads

theorem client_receiving (data : Bytes) (frames : List Frame) :
    Client ((single 1).receiving 5 data frames) ((single 1).newDecoder.push data).2.2
      Publishing.emptyStore (.handling ⟨5, frames, []⟩) where
  conn := ⟨{ id := 0, decoder := ((single 1).newDecoder.push data).2.2 },
    Function.update_self (5 : ℤ) _ ((single 1).addConn 5).conns, rfl, rfl⟩
  acks := (acks_single (.inr rfl)).1
  managed := (acks_single (.inr rfl)).2.1
  lists := lists_single
  leads := leads_single
  store := rfl
  loop := rfl

/-- The record is appended, and the acknowledgement put in the outbound buffer. -/
theorem Client.run_append
    (h : Client s d Publishing.emptyStore (.accessing ⟨5, [f], []⟩ first (.append .empty))) :
    ∃ s', Run Step s
        [.answered 5 0 f (ackReply first 0)
          (some (first, .appended (Publishing.emptyStore.command .empty 0))),
        .flushed 0 [ackReply first 0]] s' ∧
      Client s' d (Publishing.emptyStore.enqueue .empty 0) (.reading 5) := by
  obtain ⟨c, hc, hid, hd⟩ := h.conn
  have happend := PartitionStore.append_of_accepted Publishing.append_emptyStore_accepted
  have hst := Step.append 0 h.loop hc rfl
    (by rw [h.store]; exact Publishing.append_emptyStore_accepted) (by rw [h.acks]; decide)
  rw [h.store, hid, happend] at hst
  have hflush := Step.flush (c := c) (b := ⟨5, [], [ackReply first 0]⟩) (s :=
    { s.setStore first (.appended (Publishing.emptyStore.command .empty 0))
        (Publishing.emptyStore.enqueue .empty 0) with
      loop := .handling ⟨5, [], [ackReply first 0]⟩ }) rfl hc rfl
  rw [hid] at hflush
  refine ⟨_, .cons hst (.single hflush), ⟨_, Function.update_self (5 : ℤ) _ s.conns, ?_, ?_⟩,
    h.acks, h.managed, h.lists, h.leads, Function.update_self first _ s.stores, rfl⟩
  · exact (c.id_finishBatch _).trans hid
  · rw [← hd, ConnectionState.finishBatch, ConnectionState.throttle]
    split_ifs <;> rfl

/-- A `SUBSCRIBE` is received, and comes to the partition. -/
theorem Client.run_subscribe (h : Client s d store (.reading 5))
    (hpush : (d.push (sent [subscribeFrame])).1 ≠ -1 ∧
      (d.push (sent [subscribeFrame])).2.1 = [subscribeFrame]) :
    ∃ d' s', Run Step s [.received 0 [subscribeFrame], .wentOn] s' ∧
      Client s' d' store (.accessing ⟨5, [subscribeFrame], []⟩ first (.subscribe 1)) := by
  obtain ⟨c, hc, hid, hd⟩ := h.conn
  subst hd
  have hrecv := Step.receive (sent [subscribeFrame]) h.loop hc (by decide +kernel)
    (by decide +kernel) hpush.1
  rw [hpush.2, hid] at hrecv
  generalize (c.decoder.push (sent [subscribeFrame])).2.2 = d' at hrecv
  have h' : Client { s.setConn 5 { c with id := 0, decoder := d' } with
      loop := .handling ⟨5, [subscribeFrame], []⟩ } d' store
      (.handling ⟨5, [subscribeFrame], []⟩) :=
    ⟨⟨{ c with id := 0, decoder := d' }, Function.update_self (5 : ℤ) _ s.conns, rfl, rfl⟩, h.acks,
      h.managed, h.lists, h.leads, h.store, rfl⟩
  have hop : subscribeFrame.op ≠ .createTopic := by decide +kernel
  obtain ⟨s', hst, hs'⟩ := h'.locate hop fun _ _ =>
    subscribesTo_subscribeFrame.outcome_of_lists h'.lists rfl h'.leads
  exact ⟨_, s', .cons hrecv (.single hst), hs'⟩

/-- It is answered. -/
theorem Client.step_subscribe
    (h : Client s d store (.accessing ⟨5, [subscribeFrame], []⟩ first (.subscribe 1))) :
    ∃ sess s', Step s (.answered 5 0 subscribeFrame ⟨none,
      (RequestHandler.subscribeAt sess first.1 first.2 1 store.nextOffsetOfWriter).1⟩ none) s' := by
  obtain ⟨c, hc, hid, -⟩ := h.conn
  have hst := Step.subscribe h.loop hc rfl rfl
  rw [h.store, hid] at hst
  exact ⟨_, _, hst⟩

end

/-- The decoder after the first request. -/
def emptied : FrameDecoder := ((single 1).newDecoder.push (sent [publishFrame])).2.2

theorem push_emptied : (emptied.push (sent [subscribeFrame])).1 ≠ -1 ∧
    (emptied.push (sent [subscribeFrame])).2.1 = [subscribeFrame] := by
  decide +kernel

/-- A client publishes, and gets the acknowledgement. -/
def publishedEvents : List (Event Unit) :=
  ([.accepted 5 0, .wentOn, .received 0 [publishFrame]] ++ [.wentOn]) ++
    [.answered 5 0 publishFrame (ackReply first 0)
        (some (first, .appended (Publishing.emptyStore.command .empty 0))),
      .flushed 0 [ackReply first 0]]

theorem acked_publishedEvents : Acked publishedEvents first 0 :=
  ⟨5, 0, publishFrame, some (first, .appended (Publishing.emptyStore.command .empty 0)),
    by simp [publishedEvents]⟩

theorem run_published : ∃ s, Run Step (single 1) publishedEvents s ∧
    Client s emptied (Publishing.emptyStore.enqueue .empty 0) (.reading 5) := by
  have hcalm : ¬(single 1).Awaited 5 :=
    @Calm.of_idle _ (single 1) (.accepted 5 0) rfl rfl rfl 5 rfl
  have hrecv : Run (Guarded Step Calm) (single 1)
      [.accepted 5 0, .wentOn, .received 0 [publishFrame]]
      ((single 1).receiving 5 (sent [publishFrame]) [publishFrame]) := by
    refine run_receive rfl rfl hcalm ?_ ?_ ?_ ?_ <;> decide +kernel
  have hop : publishFrame.op ≠ .createTopic := by decide +kernel
  obtain ⟨s₁, hst, h₁⟩ := (client_receiving (sent [publishFrame]) [publishFrame]).locate hop
    fun c hc => (handle_publishFrame (.inr rfl) (by rw [← Option.some.inj hc])).1
  obtain ⟨s₂, hr₂, h₂⟩ := h₁.run_append
  exact ⟨s₂, (hrecv.of_guarded.snoc hst).append hr₂, h₂⟩

/-- The client subscribes behind its record, which is still queued. -/
theorem not_subscribed_behind_ack :
    ¬∀ (s₀ s s' : Serving Unit) (es : List (Event Unit)) (tp : PartitionKey) (k : UInt64) (fd : ℤ)
      (id : ℕ) (f : Frame) (r : Reply) (did : Option (PartitionKey × PartitionStore.Event Unit)),
      Started s₀ → Opened s₀ → s₀.broker.cfg.acks = 1 → Run Step s₀ es s → Acked es tp k →
        Step s (.answered fd id f r did) s' → SubscribesTo f tp (k + 1) →
          ∀ msg, r.bytes ≠ encodeError .invalidOffset msg := by
  intro hall
  obtain ⟨s₁, hr₁, h₁⟩ := run_published
  obtain ⟨d, s₂, hr₂, h₂⟩ := h₁.run_subscribe push_emptied
  obtain ⟨sess, s₃, hst⟩ := h₂.step_subscribe
  refine hall _ s₂ s₃ _ first 0 _ _ _ _ _ (started_single 1) (opened_single 1)
    (acks_single (.inr rfl)).1 (hr₁.append hr₂) ?_ hst subscribesTo_subscribeFrame
    "Start offset lies in the future" rfl
  obtain ⟨fd, id, f, did, he⟩ := acked_publishedEvents
  exact ⟨fd, id, f, did, List.mem_append_left _ he⟩

/-- The record is written before the client subscribes. -/
theorem Client.run_written {s : Serving Unit} {d : FrameDecoder}
    (h : Client s d (Publishing.emptyStore.enqueue .empty 0) (.reading 5)) :
    ∃ s', Run Step s ((Publishing.emptyStore.notifyOneEvents .empty 0).map (.stored first)) s' ∧
      Client s' d (Publishing.emptyStore.notifiedOne .empty 0) (.reading 5) := by
  have hstore := @PartitionStore.Idle.run_notifiedOne _ _ .empty 0 Publishing.idle_emptyStore
    (by decide) (by decide)
  rw [← h.store] at hstore
  exact ⟨_, Run.stored hstore h.managed, h.conn, h.acks, h.managed, h.lists, h.leads,
    Function.update_self first _ s.stores, h.loop⟩

/-- The client subscribes when its record is written. -/
def subscribedEvents : List (Event Unit) :=
  publishedEvents ++ ((Publishing.emptyStore.notifyOneEvents .empty 0).map (.stored first) ++
    [.received 0 [subscribeFrame], .wentOn])

theorem caughtUp_of_mem {e : Event Unit} (he : e ∈ subscribedEvents) (s : Serving Unit) :
    CaughtUp s e := by
  cases e with
  | answered fd id f r did =>
    simp only [subscribedEvents, publishedEvents, PartitionStore.notifyOneEvents, List.mem_append,
      List.map_cons, List.map_nil, List.mem_cons, List.not_mem_nil, or_false, false_or,
      Event.answered.injEq, reduceCtorEq] at he
    rw [he.2.2.1]
    exact fun hop => absurd hop (by decide +kernel)
  | _ => trivial

theorem length_accepted_subscribedEvents :
    (accepted (storeEvents first subscribedEvents)).length = 1 := by
  simp [subscribedEvents, publishedEvents, PartitionStore.notifyOneEvents, storeEvents,
    Event.storeEvents, accepted, PartitionStore.Event.accepted]

theorem subscribed_behind_ack_written : ∃ s s' r, Started (single 1) ∧ Opened (single 1) ∧
    Run (Guarded Step CaughtUp) (single 1) subscribedEvents s ∧ Acked subscribedEvents first 0 ∧
      Guarded Step CaughtUp s (.answered 5 0 subscribeFrame r none) s' ∧
        SubscribesTo subscribeFrame first 1 ∧ ∀ msg, r.bytes ≠ encodeError .invalidOffset msg := by
  obtain ⟨s₁, hr₁, h₁⟩ := run_published
  obtain ⟨s₂, hr₂, h₂⟩ := h₁.run_written
  obtain ⟨d, s₃, hr₃, h₃⟩ := h₂.run_subscribe push_emptied
  obtain ⟨sess, s₄, hst⟩ := h₃.step_subscribe
  have hr : Run (Guarded Step CaughtUp) (single 1) subscribedEvents s₃ :=
    (hr₁.append (hr₂.append hr₃)).guarded fun e he s => caughtUp_of_mem he s
  have hack : Acked subscribedEvents first 0 := by
    obtain ⟨fd, id, f, did, he⟩ := acked_publishedEvents
    exact ⟨fd, id, f, did, List.mem_append_left _ he⟩
  have hlt : ((single 1).stores first).nextOffset.toNat +
      (accepted (storeEvents first subscribedEvents)).length < 2 ^ 64 := by
    rw [length_accepted_subscribedEvents]
    decide
  have hg : ∀ r, CaughtUp s₃ (.answered 5 0 subscribeFrame r none) := by
    refine fun r _ => ⟨fun b hl => ?_, fun b tp a hl => ?_⟩
    · rw [h₃.loop] at hl
      cases hl
    · rw [h₃.loop] at hl
      cases hl
      rw [h₃.store]
      exact ⟨rfl, rfl⟩
  exact ⟨s₃, s₄, _, started_single 1, opened_single 1, hr, hack, ⟨hst, hg _⟩,
    subscribesTo_subscribeFrame, (subscribed_behind_ack (started_single 1) (opened_single 1) hr hlt
      hack ⟨hst, hg _⟩ subscribesTo_subscribeFrame).1 rfl⟩

end Serving

end Fell.Broker
