import Fell.Broker.Requests
import Fell.Lib.Transition
import Fell.Lib.WrappingCounter

/-!
# Round robin

A message without a key whose partition field is `0xFFFF` goes to the next partition in turn. The
turn is kept with the connection, in the counter `rr_counter` of 16 bits, and is the same for all
topics. It goes on with every such request that names a topic, accepted or not.

Between two requests of the connection, the rest of the broker goes on: other connections publish,
batches are written, partitions change their leaders. A topic keeps its partitions.

* `Run.turns`: the partitions that the messages go to;
* `nodup_iff`: when as many messages as there are partitions go to all of them.
-/

namespace Fell.Broker

open Platform Replication Storage

/-- The request is for the next partition in turn. -/
def Frame.InTurn (f : Frame) : Prop :=
  (f.op = .publish ∨ f.op = .publishV2) ∧ f.publication.key = [] ∧
    f.publication.partition = RequestHandler.roundRobin

instance (f : Frame) : Decidable f.InTurn := inferInstanceAs (Decidable (_ ∧ _ ∧ _))

namespace RequestHandler

variable {h : RequestHandler} {sess : Session} {f : Frame}

theorem session_locate (topic : Bytes) (partition : UInt16) (a : Access) :
    (h.locate sess topic partition a).session = sess := by
  rw [locate]
  split_ifs <;> rfl

theorem locate_of_metaReg_eq_none (hreg : h.metaReg = none) {topic : Bytes} {partition : UInt16}
    (hfound : h.getPartition topic partition = true) (a : Access) :
    h.locate sess topic partition a = ⟨.access topic partition a, sess, h⟩ := by
  obtain ⟨topics, missing, cfg, metaReg, deferCb⟩ := h
  subst hreg
  exact if_pos hfound

theorem session_publishKeyless_of_ne {partition : UInt16} (hne : partition ≠ roundRobin)
    (topic : Bytes) (message : Payload) :
    (h.publishKeyless sess topic partition message).session = sess := by
  rw [publishKeyless, if_neg hne]
  split_ifs
  · rfl
  · exact session_locate _ _ _

theorem session_publishKeyless_roundRobin (topic : Bytes) (message : Payload) :
    (h.publishKeyless sess topic roundRobin message).session =
      { sess with rrCounter := sess.rrCounter + 1 } := by
  rw [publishKeyless, if_pos rfl, session_locate]

theorem session_checkPartition (req : TopicReq) (partition : UInt16) (a : Access) :
    (h.checkPartition sess req partition a).session = sess := by
  rw [checkPartition]
  split_ifs
  iterate 3 rfl
  exact session_locate _ _ _

theorem session_handleMetadataReq (payload : Bytes) :
    (h.handleMetadataReq sess payload).session = sess := by
  rw [handleMetadataReq]
  split
  · rfl
  · dsimp only
    split <;> rfl

theorem session_handleCreateTopic (payload : Bytes) :
    (h.handleCreateTopic sess payload).session = sess := by
  rw [handleCreateTopic]
  dsimp only
  split_ifs <;> rfl

/-- Only the requests in turn change the session. -/
theorem session_handle_of_not_inTurn (hf : ¬f.InTurn) : (h.handle sess f).session = sess := by
  rw [handle]
  split_ifs with hmeta hcreate hp hp₂ hs hf
  · exact session_handleMetadataReq _
  · exact session_handleCreateTopic _
  · have hne : (PublishReq.ofPayload f.payload).partition ≠ roundRobin := by
      intro hrr
      refine hf ⟨.inl hp, ?_⟩
      rw [Frame.publication, if_pos hp]
      exact ⟨rfl, hrr⟩
    simp only [handlePublish]
    split_ifs
    iterate 4 rfl
    exact session_publishKeyless_of_ne hne _ _
  · have hne : ¬0 < (PublishV2Req.ofPayload f.payload).keyLen →
        (PublishV2Req.ofPayload f.payload).partition ≠ roundRobin := by
      intro hkey hrr
      refine hf ⟨.inr hp₂, ?_⟩
      rw [Frame.publication, if_neg hp]
      exact ⟨routingKey_eq_nil hkey, hrr⟩
    simp only [handlePublishV2]
    split_ifs with hsize hlen htopic hn hkey
    iterate 4 rfl
    · exact session_locate _ _ _
    · exact session_publishKeyless_of_ne (hne hkey) _ _
  · simp only [handleSubscribe]
    split_ifs
    · rfl
    · exact session_checkPartition _ _ _
  · simp only [handleFetch]
    split_ifs
    · rfl
    · exact session_checkPartition _ _ _
  · rfl

/-- A request in turn that comes to a partition takes its turn. -/
theorem session_handle_of_inTurn (hf : f.InTurn) {t : Bytes} {p : UInt16} {a : Access}
    (hout : (h.handle sess f).outcome = .access t p a) :
    (h.handle sess f).session = { sess with rrCounter := sess.rrCounter + 1 } := by
  obtain ⟨hop, hkey, hrr⟩ := hf
  rcases hop with hop | hop
  · rw [Frame.publication, if_pos hop] at hrr
    have hrr : (PublishReq.ofPayload f.payload).partition = roundRobin := hrr
    rw [handle_publish hop] at hout ⊢
    simp only [handlePublish] at hout ⊢
    split_ifs at hout ⊢
    iterate 4 cases hout
    rw [hrr]
    exact session_publishKeyless_roundRobin _ _
  · have hne : f.op ≠ .publish := by
      rw [hop]
      decide
    rw [Frame.publication, if_neg hne] at hkey hrr
    have hrr : (PublishV2Req.ofPayload f.payload).partition = roundRobin := hrr
    rw [handle_publishV2 hop] at hout ⊢
    simp only [handlePublishV2] at hout ⊢
    split_ifs at hout ⊢ with hsize hlen htopic hn hkeyLen
    iterate 4 cases hout
    · exact absurd hkey (routingKey_ne_nil (not_lt.1 hsize) hkeyLen)
    · rw [hrr]
      exact session_publishKeyless_roundRobin _ _

/-- It is the turn that says where a message goes. -/
theorem target_of_inTurn (hf : f.InTurn) (count rrCounter : UInt16) :
    f.publication.target count rrCounter = rrCounter % count := by
  rw [Publication.target, if_neg (not_not.2 hf.2.1), hf.2.2, if_neg (not_roundRobin_lt count)]

theorem topics_locate (topic : Bytes) (partition : UInt16) (a : Access) :
    (h.locate sess topic partition a).handler.topics = h.topics := by
  rw [locate]
  split_ifs <;> rfl

theorem topics_handleMetadataReq (payload : Bytes) :
    (h.handleMetadataReq sess payload).handler.topics = h.topics := by
  rw [handleMetadataReq]
  split
  · rfl
  · dsimp only
    split <;> rfl

theorem topics_seedRoles (topic : Bytes) (n : UInt16) :
    (h.seedRoles topic n).topics = h.topics := by
  rw [seedRoles]
  split <;> rfl

theorem lookup_topics_handleCreateTopic {topic : Bytes} {n : ℕ+}
    (hn : h.topics.lookup topic = some n) (payload : Bytes) :
    (h.handleCreateTopic sess payload).handler.topics.lookup topic = some n := by
  rw [handleCreateTopic]
  dsimp only
  split_ifs with hsize hname hzero hmem
  iterate 4 exact hn
  rw [topics_seedRoles]
  refine (AList.lookup_insert_ne ?_).trans hn
  rintro rfl
  exact hmem (AList.lookup_isSome.1 (by rw [hn]; rfl))

/-- A topic keeps its partitions. -/
theorem lookup_topics_handle {topic : Bytes} {n : ℕ+} (hn : h.topics.lookup topic = some n) :
    (h.handle sess f).handler.topics.lookup topic = some n := by
  have hcourse := @course_handle h sess f
  generalize h.handle sess f = r at hcourse
  cases hcourse with
  | metadata hop => rw [topics_handleMetadataReq, hn]
  | create hop => exact lookup_topics_handleCreateTopic hn _
  | refuse code msg => exact hn
  | publish hop sess' t p message => rw [topics_locate, hn]
  | read t p ha => rw [topics_locate, hn]

section

variable {κ : Type} {stores : PartitionKey → PartitionStore κ} {fd : ℤ} {now : UInt64}
  {r : Served κ}

theorem rrCounter_fetched (messages : List Record) :
    (fetched sess messages).2.rrCounter = sess.rrCounter := by
  rw [fetched]
  induction messages generalizing sess with
  | nil => rfl
  | cons msg messages ih => exact ih

theorem access_eq_some {t : Bytes} {p : UInt16} {a : Access}
    (hr : h.access stores sess fd now t p a = some r) :
    r.session.rrCounter = sess.rrCounter ∧ r.handler = h := by
  cases a with
  | append message =>
    simp only [access] at hr
    split_ifs at hr <;> (cases hr; exact ⟨rfl, rfl⟩)
  | subscribe startOffset =>
    cases hr
    refine ⟨?_, rfl⟩
    dsimp only [subscribeAt]
    split_ifs <;> rfl
  | fetch offset maxMessages =>
    obtain ⟨messages, -, rfl⟩ := Option.map_eq_some_iff.1 hr
    exact ⟨rrCounter_fetched _, rfl⟩

theorem serve_eq_some (hr : h.serve stores sess fd now f = some r) :
    r.session.rrCounter = (h.handle sess f).session.rrCounter ∧
      r.handler = (h.handle sess f).handler := by
  rw [serve] at hr
  split at hr
  · cases hr
    exact ⟨rfl, rfl⟩
  · exact access_eq_some hr

end

end RequestHandler

/-! ## The requests of a connection -/

/-- The session of a connection, and what the broker has for its requests. -/
structure Client (κ : Type) where
  session : Session
  handler : RequestHandler
  stores : PartitionKey → PartitionStore κ

namespace Client

/-- Events: a request, with the partition that its message was appended to, if it was accepted. -/
inductive Event
  | request (f : Frame) (appended : Option PartitionKey)
  | elsewhere

variable {κ : Type} {c c' : Client κ} {e : Event} {es : List Event}

/-- The partition that the message of a request is appended to, if it is accepted. -/
def appended (c : Client κ) (now : UInt64) (f : Frame) : Option PartitionKey :=
  match (c.handler.handle c.session f).outcome with
  | .access t p (.append message) =>
    if ((c.stores (t, p)).append message now).1.accepted then some (t, p) else none
  | _ => none

/-- A request of the connection is handled, or something else happens in the broker. -/
inductive Step : Client κ → Event → Client κ → Prop
  | request {c : Client κ} {fd : ℤ} {now : UInt64} {f : Frame} {r : Served κ}
      (hr : c.handler.serve c.stores c.session fd now f = some r) :
      Step c (.request f (c.appended now f)) ⟨r.session, r.handler, r.stores⟩
  | elsewhere {c : Client κ} (h : RequestHandler) (stores : PartitionKey → PartitionStore κ)
      (hkeeps : ∀ topic n, c.handler.topics.lookup topic = some n →
        h.topics.lookup topic = some n) :
      Step c .elsewhere ⟨c.session, h, stores⟩

/-- Where the message went, if the event is a request in turn. -/
def Event.turn : Event → Option (Option PartitionKey)
  | .request f tp => if f.InTurn then some tp else none
  | .elsewhere => none

theorem appended_eq_some {now : UInt64} {f : Frame} {tp : PartitionKey} (hf : f.InTurn)
    (h : c.appended now f = some tp) :
    tp = (f.publication.topic,
        c.session.rrCounter % c.handler.numPartitions f.publication.topic) ∧
      (c.handler.handle c.session f).session.rrCounter = c.session.rrCounter + 1 := by
  rw [appended] at h
  split at h
  · rename_i t p message hout
    split_ifs at h
    cases h
    rw [RequestHandler.session_handle_of_inTurn hf hout]
    refine ⟨?_, rfl⟩
    rcases RequestHandler.admitted_handle c.handler c.session hf.1 with
      ⟨code, msg, hreply⟩ | ⟨-, -, -, message', -, haccess⟩
    · exact absurd (hout.symm.trans hreply) nofun
    · rw [RequestHandler.target_of_inTurn hf] at haccess
      have heq := hout.symm.trans haccess
      injection heq with ht hp
      rw [ht, hp]
  · exact absurd h nofun

/-- What a step does to the turn. -/
theorem Step.turn {topic : Bytes} {n : ℕ+} (hstep : Step c e c')
    (hn : c.handler.topics.lookup topic = some n) :
    c'.handler.topics.lookup topic = some n ∧
      (e.turn = none → c'.session.rrCounter = c.session.rrCounter) ∧
      ∀ p, e.turn = some (some (topic, p)) →
        p = c.session.rrCounter % UInt16.ofNat n ∧
          c'.session.rrCounter = c.session.rrCounter + 1 := by
  cases hstep with
  | @request fd now f r hr =>
    obtain ⟨hcounter, hhandler⟩ := RequestHandler.serve_eq_some hr
    refine ⟨?_, fun hnone => ?_, fun p hsome => ?_⟩
    · rw [hhandler]
      exact RequestHandler.lookup_topics_handle hn
    · rw [Event.turn] at hnone
      split_ifs at hnone with hf
      rw [hcounter, RequestHandler.session_handle_of_not_inTurn hf]
    · rw [Event.turn] at hsome
      split_ifs at hsome with hf
      obtain ⟨htp, hnext⟩ := appended_eq_some hf (Option.some.inj hsome)
      obtain ⟨ht, hp⟩ := Prod.mk.inj htp
      have hcount : c.handler.numPartitions topic = UInt16.ofNat n := by
        rw [RequestHandler.numPartitions, hn]
      rw [← ht, hcount] at hp
      exact ⟨hp, hcounter.trans hnext⟩
  | elsewhere h stores hkeeps =>
    exact ⟨hkeeps topic n hn, fun _ => rfl, fun p hsome => absurd hsome nofun⟩

/-- The requests in turn of a run. -/
def turnsOf (es : List Event) : List (Option PartitionKey) := es.filterMap Event.turn

theorem turnsOf_snoc (es : List Event) (e : Event) :
    turnsOf (es ++ [e]) = turnsOf es ++ e.turn.toList := by
  rw [turnsOf, List.filterMap_append, turnsOf]
  cases h : e.turn <;> simp [List.filterMap, h]

/-- The partitions that the messages of a run go to, if all of its requests in turn are for one
    topic and have been accepted. -/
theorem Run.turns {topic : Bytes} {n : ℕ+} (hrun : Run Step c es c')
    (hn : c.handler.topics.lookup topic = some n) {ps : List UInt16}
    (hps : turnsOf es = ps.map fun p => some (topic, p)) :
    c'.handler.topics.lookup topic = some n ∧
      c'.session.rrCounter.toNat = (c.session.rrCounter.toNat + ps.length) % 2 ^ 16 ∧
      ps.map UInt16.toNat =
        Fell.turns (2 ^ 16) (UInt16.ofNat n).toNat c.session.rrCounter.toNat ps.length := by
  induction hrun generalizing ps with
  | nil =>
    obtain rfl : ps = [] := by simpa [turnsOf] using hps.symm
    exact ⟨hn, (Nat.mod_eq_of_lt c.session.rrCounter.toNat_lt).symm, rfl⟩
  | @snoc es d d' e hrun hstep ih =>
    rw [turnsOf_snoc] at hps
    cases hturn : e.turn with
    | none =>
      rw [hturn, Option.toList_none, List.append_nil] at hps
      obtain ⟨hlookup, hcounter, hparts⟩ := ih hps
      obtain ⟨hlookup', hsame, -⟩ := hstep.turn hlookup
      exact ⟨hlookup', by rw [hsame hturn, hcounter], hparts⟩
    | some tp =>
      rw [hturn, Option.toList_some] at hps
      obtain ⟨ps₁, ps₂, rfl, hps₁, hps₂⟩ := List.map_eq_append_iff.1 hps.symm
      obtain ⟨p, rfl, rfl⟩ : ∃ p, ps₂ = [p] ∧ some (topic, p) = tp := by
        simpa [List.map_eq_singleton_iff] using hps₂
      obtain ⟨hlookup, hcounter, hparts⟩ := ih hps₁.symm
      obtain ⟨hlookup', -, hturn'⟩ := hstep.turn hlookup
      obtain ⟨hp, hnext⟩ := hturn' p hturn
      refine ⟨hlookup', ?_, ?_⟩
      · rw [hnext, UInt16.toNat_add, hcounter, List.length_append, List.length_singleton,
          UInt16.toNat_one, Nat.mod_add_mod, Nat.add_assoc]
      · rw [List.map_append, hparts, List.map_singleton, hp, UInt16.toNat_mod, hcounter,
          List.length_append, List.length_singleton, turns_succ]

/-- As many messages as there are partitions go to all of them, unless the counter wraps around in
    between, and the number of partitions does not divide its range. -/
theorem nodup_iff (hrun : Run Step c es c') {topic : Bytes} {n : ℕ+}
    (hn : c.handler.topics.lookup topic = some n) (hsize : (n : ℕ) < 2 ^ 16) {ps : List UInt16}
    (hps : turnsOf es = ps.map fun p => some (topic, p)) (hlength : ps.length = n) :
    ps.Nodup ↔ c.session.rrCounter.toNat + n ≤ 65536 ∨ (n : ℕ) ∣ 65536 := by
  have hparts := (Run.turns hrun hn hps).2.2
  rw [hlength, UInt16.toNat_ofNat', Nat.mod_eq_of_lt hsize] at hparts
  rw [← List.nodup_map_iff fun _ _ => UInt16.toNat_inj.1, hparts]
  exact nodup_turns_iff n c.session.rrCounter.toNat_lt

/-! ## A topic of three partitions -/

/-- A handler with a topic of three partitions, and neither a configuration nor the metadata. -/
def threefold : RequestHandler where
  topics := AList.insert [116] 3 ∅
  missing _ _ := false
  cfg := none
  metaReg := none
  deferCb := false

/-- A request to publish the byte `7`, in turn. -/
def sevenInTurn : Frame :=
  ⟨.publish, [1, 116] ++ List.replicate 254 0 ++ [255, 255, 0, 0, 0, 1, 7]⟩

theorem handle_sevenInTurn (sess : Session) :
    threefold.handle sess sevenInTurn =
      ⟨.access [116] (sess.rrCounter % 3) (.append (.take 1 [7])),
        { sess with rrCounter := sess.rrCounter + 1 }, threefold⟩ := by
  have hsize : sevenInTurn.payload.length = PublishReq.size + UInt32.toNat 1 := by decide +kernel
  have hreq : (PublishReq.ofPayload sevenInTurn.payload).payloadSize = 1 := by decide +kernel
  have hlen : (PublishReq.ofPayload sevenInTurn.payload).topicLen = 1 := by decide +kernel
  have htopic : (PublishReq.ofPayload sevenInTurn.payload).topicName = [116] := by decide +kernel
  have hpart : (PublishReq.ofPayload sevenInTurn.payload).partition =
      RequestHandler.roundRobin := by decide +kernel
  have hmsg : sevenInTurn.payload.drop PublishReq.size = [7] := by decide +kernel
  have hcount : threefold.numPartitions [116] = 3 := by decide
  have hlt : sess.rrCounter % 3 < 3 := RequestHandler.mod_lt_of_ne_zero _ (by decide)
  have hfound : threefold.getPartition [116] (sess.rrCounter % 3) = true := by
    rw [UInt16.lt_iff_toNat_lt] at hlt
    exact (Bool.and_eq_true _ _).mpr ⟨decide_eq_true hlt, rfl⟩
  rw [RequestHandler.handle_publish rfl, RequestHandler.handlePublish,
    if_neg (by rw [hsize]; exact Nat.not_lt.2 (Nat.le_add_right _ _))]
  simp only [hreq, hlen, htopic, hpart, hmsg, hcount]
  rw [if_neg (not_not.2 hsize), if_neg (by decide), if_neg (by decide),
    RequestHandler.publishKeyless, if_pos rfl, hcount]
  exact RequestHandler.locate_of_metaReg_eq_none rfl hfound _

/-- A store with default options has at most `m` messages of one byte in its queue. -/
structure Room (m : ℕ) (s : PartitionStore Unit) : Prop where
  shutdown : s.shutdown = false
  options : s.options = {}
  queue : s.queue.length ≤ m
  pendingBytes : s.pendingBytes.toNat ≤ m

theorem Room.mono {m m' : ℕ} {s : PartitionStore Unit} (h : Room m s) (hle : m ≤ m') : Room m' s :=
  ⟨h.shutdown, h.options, h.queue.trans hle, h.pendingBytes.trans hle⟩

theorem Room.toNat_add {m : ℕ} {s : PartitionStore Unit} (h : Room m s) (hm : m < 2 ^ 16) :
    (s.pendingBytes + UInt64.ofNat 1).toNat = s.pendingBytes.toNat + 1 := by
  have hle := h.pendingBytes
  rw [UInt64.toNat_add]
  exact Nat.mod_eq_of_lt (by simp; omega)

theorem Room.accepted {m : ℕ} {s : PartitionStore Unit} (h : Room m s) (hm : m < 2 ^ 16)
    (now : UInt64) : (s.append (.take 1 [7]) now).1.accepted = true := by
  refine PartitionStore.append_accepted h.shutdown ?_
  rw [PartitionStore.queueFull, h.options, not_or]
  have hqueue := h.queue
  have hbytes := h.pendingBytes
  constructor
  · exact Nat.not_le.2 (hqueue.trans_lt hm)
  · rw [UInt64.lt_iff_toNat_lt]
    have hsum : (s.pendingBytes + UInt64.ofNat (Payload.take 1 [7]).bytes.length).toNat =
        s.pendingBytes.toNat + 1 := h.toNat_add hm
    have hmax : ({} : StorageOptions).maxPendingBytes.toNat = 64 * 1024 * 1024 := rfl
    omega

theorem Room.enqueue {m : ℕ} {s : PartitionStore Unit} (h : Room m s) (hm : m < 2 ^ 16)
    (now : UInt64) : Room (m + 1) (s.enqueue (.take 1 [7]) now) := by
  refine ⟨h.shutdown, h.options, ?_, ?_⟩
  · rw [PartitionStore.enqueue, List.length_append, List.length_singleton]
    exact Nat.succ_le_succ h.queue
  · exact (h.toNat_add hm).trans_le (Nat.succ_le_succ h.pendingBytes)

/-- A bound on the messages of a partition after `k` requests. -/
def quota (k p : ℕ) : ℕ := (k + 2 - p) / 3 + (k - 2 ^ 16)

theorem quota_lt {k p : ℕ} (hk : k < 2 ^ 16 + 2) : quota k p < 2 ^ 16 := by
  unfold quota
  omega

theorem quota_le_succ (k p : ℕ) : quota k p ≤ quota (k + 1) p := by
  unfold quota
  omega

/-- The bound is raised for the partition whose turn it is. -/
theorem quota_lt_succ (k : ℕ) : quota k (k % 2 ^ 16 % 3) < quota (k + 1) (k % 2 ^ 16 % 3) := by
  unfold quota
  rcases Nat.lt_or_ge k (2 ^ 16) with hk | hk
  · have hturn : (k + 2 - k % 3) / 3 < (k + 1 + 2 - k % 3) / 3 := by omega
    rw [Nat.mod_eq_of_lt hk]
    exact Nat.add_lt_add_of_lt_of_le hturn (Nat.sub_le_sub_right (Nat.le_succ k) _)
  · generalize k % 2 ^ 16 % 3 = p
    have hle : (k + 2 - p) / 3 ≤ (k + 1 + 2 - p) / 3 := Nat.div_le_div_right (by omega)
    omega

/-- What the client has after `k` requests. -/
structure Filling (k : ℕ) (c : Client Unit) : Prop where
  rrCounter : c.session.rrCounter = UInt16.ofNat k
  handler : c.handler = threefold
  room : ∀ p : UInt16, Room (quota k p.toNat) (c.stores ([116], p))

theorem Filling.step {k : ℕ} {c : Client Unit} (h : Filling k c) (hk : k < 2 ^ 16 + 2) :
    ∃ c', Step c (.request sevenInTurn (some ([116], UInt16.ofNat k % 3))) c' ∧
      Filling (k + 1) c' := by
  have hturn : (UInt16.ofNat k % 3).toNat = k % 2 ^ 16 % 3 := by
    rw [UInt16.toNat_mod, UInt16.toNat_ofNat']
    rfl
  have hroom := h.room (UInt16.ofNat k % 3)
  have haccepted := hroom.accepted (quota_lt hk) 0
  have hhandle := handle_sevenInTurn c.session
  rw [h.rrCounter] at hhandle
  have happended : c.appended 0 sevenInTurn = some ([116], UInt16.ofNat k % 3) := by
    rw [appended, h.handler, hhandle]
    exact if_pos haccepted
  have hserve : c.handler.serve c.stores c.session 5 0 sevenInTurn =
      some ⟨encodeAck (c.stores ([116], UInt16.ofNat k % 3)).nextOffset, none,
        { c.session with rrCounter := UInt16.ofNat k + 1 }, threefold,
        Function.update c.stores ([116], UInt16.ofNat k % 3)
          ((c.stores ([116], UInt16.ofNat k % 3)).enqueue (.take 1 [7]) 0)⟩ := by
    rw [RequestHandler.serve, h.handler, hhandle]
    simp only [RequestHandler.access]
    rw [if_pos haccepted, PartitionStore.append_of_accepted haccepted]
    exact if_neg (by decide)
  have hstep := Step.request hserve
  rw [happended] at hstep
  refine ⟨_, hstep, (UInt16.ofNat_add k 1).symm, rfl, fun p => ?_⟩
  by_cases heq : p = UInt16.ofNat k % 3
  · subst heq
    simp only [Function.update_self]
    refine (hroom.enqueue (quota_lt hk) 0).mono ?_
    rw [hturn]
    exact quota_lt_succ k
  · have hne : (([116], p) : PartitionKey) ≠ ([116], UInt16.ofNat k % 3) :=
      fun h => heq (Prod.mk.inj h).2
    simp only [Function.update_of_ne hne]
    exact (h.room p).mono (quota_le_succ k _)

/-- A client of the handler, before its first request. -/
def newcomer : Client Unit := ⟨{}, threefold, fun _ => PartitionStore.open ∅ {}⟩

theorem filling_newcomer : Filling 0 newcomer :=
  ⟨rfl, rfl, fun _ => ⟨rfl, rfl, Nat.zero_le _, Nat.zero_le _⟩⟩

theorem exists_run_filling {k : ℕ} (hk : k ≤ 2 ^ 16) :
    ∃ es c, Run Step newcomer es c ∧ Filling k c := by
  induction k with
  | zero => exact ⟨[], _, .nil, filling_newcomer⟩
  | succ k ih =>
    obtain ⟨es, c, hrun, hfilling⟩ := ih (by omega)
    obtain ⟨c', hstep, hfilling'⟩ := hfilling.step (by omega)
    exact ⟨_, c', hrun.snoc hstep, hfilling'⟩

/-- Three requests in turn. -/
theorem Filling.three {k : ℕ} {c : Client Unit} (h : Filling k c) (hk : k < 2 ^ 16) :
    ∃ es c', Run Step c es c' ∧ turnsOf es =
      [UInt16.ofNat k % 3, UInt16.ofNat (k + 1) % 3, UInt16.ofNat (k + 1 + 1) % 3].map
        fun p => some ([116], p) := by
  obtain ⟨c₁, hstep₁, h₁⟩ := h.step (by omega)
  obtain ⟨c₂, hstep₂, h₂⟩ := h₁.step (by omega)
  obtain ⟨c₃, hstep₃, -⟩ := h₂.step (by omega)
  have hturn : sevenInTurn.InTurn := by decide +kernel
  refine ⟨_, c₃, .cons hstep₁ (.cons hstep₂ (.single hstep₃)), ?_⟩
  simp [turnsOf, Event.turn, hturn]

/-- After 65535 messages, the next two go to the same partition. -/
theorem not_nodup_threefold : ∃ (es es' : List Event) (c c' : Client Unit) (ps : List UInt16),
    Run Step newcomer es c ∧ Run Step c es' c' ∧ c.handler.topics.lookup [116] = some 3 ∧
      turnsOf es' = ps.map (fun p => some ([116], p)) ∧ ps.length = 3 ∧ ¬ps.Nodup := by
  obtain ⟨es, c, hrun, hfilling⟩ := exists_run_filling (show 65535 ≤ 2 ^ 16 by decide)
  obtain ⟨es', c', hrun', hturns⟩ := hfilling.three (by decide)
  refine ⟨es, es', c, c', _, hrun, hrun', ?_, hturns, rfl, by decide⟩
  rw [hfilling.handler]
  rfl

theorem nodup_iff_newcomer : ∃ (es : List Event) (c : Client Unit) (ps : List UInt16),
    Run Step newcomer es c ∧ turnsOf es = ps.map (fun p => some ([116], p)) ∧
      (ps.Nodup ↔ 0 + 3 ≤ 65536 ∨ 3 ∣ 65536) := by
  obtain ⟨es, c, hrun, hturns⟩ := filling_newcomer.three (by decide)
  exact ⟨es, c, _, hrun, hturns, nodup_iff (n := 3) hrun rfl (by decide) hturns rfl⟩

end Client

end Fell.Broker
