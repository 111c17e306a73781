import Fell.Broker.RequestHandler
import Fell.Replication.Election

/-!
# What a broker says about leadership

A client learns from `METADATA_RESP` which broker leads a partition, and turns to it. That
broker refuses requests for partitions that it does not lead with `NOT_LEADER`. The first is
taken from `leader_id`, the second from `role` (`PartitionMeta`), and they are changed
separately: when the roles are seeded, by a candidacy, and by an election that is
accepted.

* `Step.consistent`: they stay in agreement as long as candidacies are for partitions that
  the broker was seeded to follow, and elections name other brokers;
* `metadata_agrees`: so a broker reports itself as the leader of a partition if and only if
  it does not answer requests for it with `NOT_LEADER`.
-/

namespace Fell.Broker

open Platform Replication Storage PartitionMetaRegistry

/-! ## The responses -/

/-- The brokers in the response to `METADATA_REQ`. -/
def brokerList (cfg : ClusterConfig) : Bytes :=
  hostToBe16 (UInt16.ofNat (1 + cfg.peers.length)) ++
    RequestHandler.addBroker cfg.brokerId (ascii "127.0.0.1") cfg.clientPort ++
    cfg.peers.flatMap fun peer =>
      RequestHandler.addBroker peer.brokerId (ascii peer.host) peer.clientPort

/-- `METADATA_RESP`, with these leaders of the partitions. -/
def metadataResp (cfg : ClusterConfig) (leaders : List (UInt16 × UInt32)) : Bytes :=
  encodeFrame .metadataResp (brokerList cfg ++ (hostToBe16 (UInt16.ofNat leaders.length) ++
    leaders.flatMap fun x => hostToBe16 x.1 ++ hostToBe32 x.2))

/-- The response tells that the broker leads the partition. -/
def ReportsLeader (cfg : ClusterConfig) (resp : Bytes) (partition : UInt16) (brokerId : UInt32) :
    Prop :=
  ∃ leaders, resp = metadataResp cfg leaders ∧ (partition, brokerId) ∈ leaders

theorem encodeFrame_injective (op : Op) : Function.Injective (encodeFrame op) := by
  intro payload payload' h
  exact (List.cons.inj (List.append_inj h (by simp)).2).2

theorem flatMap_leaders_injective :
    Function.Injective fun leaders : List (UInt16 × UInt32) =>
      leaders.flatMap fun x => hostToBe16 x.1 ++ hostToBe32 x.2 := by
  intro l l' h
  have hne : ∀ (x : UInt16 × UInt32) (tl : Bytes), hostToBe16 x.1 ++ hostToBe32 x.2 ++ tl ≠ [] := by
    intro x tl hnil
    have := congrArg List.length hnil
    simp at this
  induction l generalizing l' with
  | nil =>
    cases l' with
    | nil => rfl
    | cons y l' => exact absurd h.symm (hne y _)
  | cons x l ih =>
    cases l' with
    | nil => exact absurd h (hne x _)
    | cons y l' =>
      -- The entries are of the same length, so that they end at the same place.
      simp only [List.flatMap_cons] at h
      obtain ⟨hxy, htl⟩ := List.append_inj h (by simp)
      obtain ⟨h₁, h₂⟩ := List.append_inj hxy (by simp)
      have hfst : x.1 = y.1 := by
        rw [← be16ToHost_hostToBe16 x.1, h₁, be16ToHost_hostToBe16]
      have hsnd : x.2 = y.2 := by
        rw [← be32ToHost_hostToBe32 x.2, h₂, be32ToHost_hostToBe32]
      rw [Prod.ext hfst hsnd, ih htl]

/-- A response has one list of leaders. -/
theorem metadataResp_injective (cfg : ClusterConfig) : Function.Injective (metadataResp cfg) := by
  intro l l' h
  have hbody := List.append_cancel_left (encodeFrame_injective _ h)
  exact flatMap_leaders_injective (List.append_inj hbody (by simp)).2

theorem reportsLeader_metadataResp {cfg : ClusterConfig} {leaders : List (UInt16 × UInt32)}
    {partition : UInt16} {brokerId : UInt32} :
    ReportsLeader cfg (metadataResp cfg leaders) partition brokerId ↔
      (partition, brokerId) ∈ leaders := by
  refine ⟨?_, fun h => ⟨leaders, rfl, h⟩⟩
  rintro ⟨leaders', heq, hmem⟩
  rw [metadataResp_injective cfg heq]
  exact hmem

/-- The response is the error `NOT_LEADER`. -/
def IsNotLeader (resp : Bytes) : Prop := ∃ msg, resp = encodeError .notLeader msg

theorem code_of_encodeError {code code' : ErrCode} {msg msg' : String}
    (h : encodeError code msg = encodeError code' msg') : code = code' := by
  have hbyte := (List.cons.inj (encodeFrame_injective _ h)).1
  cases code <;> cases code' <;> first | rfl | exact absurd hbyte (by decide)

theorem isNotLeader_encodeError {code : ErrCode} {msg : String} :
    IsNotLeader (encodeError code msg) ↔ code = .notLeader :=
  ⟨fun ⟨_, h⟩ => code_of_encodeError h, fun h => ⟨msg, by rw [h]⟩⟩

theorem not_isNotLeader_of_op {op : Op} {payload tl : Bytes} (hop : op ≠ .err) :
    ¬IsNotLeader (encodeFrame op payload ++ tl) := by
  rintro ⟨msg, h⟩
  have hbyte : (encodeFrame op payload ++ tl)[4]? = (encodeError .notLeader msg)[4]? := by rw [h]
  rw [List.getElem?_append_left (by simp [encodeFrame]), getElem?_encodeFrame, encodeError,
    getElem?_encodeFrame] at hbyte
  exact hop (by cases op; cases hbyte; rfl)

namespace RequestHandler

variable (h : RequestHandler) (sess : Session)

/-- The responses that a request may get: from the checks or, if they let it through, at the
    partition, whatever is found there. A deferred acknowledgement is one as well. -/
inductive Answers (f : Frame) : Bytes → Prop
  | reply {resp : Bytes} (hout : (h.handle sess f).outcome = .reply resp) : Answers f resp
  | refused {t : Bytes} {p : UInt16} {message : Payload} (error : AppendError)
      (hout : (h.handle sess f).outcome = .access t p (.append message)) :
      Answers f (refusal error)
  | acknowledged {t : Bytes} {p : UInt16} {message : Payload} (offset : UInt64)
      (hout : (h.handle sess f).outcome = .access t p (.append message)) :
      Answers f (encodeAck offset)
  | subscribed {t : Bytes} {p : UInt16} {startOffset : UInt64} (nextOffset : UInt64)
      (hout : (h.handle sess f).outcome = .access t p (.subscribe startOffset)) :
      Answers f (subscribeAt sess t p startOffset nextOffset).1
  | fetched {t : Bytes} {p : UInt16} {offset : UInt64} {maxMessages : UInt16}
      (messages : List Record)
      (hout : (h.handle sess f).outcome = .access t p (.fetch offset maxMessages)) :
      Answers f (RequestHandler.fetched sess messages).1

variable {h sess}

/-- At the partition, no request is answered with `NOT_LEADER`. -/
theorem Answers.outcome_of_isNotLeader {f : Frame} {resp : Bytes} (ha : Answers h sess f resp)
    (hresp : IsNotLeader resp) : (h.handle sess f).outcome = .reply resp := by
  have hack : ∀ offset : UInt64, ¬IsNotLeader (encodeAck offset) := by
    intro offset
    have := @not_isNotLeader_of_op .ack (hostToBe64 offset) [] (by decide)
    rwa [List.append_nil] at this
  cases ha with
  | reply hout => exact hout
  | refused error hout =>
    cases error <;> exact absurd (isNotLeader_encodeError.1 hresp) (by decide)
  | acknowledged offset hout => exact absurd hresp (hack offset)
  | subscribed nextOffset hout =>
    rw [subscribeAt] at hresp
    split_ifs at hresp
    · exact absurd (isNotLeader_encodeError.1 hresp) (by decide)
    · exact absurd hresp (hack _)
    · exact absurd hresp (hack _)
  | fetched messages hout =>
    rw [RequestHandler.fetched] at hresp
    dsimp only at hresp
    split_ifs at hresp with hnil
    · exact absurd hresp (hack 0)
    · cases messages with
      | nil => exact absurd rfl hnil
      | cons msg messages => exact absurd hresp (not_isNotLeader_of_op (by decide))

/-! ## The requests -/

/-- A request for the metadata of a topic. -/
structure AsksMetadata (f : Frame) (topic : Bytes) : Prop where
  op : f.op = .metadataReq
  size : TopicReq.size ≤ f.payload.length
  topic : (TopicReq.ofPayload f.payload).topicName = topic

/-- A well-formed request for a partition, named explicitly. -/
inductive AsksFor (f : Frame) (topic : Bytes) (partition : UInt16) : Prop
  | publish (hop : f.op = .publish)
      (hsize : f.payload.length =
        PublishReq.size + (PublishReq.ofPayload f.payload).payloadSize.toNat)
      (hlen : (PublishReq.ofPayload f.payload).topicLen ≠ 0)
      (htopic : (PublishReq.ofPayload f.payload).topicName = topic)
      (hpart : (PublishReq.ofPayload f.payload).partition = partition)
      (hne : partition ≠ roundRobin)
  | subscribe (hop : f.op = .subscribe) (hsize : SubscribeReq.size ≤ f.payload.length)
      (hlen : (SubscribeReq.ofPayload f.payload).topicLen ≠ 0)
      (htopic : (SubscribeReq.ofPayload f.payload).topicName = topic)
      (hpart : (SubscribeReq.ofPayload f.payload).partition = partition)
  | fetch (hop : f.op = .fetch) (hsize : FetchReq.size ≤ f.payload.length)
      (hlen : (FetchReq.ofPayload f.payload).topicLen ≠ 0)
      (htopic : (FetchReq.ofPayload f.payload).topicName = topic)
      (hpart : (FetchReq.ofPayload f.payload).partition = partition)

theorem checkPartition_eq {req : TopicReq} {topic : Bytes} {partition : UInt16}
    (hlen : req.topicLen ≠ 0) (htopic : req.topicName = topic)
    (hlist : partition < h.numPartitions topic) (a : Access) :
    h.checkPartition sess req partition a = h.locate sess topic partition a := by
  have hpos : h.numPartitions topic ≠ 0 := by
    intro hzero
    rw [hzero] at hlist
    exact absurd hlist UInt16.not_lt_zero
  rw [checkPartition, if_neg hlen, htopic, if_neg hpos, if_neg (UInt16.not_le.2 hlist)]

/-- Such a request comes to the check of the role. -/
theorem AsksFor.handle_eq {f : Frame} {topic : Bytes} {partition : UInt16}
    (hf : AsksFor f topic partition) (hlist : partition < h.numPartitions topic) :
    ∃ a, h.handle sess f = h.locate sess topic partition a := by
  have hpos : h.numPartitions topic ≠ 0 := by
    intro hzero
    rw [hzero] at hlist
    exact absurd hlist UInt16.not_lt_zero
  cases hf with
  | publish hop hsize hlen htopic hpart hne =>
    have hhandle : h.handle sess f = h.handlePublish sess f.payload := by
      simp only [handle, hop]
      rfl
    rw [hhandle, handlePublish, if_neg (by rw [hsize]; omega)]
    dsimp only
    rw [if_neg (not_not.2 hsize), if_neg hlen, htopic, hpart, if_neg hpos, publishKeyless]
    rw [if_neg hne, if_neg (UInt16.not_le.2 hlist)]
    exact ⟨_, rfl⟩
  | subscribe hop hsize hlen htopic hpart =>
    have hhandle : h.handle sess f = h.handleSubscribe sess f.payload := by
      simp only [handle, hop]
      rfl
    rw [hhandle, handleSubscribe, if_neg (Nat.not_lt.2 hsize)]
    dsimp only
    rw [hpart, checkPartition_eq hlen htopic hlist]
    exact ⟨_, rfl⟩
  | fetch hop hsize hlen htopic hpart =>
    have hhandle : h.handle sess f = h.handleFetch sess f.payload := by
      simp only [handle, hop]
      rfl
    rw [hhandle, handleFetch, if_neg (Nat.not_lt.2 hsize)]
    dsimp only
    rw [hpart, checkPartition_eq hlen htopic hlist]
    exact ⟨_, rfl⟩

/-- It is answered with `NOT_LEADER` if and only if the broker does not have the role. -/
theorem AsksFor.isNotLeader_iff {reg : PartitionMetaRegistry} {f : Frame} {topic : Bytes}
    {partition : UInt16} (hf : AsksFor f topic partition) (hreg : h.metaReg = some reg)
    (hlist : partition < h.numPartitions topic) :
    (∃ resp, Answers h sess f resp ∧ IsNotLeader resp) ↔
      (reg.find topic partition).role ≠ .leader := by
  obtain ⟨a, hhandle⟩ : ∃ a, h.handle sess f = h.locate sess topic partition a :=
    hf.handle_eq hlist
  rw [locate] at hhandle
  dsimp only [notLeader] at hhandle
  rw [hreg] at hhandle
  simp only [Option.map_some, find_get, decide_eq_true_eq] at hhandle
  constructor
  · rintro ⟨resp, ha, hresp⟩ hrole
    have hout := ha.outcome_of_isNotLeader hresp
    rw [hhandle, if_neg (not_not.2 hrole)] at hout
    split_ifs at hout
    · cases hout
      exact absurd (isNotLeader_encodeError.1 hresp) (by decide)
  · intro hrole
    rw [if_pos hrole] at hhandle
    exact ⟨_, .reply (by rw [hhandle]; rfl), isNotLeader_encodeError.2 rfl⟩

/-- The leaders in the response to a request for the metadata. -/
theorem AsksMetadata.outcome_eq {cfg : ClusterConfig} {reg : PartitionMetaRegistry} {f : Frame}
    {topic : Bytes} (hf : AsksMetadata f topic) (hcfg : h.cfg = some cfg)
    (hreg : h.metaReg = some reg) :
    (h.handle sess f).outcome = .reply (metadataResp cfg
      ((List.range (h.numPartitions topic).toNat).map fun i =>
        (UInt16.ofNat i, (reg.find topic (UInt16.ofNat i)).leaderId))) := by
  have hhandle : h.handle sess f = h.handleMetadataReq sess f.payload := if_pos hf.op
  rw [hhandle, handleMetadataReq, if_neg (Nat.not_lt.2 hf.size)]
  simp only [hf.topic, hcfg, hreg]
  rw [metadataResp, brokerList]
  simp [List.flatMap_map, addPartition, List.append_assoc]

/-- What is reported is `leader_id`. -/
theorem AsksMetadata.reportsLeader_iff {cfg : ClusterConfig} {reg : PartitionMetaRegistry}
    {f : Frame} {topic : Bytes} {partition : UInt16} (hf : AsksMetadata f topic)
    (hcfg : h.cfg = some cfg) (hreg : h.metaReg = some reg)
    (hlist : partition < h.numPartitions topic) (brokerId : UInt32) :
    (∃ resp, (h.handle sess f).outcome = .reply resp ∧
      ReportsLeader cfg resp partition brokerId) ↔
        (reg.find topic partition).leaderId = brokerId := by
  rw [hf.outcome_eq hcfg hreg]
  simp only [Outcome.reply.injEq, exists_eq_left', reportsLeader_metadataResp, List.mem_map,
    List.mem_range, Prod.mk.injEq]
  constructor
  · rintro ⟨i, -, rfl, hid⟩
    exact hid
  · intro hid
    exact ⟨partition.toNat, UInt16.lt_iff_toNat_lt.1 hlist, UInt16.ofNat_toNat,
      by rw [UInt16.ofNat_toNat, hid]⟩

/-! ## What requests do to the metadata -/

/-- The topics and the metadata of the partitions stay as they are. -/
structure Leaves (h : RequestHandler) (r : Handled) : Prop where
  topics : r.handler.topics = h.topics
  metaReg : ∀ reg, h.metaReg = some reg → ∃ reg', r.handler.metaReg = some reg' ∧
    ∀ t p, reg'.find t p = reg.find t p

theorem leaves_refuse (code : ErrCode) (msg : String) : Leaves h (h.refuse sess code msg) :=
  ⟨rfl, fun reg hreg => ⟨reg, hreg, fun _ _ => rfl⟩⟩

theorem leaves_locate (topic : Bytes) (partition : UInt16) (a : Access) :
    Leaves h (h.locate sess topic partition a) := by
  have hget : ∀ reg, h.metaReg = some reg →
      ∃ reg', h.metaReg.map (PartitionMetaRegistry.get · topic partition) = some reg' ∧
        ∀ t p, reg'.find t p = reg.find t p := by
    intro reg hreg
    exact ⟨_, by rw [hreg]; rfl, fun t p => find_get _ _ _ _ _⟩
  unfold locate
  dsimp only
  split_ifs <;> exact ⟨rfl, hget⟩

theorem leaves_handleMetadataReq (payload : Bytes) :
    Leaves h (h.handleMetadataReq sess payload) := by
  have hfold : ∀ (reg : PartitionMetaRegistry) (topic : Bytes) (ps : List UInt16) (t : Bytes)
      (p : UInt16), (ps.foldl (PartitionMetaRegistry.get · topic ·) reg).find t p =
        reg.find t p := by
    intro reg topic ps t p
    induction ps generalizing reg with
    | nil => rfl
    | cons q ps ih => rw [List.foldl_cons, ih, find_get]
  rw [handleMetadataReq]
  split_ifs
  · exact leaves_refuse _ _
  · dsimp only
    split
    · rename_i cfg reg hcfg hreg
      refine ⟨rfl, fun reg' hreg' => ⟨_, rfl, fun t p => ?_⟩⟩
      obtain rfl : reg = reg' := Option.some.inj (hreg.symm.trans hreg')
      exact hfold _ _ _ _ _
    · exact leaves_refuse _ _

theorem Course.leaves {f : Frame} {r : Handled} (hc : Course h sess f r)
    (hop : f.op ≠ .createTopic) : Leaves h r := by
  cases hc with
  | metadata => exact leaves_handleMetadataReq _
  | create hcreate => exact absurd hcreate hop
  | refuse => exact leaves_refuse _ _
  | publish | read => exact leaves_locate _ _ _

/-- Only the creation of a topic changes them. -/
theorem leaves_handle {f : Frame} (hop : f.op ≠ .createTopic) : Leaves h (h.handle sess f) :=
  (course_handle f).leaves hop

end RequestHandler

/-! ## Steps -/

variable {b b' b₀ : Broker} {t topic : Bytes} {p partition : UInt16}

/-- The broker was seeded to follow the partition. -/
def SeededToFollow (b : Broker) (partition : UInt16) : Prop :=
  partition.toUInt32 % b.numBrokersAtCreation ≠ b.cfg.brokerId

/-- A request is handled. -/
def ask (b : Broker) (missing : Bytes → UInt16 → Bool) (sess : Session) (f : Frame) : Broker :=
  let r := (b.requestHandler missing).handle sess f
  { b with topics := r.handler.topics, metaReg := r.handler.metaReg.getD b.metaReg }

/-- What happens to the metadata of a broker. -/
inductive LeadershipEvent
  | asked (f : Frame)
  | campaigned (topic : Bytes) (partition : UInt16)
  | delivered (topic : Bytes) (partition : UInt16) (le : LeaderElection)

/-- A broker handles requests of clients, becomes a candidate for a partition it was seeded to
    follow, or handles an election of another broker. -/
inductive LeadershipStep (b : Broker) : LeadershipEvent → Broker → Prop
  | ask (missing : Bytes → UInt16 → Bool) (sess : Session) (f : Frame) :
      LeadershipStep b (.asked f) (b.ask missing sess f)
  | campaign (topic : Bytes) (partition : UInt16) (hfollow : b.SeededToFollow partition) :
      LeadershipStep b (.campaigned topic partition)
        { b with
          metaReg := b.metaReg.modify topic partition fun m =>
            if m.role = .candidate then m else m.electSelf }
  | deliver (topic : Bytes) (partition : UInt16) (committed : Option UInt64) (le : LeaderElection)
      (hother : le.newLeaderId ≠ b.cfg.brokerId) :
      LeadershipStep b (.delivered topic partition le)
        { b with
          metaReg := b.metaReg.modify topic partition fun m =>
            m.handleLeaderElection b.cfg.brokerId committed le }

/-- The partitions the broker lists are as `assign_roles` leaves them. -/
def Seeded (b : Broker) : Prop :=
  ∀ t p, b.Lists t p → ∃ m, b.metaReg.find t p = seed b.cfg.brokerId b.numBrokersAtCreation p m

/-- Starting and creating a topic count the same brokers. -/
theorem numBrokersAtStart_eq (h : b.numBrokersAtStart ≠ 0) :
    b.numBrokersAtStart = b.numBrokersAtCreation := by
  have hpos : b.numBrokersAtStart.toNat ≠ 0 := fun hzero => h (UInt32.toNat_inj.1 hzero)
  apply UInt32.toNat_inj.1
  rw [toNat_numBrokersAtCreation rfl, ← toNat_numBrokersAtStart rfl]
  omega

theorem numBrokersAtCreation_ne_zero (b : Broker) : b.numBrokersAtCreation ≠ 0 := by
  intro hzero
  have hnum := @toNat_numBrokersAtCreation b _ rfl
  rw [hzero, UInt32.toNat_zero] at hnum
  omega

theorem foldl_takeRole_eq (l : List (Bytes × UInt16)) (b : Broker) :
    (l.foldl (fun b tp => b.takeRole tp.1 tp.2) b).cfg = b.cfg ∧
      (l.foldl (fun b tp => b.takeRole tp.1 tp.2) b).topics = b.topics := by
  have htake : ∀ (b : Broker) (t : Bytes) (p : UInt16),
      (b.takeRole t p).cfg = b.cfg ∧ (b.takeRole t p).topics = b.topics := by
    intro b t p
    rw [takeRole, getOrCreateReplicaManager, getOrCreateReplicationClient]
    dsimp only
    split_ifs <;> exact ⟨rfl, rfl⟩
  induction l generalizing b with
  | nil => exact ⟨rfl, rfl⟩
  | cons tp l ih =>
    rw [List.foldl_cons, (ih _).1, (ih _).2]
    exact htake b tp.1 tp.2

/-- A broker that starts seeds the partitions it lists. -/
theorem seeded_initializeReplication (h : b.numBrokersAtStart ≠ 0) :
    Seeded b.initializeReplication := by
  obtain ⟨hcfg, htopics⟩ := foldl_takeRole_eq b.partitions b.assigned
  rw [← initializeReplication_eq] at hcfg htopics
  intro t p hlist
  have hlist : b.Lists t p := by
    rw [Lists, htopics] at hlist
    exact hlist
  refine ⟨b.metaReg.find t p, ?_⟩
  rw [find_initializeReplication b h, if_pos hlist, numBrokersAtStart_eq h, numBrokersAtCreation,
    numBrokersAtCreation, hcfg]
  rfl

/-- The broker has the role of the leader if and only if it is recorded as such, which it is not for
    a partition it was seeded to follow. -/
def Consistent (b : Broker) : Prop :=
  ∀ t p, b.Lists t p →
    ((b.metaReg.find t p).role = .leader ↔ (b.metaReg.find t p).leaderId = b.cfg.brokerId) ∧
      (b.SeededToFollow p → (b.metaReg.find t p).leaderId ≠ b.cfg.brokerId)

theorem consistent_seed (b : Broker) (p : UInt16) (m : PartitionMeta) :
    let m' := seed b.cfg.brokerId b.numBrokersAtCreation p m
    (m'.role = .leader ↔ m'.leaderId = b.cfg.brokerId) ∧
      (b.SeededToFollow p → m'.leaderId ≠ b.cfg.brokerId) := by
  refine ⟨?_, fun h => h⟩
  dsimp only [seed]
  split_ifs with h
  · exact iff_of_true rfl h
  · exact iff_of_false (by decide) h

theorem Seeded.consistent (h : Seeded b) : Consistent b := by
  intro t p hlist
  obtain ⟨m, hm⟩ := h t p hlist
  rw [hm]
  exact consistent_seed b p m

/-- Creating a topic seeds its partitions. -/
theorem Consistent.handleCreateTopic (h : Consistent b) (payload : Bytes) :
    Consistent (b.handleCreateTopic payload).2 := by
  rw [Broker.handleCreateTopic]
  dsimp only
  split_ifs with h₁ h₂ h₃ h₄
  iterate 4 exact h
  intro t p hlist
  obtain ⟨count, hcount, hp⟩ := hlist
  obtain ⟨c, hc, hcount⟩ : ∃ c : ℕ+,
      (c : ℕ) = (CreateTopicReq.ofPayload payload).numPartitions.toNat ∧
      AList.lookup t (b.topics.insert (CreateTopicReq.ofPayload payload).topicName c) =
        some count :=
    ⟨⟨_, Nat.pos_of_ne_zero h₃⟩, rfl, hcount⟩
  dsimp only
  rw [find_assignRoles _ b.numBrokersAtCreation_ne_zero]
  by_cases ht : t = (CreateTopicReq.ofPayload payload).topicName
  · -- All partitions of the new topic are seeded.
    have hmem : (t, p) ∈ PartitionMetaRegistry.assigned
        [(CreateTopicReq.ofPayload payload).topicName]
        [(CreateTopicReq.ofPayload payload).numPartitions] := by
      refine mem_assigned.2 ⟨0, by rw [ht]; rfl, ?_⟩
      rw [ht, AList.lookup_insert, Option.some.injEq] at hcount
      rwa [← hcount, hc, UInt16.ofNat_toNat] at hp
    rw [if_pos hmem]
    exact consistent_seed b p _
  · have hmem : (t, p) ∉ PartitionMetaRegistry.assigned
        [(CreateTopicReq.ofPayload payload).topicName]
        [(CreateTopicReq.ofPayload payload).numPartitions] := by
      intro hmem
      obtain ⟨i, hi, -⟩ := mem_assigned.1 hmem
      exact ht (List.mem_singleton.1 (List.mem_of_getElem? hi))
    rw [if_neg hmem]
    rw [AList.lookup_insert_ne ht] at hcount
    exact h t p ⟨count, hcount, hp⟩

theorem Consistent.ask (h : Consistent b) (missing : Bytes → UInt16 → Bool) (sess : Session)
    (f : Frame) : Consistent (b.ask missing sess f) := by
  by_cases hop : f.op = .createTopic
  · -- The handler does to the topics and the metadata what the broker is said to do.
    have hhandle : (b.requestHandler missing).handle sess f =
        (b.requestHandler missing).handleCreateTopic sess f.payload := by
      rw [RequestHandler.handle, if_neg (by rw [hop]; decide), if_pos hop]
    obtain ⟨-, htopics, hreg⟩ := handleCreateTopic_eq b missing sess f.payload
    have hcfg : (b.handleCreateTopic f.payload).2.cfg = b.cfg := by
      rw [Broker.handleCreateTopic]
      dsimp only
      split_ifs <;> rfl
    have hc := h.handleCreateTopic f.payload
    intro t p hlist
    rw [Broker.ask, hhandle, Lists] at hlist
    dsimp only at hlist
    rw [htopics] at hlist
    have := hc t p hlist
    rw [SeededToFollow, numBrokersAtCreation, hcfg] at this
    rw [Broker.ask, hhandle]
    dsimp only
    rw [hreg, Option.getD_some]
    exact this
  · have hleaves : (b.requestHandler missing).Leaves ((b.requestHandler missing).handle sess f) :=
      RequestHandler.leaves_handle hop
    obtain ⟨htopics, hreg⟩ := hleaves
    obtain ⟨reg', hreg', hfind⟩ := hreg b.metaReg rfl
    intro t p hlist
    rw [Broker.ask, Lists] at hlist
    dsimp only at hlist
    rw [htopics] at hlist
    rw [Broker.ask]
    dsimp only
    rw [hreg', Option.getD_some, hfind]
    exact h t p hlist

/-- The two stay in agreement. -/
theorem LeadershipStep.consistent {e : LeadershipEvent} (hst : LeadershipStep b e b')
    (h : Consistent b) : Consistent b' := by
  cases hst with
  | ask missing sess f => exact h.ask missing sess f
  | campaign topic partition hfollow =>
    intro t p hlist
    obtain ⟨hiff, hne⟩ := h t p hlist
    dsimp only
    rw [find_modify]
    split_ifs with heq hrole
    · exact ⟨hiff, hne⟩
    · -- A candidate has no role of a leader, and was not recorded as one before.
      obtain ⟨rfl, rfl⟩ := heq
      exact ⟨iff_of_false (by simp [PartitionMeta.electSelf]) (hne hfollow), hne⟩
    · exact ⟨hiff, hne⟩
  | deliver topic partition committed le hother =>
    intro t p hlist
    obtain ⟨hiff, hne⟩ := h t p hlist
    dsimp only
    rw [find_modify]
    split_ifs with heq
    · rw [PartitionMeta.handleLeaderElection]
      split_ifs
      -- The leader that is recorded is another broker, and the role is that of a follower.
      · exact ⟨iff_of_false (by simp) hother, fun _ => hother⟩
      · exact ⟨hiff, hne⟩
    · exact ⟨hiff, hne⟩

theorem Run.consistent {es : List LeadershipEvent} (hr : Run LeadershipStep b₀ es b)
    (h : Seeded b₀) : Consistent b :=
  hr.invariant (I := fun _ b => Consistent b) h.consistent fun _ ih hst => hst.consistent ih

/-- A broker reports itself as the leader of one of its partitions if and only if it does not answer
    well-formed requests for it with `NOT_LEADER`. -/
theorem metadata_agrees {es : List LeadershipEvent} (hseed : Seeded b₀)
    (hr : Run LeadershipStep b₀ es b) (hlist : b.Lists topic partition)
    (missing : Bytes → UInt16 → Bool) (sess : Session) {g : Frame}
    (hg : RequestHandler.AsksMetadata g topic) {f : Frame}
    (hf : RequestHandler.AsksFor f topic partition) :
    (∃ resp, ((b.requestHandler missing).handle sess g).outcome = .reply resp ∧
      ReportsLeader b.cfg resp partition b.cfg.brokerId) ↔
    ¬∃ resp, (b.requestHandler missing).Answers sess f resp ∧ IsNotLeader resp := by
  have hlt : partition < (b.requestHandler missing).numPartitions topic := by
    obtain ⟨count, hcount, hp⟩ := hlist
    rw [RequestHandler.numPartitions]
    rw [Option.mem_def] at hcount
    simpa [requestHandler, hcount] using hp
  rw [hg.reportsLeader_iff rfl rfl hlt, hf.isNotLeader_iff rfl hlt, not_not]
  exact (Run.consistent hr hseed topic partition hlist).1.symm

/-- A request for the metadata of a topic, and one to fetch from its first partition. -/
def metadataOf : Frame := ⟨.metadataReq, [1, 116] ++ List.replicate 254 0⟩

def fetchOf : Frame := ⟨.fetch, [1, 116] ++ List.replicate 266 0⟩

/-- The second broker of the default configuration becomes a candidate for a partition that the
    first one leads. -/
theorem metadata_agrees_default :
    let b₀ := (defaultBroker 1).initializeReplication
    Seeded b₀ ∧ ∃ b, Run LeadershipStep b₀ [.campaigned (ascii "t") 0] b ∧ b.Lists (ascii "t") 0 ∧
      ((∃ resp, ((b.requestHandler fun _ _ => false).handle {} metadataOf).outcome = .reply resp ∧
          ReportsLeader b.cfg resp 0 b.cfg.brokerId) ↔
        ¬∃ resp, (b.requestHandler fun _ _ => false).Answers {} fetchOf resp ∧
          IsNotLeader resp) := by
  intro b₀
  have hseed : Seeded b₀ := seeded_initializeReplication (by decide +kernel)
  have hfollow : b₀.SeededToFollow 0 := by
    rw [SeededToFollow]
    decide +kernel
  have hlist : b₀.Lists (ascii "t") 0 := by decide +kernel
  have hr : Run LeadershipStep b₀ [.campaigned (ascii "t") 0] _ :=
    .single (.campaign (ascii "t") 0 hfollow)
  refine ⟨hseed, _, hr, hlist, metadata_agrees hseed hr hlist (fun _ _ => false) {} ?_ ?_⟩
  · exact ⟨rfl, by decide +kernel, by decide +kernel⟩
  · exact .fetch rfl (by decide +kernel) (by decide +kernel) (by decide +kernel) (by decide +kernel)

end Fell.Broker
