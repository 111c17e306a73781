import Fell.Broker.Protocol
import Fell.Replication.ClusterConfig
import Fell.Replication.PartitionMeta
import Mathlib.Data.PNat.Defs

/-!
# Seeding the roles

A broker seeds the roles of the partitions when it starts
(`Broker::initialize_replication`), for the topics found on disk, and when a topic is
created (`RequestHandler::handle_create_topic`). No broker asks another: that they
agree depends on each counting the same brokers. Both places count
`1 + peers.size()`, while `peers` lists the broker itself too, so one broker
is counted that does not exist.

* `Seeds.replicaIds_eq`: the replicas recorded, on either way to seed;
* `not_wellSeeded`: no partition is seeded as it should be.

Creating the directories of a topic is taken to succeed.
-/

namespace Fell

open Platform Replication PartitionMetaRegistry

/-- `Broker`, as far as replication is concerned. -/
structure Broker where
  cfg : ClusterConfig
  /-- `registry_`: the number of partitions of each topic. No topic is without. -/
  topics : AList fun _ : Bytes => ℕ+
  metaReg : PartitionMetaRegistry
  /-- The partitions that have a replica manager, by their key. -/
  replicaManagers : AList fun _ : Bytes => Bytes × UInt16
  /-- The partitions that have a replication client, by their key. -/
  replicationClients : AList fun _ : Bytes => Bytes × UInt16

namespace Broker

variable (b : Broker) {b' : Broker} {topic t : Bytes} {partition p : UInt16}

/-! ## Starting -/

/-- `list_topics`, in some order. -/
def listTopics : List (Bytes × UInt16) :=
  b.topics.entries.map fun e => (e.1, UInt16.ofNat e.2)

/-- `get_or_create_replica_manager`. -/
def getOrCreateReplicaManager (topic : Bytes) (partition : UInt16) : Broker :=
  if makeKey topic partition ∈ b.replicaManagers then b
  else
    { b with
      metaReg := b.metaReg.get topic partition
      replicaManagers := b.replicaManagers.insert (makeKey topic partition) (topic, partition) }

/-- `get_or_create_replication_client`. -/
def getOrCreateReplicationClient (topic : Bytes) (partition : UInt16) : Broker :=
  if makeKey topic partition ∈ b.replicationClients then b
  else
    { b with
      replicationClients :=
        b.replicationClients.insert (makeKey topic partition) (topic, partition) }

/-- The broker takes up its role in a partition. -/
def takeRole (topic : Bytes) (partition : UInt16) : Broker :=
  let b := { b with metaReg := b.metaReg.get topic partition }
  if (b.metaReg.find topic partition).role = .leader then
    b.getOrCreateReplicaManager topic partition
  else b.getOrCreateReplicationClient topic partition

/-- The broker count of `initialize_replication`. -/
def numBrokersAtStart : UInt32 := UInt32.ofNat (max (1 + b.cfg.peers.length) 1)

/-- `initialize_replication`. -/
def initializeReplication : Broker :=
  let b₁ :=
    { b with
      metaReg := b.metaReg.assignRoles b.cfg.brokerId b.numBrokersAtStart
        (b.listTopics.map Prod.fst) (b.listTopics.map Prod.snd) }
  b.listTopics.foldl (fun b (topic, count) =>
    (List.range count.toNat).foldl (fun b p => b.takeRole topic (UInt16.ofNat p)) b) b₁

@[simp] theorem find_getOrCreateReplicaManager :
    (b.getOrCreateReplicaManager topic partition).metaReg.find t p = b.metaReg.find t p := by
  rw [getOrCreateReplicaManager]
  split_ifs <;> simp

@[simp] theorem find_takeRole :
    (b.takeRole topic partition).metaReg.find t p = b.metaReg.find t p := by
  rw [takeRole, getOrCreateReplicationClient]
  dsimp only
  split_ifs <;> simp

/-- The partition is one of those the broker lists. The number of partitions is cut
    to 16 bits there. -/
def Lists (t : Bytes) (p : UInt16) : Prop := ∃ count ∈ b.topics.lookup t, p < UInt16.ofNat count

instance : Decidable (b.Lists t p) := Option.decidableExistsMem (b.topics.lookup t)

theorem exists_mem_listTopics : (∃ count, (t, count) ∈ b.listTopics ∧ p < count) ↔ b.Lists t p := by
  simp only [listTopics, Lists, List.mem_map, Prod.mk.injEq, AList.mem_lookup_iff]
  constructor
  · rintro ⟨_, ⟨⟨t, count⟩, hmem, rfl, rfl⟩, hp⟩
    exact ⟨count, hmem, hp⟩
  · rintro ⟨count, hmem, hp⟩
    exact ⟨_, ⟨_, hmem, rfl, rfl⟩, hp⟩

/-- The partitions in the order in which `initialize_replication` goes through them. -/
def partitions : List (Bytes × UInt16) :=
  b.listTopics.flatMap fun (topic, count) =>
    (List.range count.toNat).map fun p => (topic, UInt16.ofNat p)

/-- The broker with the roles assigned, before it takes them up. -/
def assigned : Broker :=
  { b with
    metaReg := b.metaReg.assignRoles b.cfg.brokerId b.numBrokersAtStart
      (b.listTopics.map Prod.fst) (b.listTopics.map Prod.snd) }

theorem initializeReplication_eq :
    b.initializeReplication = b.partitions.foldl (fun b tp => b.takeRole tp.1 tp.2) b.assigned := by
  rw [initializeReplication, partitions, List.foldl_flatMap]
  simp only [List.foldl_map, assigned]

theorem find_foldl_takeRole (l : List (Bytes × UInt16)) :
    (l.foldl (fun b tp => b.takeRole tp.1 tp.2) b).metaReg.find t p = b.metaReg.find t p := by
  induction l generalizing b with
  | nil => rfl
  | cons tp l ih => rw [List.foldl_cons, ih, find_takeRole]

/-- A starting broker seeds the partitions it lists. -/
theorem find_initializeReplication (h : b.numBrokersAtStart ≠ 0) :
    b.initializeReplication.metaReg.find t p =
      if b.Lists t p then seed b.cfg.brokerId b.numBrokersAtStart p (b.metaReg.find t p)
      else b.metaReg.find t p := by
  rw [initializeReplication_eq, find_foldl_takeRole, assigned, find_assignRoles _ h]
  simp only [mem_assigned_map, exists_mem_listTopics]

/-! ## Creating a topic -/

/-- The number of partitions asked for, if there are any. -/
def partitionCount (req : CreateTopicReq) (h : ¬req.numPartitions.toNat = 0) : ℕ+ :=
  ⟨req.numPartitions.toNat, Nat.pos_of_ne_zero h⟩

/-- The broker count of `handle_create_topic`. -/
def numBrokersAtCreation : UInt32 := max 1 (UInt32.ofNat (1 + b.cfg.peers.length))

/-- `handle_create_topic`: the response, and the broker. -/
def handleCreateTopic (payload : Bytes) : Bytes × Broker :=
  if payload.length < CreateTopicReq.size then
    (encodeError .malformedRequest "payload too small for CREATE_TOPIC", b)
  else
    let req := CreateTopicReq.ofPayload payload
    if req.nameLen = 0 then (encodeError .malformedRequest "Topic name cannot be empty", b)
    else
      if h : req.numPartitions.toNat = 0 then
        (encodeError .malformedRequest "Partition count must be at least 1", b)
      else if req.topicName ∈ b.topics then
        (encodeError .malformedRequest "Topic already exists", b)
      else
        (encodeAck 0,
          { b with
            topics := b.topics.insert req.topicName (partitionCount req h)
            metaReg := b.metaReg.assignRoles b.cfg.brokerId b.numBrokersAtCreation
              [req.topicName] [req.numPartitions] })

variable {b}

theorem handleCreateTopic_of_ack {payload : Bytes}
    (h : b.handleCreateTopic payload = (encodeAck 0, b')) :
    let req := CreateTopicReq.ofPayload payload
    0 < req.numPartitions ∧
      b'.metaReg = b.metaReg.assignRoles b.cfg.brokerId b.numBrokersAtCreation
        [req.topicName] [req.numPartitions] := by
  rw [handleCreateTopic] at h
  dsimp only at h ⊢
  split_ifs at h with h₁ h₂ h₃ h₄
  iterate 4 exact absurd (Prod.ext_iff.1 h).1 (encodeError_ne_encodeAck _ _ _)
  obtain rfl : _ = b' := (Prod.ext_iff.1 h).2
  exact ⟨UInt16.lt_iff_toNat_lt.2 (Nat.pos_of_ne_zero h₃), rfl⟩

/-! ## Clusters -/

/-- The broker `b'` is the broker `b` after it has seeded the roles of a topic with so
    many partitions: when starting, with no replicas recorded yet, or when creating it. -/
inductive Seeds (topic : Bytes) (count : ℕ) (b : Broker) : Broker → Prop
  | start (hcount : (b.topics.lookup topic).map PNat.val = some count)
      (hfresh : ∀ t p, (b.metaReg.find t p).replicas = []) :
      Seeds topic count b b.initializeReplication
  | create {payload : Bytes} {b' : Broker}
      (htopic : (CreateTopicReq.ofPayload payload).topicName = topic)
      (hcount : (CreateTopicReq.ofPayload payload).numPartitions.toNat = count)
      (hack : b.handleCreateTopic payload = (encodeAck 0, b')) : Seeds topic count b b'

/-- The metadata that `n` brokers have of a partition are as they should be: one broker
    leads it, all know which one, and the replicas are these brokers. -/
structure WellSeeded (n : ℕ) (metas : Fin n → PartitionMeta) : Prop where
  leader : ∃! i, (metas i).role = .leader
  leaderId : ∀ i j, (metas i).role = .leader → (metas j).leaderId.toNat = i
  replicas : ∀ i id, id ∈ (metas i).replicaIds ↔ id.toNat < n

variable {n i count : ℕ}

theorem Seeds.count_pos (h : Seeds topic count b b') : 0 < count := by
  cases h with
  | start hcount _ =>
    obtain ⟨c, _, rfl⟩ := Option.map_eq_some_iff.1 hcount
    exact c.pos
  | create _ hcount hack =>
    rw [← hcount]
    exact UInt16.lt_iff_toNat_lt.1 (handleCreateTopic_of_ack hack).1

theorem mem_map_range {m : ℕ} (hm : m ≤ UInt32.size) {id : UInt32} :
    id ∈ (List.range m).map UInt32.ofNat ↔ id.toNat < m := by
  simp only [List.mem_map, List.mem_range]
  constructor
  · rintro ⟨k, hk, rfl⟩
    rwa [UInt32.toNat_ofNat', Nat.mod_eq_of_lt (hk.trans_le hm)]
  · exact fun h => ⟨id.toNat, h, UInt32.ofNat_toNat⟩

theorem toNat_numBrokersAtStart (hlen : b.cfg.peers.length = n) :
    b.numBrokersAtStart.toNat = (n + 1) % UInt32.size := by
  rw [numBrokersAtStart, hlen, UInt32.toNat_ofNat', Nat.max_eq_left (by omega), Nat.add_comm]

theorem toNat_numBrokersAtCreation (hlen : b.cfg.peers.length = n) :
    b.numBrokersAtCreation.toNat = max 1 ((n + 1) % UInt32.size) := by
  have hone : (1 : UInt32).toNat = 1 := rfl
  have hcast : (UInt32.ofNat (1 + n)).toNat = (n + 1) % UInt32.size := by
    rw [UInt32.toNat_ofNat', Nat.add_comm]
  have hmax : ∀ k : UInt32, max 1 k = if 1 ≤ k then k else 1 := fun _ => rfl
  rw [numBrokersAtCreation, hlen, hmax, max_def, ← hcast, apply_ite UInt32.toNat]
  simp only [UInt32.le_iff_toNat_le, hone]

/-- The metadata of a partition after seeding. They are left as they were only if the
    broker count wraps around to zero, or the number of partitions does not fit. -/
theorem Seeds.find_eq (h : Seeds topic count b b') (hlen : b.cfg.peers.length = n)
    (p : UInt16) (hp : p.toNat < count) :
    (∃ num m, num.toNat = max 1 ((n + 1) % UInt32.size) ∧
        b'.metaReg.find topic p = seed b.cfg.brokerId num p m) ∨
      ((n + 1) % UInt32.size = 0 ∨ UInt16.size ≤ count) ∧
        (b'.metaReg.find topic p).replicas = [] := by
  cases h with
  | start hcount hfresh =>
    obtain ⟨c, hc, rfl⟩ := Option.map_eq_some_iff.1 hcount
    have hnum := toNat_numBrokersAtStart hlen
    by_cases hzero : b.numBrokersAtStart = 0
    · -- `assign_roles` does nothing for no brokers.
      refine .inr ⟨.inl (by rw [← hnum, hzero]; rfl), ?_⟩
      rw [initializeReplication_eq, find_foldl_takeRole, assigned, assignRoles, if_pos hzero]
      exact hfresh _ _
    · rw [find_initializeReplication b hzero]
      have hpos : b.numBrokersAtStart.toNat ≠ 0 := fun h => hzero (UInt32.toNat_inj.1 h)
      split_ifs with hlist
      · exact .inl ⟨_, _, by omega, rfl⟩
      · -- The index would be listed, if the number of partitions were read as it is.
        refine .inr ⟨.inr ?_, hfresh _ _⟩
        by_contra hfit
        refine hlist ⟨c, hc, UInt16.lt_iff_toNat_lt.2 ?_⟩
        rwa [UInt16.toNat_ofNat', Nat.mod_eq_of_lt (by simpa using hfit)]
  | create htopic hcount hack =>
    have hnum := toNat_numBrokersAtCreation hlen
    have hzero : b.numBrokersAtCreation ≠ 0 := by
      intro h
      rw [h] at hnum
      have : (0 : UInt32).toNat = 0 := rfl
      omega
    refine .inl ⟨_, b.metaReg.find topic p, hnum, ?_⟩
    rw [(handleCreateTopic_of_ack hack).2, htopic, find_assignRoles _ hzero, if_pos]
    refine mem_assigned.2 ⟨0, rfl, ?_⟩
    rw [← hcount] at hp
    exact UInt16.lt_iff_toNat_lt.2 hp

/-- The replicas recorded are never those of the cluster: one too many, or, where the
    count wraps around, one or none. -/
theorem Seeds.replicaIds_eq (h : Seeds topic count b b') (hcfg : b.cfg.Describes n i) (hn : 1 ≤ n)
    (p : UInt16) (hp : p.toNat < count) : ∃ m, m ≠ n ∧ m < UInt32.size ∧
      (b'.metaReg.find topic p).replicaIds = (List.range m).map UInt32.ofNat := by
  have hle := hcfg.le_size
  rcases h.find_eq hcfg.length_peers p hp with ⟨num, m, hnum, hfind⟩ | ⟨_, hnil⟩
  · refine ⟨num.toNat, ?_, num.toNat_lt, ?_⟩
    · rw [hnum]
      simp only [UInt32.size] at hle ⊢
      omega
    · rw [hfind, replicaIds_seed]
  · exact ⟨0, by omega, by decide, by simp [PartitionMeta.replicaIds, hnil]⟩

/-- No partition is seeded as it should be, in a cluster of any size: every broker
    records replicas other than the brokers of the cluster. -/
theorem not_wellSeeded {before after : Fin n → Broker} (hn : 1 ≤ n)
    (hcfg : ∀ i, (before i).cfg.Describes n i)
    (hseed : ∀ i, Seeds topic count (before i) (after i)) :
    0 < count ∧ ∀ p : UInt16, p.toNat < count →
      ¬WellSeeded n fun i => (after i).metaReg.find topic p := by
  refine ⟨(hseed ⟨0, hn⟩).count_pos, fun p hp hwell => ?_⟩
  obtain ⟨m, hm, hlt, hids⟩ := (hseed ⟨0, hn⟩).replicaIds_eq (hcfg _) hn p hp
  have hmin : min m n < UInt32.size := (Nat.min_le_left m n).trans_lt hlt
  -- The replicas tell the two numbers apart at the smaller of them.
  have hiff := hwell.replicas ⟨0, hn⟩ (UInt32.ofNat (min m n))
  rw [hids, mem_map_range hlt.le, UInt32.toNat_ofNat', Nat.mod_eq_of_lt hmin] at hiff
  omega

/-- The brokers of the default configuration, with a topic of four partitions on disk. -/
def defaultBroker (i : Fin 3) : Broker where
  cfg := { ClusterConfig.loadDefault with brokerId := UInt32.ofNat i }
  topics := AList.insert (ascii "t") 4 ∅
  metaReg := ∅
  replicaManagers := ∅
  replicationClients := ∅

theorem describes_defaultBroker (i : Fin 3) : (defaultBroker i).cfg.Describes 3 i := by
  refine ⟨?_, .refl _⟩
  revert i
  decide

theorem seeds_defaultBroker (i : Fin 3) :
    Seeds (ascii "t") 4 (defaultBroker i) (defaultBroker i).initializeReplication :=
  .start rfl fun _ _ => rfl

theorem not_wellSeeded_default : 0 < 4 ∧ ∀ p : UInt16, p.toNat < 4 →
    ¬WellSeeded 3 fun i => (defaultBroker i).initializeReplication.metaReg.find (ascii "t") p :=
  not_wellSeeded (by decide) describes_defaultBroker seeds_defaultBroker

/-- With the default configuration, the fourth partition of a topic has no leader, and a
    fourth broker, which does not exist, is in its ISR. -/
theorem leaderless_default :
    (∀ i, (defaultBroker i).cfg.Describes 3 i) ∧
      (∀ i, Seeds (ascii "t") 4 (defaultBroker i) (defaultBroker i).initializeReplication) ∧
      (∀ i, let m := (defaultBroker i).initializeReplication.metaReg.find (ascii "t") 3
        m.role ≠ .leader ∧ m.leaderId = 3 ∧ 3 ∈ m.isrIds) ∧
      ¬WellSeeded 3 fun i =>
        (defaultBroker i).initializeReplication.metaReg.find (ascii "t") 3 := by
  have hnone : ∀ i, let m := (defaultBroker i).initializeReplication.metaReg.find (ascii "t") 3
      m.role ≠ .leader ∧ m.leaderId = 3 ∧ 3 ∈ m.isrIds := by decide +kernel
  refine ⟨describes_defaultBroker, seeds_defaultBroker, hnone, fun hwell => ?_⟩
  obtain ⟨i, hi, _⟩ := hwell.leader
  exact (hnone i).1 hi

end Broker

end Fell
