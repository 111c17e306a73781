import Fell.Platform
import Mathlib.Data.List.AList

/-!
# Partition metadata

What a broker knows of a partition (`replication/partition_meta.cpp`): its role,
the leader and the epoch, and the progress of the replicas, with the set of those
that are in sync (the ISR). The registry keeps the metadata of all partitions
under a text key, and creates them as they are asked for.

* `makeKey_inj`: the key tells topic and partition apart, whatever the topic is
  called;
* `find_assignRoles`: what `assign_roles` leaves behind, for all topics and
  partitions at once. Seeding twice is seeding once (`seed_seed`), so a topic that
  is listed twice does no harm.

The members are read and written under locks that are taken for a whole function,
so that a function is one step.
-/

namespace Fell.Replication

open Platform Positional

/-- `PartitionRole`. -/
inductive PartitionRole
  | leader
  | follower
  | candidate
  deriving DecidableEq

/-- `ReplicaState`: what a leader knows of a replica. -/
structure ReplicaState where
  brokerId : UInt32
  nextOffset : UInt64 := 0
  ackOffset : UInt64 := 0
  lastSeenMs : UInt64 := 0
  inIsr : Bool := true
  deriving DecidableEq

/-- `PartitionMeta`. -/
structure PartitionMeta where
  topic : Bytes
  partitionIdx : UInt16 := 0
  role : PartitionRole := .follower
  leaderId : UInt32 := 0
  epoch : UInt32 := 0
  replicas : List ReplicaState := []
  deriving DecidableEq

/-! ## In-sync replicas -/

/-- A replica has confirmed the offsets below `ackedOffset`. It is taken back into the
    ISR when it is behind by no more than `maxLag`. -/
def ReplicaState.acked (r : ReplicaState) (ackedOffset maxLag leaderCommitted : UInt64) :
    ReplicaState :=
  let ackOffset := max r.ackOffset ackedOffset
  { r with
    ackOffset
    inIsr := r.inIsr || (ackOffset ≤ leaderCommitted ∧ leaderCommitted - ackOffset ≤ maxLag) }

namespace PartitionMeta

variable (m : PartitionMeta)

/-- `isr_ids`. -/
def isrIds : List UInt32 := (m.replicas.filter (·.inIsr)).map (·.brokerId)

/-- The ids of all replicas. -/
def replicaIds : List UInt32 := m.replicas.map (·.brokerId)

/-- The first replica with an id is changed, as by a loop that breaks there. -/
def updateReplica (id : UInt32) (f : ReplicaState → ReplicaState) : PartitionMeta :=
  { m with replicas := m.replicas.replaceF fun r => if r.brokerId = id then some (f r) else none }

/-- `leader_committed_offset`. -/
def leaderCommittedOffset : UInt64 :=
  (m.replicas.find? (·.brokerId = m.leaderId)).elim 0 (·.ackOffset)

/-- `on_replica_ack`. -/
def onReplicaAck (brokerId : UInt32) (ackedOffset maxLag leaderCommitted : UInt64) :
    PartitionMeta :=
  m.updateReplica brokerId (·.acked ackedOffset maxLag leaderCommitted)

/-- `tick_isr`: replicas that have not been seen for too long leave the ISR. -/
def tickIsr (nowMs : UInt64) (timeoutMs : UInt32) : PartitionMeta :=
  { m with
    replicas := m.replicas.map fun r =>
      if r.brokerId ≠ m.leaderId ∧ r.inIsr ∧ timeoutMs.toUInt64 < nowMs - r.lastSeenMs then
        { r with inIsr := false }
      else r }

/-- `ack_offset` of a replica. -/
def ackOffset (id : UInt32) : Option UInt64 :=
  (m.replicas.find? (·.brokerId = id)).map (·.ackOffset)

variable {m} {id : UInt32} {f : ReplicaState → ReplicaState}

theorem ackOffset_updateReplica_self (hf : ∀ r, (f r).brokerId = r.brokerId) :
    (m.updateReplica id f).ackOffset id =
      (m.replicas.find? (·.brokerId = id)).map fun r => (f r).ackOffset := by
  rw [ackOffset, updateReplica]
  dsimp only
  induction m.replicas with
  | nil => rfl
  | cons r rs ih =>
    by_cases hr : r.brokerId = id
    · simp [List.replaceF, hr, hf]
    · simpa [List.replaceF, hr] using ih

theorem ackOffset_updateReplica_ne {id' : UInt32} (hf : ∀ r, (f r).brokerId = r.brokerId)
    (hne : id' ≠ id) : (m.updateReplica id' f).ackOffset id = m.ackOffset id := by
  rw [ackOffset, ackOffset, updateReplica]
  dsimp only
  induction m.replicas with
  | nil => rfl
  | cons r rs ih =>
    by_cases hr : r.brokerId = id'
    · simp [List.replaceF, hr, hf, hne]
    · by_cases hid : r.brokerId = id
      · simp [List.replaceF, hid, Ne.symm hne]
      · simpa [List.replaceF, hr, hid] using ih

theorem ackOffset_tickIsr (nowMs : UInt64) (timeoutMs : UInt32) :
    (m.tickIsr nowMs timeoutMs).ackOffset id = m.ackOffset id := by
  rw [ackOffset, ackOffset, tickIsr, List.find?_map, Option.map_map]
  congr 1
  · funext r
    dsimp only [Function.comp_apply]
    split_ifs <;> rfl
  · congr 1
    funext r
    dsimp only [Function.comp_apply]
    split_ifs <;> rfl

/-- An acknowledgement moves the offset of its replica on, and no other. -/
theorem ackOffset_onReplicaAck {brokerId : UInt32} {ackedOffset maxLag leaderCommitted : UInt64} :
    (m.onReplicaAck brokerId ackedOffset maxLag leaderCommitted).ackOffset id =
      if brokerId = id then (m.ackOffset id).map (max · ackedOffset) else m.ackOffset id := by
  have hid : ∀ r : ReplicaState,
      (r.acked ackedOffset maxLag leaderCommitted).brokerId = r.brokerId := fun _ => rfl
  split_ifs with h
  · subst h
    rw [onReplicaAck, ackOffset_updateReplica_self hid, ackOffset, Option.map_map]
    rfl
  · exact ackOffset_updateReplica_ne hid h

end PartitionMeta

/-! ## The registry -/

/-- `std::to_string`. -/
def toDecimal (n : ℕ) : Bytes := (numeral 10 n).map fun d => UInt8.ofNat (48 + d)

/-- `make_key`, and `Broker::replication_key`, which builds the same text. -/
def makeKey (topic : Bytes) (partition : UInt16) : Bytes :=
  topic ++ 45 :: toDecimal partition.toNat

theorem map_toDecimal (n : ℕ) : (toDecimal n).map (fun b => b.toNat - 48) = numeral 10 n := by
  rw [toDecimal, List.map_map]
  refine (List.map_congr_left fun d hd => ?_).trans (List.map_id _)
  have hd : d < 10 := numeral_lt (by decide) hd
  simp only [Function.comp_apply, UInt8.toNat_ofNat', id_eq]
  omega

theorem toDecimal_injective : Function.Injective toDecimal := by
  intro m n h
  refine numeral_injective 10 ?_
  rw [← map_toDecimal, ← map_toDecimal, h]

theorem toDecimal_ne_nil (n : ℕ) : toDecimal n ≠ [] := by
  intro h
  have hnil : numeral 10 n = [] := List.map_eq_nil_iff.1 h
  have hvalue := value_numeral 10 n
  rw [hnil] at hvalue
  obtain rfl : 0 = n := hvalue
  exact nomatch hnil

/-- A decimal consists of digits. -/
theorem mem_toDecimal {n : ℕ} {b : UInt8} (h : b ∈ toDecimal n) : 48 ≤ b.toNat ∧ b.toNat < 58 := by
  obtain ⟨d, hd, rfl⟩ := List.mem_map.1 h
  have hlt : d < 10 := numeral_lt (by decide) hd
  rw [UInt8.toNat_ofNat', Nat.mod_eq_of_lt (by omega)]
  omega

/-- The separator is not a digit. -/
theorem not_mem_toDecimal (n : ℕ) : (45 : UInt8) ∉ toDecimal n :=
  fun h => absurd (mem_toDecimal h).1 (by decide)

/-- The key tells topic and partition apart. -/
theorem makeKey_inj {t₁ t₂ : Bytes} {p₁ p₂ : UInt16} :
    makeKey t₁ p₁ = makeKey t₂ p₂ ↔ t₁ = t₂ ∧ p₁ = p₂ := by
  refine ⟨fun h => ?_, fun h => by rw [h.1, h.2]⟩
  obtain ⟨ht, hp⟩ := append_cons_inj (not_mem_toDecimal _) (not_mem_toDecimal _) h
  exact ⟨ht, UInt16.toNat_inj.1 (toDecimal_injective hp)⟩

/-- `PartitionMetaRegistry`. -/
abbrev PartitionMetaRegistry := AList fun _ : Bytes => PartitionMeta

namespace PartitionMetaRegistry

variable (reg : PartitionMetaRegistry) {topic t : Bytes} {partition p : UInt16}

/-- The metadata `get` refers to: those found, or those it creates. -/
def find (topic : Bytes) (partition : UInt16) : PartitionMeta :=
  (reg.lookup (makeKey topic partition)).getD { topic, partitionIdx := partition }

/-- `get`: the metadata are created if missing. -/
def get (topic : Bytes) (partition : UInt16) : PartitionMetaRegistry :=
  if makeKey topic partition ∈ reg then reg
  else reg.insert (makeKey topic partition) (reg.find topic partition)

/-- Metadata are changed through the reference that `get` returns. -/
def modify (topic : Bytes) (partition : UInt16) (f : PartitionMeta → PartitionMeta) :
    PartitionMetaRegistry :=
  reg.insert (makeKey topic partition) (f (reg.find topic partition))

theorem find_modify (topic t : Bytes) (partition p : UInt16) (f : PartitionMeta → PartitionMeta) :
    (reg.modify topic partition f).find t p =
      if t = topic ∧ p = partition then f (reg.find t p) else reg.find t p := by
  split_ifs with h
  · obtain ⟨rfl, rfl⟩ := h
    rw [find, modify, AList.lookup_insert, Option.getD_some]
  · rw [find, modify, AList.lookup_insert_ne (mt makeKey_inj.1 h), find]

@[simp] theorem find_get (topic t : Bytes) (partition p : UInt16) :
    (reg.get topic partition).find t p = reg.find t p := by
  rw [get]
  split_ifs with h
  · rfl
  · have := reg.find_modify topic t partition p id
    simpa [modify] using this

/-! ## Roles -/

/-- What `assign_roles` makes of the metadata of a partition. -/
def seed (brokerId numBrokers : UInt32) (partition : UInt16) (m : PartitionMeta) : PartitionMeta :=
  let leaderId := partition.toUInt32 % numBrokers
  { m with
    leaderId
    role := if leaderId = brokerId then .leader else .follower
    replicas := (List.range numBrokers.toNat).map fun rid => { brokerId := UInt32.ofNat rid } }

/-- `assign_roles`: the partitions are given out round-robin. A topic that has no count
    has one partition. -/
def assignRoles (brokerId numBrokers : UInt32) (topics : List Bytes)
    (partitionCounts : List UInt16) : PartitionMetaRegistry :=
  if numBrokers = 0 then reg
  else
    topics.zipIdx.foldl (fun reg (topic, i) =>
      (List.range (partitionCounts[i]?.getD 1).toNat).foldl (fun reg p =>
        reg.modify topic (UInt16.ofNat p) (seed brokerId numBrokers (UInt16.ofNat p))) reg) reg

variable {brokerId numBrokers : UInt32} {topics : List Bytes} {partitionCounts : List UInt16}

@[simp] theorem seed_seed (m : PartitionMeta) :
    seed brokerId numBrokers p (seed brokerId numBrokers p m) = seed brokerId numBrokers p m := rfl

@[simp] theorem replicaIds_seed (m : PartitionMeta) :
    (seed brokerId numBrokers p m).replicaIds = (List.range numBrokers.toNat).map UInt32.ofNat := by
  simp [seed, PartitionMeta.replicaIds]

/-- The partitions in the order in which `assign_roles` goes through them. -/
def assigned (topics : List Bytes) (partitionCounts : List UInt16) : List (Bytes × UInt16) :=
  topics.zipIdx.flatMap fun (topic, i) =>
    (List.range (partitionCounts[i]?.getD 1).toNat).map fun p => (topic, UInt16.ofNat p)

theorem mem_assigned : (t, p) ∈ assigned topics partitionCounts ↔
    ∃ i : ℕ, topics[i]? = some t ∧ p < partitionCounts[i]?.getD 1 := by
  simp only [assigned, List.mem_flatMap, Prod.exists, List.mk_mem_zipIdx_iff_getElem?, List.mem_map,
    List.mem_range, Prod.mk.injEq, UInt16.lt_iff_toNat_lt]
  constructor
  · rintro ⟨topic, i, hi, q, hq, rfl, rfl⟩
    refine ⟨i, hi, ?_⟩
    rwa [UInt16.toNat_ofNat', Nat.mod_eq_of_lt (hq.trans (UInt16.toNat_lt _))]
  · rintro ⟨i, hi, hp⟩
    exact ⟨t, i, hi, p.toNat, hp, rfl, UInt16.ofNat_toNat⟩

/-- The partitions of a list of topics with their counts. -/
theorem mem_assigned_map {l : List (Bytes × UInt16)} :
    (t, p) ∈ assigned (l.map Prod.fst) (l.map Prod.snd) ↔ ∃ count, (t, count) ∈ l ∧ p < count := by
  rw [mem_assigned]
  constructor
  · rintro ⟨i, hi, hp⟩
    rw [List.getElem?_map, Option.map_eq_some_iff] at hi
    obtain ⟨⟨topic, count⟩, hi, rfl⟩ := hi
    rw [List.getElem?_map, hi] at hp
    exact ⟨count, List.mem_of_getElem? hi, hp⟩
  · rintro ⟨count, hmem, hp⟩
    obtain ⟨i, hi⟩ := List.mem_iff_getElem?.1 hmem
    exact ⟨i, by simp [hi], by simpa [hi] using hp⟩

theorem assignRoles_eq (h : numBrokers ≠ 0) :
    reg.assignRoles brokerId numBrokers topics partitionCounts =
      (assigned topics partitionCounts).foldl
        (fun reg tp => reg.modify tp.1 tp.2 (seed brokerId numBrokers tp.2)) reg := by
  rw [assignRoles, if_neg h, assigned, List.foldl_flatMap]
  simp only [List.foldl_map]

theorem find_foldl_modify (l : List (Bytes × UInt16)) :
    (l.foldl (fun reg tp => reg.modify tp.1 tp.2 (seed brokerId numBrokers tp.2)) reg).find t p =
      if (t, p) ∈ l then seed brokerId numBrokers p (reg.find t p) else reg.find t p := by
  induction l generalizing reg with
  | nil => simp
  | cons tp l ih =>
    rw [List.foldl_cons, ih, find_modify]
    by_cases h : t = tp.1 ∧ p = tp.2
    · obtain ⟨rfl, rfl⟩ := h
      simp
    · have hne : (t, p) ≠ tp := fun heq => h (by simp [← heq])
      simp [h, hne]

/-- After `assign_roles`, the partitions of the topics are seeded, and no other metadata
    have changed. -/
theorem find_assignRoles (h : numBrokers ≠ 0) :
    (reg.assignRoles brokerId numBrokers topics partitionCounts).find t p =
      if (t, p) ∈ assigned topics partitionCounts then seed brokerId numBrokers p (reg.find t p)
      else reg.find t p := by
  rw [assignRoles_eq reg h, find_foldl_modify]

end PartitionMetaRegistry

end Fell.Replication
