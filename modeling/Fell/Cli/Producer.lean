import Fell.Cli.Metadata
import Mathlib.NumberTheory.LucasPrimality
import Mathlib.Tactic.NormNum.Prime
import Mathlib.Tactic.ReduceModChar

/-!
# The producer

The producer (`cli/producer_cli.cpp`) asks for the leaders of the partitions of a topic, chooses a
partition, by the hash of the key if there is one, and sends a `PUBLISH_V2` request to its leader.
`handle_publish_v2` chooses the partition again, from the key in the request. There the key has a
field of 255 bytes and a length of one byte; the producer takes any key, and copies it as a whole.

* `handlePublishV2_request`: the partition that the broker chooses for a request of the producer;
* `exists_partition_ne`: keys that begin alike are not all hashed to one partition;
* `agrees_iff`: the lengths of keys for which the broker always chooses the producer's partition.
-/

namespace Fell.Cli

open Platform Broker Storage

namespace Producer

/-- `fnv1a`. It is a copy of the broker's. -/
def fnv1a (data : Bytes) : UInt64 :=
  data.foldl (fun hash b => (hash ^^^ b.toUInt64) * 1099511628211) 14695981039346656037

/-- The partition chosen for a message, and the counter for those without a key. -/
def choosePartition (md : Metadata) (key : Bytes) (rrCounter : UInt16) : UInt16 × UInt16 :=
  let size := UInt64.ofNat md.partLeaders.keys.length
  if key ≠ [] then ((fnv1a key % size).toUInt16, rrCounter)
  else ((rrCounter.toUInt64 % size).toUInt16, rrCounter + 1)

/-- A field of the request, with what is copied to it. -/
def field (bs : Bytes) : Bytes := (bs ++ List.replicate fieldSize 0).take fieldSize

/-- The request in memory, and the message behind it. -/
def encodeRequest (topic : Bytes) (partition : UInt16) (keyLen : UInt8) (key : Bytes)
    (message : Payload) : Bytes :=
  UInt8.ofNat topic.length :: (field topic ++ (hostToBe16 partition ++
    keyLen :: (field key ++ (hostToBe32 message.size ++ message.bytes))))

/-- The `PublishV2Req` is filled in. A key that is longer than its field goes on into
    `payload_size`, which is set after it; past the end of the request, it may have any effect. Of
    a key whose length is taken to be zero, nothing is copied. -/
def buildRequest (topic : Bytes) (partition : UInt16) (key : Bytes) (message : Payload) :
    Option Bytes :=
  let keyLen := UInt8.ofNat key.length
  let copied := if 0 < keyLen then key else []
  if copied.length ≤ fieldSize + 4 then
    some (encodeRequest topic partition keyLen copied message)
  else none

/-- What a round of the producer's loop comes to. -/
inductive Attempt
  /-- There is no leader to send the message to. -/
  | retry
  /-- The key has been copied past the end of the request. -/
  | undefined
  /-- A request is sent to the leader of a partition. -/
  | send (broker : BrokerInfo) (partition : UInt16) (request : Bytes)

/-- A round of the producer's loop, up to the sending. -/
def attempt (md : Metadata) (topic key : Bytes) (message : Payload) (rrCounter : UInt16) :
    Attempt :=
  if md.partLeaders.keys = [] then .retry
  else
    let partition := (choosePartition md key rrCounter).1
    match md.leader partition with
    | none => .retry
    | some broker =>
      match buildRequest topic partition key message with
      | none => .undefined
      | some request => .send broker partition request

/-! ## The request -/

@[simp] theorem length_field (bs : Bytes) : (field bs).length = fieldSize := by
  rw [field, List.length_take, List.length_append, List.length_replicate]
  omega

/-- What fits a field is read from it. -/
theorem take_field {bs : Bytes} {n : ℕ} (hle : n ≤ bs.length) (hn : n ≤ fieldSize) :
    (field bs).take n = bs.take n := by
  rw [field, List.take_take, min_eq_left hn, List.take_append_of_le_length hle]

/-- The length of what fits a field is told by a byte. -/
theorem toNat_ofNat_length {bs : Bytes} (hle : bs.length ≤ fieldSize) :
    (UInt8.ofNat bs.length).toNat = bs.length := by
  rw [UInt8.toNat_ofNat']
  exact Nat.mod_eq_of_lt (hle.trans_lt (by decide))

theorem take_field_length {bs : Bytes} (hle : bs.length ≤ fieldSize) :
    (field bs).take (UInt8.ofNat bs.length).toNat = bs := by
  rw [toNat_ofNat_length hle, take_field (Nat.le_refl _) hle, List.take_length]

theorem ofNat_length_ne_zero {bs : Bytes} (hne : bs ≠ []) (hle : bs.length ≤ fieldSize) :
    UInt8.ofNat bs.length ≠ 0 := fun h0 => by
  have hlen := toNat_ofNat_length hle
  rw [h0] at hlen
  exact hne (List.eq_nil_of_length_eq_zero hlen.symm)

theorem length_topicOne : [(116 : UInt8)].length ≤ fieldSize := by decide

variable {topic key : Bytes} {partition : UInt16} {keyLen : UInt8} {message : Payload}

/-- The fields of a request are read back. -/
theorem ofPayload_encodeRequest :
    PublishV2Req.ofPayload (encodeRequest topic partition keyLen key message) =
      { topicLen := UInt8.ofNat topic.length, topic := field topic, partition, keyLen
        key := field key, payloadSize := message.size } ∧
    (encodeRequest topic partition keyLen key message).drop PublishV2Req.size = message.bytes := by
  rw [encodeRequest]
  set r₅ := hostToBe32 message.size ++ message.bytes
  set r₄ := field key ++ r₅
  set r₂ := hostToBe16 partition ++ keyLen :: r₄
  set request := UInt8.ofNat topic.length :: (field topic ++ r₂)
  -- Behind each field there is the next one.
  have h₂ : request.drop TopicReq.size = r₂ := by
    rw [show TopicReq.size = fieldSize + 1 from rfl, List.drop_succ_cons,
      List.drop_left' (length_field _)]
  have h₃ : request.drop (TopicReq.size + 2) = keyLen :: r₄ := by
    rw [← List.drop_drop, h₂, List.drop_left' (length_hostToBe16 _)]
  have h₄ : request.drop (TopicReq.size + 2 + 1) = r₄ := by
    rw [← List.drop_drop, h₃, List.drop_succ_cons, List.drop_zero]
  have h₅ : request.drop (TopicReq.size + 2 + 1 + fieldSize) = r₅ := by
    rw [← List.drop_drop, h₄, List.drop_left' (length_field _)]
  have htopic : (request.drop 1).take fieldSize = field topic := by
    rw [List.drop_succ_cons, List.drop_zero, List.take_left' (length_field _)]
  have hpartition : readBe16 r₂ = partition := by
    rw [readBe16, List.take_left' (length_hostToBe16 _)]
    exact be16ToHost_hostToBe16 partition
  have hsize : readBe32 r₅ = message.size := by
    rw [readBe32, List.take_left' (length_hostToBe32 _), be32ToHost_hostToBe32]
  refine ⟨?_, ?_⟩
  · rw [PublishV2Req.ofPayload, TopicReq.ofPayload, htopic, h₂, h₃, h₄, h₅, hpartition, hsize,
      List.take_left' (length_field _)]
    rfl
  · rw [PublishV2Req.size, ← List.drop_drop, h₅, List.drop_left' (length_hostToBe32 _)]

theorem length_encodeRequest :
    (encodeRequest topic partition keyLen key message).length =
      PublishV2Req.size + message.bytes.length := by
  rw [encodeRequest]
  simp [PublishV2Req.size, TopicReq.size]
  omega

/-- The broker goes by the key that it finds, or else by the partition. -/
theorem handlePublishV2_encodeRequest {h : RequestHandler} {sess : Session} (hne : topic ≠ [])
    (htopic : topic.length ≤ fieldSize) (htotal : h.numPartitions topic ≠ 0) :
    h.handlePublishV2 sess (encodeRequest topic partition keyLen key message) =
      if 0 < keyLen then
        h.locate sess topic (RequestHandler.fnv1a ((field key).take keyLen.toNat) %
          (h.numPartitions topic).toUInt64).toUInt16 (.append message)
      else h.publishKeyless sess topic partition message := by
  obtain ⟨hreq, hmessage⟩ := @ofPayload_encodeRequest topic key partition keyLen message
  have htake : Payload.take message.size message.bytes = message := by
    rw [← List.append_nil message.bytes, Payload.take_append]
  rw [RequestHandler.handlePublishV2, hreq, hmessage]
  simp only [TopicReq.topicName, PublishV2Req.routingKey, take_field_length htopic, htake,
    length_encodeRequest, Payload.toNat_size]
  rw [if_neg (by omega), if_neg (by simp), if_neg (ofNat_length_ne_zero hne htopic), if_neg htotal]

/-! ## The hash -/

/-- The producer and the broker have the same hash. -/
theorem fnv1a_eq : RequestHandler.fnv1a = fnv1a := rfl

/-- The prime of the hash. -/
theorem prime_fnv : Nat.Prime 1099511628211 := by
  have hfactors : 1099511628211 - 1 = 2 * (3 ^ 2 * (5 * (47 * (977 * 266051)))) := by norm_num
  have hne : ∀ q ∈ [2, 3, 5, 47, 977, 266051],
      (2 : ZMod 1099511628211) ^ ((1099511628211 - 1) / q) ≠ 1 := by
    simp only [List.forall_mem_cons]
    refine ⟨?_, ?_, ?_, ?_, ?_, ?_, nofun⟩ <;>
    · norm_num
      reduce_mod_char
      decide
  refine lucas_primality _ (2 : ZMod 1099511628211) (by reduce_mod_char) fun q hq hdvd => hne q ?_
  have hprime : ∀ {r}, Nat.Prime r → q ∣ r → q = r := fun hr =>
    (Nat.prime_dvd_prime_iff_eq hq hr).1
  rw [hfactors, hq.dvd_mul, hq.dvd_mul, hq.dvd_mul, hq.dvd_mul, hq.dvd_mul] at hdvd
  simp only [List.mem_cons, List.not_mem_nil, or_false]
  exact hdvd.imp (hprime (by norm_num)) <| .imp (hprime (by norm_num) ∘ hq.dvd_of_dvd_pow) <|
    .imp (hprime (by norm_num)) <| .imp (hprime (by norm_num)) <|
    .imp (hprime (by norm_num)) (hprime (by norm_num))

/-- Products with a number that `n` does not divide, taken modulo `m`, do not all leave the same
    remainder: of two steps to the next product, one at most wraps around. -/
theorem exists_product_ne {m p n : ℕ} (hp : 2 * p ≤ m) (hn : ¬n ∣ p) (y c : ℕ) :
    ∃ i < 3, (y + i) * p % m % n ≠ c := by
  by_contra! hall
  have hdvd : ∀ a, a % n = c → (a + p) % n = c → n ∣ p := fun a h₁ h₂ => by
    have := (Nat.modEq_iff_dvd' (Nat.le_add_right a p)).1 (h₁.trans h₂.symm)
    rwa [Nat.add_sub_cancel_left] at this
  have hnext : ∀ i, (y + (i + 1)) * p % m = ((y + i) * p % m + p) % m := fun i => by
    rw [Nat.mod_add_mod, ← Nat.succ_mul]
    rfl
  have h₀ := hall 0 (by decide)
  have h₁ := hall 1 (by decide)
  have h₂ := hall 2 (by decide)
  have hpos : 0 < p := Nat.pos_of_ne_zero fun h => hn (h ▸ dvd_zero n)
  have hlt : (y + 0) * p % m < m := Nat.mod_lt _ (by omega)
  rw [hnext] at h₁ h₂
  rw [hnext] at h₂
  generalize (y + 0) * p % m = a at h₀ h₁ h₂ hlt
  rcases Nat.lt_or_ge (a + p) m with hfit | hwrap
  · rw [Nat.mod_eq_of_lt hfit] at h₁
    exact hn (hdvd a h₀ h₁)
  · have hsub : (a + p) % m = a + p - m := by
      rw [Nat.mod_eq_sub_mod hwrap, Nat.mod_eq_of_lt (by omega)]
    rw [hsub] at h₁ h₂
    rw [Nat.mod_eq_of_lt (a := a + p - m + p) (by omega)] at h₂
    exact hn (hdvd _ h₁ h₂)

/-- The next byte can make any word of a hash that differs in the last byte only. -/
theorem exists_byte {hash x : UInt64} (h : hash.toNat / 2 ^ 8 = x.toNat / 2 ^ 8) :
    ∃ b : UInt8, hash ^^^ b.toUInt64 = x := by
  have hlt : (hash ^^^ x).toNat < 2 ^ 8 := by
    rw [UInt64.toNat_xor]
    refine Nat.lt_of_div_eq_zero (by decide) ?_
    rw [Nat.xor_div_two_pow, h, Nat.xor_self]
  have hbyte : (hash ^^^ x).toUInt8.toUInt64 = hash ^^^ x := by
    refine UInt64.toNat_inj.1 ?_
    rw [UInt8.toNat_toUInt64, UInt64.toNat_toUInt8, Nat.mod_eq_of_lt hlt]
  refine ⟨(hash ^^^ x).toUInt8, ?_⟩
  rw [hbyte, ← UInt64.xor_assoc, UInt64.xor_self, UInt64.zero_xor]

/-- The partition of a key, among `n`. -/
def partitionFor (n : UInt16) (key : Bytes) : UInt16 := (fnv1a key % n.toUInt64).toUInt16

theorem toNat_pos {n : UInt16} (hn : n ≠ 0) : 0 < n.toNat :=
  Nat.pos_of_ne_zero fun h => hn (UInt16.toNat_inj.1 h)

theorem toNat_partitionFor {n : UInt16} (hn : n ≠ 0) (key : Bytes) :
    (partitionFor n key).toNat = (fnv1a key).toNat % n.toNat := by
  have hlt := (Nat.mod_lt (fnv1a key).toNat (toNat_pos hn)).trans n.toNat_lt
  rw [partitionFor, UInt64.toNat_toUInt16, UInt64.toNat_mod, UInt16.toNat_toUInt64,
    Nat.mod_eq_of_lt hlt]

theorem partitionFor_lt {n : UInt16} (hn : n ≠ 0) (key : Bytes) : partitionFor n key < n := by
  rw [UInt16.lt_iff_toNat_lt, toNat_partitionFor hn]
  exact Nat.mod_lt _ (toNat_pos hn)

theorem fnv1a_snoc (bs : Bytes) (b : UInt8) :
    fnv1a (bs ++ [b]) = (fnv1a bs ^^^ b.toUInt64) * 1099511628211 :=
  List.foldl_append

/-- Among two partitions or more, not all keys have the partition of their first `k` bytes. -/
theorem exists_partition_ne {n : UInt16} (hn : 2 ≤ n.toNat) {k l : ℕ} (hk : k < l) :
    ∃ key : Bytes, key.length = l ∧ partitionFor n key ≠ partitionFor n (key.take k) := by
  have hn0 : n ≠ 0 := fun h => by
    rw [h] at hn
    exact absurd hn (by decide)
  have hdvd : ¬n.toNat ∣ 1099511628211 := fun h => by
    have hlt := n.toNat_lt
    rcases (Nat.dvd_prime prime_fnv).1 h with h | h
    · omega
    · omega
  set bs : Bytes := List.replicate (l - 1) 0
  set y := (fnv1a bs).toNat / 2 ^ 8 * 2 ^ 8
  obtain ⟨i, hi, hne⟩ := exists_product_ne (m := 2 ^ 64) (by decide) hdvd y
    (partitionFor n (bs.take k)).toNat
  have hy := (fnv1a bs).toNat_lt
  have hx : (UInt64.ofNat (y + i)).toNat = y + i := by
    rw [UInt64.toNat_ofNat']
    exact Nat.mod_eq_of_lt (by omega)
  obtain ⟨b, hb⟩ := @exists_byte (fnv1a bs) (UInt64.ofNat (y + i)) (by omega)
  refine ⟨bs ++ [b], ?_, fun heq => hne ?_⟩
  · rw [List.length_append, List.length_replicate, List.length_singleton]
    omega
  · have htake : (bs ++ [b]).take k = bs.take k := by
      refine List.take_append_of_le_length ?_
      rw [List.length_replicate]
      omega
    have hhash : (fnv1a (bs ++ [b])).toNat = (y + i) * 1099511628211 % 2 ^ 64 := by
      rw [fnv1a_snoc, hb, UInt64.toNat_mul, hx]
      rfl
    rw [← htake, ← heq, toNat_partitionFor hn0, hhash]

/-! ## Routing -/

/-- The key that the broker finds: as much of it as the length says. -/
def sentKey (key : Bytes) : Bytes := key.take (UInt8.ofNat key.length).toNat

/-- A message goes to the leader of the partition that the producer has chosen, and there it is
    this partition that `handle_publish_v2` goes on to. -/
def Routed (md : Metadata) (h : RequestHandler) (sess : Session) (topic : Bytes)
    (message : Payload) : Attempt → Prop
  | .retry => True
  | .undefined => False
  | .send broker partition request => md.leader partition = some broker ∧
      h.handlePublishV2 sess request = h.locate sess topic partition (.append message)

/-- So it is for a key, whatever the topic with `n` partitions, the message, the leaders and the
    state of the broker. -/
def Agrees (n : UInt16) (key : Bytes) : Prop :=
  ∀ (md : Metadata) (h : RequestHandler) (sess : Session) (topic : Bytes) (message : Payload)
    (rrCounter : UInt16), md.Lists n → topic ≠ [] → topic.length ≤ fieldSize →
      h.numPartitions topic = n → Routed md h sess topic message
        (attempt md topic key message rrCounter)

theorem choosePartition_of_lists {md : Metadata} {n : UInt16} (hlists : md.Lists n)
    (hkey : key ≠ []) (rrCounter : UInt16) :
    (choosePartition md key rrCounter).1 = partitionFor n key := by
  have hsize : UInt64.ofNat md.partLeaders.keys.length = n.toUInt64 := by
    rw [hlists.length_eq, List.length_map, List.length_range]
    exact UInt64.toNat_inj.1 (by simp)
  rw [choosePartition, if_pos hkey, hsize, partitionFor]

/-- An attempt for a key, at a topic with partitions. -/
theorem attempt_of_lists {md : Metadata} {n : UInt16} (hn : n ≠ 0) (hlists : md.Lists n)
    (hkey : key ≠ []) (rrCounter : UInt16) :
    attempt md topic key message rrCounter =
      match md.leader (partitionFor n key) with
      | none => .retry
      | some broker =>
        match buildRequest topic (partitionFor n key) key message with
        | none => .undefined
        | some request => .send broker (partitionFor n key) request := by
  have hne : md.partLeaders.keys ≠ [] := fun h => by
    have hlen := hlists.length_eq
    rw [h, List.length_map, List.length_range] at hlen
    exact hn (UInt16.toNat_inj.1 hlen.symm)
  rw [attempt, if_neg hne, choosePartition_of_lists hlists hkey]

/-- A key that is not copied past the end of the request. -/
def Copied (key : Bytes) : Prop := 0 < UInt8.ofNat key.length → key.length ≤ fieldSize + 4

theorem buildRequest_of_copied (h : Copied key) :
    buildRequest topic partition key message =
      some (encodeRequest topic partition (UInt8.ofNat key.length)
        (if 0 < UInt8.ofNat key.length then key else []) message) := by
  rw [buildRequest]
  refine if_pos ?_
  split_ifs with hpos
  · exact h hpos
  · exact Nat.zero_le _

/-- The partition that the broker goes on to. -/
theorem handlePublishV2_request {h : RequestHandler} {sess : Session} {n : UInt16} (hn : n ≠ 0)
    (hne : topic ≠ []) (htopic : topic.length ≤ fieldSize) (htotal : h.numPartitions topic = n) :
    h.handlePublishV2 sess (encodeRequest topic (partitionFor n key) (UInt8.ofNat key.length)
        (if 0 < UInt8.ofNat key.length then key else []) message) =
      h.locate sess topic
        (partitionFor n (if 0 < UInt8.ofNat key.length then sentKey key else key))
        (.append message) := by
  rw [handlePublishV2_encodeRequest hne htopic (htotal ▸ hn), htotal]
  split_ifs with hpos
  · have hle : (UInt8.ofNat key.length).toNat ≤ key.length := by
      rw [UInt8.toNat_ofNat']
      exact Nat.mod_le _ _
    have hfield : (UInt8.ofNat key.length).toNat ≤ fieldSize :=
      Nat.le_of_lt_succ (UInt8.ofNat key.length).toNat_lt
    rw [take_field hle hfield, fnv1a_eq, partitionFor, sentKey]
  · -- The request names a partition that there is.
    have hlt := partitionFor_lt hn key
    have hrobin : partitionFor n key ≠ RequestHandler.roundRobin := fun heq => by
      rw [heq, UInt16.lt_iff_toNat_lt] at hlt
      exact absurd n.toNat_lt (Nat.not_lt.2 hlt)
    rw [RequestHandler.publishKeyless, htotal, if_neg hrobin, if_neg (UInt16.not_le.2 hlt)]

/-- The broker chooses the producer's partition, if the key it finds is hashed to it. -/
theorem agrees_of_partition_eq {n : UInt16} (hn : n ≠ 0) (hkey : key ≠ []) (hcopied : Copied key)
    (heq : 0 < UInt8.ofNat key.length → partitionFor n (sentKey key) = partitionFor n key) :
    Agrees n key := by
  intro md h sess topic message rrCounter hlists hne htopic htotal
  rw [attempt_of_lists hn hlists hkey, buildRequest_of_copied hcopied]
  cases hleader : md.leader (partitionFor n key) with
  | none => trivial
  | some broker =>
    refine ⟨hleader, ?_⟩
    rw [handlePublishV2_request hn hne htopic htotal]
    split_ifs with hpos
    · rw [heq hpos]
    · rfl

/-! ## A broker that leads all partitions -/

theorem nodup_partitions (n : UInt16) : ((List.range n.toNat).map UInt16.ofNat).Nodup := by
  refine List.Nodup.map_on (fun i hi j hj heq => ?_) List.nodup_range
  have hlt := n.toNat_lt
  have hval := congrArg UInt16.toNat heq
  rw [List.mem_range] at hi hj
  rwa [UInt16.toNat_ofNat', UInt16.toNat_ofNat', Nat.mod_eq_of_lt (hi.trans hlt),
    Nat.mod_eq_of_lt (hj.trans hlt)] at hval

/-- The metadata of a topic whose partitions are all led by one broker. -/
def uniform (n : UInt16) : Metadata where
  brokers := AList.insert 0 ⟨0, [], 0⟩ ∅
  partLeaders :=
    { entries := (List.range n.toNat).map fun i => ⟨UInt16.ofNat i, 0⟩
      nodupKeys := by
        rw [List.NodupKeys, List.keys, List.map_map]
        exact nodup_partitions n }

theorem lists_uniform (n : UInt16) : (uniform n).Lists n := by
  rw [Metadata.Lists, AList.keys, List.keys, uniform, List.map_map]
  exact .refl _

theorem leader_uniform {n p : UInt16} (hp : p < n) :
    (uniform n).leader p = some ⟨0, [], 0⟩ := by
  have hlookup : (uniform n).partLeaders.lookup p = some 0 :=
    AList.mem_lookup_iff.2 (List.mem_map.2 ⟨p.toNat, List.mem_range.2 (UInt16.lt_iff_toNat_lt.1 hp),
      by rw [UInt16.ofNat_toNat]⟩)
  rw [Metadata.leader, hlookup]
  exact AList.lookup_insert _

/-- A broker that has the topic `t`, and leads all its partitions. -/
def allLeader (n : ℕ+) : RequestHandler where
  topics := AList.insert [116] n ∅
  missing _ _ := false
  cfg := none
  metaReg := none
  deferCb := false

theorem lookup_allLeader (n : ℕ+) : (allLeader n).topics.lookup [116] = some n :=
  AList.lookup_insert _

theorem outcome_locate_allLeader {n : ℕ+} {sess : Session} {p : UInt16} {a : Access}
    (hp : p.toNat < n) :
    ((allLeader n).locate sess [116] p a).outcome = .access [116] p a := by
  have hfound : (allLeader n).getPartition [116] p = true := by
    rw [RequestHandler.getPartition, lookup_allLeader]
    simp [allLeader, hp]
  have hlocate : (allLeader n).locate sess [116] p a =
      if (allLeader n).getPartition [116] p then ⟨.access [116] p a, sess, allLeader n⟩
      else (allLeader n).refuse sess .unknownPartition "Partition registry lookup failed" := rfl
  rw [hlocate, if_pos hfound]

/-- There a key that the broker hashes to another partition goes astray. -/
theorem partition_eq_of_agrees {n : UInt16} (hn : n ≠ 0) (hkey : key ≠ []) (h : Agrees n key)
    (hpos : 0 < UInt8.ofNat key.length) :
    key.length ≤ fieldSize + 4 ∧ partitionFor n (sentKey key) = partitionFor n key := by
  obtain ⟨total, htotal⟩ : ∃ total : ℕ+, (total : ℕ) = n.toNat := ⟨⟨n.toNat, toNat_pos hn⟩, rfl⟩
  have hlt : ∀ key, (partitionFor n key).toNat < total := fun key => by
    rw [htotal, ← UInt16.lt_iff_toNat_lt]
    exact partitionFor_lt hn key
  have hnum : (allLeader total).numPartitions [116] = n := by
    rw [RequestHandler.numPartitions, lookup_allLeader]
    dsimp only
    rw [htotal, UInt16.ofNat_toNat]
  have hne : ([116] : Bytes) ≠ [] := nofun
  have hrouted := h (uniform n) (allLeader total) {} [116] .empty 0 (lists_uniform n) hne
    (by decide) hnum
  rw [attempt_of_lists hn (lists_uniform n) hkey,
    leader_uniform (partitionFor_lt hn key)] at hrouted
  by_cases hcopied : Copied key
  · rw [buildRequest_of_copied hcopied] at hrouted
    have hout := congrArg Handled.outcome hrouted.2
    rw [handlePublishV2_request hn hne (by decide) hnum, if_pos hpos,
      outcome_locate_allLeader (hlt _), outcome_locate_allLeader (hlt _)] at hout
    exact ⟨hcopied hpos, (Outcome.access.inj hout).2.1⟩
  · -- The key goes past the end of the request.
    have hnone : buildRequest [116] (partitionFor n key) key .empty = none := by
      rw [buildRequest]
      refine if_neg ?_
      rw [if_pos hpos]
      exact fun hle => hcopied fun _ => hle
    rw [hnone] at hrouted
    exact hrouted.elim

/-- **Keyed messages.** For the keys of a length, the partition that the producer computes, and
    whose leader it connects to, is always the one that `handle_publish_v2` selects, if and only if
    they fit the field of the request, or the length is taken to be zero, so that no key is sent,
    or there is but one partition and the keys do not go past the end of the request. -/
theorem agrees_iff {l : ℕ} (hl : 0 < l) {n : UInt16} (hn : n ≠ 0) :
    (∀ key : Bytes, key.length = l → Agrees n key) ↔
      l ≤ 255 ∨ 256 ∣ l ∨ n = 1 ∧ l ≤ 259 := by
  have hzero : 0 < UInt8.ofNat l ↔ ¬256 ∣ l := by
    rw [UInt8.lt_iff_toNat_lt, UInt8.toNat_ofNat', Nat.dvd_iff_mod_eq_zero]
    exact Nat.pos_iff_ne_zero
  have hne : ∀ {key : Bytes}, key.length = l → key ≠ [] := fun hlen =>
    List.ne_nil_of_length_pos (hlen.symm ▸ hl)
  constructor
  · intro h
    by_contra! hno
    obtain ⟨hlong, hdvd, hone⟩ := hno
    have hsent : (UInt8.ofNat l).toNat < l := (UInt8.ofNat l).toNat_lt.trans_le hlong
    have hagree : ∀ {key : Bytes}, key.length = l → l ≤ fieldSize + 4 ∧
        partitionFor n (key.take (UInt8.ofNat l).toNat) = partitionFor n key := fun {key} hlen => by
      have := partition_eq_of_agrees hn (hne hlen) (h key hlen) (hlen.symm ▸ hzero.2 hdvd)
      rwa [sentKey, hlen] at this
    have hroom := (hagree (List.length_replicate (n := l) (a := 0))).1
    -- The keys fit the request, so there are partitions to go astray to.
    have htwo : 2 ≤ n.toNat := by
      have h0 := toNat_pos hn
      have h1 : n.toNat ≠ 1 := fun h => hone (UInt16.toNat_inj.1 h) |>.not_ge hroom
      omega
    obtain ⟨key, hlen, hkey⟩ := exists_partition_ne htwo hsent
    exact hkey (hagree hlen).2.symm
  · intro h key hlen
    refine agrees_of_partition_eq hn (hne hlen) (fun hpos => ?_) fun hpos => ?_
    · rw [hlen, hzero] at hpos
      rw [hlen]
      rcases h with h | h | h
      · exact h.trans (by decide)
      · exact absurd h hpos
      · exact h.2
    · rw [hlen, hzero] at hpos
      rcases h with h | h | h
      · -- The whole key is sent.
        have hwhole : sentKey key = key := by
          rw [sentKey, UInt8.toNat_ofNat', Nat.mod_eq_of_lt (by omega), List.take_length]
        rw [hwhole]
      · exact absurd h hpos
      · refine UInt16.toNat_inj.1 ?_
        rw [toNat_partitionFor hn, toNat_partitionFor hn, h.1]
        exact (Nat.mod_one _).trans (Nat.mod_one _).symm

/-- A key of three bytes, and four partitions. -/
theorem agrees_three : Agrees 4 [97, 98, 99] :=
  (agrees_iff (l := 3) (by decide) (by decide)).2 (.inl (by decide)) _ rfl

/-- For a key of 257 bytes, and three partitions, the producer connects to the leader of partition
    2, and the broker goes on to partition 1. -/
theorem not_agrees_long :
    let key : Bytes := List.replicate 257 97
    ∃ request, attempt (uniform 3) [116] key .empty 0 = .send ⟨0, [], 0⟩ 2 request ∧
      (RequestHandler.handlePublishV2 (allLeader 3) {} request).outcome =
        .access [116] 1 (.append .empty) ∧ ¬Agrees 3 key := by
  intro key
  have hhash : partitionFor 3 key = 2 := by decide +kernel
  have hsent : partitionFor 3 (if 0 < UInt8.ofNat key.length then sentKey key else key) = 1 := by
    decide +kernel
  have hnum : (allLeader 3).numPartitions [116] = 3 := by
    rw [RequestHandler.numPartitions, lookup_allLeader]
    rfl
  have hcopied : Copied key := fun _ => by
    rw [List.length_replicate]
    decide
  have hkey : key ≠ [] := by decide
  clear_value key
  have hattempt : attempt (uniform 3) [116] key .empty 0 = .send ⟨0, [], 0⟩ (partitionFor 3 key)
      (encodeRequest [116] (partitionFor 3 key) (UInt8.ofNat key.length)
        (if 0 < UInt8.ofNat key.length then key else []) .empty) := by
    rw [attempt_of_lists (by decide) (lists_uniform 3) hkey, leader_uniform (by rw [hhash]; decide),
      buildRequest_of_copied hcopied]
  have hbroker := @handlePublishV2_request [116] key .empty (allLeader 3) {} 3 (by decide) nofun
    (by decide) hnum
  rw [hhash] at hattempt hbroker
  rw [hsent] at hbroker
  refine ⟨_, hattempt, ?_, fun hagrees => ?_⟩
  · rw [hbroker, outcome_locate_allLeader (by decide)]
  · have hrouted := hagrees (uniform 3) (allLeader 3) {} [116] .empty 0 (lists_uniform 3) nofun
      (by decide) hnum
    rw [hattempt] at hrouted
    have hout := congrArg Handled.outcome (hbroker.symm.trans hrouted.2)
    rw [outcome_locate_allLeader (by decide), outcome_locate_allLeader (by decide)] at hout
    exact absurd (Outcome.access.inj hout).2.1 (by decide)

end Producer

end Fell.Cli
