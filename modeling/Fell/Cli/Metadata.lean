import Fell.Broker.RequestHandler
import Mathlib.Data.List.GetD

/-!
# The metadata of a topic

The clients ask a broker for the brokers of the cluster and the leaders of the partitions of a
topic (`cli/cli_util.hpp`). The response has the brokers, each with the length of its host, and then
the partitions. The client receives it into a buffer of the size that the frame announces, and
checks before it reads a field that the buffer has it.

The buffer is full of zeros at first, and the parser does not know how much of it has been received.
What it reads is described by `brokersAt` and `leadersAt` over the bytes followed by zeros, and
`metadataEnd` is where the response ends by its own counts.

* `parseMetadata_of_le`, `parseMetadata_of_lt`: a response is accepted if it ends in the buffer;
* `parseMetadata_metadataPayload`: a response is read as what it was written from;
* `fetchMetadata_handleMetadataReq`: the client understands the responses of the broker.
-/

namespace Fell.Cli

open Platform Broker Storage Replication

/-- `BrokerInfo`. -/
structure BrokerInfo where
  id : UInt32
  host : Bytes
  clientPort : UInt16

/-- What `fetch_metadata` gives. -/
structure Metadata where
  brokers : AList fun _ : UInt32 => BrokerInfo
  partLeaders : AList fun _ : UInt16 => UInt32

namespace Metadata

variable (md : Metadata)

/-- The leader of a partition, if it is known. -/
def leader (partition : UInt16) : Option BrokerInfo :=
  (md.partLeaders.lookup partition).bind md.brokers.lookup

/-- The partitions listed are those up to `n`. -/
def Lists (n : UInt16) : Prop :=
  md.partLeaders.keys.Perm ((List.range n.toNat).map UInt16.ofNat)

/-- The maps of `connect_to_leader`, before they are filled. -/
def empty : Metadata := ⟨∅, ∅⟩

/-- `brokers[id] = ...`. -/
def addBroker (broker : BrokerInfo) : Metadata :=
  { md with brokers := md.brokers.insert broker.id broker }

/-- `partition_leaders[part_idx] = leader_id`. -/
def addLeader (entry : UInt16 × UInt32) : Metadata :=
  { md with partLeaders := md.partLeaders.insert entry.1 entry.2 }

theorem lookup_foldl_addBroker (brokers : List BrokerInfo) (id : UInt32) :
    (brokers.foldl addBroker md).brokers.lookup id =
      (brokers.reverse.find? (·.id = id)).or (md.brokers.lookup id) := by
  induction brokers using List.reverseRecOn with
  | nil => rfl
  | append_singleton brokers broker ih =>
    rw [List.foldl_concat, List.reverse_append, List.reverse_singleton, List.singleton_append,
      List.find?_cons, addBroker]
    by_cases hid : broker.id = id
    · simp [hid, AList.lookup_insert]
    · simp [hid, AList.lookup_insert_ne (Ne.symm hid), ih]

theorem brokers_foldl_addLeader (entries : List (UInt16 × UInt32)) :
    (entries.foldl addLeader md).brokers = md.brokers := by
  induction entries generalizing md with
  | nil => rfl
  | cons entry entries ih => rw [List.foldl_cons, ih, addLeader]

theorem partLeaders_foldl_addBroker (brokers : List BrokerInfo) :
    (brokers.foldl addBroker md).partLeaders = md.partLeaders := by
  induction brokers generalizing md with
  | nil => rfl
  | cons broker brokers ih => rw [List.foldl_cons, ih, addBroker]

theorem lookup_foldl_addLeader (entries : List (UInt16 × UInt32)) (i : UInt16) :
    (entries.foldl addLeader md).partLeaders.lookup i =
      ((entries.reverse.find? (·.1 = i)).map Prod.snd).or (md.partLeaders.lookup i) := by
  induction entries using List.reverseRecOn with
  | nil => rfl
  | append_singleton entries entry ih =>
    rw [List.foldl_concat, List.reverse_append, List.reverse_singleton, List.singleton_append,
      List.find?_cons, addLeader]
    by_cases hi : entry.1 = i
    · simp [hi, AList.lookup_insert]
    · simp [hi, AList.lookup_insert_ne (Ne.symm hi), ih]

end Metadata

/-! ## Fields -/

/-- The bytes `payload[offset]`, `payload[offset + 1]`, ...; those past the end count as zeros. -/
def field (payload : Bytes) (offset n : ℕ) : Bytes :=
  (List.range n).map fun i => payload.getD (offset + i) 0

@[simp] theorem length_field (payload : Bytes) (offset n : ℕ) :
    (field payload offset n).length = n := by
  rw [field, List.length_map, List.length_range]

theorem field_add (payload : Bytes) (offset m n : ℕ) :
    field payload offset (m + n) = field payload offset m ++ field payload (offset + m) n := by
  rw [field, List.range_add, List.map_append, List.map_map, field, field]
  simp only [Function.comp_def, Nat.add_assoc]

theorem field_one (payload : Bytes) (offset : ℕ) :
    field payload offset 1 = [payload.getD offset 0] := rfl

theorem field_of_eq {payload : Bytes} (pre bs tl : Bytes) {offset n : ℕ}
    (hpayload : payload = pre ++ (bs ++ tl)) (hoffset : pre.length = offset)
    (hn : bs.length = n) : field payload offset n = bs := by
  subst hpayload hoffset hn
  refine List.ext_getElem (length_field _ _ _) fun i hi hbs => ?_
  simp only [field, List.getElem_map, List.getElem_range]
  rw [List.getD_eq_getElem?_getD, List.getElem?_append_right (Nat.le_add_right _ _),
    Nat.add_sub_cancel_left, List.getElem?_append_left hbs, List.getElem?_eq_getElem hbs,
    Option.getD_some]

theorem getD_append_zeros (bs : Bytes) (n i : ℕ) :
    (bs ++ List.replicate n 0).getD i 0 = bs.getD i 0 := by
  rcases Nat.lt_or_ge i bs.length with hi | hi
  · exact List.getD_append _ _ _ _ hi
  · rw [List.getD_append_right _ _ _ _ hi, List.getD_eq_default _ _ hi]
    rcases Nat.lt_or_ge (i - bs.length) n with hn | hn
    · exact List.getD_replicate 0 hn
    · rw [List.getD_eq_default _ _ (by rwa [List.length_replicate])]

theorem field_append_zeros (bs : Bytes) (k offset n : ℕ) :
    field (bs ++ List.replicate k 0) offset n = field bs offset n :=
  List.map_congr_left fun _ _ => getD_append_zeros _ _ _

theorem field_infix {payload : Bytes} {offset n : ℕ} (h : offset + n ≤ payload.length) :
    field payload offset n <:+: payload := by
  have hlen : ((payload.drop offset).take n).length = n := by
    rw [List.length_take, List.length_drop]
    omega
  have hpre : (payload.take offset).length = offset := List.length_take_of_le (by omega)
  have hpayload : payload =
      payload.take offset ++ ((payload.drop offset).take n ++ (payload.drop offset).drop n) := by
    rw [List.take_append_drop, List.take_append_drop]
  rw [field_of_eq _ _ _ hpayload hpre hlen]
  exact (List.take_prefix _ _).isInfix.trans (List.drop_suffix _ _).isInfix

/-! ## The response -/

/-- A broker, as the response has it. -/
def BrokerInfo.encode (broker : BrokerInfo) : Bytes :=
  RequestHandler.addBroker broker.id broker.host broker.clientPort

/-- A partition and its leader, as the response has them. -/
def encodeLeader (entry : UInt16 × UInt32) : Bytes := hostToBe16 entry.1 ++ hostToBe32 entry.2

section Parser

variable (payload : Bytes)

/-- `num_brokers` and `num_partitions`. -/
def count (offset : ℕ) : ℕ := (be16ToHost (field payload offset 2)).toNat

/-- `host_len` of the broker at `offset`. -/
def hostLen (offset : ℕ) : ℕ := (payload.getD (offset + 4) 0).toNat

/-- The broker at `offset`. -/
def brokerAt (offset : ℕ) : BrokerInfo where
  id := be32ToHost (field payload offset 4)
  host := field payload (offset + 5) (hostLen payload offset)
  clientPort := be16ToHost (field payload (offset + 5 + hostLen payload offset) 2)

/-- The partition at `offset`, and its leader. -/
def leaderAt (offset : ℕ) : UInt16 × UInt32 :=
  (be16ToHost (field payload offset 2), be32ToHost (field payload (offset + 2) 4))

/-- The loop over the brokers: the offset behind them, unless the buffer is too short. -/
def parseBrokers : ℕ → ℕ → Metadata → Option ℕ × Metadata
  | 0, offset, md => (some offset, md)
  | n + 1, offset, md =>
    if payload.length < offset + 5 then (none, md)
    else if payload.length < offset + 5 + hostLen payload offset + 2 then (none, md)
    else
      parseBrokers n (offset + 5 + hostLen payload offset + 2)
        (md.addBroker (brokerAt payload offset))

/-- The loop over the partitions. -/
def parsePartitions : ℕ → ℕ → Metadata → Bool × Metadata
  | 0, _, md => (true, md)
  | n + 1, offset, md =>
    if payload.length < offset + 6 then (false, md)
    else parsePartitions n (offset + 6) (md.addLeader (leaderAt payload offset))

/-- `fetch_metadata`, once the payload is there. -/
def parseMetadata (md : Metadata) : Bool × Metadata :=
  if payload.length < 2 then (false, md)
  else
    match parseBrokers payload (count payload 0) 2 md with
    | (none, md) => (false, md)
    | (some offset, md) =>
      if payload.length < offset + 2 then (false, md)
      else parsePartitions payload (count payload offset) (offset + 2) md

/-! ## What the parser reads -/

/-- The `n` brokers from `offset` on. -/
def brokersAt : ℕ → ℕ → List BrokerInfo
  | 0, _ => []
  | n + 1, offset =>
    brokerAt payload offset :: brokersAt n (offset + 5 + hostLen payload offset + 2)

/-- Where the `n` brokers from `offset` on end. -/
def brokersEnd : ℕ → ℕ → ℕ
  | 0, offset => offset
  | n + 1, offset => brokersEnd n (offset + 5 + hostLen payload offset + 2)

/-- The `n` partitions from `offset` on. -/
def leadersAt : ℕ → ℕ → List (UInt16 × UInt32)
  | 0, _ => []
  | n + 1, offset => leaderAt payload offset :: leadersAt n (offset + 6)

/-- Where the number of partitions is. -/
def partitionsStart : ℕ := brokersEnd payload (count payload 0) 2

/-- Where the response ends, by the numbers and lengths in it. -/
def metadataEnd : ℕ :=
  partitionsStart payload + 2 + 6 * count payload (partitionsStart payload)

/-- The maps, filled with what the response has. -/
def filled (md : Metadata) : Metadata :=
  (leadersAt payload (count payload (partitionsStart payload)) (partitionsStart payload + 2)).foldl
    Metadata.addLeader ((brokersAt payload (count payload 0) 2).foldl Metadata.addBroker md)

theorem le_brokersEnd (n offset : ℕ) : offset + 7 * n ≤ brokersEnd payload n offset := by
  induction n generalizing offset with
  | zero => exact Nat.le_refl _
  | succ n ih => exact Nat.le_trans (by omega) (ih _)

theorem four_le_metadataEnd : 4 ≤ metadataEnd payload := by
  have hle := le_brokersEnd payload (count payload 0) 2
  rw [metadataEnd, partitionsStart]
  omega

variable {payload}

theorem parseBrokers_of_le {n offset : ℕ} (md : Metadata)
    (h : brokersEnd payload n offset ≤ payload.length) :
    parseBrokers payload n offset md =
      (some (brokersEnd payload n offset), (brokersAt payload n offset).foldl .addBroker md) := by
  induction n generalizing offset md with
  | zero => rfl
  | succ n ih =>
    have hle := le_brokersEnd payload n (offset + 5 + hostLen payload offset + 2)
    rw [brokersEnd] at h
    rw [parseBrokers, if_neg (by omega), if_neg (by omega), ih _ h, brokersEnd, brokersAt,
      List.foldl_cons]

theorem parseBrokers_of_lt {n offset : ℕ} (md : Metadata) (hoffset : offset ≤ payload.length)
    (h : payload.length < brokersEnd payload n offset) :
    (parseBrokers payload n offset md).1 = none := by
  induction n generalizing offset md with
  | zero => exact absurd h (by simpa [brokersEnd] using hoffset)
  | succ n ih =>
    rw [parseBrokers]
    split
    · rfl
    · split
      · rfl
      · rename_i hlt
        exact ih _ (Nat.le_of_not_lt hlt) h

theorem parsePartitions_of_le {n offset : ℕ} (md : Metadata)
    (h : offset + 6 * n ≤ payload.length) :
    parsePartitions payload n offset md =
      (true, (leadersAt payload n offset).foldl .addLeader md) := by
  induction n generalizing offset md with
  | zero => rfl
  | succ n ih =>
    rw [parsePartitions, if_neg (by omega), ih _ (by omega), leadersAt, List.foldl_cons]

theorem parsePartitions_of_lt {n offset : ℕ} (md : Metadata) (hoffset : offset ≤ payload.length)
    (h : payload.length < offset + 6 * n) : (parsePartitions payload n offset md).1 = false := by
  induction n generalizing offset md with
  | zero => omega
  | succ n ih =>
    rw [parsePartitions]
    split
    · rfl
    · exact ih _ (by omega) (by omega)

/-- A response is accepted if the buffer has it up to its end. -/
theorem parseMetadata_of_le (md : Metadata) (h : metadataEnd payload ≤ payload.length) :
    parseMetadata payload md = (true, filled payload md) := by
  have hle := le_brokersEnd payload (count payload 0) 2
  rw [metadataEnd, partitionsStart] at h
  rw [parseMetadata, if_neg (by omega), parseBrokers_of_le md (by omega)]
  simp only
  rw [if_neg (by omega), parsePartitions_of_le _ h]
  rfl

theorem parseMetadata_of_lt (md : Metadata) (h : payload.length < metadataEnd payload) :
    (parseMetadata payload md).1 = false := by
  rw [parseMetadata]
  split
  · rfl
  · rename_i htwo
    rcases Nat.lt_or_ge payload.length (brokersEnd payload (count payload 0) 2) with hlt | hle
    · have hnone := parseBrokers_of_lt md (Nat.le_of_not_lt htwo) hlt
      generalize parseBrokers payload (count payload 0) 2 md = r at hnone
      obtain ⟨_, md'⟩ := r
      subst hnone
      rfl
    · rw [parseBrokers_of_le md hle]
      simp only
      split
      · rfl
      · exact parsePartitions_of_lt _ (Nat.le_of_not_lt ‹_›) h

end Parser

/-! ## The response of the broker -/

theorem hostLen_encode {broker : BrokerInfo} (hhost : broker.host.length < 256) (pre tl : Bytes) :
    hostLen (pre ++ (broker.encode ++ tl)) pre.length = broker.host.length := by
  have hbyte : field (pre ++ (broker.encode ++ tl)) (pre.length + 4) 1 =
      [UInt8.ofNat broker.host.length] :=
    field_of_eq (pre ++ hostToBe32 broker.id) _
      (broker.host ++ hostToBe16 broker.clientPort ++ tl)
      (by simp [BrokerInfo.encode, RequestHandler.addBroker]) (by simp) rfl
  rw [field_one] at hbyte
  rw [hostLen, List.cons.inj hbyte |>.1, UInt8.toNat_ofNat']
  exact Nat.mod_eq_of_lt hhost

theorem brokerAt_encode {broker : BrokerInfo} (hhost : broker.host.length < 256)
    (pre tl : Bytes) : brokerAt (pre ++ (broker.encode ++ tl)) pre.length = broker := by
  have hlen := hostLen_encode hhost pre tl
  have hid : field (pre ++ (broker.encode ++ tl)) pre.length 4 = hostToBe32 broker.id :=
    field_of_eq pre _
      (UInt8.ofNat broker.host.length :: (broker.host ++ hostToBe16 broker.clientPort ++ tl))
      (by simp [BrokerInfo.encode, RequestHandler.addBroker]) rfl (by simp)
  have hhost : field (pre ++ (broker.encode ++ tl)) (pre.length + 5) broker.host.length =
      broker.host :=
    field_of_eq (pre ++ hostToBe32 broker.id ++ [UInt8.ofNat broker.host.length]) _
      (hostToBe16 broker.clientPort ++ tl)
      (by simp [BrokerInfo.encode, RequestHandler.addBroker]) (by simp) rfl
  have hport : field (pre ++ (broker.encode ++ tl)) (pre.length + 5 + broker.host.length) 2 =
      hostToBe16 broker.clientPort :=
    field_of_eq (pre ++ hostToBe32 broker.id ++ [UInt8.ofNat broker.host.length] ++ broker.host)
      _ tl (by simp [BrokerInfo.encode, RequestHandler.addBroker]) (by simp; omega) (by simp)
  rw [brokerAt, hlen, hid, hhost, hport, be32ToHost_hostToBe32, be16ToHost_hostToBe16]

theorem length_encode (broker : BrokerInfo) :
    broker.encode.length = 5 + broker.host.length + 2 := by
  simp [BrokerInfo.encode, RequestHandler.addBroker]
  omega

theorem brokersAt_append {brokers : List BrokerInfo}
    (hhosts : ∀ broker ∈ brokers, broker.host.length < 256) (pre tl : Bytes) :
    brokersAt (pre ++ (brokers.flatMap BrokerInfo.encode ++ tl)) brokers.length pre.length =
        brokers ∧
      brokersEnd (pre ++ (brokers.flatMap BrokerInfo.encode ++ tl)) brokers.length pre.length =
        (pre ++ brokers.flatMap BrokerInfo.encode).length := by
  induction brokers generalizing pre with
  | nil => simp [brokersAt, brokersEnd]
  | cons broker brokers ih =>
    have hhost := hhosts broker List.mem_cons_self
    obtain ⟨hat, hend⟩ := ih (fun b hb => hhosts b (List.mem_cons_of_mem _ hb))
      (pre ++ broker.encode)
    have hpayload : pre ++ ((broker :: brokers).flatMap BrokerInfo.encode ++ tl) =
        pre ++ broker.encode ++ (brokers.flatMap BrokerInfo.encode ++ tl) := by simp
    have hpre : (pre ++ broker.encode).length = pre.length + 5 + broker.host.length + 2 := by
      rw [List.length_append, length_encode]
      omega
    have hlen : hostLen (pre ++ broker.encode ++ (brokers.flatMap BrokerInfo.encode ++ tl))
        pre.length = broker.host.length := by
      rw [List.append_assoc, hostLen_encode hhost]
    rw [List.length_cons, hpayload, brokersAt, brokersEnd, hlen, ← hpre, hat, hend]
    refine ⟨?_, by simp⟩
    rw [List.append_assoc, brokerAt_encode hhost]

theorem leadersAt_append (entries : List (UInt16 × UInt32)) (pre tl : Bytes) :
    leadersAt (pre ++ (entries.flatMap encodeLeader ++ tl)) entries.length pre.length =
      entries := by
  induction entries generalizing pre with
  | nil => rfl
  | cons entry entries ih =>
    have hpayload : pre ++ ((entry :: entries).flatMap encodeLeader ++ tl) =
        pre ++ encodeLeader entry ++ (entries.flatMap encodeLeader ++ tl) := by simp
    have hpre : (pre ++ encodeLeader entry).length = pre.length + 6 := by simp [encodeLeader]
    have hat := ih (pre ++ encodeLeader entry)
    rw [hpre] at hat
    rw [List.length_cons, hpayload, leadersAt, hat, leaderAt,
      field_of_eq pre (hostToBe16 entry.1)
        (hostToBe32 entry.2 ++ (entries.flatMap encodeLeader ++ tl))
        (by simp [encodeLeader]) rfl (by simp),
      field_of_eq (pre ++ hostToBe16 entry.1) (hostToBe32 entry.2)
        (entries.flatMap encodeLeader ++ tl) (by simp [encodeLeader]) (by simp) (by simp),
      be16ToHost_hostToBe16, be32ToHost_hostToBe32]

/-! ## Receiving -/

/-- The loop that receives the payload. The results of `recv` are at most what is left of the
    buffer; one without bytes stands for the end of the connection and for an error. -/
def recvPayload (size : ℕ) : List Bytes → Bytes → Bytes
  | [], received => received
  | chunk :: recvs, received =>
    if received.length < size ∧ chunk ≠ [] then
      recvPayload size recvs (received ++ chunk.take (size - received.length))
    else received

/-- The bytes of the payload that have been received. -/
def received (respLen : UInt32) (recvs : List Bytes) : Bytes :=
  recvPayload (respLen.toNat - 1) recvs []

/-- The buffer for the payload, which is full of zeros at first. -/
def buffer (respLen : UInt32) (recvs : List Bytes) : Bytes :=
  received respLen recvs ++ List.replicate (respLen.toNat - 1 - (received respLen recvs).length) 0

/-- `fetch_metadata`, once the length and the opcode of the response are there. -/
def fetchMetadata (md : Metadata) (respLen : UInt32) (op : Op) (recvs : List Bytes) :
    Bool × Metadata :=
  if respLen < 1 then (false, md)
  else if op = .err then (false, md)
  else if op ≠ .metadataResp then (false, md)
  else parseMetadata (buffer respLen recvs) md

theorem length_recvPayload_le {size : ℕ} (recvs : List Bytes) {received : Bytes}
    (h : received.length ≤ size) : (recvPayload size recvs received).length ≤ size := by
  induction recvs generalizing received with
  | nil => exact h
  | cons chunk recvs ih =>
    rw [recvPayload]
    split
    · refine ih ?_
      rw [List.length_append, List.length_take]
      omega
    · exact h

theorem recvPayload_flatten {size : ℕ} {recvs : List Bytes} (hrecvs : ∀ chunk ∈ recvs, chunk ≠ [])
    {received : Bytes} (hsize : received.length + recvs.flatten.length = size) :
    recvPayload size recvs received = received ++ recvs.flatten := by
  induction recvs generalizing received with
  | nil => simp [recvPayload]
  | cons chunk recvs ih =>
    have hchunk := hrecvs chunk List.mem_cons_self
    have hpos := List.length_pos_of_ne_nil hchunk
    rw [List.flatten_cons, List.length_append] at hsize
    rw [recvPayload, if_pos ⟨by omega, hchunk⟩, List.take_of_length_le (by omega),
      ih (fun c hc => hrecvs c (List.mem_cons_of_mem _ hc)) (by rw [List.length_append]; omega),
      List.flatten_cons, List.append_assoc]

/-- The brokers of the cluster, as they are listed in a response. -/
def advertised (cfg : ClusterConfig) : List BrokerInfo :=
  ⟨cfg.brokerId, ascii "127.0.0.1", cfg.clientPort⟩ ::
    cfg.peers.map fun peer => ⟨peer.brokerId, ascii peer.host, peer.clientPort⟩

/-- The payload of a response. -/
def metadataPayload (brokers : List BrokerInfo) (entries : List (UInt16 × UInt32)) : Bytes :=
  hostToBe16 (UInt16.ofNat brokers.length) ++ (brokers.flatMap BrokerInfo.encode ++
    (hostToBe16 (UInt16.ofNat entries.length) ++ entries.flatMap encodeLeader))

theorem length_flatMap_encodeLeader (entries : List (UInt16 × UInt32)) :
    (entries.flatMap encodeLeader).length = 6 * entries.length := by
  induction entries with
  | nil => rfl
  | cons entry entries ih =>
    rw [List.flatMap_cons, List.length_append, ih, List.length_cons, encodeLeader,
      List.length_append, length_hostToBe16, length_hostToBe32]
    omega

section RoundTrip

variable {brokers : List BrokerInfo} {entries : List (UInt16 × UInt32)}
  (hbrokers : brokers.length < 2 ^ 16) (hentries : entries.length < 2 ^ 16)
  (hhosts : ∀ broker ∈ brokers, broker.host.length < 256)
include hbrokers

theorem count_metadataPayload : count (metadataPayload brokers entries) 0 = brokers.length := by
  have hfield : field (metadataPayload brokers entries) 0 2 =
      hostToBe16 (UInt16.ofNat brokers.length) := field_of_eq [] _ _ rfl rfl (by simp)
  rw [count, hfield, be16ToHost_hostToBe16, UInt16.toNat_ofNat']
  exact Nat.mod_eq_of_lt hbrokers

include hhosts

theorem brokersAt_metadataPayload :
    brokersAt (metadataPayload brokers entries) (count (metadataPayload brokers entries) 0) 2 =
      brokers := by
  rw [count_metadataPayload hbrokers]
  exact (brokersAt_append hhosts (hostToBe16 (UInt16.ofNat brokers.length)) _).1

theorem partitionsStart_metadataPayload :
    partitionsStart (metadataPayload brokers entries) =
      2 + (brokers.flatMap BrokerInfo.encode).length := by
  rw [partitionsStart, count_metadataPayload hbrokers]
  have hend := (brokersAt_append hhosts (hostToBe16 (UInt16.ofNat brokers.length))
    (hostToBe16 (UInt16.ofNat entries.length) ++ entries.flatMap encodeLeader)).2
  rwa [List.length_append, length_hostToBe16] at hend

include hentries

theorem count_partitionsStart_metadataPayload :
    count (metadataPayload brokers entries) (partitionsStart (metadataPayload brokers entries)) =
      entries.length := by
  rw [partitionsStart_metadataPayload hbrokers hhosts, count,
    field_of_eq (hostToBe16 (UInt16.ofNat brokers.length) ++ brokers.flatMap BrokerInfo.encode)
      (hostToBe16 (UInt16.ofNat entries.length)) (entries.flatMap encodeLeader)
      (by simp [metadataPayload]) (by simp) (by simp),
    be16ToHost_hostToBe16, UInt16.toNat_ofNat']
  exact Nat.mod_eq_of_lt hentries

theorem leadersAt_metadataPayload :
    leadersAt (metadataPayload brokers entries)
        (count (metadataPayload brokers entries)
          (partitionsStart (metadataPayload brokers entries)))
        (partitionsStart (metadataPayload brokers entries) + 2) = entries := by
  rw [count_partitionsStart_metadataPayload hbrokers hentries hhosts,
    partitionsStart_metadataPayload hbrokers hhosts]
  have hat := leadersAt_append entries (hostToBe16 (UInt16.ofNat brokers.length) ++
    brokers.flatMap BrokerInfo.encode ++ hostToBe16 (UInt16.ofNat entries.length)) []
  rwa [List.append_nil, List.length_append, List.length_append, length_hostToBe16,
    length_hostToBe16, List.append_assoc, List.append_assoc] at hat

omit hbrokers hentries in
theorem length_flatMap_encode_le :
    (brokers.flatMap BrokerInfo.encode).length ≤ 262 * brokers.length := by
  induction brokers with
  | nil => exact Nat.le_refl _
  | cons broker brokers ih =>
    have hhost := hhosts broker List.mem_cons_self
    have hle := ih fun b hb => hhosts b (List.mem_cons_of_mem _ hb)
    rw [List.flatMap_cons, List.length_append, length_encode, List.length_cons]
    omega

/-- The length of a response fits in the head of its frame. -/
theorem length_metadataPayload_lt :
    1 + (metadataPayload brokers entries).length < 2 ^ 32 := by
  have hle := length_flatMap_encode_le hhosts
  rw [metadataPayload, List.length_append, List.length_append, List.length_append,
    length_flatMap_encodeLeader, length_hostToBe16, length_hostToBe16]
  omega

theorem metadataEnd_metadataPayload :
    metadataEnd (metadataPayload brokers entries) = (metadataPayload brokers entries).length := by
  rw [metadataEnd, count_partitionsStart_metadataPayload hbrokers hentries hhosts,
    partitionsStart_metadataPayload hbrokers hhosts, metadataPayload, List.length_append,
    List.length_append, List.length_append, length_flatMap_encodeLeader, length_hostToBe16,
    length_hostToBe16]
  omega

/-- A response is read as what it was written from. -/
theorem parseMetadata_metadataPayload (md : Metadata) :
    parseMetadata (metadataPayload brokers entries) md =
      (true, entries.foldl .addLeader (brokers.foldl .addBroker md)) := by
  rw [parseMetadata_of_le md (metadataEnd_metadataPayload hbrokers hentries hhosts).le, filled,
    leadersAt_metadataPayload hbrokers hentries hhosts, brokersAt_metadataPayload hbrokers hhosts]

theorem fetchMetadata_metadataPayload (md : Metadata) {recvs : List Bytes}
    (hrecvs : ∀ chunk ∈ recvs, chunk ≠ [])
    (hflatten : recvs.flatten = metadataPayload brokers entries) :
    fetchMetadata md (1 + UInt32.ofNat (metadataPayload brokers entries).length) .metadataResp
        recvs =
      (true, entries.foldl .addLeader (brokers.foldl .addBroker md)) := by
  have hlt := length_metadataPayload_lt hbrokers hentries hhosts
  have hlen : (1 + UInt32.ofNat (metadataPayload brokers entries).length).toNat =
      1 + (metadataPayload brokers entries).length := by
    rw [UInt32.toNat_add, UInt32.toNat_ofNat', UInt32.toNat_one]
    omega
  have hreceived : received (1 + UInt32.ofNat (metadataPayload brokers entries).length) recvs =
      metadataPayload brokers entries := by
    rw [received, hlen, Nat.add_sub_cancel_left,
      recvPayload_flatten hrecvs (by rw [hflatten, List.length_nil, Nat.zero_add]), hflatten,
      List.nil_append]
  rw [fetchMetadata, if_neg (by rw [UInt32.lt_iff_toNat_lt, hlen, UInt32.toNat_one]; omega),
    if_neg (by decide), if_neg (by decide), buffer, hreceived, hlen, Nat.add_sub_cancel_left,
    Nat.sub_self, List.replicate_zero, List.append_nil]
  exact parseMetadata_metadataPayload hbrokers hentries hhosts md

end RoundTrip

theorem find?_map_leaders (l : List UInt16) (leaderId : UInt16 → UInt32) (i : UInt16) :
    ((l.map fun j => (j, leaderId j)).reverse.find? (·.1 = i)).map Prod.snd =
      if i ∈ l then some (leaderId i) else none := by
  induction l using List.reverseRecOn with
  | nil => rfl
  | append_singleton l j ih =>
    rw [List.map_append, List.reverse_append, List.map_singleton, List.reverse_singleton,
      List.singleton_append, List.find?_cons]
    by_cases hj : j = i
    · simp [hj]
    · simp [hj, Ne.symm hj, ih]

theorem mem_partitions (n i : UInt16) : i ∈ (List.range n.toNat).map UInt16.ofNat ↔ i < n := by
  rw [List.mem_map, UInt16.lt_iff_toNat_lt]
  constructor
  · rintro ⟨k, hk, rfl⟩
    have hk := List.mem_range.1 hk
    rw [UInt16.toNat_ofNat_of_lt' (hk.trans n.toNat_lt)]
    exact hk
  · exact fun hi => ⟨i.toNat, List.mem_range.2 hi, UInt16.ofNat_toNat⟩

theorem length_advertised (cfg : ClusterConfig) :
    (advertised cfg).length = 1 + cfg.peers.length := by
  rw [advertised, List.length_cons, List.length_map, Nat.add_comm]

theorem length_host_advertised {cfg : ClusterConfig}
    (hhosts : ∀ peer ∈ cfg.peers, (ascii peer.host).length ≤ 255) :
    ∀ broker ∈ advertised cfg, broker.host.length < 256 := by
  intro broker hbroker
  rcases List.mem_cons.1 hbroker with rfl | hmem
  · exact (by decide : (ascii "127.0.0.1").length < 256)
  · obtain ⟨peer, hpeer, rfl⟩ := List.mem_map.1 hmem
    exact Nat.lt_succ_of_le (hhosts peer hpeer)

/-- The payload that `handle_metadata_req` writes. -/
theorem outcome_handleMetadataReq {h : RequestHandler} {cfg : ClusterConfig}
    {reg : PartitionMetaRegistry} (hcfg : h.cfg = some cfg) (hreg : h.metaReg = some reg)
    (sess : Session) {request : Bytes} (hrequest : TopicReq.size ≤ request.length) :
    (h.handleMetadataReq sess request).outcome =
      .reply (encodeFrame .metadataResp (metadataPayload (advertised cfg)
        (((List.range (h.numPartitions (TopicReq.ofPayload request).topicName).toNat).map
          UInt16.ofNat).map fun i =>
            (i, (reg.find (TopicReq.ofPayload request).topicName i).leaderId)))) := by
  rw [RequestHandler.handleMetadataReq, if_neg (by omega), hcfg, hreg, metadataPayload,
    length_advertised]
  simp only [advertised, List.flatMap_cons, List.flatMap_map,
    BrokerInfo.encode, encodeLeader, List.length_map, List.length_range, UInt16.ofNat_toNat,
    List.append_assoc]
  rfl

/-- The client understands the responses of the broker, however they are cut into chunks. -/
theorem fetchMetadata_handleMetadataReq (h : RequestHandler) (sess : Session) (request : Bytes)
    (cfg : ClusterConfig) (reg : PartitionMetaRegistry) (hcfg : h.cfg = some cfg)
    (hreg : h.metaReg = some reg) (hrequest : TopicReq.size ≤ request.length)
    (hpeers : cfg.peers.length ≤ 65534)
    (hhosts : ∀ peer ∈ cfg.peers, (ascii peer.host).length ≤ 255) :
    ∃ payload, (h.handleMetadataReq sess request).outcome =
        .reply (encodeFrame .metadataResp payload) ∧
      ∀ recvs : List Bytes, (∀ chunk ∈ recvs, chunk ≠ []) → recvs.flatten = payload →
        ∃ md, fetchMetadata .empty (1 + UInt32.ofNat payload.length) .metadataResp recvs =
            (true, md) ∧
          (∀ id, md.brokers.lookup id = (advertised cfg).reverse.find? (·.id = id)) ∧
          ∀ i, md.partLeaders.lookup i =
            if i < h.numPartitions (TopicReq.ofPayload request).topicName then
              some (reg.find (TopicReq.ofPayload request).topicName i).leaderId
            else none := by
  refine ⟨_, outcome_handleMetadataReq hcfg hreg sess hrequest, fun recvs hrecvs hflatten => ?_⟩
  generalize (TopicReq.ofPayload request).topicName = topic at hflatten ⊢
  generalize hentries : ((List.range (h.numPartitions topic).toNat).map UInt16.ofNat).map
    (fun i => (i, (reg.find topic i).leaderId)) = entries at hflatten ⊢
  have hlength : entries.length < 2 ^ 16 := by
    rw [← hentries, List.length_map, List.length_map, List.length_range]
    exact (h.numPartitions topic).toNat_lt
  have hbrokers : (advertised cfg).length < 2 ^ 16 := by
    rw [length_advertised]
    omega
  have hhosts := length_host_advertised hhosts
  refine ⟨_, fetchMetadata_metadataPayload hbrokers hlength hhosts .empty hrecvs hflatten, ?_, ?_⟩
  · intro id
    rw [Metadata.brokers_foldl_addLeader, Metadata.lookup_foldl_addBroker]
    exact Option.or_none
  · intro i
    rw [Metadata.lookup_foldl_addLeader, Metadata.partLeaders_foldl_addBroker, ← hentries,
      find?_map_leaders]
    simp only [mem_partitions]
    exact Option.or_none

/-- A broker with a peer. -/
def pair : ClusterConfig := { ClusterConfig.loadDefault with peers := [⟨1, "b", 9095, 9094⟩] }

/-- The handler of a broker with a peer, and with a topic of one partition. -/
def paired : RequestHandler where
  topics := AList.insert (ascii "t") ⟨1, Nat.one_pos⟩ ∅
  missing _ _ := false
  cfg := some pair
  metaReg := some ∅
  deferCb := false

theorem fetchMetadata_paired :
    ∃ payload, (paired.handleMetadataReq {} (1 :: 116 :: List.replicate 254 0)).outcome =
        .reply (encodeFrame .metadataResp payload) ∧
      ∀ recvs : List Bytes, (∀ chunk ∈ recvs, chunk ≠ []) → recvs.flatten = payload →
        ∃ md, fetchMetadata .empty (1 + UInt32.ofNat payload.length) .metadataResp recvs =
            (true, md) ∧
          (∀ id, md.brokers.lookup id = (advertised pair).reverse.find? (·.id = id)) ∧
          ∀ i, md.partLeaders.lookup i =
            if i < paired.numPartitions [116] then
              some (PartitionMetaRegistry.find ∅ [116] i).leaderId
            else none :=
  fetchMetadata_handleMetadataReq paired {} (1 :: 116 :: List.replicate 254 0) pair ∅ rfl rfl
    (by decide +kernel) (by decide) (by decide)

end Fell.Cli
