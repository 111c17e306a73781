import Fell.Cli.Metadata

/-!
# Metadata that are cut

The connection may be closed, or fail, before the client has received the whole response. The loop
that receives it then stops, and what has not been received is read as zeros: ids and ports of `0`,
hosts without a name, no partitions. The parser only rejects a response that goes on behind the end
of the buffer.

* `fetchMetadata_eq_true_iff`: which responses are accepted, by what has been received of them;
* `honest_iff`: when an accepted response has been received as a whole.
-/

namespace Fell.Cli

open Platform Broker Storage Replication

/-- If the response is accepted, it has been received as a whole, and the maps have only what is
    written in it. -/
def Honest (respLen : UInt32) (op : Op) (recvs : List Bytes) : Prop :=
  ∀ md, fetchMetadata .empty respLen op recvs = (true, md) →
    (received respLen recvs).length = respLen.toNat - 1 ∧
    (∀ id, ∀ broker ∈ md.brokers.lookup id,
      broker.id = id ∧ broker.encode <:+: received respLen recvs) ∧
    ∀ i, ∀ leaderId ∈ md.partLeaders.lookup i,
      encodeLeader (i, leaderId) <:+: received respLen recvs

theorem encode_brokerAt (payload : Bytes) (offset : ℕ) :
    (brokerAt payload offset).encode = field payload offset (5 + hostLen payload offset + 2) := by
  rw [field_add, field_add, show 5 = 4 + 1 from rfl, field_add payload offset 4 1, field_one]
  simp only [brokerAt, BrokerInfo.encode, RequestHandler.addBroker, length_field, hostLen,
    UInt8.ofNat_toNat, hostToBe32_be32ToHost (length_field payload offset 4),
    hostToBe16_be16ToHost (length_field payload _ 2)]
  simp [Nat.add_assoc]

theorem encodeLeader_leaderAt (payload : Bytes) (offset : ℕ) :
    encodeLeader (leaderAt payload offset) = field payload offset 6 := by
  rw [field_add payload offset 2 4, encodeLeader, leaderAt,
    hostToBe16_be16ToHost (length_field payload offset 2),
    hostToBe32_be32ToHost (length_field payload _ 4)]

theorem encode_infix {payload : Bytes} {n offset : ℕ}
    (h : brokersEnd payload n offset ≤ payload.length) :
    ∀ broker ∈ brokersAt payload n offset, broker.encode <:+: payload := by
  induction n generalizing offset with
  | zero => exact fun _ hmem => absurd hmem List.not_mem_nil
  | succ n ih =>
    have hle := le_brokersEnd payload n (offset + 5 + hostLen payload offset + 2)
    rw [brokersEnd] at h
    intro broker hbroker
    rcases List.mem_cons.1 hbroker with rfl | hmem
    · rw [encode_brokerAt]
      exact field_infix (by omega)
    · exact ih h broker hmem

theorem encodeLeader_infix {payload : Bytes} {n offset : ℕ}
    (h : offset + 6 * n ≤ payload.length) :
    ∀ entry ∈ leadersAt payload n offset, encodeLeader entry <:+: payload := by
  induction n generalizing offset with
  | zero => exact fun _ hmem => absurd hmem List.not_mem_nil
  | succ n ih =>
    intro entry hentry
    rcases List.mem_cons.1 hentry with rfl | hmem
    · rw [encodeLeader_leaderAt]
      exact field_infix (by omega)
    · exact ih (by omega) entry hmem

/-- The maps have only what is written in a response that is accepted. -/
theorem infix_of_lookup_filled {payload : Bytes} (h : metadataEnd payload ≤ payload.length) :
    (∀ id, ∀ broker ∈ (filled payload .empty).brokers.lookup id,
      broker.id = id ∧ broker.encode <:+: payload) ∧
    ∀ i, ∀ leaderId ∈ (filled payload .empty).partLeaders.lookup i,
      encodeLeader (i, leaderId) <:+: payload := by
  rw [metadataEnd, partitionsStart] at h
  constructor
  · intro id broker hbroker
    rw [filled, Metadata.brokers_foldl_addLeader, Metadata.lookup_foldl_addBroker] at hbroker
    have hfind : (brokersAt payload (count payload 0) 2).reverse.find? (·.id = id) = some broker :=
      Option.or_none.symm.trans hbroker
    have hmem := List.mem_reverse.1 (List.mem_of_find?_eq_some hfind)
    exact ⟨by simpa using List.find?_some hfind, encode_infix (by omega) broker hmem⟩
  · intro i leaderId hleader
    rw [filled, Metadata.lookup_foldl_addLeader, Metadata.partLeaders_foldl_addBroker] at hleader
    obtain ⟨entry, hfind, rfl⟩ := Option.map_eq_some_iff.1 (Option.or_none.symm.trans hleader)
    have hi : entry.1 = i := by simpa using List.find?_some hfind
    have hmem := List.mem_reverse.1 (List.mem_of_find?_eq_some hfind)
    rw [← hi]
    exact encodeLeader_infix h entry hmem

/-! Only the bytes received say where the response ends, as zeros follow them. -/

theorem hostLen_append_zeros (bs : Bytes) (k offset : ℕ) :
    hostLen (bs ++ List.replicate k 0) offset = hostLen bs offset := by
  rw [hostLen, hostLen, getD_append_zeros]

theorem count_append_zeros (bs : Bytes) (k offset : ℕ) :
    count (bs ++ List.replicate k 0) offset = count bs offset := by
  rw [count, count, field_append_zeros]

theorem brokersEnd_append_zeros (bs : Bytes) (k n offset : ℕ) :
    brokersEnd (bs ++ List.replicate k 0) n offset = brokersEnd bs n offset := by
  induction n generalizing offset with
  | zero => rfl
  | succ n ih => rw [brokersEnd, brokersEnd, hostLen_append_zeros, ih]

theorem metadataEnd_append_zeros (bs : Bytes) (k : ℕ) :
    metadataEnd (bs ++ List.replicate k 0) = metadataEnd bs := by
  simp only [metadataEnd, partitionsStart, count_append_zeros, brokersEnd_append_zeros]

theorem length_buffer (respLen : UInt32) (recvs : List Bytes) :
    (buffer respLen recvs).length = respLen.toNat - 1 := by
  have hle : (received respLen recvs).length ≤ respLen.toNat - 1 :=
    length_recvPayload_le recvs (Nat.zero_le _)
  rw [buffer, List.length_append, List.length_replicate]
  omega

theorem metadataEnd_buffer (respLen : UInt32) (recvs : List Bytes) :
    metadataEnd (buffer respLen recvs) = metadataEnd (received respLen recvs) :=
  metadataEnd_append_zeros _ _

theorem fetchMetadata_of_le (md : Metadata) {respLen : UInt32} {recvs : List Bytes}
    (h : metadataEnd (received respLen recvs) ≤ respLen.toNat - 1) :
    fetchMetadata md respLen .metadataResp recvs = (true, filled (buffer respLen recvs) md) := by
  have hfour := four_le_metadataEnd (received respLen recvs)
  rw [fetchMetadata, if_neg (by rw [UInt32.lt_iff_toNat_lt, UInt32.toNat_one]; omega),
    if_neg (by decide), if_neg (by decide)]
  exact parseMetadata_of_le md (by rwa [metadataEnd_buffer, length_buffer])

/-- The response is accepted if what has been received says that it ends in the buffer. -/
theorem fetchMetadata_eq_true_iff (md : Metadata) (respLen : UInt32) (op : Op)
    (recvs : List Bytes) :
    (fetchMetadata md respLen op recvs).1 = true ↔
      op = .metadataResp ∧ metadataEnd (received respLen recvs) ≤ respLen.toNat - 1 := by
  refine ⟨fun haccepted => ?_, fun ⟨hop, hle⟩ => hop ▸ by rw [fetchMetadata_of_le md hle]⟩
  rw [fetchMetadata] at haccepted
  split at haccepted
  · exact absurd haccepted Bool.false_ne_true
  · split at haccepted
    · exact absurd haccepted Bool.false_ne_true
    · split at haccepted
      · exact absurd haccepted Bool.false_ne_true
      · rename_i hop
        refine ⟨not_not.1 hop, Nat.le_of_not_lt fun hlt => ?_⟩
        rw [parseMetadata_of_lt md (by rwa [metadataEnd_buffer, length_buffer])] at haccepted
        exact Bool.false_ne_true haccepted

/-- The exact condition: the connection has given the whole payload, or the part received says that
    the response ends behind the buffer. -/
theorem honest_iff (respLen : UInt32) (op : Op) (recvs : List Bytes) :
    Honest respLen op recvs ↔
      (received respLen recvs).length = respLen.toNat - 1 ∨ op ≠ .metadataResp ∨
        respLen.toNat - 1 < metadataEnd (received respLen recvs) := by
  have haccepted := fetchMetadata_eq_true_iff .empty respLen op recvs
  constructor
  · intro hhonest
    by_contra hnot
    push Not at hnot
    obtain ⟨hcut, hop, hle⟩ := hnot
    exact hcut (hhonest _ (Prod.ext (haccepted.2 ⟨hop, hle⟩) rfl)).1
  · intro h md hmd
    obtain ⟨hop, hle⟩ := haccepted.1 (by rw [hmd])
    have hwhole := h.resolve_right fun h => h.elim (fun hne => hne hop) (Nat.not_lt.2 hle)
    have hbuffer : buffer respLen recvs = received respLen recvs := by
      rw [buffer, hwhole, Nat.sub_self, List.replicate_zero, List.append_nil]
    have hfilled : filled (received respLen recvs) .empty = md := by
      rw [hop, fetchMetadata_of_le .empty hle, hbuffer] at hmd
      exact congrArg Prod.snd hmd
    rw [← hfilled]
    exact ⟨hwhole, infix_of_lookup_filled (by rwa [hwhole])⟩

/-- The response of a broker with a topic of one partition, which it leads. -/
def ledByOne : Bytes := metadataPayload [⟨1, ascii "127.0.0.1", 9092⟩] [(0, 1)]

/-- The connection is closed before the leader. The client takes it for broker `0`. -/
theorem not_honest_ledByOne :
    (fetchMetadata .empty 27 .metadataResp [ledByOne.take 22]).2.partLeaders.lookup 0 = some 0 ∧
      ¬Honest 27 .metadataResp [ledByOne.take 22] := by
  refine ⟨by decide +kernel, fun hhonest => ?_⟩
  have haccepted : (fetchMetadata .empty 27 .metadataResp [ledByOne.take 22]).1 = true := by
    decide +kernel
  exact absurd (hhonest _ (Prod.ext haccepted rfl)).1 (by decide +kernel)

end Fell.Cli
