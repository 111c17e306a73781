import Fell.Lib.Framing
import Fell.Platform

/-!
# The log format

The records of a `.log` file and the entries of an `.idx` file
(`storage/log_format.hpp`), as the bytes `write_batch` writes and the readers
take apart: a packed header in network order, followed by the payload.

A payload is at most as long as its 32-bit size can tell, which is why it
carries its bound: `append` takes the size as a `uint32_t`, and no payload read
from disk is longer than its header says. With it, both are self-delimiting
formats (`recordFormat`, `indexFormat`).
-/

namespace Fell.Storage

open Platform

/-- `LOG_RECORD_HEADER_SIZE`. -/
def logRecordHeaderSize : ℕ := 20

/-- `LOG_SEGMENT_MAX_BYTES`: the size from which a segment is rotated. -/
def logSegmentMaxBytes : ℕ := 64 * 1024 * 1024

/-- `INDEX_INTERVAL`: every so many records get an index entry. -/
def indexInterval : ℕ := 128

/-- `sizeof(IndexEntry)`. -/
def indexEntrySize : ℕ := 16

/-- Bytes whose number fits a `uint32_t`. -/
@[ext] structure Payload where
  bytes : Bytes
  length_lt : bytes.length < 2 ^ 32
  deriving DecidableEq

/-- The empty payload. -/
def Payload.empty : Payload := ⟨[], by decide⟩

/-- A payload of one byte fits. -/
theorem Payload.length_seven_lt : ([7] : Bytes).length < 2 ^ 32 := by decide

/-- A record of the log. The source has this record under four names, as it
    travels: `AppendCommand` in the queue, `DiskRecord` in a segment,
    `CommittedRecord` in a commit callback and `StoredMessage` in an answer. -/
structure Record where
  offset : UInt64
  timestampMs : UInt64
  payload : Payload
  deriving DecidableEq

/-- The fixed part of a record on disk. -/
structure LogRecordHeader where
  offset : UInt64
  timestampMs : UInt64
  payloadSize : UInt32
  deriving DecidableEq

/-- An entry of the sparse index: where in the log the record of an offset starts. -/
structure IndexEntry where
  offset : UInt64
  filePosition : UInt64
  deriving DecidableEq

/-! ## Headers -/

/-- The header in memory, in network order. -/
def LogRecordHeader.encode (h : LogRecordHeader) : Bytes :=
  hostToBe64 h.offset ++ (hostToBe64 h.timestampMs ++ hostToBe32 h.payloadSize)

/-- The header with these bytes in memory, in host order. -/
def LogRecordHeader.decode (bs : Bytes) : LogRecordHeader where
  offset := be64ToHost (bs.take 8)
  timestampMs := be64ToHost ((bs.drop 8).take 8)
  payloadSize := be32ToHost ((bs.drop 16).take 4)

@[simp] theorem LogRecordHeader.length_encode (h : LogRecordHeader) :
    h.encode.length = logRecordHeaderSize := by
  simp [LogRecordHeader.encode, logRecordHeaderSize]

theorem LogRecordHeader.decode_encode (h : LogRecordHeader) (tl : Bytes) :
    decode (h.encode ++ tl) = h := by
  have h₁ : (h.encode ++ tl).take 8 = hostToBe64 h.offset := by
    simp [LogRecordHeader.encode]
  have h₂ : ((h.encode ++ tl).drop 8).take 8 = hostToBe64 h.timestampMs := by
    simp [LogRecordHeader.encode]
  have h₃ : (((h.encode ++ tl).drop 8).drop 8).take 4 = hostToBe32 h.payloadSize := by
    simp [LogRecordHeader.encode]
  rw [List.drop_drop] at h₃
  rw [decode, h₁, h₂, h₃, be64ToHost_hostToBe64, be64ToHost_hostToBe64, be32ToHost_hostToBe32]

theorem LogRecordHeader.encode_decode {bs : Bytes} (h : logRecordHeaderSize ≤ bs.length) :
    (decode bs).encode = bs.take logRecordHeaderSize := by
  rw [logRecordHeaderSize] at h
  have e₁ : hostToBe64 (be64ToHost (bs.take 8)) = bs.take 8 :=
    hostToBe64_be64ToHost (by simp; omega)
  have e₂ : hostToBe64 (be64ToHost ((bs.drop 8).take 8)) = (bs.drop 8).take 8 :=
    hostToBe64_be64ToHost (by simp; omega)
  have e₃ : hostToBe32 (be32ToHost ((bs.drop 16).take 4)) = (bs.drop 16).take 4 :=
    hostToBe32_be32ToHost (by simp; omega)
  have h₁₆ : bs.drop 16 = (bs.drop 8).drop 8 := by rw [List.drop_drop]
  rw [LogRecordHeader.encode, decode, e₁, e₂, e₃, h₁₆, ← List.take_add, ← List.take_add]
  rfl

/-! ## Records -/

/-- The first bytes of the input, as many as `size` says: a payload. -/
def Payload.take (size : UInt32) (bs : Bytes) : Payload where
  bytes := bs.take size.toNat
  length_lt := by
    have := size.toNat_lt
    rw [List.length_take]
    omega

/-- The size of a payload, as the header holds it. -/
def Payload.size (p : Payload) : UInt32 := UInt32.ofNat p.bytes.length

@[simp] theorem Payload.toNat_size (p : Payload) : p.size.toNat = p.bytes.length := by
  rw [Payload.size, UInt32.toNat_ofNat']
  exact Nat.mod_eq_of_lt p.length_lt

theorem Payload.take_append (p : Payload) (tl : Bytes) :
    Payload.take p.size (p.bytes ++ tl) = p := by
  cases p with
  | mk bytes length_lt =>
    rw [Payload.take, Payload.mk.injEq, Payload.toNat_size, List.take_left]

/-- The header `write_batch` puts in front of the payload. -/
def Record.header (r : Record) : LogRecordHeader := ⟨r.offset, r.timestampMs, r.payload.size⟩

/-- The bytes of a record on disk. -/
def Record.encode (r : Record) : Bytes := r.header.encode ++ r.payload.bytes

/-- The bytes a record takes on disk. -/
def Record.diskSize (r : Record) : ℕ := logRecordHeaderSize + r.payload.bytes.length

@[simp] theorem Record.length_encode (r : Record) : r.encode.length = r.diskSize := by
  rw [Record.encode, List.length_append, LogRecordHeader.length_encode, Record.diskSize]

/-- The record at the front of the input, unless its header or its payload is
    cut short. -/
def Record.next (bs : Bytes) : Option (Record × Bytes) :=
  if bs.length < logRecordHeaderSize then none
  else
    let h := LogRecordHeader.decode bs
    let tl := bs.drop logRecordHeaderSize
    if tl.length < h.payloadSize.toNat then none
    else some (⟨h.offset, h.timestampMs, .take h.payloadSize tl⟩, tl.drop h.payloadSize.toNat)

theorem Record.next_encode_append (r : Record) (tl : Bytes) :
    Record.next (r.encode ++ tl) = some (r, tl) := by
  have hlen : ¬(r.encode ++ tl).length < logRecordHeaderSize := by
    rw [List.length_append, Record.length_encode, Record.diskSize]
    omega
  have hdrop : (r.encode ++ tl).drop logRecordHeaderSize = r.payload.bytes ++ tl := by
    rw [Record.encode, List.append_assoc, List.drop_append_of_le_length (by simp),
      ← LogRecordHeader.length_encode r.header, List.drop_length, List.nil_append]
  have hdec : LogRecordHeader.decode (r.encode ++ tl) = r.header := by
    rw [Record.encode, List.append_assoc, LogRecordHeader.decode_encode]
  have hpay : ¬(r.payload.bytes ++ tl).length < r.payload.size.toNat := by simp
  rw [Record.next, if_neg hlen, hdec, hdrop]
  dsimp only [Record.header]
  rw [if_neg hpay, Payload.take_append, Payload.toNat_size, List.drop_left]

theorem Record.eq_encode_append {bs tl : Bytes} {r : Record} (h : Record.next bs = some (r, tl)) :
    bs = r.encode ++ tl := by
  rw [Record.next] at h
  split at h
  · exact absurd h (by simp)
  rename_i hlen
  dsimp only at h
  split at h
  · exact absurd h (by simp)
  rename_i hpay
  rw [Option.some.injEq, Prod.mk.injEq] at h
  obtain ⟨rfl, rfl⟩ := h
  set size := (LogRecordHeader.decode bs).payloadSize with hsize
  -- The size in the header is the number of payload bytes that are there.
  have hp : (Payload.take size (bs.drop logRecordHeaderSize)).size = size := by
    rw [← UInt32.toNat_inj, Payload.toNat_size, Payload.take, List.length_take]
    omega
  rw [Record.encode, Record.header, hp, List.append_assoc, Payload.take, List.take_append_drop,
    hsize]
  exact (List.take_append_drop logRecordHeaderSize bs).symm.trans
    (by rw [← LogRecordHeader.encode_decode (by omega)])

/-- The records of a log, one after the other. -/
def recordFormat : Format Record UInt8 where
  encode := Record.encode
  next := Record.next
  next_encode_append := Record.next_encode_append
  eq_encode_append := Record.eq_encode_append
  length_encode_pos r := by
    rw [Record.length_encode, Record.diskSize, logRecordHeaderSize]
    omega

/-! ## Index entries -/

/-- The bytes of an index entry on disk. -/
def IndexEntry.encode (e : IndexEntry) : Bytes := hostToBe64 e.offset ++ hostToBe64 e.filePosition

@[simp] theorem IndexEntry.length_encode (e : IndexEntry) : e.encode.length = indexEntrySize := by
  simp [IndexEntry.encode, indexEntrySize]

/-- The index entry at the front of the input, if it is there as a whole. -/
def IndexEntry.next (bs : Bytes) : Option (IndexEntry × Bytes) :=
  if bs.length < indexEntrySize then none
  else some (⟨be64ToHost (bs.take 8), be64ToHost ((bs.drop 8).take 8)⟩, bs.drop indexEntrySize)

theorem IndexEntry.next_encode_append (e : IndexEntry) (tl : Bytes) :
    IndexEntry.next (e.encode ++ tl) = some (e, tl) := by
  have hlen : ¬(e.encode ++ tl).length < indexEntrySize := by simp
  have h₁ : (e.encode ++ tl).take 8 = hostToBe64 e.offset := by simp [IndexEntry.encode]
  have h₂ : ((e.encode ++ tl).drop 8).take 8 = hostToBe64 e.filePosition := by
    simp [IndexEntry.encode]
  have h₃ : (e.encode ++ tl).drop indexEntrySize = tl := by
    rw [← IndexEntry.length_encode e, List.drop_left]
  rw [IndexEntry.next, if_neg hlen, h₁, h₂, h₃, be64ToHost_hostToBe64, be64ToHost_hostToBe64]

theorem IndexEntry.eq_encode_append {bs tl : Bytes} {e : IndexEntry}
    (h : IndexEntry.next bs = some (e, tl)) : bs = e.encode ++ tl := by
  rw [IndexEntry.next] at h
  split at h
  · exact absurd h (by simp)
  rename_i hlen
  rw [indexEntrySize] at hlen
  rw [Option.some.injEq, Prod.mk.injEq] at h
  obtain ⟨rfl, rfl⟩ := h
  have e₁ : hostToBe64 (be64ToHost (bs.take 8)) = bs.take 8 :=
    hostToBe64_be64ToHost (by simp; omega)
  have e₂ : hostToBe64 (be64ToHost ((bs.drop 8).take 8)) = (bs.drop 8).take 8 :=
    hostToBe64_be64ToHost (by simp; omega)
  rw [IndexEntry.encode, e₁, e₂, ← List.take_add]
  exact (List.take_append_drop 16 bs).symm

/-- The entries of an index, one after the other. -/
def indexFormat : Format IndexEntry UInt8 where
  encode := IndexEntry.encode
  next := IndexEntry.next
  next_encode_append := IndexEntry.next_encode_append
  eq_encode_append := IndexEntry.eq_encode_append
  length_encode_pos e := by
    rw [IndexEntry.length_encode, indexEntrySize]
    omega

theorem length_encodeAll_indexFormat (es : List IndexEntry) :
    (indexFormat.encodeAll es).length = indexEntrySize * es.length := by
  induction es with
  | nil => rfl
  | cons e es ih =>
    rw [Format.encodeAll_cons, List.length_append, ih, List.length_cons, Nat.mul_succ, Nat.add_comm]
    exact congrArg _ (IndexEntry.length_encode e)

/-! ## Numbered records -/

/-- The offsets of `rs` are `b`, `b + 1`, and so on. -/
def Numbered (b : ℕ) (rs : List Record) : Prop :=
  rs.map (fun r => r.offset.toNat) = List.range' b rs.length

instance (b : ℕ) (rs : List Record) : Decidable (Numbered b rs) :=
  inferInstanceAs (Decidable (_ = _))

theorem numbered_nil (b : ℕ) : Numbered b [] := rfl

theorem numbered_cons {b : ℕ} {r : Record} {rs : List Record} :
    Numbered b (r :: rs) ↔ r.offset.toNat = b ∧ Numbered (b + 1) rs := by
  rw [Numbered, List.map_cons, List.length_cons, List.range'_succ, List.cons.injEq, Numbered]

theorem numbered_append {b : ℕ} {rs rs' : List Record} :
    Numbered b (rs ++ rs') ↔ Numbered b rs ∧ Numbered (b + rs.length) rs' := by
  induction rs generalizing b with
  | nil => simp [numbered_nil]
  | cons r rs ih =>
    rw [List.cons_append, numbered_cons, numbered_cons, ih, List.length_cons, and_assoc,
      Nat.add_right_comm, Nat.add_assoc]

theorem Numbered.take {b : ℕ} {rs : List Record} (h : Numbered b rs) (n : ℕ) :
    Numbered b (rs.take n) := by
  rw [← List.take_append_drop n rs] at h
  exact (numbered_append.1 h).1

theorem Numbered.drop {b : ℕ} {rs : List Record} (h : Numbered b rs) {n : ℕ} (hn : n ≤ rs.length) :
    Numbered (b + n) (rs.drop n) := by
  rw [← List.take_append_drop n rs] at h
  simpa [List.length_take, Nat.min_eq_left hn] using (numbered_append.1 h).2

theorem Numbered.offset_getElem {b : ℕ} {rs : List Record} (h : Numbered b rs) {i : ℕ}
    (hi : i < rs.length) : rs[i].offset.toNat = b + i := by
  have := congrArg (fun l => l[i]?) h
  simpa [hi] using this

theorem Numbered.le_offset {b : ℕ} {rs : List Record} (h : Numbered b rs) {r : Record}
    (hr : r ∈ rs) : b ≤ r.offset.toNat := by
  obtain ⟨i, hi, rfl⟩ := List.getElem_of_mem hr
  rw [h.offset_getElem hi]
  exact Nat.le_add_right b i

theorem Numbered.offset_lt {b : ℕ} {rs : List Record} (h : Numbered b rs) {r : Record}
    (hr : r ∈ rs) : r.offset.toNat < b + rs.length := by
  obtain ⟨i, hi, rfl⟩ := List.getElem_of_mem hr
  rw [h.offset_getElem hi]
  omega

/-- The offset tells the record. -/
theorem Numbered.eq_of_offset {b : ℕ} {rs : List Record} (h : Numbered b rs) {r r' : Record}
    (hr : r ∈ rs) (hr' : r' ∈ rs) (heq : r.offset.toNat = r'.offset.toNat) : r = r' := by
  obtain ⟨i, hi, rfl⟩ := List.getElem_of_mem hr
  obtain ⟨j, hj, rfl⟩ := List.getElem_of_mem hr'
  rw [h.offset_getElem hi, h.offset_getElem hj] at heq
  obtain rfl : i = j := by omega
  rfl

end Fell.Storage
