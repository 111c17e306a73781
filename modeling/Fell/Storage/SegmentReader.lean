import Fell.Storage.LogFormat

/-!
# Reading a segment

The two loops that read a `.log` file (`storage/segment_reader.cpp`): `read`,
which serves fetches from a position given by the index, and `scan_valid`, which
recovery uses to find the end of the whole records. Both read a header, then
the payload it announces, and stop at the first record cut short; `read` skips
the payload of a record below the offset asked for without reading it.

On any file and from any position, both see the records that decode from there:

* `scanValid_eq`: `scan_valid` collects them all, and returns where they end;
* `read_eq`: `read` returns the first of those from the offset asked for on, so that
  the two agree (`read_eq_scanValid`).
-/

namespace Fell.Storage

open Platform

/-! ## Preads and records -/

variable {file : Bytes} {pos : ℕ}

theorem LogRecordHeader.decode_take (bs : Bytes) :
    decode (bs.take logRecordHeaderSize) = decode bs := by
  simp [decode, logRecordHeaderSize, List.take_take, List.drop_take]

/-- The header read at `pos`, in host order. -/
def headerAt (file : Bytes) (pos : ℕ) : LogRecordHeader :=
  .decode (preadFile file logRecordHeaderSize pos)

/-- The record read at `pos`, its payload behind its header. -/
def recordAt (file : Bytes) (pos : ℕ) : Record where
  offset := (headerAt file pos).offset
  timestampMs := (headerAt file pos).timestampMs
  payload := .take (headerAt file pos).payloadSize (file.drop (pos + logRecordHeaderSize))

/-- The header is cut short by the end of the file. -/
def ShortHeader (file : Bytes) (pos : ℕ) : Prop :=
  (preadFile file logRecordHeaderSize pos).length < logRecordHeaderSize

/-- The payload is cut short by the end of the file. -/
def ShortPayload (file : Bytes) (pos : ℕ) : Prop :=
  (preadFile file (headerAt file pos).payloadSize.toNat (pos + logRecordHeaderSize)).length <
    (headerAt file pos).payloadSize.toNat

instance : Decidable (ShortHeader file pos) := inferInstanceAs (Decidable (_ < _))
instance : Decidable (ShortPayload file pos) := inferInstanceAs (Decidable (_ < _))

/-- Where the record at `pos` ends, if it is there as a whole. -/
def endOfRecordAt (file : Bytes) (pos : ℕ) : ℕ :=
  pos + logRecordHeaderSize + (headerAt file pos).payloadSize.toNat

theorem lt_endOfRecordAt : pos < endOfRecordAt file pos := by
  rw [endOfRecordAt, logRecordHeaderSize]
  omega

theorem shortHeader_iff : ShortHeader file pos ↔ (file.drop pos).length < logRecordHeaderSize := by
  rw [ShortHeader, preadFile, List.length_take]
  omega

theorem shortPayload_iff : ShortPayload file pos ↔
    (file.drop (pos + logRecordHeaderSize)).length < (headerAt file pos).payloadSize.toNat := by
  rw [ShortPayload, preadFile, List.length_take]
  omega

theorem headerAt_eq : headerAt file pos = .decode (file.drop pos) := LogRecordHeader.decode_take _

theorem next_drop_of_shortHeader (h : ShortHeader file pos) :
    recordFormat.next (file.drop pos) = none :=
  if_pos (shortHeader_iff.1 h)

theorem next_drop_of_shortPayload (hp : ShortPayload file pos) :
    recordFormat.next (file.drop pos) = none := by
  change Record.next _ = none
  by_cases hh : ShortHeader file pos
  · exact next_drop_of_shortHeader hh
  · rw [Record.next, if_neg (shortHeader_iff.not.1 hh), ← headerAt_eq, List.drop_drop]
    exact if_pos (shortPayload_iff.1 hp)

theorem next_drop (hh : ¬ShortHeader file pos) (hp : ¬ShortPayload file pos) :
    recordFormat.next (file.drop pos) =
      some (recordAt file pos, file.drop (endOfRecordAt file pos)) := by
  change Record.next _ = _
  rw [Record.next, if_neg (shortHeader_iff.not.1 hh), ← headerAt_eq, List.drop_drop]
  exact (if_neg (shortPayload_iff.not.1 hp)).trans (by rw [List.drop_drop]; rfl)

/-- Behind a payload cut short, there is nothing. -/
theorem drop_endOfRecordAt (hp : ShortPayload file pos) :
    file.drop (endOfRecordAt file pos) = [] := by
  have := shortPayload_iff.1 hp
  rw [List.length_drop] at this
  exact List.drop_of_length_le (by rw [endOfRecordAt]; omega)

/-! ## Logs that are being written -/

variable {rs : List Record} {i : ℕ} {r : Record}

/-- A file that holds the front of some records, seen from the start of one of them. -/
theorem drop_append_of_isPrefix (hfile : file <+: recordFormat.encodeAll rs)
    (hpos : pos = (recordFormat.encodeAll (rs.take i)).length) (hle : pos ≤ file.length) :
    ∃ tl, file.drop pos ++ tl = recordFormat.encodeAll (rs.drop i) := by
  obtain ⟨tl, heq⟩ := hfile
  refine ⟨tl, ?_⟩
  rw [← Format.drop_encodeAll, ← heq, ← hpos, List.drop_append_of_le_length hle]

/-- The header at the start of a record is that of the record. -/
theorem headerAt_of_isPrefix (hfile : file <+: recordFormat.encodeAll rs)
    (hpos : pos = (recordFormat.encodeAll (rs.take i)).length) (hh : ¬ShortHeader file pos) :
    ∃ r, rs[i]? = some r ∧ headerAt file pos = r.header := by
  have hlen := shortHeader_iff.not.1 hh
  rw [List.length_drop, logRecordHeaderSize] at hlen
  obtain ⟨tl, heq⟩ := drop_append_of_isPrefix hfile hpos (by omega)
  cases hdrop : rs.drop i with
  | nil =>
    rw [hdrop, Format.encodeAll_nil, List.append_eq_nil_iff] at heq
    have := congrArg List.length heq.1
    rw [List.length_drop, List.length_nil] at this
    omega
  | cons r rest =>
    refine ⟨r, by rw [← List.head?_drop, hdrop, List.head?_cons], ?_⟩
    have htake : (file.drop pos).take logRecordHeaderSize =
        (file.drop pos ++ tl).take logRecordHeaderSize :=
      (List.take_append_of_le_length (by rw [List.length_drop, logRecordHeaderSize]; omega)).symm
    rw [headerAt_eq, ← LogRecordHeader.decode_take, htake, heq, hdrop, Format.encodeAll_cons,
      LogRecordHeader.decode_take]
    change LogRecordHeader.decode (r.header.encode ++ r.payload.bytes ++ _) = _
    rw [List.append_assoc, LogRecordHeader.decode_encode]

/-- The payload behind the header of a record is that of the record. -/
theorem payload_of_isPrefix (hfile : file <+: recordFormat.encodeAll rs)
    (hpos : pos = (recordFormat.encodeAll (rs.take i)).length) (hr : rs[i]? = some r)
    (hle : pos + logRecordHeaderSize + r.payload.bytes.length ≤ file.length) :
    Payload.take r.payload.size (file.drop (pos + logRecordHeaderSize)) = r.payload := by
  obtain ⟨tl, heq⟩ := drop_append_of_isPrefix hfile hpos (by omega)
  obtain ⟨hi, hget⟩ := List.getElem?_eq_some_iff.1 hr
  rw [List.drop_eq_getElem_cons hi, hget, Format.encodeAll_cons] at heq
  have hcut := congrArg (List.drop logRecordHeaderSize) heq
  rw [List.drop_append_of_le_length (by rw [List.length_drop]; omega), List.drop_drop] at hcut
  have hhdr : (recordFormat.encode r ++ recordFormat.encodeAll (rs.drop (i + 1))).drop
      logRecordHeaderSize = r.payload.bytes ++ recordFormat.encodeAll (rs.drop (i + 1)) := by
    change (r.header.encode ++ r.payload.bytes ++ _).drop _ = _
    rw [List.append_assoc, ← LogRecordHeader.length_encode r.header, List.drop_left]
  rw [hhdr] at hcut
  -- As many bytes as the payload has are there, and they agree with it.
  have htake : (file.drop (pos + logRecordHeaderSize)).take r.payload.size.toNat =
      r.payload.bytes := by
    have hlen : r.payload.size.toNat ≤ (file.drop (pos + logRecordHeaderSize)).length := by
      rw [Payload.toNat_size, List.length_drop]
      omega
    rw [← List.take_append_of_le_length hlen, hcut, Payload.toNat_size, List.take_left]
  exact Payload.ext htake

/-! ## `scan_valid` -/

/-- The loop of `scan_valid`. Every record takes the loop further into the file,
    so that it is done within as many rounds as there are bytes. -/
def scanValidLoop (file : Bytes) : ℕ → ℕ → List Record → ℕ × List Record
  | 0, currentPos, out => (currentPos, out)
  | fuel + 1, currentPos, out =>
    if ShortHeader file currentPos then (currentPos, out) -- EOF or partial header
    else if ShortPayload file currentPos then (currentPos, out) -- EOF or partial payload
    else scanValidLoop file fuel (endOfRecordAt file currentPos) (out ++ [recordAt file currentPos])

/-- `SegmentReader::scan_valid`: the position behind the last whole record, and
    the whole records from `fromPosition` on. -/
def scanValid (file : Bytes) (fromPosition : ℕ) : ℕ × List Record :=
  scanValidLoop file (file.length + 1) fromPosition []

/-- The bytes taken by the whole records at the front of the input. -/
def validLength (bs : Bytes) : ℕ := (recordFormat.encodeAll (recordFormat.decode bs)).length

theorem validLength_of_next {bs tl : Bytes} {r : Record} (h : recordFormat.next bs = some (r, tl)) :
    validLength bs = r.diskSize + validLength tl := by
  rw [validLength, Format.decode_of_next h, Format.encodeAll_cons, List.length_append, validLength]
  exact congrArg (· + _) (Record.length_encode r)

theorem validLength_of_none {bs : Bytes} (h : recordFormat.next bs = none) :
    validLength bs = 0 := by
  rw [validLength, Format.decode_of_none h]
  rfl

theorem take_validLength (log : Bytes) :
    log.take (validLength log) = recordFormat.encodeAll (recordFormat.decode log) := by
  have hsplit : recordFormat.encodeAll (recordFormat.decode log) ++ recordFormat.rest log = log :=
    Format.encodeAll_decode_append_rest log
  exact (congrArg (List.take (validLength log)) hsplit).symm.trans List.take_left

theorem validLength_le (log : Bytes) : validLength log ≤ log.length := by
  conv_rhs => rw [← Format.encodeAll_decode_append_rest (F := recordFormat) log,
    List.length_append]
  exact Nat.le_add_right _ _

theorem endOfRecordAt_eq (hp : ¬ShortPayload file pos) :
    endOfRecordAt file pos = pos + (recordAt file pos).diskSize := by
  have := shortPayload_iff.not.1 hp
  rw [endOfRecordAt, Record.diskSize, recordAt, Payload.take, List.length_take]
  omega

theorem scanValidLoop_eq {fuel : ℕ} (hfuel : file.length < pos + fuel) (out : List Record) :
    scanValidLoop file fuel pos out =
      (pos + validLength (file.drop pos), out ++ recordFormat.decode (file.drop pos)) := by
  induction fuel generalizing pos out with
  | zero =>
    have hnil : file.drop pos = [] := List.drop_of_length_le (by omega)
    rw [hnil, scanValidLoop, validLength_of_none Format.next_nil, Format.decode_nil]
    simp
  | succ fuel ih =>
    rw [scanValidLoop]
    split_ifs with hh hp
    · rw [validLength_of_none (next_drop_of_shortHeader hh),
        Format.decode_of_none (next_drop_of_shortHeader hh), List.append_nil, Nat.add_zero]
    · rw [validLength_of_none (next_drop_of_shortPayload hp),
        Format.decode_of_none (next_drop_of_shortPayload hp), List.append_nil, Nat.add_zero]
    · have hlt := @lt_endOfRecordAt file pos
      rw [ih (by omega), validLength_of_next (next_drop hh hp),
        Format.decode_of_next (next_drop hh hp), endOfRecordAt_eq hp, List.append_assoc,
        Nat.add_assoc]
      rfl

/-- `scan_valid` collects the records that decode from its position, and ends
    behind them. -/
theorem scanValid_eq (file : Bytes) (pos : ℕ) :
    scanValid file pos =
      (pos + validLength (file.drop pos), recordFormat.decode (file.drop pos)) :=
  scanValidLoop_eq (by omega) []

theorem scanValid_zero (file : Bytes) :
    scanValid file 0 = (validLength file, recordFormat.decode file) := by
  rw [scanValid_eq, List.drop_zero, Nat.zero_add]

/-! ## `read` -/

/-- The loop of `read`. It may skip over the end of the file, and stops there. -/
def readLoop (file : Bytes) (startOffset : UInt64) (maxCount : ℕ) :
    ℕ → ℕ → List Record → List Record
  | 0, _, records => records
  | fuel + 1, currentPos, records =>
    if records.length < maxCount then
      if ShortHeader file currentPos then records -- EOF or partial header
      else if (headerAt file currentPos).offset < startOffset then
        -- Skip the payload read entirely: this record is not asked for.
        readLoop file startOffset maxCount fuel (endOfRecordAt file currentPos) records
      else if ShortPayload file currentPos then records -- EOF or partial payload
      else
        readLoop file startOffset maxCount fuel (endOfRecordAt file currentPos)
          (records ++ [recordAt file currentPos])
    else records

/-- `SegmentReader::read`: up to `maxCount` records with an offset from
    `startOffset` on, found from `filePosition` on. -/
def read (file : Bytes) (filePosition : ℕ) (startOffset : UInt64) (maxCount : ℕ) : List Record :=
  readLoop file startOffset maxCount (file.length + 1) filePosition []

/-- The records asked for by a read from `o` on. -/
def fromOffset (o : UInt64) (rs : List Record) : List Record := rs.filter fun r => o ≤ r.offset

theorem fromOffset_cons_of_lt {o : UInt64} {r : Record} (h : r.offset < o) (rs : List Record) :
    fromOffset o (r :: rs) = fromOffset o rs :=
  List.filter_cons_of_neg (by simpa using h)

theorem fromOffset_cons_of_le {o : UInt64} {r : Record} (h : ¬r.offset < o) (rs : List Record) :
    fromOffset o (r :: rs) = r :: fromOffset o rs :=
  List.filter_cons_of_pos (by simpa using h)

/-- Among numbered records, those from `o` on are a final part. -/
theorem fromOffset_of_numbered {b : ℕ} {rs : List Record} (h : Numbered b rs) (o : UInt64) :
    fromOffset o rs = rs.drop (o.toNat - b) := by
  induction rs generalizing b with
  | nil => simp [fromOffset]
  | cons r rs ih =>
    obtain ⟨hr, hrs⟩ := numbered_cons.1 h
    by_cases hlt : r.offset < o
    · rw [fromOffset_cons_of_lt hlt, ih hrs]
      rw [UInt64.lt_iff_toNat_lt, hr] at hlt
      rw [show o.toNat - b = (o.toNat - (b + 1)) + 1 by omega, List.drop_succ_cons]
    · rw [fromOffset_cons_of_le hlt, ih hrs]
      rw [UInt64.lt_iff_toNat_lt, hr] at hlt
      rw [show o.toNat - b = 0 by omega, show o.toNat - (b + 1) = 0 by omega]
      rfl

theorem readLoop_eq {o : UInt64} {n fuel : ℕ} (hfuel : file.length < pos + fuel)
    {records : List Record} (hle : records.length ≤ n) :
    readLoop file o n fuel pos records =
      records ++
        (fromOffset o (recordFormat.decode (file.drop pos))).take (n - records.length) := by
  induction fuel generalizing pos records with
  | zero =>
    have hnil : file.drop pos = [] := List.drop_of_length_le (by omega)
    simp [readLoop, hnil, fromOffset]
  | succ fuel ih =>
    have hlt := @lt_endOfRecordAt file pos
    rw [readLoop]
    split_ifs with hn hh hskip hp
    -- There is no whole header; a record to skip; no whole payload; a record to return; enough.
    · rw [Format.decode_of_none (next_drop_of_shortHeader hh)]
      simp [fromOffset]
    · rw [ih (by omega) hle]
      by_cases hp : ShortPayload file pos
      · -- A payload that is not read may be cut short: then nothing follows it.
        rw [drop_endOfRecordAt hp, Format.decode_nil,
          Format.decode_of_none (next_drop_of_shortPayload hp)]
      · rw [Format.decode_of_next (next_drop hh hp), fromOffset_cons_of_lt hskip]
    · rw [Format.decode_of_none (next_drop_of_shortPayload hp)]
      simp [fromOffset]
    · obtain ⟨m, hm⟩ : ∃ m, n - records.length = m + 1 := ⟨n - records.length - 1, by omega⟩
      have hm' : n - (records ++ [recordAt file pos]).length = m := by
        rw [List.length_append, List.length_singleton]
        omega
      rw [ih (by omega) (by rw [List.length_append, List.length_singleton]; omega),
        Format.decode_of_next (next_drop hh hp), fromOffset_cons_of_le hskip, hm, hm',
        List.take_succ_cons, List.append_assoc, List.singleton_append]
    · obtain rfl : records.length = n := by omega
      simp

/-- `read` returns the first records from the offset asked for on, among those
    that decode from its position. -/
theorem read_eq (file : Bytes) (pos : ℕ) (o : UInt64) (n : ℕ) :
    read file pos o n = (fromOffset o (recordFormat.decode (file.drop pos))).take n := by
  rw [read, readLoop_eq (by omega) (Nat.zero_le n)]
  rfl

/-- The two loops agree: what a read returns is the first of what a scan from the same
    position collects, without the records below the offset asked for. -/
theorem read_eq_scanValid (file : Bytes) (pos : ℕ) (o : UInt64) (n : ℕ) :
    read file pos o n = ((scanValid file pos).2.filter fun r => o ≤ r.offset).take n := by
  rw [read_eq, scanValid_eq, fromOffset]

end Fell.Storage
