import Fell.Broker.Protocol

/-!
# The frame decoder

`FrameDecoder` (`broker/frame_decoder.cpp`) cuts the bytes received on a client
connection into frames. It keeps what it has received in `buf_`, of which the
first `read_idx_` bytes are used up; they are erased when they get many.

Frames are length-prefixed messages (`Lib.LengthPrefixed`), whose tag is the
opcode. A decoder that has been given part of a stream of such messages holds the
rest of it (`Holds`), so what it emits chunk by chunk is what the stream decodes to.

* `round_scan`: what a round of the loop of `push` does, whatever the bytes;
* `scan_of_front`: on a stream, the loop emits the whole frames.
-/

namespace Fell.Broker

open Platform

/-- `Frame`. -/
structure Frame where
  op : Op
  payload : Bytes
  deriving DecidableEq

namespace Frame

/-- The frame as `encode_frame` writes it. -/
def encode (f : Frame) : Bytes := encodeFrame f.op f.payload

/-- The frame with the tag of a message for its opcode. -/
def ofMessage (m : Message 4) : Frame := ⟨⟨m.tag⟩, m.body⟩

/-- The length of the frame fits the length field. -/
def Fits (f : Frame) : Prop := f.payload.length + 1 < 2 ^ 32

/-- The length field that `encode_frame` writes. -/
def lengthField (f : Frame) : UInt32 := 1 + UInt32.ofNat f.payload.length

theorem toNat_lengthField (m : Message 4) :
    (ofMessage m).lengthField.toNat = m.body.length + 1 := by
  have hlt : m.body.length + 1 < 2 ^ 32 := m.length_lt
  rw [lengthField, ofMessage, UInt32.toNat_add, UInt32.toNat_ofNat',
    Nat.mod_eq_of_lt (a := m.body.length) (by omega), Nat.add_comm]
  exact Nat.mod_eq_of_lt hlt

@[simp] theorem encode_ofMessage (m : Message 4) : (ofMessage m).encode = m.encode := by
  rw [encode, encodeFrame, ofMessage, hostToBe32, Message.encode]
  exact congrArg (Positional.beBytes 4 · ++ m.tag :: m.body) (toNat_lengthField m)

theorem exists_ofMessage {fs : List Frame} (h : ∀ f ∈ fs, f.Fits) :
    ∃ ms : List (Message 4), ms.map ofMessage = fs := by
  induction fs with
  | nil => exact ⟨[], rfl⟩
  | cons f fs ih =>
    obtain ⟨ms, rfl⟩ := ih fun g hg => h g (List.mem_cons_of_mem _ hg)
    exact ⟨⟨f.op.toByte, f.payload, h f List.mem_cons_self⟩ :: ms, rfl⟩

/-- The frames that are fully contained in the first `n` bytes of their encodings. -/
def within : List Frame → ℕ → List Frame
  | [], _ => []
  | f :: fs, n => if f.encode.length ≤ n then f :: within fs (n - f.encode.length) else []

theorem within_map_ofMessage (ms : List (Message 4)) (n : ℕ) :
    within (ms.map ofMessage) n = ((lengthPrefixed 4).within ms n).map ofMessage := by
  induction ms generalizing n with
  | nil => rfl
  | cons m ms ih =>
    rw [List.map_cons, within, Format.within, encode_ofMessage, ih, lengthPrefixed_encode]
    split <;> rfl

theorem flatMap_encode_map_ofMessage (ms : List (Message 4)) :
    (ms.map ofMessage).flatMap encode = (lengthPrefixed 4).encodeAll ms := by
  rw [List.flatMap_map, Format.encodeAll]
  exact List.flatMap_congr fun m _ => encode_ofMessage m

end Frame

/-- A difference of values of type `size_t`. -/
def sizeSub (a b : ℕ) : ℕ := if b ≤ a then a - b else a + 2 ^ 64 - b

/-- `FrameDecoder`. -/
structure FrameDecoder where
  maxFrameSize : UInt64
  buf : Bytes := []
  readIdx : ℕ := 0

namespace FrameDecoder

/-- How the loop of `push` ends. -/
inductive Stop
  /-- There is no whole frame left. -/
  | incomplete
  /-- The next length is zero. -/
  | zeroLength
  /-- The next length is too large. -/
  | tooLarge
  deriving DecidableEq

/-- What the loop of `push` leaves. -/
structure Scan where
  out : List Frame
  count : ℤ
  cursor : ℕ
  stop : Stop

/-- The loop of `push`, from `cursor` on. -/
def scan (maxFrameSize : UInt64) (buf : Bytes) : ℕ → ℕ → Scan
  | 0, cursor => ⟨[], 0, cursor, .incomplete⟩
  | fuel + 1, cursor =>
    if sizeSub buf.length cursor < 4 then ⟨[], 0, cursor, .incomplete⟩
    else
      let frameLen := be32ToHost ((buf.drop cursor).take 4)
      if frameLen < 1 then ⟨[], 0, cursor, .zeroLength⟩
      else if maxFrameSize < frameLen.toUInt64 then ⟨[], 0, cursor, .tooLarge⟩
      else if sizeSub buf.length cursor < 4 + frameLen.toNat then ⟨[], 0, cursor, .incomplete⟩
      else
        let f : Frame :=
          ⟨⟨(buf.drop (cursor + 4)).headD 0⟩, (buf.drop (cursor + 5)).take (frameLen.toNat - 1)⟩
        let r := scan maxFrameSize buf fuel (cursor + (4 + frameLen.toNat))
        { r with out := f :: r.out, count := r.count + 1 }

/-- Erases the bytes that are used up. -/
def compact (d : FrameDecoder) : FrameDecoder :=
  if 8192 ≤ d.readIdx then { d with buf := d.buf.drop d.readIdx, readIdx := 0 } else d

/-- `push`: the value returned, the frames emitted, and the decoder afterwards. At a
    length of zero the buffer is cleared, but `read_idx_` is set to the cursor after
    that, as at any other end of the loop. -/
def push (d : FrameDecoder) (data : Bytes) : ℤ × List Frame × FrameDecoder :=
  if (d.maxFrameSize + 4096).toNat < (sizeSub d.buf.length d.readIdx + data.length) % 2 ^ 64 then
    (-1, [], d)
  else
    let buf := d.buf ++ data
    let r := scan d.maxFrameSize buf (buf.length + 1) d.readIdx
    match r.stop with
    | .tooLarge => (-1, r.out, { d with buf := buf })
    | .zeroLength => (r.count, r.out, compact { d with buf := [], readIdx := r.cursor })
    | .incomplete => (r.count, r.out, compact { d with buf := buf, readIdx := r.cursor })

/-- What `push` returns and emits for each of the chunks in turn. -/
def pushAll : FrameDecoder → List Bytes → List (ℤ × List Frame)
  | _, [] => []
  | d, data :: chunks => ((d.push data).1, (d.push data).2.1) :: pushAll (d.push data).2.2 chunks

theorem pushAll_take (d : FrameDecoder) (chunks : List Bytes) (n : ℕ) :
    d.pushAll (chunks.take n) = (d.pushAll chunks).take n := by
  induction chunks generalizing d n with
  | nil => simp [pushAll]
  | cons data chunks ih =>
    cases n with
    | zero => rfl
    | succ n => simp only [List.take_succ_cons, pushAll, ih]

/-! ## Streams of frames -/

/-- The bytes are the front of a stream of frames of at most the given size. -/
def Front (maxFrameSize : UInt64) (bs : Bytes) : Prop :=
  ∃ (ms : List (Message 4)) (tl : Bytes), bs ++ tl = (lengthPrefixed 4).encodeAll ms ∧
    ∀ m ∈ ms, m.body.length + 1 ≤ maxFrameSize.toNat

variable {maxFrameSize : UInt64}

theorem Front.of_append {bs bs' : Bytes} (h : Front maxFrameSize (bs ++ bs')) :
    Front maxFrameSize bs := by
  obtain ⟨ms, tl, heq, hms⟩ := h
  exact ⟨ms, bs' ++ tl, by rw [← List.append_assoc, heq], hms⟩

/-- Behind the whole frames received, the stream goes on with a frame. -/
theorem Front.rest_append {bs bs' : Bytes} (h : Front maxFrameSize (bs ++ bs')) :
    Front maxFrameSize ((lengthPrefixed 4).rest bs ++ bs') := by
  obtain ⟨ms, tl, heq, hms⟩ := h
  rw [List.append_assoc] at heq
  obtain ⟨ms', rfl, hrest⟩ := Format.exists_rest_append heq
  exact ⟨ms', tl, by rw [List.append_assoc, hrest], fun m hm =>
    hms m (List.mem_append_right _ hm)⟩

/-- What follows a frame of the stream is a stream. -/
theorem Front.of_next {bs tl : Bytes} {m : Message 4} (h : Front maxFrameSize bs)
    (hnext : (lengthPrefixed 4).next bs = some (m, tl)) : Front maxFrameSize tl := by
  have hrest : (lengthPrefixed 4).rest m.encode = [] := by
    have := Format.rest_of_next ((lengthPrefixed 4).next_encode_append m [])
    rwa [List.append_nil, Format.rest_of_none Format.next_nil] at this
  rw [(lengthPrefixed 4).eq_encode_append hnext] at h
  simpa [hrest] using h.rest_append

/-- A length field of the stream is that of a frame. -/
theorem Front.size_bounds {bs : Bytes} (h : Front maxFrameSize bs) (hlen : 4 ≤ bs.length) :
    0 < Message.size 4 bs ∧ Message.size 4 bs ≤ maxFrameSize.toNat := by
  obtain ⟨ms, tl, heq, hms⟩ := h
  cases ms with
  | nil =>
    have hnil : bs = [] := (List.append_eq_nil_iff.1 heq).1
    rw [hnil] at hlen
    exact absurd hlen (by simp)
  | cons m ms =>
    have hsize : Message.size 4 bs = m.body.length + 1 := by
      rw [← Message.size_encode_append m ((lengthPrefixed 4).encodeAll ms),
        ← lengthPrefixed_encode, ← Format.encodeAll_cons, ← heq, Message.size, Message.size,
        List.take_append_of_le_length hlen]
    rw [hsize]
    exact ⟨Nat.succ_pos _, hms m List.mem_cons_self⟩

/-! ## The loop on a stream -/

theorem sizeSub_of_le {a b : ℕ} (h : b ≤ a) : sizeSub a b = a - b := if_pos h

/-- The loop stops in front of the bytes `bs` in this way. -/
def Stops (maxFrameSize : UInt64) (bs : Bytes) : Stop → Prop
  | .incomplete => ¬Message.Whole 4 bs ∧ (4 ≤ bs.length → Message.size 4 bs ≠ 0)
  | .zeroLength => 4 ≤ bs.length ∧ Message.size 4 bs = 0
  | .tooLarge => 4 ≤ bs.length ∧ maxFrameSize.toNat < Message.size 4 bs

/-- What the loop leaves when it has emitted a frame and gone on. -/
def Scan.emit (f : Frame) (r : Scan) : Scan := { r with out := f :: r.out, count := r.count + 1 }

/-- The ways a round of the loop can go: a whole frame of the allowed size is emitted, and the loop
    goes on behind it, or it stops. -/
inductive Round (maxFrameSize : UInt64) (buf : Bytes) (fuel cursor : ℕ) : Scan → Prop
  | emit (hw : Message.Whole 4 (buf.drop cursor))
      (hmax : Message.size 4 (buf.drop cursor) ≤ maxFrameSize.toNat) :
      Round maxFrameSize buf fuel cursor
        (.emit (.ofMessage (.first _ hw))
          (scan maxFrameSize buf fuel (cursor + (4 + Message.size 4 (buf.drop cursor)))))
  | stop {stop : Stop} (h : Stops maxFrameSize (buf.drop cursor) stop) :
      Round maxFrameSize buf fuel cursor ⟨[], 0, cursor, stop⟩

theorem round_scan {buf : Bytes} {cursor : ℕ} (h : cursor ≤ buf.length) (maxFrameSize : UInt64)
    (fuel : ℕ) : Round maxFrameSize buf fuel cursor (scan maxFrameSize buf (fuel + 1) cursor) := by
  have hlen : sizeSub buf.length cursor = (buf.drop cursor).length := by
    rw [sizeSub_of_le h, List.length_drop]
  have hsize := toNat_be32ToHost_take (buf.drop cursor)
  have hzero : be32ToHost ((buf.drop cursor).take 4) < 1 ↔
      Message.size 4 (buf.drop cursor) = 0 := by
    rw [UInt32.lt_iff_toNat_lt, hsize]
    exact Nat.lt_one_iff
  have hlarge : maxFrameSize < (be32ToHost ((buf.drop cursor).take 4)).toUInt64 ↔
      maxFrameSize.toNat < Message.size 4 (buf.drop cursor) := by
    rw [UInt64.lt_iff_toNat_lt, UInt32.toNat_toUInt64, hsize]
  rw [scan]
  simp only [hlen, hzero, hlarge, hsize]
  split_ifs with hshort hz hl htorn
  · exact .stop ⟨fun hw => absurd hw.2 (by omega), fun hle => absurd hshort (Nat.not_lt.2 hle)⟩
  · exact .stop ⟨Nat.le_of_not_lt hshort, hz⟩
  · exact .stop ⟨Nat.le_of_not_lt hshort, hl⟩
  · exact .stop ⟨fun hw => absurd hw.2 (Nat.not_le.2 htorn), fun _ => hz⟩
  · have hw : Message.Whole 4 (buf.drop cursor) :=
      ⟨Nat.pos_of_ne_zero hz, Nat.le_of_not_lt htorn⟩
    have hround := @Round.emit maxFrameSize buf fuel cursor hw (Nat.le_of_not_lt hl)
    simpa only [Scan.emit, Frame.ofMessage, Message.first, List.drop_drop] using hround

/-- On a stream, the loop emits the whole frames and stops in front of the rest. -/
theorem scan_of_front {buf : Bytes} {fuel cursor : ℕ}
    (h : Front maxFrameSize (buf.drop cursor)) (hcursor : cursor ≤ buf.length)
    (hfuel : buf.length < fuel + cursor) :
    ∃ stop ≤ buf.length, buf.drop stop = (lengthPrefixed 4).rest (buf.drop cursor) ∧
      scan maxFrameSize buf fuel cursor =
        ⟨((lengthPrefixed 4).decode (buf.drop cursor)).map Frame.ofMessage,
          ((lengthPrefixed 4).decode (buf.drop cursor)).length, stop, .incomplete⟩ := by
  induction fuel generalizing cursor with
  | zero => omega
  | succ fuel ih =>
    have hround := round_scan hcursor maxFrameSize fuel
    generalize scan maxFrameSize buf (fuel + 1) cursor = r at hround
    cases hround with
    | emit hw hmax =>
      have hnext := lengthPrefixed_next_of_whole hw
      have hle := hw.2
      rw [List.length_drop] at hle
      rw [List.drop_drop] at hnext
      obtain ⟨stop, hstop, hdrop, hscan⟩ := ih (h.of_next hnext) (by omega) (by omega)
      refine ⟨stop, hstop, by rw [hdrop, Format.rest_of_next hnext], ?_⟩
      rw [hscan, Format.decode_of_next hnext, Scan.emit, List.map_cons, List.length_cons,
        Nat.cast_succ]
    | @stop stop hstops =>
      cases stop with
      | incomplete =>
        have hnext := lengthPrefixed_next_of_not_whole hstops.1
        refine ⟨cursor, hcursor, (Format.rest_of_none hnext).symm, ?_⟩
        rw [Format.decode_of_none hnext]
        rfl
      -- A stream has no lengths that are zero or too large.
      | zeroLength => exact absurd hstops.2 (h.size_bounds hstops.1).1.ne'
      | tooLarge => exact absurd hstops.2 (Nat.not_lt.2 (h.size_bounds hstops.1).2)

/-! ## Pushing a stream -/

/-- The bytes of a frame that has been received in part. -/
def unframed (bs : Bytes) : Bytes := (lengthPrefixed 4).rest bs

/-- The decoder has been given the bytes `bs` of a stream: what it has not used up are
    those behind the last whole frame. -/
structure Holds (d : FrameDecoder) (maxFrameSize : UInt64) (bs : Bytes) : Prop where
  maxFrameSize_eq : d.maxFrameSize = maxFrameSize
  readIdx_le : d.readIdx ≤ d.buf.length
  drop_eq : d.buf.drop d.readIdx = unframed bs

theorem holds_new (maxFrameSize : UInt64) :
    ({ maxFrameSize := maxFrameSize } : FrameDecoder).Holds maxFrameSize [] :=
  ⟨rfl, Nat.le_refl 0, (Format.rest_of_none Format.next_nil).symm⟩

variable {d : FrameDecoder} {bs data : Bytes}

/-- Erasing what is used up changes nothing else. -/
theorem Holds.compact (h : d.Holds maxFrameSize bs) : d.compact.Holds maxFrameSize bs := by
  rw [FrameDecoder.compact]
  split
  · exact ⟨h.maxFrameSize_eq, Nat.zero_le _, h.drop_eq⟩
  · exact h

theorem Holds.sizeSub_eq (h : d.Holds maxFrameSize bs) :
    sizeSub d.buf.length d.readIdx = (unframed bs).length := by
  rw [sizeSub_of_le h.readIdx_le, ← h.drop_eq, List.length_drop]

theorem Holds.push_of_lt (h : d.Holds maxFrameSize bs)
    (hlt : (maxFrameSize + 4096).toNat < ((unframed bs).length + data.length) % 2 ^ 64) :
    (d.push data).1 = -1 := by
  rw [push, h.maxFrameSize_eq, h.sizeSub_eq, if_pos hlt]

/-- A push that is not refused emits the frames that are whole now. -/
theorem Holds.push_of_le (h : d.Holds maxFrameSize bs) (hfront : Front maxFrameSize (bs ++ data))
    (hle : ((unframed bs).length + data.length) % 2 ^ 64 ≤ (maxFrameSize + 4096).toNat) :
    ∃ d' : FrameDecoder, d'.Holds maxFrameSize (bs ++ data) ∧
      d.push data = ((((lengthPrefixed 4).decode (unframed bs ++ data)).length : ℤ),
        ((lengthPrefixed 4).decode (unframed bs ++ data)).map Frame.ofMessage, d') := by
  have hdrop : (d.buf ++ data).drop d.readIdx = unframed bs ++ data := by
    rw [List.drop_append_of_le_length h.readIdx_le, h.drop_eq]
  have hfront' : Front maxFrameSize ((d.buf ++ data).drop d.readIdx) :=
    hdrop ▸ hfront.rest_append
  have hidx : d.readIdx ≤ (d.buf ++ data).length := by
    have := h.readIdx_le
    rw [List.length_append]
    omega
  obtain ⟨stop, hstop, hrest, hscan⟩ := scan_of_front hfront' hidx
    (Nat.lt_of_lt_of_le (Nat.lt_succ_self _) (Nat.le_add_right _ _))
  rw [hdrop] at hrest hscan
  refine ⟨_, Holds.compact (d := { d with buf := d.buf ++ data, readIdx := stop })
    ⟨h.maxFrameSize_eq, hstop, ?_⟩, ?_⟩
  · rw [hrest, unframed, unframed, ← Format.rest_append]
  · simp only [push, h.maxFrameSize_eq, h.sizeSub_eq, if_neg (Nat.not_lt.2 hle), hscan]

/-- A decoder with nothing unread emits whole frames, and has nothing unread again. -/
theorem Holds.push_encodeAll {ms : List (Message 4)} (h : d.Holds maxFrameSize [])
    (hms : ∀ m ∈ ms, m.body.length + 1 ≤ maxFrameSize.toNat)
    (hle : ((lengthPrefixed 4).encodeAll ms).length ≤ (maxFrameSize + 4096).toNat) :
    ∃ d' : FrameDecoder, d'.Holds maxFrameSize [] ∧
      d.push ((lengthPrefixed 4).encodeAll ms) =
        ((ms.length : ℤ), ms.map Frame.ofMessage, d') := by
  have hnil : unframed [] = [] := Format.rest_of_none Format.next_nil
  have hrest : unframed ((lengthPrefixed 4).encodeAll ms) = unframed [] := by
    rw [unframed, ← List.append_nil ((lengthPrefixed 4).encodeAll ms), Format.rest_encodeAll_append,
      unframed]
  have hfront : Front maxFrameSize ([] ++ (lengthPrefixed 4).encodeAll ms) :=
    ⟨ms, [], List.append_nil _, hms⟩
  obtain ⟨d', h', hpush⟩ := h.push_of_le hfront (by
    rw [hnil, List.length_nil, Nat.zero_add]
    exact (Nat.mod_le _ _).trans hle)
  rw [hnil, List.nil_append, Format.decode_encodeAll] at hpush
  rw [List.nil_append] at h'
  exact ⟨d', ⟨h'.maxFrameSize_eq, h'.readIdx_le, h'.drop_eq.trans hrest⟩, hpush⟩

/-- The pushes that are not refused emit, one after the other, the frames of the stream. -/
theorem Holds.pushAll {chunks : List Bytes} (h : d.Holds maxFrameSize bs)
    (hfront : Front maxFrameSize (bs ++ chunks.flatten))
    (hok : ∀ r ∈ d.pushAll chunks, r.1 ≠ -1) :
    ((lengthPrefixed 4).decode bs).map Frame.ofMessage ++ (d.pushAll chunks).flatMap (·.2) =
        ((lengthPrefixed 4).decode (bs ++ chunks.flatten)).map Frame.ofMessage ∧
      ∀ r ∈ d.pushAll chunks, r.1 = r.2.length := by
  induction chunks generalizing d bs with
  | nil => simp [FrameDecoder.pushAll]
  | cons data chunks ih =>
    rw [List.flatten_cons, ← List.append_assoc] at hfront
    rw [FrameDecoder.pushAll, List.forall_mem_cons] at hok
    have hle := Nat.le_of_not_lt (mt h.push_of_lt hok.1)
    obtain ⟨d', h', hpush⟩ := h.push_of_le hfront.of_append hle
    simp only [hpush] at hok
    obtain ⟨hemit, hcount⟩ := ih h' hfront hok.2
    simp only [FrameDecoder.pushAll, hpush, List.flatMap_cons, List.flatten_cons,
      List.forall_mem_cons, List.length_map]
    refine ⟨?_, trivial, hcount⟩
    rw [← List.append_assoc bs, ← hemit, Format.decode_append bs, unframed, List.map_append,
      List.append_assoc]

/-- What the pushes of `chunks` to a new decoder return and emit. -/
def decodeChunks (maxFrameSize : UInt64) (chunks : List Bytes) : List (ℤ × List Frame) :=
  pushAll { maxFrameSize := maxFrameSize } chunks

/-- After any number of the chunks, the frames emitted are those fully contained in the
    bytes pushed, and every push has returned how many it emitted. -/
def Inverts (maxFrameSize : UInt64) (fs : List Frame) (chunks : List Bytes) : Prop :=
  ∀ n, (decodeChunks maxFrameSize (chunks.take n)).flatMap (·.2) =
      Frame.within fs (chunks.take n).flatten.length ∧
    ∀ r ∈ decodeChunks maxFrameSize (chunks.take n), r.1 = r.2.length

/-- A request with a payload of one byte. -/
def ping : Frame := ⟨.metadataReq, [0]⟩

/-- The loop on a frame without a payload, with zeros behind it. -/
theorem scan_zeros {n fuel : ℕ} (hn : 4 ≤ n) (hmax : 1 ≤ maxFrameSize) (op : Op) :
    scan maxFrameSize (hostToBe32 1 ++ op.toByte :: List.replicate n 0) (fuel + 2) 0 =
      ⟨[⟨op, []⟩], 1, 5, .zeroLength⟩ := by
  obtain ⟨k, rfl⟩ := Nat.exists_eq_add_of_le hn
  have hbytes : hostToBe32 1 = [0, 0, 0, 1] := by decide
  have hone : be32ToHost [0, 0, 0, 1] = 1 := by decide
  have hzero : be32ToHost [0, 0, 0, 0] = 0 := by decide
  have hfit : ¬ maxFrameSize < 1 := UInt64.not_lt.2 hmax
  have hlen : ([0, 0, 0, 1] ++ op.toByte :: List.replicate (4 + k) (0 : UInt8)).length = k + 9 := by
    simp only [List.length_append, List.length_cons, List.length_nil, List.length_replicate]
    omega
  have hlong : ¬ k + 9 < 4 ∧ ¬ k + 9 < 5 := by omega
  have hbehind : ¬ sizeSub (k + 9) 5 < 4 := by
    rw [sizeSub_of_le (by omega)]
    omega
  -- Behind the frame, the loop finds a length of zero.
  have hnext : scan maxFrameSize ([0, 0, 0, 1] ++ op.toByte :: List.replicate (4 + k) 0)
      (fuel + 1) 5 = ⟨[], 0, 5, .zeroLength⟩ := by
    rw [scan, hlen, if_neg hbehind]
    simp [hzero, List.replicate_add]
  rw [hbytes, scan, hlen, sizeSub_of_le (Nat.zero_le _), Nat.sub_zero, if_neg hlong.1]
  simp only [List.drop_zero, List.cons_append, List.nil_append] at hnext ⊢
  simp [hone, hfit, hlong.2, hnext]

/-- A frame with a payload of `n` zeros. -/
def zeros (n : ℕ) : Frame := ⟨.publish, List.replicate n 0⟩

/-- The payload is lost if its length disappears in the cast to `uint32_t`. -/
theorem decodeChunks_zeros {n : ℕ} (hn : 4 ≤ n) (hcast : UInt32.ofNat n = 0)
    (hmax : 1 ≤ maxFrameSize) (hroom : (5 + n) % 2 ^ 64 ≤ (maxFrameSize + 4096).toNat) :
    decodeChunks maxFrameSize [(zeros n).encode] = [(1, [⟨.publish, []⟩])] := by
  have henc : (zeros n).encode = hostToBe32 1 ++ Op.publish.toByte :: List.replicate n 0 := by
    rw [Frame.encode, encodeFrame, zeros, List.length_replicate, hcast, UInt32.add_zero]
  have hlen : (zeros n).encode.length = 5 + n := by
    rw [henc, List.length_append, length_hostToBe32, List.length_cons, List.length_replicate]
    omega
  obtain ⟨k, hk⟩ : ∃ k, 5 + n + 1 = k + 2 := ⟨4 + n, by omega⟩
  simp only [decodeChunks, pushAll, push, hlen, sizeSub_of_le (Nat.le_refl _), List.length_nil,
    Nat.zero_add, if_neg (Nat.not_lt.2 hroom), List.nil_append, hk, Nat.sub_self]
  rw [henc, scan_zeros hn hmax]

/-- Less than a frame has been received in part. -/
theorem Front.length_unframed_lt (h : Front maxFrameSize bs) :
    (unframed bs).length < 4 + 2 ^ 32 := by
  by_contra hlen
  rw [← List.append_nil bs] at h
  have hrest := h.rest_append
  rw [List.append_nil] at hrest
  change Front maxFrameSize (unframed bs) at hrest
  have hsize := Message.size_lt 4 (unframed bs)
  have hw : Message.Whole 4 (unframed bs) := ⟨(hrest.size_bounds (by omega)).1, by omega⟩
  have hnone : (lengthPrefixed 4).next (unframed bs) = none := Format.next_rest bs
  exact absurd (hnone.symm.trans (lengthPrefixed_next_of_whole hw)) (by simp)

/-- None of the pushes is refused if and only if every chunk, together with the bytes of
    a frame received in part, keeps within the limit. -/
theorem Holds.accepts_iff {chunks : List Bytes} (h : d.Holds maxFrameSize bs)
    (hfront : Front maxFrameSize (bs ++ chunks.flatten)) (hsmall : ∀ c ∈ chunks, c.length ≤ 4096) :
    (∀ r ∈ d.pushAll chunks, r.1 ≠ -1) ↔ ∀ pre c post, chunks = pre ++ c :: post →
      (unframed (bs ++ pre.flatten)).length + c.length ≤ (maxFrameSize + 4096).toNat := by
  induction chunks generalizing d bs with
  | nil => simp [FrameDecoder.pushAll]
  | cons data chunks ih =>
    rw [List.flatten_cons, ← List.append_assoc] at hfront
    rw [List.forall_mem_cons] at hsmall
    have hmod : ((unframed bs).length + data.length) % 2 ^ 64 =
        (unframed bs).length + data.length := by
      have := hfront.of_append.of_append.length_unframed_lt
      exact Nat.mod_eq_of_lt (by omega)
    rcases Nat.lt_or_ge (maxFrameSize + 4096).toNat ((unframed bs).length + data.length)
      with hlt | hle
    · -- The first push is refused, and the first chunk exceeds the limit.
      have hpush := h.push_of_lt (hmod.symm ▸ hlt)
      refine iff_of_false (fun hok => hok _ List.mem_cons_self hpush) fun hroom => ?_
      have := hroom [] data chunks rfl
      rw [List.flatten_nil, List.append_nil] at this
      omega
    · -- It is not refused, and leaves the bytes of a frame received in part.
      obtain ⟨d', h', hpush⟩ := h.push_of_le hfront.of_append (hmod.symm ▸ hle)
      have hrec := ih h' hfront hsmall.2
      rw [FrameDecoder.pushAll, List.forall_mem_cons, hpush]
      constructor
      · rintro ⟨-, hok⟩ pre c post heq
        cases pre with
        | nil =>
          cases heq
          simpa using hle
        | cons data' pre =>
          obtain ⟨rfl, rfl⟩ := List.cons.inj heq
          simpa using hrec.1 hok pre c post rfl
      · intro hroom
        refine ⟨fun heq => ?_, hrec.2 fun pre c post heq => ?_⟩
        · have hneg : (((lengthPrefixed 4).decode (unframed bs ++ data)).length : ℤ) = -1 := heq
          omega
        · simpa using hroom (data :: pre) c post (by rw [heq, List.cons_append])

/-- A client that sends frames of the allowed sizes is not disconnected if and only if
    no chunk that is read, together with the bytes of a frame received in part, exceeds
    `max_frame_size + 4096`. -/
theorem accepts_iff_room {ms : List (Message 4)} {chunks : List Bytes}
    (hms : ∀ m ∈ ms, m.body.length + 1 ≤ maxFrameSize.toNat)
    (hcut : chunks.flatten = (lengthPrefixed 4).encodeAll ms)
    (hsmall : ∀ c ∈ chunks, c.length ≤ 4096) :
    (∀ r ∈ decodeChunks maxFrameSize chunks, r.1 ≠ -1) ↔
      ∀ pre c post, chunks = pre ++ c :: post →
        (unframed pre.flatten).length + c.length ≤ (maxFrameSize + 4096).toNat := by
  have hfront : Front maxFrameSize ([] ++ chunks.flatten) :=
    ⟨ms, [], by rw [List.nil_append, List.append_nil, hcut], hms⟩
  exact (holds_new maxFrameSize).accepts_iff hfront hsmall

/-- A request without a payload. -/
def bare : Message 4 := ⟨Op.metadataReq.toByte, [], by decide⟩

/-- The request, cut in the length field. -/
def bareChunks : List Bytes := [bare.encode.take 2, bare.encode.drop 2]

/-- A request that arrives in two chunks is within the limit, and is not refused. -/
theorem accepts_bare :
    (∀ r ∈ decodeChunks 1048576 bareChunks, r.1 ≠ -1) ∧
      ∀ pre c post, bareChunks = pre ++ c :: post →
        (unframed pre.flatten).length + c.length ≤ ((1048576 : UInt64) + 4096).toNat := by
  have hok : ∀ r ∈ decodeChunks 1048576 bareChunks, r.1 ≠ -1 := by decide
  exact ⟨hok, (@accepts_iff_room 1048576 [bare] _ (by decide) (by decide) (by decide)).1 hok⟩

/-- The encodings of `n` such requests. -/
def bares (n : ℕ) : Bytes := (lengthPrefixed 4).encodeAll (List.replicate n bare)

theorem length_bares (n : ℕ) : (bares n).length = n * 5 := by
  induction n with
  | zero => rfl
  | succ n ih =>
    have hbare : ((lengthPrefixed 4).encode bare).length = 5 := by decide
    rw [bares, List.replicate_succ, Format.encodeAll_cons, List.length_append, hbare]
    rw [bares] at ih
    omega

theorem unframed_take_bares (n : ℕ) :
    unframed ((bares (n + 1)).take 4) = (bares (n + 1)).take 4 :=
  Format.rest_of_none (Format.next_take_of_lt
    ((lengthPrefixed 4).next_encode_append bare _) (by decide))

/-- At a limit of one byte, four bytes of such a request are followed by as many bytes as are
    read at once. -/
theorem not_forall_accepts :
    ¬ ∀ (maxFrameSize : UInt64) (ms : List (Message 4)) (chunks : List Bytes),
      (∀ m ∈ ms, m.body.length + 1 ≤ maxFrameSize.toNat) →
      chunks.flatten = (lengthPrefixed 4).encodeAll ms →
      (∀ c ∈ chunks, c.length ≤ 4096) →
      ∀ r ∈ decodeChunks maxFrameSize chunks, r.1 ≠ -1 := by
  intro h
  have hms : ∀ m ∈ List.replicate 820 bare, m.body.length + 1 ≤ (1 : UInt64).toNat := by
    intro m hm
    rw [List.eq_of_mem_replicate hm]
    decide
  -- The stream is kept abstract: only its length and its first bytes matter.
  obtain ⟨stream, hstream, hlen, htorn⟩ : ∃ stream,
      stream = (lengthPrefixed 4).encodeAll (List.replicate 820 bare) ∧ stream.length = 820 * 5 ∧
        unframed (stream.take 4) = stream.take 4 :=
    ⟨bares 820, rfl, length_bares 820, unframed_take_bares 819⟩
  have hcut : [stream.take 4, stream.drop 4].flatten = stream := by
    rw [List.flatten_cons, List.flatten_singleton, List.take_append_drop]
  have hsmall : ∀ c ∈ [stream.take 4, stream.drop 4], c.length ≤ 4096 := by
    rw [List.forall_mem_cons, List.forall_mem_singleton, List.length_take, List.length_drop, hlen]
    decide
  have hfront : Front 1 ([] ++ [stream.take 4, stream.drop 4].flatten) :=
    ⟨_, [], by rw [List.nil_append, List.append_nil, hcut, hstream], hms⟩
  have hok := h 1 _ _ hms (hcut.trans hstream) hsmall
  have hroom := ((holds_new 1).accepts_iff hfront hsmall).1 hok [stream.take 4] _ [] rfl
  rw [List.flatten_singleton, List.nil_append, htorn, List.length_take, List.length_drop, hlen]
    at hroom
  exact absurd hroom (by decide)

end FrameDecoder

end Fell.Broker
