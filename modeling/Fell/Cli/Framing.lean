import Fell.Broker.FrameDecoder

/-!
# Frames on a blocking socket

The command line tools write and read frames on a blocking socket (`write_frame` and
`read_frame` in `cli/producer_cli.cpp` and `cli/consumer_cli.cpp`). A call of `send` may take
fewer bytes than it is given, and a call of `recv` may return fewer than asked for, so both go
round until all is written or read.

What `recv` returns is a list of chunks: a call returns the first of them, or the front of it if
fewer bytes are asked for. When there are no more, the connection has ended. What `send` returns
is a list of numbers.

* `writeFrame_isPrefix`, `writeFrame_of_done`: what is written of a frame;
* `readFrame_of_whole`: `read_frame` finds the first frame of the stream, however it is cut;
* `readAll_written`: the frames that are read are those that were written, as far as they have
  arrived as a whole.
-/

namespace Fell.Cli

open Platform Broker

/-! ## Writing -/

/-- How the writing ends. -/
inductive Sent
  /-- All is written. What `send` returns after that is left. -/
  | done (sends : List ℤ)
  | failed
  /-- The last `send` has not returned. -/
  | pending

/-- `write_exact`: the bytes that are written, and how it ends. -/
def writeExact : Bytes → List ℤ → Bytes × Sent
  | [], sends => ([], .done sends)
  | _ :: _, [] => ([], .pending)
  | b :: bs, n :: sends =>
    if n < 0 then ([], .failed)
    else
      let r := writeExact ((b :: bs).drop n.toNat) sends
      ((b :: bs).take n.toNat ++ r.1, r.2)
termination_by structural _ sends => sends

/-- The five bytes in front of a payload. -/
def frameHeader (f : Frame) : Bytes :=
  hostToBe32 (1 + UInt32.ofNat f.payload.length) ++ [f.op.toByte]

/-- `write_frame`. -/
def writeFrame (f : Frame) (sends : List ℤ) : Bytes × Sent :=
  let header := writeExact (frameHeader f) sends
  match header.2 with
  | .done sends =>
    let payload := writeExact f.payload sends
    (header.1 ++ payload.1, payload.2)
  | .failed | .pending => header

/-- Frames are written one after the other. -/
def writeFrames : List Frame → List ℤ → Bytes × Sent
  | [], sends => ([], .done sends)
  | f :: fs, sends =>
    let first := writeFrame f sends
    match first.2 with
    | .done sends =>
      let rest := writeFrames fs sends
      (first.1 ++ rest.1, rest.2)
    | .failed | .pending => first

theorem writeExact_isPrefix (bs : Bytes) (sends : List ℤ) : (writeExact bs sends).1 <+: bs := by
  fun_induction writeExact bs sends with
  | case1 sends => exact List.prefix_rfl
  | case2 b bs => exact List.nil_prefix
  | case3 b bs n sends hneg => exact List.nil_prefix
  | case4 b bs n sends hneg r ih =>
    conv_rhs => rw [← List.take_append_drop n.toNat (b :: bs)]
    exact (List.prefix_append_right_inj _).2 ih

theorem writeExact_of_done {bs : Bytes} {sends rest : List ℤ}
    (h : (writeExact bs sends).2 = .done rest) : (writeExact bs sends).1 = bs := by
  fun_induction writeExact bs sends with
  | case1 sends => rfl
  | case2 b bs => cases h
  | case3 b bs n sends hneg => cases h
  | case4 b bs n sends hneg r ih => rw [ih h, List.take_append_drop]

theorem encode_eq (f : Frame) : f.encode = frameHeader f ++ f.payload := by
  rw [Frame.encode, encodeFrame, frameHeader, List.append_assoc, List.singleton_append]

/-- A frame is written from its front, whatever `send` returns. -/
theorem writeFrame_isPrefix (f : Frame) (sends : List ℤ) :
    (writeFrame f sends).1 <+: f.encode := by
  have hheader := writeExact_isPrefix (frameHeader f) sends
  rw [encode_eq]
  simp only [writeFrame]
  split
  · rw [writeExact_of_done ‹_›]
    exact (List.prefix_append_right_inj _).2 (writeExact_isPrefix _ _)
  · exact hheader.trans (List.prefix_append _ _)
  · exact hheader.trans (List.prefix_append _ _)

/-- A frame that `write_frame` returns true for is written as `encode_frame` writes it. -/
theorem writeFrame_of_done {f : Frame} {sends rest : List ℤ}
    (h : (writeFrame f sends).2 = .done rest) : (writeFrame f sends).1 = f.encode := by
  rw [encode_eq]
  simp only [writeFrame] at h ⊢
  split at h
  · rw [writeExact_of_done h, writeExact_of_done ‹_›]
  · rename_i hfailed
    rw [hfailed] at h
    cases h
  · rename_i hpending
    rw [hpending] at h
    cases h

theorem writeFrames_isPrefix (fs : List Frame) (sends : List ℤ) :
    (writeFrames fs sends).1 <+: fs.flatMap Frame.encode := by
  induction fs generalizing sends with
  | nil => exact List.prefix_rfl
  | cons f fs ih =>
    rw [List.flatMap_cons]
    simp only [writeFrames]
    split
    · rw [writeFrame_of_done ‹_›]
      exact (List.prefix_append_right_inj _).2 (ih _)
    · exact (writeFrame_isPrefix f sends).trans (List.prefix_append _ _)
    · exact (writeFrame_isPrefix f sends).trans (List.prefix_append _ _)

/-! ## Reading -/

/-- `read_exact`: the bytes read, and what is left to be received. -/
def readExact : ℕ → List Bytes → Option (Bytes × List Bytes)
  | 0, chunks => some ([], chunks)
  | _ + 1, [] => none
  | len + 1, chunk :: chunks =>
    if chunk = [] then none
    else if chunk.length ≤ len + 1 then
      (readExact (len + 1 - chunk.length) chunks).map fun r => (chunk ++ r.1, r.2)
    else some (chunk.take (len + 1), chunk.drop (len + 1) :: chunks)
termination_by structural _ chunks => chunks

/-- `read_frame`. -/
def readFrame (chunks : List Bytes) : Option (Frame × List Bytes) := do
  let (lenBe, chunks) ← readExact 4 chunks
  let len := be32ToHost lenBe
  if len < 1 then none
  else
    let (op, chunks) ← readExact 1 chunks
    let (payload, chunks) ← readExact (len.toNat - 1) chunks
    some (⟨⟨op.headD 0⟩, payload⟩, chunks)

/-- What is left to be received, without empty chunks. -/
def Cut (stream : Bytes) (chunks : List Bytes) : Prop :=
  chunks.flatten = stream ∧ ∀ chunk ∈ chunks, chunk ≠ []

/-- As many bytes are read as are asked for, if there are as many, from the front of the
    stream. -/
theorem readExact_of_le {len : ℕ} {stream : Bytes} {chunks : List Bytes} (hcut : Cut stream chunks)
    (hlen : len ≤ stream.length) :
    ∃ rest, readExact len chunks = some (stream.take len, rest) ∧ Cut (stream.drop len) rest := by
  obtain ⟨rfl, hne⟩ := hcut
  fun_induction readExact len chunks with
  | case1 chunks => exact ⟨chunks, by simp, by simp, hne⟩
  | case2 len => simp at hlen
  | case3 len chunks => exact absurd rfl (hne [] List.mem_cons_self)
  | case4 len chunk chunks hchunk hle ih =>
    rw [List.flatten_cons, List.length_append] at hlen
    obtain ⟨rest, hread, hrest⟩ := ih (fun c hc => hne c (List.mem_cons_of_mem _ hc)) (by omega)
    refine ⟨rest, ?_, ?_⟩
    · rw [hread, Option.map_some, List.flatten_cons, List.take_append, List.take_of_length_le hle]
    · rwa [List.flatten_cons, List.drop_append, List.drop_of_length_le hle, List.nil_append]
  | case5 len chunk chunks hchunk hle =>
    have hlt : len + 1 < chunk.length := by omega
    refine ⟨chunk.drop (len + 1) :: chunks, ?_, ?_, ?_⟩
    · rw [List.flatten_cons, List.take_append_of_le_length hlt.le]
    · rw [List.flatten_cons, List.flatten_cons, List.drop_append_of_le_length hlt.le]
    · rw [List.forall_mem_cons]
      refine ⟨fun hnil => ?_, fun c hc => hne c (List.mem_cons_of_mem _ hc)⟩
      rw [List.drop_eq_nil_iff] at hnil
      omega

theorem readExact_of_lt {len : ℕ} {stream : Bytes} {chunks : List Bytes} (hcut : Cut stream chunks)
    (hlen : stream.length < len) : readExact len chunks = none := by
  obtain ⟨rfl, hne⟩ := hcut
  fun_induction readExact len chunks with
  | case1 chunks => omega
  | case2 len => rfl
  | case3 len chunks => rfl
  | case4 len chunk chunks hchunk hle ih =>
    rw [List.flatten_cons, List.length_append] at hlen
    rw [ih (fun c hc => hne c (List.mem_cons_of_mem _ hc)) (by omega), Option.map_none]
  | case5 len chunk chunks hchunk hle =>
    rw [List.flatten_cons, List.length_append] at hlen
    omega

/-- The first frame of the stream is read, however it is cut. -/
theorem readFrame_of_whole {stream : Bytes} {chunks : List Bytes} (hcut : Cut stream chunks)
    (hw : Message.Whole 4 stream) :
    ∃ rest, readFrame chunks = some (Frame.ofMessage (Message.first stream hw), rest) ∧
      Cut (stream.drop (4 + Message.size 4 stream)) rest := by
  have hsize := toNat_be32ToHost_take stream
  obtain ⟨hpos, hle⟩ := id hw
  obtain ⟨c₁, h₁, hcut₁⟩ := readExact_of_le hcut (show 4 ≤ stream.length by omega)
  have hlen₁ : (stream.drop 4).length = stream.length - 4 := List.length_drop
  obtain ⟨c₂, h₂, hcut₂⟩ := readExact_of_le hcut₁ (show 1 ≤ (stream.drop 4).length by omega)
  rw [List.drop_drop] at hcut₂
  have hlen₂ : (stream.drop (4 + 1)).length = stream.length - 5 := List.length_drop
  obtain ⟨c₃, h₃, hcut₃⟩ := readExact_of_le hcut₂
    (show Message.size 4 stream - 1 ≤ (stream.drop (4 + 1)).length by omega)
  have hone : ¬be32ToHost (stream.take 4) < 1 := by
    rw [UInt32.lt_iff_toNat_lt, hsize]
    exact Nat.not_lt.2 hpos
  refine ⟨c₃, ?_, ?_⟩
  · simp only [readFrame, h₁, h₂, h₃, hsize, if_neg hone, Option.bind_eq_bind, Option.bind_some,
      Frame.ofMessage, Message.first]
    congr 4
    cases stream.drop 4 <;> rfl
  · rwa [List.drop_drop, show 4 + 1 + (Message.size 4 stream - 1) = 4 + Message.size 4 stream by
      omega] at hcut₃

/-- Without a whole frame there is nothing to be read. -/
theorem readFrame_of_not_whole {stream : Bytes} {chunks : List Bytes} (hcut : Cut stream chunks)
    (hw : ¬Message.Whole 4 stream) : readFrame chunks = none := by
  have hsize := toNat_be32ToHost_take stream
  rcases Nat.lt_or_ge stream.length 4 with hshort | hlong
  · simp only [readFrame, readExact_of_lt hcut hshort, Option.bind_eq_bind, Option.bind_none]
  obtain ⟨c₁, h₁, hcut₁⟩ := readExact_of_le hcut hlong
  simp only [readFrame, h₁, Option.bind_eq_bind, Option.bind_some]
  split_ifs with hone
  · rfl
  have hpos : 0 < Message.size 4 stream := by
    rw [UInt32.lt_iff_toNat_lt, hsize] at hone
    exact Nat.pos_of_ne_zero fun h0 => hone (h0 ▸ Nat.one_pos)
  have hlt : stream.length < 4 + Message.size 4 stream := Nat.lt_of_not_le fun h => hw ⟨hpos, h⟩
  have hlen₁ : (stream.drop 4).length = stream.length - 4 := List.length_drop
  rcases Nat.lt_or_ge (stream.drop 4).length 1 with hshort | hlong₁
  · rw [readExact_of_lt hcut₁ hshort, Option.bind_none]
  obtain ⟨c₂, h₂, hcut₂⟩ := readExact_of_le hcut₁ hlong₁
  have hlen₂ : ((stream.drop 4).drop 1).length = (stream.drop 4).length - 1 := List.length_drop
  rw [h₂, Option.bind_some, hsize, readExact_of_lt hcut₂ (by omega), Option.bind_none]

/-- Frames are read until `read_frame` returns false. -/
def readAll : ℕ → List Bytes → List Frame
  | 0, _ => []
  | fuel + 1, chunks =>
    match readFrame chunks with
    | none => []
    | some (f, rest) => f :: readAll fuel rest

theorem readAll_eq {stream : Bytes} {chunks : List Bytes} (hcut : Cut stream chunks) (fuel : ℕ) :
    readAll fuel chunks = ((lengthPrefixed 4).decodeAux fuel stream).1.map Frame.ofMessage := by
  induction fuel generalizing stream chunks with
  | zero => rfl
  | succ fuel ih =>
    by_cases hw : Message.Whole 4 stream
    · obtain ⟨rest, hread, hrest⟩ := readFrame_of_whole hcut hw
      rw [readAll, hread, Format.decodeAux, lengthPrefixed_next_of_whole hw]
      simp only [ih hrest, List.map_cons]
    · rw [readAll, readFrame_of_not_whole hcut hw,
        Format.decodeAux_of_none (lengthPrefixed_next_of_not_whole hw)]
      rfl

/-- Frames are read as far as they have arrived as a whole. -/
theorem readAll_eq_within {fs : List Frame} {chunks : List Bytes} (hfits : ∀ f ∈ fs, f.Fits)
    (hne : ∀ chunk ∈ chunks, chunk ≠ []) (hwire : chunks.flatten <+: fs.flatMap Frame.encode) :
    readAll chunks.flatten.length chunks = Frame.within fs chunks.flatten.length := by
  obtain ⟨ms, rfl⟩ := Frame.exists_ofMessage hfits
  rw [Frame.flatMap_encode_map_ofMessage] at hwire
  rw [readAll_eq ⟨rfl, hne⟩, Frame.within_map_ofMessage, ← Format.decode_take,
    ← List.prefix_iff_eq_take.1 hwire]
  rfl

/-- From what has arrived of a frame, no other frame is read. -/
theorem eq_of_readFrame {f f' : Frame} {chunks rest : List Bytes} (hfits : f.Fits)
    (hne : ∀ chunk ∈ chunks, chunk ≠ []) (hwire : chunks.flatten <+: f.encode)
    (hread : readFrame chunks = some (f', rest)) : f' = f := by
  have hall := @readAll_eq_within [f] chunks (by simpa using hfits) hne (by simpa using hwire)
  cases hlen : chunks.flatten.length with
  | zero =>
    have hnil := List.eq_nil_of_length_eq_zero hlen
    have hw : ¬Message.Whole 4 chunks.flatten := by
      rw [hnil]
      exact fun h => absurd h.2 (by simp)
    rw [readFrame_of_not_whole ⟨rfl, hne⟩ hw] at hread
    cases hread
  | succ n =>
    rw [hlen, readAll, hread] at hall
    simp only [Frame.within] at hall
    split_ifs at hall
    · exact (List.cons.inj hall).1

/-- The frames that one tool writes, whatever its calls of `send` return, are those that another
    one reads, whatever its calls of `recv` return, as far as they have arrived as a whole. -/
theorem readAll_written {fs : List Frame} {sends : List ℤ} {chunks : List Bytes}
    (hfits : ∀ f ∈ fs, f.Fits) (hne : ∀ chunk ∈ chunks, chunk ≠ [])
    (hwire : chunks.flatten <+: (writeFrames fs sends).1) :
    readAll chunks.flatten.length chunks = Frame.within fs chunks.flatten.length :=
  readAll_eq_within hfits hne (hwire.trans (writeFrames_isPrefix fs sends))

/-- A frame with the payload `[7]`, written in four calls and received in three. -/
theorem readAll_written_seven :
    (writeFrames [⟨.ack, [7]⟩] [2, 0, 3, 1]).1 = [0, 0, 0, 2, 0x10, 7] ∧
      readAll 6 [[0, 0], [0, 2, 0x10], [7]] = Frame.within [⟨.ack, [7]⟩] 6 :=
  ⟨by decide, @readAll_written [⟨.ack, [7]⟩] [2, 0, 3, 1] [[0, 0], [0, 2, 0x10], [7]]
    (by simp [Frame.Fits]) (by decide) (by decide)⟩

/-! ## The responses of the broker -/

/-- The frame of `encode_ack`. -/
def ackFrame (value : UInt64) : Frame := ⟨.ack, hostToBe64 value⟩

/-- The frame of `encode_error`. -/
def errorFrame (code : ErrCode) (msg : String) : Frame :=
  let text := (ascii msg).take fieldSize
  ⟨.err, code.toByte :: UInt8.ofNat text.length ::
    (text ++ List.replicate (fieldSize - text.length) 0)⟩

/-- A frame that comes in one piece. -/
theorem whole_encode (f : Frame) :
    (∀ chunk ∈ [f.encode], chunk ≠ []) ∧ [f.encode].flatten <+: f.encode := by
  refine ⟨List.forall_mem_singleton.2 (encodeFrame_ne_nil _ _), ?_⟩
  rw [List.flatten_singleton]

theorem fits_ackFrame (value : UInt64) : (ackFrame value).Fits := by
  rw [Frame.Fits, ackFrame, length_hostToBe64]
  decide

theorem fits_errorFrame (code : ErrCode) (msg : String) : (errorFrame code msg).Fits := by
  have htext : ((ascii msg).take fieldSize).length ≤ fieldSize := List.length_take_le _ _
  rw [Frame.Fits, errorFrame, List.length_cons, List.length_cons, List.length_append,
    List.length_replicate, Nat.add_sub_of_le htext]
  decide

theorem readBe64_append (v : UInt64) (tl : Bytes) : readBe64 (hostToBe64 v ++ tl) = v := by
  rw [readBe64, List.take_left' (length_hostToBe64 _), be64ToHost_hostToBe64]

end Fell.Cli
