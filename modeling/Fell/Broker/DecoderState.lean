import Fell.Broker.FrameDecoder

/-!
# The state of the frame decoder on arbitrary input

What a decoder holds after a push, whatever the bytes. The cursor of the loop stays within the
buffer. But at a length of zero the buffer is cleared, and the cursor is written back to
`read_idx_` all the same: it points behind the buffer, unless the length was at the very front.

* `discards_iff`: a push comes to a length of zero exactly if there is one behind frames of the
  allowed size;
* `sound_iff`: from a valid state, a push goes right exactly if a length of zero that it comes to is
  at the front of the buffer;
* `sound_pushes_iff`: and so do all pushes of a sequence.
-/

namespace Fell.Broker.FrameDecoder

open Platform

/-! ## The loop -/

section

variable {maxFrameSize : UInt64} {buf : Bytes} {fuel cursor : ℕ}

/-- A length field of zero. -/
def zeroField : Bytes := [0, 0, 0, 0]

theorem cursor_scan_le (h : cursor ≤ buf.length) :
    (scan maxFrameSize buf fuel cursor).cursor ≤ buf.length := by
  induction fuel generalizing cursor with
  | zero => exact h
  | succ fuel ih =>
    have hround := round_scan h maxFrameSize fuel
    generalize scan maxFrameSize buf (fuel + 1) cursor = r at hround
    cases hround with
    | emit hw =>
      have hle := hw.2
      rw [List.length_drop] at hle
      exact @ih (cursor + (4 + Message.size 4 (buf.drop cursor))) (by omega)
    | stop => exact h

/-- Behind frames of the allowed size there is a length of zero. -/
def ZeroBehind (maxFrameSize : UInt64) (ms : List (Message 4)) (bs : Bytes) : Prop :=
  (∀ m ∈ ms, m.body.length + 1 ≤ maxFrameSize.toNat) ∧
    (lengthPrefixed 4).encodeAll ms ++ zeroField <+: bs

theorem size_of_zeroField {bs : Bytes} (h : zeroField <+: bs) :
    4 ≤ bs.length ∧ Message.size 4 bs = 0 := by
  obtain ⟨tl, rfl⟩ := h
  exact ⟨by simp [zeroField], rfl⟩

theorem zeroField_of_size {bs : Bytes} (hlen : 4 ≤ bs.length) (h : Message.size 4 bs = 0) :
    zeroField <+: bs := by
  have htake : bs.take 4 = zeroField := by
    have hb := Positional.beBytes_beNat (bs.take 4)
    rw [List.length_take, Nat.min_eq_left hlen] at hb
    rw [← hb]
    change Positional.beBytes 4 (Message.size 4 bs) = _
    rw [h]
    rfl
  rw [← htake]
  exact List.take_prefix 4 bs

/-- The loop comes to a length of zero behind frames of the allowed size, and stops there. -/
theorem scan_of_zeroBehind {ms : List (Message 4)} (h : cursor ≤ buf.length)
    (hfuel : buf.length < fuel + cursor) (hz : ZeroBehind maxFrameSize ms (buf.drop cursor)) :
    (scan maxFrameSize buf fuel cursor).stop = .zeroLength ∧
      (scan maxFrameSize buf fuel cursor).cursor =
        cursor + ((lengthPrefixed 4).encodeAll ms).length := by
  induction ms generalizing fuel cursor with
  | nil =>
    obtain ⟨hlen, hsize⟩ := size_of_zeroField hz.2
    obtain ⟨fuel, rfl⟩ : ∃ n, fuel = n + 1 := ⟨fuel - 1, by omega⟩
    have hround := round_scan h maxFrameSize fuel
    generalize scan maxFrameSize buf (fuel + 1) cursor = r at hround
    cases hround with
    | emit hw => exact absurd hsize hw.1.ne'
    | @stop stop hstops =>
      cases stop with
      | incomplete => exact absurd hsize (hstops.2 hlen)
      | zeroLength => exact ⟨rfl, rfl⟩
      | tooLarge => exact absurd hstops.2 (by omega)
  | cons m ms ih =>
    obtain ⟨hms, tl, htl⟩ := hz
    rw [Format.encodeAll_cons, lengthPrefixed_encode, List.append_assoc, List.append_assoc] at htl
    have hsize : Message.size 4 (buf.drop cursor) = m.body.length + 1 := by
      rw [← htl, Message.size_encode_append]
    have hlen : 4 + Message.size 4 (buf.drop cursor) ≤ (buf.drop cursor).length := by
      rw [hsize, ← htl, List.length_append, Message.length_encode]
      omega
    have hw : Message.Whole 4 (buf.drop cursor) := ⟨by omega, hlen⟩
    obtain ⟨fuel, rfl⟩ : ∃ n, fuel = n + 1 := ⟨fuel - 1, by omega⟩
    rw [List.length_drop] at hlen
    have hround := round_scan h maxFrameSize fuel
    generalize scan maxFrameSize buf (fuel + 1) cursor = r at hround
    cases hround with
    | emit =>
      -- The loop goes on behind the first frame.
      have hdrop : buf.drop (cursor + (4 + Message.size 4 (buf.drop cursor))) =
          (lengthPrefixed 4).encodeAll ms ++ (zeroField ++ tl) := by
        rw [hsize, ← List.drop_drop, ← htl, ← Message.length_encode, List.drop_left]
      obtain ⟨hstop, hcursor⟩ := @ih fuel
        (cursor + (4 + Message.size 4 (buf.drop cursor))) (by omega) (by omega)
        ⟨fun m' hm' => hms m' (List.mem_cons_of_mem _ hm'), tl, by
          rw [hdrop, List.append_assoc]⟩
      refine ⟨hstop, hcursor.trans ?_⟩
      rw [hsize, Format.encodeAll_cons, List.length_append, lengthPrefixed_encode,
        Message.length_encode]
      omega
    | @stop stop hstops =>
      cases stop with
      | incomplete => exact absurd hw hstops.1
      | zeroLength => exact absurd hstops.2 hw.1.ne'
      | tooLarge => exact absurd hstops.2 (Nat.not_lt.2 (hsize ▸ hms m List.mem_cons_self))

/-- The loop comes to a length of zero only there. -/
theorem exists_zeroBehind (h : cursor ≤ buf.length)
    (hstop : (scan maxFrameSize buf fuel cursor).stop = .zeroLength) :
    ∃ ms, ZeroBehind maxFrameSize ms (buf.drop cursor) := by
  induction fuel generalizing cursor with
  | zero => exact nomatch hstop
  | succ fuel ih =>
    have hround := round_scan h maxFrameSize fuel
    generalize scan maxFrameSize buf (fuel + 1) cursor = r at hround hstop
    cases hround with
    | emit hw hmax =>
      have hle := hw.2
      rw [List.length_drop] at hle
      obtain ⟨ms, hms, tl, htl⟩ := ih (by omega) hstop
      rw [← Message.length_body_first hw] at hmax
      refine ⟨.first _ hw :: ms, List.forall_mem_cons.2 ⟨hmax, hms⟩, tl, ?_⟩
      rw [Format.encodeAll_cons, lengthPrefixed_encode, List.append_assoc, List.append_assoc,
        ← List.append_assoc _ zeroField, htl, ← List.drop_drop]
      exact (Message.eq_encode_first hw).symm
    | stop hstops =>
      subst hstop
      exact ⟨[], nofun, zeroField_of_size hstops.1 hstops.2⟩

end

/-! ## A push -/

section

variable (d : FrameDecoder) (data : Bytes)

/-- The bytes that are not used up. -/
def unread : Bytes := d.buf.drop d.readIdx

/-- The size limit lets the push through. -/
def HasRoom : Prop :=
  (sizeSub d.buf.length d.readIdx + data.length) % 2 ^ 64 ≤ (d.maxFrameSize + 4096).toNat

/-- The loop of a push. -/
def loop : Scan := scan d.maxFrameSize (d.buf ++ data) ((d.buf ++ data).length + 1) d.readIdx

/-- The push comes to a length of zero, and discards its buffer. -/
def Discards : Prop := d.HasRoom data ∧ (d.loop data).stop = .zeroLength

/-- The decoder when `read_idx_` is written back, before the bytes used up are erased. -/
def writtenBack : FrameDecoder :=
  { d with
    buf :=
      match (d.loop data).stop with
      | .zeroLength => []
      | _ => d.buf ++ data
    readIdx := (d.loop data).cursor }

/-- The state is valid. -/
def Valid : Prop := d.readIdx ≤ d.buf.length

instance : Decidable d.Valid := inferInstanceAs (Decidable (_ ≤ _))

/-- A push goes right: it leaves a valid state, erases no more than there is, and if it discards
    its buffer, the pushes that follow behave as on a new decoder. -/
structure Sound : Prop where
  valid : (d.push data).2.2.Valid
  erase_le : 8192 ≤ (d.writtenBack data).readIdx →
    (d.writtenBack data).readIdx ≤ (d.writtenBack data).buf.length
  fresh : d.Discards data → ∀ chunks,
    (d.push data).2.2.pushAll chunks = decodeChunks d.maxFrameSize chunks

/-- A length of zero that the push comes to is at the front of the buffer, with no frame and no
    byte used up before it. -/
def ZeroInFront : Prop :=
  d.HasRoom data → ∀ ms, ZeroBehind d.maxFrameSize ms (d.unread ++ data) → d.readIdx = 0 ∧ ms = []

end

section

variable {d : FrameDecoder} {data : Bytes}

theorem push_of_not_hasRoom (h : ¬d.HasRoom data) : d.push data = (-1, [], d) :=
  if_pos (Nat.lt_of_not_le h)

theorem push_of_tooLarge (h : d.HasRoom data) (hstop : (d.loop data).stop = .tooLarge) :
    d.push data = (-1, (d.loop data).out, { d with buf := d.buf ++ data }) := by
  rw [loop] at hstop
  simp only [push, if_neg (Nat.not_lt.2 h), hstop, loop]

theorem push_of_ne_tooLarge (h : d.HasRoom data) (hstop : (d.loop data).stop ≠ .tooLarge) :
    d.push data = ((d.loop data).count, (d.loop data).out, (d.writtenBack data).compact) := by
  simp only [push, if_neg (Nat.not_lt.2 h)]
  simp only [writtenBack]
  cases hs : (d.loop data).stop with
  | tooLarge => exact absurd hs hstop
  | incomplete | zeroLength =>
    rw [loop] at hs
    simp only [hs, loop]

theorem count_scan_nonneg (maxFrameSize : UInt64) (buf : Bytes) (fuel cursor : ℕ) :
    0 ≤ (scan maxFrameSize buf fuel cursor).count := by
  induction fuel generalizing cursor with
  | zero => exact le_rfl
  | succ fuel ih =>
    rw [scan]
    dsimp only
    split_ifs
    iterate 4 exact le_rfl
    exact Int.add_nonneg (ih _) (by decide)

/-- A push returns `-1`, and leaves what it had in place, or it writes `read_idx_` back. -/
theorem push_cases (d : FrameDecoder) (data : Bytes) :
    ((d.push data).1 = -1 ∧ ¬d.Discards data ∧
      ∃ buf, d.buf <+: buf ∧ (d.push data).2.2 = { d with buf }) ∨
    (d.push data).1 ≠ -1 ∧ d.HasRoom data ∧ (d.push data).2.2 = (d.writtenBack data).compact := by
  by_cases hroom : d.HasRoom data
  · by_cases hstop : (d.loop data).stop = .tooLarge
    · rw [push_of_tooLarge hroom hstop]
      refine .inl ⟨rfl, fun hd => ?_, _, List.prefix_append _ _, rfl⟩
      exact nomatch hstop.symm.trans hd.2
    · rw [push_of_ne_tooLarge hroom hstop]
      have hcount : 0 ≤ (d.loop data).count := count_scan_nonneg _ _ _ _
      exact .inr ⟨by dsimp only; omega, hroom, rfl⟩
  · rw [push_of_not_hasRoom hroom]
    exact .inl ⟨rfl, fun hd => hroom hd.1, _, List.prefix_rfl, rfl⟩

variable (h : d.Valid)
include h

theorem readIdx_le_append : d.readIdx ≤ (d.buf ++ data).length := by
  rw [List.length_append]
  exact Nat.le_add_right_of_le h

theorem drop_append_readIdx : (d.buf ++ data).drop d.readIdx = d.unread ++ data :=
  List.drop_append_of_le_length h

/-- A push discards its buffer exactly if there is a length of zero behind frames of the allowed
    size, and then the cursor is at that length. -/
theorem discards_iff :
    d.Discards data ↔ d.HasRoom data ∧ ∃ ms, ZeroBehind d.maxFrameSize ms (d.unread ++ data) := by
  rw [← drop_append_readIdx h]
  refine and_congr_right fun _ => ⟨exists_zeroBehind (readIdx_le_append h), fun ⟨ms, hms⟩ => ?_⟩
  exact (scan_of_zeroBehind (readIdx_le_append h) (by omega) hms).1

theorem cursor_loop_of_zeroBehind {ms : List (Message 4)}
    (hms : ZeroBehind d.maxFrameSize ms (d.unread ++ data)) :
    (d.loop data).cursor = d.readIdx + ((lengthPrefixed 4).encodeAll ms).length := by
  rw [← drop_append_readIdx h] at hms
  exact (scan_of_zeroBehind (readIdx_le_append h) (by omega) hms).2

/-- Without a length of zero, the cursor stays within the buffer. -/
theorem valid_writtenBack (hd : (d.loop data).stop ≠ .zeroLength) : (d.writtenBack data).Valid := by
  have hbuf : (d.writtenBack data).buf = d.buf ++ data := by
    cases hs : (d.loop data).stop with
    | zeroLength => exact absurd hs hd
    | incomplete | tooLarge => simp only [writtenBack, hs]
  rw [Valid, hbuf]
  exact cursor_scan_le (readIdx_le_append h)

omit h in
theorem writtenBack_of_discards (hd : d.Discards data) :
    d.writtenBack data = { d with buf := [], readIdx := (d.loop data).cursor } := by
  simp only [writtenBack, hd.2]

/-- From a valid state, a push that does not return `-1` goes right exactly if a length of zero is
    at the front of the buffer. -/
theorem sound_iff : ((d.push data).1 ≠ -1 → d.Sound data) ↔ d.ZeroInFront data := by
  constructor
  · intro hsound hroom ms hms
    have hd : d.Discards data := (discards_iff h).2 ⟨hroom, ms, hms⟩
    have hcursor := cursor_loop_of_zeroBehind h hms
    rcases push_cases d data with ⟨-, hnot, -⟩ | ⟨hne, -, heq⟩
    · exact absurd hd hnot
    obtain ⟨hvalid, herase, -⟩ := hsound hne
    -- The buffer is empty, so what is written back must be zero.
    rw [writtenBack_of_discards hd] at heq herase
    have hzero : (d.loop data).cursor = 0 := by
      by_cases hbig : 8192 ≤ (d.loop data).cursor
      · exact Nat.le_zero.1 (herase hbig)
      · rw [Valid, heq, compact, if_neg hbig] at hvalid
        exact Nat.le_zero.1 hvalid
    refine ⟨by omega, ?_⟩
    cases ms with
    | nil => rfl
    | cons m ms =>
      rw [Format.encodeAll_cons, List.length_append, lengthPrefixed_encode,
        Message.length_encode] at hcursor
      omega
  · intro hz hne
    rcases push_cases d data with ⟨heq, -⟩ | ⟨-, hroom, heq⟩
    · exact absurd heq hne
    by_cases hstop : (d.loop data).stop = .zeroLength
    · have hd : d.Discards data := ⟨hroom, hstop⟩
      obtain ⟨ms, hms⟩ := ((discards_iff h).1 hd).2
      obtain ⟨hidx, rfl⟩ := hz hroom ms hms
      -- The decoder is a new one.
      have hcursor : (d.loop data).cursor = 0 := by
        rw [cursor_loop_of_zeroBehind h hms, hidx]
        rfl
      have hwb := writtenBack_of_discards hd
      rw [hcursor] at hwb
      rw [hwb] at heq
      have hnew : (d.push data).2.2 = { maxFrameSize := d.maxFrameSize } := heq
      refine ⟨?_, ?_, fun _ chunks => ?_⟩
      · rw [hnew]
        exact Nat.le_refl 0
      · rw [hwb]
        exact fun _ => Nat.le_refl 0
      · rw [hnew, decodeChunks]
    · have hvalid := valid_writtenBack h hstop
      refine ⟨?_, fun _ => hvalid, fun hd => absurd hd.2 hstop⟩
      rw [heq, compact]
      split_ifs
      · exact Nat.zero_le _
      · exact hvalid

/-- What is valid stays so. -/
theorem valid_push (hsound : (d.push data).1 ≠ -1 → d.Sound data) : (d.push data).2.2.Valid := by
  rcases push_cases d data with ⟨-, -, buf, hpre, heq⟩ | ⟨hne, -⟩
  · rw [heq]
    exact Nat.le_trans h hpre.length_le
  · exact (hsound hne).valid

end

/-! ## Sequences of pushes -/

/-- The pushes of the chunks in turn: the decoder before each, and the chunk. -/
def pushes : FrameDecoder → List Bytes → List (FrameDecoder × Bytes)
  | _, [] => []
  | d, data :: chunks => (d, data) :: pushes (d.push data).2.2 chunks

theorem Valid.pushes_iff {d : FrameDecoder} (h : d.Valid) (chunks : List Bytes) :
    (∀ p ∈ d.pushes chunks, (p.1.push p.2).1 ≠ -1 → p.1.Sound p.2) ↔
      ∀ p ∈ d.pushes chunks, p.1.ZeroInFront p.2 := by
  induction chunks generalizing d with
  | nil => exact iff_of_true nofun nofun
  | cons data chunks ih =>
    rw [pushes, List.forall_mem_cons, List.forall_mem_cons, ← sound_iff h]
    exact and_congr_right fun hsound => ih (valid_push h hsound)

/-- Whatever is pushed to a new decoder: all pushes that do not return `-1` go right, exactly if
    whenever a push comes to a length of zero, it is at the front of the buffer. -/
theorem sound_pushes_iff (maxFrameSize : UInt64) (chunks : List Bytes) :
    (∀ p ∈ pushes { maxFrameSize } chunks, (p.1.push p.2).1 ≠ -1 → p.1.Sound p.2) ↔
      ∀ p ∈ pushes { maxFrameSize } chunks, p.1.ZeroInFront p.2 := by
  have hnew : ({ maxFrameSize } : FrameDecoder).Valid := Nat.le_refl 0
  exact hnew.pushes_iff chunks

/-- A frame, and a length of zero behind it in the same chunk. -/
theorem not_forall_sound :
    ¬∀ (maxFrameSize : UInt64) (chunks : List Bytes),
      ∀ p ∈ pushes { maxFrameSize } chunks, (p.1.push p.2).1 ≠ -1 → p.1.Sound p.2 := by
  intro hall
  have hsound := hall 1048576 [ping.encode ++ zeroField] _ List.mem_cons_self (by decide)
  exact absurd hsound.valid (by decide)

end Fell.Broker.FrameDecoder
