import Fell.Lib.Blocks
import Fell.Storage.Log

/-!
# Segments and their indexes

The segments of a store follow one another, and the index of each points at
records of its log, the index in memory as well as the one on disk. Both are
invariants (`Indexed`) of all runs of a store that is opened on such a directory,
and make a segment read right (`Sound.read_eq`): from wherever the index
sends it, a read of the segment finds the records asked for.

What remains is the choice of the segment. `find_segment_for` looks at the sealed
segments first, and takes the last one that does not start behind the offset,
whether the offset lies in it or not: as soon as there is a sealed segment, the
active one is not read any more (`fetch_of_active`).

* `fetch_served_iff`: a committed record is served as long as no segment is
  sealed, and afterwards if it lies in a sealed one.
-/

namespace Fell.Storage

open Platform

/-! ## Sound indexes -/

/-- The entry points at a record of `rs`, or behind them, in a segment with base
    offset `base`. -/
def IndexEntry.Points (base : ℕ) (rs : List Record) (e : IndexEntry) : Prop :=
  ∃ i ≤ rs.length, e.offset.toNat = base + i ∧
    e.filePosition.toNat = (recordFormat.encodeAll (rs.take i)).length

theorem IndexEntry.Points.append {base : ℕ} {rs : List Record} {e : IndexEntry}
    (h : e.Points base rs) (rs' : List Record) : e.Points base (rs ++ rs') := by
  obtain ⟨i, hi, hoff, hpos⟩ := h
  refine ⟨i, by rw [List.length_append]; omega, hoff, ?_⟩
  rw [List.take_append_of_le_length hi, hpos]

/-- From the position of an entry that is not beyond the offset asked for, the
    same records are found as from the start of the log. -/
theorem IndexEntry.Points.read_eq {base : ℕ} {rs : List Record} {e : IndexEntry} {o : UInt64}
    (h : e.Points base rs) (hrs : Numbered base rs) (ho : e.offset ≤ o) (n : ℕ) :
    read (recordFormat.encodeAll rs) e.filePosition.toNat o n =
      (rs.drop (o.toNat - base)).take n := by
  obtain ⟨i, hi, hoff, hpos⟩ := h
  have hle := UInt64.le_iff_toNat_le.1 ho
  rw [Storage.read_eq, hpos, Format.drop_encodeAll, Format.decode_encodeAll,
    fromOffset_of_numbered (hrs.drop hi), List.drop_drop]
  congr 2
  omega

/-- The files of the segment `base` and its index in memory, if there is one: the
    log holds whole records, numbered from the base offset on, and the indexes
    point at them. -/
structure Sound (base : UInt64) (files : SegmentFiles) (cached : Option (List IndexEntry)) :
    Prop where
  log_eq : files.log = recordFormat.encodeAll (recordFormat.decode files.log)
  numbered : Numbered base.toNat (recordFormat.decode files.log)
  length_lt : files.log.length < maxFileSize
  idx : ∃ entries, files.idx = indexFormat.encodeAll entries ∧
    ∀ e ∈ entries, e.Points base.toNat (recordFormat.decode files.log)
  cached : ∀ entries, cached = some entries →
    ∀ e ∈ entries, e.Points base.toNat (recordFormat.decode files.log)

namespace Sound

variable {base : UInt64} {files : SegmentFiles} {cached : Option (List IndexEntry)}

theorem fresh (base : UInt64) : Sound base {} none where
  log_eq := by simp
  numbered := by simp [numbered_nil]
  length_lt := by decide
  idx := ⟨[], rfl, by simp⟩
  cached := by simp

theorem uncached (h : Sound base files cached) : Sound base files none :=
  { h with cached := by simp }

/-- The entries in use are those in memory, or else those on disk. -/
theorem points (h : Sound base files cached) :
    ∀ e ∈ cached.getD (OffsetIndex.load files.idx),
      e.Points base.toNat (recordFormat.decode files.log) := by
  cases hc : cached with
  | some entries => exact h.cached entries hc
  | none =>
    obtain ⟨entries, hidx, hpoints⟩ := h.idx
    rw [Option.getD_none, OffsetIndex.load_eq, hidx, Format.decode_encodeAll]
    exact hpoints

theorem cache (h : Sound base files cached) :
    Sound base files (some (cached.getD (OffsetIndex.load files.idx))) :=
  { h with cached := fun _ heq => Option.some.inj heq ▸ h.points }

/-- Wherever the index sends a read of the segment, it finds the records from the
    offset asked for on. -/
theorem read_eq (h : Sound base files cached) (o : UInt64) (n : ℕ) :
    let filePos := OffsetIndex.lookup (cached.getD (OffsetIndex.load files.idx)) o
    filePos.toNat < maxFileSize ∧ read files.log filePos.toNat o n =
      ((recordFormat.decode files.log).drop (o.toNat - base.toNat)).take n := by
  intro filePos
  rcases OffsetIndex.lookup_cases (cached.getD (OffsetIndex.load files.idx)) o with
    h0 | ⟨e, he, hle, hpos⟩
  · have hzero : filePos.toNat = 0 := congrArg UInt64.toNat h0
    rw [hzero, Storage.read_eq, List.drop_zero, fromOffset_of_numbered h.numbered]
    exact ⟨by decide, rfl⟩
  · have hpoints := h.points e he
    have hfile : filePos.toNat = e.filePosition.toNat := congrArg UInt64.toNat hpos
    rw [hfile]
    constructor
    · obtain ⟨i, -, -, hi⟩ := hpoints
      have hle :=
        @Format.length_encodeAll_take_le _ _ recordFormat (recordFormat.decode files.log) i
      rw [← h.log_eq, ← hi] at hle
      exact hle.trans_lt h.length_lt
    · have hread := hpoints.read_eq h.numbered hle n
      rwa [← h.log_eq] at hread

/-- The entries due for a batch are at the positions its records are written to. -/
theorem mem_dueEntries {batch : List Record} {pos : UInt64} {e : IndexEntry}
    (he : e ∈ PartitionStore.dueEntries base batch pos) :
    ∃ i r, batch[i]? = some r ∧ e.offset = r.offset ∧
      e.filePosition = pos + UInt64.ofNat (recordFormat.encodeAll (batch.take i)).length := by
  induction batch generalizing pos with
  | nil => simp [PartitionStore.dueEntries] at he
  | cons cmd rest ih =>
    rw [PartitionStore.dueEntries, List.mem_append] at he
    rcases he with he | he
    · split_ifs at he
      · rw [List.mem_singleton] at he
        exact ⟨0, cmd, rfl, by rw [he], by rw [he]; simp⟩
      · simp at he
    · obtain ⟨i, r, hr, hoff, hpos⟩ := ih he
      refine ⟨i + 1, r, by simpa using hr, hoff, ?_⟩
      rw [hpos, List.take_succ_cons, Format.encodeAll_cons, List.length_append, UInt64.ofNat_add,
        ← UInt64.add_assoc]
      exact congrArg (fun n => pos + UInt64.ofNat n + _) (Record.length_encode cmd).symm

/-- The entries due for a batch that goes on with the offsets point at its records. -/
theorem points_dueEntries {rs batch : List Record} {pos : UInt64} {e : IndexEntry}
    (he : e ∈ PartitionStore.dueEntries base batch pos)
    (hpos : pos.toNat = (recordFormat.encodeAll rs).length)
    (hbatch : Numbered (base.toNat + rs.length) batch)
    (hlt : (recordFormat.encodeAll (rs ++ batch)).length < 2 ^ 64) :
    e.Points base.toNat (rs ++ batch) := by
  obtain ⟨i, r, hr, hoff, hfile⟩ := mem_dueEntries he
  obtain ⟨hi, rfl⟩ := List.getElem?_eq_some_iff.1 hr
  refine ⟨rs.length + i, by rw [List.length_append]; omega, ?_, ?_⟩
  · rw [hoff, hbatch.offset_getElem hi, Nat.add_assoc]
  · -- The position does not wrap: it lies within the log.
    have hle := @Format.length_encodeAll_take_le _ _ recordFormat batch i
    rw [Format.encodeAll_append, List.length_append] at hlt
    rw [hfile, PartitionStore.toNat_add_ofNat (by omega), hpos, List.take_length_add_append,
      Format.encodeAll_append, List.length_append]

/-- Writing a batch that goes on with the offsets keeps the segment sound. -/
theorem write (h : Sound base files cached) {batch : List Record} {pos : UInt64}
    (hpos : pos.toNat = files.log.length)
    (hbatch : Numbered (base.toNat + (recordFormat.decode files.log).length) batch)
    (hlt : (files.log ++ recordFormat.encodeAll batch).length < maxFileSize) :
    Sound base
      ⟨files.log ++ recordFormat.encodeAll batch,
        files.idx ++ indexFormat.encodeAll (PartitionStore.dueEntries base batch pos)⟩ cached := by
  set rs := recordFormat.decode files.log with hrs
  have hlog : files.log ++ recordFormat.encodeAll batch = recordFormat.encodeAll (rs ++ batch) := by
    rw [Format.encodeAll_append, ← h.log_eq]
  have hdec : recordFormat.decode (files.log ++ recordFormat.encodeAll batch) = rs ++ batch := by
    rw [hlog, Format.decode_encodeAll]
  obtain ⟨entries, hidx, hpoints⟩ := h.idx
  refine ⟨?_, ?_, hlt, ⟨entries ++ PartitionStore.dueEntries base batch pos, ?_, fun e he => ?_⟩,
    fun es hes e he => ?_⟩
  · rw [hdec]; exact hlog
  · rw [hdec]; exact numbered_append.2 ⟨h.numbered, hbatch⟩
  · rw [Format.encodeAll_append, ← hidx]
  · -- The entries that are due count the positions on from the end of the log.
    rw [hdec]
    rcases List.mem_append.1 he with he | he
    · exact (hpoints e he).append batch
    · exact points_dueEntries he (by rw [hpos, ← h.log_eq]) hbatch
        (by rw [← hlog]; exact hlt.trans (by decide))
  · rw [hdec]; exact (h.cached es hes e he).append batch

end Sound

/-! ## Indexed stores -/

namespace PartitionStore

variable {κ : Type} {s s' s₀ : PartitionStore κ} {e : Event κ} {es : List (Event κ)}

/-- The records in the log of the segment `base`. -/
def records (s : PartitionStore κ) (base : UInt64) : List Record := recordFormat.decode (s.log base)

/-- The segments are sound, there are no others, they follow one another, and the
    writer is at the end of the active one. -/
structure Indexed (s : PartitionStore κ) : Prop where
  sound : ∀ base ∈ s.segments, Sound base (s.dir.files base) (s.segmentCache.lookup base)
  mem_dir : ∀ base, base ∈ s.dir ↔ base ∈ s.segments
  mem_cache : ∀ base ∈ s.segmentCache, base ∈ s.segments
  adjacent : Adjacent UInt64.toNat s.records s.segments
  lt_active : ∀ base ∈ s.sealedSegments, base < s.writer.baseOffset
  nextOffset : s.writer.nextOffset.toNat =
    s.writer.baseOffset.toNat + (s.records s.writer.baseOffset).length
  bytesWritten : s.writer.bytesWritten.toNat = (s.log s.writer.baseOffset).length

theorem mem_segments_active (s : PartitionStore κ) : s.writer.baseOffset ∈ s.segments := by
  simp [segments]

theorem findSegmentFor_mem {o base : UInt64} (h : s.findSegmentFor o = some base) :
    base ∈ s.segments := by
  unfold findSegmentFor at h
  dsimp only at h
  split_ifs at h
  · exact List.mem_append_left _ (List.mem_of_getElem? h)
  · cases h
    exact s.mem_segments_active

theorem findSegmentFor_le {o base : UInt64} (h : s.findSegmentFor o = some base) : base ≤ o := by
  unfold findSegmentFor at h
  dsimp only at h
  split_ifs at h with hit hle
  · obtain ⟨base', hget, hfail⟩ :=
      (@upperBound_pred _ (fun b : UInt64 => decide (o < b)) s.sealedSegments).resolve_left hit
    rw [hget, Option.some.injEq] at h
    exact h ▸ UInt64.not_lt.1 (of_decide_eq_false hfail)
  · cases h
    exact hle

/-- The rotation leaves the files as they are. -/
theorem files_rotate (base : UInt64) : s.rotate.dir.files base = s.dir.files base :=
  files_openFiles s.dir _ base

theorem records_rotate : s.rotate.records = s.records :=
  funext fun base =>
    congrArg (fun f => recordFormat.decode (SegmentFiles.log f)) (files_rotate base)

theorem mem_segments_rotate {base : UInt64} :
    base ∈ s.rotate.segments ↔ base ∈ s.segments ∨ base = s.writer.nextOffset := by
  rw [← List.mem_singleton, ← List.mem_append]
  rfl

namespace Indexed

/-- What the threads do to the other parts of the state does not matter. -/
theorem frame (h : Indexed s) (hdir : s'.dir = s.dir) (hw : s'.writer = s.writer)
    (hs : s'.sealedSegments = s.sealedSegments) (hc : s'.segmentCache = s.segmentCache) :
    Indexed s' := by
  cases s
  cases s'
  dsimp only at hdir hw hs hc
  subst hdir hw hs hc
  exact ⟨h.sound, h.mem_dir, h.mem_cache, h.adjacent, h.lt_active, h.nextOffset, h.bytesWritten⟩

theorem not_mem_sealed (h : Indexed s) : s.writer.baseOffset ∉ s.sealedSegments := fun hmem =>
  UInt64.lt_irrefl _ (h.lt_active _ hmem)

theorem records_afterWrite (h : Indexed s) (batch : List Record) (last : UInt64) :
    (s.afterWrite batch last).records s.writer.baseOffset =
      s.records s.writer.baseOffset ++ batch := by
  have hold := (h.sound _ s.mem_segments_active).log_eq
  rw [records, log, files_afterWrite_self]
  dsimp only
  rw [hold, ← Format.encodeAll_append, Format.decode_encodeAll]
  rfl

theorem afterWrite (h : Indexed s) {batch : List Record} (last : UInt64)
    (hbatch : Numbered s.writer.nextOffset.toNat batch)
    (hlt : s.writer.nextOffset.toNat + batch.length < 2 ^ 64)
    (hlen : (s.log s.writer.baseOffset ++ recordFormat.encodeAll batch).length < maxFileSize) :
    Indexed (s.afterWrite batch last) where
  sound base hmem := by
    by_cases hb : base = s.writer.baseOffset
    · rw [hb, files_afterWrite_self]
      exact (h.sound _ s.mem_segments_active).write h.bytesWritten (h.nextOffset ▸ hbatch) hlen
    · rw [files_afterWrite_ne hb]
      exact h.sound base hmem
  mem_dir base := by
    rw [show (base ∈ (s.afterWrite batch last).dir ↔ _) from AList.mem_insert _, h.mem_dir]
    exact ⟨fun hb => hb.elim (fun hb => hb ▸ s.mem_segments_active) id, .inr⟩
  mem_cache := h.mem_cache
  adjacent := by
    -- Only the active segment grows, and the blocks before it end where they did.
    refine h.adjacent.congr fun base hmem => ?_
    have hne : base ≠ s.writer.baseOffset := fun hb => h.not_mem_sealed (hb ▸ hmem)
    rw [records, log, files_afterWrite_ne hne]
    rfl
  lt_active := h.lt_active
  nextOffset := by
    change (s.writer.nextOffset + UInt64.ofNat batch.length).toNat = _
    rw [toNat_add_ofNat hlt, h.nextOffset, Nat.add_assoc, ← List.length_append,
      ← h.records_afterWrite batch last]
    rfl
  bytesWritten := by
    have hsum : s.writer.bytesWritten.toNat + (recordFormat.encodeAll batch).length < 2 ^ 64 := by
      rw [h.bytesWritten, ← List.length_append]
      exact hlen.trans (by decide)
    change (s.writer.bytesWritten + UInt64.ofNat (recordFormat.encodeAll batch).length).toNat = _
    rw [toNat_add_ofNat hsum, h.bytesWritten, ← List.length_append]
    exact congrArg (·.log.length) (files_afterWrite_self s batch last).symm

/-- A full segment is not empty, so that the next one starts behind it. -/
theorem lt_nextOffset (h : Indexed s) (hfull : logSegmentMaxBytes ≤ s.writer.bytesWritten.toNat) :
    s.writer.baseOffset < s.writer.nextOffset := by
  rw [UInt64.lt_iff_toNat_lt, h.nextOffset]
  have hne : s.records s.writer.baseOffset ≠ [] := by
    intro hnil
    have hlog := (h.sound _ s.mem_segments_active).log_eq
    rw [records, log] at hnil
    rw [hnil, Format.encodeAll_nil] at hlog
    rw [h.bytesWritten, log, hlog] at hfull
    exact absurd hfull (by decide)
  have := List.length_pos_of_ne_nil hne
  omega

theorem lookup_erase_cache (h : Indexed s) {base : UInt64} (hmem : base ∈ s.segments) :
    Sound base (s.dir.files base) ((s.segmentCache.erase s.writer.baseOffset).lookup base) := by
  by_cases hb : base = s.writer.baseOffset
  · rw [hb, AList.lookup_erase]
    exact (h.sound _ s.mem_segments_active).uncached
  · rw [AList.lookup_erase_ne hb]
    exact h.sound base hmem

theorem lt_of_mem_segments (h : Indexed s)
    (hfull : logSegmentMaxBytes ≤ s.writer.bytesWritten.toNat) {base : UInt64}
    (hmem : base ∈ s.segments) : base < s.writer.nextOffset := by
  have hlt := h.lt_nextOffset hfull
  rcases List.mem_append.1 hmem with hmem | hmem
  · exact UInt64.lt_trans (h.lt_active base hmem) hlt
  · rwa [List.mem_singleton.1 hmem]

/-- The records of every segment lie before the next offset. -/
theorem end_le (h : Indexed s) {base : UInt64} (hmem : base ∈ s.segments) :
    base.toNat + (s.records base).length ≤ s.writer.nextOffset.toNat := by
  have hadj := h.adjacent
  rcases List.mem_append.1 hmem with hmem | hmem
  · obtain ⟨pre, post, hs⟩ := List.append_of_mem hmem
    rw [segments, hs, List.append_assoc, List.cons_append] at hadj
    have hle := Adjacent.le_start (List.isChain_append.1 hadj).2.1 s.writer.baseOffset (by simp)
    have := h.nextOffset
    omega
  · rw [List.mem_singleton.1 hmem, h.nextOffset]

/-- The new segment is a new one: there are no files of it, and no index in memory. -/
theorem nextOffset_notMem (h : Indexed s)
    (hfull : logSegmentMaxBytes ≤ s.writer.bytesWritten.toNat) :
    s.writer.nextOffset ∉ s.dir ∧ s.writer.nextOffset ∉ s.segmentCache := by
  have hnew : s.writer.nextOffset ∉ s.segments := fun hmem =>
    UInt64.lt_irrefl _ (h.lt_of_mem_segments hfull hmem)
  exact ⟨fun hmem => hnew ((h.mem_dir _).1 hmem), fun hmem => hnew (h.mem_cache _ hmem)⟩

theorem rotate (h : Indexed s) (hfull : logSegmentMaxBytes ≤ s.writer.bytesWritten.toNat) :
    Indexed s.rotate := by
  -- The name of the new segment is new, to the directory and to the cache.
  obtain ⟨hdir, hcache⟩ := h.nextOffset_notMem hfull
  have hempty : s.dir.files s.writer.nextOffset = {} := by
    rw [Dir.files, AList.lookup_eq_none.2 hdir, Option.getD_none]
  have hnone : (s.segmentCache.erase s.writer.baseOffset).lookup s.writer.nextOffset = none :=
    AList.lookup_eq_none.2 fun hmem => hcache (AList.mem_erase.1 hmem).2
  exact {
    sound := by
      intro base hmem
      rw [files_rotate]
      rcases mem_segments_rotate.1 hmem with hmem | rfl
      · exact h.lookup_erase_cache hmem
      · rw [hempty]
        exact hnone ▸ Sound.fresh _
    mem_dir := by
      intro base
      have hmem : base ∈ s.rotate.dir ↔ base = s.writer.nextOffset ∨ base ∈ s.dir := by
        rw [PartitionStore.rotate, openFiles, if_neg hdir, AList.mem_insert]
      rw [hmem, mem_segments_rotate, ← h.mem_dir, or_comm]
    mem_cache := fun base hmem =>
      mem_segments_rotate.2 (.inl (h.mem_cache base (AList.mem_erase.1 hmem).2))
    adjacent := by
      rw [records_rotate]
      exact h.adjacent.snoc h.nextOffset
    lt_active := fun base hmem => h.lt_of_mem_segments hfull hmem
    nextOffset := by
      rw [records_rotate, records, PartitionStore.rotate, log, hempty, Format.decode_nil]
      rfl
    bytesWritten := by
      rw [log, files_rotate, PartitionStore.rotate, hempty]
      rfl }

theorem fetch (h : Indexed s) (o : UInt64) (n : ℕ) : Indexed (s.fetch o n).2 := by
  rw [PartitionStore.fetch]
  split
  · exact h
  · rename_i base hbase
    have hmem := findSegmentFor_mem hbase
    refine ⟨fun base' hmem' => ?_, h.mem_dir, fun base' hmem' => ?_, h.adjacent, h.lt_active,
      h.nextOffset, h.bytesWritten⟩
    · by_cases hb : base' = base
      · subst hb
        rw [show AList.lookup _ _ = _ from AList.lookup_insert _]
        exact (h.sound base' hmem).cache
      · rw [show AList.lookup _ _ = _ from AList.lookup_insert_ne hb]
        exact h.sound base' hmem'
    · rcases (AList.mem_insert _).1 hmem' with rfl | hmem'
      · exact hmem
      · exact h.mem_cache base' hmem'

end Indexed

theorem Step.indexed (hl : s.Loaded) (h : Indexed s)
    (hbatch : ∀ batch, s.io = .taken batch → Numbered s.writer.nextOffset.toNat batch ∧
      s.writer.nextOffset.toNat + batch.length < 2 ^ 64)
    (hst : Step s e s') : Indexed s' := by
  cases hst with
  | append payload now hacc => rw [append_of_accepted hacc]; exact h.frame rfl rfl rfl rfl
  | refuse payload now hrej => rw [append_of_rejected hrej]; exact h
  | register offset cb => rw [setOnceCommitCallback_snd]; exact h.frame rfl rfl rfl rfl
  | write hio hw =>
    obtain ⟨last, hlast⟩ := hl.getLast? hio
    obtain ⟨rfl, hlen⟩ := writeBatch_eq_some hlast hw
    obtain ⟨hnum, hlt⟩ := hbatch _ hio
    exact (h.afterWrite last.offset hnum hlt hlen).frame rfl rfl rfl rfl
  | endRound hio =>
    rw [PartitionStore.endRound]
    split_ifs with hfull
    · exact (h.rotate hfull).frame rfl rfl rfl rfl
    · exact h.frame rfl rfl rfl rfl
  | fetch offset maxCount => exact h.fetch offset maxCount
  | takeFirst | takeMore | takeDone | notify | shutDown | stop => exact h.frame rfl rfl rfl rfl

/-- The batch in flight goes on with the offsets, as long as they fit. -/
theorem Queued.numbered_inFlight {b : UInt64} (h : Queued b es s)
    (hlt : b.toNat + (accepted es).length < 2 ^ 64) :
    Numbered s.writer.nextOffset.toNat s.inFlight ∧
      s.writer.nextOffset.toNat + s.inFlight.length < 2 ^ 64 := by
  have hlen : (writtenRecords es).length + s.inFlight.length ≤ (accepted es).length := by
    rw [← h.accepted_eq, List.length_append, List.length_append]
    omega
  have hfit : s.writer.nextOffset.toNat + s.inFlight.length < 2 ^ 64 := by
    rw [h.toNat_writerNextOffset hlt]
    omega
  exact ⟨(h.writerNextOffset ▸ h.consecutive_inFlight).numbered hfit, hfit⟩

theorem Run.indexed (hrun : Run Step s₀ es s) (hf : Fresh s₀) (h : Indexed s₀)
    (hlt : s₀.nextOffset.toNat + (accepted es).length < 2 ^ 64) : Indexed s := by
  refine hrun.invariant (I := fun es s =>
    s₀.nextOffset.toNat + (accepted es).length < 2 ^ 64 → Indexed s) (fun _ => h) ?_ hlt
  intro es s e s' hr ih hst hlt
  rw [accepted_snoc, List.length_append] at hlt
  have hlt' : s₀.nextOffset.toNat + (accepted es).length < 2 ^ 64 := by omega
  exact hst.indexed (Run.loaded hr hf.loaded) (ih hlt') fun batch hio =>
    inFlight_of_taken hio ▸ (Run.queued hr hf).numbered_inFlight hlt'

/-! ## The whole log -/

/-- The records of all segments, the oldest first. -/
def wholeLog (s : PartitionStore κ) : List Record := s.segments.flatMap s.records

/-- The records of blocks that follow one another are numbered through. -/
theorem numbered_flatMap {records : UInt64 → List Record} {base : UInt64} {bases : List UInt64}
    (hadj : Adjacent UInt64.toNat records (base :: bases))
    (hnum : ∀ b ∈ base :: bases, Numbered b.toNat (records b)) :
    Numbered base.toNat ((base :: bases).flatMap records) := by
  induction bases generalizing base with
  | nil =>
    rw [List.flatMap_singleton]
    exact hnum base List.mem_cons_self
  | cons b bases ih =>
    obtain ⟨hstart, hadj⟩ := adjacent_cons_cons.1 hadj
    rw [List.flatMap_cons, numbered_append, ← hstart]
    exact ⟨hnum base List.mem_cons_self, ih hadj fun b' hb => hnum b' (List.mem_cons_of_mem _ hb)⟩

/-- The whole log is numbered up to the next offset. -/
theorem Indexed.numbered_wholeLog (h : Indexed s) :
    ∃ b, Numbered b s.wholeLog ∧ b + s.wholeLog.length = s.writer.nextOffset.toNat := by
  obtain ⟨a, l, hal⟩ : ∃ a l, s.segments = a :: l := by
    cases hseg : s.segments with
    | nil => exact absurd s.mem_segments_active (by simp [hseg])
    | cons a l => exact ⟨a, l, rfl⟩
  have hadj := h.adjacent
  have hlast : s.segments.getLast? = some s.writer.baseOffset := by simp [segments]
  rw [hal] at hadj hlast
  refine ⟨a.toNat, ?_, ?_⟩
  · rw [wholeLog, hal]
    exact numbered_flatMap hadj fun b hb => (h.sound b (hal ▸ hb)).numbered
  · rw [wholeLog, hal, h.nextOffset, hadj.end_eq hlast]

theorem wholeLog_congr (hdir : s'.dir = s.dir) (hseg : s'.segments = s.segments) :
    s'.wholeLog = s.wholeLog := by
  rw [wholeLog, wholeLog, hseg]
  refine List.flatMap_congr fun base _ => ?_
  rw [records, records, log, log, hdir]

/-- The batch written comes to the end of the log. -/
theorem Indexed.wholeLog_afterWrite (h : Indexed s) (batch : List Record) (last : UInt64) :
    (s.afterWrite batch last).wholeLog = s.wholeLog ++ batch := by
  have hrest : s.sealedSegments.flatMap (s.afterWrite batch last).records =
      s.sealedSegments.flatMap s.records :=
    List.flatMap_congr fun base hmem => by
      have hne : base ≠ s.writer.baseOffset := fun hb => h.not_mem_sealed (hb ▸ hmem)
      rw [records, log, files_afterWrite_ne hne]
      rfl
  rw [wholeLog, wholeLog, segments, segments, List.flatMap_append, List.flatMap_append,
    List.flatMap_singleton, List.flatMap_singleton, List.append_assoc,
    ← h.records_afterWrite batch last]
  exact congrArg (· ++ _) hrest

/-- A new segment is empty. -/
theorem Indexed.wholeLog_rotate (h : Indexed s)
    (hfull : logSegmentMaxBytes ≤ s.writer.bytesWritten.toNat) :
    s.rotate.wholeLog = s.wholeLog := by
  have hdir := (h.nextOffset_notMem hfull).1
  have hempty : s.records s.writer.nextOffset = [] := by
    rw [records, log, Dir.files, AList.lookup_eq_none.2 hdir]
    exact Format.decode_nil
  have hseg : s.rotate.segments = s.segments ++ [s.writer.nextOffset] := rfl
  rw [wholeLog, wholeLog, records_rotate, hseg, List.flatMap_append, List.flatMap_singleton, hempty,
    List.append_nil]

/-- A step appends to the whole log what it writes. -/
theorem Step.wholeLog_eq (hl : s.Loaded) (h : Indexed s) (hst : Step s e s') :
    s'.wholeLog = s.wholeLog ++ e.written := by
  rcases hst.segment_cases hl with ha | ⟨batch, last, -, -, rfl, rfl⟩ | ⟨batch, -, rfl, rfl⟩
  · rw [ha.written, List.append_nil]
    exact wholeLog_congr ha.dir (by rw [segments, segments, ha.writer, ha.sealedSegments])
  · exact (wholeLog_congr rfl rfl).trans (h.wholeLog_afterWrite batch last.offset)
  · refine ((wholeLog_congr rfl rfl).trans ?_).trans (List.append_nil _).symm
    rw [PartitionStore.endRound]
    split_ifs with hfull
    · exact h.wholeLog_rotate hfull
    · rfl

/-! ## Fetching from a segment -/

/-- Once a segment is chosen, a fetch finds its records from the offset on. -/
theorem Indexed.fetch_eq (h : Indexed s) {o base : UInt64} (hfind : s.findSegmentFor o = some base)
    (n : ℕ) :
    (s.fetch o n).1 = some (((s.records base).drop (o.toNat - base.toNat)).take n) := by
  have hmem := findSegmentFor_mem hfind
  obtain ⟨hlt, hread⟩ := (h.sound base hmem).read_eq o n
  rw [PartitionStore.fetch]
  rw [hfind]
  dsimp only
  rw [indexOf, if_pos ⟨(h.mem_dir base).2 hmem, hlt⟩, hread]
  rfl

/-- Without sealed segments, the active one is read. -/
theorem findSegmentFor_of_nil (hs : s.sealedSegments = []) {o : UInt64}
    (ho : s.writer.baseOffset ≤ o) : s.findSegmentFor o = some s.writer.baseOffset := by
  rw [findSegmentFor, hs]
  exact if_pos ho

/-- The last sealed segment that does not start behind the offset is read. -/
theorem findSegmentFor_of_sealed {pre post : List UInt64} {o base : UInt64}
    (hs : s.sealedSegments = pre ++ base :: post) (hpre : ∀ b ∈ pre, b ≤ o) (hbase : base ≤ o)
    (hpost : ∀ b ∈ post, o < b) : s.findSegmentFor o = some base := by
  have hub : upperBound (fun b : UInt64 => decide (o < b)) s.sealedSegments = pre.length + 1 := by
    rw [hs, ← List.singleton_append, ← List.append_assoc, upperBound_append, List.length_append,
      List.length_singleton]
    · intro b hb
      rcases List.mem_append.1 hb with hb | hb
      · simpa using hpre b hb
      · rw [List.mem_singleton.1 hb]
        simpa using hbase
    · simpa using hpost
  rw [findSegmentFor, hub, if_pos (Nat.succ_ne_zero _), hs, Nat.add_sub_cancel,
    List.getElem?_append_right (Nat.le_refl _), Nat.sub_self]
  rfl

/-! ## Every committed record is served, until a segment is sealed -/

/-- As soon as a segment is sealed, the records of the active one are not found. -/
theorem Indexed.fetch_of_active (h : Indexed s) (hne : s.sealedSegments ≠ []) {o : UInt64}
    (ho : s.writer.baseOffset ≤ o) (n : ℕ) : (s.fetch o n).1 = some [] := by
  obtain ⟨pre, base, hs⟩ := List.eq_nil_or_concat s.sealedSegments |>.resolve_left hne
  rw [List.concat_eq_append] at hs
  have hle : ∀ b ∈ s.sealedSegments, b ≤ o := fun b hb =>
    UInt64.le_trans (UInt64.le_of_lt (h.lt_active b hb)) ho
  rw [h.fetch_eq (findSegmentFor_of_sealed hs (fun b hb => hle b (by simp [hs, hb]))
    (hle base (by simp [hs])) (by simp))]
  -- The last sealed segment ends where the active one starts.
  have hadj := h.adjacent
  rw [segments, hs] at hadj
  have hend := hadj.start_eq
  have := UInt64.le_iff_toNat_le.1 ho
  rw [List.drop_of_length_le (by omega), List.take_nil]

/-- The answer starts with the record that was accepted with the offset `o`, and
    goes on with the offsets. -/
def Serves (es : List (Event κ)) (o : UInt64) (found : Option (List Record)) : Prop :=
  ∃ r rs, found = some (r :: rs) ∧ .appended r ∈ es ∧ Numbered o.toNat (r :: rs)

theorem mem_accepted {r : Record} : r ∈ accepted es ↔ .appended r ∈ es := by
  rw [accepted, List.mem_flatMap]
  constructor
  · rintro ⟨e, he, hr⟩
    cases e <;> simp [Event.accepted] at hr
    rwa [hr]
  · exact fun h => ⟨_, h, by simp [Event.accepted]⟩

/-- An offset is served from the segment it lies in. -/
theorem Indexed.serves (h : Indexed s) {o base : UInt64} (hfind : s.findSegmentFor o = some base)
    (hle : base.toNat ≤ o.toNat) {r : Record}
    (hr : (s.records base)[o.toNat - base.toNat]? = some r) (hacc : r ∈ accepted es) {n : ℕ}
    (hn : 1 ≤ n) : Serves es o (s.fetch o n).1 := by
  obtain ⟨hlt, rfl⟩ := List.getElem?_eq_some_iff.1 hr
  obtain ⟨m, rfl⟩ : ∃ m, n = m + 1 := ⟨n - 1, by omega⟩
  have hnum : Numbered base.toNat (s.records base) :=
    (h.sound base (findSegmentFor_mem hfind)).numbered
  have hdrop := (hnum.drop hlt.le).take (m + 1)
  rw [Nat.add_sub_cancel' hle, List.drop_eq_getElem_cons hlt, List.take_succ_cons] at hdrop
  refine ⟨_, _, ?_, mem_accepted.1 hacc, hdrop⟩
  rw [h.fetch_eq hfind, List.drop_eq_getElem_cons hlt, List.take_succ_cons]

theorem files_open_empty (options : StorageOptions) (base : UInt64) :
    («open» ∅ options : PartitionStore κ).dir.files base = {} :=
  files_openFiles ∅ 0 base

theorem nextOffset_open_empty (options : StorageOptions) :
    («open» ∅ options : PartitionStore κ).nextOffset = 0 := rfl

theorem indexed_open_empty (options : StorageOptions) :
    Indexed («open» ∅ options : PartitionStore κ) where
  sound base _ := by
    rw [files_open_empty]
    exact Sound.fresh base
  mem_dir base := (AList.mem_insert _).trans
    (by simp [segments, «open», recoverPartition, Dir.logPaths])
  mem_cache base hmem := absurd hmem (AList.notMem_empty base)
  adjacent := adjacent_singleton _
  lt_active := by simp [«open», recoverPartition, Dir.logPaths]
  nextOffset := by
    rw [records, log, files_open_empty, Format.decode_nil]
    rfl
  bytesWritten := by
    rw [log, files_open_empty]
    rfl

section Empty

variable {options : StorageOptions} (hrun : Run Step («open» ∅ options) es s)
  (hlt : (accepted es).length < 2 ^ 64)

include hrun hlt

theorem Run.indexed_of_empty : Indexed s :=
  Run.indexed hrun (fresh_open _ _) (indexed_open_empty options)
    (by simpa [nextOffset_open_empty] using hlt)

/-- The segments of a store that was opened on an empty directory hold the records
    written, one after the other. -/
theorem Run.flatMap_records : s.segments.flatMap s.records = writtenRecords es := by
  have hfresh : Fresh («open» ∅ options : PartitionStore κ) := fresh_open _ _
  obtain ⟨bases, hlaid⟩ := Run.laidOut hrun hfresh (Nat.le_refl _)
    (by simpa [nextOffset_open_empty] using hlt)
  rw [← hlaid.records, segments, hlaid.sealed_eq]
  refine List.flatMap_congr fun base _ => ?_
  rw [records, Run.log_eq hrun hfresh.loaded, log, files_open_empty, List.nil_append,
    Format.decode_encodeAll]

/-- An offset below the committed one lies in one of the segments. -/
theorem Run.exists_segment {o : UInt64} (ho : o < s.committedOffset) :
    ∃ pre base post r, s.segments = pre ++ base :: post ∧ base ≤ o ∧
      (s.records base)[o.toNat - base.toNat]? = some r ∧ r ∈ accepted es ∧
      (∀ b ∈ pre, b ≤ o) ∧ ∀ b ∈ post, o < b := by
  have hfresh : Fresh («open» ∅ options : PartitionStore κ) := fresh_open _ _
  have hq := Run.queued hrun hfresh
  have hzero : («open» ∅ options : PartitionStore κ).nextOffset.toNat = 0 := rfl
  have hlt' : («open» ∅ options : PartitionStore κ).nextOffset.toNat + (accepted es).length <
      2 ^ 64 := by
    rwa [hzero, Nat.zero_add]
  have hind := Run.indexed_of_empty hrun hlt
  have hrec := Run.flatMap_records hrun hlt
  have hnext := hq.toNat_writerNextOffset hlt'
  rw [UInt64.lt_iff_toNat_lt, hq.toNat_committedOffset hlt'] at ho
  obtain ⟨a, l, hal⟩ : ∃ a l, s.segments = a :: l := by
    cases hseg : s.segments with
    | nil => exact absurd s.mem_segments_active (by simp [hseg])
    | cons a l => exact ⟨a, l, rfl⟩
  have hadj := hind.adjacent
  have hlast : s.segments.getLast? = some s.writer.baseOffset := by simp [segments]
  rw [hal] at hadj hlast hrec
  -- The segments are adjacent blocks that end at the next offset, so one of them has the offset.
  have hend := hadj.end_eq hlast
  rw [← hind.nextOffset, hnext, hrec] at hend
  obtain ⟨pre, base, post, hsplit, hle, hlt, hget, hpre, hpost⟩ :=
    hadj.exists_block (o := o.toNat) (by omega) (by rw [hrec]; omega)
  refine ⟨pre, base, post, _, hal.trans hsplit, UInt64.le_iff_toNat_le.2 hle,
    List.getElem?_eq_getElem (by omega), ?_, fun b hb => UInt64.le_iff_toNat_le.2 (hpre b hb),
    fun b hb => UInt64.lt_iff_toNat_lt.2 (hpost b hb)⟩
  rw [← hq.accepted_eq, List.append_assoc, ← hrec]
  refine List.mem_append_left _ (List.mem_of_getElem? (i := o.toNat - a.toNat) ?_)
  rw [hget, List.getElem?_eq_getElem]

end Empty

/-- The segment that a committed record lies in is the one looked into, unless it is the active
    one and others are sealed. -/
theorem Run.serves {options : StorageOptions} (hrun : Run Step («open» ∅ options) es s)
    (hlt : (accepted es).length < 2 ^ 64) {o : UInt64} (ho : o < s.committedOffset) {n : ℕ}
    (hn : 1 ≤ n) (hcase : s.sealedSegments = [] ∨ o < s.writer.baseOffset) :
    Serves es o (s.fetch o n).1 := by
  obtain ⟨pre, base, post, r, hseg, hle, hr, hacc, hpre, hpost⟩ := Run.exists_segment hrun hlt ho
  refine (Run.indexed_of_empty hrun hlt).serves ?_ (UInt64.le_iff_toNat_le.1 hle) hr hacc hn
  rcases List.eq_nil_or_concat post with rfl | ⟨post, last, rfl⟩
  · -- The offset lies in the active segment.
    obtain ⟨hs, hb⟩ := List.append_inj' hseg rfl
    rw [List.cons.injEq] at hb
    rw [← hb.1] at hle ⊢
    refine findSegmentFor_of_nil (hcase.resolve_right fun h => ?_) hle
    exact UInt64.lt_irrefl _ (UInt64.lt_of_lt_of_le h hle)
  · -- The offset lies in a sealed segment.
    rw [List.concat_eq_append, ← List.cons_append, ← List.append_assoc] at hseg
    obtain ⟨hs, -⟩ := List.append_inj' hseg rfl
    exact findSegmentFor_of_sealed hs hpre hle fun b hb =>
      hpost b (by rw [List.concat_eq_append]; exact List.mem_append_left _ hb)

/-- In every run of a store opened on an empty directory, a committed record is
    served if no segment is sealed yet, or if it lies in a sealed segment, and not
    otherwise. -/
theorem fetch_served_iff {options : StorageOptions} (hrun : Run Step («open» ∅ options) es s)
    (hlt : (accepted es).length < 2 ^ 64) {o : UInt64} (ho : o < s.committedOffset) {n : ℕ}
    (hn : 1 ≤ n) :
    Serves es o (s.fetch o n).1 ↔ s.sealedSegments = [] ∨ o < s.writer.baseOffset := by
  refine ⟨?_, Run.serves hrun hlt ho hn⟩
  rintro ⟨r, rs, hfound, -, -⟩
  by_contra hcon
  rw [not_or, UInt64.not_lt] at hcon
  rw [(Run.indexed_of_empty hrun hlt).fetch_of_active hcon.1 hcon.2] at hfound
  exact absurd hfound (by simp)

/-- One record, not yet sealed, is served. -/
theorem fetch_served_publishedOne :
    let s₀ : PartitionStore Unit := «open» ∅ {}
    Serves (s₀.publishOneEvents ⟨[7], by decide⟩ 5) 0
      ((s₀.publishedOne ⟨[7], by decide⟩ 5).fetch 0 1).1 :=
  (fetch_served_iff (@Idle.run_publishedOne Unit («open» ∅ {}) ⟨[7], by decide⟩ 5
    ⟨rfl, rfl, rfl, rfl⟩ (by decide) (by decide) (by decide) (by decide)) (by decide) (by decide)
    (Nat.le_refl 1)).2 (.inl (by decide))

/-- A payload that fills a segment, and that the default options let in. -/
def fullPayload : Payload :=
  ⟨List.replicate (64 * 1024 * 1024) 0, by rw [List.length_replicate]; decide⟩

/-- Not every committed record is served: the first record fills the segment, and
    the second, in the next one, is not found. -/
theorem not_forall_serves :
    ¬∀ (options : StorageOptions) (es : List (Event Unit)) (s : PartitionStore Unit),
      Run Step («open» ∅ options) es s → (accepted es).length < 2 ^ 64 →
      ∀ o < s.committedOffset, ∀ n ≥ 1, Serves es o (s.fetch o n).1 := by
  intro hall
  let s₀ : PartitionStore Unit := «open» ∅ {}
  have hlen : fullPayload.bytes.length = 64 * 1024 * 1024 := List.length_replicate
  have h₀ : Idle s₀ := ⟨rfl, rfl, rfl, rfl⟩
  have hrun₁ : Run Step s₀ (s₀.publishOneEvents fullPayload 0) (s₀.publishedOne fullPayload 0) :=
    h₀.run_publishedOne (by decide) (by rw [hlen]; decide) (by rw [hlen]; decide) (by decide)
  obtain ⟨hsealed₁, hwriter₁⟩ := @publishedOne_of_full Unit s₀ fullPayload 0 (by rw [hlen]; decide)
  have h₁ : Idle (s₀.publishedOne fullPayload 0) := h₀.publishedOne
  have hopt₁ : (s₀.publishedOne fullPayload 0).options = {} := options_publishedOne
  have hnext₁ : (s₀.publishedOne fullPayload 0).nextOffset = 1 := nextOffset_publishedOne
  -- The second segment is a new one.
  have hfiles₁ : (s₀.publishedOne fullPayload 0).dir.files 1 = {} := by
    rw [files_publishedOne, files_writtenOne_ne (by decide)]
    exact files_open_empty _ _
  generalize s₀.publishedOne fullPayload 0 = s₁ at *
  have hbase₁ : s₁.writer.baseOffset = 1 := by rw [hwriter₁]; rfl
  have hrun₂ : Run Step s₁ (s₁.publishOneEvents ⟨[1], by decide⟩ 0)
      (s₁.publishedOne ⟨[1], by decide⟩ 0) :=
    h₁.run_publishedOne (by rw [hopt₁]; decide) (by rw [hopt₁]; decide)
      (by rw [hbase₁, log, hfiles₁]; decide) (by rw [hbase₁, hfiles₁]; decide)
  obtain ⟨hsealed₂, hbase₂⟩ := @publishedOne_of_not_full Unit s₁ ⟨[1], by decide⟩ 0
    (by rw [hwriter₁]; decide)
  have hrun := hrun₁.append hrun₂
  have hlt : (accepted (s₀.publishOneEvents fullPayload 0 ++
      s₁.publishOneEvents ⟨[1], by decide⟩ 0)).length < 2 ^ 64 := by
    rw [accepted, List.flatMap_append, List.length_append]
    exact (by decide : 1 + 1 < 2 ^ 64)
  obtain ⟨r, rs, hfound, -, -⟩ := hall _ _ _ hrun hlt 1
    (by rw [committedOffset_publishedOne, hnext₁]; decide) 1 (Nat.le_refl 1)
  rw [(Run.indexed_of_empty hrun hlt).fetch_of_active (by rw [hsealed₂, hsealed₁]; simp)
    (by rw [hbase₂, hbase₁]; decide)] at hfound
  exact absurd hfound (by simp)

end PartitionStore

end Fell.Storage
