import Fell.Storage.Segments

/-!
# Closing and opening again

A store that is closed has written all that it accepted. Opened again on its directory,
it finds the segments by the names of their files, and its place in the last one by
reading it. All that it finds was there before (`Resumable`), as long as the base offset
of the active segment is not beyond the next offset.

* `open_after_stop`: the store that is opened again is at the place of the one that was
  closed, and no file is changed.

The segments are a chain: each holds the records up to the next, and its index is the one
of its records (`Chained`).

* `chained_of_life`: so it stays, however often the store is closed and opened again.
-/

namespace Fell.Storage

open Platform

/-! ## Paths -/

theorem Dir.nodup_logPaths (dir : Dir) : dir.logPaths.Nodup :=
  (List.perm_insertionSort _ _).nodup_iff.2 dir.keys_nodup

theorem Dir.pairwise_lt_logPaths (dir : Dir) : dir.logPaths.Pairwise (· < ·) :=
  (dir.pairwise_logPaths.and dir.nodup_logPaths).imp fun h =>
    UInt64.lt_of_le_of_ne h.1 h.2

/-- The paths are told by the segments that there are. -/
theorem Dir.logPaths_eq {dir : Dir} {bases : List UInt64} (hmem : ∀ base, base ∈ dir ↔ base ∈ bases)
    (hlt : bases.Pairwise (· < ·)) : dir.logPaths = bases := by
  have hnodup : bases.Nodup := hlt.imp UInt64.ne_of_lt
  refine List.Perm.eq_of_pairwise (fun _ _ _ _ => UInt64.le_antisymm) dir.pairwise_logPaths
    (hlt.imp UInt64.le_of_lt) ?_
  refine (List.perm_ext_iff_of_nodup dir.nodup_logPaths hnodup).2 fun base => ?_
  rw [Dir.mem_logPaths, hmem]

namespace PartitionStore

variable {κ : Type} {s s' s₀ : PartitionStore κ} {e : Event κ} {es : List (Event κ)} {dir : Dir}
  {options : StorageOptions}

/-! ## Opening a directory -/

theorem segments_open_of_nil (h : dir.logPaths = []) :
    («open» dir options : PartitionStore κ).segments = [0] := by
  simp [segments, «open», recoverPartition_logPaths, h]

theorem segments_open_of_ne (h : dir.logPaths ≠ []) :
    («open» dir options : PartitionStore κ).segments = dir.logPaths := by
  have hlast := List.getLast?_eq_some_getLast h
  have hbase : («open» dir options : PartitionStore κ).writer.baseOffset =
      dir.logPaths.getLast h := by
    simp [«open», recoverPartition_logPaths, h, hlast]
  rw [segments, hbase]
  refine Eq.trans ?_ (List.dropLast_append_getLast h)
  simp [«open», recoverPartition_logPaths]

/-- All segments in the directory are opened. -/
theorem mem_segments_open {base : UInt64} (h : base ∈ dir) :
    base ∈ («open» dir options : PartitionStore κ).segments := by
  have hmem : base ∈ dir.logPaths := Dir.mem_logPaths.2 h
  rwa [segments_open_of_ne (List.ne_nil_of_mem hmem)]

theorem mem_openFiles {base base' : UInt64} :
    base' ∈ openFiles dir base ↔ base' = base ∨ base' ∈ dir := by
  rw [openFiles]
  split_ifs with hmem
  · exact ⟨.inr, fun h => h.elim (fun h => h ▸ hmem) id⟩
  · exact AList.mem_insert dir

theorem mem_dir_open (base : UInt64) : base ∈ («open» dir options : PartitionStore κ).dir ↔
    base ∈ («open» dir options : PartitionStore κ).segments := by
  have hmem : base ∈ (recoverPartition dir).2 ↔ base ∈ dir.logPaths := by
    rw [← Dir.mem_logPaths, recoverPartition_logPaths]
  have hopen : base ∈ («open» dir options : PartitionStore κ).dir ↔
      base = dir.logPaths.getLast?.getD 0 ∨ base ∈ dir.logPaths := by
    rw [← hmem, ← recoverPartition_logPaths]
    exact mem_openFiles
  rw [hopen]
  by_cases hnil : dir.logPaths = []
  · rw [segments_open_of_nil hnil, hnil]
    simp
  · rw [segments_open_of_ne hnil, List.getLast?_eq_some_getLast hnil, Option.getD_some]
    exact ⟨fun h => h.elim (fun h => h ▸ List.getLast_mem hnil) id, .inr⟩

theorem pairwise_segments_open :
    («open» dir options : PartitionStore κ).segments.Pairwise (· < ·) := by
  by_cases hnil : dir.logPaths = []
  · rw [segments_open_of_nil hnil]
    exact List.pairwise_singleton _ _
  · rw [segments_open_of_ne hnil]
    exact dir.pairwise_lt_logPaths

/-- Opening a directory loses no whole record. -/
theorem records_open (base : UInt64) :
    («open» dir options : PartitionStore κ).records base =
      recordFormat.decode (dir.files base).log := by
  have hfiles : («open» dir options : PartitionStore κ).log base =
      ((recoverPartition dir).2.files base).log :=
    congrArg SegmentFiles.log (files_openFiles (recoverPartition dir).2 _ base)
  rw [records, hfiles]
  by_cases hnil : dir.logPaths = []
  · rw [recoverPartition_of_nil hnil]
  · have hlast := List.getLast?_eq_some_getLast hnil
    by_cases hbase : base = dir.logPaths.getLast hnil
    · rw [hbase, recoverPartition_log hlast, Format.decode_encodeAll]
    · rw [recoverPartition_files_ne hlast hbase]

/-! ## What is found again -/

/-- What the store knows of its segments can be read off its directory. -/
structure Resumable (s : PartitionStore κ) : Prop where
  mem_dir : ∀ base, base ∈ s.dir ↔ base ∈ s.segments
  pairwise : s.segments.Pairwise (· < ·)
  log_eq : s.log s.writer.baseOffset = recordFormat.encodeAll (s.records s.writer.baseOffset)
  nextOffset : s.writer.nextOffset =
    resumeOffset s.writer.baseOffset (s.records s.writer.baseOffset)
  bytesWritten : s.writer.bytesWritten = UInt64.ofNat (s.log s.writer.baseOffset).length

theorem resumable_open (dir : Dir) (options : StorageOptions) :
    Resumable («open» dir options : PartitionStore κ) := by
  by_cases hnil : dir.logPaths = []
  · -- There is no segment yet, and a first one is made.
    have hopen : («open» dir options : PartitionStore κ).writer = ⟨0, 0, 0⟩ := by
      simp [«open», recoverPartition_logPaths, hnil]
    have hlog : («open» dir options : PartitionStore κ).log 0 = [] := by
      have hnone : 0 ∉ dir := fun hmem => by
        rw [← Dir.mem_logPaths, hnil] at hmem
        exact absurd hmem List.not_mem_nil
      refine (congrArg SegmentFiles.log (files_openFiles (recoverPartition dir).2 _ 0)).trans ?_
      rw [recoverPartition_of_nil hnil, Dir.files, AList.lookup_eq_none.2 hnone]
      rfl
    have hrec : («open» dir options : PartitionStore κ).records 0 = [] := by
      rw [records, hlog, Format.decode_nil]
    refine ⟨mem_dir_open, pairwise_segments_open, ?_, ?_, ?_⟩ <;> rw [hopen]
    · rw [hlog, hrec, Format.encodeAll_nil]
    · rw [hrec]
      rfl
    · rw [hlog]
      rfl
  · -- The last segment goes on where its whole records end: what is behind them is cut off.
    have hlast := List.getLast?_eq_some_getLast hnil
    have hopen : («open» dir options : PartitionStore κ).writer =
        ⟨dir.logPaths.getLast hnil,
          resumeOffset (dir.logPaths.getLast hnil)
            (recordFormat.decode (dir.files (dir.logPaths.getLast hnil)).log),
          UInt64.ofNat (validLength (dir.files (dir.logPaths.getLast hnil)).log)⟩ := by
      simp [«open», recoverPartition_logPaths, hnil, hlast, recoverPartition_nextOffset hlast,
        recoverPartition_logEndPosition hlast]
    have hlog : («open» dir options : PartitionStore κ).log (dir.logPaths.getLast hnil) =
        recordFormat.encodeAll
          (recordFormat.decode (dir.files (dir.logPaths.getLast hnil)).log) :=
      (congrArg SegmentFiles.log (files_openFiles (recoverPartition dir).2 _ _)).trans
        (recoverPartition_log hlast)
    refine ⟨mem_dir_open, pairwise_segments_open, ?_, ?_, ?_⟩ <;> rw [hopen]
    · rw [hlog, records_open]
    · rw [records_open]
    · rw [hlog]
      rfl

namespace Resumable

theorem logPaths_eq (h : Resumable s) : s.dir.logPaths = s.segments :=
  Dir.logPaths_eq h.mem_dir h.pairwise

theorem logPaths_getLast? (h : Resumable s) :
    s.dir.logPaths.getLast? = some s.writer.baseOffset := by
  simp [h.logPaths_eq, segments]

/-- Opened again, the store is where it was, and no file is changed. -/
theorem open_eq (h : Resumable s) (options : StorageOptions) :
    (recoverPartition s.dir).1.truncated = false ∧
      («open» s.dir options : PartitionStore κ).dir = s.dir ∧
      («open» s.dir options : PartitionStore κ).sealedSegments = s.sealedSegments ∧
      («open» s.dir options : PartitionStore κ).writer = s.writer := by
  have hlast := h.logPaths_getLast?
  have hwhole : (s.dir.files s.writer.baseOffset).log = recordFormat.encodeAll
      (recordFormat.decode (s.dir.files s.writer.baseOffset).log) := h.log_eq
  obtain ⟨htrunc, hdir⟩ := recoverPartition_of_whole hlast hwhole
  refine ⟨htrunc, ?_, ?_, ?_⟩
  · change openFiles (recoverPartition s.dir).2 _ = s.dir
    rw [hdir, hlast, Option.getD_some, openFiles,
      if_pos ((h.mem_dir _).2 s.mem_segments_active)]
  · simp [«open», hdir, h.logPaths_eq, segments]
  · have hwriter : («open» s.dir options : PartitionStore κ).writer =
        ⟨s.writer.baseOffset, (recoverPartition s.dir).1.nextOffset,
          (recoverPartition s.dir).1.logEndPosition⟩ := by
      simp [«open», hdir, h.logPaths_eq, segments]
    have hlen : validLength (s.dir.files s.writer.baseOffset).log =
        (s.log s.writer.baseOffset).length := congrArg List.length hwhole.symm
    rw [hwriter, recoverPartition_nextOffset hlast, recoverPartition_logEndPosition hlast, hlen,
      ← h.bytesWritten]
    exact congrArg (fun n => SegmentWriter.mk _ n _) h.nextOffset.symm

/-- What the threads do to the other parts of the state does not matter. -/
theorem frame (h : Resumable s) (hdir : s'.dir = s.dir) (hw : s'.writer = s.writer)
    (hs : s'.sealedSegments = s.sealedSegments) : Resumable s' := by
  cases s
  cases s'
  dsimp only at hdir hw hs
  subst hdir hw hs
  exact ⟨h.mem_dir, h.pairwise, h.log_eq, h.nextOffset, h.bytesWritten⟩

theorem records_afterWrite (h : Resumable s) (batch : List Record) (last : UInt64) :
    (s.afterWrite batch last).records s.writer.baseOffset =
      s.records s.writer.baseOffset ++ batch := by
  rw [records, log_afterWrite_self, h.log_eq, ← Format.encodeAll_append, Format.decode_encodeAll]

theorem afterWrite (h : Resumable s) {batch : List Record} {last : Record}
    (hlast : batch.getLast? = some last)
    (hbatch : Numbered s.writer.nextOffset.toNat batch)
    (hlt : s.writer.nextOffset.toNat + batch.length < 2 ^ 64) :
    Resumable (s.afterWrite batch last.offset) := by
  have hlog := log_afterWrite_self s batch last.offset
  refine ⟨fun base => ?_, h.pairwise, ?_, ?_, ?_⟩
  · rw [show (base ∈ (s.afterWrite batch last.offset).dir ↔ _) from AList.mem_insert _, h.mem_dir]
    exact ⟨fun hb => hb.elim (fun hb => hb ▸ s.mem_segments_active) id, .inr⟩
  · refine hlog.trans ?_
    rw [h.log_eq, ← Format.encodeAll_append, ← h.records_afterWrite batch last.offset]
    rfl
  · -- The last record of the batch is the last of the log, and the next offset follows it.
    have hget : batch[batch.length - 1]? = some last := by rwa [List.getLast?_eq_getElem?] at hlast
    obtain ⟨hi, hget⟩ := List.getElem?_eq_some_iff.1 hget
    have hoff := hbatch.offset_getElem hi
    rw [hget] at hoff
    change s.writer.nextOffset + UInt64.ofNat batch.length =
      resumeOffset s.writer.baseOffset
        ((s.afterWrite batch last.offset).records s.writer.baseOffset)
    rw [h.records_afterWrite, resumeOffset, List.getLast?_append, hlast, Option.some_or,
      ← UInt64.toNat_inj, toNat_add_ofNat hlt]
    dsimp only
    rw [UInt64.toNat_add, hoff]
    have hone : (1 : UInt64).toNat = 1 := rfl
    rw [hone]
    omega
  · change s.writer.bytesWritten + UInt64.ofNat (recordFormat.encodeAll batch).length = _
    rw [h.bytesWritten, ← UInt64.ofNat_add, ← List.length_append, ← hlog]
    rfl

theorem rotate (h : Resumable s) (hlt : s.writer.baseOffset < s.writer.nextOffset) :
    Resumable s.rotate := by
  have hlt' : ∀ base ∈ s.segments, base < s.writer.nextOffset := by
    intro base hmem
    rcases List.mem_append.1 hmem with hmem | hmem
    · exact UInt64.lt_trans ((List.pairwise_append.1 h.pairwise).2.2 base hmem _
        (List.mem_singleton_self _)) hlt
    · rwa [List.mem_singleton.1 hmem]
  -- The name of the new segment is not taken, so its files are empty.
  have hnew : s.writer.nextOffset ∉ s.dir := fun hmem =>
    UInt64.lt_irrefl _ (hlt' _ ((h.mem_dir _).1 hmem))
  have hempty : s.rotate.dir.files s.writer.nextOffset = {} := by
    rw [files_rotate, Dir.files, AList.lookup_eq_none.2 hnew, Option.getD_none]
  have hlog : s.rotate.log s.writer.nextOffset = [] := congrArg SegmentFiles.log hempty
  have hrec : s.rotate.records s.writer.nextOffset = [] := by rw [records, hlog, Format.decode_nil]
  refine ⟨fun base => ?_, ?_, ?_, ?_, ?_⟩
  · rw [mem_segments_rotate, ← h.mem_dir, or_comm]
    exact mem_openFiles
  · refine List.pairwise_append.2 ⟨h.pairwise, List.pairwise_singleton _ _, fun a ha b hb => ?_⟩
    rw [List.mem_singleton.1 hb]
    exact hlt' a ha
  · change s.rotate.log s.writer.nextOffset = recordFormat.encodeAll
      (s.rotate.records s.writer.nextOffset)
    rw [hlog, hrec, Format.encodeAll_nil]
  · change s.writer.nextOffset = resumeOffset s.writer.nextOffset
      (s.rotate.records s.writer.nextOffset)
    rw [hrec]
    rfl
  · change 0 = UInt64.ofNat (s.rotate.log s.writer.nextOffset).length
    rw [hlog]
    rfl

end Resumable

/-- The active segment does not start behind the next offset, and before it once something is
    written. -/
structure Ahead (s : PartitionStore κ) : Prop where
  le : s.writer.baseOffset ≤ s.writer.nextOffset
  lt : s.HasWritten → s.writer.baseOffset < s.writer.nextOffset

theorem Step.resumable (hl : s.Loaded) (h : Resumable s) (ha : Ahead s)
    (hbatch : ∀ batch, s.io = .taken batch → Numbered s.writer.nextOffset.toNat batch ∧
      s.writer.nextOffset.toNat + batch.length < 2 ^ 64)
    (hst : Step s e s') : Resumable s' ∧ Ahead s' := by
  rcases hst.segment_cases hl with hside | ⟨batch, last, hio, hlast, rfl, rfl⟩ |
    ⟨batch, hio, rfl, rfl⟩
  · refine ⟨h.frame hside.dir hside.writer hside.sealedSegments, ?_, fun hw => ?_⟩
    · rw [hside.writer]
      exact ha.le
    · rw [hside.writer]
      exact ha.lt (hside.hasWritten hw)
  · obtain ⟨hnum, hlt⟩ := hbatch batch hio
    have hpos : 0 < batch.length := by
      cases batch with
      | nil => cases hlast
      | cons => simp
    have hahead : s.writer.baseOffset < s.writer.nextOffset + UInt64.ofNat batch.length := by
      have := UInt64.le_iff_toNat_le.1 ha.le
      rw [UInt64.lt_iff_toNat_lt, toNat_add_ofNat hlt]
      omega
    exact ⟨(h.afterWrite hlast hnum hlt).frame rfl rfl rfl, UInt64.le_of_lt hahead,
      fun _ => hahead⟩
  · -- A segment is left only when something is in it.
    have hlt := ha.lt (by simp [HasWritten, hio])
    rw [PartitionStore.endRound]
    split_ifs
    · exact ⟨(h.rotate hlt).frame rfl rfl rfl, UInt64.le_refl _, False.elim⟩
    · exact ⟨h.frame rfl rfl rfl, ha.le, False.elim⟩

theorem Run.resumable (hrun : Run Step s₀ es s) (hf : Fresh s₀) (h : Resumable s₀)
    (hbase : s₀.writer.baseOffset ≤ s₀.nextOffset)
    (hlt : s₀.nextOffset.toNat + (accepted es).length < 2 ^ 64) : Resumable s ∧ Ahead s := by
  refine hrun.invariant (I := fun es s =>
    s₀.nextOffset.toNat + (accepted es).length < 2 ^ 64 → Resumable s ∧ Ahead s)
    (fun _ => ⟨h, ?_, ?_⟩) ?_ hlt
  · rwa [hf.writerNextOffset]
  · simp [HasWritten, hf.io]
  · intro es s e s' hr ih hst hlt
    rw [accepted_snoc, List.length_append] at hlt
    have hlt' : s₀.nextOffset.toNat + (accepted es).length < 2 ^ 64 := by omega
    exact hst.resumable (Run.loaded hr hf.loaded) (ih hlt').1 (ih hlt').2 fun batch hio =>
      inFlight_of_taken hio ▸ (Run.queued hr hf).numbered_inFlight hlt'

/-! ## A clean restart -/

/-- The I/O thread stops when nothing is left to write, and nothing is accepted from then on. -/
def Drained (s : PartitionStore κ) : Prop := s.io = .stopped → s.shutdown = true ∧ s.queue = []

theorem Step.drained (h : Drained s) (hst : Step s e s') : Drained s' := by
  intro hio
  cases hst with
  | append payload now hacc =>
    rw [append_of_accepted hacc] at hio
    have hs : s.shutdown = true := (h hio).1
    rw [PartitionStore.append, if_pos hs] at hacc
    cases hacc
  | refuse payload now hrej =>
    rw [append_of_rejected hrej] at hio ⊢
    exact h hio
  | register offset cb =>
    rw [setOnceCommitCallback_snd] at hio ⊢
    exact h hio
  | fetch offset maxCount =>
    rw [fetch_snd] at hio ⊢
    exact h hio
  | shutDown => exact ⟨rfl, (h hio).2⟩
  | stop _ hs hq => exact ⟨hs, hq⟩
  | takeFirst | takeMore | takeDone | write | notify | endRound => cases hio

theorem Run.accepted_eq_of_stopped (hrun : Run Step s₀ es s) (hf : Fresh s₀)
    (hstop : s.io = .stopped) : accepted es = writtenRecords es := by
  have hdrained : Drained s := hrun.invariant (I := fun _ s => Drained s)
    (fun hio => absurd (hf.io.symm.trans hio) (by simp)) fun _ ih hst => hst.drained ih
  rw [← (Run.queued hrun hf).accepted_eq, (hdrained hstop).2, inFlight, hstop]
  simp

/-- In every run of a store whose active segment does not start behind the next offset, as long as
    the offsets fit: when it is closed and opened again, the segments are the same, the next offset
    follows all that was accepted, the writer is at the end of the active log, and no file is
    cut. -/
theorem open_after_stop (hopen : s₀ = «open» dir options)
    (hbase : s₀.writer.baseOffset ≤ s₀.nextOffset) (hrun : Run Step s₀ es s)
    (hstop : s.io = .stopped) (hlt : s₀.nextOffset.toNat + (accepted es).length < 2 ^ 64)
    (options' : StorageOptions) :
    let r : PartitionStore κ := «open» s.dir options'
    r.sealedSegments = s.sealedSegments ∧ r.writer.baseOffset = s.writer.baseOffset ∧
      r.nextOffset.toNat = s₀.nextOffset.toNat + (accepted es).length ∧
      r.committedOffset = r.nextOffset ∧
      r.writer.bytesWritten = UInt64.ofNat (r.log r.writer.baseOffset).length ∧
      (recoverPartition s.dir).1.truncated = false ∧ r.dir = s.dir := by
  intro r
  have hf : Fresh s₀ := hopen ▸ fresh_open dir options
  have hres := (Run.resumable hrun hf (hopen ▸ resumable_open dir options) hbase hlt).1
  obtain ⟨htrunc, hdir, hsealed, hwriter⟩ := hres.open_eq options'
  have hnext := (Run.queued hrun hf).toNat_writerNextOffset hlt
  refine ⟨hsealed, by rw [hwriter], ?_, rfl, (resumable_open s.dir options').bytesWritten, htrunc,
    hdir⟩
  rw [Run.accepted_eq_of_stopped hrun hf hstop, ← hnext, ← hwriter]
  rfl

/-- The destructor, of a store that has nothing to write. -/
def close (s : PartitionStore κ) : PartitionStore κ := { s with shutdown := true, io := .stopped }

theorem run_close (h : Idle s) : Run Step s [.shutDown, .stopped] s.close :=
  .cons .shutDown (.single (@Step.stop _ { s with shutdown := true } h.io rfl h.queue))

/-- A store on an empty directory has published one record, and is closed. -/
def closedOne : PartitionStore Unit := (publishedOne («open» ∅ {}) .empty 5).close

theorem run_closedOne :
    Run Step («open» ∅ {}) ((«open» ∅ {} : PartitionStore Unit).publishOneEvents .empty 5 ++
      [.shutDown, .stopped]) closedOne := by
  have hidle : Idle («open» ∅ {} : PartitionStore Unit) := ⟨rfl, rfl, rfl, rfl⟩
  exact (hidle.run_publishedOne (by decide) (by decide) (by decide) (by decide)).append
    (run_close hidle.publishedOne)

theorem open_after_stop_closed :
    let r : PartitionStore Unit := «open» closedOne.dir {}
    r.sealedSegments = closedOne.sealedSegments ∧ r.nextOffset.toNat = 1 ∧
      r.dir = closedOne.dir := by
  have h := @open_after_stop Unit _ _ _ ∅ {} rfl (by decide) run_closedOne rfl (by decide) {}
  exact ⟨h.1, h.2.2.1, h.2.2.2.2.2.2⟩

/-! ## A crash of the process -/

/-- The records written to a segment are among those that its log holds, and nothing else is in
    it. -/
def Holds (s : PartitionStore κ) (base : UInt64) (rs : List Record) : Prop :=
  rs ≠ [] → s.log base = recordFormat.encodeAll (s.records base) ∧ rs ⊆ s.records base

/-- Only the active segment is written to. -/
theorem Step.eq_baseOffset_of_writtenTo (hl : s.Loaded) (hst : Step s e s') {base : UInt64}
    (h : e.writtenTo base ≠ []) : base = s.writer.baseOffset := by
  rcases hst.segment_cases hl with hside | ⟨batch, last, -, -, rfl, -⟩ | ⟨batch, -, rfl, -⟩
  · exact absurd (Event.writtenTo_eq_nil hside.written base) h
  · by_contra hb
    exact h (if_neg (Ne.symm hb))
  · exact absurd rfl h

theorem Step.holds (hl : s.Loaded) (hres : Resumable s) (hst : Step s e s') {base : UInt64}
    {rs : List Record} (h : Holds s base rs) : Holds s' base (rs ++ e.writtenTo base) := by
  have hlog := hst.log_eq hl base
  by_cases hnil : e.writtenTo base = []
  · rw [hnil, Format.encodeAll_nil, List.append_nil] at hlog
    rw [hnil, List.append_nil, Holds, records, hlog]
    exact h
  · -- What is in the log of the active segment can be read, and so can what is written behind it.
    have hwhole : s'.log base = recordFormat.encodeAll (s.records base ++ e.writtenTo base) := by
      obtain rfl := hst.eq_baseOffset_of_writtenTo hl hnil
      rw [hlog, Format.encodeAll_append, ← hres.log_eq]
    have hrec : s'.records base = s.records base ++ e.writtenTo base := by
      rw [records, hwhole, Format.decode_encodeAll]
    refine fun _ => ⟨by rw [hrec, hwhole], ?_⟩
    rw [hrec]
    refine List.append_subset.2 ⟨fun r hr => ?_, List.subset_append_right _ _⟩
    exact List.mem_append_left _ ((h (List.ne_nil_of_mem hr)).2 hr)

theorem Run.holds (hrun : Run Step s₀ es s) (hf : Fresh s₀) (h : Resumable s₀)
    (hbase : s₀.writer.baseOffset ≤ s₀.nextOffset)
    (hlt : s₀.nextOffset.toNat + (accepted es).length < 2 ^ 64) (base : UInt64) :
    Holds s base (writtenTo base es) := by
  refine hrun.invariant (I := fun es s => s₀.nextOffset.toNat + (accepted es).length < 2 ^ 64 →
    Holds s base (writtenTo base es)) (fun _ hne => absurd rfl hne) ?_ hlt
  intro es s e s' hr ih hst hlt
  rw [accepted_snoc, List.length_append] at hlt
  have hlt' : s₀.nextOffset.toNat + (accepted es).length < 2 ^ 64 := by omega
  rw [writtenTo_snoc]
  exact hst.holds (Run.loaded hr hf.loaded) (Run.resumable hr hf h hbase hlt').1 (ih hlt')

/-- The directory that a crash of the process leaves: whatever was being written comes behind what
    is in the log of the active segment. -/
def interrupted (s : PartitionStore κ) (tail idx : Bytes) : Dir :=
  s.dir.insert s.writer.baseOffset ⟨s.log s.writer.baseOffset ++ tail, idx⟩

/-- A record that is written is found again after a crash of the process. -/
theorem Run.mem_records_open (hrun : Run Step s₀ es s) (hf : Fresh s₀) (h : Resumable s₀)
    (hbase : s₀.writer.baseOffset ≤ s₀.nextOffset)
    (hlt : s₀.nextOffset.toNat + (accepted es).length < 2 ^ 64) {r : Record}
    (hr : r ∈ writtenRecords es) (tail idx : Bytes) (options : StorageOptions) :
    ∃ base ∈ («open» (s.interrupted tail idx) options : PartitionStore κ).segments,
      r ∈ («open» (s.interrupted tail idx) options : PartitionStore κ).records base := by
  obtain ⟨base, hmem⟩ : ∃ base, r ∈ writtenTo base es := by
    obtain ⟨e, he, hr⟩ := List.mem_flatMap.1 hr
    cases e with
    | wrote base batch =>
      refine ⟨base, List.mem_flatMap.2 ⟨_, he, ?_⟩⟩
      rwa [Event.writtenTo, if_pos rfl]
    | _ => exact absurd hr List.not_mem_nil
  -- The segment it was written to holds it, and nothing that cannot be read before it.
  obtain ⟨hwhole, hsub⟩ := Run.holds hrun hf h hbase hlt base (List.ne_nil_of_mem hmem)
  have hrec : r ∈ s.records base := hsub hmem
  have hdir : base ∈ s.dir := by
    by_contra hnone
    rw [records, log, Dir.files, AList.lookup_eq_none.2 hnone] at hrec
    exact absurd hrec (by simp [Format.decode_nil])
  refine ⟨base, mem_segments_open ((AList.mem_insert _).2 (.inr hdir)), ?_⟩
  rw [records_open]
  by_cases hb : base = s.writer.baseOffset
  · subst hb
    rw [interrupted, Dir.files_insert_self]
    dsimp only
    rw [hwhole, Format.decode_encodeAll_append]
    exact List.mem_append_left _ hrec
  · rw [interrupted, Dir.files_insert_ne hb]
    exact hrec

/-! ## The index -/

/-- The index of records in a segment, which other ones come before: an entry for those at a
    distance from the base offset of so many, with the position behind the ones before. -/
def sparseIndex (base : UInt64) (before : List Record) : List Record → List IndexEntry
  | [] => []
  | r :: rs =>
    (if (r.offset.toNat - base.toNat) % indexInterval = 0 then
      [⟨r.offset, UInt64.ofNat (recordFormat.encodeAll before).length⟩] else []) ++
        sparseIndex base (before ++ [r]) rs

theorem sparseIndex_append (base : UInt64) (before rs rs' : List Record) :
    sparseIndex base before (rs ++ rs') =
      sparseIndex base before rs ++ sparseIndex base (before ++ rs) rs' := by
  induction rs generalizing before with
  | nil => simp [sparseIndex]
  | cons r rs ih => simp [sparseIndex, ih]

/-- The entries are in the order of the records. -/
theorem sparseIndex_sublist (base : UInt64) (before rs : List Record) :
    ((sparseIndex base before rs).map (·.offset)).Sublist (rs.map (·.offset)) := by
  induction rs generalizing before with
  | nil => simp [sparseIndex]
  | cons r rs ih =>
    rw [sparseIndex]
    split_ifs
    · exact (ih _).cons_cons _
    · exact (ih _).cons _

/-- The entries that a batch is written with are those of its records. -/
theorem dueEntries_eq {base pos : UInt64} {before batch : List Record}
    (hpos : pos = UInt64.ofNat (recordFormat.encodeAll before).length)
    (hle : ∀ r ∈ batch, base ≤ r.offset) :
    dueEntries base batch pos = sparseIndex base before batch := by
  induction batch generalizing before pos with
  | nil => rfl
  | cons r rest ih =>
    obtain ⟨hr, hrest⟩ := List.forall_mem_cons.1 hle
    have hdue : indexDue base r ↔ (r.offset.toNat - base.toNat) % indexInterval = 0 := by
      rw [indexDue, UInt64.toNat_sub_of_le _ _ hr]
    have hnext : pos + UInt64.ofNat r.diskSize =
        UInt64.ofNat (recordFormat.encodeAll (before ++ [r])).length := by
      have hlen : (recordFormat.encodeAll [r]).length = r.diskSize := by
        rw [Format.encodeAll_cons, Format.encodeAll_nil, List.append_nil]
        exact Record.length_encode r
      rw [hpos, Format.encodeAll_append, List.length_append, UInt64.ofNat_add, hlen]
    rw [dueEntries, sparseIndex, ih hnext hrest, ← hpos]
    simp only [hdue]

/-- The index of every segment is the one of its records. -/
def Exact (s : PartitionStore κ) : Prop :=
  ∀ base ∈ s.segments, (s.dir.files base).idx =
    indexFormat.encodeAll (sparseIndex base [] (s.records base))

namespace Exact

theorem frame (h : Exact s) (hdir : s'.dir = s.dir) (hseg : s'.segments = s.segments) :
    Exact s' := by
  intro base hmem
  rw [hseg] at hmem
  rw [records, log, hdir]
  exact h base hmem

theorem afterWrite (h : Exact s) (hres : Resumable s) (ha : Ahead s) {batch : List Record}
    (last : UInt64) (hbatch : Numbered s.writer.nextOffset.toNat batch) :
    Exact (s.afterWrite batch last) := by
  intro base hmem
  by_cases hb : base = s.writer.baseOffset
  · have hle : ∀ r ∈ batch, s.writer.baseOffset ≤ r.offset := by
      intro r hr
      exact UInt64.le_trans ha.le (UInt64.le_iff_toNat_le.2 (hbatch.le_offset hr))
    have hpos : s.writer.bytesWritten =
        UInt64.ofNat (recordFormat.encodeAll (s.records s.writer.baseOffset)).length := by
      rw [hres.bytesWritten, hres.log_eq]
    rw [hb, hres.records_afterWrite, files_afterWrite_self, sparseIndex_append, List.nil_append,
      ← dueEntries_eq hpos hle, Format.encodeAll_append, ← h _ s.mem_segments_active]
  · rw [records, log, files_afterWrite_ne hb]
    exact h base hmem

theorem rotate (h : Exact s) (hnew : s.writer.nextOffset ∉ s.dir) : Exact s.rotate := by
  intro base hmem
  rw [records_rotate, files_rotate]
  rcases mem_segments_rotate.1 hmem with hmem | rfl
  · exact h base hmem
  · rw [records, log, Dir.files, AList.lookup_eq_none.2 hnew, Option.getD_none, Format.decode_nil]
    rfl

end Exact

theorem Step.exact (hl : s.Loaded) (h : Exact s) (hres : Resumable s) (ha : Ahead s)
    (hind : Indexed s)
    (hbatch : ∀ batch, s.io = .taken batch → Numbered s.writer.nextOffset.toNat batch)
    (hst : Step s e s') : Exact s' := by
  rcases hst.segment_cases hl with hside | ⟨batch, last, hio, hlast, rfl, rfl⟩ |
    ⟨batch, hio, rfl, rfl⟩
  · exact h.frame hside.dir (by rw [segments, segments, hside.writer, hside.sealedSegments])
  · exact (h.afterWrite hres ha last.offset (hbatch batch hio)).frame rfl rfl
  · rw [PartitionStore.endRound]
    split_ifs with hfull
    · exact (h.rotate (hind.nextOffset_notMem hfull).1).frame rfl rfl
    · exact h.frame rfl rfl

/-! ## The chain of segments -/

/-- The segments are a chain: there are files of no others; their base offsets increase; the records
    of each have the offsets from its own base offset to the next one, those of the last up to the
    next offset; there is nothing else in the logs, and the writer is at the end of the last one;
    and the indexes are those of the records, in increasing order. -/
structure Chained (s : PartitionStore κ) : Prop where
  mem_dir : ∀ base, base ∈ s.dir ↔ base ∈ s.segments
  increasing : s.segments.Pairwise (· < ·)
  between : ∀ i base next, s.segments[i]? = some base → s.segments[i + 1]? = some next →
    (s.records base).map (·.offset.toNat) = List.range' base.toNat (next.toNat - base.toNat)
  active : (s.records s.writer.baseOffset).map (·.offset.toNat) =
    List.range' s.writer.baseOffset.toNat
      (s.writer.nextOffset.toNat - s.writer.baseOffset.toNat)
  log_eq : ∀ base ∈ s.segments, s.log base = recordFormat.encodeAll (s.records base)
  bytesWritten : s.writer.bytesWritten.toNat = (s.log s.writer.baseOffset).length
  index : ∀ base ∈ s.segments,
    indexFormat.decode (s.dir.files base).idx = sparseIndex base [] (s.records base) ∧
      ((indexFormat.decode (s.dir.files base).idx).map (·.offset)).Pairwise (· < ·)

/-- What keeps the segments a chain. -/
structure Linked (s : PartitionStore κ) : Prop where
  indexed : Indexed s
  resumable : Resumable s
  ahead : Ahead s
  exact : Exact s

/-- Numbered records are in increasing order. -/
theorem pairwise_offset {b : ℕ} {rs : List Record} (h : Numbered b rs) :
    (rs.map (·.offset)).Pairwise (· < ·) := by
  have hrange : (rs.map (·.offset.toNat)).Pairwise (· < ·) := h ▸ List.pairwise_lt_range'
  rw [List.pairwise_map] at hrange ⊢
  exact hrange.imp UInt64.lt_iff_toNat_lt.2

theorem Linked.chained (h : Linked s) : Chained s where
  mem_dir := h.resumable.mem_dir
  increasing := h.resumable.pairwise
  between i base next hi hnext := by
    obtain ⟨hlt, hbase⟩ := List.getElem?_eq_some_iff.1 hi
    obtain ⟨hlt', hnext⟩ := List.getElem?_eq_some_iff.1 hnext
    have hadj := List.isChain_iff_getElem.1 h.indexed.adjacent i (by omega)
    rw [hbase, hnext] at hadj
    rw [hadj, Nat.add_sub_cancel_left]
    exact (h.indexed.sound base (hbase ▸ List.getElem_mem hlt)).numbered
  active := by
    rw [h.indexed.nextOffset, Nat.add_sub_cancel_left]
    exact (h.indexed.sound _ s.mem_segments_active).numbered
  log_eq base hmem := (h.indexed.sound base hmem).log_eq
  bytesWritten := h.indexed.bytesWritten
  index base hmem := by
    rw [h.exact base hmem, Format.decode_encodeAll]
    exact ⟨rfl, (pairwise_offset (h.indexed.sound base hmem).numbered).sublist
      (sparseIndex_sublist base [] _)⟩

theorem linked_open_empty (options : StorageOptions) :
    Linked («open» ∅ options : PartitionStore κ) where
  indexed := indexed_open_empty options
  resumable := resumable_open ∅ options
  ahead := ⟨UInt64.le_refl _, False.elim⟩
  exact base _ := by
    rw [records, log, files_open_empty, Format.decode_nil]
    rfl

/-- Closing the store and opening it again keeps the chain. -/
theorem Linked.reopen (h : Linked s) (options : StorageOptions) :
    Linked («open» s.dir options : PartitionStore κ) := by
  obtain ⟨-, hdir, hsealed, hwriter⟩ := h.resumable.open_eq options
  have hseg : («open» s.dir options : PartitionStore κ).segments = s.segments := by
    rw [segments, segments, hsealed, hwriter]
  have hrec : («open» s.dir options : PartitionStore κ).records = s.records :=
    funext fun base => by rw [records, log, hdir, records, log]
  have hind := h.indexed
  refine ⟨⟨fun base hmem => ?_, ?_, fun base hmem => ?_, ?_, ?_, ?_, ?_⟩, resumable_open _ _,
    ⟨?_, ?_⟩, h.exact.frame hdir hseg⟩
  · rw [hdir]
    exact (hind.sound base (hseg ▸ hmem)).uncached
  · rw [hdir, hseg]
    exact hind.mem_dir
  · exact absurd hmem (AList.notMem_empty base)
  · rw [hrec, hseg]
    exact hind.adjacent
  · rw [hsealed, hwriter]
    exact hind.lt_active
  · rw [hrec, hwriter]
    exact hind.nextOffset
  · rw [log, hdir, hwriter]
    exact hind.bytesWritten
  · rw [hwriter]
    exact h.ahead.le
  · exact False.elim

theorem Run.linked (hrun : Run Step s₀ es s) (hf : Fresh s₀) (h : Linked s₀)
    (hlt : s₀.nextOffset.toNat + (accepted es).length < 2 ^ 64) : Linked s := by
  refine hrun.invariant (I := fun es s =>
    s₀.nextOffset.toNat + (accepted es).length < 2 ^ 64 → Linked s) (fun _ => h) ?_ hlt
  intro es s e s' hr ih hst hlt
  rw [accepted_snoc, List.length_append] at hlt
  have hlt' : s₀.nextOffset.toNat + (accepted es).length < 2 ^ 64 := by omega
  obtain ⟨hind, hres, ha, hex⟩ := ih hlt'
  have hl := Run.loaded hr hf.loaded
  have hbatch : ∀ batch, s.io = .taken batch → Numbered s.writer.nextOffset.toNat batch ∧
      s.writer.nextOffset.toNat + batch.length < 2 ^ 64 := fun batch hio =>
    inFlight_of_taken hio ▸ (Run.queued hr hf).numbered_inFlight hlt'
  obtain ⟨hres', ha'⟩ := hst.resumable hl hres ha hbatch
  exact ⟨hst.indexed hl hind hbatch, hres', ha', hst.exact hl hex hres ha hind fun batch hio =>
    (hbatch batch hio).1⟩

/-! ## Lives -/

/-- What happens in a step of a store that may be closed and opened again. -/
inductive LifeEvent (κ : Type)
  | lived (e : Event κ)
  | reopened (options : StorageOptions)

/-- A step of the store, or a clean restart: the store is closed, which waits for the I/O thread to
    stop, and opened again. -/
inductive LifeStep (s : PartitionStore κ) : LifeEvent κ → PartitionStore κ → Prop
  | live {e : Event κ} {s' : PartitionStore κ} (hst : Step s e s') : LifeStep s (.lived e) s'
  | reopen (options : StorageOptions) (hstop : s.io = .stopped) :
      LifeStep s (.reopened options) («open» s.dir options)

/-- The command accepted in a step. -/
def LifeEvent.accepted : LifeEvent κ → List Record
  | .lived e => e.accepted
  | .reopened _ => []

/-- The commands accepted, in all lives. -/
def acceptedInLife (es : List (LifeEvent κ)) : List Record := es.flatMap LifeEvent.accepted

/-- The store is in a life that began with a chain of segments, behind all that was accepted in the
    lives before. -/
def InLife (es : List (LifeEvent κ)) (s : PartitionStore κ) : Prop :=
  ∃ (s₀ : PartitionStore κ) (es' : List (Event κ)), Fresh s₀ ∧ Linked s₀ ∧ Run Step s₀ es' s ∧
    s₀.nextOffset.toNat + (accepted es').length = (acceptedInLife es).length

theorem InLife.linked {es : List (LifeEvent κ)} (h : InLife es s)
    (hlt : (acceptedInLife es).length < 2 ^ 64) : Linked s := by
  obtain ⟨s₀, es', hf, hlinked, hrun, hlen⟩ := h
  exact Run.linked hrun hf hlinked (hlen ▸ hlt)

theorem LifeStep.inLife {es : List (LifeEvent κ)} {e : LifeEvent κ} (h : InLife es s)
    (hlt : (acceptedInLife es).length < 2 ^ 64) (hst : LifeStep s e s') :
    InLife (es ++ [e]) s' := by
  have hlinked := h.linked hlt
  obtain ⟨s₀, es', hf, hlinked₀, hrun, hlen⟩ := h
  cases hst with
  | @live e s' hst =>
    refine ⟨s₀, es' ++ [e], hf, hlinked₀, hrun.snoc hst, ?_⟩
    have hcons : acceptedInLife (es ++ [.lived e]) = acceptedInLife es ++ e.accepted := by
      simp [acceptedInLife, LifeEvent.accepted]
    rw [hcons, accepted_snoc, List.length_append, List.length_append, ← Nat.add_assoc, hlen]
  | reopen options hstop =>
    obtain ⟨-, -, -, hwriter⟩ := hlinked.resumable.open_eq options
    have hcons : acceptedInLife (es ++ [.reopened options]) = acceptedInLife es := by
      simp [acceptedInLife, LifeEvent.accepted]
    refine ⟨_, [], fresh_open _ _, hlinked.reopen options, .nil, ?_⟩
    have hnext := (Run.queued hrun hf).toNat_writerNextOffset (hlen ▸ hlt)
    rw [← Run.accepted_eq_of_stopped hrun hf hstop, hlen, ← hwriter] at hnext
    rw [hcons]
    exact hnext

/-- In every run of a store from an empty directory, with any number of clean restarts, as long as
    the offsets fit: the segments are a chain. -/
theorem chained_of_life {es : List (LifeEvent κ)} (hrun : Run LifeStep («open» ∅ options) es s)
    (hlt : (acceptedInLife es).length < 2 ^ 64) : Chained s := by
  have hlife : InLife es s := by
    refine hrun.invariant (I := fun es s => (acceptedInLife es).length < 2 ^ 64 → InLife es s)
      (fun _ => ⟨_, [], fresh_open _ _, linked_open_empty options, .nil, rfl⟩) ?_ hlt
    intro es s e s' hr ih hst hlt
    have hle : (acceptedInLife es).length ≤ (acceptedInLife (es ++ [e])).length := by
      simp [acceptedInLife]
    exact hst.inLife (ih (hle.trans_lt hlt)) (hle.trans_lt hlt)
  exact (hlife.linked hlt).chained

/-- A run is a life without a restart. -/
theorem Run.lived (hrun : Run Step s₀ es s) : Run LifeStep s₀ (es.map .lived) s := by
  induction hrun with
  | nil => exact .nil
  | snoc _ hst ih =>
    rw [List.map_append]
    exact ih.snoc (.live hst)

theorem chained_of_life_reopened :
    Chained ((«open» closedOne.dir {} : PartitionStore Unit).publishedOne .empty 6) := by
  have hidle : Idle («open» closedOne.dir {} : PartitionStore Unit) := ⟨rfl, rfl, rfl, rfl⟩
  have hagain := @Idle.run_publishedOne _ _ .empty 6 hidle (by decide) (by decide) (by decide)
    (by decide)
  have hreopened := (Run.lived run_closedOne).snoc (.reopen {} rfl)
  exact chained_of_life (hreopened.append (Run.lived hagain)) (by decide)

end PartitionStore

end Fell.Storage
