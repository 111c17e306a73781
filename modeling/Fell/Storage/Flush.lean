import Fell.Storage.Backlog
import Fell.Storage.Reopen

/-!
# What an outage takes

What is written to a file is on the disk when the file is flushed. The I/O thread flushes the
files of the active segment before it goes on to another, when enough records have been written
since the last flush, when enough time has passed, and at its end (`io_loop` in
`storage/partition_store.cpp`). It looks at this at the end of a round, when the records of it
are committed and the callbacks have been called. So an outage may take records that are committed.

* `Covered`: what is not flushed are the last records of the active segment, as many as
  `records_since_flush_` counts and those of the present round;
* `Step.covered`, `Run.covered`: so it is throughout;
* `lost_of_outage`: an outage takes records from the end of the log only, fewer than
  `flush_every_records`, or one if that is zero, and one batch, and none from a store that is
  closed.

An outage leaves of each log what is flushed, and any part of the rest from its start on. All that
is in the directory when the store is opened counts as flushed, and as needing no recovery. That a
flush may fail is left out, and so is what becomes of the indexes.
-/

namespace Fell.Storage

open Platform

/-- How many records a batch has at most. -/
def StorageOptions.batchLimit (options : StorageOptions) : ℕ := max 1 options.maxBatchRecords

/-- How many records are written at most without a flush, up to the last round. -/
def StorageOptions.flushLimit (options : StorageOptions) : ℕ :=
  max 1 options.flushEveryRecords.toNat

namespace PartitionStore

variable {κ : Type} {s s' s₀ : PartitionStore κ} {e : Event κ} {es : List (Event κ)}

/-! ## Batches -/

/-- The batch in the hands of the I/O thread. -/
def batch (s : PartitionStore κ) : List Record :=
  match s.io with
  | .gathering batch | .taken batch | .written batch | .notified batch => batch
  | .waiting | .stopped => []

/-- The batch that is written, in a round that is not at its end. -/
def uncounted (s : PartitionStore κ) : List Record :=
  match s.io with
  | .written batch | .notified batch => batch
  | _ => []

theorem length_uncounted_le : s.uncounted.length ≤ s.batch.length := by
  rw [uncounted, batch]
  cases s.io <;> simp

/-- In its round, the I/O thread keeps the batch that is written, and does not stop. -/
theorem Step.uncounted_eq (hst : Step s e s') (hwr : e.written = []) (hend : e ≠ .ended)
    (hstop : e ≠ .stopped) :
    s'.uncounted = s.uncounted ∧ (s'.io = .stopped → s.io = .stopped) := by
  cases hst with
  | append payload now hacc =>
    rw [append_of_accepted hacc]
    exact ⟨rfl, id⟩
  | refuse payload now hrej =>
    rw [append_of_rejected hrej]
    exact ⟨rfl, id⟩
  | register offset cb =>
    rw [setOnceCommitCallback_snd]
    exact ⟨rfl, id⟩
  | fetch offset maxCount =>
    rw [fetch_snd]
    exact ⟨rfl, id⟩
  | shutDown => exact ⟨rfl, id⟩
  | takeFirst hio hq => simp [uncounted, take, hio]
  | takeMore hio hfull hq => simp [uncounted, take, hio]
  | takeDone hio => simp [uncounted, hio]
  | write hio hw =>
    obtain rfl : _ = [] := hwr
    simp [uncounted, hio]
  | notify hio => simp [uncounted, hio]
  | endRound hio => exact absurd rfl hend
  | stop hio hs hq => exact absurd rfl hstop

theorem Step.length_batch_le (hst : Step s e s')
    (h : s.batch.length ≤ s.options.batchLimit) : s'.batch.length ≤ s.options.batchLimit := by
  cases hst with
  | append payload now hacc =>
    rw [append_of_accepted hacc]
    exact h
  | refuse payload now hrej =>
    rw [append_of_rejected hrej]
    exact h
  | register offset cb =>
    rw [setOnceCommitCallback_snd]
    exact h
  | fetch offset maxCount =>
    rw [fetch_snd]
    exact h
  | takeFirst hio hq => exact le_max_left _ _
  | takeMore hio hfull hq =>
    have hlt : _ < s.options.maxBatchRecords := Nat.lt_of_not_le fun hle => hfull (.inl hle)
    refine le_trans ?_ (le_max_right _ _)
    simpa [batch, take] using hlt
  | takeDone hio => simpa [batch, hio] using h
  | write hio hw => simpa [batch, hio] using h
  | notify hio => simpa [batch, hio] using h
  | endRound hio => simp [batch]
  | shutDown => exact h
  | stop hio hs hq => simp [batch]

/-- A batch has no more records than the options tell. -/
theorem Run.length_batch_le (hrun : Run Step s₀ es s) (hf : Fresh s₀) :
    s.batch.length ≤ s₀.options.batchLimit := by
  refine hrun.invariant (I := fun _ s => s.batch.length ≤ s₀.options.batchLimit) ?_ ?_
  · simp [batch, hf.io]
  · intro es s e s' hr ih hst
    have ho := Run.options_eq hr
    rw [← ho] at ih ⊢
    exact hst.length_batch_le ih

end PartitionStore

/-! ## Flushing -/

/-- A partition store, with what the I/O thread knows of the last flush and what is on the
    disk. -/
structure Flushing (κ : Type) where
  store : PartitionStore κ
  recordsSinceFlush : UInt32
  /-- In nanoseconds. -/
  lastFlushTime : ℤ
  /-- How many bytes of the log of a segment are flushed. -/
  synced : UInt64 → ℕ

namespace Flushing

open PartitionStore (Event Fresh Resumable)

variable {κ : Type}

/-- The store is opened on a directory that is on the disk as it is. -/
def start (dir : Dir) (options : StorageOptions) (now : ℤ) : Flushing κ where
  store := .open dir options
  recordsSinceFlush := 0
  lastFlushTime := now
  synced base := (dir.files base).log.length

section

variable (s : Flushing κ)

/-- `SegmentWriter::flush`, of the active segment. -/
def flush : Flushing κ :=
  { s with
    synced := Function.update s.synced s.store.writer.baseOffset
      (s.store.log s.store.writer.baseOffset).length }

/-- `elapsed_ms`. -/
def elapsedMs (now : ℤ) : ℤ := (now - s.lastFlushTime).tdiv 1000000

/-- The records written since the last flush are enough of them, or it is long ago. -/
def flushDue (since : UInt32) (now : ℤ) : Prop :=
  s.store.options.flushEveryRecords ≤ since ∨
    (s.store.options.flushEveryMs.toNat : ℤ) ≤ s.elapsedMs now

instance (since : UInt32) (now : ℤ) : Decidable (s.flushDue since now) :=
  inferInstanceAs (Decidable (_ ∨ _))

/-- The end of a round of `io_loop`. -/
def endRound (batch : List Record) (now : ℤ) : Flushing κ :=
  let store := { s.store.endRound with io := .waiting }
  let since := s.recordsSinceFlush + UInt32.ofNat batch.length
  if logSegmentMaxBytes ≤ s.store.writer.bytesWritten.toNat then
    { s.flush with store, recordsSinceFlush := 0, lastFlushTime := now }
  else if s.flushDue since now then
    { s.flush with store, recordsSinceFlush := 0, lastFlushTime := now }
  else { s with store, recordsSinceFlush := since }

end

/-- The I/O thread stays in its loop, and in its round. -/
def Amid : Event κ → Prop
  | .ended | .stopped => False
  | _ => True

/-- A step of the store. -/
inductive Step (s : Flushing κ) : Event κ → Flushing κ → Prop
  | store {e : Event κ} {store : PartitionStore κ} (hst : PartitionStore.Step s.store e store)
      (he : Amid e) : Step s e { s with store }
  | endRound {batch : List Record} (now : ℤ) (hio : s.store.io = .notified batch) :
      Step s .ended (s.endRound batch now)
  /-- Out of the loop, the files are flushed once more. -/
  | stop {store : PartitionStore κ} (hst : PartitionStore.Step s.store .stopped store) :
      Step s .stopped { s.flush with store }

variable {s s' s₀ : Flushing κ} {e : Event κ} {es : List (Event κ)} {dir : Dir}
  {options : StorageOptions}

theorem store_endRound (batch : List Record) (now : ℤ) :
    (s.endRound batch now).store = { s.store.endRound with io := .waiting } := by
  rw [endRound]
  dsimp only
  split_ifs <;> rfl

theorem Step.store_step (hst : Step s e s') : PartitionStore.Step s.store e s'.store := by
  cases hst with
  | store hst he => exact hst
  | endRound now hio =>
    rw [store_endRound]
    exact .endRound hio
  | stop hst => exact hst

/-- A run is a run of the store. -/
theorem Run.store (hr : Run Step s₀ es s) : Run PartitionStore.Step s₀.store es s.store := by
  induction hr with
  | nil => exact .nil
  | snoc hr hst ih => exact ih.snoc hst.store_step

/-! ## What is not flushed -/

/-- All is flushed but the last records of the active segment: no more than are counted, and those
    of the present round. -/
structure Covered (s : Flushing κ) : Prop where
  sealedSegments : ∀ base ∈ s.store.sealedSegments, s.synced base = (s.store.log base).length
  active : ∃ rs lost, s.store.records s.store.writer.baseOffset = rs ++ lost ∧
    s.synced s.store.writer.baseOffset = (recordFormat.encodeAll rs).length ∧
    lost.length ≤ s.recordsSinceFlush.toNat + s.store.uncounted.length ∧
    (s.store.io = .stopped → lost = [])
  absent : ∀ base ∉ s.store.dir, s.synced base = 0
  count : s.recordsSinceFlush.toNat < s.store.options.flushLimit

theorem files_of_notMem {base : UInt64} (h : base ∉ dir) : dir.files base = {} := by
  rw [Dir.files, AList.lookup_eq_none.2 h, Option.getD_none]

/-- If recovery cuts nothing, the files are those that are found. -/
theorem log_open_of_whole (hwhole : (recoverPartition dir).2 = dir) (base : UInt64) :
    (PartitionStore.open dir options : PartitionStore κ).log base = (dir.files base).log := by
  have hfiles := PartitionStore.files_openFiles (recoverPartition dir).2
    ((recoverPartition dir).2.logPaths.getLast?.getD 0) base
  rw [hwhole] at hfiles
  refine Eq.trans ?_ (congrArg SegmentFiles.log hfiles)
  simp only [PartitionStore.log, PartitionStore.open, hwhole]

theorem covered_start (hwhole : (recoverPartition dir).2 = dir) (now : ℤ) :
    Covered (start dir options now : Flushing κ) where
  sealedSegments base _ := congrArg List.length (log_open_of_whole hwhole base).symm
  active := by
    refine ⟨_, [], (List.append_nil _).symm, ?_, Nat.zero_le _, fun _ => rfl⟩
    have hlog := (PartitionStore.resumable_open (κ := κ) dir options).log_eq
    refine Eq.trans ?_ (congrArg List.length hlog)
    exact congrArg List.length (log_open_of_whole hwhole _).symm
  absent base hbase := by
    have hnot : base ∉ dir := fun hmem =>
      hbase ((PartitionStore.mem_dir_open base).2 (PartitionStore.mem_segments_open hmem))
    exact congrArg (List.length ∘ SegmentFiles.log) (files_of_notMem hnot)
  count := Nat.lt_of_lt_of_le Nat.one_pos (le_max_left _ _)

/-- What does not concern the files. -/
theorem Covered.frame {store : PartitionStore κ} (h : Covered s) (hdir : store.dir = s.store.dir)
    (hw : store.writer = s.store.writer) (hs : store.sealedSegments = s.store.sealedSegments)
    (ho : store.options = s.store.options) (hu : store.uncounted = s.store.uncounted)
    (hio : store.io = .stopped → s.store.io = .stopped) : Covered { s with store } where
  sealedSegments base hbase := by
    rw [hs] at hbase
    rw [h.sealedSegments base hbase, PartitionStore.log, PartitionStore.log, hdir]
  active := by
    obtain ⟨rs, lost, hrec, hsync, hle, hstop⟩ := h.active
    refine ⟨rs, lost, ?_, ?_, ?_, fun hstopped => hstop (hio hstopped)⟩
    · rw [← hrec, PartitionStore.records, PartitionStore.log, hdir, hw]
      rfl
    · rw [hw]
      exact hsync
    · rw [hu]
      exact hle
  absent base hbase := h.absent base (hdir ▸ hbase)
  count := by
    rw [ho]
    exact h.count

/-- A batch is written. -/
theorem Covered.afterWrite {batch : List Record} {last : Record} (h : Covered s)
    (hres : Resumable s.store) (hsealed : s.store.writer.baseOffset ∉ s.store.sealedSegments)
    (hio : s.store.io = .taken batch) :
    Covered { s with
      store := { s.store.afterWrite batch last.offset with io := .written batch } } where
  sealedSegments base hbase := by
    have hne : base ≠ s.store.writer.baseOffset := fun heq => hsealed (heq ▸ hbase)
    rw [h.sealedSegments base hbase]
    exact congrArg List.length (PartitionStore.log_afterWrite_ne hne batch last.offset).symm
  active := by
    obtain ⟨rs, lost, hrec, hsync, hle, -⟩ := h.active
    refine ⟨rs, lost ++ batch, ?_, hsync, ?_, fun hstop => ?_⟩
    · refine (hres.records_afterWrite batch last.offset).trans ?_
      rw [hrec, List.append_assoc]
    · have hnone : s.store.uncounted = [] := by rw [PartitionStore.uncounted, hio]
      rw [hnone, List.length_nil, Nat.add_zero] at hle
      rw [List.length_append]
      exact Nat.add_le_add_right hle _
    · cases hstop
  absent base hbase := by
    refine h.absent base fun hmem => hbase ?_
    exact (AList.mem_insert _).2 (.inr hmem)
  count := h.count

/-- The active segment is flushed. -/
theorem Covered.flush (h : Covered s) (hres : Resumable s.store) {since : UInt32} {now : ℤ}
    (hcount : since.toNat < s.store.options.flushLimit) (io : IoPhase) :
    Covered { s.flush with
      store := { s.store with io := io }, recordsSinceFlush := since, lastFlushTime := now } where
  sealedSegments base hbase := by
    have hold := h.sealedSegments base hbase
    dsimp only [Flushing.flush]
    rw [Function.update_apply]
    split_ifs with heq
    · rw [heq]
      rfl
    · exact hold
  active := by
    refine ⟨_, [], (List.append_nil _).symm, ?_, Nat.zero_le _, fun _ => rfl⟩
    dsimp only [Flushing.flush]
    rw [Function.update_self]
    exact congrArg List.length hres.log_eq
  absent base hbase := by
    have hne : base ≠ s.store.writer.baseOffset := fun heq =>
      hbase (heq ▸ (hres.mem_dir _).2 s.store.mem_segments_active)
    dsimp only [Flushing.flush]
    rw [Function.update_of_ne hne]
    exact h.absent base hbase
  count := hcount

/-- A segment all of which is flushed is sealed. -/
theorem Covered.rotate (h : Covered s) (hres : Resumable s.store)
    (hlt : s.store.writer.baseOffset < s.store.writer.nextOffset)
    (hsync : s.synced s.store.writer.baseOffset =
      (s.store.log s.store.writer.baseOffset).length) :
    Covered { s with store := { s.store.rotate with io := .waiting } } := by
  have hres' := hres.rotate hlt
  have hlog : ∀ base, s.store.rotate.log base = s.store.log base := fun base =>
    congrArg SegmentFiles.log (PartitionStore.files_rotate base)
  -- The name of the new segment is not taken, as it is the last one.
  have hnew : s.store.writer.nextOffset ∉ s.store.dir := fun hmem => by
    rw [hres.mem_dir] at hmem
    have hpair := hres'.pairwise
    rw [PartitionStore.segments, List.pairwise_append] at hpair
    exact UInt64.lt_irrefl _ (hpair.2.2 _ hmem _ (List.mem_singleton_self _))
  have hempty : s.store.rotate.log s.store.writer.nextOffset = [] := by
    rw [hlog, PartitionStore.log, files_of_notMem hnew]
  refine ⟨fun base hbase => ?_, ⟨[], [], ?_, ?_, Nat.zero_le _, fun _ => rfl⟩, fun base hbase => ?_,
    h.count⟩
  · refine Eq.trans ?_ (congrArg List.length (hlog base)).symm
    rcases List.mem_append.1 hbase with hbase | hbase
    · exact h.sealedSegments base hbase
    · rw [List.mem_singleton.1 hbase]
      exact hsync
  · refine Eq.trans (congrArg recordFormat.decode hempty) ?_
    exact Format.decode_nil
  · exact h.absent _ hnew
  · exact h.absent base fun hmem => hbase (PartitionStore.mem_openFiles.2 (.inr hmem))

/-- The counter does not wrap. -/
theorem toNat_since {since : UInt32} {n : ℕ} (hcount : since.toNat < options.flushLimit)
    (hn : n ≤ options.batchLimit) (hopts : options.flushLimit + options.batchLimit ≤ 2 ^ 32) :
    (since + UInt32.ofNat n).toNat = since.toNat + n := by
  rw [UInt32.toNat_add, UInt32.toNat_ofNat', Nat.mod_eq_of_lt (a := n) (by omega),
    Nat.mod_eq_of_lt (by omega)]

theorem Step.covered (hst : Step s e s') (h : Covered s) (hl : s.store.Loaded)
    (hres : Resumable s.store) (hahead : s.store.Ahead)
    (hbatch : s.store.batch.length ≤ s.store.options.batchLimit)
    (hopts : s.store.options.flushLimit + s.store.options.batchLimit ≤ 2 ^ 32) : Covered s' := by
  have hzero : (0 : UInt32).toNat < s.store.options.flushLimit :=
    Nat.lt_of_lt_of_le Nat.one_pos (le_max_left _ _)
  cases hst with
  | @store e store hst he =>
    rcases hst.segment_cases hl with haside | ⟨batch, last, hio, hlast, rfl, rfl⟩ |
      ⟨batch, hio, rfl, rfl⟩
    · obtain ⟨hu, hstop⟩ := hst.uncounted_eq haside.written (fun heq => by rw [heq] at he; exact he)
        (fun heq => by rw [heq] at he; exact he)
      exact h.frame haside.dir haside.writer haside.sealedSegments hst.options_eq hu hstop
    · have hsealed : s.store.writer.baseOffset ∉ s.store.sealedSegments := fun hmem =>
        UInt64.lt_irrefl _ ((List.pairwise_append.1 hres.pairwise).2.2 _ hmem _
          (List.mem_singleton_self _))
      exact h.afterWrite hres hsealed hio
    · exact he.elim
  | @endRound batch now hio =>
    rw [Flushing.endRound]
    dsimp only
    split_ifs with hfull hdue
    · -- Before the segment is left, all of it is flushed.
      rw [PartitionStore.endRound_of_full hfull]
      have hlt := hahead.lt (by simp [PartitionStore.HasWritten, hio])
      refine Covered.rotate (h.flush hres hzero s.store.io) hres hlt ?_
      exact Function.update_self _ _ _
    · rw [PartitionStore.endRound_of_not_full hfull]
      exact h.flush hres hzero .waiting
    · rw [PartitionStore.endRound_of_not_full hfull]
      have hround : s.store.batch = batch := by rw [PartitionStore.batch, hio]
      have hsince := toNat_since h.count (hround ▸ hbatch) hopts
      obtain ⟨rs, lost, hrec, hsync, hle, -⟩ := h.active
      have hun : s.store.uncounted = batch := by rw [PartitionStore.uncounted, hio]
      rw [hun] at hle
      refine ⟨h.sealedSegments, ⟨rs, lost, hrec, hsync, ?_, fun hstop => ?_⟩, h.absent, ?_⟩
      · dsimp only
        rw [hsince]
        exact hle.trans (Nat.le_add_right _ _)
      · cases hstop
      · have hlt : s.recordsSinceFlush + UInt32.ofNat batch.length <
            s.store.options.flushEveryRecords :=
          UInt32.not_le.1 fun hge => hdue (.inl hge)
        exact (UInt32.lt_iff_toNat_lt.1 hlt).trans_le (le_max_right _ _)
  | stop hst =>
    cases hst with
    | stop hio hs hq => exact h.flush hres h.count .stopped

/-- The store has been opened on a directory that recovery leaves as it is, and all of which is on
    the disk. -/
structure Started (s₀ : Flushing κ) : Prop where
  opened : ∃ dir options now, (recoverPartition dir).2 = dir ∧ s₀ = start dir options now
  le : s₀.store.writer.baseOffset ≤ s₀.store.nextOffset
  options : s₀.store.options.flushLimit + s₀.store.options.batchLimit ≤ 2 ^ 32

theorem Started.fresh (h : Started s₀) : Fresh s₀.store := by
  obtain ⟨dir, options, now, -, rfl⟩ := h.opened
  exact PartitionStore.fresh_open dir options

theorem Started.resumable (h : Started s₀) : Resumable s₀.store := by
  obtain ⟨dir, options, now, -, rfl⟩ := h.opened
  exact PartitionStore.resumable_open dir options

theorem Run.covered (hr : Run Step s₀ es s) (h : Started s₀)
    (hlt : s₀.store.nextOffset.toNat + (PartitionStore.accepted es).length < 2 ^ 64) :
    Covered s := by
  refine hr.invariant (I := fun es s =>
    s₀.store.nextOffset.toNat + (PartitionStore.accepted es).length < 2 ^ 64 → Covered s)
    (fun _ => ?_) ?_ hlt
  · obtain ⟨dir, options, now, hwhole, rfl⟩ := h.opened
    exact covered_start hwhole now
  · intro es s e s' hr ih hst hlt
    rw [PartitionStore.accepted_snoc, List.length_append] at hlt
    have hlt' : s₀.store.nextOffset.toNat + (PartitionStore.accepted es).length < 2 ^ 64 := by
      omega
    have hrun := Run.store hr
    obtain ⟨hres, hahead⟩ := PartitionStore.Run.resumable hrun h.fresh h.resumable h.le hlt'
    have hoptions := PartitionStore.Run.options_eq hrun
    refine hst.covered (ih hlt') (PartitionStore.Run.loaded hrun h.fresh.loaded) hres hahead ?_ ?_
    · rw [hoptions]
      exact PartitionStore.Run.length_batch_le hrun h.fresh
    · rw [hoptions]
      exact h.options

/-! ## Outages -/

/-- What an outage leaves: of each log what is flushed and some of what follows, and no file that
    was not there. -/
structure Outage (s : Flushing κ) (dir : Dir) : Prop where
  mem : ∀ base ∈ dir, base ∈ s.store.dir
  log : ∀ base, ∃ n, s.synced base ≤ n ∧ (dir.files base).log = (s.store.log base).take n

theorem flatMap_filter_of_nil {α β : Type} {f : α → List β} {p : α → Bool} {l : List α}
    (h : ∀ a ∈ l, p a = false → f a = []) : (l.filter p).flatMap f = l.flatMap f := by
  induction l with
  | nil => rfl
  | cons a l ih =>
    have ih := ih fun b hb => h b (List.mem_cons_of_mem a hb)
    cases hp : p a with
    | true => rw [List.filter_cons_of_pos hp, List.flatMap_cons, List.flatMap_cons, ih]
    | false =>
      rw [List.filter_cons_of_neg (by simp [hp]), List.flatMap_cons, h a List.mem_cons_self hp,
        List.nil_append, ih]

/-- What is found after an outage is what it leaves of the segments, one after the other. -/
theorem Outage.wholeLog_open (h : Outage s dir) (hres : Resumable s.store) :
    (PartitionStore.open dir options : PartitionStore κ).wholeLog =
      s.store.segments.flatMap fun base => recordFormat.decode (dir.files base).log := by
  have hrec : (PartitionStore.open dir options : PartitionStore κ).records =
      fun base => recordFormat.decode (dir.files base).log :=
    funext PartitionStore.records_open
  have hpaths : dir.logPaths = s.store.segments.filter fun base => decide (base ∈ dir) := by
    refine Dir.logPaths_eq (fun base => ?_) (hres.pairwise.filter _)
    rw [List.mem_filter, decide_eq_true_eq, ← hres.mem_dir]
    exact ⟨fun hmem => ⟨h.mem base hmem, hmem⟩, And.right⟩
  have hnil : ∀ base, base ∉ dir → recordFormat.decode (dir.files base).log = [] := by
    intro base hbase
    rw [files_of_notMem hbase]
    exact Format.decode_nil
  have hflat : dir.logPaths.flatMap (fun base => recordFormat.decode (dir.files base).log) =
      s.store.segments.flatMap fun base => recordFormat.decode (dir.files base).log := by
    rw [hpaths]
    exact flatMap_filter_of_nil fun base _ hp => hnil base (of_decide_eq_false hp)
  rw [PartitionStore.wholeLog, hrec, ← hflat]
  by_cases hempty : dir.logPaths = []
  · -- Nothing is left, and a first segment is made.
    have hzero : (0 : UInt64) ∉ dir := fun hmem => by
      have := Dir.mem_logPaths.2 hmem
      rw [hempty] at this
      exact absurd this List.not_mem_nil
    rw [PartitionStore.segments_open_of_nil hempty, hempty, List.flatMap_singleton, hnil 0 hzero]
    rfl
  · rw [PartitionStore.segments_open_of_ne hempty]

/-- Of the log, some of the last records are lost, and none before those that are flushed. -/
theorem Covered.wholeLog_of_outage (h : Covered s) (hres : Resumable s.store)
    (hout : Outage s dir) (options : StorageOptions) :
    ∃ kept lost, s.store.wholeLog = kept ++ lost ∧
      (PartitionStore.open dir options : PartitionStore κ).wholeLog = kept ∧
      lost.length ≤ s.recordsSinceFlush.toNat + s.store.uncounted.length ∧
      (s.store.io = .stopped → lost = []) := by
  obtain ⟨rs, lost, hrec, hsync, hle, hstop⟩ := h.active
  have hsealed : s.store.sealedSegments.flatMap
      (fun base => recordFormat.decode (dir.files base).log) =
        s.store.sealedSegments.flatMap s.store.records := by
    refine List.flatMap_congr fun base hbase => ?_
    obtain ⟨n, hn, hlog⟩ := hout.log base
    rw [h.sealedSegments base hbase] at hn
    rw [hlog, List.take_of_length_le hn]
    rfl
  obtain ⟨n, hn, hlog⟩ := hout.log s.store.writer.baseOffset
  rw [hsync] at hn
  obtain ⟨k, hk, hdec⟩ := Format.decode_take_of_le rs lost hn
  rw [← hrec, ← hres.log_eq, ← hlog] at hdec
  refine ⟨s.store.sealedSegments.flatMap s.store.records ++ (rs ++ lost.take k), lost.drop k,
    ?_, ?_, ?_, fun hio => by rw [hstop hio, List.drop_nil]⟩
  · rw [PartitionStore.wholeLog, PartitionStore.segments, List.flatMap_append,
      List.flatMap_singleton, hrec, List.append_assoc, List.append_assoc, List.take_append_drop]
  · rw [hout.wholeLog_open hres, PartitionStore.segments, List.flatMap_append, hsealed,
      List.flatMap_singleton, hdec]
  · rw [List.length_drop]
    omega

/-- In every run of a store that is opened on a directory all of which is on the disk, and which
    recovery leaves as it is, as long as its offsets and the counter of records fit: an outage takes
    records from the end of the log only. They are fewer than `max(1, flush_every_records)` and a
    batch of `max(1, max_batch_records)` together, and there are none if the store is closed. -/
theorem lost_of_outage (h : Started s₀) (hr : Run Step s₀ es s)
    (hlt : s₀.store.nextOffset.toNat + (PartitionStore.accepted es).length < 2 ^ 64)
    (hout : Outage s dir) (options : StorageOptions) :
    ∃ lost, s.store.wholeLog =
        (PartitionStore.open dir options : PartitionStore κ).wholeLog ++ lost ∧
      lost.length < s₀.store.options.flushLimit + s₀.store.options.batchLimit ∧
      (s.store.io = .stopped → lost = []) := by
  have hrun := Run.store hr
  have hcov := Run.covered hr h hlt
  have hres := (PartitionStore.Run.resumable hrun h.fresh h.resumable h.le hlt).1
  obtain ⟨kept, lost, hlog, hkept, hle, hstop⟩ := hcov.wholeLog_of_outage hres hout options
  refine ⟨lost, hkept ▸ hlog, ?_, hstop⟩
  have hcount := hcov.count
  have hbatch := PartitionStore.Run.length_batch_le hrun h.fresh
  have hun := @PartitionStore.length_uncounted_le κ s.store
  rw [PartitionStore.Run.options_eq hrun] at hcount
  omega

/-! ### A record that is lost -/

/-- What the store does in its round. -/
theorem run_stored {store store' : PartitionStore κ} (hr : Run PartitionStore.Step store es store')
    (hes : ∀ e ∈ es, Amid e) (hs : s.store = store) : Run Step s es { s with store := store' } := by
  induction hr with
  | nil =>
    subst hs
    exact .nil
  | snoc hr hst ih =>
    refine (ih fun e he => hes e (List.mem_append_left _ he)).snoc (.store hst (hes _ ?_))
    exact List.mem_append_right _ (List.mem_singleton_self _)

/-- The store, with nothing in it. -/
def beforeOne : Flushing Unit := start ∅ {} 0

theorem started_beforeOne : Started beforeOne :=
  ⟨⟨∅, {}, 0, rfl, rfl⟩, by decide, by decide⟩

/-- A record is committed, and not flushed. -/
def committedOne : Flushing Unit :=
  { beforeOne with
    store := beforeOne.store.publishedOne ⟨[7], Payload.length_seven_lt⟩ 5
    recordsSinceFlush := 1 }

theorem run_committedOne : Run Step beforeOne
    (beforeOne.store.publishOneEvents ⟨[7], Payload.length_seven_lt⟩ 5) committedOne := by
  have hidle : beforeOne.store.Idle := ⟨rfl, rfl, rfl, rfl⟩
  have happend : Step beforeOne
      (.appended (beforeOne.store.command ⟨[7], Payload.length_seven_lt⟩ 5))
      { beforeOne with store := beforeOne.store.enqueue ⟨[7], Payload.length_seven_lt⟩ 5 } :=
    .store (hidle.step_append (by decide) (by decide)) trivial
  have hround : Run PartitionStore.Step
      (beforeOne.store.enqueue ⟨[7], Payload.length_seven_lt⟩ 5) _ _ :=
    hidle.run_notifiedOne (by decide) (by decide)
  have hnotified := run_stored (s := { beforeOne with store := _ }) hround
    (by simp [PartitionStore.notifyOneEvents, Amid]) rfl
  -- One record is not enough for a flush, and no time has passed.
  have hend : Step
      { beforeOne with store := beforeOne.store.notifiedOne ⟨[7], Payload.length_seven_lt⟩ 5 }
      .ended committedOne := by
    have hst := @Step.endRound Unit
      { beforeOne with store := beforeOne.store.notifiedOne ⟨[7], Payload.length_seven_lt⟩ 5 }
      [beforeOne.store.command ⟨[7], Payload.length_seven_lt⟩ 5] 0 rfl
    rwa [Flushing.endRound, if_neg (by decide +kernel), if_neg (by decide +kernel)] at hst
  exact .cons happend (hnotified.snoc hend)

theorem outage_committedOne : Outage committedOne ∅ where
  mem base hbase := absurd hbase (AList.notMem_empty base)
  log _ := ⟨0, Nat.le_refl 0, rfl⟩

/-- The record is lost if the power fails now. -/
theorem lost_of_outage_committedOne :
    committedOne.store.wholeLog.length = 1 ∧
      (PartitionStore.open ∅ {} : PartitionStore Unit).wholeLog = [] ∧
      ∃ lost, committedOne.store.wholeLog =
          (PartitionStore.open ∅ {} : PartitionStore Unit).wholeLog ++ lost ∧
        lost.length < beforeOne.store.options.flushLimit + beforeOne.store.options.batchLimit ∧
        (committedOne.store.io = .stopped → lost = []) :=
  ⟨by decide +kernel, by decide +kernel,
    lost_of_outage started_beforeOne run_committedOne (by decide) outage_committedOne {}⟩

end Flushing

end Fell.Storage
