import Fell.Storage.Segments

/-!
# Reading what is being written

The partition store at the grain of its accesses to the files. `write_batch` appends
index entries one by one, then the records in one call, of which a reader may see
any part, and publishes `committed_offset_` after that; a rotation first publishes
the sealed segment and then opens the next one. A `fetch` chooses a segment under the
lock, and then reads it without one, a header and a payload at a time.

The state is that of the store as of the last commit, with what the I/O thread has
appended to the files since (`Stage`), and where the fetches under way are
(`Reader`). Without the index cache, which only fetches read, a run is one of
the store (`Run.store`), and so what is known of those holds.

* `Run.placed`: a reader is at the start of a record, of the log or of the batch that
  is being written, and has collected the records from the offset asked for on (`At`);
* `returned_committed`: what a fetch returns is committed, if the records of no batch
  are being written when it returns, or if it asks for committed or sealed ones only.
-/

namespace Fell.Storage

open Platform

namespace PartitionStore

variable {κ : Type} {s s' : PartitionStore κ} {e : Event κ}

/-! ## The store without its cache -/

/-- The store with no index in memory. -/
def uncached (s : PartitionStore κ) : PartitionStore κ := { s with segmentCache := ∅ }

/-- The step works on the files or the segments. -/
def Event.OnFiles : Event κ → Prop
  | .wrote .. | .ended | .fetched .. => True
  | _ => False

/-- Nothing is done to the files and the segments, and the batch of the I/O thread, if
    anything, gets longer. -/
structure Untouched (s s' : PartitionStore κ) : Prop where
  dir : s'.dir = s.dir
  writer : s'.writer = s.writer
  sealedSegments : s'.sealedSegments = s.sealedSegments
  segmentCache : s'.segmentCache = s.segmentCache
  inFlight : s.inFlight <+: s'.inFlight
  taken : ∀ batch, s.io = .taken batch → s'.io = .taken batch
  notified : ∀ batch, s.io = .notified batch → s'.io = .notified batch

theorem untouched_of_io (hdir : s'.dir = s.dir) (hw : s'.writer = s.writer)
    (hs : s'.sealedSegments = s.sealedSegments) (hc : s'.segmentCache = s.segmentCache)
    (hio : s'.io = s.io) : Untouched s s' := by
  refine ⟨hdir, hw, hs, hc, ?_, fun _ h => hio.trans h, fun _ h => hio.trans h⟩
  rw [inFlight, inFlight, hio]

theorem Step.untouched (hst : Step s e s') (he : ¬e.OnFiles) : Untouched s s' := by
  cases hst with
  | append payload now hacc =>
    rw [append_of_accepted hacc]
    exact untouched_of_io rfl rfl rfl rfl rfl
  | refuse payload now hrej =>
    rw [append_of_rejected hrej]
    exact untouched_of_io rfl rfl rfl rfl rfl
  | register offset cb =>
    rw [setOnceCommitCallback_snd]
    exact untouched_of_io rfl rfl rfl rfl rfl
  | shutDown => exact untouched_of_io rfl rfl rfl rfl rfl
  | takeFirst hio | takeDone hio | notify hio | stop hio =>
    -- The I/O thread is neither writing a batch nor at the end of a round.
    refine ⟨rfl, rfl, rfl, rfl, ?_, fun _ h => ?_, fun _ h => ?_⟩
    · simp [inFlight, hio]
    · simp [hio] at h
    · simp [hio] at h
  | takeMore hio hfull hq =>
    refine ⟨rfl, rfl, rfl, rfl, ?_, fun _ h => ?_, fun _ h => ?_⟩
    · simp [inFlight, hio, take]
    · simp [hio] at h
    · simp [hio] at h
  | write | endRound | fetch => exact absurd trivial he

theorem append_uncached (s : PartitionStore κ) (payload : Payload) (now : UInt64) :
    s.uncached.append payload now =
      ((s.append payload now).1, (s.append payload now).2.uncached) := by
  have hq : s.uncached.queueFull payload.bytes.length ↔ s.queueFull payload.bytes.length := Iff.rfl
  rw [append, append]
  simp only [hq, show s.uncached.shutdown = s.shutdown from rfl]
  split_ifs <;> rfl

/-- The cache plays no part in what does not work on the files. -/
theorem Step.uncached (hst : Step s e s') (he : ¬e.OnFiles) : Step s.uncached e s'.uncached := by
  cases hst with
  | append payload now hacc =>
    have hst := @Step.append κ s.uncached payload now (by rwa [append_uncached])
    rwa [append_uncached] at hst
  | refuse payload now hrej =>
    have hst := @Step.refuse κ s.uncached payload now (by rwa [append_uncached])
    rwa [append_uncached] at hst
  | register offset cb =>
    have hst := @Step.register κ s.uncached offset cb
    rw [setOnceCommitCallback] at hst ⊢
    split_ifs at hst ⊢ with hlt hlt'
    · exact hst
    · exact absurd hlt hlt'
    · exact absurd ‹_› hlt
    · exact hst
  | takeFirst hio hq => exact .takeFirst hio hq
  | takeMore hio hfull hq => exact .takeMore hio hfull hq
  | takeDone hio => exact .takeDone hio
  | notify hio => exact .notify hio
  | shutDown => exact .shutDown
  | stop hio hs hq => exact .stop hio hs hq
  | write | endRound | fetch => exact absurd trivial he

theorem writeBatch_uncached (s : PartitionStore κ) (batch : List Record) :
    s.uncached.writeBatch batch = (s.writeBatch batch).map uncached := by
  rw [writeBatch, writeBatch]
  cases batch.getLast? with
  | none => rfl
  | some last =>
    dsimp only [uncached]
    cases writeBatchLoop s.writer.baseOffset batch (s.dir.files s.writer.baseOffset).idx []
      s.writer.bytesWritten with
    | none => rfl
    | some p =>
      simp only [Option.bind_eq_bind, Option.bind_some]
      cases writeFileVec (s.dir.files s.writer.baseOffset).log p.2 <;> rfl

/-- The last part of a rotation: the next segment is opened. -/
def openNext (s : PartitionStore κ) : PartitionStore κ :=
  { s with
    sealedSegments := s.sealedSegments ++ [s.writer.baseOffset]
    dir := openFiles s.dir s.writer.nextOffset
    writer := ⟨s.writer.nextOffset, s.writer.nextOffset, 0⟩ }

end PartitionStore

/-! ## Steps -/

/-- A `fetch` under way: the segment it reads, and where it is in the loop of `read`. -/
structure Reader where
  offset : UInt64
  maxCount : ℕ
  base : UInt64
  currentPos : ℕ
  /-- The header read last, if its payload is to be read next. -/
  header : Option LogRecordHeader := none
  records : List Record := []

/-- What the I/O thread has done to the files and segments since the last commit, or the last
    end of a round. -/
inductive Stage
  | settled
  /-- In `write_batch`, these bytes have been appended to the log and the index. -/
  | writing (log idx : Bytes)
  /-- In a rotation, the segment is sealed, and the next one is not yet open. -/
  | sealed

/-- A partition store whose files are read while they are written, by the threads `τ`. -/
structure Live (κ τ : Type) where
  store : PartitionStore κ
  stage : Stage := .settled
  readers : τ → Option Reader := fun _ => none

namespace Live

open PartitionStore (dueEntries)

variable {κ τ : Type}

section

variable (s : Live κ τ)

/-- The bytes of the batch that are in the log. -/
def logTail : Bytes :=
  match s.stage with
  | .writing log _ => log
  | _ => []

/-- The bytes of the batch that are in the index. -/
def idxTail : Bytes :=
  match s.stage with
  | .writing _ idx => idx
  | _ => []

/-- The store as a reader finds it. -/
def view : PartitionStore κ :=
  { s.store with
    dir :=
      s.store.dir.insert s.store.writer.baseOffset
        ⟨s.store.log s.store.writer.baseOffset ++ s.logTail,
          (s.store.dir.files s.store.writer.baseOffset).idx ++ s.idxTail⟩
    sealedSegments :=
      match s.stage with
      | .sealed => s.store.sealedSegments ++ [s.store.writer.baseOffset]
      | _ => s.store.sealedSegments }

/-- The index of a segment is put in memory, or left there. -/
def cacheIndex (base : UInt64) : PartitionStore κ :=
  { s.store with segmentCache := s.store.segmentCache.insert base (s.view.indexOf base) }

/-- The position in the log that the index gives for an offset. -/
def filePos (base offset : UInt64) : ℕ := (OffsetIndex.lookup (s.view.indexOf base) offset).toNat

end

/-- What happens in a step. -/
inductive Event (κ τ : Type)
  | stored (e : PartitionStore.Event κ)
  | extended
  | sealed
  | located (t : τ) (offset : UInt64) (maxCount : ℕ)
  | failed (t : τ) (offset : UInt64) (maxCount : ℕ)
  | advanced (t : τ)
  | returned (t : τ) (offset : UInt64) (maxCount : ℕ) (found : List Record)

/-- The thread whose fetch it is. -/
def Event.reader : Event κ τ → Option τ
  | .located t _ _ | .failed t _ _ | .advanced t | .returned t _ _ _ => some t
  | .stored _ | .extended | .sealed => none

section

variable [DecidableEq τ]

/-- A thread goes on with its fetch. -/
def read (s : Live κ τ) (t : τ) (r : Reader) : Live κ τ :=
  { s with readers := Function.update s.readers t (some r) }

/-- A thread is done with its fetch. -/
def done (s : Live κ τ) (t : τ) : Live κ τ := { s with readers := Function.update s.readers t none }

/-- A step of one of the threads. -/
inductive Step (s : Live κ τ) : Event κ τ → Live κ τ → Prop
  | store {e : PartitionStore.Event κ} {store : PartitionStore κ}
      (hst : PartitionStore.Step s.store e store) (he : ¬e.OnFiles) :
      Step s (.stored e) { s with store }
  /-- Index entries are appended. The buffer for the records has been reserved before. -/
  | writeIndex {batch : List Record} (data : Bytes) (hio : s.store.io = .taken batch)
      (hbuf : (recordFormat.encodeAll batch).length < 2 ^ 63) (hlog : s.logTail = [])
      (hdata : s.idxTail ++ data <+: indexFormat.encodeAll
        (dueEntries s.store.writer.baseOffset batch s.store.writer.bytesWritten)) :
      Step s .extended { s with stage := .writing [] (s.idxTail ++ data) }
  /-- The records are appended, behind the last index entry. -/
  | writeLog {batch : List Record} (data : Bytes) (hio : s.store.io = .taken batch)
      (hbuf : (recordFormat.encodeAll batch).length < 2 ^ 63)
      (hidx : s.idxTail = indexFormat.encodeAll
        (dueEntries s.store.writer.baseOffset batch s.store.writer.bytesWritten))
      (hdata : s.logTail ++ data <+: recordFormat.encodeAll batch) :
      Step s .extended { s with stage := .writing (s.logTail ++ data) s.idxTail }
  /-- The committed offset is stored, when all is written. -/
  | commit {batch : List Record} {store : PartitionStore κ} (hio : s.store.io = .taken batch)
      (hidx : s.idxTail = indexFormat.encodeAll
        (dueEntries s.store.writer.baseOffset batch s.store.writer.bytesWritten))
      (hlog : s.logTail = recordFormat.encodeAll batch)
      (hw : s.store.writeBatch batch = some store) :
      Step s (.stored (.wrote s.store.writer.baseOffset batch))
        { s with store := { store with io := .written batch }, stage := .settled }
  /-- A full segment is sealed, and its index in memory dropped. -/
  | sealActive {batch : List Record} (hio : s.store.io = .notified batch)
      (hstage : s.stage = .settled)
      (hfull : logSegmentMaxBytes ≤ s.store.writer.bytesWritten.toNat) :
      Step s .sealed
        { s with
          store := { s.store with
            segmentCache := s.store.segmentCache.erase s.store.writer.baseOffset }
          stage := .sealed }
  | openNext {batch : List Record} (hio : s.store.io = .notified batch)
      (hstage : s.stage = .sealed)
      (hfull : logSegmentMaxBytes ≤ s.store.writer.bytesWritten.toNat) :
      Step s (.stored .ended)
        { s with store := { s.store.openNext with io := .waiting }, stage := .settled }
  /-- A segment that is not full stays active. -/
  | endRound {batch : List Record} (hio : s.store.io = .notified batch)
      (hstage : s.stage = .settled)
      (hfull : ¬logSegmentMaxBytes ≤ s.store.writer.bytesWritten.toNat) :
      Step s (.stored .ended) { s with store := { s.store with io := .waiting } }
  /-- No segment has the offset. -/
  | locateNone {t : τ} (offset : UInt64) (maxCount : ℕ) (hidle : s.readers t = none)
      (hfind : s.view.findSegmentFor offset = none) :
      Step s (.returned t offset maxCount []) s
  | locate {t : τ} {base : UInt64} (offset : UInt64) (maxCount : ℕ) (hidle : s.readers t = none)
      (hfind : s.view.findSegmentFor offset = some base)
      (hread : base ∈ s.store.dir ∧ s.filePos base offset < maxFileSize) :
      Step s (.located t offset maxCount)
        (read { s with store := s.cacheIndex base } t
          { offset, maxCount, base, currentPos := s.filePos base offset })
  /-- The log cannot be read: an exception is thrown. -/
  | locateFail {t : τ} {base : UInt64} (offset : UInt64) (maxCount : ℕ)
      (hidle : s.readers t = none) (hfind : s.view.findSegmentFor offset = some base)
      (hread : ¬(base ∈ s.store.dir ∧ s.filePos base offset < maxFileSize)) :
      Step s (.failed t offset maxCount) { s with store := s.cacheIndex base }
  /-- The record at the current position is not asked for, and is skipped. -/
  | skip {t : τ} {r : Reader} (hr : s.readers t = some r) (hnone : r.header = none)
      (hcount : r.records.length < r.maxCount)
      (hh : ¬ShortHeader (s.view.log r.base) r.currentPos)
      (hlt : (headerAt (s.view.log r.base) r.currentPos).offset < r.offset) :
      Step s (.advanced t)
        (s.read t { r with currentPos := endOfRecordAt (s.view.log r.base) r.currentPos })
  | header {t : τ} {r : Reader} (hr : s.readers t = some r) (hnone : r.header = none)
      (hcount : r.records.length < r.maxCount)
      (hh : ¬ShortHeader (s.view.log r.base) r.currentPos)
      (hle : ¬(headerAt (s.view.log r.base) r.currentPos).offset < r.offset) :
      Step s (.advanced t)
        (s.read t { r with header := some (headerAt (s.view.log r.base) r.currentPos) })
  | payload {t : τ} {r : Reader} {h : LogRecordHeader} (hr : s.readers t = some r)
      (hsome : r.header = some h)
      (hp : h.payloadSize.toNat ≤
        ((s.view.log r.base).drop (r.currentPos + logRecordHeaderSize)).length) :
      Step s (.advanced t)
        (s.read t
          { r with
            currentPos := r.currentPos + logRecordHeaderSize + h.payloadSize.toNat
            header := none
            records := r.records ++ [⟨h.offset, h.timestampMs, .take h.payloadSize
              ((s.view.log r.base).drop (r.currentPos + logRecordHeaderSize))⟩] })
  /-- There are records enough, or there is no whole header left. -/
  | finish {t : τ} {r : Reader} (hr : s.readers t = some r) (hnone : r.header = none)
      (hend : r.maxCount ≤ r.records.length ∨ ShortHeader (s.view.log r.base) r.currentPos) :
      Step s (.returned t r.offset r.maxCount r.records) (s.done t)
  /-- The payload is cut short. -/
  | finishShort {t : τ} {r : Reader} {h : LogRecordHeader} (hr : s.readers t = some r)
      (hsome : r.header = some h)
      (hp : ((s.view.log r.base).drop (r.currentPos + logRecordHeaderSize)).length <
        h.payloadSize.toNat) :
      Step s (.returned t r.offset r.maxCount r.records) (s.done t)

end

variable {s s' s₀ : Live κ τ} {e : Event κ τ} {es : List (Event κ τ)}

/-! ## What readers see -/

/-- The records of a segment, and those of the batch that go to it next. -/
def visible (s : Live κ τ) (base : UInt64) : List Record :=
  s.store.records base ++ if base = s.store.writer.baseOffset then s.store.inFlight else []

theorem visible_active :
    s.visible s.store.writer.baseOffset =
      s.store.records s.store.writer.baseOffset ++ s.store.inFlight := by
  rw [visible, if_pos rfl]

theorem visible_ne {base : UInt64} (h : base ≠ s.store.writer.baseOffset) :
    s.visible base = s.store.records base := by
  rw [visible, if_neg h, List.append_nil]

theorem visible_of_inFlight (h : s.store.inFlight = []) (base : UInt64) :
    s.visible base = s.store.records base := by
  rw [visible, h, ite_self, List.append_nil]

theorem log_view_active :
    s.view.log s.store.writer.baseOffset = s.store.log s.store.writer.baseOffset ++ s.logTail :=
  congrArg SegmentFiles.log (Dir.files_insert_self _ _ _)

theorem log_view_ne {base : UInt64} (h : base ≠ s.store.writer.baseOffset) :
    s.view.log base = s.store.log base :=
  congrArg SegmentFiles.log (Dir.files_insert_ne h _)

theorem log_view_of_logTail (h : s.logTail = []) (base : UInt64) :
    s.view.log base = s.store.log base := by
  by_cases hb : base = s.store.writer.baseOffset
  · rw [hb, log_view_active, h, List.append_nil]
  · exact log_view_ne hb

/-- The stage and the place of the I/O thread agree, and what is appended belongs to
    its batch. -/
structure Staged (s : Live κ τ) : Prop where
  writing : ∀ log idx, s.stage = .writing log idx → ∃ batch, s.store.io = .taken batch ∧
    (recordFormat.encodeAll batch).length < 2 ^ 63 ∧ log <+: recordFormat.encodeAll batch ∧
    idx <+: indexFormat.encodeAll
      (dueEntries s.store.writer.baseOffset batch s.store.writer.bytesWritten)
  sealed : s.stage = .sealed → ∃ batch, s.store.io = .notified batch

theorem staged_of_settled (h : s.stage = .settled) : s.Staged :=
  ⟨fun _ _ hw => by simp [h] at hw, fun hs => by simp [h] at hs⟩

/-- What is known of every state of a run, as long as the offsets fit. -/
structure Coherent (s : Live κ τ) : Prop where
  indexed : s.store.uncached.Indexed
  loaded : s.store.Loaded
  numbered : Numbered s.store.writer.nextOffset.toNat s.store.inFlight
  staged : s.Staged

namespace Coherent

theorem log_eq (h : s.Coherent) {base : UInt64} (hmem : base ∈ s.store.segments) :
    s.store.log base = recordFormat.encodeAll (s.store.records base) :=
  (h.indexed.sound base hmem).log_eq

/-- What is visible is numbered on. -/
theorem numbered_visible (h : s.Coherent) {base : UInt64} (hmem : base ∈ s.store.segments) :
    Numbered base.toNat (s.visible base) := by
  have hnum : Numbered base.toNat (s.store.records base) := (h.indexed.sound base hmem).numbered
  by_cases hb : base = s.store.writer.baseOffset
  · subst hb
    rw [visible_active, numbered_append]
    exact ⟨hnum, h.indexed.nextOffset ▸ h.numbered⟩
  · rwa [visible_ne hb]

/-- What is in the log is the front of what is visible. -/
theorem log_view_isPrefix (h : s.Coherent) {base : UInt64} (hmem : base ∈ s.store.segments) :
    s.view.log base <+: recordFormat.encodeAll (s.visible base) := by
  by_cases hb : base = s.store.writer.baseOffset
  · subst hb
    rw [log_view_active, visible_active, Format.encodeAll_append, ← h.log_eq hmem,
      List.prefix_append_right_inj]
    cases hstage : s.stage with
    | writing log idx =>
      obtain ⟨batch, hio, -, hpre, -⟩ := h.staged.writing log idx hstage
      rw [logTail, hstage, PartitionStore.inFlight_of_taken hio]
      exact hpre
    | settled | sealed =>
      rw [logTail, hstage]
      exact List.nil_prefix
  · rw [log_view_ne hb, visible_ne hb, h.log_eq hmem]

/-- The entries of the batch point at its records. -/
theorem points_dueEntries (h : s.Coherent) {batch : List Record} (hio : s.store.io = .taken batch)
    (hbuf : (recordFormat.encodeAll batch).length < 2 ^ 63) {x : IndexEntry}
    (hx : x ∈ dueEntries s.store.writer.baseOffset batch s.store.writer.bytesWritten) :
    x.Points s.store.writer.baseOffset.toNat
      (s.store.records s.store.writer.baseOffset ++ batch) := by
  have hlog := h.log_eq s.store.mem_segments_active
  have hnum := h.numbered
  rw [PartitionStore.inFlight_of_taken hio] at hnum
  refine Sound.points_dueEntries hx ?_ (h.indexed.nextOffset ▸ hnum) ?_
  · exact h.indexed.bytesWritten.trans (congrArg List.length hlog)
  · have hlt : (s.store.log s.store.writer.baseOffset).length < 2 ^ 63 :=
      (h.indexed.sound _ s.store.mem_segments_active).length_lt
    rw [Format.encodeAll_append, List.length_append, ← hlog]
    omega

/-- The index on disk points at what is visible. -/
theorem points_load (h : s.Coherent) {base : UInt64} (hmem : base ∈ s.store.segments) :
    ∀ x ∈ OffsetIndex.load (s.view.dir.files base).idx, x.Points base.toNat (s.visible base) := by
  obtain ⟨entries, hidx, hpoints⟩ := (h.indexed.sound base hmem).idx
  intro x hx
  rw [OffsetIndex.load_eq] at hx
  by_cases hb : base = s.store.writer.baseOffset
  · subst hb
    have hview : (s.view.dir.files s.store.writer.baseOffset).idx =
        indexFormat.encodeAll entries ++ s.idxTail :=
      (congrArg SegmentFiles.idx (Dir.files_insert_self _ _ _)).trans (congrArg (· ++ _) hidx)
    rw [hview, Format.decode_encodeAll_append, List.mem_append] at hx
    rw [visible_active]
    rcases hx with hx | hx
    · exact (hpoints x hx).append _
    · -- An entry of the batch that is being written: it points behind the records in the log.
      cases hstage : s.stage with
      | writing log idx =>
        obtain ⟨batch, hio, hbuf, -, hpre⟩ := h.staged.writing log idx hstage
        obtain ⟨k, -, hdec⟩ := @Format.decode_take_encodeAll _ _ indexFormat
          (dueEntries s.store.writer.baseOffset batch s.store.writer.bytesWritten) idx.length
        rw [idxTail, hstage] at hx
        dsimp only at hx
        rw [List.prefix_iff_eq_take.1 hpre, hdec] at hx
        rw [PartitionStore.inFlight_of_taken hio]
        exact h.points_dueEntries hio hbuf (List.mem_of_mem_take hx)
      | settled | sealed => simp [idxTail, hstage] at hx
  · have hview : (s.view.dir.files base).idx = indexFormat.encodeAll entries :=
      (congrArg SegmentFiles.idx (Dir.files_insert_ne hb _)).trans hidx
    rw [hview, Format.decode_encodeAll] at hx
    rw [visible_ne hb]
    exact hpoints x hx

end Coherent

/-- Segments, records and logs only get more. -/
structure Grows (s s' : Live κ τ) : Prop where
  segments : ∀ base ∈ s.store.segments, base ∈ s'.store.segments
  visible : ∀ base ∈ s.store.segments, s.visible base <+: s'.visible base
  log : ∀ base ∈ s.store.segments, (s.view.log base).length ≤ (s'.view.log base).length

theorem grows_of_eq (hdir : s'.store.dir = s.store.dir) (hw : s'.store.writer = s.store.writer)
    (hs : s'.store.sealedSegments = s.store.sealedSegments)
    (hin : s.store.inFlight <+: s'.store.inFlight) (hlog : s.logTail.length ≤ s'.logTail.length) :
    Grows s s' := by
  have hold : ∀ base, s'.store.log base = s.store.log base := fun base => by
    rw [PartitionStore.log, PartitionStore.log, hdir]
  refine ⟨fun base hmem => ?_, fun base _ => ?_, fun base _ => ?_⟩
  · rwa [PartitionStore.segments, hw, hs]
  · rw [visible, visible, PartitionStore.records, PartitionStore.records, hold, hw,
      List.prefix_append_right_inj]
    split_ifs
    · exact hin
    · exact List.prefix_rfl
  · by_cases hb : base = s.store.writer.baseOffset
    · have hb' : base = s'.store.writer.baseOffset := by rw [hw, hb]
      have h₁ : s.view.log base = s.store.log base ++ s.logTail := hb ▸ log_view_active
      have h₂ : s'.view.log base = s'.store.log base ++ s'.logTail := hb' ▸ log_view_active
      rw [h₁, h₂, hold, List.length_append, List.length_append]
      omega
    · rw [log_view_ne hb, log_view_ne (by rwa [hw]), hold]

/-- A commit moves the batch to the records. -/
theorem grows_commit {batch : List Record} {store : PartitionStore κ} (h : s.Coherent)
    (hio : s.store.io = .taken batch) (hlog : s.logTail = recordFormat.encodeAll batch)
    (hw : s.store.writeBatch batch = some store) :
    Grows s { s with store := { store with io := .written batch }, stage := .settled } := by
  obtain ⟨last, hlast⟩ := h.loaded.getLast? hio
  obtain ⟨rfl, -⟩ := PartitionStore.writeBatch_eq_some hlast hw
  -- The bytes were there before the commit: what changes is whose they are.
  have hsame : ∀ base, PartitionStore.log (s.store.afterWrite batch last.offset) base =
      s.view.log base := fun base => by
    by_cases hb : base = s.store.writer.baseOffset
    · subst hb
      rw [log_view_active, hlog]
      exact PartitionStore.log_afterWrite_self s.store batch last.offset
    · rw [log_view_ne hb]
      exact PartitionStore.log_afterWrite_ne hb batch last.offset
  refine ⟨fun base hmem => hmem, fun base hmem => ?_, fun base _ => ?_⟩
  · rw [visible_of_inFlight (s := { s with
      store := { s.store.afterWrite batch last.offset with io := .written batch }
      stage := .settled }) rfl]
    have hrec : recordFormat.encodeAll (s.visible base) = s.view.log base := by
      by_cases hb : base = s.store.writer.baseOffset
      · subst hb
        rw [visible_active, log_view_active, PartitionStore.inFlight_of_taken hio,
          Format.encodeAll_append, hlog, h.log_eq hmem]
      · rw [visible_ne hb, log_view_ne hb, h.log_eq hmem]
    have heq : recordFormat.decode (s.view.log base) = s.visible base := by
      rw [← hrec, Format.decode_encodeAll]
    exact (heq.symm.trans (congrArg _ (hsame base).symm)) ▸ List.prefix_rfl
  · rw [log_view_of_logTail (s := { s with
      store := { s.store.afterWrite batch last.offset with io := .written batch }
      stage := .settled }) rfl]
    exact (congrArg List.length (hsame base)).ge

/-- The next segment is opened beside the others. -/
theorem grows_openNext {batch : List Record} (hio : s.store.io = .notified batch)
    (hstage : s.stage = .sealed) :
    Grows s { s with store := { s.store.openNext with io := .waiting }, stage := .settled } := by
  have hin : s.store.inFlight = [] := by rw [PartitionStore.inFlight, hio]
  have htail : s.logTail = [] := by rw [logTail, hstage]
  have hsame : ∀ base, PartitionStore.log s.store.openNext base = s.store.log base := fun base =>
    congrArg SegmentFiles.log (PartitionStore.files_openFiles _ _ base)
  refine ⟨fun base hmem => List.mem_append_left _ hmem, fun base _ => ?_, fun base _ => ?_⟩
  · rw [visible_of_inFlight hin, visible_of_inFlight rfl]
    have heq : recordFormat.decode (s.store.openNext.log base) = s.store.records base :=
      congrArg recordFormat.decode (hsame base)
    exact (heq ▸ List.prefix_rfl :
      s.store.records base <+: recordFormat.decode (s.store.openNext.log base))
  · rw [log_view_of_logTail htail, log_view_of_logTail rfl]
    exact (congrArg List.length (hsame base)).ge

/-! ## Where readers are -/

/-- The reader is at the start of the record number `i` of its segment, and has collected the
    records before it from the offset asked for on. -/
structure At (s : Live κ τ) (r : Reader) (i : ℕ) : Prop where
  mem : r.base ∈ s.store.segments
  base_le : r.base ≤ r.offset
  le : i ≤ (s.visible r.base).length
  currentPos : r.currentPos = (recordFormat.encodeAll ((s.visible r.base).take i)).length
  records : r.records = ((s.visible r.base).take i).drop (r.offset.toNat - r.base.toNat)
  count : r.records.length ≤ r.maxCount
  inLog : r.records = [] ∨ r.currentPos ≤ (s.view.log r.base).length
  header : ∀ h, r.header = some h → r.records.length < r.maxCount ∧
    r.currentPos + logRecordHeaderSize ≤ (s.view.log r.base).length ∧
    ∃ rec, (s.visible r.base)[i]? = some rec ∧ h = rec.header ∧ r.offset ≤ rec.offset

theorem At.grows {r : Reader} {i : ℕ} (h : s.At r i) (hg : Grows s s') : s'.At r i := by
  obtain ⟨tl, htl⟩ := hg.visible _ h.mem
  have hlog := hg.log _ h.mem
  have htake : (s'.visible r.base).take i = (s.visible r.base).take i := by
    rw [← htl, List.take_append_of_le_length h.le]
  refine ⟨hg.segments _ h.mem, h.base_le, ?_, by rw [htake]; exact h.currentPos,
    by rw [htake]; exact h.records, h.count, h.inLog.imp_right (·.trans hlog), fun hdr hsome => ?_⟩
  · rw [← htl, List.length_append]
    exact h.le.trans (Nat.le_add_right _ _)
  · obtain ⟨hlt, hle, rec, hrec, hrest⟩ := h.header hdr hsome
    refine ⟨hlt, hle.trans hlog, rec, ?_, hrest⟩
    rw [← htl, List.getElem?_append_left (List.getElem?_eq_some_iff.1 hrec).1, hrec]

/-- What is in memory points at what is visible, and readers are at records. -/
structure Placed (s : Live κ τ) : Prop where
  cache : ∀ base entries, s.store.segmentCache.lookup base = some entries →
    base ∈ s.store.segments ∧ ∀ x ∈ entries, x.Points base.toNat (s.visible base)
  readers : ∀ t r, s.readers t = some r → ∃ i, s.At r i

theorem Coherent.points_indexOf (h : s.Coherent) (hp : s.Placed) {base : UInt64}
    (hmem : base ∈ s.store.segments) :
    ∀ x ∈ s.view.indexOf base, x.Points base.toNat (s.visible base) := by
  intro x hx
  rw [PartitionStore.indexOf] at hx
  cases hc : s.view.segmentCache.lookup base with
  | none =>
    rw [hc, Option.getD_none] at hx
    exact h.points_load hmem x hx
  | some entries =>
    rw [hc, Option.getD_some] at hx
    exact (hp.cache base entries hc).2 x hx

/-- A fetch starts at a record that is not behind the offset asked for. -/
theorem Coherent.exists_filePos (h : s.Coherent) (hp : s.Placed) {base offset : UInt64}
    (hmem : base ∈ s.store.segments) (hle : base ≤ offset) :
    ∃ i ≤ (s.visible base).length, base.toNat + i ≤ offset.toNat ∧
      s.filePos base offset = (recordFormat.encodeAll ((s.visible base).take i)).length := by
  rcases OffsetIndex.lookup_cases (s.view.indexOf base) offset with h0 | ⟨x, hx, hxle, hpos⟩
  · refine ⟨0, Nat.zero_le _, UInt64.le_iff_toNat_le.1 hle, ?_⟩
    rw [filePos, h0, List.take_zero, Format.encodeAll_nil]
    rfl
  · obtain ⟨i, hi, hoff, hfile⟩ := h.points_indexOf hp hmem x hx
    refine ⟨i, hi, hoff ▸ UInt64.le_iff_toNat_le.1 hxle, ?_⟩
    rw [filePos, hpos, hfile]

theorem Placed.grows (hp : s.Placed) (hg : Grows s s')
    (hc : ∀ base entries, s'.store.segmentCache.lookup base = some entries →
      s.store.segmentCache.lookup base = some entries)
    (hr : s'.readers = s.readers) : s'.Placed where
  cache base entries hcache := by
    obtain ⟨hmem, hpoints⟩ := hp.cache base entries (hc base entries hcache)
    obtain ⟨tl, htl⟩ := hg.visible base hmem
    exact ⟨hg.segments base hmem, fun x hx => htl ▸ (hpoints x hx).append tl⟩
  readers t r hrt := by
    obtain ⟨i, hi⟩ := hp.readers t r (hr ▸ hrt)
    exact ⟨i, hi.grows hg⟩

theorem findSegmentFor_view {offset base : UInt64} (h : s.view.findSegmentFor offset = some base) :
    base ∈ s.store.segments ∧ base ≤ offset := by
  refine ⟨?_, PartitionStore.findSegmentFor_le h⟩
  have hmem := PartitionStore.findSegmentFor_mem h
  rw [PartitionStore.segments, List.mem_append] at hmem ⊢
  rcases hmem with hmem | hmem
  · rw [view] at hmem
    dsimp only at hmem
    split at hmem
    · exact List.mem_append.1 hmem
    · exact .inl hmem
  · exact .inr hmem

theorem grows_cacheIndex (s : Live κ τ) (base : UInt64) :
    Grows s { s with store := s.cacheIndex base } :=
  grows_of_eq rfl rfl rfl List.prefix_rfl (Nat.le_refl _)

theorem Placed.cacheIndex (hp : s.Placed) (h : s.Coherent) {base : UInt64}
    (hmem : base ∈ s.store.segments) : Placed { s with store := s.cacheIndex base } where
  cache base' entries hc := by
    change (s.store.segmentCache.insert base (s.view.indexOf base)).lookup base' =
      some entries at hc
    by_cases hb : base' = base
    · subst hb
      rw [AList.lookup_insert, Option.some.injEq] at hc
      exact ⟨hmem, hc ▸ h.points_indexOf hp hmem⟩
    · rw [AList.lookup_insert_ne hb] at hc
      exact hp.cache base' entries hc
  readers t r hr := (hp.readers t r hr).imp fun i hat => hat.grows (s.grows_cacheIndex base)

/-- A fetch that starts has collected nothing, and skips what is before the offset. -/
theorem At.start (h : s.Coherent) (hp : s.Placed) {base offset : UInt64} (maxCount : ℕ)
    (hmem : base ∈ s.store.segments) (hle : base ≤ offset) :
    ∃ i, s.At { offset, maxCount, base, currentPos := s.filePos base offset } i := by
  obtain ⟨i, hi, hoff, hpos⟩ := h.exists_filePos hp hmem hle
  refine ⟨i, hmem, hle, hi, hpos, ?_, Nat.zero_le _, .inl rfl, fun _ hn => absurd hn (by simp)⟩
  refine (List.drop_of_length_le ((List.length_take_le _ _).trans ?_)).symm
  dsimp only
  omega

/-! ### What a reader does -/

section

variable {r : Reader} {i : ℕ}

/-- The header at the position of a reader is that of its record. -/
theorem At.exists_record (hat : s.At r i) (h : s.Coherent)
    (hh : ¬ShortHeader (s.view.log r.base) r.currentPos) :
    ∃ rec, (s.visible r.base)[i]? = some rec ∧
      headerAt (s.view.log r.base) r.currentPos = rec.header ∧
      rec.offset.toNat = r.base.toNat + i ∧ i < (s.visible r.base).length := by
  obtain ⟨rec, hrec, hhdr⟩ := headerAt_of_isPrefix (h.log_view_isPrefix hat.mem) hat.currentPos hh
  obtain ⟨hi, rfl⟩ := List.getElem?_eq_some_iff.1 hrec
  exact ⟨_, hrec, hhdr, (h.numbered_visible hat.mem).offset_getElem hi, hi⟩

theorem length_encodeAll_take_succ {rs : List Record} {rec : Record} (hrec : rs[i]? = some rec) :
    (recordFormat.encodeAll (rs.take (i + 1))).length =
      (recordFormat.encodeAll (rs.take i)).length + logRecordHeaderSize +
        rec.payload.size.toNat := by
  have hlen : (recordFormat.encode rec).length = _ := Record.length_encode rec
  rw [Format.encodeAll_take_succ hrec, List.length_append, hlen, Record.diskSize,
    Payload.toNat_size, Nat.add_assoc]

/-- A record that is skipped lies before the offset asked for. -/
theorem At.skip (hat : s.At r i) (h : s.Coherent) (hnone : r.header = none)
    (hh : ¬ShortHeader (s.view.log r.base) r.currentPos)
    (hlt : (headerAt (s.view.log r.base) r.currentPos).offset < r.offset) :
    s.At { r with currentPos := endOfRecordAt (s.view.log r.base) r.currentPos } (i + 1) := by
  obtain ⟨rec, hrec, hhdr, hoff, hi⟩ := hat.exists_record h hh
  have hlt' : r.base.toNat + i < r.offset.toNat := by
    rw [hhdr, UInt64.lt_iff_toNat_lt] at hlt
    exact hoff ▸ hlt
  have hdrop : ∀ j ≤ i + 1,
      ((s.visible r.base).take j).drop (r.offset.toNat - r.base.toNat) = [] := fun j hj => by
    refine List.drop_of_length_le ((List.length_take_le _ _).trans ?_)
    omega
  have hnil : r.records = [] := hat.records.trans (hdrop i (Nat.le_succ i))
  refine ⟨hat.mem, hat.base_le, hi, ?_, hnil.trans (hdrop _ (Nat.le_refl _)).symm, hat.count,
    .inl hnil, fun hdr hsome => absurd hsome (by simp [hnone])⟩
  dsimp only
  rw [endOfRecordAt, hhdr, length_encodeAll_take_succ hrec, ← hat.currentPos]
  rfl

theorem At.withHeader (hat : s.At r i) (h : s.Coherent) (hcount : r.records.length < r.maxCount)
    (hh : ¬ShortHeader (s.view.log r.base) r.currentPos)
    (hle : ¬(headerAt (s.view.log r.base) r.currentPos).offset < r.offset) :
    s.At { r with header := some (headerAt (s.view.log r.base) r.currentPos) } i := by
  obtain ⟨rec, hrec, hhdr, -, -⟩ := hat.exists_record h hh
  have hlen := shortHeader_iff.not.1 hh
  rw [List.length_drop, logRecordHeaderSize] at hlen
  refine ⟨hat.mem, hat.base_le, hat.le, hat.currentPos, hat.records, hat.count, hat.inLog,
    fun hdr hsome => ⟨hcount, ?_, rec, hrec, ?_, ?_⟩⟩
  · dsimp only
    rw [logRecordHeaderSize]
    omega
  · exact (Option.some.inj hsome).symm.trans hhdr
  · rw [hhdr, UInt64.not_lt] at hle
    exact hle

/-- A record that is read is the next one from the offset asked for on. -/
theorem At.withPayload (hat : s.At r i) (h : s.Coherent) {hdr : LogRecordHeader}
    (hsome : r.header = some hdr)
    (hp : hdr.payloadSize.toNat ≤
      ((s.view.log r.base).drop (r.currentPos + logRecordHeaderSize)).length) :
    s.At
      { r with
        currentPos := r.currentPos + logRecordHeaderSize + hdr.payloadSize.toNat
        header := none
        records := r.records ++ [⟨hdr.offset, hdr.timestampMs, .take hdr.payloadSize
          ((s.view.log r.base).drop (r.currentPos + logRecordHeaderSize))⟩] } (i + 1) := by
  obtain ⟨hcount, hin, rec, hrec, rfl, hle⟩ := hat.header hdr hsome
  obtain ⟨hi, hget⟩ := List.getElem?_eq_some_iff.1 hrec
  have hoff : rec.offset.toNat = r.base.toNat + i :=
    hget ▸ (h.numbered_visible hat.mem).offset_getElem hi
  rw [List.length_drop] at hp
  have hsize : rec.header.payloadSize.toNat = rec.payload.bytes.length := Payload.toNat_size _
  -- The header was read when its record was visible, and the log has only grown since.
  have hpay := payload_of_isPrefix (h.log_view_isPrefix hat.mem) hat.currentPos hrec
    (by rw [← hsize]; omega)
  have hnew : (⟨rec.header.offset, rec.header.timestampMs, .take rec.header.payloadSize
      ((s.view.log r.base).drop (r.currentPos + logRecordHeaderSize))⟩ : Record) = rec :=
    congrArg (Record.mk rec.offset rec.timestampMs) hpay
  refine ⟨hat.mem, hat.base_le, hi, ?_, ?_, ?_, .inr ?_, fun _ hn => absurd hn (by simp)⟩
  · dsimp only
    rw [length_encodeAll_take_succ hrec, ← hat.currentPos]
    rfl
  · -- The offset asked for is not behind the record, so that it goes to the end.
    have hle' := UInt64.le_iff_toNat_le.1 hle
    dsimp only
    rw [hnew, hat.records, List.take_add_one, hrec, Option.toList_some,
      List.drop_append_of_le_length]
    rw [List.length_take]
    omega
  · rw [List.length_append, List.length_singleton]
    exact hcount
  · dsimp only
    omega

/-- What is collected goes on from the offset asked for. -/
theorem At.numbered (hat : s.At r i) (h : s.Coherent) : Numbered r.offset.toNat r.records := by
  have hle := UInt64.le_iff_toNat_le.1 hat.base_le
  rcases Nat.lt_or_ge (((s.visible r.base).take i).length) (r.offset.toNat - r.base.toNat) with
    hlt | hge
  · rw [hat.records, List.drop_of_length_le hlt.le]
    exact numbered_nil _
  · have hnum := ((h.numbered_visible hat.mem).take i).drop hge
    rwa [Nat.add_sub_cancel' hle, ← hat.records] at hnum

/-- Of the records in the log, a reader is behind those it has collected. -/
theorem At.le_of_inLog (hat : s.At r i) (h : s.Coherent) (htail : s.logTail = [])
    (hinLog : r.currentPos ≤ (s.view.log r.base).length) :
    i ≤ (s.store.records r.base).length := by
  rw [log_view_of_logTail htail, h.log_eq hat.mem, hat.currentPos] at hinLog
  refine Nat.le_of_not_lt fun hi => ?_
  have htake : (s.visible r.base).take (s.store.records r.base).length = s.store.records r.base :=
    List.take_left
  have := @Format.length_encodeAll_take_lt _ _ recordFormat _ _ _ hi (hi.trans_le hat.le)
  rw [htake] at this
  omega

/-- What is collected is committed, if no records of a batch are in the log, or if the offsets
    asked for are committed or in a sealed segment. -/
theorem At.committed (hat : s.At r i) (h : s.Coherent)
    (hnext : s.store.committedOffset = s.store.writer.nextOffset)
    (hcase : s.logTail = [] ∨ r.offset.toNat + r.maxCount ≤ s.store.committedOffset.toNat ∨
      r.offset < s.store.writer.baseOffset) :
    ∀ rec ∈ r.records, rec.offset < s.store.committedOffset := by
  intro rec hrec
  have hle := UInt64.le_iff_toNat_le.1 hat.base_le
  have hcount := hat.count
  have hoff := (hat.numbered h).offset_lt hrec
  have hlen : r.records.length =
      min i (s.visible r.base).length - (r.offset.toNat - r.base.toNat) := by
    rw [hat.records, List.length_drop, List.length_take]
  -- In the first and the last case, what is collected is in the log.
  have hrecords : i ≤ (s.store.records r.base).length → rec.offset < s.store.committedOffset := by
    intro hi
    have hpos := List.length_pos_of_mem hrec
    have hend : r.base.toNat + (s.store.records r.base).length ≤
      s.store.writer.nextOffset.toNat := h.indexed.end_le hat.mem
    rw [UInt64.lt_iff_toNat_lt, hnext]
    omega
  rcases hcase with htail | hcommitted | hlt
  · exact hrecords (hat.le_of_inLog h htail (hat.inLog.resolve_left (List.ne_nil_of_mem hrec)))
  · rw [UInt64.lt_iff_toNat_lt]
    omega
  · refine hrecords ?_
    have hne : r.base ≠ s.store.writer.baseOffset := fun hb =>
      UInt64.lt_irrefl _ (UInt64.lt_of_le_of_lt (hb ▸ hat.base_le) hlt)
    exact visible_ne hne ▸ hat.le

/-- A committed record that is collected is in the log. -/
theorem At.mem_wholeLog (hat : s.At r i) (h : s.Coherent)
    (hnext : s.store.committedOffset = s.store.writer.nextOffset) {rec : Record}
    (hrec : rec ∈ r.records) (hlt : rec.offset < s.store.committedOffset) :
    rec ∈ s.store.wholeLog := by
  rw [hat.records] at hrec
  have hvis := List.mem_of_mem_take (List.mem_of_mem_drop hrec)
  rw [visible, List.mem_append] at hvis
  rcases hvis with hold | hnew
  · exact List.mem_flatMap.2 ⟨_, hat.mem, hold⟩
  · split_ifs at hnew
    · have hge := h.numbered.le_offset hnew
      rw [UInt64.lt_iff_toNat_lt, hnext] at hlt
      omega
    · exact absurd hnew List.not_mem_nil

/-- A record of the log is all there. -/
theorem At.le_length_log (hat : s.At r i) (h : s.Coherent)
    (hi : i < (s.store.records r.base).length) :
    ∃ rec, (s.visible r.base)[i]? = some rec ∧
      r.currentPos + logRecordHeaderSize + rec.payload.size.toNat ≤ (s.view.log r.base).length := by
  have hget : (s.visible r.base)[i]? = some (s.store.records r.base)[i] := by
    rw [visible, List.getElem?_append_left hi, List.getElem?_eq_getElem hi]
  refine ⟨_, hget, ?_⟩
  have hlog : (s.store.log r.base).length ≤ (s.view.log r.base).length := by
    by_cases hb : r.base = s.store.writer.baseOffset
    · rw [hb, log_view_active, List.length_append]
      exact Nat.le_add_right _ _
    · rw [log_view_ne hb]
  have htake : (s.visible r.base).take (i + 1) = (s.store.records r.base).take (i + 1) :=
    List.take_append_of_le_length hi
  have hle := @Format.length_encodeAll_take_le _ _ recordFormat (s.store.records r.base) (i + 1)
  rw [← h.log_eq hat.mem, ← htake, length_encodeAll_take_succ hget, ← hat.currentPos] at hle
  exact hle.trans hlog

/-- A fetch of an offset that lies in its segment does not end with nothing. -/
theorem At.records_ne_nil (hat : s.At r i) (h : s.Coherent)
    (hoff : r.offset.toNat < r.base.toNat + (s.store.records r.base).length)
    (hend : ShortHeader (s.view.log r.base) r.currentPos ∨
      ∃ hdr, r.header = some hdr ∧
        ((s.view.log r.base).drop (r.currentPos + logRecordHeaderSize)).length <
          hdr.payloadSize.toNat) : r.records ≠ [] := by
  intro hnil
  have hle := UInt64.le_iff_toNat_le.1 hat.base_le
  have hlen := hat.records
  rw [hnil, eq_comm, List.drop_eq_nil_iff, List.length_take, Nat.min_eq_left hat.le] at hlen
  obtain ⟨rec, hrec, hin⟩ := hat.le_length_log h (by omega)
  rcases hend with hshort | ⟨hdr, hsome, hshort⟩
  · rw [shortHeader_iff, List.length_drop] at hshort
    omega
  · obtain ⟨-, -, rec', hrec', rfl, -⟩ := hat.header hdr hsome
    obtain rfl : rec' = rec := Option.some.inj (hrec'.symm.trans hrec)
    rw [List.length_drop] at hshort
    have : rec'.header.payloadSize.toNat = rec'.payload.size.toNat := rfl
    omega

/-- The position of an offset that lies in its segment is in the log. -/
theorem Coherent.filePos_lt (h : s.Coherent) (hp : s.Placed) {base offset : UInt64}
    (hmem : base ∈ s.store.segments) (hle : base ≤ offset)
    (hoff : offset.toNat < base.toNat + (s.store.records base).length) :
    s.filePos base offset < maxFileSize := by
  obtain ⟨i, -, hi, hpos⟩ := h.exists_filePos hp hmem hle
  have htake : (s.visible base).take i = (s.store.records base).take i :=
    List.take_append_of_le_length (by omega)
  rw [hpos, htake]
  refine Nat.lt_of_le_of_lt (Format.length_encodeAll_take_le _ _) ?_
  rw [← h.log_eq hmem]
  exact (h.indexed.sound base hmem).length_lt

end

/-! ## Runs -/

/-! ### The store in a run -/

/-- What a step does to the store. -/
def Event.ofStore : Event κ τ → List (PartitionStore.Event κ)
  | .stored e => [e]
  | _ => []

/-- The records committed in a step. -/
def Event.written : Event κ τ → List Record
  | .stored e => e.written
  | _ => []

/-- The records the callbacks are called for in a step. -/
def Event.toldOf : Event κ τ → List Record
  | .stored e => e.toldOf
  | _ => []

@[simp] theorem Event.writtenRecords_ofStore (e : Event κ τ) :
    PartitionStore.writtenRecords e.ofStore = e.written := by
  cases e with
  | stored e => exact List.flatMap_singleton _ _
  | _ => rfl

theorem Event.written_of_ofStore (h : e.ofStore = []) : e.written = [] ∧ e.toldOf = [] := by
  cases e with
  | stored e => simp [Event.ofStore] at h
  | _ => exact ⟨rfl, rfl⟩

/-- What a run does to the store. -/
def storeEvents (es : List (Event κ τ)) : List (PartitionStore.Event κ) := es.flatMap Event.ofStore

/-- The number of records accepted in a run. -/
def acceptedCount (es : List (Event κ τ)) : ℕ := (PartitionStore.accepted (storeEvents es)).length

/-- No offset of the run reaches `2 ^ 64`. -/
def Fits (s₀ : Live κ τ) (es : List (Event κ τ)) : Prop :=
  s₀.store.nextOffset.toNat + acceptedCount es < 2 ^ 64

theorem Fits.of_append {es' : List (Event κ τ)} (h : Fits s₀ (es ++ es')) : Fits s₀ es := by
  refine Nat.lt_of_le_of_lt (Nat.add_le_add_left ?_ _) h
  rw [acceptedCount, acceptedCount, storeEvents, storeEvents, List.flatMap_append,
    PartitionStore.accepted, PartitionStore.accepted, List.flatMap_append, List.length_append]
  exact Nat.le_add_right _ _

/-- A store whose files are right when it is opened, before anything is read. -/
structure Started (s₀ : Live κ τ) : Prop where
  fresh : s₀.store.Fresh
  indexed : s₀.store.Indexed
  cache : s₀.store.segmentCache = ∅
  stage : s₀.stage = .settled
  readers : ∀ t, s₀.readers t = none

section Runs

variable [DecidableEq τ]

/-- A step is one of the store, or leaves it as it is, apart from the cache. -/
theorem Step.store_cases (hst : Step s e s') :
    e.ofStore = [] ∧ s'.store.uncached = s.store.uncached ∨
      ∃ e', e = .stored e' ∧ PartitionStore.Step s.store.uncached e' s'.store.uncached := by
  cases hst with
  | store hst he => exact .inr ⟨_, rfl, hst.uncached he⟩
  | commit hio hidx hlog hw =>
    have hw' : s.store.uncached.writeBatch _ = _ :=
      (PartitionStore.writeBatch_uncached s.store _).trans (congrArg _ hw)
    exact .inr ⟨_, rfl, PartitionStore.Step.write (s := s.store.uncached) hio hw'⟩
  | openNext hio hstage hfull =>
    have hst := PartitionStore.Step.endRound (s := s.store.uncached) hio
    rw [PartitionStore.endRound_of_full (s := s.store.uncached) hfull] at hst
    exact .inr ⟨_, rfl, hst⟩
  | endRound hio hstage hfull =>
    have hst := PartitionStore.Step.endRound (s := s.store.uncached) hio
    rw [PartitionStore.endRound_of_not_full (s := s.store.uncached) hfull] at hst
    exact .inr ⟨_, rfl, hst⟩
  | _ => exact .inl ⟨rfl, rfl⟩

theorem Step.store_run (hst : Step s e s') :
    Run PartitionStore.Step s.store.uncached e.ofStore s'.store.uncached := by
  rcases hst.store_cases with ⟨he, hs⟩ | ⟨e', rfl, hst'⟩
  · rw [he, hs]
    exact .nil
  · exact .single hst'

/-- Apart from the cache, a run is one of the store. -/
theorem Run.store (hr : Run Step s₀ es s) :
    Run PartitionStore.Step s₀.store.uncached (storeEvents es) s.store.uncached :=
  hr.project (fun s => s.store.uncached) Event.ofStore Step.store_run

theorem Started.run (h : Started s₀) (hr : Run Step s₀ es s) :
    Run PartitionStore.Step s₀.store (storeEvents es) s.store.uncached := by
  have hsame : s₀.store.uncached = s₀.store := by rw [PartitionStore.uncached, ← h.cache]
  exact hsame ▸ Run.store hr

theorem Step.staged (hst : Step s e s') (h : s.Staged) : s'.Staged := by
  cases hst with
  | store hst he =>
    have hun := hst.untouched he
    refine ⟨fun log idx hw => ?_, fun hs => ?_⟩
    · obtain ⟨batch, hio, hrest⟩ := h.writing log idx hw
      dsimp only
      rw [hun.writer]
      exact ⟨batch, hun.taken batch hio, hrest⟩
    · obtain ⟨batch, hio⟩ := h.sealed hs
      exact ⟨batch, hun.notified batch hio⟩
  | writeIndex data hio hbuf hlog hdata =>
    refine ⟨fun log idx hw => ?_, fun hs => by simp at hs⟩
    obtain ⟨rfl, rfl⟩ := Stage.writing.inj hw
    exact ⟨_, hio, hbuf, List.nil_prefix, hdata⟩
  | writeLog data hio hbuf hidx hdata =>
    refine ⟨fun log idx hw => ?_, fun hs => by simp at hs⟩
    obtain ⟨rfl, rfl⟩ := Stage.writing.inj hw
    exact ⟨_, hio, hbuf, hdata, hidx ▸ List.prefix_rfl⟩
  | sealActive hio hstage hfull => exact ⟨fun _ _ hw => by simp at hw, fun _ => ⟨_, hio⟩⟩
  | endRound hio hstage hfull => exact staged_of_settled hstage
  | commit | openNext => exact staged_of_settled rfl
  | locateNone | locate | locateFail | skip | header | payload | finish | finishShort =>
    exact ⟨h.writing, h.sealed⟩

theorem Run.coherent (hr : Run Step s₀ es s) (h : Started s₀) (hfit : Fits s₀ es) :
    s.Coherent := by
  have hrun := h.run hr
  have hloaded := PartitionStore.Run.loaded hrun h.fresh.loaded
  refine ⟨PartitionStore.Run.indexed hrun h.fresh h.indexed hfit, hloaded,
    ((PartitionStore.Run.queued hrun h.fresh).numbered_inFlight hfit).1, ?_⟩
  exact hr.invariant (I := fun _ s => s.Staged) (staged_of_settled h.stage)
    fun _ ih hst => hst.staged ih

/-- A step appends to the whole log what it commits. -/
theorem Step.wholeLog_eq (hst : Step s e s') (h : s.Coherent) :
    s'.store.wholeLog = s.store.wholeLog ++ e.written := by
  rcases hst.store_cases with ⟨he, hs⟩ | ⟨e', rfl, hst'⟩
  · have hsame := congrArg PartitionStore.wholeLog hs
    rw [(Event.written_of_ofStore he).1, List.append_nil]
    exact hsame
  · exact @PartitionStore.Step.wholeLog_eq κ s.store.uncached s'.store.uncached e' h.loaded
      h.indexed hst'

/-- The callbacks are called for what is committed, in order. -/
theorem Step.unnotified_eq (hst : Step s e s') :
    e.toldOf ++ s'.store.unnotified = s.store.unnotified ++ e.written := by
  rcases hst.store_cases with ⟨he, hs⟩ | ⟨e', rfl, hst'⟩
  · obtain ⟨hwr, htold⟩ := Event.written_of_ofStore he
    have hsame := congrArg PartitionStore.unnotified hs
    rw [hwr, htold, List.append_nil, List.nil_append]
    exact hsame
  · exact hst'.unnotified_eq

theorem Run.committedOffset_eq (hr : Run Step s₀ es s) (h : Started s₀) :
    s.store.committedOffset = s.store.writer.nextOffset := by
  have hq := PartitionStore.Run.queued (h.run hr) h.fresh
  exact hq.committedOffset.trans hq.writerNextOffset.symm

/-- The whole log ends at the committed offset. -/
theorem Run.numbered_wholeLog (hr : Run Step s₀ es s) (h : Started s₀) (hfit : Fits s₀ es) :
    ∃ b, Numbered b s.store.wholeLog ∧
      b + s.store.wholeLog.length = s.store.committedOffset.toNat := by
  rw [Run.committedOffset_eq hr h]
  exact (Run.coherent hr h hfit).indexed.numbered_wholeLog

/-- What is committed in a step goes on from the committed offset. -/
theorem Run.step_written (hr : Run Step s₀ es s) (h : Started s₀) (hst : Step s e s')
    (hfit : Fits s₀ (es ++ [e])) :
    Numbered s.store.committedOffset.toNat e.written ∧
      s'.store.committedOffset.toNat = s.store.committedOffset.toNat + e.written.length := by
  have hq := PartitionStore.Run.queued (h.run hr) h.fresh
  have hq' := PartitionStore.Run.queued (h.run (hr.snoc hst)) h.fresh
  have hwr : PartitionStore.writtenRecords (storeEvents (es ++ [e])) =
      PartitionStore.writtenRecords (storeEvents es) ++ e.written := by
    rw [storeEvents, List.flatMap_append, PartitionStore.writtenRecords, List.flatMap_append,
      List.flatMap_singleton, ← Event.writtenRecords_ofStore]
    rfl
  have hc := hq.toNat_committedOffset hfit.of_append
  have hc' := hq'.toNat_committedOffset hfit
  have hnum := hq'.consecutive.numbered hfit
  rw [← hq'.accepted_eq, hwr, List.append_assoc, List.append_assoc, numbered_append,
    numbered_append] at hnum
  rw [hwr, List.length_append] at hc'
  change s.store.committedOffset.toNat = _ at hc
  change s'.store.committedOffset.toNat = _ at hc'
  rw [hc, hc', Nat.add_assoc]
  exact ⟨hnum.2.1, rfl⟩

/-! ### The readers in a run -/

theorem grows_read (t : τ) (r : Reader) : Grows s (s.read t r) :=
  grows_of_eq rfl rfl rfl List.prefix_rfl (Nat.le_refl _)

/-- A step of another thread leaves a fetch alone. -/
theorem Step.readers_eq (hst : Step s e s') {t : τ} (ht : e.reader ≠ some t) :
    s'.readers t = s.readers t := by
  cases hst with
  | locate | skip | header | payload | finish | finishShort =>
    exact Function.update_of_ne (fun h => ht (congrArg some h.symm)) _ _
  | _ => rfl

/-- A fetch starts in the segment that is found. -/
theorem Step.located_cases {t : τ} {offset : UInt64} {maxCount : ℕ}
    (hst : Step s (.located t offset maxCount) s') :
    ∃ base, s.view.findSegmentFor offset = some base ∧
      s'.readers t =
        some { offset, maxCount, base, currentPos := s.filePos base offset } := by
  cases hst with
  | locate offset maxCount hidle hfind hread => exact ⟨_, hfind, Function.update_self _ _ _⟩

/-- A fetch goes on in its segment. -/
theorem Step.advanced_cases {t : τ} (hst : Step s (.advanced t) s') :
    ∃ r r', s.readers t = some r ∧ s'.readers t = some r' ∧ r'.offset = r.offset ∧
      r'.maxCount = r.maxCount ∧ r'.base = r.base := by
  cases hst with
  | skip hr | header hr | payload hr =>
    exact ⟨_, _, hr, Function.update_self _ _ _, rfl, rfl, rfl⟩

/-- A fetch fails in the segment that is found. -/
theorem Step.failed_cases {t : τ} {offset : UInt64} {maxCount : ℕ}
    (hst : Step s (.failed t offset maxCount) s') :
    ∃ base, s.view.findSegmentFor offset = some base ∧
      ¬(base ∈ s.store.dir ∧ s.filePos base offset < maxFileSize) := by
  cases hst with
  | locateFail offset maxCount hidle hfind hread => exact ⟨_, hfind, hread⟩

/-- A fetch returns nothing if no segment is found, and otherwise what is collected, at the end of
    what is asked for or of what can be read. -/
theorem Step.returned_cases {t : τ} {offset : UInt64} {maxCount : ℕ} {found : List Record}
    (hst : Step s (.returned t offset maxCount found) s') :
    s'.store = s.store ∧ s'.readers t = none ∧
      ((s.readers t = none ∧ s.view.findSegmentFor offset = none) ∨
        ∃ r, s.readers t = some r ∧ r.offset = offset ∧ r.maxCount = maxCount ∧ r.records = found ∧
          (r.maxCount ≤ r.records.length ∨ ShortHeader (s.view.log r.base) r.currentPos ∨
            ∃ hdr, r.header = some hdr ∧
              ((s.view.log r.base).drop (r.currentPos + logRecordHeaderSize)).length <
                hdr.payloadSize.toNat)) := by
  cases hst with
  | locateNone offset maxCount hidle hfind => exact ⟨rfl, hidle, .inl ⟨hidle, hfind⟩⟩
  | finish hr hnone hend =>
    exact ⟨rfl, Function.update_self _ _ _, .inr ⟨_, hr, rfl, rfl, rfl, hend.imp_right .inl⟩⟩
  | finishShort hr hsome hp =>
    exact ⟨rfl, Function.update_self _ _ _, .inr ⟨_, hr, rfl, rfl, rfl, .inr (.inr ⟨_, hsome, hp⟩)⟩⟩

/-- Segments only get more records. -/
theorem Step.records_isPrefix (hst : Step s e s') (h : s.Coherent) {base : UInt64}
    (hmem : base ∈ s.store.segments) : s.store.records base <+: s'.store.records base := by
  rcases hst.store_cases with ⟨-, hs⟩ | ⟨e', -, hst'⟩
  · have hsame : s'.store.uncached.records base = s.store.uncached.records base := by rw [hs]
    exact (hsame ▸ List.prefix_rfl :
      s.store.uncached.records base <+: s'.store.uncached.records base)
  · have hlog : s'.store.log base = s.store.log base ++ _ :=
      @PartitionStore.Step.log_eq κ s.store.uncached s'.store.uncached e' h.loaded hst' base
    rw [PartitionStore.records, PartitionStore.records, hlog, h.log_eq hmem,
      Format.decode_encodeAll_append, Format.decode_encodeAll]
    exact List.prefix_append _ _

theorem Placed.read {t : τ} {r : Reader} {i : ℕ} (hp : s.Placed) (hat : s.At r i) :
    (s.read t r).Placed where
  cache := hp.cache
  readers t' r' hr' := by
    change Function.update s.readers t (some r) t' = some r' at hr'
    rw [Function.update_apply] at hr'
    split_ifs at hr' with ht
    · cases hr'
      exact ⟨i, hat.grows (grows_read t _)⟩
    · exact (hp.readers t' r' hr').imp fun _ hat => hat.grows (grows_read t _)

theorem Placed.done {t : τ} (hp : s.Placed) : (s.done t).Placed where
  cache := hp.cache
  readers t' r' hr' := by
    change Function.update s.readers t none t' = some r' at hr'
    rw [Function.update_apply] at hr'
    split_ifs at hr' with ht
    exact (hp.readers t' r' hr').imp fun _ hat =>
      hat.grows (grows_of_eq rfl rfl rfl List.prefix_rfl (Nat.le_refl _))

theorem Step.placed (hst : Step s e s') (h : s.Coherent) (hp : s.Placed) : s'.Placed := by
  cases hst with
  | store hst he =>
    have hun := hst.untouched he
    exact hp.grows (grows_of_eq hun.dir hun.writer hun.sealedSegments hun.inFlight (Nat.le_refl _))
      (fun base entries hc => hun.segmentCache ▸ hc) rfl
  | writeIndex data hio hbuf hlog hdata =>
    refine hp.grows (grows_of_eq rfl rfl rfl List.prefix_rfl ?_) (fun _ _ hc => hc) rfl
    rw [hlog]
    exact Nat.zero_le _
  | writeLog data hio hbuf hidx hdata =>
    refine hp.grows (grows_of_eq rfl rfl rfl List.prefix_rfl ?_) (fun _ _ hc => hc) rfl
    exact (List.length_append ▸ Nat.le_add_right _ _ :
      s.logTail.length ≤ (s.logTail ++ data).length)
  | commit hio hidx hlog hw =>
    refine hp.grows (grows_commit h hio hlog hw) (fun base entries hc => ?_) rfl
    obtain ⟨last, hlast⟩ := h.loaded.getLast? hio
    obtain ⟨rfl, -⟩ := PartitionStore.writeBatch_eq_some hlast hw
    exact hc
  | sealActive hio hstage hfull =>
    refine hp.grows (grows_of_eq rfl rfl rfl List.prefix_rfl ?_) (fun base entries hc => ?_) rfl
    · rw [logTail, hstage]
      exact Nat.le_refl _
    · -- The index of the segment is dropped, and those of the others are kept.
      by_cases hb : base = s.store.writer.baseOffset
      · rw [hb, show AList.lookup _ _ = none from AList.lookup_erase _ _] at hc
        exact absurd hc (by simp)
      · rwa [show AList.lookup _ _ = _ from AList.lookup_erase_ne hb] at hc
  | openNext hio hstage hfull =>
    exact hp.grows (grows_openNext hio hstage) (fun _ _ hc => hc) rfl
  | endRound hio hstage hfull =>
    refine hp.grows (grows_of_eq rfl rfl rfl ?_ (Nat.le_refl _)) (fun _ _ hc => hc) rfl
    rw [PartitionStore.inFlight, hio]
    exact List.nil_prefix
  | locateNone offset maxCount hidle hfind => exact hp
  | locate offset maxCount hidle hfind hread =>
    obtain ⟨hmem, hle⟩ := findSegmentFor_view hfind
    obtain ⟨i, hat⟩ := At.start h hp maxCount hmem hle
    exact (hp.cacheIndex h hmem).read (hat.grows (s.grows_cacheIndex _))
  | locateFail offset maxCount hidle hfind hread =>
    exact hp.cacheIndex h (findSegmentFor_view hfind).1
  | skip hr hnone hcount hh hlt =>
    obtain ⟨i, hat⟩ := hp.readers _ _ hr
    exact hp.read (hat.skip h hnone hh hlt)
  | header hr hnone hcount hh hle =>
    obtain ⟨i, hat⟩ := hp.readers _ _ hr
    exact hp.read (hat.withHeader h hcount hh hle)
  | payload hr hsome hpay =>
    obtain ⟨i, hat⟩ := hp.readers _ _ hr
    exact hp.read (hat.withPayload h hsome hpay)
  | finish hr hnone hend => exact hp.done
  | finishShort hr hsome hpay => exact hp.done

theorem Run.placed (hr : Run Step s₀ es s) (h : Started s₀) (hfit : Fits s₀ es) : s.Placed := by
  refine hr.invariant (I := fun es s => Fits s₀ es → s.Placed) (fun _ => ?_) ?_ hfit
  · refine ⟨fun base entries hc => ?_, fun t r hr => absurd hr (by simp [h.readers])⟩
    rw [h.cache] at hc
    exact absurd hc (by simp)
  · intro es s e s' hr ih hst hfit
    exact hst.placed (Run.coherent hr h hfit.of_append) (ih hfit.of_append)

/-! ## What is returned is committed -/

/-- When a fetch returns, no records of a batch are in the log, or it has asked for committed
    offsets only, or for one in a sealed segment. -/
def Shielded (s : Live κ τ) : Event κ τ → Prop
  | .returned _ offset maxCount _ => s.logTail = [] ∨
      offset.toNat + maxCount ≤ s.store.committedOffset.toNat ∨ offset < s.store.writer.baseOffset
  | _ => True

/-- In every run whose steps are all shielded, what a fetch returns is committed. -/
theorem returned_committed (h : Started s₀) (hr : Run (Guarded Step Shielded) s₀ es s)
    (hfit : Fits s₀ es) {t : τ} {offset : UInt64} {maxCount : ℕ} {found : List Record}
    (hst : Guarded Step Shielded s (.returned t offset maxCount found) s') :
    ∀ rec ∈ found, rec.offset < s'.store.committedOffset := by
  have hcoh := Run.coherent hr.of_guarded h hfit
  have hplaced := Run.placed hr.of_guarded h hfit
  have hnext := Run.committedOffset_eq hr.of_guarded h
  obtain ⟨hst, hshield⟩ := hst
  cases hst with
  | locateNone => exact fun rec hrec => absurd hrec List.not_mem_nil
  | finish hr hnone hend =>
    obtain ⟨i, hat⟩ := hplaced.readers _ _ hr
    exact hat.committed hcoh hnext hshield
  | finishShort hr hsome hp =>
    obtain ⟨i, hat⟩ := hplaced.readers _ _ hr
    exact hat.committed hcoh hnext hshield

/-- A record of one byte, the first of a store. -/
def firstRecord : Record := ⟨0, 5, ⟨[7], Payload.length_seven_lt⟩⟩

/-- A store on an empty directory. -/
def emptyStore : PartitionStore Unit := PartitionStore.open ∅ {}

/-- The record is appended and taken for writing. -/
def firstTaken : PartitionStore Unit := emptyStore.takenOne firstRecord.payload 5

/-- The bytes of the record and of its index entry are in the files. -/
def firstWriting : Live Unit τ where
  store := firstTaken
  stage := .writing (recordFormat.encodeAll [firstRecord]) (indexFormat.encodeAll [⟨0, 0⟩])

/-- What is done up to that. -/
def firstEvents : List (Event Unit τ) :=
  [.stored (.appended firstRecord), .stored (.took firstRecord), .stored .gathered, .extended,
    .extended]

/-- The record is committed. -/
def firstWritten : PartitionStore Unit :=
  { firstTaken.afterWrite [firstRecord] 0 with io := .written [firstRecord] }

/-- A fetch of the record. -/
def firstReader : Reader where
  offset := 0
  maxCount := 1
  base := 0
  currentPos := 0

/-- The fetch has found the segment. -/
def firstLocated : Live Unit Unit :=
  let s : Live Unit Unit := firstWriting
  read { s with store := s.cacheIndex 0 } () firstReader

/-- It has read the header of the record. -/
def firstHeaded : Live Unit Unit :=
  firstLocated.read () { firstReader with header := some firstRecord.header }

/-- It has read the record. -/
def firstRead : Live Unit Unit :=
  firstHeaded.read () { firstReader with currentPos := 21, records := [firstRecord] }

omit [DecidableEq τ] in
theorem started_emptyStore : Started ({ store := emptyStore } : Live Unit τ) where
  fresh := PartitionStore.fresh_open _ _
  indexed := PartitionStore.indexed_open_empty _
  cache := rfl
  stage := rfl
  readers _ := rfl

theorem encodeAll_dueEntries :
    indexFormat.encodeAll (dueEntries firstTaken.writer.baseOffset [firstRecord]
      firstTaken.writer.bytesWritten) = indexFormat.encodeAll [⟨0, 0⟩] := by
  decide

theorem run_firstWriting :
    Run (Guarded Step Shielded) { store := emptyStore } firstEvents
      (firstWriting : Live Unit τ) := by
  have hidle : emptyStore.Idle := ⟨rfl, rfl, rfl, rfl⟩
  have happend : PartitionStore.Step emptyStore (.appended firstRecord)
      (emptyStore.enqueue firstRecord.payload 5) :=
    hidle.step_append (by decide) (by decide)
  have htake :
      PartitionStore.Step (emptyStore.enqueue firstRecord.payload 5) (.took firstRecord) _ :=
    .takeFirst rfl rfl
  have hindex : Step ({ store := firstTaken } : Live Unit τ) .extended
      { store := firstTaken, stage := .writing [] (indexFormat.encodeAll [⟨0, 0⟩]) } :=
    @Step.writeIndex Unit τ _ { store := firstTaken } [firstRecord]
      (indexFormat.encodeAll [⟨0, 0⟩]) rfl (by decide) rfl (encodeAll_dueEntries ▸ List.prefix_rfl)
  have hlog : Step ({ store := firstTaken, stage := .writing [] (indexFormat.encodeAll [⟨0, 0⟩]) } :
      Live Unit τ) .extended firstWriting :=
    @Step.writeLog Unit τ _ _ [firstRecord] (recordFormat.encodeAll [firstRecord]) rfl (by decide)
      encodeAll_dueEntries.symm List.prefix_rfl
  exact .cons ⟨.store happend (by simp [PartitionStore.Event.OnFiles]), trivial⟩ <|
    .cons ⟨.store htake (by simp [PartitionStore.Event.OnFiles]), trivial⟩ <|
    .cons ⟨.store (.takeDone rfl) (by simp [PartitionStore.Event.OnFiles]), trivial⟩ <|
    .cons ⟨hindex, trivial⟩ <| .single ⟨hlog, trivial⟩

theorem step_firstWritten :
    Step (firstWriting : Live Unit τ) (.stored (.wrote 0 [firstRecord]))
      { store := firstWritten } :=
  .commit rfl encodeAll_dueEntries.symm rfl
    (@PartitionStore.writeBatch_of_lt Unit firstTaken [firstRecord] firstRecord rfl
      (by decide) (by decide))

/-- What is done up to the commit of the record. -/
def firstCommitEvents : List (Event Unit τ) := firstEvents ++ [.stored (.wrote 0 [firstRecord])]

theorem run_firstWritten :
    Run Step ({ store := emptyStore } : Live Unit τ) firstCommitEvents { store := firstWritten } :=
  run_firstWriting.of_guarded.snoc step_firstWritten

omit [DecidableEq τ] in
theorem reader_firstCommitEvents :
    ∀ e ∈ (firstCommitEvents : List (Event Unit τ)), e.reader = none ∧ e.toldOf = [] := by
  simp [firstCommitEvents, firstEvents, Event.reader, Event.toldOf, PartitionStore.Event.toldOf]

/-- The record is read while it is not committed. -/
theorem run_firstRead : Run (Guarded Step Shielded) { store := emptyStore }
    (firstEvents ++ [.located () 0 1] ++ [.advanced ()] ++ [.advanced ()]) firstRead := by
  have hlocate : Step firstWriting (.located () 0 1) firstLocated :=
    @Step.locate Unit Unit _ firstWriting () 0 0 1 rfl (by decide) (by decide)
  have hheader : Step firstLocated (.advanced ()) firstHeaded :=
    @Step.header Unit Unit _ firstLocated () firstReader rfl rfl (by decide) (by decide) (by decide)
  have hpayload : Step firstHeaded (.advanced ()) firstRead :=
    @Step.payload Unit Unit _ firstHeaded () { firstReader with header := some firstRecord.header }
      firstRecord.header rfl rfl (by decide)
  exact ((run_firstWriting.snoc ⟨hlocate, trivial⟩).snoc ⟨hheader, trivial⟩).snoc
    ⟨hpayload, trivial⟩

/-- The record is committed after it was read, and before it is returned. -/
theorem returned_committed_firstRead : ∃ (es : List (Event Unit Unit)) (s s' : Live Unit Unit),
    Run (Guarded Step Shielded) { store := emptyStore } es s ∧
      Guarded Step Shielded s (.returned () 0 1 [firstRecord]) s' ∧
      ∀ rec ∈ [firstRecord], rec.offset < s'.store.committedOffset := by
  have hcommit := @Step.commit Unit Unit _ firstRead [firstRecord] _ rfl rfl rfl
    (PartitionStore.writeBatch_of_lt (s := firstRead.store) rfl (by decide) (by decide))
  have hrun := run_firstRead.snoc ⟨hcommit, trivial⟩
  have hreturn := Step.finish (s := { firstRead with
    store := { firstRead.store.afterWrite [firstRecord] 0 with io := .written [firstRecord] }
    stage := .settled }) (t := ()) rfl rfl (.inl (Nat.le_refl 1))
  exact ⟨_, _, _, hrun, ⟨hreturn, .inl rfl⟩,
    returned_committed started_emptyStore hrun (by decide : 0 + 1 < 2 ^ 64) ⟨hreturn, .inl rfl⟩⟩

/-- Not everything a fetch returns is committed: the record is returned before. -/
theorem not_forall_returned_committed :
    ¬∀ (s₀ : Live Unit Unit) (es : List (Event Unit Unit)) (s s' : Live Unit Unit) (t : Unit)
      (offset : UInt64) (maxCount : ℕ) (found : List Record),
      Started s₀ → Run Step s₀ es s → Fits s₀ es →
      Step s (.returned t offset maxCount found) s' →
      ∀ rec ∈ found, rec.offset < s'.store.committedOffset := by
  intro hall
  have hreturn := Step.finish (s := firstRead) (t := ()) rfl rfl (.inl (Nat.le_refl 1))
  have hlt := hall _ _ firstRead _ () 0 1 [firstRecord] started_emptyStore
    run_firstRead.of_guarded (by decide : 0 + 1 < 2 ^ 64) hreturn firstRecord
    (List.mem_singleton_self _)
  exact absurd hlt (by decide)

end Runs

end Live

end Fell.Storage
