import Fell.Lib.Transition
import Fell.Storage.LogRecovery
import Fell.Storage.OffsetIndex

/-!
# The partition store

The storage engine of a partition (`storage/partition_store.cpp`): producers
queue records with `append`, a single I/O thread takes batches off the queue,
writes them to the active segment and rotates it when it is full, and consumers
`fetch` from the segment files.

The state holds what the threads share, the files of the directory included,
and the place of the I/O thread in `io_loop` with the batch it carries
(`IoPhase`). A step is what one thread does between two points where another may
come in: an `append`, one command moved by `take_batch`, a `write_batch`, the
callbacks, the rotation, a `fetch`. (`take_batch` gives up the queue lock
only while it waits for more; here it can be interrupted after every command,
which allows more interleavings.)

Left out: the counter of rejected appends, which nothing reads, and flushing,
which changes no file as a reader sees it. The deadline of `take_batch` and
the clock are not modelled: a batch may end, and the clock may show, anything.

The callbacks registered with `set_once_commit_callback` are values of a type
`κ`: what they hold on to.
-/

namespace Fell.Storage

open Platform

/-- `StorageOptions`: the limits of the queue and of a batch, and the times after which batches
    are written and files flushed. -/
structure StorageOptions where
  maxPendingBytes : UInt64 := 64 * 1024 * 1024
  queueCapacity : ℕ := 65536
  maxBatchBytes : ℕ := 1024 * 1024
  maxBatchRecords : ℕ := 4096
  batchWaitUs : UInt32 := 1000
  flushEveryRecords : UInt32 := 8192
  flushEveryMs : UInt32 := 25
  deriving DecidableEq

/-- `SegmentWriter`: the active segment, and how far it is written. -/
structure SegmentWriter where
  baseOffset : UInt64
  nextOffset : UInt64
  bytesWritten : UInt64
  deriving DecidableEq

/-- `AppendError`. -/
inductive AppendError
  | busy
  | closed
  deriving DecidableEq

/-- `AppendResult`. -/
structure AppendResult where
  accepted : Bool
  offset : UInt64
  error : AppendError
  deriving DecidableEq

def AppendResult.ok (value : UInt64) : AppendResult := ⟨true, value, .busy⟩
def AppendResult.busy : AppendResult := ⟨false, 0, .busy⟩
def AppendResult.closed : AppendResult := ⟨false, 0, .closed⟩

/-- Where the I/O thread is in `io_loop`, and the batch it carries. -/
inductive IoPhase
  /-- At the top of the loop, in the first wait of `take_batch`. -/
  | waiting
  /-- In the loop of `take_batch`. -/
  | gathering (batch : List Record)
  /-- `take_batch` has returned. -/
  | taken (batch : List Record)
  /-- `write_batch` has returned. -/
  | written (batch : List Record)
  /-- The callbacks have returned. -/
  | notified (batch : List Record)
  /-- Out of the loop. -/
  | stopped

/-- `kTimestampRefreshEvery`. -/
def timestampRefreshEvery : ℕ := 16

/-- The state of a partition store. -/
structure PartitionStore (κ : Type) where
  /-- The files of `dir_`. -/
  dir : Dir
  writer : SegmentWriter
  /-- The base offsets of the sealed segments. -/
  sealedSegments : List UInt64
  /-- The indexes in memory, by the base offset of their segment. -/
  segmentCache : AList fun _ : UInt64 => List IndexEntry
  options : StorageOptions
  queue : List Record
  pendingBytes : UInt64
  nextOffset : UInt64
  committedOffset : UInt64
  shutdown : Bool
  lastTimestampMs : UInt64
  tsCounter : ℕ
  onceCallbacks : List (UInt64 × κ)
  io : IoPhase

namespace PartitionStore

variable {κ : Type}

/-! ## Opening -/

/-- `SegmentWriter::open_files`: the files of a segment are created if missing. -/
def openFiles (dir : Dir) (base : UInt64) : Dir :=
  if base ∈ dir then dir else dir.insert base {}

/-- `PartitionStore::PartitionStore`: the segments found on disk but the last are
    sealed, and the last goes on from where recovery left it. -/
def «open» (dir : Dir) (options : StorageOptions) : PartitionStore κ :=
  let recovered := recoverPartition dir
  let rr := recovered.1
  let logPaths := recovered.2.logPaths
  let activeBase := logPaths.getLast?.getD 0
  let writer : SegmentWriter :=
    if logPaths = [] then ⟨activeBase, activeBase, 0⟩
    else ⟨activeBase, rr.nextOffset, rr.logEndPosition⟩
  { dir := openFiles recovered.2 activeBase
    writer
    sealedSegments := logPaths.dropLast
    segmentCache := ∅
    options
    queue := []
    pendingBytes := 0
    nextOffset := writer.nextOffset
    committedOffset := writer.nextOffset
    shutdown := false
    lastTimestampMs := 0
    tsCounter := 0
    onceCallbacks := []
    io := .waiting }

/-! ## Appending -/

section

variable (s : PartitionStore κ)

/-- `get_cached_timestamp_locked`: the clock is read once in a while only. -/
def getCachedTimestampLocked (now : UInt64) : UInt64 × PartitionStore κ :=
  let ts := if s.tsCounter = 0 then now else s.lastTimestampMs
  let counter := if timestampRefreshEvery ≤ s.tsCounter + 1 then 0 else s.tsCounter + 1
  (ts, { s with lastTimestampMs := ts, tsCounter := counter })

/-- The command an `append` queues, if it is accepted. -/
def command (payload : Payload) (now : UInt64) : Record :=
  ⟨s.nextOffset, (s.getCachedTimestampLocked now).1, payload⟩

/-- The store with the command queued. -/
def enqueue (payload : Payload) (now : UInt64) : PartitionStore κ :=
  { (s.getCachedTimestampLocked now).2 with
    nextOffset := s.nextOffset + 1
    pendingBytes := s.pendingBytes + UInt64.ofNat payload.bytes.length
    queue := s.queue ++ [s.command payload now] }

/-- The bounded queue is full, or would be with `size` bytes more. -/
def queueFull (size : ℕ) : Prop :=
  s.options.queueCapacity ≤ s.queue.length ∨
    s.options.maxPendingBytes < s.pendingBytes + UInt64.ofNat size

instance (size : ℕ) : Decidable (s.queueFull size) := inferInstanceAs (Decidable (_ ∨ _))

/-- `append`, at the time `now`. -/
def append (payload : Payload) (now : UInt64) : AppendResult × PartitionStore κ :=
  if s.shutdown then (.closed, s)
  else if s.queueFull payload.bytes.length then (.busy, s)
  else (.ok s.nextOffset, s.enqueue payload now)

variable {s} {payload : Payload} {now : UInt64}

theorem append_of_accepted (h : (s.append payload now).1.accepted = true) :
    s.append payload now = (.ok s.nextOffset, s.enqueue payload now) := by
  rw [append] at h ⊢
  split_ifs at h ⊢
  · exact absurd h Bool.false_ne_true
  · exact absurd h Bool.false_ne_true
  · rfl

theorem accepted_append_iff :
    (s.append payload now).1.accepted = true ↔
      s.shutdown = false ∧ ¬s.queueFull payload.bytes.length := by
  rw [append]
  split_ifs with hs hq
  · exact iff_of_false Bool.false_ne_true fun h => Bool.false_ne_true (h.1.symm.trans hs)
  · exact iff_of_false Bool.false_ne_true fun h => h.2 hq
  · exact iff_of_true rfl ⟨Bool.eq_false_of_not_eq_true hs, hq⟩

theorem append_accepted (hs : s.shutdown = false) (hq : ¬s.queueFull payload.bytes.length) :
    (s.append payload now).1.accepted = true := accepted_append_iff.2 ⟨hs, hq⟩

/-- A rejected append changes nothing. -/
theorem append_of_rejected (h : (s.append payload now).1.accepted = false) :
    (s.append payload now).2 = s := by
  rw [append] at h ⊢
  split_ifs at h ⊢
  · rfl
  · rfl
  · exact absurd h.symm Bool.false_ne_true

variable (s)

/-! ## Once-callbacks -/

/-- `set_once_commit_callback`: the callback is called at once, or kept. The
    callbacks called, and the store. -/
def setOnceCommitCallback (offset : UInt64) (cb : κ) : List κ × PartitionStore κ :=
  if offset < s.committedOffset then ([cb], s)
  else ([], { s with onceCallbacks := s.onceCallbacks ++ [(offset, cb)] })

/-- `fire_once_callbacks`: the callbacks of committed offsets are called and
    forgotten. -/
def fireOnceCallbacks (committed : UInt64) : List κ × PartitionStore κ :=
  ((s.onceCallbacks.filter fun c => c.1 < committed).map Prod.snd,
    { s with onceCallbacks := s.onceCallbacks.filter fun c => ¬c.1 < committed })

/-! ## Fetching -/

/-- `next_offset`: that of the writer, behind the records written. -/
def nextOffsetOfWriter : UInt64 := s.writer.nextOffset

/-- `find_segment_for`: the segment to look an offset up in. -/
def findSegmentFor (offset : UInt64) : Option UInt64 :=
  let it := upperBound (fun base : UInt64 => offset < base) s.sealedSegments
  if it ≠ 0 then s.sealedSegments[it - 1]?
  else if s.writer.baseOffset ≤ offset then some s.writer.baseOffset
  else none

/-- The index of a segment: the one in memory, or else the one on disk. -/
def indexOf (base : UInt64) : List IndexEntry :=
  (s.segmentCache.lookup base).getD (OffsetIndex.load (s.dir.files base).idx)

/-- `fetch`: the records found (`none` if an exception is thrown: the log is missing, or
    the position is negative as an `off_t`), and the store with the index kept
    in memory. -/
def fetch (offset : UInt64) (maxCount : ℕ) : Option (List Record) × PartitionStore κ :=
  match s.findSegmentFor offset with
  | none => (some [], s)
  | some base =>
    let index := s.indexOf base
    let filePos := OffsetIndex.lookup index offset
    let found :=
      if base ∈ s.dir ∧ filePos.toNat < maxFileSize then
        some (read (s.dir.files base).log filePos.toNat offset maxCount)
      else none
    (found, { s with segmentCache := s.segmentCache.insert base index })

/-! ## The I/O thread -/

/-- The bytes a batch counts for. -/
def batchBytes (batch : List Record) : ℕ := (batch.map Record.diskSize).sum

/-- The batch has reached one of its limits. -/
def batchFull (batch : List Record) : Prop :=
  s.options.maxBatchRecords ≤ batch.length ∨ s.options.maxBatchBytes ≤ batchBytes batch

instance (batch : List Record) : Decidable (s.batchFull batch) :=
  inferInstanceAs (Decidable (_ ∨ _))

/-- One round of the loop of `take_batch`: the front command `cmd` is moved to
    the batch. -/
def take (cmd : Record) (rest batch : List Record) : PartitionStore κ :=
  { s with
    queue := rest
    pendingBytes := s.pendingBytes - UInt64.ofNat cmd.payload.bytes.length
    io := .gathering (batch ++ [cmd]) }

/-- An index entry is due for every so many records of a segment. -/
def indexDue (base : UInt64) (cmd : Record) : Prop :=
  (cmd.offset - base).toNat % indexInterval = 0

instance (base : UInt64) (cmd : Record) : Decidable (indexDue base cmd) :=
  inferInstanceAs (Decidable (_ = _))

/-- The index entry of a record about to be written at `currentFilePos`, if due. -/
def writeIndexEntry (base : UInt64) (cmd : Record) (idx : Bytes) (currentFilePos : UInt64) :
    Option Bytes :=
  if indexDue base cmd then writeFileVec idx (IndexEntry.encode ⟨cmd.offset, currentFilePos⟩)
  else some idx

/-- The loop of `write_batch`: index entries are written as they are due, at the
    positions the records will have, and the records are put together in a
    buffer. -/
def writeBatchLoop (base : UInt64) :
    List Record → (idx buffer : Bytes) → UInt64 → Option (Bytes × Bytes)
  | [], idx, buffer, _ => some (idx, buffer)
  | cmd :: rest, idx, buffer, currentFilePos => do
    let idx ← writeIndexEntry base cmd idx currentFilePos
    writeBatchLoop base rest idx (buffer ++ cmd.encode) (currentFilePos + UInt64.ofNat cmd.diskSize)

/-- `write_batch`: the index entries first, then the records in one write, and
    last the counters. `none` is an exception, on which the process ends. -/
def writeBatch (batch : List Record) : Option (PartitionStore κ) :=
  match batch.getLast? with
  | none => some s
  | some last => do
    let base := s.writer.baseOffset
    let files := s.dir.files base
    let (idx, buffer) ← writeBatchLoop base batch files.idx [] s.writer.bytesWritten
    let log ← writeFileVec files.log buffer
    some { s with
      dir := s.dir.insert base ⟨log, idx⟩
      writer :=
        { s.writer with
          bytesWritten := s.writer.bytesWritten + UInt64.ofNat buffer.length
          nextOffset := s.writer.nextOffset + UInt64.ofNat batch.length }
      committedOffset := last.offset + 1 }

/-- The rotation of `io_loop`: the active segment is sealed, the index of it in
    memory dropped, and a new one opened at the next offset. -/
def rotate : PartitionStore κ :=
  { s with
    sealedSegments := s.sealedSegments ++ [s.writer.baseOffset]
    segmentCache := s.segmentCache.erase s.writer.baseOffset
    dir := openFiles s.dir s.writer.nextOffset
    writer := ⟨s.writer.nextOffset, s.writer.nextOffset, 0⟩ }

/-- The end of a round of `io_loop`: rotation, if the segment is full. -/
def endRound : PartitionStore κ :=
  if logSegmentMaxBytes ≤ s.writer.bytesWritten.toNat then s.rotate else s

end

/-! ## What the operations do -/

section

variable {s s' : PartitionStore κ}

/-- The index entries due for a batch written at `pos`. -/
def dueEntries (base : UInt64) : List Record → UInt64 → List IndexEntry
  | [], _ => []
  | cmd :: rest, pos =>
    (if indexDue base cmd then [⟨cmd.offset, pos⟩] else []) ++
      dueEntries base rest (pos + UInt64.ofNat cmd.diskSize)

theorem writeBatchLoop_eq_some {base pos : UInt64} {batch : List Record}
    {idx buffer idx' buffer' : Bytes}
    (h : writeBatchLoop base batch idx buffer pos = some (idx', buffer')) :
    idx' = idx ++ indexFormat.encodeAll (dueEntries base batch pos) ∧
      buffer' = buffer ++ recordFormat.encodeAll batch := by
  induction batch generalizing idx buffer pos with
  | nil =>
    obtain ⟨rfl, rfl⟩ := Prod.mk.inj (Option.some.inj h)
    simp [dueEntries]
  | cons cmd rest ih =>
    rw [writeBatchLoop, Option.bind_eq_bind, Option.bind_eq_some_iff] at h
    obtain ⟨idx₁, h₁, h⟩ := h
    obtain ⟨rfl, rfl⟩ := ih h
    rw [Format.encodeAll_cons, List.append_assoc, dueEntries]
    refine ⟨?_, rfl⟩
    rw [writeIndexEntry] at h₁
    split_ifs at h₁ ⊢
    · obtain ⟨rfl, -⟩ := writeFileVec_eq_some h₁
      rw [List.singleton_append, Format.encodeAll_cons, List.append_assoc]
      rfl
    · cases h₁
      rfl

/-- The store after writing a batch that ends with the offset `last`. -/
def afterWrite (s : PartitionStore κ) (batch : List Record) (last : UInt64) : PartitionStore κ :=
  let base := s.writer.baseOffset
  let files := s.dir.files base
  { s with
    dir := s.dir.insert base
      ⟨files.log ++ recordFormat.encodeAll batch,
        files.idx ++ indexFormat.encodeAll (dueEntries base batch s.writer.bytesWritten)⟩
    writer :=
      { s.writer with
        bytesWritten := s.writer.bytesWritten + UInt64.ofNat (recordFormat.encodeAll batch).length
        nextOffset := s.writer.nextOffset + UInt64.ofNat batch.length }
    committedOffset := last + 1 }

theorem files_afterWrite_self (s : PartitionStore κ) (batch : List Record) (last : UInt64) :
    (s.afterWrite batch last).dir.files s.writer.baseOffset =
      ⟨(s.dir.files s.writer.baseOffset).log ++ recordFormat.encodeAll batch,
        (s.dir.files s.writer.baseOffset).idx ++ indexFormat.encodeAll
          (dueEntries s.writer.baseOffset batch s.writer.bytesWritten)⟩ :=
  Dir.files_insert_self _ _ _

theorem files_afterWrite_ne {base : UInt64} (h : base ≠ s.writer.baseOffset)
    (batch : List Record) (last : UInt64) :
    (s.afterWrite batch last).dir.files base = s.dir.files base :=
  Dir.files_insert_ne h _

/-- A batch is written as a whole: the records behind the log, and the entries due
    behind the index. -/
theorem writeBatch_eq_some {batch : List Record} {last : Record}
    (hlast : batch.getLast? = some last) (h : s.writeBatch batch = some s') :
    s' = s.afterWrite batch last.offset ∧
      ((s.dir.files s.writer.baseOffset).log ++ recordFormat.encodeAll batch).length <
        maxFileSize := by
  rw [writeBatch, hlast] at h
  dsimp only at h
  rw [Option.bind_eq_bind, Option.bind_eq_some_iff] at h
  obtain ⟨⟨idx, buffer⟩, hloop, h⟩ := h
  obtain ⟨rfl, rfl⟩ := writeBatchLoop_eq_some hloop
  rw [Option.bind_eq_bind, Option.bind_eq_some_iff] at h
  obtain ⟨log, hlog, h⟩ := h
  obtain ⟨rfl, hlen⟩ := writeFileVec_eq_some hlog
  rw [List.nil_append] at h hlen
  exact ⟨(Option.some.inj h).symm, hlen⟩

theorem writeBatchLoop_of_lt {base pos : UInt64} {batch : List Record} {idx buffer : Bytes}
    (h : (idx ++ indexFormat.encodeAll (dueEntries base batch pos)).length < maxFileSize) :
    writeBatchLoop base batch idx buffer pos =
      some (idx ++ indexFormat.encodeAll (dueEntries base batch pos),
        buffer ++ recordFormat.encodeAll batch) := by
  induction batch generalizing idx buffer pos with
  | nil => simp [writeBatchLoop, dueEntries]
  | cons cmd rest ih =>
    rw [dueEntries, Format.encodeAll_append, ← List.append_assoc] at h ⊢
    have hentry : writeIndexEntry base cmd idx pos =
        some (idx ++ indexFormat.encodeAll
          (if indexDue base cmd then [⟨cmd.offset, pos⟩] else [])) := by
      rw [writeIndexEntry]
      split_ifs with hdue
      · rw [if_pos hdue, List.length_append] at h
        rw [Format.encodeAll_cons, Format.encodeAll_nil, List.append_nil] at h ⊢
        exact if_pos (by rw [← List.length_append]; exact Nat.lt_of_add_right_lt h)
      · rw [Format.encodeAll_nil, List.append_nil]
    rw [writeBatchLoop, hentry, Format.encodeAll_cons, ← List.append_assoc]
    exact ih h

/-- A batch that leaves both files below the largest size is written. -/
theorem writeBatch_of_lt {batch : List Record} {last : Record} (hlast : batch.getLast? = some last)
    (hlog : ((s.afterWrite batch last.offset).dir.files s.writer.baseOffset).log.length <
      maxFileSize)
    (hidx : ((s.afterWrite batch last.offset).dir.files s.writer.baseOffset).idx.length <
      maxFileSize) :
    s.writeBatch batch = some (s.afterWrite batch last.offset) := by
  rw [files_afterWrite_self] at hlog hidx
  rw [writeBatch, hlast]
  dsimp only
  rw [writeBatchLoop_of_lt hidx, List.nil_append]
  have hwrite : writeFileVec (s.dir.files s.writer.baseOffset).log (recordFormat.encodeAll batch) =
      some ((s.dir.files s.writer.baseOffset).log ++ recordFormat.encodeAll batch) :=
    if_pos (by rw [← List.length_append]; exact hlog)
  simp only [Option.bind_eq_bind, Option.bind_some, hwrite]
  rfl

/-- A fetch changes the cache only. -/
theorem fetch_snd (s : PartitionStore κ) (offset : UInt64) (maxCount : ℕ) :
    (s.fetch offset maxCount).2 =
      { s with segmentCache := (s.fetch offset maxCount).2.segmentCache } := by
  rw [fetch]
  split <;> rfl

theorem setOnceCommitCallback_snd (s : PartitionStore κ) (offset : UInt64) (cb : κ) :
    (s.setOnceCommitCallback offset cb).2 =
      { s with onceCallbacks := (s.setOnceCommitCallback offset cb).2.onceCallbacks } := by
  rw [setOnceCommitCallback]
  split <;> rfl

theorem endRound_of_full (h : logSegmentMaxBytes ≤ s.writer.bytesWritten.toNat) :
    s.endRound = s.rotate := if_pos h

theorem endRound_of_not_full (h : ¬logSegmentMaxBytes ≤ s.writer.bytesWritten.toNat) :
    s.endRound = s := if_neg h

/-- The end of a round changes the segments only, and keeps the next offset. -/
theorem endRound_eq (s : PartitionStore κ) :
    s.endRound =
      { s with
        dir := s.endRound.dir
        writer :=
          ⟨s.endRound.writer.baseOffset, s.writer.nextOffset, s.endRound.writer.bytesWritten⟩
        sealedSegments := s.endRound.sealedSegments
        segmentCache := s.endRound.segmentCache } := by
  rw [endRound]
  split <;> rfl

end

/-! ## Steps -/

/-- What happens in a step. -/
inductive Event (κ : Type)
  | appended (cmd : Record)
  | refused (error : AppendError)
  | registered (offset : UInt64) (cb : κ) (fired : List κ)
  | took (cmd : Record)
  | gathered
  | wrote (base : UInt64) (batch : List Record)
  | notified (batch : List Record) (fired : List κ)
  | ended
  | fetched (offset : UInt64) (maxCount : ℕ) (found : Option (List Record))
  | shutDown
  | stopped

/-- A step of the store. -/
inductive Step : PartitionStore κ → Event κ → PartitionStore κ → Prop
  | append {s} (payload now) (h : (s.append payload now).1.accepted = true) :
      Step s (.appended (s.command payload now)) (s.append payload now).2
  | refuse {s} (payload now) (h : (s.append payload now).1.accepted = false) :
      Step s (.refused (s.append payload now).1.error) (s.append payload now).2
  | register {s} (offset cb) :
      Step s (.registered offset cb (s.setOnceCommitCallback offset cb).1)
        (s.setOnceCommitCallback offset cb).2
  | takeFirst {s cmd rest} (hio : s.io = .waiting) (hq : s.queue = cmd :: rest) :
      Step s (.took cmd) (s.take cmd rest [])
  | takeMore {s cmd rest batch} (hio : s.io = .gathering batch) (hfull : ¬s.batchFull batch)
      (hq : s.queue = cmd :: rest) : Step s (.took cmd) (s.take cmd rest batch)
  | takeDone {s batch} (hio : s.io = .gathering batch) :
      Step s .gathered { s with io := .taken batch }
  | write {s s' batch} (hio : s.io = .taken batch) (h : s.writeBatch batch = some s') :
      Step s (.wrote s.writer.baseOffset batch) { s' with io := .written batch }
  | notify {s batch} (hio : s.io = .written batch) :
      Step s (.notified batch (s.fireOnceCallbacks s.committedOffset).1)
        { (s.fireOnceCallbacks s.committedOffset).2 with io := .notified batch }
  | endRound {s batch} (hio : s.io = .notified batch) :
      Step s .ended { s.endRound with io := .waiting }
  | fetch {s} (offset maxCount) :
      Step s (.fetched offset maxCount (s.fetch offset maxCount).1) (s.fetch offset maxCount).2
  | shutDown {s} : Step s .shutDown { s with shutdown := true }
  | stop {s} (hio : s.io = .waiting) (hs : s.shutdown = true) (hq : s.queue = []) :
      Step s .stopped { s with io := .stopped }

/-! ## Schedules

Runs can be computed: a schedule tells which thread moves next, and by what. -/

/-- A move of one of the threads. -/
inductive Move
  | append (payload : Payload) (now : UInt64)
  | take
  | gather
  | write
  | notify
  | endRound
  | fetch (offset : UInt64) (maxCount : ℕ)

/-- The step a move makes, if it is possible. -/
def move (s : PartitionStore κ) : Move → Option (Event κ × PartitionStore κ)
  | .append payload now =>
    let answer := s.append payload now
    some (if answer.1.accepted then .appended (s.command payload now) else .refused answer.1.error,
      answer.2)
  | .take =>
    match s.io, s.queue with
    | .waiting, cmd :: rest => some (.took cmd, s.take cmd rest [])
    | .gathering batch, cmd :: rest =>
      if s.batchFull batch then none else some (.took cmd, s.take cmd rest batch)
    | _, _ => none
  | .gather =>
    match s.io with
    | .gathering batch => some (.gathered, { s with io := .taken batch })
    | _ => none
  | .write =>
    match s.io with
    | .taken batch =>
      (s.writeBatch batch).map fun s' =>
        (.wrote s.writer.baseOffset batch, { s' with io := .written batch })
    | _ => none
  | .notify =>
    match s.io with
    | .written batch =>
      let fired := s.fireOnceCallbacks s.committedOffset
      some (.notified batch fired.1, { fired.2 with io := .notified batch })
    | _ => none
  | .endRound =>
    match s.io with
    | .notified _ => some (.ended, { s.endRound with io := .waiting })
    | _ => none
  | .fetch offset maxCount =>
    let answer := s.fetch offset maxCount
    some (.fetched offset maxCount answer.1, answer.2)

theorem step_of_move {s s' : PartitionStore κ} {e : Event κ} {m : Move}
    (h : s.move m = some (e, s')) : Step s e s' := by
  cases m with
  | append payload now =>
    obtain ⟨rfl, rfl⟩ := Prod.mk.inj (Option.some.inj h)
    split_ifs with hacc
    · exact .append payload now hacc
    · exact .refuse payload now (Bool.eq_false_iff.2 hacc)
  | take =>
    rw [move] at h
    split at h
    · rename_i hio hq
      obtain ⟨rfl, rfl⟩ := Prod.mk.inj (Option.some.inj h)
      exact .takeFirst hio hq
    · rename_i hio hq
      split_ifs at h with hfull
      obtain ⟨rfl, rfl⟩ := Prod.mk.inj (Option.some.inj h)
      exact .takeMore hio hfull hq
    · exact absurd h (by simp)
  | gather =>
    rw [move] at h
    split at h
    · rename_i hio
      obtain ⟨rfl, rfl⟩ := Prod.mk.inj (Option.some.inj h)
      exact .takeDone hio
    · exact absurd h (by simp)
  | write =>
    rw [move] at h
    split at h
    · rename_i hio
      obtain ⟨s'', hw, h⟩ := Option.map_eq_some_iff.1 h
      obtain ⟨rfl, rfl⟩ := Prod.mk.inj h
      exact .write hio hw
    · exact absurd h (by simp)
  | notify =>
    rw [move] at h
    split at h
    · rename_i hio
      obtain ⟨rfl, rfl⟩ := Prod.mk.inj (Option.some.inj h)
      exact .notify hio
    · exact absurd h (by simp)
  | endRound =>
    rw [move] at h
    split at h
    · rename_i hio
      obtain ⟨rfl, rfl⟩ := Prod.mk.inj (Option.some.inj h)
      exact .endRound hio
    · exact absurd h (by simp)
  | fetch offset maxCount =>
    obtain ⟨rfl, rfl⟩ := Prod.mk.inj (Option.some.inj h)
    exact .fetch offset maxCount

/-- The run of a schedule: its events, and the state reached. -/
def exec : List Move → PartitionStore κ → Option (List (Event κ) × PartitionStore κ)
  | [], s => some ([], s)
  | m :: ms, s =>
    match s.move m with
    | none => none
    | some (e, s') => (exec ms s').map fun r => (e :: r.1, r.2)

theorem run_of_exec {ms : List Move} {s s' : PartitionStore κ} {es : List (Event κ)}
    (h : exec ms s = some (es, s')) : Run Step s es s' := by
  induction ms generalizing s es with
  | nil =>
    obtain ⟨rfl, rfl⟩ := Prod.mk.inj (Option.some.inj h)
    exact .nil
  | cons m ms ih =>
    rw [exec] at h
    split at h
    · exact absurd h (by simp)
    · rename_i e s₁ hm
      obtain ⟨⟨es', s₂⟩, hrest, h⟩ := Option.map_eq_some_iff.1 h
      obtain ⟨rfl, rfl⟩ := Prod.mk.inj h
      exact .cons (step_of_move hm) (ih hrest)

end PartitionStore

end Fell.Storage
