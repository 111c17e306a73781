import Fell.Storage.Segments

/-!
# Short writes

`writev` may write less than it is given. `write_file_vec` returns `result >= 0`, so to
`write_batch` a short write is one that succeeded: the counters are advanced by what should have
been written, and the log ends in the middle of a record, with more records to come behind it.

Here `write_batch` is modelled with any outcome of its calls (`writeBatchVia`). Where they all write
what they are given, it is `writeBatch` (`writeBatchVia_full`).

* `intact_iff`: a batch leaves the log and the counters right if and only if a call fails or the log
  is written as a whole;
* `Run.tidy`: and so do all batches of a run.
-/

namespace Fell.Storage.PartitionStore

open Platform

variable {κ : Type}

/-- What the operating system does in the calls of one `write_batch`: it fails, or takes so many
    bytes, if there are as many and the file has room for them. -/
structure Outcomes where
  /-- When the index entry of the command at a position in the batch is written, if it is due. -/
  index : ℕ → Option ℕ
  /-- When the records are written. -/
  log : Option ℕ

/-- `writev`, of one buffer, on a file opened for appending, with its outcome. -/
def writev (outcome : Option ℕ) (file data : Bytes) : Option Bytes :=
  outcome.map fun n => file ++ data.take (min n (maxFileSize - 1 - file.length))

/-- The loop of `write_batch`, at the position `i` of the batch. An exception leaves the index as it
    is then. -/
def writeBatchLoopVia (os : ℕ → Option ℕ) (base : UInt64) :
    List Record → (i : ℕ) → (idx buffer : Bytes) → UInt64 → Except Bytes (Bytes × Bytes)
  | [], _, idx, buffer, _ => .ok (idx, buffer)
  | cmd :: rest, i, idx, buffer, currentFilePos =>
    let next := currentFilePos + UInt64.ofNat cmd.diskSize
    if indexDue base cmd then
      match writev (os i) idx (IndexEntry.encode ⟨cmd.offset, currentFilePos⟩) with
      | none => .error idx
      | some idx => writeBatchLoopVia os base rest (i + 1) idx (buffer ++ cmd.encode) next
    else writeBatchLoopVia os base rest (i + 1) idx (buffer ++ cmd.encode) next

/-- `write_batch`, with the outcomes of its calls. An exception leaves the store as it is then. -/
def writeBatchVia (s : PartitionStore κ) (os : Outcomes) (batch : List Record) :
    Except (PartitionStore κ) (PartitionStore κ) :=
  match batch.getLast? with
  | none => .ok s
  | some last =>
    let base := s.writer.baseOffset
    let files := s.dir.files base
    match writeBatchLoopVia os.index base batch 0 files.idx [] s.writer.bytesWritten with
    | .error idx => .error { s with dir := s.dir.insert base ⟨files.log, idx⟩ }
    | .ok (idx, buffer) =>
      match writev os.log files.log buffer with
      | none => .error { s with dir := s.dir.insert base ⟨files.log, idx⟩ }
      | some log =>
        .ok { s with
          dir := s.dir.insert base ⟨log, idx⟩
          writer :=
            { s.writer with
              bytesWritten := s.writer.bytesWritten + UInt64.ofNat buffer.length
              nextOffset := s.writer.nextOffset + UInt64.ofNat batch.length }
          committedOffset := last.offset + 1 }

/-! ## What `write_batch` does -/

/-- An index entry of the commands from the position `i` on is due, and it cannot be written. -/
def IndexFails (os : ℕ → Option ℕ) (base : UInt64) (batch : List Record) (i : ℕ) : Prop :=
  ∃ j cmd, batch[j]? = some cmd ∧ indexDue base cmd ∧ os (i + j) = none

theorem indexFails_cons {os : ℕ → Option ℕ} {base : UInt64} {cmd : Record} {rest : List Record}
    {i : ℕ} :
    IndexFails os base (cmd :: rest) i ↔
      indexDue base cmd ∧ os i = none ∨ IndexFails os base rest (i + 1) := by
  constructor
  · rintro ⟨j, r, hr, hdue, hos⟩
    cases j with
    | zero =>
      cases hr
      exact .inl ⟨hdue, hos⟩
    | succ j => exact .inr ⟨j, r, hr, hdue, by rwa [Nat.add_right_comm, Nat.add_assoc]⟩
  · rintro (⟨hdue, hos⟩ | ⟨j, r, hr, hdue, hos⟩)
    · exact ⟨0, cmd, rfl, hdue, hos⟩
    · exact ⟨j + 1, r, hr, hdue, by rwa [← Nat.add_assoc, Nat.add_right_comm]⟩

/-- The ways the loop can end: with an exception if an index entry cannot be written, and otherwise
    with all records in the buffer. -/
inductive LoopEnds (os : ℕ → Option ℕ) (base : UInt64) (batch : List Record) (i : ℕ)
    (buffer : Bytes) : Except Bytes (Bytes × Bytes) → Prop
  | thrown (idx : Bytes) (h : IndexFails os base batch i) :
      LoopEnds os base batch i buffer (.error idx)
  | done (idx : Bytes) (h : ¬IndexFails os base batch i) :
      LoopEnds os base batch i buffer (.ok (idx, buffer ++ recordFormat.encodeAll batch))

/-- A command whose entry, if due, is written leaves the rest of the loop to decide. -/
theorem LoopEnds.cons {os : ℕ → Option ℕ} {base : UInt64} {cmd : Record} {rest : List Record}
    {i : ℕ} {buffer : Bytes} {r : Except Bytes (Bytes × Bytes)}
    (hcmd : ¬(indexDue base cmd ∧ os i = none))
    (h : LoopEnds os base rest (i + 1) (buffer ++ cmd.encode) r) :
    LoopEnds os base (cmd :: rest) i buffer r := by
  cases h with
  | thrown idx h => exact .thrown idx (indexFails_cons.2 (.inr h))
  | done idx h =>
    have hall : buffer ++ cmd.encode ++ recordFormat.encodeAll rest =
        buffer ++ recordFormat.encodeAll (cmd :: rest) := by
      rw [List.append_assoc]
      rfl
    rw [hall]
    exact .done idx fun hf => (indexFails_cons.1 hf).elim hcmd h

theorem loopEnds (os : ℕ → Option ℕ) (base : UInt64) (batch : List Record) (i : ℕ)
    (idx buffer : Bytes) (pos : UInt64) :
    LoopEnds os base batch i buffer (writeBatchLoopVia os base batch i idx buffer pos) := by
  induction batch generalizing i idx buffer pos with
  | nil =>
    have hnil : buffer = buffer ++ recordFormat.encodeAll [] := by simp
    rw [writeBatchLoopVia]
    nth_rewrite 2 [hnil]
    refine .done idx ?_
    rintro ⟨j, r, hr, -⟩
    cases hr
  | cons cmd rest ih =>
    rw [writeBatchLoopVia]
    split_ifs with hdue
    · -- The entry is due: it is written or the loop is left.
      cases hos : os i with
      | none => exact .thrown idx (indexFails_cons.2 (.inl ⟨hdue, hos⟩))
      | some n => exact .cons (fun h => by simp [hos] at h) (ih _ _ _ _)
    · exact .cons (fun h => hdue h.1) (ih _ _ _ _)

section

variable {s s' : PartitionStore κ} {os : Outcomes} {batch rs : List Record}

/-- How much the log takes, if the system would take `n` bytes. -/
def taken (s : PartitionStore κ) (n : ℕ) : ℕ :=
  min n (maxFileSize - 1 - (s.log s.writer.baseOffset).length)

/-- The store after a batch of which the log has taken `k` bytes. The counters are those of
    `afterWrite`: they do not depend on `k`. -/
def afterTaken (s : PartitionStore κ) (batch : List Record) (last : UInt64) (idx : Bytes) (k : ℕ) :
    PartitionStore κ :=
  { s.afterWrite batch last with
    dir := s.dir.insert s.writer.baseOffset
      ⟨s.log s.writer.baseOffset ++ (recordFormat.encodeAll batch).take k, idx⟩ }

theorem log_afterTaken (s : PartitionStore κ) (batch : List Record) (last : UInt64) (idx : Bytes)
    (k : ℕ) :
    (s.afterTaken batch last idx k).log s.writer.baseOffset =
      s.log s.writer.baseOffset ++ (recordFormat.encodeAll batch).take k :=
  congrArg SegmentFiles.log (Dir.files_insert_self _ _ _)

/-- The ways `write_batch` can end: with an exception that leaves all but the files, or with the
    records written as far as the system takes them. -/
inductive BatchEnds (s : PartitionStore κ) (os : Outcomes) (batch : List Record) :
    Except (PartitionStore κ) (PartitionStore κ) → Prop
  | nil (h : batch = []) : BatchEnds s os batch (.ok s)
  | thrown {dir : Dir} (h : IndexFails os.index s.writer.baseOffset batch 0 ∨ os.log = none) :
      BatchEnds s os batch (.error { s with dir := dir })
  | done {n : ℕ} {last : UInt64} (idx : Bytes)
      (hidx : ¬IndexFails os.index s.writer.baseOffset batch 0) (hlog : os.log = some n) :
      BatchEnds s os batch (.ok (s.afterTaken batch last idx (s.taken n)))

theorem batchEnds (s : PartitionStore κ) (os : Outcomes) (batch : List Record) :
    BatchEnds s os batch (s.writeBatchVia os batch) := by
  rw [writeBatchVia]
  cases hlast : batch.getLast? with
  | none => exact .nil (List.getLast?_eq_none_iff.1 hlast)
  | some last =>
    dsimp only
    have hloop := loopEnds os.index s.writer.baseOffset batch 0
      (s.dir.files s.writer.baseOffset).idx [] s.writer.bytesWritten
    generalize writeBatchLoopVia os.index s.writer.baseOffset batch 0
      (s.dir.files s.writer.baseOffset).idx [] s.writer.bytesWritten = r at hloop
    cases hloop with
    | thrown idx h => exact .thrown (.inl h)
    | done idx h =>
      rw [List.nil_append]
      cases hlog : os.log with
      | none => exact .thrown (.inr hlog)
      | some n => exact .done idx h hlog

/-! ## The log and the counters -/

/-- The active segment has the records `rs` and nothing else, and `bytes_written` is its size. -/
structure Tidy (s : PartitionStore κ) (rs : List Record) : Prop where
  log_eq : s.log s.writer.baseOffset = recordFormat.encodeAll rs
  bytesWritten : s.writer.bytesWritten.toNat = (s.log s.writer.baseOffset).length
  length_lt : (s.log s.writer.baseOffset).length < maxFileSize

/-- So it is in every run in which all writes are whole. -/
theorem Indexed.tidy (h : Indexed s) : Tidy s (s.records s.writer.baseOffset) where
  log_eq := (h.sound _ s.mem_segments_active).log_eq
  bytesWritten := h.bytesWritten
  length_lt := (h.sound _ s.mem_segments_active).length_lt

/-- What is to hold after `write_batch`, if `rs` were the records before: on an exception no counter
    has moved, and else all records can be read, the batch with them, and `bytes_written` is the
    size of the log. -/
def Intact (s : PartitionStore κ) (rs batch : List Record) :
    Except (PartitionStore κ) (PartitionStore κ) → Prop
  | .error s' => s'.writer = s.writer ∧ s'.committedOffset = s.committedOffset
  | .ok s' =>
    recordFormat.decode (s'.log s.writer.baseOffset) = rs ++ batch ∧
      s'.writer.bytesWritten.toNat = (s'.log s.writer.baseOffset).length

/-- The system writes the records as a whole, if at all. -/
def WholeLog (s : PartitionStore κ) (os : Outcomes) (batch : List Record) : Prop :=
  ∀ n, os.log = some n → (recordFormat.encodeAll batch).length ≤ s.taken n

/-- The records that a piece of their text gives are all of them only if the piece is the whole. -/
theorem length_le_of_decode_take {k : ℕ}
    (h : recordFormat.decode (recordFormat.encodeAll rs ++ (recordFormat.encodeAll batch).take k) =
      rs ++ batch) :
    (recordFormat.encodeAll batch).length ≤ k := by
  rw [Format.decode_encodeAll_append] at h
  have hbatch := List.append_cancel_left h
  have hpiece := recordFormat.encodeAll_decode_append_rest ((recordFormat.encodeAll batch).take k)
  rw [hbatch] at hpiece
  have hlen := congrArg List.length hpiece
  rw [List.length_append, List.length_take] at hlen
  omega

theorem Tidy.decode_log (h : Tidy s rs) :
    recordFormat.decode (s.log s.writer.baseOffset) = rs := by
  rw [h.log_eq, Format.decode_encodeAll]

/-- A batch that is taken as a whole is one more piece of a tidy log. -/
theorem Tidy.afterTaken (h : Tidy s rs) {n : ℕ}
    (hlen : (recordFormat.encodeAll batch).length ≤ s.taken n) (last : UInt64) (idx : Bytes) :
    Tidy (s.afterTaken batch last idx (s.taken n)) (rs ++ batch) := by
  have hroom : (s.log s.writer.baseOffset).length + (recordFormat.encodeAll batch).length <
      maxFileSize := by
    have hlt := h.length_lt
    have := hlen.trans (Nat.min_le_right _ _)
    omega
  have hlog := s.log_afterTaken batch last idx (s.taken n)
  rw [List.take_of_length_le hlen] at hlog
  refine ⟨hlog.trans ?_, ?_, ?_⟩
  · rw [h.log_eq, Format.encodeAll_append]
  · rw [← h.bytesWritten] at hroom
    refine (toNat_add_ofNat (hroom.trans (by decide))).trans ?_
    rw [h.bytesWritten, ← List.length_append]
    exact congrArg List.length hlog.symm
  · rw [← List.length_append] at hroom
    exact (congrArg List.length hlog).trans_lt hroom

/-- **Short writes.** In whichever way the calls of `write_batch` come out, it leaves the log and
    the counters right if and only if it ends with an exception, as an index entry or the log cannot
    be written, or the log is written as a whole. -/
theorem intact_iff (h : Tidy s rs) (os : Outcomes) (batch : List Record) :
    Intact s rs batch (s.writeBatchVia os batch) ↔
      IndexFails os.index s.writer.baseOffset batch 0 ∨ WholeLog s os batch := by
  have hends := s.batchEnds os batch
  generalize s.writeBatchVia os batch = r at hends
  cases hends with
  | nil hnil =>
    subst hnil
    refine iff_of_true ⟨?_, h.bytesWritten⟩ (.inr fun n _ => Nat.zero_le _)
    rw [h.decode_log, List.append_nil]
  | thrown hfails =>
    refine iff_of_true ⟨rfl, rfl⟩ (hfails.imp id fun hnone n hn => ?_)
    exact absurd (hnone.symm.trans hn) nofun
  | @done n last idx hidx hlog =>
    refine ⟨fun hintact => .inr fun m hm => ?_, fun hwhole => ?_⟩
    · -- Records can only be read back from what was written of them.
      cases hlog.symm.trans hm
      have hdecode := hintact.1
      rw [log_afterTaken, h.log_eq] at hdecode
      exact length_le_of_decode_take hdecode
    · have htidy := h.afterTaken (hwhole.resolve_left hidx n hlog) last idx
      exact ⟨htidy.decode_log, htidy.bytesWritten⟩

/-- A batch written as a whole leaves a tidy log, with the batch behind what it had. -/
theorem Tidy.of_ok (h : Tidy s rs) (hwhole : WholeLog s os batch)
    (hok : s.writeBatchVia os batch = .ok s') : Tidy s' (rs ++ batch) := by
  have hends := s.batchEnds os batch
  rw [hok] at hends
  cases hends with
  | nil hnil => rwa [hnil, List.append_nil]
  | done idx hidx hlog => exact h.afterTaken (hwhole _ hlog) _ idx

/-- And so do the batches of a whole run. -/
theorem Run.tidy {es : List (Outcomes × List Record)} {s₀ : PartitionStore κ} (h : Tidy s₀ rs)
    (hrun : Run (Guarded (fun (s : PartitionStore κ) e s' => s.writeBatchVia e.1 e.2 = .ok s')
      fun s e => WholeLog s e.1 e.2) s₀ es s) :
    Tidy s (rs ++ es.flatMap Prod.snd) := by
  induction hrun with
  | nil => simpa using h
  | snoc _ hstep ih =>
    rw [List.flatMap_append, ← List.append_assoc, List.flatMap_singleton]
    exact ih.of_ok hstep.2 hstep.1

/-! ## Whole writes -/

theorem writev_of_writeFileVec {file data file' : Bytes} {n : ℕ}
    (h : writeFileVec file data = some file') (hn : data.length ≤ n) :
    writev (some n) file data = some file' := by
  obtain ⟨rfl, hlt⟩ := writeFileVec_eq_some h
  rw [List.length_append] at hlt
  refine congrArg some (congrArg (file ++ ·) (List.take_of_length_le ?_))
  omega

theorem writeBatchLoopVia_of_writeBatchLoop {index : ℕ → Option ℕ} {base pos : UInt64} {i : ℕ}
    {idx buffer : Bytes} {out : Bytes × Bytes} (hindex : ∀ i, index i = some indexEntrySize)
    (h : writeBatchLoop base batch idx buffer pos = some out) :
    writeBatchLoopVia index base batch i idx buffer pos = .ok out := by
  induction batch generalizing i idx buffer pos with
  | nil => exact congrArg Except.ok (Option.some.inj h)
  | cons cmd rest ih =>
    rw [writeBatchLoop, Option.bind_eq_bind, Option.bind_eq_some_iff] at h
    obtain ⟨idx₁, h₁, h⟩ := h
    rw [writeIndexEntry] at h₁
    rw [writeBatchLoopVia]
    split_ifs at h₁ ⊢
    · rw [hindex, writev_of_writeFileVec h₁ (by simp)]
      exact ih h
    · cases h₁
      exact ih h

/-- Where the system writes what it is given, `write_batch` is the one of the runs. -/
theorem writeBatchVia_of_writeBatch (hindex : ∀ i, os.index i = some indexEntrySize)
    (hlog : os.log = some (recordFormat.encodeAll batch).length)
    (h : s.writeBatch batch = some s') : s.writeBatchVia os batch = .ok s' := by
  rw [writeBatch] at h
  rw [writeBatchVia]
  cases hlast : batch.getLast? with
  | none =>
    rw [hlast] at h
    exact congrArg Except.ok (Option.some.inj h)
  | some last =>
    rw [hlast] at h
    dsimp only at h ⊢
    rw [Option.bind_eq_bind, Option.bind_eq_some_iff] at h
    obtain ⟨⟨idx, buffer⟩, hloop, h⟩ := h
    rw [Option.bind_eq_bind, Option.bind_eq_some_iff] at h
    obtain ⟨log, hwrite, h⟩ := h
    have hbuffer := (writeBatchLoop_eq_some hloop).2
    rw [List.nil_append] at hbuffer
    rw [writeBatchLoopVia_of_writeBatchLoop hindex hloop]
    dsimp only
    rw [hlog, writev_of_writeFileVec hwrite (by rw [hbuffer])]
    exact congrArg Except.ok (Option.some.inj h)

end

/-- A record of which the log takes five bytes counts as committed, and cannot be read. -/
theorem not_intact_short :
    let s : PartitionStore Unit := «open» ∅ {}
    let r : Record := ⟨0, 0, ⟨[7], by decide⟩⟩
    Tidy s [] ∧ ¬Intact s [] [r] (s.writeBatchVia ⟨fun _ => some indexEntrySize, some 5⟩ [r]) ∧
      ∃ s', s.writeBatchVia ⟨fun _ => some indexEntrySize, some 5⟩ [r] = .ok s' ∧
        s'.committedOffset = 1 ∧ recordFormat.decode (s'.log 0) = [] ∧
        (s'.log 0).length = 5 ∧ s'.writer.bytesWritten = 21 := by
  refine ⟨(indexed_open_empty {}).tidy, fun h => absurd h.1 ?_, _, rfl, ?_⟩
  · decide
  · decide

/-- On an empty log, a record of which the log takes all bytes is read back. -/
theorem intact_one :
    let s : PartitionStore Unit := «open» ∅ {}
    let r : Record := ⟨0, 0, ⟨[7], by decide⟩⟩
    Intact s [] [r] (s.writeBatchVia ⟨fun _ => some indexEntrySize, some 21⟩ [r]) := by
  intro s r
  refine (intact_iff (indexed_open_empty {}).tidy _ _).2 (.inr fun n hn => ?_)
  cases hn
  decide

end Fell.Storage.PartitionStore
