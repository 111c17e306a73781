import Fell.Storage.SegmentReader
import Mathlib.Data.List.AList
import Mathlib.Data.List.Sort

/-!
# Recovery of a partition directory

A partition directory holds the segments of the partition, a `.log` and an
`.idx` file each, both named after the base offset of the segment. On startup,
`recover_partition` (`storage/log_recovery.cpp`) scans the last segment, cuts
off what follows its whole records, and tells the offset to resume from.

The names are zero-padded decimals of fixed width, so that sorting the paths
sorts the base offsets (`Dir.pairwise_logPaths`).

* `recoverPartition_log`: the last log is cut to its whole records;
* `recoverPartition_nextOffset`: the next offset is that of the last of them
  plus one, whatever that record is;
* `recoverPartition_exact`: no longer front of the log consists of whole records, nothing else
  is touched, and recovering again changes nothing.

There is no checksum in the format: any bytes that look like a record are one.
`recoverPartition_continues_iff` tells when the offsets survive that.
-/

namespace Fell.Storage

open Platform Positional

/-- The two files of a segment. A missing index is an empty one. -/
structure SegmentFiles where
  log : Bytes := []
  idx : Bytes := []
  deriving DecidableEq

/-- A partition directory: its segments by base offset. -/
abbrev Dir := AList fun _ : UInt64 => SegmentFiles

/-- The decimal digits of the name of a segment (`%020llu`). -/
def stem (base : UInt64) : List ℕ := digits 10 20 base.toNat

theorem stem_le_stem_iff {a b : UInt64} : stem a ≤ stem b ↔ a ≤ b := by
  have hfit : ∀ c : UInt64, c.toNat < 10 ^ 20 := fun c => c.toNat_lt.trans (by decide)
  rw [← not_lt, stem, stem, digits_lt_digits_iff (hfit b) (hfit a), not_lt, UInt64.le_iff_toNat_le]

/-- The base offsets of the `.log` files, with their paths sorted. -/
def Dir.logPaths (dir : Dir) : List UInt64 :=
  dir.keys.insertionSort fun a b => stem a ≤ stem b

theorem Dir.mem_logPaths {dir : Dir} {base : UInt64} : base ∈ dir.logPaths ↔ base ∈ dir :=
  List.mem_insertionSort _

theorem Dir.pairwise_logPaths (dir : Dir) : dir.logPaths.Pairwise (· ≤ ·) := by
  have htotal : Std.Total fun a b : UInt64 => stem a ≤ stem b := ⟨fun a b => le_total _ _⟩
  have htrans : IsTrans UInt64 fun a b => stem a ≤ stem b := ⟨fun _ _ _ => le_trans⟩
  exact (List.pairwise_insertionSort _ dir.keys).imp stem_le_stem_iff.1

/-- Writing to the files of a segment leaves the paths as they are. -/
theorem Dir.logPaths_insert {dir : Dir} {base : UInt64} (h : base ∈ dir) (f : SegmentFiles) :
    Dir.logPaths (dir.insert base f) = dir.logPaths := by
  refine List.Perm.eq_of_pairwise (fun _ _ _ _ => UInt64.le_antisymm)
    (Dir.pairwise_logPaths _) (Dir.pairwise_logPaths _) ?_
  refine (List.perm_insertionSort _ _).trans (List.Perm.trans ?_ (List.perm_insertionSort _ _).symm)
  rw [AList.keys_insert]
  exact (List.perm_cons_erase h).symm

/-- The files of a segment. -/
def Dir.files (dir : Dir) (base : UInt64) : SegmentFiles := (dir.lookup base).getD {}

@[simp] theorem Dir.files_insert_self (dir : Dir) (base : UInt64) (f : SegmentFiles) :
    Dir.files (dir.insert base f) base = f := by
  rw [Dir.files, AList.lookup_insert, Option.getD_some]

theorem Dir.files_insert_ne {dir : Dir} {base base' : UInt64} (h : base' ≠ base)
    (f : SegmentFiles) : Dir.files (dir.insert base f) base' = dir.files base' := by
  rw [Dir.files, AList.lookup_insert_ne h, Dir.files]

/-- `RecoveryResult`. -/
structure RecoveryResult where
  nextOffset : UInt64
  logEndPosition : UInt64
  recordsRecovered : UInt32
  truncated : Bool
  deriving DecidableEq

/-- The offset to resume from: behind the last record found, and the base of the
    segment if there is none. -/
def resumeOffset (seg : UInt64) (records : List Record) : UInt64 :=
  match records.getLast? with
  | none => seg
  | some r => r.offset + 1

/-- `recover_partition`: the result, and the directory it leaves. -/
def recoverPartition (dir : Dir) : RecoveryResult × Dir :=
  match dir.logPaths.getLast? with
  | none => (⟨0, 0, 0, false⟩, dir)
  | some seg =>
    let files := dir.files seg
    let scan := scanValid files.log 0
    let rr : RecoveryResult :=
      { nextOffset := resumeOffset seg scan.2
        logEndPosition := UInt64.ofNat scan.1
        recordsRecovered := UInt32.ofNat scan.2.length
        truncated := false }
    if scan.1 < files.log.length then
      -- corrupted data section found
      ({ rr with truncated := true }, dir.insert seg { files with log := files.log.take scan.1 })
    else (rr, dir)

/-- Recovery creates and removes no log. -/
theorem recoverPartition_logPaths (dir : Dir) :
    (recoverPartition dir).2.logPaths = dir.logPaths := by
  rw [recoverPartition]
  split
  · rfl
  · rename_i seg hlast
    have hmem : seg ∈ dir := Dir.mem_logPaths.1 (List.mem_of_getLast? hlast)
    dsimp only
    split_ifs
    · exact Dir.logPaths_insert hmem _
    · rfl

section

variable {dir : Dir} {seg : UInt64} (hlast : dir.logPaths.getLast? = some seg)

include hlast

/-- The result of recovery, from the records that decode from the last log. -/
theorem recoverPartition_result :
    (recoverPartition dir).1 =
      { nextOffset := resumeOffset seg (recordFormat.decode (dir.files seg).log)
        logEndPosition := UInt64.ofNat (validLength (dir.files seg).log)
        recordsRecovered := UInt32.ofNat (recordFormat.decode (dir.files seg).log).length
        truncated := validLength (dir.files seg).log < (dir.files seg).log.length } := by
  rw [recoverPartition, hlast]
  dsimp only
  rw [scanValid_zero]
  split_ifs with hcut <;> simp [hcut]

theorem recoverPartition_nextOffset :
    (recoverPartition dir).1.nextOffset =
      resumeOffset seg (recordFormat.decode (dir.files seg).log) := by
  rw [recoverPartition_result hlast]

theorem recoverPartition_logEndPosition :
    (recoverPartition dir).1.logEndPosition = UInt64.ofNat (validLength (dir.files seg).log) := by
  rw [recoverPartition_result hlast]

/-- Recovery keeps the whole records of the last log, and cuts off the rest. -/
theorem recoverPartition_log :
    ((recoverPartition dir).2.files seg).log =
      recordFormat.encodeAll (recordFormat.decode (dir.files seg).log) := by
  rw [← take_validLength, recoverPartition, hlast]
  dsimp only
  rw [scanValid_zero]
  split_ifs with hcut
  · rw [Dir.files_insert_self]
  · -- Nothing to cut: the whole records are all there is.
    exact (List.take_of_length_le (Nat.le_of_not_lt hcut)).symm

theorem recoverPartition_idx :
    ((recoverPartition dir).2.files seg).idx = (dir.files seg).idx := by
  rw [recoverPartition, hlast]
  dsimp only
  split_ifs
  · rw [Dir.files_insert_self]
  · rfl

/-- Recovery does not look at the other segments. -/
theorem recoverPartition_files_ne {base : UInt64} (hne : base ≠ seg) :
    (recoverPartition dir).2.files base = dir.files base := by
  rw [recoverPartition, hlast]
  dsimp only
  split_ifs
  · exact Dir.files_insert_ne hne _
  · rfl

/-- Recovery leaves a log of whole records alone. -/
theorem recoverPartition_of_whole
    (hwhole : (dir.files seg).log =
      recordFormat.encodeAll (recordFormat.decode (dir.files seg).log)) :
    (recoverPartition dir).1.truncated = false ∧ (recoverPartition dir).2 = dir := by
  have hlen : validLength (dir.files seg).log = (dir.files seg).log.length :=
    congrArg List.length hwhole.symm
  rw [recoverPartition, hlast]
  dsimp only
  rw [scanValid_zero, hlen, if_neg (Nat.lt_irrefl _)]
  exact ⟨rfl, rfl⟩

end

/-! ## What a scan finds -/

/-- The longest front of a log that consists of whole records has `n` bytes, and they are
    the records `rs`, written one after the other. -/
structure LongestWhole (log : Bytes) (n : ℕ) (rs : List Record) : Prop where
  encodeAll_eq : recordFormat.encodeAll rs = log.take n
  isGreatest : IsGreatest
    {k | k ≤ log.length ∧ ∃ rs', recordFormat.encodeAll rs' = log.take k} n

theorem longestWhole_scanValid (log : Bytes) :
    LongestWhole log (scanValid log 0).1 (scanValid log 0).2 := by
  rw [scanValid_zero]
  refine ⟨(take_validLength log).symm, ⟨validLength_le log, _, (take_validLength log).symm⟩, ?_⟩
  rintro k ⟨hk, rs, hrs⟩
  -- The records of another front are among those decoded, so that it ends no later.
  have hle : (recordFormat.encodeAll rs).length ≤ validLength log :=
    Format.length_encodeAll_le_decode (hrs ▸ List.take_prefix k log)
  rwa [hrs, List.length_take, Nat.min_eq_left hk] at hle

/-- Recovery is exact: it cuts the last log to its longest front of whole records, leaves
    all other files alone, and reports whether it has cut off something. Recovering a second
    time finds the same and changes nothing. -/
theorem recoverPartition_exact {dir : Dir} {seg : UInt64}
    (hlast : dir.logPaths.getLast? = some seg) :
    let log := (dir.files seg).log
    let scan := scanValid log 0
    let recovered := recoverPartition dir
    LongestWhole log scan.1 scan.2 ∧
      recovered.2.files seg = { dir.files seg with log := log.take scan.1 } ∧
      (∀ base ≠ seg, recovered.2.files base = dir.files base) ∧
      recovered.2.logPaths = dir.logPaths ∧
      (recovered.1.truncated = true ↔ (recovered.2.files seg).log ≠ log) ∧
      recoverPartition recovered.2 = ({ recovered.1 with truncated := false }, recovered.2) := by
  dsimp only
  have hlog := recoverPartition_log hlast
  refine ⟨longestWhole_scanValid _, ?_, fun base hne => recoverPartition_files_ne hlast hne,
    recoverPartition_logPaths dir, ?_, ?_⟩
  · rw [scanValid_zero, take_validLength, ← hlog, ← recoverPartition_idx hlast]
  · rw [recoverPartition_result hlast, hlog, ← take_validLength, Ne, List.take_eq_self_iff,
      decide_eq_true_iff, Nat.not_le]
  · have hlast' : (recoverPartition dir).2.logPaths.getLast? = some seg := by
      rw [recoverPartition_logPaths, hlast]
    -- What is left are whole records, and they are those found the first time.
    have hwhole : ((recoverPartition dir).2.files seg).log =
        recordFormat.encodeAll (recordFormat.decode ((recoverPartition dir).2.files seg).log) := by
      rw [hlog, Format.decode_encodeAll]
    refine Prod.ext ?_ (recoverPartition_of_whole hlast' hwhole).2
    rw [recoverPartition_result hlast', recoverPartition_result hlast, hlog, validLength,
      Format.decode_encodeAll, validLength]
    simp

/-- A record without payload. -/
def emptyRecord (offset : UInt64) : Record := ⟨offset, 0, .empty⟩

/-- A directory with the one segment `seg`. -/
def singleSegment (seg : UInt64) (log idx : Bytes) : Dir := AList.singleton seg ⟨log, idx⟩

/-- A log of two records, with three bytes behind them. -/
def tornSegment : Dir :=
  singleSegment 0 (recordFormat.encodeAll [emptyRecord 0, emptyRecord 1] ++ [0, 0, 0]) []

/-- The bytes behind the records are cut off, and there is nothing more to do then. -/
theorem recoverPartition_exact_torn :
    tornSegment.logPaths.getLast? = some 0 ∧ (recoverPartition tornSegment).1.truncated = true ∧
      ((recoverPartition tornSegment).2.files 0).log =
        recordFormat.encodeAll [emptyRecord 0, emptyRecord 1] ∧
      recoverPartition (recoverPartition tornSegment).2 =
        ({ (recoverPartition tornSegment).1 with truncated := false },
          (recoverPartition tornSegment).2) := by
  have hlast : tornSegment.logPaths.getLast? = some 0 := by decide
  obtain ⟨-, hfiles, -, -, -, hagain⟩ := recoverPartition_exact hlast
  exact ⟨hlast, by decide, by rw [hfiles]; decide, hagain⟩

theorem recoverPartition_of_nil {dir : Dir} (h : dir.logPaths = []) :
    recoverPartition dir = (⟨0, 0, 0, false⟩, dir) := by
  rw [recoverPartition, h]
  rfl

/-! ## Offsets across recovery -/

/-- Recovery resumes after consecutive records: the records it leaves in the
    segment `seg` have the offsets from the base on, the next offset follows
    theirs, and it is not below `floor`. -/
def Resumes (seg : UInt64) (floor : ℕ) (result : RecoveryResult × Dir) : Prop :=
  let left := recordFormat.decode (result.2.files seg).log
  Numbered seg.toNat left ∧ result.1.nextOffset.toNat = seg.toNat + left.length ∧
    floor ≤ result.1.nextOffset.toNat

instance (seg : UInt64) (floor : ℕ) (result : RecoveryResult × Dir) :
    Decidable (Resumes seg floor result) :=
  inferInstanceAs (Decidable (_ ∧ _ ∧ _))

/-- The whole records at the front of a tail, if any, go on with the offsets
    from `x` on, and leave an offset to resume from. -/
def Continues (x : ℕ) (tail : Bytes) : Prop :=
  Numbered x (recordFormat.decode tail) ∧ x + (recordFormat.decode tail).length < 2 ^ 64

instance (x : ℕ) (tail : Bytes) : Decidable (Continues x tail) :=
  inferInstanceAs (Decidable (_ ∧ _))

theorem resumeOffset_toNat_iff {seg : UInt64} {rs : List Record} (h : Numbered seg.toNat rs) :
    (resumeOffset seg rs).toNat = seg.toNat + rs.length ↔ seg.toNat + rs.length < 2 ^ 64 := by
  rcases List.eq_nil_or_concat rs with rfl | ⟨init, r, rfl⟩
  · simp [resumeOffset, seg.toNat_lt]
  · -- The last offset is `2 ^ 64 - 1` at most, and wraps to `0` there.
    rw [List.concat_eq_append] at h ⊢
    obtain ⟨hr, -⟩ := numbered_cons.1 (numbered_append.1 h).2
    have hlt := r.offset.toNat_lt
    rw [resumeOffset, List.getLast?_append, List.getLast?_singleton, Option.some_or]
    dsimp only
    rw [UInt64.toNat_add, List.length_append, List.length_singleton]
    have h1 : UInt64.toNat 1 = 1 := rfl
    rw [h1, hr]
    omega

/-- A segment holding numbered records and then any tail is recovered without
    inventing or reusing offsets exactly when the tail goes on with theirs: when
    it holds no whole record, or whole records with the next offsets. -/
theorem recoverPartition_continues_iff {dir : Dir} {seg : UInt64} {rs : List Record} {tail : Bytes}
    (hlast : dir.logPaths.getLast? = some seg)
    (hlog : (dir.files seg).log = recordFormat.encodeAll rs ++ tail) (hrs : Numbered seg.toNat rs) :
    Resumes seg (seg.toNat + rs.length) (recoverPartition dir) ↔
      Continues (seg.toNat + rs.length) tail := by
  have hdec : recordFormat.decode (dir.files seg).log = rs ++ recordFormat.decode tail := by
    rw [hlog, Format.decode_encodeAll_append]
  have hleft : recordFormat.decode ((recoverPartition dir).2.files seg).log =
      rs ++ recordFormat.decode tail := by
    rw [recoverPartition_log hlast, Format.decode_encodeAll, hdec]
  rw [Resumes, hleft, recoverPartition_nextOffset hlast, hdec, Continues,
    numbered_append, List.length_append, ← Nat.add_assoc]
  constructor
  · rintro ⟨⟨-, htail⟩, hnext, -⟩
    have := (resumeOffset_toNat_iff (numbered_append.2 ⟨hrs, htail⟩)).1
    rw [List.length_append, ← Nat.add_assoc] at this
    exact ⟨htail, this hnext⟩
  · rintro ⟨htail, hlt⟩
    have := (resumeOffset_toNat_iff (numbered_append.2 ⟨hrs, htail⟩)).2
    rw [List.length_append, ← Nat.add_assoc] at this
    exact ⟨⟨hrs, htail⟩, this hlt, by rw [this hlt]; omega⟩

/-- A torn tail of three bytes is cut off, and the offset resumed from is that
    behind the two records. -/
theorem recoverPartition_continues_torn :
    Resumes 0 2 (recoverPartition (singleSegment 0
      (recordFormat.encodeAll [emptyRecord 0, emptyRecord 1] ++ [0, 0, 0]) [])) :=
  (@recoverPartition_continues_iff _ 0 [emptyRecord 0, emptyRecord 1] [0, 0, 0] (by decide) rfl
    (by decide)).2 (by decide)

/-- Not every tail is harmless. Twenty zero bytes are a whole record of offset
    `0`: after two records, recovery resumes from offset `1`, which was given to
    the second of them. -/
theorem not_forall_resumes :
    ¬∀ (dir : Dir) (seg : UInt64) (rs : List Record) (tail : Bytes),
      dir.logPaths.getLast? = some seg → (dir.files seg).log = recordFormat.encodeAll rs ++ tail →
      Numbered seg.toNat rs → Resumes seg (seg.toNat + rs.length) (recoverPartition dir) := by
  intro h
  have hbad := h (singleSegment 0 (recordFormat.encodeAll [emptyRecord 0, emptyRecord 1] ++
    List.replicate 20 0) []) 0 [emptyRecord 0, emptyRecord 1] (List.replicate 20 0)
    (by decide) rfl (by decide)
  exact absurd hbad (by decide)

end Fell.Storage
