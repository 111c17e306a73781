import Fell.Storage.Segments

/-!
# Reads through the index

A segment is read from the position that its index gives for the offset asked for, to skip the
records in front of it. The index may be an old one: it is loaded when the segment is read first,
and kept while the segment grows.

* `Written.writeBatch`: what a writer puts in a segment are records, and in its index where some of
  them start;
* `read_lookup_eq`: so reading through an index, however old, is reading the whole segment.
-/

namespace Fell.Storage

open Platform

/-- The offsets go up. -/
def Ascending (rs : List Record) : Prop := rs.Pairwise fun r r' => r.offset < r'.offset

instance (rs : List Record) : Decidable (Ascending rs) :=
  inferInstanceAs (Decidable (rs.Pairwise _))

/-- The entry tells where one of the records starts. -/
def IndexEntry.Locates (rs : List Record) (e : IndexEntry) : Prop :=
  ∃ i r, rs[i]? = some r ∧ e.offset = r.offset ∧
    e.filePosition.toNat = (recordFormat.encodeAll (rs.take i)).length

namespace IndexEntry.Locates

variable {rs : List Record} {e : IndexEntry}

theorem append (h : e.Locates rs) (rs' : List Record) : e.Locates (rs ++ rs') := by
  obtain ⟨i, r, hr, hoff, hpos⟩ := h
  have hi : i < rs.length := (List.getElem?_eq_some_iff.1 hr).1
  refine ⟨i, r, by rwa [List.getElem?_append_left hi], hoff, ?_⟩
  rw [List.take_append_of_le_length hi.le, hpos]

/-- The records in front of the one located come before it. -/
theorem fromOffset_take (hasc : Ascending rs) {i : ℕ} {r : Record} (hr : rs[i]? = some r)
    {o : UInt64} (ho : r.offset ≤ o) : fromOffset o (rs.take i) = [] := by
  obtain ⟨hi, rfl⟩ := List.getElem?_eq_some_iff.1 hr
  rw [fromOffset, List.filter_eq_nil_iff]
  intro r' hr'
  obtain ⟨j, hj, rfl⟩ := List.getElem_of_mem hr'
  rw [List.length_take] at hj
  rw [List.getElem_take, decide_eq_true_iff, UInt64.not_le]
  exact UInt64.lt_of_lt_of_le (List.pairwise_iff_getElem.1 hasc j i _ hi (by omega)) ho

/-- From an entry that is not beyond the offset asked for, the same records are found as from the
    start of the log. -/
theorem read_eq (h : e.Locates rs) (hasc : Ascending rs) {o : UInt64} (ho : e.offset ≤ o) (n : ℕ) :
    read (recordFormat.encodeAll rs) e.filePosition.toNat o n =
      read (recordFormat.encodeAll rs) 0 o n := by
  obtain ⟨i, r, hr, hoff, hpos⟩ := h
  have hsplit : fromOffset o rs = fromOffset o (rs.drop i) := by
    conv_lhs => rw [← List.take_append_drop i rs, fromOffset, List.filter_append]
    rw [← fromOffset, fromOffset_take hasc hr (hoff ▸ ho), List.nil_append, fromOffset]
  rw [Storage.read_eq, Storage.read_eq, hpos, Format.drop_encodeAll, Format.decode_encodeAll,
    List.drop_zero, Format.decode_encodeAll, hsplit]

end IndexEntry.Locates

namespace PartitionStore

variable {κ : Type} {s s' s₀ : PartitionStore κ} {base : UInt64} {rs batch : List Record}

/-- One `write_batch` after the other. There is no result if one of them throws an exception. -/
def writeBatches (s : PartitionStore κ) : List (List Record) → Option (PartitionStore κ)
  | [] => some s
  | batch :: batches => (s.writeBatch batch).bind fun s' => s'.writeBatches batches

/-- The writer has put the records in the active segment, and in the index where some of them
    start. -/
structure Written (base : UInt64) (rs : List Record) (s : PartitionStore κ) : Prop where
  base_eq : s.writer.baseOffset = base
  log_eq : (s.dir.files base).log = recordFormat.encodeAll rs
  bytesWritten : s.writer.bytesWritten.toNat = (recordFormat.encodeAll rs).length
  idx : ∃ entries, (s.dir.files base).idx = indexFormat.encodeAll entries ∧
    ∀ e ∈ entries, e.Locates rs

/-- The writer is new, and so are its files. -/
structure Blank (base : UInt64) (s : PartitionStore κ) : Prop where
  writer : s.writer = ⟨base, base, 0⟩
  files : s.dir.files base = {}

theorem Blank.written (h : Blank base s) : Written base [] s where
  base_eq := by rw [h.writer]
  log_eq := by rw [h.files]; rfl
  bytesWritten := by rw [h.writer]; rfl
  idx := ⟨[], by rw [h.files]; rfl, nofun⟩

/-- The entries due for a batch tell where its records are written. -/
theorem locates_dueEntries {e : IndexEntry} {pos : UInt64}
    (he : e ∈ dueEntries base batch pos)
    (hpos : pos.toNat = (recordFormat.encodeAll rs).length)
    (hlt : (recordFormat.encodeAll (rs ++ batch)).length < 2 ^ 64) : e.Locates (rs ++ batch) := by
  obtain ⟨i, r, hr, hoff, hfile⟩ := Sound.mem_dueEntries he
  refine ⟨rs.length + i, r, ?_, hoff, ?_⟩
  · rw [List.getElem?_append_right (Nat.le_add_right _ _), Nat.add_sub_cancel_left, hr]
  · have hle := @Format.length_encodeAll_take_le _ _ recordFormat batch i
    rw [Format.encodeAll_append, List.length_append] at hlt
    rw [hfile, toNat_add_ofNat (by omega), hpos, List.take_length_add_append,
      Format.encodeAll_append, List.length_append]

theorem Written.writeBatch (h : Written base rs s) (hw : s.writeBatch batch = some s') :
    Written base (rs ++ batch) s' := by
  cases hlast : batch.getLast? with
  | none =>
    rw [PartitionStore.writeBatch, hlast, Option.some.injEq] at hw
    rw [← hw, List.getLast?_eq_none_iff.1 hlast, List.append_nil]
    exact h
  | some last =>
    obtain ⟨rfl, hlen⟩ := writeBatch_eq_some hlast hw
    obtain ⟨entries, hidx, hloc⟩ := h.idx
    have hfiles := files_afterWrite_self s batch last.offset
    rw [h.base_eq] at hfiles hlen
    have hlog : (s.dir.files base).log ++ recordFormat.encodeAll batch =
        recordFormat.encodeAll (rs ++ batch) := by rw [h.log_eq, Format.encodeAll_append]
    rw [hlog] at hlen
    -- Files are smaller than the positions that can be told.
    have hfit : (recordFormat.encodeAll (rs ++ batch)).length < 2 ^ 64 := hlen.trans (by decide)
    refine ⟨h.base_eq, ?_, ?_, entries ++ dueEntries base batch s.writer.bytesWritten, ?_, ?_⟩
    · rw [hfiles, hlog]
    · rw [Format.encodeAll_append, List.length_append] at hfit ⊢
      rw [← h.bytesWritten] at hfit ⊢
      exact toNat_add_ofNat hfit
    · rw [hfiles, Format.encodeAll_append, hidx]
    · intro e he
      rcases List.mem_append.1 he with he | he
      · exact (hloc e he).append batch
      · exact locates_dueEntries he h.bytesWritten hfit

theorem Written.writeBatches {batches : List (List Record)} (h : Written base rs s)
    (hw : s.writeBatches batches = some s') : Written base (rs ++ batches.flatten) s' := by
  induction batches generalizing s rs with
  | nil =>
    rw [PartitionStore.writeBatches, Option.some.injEq] at hw
    rw [← hw, List.flatten_nil, List.append_nil]
    exact h
  | cons batch batches ih =>
    rw [PartitionStore.writeBatches, Option.bind_eq_some_iff] at hw
    obtain ⟨s₁, hw₁, hw⟩ := hw
    rw [List.flatten_cons, ← List.append_assoc]
    exact ih (h.writeBatch hw₁) hw

/-- Of the entries of an index, the first ones are loaded from its first bytes. -/
theorem Written.locates_load (h : Written base rs s) (k : ℕ) :
    ∀ e ∈ OffsetIndex.load ((s.dir.files base).idx.take (indexEntrySize * k)), e.Locates rs := by
  obtain ⟨entries, hidx, hloc⟩ := h.idx
  obtain ⟨m, -, hdec⟩ :=
    @Format.decode_take_encodeAll _ _ indexFormat entries (indexEntrySize * k)
  rw [OffsetIndex.load_eq, hidx, hdec]
  exact fun e he => hloc e (List.mem_of_mem_take he)

/-- In a segment that a new writer has written, in batches of any sizes and with offsets going up,
    a read through the first entries of the index finds what a read of the whole segment does. -/
theorem read_lookup_eq {batches : List (List Record)} (hnew : Blank base s₀)
    (hw : s₀.writeBatches batches = some s) (hasc : Ascending batches.flatten) (k : ℕ) (o : UInt64)
    (n : ℕ) :
    let files := s.dir.files base
    let index := OffsetIndex.load (files.idx.take (indexEntrySize * k))
    read files.log (OffsetIndex.lookup index o).toNat o n = read files.log 0 o n := by
  intro files index
  have h := hnew.written.writeBatches hw
  rw [List.nil_append] at h
  rcases OffsetIndex.lookup_cases index o with h0 | ⟨e, he, hle, hpos⟩
  · rw [h0]
    rfl
  · rw [hpos, h.log_eq]
    exact (h.locates_load k e he).read_eq hasc hle n

theorem blank_open_empty (options : StorageOptions) :
    Blank 0 («open» ∅ options : PartitionStore κ) :=
  ⟨rfl, files_open_empty options 0⟩

/-- Two batches with one record each. -/
def twoBatches : List (List Record) := [[⟨0, 7, .empty⟩], [⟨1, 7, .empty⟩]]

theorem read_lookup_twoBatches : Ascending twoBatches.flatten ∧
    ∃ s : PartitionStore Unit, («open» ∅ {}).writeBatches twoBatches = some s ∧
      read (s.dir.files 0).log
        (OffsetIndex.lookup (OffsetIndex.load ((s.dir.files 0).idx.take (indexEntrySize * 1)))
          1).toNat 1 5 = read (s.dir.files 0).log 0 1 5 := by
  have hasc : Ascending twoBatches.flatten := by decide
  obtain ⟨s, hs⟩ := Option.isSome_iff_exists.1
    (by decide +kernel :
      ((«open» ∅ {} : PartitionStore Unit).writeBatches twoBatches).isSome = true)
  exact ⟨hasc, s, hs, read_lookup_eq (blank_open_empty {}) hs hasc 1 1 5⟩

end PartitionStore

end Fell.Storage
