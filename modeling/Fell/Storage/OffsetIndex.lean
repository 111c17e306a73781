import Fell.Lib.UpperBound
import Fell.Storage.LogFormat

/-!
# The sparse index

The index of a segment in memory (`storage/offset_index.cpp`): the entries of
its `.idx` file, loaded at once and never refreshed, and searched by bisection
for the closest position in the log from which an offset can be reached.

* `load_eq`: loading decodes the whole entries of the file;
* `lookup_cases`: whatever the entries, a lookup gives the start of the log or
  the position of an entry that is not beyond the target. This needs no order
  among the entries. If there is one, it is that of the last such entry
  (`lookup_of_sorted`);
* `loadsSafely_iff`: the constructor makes room for the whole entries and reads the whole
  file, which is more if the file ends within an entry.
-/

namespace Fell.Storage

open Platform

namespace OffsetIndex

/-- The entry at a position of the file, in host order. -/
def entryAt (idx : Bytes) (i : ℕ) : IndexEntry where
  offset := be64ToHost (preadFile idx 8 (indexEntrySize * i))
  filePosition := be64ToHost (preadFile idx 8 (indexEntrySize * i + 8))

/-- `OffsetIndex::OffsetIndex`: as many entries as there are whole ones in the
    file, read in one call. A file that cannot be opened has none, as an empty
    one. -/
def load (idx : Bytes) : List IndexEntry :=
  (List.range (idx.length / indexEntrySize)).map (entryAt idx)

/-- `OffsetIndex::lookup`: the position of the last entry not beyond the target,
    and the start of the log if there is none. -/
def lookup (entries : List IndexEntry) (target : UInt64) : UInt64 :=
  if entries = [] then 0
  else
    let it := upperBound (fun e : IndexEntry => target < e.offset) entries
    if it = 0 then 0 -- target < first entry
    else
      match entries[it - 1]? with
      | some e => e.filePosition
      | none => 0

theorem entryAt_succ {idx tl : Bytes} {e : IndexEntry} (h : indexFormat.next idx = some (e, tl))
    (i : ℕ) : entryAt idx (i + 1) = entryAt tl i := by
  have hidx : idx = e.encode ++ tl := IndexEntry.eq_encode_append h
  have hdrop : ∀ k, idx.drop (indexEntrySize + k) = tl.drop k := fun k => by
    rw [← List.drop_drop, hidx, ← IndexEntry.length_encode e, List.drop_left]
  have e₁ : indexEntrySize * (i + 1) = indexEntrySize + indexEntrySize * i := by ring
  have e₂ : indexEntrySize * (i + 1) + 8 = indexEntrySize + (indexEntrySize * i + 8) := by ring
  rw [entryAt, entryAt, preadFile, preadFile, preadFile, preadFile, e₂, e₁, hdrop, hdrop]

theorem entryAt_zero {idx tl : Bytes} {e : IndexEntry} (h : indexFormat.next idx = some (e, tl)) :
    entryAt idx 0 = e := by
  have hidx : idx = e.encode ++ tl := IndexEntry.eq_encode_append h
  have h₁ : preadFile idx 8 (indexEntrySize * 0) = hostToBe64 e.offset := by
    simp [preadFile, hidx, IndexEntry.encode]
  have h₂ : preadFile idx 8 (indexEntrySize * 0 + 8) = hostToBe64 e.filePosition := by
    simp [preadFile, hidx, IndexEntry.encode]
  rw [entryAt, h₁, h₂, be64ToHost_hostToBe64, be64ToHost_hostToBe64]

/-- Loading an index decodes its whole entries. -/
theorem load_eq (idx : Bytes) : load idx = indexFormat.decode idx := by
  induction idx using indexFormat.induction with
  | none idx h =>
    have hlen : idx.length < indexEntrySize := by
      by_contra hge
      exact absurd h (by simp [indexFormat, IndexEntry.next, hge])
    rw [Format.decode_of_none h, load, Nat.div_eq_of_lt hlen]
    rfl
  | some idx e tl h ih =>
    have hidx : idx = e.encode ++ tl := IndexEntry.eq_encode_append h
    have hlen : idx.length / indexEntrySize = tl.length / indexEntrySize + 1 := by
      rw [hidx, List.length_append, IndexEntry.length_encode, Nat.add_div_left _ (by decide)]
    rw [Format.decode_of_next h, ← ih, load, load, hlen, List.range_succ_eq_map, List.map_cons,
      List.map_map, entryAt_zero h]
    exact congrArg _ (List.map_congr_left fun i _ => entryAt_succ h i)

theorem length_load (idx : Bytes) : (load idx).length = idx.length / indexEntrySize := by
  rw [load, List.length_map, List.length_range]

/-- The entries loaded are the whole ones at the front of the file. -/
theorem encodeAll_load (idx : Bytes) :
    indexFormat.encodeAll (load idx) =
      idx.take (indexEntrySize * (idx.length / indexEntrySize)) := by
  have hfront : indexFormat.encodeAll (load idx) <+: idx := by
    rw [load_eq]
    exact ⟨_, Format.encodeAll_decode_append_rest idx⟩
  rw [List.prefix_iff_eq_take.1 hfront, length_encodeAll_indexFormat, length_load]

/-- A lookup gives the start of the log, or the position of an entry that is not
    beyond the target. -/
theorem lookup_cases (entries : List IndexEntry) (target : UInt64) :
    lookup entries target = 0 ∨
      ∃ e ∈ entries, e.offset ≤ target ∧ lookup entries target = e.filePosition := by
  rw [lookup]
  split_ifs with hnil
  · exact .inl rfl
  · dsimp only
    split_ifs with h0
    · exact .inl rfl
    · rcases @upperBound_pred _ (fun e : IndexEntry => decide (target < e.offset)) entries with
        h | ⟨e, he, hp⟩
      · exact absurd h h0
      · refine .inr ⟨e, List.mem_of_getElem? he, by simpa using hp, ?_⟩
        rw [he]

/-- In an index that is in order, a lookup finds the last entry not beyond the target. -/
theorem lookup_of_sorted {entries : List IndexEntry}
    (hsorted : entries.Pairwise fun e e' => e.offset ≤ e'.offset) (target : UInt64) :
    lookup entries target =
      (entries.filter fun e => e.offset ≤ target).getLast?.elim 0 (·.filePosition) := by
  have hup : Upward (fun e : IndexEntry => decide (target < e.offset)) entries :=
    hsorted.imp fun hle => by simpa using fun hlt => UInt64.lt_of_lt_of_le hlt hle
  have hfilter : (entries.filter fun e => e.offset ≤ target) =
      entries.take (upperBound (fun e : IndexEntry => decide (target < e.offset)) entries) := by
    rw [← (upperBound_spec hup).filter_not]
    exact List.filter_congr fun e _ => by rw [← decide_not, decide_eq_decide, UInt64.not_lt]
  have hle := (upperBound_spec hup).le
  rw [hfilter, lookup]
  dsimp only
  generalize upperBound (fun e : IndexEntry => decide (target < e.offset)) entries = it at hle ⊢
  split_ifs with hnil h0
  · simp [hnil]
  · simp [h0]
  · have hlt : it - 1 < entries.length := by omega
    rw [List.getLast?_take, if_neg h0, List.getElem?_eq_getElem hlt]
    rfl

/-! ## The memory of the entries -/

/-- `OffsetIndex::OffsetIndex` again, with the memory it reads into: there is room for the
    whole entries of the file, and the file is read as a whole. The result is what the
    constructor leaves in `entries_`, or `none` if it has written behind the end of it.
    The memory of an empty vector may be a null pointer (`nullData`), which is for the library to
    choose; the read fails then. -/
def loadInto (nullData : Bool) (idx : Bytes) : Option (List IndexEntry) :=
  let fsize := idx.length
  let numEntries := fsize / indexEntrySize
  if nullData ∧ numEntries = 0 then some [] -- nothing to read, or cleared after the failure
  else
    let buffer := preadFile idx fsize 0
    if indexEntrySize * numEntries < buffer.length then none
    else if buffer.length = fsize then some ((List.range numEntries).map (entryAt buffer))
    else some []

/-- The index is loaded safely: nothing is written behind the end of the entries, these are
    the whole entries at the front of the file, and in order, they are searched as such. -/
def LoadsSafely (nullData : Bool) (idx : Bytes) : Prop :=
  ∃ entries, loadInto nullData idx = some entries ∧
    entries.length = idx.length / indexEntrySize ∧
    indexFormat.encodeAll entries = idx.take (indexEntrySize * (idx.length / indexEntrySize)) ∧
    (entries.Pairwise (fun e e' => e.offset ≤ e'.offset) → ∀ target, lookup entries target =
      (entries.filter fun e => e.offset ≤ target).getLast?.elim 0 (·.filePosition))

theorem preadFile_self (idx : Bytes) : preadFile idx idx.length 0 = idx := by
  rw [preadFile, List.drop_zero, List.take_length]

/-- A file of whole entries is loaded into the room there is. -/
theorem loadInto_of_dvd {idx : Bytes} (h : indexEntrySize ∣ idx.length) (nullData : Bool) :
    loadInto nullData idx = some (load idx) := by
  rw [loadInto]
  dsimp only
  rw [preadFile_self, Nat.mul_div_cancel' h, if_neg (Nat.lt_irrefl _), if_pos rfl]
  split_ifs with hnull
  · rw [load, hnull.2]
    rfl
  · rfl

/-- A file that ends within an entry is read over the end of the entries, unless there is
    no whole entry and the read fails. -/
theorem loadInto_of_not_dvd {idx : Bytes} (h : ¬indexEntrySize ∣ idx.length) (nullData : Bool) :
    loadInto nullData idx =
      if nullData ∧ idx.length / indexEntrySize = 0 then some [] else none := by
  have hlt : indexEntrySize * (idx.length / indexEntrySize) < idx.length :=
    lt_of_le_of_ne (Nat.mul_div_le _ _) fun heq => h ⟨_, heq.symm⟩
  rw [loadInto]
  dsimp only
  rw [preadFile_self, if_pos hlt]

/-- An index is loaded safely exactly if the file consists of whole entries, or if it has
    none and the read fails for want of memory. -/
theorem loadsSafely_iff (nullData : Bool) (idx : Bytes) :
    LoadsSafely nullData idx ↔
      indexEntrySize ∣ idx.length ∨ nullData = true ∧ idx.length < indexEntrySize := by
  have hsafe : loadInto nullData idx = some (load idx) → LoadsSafely nullData idx := fun h =>
    ⟨load idx, h, length_load idx, encodeAll_load idx, lookup_of_sorted⟩
  by_cases hdvd : indexEntrySize ∣ idx.length
  · exact ⟨fun _ => .inl hdvd, fun _ => hsafe (loadInto_of_dvd hdvd nullData)⟩
  · have hload := loadInto_of_not_dvd hdvd nullData
    constructor
    · rintro ⟨entries, heq, -⟩
      rw [hload] at heq
      split_ifs at heq with hnull
      exact .inr ⟨hnull.1, (Nat.div_eq_zero_iff_lt (by decide)).1 hnull.2⟩
    · rintro (h | ⟨hnull, hlt⟩)
      · exact absurd h hdvd
      · have hzero : idx.length / indexEntrySize = 0 := Nat.div_eq_of_lt hlt
        refine hsafe ?_
        rw [hload, if_pos ⟨hnull, hzero⟩, load, hzero]
        rfl

/-- An index file of one entry and one more byte: seventeen bytes are read into the room of
    sixteen, whatever the library does. -/
theorem not_forall_loadsSafely : ¬∃ nullData, ∀ idx, LoadsSafely nullData idx := by
  rintro ⟨nullData, h⟩
  obtain ⟨entries, heq, -⟩ := h (List.replicate 17 0)
  have hover : loadInto nullData (List.replicate 17 0) = none := by
    cases nullData <;> decide
  rw [hover] at heq
  exact nomatch heq

end OffsetIndex

end Fell.Storage
