import Fell.Lib.LengthPrefixed

/-!
# The platform layer

Byte order (`platform/endian.hpp`) and files (`platform/file.hpp`, on POSIX).
The headers written to disk and to sockets hold words in network order: a
word in memory after `host_to_beNN` is modelled by its bytes.

A file is the list of its bytes. Files are opened for appending or for
positional reads, so there is no file position to model.
-/

namespace Fell.Platform

open Positional

abbrev Bytes := List UInt8

/-- Below another number, a word has a successor. -/
theorem toNat_add_one_of_lt {v w : UInt64} (h : v < w) : (v + 1).toNat = v.toNat + 1 := by
  have hmax := w.toNat_lt
  rw [UInt64.lt_iff_toNat_lt] at h
  rw [UInt64.toNat_add]
  exact Nat.mod_eq_of_lt (by rw [UInt64.toNat_one]; omega)

/-! ## Byte order -/

/-- The bytes in memory of `host_to_be64 v`. -/
def hostToBe64 (v : UInt64) : Bytes := beBytes 8 v.toNat

/-- The bytes in memory of `host_to_be32 v`. -/
def hostToBe32 (v : UInt32) : Bytes := beBytes 4 v.toNat

/-- The bytes in memory of `host_to_be16 v`. -/
def hostToBe16 (v : UInt16) : Bytes := beBytes 2 v.toNat

/-- `be64_to_host` of the word with these bytes in memory. -/
def be64ToHost (bs : Bytes) : UInt64 := UInt64.ofNat (beNat bs)

/-- `be32_to_host` of the word with these bytes in memory. -/
def be32ToHost (bs : Bytes) : UInt32 := UInt32.ofNat (beNat bs)

/-- `be16_to_host` of the word with these bytes in memory. -/
def be16ToHost (bs : Bytes) : UInt16 := UInt16.ofNat (beNat bs)

@[simp] theorem length_hostToBe64 (v : UInt64) : (hostToBe64 v).length = 8 := length_beBytes _ _

@[simp] theorem length_hostToBe32 (v : UInt32) : (hostToBe32 v).length = 4 := length_beBytes _ _

@[simp] theorem length_hostToBe16 (v : UInt16) : (hostToBe16 v).length = 2 := length_beBytes _ _

@[simp] theorem be64ToHost_hostToBe64 (v : UInt64) : be64ToHost (hostToBe64 v) = v := by
  have hv : v.toNat < 256 ^ 8 := v.toNat_lt
  rw [be64ToHost, hostToBe64, beNat_beBytes, Nat.mod_eq_of_lt hv, UInt64.ofNat_toNat]

@[simp] theorem be32ToHost_hostToBe32 (v : UInt32) : be32ToHost (hostToBe32 v) = v := by
  have hv : v.toNat < 256 ^ 4 := v.toNat_lt
  rw [be32ToHost, hostToBe32, beNat_beBytes, Nat.mod_eq_of_lt hv, UInt32.ofNat_toNat]

@[simp] theorem be16ToHost_hostToBe16 (v : UInt16) : be16ToHost (hostToBe16 v) = v := by
  have hv : v.toNat < 256 ^ 2 := v.toNat_lt
  rw [be16ToHost, hostToBe16, beNat_beBytes, Nat.mod_eq_of_lt hv, UInt16.ofNat_toNat]

theorem hostToBe64_be64ToHost {bs : Bytes} (h : bs.length = 8) :
    hostToBe64 (be64ToHost bs) = bs := by
  have hlt := beNat_lt bs
  rw [h] at hlt
  have hn : (UInt64.ofNat (beNat bs)).toNat = beNat bs := by
    rw [UInt64.toNat_ofNat']
    exact Nat.mod_eq_of_lt hlt
  rw [hostToBe64, be64ToHost, hn, ← h, beBytes_beNat]

theorem hostToBe32_be32ToHost {bs : Bytes} (h : bs.length = 4) :
    hostToBe32 (be32ToHost bs) = bs := by
  have hlt := beNat_lt bs
  rw [h] at hlt
  have hn : (UInt32.ofNat (beNat bs)).toNat = beNat bs := by
    rw [UInt32.toNat_ofNat']
    exact Nat.mod_eq_of_lt hlt
  rw [hostToBe32, be32ToHost, hn, ← h, beBytes_beNat]

theorem hostToBe16_be16ToHost {bs : Bytes} (h : bs.length = 2) :
    hostToBe16 (be16ToHost bs) = bs := by
  have hlt := beNat_lt bs
  rw [h] at hlt
  have hn : (UInt16.ofNat (beNat bs)).toNat = beNat bs := by
    rw [UInt16.toNat_ofNat']
    exact Nat.mod_eq_of_lt hlt
  rw [hostToBe16, be16ToHost, hn, ← h, beBytes_beNat]

/-- The length of a message at the front of the input, as a word. -/
theorem toNat_be32ToHost_take (bs : Bytes) :
    (be32ToHost (bs.take 4)).toNat = Message.size 4 bs := by
  rw [be32ToHost, UInt32.toNat_ofNat']
  exact Nat.mod_eq_of_lt (Message.size_lt 4 bs)

/-! ## Files -/

/-- `pread_file`: at most `size` bytes of the file from `offset` on, and fewer
    only at the end of the file. -/
def preadFile (file : Bytes) (size offset : ℕ) : Bytes := (file.drop offset).take size

/-- The sizes of files are of the signed type `off_t`. -/
def maxFileSize : ℕ := 2 ^ 63

/-- `write_file_vec` of one buffer, on a file opened for appending. A write that
    succeeds appends the whole buffer (`Storage.ShortWrite` has those that take less
    of it); one that would take the file past the largest file size fails. -/
def writeFileVec (file data : Bytes) : Option Bytes :=
  if file.length + data.length < maxFileSize then some (file ++ data) else none

theorem writeFileVec_eq_some {file data file' : Bytes} (h : writeFileVec file data = some file') :
    file' = file ++ data ∧ file'.length < maxFileSize := by
  rw [writeFileVec] at h
  split at h
  · rename_i hlt
    cases h
    exact ⟨rfl, by simpa using hlt⟩
  · exact absurd h (by simp)

end Fell.Platform
