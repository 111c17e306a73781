import Fell.Lib.Framing
import Fell.Lib.Positional

/-!
# Length-prefixed messages

Messages made of a tag and a body, each written behind a field of `k` bytes with
its length in network order. The length counts the tag, so it is never zero.
-/

namespace Fell

open Positional

/-- A tag and a body that together fit a length field of `k` bytes. -/
@[ext] structure Message (k : ℕ) where
  tag : UInt8
  body : List UInt8
  length_lt : body.length + 1 < 256 ^ k

namespace Message

variable {k : ℕ}

/-- The message behind its length. -/
def encode (m : Message k) : List UInt8 := beBytes k (m.body.length + 1) ++ m.tag :: m.body

@[simp] theorem length_encode (m : Message k) : m.encode.length = k + (m.body.length + 1) := by
  simp [encode]

/-- What the length field at the front of the input says. -/
def size (k : ℕ) (bs : List UInt8) : ℕ := beNat (bs.take k)

@[simp] theorem size_encode_append (m : Message k) (tl : List UInt8) :
    size k (m.encode ++ tl) = m.body.length + 1 := by
  rw [size, encode, List.append_assoc, List.take_left' (length_beBytes _ _), beNat_beBytes,
    Nat.mod_eq_of_lt m.length_lt]

theorem size_lt (k : ℕ) (bs : List UInt8) : size k bs < 256 ^ k :=
  (beNat_lt _).trans_le (Nat.pow_le_pow_right (by decide) (List.length_take_le _ _))

/-- There is a whole message at the front of the input. -/
def Whole (k : ℕ) (bs : List UInt8) : Prop := 0 < size k bs ∧ k + size k bs ≤ bs.length

instance (k : ℕ) (bs : List UInt8) : Decidable (Whole k bs) := instDecidableAnd

/-- The message at the front of the input. -/
def first (bs : List UInt8) (h : Whole k bs) : Message k where
  tag := (bs.drop k).headD 0
  body := (bs.drop (k + 1)).take (size k bs - 1)
  length_lt := by
    have hlt := size_lt k bs
    have hpos := h.1
    rw [List.length_take]
    omega

theorem length_body_first {bs : List UInt8} (h : Whole k bs) :
    (first bs h).body.length + 1 = size k bs := by
  have hpos := h.1
  have hle := h.2
  simp only [first, List.length_take, List.length_drop]
  omega

theorem eq_encode_first {bs : List UInt8} (h : Whole k bs) :
    bs = (first bs h).encode ++ bs.drop (k + size k bs) := by
  have hle := h.2
  have hpos := h.1
  -- The bytes are taken apart: the length field, the tag, and what follows.
  obtain ⟨t, tl, htl⟩ : ∃ t tl, bs.drop k = t :: tl := by
    cases hd : bs.drop k with
    | nil =>
      rw [List.drop_eq_nil_iff] at hd
      omega
    | cons t tl => exact ⟨t, tl, rfl⟩
  have hdrop : ∀ n, bs.drop (k + (n + 1)) = tl.drop n := fun n => by
    rw [← List.drop_drop, htl, List.drop_succ_cons]
  have hlen := congrArg List.length htl
  rw [List.length_drop, List.length_cons] at hlen
  obtain ⟨n, hn⟩ : ∃ n, size k bs = n + 1 := ⟨size k bs - 1, by omega⟩
  have hbytes : beBytes k (n + 1) = bs.take k := by
    have := beBytes_beNat (bs.take k)
    rwa [List.length_take, Nat.min_eq_left (by omega), ← size, hn] at this
  have htag : (first bs h).tag = t := by simp only [first, htl, List.headD_cons]
  have hbody : (first bs h).body = tl.take n := by
    simp only [first, hn, Nat.add_sub_cancel, hdrop 0, List.drop_zero]
  have hrest : bs.drop (k + size k bs) = tl.drop n := hn ▸ hdrop n
  rw [encode, htag, hbody, List.length_take, Nat.min_eq_left (by omega), hbytes, hrest,
    List.append_assoc, List.cons_append, List.take_append_drop, ← htl, List.take_append_drop]

end Message

/-- Length-prefixed messages are told apart by their length. -/
def lengthPrefixed (k : ℕ) : Format (Message k) UInt8 where
  encode := Message.encode
  next bs :=
    if h : Message.Whole k bs then some (Message.first bs h, bs.drop (k + Message.size k bs))
    else none
  next_encode_append m tl := by
    have hw : Message.Whole k (m.encode ++ tl) := by
      rw [Message.Whole, Message.size_encode_append, List.length_append, Message.length_encode]
      omega
    have hsplit := Message.eq_encode_first hw
    have hlen : m.encode.length = (Message.first (m.encode ++ tl) hw).encode.length := by
      have := congrArg List.length hsplit
      rw [List.length_append, List.length_append, List.length_drop, List.length_append,
        Message.size_encode_append, Message.length_encode] at this
      rw [Message.length_encode]
      omega
    obtain ⟨henc, htl⟩ := List.append_inj hsplit hlen
    rw [dif_pos hw, Option.some.injEq, Prod.mk.injEq]
    refine ⟨?_, htl.symm⟩
    -- The encodings agree, so the tags and bodies behind the length fields do.
    have hbody := (List.append_inj henc (by simp)).2
    rw [List.cons.injEq] at hbody
    exact Message.ext hbody.1.symm hbody.2.symm
  eq_encode_append {bs m tl} h := by
    split at h
    · rename_i hw
      cases h
      exact Message.eq_encode_first hw
    · exact absurd h (by simp)
  length_encode_pos m := by
    rw [Message.length_encode]
    omega

@[simp] theorem lengthPrefixed_encode {k : ℕ} (m : Message k) :
    (lengthPrefixed k).encode m = m.encode := rfl

theorem lengthPrefixed_next_of_whole {k : ℕ} {bs : List UInt8} (h : Message.Whole k bs) :
    (lengthPrefixed k).next bs = some (Message.first bs h, bs.drop (k + Message.size k bs)) :=
  dif_pos h

theorem lengthPrefixed_next_of_not_whole {k : ℕ} {bs : List UInt8} (h : ¬ Message.Whole k bs) :
    (lengthPrefixed k).next bs = none :=
  dif_neg h

end Fell
