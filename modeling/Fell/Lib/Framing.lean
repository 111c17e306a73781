import Mathlib.Data.List.Basic
import Mathlib.Algebra.Order.Group.Nat

/-!
# Self-delimiting formats

A format whose items can be told apart when they are written one after the
other: from the front of the input, `next` reads either one whole item or
nothing, and what it reads is what `encode` writes. Decoding an input reads items until there is no
whole item left, as a log scan or a frame decoder does, and leaves a *rest* that does not
start with a whole item (a torn tail).

* `encodeAll_decode_append_rest`, `next_rest`: an input is the encoding of the
  items decoded from it, followed by a rest with no whole item, and no longer front
  of it consists of whole items (`length_encodeAll_le_decode`);
* `decode_encodeAll_append`: items written in front of any input are decoded
  first, and do not disturb the decoding of what follows;
* `decode_append`: an input that comes in two parts can be decoded part by part,
  the second behind the rest of the first.
-/

namespace Fell

/-- A self-delimiting format of items `α` over symbols `β`. -/
structure Format (α β : Type*) where
  /-- The symbols written for an item. -/
  encode : α → List β
  /-- The first item of the input, if it is there as a whole, and what follows. -/
  next : List β → Option (α × List β)
  next_encode_append : ∀ a tl, next (encode a ++ tl) = some (a, tl)
  eq_encode_append : ∀ {bs a tl}, next bs = some (a, tl) → bs = encode a ++ tl
  length_encode_pos : ∀ a, 0 < (encode a).length

namespace Format

variable {α β : Type*} (F : Format α β)

/-- The items `as`, written one after the other. -/
def encodeAll (as : List α) : List β := as.flatMap F.encode

/-- At most `fuel` items read from the front of the input, and the rest. -/
def decodeAux : ℕ → List β → List α × List β
  | 0, bs => ([], bs)
  | fuel + 1, bs =>
    match F.next bs with
    | none => ([], bs)
    | some (a, tl) => (a :: (decodeAux fuel tl).1, (decodeAux fuel tl).2)

/-- The whole items at the front of the input. An item takes at least a symbol,
    so there are no more of them than symbols. -/
def decode (bs : List β) : List α := (F.decodeAux bs.length bs).1

/-- What the whole items at the front of the input leave. -/
def rest (bs : List β) : List β := (F.decodeAux bs.length bs).2

variable {F}

theorem length_lt_of_next {bs tl : List β} {a : α} (h : F.next bs = some (a, tl)) :
    tl.length < bs.length := by
  have := F.length_encode_pos a
  rw [F.eq_encode_append h, List.length_append]
  omega

theorem decodeAux_of_le {fuel fuel' : ℕ} {bs : List β} (h : bs.length ≤ fuel)
    (h' : bs.length ≤ fuel') : F.decodeAux fuel bs = F.decodeAux fuel' bs := by
  -- A message takes up bytes, so there is always as much fuel as bytes.
  induction fuel generalizing fuel' bs with
  | zero =>
    obtain rfl : bs = [] := List.eq_nil_of_length_eq_zero (by omega)
    cases fuel' with
    | zero => rfl
    | succ fuel' =>
      cases hn : F.next ([] : List β) with
      | none => rw [decodeAux, decodeAux, hn]
      | some p => exact absurd (length_lt_of_next hn) (by simp)
  | succ fuel ih =>
    cases hn : F.next bs with
    | none =>
      cases fuel' with
      | zero => rw [decodeAux, decodeAux, hn]
      | succ fuel' => rw [decodeAux, decodeAux, hn]
    | some p =>
      have hlt := length_lt_of_next hn
      cases fuel' with
      | zero => omega
      | succ fuel' =>
        have e : F.decodeAux fuel p.2 = F.decodeAux fuel' p.2 := ih (by omega) (by omega)
        simp only [decodeAux, hn, e]

theorem decodeAux_of_next {bs tl : List β} {a : α} (h : F.next bs = some (a, tl)) :
    F.decodeAux bs.length bs = (a :: F.decode tl, F.rest tl) := by
  have hlt := length_lt_of_next h
  obtain ⟨n, hn⟩ : ∃ n, bs.length = n + 1 := ⟨bs.length - 1, by omega⟩
  have e : F.decodeAux n tl = F.decodeAux tl.length tl := decodeAux_of_le (by omega) le_rfl
  simp only [hn, decodeAux, h, decode, rest, e]

theorem decodeAux_of_none {bs : List β} (h : F.next bs = none) (fuel : ℕ) :
    F.decodeAux fuel bs = ([], bs) := by
  cases fuel with
  | zero => rfl
  | succ fuel => rw [decodeAux, h]

theorem decode_of_next {bs tl : List β} {a : α} (h : F.next bs = some (a, tl)) :
    F.decode bs = a :: F.decode tl := by
  rw [decode, decodeAux_of_next h]

theorem rest_of_next {bs tl : List β} {a : α} (h : F.next bs = some (a, tl)) :
    F.rest bs = F.rest tl := by
  rw [rest, decodeAux_of_next h]

theorem decode_of_none {bs : List β} (h : F.next bs = none) : F.decode bs = [] := by
  rw [decode, decodeAux_of_none h]

theorem rest_of_none {bs : List β} (h : F.next bs = none) : F.rest bs = bs := by
  rw [rest, decodeAux_of_none h]

@[simp] theorem next_nil : F.next [] = none := by
  cases h : F.next [] with
  | none => rfl
  | some p => exact absurd (length_lt_of_next h) (by simp)

@[simp] theorem decode_nil : F.decode [] = [] := decode_of_none next_nil

@[simp] theorem encodeAll_nil : F.encodeAll [] = [] := rfl

@[simp] theorem encodeAll_cons (a : α) (as : List α) :
    F.encodeAll (a :: as) = F.encode a ++ F.encodeAll as := rfl

@[simp] theorem encodeAll_append (as bs : List α) :
    F.encodeAll (as ++ bs) = F.encodeAll as ++ F.encodeAll bs :=
  List.flatMap_append

/-- Reading an input item by item: either there is no whole item in front, or
    the input goes on behind the first one. -/
theorem induction {P : List β → Prop} (none : ∀ bs, F.next bs = none → P bs)
    (some : ∀ bs a tl, F.next bs = some (a, tl) → P tl → P bs) (bs : List β) : P bs := by
  induction hn : bs.length using Nat.strong_induction_on generalizing bs with
  | h n ih =>
    cases h : F.next bs with
    | none => exact none bs h
    | some p => exact some bs p.1 p.2 h (ih _ (hn ▸ length_lt_of_next h) p.2 rfl)

/-- No whole item is left in the rest. -/
theorem next_rest (bs : List β) : F.next (F.rest bs) = none := by
  induction bs using F.induction with
  | none bs h => rw [rest_of_none h, h]
  | some bs a tl h ih => rw [rest_of_next h, ih]

/-- The items decoded from an input and the rest make up the input. -/
theorem encodeAll_decode_append_rest (bs : List β) :
    F.encodeAll (F.decode bs) ++ F.rest bs = bs := by
  induction bs using F.induction with
  | none bs h => rw [decode_of_none h, rest_of_none h, encodeAll_nil, List.nil_append]
  | some bs a tl h ih =>
    rw [decode_of_next h, rest_of_next h, encodeAll_cons, List.append_assoc, ih,
      ← F.eq_encode_append h]

/-- Items written in front of an input are decoded first. -/
theorem decode_encodeAll_append (as : List α) (tl : List β) :
    F.decode (F.encodeAll as ++ tl) = as ++ F.decode tl := by
  induction as with
  | nil => rfl
  | cons a as ih =>
    rw [encodeAll_cons, List.append_assoc, decode_of_next (F.next_encode_append a _), ih,
      List.cons_append]

@[simp] theorem decode_encodeAll (as : List α) : F.decode (F.encodeAll as) = as := by
  simpa using decode_encodeAll_append as ([] : List β)

/-- Items written at the front of an input are the first ones decoded from it. -/
theorem isPrefix_decode {as : List α} {bs : List β} (h : F.encodeAll as <+: bs) :
    as <+: F.decode bs := by
  obtain ⟨tl, rfl⟩ := h
  rw [decode_encodeAll_append]
  exact List.prefix_append _ _

/-- No front of an input that consists of whole items is longer than what is decoded. -/
theorem length_encodeAll_le_decode {as : List α} {bs : List β} (h : F.encodeAll as <+: bs) :
    (F.encodeAll as).length ≤ (F.encodeAll (F.decode bs)).length := by
  obtain ⟨as', hdec⟩ := isPrefix_decode h
  rw [← hdec, encodeAll_append, List.length_append]
  exact Nat.le_add_right _ _

/-- Dropping the first items of an encoding drops their symbols. -/
theorem drop_encodeAll (as : List α) (i : ℕ) :
    (F.encodeAll as).drop (F.encodeAll (as.take i)).length = F.encodeAll (as.drop i) := by
  conv_lhs => rw [← List.take_append_drop i as, encodeAll_append]
  rw [List.take_append_drop, List.drop_left]

theorem length_encodeAll_take_le (as : List α) (i : ℕ) :
    (F.encodeAll (as.take i)).length ≤ (F.encodeAll as).length := by
  conv_rhs => rw [← List.take_append_drop i as, encodeAll_append, List.length_append]
  exact Nat.le_add_right _ _

theorem encodeAll_take_succ {as : List α} {i : ℕ} {a : α} (h : as[i]? = some a) :
    F.encodeAll (as.take (i + 1)) = F.encodeAll (as.take i) ++ F.encode a := by
  rw [List.take_add_one, h, encodeAll_append, Option.toList_some, encodeAll_cons, encodeAll_nil,
    List.append_nil]

/-- More items take more symbols. -/
theorem length_encodeAll_take_lt {as : List α} {i j : ℕ} (hij : i < j) (hi : i < as.length) :
    (F.encodeAll (as.take i)).length < (F.encodeAll (as.take j)).length := by
  have hnext : (F.encodeAll (as.take (i + 1))).length ≤ (F.encodeAll (as.take j)).length := by
    have := length_encodeAll_take_le (F := F) (as.take j) (i + 1)
    rwa [List.take_take, Nat.min_eq_left hij] at this
  have hpos := F.length_encode_pos as[i]
  rw [encodeAll_take_succ (List.getElem?_eq_getElem hi), List.length_append] at hnext
  omega

theorem next_take_of_lt {bs tl : List β} {a : α} {n : ℕ} (h : F.next bs = some (a, tl))
    (hn : n < (F.encode a).length) : F.next (bs.take n) = none := by
  cases hc : F.next (bs.take n) with
  | none => rfl
  | some p =>
    obtain ⟨a', tl'⟩ := p
    -- An item at the front of the cut input is the item at the front of the input.
    have hcut := F.eq_encode_append hc
    have hbs : bs = F.encode a' ++ (tl' ++ bs.drop n) := by
      rw [← List.append_assoc, ← hcut, List.take_append_drop]
    rw [hbs, F.next_encode_append, Option.some.injEq, Prod.mk.injEq] at h
    have hlen := congrArg List.length hcut
    rw [List.length_take, List.length_append, h.1] at hlen
    omega

/-- Of the items in an input that is cut, the first ones are left. -/
theorem decode_take_encodeAll (as : List α) (n : ℕ) :
    ∃ k ≤ as.length, F.decode ((F.encodeAll as).take n) = as.take k := by
  induction as generalizing n with
  | nil => exact ⟨0, Nat.le_refl 0, by simp⟩
  | cons a as ih =>
    rcases Nat.lt_or_ge n (F.encode a).length with hlt | hge
    · have hnext : F.next (F.encodeAll (a :: as)) = some (a, F.encodeAll as) :=
        F.next_encode_append a _
      exact ⟨0, Nat.zero_le _, by rw [decode_of_none (next_take_of_lt hnext hlt), List.take_zero]⟩
    · obtain ⟨k, hk, hdec⟩ := ih (n - (F.encode a).length)
      refine ⟨k + 1, Nat.succ_le_succ hk, ?_⟩
      rw [encodeAll_cons, List.take_append, List.take_of_length_le hge,
        decode_of_next (F.next_encode_append a _), hdec, List.take_succ_cons]

/-- A cut behind the first messages leaves them, and some of those that follow. -/
theorem decode_take_of_le (as bs : List α) {n : ℕ} (hn : (F.encodeAll as).length ≤ n) :
    ∃ k ≤ bs.length, F.decode ((F.encodeAll (as ++ bs)).take n) = as ++ bs.take k := by
  obtain ⟨k, hk, hdec⟩ := @decode_take_encodeAll _ _ F bs (n - (F.encodeAll as).length)
  refine ⟨k, hk, ?_⟩
  rw [encodeAll_append, List.take_append, List.take_of_length_le hn, decode_encodeAll_append, hdec]

/-- Of an input in two parts, the second is decoded behind the rest of the first. -/
theorem decode_append (bs bs' : List β) :
    F.decode (bs ++ bs') = F.decode bs ++ F.decode (F.rest bs ++ bs') := by
  conv_lhs => rw [← encodeAll_decode_append_rest (F := F) bs]
  rw [List.append_assoc, decode_encodeAll_append]

theorem rest_encodeAll_append (as : List α) (tl : List β) :
    F.rest (F.encodeAll as ++ tl) = F.rest tl := by
  induction as with
  | nil => rfl
  | cons a as ih =>
    rw [encodeAll_cons, List.append_assoc, rest_of_next (F.next_encode_append a _), ih]

theorem rest_append (bs bs' : List β) : F.rest (bs ++ bs') = F.rest (F.rest bs ++ bs') := by
  conv_lhs => rw [← encodeAll_decode_append_rest (F := F) bs]
  rw [List.append_assoc, rest_encodeAll_append]

/-- What follows the first part of an encoding continues the rest of it. -/
theorem exists_rest_append {as : List α} {bs tl : List β} (h : bs ++ tl = F.encodeAll as) :
    ∃ as', as = F.decode bs ++ as' ∧ F.rest bs ++ tl = F.encodeAll as' := by
  have hsplit : as = F.decode bs ++ F.decode (F.rest bs ++ tl) := by
    rw [← decode_append, h, decode_encodeAll]
  refine ⟨_, hsplit, ?_⟩
  rw [hsplit, encodeAll_append] at h
  conv_lhs at h => rw [← encodeAll_decode_append_rest (F := F) bs, List.append_assoc]
  exact List.append_cancel_left h

variable (F) in
/-- The items whose symbols all lie within the first `n`. -/
def within : List α → ℕ → List α
  | [], _ => []
  | a :: as, n =>
    if (F.encode a).length ≤ n then a :: within as (n - (F.encode a).length) else []

/-- The items decoded from the first symbols of an encoding are those within them. -/
theorem decode_take (as : List α) (n : ℕ) :
    F.decode ((F.encodeAll as).take n) = F.within as n := by
  induction as generalizing n with
  | nil => simp [within]
  | cons a as ih =>
    rw [within]
    split
    · rename_i hle
      rw [encodeAll_cons, List.take_append, List.take_of_length_le hle,
        decode_of_next (F.next_encode_append a _), ih]
    · rename_i hlt
      exact decode_of_none (next_take_of_lt (F.next_encode_append a _) (Nat.lt_of_not_le hlt))

end Format

end Fell
