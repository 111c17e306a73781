import Mathlib.Data.List.Basic
import Mathlib.Data.List.Lex
import Mathlib.Algebra.Order.Group.Nat
import Mathlib.Data.Nat.Digits.Lemmas
import Mathlib.Tactic.Ring

/-!
# Fixed-width positional notation

The digits of a number in base `B`, most significant first, in a field of fixed
width `w` (`digits`), and the number a list of digits denotes (`value`). Two
instances matter to binary formats and file names: bytes in network order
(`beBytes`, `beNat`, base `256`) and zero-padded decimals (base `10`).

* `value_digits`, `digits_value`: the two are inverse to each other, on the
  numbers that fit the field and on the lists of proper digits;
* `digits_lt_digits_iff`: in a fixed width, the lexicographic order of the
  digits is the order of the numbers.

Numerals of no fixed width, without leading zeros, are `numeral`; they too
determine the number (`value_numeral`, `numeral_injective`), also behind a text, if a separator
that is not a digit stands between them (`append_cons_inj`).
-/

namespace Fell.Positional

/-- The `w` digits of `n` in base `B`, most significant first. What does not
    fit in `w` digits is dropped, as by a cast to a narrower type. -/
def digits (B : ℕ) : ℕ → ℕ → List ℕ
  | 0, _ => []
  | w + 1, n => n / B ^ w % B :: digits B w n

/-- The number denoted by a list of digits, most significant first. -/
def value (B : ℕ) (ds : List ℕ) : ℕ := ds.foldl (fun acc d => acc * B + d) 0

variable {B : ℕ}

@[simp] theorem length_digits (w n : ℕ) : (digits B w n).length = w := by
  induction w with
  | zero => rfl
  | succ w ih => simp [digits, ih]

theorem digit_lt (hB : 0 < B) {w n d : ℕ} (hd : d ∈ digits B w n) : d < B := by
  induction w with
  | zero => exact absurd hd List.not_mem_nil
  | succ w ih =>
    rcases List.mem_cons.1 hd with rfl | hd
    · exact Nat.mod_lt _ hB
    · exact ih hd

theorem foldl_value (acc : ℕ) (ds : List ℕ) :
    ds.foldl (fun acc d => acc * B + d) acc = acc * B ^ ds.length + value B ds := by
  induction ds generalizing acc with
  | nil => simp [value]
  | cons d ds ih =>
    rw [value, List.foldl_cons, List.foldl_cons, ih, ih (0 * B + d), List.length_cons]
    ring

theorem value_cons (d : ℕ) (ds : List ℕ) :
    value B (d :: ds) = d * B ^ ds.length + value B ds := by
  rw [value, List.foldl_cons, foldl_value, Nat.zero_mul, Nat.zero_add]

theorem value_lt {ds : List ℕ} (hds : ∀ d ∈ ds, d < B) : value B ds < B ^ ds.length := by
  induction ds with
  | nil => simp [value]
  | cons d ds ih =>
    have hd : d + 1 ≤ B := hds d List.mem_cons_self
    have hv := ih fun e he => hds e (List.mem_cons_of_mem _ he)
    calc value B (d :: ds) = d * B ^ ds.length + value B ds := value_cons d ds
      _ < d * B ^ ds.length + B ^ ds.length := by omega
      _ = (d + 1) * B ^ ds.length := by ring
      _ ≤ B * B ^ ds.length := Nat.mul_le_mul_right _ hd
      _ = B ^ (d :: ds).length := by rw [List.length_cons, Nat.pow_succ']

/-- Reading the digits of a number back gives the part of it that fits. -/
theorem value_digits (w n : ℕ) : value B (digits B w n) = n % B ^ w := by
  induction w with
  | zero => simp [digits, value, Nat.mod_one]
  | succ w ih =>
    rw [digits, value_cons, ih, length_digits, Nat.pow_succ, Nat.mod_mul]
    ring

theorem digits_mod (w n : ℕ) : digits B w (n % B ^ w) = digits B w n := by
  suffices h : ∀ v ≤ w, digits B v (n % B ^ w) = digits B v n from h w le_rfl
  intro v hv
  induction v with
  | zero => rfl
  | succ v ih =>
    -- The digit of weight `v` does not see what is cut off at `w > v`.
    have hdvd : B ^ v * B ∣ B ^ w := by
      rw [← Nat.pow_succ]
      exact Nat.pow_dvd_pow B hv
    have hdig : n % B ^ w / B ^ v % B = n / B ^ v % B := by
      rw [← Nat.mod_mul_right_div_self, ← Nat.mod_mul_right_div_self, Nat.mod_mod_of_dvd n hdvd]
    rw [digits, digits, ih (by omega), hdig]

/-- A list of proper digits is the digits of the number it denotes. -/
theorem digits_value {ds : List ℕ} (hds : ∀ d ∈ ds, d < B) :
    digits B ds.length (value B ds) = ds := by
  induction ds with
  | nil => rfl
  | cons d ds ih =>
    have hd : d < B := hds d List.mem_cons_self
    have hds' : ∀ e ∈ ds, e < B := fun e he => hds e (List.mem_cons_of_mem _ he)
    have hlt := value_lt hds'
    have hpos : 0 < B ^ ds.length := Nat.pow_pos (by omega)
    rw [List.length_cons, digits, value_cons]
    congr 1
    · rw [Nat.add_comm, Nat.add_mul_div_right _ _ hpos, Nat.div_eq_of_lt hlt, Nat.zero_add,
        Nat.mod_eq_of_lt hd]
    · rw [← digits_mod, Nat.mul_comm, Nat.mul_add_mod, Nat.mod_eq_of_lt hlt, ih hds']

/-- In a field of fixed width, digits compare lexicographically as the numbers
    they denote do. -/
theorem digits_lt_digits_iff {w m n : ℕ} (hm : m < B ^ w) (hn : n < B ^ w) :
    digits B w m < digits B w n ↔ m < n := by
  induction w generalizing m n with
  | zero =>
    rw [Nat.pow_zero, Nat.lt_one_iff] at hm hn
    simp [hm, hn, digits]
  | succ w ih =>
    have hB : 0 < B := by
      rcases Nat.eq_zero_or_pos B with rfl | h
      · simp at hm
      · exact h
    have hpos : 0 < B ^ w := Nat.pow_pos hB
    have hdiv : ∀ k < B ^ (w + 1), k / B ^ w % B = k / B ^ w := fun k hk =>
      Nat.mod_eq_of_lt (Nat.div_lt_of_lt_mul (by rwa [Nat.pow_succ] at hk))
    rw [digits, digits, hdiv m hm, hdiv n hn, List.cons_lt_cons_iff, ← digits_mod w m,
      ← digits_mod w n, ih (Nat.mod_lt _ hpos) (Nat.mod_lt _ hpos)]
    -- Compare the leading digits first, and then what they leave.
    have em := Nat.div_add_mod m (B ^ w)
    have en := Nat.div_add_mod n (B ^ w)
    have rm := Nat.mod_lt m hpos
    have rn := Nat.mod_lt n hpos
    generalize m % B ^ w = r at *
    generalize n % B ^ w = q at *
    constructor
    · rintro (h | ⟨h, hr⟩)
      · have := Nat.mul_le_mul_left (B ^ w) (Nat.succ_le_of_lt h)
        rw [Nat.succ_eq_add_one, Nat.mul_add, Nat.mul_one] at this
        omega
      · rw [h] at em
        omega
    · intro h
      rcases Nat.lt_trichotomy (m / B ^ w) (n / B ^ w) with hlt | heq | hgt
      · exact .inl hlt
      · refine .inr ⟨heq, ?_⟩
        rw [heq] at em
        omega
      · have := Nat.mul_le_mul_left (B ^ w) (Nat.succ_le_of_lt hgt)
        rw [Nat.succ_eq_add_one, Nat.mul_add, Nat.mul_one] at this
        omega

/-! ## Bytes in network order -/

/-- The number `n` as `w` bytes in network (big-endian) order. -/
def beBytes (w n : ℕ) : List UInt8 := (digits 256 w n).map UInt8.ofNat

/-- The number denoted by bytes in network order. -/
def beNat (bs : List UInt8) : ℕ := value 256 (bs.map UInt8.toNat)

@[simp] theorem length_beBytes (w n : ℕ) : (beBytes w n).length = w := by simp [beBytes]

theorem byte_lt {bs : List UInt8} {d : ℕ} (hd : d ∈ bs.map UInt8.toNat) : d < 256 := by
  obtain ⟨b, _, rfl⟩ := List.mem_map.1 hd
  exact b.toNat_lt

theorem beNat_lt (bs : List UInt8) : beNat bs < 256 ^ bs.length := by
  simpa [beNat] using value_lt (fun _ => @byte_lt bs _)

theorem beNat_beBytes (w n : ℕ) : beNat (beBytes w n) = n % 256 ^ w := by
  have h : ((digits 256 w n).map UInt8.ofNat).map UInt8.toNat = digits 256 w n := by
    rw [List.map_map]
    refine (List.map_congr_left fun d hd => ?_).trans (List.map_id _)
    simpa using Nat.mod_eq_of_lt (digit_lt (by decide) hd)
  rw [beNat, beBytes, h, value_digits]

theorem beBytes_beNat (bs : List UInt8) : beBytes bs.length (beNat bs) = bs := by
  have h := digits_value (fun _ => @byte_lt bs _)
  rw [List.length_map] at h
  rw [beBytes, beNat, h, List.map_map]
  refine (List.map_congr_left fun b _ => ?_).trans (List.map_id _)
  simp

/-! ## Numerals without leading zeros -/

/-- The digits of `n` in base `B`, most significant first, without leading zeros,
    and one zero for zero. -/
def numeral (B n : ℕ) : List ℕ := if n = 0 then [0] else (Nat.digits B n).reverse

theorem numeral_lt (hB : 1 < B) {n d : ℕ} (hd : d ∈ numeral B n) : d < B := by
  rw [numeral] at hd
  split at hd
  · rw [List.mem_singleton.1 hd]
    omega
  · exact Nat.digits_lt_base hB (List.mem_reverse.1 hd)

/-- A numeral denotes its number. -/
theorem value_numeral (B n : ℕ) : value B (numeral B n) = n := by
  have hfold : (fun d acc => acc * B + d) = fun d acc : ℕ => d + B * acc := by
    funext d acc
    ring
  rw [numeral]
  split_ifs with hn
  · rw [hn, value, List.foldl_cons, Nat.zero_mul]
    rfl
  · have hdigits := Nat.ofDigits_digits B n
    rw [Nat.ofDigits_eq_foldr] at hdigits
    rw [value, List.foldl_reverse, hfold]
    exact hdigits

theorem numeral_injective (B : ℕ) : Function.Injective (numeral B) :=
  Function.LeftInverse.injective (value_numeral B)

/-- A text ends at the last separator, if what follows contains none. -/
theorem append_cons_inj {α : Type*} {l₁ l₂ r₁ r₂ : List α} {a : α} (h₁ : a ∉ r₁) (h₂ : a ∉ r₂)
    (h : l₁ ++ a :: r₁ = l₂ ++ a :: r₂) : l₁ = l₂ ∧ r₁ = r₂ := by
  -- The longer of the two texts would have the separator of the other in its rest.
  have hnil : ∀ {t r r' : List α}, a ∉ r → a :: r = t ++ a :: r' → t = [] := by
    intro t r r' hr ht
    cases t with
    | nil => rfl
    | cons b t => exact absurd (List.cons_eq_cons.1 ht).2 fun heq => hr (by simp [heq])
  rcases List.append_eq_append_iff.1 h with ⟨t, rfl, ht⟩ | ⟨t, rfl, ht⟩
  · obtain rfl := hnil h₁ ht
    exact ⟨(List.append_nil _).symm, (List.cons_eq_cons.1 ht).2⟩
  · obtain rfl := hnil h₂ ht
    exact ⟨List.append_nil _, (List.cons_eq_cons.1 ht).2.symm⟩

end Fell.Positional
