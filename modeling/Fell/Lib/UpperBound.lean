import Mathlib.Data.List.Basic
import Mathlib.Algebra.Order.Group.Nat

/-!
# Binary search for an upper bound

`upperBound p l` bisects `l` for the first element satisfying `p`, as
`std::upper_bound` does with `p x` the comparison of the value searched for
with `x`. The search is only meaningful on a list on which `p`, once true, stays
true (`upperBound_spec`). Whatever the list, though, the
element before the bound is one on which `p` was found to fail
(`upperBound_pred`): an index kept in disorder may be searched badly, but not
answered with an entry beyond the target.
-/

namespace Fell

variable {α : Type*}

/-- Bisecting the `len` elements of `l` from `first` on. -/
def upperBoundLoop (p : α → Bool) (l : List α) : ℕ → ℕ → ℕ → ℕ
  | 0, first, _ => first
  | fuel + 1, first, len =>
    if len = 0 then first
    else
      match l[first + len / 2]? with
      | none => first
      | some x =>
        if p x then upperBoundLoop p l fuel first (len / 2)
        else upperBoundLoop p l fuel (first + len / 2 + 1) (len - len / 2 - 1)

/-- The position of the first element of `l` satisfying `p`, by bisection. -/
def upperBound (p : α → Bool) (l : List α) : ℕ := upperBoundLoop p l l.length 0 l.length

variable {p : α → Bool} {l : List α}

/-- `p` was found to fail on the element before `n`, if there is one. -/
def FailsBefore (p : α → Bool) (l : List α) (n : ℕ) : Prop :=
  n = 0 ∨ ∃ x, l[n - 1]? = some x ∧ p x = false

theorem upperBoundLoop_pred {fuel first len : ℕ} (h : FailsBefore p l first) :
    FailsBefore p l (upperBoundLoop p l fuel first len) := by
  induction fuel generalizing first len with
  | zero => exact h
  | succ fuel ih =>
    rw [upperBoundLoop]
    split
    · exact h
    · split
      · exact h
      · rename_i x hx
        split
        · exact ih h
        · rename_i hp
          exact ih (.inr ⟨x, by simpa using hx, by simpa using hp⟩)

/-- On any list, the bound is `0` or comes after an element on which `p` fails. -/
theorem upperBound_pred : FailsBefore p l (upperBound p l) := upperBoundLoop_pred (.inl rfl)

/-- Once `p` is true on an element, it is true on all the later ones. -/
def Upward (p : α → Bool) (l : List α) : Prop := l.Pairwise fun x y => p x → p y

theorem Upward.le {i j : ℕ} {x y : α} (hu : Upward p l) (hij : i ≤ j) (hx : l[i]? = some x)
    (hy : l[j]? = some y) (hp : p x) : p y := by
  rcases Nat.eq_or_lt_of_le hij with rfl | hlt
  · rw [hx, Option.some.injEq] at hy
    exact hy ▸ hp
  · obtain ⟨hj, rfl⟩ := List.getElem?_eq_some_iff.1 hy
    obtain ⟨hi, rfl⟩ := List.getElem?_eq_some_iff.1 hx
    exact List.pairwise_iff_getElem.1 hu i j hi hj hlt hp

/-- `n` separates the elements on which `p` fails from those on which it holds. -/
structure Separates (p : α → Bool) (l : List α) (n : ℕ) : Prop where
  le : n ≤ l.length
  below : ∀ i x, i < n → l[i]? = some x → p x = false
  above : ∀ i x, n ≤ i → l[i]? = some x → p x = true

theorem upperBoundLoop_spec (hu : Upward p l) {fuel first len : ℕ} (hfuel : len ≤ fuel)
    (hlen : first + len ≤ l.length) (hbelow : ∀ i x, i < first → l[i]? = some x → p x = false)
    (habove : ∀ i x, first + len ≤ i → l[i]? = some x → p x = true) :
    Separates p l (upperBoundLoop p l fuel first len) := by
  induction fuel generalizing first len with
  | zero =>
    obtain rfl : len = 0 := by omega
    exact ⟨hlen, hbelow, habove⟩
  | succ fuel ih =>
    rw [upperBoundLoop]
    split
    · rename_i h0
      subst h0
      exact ⟨hlen, hbelow, habove⟩
    · have hmid : first + len / 2 < l.length := by omega
      rw [List.getElem?_eq_getElem hmid]
      dsimp only
      split
      · rename_i hp
        -- `p` holds at the middle: the bound is in the lower half.
        exact ih (by omega) (by omega) hbelow fun i x hi hx =>
          hu.le hi (List.getElem?_eq_getElem hmid) hx hp
      · rename_i hp
        -- `p` fails at the middle, hence on all that comes before.
        refine ih (by omega) (by omega) (fun i x hi hx => ?_) fun i x hi hx =>
          habove i x (by omega) hx
        by_contra hpx
        exact hp (hu.le (by omega) hx (List.getElem?_eq_getElem hmid) (by simpa using hpx))

/-- On a list on which `p` is upward closed, the bound separates. -/
theorem upperBound_spec (hu : Upward p l) : Separates p l (upperBound p l) :=
  upperBoundLoop_spec hu le_rfl (by omega) (fun _ _ h _ => absurd h (Nat.not_lt_zero _))
    fun i x hi hx => by
      rw [Nat.zero_add] at hi
      rw [List.getElem?_eq_none hi] at hx
      exact absurd hx (by simp)

theorem Separates.unique {m n : ℕ} (hm : Separates p l m) (hn : Separates p l n) : m = n := by
  by_contra hne
  rcases Nat.lt_or_gt_of_ne hne with h | h
  · have hlt : m < l.length := h.trans_le hn.le
    have := hn.below m _ h (List.getElem?_eq_getElem hlt)
    rw [hm.above m _ le_rfl (List.getElem?_eq_getElem hlt)] at this
    exact absurd this (by simp)
  · have hlt : n < l.length := h.trans_le hm.le
    have := hm.below n _ h (List.getElem?_eq_getElem hlt)
    rw [hn.above n _ le_rfl (List.getElem?_eq_getElem hlt)] at this
    exact absurd this (by simp)

/-- The elements before a separation are those on which `p` fails. -/
theorem Separates.filter_not {n : ℕ} (h : Separates p l n) :
    l.filter (fun x => !p x) = l.take n := by
  conv_lhs => rw [← List.take_append_drop n l, List.filter_append]
  have hbelow : (l.take n).filter (fun x => !p x) = l.take n := by
    refine List.filter_eq_self.2 fun x hx => ?_
    obtain ⟨i, hi⟩ := List.mem_iff_getElem?.1 hx
    rw [List.getElem?_take] at hi
    split_ifs at hi with hlt
    rw [h.below i x hlt hi, Bool.not_false]
  have habove : (l.drop n).filter (fun x => !p x) = [] := by
    refine List.filter_eq_nil_iff.2 fun x hx => ?_
    obtain ⟨i, hi⟩ := List.mem_iff_getElem?.1 hx
    rw [List.getElem?_drop] at hi
    rw [h.above (n + i) x (Nat.le_add_right n i) hi]
    decide
  rw [hbelow, habove, List.append_nil]

/-- The bound of a list that is cut into failures and successes of `p`. -/
theorem upperBound_append {l₁ l₂ : List α} (h₁ : ∀ x ∈ l₁, p x = false)
    (h₂ : ∀ x ∈ l₂, p x = true) :
    upperBound p (l₁ ++ l₂) = l₁.length := by
  have hu : Upward p (l₁ ++ l₂) := by
    refine List.pairwise_append.2 ⟨?_, ?_, fun x hx y hy _ => h₂ y hy⟩
    · exact List.pairwise_of_forall_mem_list fun x hx y _ hp => by simp [h₁ x hx] at hp
    · exact List.pairwise_of_forall_mem_list fun x _ y hy _ => h₂ y hy
  refine (upperBound_spec hu).unique ⟨by simp, fun i x hi hx => ?_, fun i x hi hx => ?_⟩
  · rw [List.getElem?_append_left hi] at hx
    exact h₁ x (List.mem_of_getElem? hx)
  · rw [List.getElem?_append_right hi] at hx
    exact h₂ x (List.mem_of_getElem? hx)

end Fell
