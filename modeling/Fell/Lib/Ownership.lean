import Mathlib.Logic.Function.Basic
import Mathlib.Tactic.SplitIfs

/-!
# Blocks with one owner

Objects that own blocks of a heap, each at most one. The blocks that are allocated are those that
are owned, and no two objects own the same one (`Exclusive`): so no block is freed twice, none is
used after it was freed, and none is left over.

It is kept when an object acquires a new block (`Exclusive.acquire`), frees the one it has
(`Exclusive.release`), or takes over that of another one (`Exclusive.transfer`). When no object owns
anything, the heap is empty (`Exclusive.heap_eq_none`).
-/

namespace Fell

variable {ι α β : Type*} {own : ι → Option α} {heap : α → Option β} {x y : ι} {a : α}

/-- The blocks allocated are those that are owned, each by one object. -/
structure Exclusive (own : ι → Option α) (heap : α → Option β) : Prop where
  unique : ∀ {x y : ι} {a : α}, own x = some a → own y = some a → x = y
  allocated_iff : ∀ a, heap a ≠ none ↔ ∃ x, own x = some a

namespace Exclusive

theorem empty : Exclusive (fun _ : ι => (none : Option α)) (fun _ => (none : Option β)) where
  unique h := by cases h
  allocated_iff a := by simp

theorem heap_eq_none (h : Exclusive own heap) (hown : ∀ x, own x = none) (a : α) :
    heap a = none := by
  by_contra hne
  obtain ⟨x, hx⟩ := (h.allocated_iff a).1 hne
  rw [hown x] at hx
  cases hx

theorem allocated (h : Exclusive own heap) (hx : own x = some a) : heap a ≠ none :=
  (h.allocated_iff a).2 ⟨x, hx⟩

/-- What is owned does not depend on the contents. -/
theorem congr {own' : ι → Option α} (h : Exclusive own heap) (hown : ∀ x, own' x = own x) :
    Exclusive own' heap := by
  rwa [show own' = own from funext hown]

variable [DecidableEq ι]

theorem acquire [DecidableEq α] (h : Exclusive own heap) (hx : own x = none) (ha : heap a = none)
    (b : β) : Exclusive (Function.update own x (some a)) (Function.update heap a (some b)) := by
  have hfree : ∀ z, own z ≠ some a := fun z hz => h.allocated hz ha
  constructor
  · intro y z c hy hz
    rw [Function.update_apply] at hy hz
    split_ifs at hy hz with hyx hzx hzx
    · rw [hyx, hzx]
    · exact absurd (Option.some.inj hy ▸ hz) (hfree z)
    · exact absurd (Option.some.inj hz ▸ hy) (hfree y)
    · exact h.unique hy hz
  · intro c
    by_cases hc : c = a
    · rw [hc, Function.update_self]
      exact ⟨fun _ => ⟨x, Function.update_self _ _ _⟩, fun _ => Option.some_ne_none b⟩
    · rw [Function.update_of_ne hc, h.allocated_iff c]
      constructor
      · rintro ⟨z, hz⟩
        have hzx : z ≠ x := fun heq => by
          rw [heq, hx] at hz
          cases hz
        exact ⟨z, by rw [Function.update_of_ne hzx, hz]⟩
      · rintro ⟨z, hz⟩
        rw [Function.update_apply] at hz
        split_ifs at hz
        · exact absurd (Option.some.inj hz).symm hc
        · exact ⟨z, hz⟩

theorem release [DecidableEq α] (h : Exclusive own heap) (hx : own x = some a) :
    Exclusive (Function.update own x none) (Function.update heap a none) := by
  constructor
  · intro y z c hy hz
    rw [Function.update_apply] at hy hz
    split_ifs at hy hz
    exact h.unique hy hz
  · intro c
    by_cases hc : c = a
    · rw [hc, Function.update_self]
      refine ⟨fun hne => absurd rfl hne, ?_⟩
      rintro ⟨z, hz⟩
      rw [Function.update_apply] at hz
      split_ifs at hz with hzx
      exact absurd (h.unique hz hx) hzx
    · rw [Function.update_of_ne hc, h.allocated_iff c]
      constructor
      · rintro ⟨z, hz⟩
        have hzx : z ≠ x := fun heq => by
          rw [heq, hx] at hz
          exact hc (Option.some.inj hz).symm
        exact ⟨z, by rw [Function.update_of_ne hzx, hz]⟩
      · rintro ⟨z, hz⟩
        rw [Function.update_apply] at hz
        split_ifs at hz
        exact ⟨z, hz⟩

theorem transfer (h : Exclusive own heap) (hx : own x = none) :
    Exclusive (Function.update (Function.update own y none) x (own y)) heap := by
  -- The new owner of a block is the old one, or has taken it over.
  have howner : ∀ z c, Function.update (Function.update own y none) x (own y) z = some c →
      own (if z = x then y else z) = some c := by
    intro z c hz
    rw [Function.update_apply, Function.update_apply] at hz
    split_ifs at hz ⊢
    · exact hz
    · exact hz
  constructor
  · intro z w c hz hw
    have heq := h.unique (howner z c hz) (howner w c hw)
    rw [Function.update_apply, Function.update_apply] at hz hw
    split_ifs at hz hw heq with hzx hwx
    · rw [hzx, hwx]
    · exact absurd heq.symm ‹¬w = y›
    · exact absurd heq ‹¬z = y›
    · exact heq
  · intro c
    rw [h.allocated_iff c]
    constructor
    · rintro ⟨z, hz⟩
      by_cases hzy : z = y
      · exact ⟨x, by rw [Function.update_self, ← hzy, hz]⟩
      · have hzx : z ≠ x := fun heq => by
          rw [heq, hx] at hz
          cases hz
        exact ⟨z, by rw [Function.update_of_ne hzx, Function.update_of_ne hzy, hz]⟩
    · rintro ⟨z, hz⟩
      exact ⟨_, howner z c hz⟩

end Exclusive

end Fell
