import Mathlib.Data.List.Nodup
import Mathlib.Data.Nat.ModEq

/-!
# Counters that wrap around

A counter modulo `M` that is reduced modulo `n`, as for taking turns: the counter is `c`, `c + 1`
and so on, and starts again at `0` after `M - 1`. There the turn starts again as well, and it need
not be the turn of `0`.

* `nodup_turns_iff`: in `n` turns, all `n` have their turn if the counter does not wrap around, or
  if `n` divides `M`; otherwise one of them has two turns.
-/

namespace Fell

/-- The first `k` turns of `n`, by a counter modulo `M` that is at `c`. -/
def turns (M n c k : ℕ) : List ℕ := (List.range k).map fun i => (c + i) % M % n

theorem turns_succ (M n c k : ℕ) : turns M n c (k + 1) = turns M n c k ++ [(c + k) % M % n] := by
  rw [turns, List.range_succ, List.map_append, turns, List.map_singleton]

theorem nodup_turns {M n c k : ℕ} :
    (turns M n c k).Nodup ↔ ∀ i < k, ∀ j < k, (c + i) % M % n = (c + j) % M % n → i = j := by
  rw [turns, List.nodup_map_iff_inj_on List.nodup_range]
  simp only [List.mem_range]

theorem eq_of_add_mod_eq {n c i j : ℕ} (hi : i < n) (hj : j < n)
    (h : (c + i) % n = (c + j) % n) : i = j :=
  Nat.ModEq.eq_of_lt_of_lt (Nat.ModEq.add_left_cancel' c h) hi hj

/-- One has its turn on both sides of the wrap. -/
theorem exists_turns_eq {M n c : ℕ} (hc : c < M) (hwrap : M < c + n) (hdvd : ¬n ∣ M) :
    ∃ i < n, ∃ j < n, i ≠ j ∧ (c + i) % M % n = (c + j) % M % n := by
  have hr : 0 < M % n := Nat.pos_of_ne_zero fun h => hdvd (Nat.dvd_of_mod_eq_zero h)
  have hlt : M % n < n := Nat.mod_lt _ (by omega)
  have hM : n * (M / n) + M % n = M := Nat.div_add_mod M n
  generalize M % n = r at hr hlt hM
  generalize M / n = q at hM
  -- The last turns before the wrap end with `r - 1`, and those after it begin with `0`: `s` is in
  -- both of them.
  obtain ⟨s, hsr, hsn, hrs⟩ : ∃ s, s < r ∧ M - c + s < n ∧ r ≤ M - c + s :=
    ⟨r - (M - c), by omega, by omega, by omega⟩
  refine ⟨M - c + s - r, by omega, M - c + s, hsn, by omega, ?_⟩
  have hbefore : c + (M - c + s - r) = n * q + s := by omega
  have hafter : c + (M - c + s) = s + M := by omega
  rw [hbefore, hafter, Nat.mod_eq_of_lt (show n * q + s < M by omega), Nat.mul_add_mod,
    Nat.add_mod_right, Nat.mod_eq_of_lt (show s < M by omega)]

theorem nodup_turns_iff {M c : ℕ} (n : ℕ) (hc : c < M) :
    (turns M n c n).Nodup ↔ c + n ≤ M ∨ n ∣ M := by
  rw [nodup_turns]
  constructor
  · intro hinj
    by_contra hnot
    push Not at hnot
    obtain ⟨i, hi, j, hj, hne, heq⟩ := exists_turns_eq hc hnot.1 hnot.2
    exact hne (hinj i hi j hj heq)
  · rintro (hle | hdvd) i hi j hj heq
    · rw [Nat.mod_eq_of_lt (show c + i < M by omega),
        Nat.mod_eq_of_lt (show c + j < M by omega)] at heq
      exact eq_of_add_mod_eq hi hj heq
    · rw [Nat.mod_mod_of_dvd _ hdvd, Nat.mod_mod_of_dvd _ hdvd] at heq
      exact eq_of_add_mod_eq hi hj heq

end Fell
