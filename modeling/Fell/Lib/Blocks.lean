import Mathlib.Data.List.Chain
import Mathlib.Algebra.Order.Group.Nat

/-!
# Blocks that follow one another

A sequence cut into blocks: each block has a start position and a content, and
each starts where the one before it ends (`Adjacent`). Every position between
the first start and the last end lies in a block, which the starts alone tell
(`Adjacent.exists_block`): it is the last of those that do not start behind it.
What a block has from a position on is a front of what all of them have
(`Adjacent.drop_isPrefix`).
-/

namespace Fell

variable {α β : Type*} {start : α → ℕ} {content : α → List β}

/-- Every block starts where the one before it ends. -/
def Adjacent (start : α → ℕ) (content : α → List β) (l : List α) : Prop :=
  l.IsChain fun x y => start y = start x + (content x).length

theorem adjacent_singleton (a : α) : Adjacent start content [a] := List.isChain_singleton a

theorem adjacent_cons_cons {a b : α} {l : List α} :
    Adjacent start content (a :: b :: l) ↔
      start b = start a + (content a).length ∧ Adjacent start content (b :: l) :=
  List.isChain_cons_cons

/-- A block can be added where the last one ends. -/
theorem Adjacent.snoc {l : List α} {a b : α} (h : Adjacent start content (l ++ [a]))
    (hb : start b = start a + (content a).length) : Adjacent start content (l ++ [a] ++ [b]) :=
  List.IsChain.append h (adjacent_singleton b) fun x hx y hy => by
    rw [List.getLast?_append, List.getLast?_singleton, Option.some_or, Option.mem_some_iff] at hx
    rw [List.head?_cons, Option.mem_some_iff] at hy
    rw [← hx, ← hy, hb]

theorem Adjacent.start_eq {l : List α} {a b : α} (h : Adjacent start content (l ++ [a] ++ [b])) :
    start b = start a + (content a).length := by
  rw [List.append_assoc] at h
  exact (List.isChain_append_cons_cons.1 h).2.1

/-- The blocks end where the content of all of them ends. -/
theorem Adjacent.end_eq {a b : α} {l : List α} (h : Adjacent start content (a :: l))
    (hb : (a :: l).getLast? = some b) :
    start b + (content b).length = start a + ((a :: l).flatMap content).length := by
  induction l generalizing a with
  | nil =>
    rw [List.getLast?_singleton, Option.some.injEq] at hb
    rw [List.flatMap_singleton, hb]
  | cons c l ih =>
    obtain ⟨hc, hrest⟩ := adjacent_cons_cons.1 h
    rw [List.getLast?_cons_cons] at hb
    rw [ih hrest hb, hc, Nat.add_assoc, ← List.length_append]
    rfl

/-- The content of the last block does not matter. -/
theorem Adjacent.congr {content' : α → List β} {l : List α} {a : α}
    (h : Adjacent start content (l ++ [a])) (heq : ∀ x ∈ l, content' x = content x) :
    Adjacent start content' (l ++ [a]) := by
  induction l with
  | nil => exact adjacent_singleton a
  | cons b l ih =>
    have hb := heq b (List.mem_cons_self ..)
    have ih := fun h => ih h fun x hx => heq x (List.mem_cons_of_mem _ hx)
    cases l with
    | nil =>
      obtain ⟨hstart, hrest⟩ := adjacent_cons_cons.1 h
      exact adjacent_cons_cons.2 ⟨by rw [hb, hstart], ih hrest⟩
    | cons c l =>
      obtain ⟨hstart, hrest⟩ := adjacent_cons_cons.1 h
      exact adjacent_cons_cons.2 ⟨by rw [hb, hstart], ih hrest⟩

theorem Adjacent.le_start {a : α} {l : List α} (h : Adjacent start content (a :: l)) :
    ∀ x ∈ l, start a + (content a).length ≤ start x := by
  induction l generalizing a with
  | nil => simp
  | cons b l ih =>
    obtain ⟨hb, hrest⟩ := adjacent_cons_cons.1 h
    intro x hx
    rcases List.mem_cons.1 hx with rfl | hx
    · exact hb.ge
    · have := ih hrest x hx
      omega

/-- A position inside the blocks lies in one of them: those before it start no
    later than the position, and those after it start behind the position. -/
theorem Adjacent.exists_block {a : α} {l : List α} (h : Adjacent start content (a :: l)) {o : ℕ}
    (hlo : start a ≤ o) (hhi : o < start a + ((a :: l).flatMap content).length) :
    ∃ pre x post, a :: l = pre ++ x :: post ∧ start x ≤ o ∧ o < start x + (content x).length ∧
      ((a :: l).flatMap content)[o - start a]? = (content x)[o - start x]? ∧
      (∀ y ∈ pre, start y ≤ o) ∧ ∀ y ∈ post, o < start y := by
  induction l generalizing a with
  | nil =>
    rw [List.flatMap_singleton] at hhi
    exact ⟨[], a, [], rfl, hlo, hhi, by rw [List.flatMap_singleton], by simp, by simp⟩
  | cons b l ih =>
    obtain ⟨hb, hrest⟩ := adjacent_cons_cons.1 h
    rw [List.flatMap_cons] at hhi ⊢
    rcases Nat.lt_or_ge o (start a + (content a).length) with hlt | hge
    · refine ⟨[], a, b :: l, rfl, hlo, hlt, List.getElem?_append_left (by omega), by simp, ?_⟩
      exact fun y hy => hlt.trans_le (h.le_start y hy)
    · rw [List.length_append] at hhi
      obtain ⟨pre, x, post, hl, hx, hx', hget, hpre, hpost⟩ := ih hrest (by omega) (by omega)
      refine ⟨a :: pre, x, post, by rw [hl, List.cons_append], hx, hx', ?_, ?_, hpost⟩
      · rw [List.getElem?_append_right (by omega), ← hget, hb]
        congr 1
        omega
      · exact List.forall_mem_cons.2 ⟨hlo, hpre⟩

/-- A block starts behind the content of those before it. -/
theorem Adjacent.start_eq_add {a x : α} {l pre post : List α}
    (h : Adjacent start content (a :: l)) (hl : a :: l = pre ++ x :: post) :
    start x = start a + (pre.flatMap content).length := by
  induction pre generalizing a l with
  | nil =>
    rw [List.nil_append, List.cons.injEq] at hl
    rw [List.flatMap_nil, List.length_nil, Nat.add_zero, hl.1]
  | cons b pre ih =>
    rw [List.cons_append, List.cons.injEq] at hl
    obtain ⟨rfl, rfl⟩ := hl
    obtain ⟨c, l, hc⟩ : ∃ c l, pre ++ x :: post = c :: l :=
      List.exists_cons_of_ne_nil (List.append_ne_nil_of_right_ne_nil _ (List.cons_ne_nil _ _))
    rw [hc] at h
    obtain ⟨hstart, hrest⟩ := adjacent_cons_cons.1 h
    rw [ih hrest hc.symm, hstart, List.flatMap_cons, List.length_append, Nat.add_assoc]

/-- What a block has from a position on is what all of them have from there on, as far as the block
    goes. -/
theorem Adjacent.drop_isPrefix {a x : α} {l : List α} (h : Adjacent start content (a :: l))
    (hx : x ∈ a :: l) {o : ℕ} (ho : start x ≤ o) :
    (content x).drop (o - start x) <+: ((a :: l).flatMap content).drop (o - start a) := by
  obtain ⟨pre, post, hl⟩ := List.append_of_mem hx
  have hstart := h.start_eq_add hl
  rcases Nat.le_total (content x).length (o - start x) with hle | hge
  · rw [List.drop_of_length_le hle]
    exact List.nil_prefix
  · rw [hl, List.flatMap_append, List.flatMap_cons,
      show o - start a = (pre.flatMap content).length + (o - start x) by omega,
      List.drop_length_add_append, List.drop_append_of_le_length hge]
    exact List.prefix_append _ _

end Fell
