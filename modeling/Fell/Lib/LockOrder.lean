import Fell.Lib.Transition
import Mathlib.Data.Fintype.EquivFin
import Mathlib.Data.Finset.Max
import Mathlib.Algebra.Order.BigOperators.Group.Finset

/-!
# Locks taken in order

Threads that take and give back locks: a thread is the list of what it still
does with locks, and the locks it holds. A lock is taken alone, or shared with
others that take it shared.

The locks have ranks. A list of operations is *orderly* if it takes a lock only
while all the locks held have smaller ranks, gives back only what is held, and
ends with nothing held (`Orderly`). Scoped locks are orderly if what they guard
is, and is of greater rank (`orderly_locked`).

`exists_unblocked`: if the threads are finitely many and all orderly, then in
every state reached in which not all are done, some thread is not blocked: it
gives a lock back, or takes one that nobody holds. So there is no deadlock,
whichever way a lock chooses between its readers and its writers.
-/

namespace Fell

/-- How a lock is taken. -/
inductive LockMode
  | shared
  | exclusive
  deriving DecidableEq

/-- What a thread does with a lock. -/
inductive LockOp (L : Type*)
  | acquire (l : L) (mode : LockMode)
  | release (l : L)

/-- A thread: the locks it holds, the last taken first, and what it still does. -/
structure LockThread (L : Type*) where
  held : List (L × LockMode)
  rest : List (LockOp L)

namespace LockThread

variable {ι L : Type*} [DecidableEq ι] [DecidableEq L]

/-- Nothing that is held stands in the way of the thread `i` taking `l`. -/
def Grants (s : ι → LockThread L) (i : ι) (l : L) (mode : LockMode) : Prop :=
  ∀ j mode', (l, mode') ∈ (s j).held → j ≠ i ∧ mode = .shared ∧ mode' = .shared

/-- A step of the thread `i`. -/
inductive Step (s : ι → LockThread L) : ι → (ι → LockThread L) → Prop
  | acquire {i l mode rest} (hrest : (s i).rest = .acquire l mode :: rest)
      (h : Grants s i l mode) :
      Step s i (Function.update s i ⟨(l, mode) :: (s i).held, rest⟩)
  | release {i l rest} (hrest : (s i).rest = .release l :: rest) :
      Step s i (Function.update s i ⟨(s i).held.filter fun h => h.1 ≠ l, rest⟩)

/-- Nobody holds the lock. -/
def Free (s : ι → LockThread L) (l : L) : Prop := ∀ j mode, (l, mode) ∉ (s j).held

/-- The thread gives a lock back next, or takes one that nobody holds. -/
def Unblocked (s : ι → LockThread L) (i : ι) : Prop :=
  match (s i).rest with
  | [] => False
  | .acquire l _ :: _ => Free s l
  | .release _ :: _ => True

theorem Unblocked.exists_step {s : ι → LockThread L} {i : ι} (h : Unblocked s i) :
    ∃ s', Step s i s' := by
  unfold Unblocked at h
  split at h
  · exact h.elim
  · rename_i l mode rest hrest
    exact ⟨_, .acquire hrest fun j mode' hmem => absurd hmem (h j mode')⟩
  · rename_i l rest hrest
    exact ⟨_, .release hrest⟩

end LockThread

/-! ## Orderly lists of operations -/

section

variable {L : Type*} {ops ops' body : List (LockOp L)} {l : L} {mode : LockMode}

/-- The locks taken. -/
def acquired (ops : List (LockOp L)) : List L :=
  ops.filterMap fun
    | .acquire l _ => some l
    | .release _ => none

/-- A scoped lock. -/
def locked (l : L) (mode : LockMode) (body : List (LockOp L)) : List (LockOp L) :=
  .acquire l mode :: (body ++ [.release l])

@[simp] theorem acquired_nil : acquired ([] : List (LockOp L)) = [] := rfl

@[simp] theorem acquired_append : acquired (ops ++ ops') = acquired ops ++ acquired ops' :=
  List.filterMap_append

@[simp] theorem acquired_locked : acquired (locked l mode body) = l :: acquired body := by
  simp [acquired, locked]

variable [DecidableEq L] (rank : L → ℕ)

/-- The locks held after the operations, if they are in order. -/
def runLocks : List L → List (LockOp L) → Option (List L)
  | held, [] => some held
  | held, .acquire l _ :: ops =>
    if ∀ l' ∈ held, rank l' < rank l then runLocks (l :: held) ops else none
  | held, .release l :: ops =>
    if l ∈ held then runLocks (held.filter (· ≠ l)) ops else none

/-- The operations are in order, from no lock held to no lock held. -/
def Orderly (ops : List (LockOp L)) : Prop := runLocks rank [] ops = some []

variable {rank} {held held' ctx : List L}

theorem runLocks_append :
    runLocks rank held (ops ++ ops') = (runLocks rank held ops).bind (runLocks rank · ops') := by
  fun_induction runLocks rank held ops with
  | case1 held => rfl
  | case2 held l mode ops h ih => rw [List.cons_append, runLocks, if_pos h, ih]
  | case3 held l mode ops h => rw [List.cons_append, runLocks, if_neg h, Option.bind_none]
  | case4 held l ops h ih => rw [List.cons_append, runLocks, if_pos h, ih]
  | case5 held l ops h => rw [List.cons_append, runLocks, if_neg h, Option.bind_none]

/-- What is done with greater locks can be done while smaller ones are held. -/
theorem runLocks_frame (h : runLocks rank held ops = some held')
    (hlt : ∀ l ∈ held ++ acquired ops, ∀ l' ∈ ctx, rank l' < rank l) :
    runLocks rank (held ++ ctx) ops = some (held' ++ ctx) := by
  fun_induction runLocks rank held ops with
  | case1 held => rw [Option.some.inj h, runLocks]
  | case2 held l mode ops hord ih =>
    have hl : ∀ l' ∈ held ++ ctx, rank l' < rank l := by
      intro l' hmem
      rcases List.mem_append.1 hmem with hmem | hmem
      · exact hord l' hmem
      · exact hlt l (List.mem_append_right _ List.mem_cons_self) l' hmem
    rw [runLocks, if_pos hl]
    refine ih h fun l₁ hmem => hlt l₁ ?_
    simp only [acquired, List.filterMap_cons, List.cons_append, List.mem_cons,
      List.mem_append] at hmem ⊢
    tauto
  | case3 held l mode ops hord => cases h
  | case4 held l ops hmem ih =>
    have hctx : ctx.filter (· ≠ l) = ctx := by
      refine List.filter_eq_self.2 fun l' hl' => decide_eq_true ?_
      rintro rfl
      exact lt_irrefl _ (hlt l' (List.mem_append_left _ hmem) l' hl')
    rw [runLocks, if_pos (List.mem_append_left _ hmem), List.filter_append, hctx]
    refine ih h fun l₁ hmem' => hlt l₁ ?_
    rcases List.mem_append.1 hmem' with hmem' | hmem'
    · exact List.mem_append_left _ (List.mem_of_mem_filter hmem')
    · exact List.mem_append_right _ hmem'
  | case5 held l ops hmem => cases h

theorem orderly_nil : Orderly rank [] := rfl

theorem Orderly.append (h : Orderly rank ops) (h' : Orderly rank ops') :
    Orderly rank (ops ++ ops') := by
  rw [Orderly, runLocks_append, h]
  exact h'

theorem Orderly.flatMap {α : Type*} {f : α → List (LockOp L)} (h : ∀ a, Orderly rank (f a))
    (as : List α) : Orderly rank (as.flatMap f) := by
  induction as with
  | nil => exact orderly_nil
  | cons a as ih =>
    rw [List.flatMap_cons]
    exact (h a).append ih

/-- A scoped lock, around what is of greater rank. -/
theorem orderly_locked (h : Orderly rank body) (hlt : ∀ l' ∈ acquired body, rank l < rank l') :
    Orderly rank (locked l mode body) := by
  have hbody : runLocks rank [l] body = some [l] :=
    runLocks_frame h fun l₁ hmem l' hl' => List.mem_singleton.1 hl' ▸ hlt l₁ hmem
  rw [Orderly, locked, runLocks, if_pos (by simp), runLocks_append, hbody, Option.bind_some]
  simp [runLocks]

end

/-! ## No deadlock -/

namespace LockThread

variable {ι L : Type*} [DecidableEq L] {rank : L → ℕ} {s s' s₀ : ι → LockThread L} {i : ι}
  {is : List ι}

/-- What the threads still do is in order, and gives back what they hold. -/
def AllOrderly (rank : L → ℕ) (s : ι → LockThread L) : Prop :=
  ∀ i, runLocks rank ((s i).held.map Prod.fst) (s i).rest = some []

/-- The rank of the lock the thread takes next. -/
def nextRank (rank : L → ℕ) (t : LockThread L) : ℕ :=
  match t.rest with
  | .acquire l _ :: _ => rank l
  | _ => 0

/-- A thread that is blocked waits for one that takes a greater lock next, or is not
    blocked. -/
theorem AllOrderly.exists_nextRank_lt (h : AllOrderly rank s) (hi : (s i).rest ≠ [])
    (hblocked : ¬Unblocked s i) :
    ∃ j, (s j).rest ≠ [] ∧ (Unblocked s j ∨ nextRank rank (s i) < nextRank rank (s j)) := by
  unfold Unblocked at hblocked
  split at hblocked
  · exact absurd ‹_› hi
  · rename_i l mode rest hrest
    simp only [Free, not_forall, not_not] at hblocked
    obtain ⟨j, mode', hheld⟩ := hblocked
    have hmem : l ∈ (s j).held.map Prod.fst := List.mem_map_of_mem hheld
    have hj := h j
    have hne : (s j).rest ≠ [] := by
      intro hnil
      rw [hnil, runLocks] at hj
      rw [Option.some.inj hj] at hmem
      exact absurd hmem List.not_mem_nil
    refine ⟨j, hne, ?_⟩
    obtain ⟨op, ops, hjrest⟩ := List.exists_cons_of_ne_nil hne
    cases op with
    | acquire l' mode' =>
      rw [hjrest, runLocks] at hj
      right
      simp only [nextRank, hrest, hjrest]
      exact (Option.ite_none_right_eq_some.1 hj).1 l hmem
    | release l' =>
      left
      simp [Unblocked, hjrest]
  · exact absurd trivial hblocked

/-- While not all the threads are done, some thread is not blocked. -/
theorem exists_unblocked [Finite ι] (h : AllOrderly rank s) (hi : (s i).rest ≠ []) :
    ∃ j, Unblocked s j := by
  classical
  cases nonempty_fintype ι
  by_contra hnone
  simp only [not_exists] at hnone
  -- Among the threads that are not done, one waits for a lock of the greatest rank.
  obtain ⟨j, hj, hmax⟩ := Finset.exists_max_image
    (Finset.univ.filter fun j => (s j).rest ≠ []) (fun j => nextRank rank (s j))
    ⟨i, by simpa using hi⟩
  obtain ⟨k, hk, hun | hlt⟩ := h.exists_nextRank_lt (by simpa using hj) (hnone j)
  · exact hnone k hun
  · exact absurd (hmax k (by simpa using hk)) (not_le.2 hlt)

variable [DecidableEq ι]

theorem Step.allOrderly (h : AllOrderly rank s) (hst : Step s i s') : AllOrderly rank s' := by
  intro j
  have hj := h j
  cases hst with
  | @acquire l mode rest hrest hgrant =>
    by_cases hji : j = i
    · subst hji
      rw [hrest, runLocks] at hj
      rw [Function.update_self]
      exact (Option.ite_none_right_eq_some.1 hj).2
    · rwa [Function.update_of_ne hji]
  | @release l rest hrest =>
    by_cases hji : j = i
    · subst hji
      rw [hrest, runLocks] at hj
      rw [Function.update_self, ← (Option.ite_none_right_eq_some.1 hj).2, List.filter_map]
      rfl
    · rwa [Function.update_of_ne hji]

theorem Run.allOrderly (hrun : Run Step s₀ is s) (h : AllOrderly rank s₀) : AllOrderly rank s :=
  hrun.invariant (I := fun _ s => AllOrderly rank s) h fun _ ih hst => hst.allOrderly ih

theorem Step.exists_rest_eq_cons (hst : Step s i s') :
    ∃ op, (s i).rest = op :: (s' i).rest ∧ ∀ j ≠ i, s' j = s j := by
  cases hst with
  | acquire hrest _ | release hrest =>
    refine ⟨_, by rw [hrest, Function.update_self], fun j hj => Function.update_of_ne hj ..⟩

/-- From every state, all the threads can come to their end. -/
theorem AllOrderly.exists_run_done [Finite ι] (h : AllOrderly rank s) :
    ∃ is s', Run Step s is s' ∧ ∀ i, (s' i).rest = [] ∧ (s' i).held = [] := by
  classical
  cases nonempty_fintype ι
  -- By induction on the number of operations that are left.
  induction hn : ∑ i, (s i).rest.length generalizing s with
  | zero =>
    refine ⟨[], s, .nil, fun i => ?_⟩
    have hrest : (s i).rest = [] := by
      simpa using (Finset.sum_eq_zero_iff.1 hn) i (Finset.mem_univ i)
    have hi := h i
    rw [hrest, runLocks] at hi
    exact ⟨hrest, List.map_eq_nil_iff.1 (Option.some.inj hi)⟩
  | succ n ih =>
    obtain ⟨i, hi⟩ : ∃ i, (s i).rest ≠ [] := by
      by_contra hall
      simp only [not_exists, not_not] at hall
      simp [hall] at hn
    obtain ⟨j, hj⟩ := exists_unblocked h hi
    obtain ⟨s₁, hst⟩ := hj.exists_step
    obtain ⟨op, hop, hother⟩ := hst.exists_rest_eq_cons
    have hsum : ∑ i, (s₁ i).rest.length = n := by
      rw [← Finset.add_sum_erase _ _ (Finset.mem_univ j)] at hn ⊢
      rw [hop, List.length_cons] at hn
      rw [Finset.sum_congr rfl fun k hk => by rw [hother k (Finset.ne_of_mem_erase hk)]]
      omega
    obtain ⟨is, s', hr, hdone⟩ := ih (hst.allOrderly h) hsum
    exact ⟨j :: is, s', .cons hst hr, hdone⟩

end LockThread

end Fell
