import Fell.Lib.Transition
import Mathlib.Data.List.Infix

/-!
# A log, as its users know it

Records are added at the end of the log. Those of a front part can be read, and this part grows. A
reader gets what comes from a position on, but need not get all that could be read.

* `Run.isPrefix`: the log only grows;
* `Run.trueOf`: so whatever the order of the steps, all that was ever told about the log is true of
  the log at the end: a record is at the position it was added at, and what was read at a position
  comes there.
-/

namespace Fell

/-- A log with a part that can be read. -/
@[ext] structure AppendLog (α : Type*) where
  log : List α
  readable : ℕ
  readable_le : readable ≤ log.length

namespace AppendLog

variable {α : Type*}

/-- What happens to a log. -/
inductive Event (α : Type*)
  | appended (i : ℕ) (a : α)
  | extended
  | read (i n : ℕ) (as : List α)

/-- A step of a log. -/
inductive Step (s : AppendLog α) : Event α → AppendLog α → Prop
  | append {s' : AppendLog α} (a : α) (hlog : s'.log = s.log ++ [a])
      (hread : s'.readable = s.readable) : Step s (.appended s.log.length a) s'
  | extend {s' : AppendLog α} (hlog : s'.log = s.log) (hread : s.readable ≤ s'.readable) :
      Step s .extended s'
  | read {i n : ℕ} {as : List α} (hlen : as.length ≤ n)
      (has : as <+: (s.log.take s.readable).drop i) : Step s (.read i n as) s

variable {s s' s₀ : AppendLog α} {e : Event α} {es : List (Event α)}

theorem Step.isPrefix (hst : Step s e s') : s.log <+: s'.log := by
  cases hst with
  | append a hlog hread => exact hlog ▸ List.prefix_append _ _
  | extend hlog hread => exact hlog ▸ List.prefix_rfl
  | read hlen has => exact List.prefix_rfl

/-- The log only grows. -/
theorem Run.isPrefix (hr : Run Step s₀ es s) : s₀.log <+: s.log :=
  hr.invariant (I := fun _ s => s₀.log <+: s.log) List.prefix_rfl
    fun _ ih hst => ih.trans hst.isPrefix

/-- What was told in a step is true of a log. -/
def Event.TrueOf (log : List α) : Event α → Prop
  | .appended i a => log[i]? = some a
  | .extended => True
  | .read i n as => as.length ≤ n ∧ as <+: log.drop i

theorem Step.trueOf (hst : Step s e s') {log : List α} (hlog : s'.log <+: log) : e.TrueOf log := by
  cases hst with
  | append a happ hread =>
    obtain ⟨more, rfl⟩ := hlog
    rw [Event.TrueOf, happ, List.append_assoc, List.getElem?_append_right (Nat.le_refl _),
      Nat.sub_self]
    rfl
  | extend => trivial
  | @read i n as hlen has => exact ⟨hlen, has.trans (((List.take_prefix _ _).trans hlog).drop i)⟩

/-- All that was told is true of the log at the end. -/
theorem Run.trueOf (hr : Run Step s₀ es s) (he : e ∈ es) : e.TrueOf s.log := by
  obtain ⟨es₁, t, t', es₂, rfl, -, hst, hafter⟩ := hr.exists_step he
  exact hst.trueOf (Run.isPrefix hafter)

end AppendLog

end Fell
