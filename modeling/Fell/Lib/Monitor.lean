import Mathlib.Data.List.Basic

/-!
# Waiting on a condition

A thread that waits on a condition variable until a condition holds, as
`cv.wait(lock, condition)` does: it tests the condition with the mutex held, and
as long as it does not hold goes to sleep, which gives the mutex back, until it
is notified; then it takes the mutex again, and tests again. A notification
wakes the thread if it is asleep, and is otherwise lost.

The other threads change the condition and notify. A `Monitor` has the place of
the waiter, and the number of notifications that are `due`: changes have been
made for which nobody has been notified yet. What the condition is about is not
part of it.

`Attentive` says that no notification was lost: if the waiter is asleep, or about
to go to sleep, and the condition holds, then a notification is due. Every
operation keeps it, but for a notification that comes when the waiter has found
that the condition does not hold, and is not yet asleep. If the condition is
changed only with the mutex held, it does not hold then (`Attentive.notify`).
-/

namespace Fell

/-- Where a thread that waits on a condition is. -/
inductive Waiter
  /-- Not waiting. -/
  | outside
  /-- The mutex is held, and the condition is to be tested. -/
  | entered
  /-- The mutex is held, and the condition was found not to hold. -/
  | tested
  /-- Asleep, without the mutex. -/
  | asleep
  /-- Awake again, and waiting for the mutex. -/
  | woken
  /-- The mutex is held, and the condition was found to hold. -/
  | inside
  deriving DecidableEq

/-- The waiter holds the mutex. -/
def Waiter.Holds : Waiter → Prop
  | .entered | .tested | .inside => True
  | .outside | .asleep | .woken => False

instance : DecidablePred Waiter.Holds
  | .entered | .tested | .inside => inferInstanceAs (Decidable True)
  | .outside | .asleep | .woken => inferInstanceAs (Decidable False)

/-- Where a step of the threads is made, with respect to the mutex. -/
inductive Place
  /-- By another thread, with the mutex, which notifies when it has given the mutex back. -/
  | notifier
  /-- By another thread, with the mutex, which notifies before it gives the mutex back. -/
  | signaller
  /-- By another thread, with the mutex. -/
  | locked
  /-- Without the mutex, by any thread. -/
  | anywhere
  /-- By the waiter, with the mutex. -/
  | inside
  /-- By the waiter, on giving the mutex back. -/
  | leaving
  /-- By the waiter, when it is not waiting. -/
  | outside

/-- A step can be made there while the waiter is where it is. -/
def Place.Allows : Place → Waiter → Prop
  | .notifier, w | .signaller, w | .locked, w => ¬w.Holds
  | .anywhere, _ => True
  | .inside, w | .leaving, w => w = .inside
  | .outside, w => w = .outside

/-- The waiter, and the number of notifications that are due. -/
structure Monitor where
  waiter : Waiter := .outside
  due : ℕ := 0
  deriving DecidableEq

namespace Monitor

variable (m : Monitor)

/-- The waiter moves. -/
def goto (w : Waiter) : Monitor := { m with waiter := w }

/-- The waiter tests the condition. -/
def test (ready : Prop) [Decidable ready] : Monitor :=
  if ready then m.goto .inside else m.goto .tested

/-- A change is made, and a notification is due for it. -/
def owe : Monitor := { m with due := m.due + 1 }

/-- A notification that is due is made. -/
def notify : Monitor where
  waiter := if m.waiter = .asleep then .woken else m.waiter
  due := m.due - 1

/-- What a step made there does. -/
def after : Place → Monitor
  | .notifier => m.owe
  | .signaller => m.owe.notify
  | .leaving => m.goto .outside
  | .locked | .anywhere | .inside | .outside => m

/-- A waiter that sleeps, or is about to, although the condition holds is owed a
    notification. -/
def Attentive (ready : Prop) : Prop :=
  m.waiter = .tested ∨ m.waiter = .asleep → ready → 0 < m.due

variable {m} {ready ready' : Prop}

theorem attentive_of_ne (ht : m.waiter ≠ .tested) (ha : m.waiter ≠ .asleep) : m.Attentive ready :=
  fun h => (h.elim ht ha).elim

theorem attentive_test [Decidable ready] : (m.test ready).Attentive ready := by
  rw [test]
  split
  · exact attentive_of_ne (by simp [goto]) (by simp [goto])
  · exact fun _ hready => absurd hready ‹_›

theorem attentive_owe : m.owe.Attentive ready := fun _ _ => Nat.succ_pos _

theorem Attentive.mono (h : m.Attentive ready) (himp : ready' → ready) : m.Attentive ready' :=
  fun hw hready => h hw (himp hready)

theorem Attentive.sleep (h : m.Attentive ready) (ht : m.waiter = .tested) :
    (m.goto .asleep).Attentive ready :=
  fun _ => h (.inl ht)

/-- A notification is not lost, unless it comes between the test and the sleep. -/
theorem Attentive.notify (ht : m.waiter = .tested → ¬ready) :
    m.notify.Attentive ready := by
  rintro (hw | hw) hready
  · refine absurd hready (ht ?_)
    by_contra hne
    simp only [Monitor.notify] at hw
    split at hw
    · cases hw
    · exact hne hw
  · simp only [Monitor.notify] at hw
    split at hw
    · cases hw
    · exact absurd hw ‹_›

theorem Attentive.of_due_eq_zero (h : m.Attentive ready) (ha : m.waiter = .asleep)
    (hdue : m.due = 0) : ¬ready :=
  fun hready => absurd (h (.inr ha) hready) (by omega)

end Monitor

end Fell
