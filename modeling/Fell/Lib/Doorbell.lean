import Mathlib.Order.Basic

/-!
# A queue with a bell

Threads put something in a queue, and then ring a bell. The owner of the queue looks into it only
when the bell has been rung: it hears the bell, and then empties the queue. What the bell is made of
is not part of it, nor is the queue: how many rings are left after one more, and after the owner has
heard them, is for its users to say.

`Attentive` says that nothing is forgotten in the queue. Every operation keeps it, if a ring can be
heard (`attentive_ring`). It matters that the owner hears first and looks then. If it looked first,
a ring for what came in between would be heard and forgotten.
-/

namespace Fell

/-- A bell, and where those are who use it. -/
structure Doorbell where
  /-- How many rings are still to be made, for what is in the queue. -/
  due : ℕ := 0
  /-- How many rings were made and not heard. -/
  rung : ℕ := 0
  /-- The owner has heard the bell, and is about to look into the queue. -/
  answering : Bool := false

namespace Doorbell

variable (b : Doorbell)

/-- So many things are put in the queue. -/
def put (k : ℕ) : Doorbell := { b with due := b.due + k }

/-- The bell is rung. -/
def ring (after : ℕ → ℕ) : Doorbell := { b with due := b.due - 1, rung := after b.rung }

/-- The owner hears the bell. -/
def hear (after : ℕ → ℕ) : Doorbell := { b with rung := after b.rung, answering := true }

/-- The owner empties the queue. -/
def take : Doorbell := { b with answering := false }

/-- If there is something in the queue, the owner is about to look, or will hear of it. -/
def Attentive (queued : Prop) : Prop := queued → b.answering = true ∨ 0 < b.due ∨ 0 < b.rung

/-- The bell was never heard. -/
structure Silent : Prop where
  rung : b.rung = 0
  answering : b.answering = false

variable {b} {queued queued' : Prop} {after : ℕ → ℕ}

theorem Attentive.put {k : ℕ} (h : b.Attentive queued) (hq : queued' → queued ∨ 0 < k) :
    (b.put k).Attentive queued' := by
  intro hqueued
  rcases hq hqueued with hq | hk
  · rcases h hq with ha | hdue | hrung
    · exact .inl ha
    · exact .inr (.inl (Nat.add_pos_left hdue k))
    · exact .inr (.inr hrung)
  · exact .inr (.inl (Nat.add_pos_right b.due hk))

theorem attentive_ring (hafter : 0 < after b.rung) : (b.ring after).Attentive queued :=
  fun _ => .inr (.inr hafter)

theorem attentive_hear : (b.hear after).Attentive queued := fun _ => .inl rfl

theorem attentive_take (hq : ¬queued) : b.take.Attentive queued := fun hqueued => absurd hqueued hq

theorem Silent.put (h : b.Silent) (k : ℕ) : (b.put k).Silent := ⟨h.rung, h.answering⟩

/-- A bell that makes no sound. -/
theorem Silent.ring (h : b.Silent) (hafter : after 0 = 0) : (b.ring after).Silent :=
  ⟨(congrArg after h.rung).trans hafter, h.answering⟩

end Doorbell

end Fell
