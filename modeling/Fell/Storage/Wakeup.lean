import Fell.Lib.Monitor
import Fell.Storage.Log

/-!
# Waking the I/O thread

The I/O thread waits in `take_batch` for something to write. Producers queue
their commands, and the destructor sets `shutdown_`, with `queue_mu_` held, and
notify the I/O thread when they have given it back. In between, the I/O thread
may go to sleep, or wake and take what was queued.

The store is that of `Fell.Storage.PartitionStore`, with the place of the I/O
thread in its wait (`Waking`). A step of the store happens where the lock allows
it (`Place`), and the runs here are runs of the store (`Run.store`). There, the
I/O thread takes a batch whenever there is one: that this is justified is what is
proved here. `never_overslept`: when all the notifications have been made, the
I/O thread sleeps only if everything accepted is written and the store is not
shut down; and if there is something to do it gets to it.

The second wait of `take_batch`, for more of a batch, is over when its time is up,
whether notified or not (`pause`, `resume`).
-/

namespace Fell.Storage

/-- A partition store, and its I/O thread at the condition variable. -/
structure Waking (κ : Type) where
  store : PartitionStore κ
  monitor : Monitor

/-- What the I/O thread waits for. -/
def PartitionStore.Ready {κ : Type} (s : PartitionStore κ) : Prop :=
  s.shutdown = true ∨ s.queue ≠ []

instance {κ : Type} (s : PartitionStore κ) : Decidable s.Ready :=
  inferInstanceAs (Decidable (_ ∨ _))

/-- Where a step is made, with respect to `queue_mu_`. -/
def PartitionStore.Event.place {κ : Type} : PartitionStore.Event κ → Place
  | .appended _ | .shutDown => .notifier
  | .refused _ => .locked
  | .registered .. | .fetched .. => .anywhere
  | .took _ => .inside
  | .gathered | .stopped => .leaving
  | .wrote .. | .notified .. | .ended => .outside

namespace Waking

open PartitionStore

variable {κ : Type}

/-- What happens in a step. -/
inductive Event (κ : Type)
  | stored (e : PartitionStore.Event κ)
  | entered
  | tested
  | slept
  | woke
  | notified
  | paused
  | resumed

/-- A step of the store, of the I/O thread in a wait, or of a thread that notifies it. -/
inductive Step (w : Waking κ) : Event κ → Waking κ → Prop
  | store {e s'} (hst : PartitionStore.Step w.store e s')
      (hplace : e.place.Allows w.monitor.waiter) :
      Step w (.stored e) ⟨s', w.monitor.after e.place⟩
  | enter (hio : w.store.io = .waiting)
      (hw : w.monitor.waiter = .outside ∨ w.monitor.waiter = .woken) :
      Step w .entered ⟨w.store, w.monitor.goto .entered⟩
  | test (hw : w.monitor.waiter = .entered) :
      Step w .tested ⟨w.store, w.monitor.test w.store.Ready⟩
  | sleep (hw : w.monitor.waiter = .tested) :
      Step w .slept ⟨w.store, w.monitor.goto .asleep⟩
  /-- A wait may end without a notification. -/
  | wake (hw : w.monitor.waiter = .asleep) :
      Step w .woke ⟨w.store, w.monitor.goto .woken⟩
  | notify (hdue : 0 < w.monitor.due) : Step w .notified ⟨w.store, w.monitor.notify⟩
  | pause {batch} (hio : w.store.io = .gathering batch) (hq : w.store.queue = [])
      (hw : w.monitor.waiter = .inside) :
      Step w .paused ⟨w.store, w.monitor.goto .outside⟩
  | resume {batch} (hio : w.store.io = .gathering batch) (hw : w.monitor.waiter = .outside) :
      Step w .resumed ⟨w.store, w.monitor.goto .inside⟩

variable {w w' w₀ : Waking κ} {e : Event κ} {es : List (Event κ)}

/-! ## The store -/

/-- The step of the store in a step. -/
def Event.ofStore : Event κ → List (PartitionStore.Event κ)
  | .stored e => [e]
  | _ => []

/-- What the store has done. -/
def storeEvents (es : List (Event κ)) : List (PartitionStore.Event κ) := es.flatMap Event.ofStore

theorem Step.store_run (hst : Step w e w') :
    Run PartitionStore.Step w.store e.ofStore w'.store := by
  cases hst with
  | store hst _ => exact .single hst
  | enter | test | sleep | wake | notify | pause | resume => exact .nil

/-- A run is a run of the store. -/
theorem Run.store (hr : Run Step w₀ es w) :
    Run PartitionStore.Step w₀.store (storeEvents es) w.store :=
  hr.project Waking.store Event.ofStore Step.store_run

/-- A step of the store away from the mutex does not change what the I/O thread waits for. -/
theorem ready_iff_of_place {s s' : PartitionStore κ} {e : PartitionStore.Event κ}
    (hst : PartitionStore.Step s e s') (h : e.place = .locked ∨ e.place = .anywhere) :
    s'.Ready ↔ s.Ready := by
  cases hst with
  | refuse payload now hrej => rw [append_of_rejected hrej]
  | register offset cb =>
    rw [setOnceCommitCallback_snd]
    rfl
  | fetch offset maxCount =>
    rw [fetch_snd]
    rfl
  | append | takeFirst | takeMore | takeDone | write | notify | endRound | shutDown | stop =>
    simp [PartitionStore.Event.place] at h

/-- The I/O thread stays where it is unless it moves itself. -/
theorem io_eq_of_place {s s' : PartitionStore κ} {e : PartitionStore.Event κ}
    (hst : PartitionStore.Step s e s')
    (h : e.place = .notifier ∨ e.place = .locked ∨ e.place = .anywhere) : s'.io = s.io := by
  cases hst with
  | append payload now hacc => rw [append_of_accepted hacc]; rfl
  | refuse payload now hrej => rw [append_of_rejected hrej]
  | register offset cb => rw [setOnceCommitCallback_snd]
  | fetch offset maxCount => rw [fetch_snd]
  | shutDown => rfl
  | takeFirst | takeMore | takeDone | write | notify | endRound | stop =>
    simp [PartitionStore.Event.place] at h

/-! ## No notification is lost -/

/-- Where the I/O thread is in its wait, and what it has missed. -/
structure Wakeful (w : Waking κ) : Prop where
  tested : w.monitor.waiter = .tested → ¬w.store.Ready
  attentive : w.monitor.Attentive w.store.Ready
  /-- The I/O thread waits for a batch, unless it is outside, or takes one. -/
  waiting : w.monitor.waiter ≠ .outside → w.monitor.waiter ≠ .inside → w.store.io = .waiting

/-- If the I/O thread is not at the condition variable, there is nothing to miss. -/
theorem wakeful_of (h : w.monitor.waiter = .outside ∨ w.monitor.waiter = .inside) :
    Wakeful w where
  tested ht := by simp [ht] at h
  attentive := by
    rcases h with h | h <;> exact Monitor.attentive_of_ne (by simp [h]) (by simp [h])
  waiting ho hi := (h.elim ho hi).elim

/-- The I/O thread waits for a batch, and is not about to sleep. -/
theorem wakeful_goto {x : Waiter} (ht : x ≠ .tested) (ha : x ≠ .asleep)
    (hio : w.store.io = .waiting) : Wakeful ⟨w.store, w.monitor.goto x⟩ where
  tested h := absurd h ht
  attentive := Monitor.attentive_of_ne ht ha
  waiting _ _ := hio

theorem Wakeful.store {s' : PartitionStore κ} {e : PartitionStore.Event κ} (h : Wakeful w)
    (hst : PartitionStore.Step w.store e s') (hplace : e.place.Allows w.monitor.waiter) :
    Wakeful ⟨s', w.monitor.after e.place⟩ := by
  have hio := io_eq_of_place hst
  have hready := ready_iff_of_place hst
  cases hp : e.place with
  | notifier =>
    rw [hp] at hplace
    -- Who has tested the condition holds the mutex.
    refine ⟨fun ht => ?_, Monitor.attentive_owe, fun ho hi => ?_⟩
    · have ht : w.monitor.waiter = .tested := ht
      rw [ht] at hplace
      exact absurd trivial hplace
    · rw [hio (.inl hp)]
      exact h.waiting ho hi
  | signaller => cases hst <;> simp [PartitionStore.Event.place] at hp
  | locked =>
    have hr := hready (.inl hp)
    exact ⟨fun ht => hr.not.2 (h.tested ht), h.attentive.mono hr.1,
      fun ho hi => (hio (.inr (.inl hp))).trans (h.waiting ho hi)⟩
  | anywhere =>
    have hr := hready (.inr hp)
    exact ⟨fun ht => hr.not.2 (h.tested ht), h.attentive.mono hr.1,
      fun ho hi => (hio (.inr (.inr hp))).trans (h.waiting ho hi)⟩
  | inside =>
    rw [hp] at hplace
    exact wakeful_of (.inr hplace)
  | leaving => exact wakeful_of (.inl rfl)
  | outside =>
    rw [hp] at hplace
    exact wakeful_of (.inl hplace)

theorem Step.wakeful (h : Wakeful w) (hst : Step w e w') : Wakeful w' := by
  cases hst with
  | store hst hplace => exact h.store hst hplace
  | enter hio hw => exact wakeful_goto (by decide) (by decide) hio
  | test hw =>
    refine ⟨fun ht hready => ?_, Monitor.attentive_test, fun _ _ =>
      h.waiting (by simp [hw]) (by simp [hw])⟩
    simp [Monitor.test, hready, Monitor.goto] at ht
  | sleep hw =>
    exact ⟨fun ht => absurd ht (by simp [Monitor.goto]), h.attentive.sleep hw,
      fun _ _ => h.waiting (by simp [hw]) (by simp [hw])⟩
  | wake hw =>
    exact wakeful_goto (by decide) (by decide) (h.waiting (by simp [hw]) (by simp [hw]))
  | notify hdue =>
    refine ⟨fun ht => ?_, Monitor.Attentive.notify h.tested, fun ho hi => ?_⟩
    · simp only [Monitor.notify] at ht
      split at ht
      · cases ht
      · exact h.tested ht
    · simp only [Monitor.notify] at ho hi
      split at ho
      · exact h.waiting (by simp [*]) (by simp [*])
      · rename_i hne
        rw [if_neg hne] at hi
        exact h.waiting ho hi
  | pause => exact wakeful_of (.inl rfl)
  | resume => exact wakeful_of (.inr rfl)

theorem Run.wakeful (hr : Run Step w₀ es w) (h : w₀.monitor.waiter = .outside) : Wakeful w :=
  hr.invariant (I := fun _ w => Wakeful w) (wakeful_of (.inl h)) fun _ ih hst => hst.wakeful ih

/-- The I/O thread, with something to do and nothing missed, gets to it by itself. -/
theorem Wakeful.exists_run_inside (h : Wakeful w) (hdue : w.monitor.due = 0)
    (hio : w.store.io = .waiting) (hready : w.store.Ready) :
    ∃ es w', Run Step w es w' ∧ w'.store = w.store ∧ w'.monitor.waiter = .inside := by
  have htest : ∀ m : Monitor, (m.test w.store.Ready).waiter = .inside := fun m => by
    simp [Monitor.test, hready, Monitor.goto]
  have henter (hw : w.monitor.waiter = .outside ∨ w.monitor.waiter = .woken) :
      ∃ es w', Run Step w es w' ∧ w'.store = w.store ∧ w'.monitor.waiter = .inside :=
    ⟨_, _, .cons (.enter hio hw) (.single (.test rfl)), rfl, htest _⟩
  cases hw : w.monitor.waiter with
  | outside => exact henter (.inl hw)
  | woken => exact henter (.inr hw)
  | entered => exact ⟨_, _, .single (.test hw), rfl, htest _⟩
  | inside => exact ⟨[], w, .nil, rfl, hw⟩
  | tested => exact absurd hready (h.tested hw)
  | asleep => exact absurd hready (h.attentive.of_due_eq_zero hw hdue)

/-- The I/O thread does not oversleep. When all the notifications have been made, it is
    asleep only if all that was accepted is written, and the store is open; and if
    there is something to do, it gets to it without being notified again. -/
theorem never_overslept (hr : Run Step w₀ es w) (hfresh : Fresh w₀.store)
    (hout : w₀.monitor.waiter = .outside) (hdue : w.monitor.due = 0) :
    (w.monitor.waiter = .asleep →
      writtenRecords (storeEvents es) = accepted (storeEvents es) ∧ w.store.shutdown = false) ∧
    (w.store.io = .waiting → w.store.Ready →
      ∃ es' w', Run Step w es' w' ∧ w'.store = w.store ∧ w'.monitor.waiter = .inside) := by
  have hw := Run.wakeful hr hout
  refine ⟨fun hasleep => ?_, hw.exists_run_inside hdue⟩
  have hnot := hw.attentive.of_due_eq_zero hasleep hdue
  simp only [Ready, not_or, not_not, Bool.not_eq_true] at hnot
  have hio := hw.waiting (by simp [hasleep]) (by simp [hasleep])
  have heq := (PartitionStore.Run.queued (Run.store hr) hfresh).accepted_eq
  rw [inFlight, hio, hnot.2, List.append_nil, List.append_nil] at heq
  exact ⟨heq, hnot.1⟩

/-! ## One record -/

/-- A store with nothing to do, whose I/O thread has gone to sleep. -/
def sleeping : Waking Unit := ⟨«open» ∅ {}, { waiter := .asleep }⟩

def sleepEvents : List (Event Unit) := [.entered, .tested, .slept]

theorem run_sleeping : Run Step ⟨«open» ∅ {}, {}⟩ sleepEvents sleeping :=
  .cons (.enter rfl (.inl rfl)) (.cons (.test rfl) (.single (.sleep rfl)))

/-- The I/O thread has been notified of a record. -/
def woken : Waking Unit := ⟨sleeping.store.enqueue .empty 5, { waiter := .woken }⟩

def wakeEvents : List (Event Unit) :=
  [.stored (.appended (sleeping.store.command .empty 5)), .notified]

theorem idle_sleeping : Idle sleeping.store := ⟨rfl, rfl, rfl, rfl⟩

theorem run_woken : Run Step sleeping wakeEvents woken :=
  .cons (.store (idle_sleeping.step_append (by decide) (by decide)) id)
    (.single (.notify Nat.one_pos))

/-- The record is written, and the I/O thread has gone to sleep again. -/
def asleepAgain : Waking Unit := ⟨sleeping.store.publishedOne .empty 5, { waiter := .asleep }⟩

def writeEvents : List (Event Unit) :=
  let cmd := sleeping.store.command .empty 5
  [.entered, .tested, .stored (.took cmd), .stored .gathered, .stored (.wrote 0 [cmd]),
    .stored (.notified [cmd] []), .stored .ended] ++ sleepEvents

theorem run_asleepAgain : Run Step woken writeEvents asleepAgain :=
  .cons (.enter rfl (.inr rfl)) <| .cons (.test rfl) <|
    .cons (.store idle_sleeping.step_took rfl) <| .cons (.store (.takeDone rfl) rfl) <|
    .cons (.store (step_wroteOne (by decide) (by decide)) rfl) <|
    .cons (.store (.notify rfl) rfl) <| .cons (.store (.endRound rfl) rfl) <|
    .cons (.enter rfl (.inl rfl)) <| .cons (.test rfl) <| .single (.sleep rfl)

/-- Once notified, the I/O thread gets to the record; when it sleeps again, the record is
    written. -/
theorem never_overslept_again :
    (∃ es w, Run Step woken es w ∧ w.store = woken.store ∧ w.monitor.waiter = .inside) ∧
      accepted (storeEvents (sleepEvents ++ wakeEvents ++ writeEvents)) =
        [sleeping.store.command .empty 5] ∧
      writtenRecords (storeEvents (sleepEvents ++ wakeEvents ++ writeEvents)) =
        accepted (storeEvents (sleepEvents ++ wakeEvents ++ writeEvents)) ∧
      asleepAgain.store.shutdown = false := by
  have hwoken := run_sleeping.append run_woken
  have hasleep := hwoken.append run_asleepAgain
  have hready : woken.store.Ready := .inr (List.cons_ne_nil _ _)
  exact ⟨(never_overslept hwoken (fresh_open _ _) rfl rfl).2 rfl hready, rfl,
    (never_overslept hasleep (fresh_open _ _) rfl rfl).1 rfl⟩

end Waking

end Fell.Storage
