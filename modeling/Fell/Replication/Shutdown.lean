import Fell.Lib.Monitor
import Fell.Replication.ReplicaManager

/-!
# Stopping the worker of a replica manager

The worker waits on `queue_cv_` until a batch is queued or the manager is
stopped. `enqueue_committed` queues a batch and notifies with `queue_mu_` held.
`ReplicaManager::stop` clears `running_` and notifies without the mutex, and
then waits for the worker to come to its end.

The manager is that of `Fell.Replication.ReplicaManager`, with the place of the worker in its
wait, and the runs here are runs of the leader (`Run.leader`).

`stops_of_timely`: unless `stop` notifies just when the worker has found that it
has nothing to do, and is not yet asleep, the worker comes to its end by itself.
If it does, the notification is lost, and the worker sleeps on with nobody
left to wake it (`not_forall_awake`).
-/

namespace Fell.Replication

/-- A leader, and the worker of its replica manager at the condition variable. -/
structure Stoppable where
  leader : Leader
  running : Bool := true
  monitor : Monitor := {}
  /-- The worker has left `worker_loop`. -/
  exited : Bool := false

/-- Where a step is made, with respect to `queue_mu_`. -/
def Leader.Event.place : Leader.Event → Place
  | .enqueued _ => .signaller
  | .popped => .leaving
  | .processed .. | .posted _ | .finished => .outside
  | .registered .. | .acked .. | .changed => .anywhere

namespace Stoppable

/-- What the worker waits for. -/
def Ready (w : Stoppable) : Prop := w.running = false ∨ w.leader.manager.commitQueue ≠ []

instance (w : Stoppable) : Decidable w.Ready := inferInstanceAs (Decidable (_ ∨ _))

/-- What happens in a step. -/
inductive Event
  | led (e : Leader.Event)
  | entered
  | tested
  | slept
  | woke
  | stopped
  | notified
  | exited

/-- A step of the leader, of the worker in its wait, or of `stop`. -/
inductive Step (maxLag : UInt64) (w : Stoppable) : Event → Stoppable → Prop
  | lead {e leader'} (hst : Leader.Step maxLag w.leader e leader')
      (hplace : e.place.Allows w.monitor.waiter) :
      Step maxLag w (.led e) { w with leader := leader', monitor := w.monitor.after e.place }
  /-- A round of `worker_loop` begins, if the manager is running. -/
  | begin (hrun : w.running = true) (hworker : w.leader.manager.worker = .waiting)
      (hex : w.exited = false) (hw : w.monitor.waiter = .outside) :
      Step maxLag w .entered { w with monitor := w.monitor.goto .entered }
  | enter (hw : w.monitor.waiter = .woken) :
      Step maxLag w .entered { w with monitor := w.monitor.goto .entered }
  | test (hw : w.monitor.waiter = .entered) :
      Step maxLag w .tested { w with monitor := w.monitor.test w.Ready }
  | sleep (hw : w.monitor.waiter = .tested) :
      Step maxLag w .slept { w with monitor := w.monitor.goto .asleep }
  /-- A wait may end without a notification. -/
  | wake (hw : w.monitor.waiter = .asleep) :
      Step maxLag w .woke { w with monitor := w.monitor.goto .woken }
  /-- `stop` clears `running_`. -/
  | stop (hrun : w.running = true) :
      Step maxLag w .stopped { w with running := false, monitor := w.monitor.owe }
  /-- `stop` notifies. -/
  | notify (hdue : 0 < w.monitor.due) :
      Step maxLag w .notified { w with monitor := w.monitor.notify }
  /-- The worker leaves the loop from its wait. -/
  | leave (hrun : w.running = false) (hq : w.leader.manager.commitQueue = [])
      (hw : w.monitor.waiter = .inside) :
      Step maxLag w .exited { w with monitor := w.monitor.goto .outside, exited := true }
  /-- The worker leaves the loop at the end of a round. -/
  | exit (hrun : w.running = false) (hworker : w.leader.manager.worker = .waiting)
      (hex : w.exited = false) (hw : w.monitor.waiter = .outside) :
      Step maxLag w .exited { w with exited := true }

variable {maxLag : UInt64} {w w' w₀ : Stoppable} {e : Event} {es : List Event}

/-! ## The leader -/

/-- The step of the leader in a step. -/
def Event.ofLeader : Event → List Leader.Event
  | .led e => [e]
  | _ => []

theorem Step.leader_run (hst : Step maxLag w e w') :
    Run (Leader.Step maxLag) w.leader e.ofLeader w'.leader := by
  cases hst with
  | lead hst _ => exact .single hst
  | begin | enter | test | sleep | wake | stop | notify | leave | exit => exact .nil

/-- A run is a run of the leader. -/
theorem Run.leader (hr : Run (Step maxLag) w₀ es w) :
    Run (Leader.Step maxLag) w₀.leader (es.flatMap Event.ofLeader) w.leader :=
  hr.project Stoppable.leader Event.ofLeader Step.leader_run

/-- Another thread leaves the worker and its queue alone, but for `enqueue_committed`. -/
theorem worker_eq_of_place {l l' : Leader} {e : Leader.Event} (hst : Leader.Step maxLag l e l')
    (h : e.place = .anywhere ∨ e.place = .signaller) : l'.manager.worker = l.manager.worker := by
  cases hst with
  | register | enqueue | change | ack => rfl
  | pop | process | post | finish => simp [Leader.Event.place] at h

theorem commitQueue_eq_of_place {l l' : Leader} {e : Leader.Event}
    (hst : Leader.Step maxLag l e l') (h : e.place = .anywhere) :
    l'.manager.commitQueue = l.manager.commitQueue := by
  cases hst with
  | register | change | ack => rfl
  | enqueue | pop | process | post | finish => simp [Leader.Event.place] at h

/-! ## Where the worker is -/

/-- Where the worker is in its wait, and what it has missed. -/
structure Kept (w : Stoppable) : Prop where
  attentive : w.monitor.Attentive w.Ready
  waiting : w.monitor.waiter ≠ .outside →
    w.leader.manager.worker = .waiting ∧ w.exited = false

theorem kept_of_outside (h : w.monitor.waiter = .outside) : Kept w where
  attentive := Monitor.attentive_of_ne (by simp [h]) (by simp [h])
  waiting hne := absurd h hne

theorem Kept.goto (h : Kept w) {x : Waiter} (ht : x ≠ .tested) (ha : x ≠ .asleep)
    (hw : w.monitor.waiter ≠ .outside) : Kept { w with monitor := w.monitor.goto x } where
  attentive := Monitor.attentive_of_ne ht ha
  waiting _ := h.waiting hw

theorem Kept.notify (h : Kept w) (ht : w.monitor.waiter ≠ .tested) :
    Kept { w with monitor := w.monitor.notify } where
  attentive := Monitor.Attentive.notify fun h => absurd h ht
  waiting hne := h.waiting fun hout => hne (by simp [Monitor.notify, hout])

theorem Kept.lead {leader' : Leader} {e : Leader.Event} (h : Kept w)
    (hst : Leader.Step maxLag w.leader e leader') (hplace : e.place.Allows w.monitor.waiter) :
    Kept { w with leader := leader', monitor := w.monitor.after e.place } := by
  have hworker := worker_eq_of_place hst
  cases hp : e.place with
  | signaller =>
    rw [hp] at hplace
    -- The mutex is held by another thread, so the worker has not just tested.
    have ht : w.monitor.waiter ≠ .tested := fun ht => by
      rw [ht] at hplace
      exact hplace trivial
    refine ⟨Monitor.Attentive.notify fun h => absurd h ht, fun hne => ?_⟩
    rw [hworker (.inr hp)]
    exact h.waiting fun hout => hne (by simp [Monitor.after, Monitor.notify, Monitor.owe, hout])
  | anywhere =>
    refine ⟨h.attentive.mono ?_, fun hne => ?_⟩
    · rw [Ready, Ready, commitQueue_eq_of_place hst hp]
      exact id
    · rw [hworker (.inl hp)]
      exact h.waiting hne
  | leaving => exact kept_of_outside rfl
  | outside =>
    rw [hp] at hplace
    exact kept_of_outside hplace
  | notifier | locked | inside => cases e <;> simp [Leader.Event.place] at hp

/-- `stop` does not notify between the test of the worker and its sleep. -/
def Timely (w : Stoppable) : Event → Prop
  | .notified => w.monitor.waiter ≠ .tested
  | _ => True

theorem Step.kept (h : Kept w) (ht : Timely w e) (hst : Step maxLag w e w') : Kept w' := by
  cases hst with
  | lead hst hplace => exact h.lead hst hplace
  | begin hrun hworker hex hw =>
    exact ⟨Monitor.attentive_of_ne (by simp [Monitor.goto]) (by simp [Monitor.goto]),
      fun _ => ⟨hworker, hex⟩⟩
  | enter hw => exact h.goto (by decide) (by decide) (by simp [hw])
  | test hw => exact ⟨Monitor.attentive_test, fun _ => h.waiting (by simp [hw])⟩
  | sleep hw => exact ⟨h.attentive.sleep hw, fun _ => h.waiting (by simp [hw])⟩
  | wake hw => exact h.goto (by decide) (by decide) (by simp [hw])
  | stop hrun => exact ⟨Monitor.attentive_owe, h.waiting⟩
  | notify hdue => exact h.notify ht
  | leave => exact kept_of_outside rfl
  | exit hrun hworker hex hw => exact kept_of_outside hw

theorem Run.kept (hr : Run (Guarded (Step maxLag) Timely) w₀ es w)
    (h : w₀.monitor.waiter = .outside) : Kept w :=
  hr.invariant (I := fun _ w => Kept w) (kept_of_outside h) fun _ ih hst => hst.1.kept ih hst.2

/-! ## The worker comes to its end -/

/-- The steps the worker makes. -/
def Event.ByWorker : Event → Prop
  | .led .popped | .led (.processed ..) | .led (.posted _) | .led .finished => True
  | .entered | .tested | .exited => True
  | _ => False

/-- The worker can come to its end by itself. -/
def CanExit (maxLag : UInt64) (w : Stoppable) : Prop :=
  ∃ es w', Run (Step maxLag) w es w' ∧ (∀ e ∈ es, e.ByWorker) ∧ w'.exited = true

theorem CanExit.of_step (hst : Step maxLag w e w') (hby : e.ByWorker) (h : CanExit maxLag w') :
    CanExit maxLag w := by
  obtain ⟨es, w'', hr, hall, hex⟩ := h
  exact ⟨e :: es, w'', .cons hst hr, by simpa [hby] using hall, hex⟩

theorem canExit_of_exited (h : w.exited = true) : CanExit maxLag w :=
  ⟨[], w, .nil, by simp, h⟩

/-- A worker that is not in its wait finishes its round, and sees that it is to stop. -/
theorem canExit_of_outside (hrun : w.running = false) (hw : w.monitor.waiter = .outside) :
    CanExit maxLag w := by
  cases hex : w.exited with
  | true => exact canExit_of_exited hex
  | false =>
    have hwaiting {w : Stoppable} (hrun : w.running = false) (hw : w.monitor.waiter = .outside)
        (hex : w.exited = false) (hworker : w.leader.manager.worker = .waiting) :
        CanExit maxLag w :=
      .of_step (.exit hrun hworker hex hw) trivial (canExit_of_exited rfl)
    have hposted {w : Stoppable} {qc : QueuedCommit} (hrun : w.running = false)
        (hw : w.monitor.waiter = .outside) (hex : w.exited = false)
        (hworker : w.leader.manager.worker = .posted qc) : CanExit maxLag w :=
      .of_step (.lead (.finish hworker) hw) trivial (hwaiting hrun hw hex rfl)
    have hswept {w : Stoppable} {qc : QueuedCommit} {toSend : List Response}
        (hrun : w.running = false) (hw : w.monitor.waiter = .outside) (hex : w.exited = false)
        (hworker : w.leader.manager.worker = .swept qc toSend) : CanExit maxLag w :=
      .of_step (.lead (.post hworker) hw) trivial (hposted hrun hw hex rfl)
    cases hworker : w.leader.manager.worker with
    | waiting => exact hwaiting hrun hw hex hworker
    | popped qc =>
      exact .of_step (.lead (.process hworker) hw) trivial (hswept hrun hw hex rfl)
    | swept qc toSend => exact hswept hrun hw hex hworker
    | posted qc => exact hposted hrun hw hex hworker

/-- From its wait, the worker leaves the loop, or takes one more batch. -/
theorem canExit_of_inside (hrun : w.running = false) (hw : w.monitor.waiter = .inside)
    (hworker : w.leader.manager.worker = .waiting) : CanExit maxLag w := by
  cases hq : w.leader.manager.commitQueue with
  | nil => exact .of_step (.leave hrun hq hw) trivial (canExit_of_exited rfl)
  | cons qc rest =>
    exact .of_step (.lead (.pop hworker hq) hw) trivial (canExit_of_outside hrun rfl)

theorem canExit_of_entered (hrun : w.running = false) (hw : w.monitor.waiter = .entered)
    (hworker : w.leader.manager.worker = .waiting) : CanExit maxLag w :=
  .of_step (.test hw) trivial
    (canExit_of_inside hrun (by simp [Monitor.test, Ready, hrun, Monitor.goto]) hworker)

/-- If `stop` does not notify between the test of the worker and its sleep, then once it has
    notified the worker is not asleep, and comes to its end by itself. -/
theorem stops_of_timely (hr : Run (Guarded (Step maxLag) Timely) w₀ es w)
    (hout : w₀.monitor.waiter = .outside) (hrun : w.running = false) (hdue : w.monitor.due = 0) :
    w.monitor.waiter ≠ .asleep ∧ CanExit maxLag w := by
  have hk := Run.kept hr hout
  have hmissed (h : w.monitor.waiter = .tested ∨ w.monitor.waiter = .asleep) : False := by
    have := hk.attentive h (.inl hrun)
    omega
  refine ⟨fun ha => hmissed (.inr ha), ?_⟩
  cases hw : w.monitor.waiter with
  | outside => exact canExit_of_outside hrun hw
  | entered => exact canExit_of_entered hrun hw (hk.waiting (by simp [hw])).1
  | tested => exact (hmissed (.inl hw)).elim
  | asleep => exact (hmissed (.inr hw)).elim
  | woken =>
    exact .of_step (.enter hw) trivial
      (canExit_of_entered hrun rfl (hk.waiting (by simp [hw])).1)
  | inside => exact canExit_of_inside hrun hw (hk.waiting (by simp [hw])).1

/-- A manager that has just been started. -/
def idle : Stoppable := { leader := ⟨{}, { topic := [97], partitionIdx := 0 }⟩ }

/-- A worker that was asleep when its manager was stopped, and has been notified. -/
def woken : Stoppable := { idle with running := false, monitor := { waiter := .woken } }

theorem run_woken : Run (Guarded (Step 0) Timely) idle
    [.entered, .tested, .slept, .stopped, .notified] woken :=
  .cons ⟨.begin rfl rfl rfl rfl, trivial⟩ <| .cons ⟨.test rfl, trivial⟩ <|
    .cons ⟨.sleep rfl, trivial⟩ <| .cons ⟨.stop rfl, trivial⟩ <|
    .single ⟨.notify Nat.one_pos, by simp [Timely, Monitor.owe, Monitor.goto]⟩

theorem run_exited : Run (Guarded (Step 0) Timely) woken [.entered, .tested, .exited]
    { woken with monitor := {}, exited := true } :=
  .cons ⟨.enter rfl, trivial⟩ <| .cons ⟨.test rfl, trivial⟩ <| .single ⟨.leave rfl rfl rfl, trivial⟩

/-- The worker wakes, and comes to its end. -/
theorem stops_of_timely_woken :
    (woken.monitor.waiter ≠ .asleep ∧ CanExit 0 woken) ∧
      ∃ w, Run (Guarded (Step 0) Timely) idle
        [.entered, .tested, .slept, .stopped, .notified, .entered, .tested, .exited] w ∧
        w.exited = true ∧ w.monitor.waiter ≠ .asleep := by
  have hrun := run_woken.append run_exited
  exact ⟨stops_of_timely run_woken rfl rfl rfl, _, hrun, rfl,
    (stops_of_timely hrun rfl rfl rfl).1⟩

/-- A worker that sleeps on: its manager is stopped, nothing is queued, and no notification is
    due. -/
def overslept : Stoppable := { idle with running := false, monitor := { waiter := .asleep } }

theorem run_overslept :
    Run (Step 0) idle [.entered, .tested, .stopped, .notified, .slept] overslept :=
  .cons (.begin rfl rfl rfl rfl) <| .cons (.test rfl) <| .cons (.stop rfl) <|
    .cons (.notify Nat.one_pos) <| .single (.sleep rfl)

/-- The worker may oversleep the end of its manager. -/
theorem not_forall_awake :
    ¬∀ es w, Run (Step 0) idle es w → w.running = false → w.monitor.due = 0 →
      w.monitor.waiter ≠ .asleep :=
  fun h => h _ _ run_overslept rfl rfl rfl

end Stoppable

end Fell.Replication
