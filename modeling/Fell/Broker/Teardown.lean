import Fell.Storage.Reopen

/-!
# Taking a broker down

The destructor of `Broker` stops the replica managers. Then the members of the broker are destroyed,
in the reverse order of their declaration in `broker/broker.hpp`: the replica managers before the
partitions. The I/O thread of a partition goes on until the destructor of its store has it stop, and
that waits until all that is queued is written. The store calls its commit callback for it, which
has a pointer to the replica manager.

What is called through a pointer to a replica manager that is destroyed is not defined, and not
modelled. The calls are recorded, with the state of the replica manager. The partition is one that
has a replica manager, and the callback is installed.

When the destructor runs, the event loop has ended. The replication clients are stopped after the
replica managers, and until then a client may append to the store. All are stopped before anything
is destroyed, so only the I/O thread uses the store from then on.

* `called_of_teardown`: after its end, a replica manager is called for exactly the records that the
  callback had not been called for before; so the order of destruction is safe if and only if there
  are none.
-/

namespace Fell.Storage.PartitionStore

variable {κ : Type} {s s₀ : PartitionStore κ} {es es' : List (Event κ)}

/-- The records for which the callbacks are still to be called: written, in flight or queued. -/
def untold (s : PartitionStore κ) : List Record := s.unnotified ++ s.inFlight ++ s.queue

theorem Run.notified_append_untold (hrun : Run Step s₀ es s) (h : Fresh s₀) :
    notifiedRecords es ++ s.untold = accepted es := by
  rw [untold, ← (Run.queued hrun h).accepted_eq, ← Run.notified_append_unnotified hrun h]
  simp only [List.append_assoc]

/-- A store that has stopped has nothing left to tell. -/
theorem Run.notified_of_stopped (hrun : Run Step s₀ es s) (h : Fresh s₀)
    (hstop : s.io = .stopped) : notifiedRecords es = accepted es := by
  have hnone : s.unnotified = [] := by rw [unnotified, hstop]
  rw [Run.accepted_eq_of_stopped hrun h hstop, ← Run.notified_append_unnotified hrun h, hnone,
    List.append_nil]

/-- What is told after some time, if nothing is accepted any more and the store stops. -/
theorem Run.notified_after {s₁ : PartitionStore κ} (hrun : Run Step s₀ es s₁) (h : Fresh s₀)
    (hrun' : Run Step s₁ es' s) (hacc : accepted es' = []) (hstop : s.io = .stopped) :
    notifiedRecords es' = s₁.untold := by
  have hall := Run.notified_of_stopped (hrun.append hrun') h hstop
  rw [notifiedRecords, accepted, List.flatMap_append, List.flatMap_append, ← notifiedRecords,
    ← notifiedRecords, ← accepted, ← accepted, hacc, List.append_nil,
    ← Run.notified_append_untold hrun h] at hall
  exact List.append_cancel_left hall

end Fell.Storage.PartitionStore

namespace Fell.Broker

open Storage
open Storage.PartitionStore («open» Fresh fresh_open)

/-- Where a replica manager is in its life. -/
inductive ManagerLife
  | running
  | stopped
  | destroyed
  deriving DecidableEq

/-- A partition and its replica manager. -/
structure Teardown (κ : Type) where
  store : PartitionStore κ
  manager : ManagerLife

namespace Teardown

variable {κ : Type}

/-- What happens in a step. -/
inductive Event (κ : Type)
  /-- The store moves, and with it the replica manager if it is called. -/
  | stored (manager : ManagerLife) (e : PartitionStore.Event κ)
  | stopped
  | destroyed
  | closed

/-- The I/O thread does this. -/
def ByIoThread : PartitionStore.Event κ → Prop
  | .took _ | .gathered | .wrote .. | .notified .. | .ended | .stopped => True
  | .appended _ | .refused _ | .registered .. | .fetched .. | .shutDown => False

/-- A step of the broker while it runs, and of its destructor. -/
inductive Step (s : Teardown κ) : Event κ → Teardown κ → Prop
  /-- Any thread moves the store, also while the broker is stopped: the replication clients go on
      until they are. After the destruction of the replica manager it is only the I/O thread. -/
  | store {e : PartitionStore.Event κ} {store' : PartitionStore κ}
      (hst : PartitionStore.Step s.store e store')
      (hby : s.manager ≠ .destroyed ∧ e ≠ .shutDown ∨ ByIoThread e) :
      Step s (.stored s.manager e) { s with store := store' }
  /-- The body of `~Broker`. -/
  | stop (hm : s.manager = .running) : Step s .stopped { s with manager := .stopped }
  /-- `replica_managers_` is destroyed. -/
  | destroy (hm : s.manager = .stopped) : Step s .destroyed { s with manager := .destroyed }
  /-- `registry_` is destroyed, and with it the store: `~PartitionStore`, up to the join. -/
  | close (hm : s.manager = .destroyed) :
      Step s .closed { s with store := { s.store with shutdown := true } }

/-- What the store does in a step. -/
def Event.ofStore : Event κ → List (PartitionStore.Event κ)
  | .stored _ e => [e]
  | .closed => [.shutDown]
  | .stopped | .destroyed => []

/-- The records for which a replica manager is called that is destroyed. -/
def Event.dangling : Event κ → List Record
  | .stored .destroyed e => e.toldOf
  | _ => []

variable {s s' s₀ : Teardown κ} {e : Event κ} {es es' : List (Event κ)}

theorem Run.store (hr : Run Step s es s') :
    Run PartitionStore.Step s.store (es.flatMap Event.ofStore) s'.store := by
  refine hr.project Teardown.store Event.ofStore fun hst => ?_
  cases hst with
  | store hst hby => exact .single hst
  | stop | destroy => exact .nil
  | close hm => exact .single .shutDown

theorem accepted_of_byIoThread {e : PartitionStore.Event κ} (h : ByIoThread e) :
    e.accepted = [] := by
  cases e with
  | appended => exact absurd h id
  | _ => rfl

/-- A replica manager that is destroyed stays so. Nothing is appended any more, and all calls are to
    the destroyed one. -/
theorem Step.of_destroyed (hst : Step s e s') (hm : s.manager = .destroyed) :
    s'.manager = .destroyed ∧ e.ofStore.flatMap PartitionStore.Event.accepted = [] ∧
      e.dangling = e.ofStore.flatMap PartitionStore.Event.toldOf := by
  cases hst with
  | store hst hby =>
    have hio := hby.resolve_left fun h => absurd hm h.1
    refine ⟨hm, ?_, ?_⟩
    · rw [Event.ofStore, List.flatMap_singleton]
      exact accepted_of_byIoThread hio
    · rw [hm, Event.dangling, Event.ofStore, List.flatMap_singleton]
  | stop hm' => exact absurd (hm.symm.trans hm') (by decide)
  | destroy hm' => exact absurd (hm.symm.trans hm') (by decide)
  | close => exact ⟨hm, rfl, rfl⟩

theorem Run.of_destroyed (hr : Run Step s es s') (hm : s.manager = .destroyed) :
    s'.manager = .destroyed ∧ PartitionStore.accepted (es.flatMap Event.ofStore) = [] ∧
      es.flatMap Event.dangling = PartitionStore.notifiedRecords (es.flatMap Event.ofStore) := by
  refine hr.invariant (I := fun es s' => s'.manager = .destroyed ∧
    PartitionStore.accepted (es.flatMap Event.ofStore) = [] ∧
    es.flatMap Event.dangling = PartitionStore.notifiedRecords (es.flatMap Event.ofStore))
    ⟨hm, rfl, rfl⟩ ?_
  rintro es s e s' - ⟨hm, hacc, hdang⟩ hst
  obtain ⟨hm', hacc', hdang'⟩ := hst.of_destroyed hm
  rw [PartitionStore.accepted] at hacc
  rw [PartitionStore.notifiedRecords] at hdang
  refine ⟨hm', ?_, ?_⟩
  · rw [PartitionStore.accepted, List.flatMap_append, List.flatMap_append, hacc,
      List.flatMap_singleton, hacc', List.nil_append]
  · rw [PartitionStore.notifiedRecords, List.flatMap_append, List.flatMap_append,
      List.flatMap_append, hdang, List.flatMap_singleton, List.flatMap_singleton, hdang']

/-- The callback is called for some records. -/
theorem batch_ne_nil {store store' : PartitionStore κ} {batch : List Record} {fired : List κ}
    (hst : PartitionStore.Step store (.notified batch fired) store') (h : store.Loaded) :
    batch ≠ [] := by
  cases hst with
  | notify hio => simpa [PartitionStore.Loaded, hio] using h

theorem exists_of_dangling (h : e.dangling ≠ []) :
    ∃ batch fired, e = .stored .destroyed (.notified batch fired) := by
  cases e with
  | stored manager e =>
    cases manager with
    | destroyed =>
      cases e with
      | notified batch fired => exact ⟨batch, fired, rfl⟩
      | _ => exact absurd rfl h
    | _ => exact absurd rfl h
  | _ => exact absurd rfl h

/-- In every run of a broker and its destructor up to the end of the I/O thread: the replica
    manager of a partition is called after its destruction for exactly the records for which it had
    not been called before. So there is such a call if and only if there are such records. -/
theorem called_of_teardown {dir : Dir} {options : StorageOptions}
    (hr : Run Step ⟨«open» dir options, .running⟩ (es ++ .destroyed :: es') s)
    (hstop : s.store.io = .stopped) :
    ∃ s₁, Run Step ⟨«open» dir options, .running⟩ es s₁ ∧
      es'.flatMap Event.dangling = s₁.store.untold ∧
      ((∃ batch fired, .stored .destroyed (.notified batch fired) ∈ es') ↔
        s₁.store.untold ≠ []) := by
  obtain ⟨s₁, s₂, hr₁, hdestroy, hr₂⟩ := hr.exists_step_of_append
  cases hdestroy with
  | destroy hm =>
    obtain ⟨-, hacc, hdang⟩ := Run.of_destroyed hr₂ rfl
    have hfresh : Fresh («open» dir options : PartitionStore κ) := fresh_open _ _
    have hrun₂ := Run.store hr₂
    have hall := PartitionStore.Run.notified_after (Run.store hr₁) hfresh hrun₂ hacc hstop
    rw [← hdang] at hall
    refine ⟨s₁, hr₁, hall, ?_⟩
    rw [← hall, ne_eq, List.flatMap_eq_nil_iff]
    constructor
    · rintro ⟨batch, fired, hmem⟩ hnil
      obtain ⟨es₁, t, t', es₂, -, hrt, hst, -⟩ := hr₂.exists_step hmem
      have hrun := Run.store (hr₁.append (.cons (.destroy hm) hrt))
      have hloaded := PartitionStore.Run.loaded hrun hfresh.loaded
      have hnotify := (Run.store (.single hst)).step_of_single
      exact batch_ne_nil hnotify hloaded (hnil _ hmem)
    · intro hsome
      push Not at hsome
      obtain ⟨e, he, hne⟩ := hsome
      obtain ⟨batch, fired, rfl⟩ := exists_of_dangling hne
      exact ⟨batch, fired, he⟩

/-- The I/O thread moves, whatever becomes of the replica manager. -/
theorem Run.of_io {store store' : PartitionStore κ} {es : List (PartitionStore.Event κ)}
    (hrun : Run PartitionStore.Step store es store') (hby : ∀ e ∈ es, ByIoThread e)
    (m : ManagerLife) : Run Step ⟨store, m⟩ (es.map (.stored m)) ⟨store', m⟩ := by
  induction hrun with
  | nil => exact .nil
  | snoc _ hst ih =>
    obtain ⟨hes, he⟩ := List.forall_mem_append.1 hby
    rw [List.map_append]
    exact (ih hes).snoc (.store hst (.inr (he _ (List.mem_singleton_self _))))

/-- A record is queued when the broker is taken down. It is written after the replica manager is
    destroyed, and the manager is called for it. -/
theorem called_of_teardown_queued : ∃ (es es' : List (Event Unit)) (s s₁ : Teardown Unit),
    Run Step ⟨«open» ∅ {}, .running⟩ (es ++ .destroyed :: es') s ∧ s.store.io = .stopped ∧
      Run Step ⟨«open» ∅ {}, .running⟩ es s₁ ∧
      es'.flatMap Event.dangling = s₁.store.untold ∧ es'.flatMap Event.dangling ≠ [] := by
  have hidle : PartitionStore.Idle («open» ∅ {} : PartitionStore Unit) := ⟨rfl, rfl, rfl, rfl⟩
  have happend := @PartitionStore.Idle.step_append _ _ .empty 5 hidle (by decide) (by decide)
  have hround := (@PartitionStore.Idle.run_notifiedOne _ _ .empty 5 hidle (by decide)
    (by decide)).snoc (.endRound rfl)
  have hby : ∀ e ∈ («open» ∅ {} : PartitionStore Unit).notifyOneEvents .empty 5 ++ [.ended],
      ByIoThread e := by
    simp [PartitionStore.notifyOneEvents, ByIoThread]
  have hbefore : Run Step ⟨«open» ∅ {}, .running⟩ _ _ :=
    (Run.single (.store happend (.inl ⟨by decide, by rintro ⟨⟩⟩))).snoc (.stop rfl)
  have hafter := ((Run.of_io hround hby .destroyed).snoc (.close rfl)).snoc
    (.store (.stop rfl rfl rfl) (.inr trivial))
  have hr := hbefore.append (.cons (.destroy rfl) hafter)
  obtain ⟨s₁, hr₁, hall, hiff⟩ := called_of_teardown hr rfl
  have hcalled := hiff.1 ⟨_, _, List.mem_append_left _ (List.mem_append_left _
    (List.mem_map_of_mem (List.mem_append_left _ (.tail _ (.tail _ (.tail _ (.head _)))))))⟩
  exact ⟨_, _, _, s₁, hr, rfl, hr₁, hall, hall ▸ hcalled⟩

end Teardown

end Fell.Broker
