import Fell.Broker.Protocol
import Fell.Replication.ReplicaManager
import Fell.Storage.Log

/-!
# Deferred acknowledgements

With `acks=-1`, `handle_publish` appends the record, then looks up the replica manager of
the partition, which it creates if there is none (`get_or_create_replica_manager`), and
registers the acknowledgement there. Meanwhile the I/O thread of the partition may commit
the record and call the commit callback, which is installed with the replica manager; the
worker may go through the commit; and followers may acknowledge. Nobody who comes before
the registration looks for the entry again.

The system is put together from the partition store and the replica manager. Its runs
are runs of both (`Run.store`, `Run.leader`), so what is known of them holds here.

* `Timely`: the commit callback is installed when it is due, and neither the worker nor
  a follower is ahead of the registration;
* `posted_of_timely`: then no acknowledgement is lost. When all is done for an offset, its
  acknowledgement has been handed to `post_response`.
-/

namespace Fell.Broker

open Platform Replication Storage

/-- Where the event loop is in a publish request that is to be deferred. -/
inductive Handler
  | idle
  /-- The record is appended. -/
  | appended (offset : UInt64) (fd : ℤ)
  /-- The replica manager is looked up. -/
  | managed (offset : UInt64) (fd : ℤ)

/-- A partition on its leader, with the threads that publish to it. -/
structure Publishing (κ : Type) where
  store : PartitionStore κ
  /-- The replica manager, if it is created. The commit callback is installed with it. -/
  manager : Option ReplicaManager
  partition : PartitionMeta
  handler : Handler
  /-- The responses handed to `post_response`. -/
  posted : List Response

namespace Publishing

variable {κ : Type}

/-- What happens in a step. -/
inductive Event (κ : Type)
  | appended (cmd : Record)
  | managed
  | returned (offset : UInt64) (fd : ℤ)
  | stored (e : PartitionStore.Event κ) (installed : Bool)
  | led (e : Leader.Event)

/-- The commit callback, called for the batch that the store notifies of. -/
def commitCallback (rm : ReplicaManager) : PartitionStore.Event κ → ReplicaManager
  | .notified (cmd :: rest) _ => rm.enqueueCommitted ⟨cmd.offset, cmd :: rest⟩
  | _ => rm

/-- The steps that the worker and the replication server make. -/
def ByWorker : Leader.Event → Prop
  | .registered .. | .enqueued _ | .changed => False
  | _ => True

/-- A step of the broker. -/
inductive Step (maxLag : UInt64) (s : Publishing κ) : Event κ → Publishing κ → Prop
  | append (payload : Payload) (now : UInt64) (fd : ℤ) (hidle : s.handler = .idle)
      (hacc : (s.store.append payload now).1.accepted = true) :
      Step maxLag s (.appended (s.store.command payload now))
        { s with
          store := (s.store.append payload now).2
          handler := .appended (s.store.append payload now).1.offset fd }
  | manage {offset : UInt64} {fd : ℤ} (hh : s.handler = .appended offset fd) :
      Step maxLag s .managed
        { s with manager := some (s.manager.getD {}), handler := .managed offset fd }
  | register {offset : UInt64} {fd : ℤ} {rm : ReplicaManager} (hh : s.handler = .managed offset fd)
      (hm : s.manager = some rm) :
      Step maxLag s (.returned offset fd)
        { s with
          manager := some (rm.registerPending s.partition offset (encodeAck offset) fd)
          handler := .idle }
  | store {e : PartitionStore.Event κ} {store' : PartitionStore κ}
      (hst : PartitionStore.Step s.store e store') (hacc : e.accepted = []) :
      Step maxLag s (.stored e s.manager.isSome)
        { s with store := store', manager := s.manager.map (commitCallback · e) }
  | lead {rm rm' : ReplicaManager} {e : Leader.Event} {partition' : PartitionMeta}
      (hm : s.manager = some rm) (hst : Leader.Step maxLag ⟨rm, s.partition⟩ e ⟨rm', partition'⟩)
      (hw : ByWorker e) :
      Step maxLag s (.led e)
        { s with
          manager := some rm'
          partition := partition'
          posted := s.posted ++ e.passed }

variable {maxLag : UInt64} {s s' s₀ : Publishing κ} {e : Event κ} {es : List (Event κ)}

/-! ## The parts -/

/-- The step of the store in a step. -/
def Event.ofStore : Event κ → List (PartitionStore.Event κ)
  | .appended cmd => [.appended cmd]
  | .stored e _ => [e]
  | _ => []

/-- The commit that a step of the store has the callback called for. -/
def commitOf : PartitionStore.Event κ → List Leader.Event
  | .notified (cmd :: rest) _ => [.enqueued ⟨cmd.offset, cmd :: rest⟩]
  | _ => []

/-- The step of the leader in a step. -/
def Event.ofLeader : Event κ → List Leader.Event
  | .returned offset fd => [.registered offset (encodeAck offset) fd]
  | .stored e installed => if installed then commitOf e else []
  | .led e => [e]
  | _ => []

/-- What the store has done. -/
def storeEvents (es : List (Event κ)) : List (PartitionStore.Event κ) := es.flatMap Event.ofStore

/-- What the leader has done. -/
def leaderEvents (es : List (Event κ)) : List Leader.Event := es.flatMap Event.ofLeader

/-- The leader. A replica manager that is not created yet is one with nothing to do. -/
def leader (s : Publishing κ) : Leader := ⟨s.manager.getD {}, s.partition⟩

theorem Step.store_run (hst : Step maxLag s e s') :
    Run PartitionStore.Step s.store e.ofStore s'.store := by
  cases hst with
  | append payload now fd hidle hacc => exact .single (.append payload now hacc)
  | store hst hacc => exact .single hst
  | manage | register | lead => exact .nil

/-- A run of the broker is a run of its store. -/
theorem Run.store (hr : Run (Step maxLag) s₀ es s) :
    Run PartitionStore.Step s₀.store (storeEvents es) s.store :=
  hr.project Publishing.store Event.ofStore Step.store_run

theorem Step.leader_cases (hst : Step maxLag s e s') :
    e.ofLeader = [] ∧ s'.leader = s.leader ∨
      ∃ e', e.ofLeader = [e'] ∧ Leader.Step maxLag s.leader e' s'.leader := by
  cases hst with
  | append payload now fd hidle hacc => exact .inl ⟨rfl, rfl⟩
  | manage hh => exact .inl ⟨rfl, rfl⟩
  | register hh hm =>
    refine .inr ⟨_, rfl, ?_⟩
    rw [leader, leader, hm]
    exact .register _ _ _
  | @store e store' hst hacc =>
    -- Without a replica manager no callback is installed, and the leader hears of nothing.
    rcases hm : s.manager with _ | rm
    · exact .inl ⟨by simp [Event.ofLeader], by simp [leader, hm]⟩
    · cases e with
      | notified batch fired =>
        cases batch with
        | nil =>
          exact .inl ⟨by simp [Event.ofLeader, commitOf], by simp [leader, hm, commitCallback]⟩
        | cons cmd rest =>
          refine .inr ⟨_, rfl, ?_⟩
          simp only [leader, hm]
          exact .enqueue _
      | _ => exact .inl ⟨by simp [Event.ofLeader, commitOf], by simp [leader, hm, commitCallback]⟩
  | lead hm hst hw =>
    refine .inr ⟨_, rfl, ?_⟩
    rw [leader, leader, hm]
    exact hst

theorem Step.leader_run (hst : Step maxLag s e s') :
    Run (Leader.Step maxLag) s.leader e.ofLeader s'.leader := by
  rcases hst.leader_cases with ⟨he, hs⟩ | ⟨e', he, hst⟩
  · rw [he, hs]
    exact .nil
  · rw [he]
    exact .single hst

/-- A run of the broker is a run of the leader. -/
theorem Run.leader (hr : Run (Step maxLag) s₀ es s) :
    Run (Leader.Step maxLag) s₀.leader (leaderEvents es) s.leader :=
  hr.project Publishing.leader Event.ofLeader Step.leader_run

@[simp] theorem storeEvents_snoc : storeEvents (es ++ [e]) = storeEvents es ++ e.ofStore := by
  simp [storeEvents]

@[simp] theorem leaderEvents_snoc : leaderEvents (es ++ [e]) = leaderEvents es ++ e.ofLeader := by
  simp [leaderEvents]

/-! ## The event loop -/

/-- The offset and the connection of a publish request that has been deferred. -/
def Event.returns : Event κ → List (UInt64 × ℤ)
  | .returned offset fd => [(offset, fd)]
  | _ => []

/-- The publish requests that have been deferred. -/
def returned (es : List (Event κ)) : List (UInt64 × ℤ) := es.flatMap Event.returns

@[simp] theorem returned_snoc : returned (es ++ [e]) = returned es ++ e.returns := by
  simp [returned]

/-- The offset that is appended and not registered yet. -/
def inProgress (s : Publishing κ) : List UInt64 :=
  match s.handler with
  | .idle => []
  | .appended offset _ | .managed offset _ => [offset]

/-- The first offset that is not registered. -/
def registeredUpTo (s : Publishing κ) : UInt64 := s.inProgress.headD s.store.nextOffset

/-- The records accepted by the store. -/
abbrev appended (es : List (Event κ)) : List Record := PartitionStore.accepted (storeEvents es)

theorem appended_snoc :
    appended (es ++ [e]) = appended es ++ PartitionStore.accepted e.ofStore := by
  simp [appended, PartitionStore.accepted]

theorem Step.inProgress_eq (hst : Step maxLag s e s') :
    s.inProgress ++ (PartitionStore.accepted e.ofStore).map (·.offset) =
      e.returns.map Prod.fst ++ s'.inProgress := by
  cases hst with
  | append payload now fd hidle hacc =>
    rw [PartitionStore.append_of_accepted hacc]
    simp [inProgress, hidle, Event.ofStore, PartitionStore.accepted, PartitionStore.Event.accepted,
      Event.returns, PartitionStore.command, AppendResult.ok]
  | manage hh => simp [inProgress, hh, Event.ofStore, PartitionStore.accepted, Event.returns]
  | register hh hm => simp [inProgress, hh, Event.ofStore, PartitionStore.accepted, Event.returns]
  | store hst hacc => simp [inProgress, Event.ofStore, PartitionStore.accepted, hacc, Event.returns]
  | lead hm hst hw => simp [inProgress, Event.ofStore, PartitionStore.accepted, Event.returns]

/-- The event loop defers the records in the order in which they are appended. -/
theorem Run.returned_append_inProgress (hr : Run (Step maxLag) s₀ es s)
    (hidle : s₀.handler = .idle) :
    (returned es).map Prod.fst ++ s.inProgress = (appended es).map (·.offset) := by
  refine hr.invariant (I := fun es s => (returned es).map Prod.fst ++ s.inProgress =
    (appended es).map (·.offset)) ?_ fun _ ih hst => ?_
  · simp [returned, inProgress, hidle, appended, storeEvents, PartitionStore.accepted]
  · rw [returned_snoc, appended_snoc, List.map_append, List.map_append, ← ih, List.append_assoc,
      List.append_assoc, hst.inProgress_eq]

/-- A broker that has just opened the partition, with a replica manager that has nothing to
    do, or without. -/
structure Started (s : Publishing κ) : Prop where
  store : PartitionStore.Fresh s.store
  leader : s.leader.manager = {}
  handler : s.handler = .idle

/-- The offsets are registered in order. -/
theorem Run.registeredUpTo_eq (hr : Run (Step maxLag) s₀ es s) (h : Started s₀) :
    s.registeredUpTo = s₀.store.nextOffset + UInt64.ofNat (returned es).length := by
  have hq := PartitionStore.Run.queued (Run.store hr) h.store
  have heq := Run.returned_append_inProgress hr h.handler
  have hlen := congrArg List.length heq
  rw [registeredUpTo]
  rcases hp : s.inProgress with _ | ⟨o, rest⟩
  · rw [hp] at hlen
    simp only [List.length_append, List.length_map, List.length_nil, Nat.add_zero] at hlen
    rw [List.headD_nil, hq.nextOffset, hlen]
  · rw [List.headD_cons]
    have hget : ((appended es).map (·.offset))[(returned es).length]? = some o := by
      rw [← heq, hp, List.getElem?_append_right (by simp)]
      simp
    rw [List.getElem?_map, Option.map_eq_some_iff] at hget
    obtain ⟨r, hr', rfl⟩ := hget
    exact hq.consecutive _ _ hr'

/-! ## In time -/

/-- The commit callback is installed when it is due, the worker goes through commits of
    registered offsets only, and followers acknowledge registered offsets only. None of
    them has the id of the leader. -/
def Timely (s : Publishing κ) : Event κ → Prop
  | .stored e installed => e.toldOf ≠ [] → installed = true
  | .led (.processed qc _) => ∀ o, qc.Covers o → o < s.registeredUpTo
  | .led (.acked f a _) => a ≤ s.registeredUpTo ∧ f ≠ s.partition.leaderId
  | _ => True

/-- The ISR stays as it is. -/
def SteadyStep (maxLag : UInt64) (s : Publishing κ) (e : Event κ) (s' : Publishing κ) : Prop :=
  Step maxLag s e s' ∧ s'.partition.isrIds = s.partition.isrIds

/-- The steps of a broker that is in time, while the ISR stays as it is. -/
abbrev TimelyStep (maxLag : UInt64) : Publishing κ → Event κ → Publishing κ → Prop :=
  Guarded (SteadyStep maxLag) Timely

theorem Run.of_timely (hr : Run (TimelyStep maxLag) s₀ es s) : Run (Step maxLag) s₀ es s :=
  hr.mono fun h => h.1.1

/-- The worker or a follower has come upon the offset. -/
def Seen (es : List (Event κ)) (o : UInt64) : Prop :=
  Leader.Committed (leaderEvents es) o ∨ ∃ f, Leader.Acked (leaderEvents es) o f

theorem exists_of_mem_ofLeader_stored {e : PartitionStore.Event κ} {installed : Bool}
    {e' : Leader.Event} (he : e' ∈ (Event.stored e installed).ofLeader) :
    ∃ qc, e' = .enqueued qc := by
  rw [Event.ofLeader] at he
  split_ifs at he
  · simp only [commitOf] at he
    split at he
    · exact ⟨_, List.mem_singleton.1 he⟩
    · exact absurd he List.not_mem_nil
  · exact absurd he List.not_mem_nil

/-- Only the worker and the replication server come upon offsets. -/
theorem Event.eq_led {e' : Leader.Event} (he : e' ∈ e.ofLeader) :
    e = .led e' ∨ e'.commit = [] ∧ e'.ack = [] := by
  cases e with
  | appended | managed => exact absurd he List.not_mem_nil
  | returned offset fd =>
    rw [List.mem_singleton.1 he]
    exact .inr ⟨rfl, rfl⟩
  | stored e installed =>
    obtain ⟨qc, rfl⟩ := exists_of_mem_ofLeader_stored he
    exact .inr ⟨rfl, rfl⟩
  | led e => exact .inl (by rw [List.mem_singleton.1 he])

/-- In one step, the worker and the followers come upon registered offsets only. -/
theorem TimelyStep.seen (hst : TimelyStep maxLag s e s') {o : UInt64} (h : Seen (es ++ [e]) o) :
    Seen es o ∨ o < s.registeredUpTo := by
  obtain ⟨⟨hst, -⟩, hg⟩ := hst
  rw [Seen] at h ⊢
  rw [leaderEvents_snoc] at h
  rcases hst.leader_cases with ⟨he, -⟩ | ⟨e', he, -⟩
  · rw [he, List.append_nil] at h
    exact .inl h
  · -- What is new was come upon in a step of the worker or the server, which the guard is about.
    have hled := Event.eq_led (he ▸ List.mem_singleton_self e')
    rw [he, Leader.committed_snoc] at h
    simp only [Leader.acked_snoc] at h
    rcases h with (h | ⟨qc, hqc, hcov⟩) | ⟨f, h | ⟨a, ha, hlt⟩⟩
    · exact .inl (.inl h)
    · obtain rfl := hled.resolve_right fun hnil => by simp [hnil.1] at hqc
      cases e' with
      | processed qc' released =>
        obtain rfl := List.mem_singleton.1 hqc
        exact .inr (hg o hcov)
      | _ => exact absurd hqc List.not_mem_nil
    · exact .inl (.inr ⟨f, h⟩)
    · obtain rfl := hled.resolve_right fun hnil => by simp [hnil.2] at ha
      cases e' with
      | acked f' a' released =>
        obtain ⟨rfl, rfl⟩ := Prod.mk.inj (List.mem_singleton.1 ha)
        exact .inr (UInt64.lt_of_lt_of_le hlt hg.1)
      | _ => exact absurd ha List.not_mem_nil

theorem length_appended_le : (appended es).length ≤ (appended (es ++ [e])).length := by
  rw [appended_snoc, List.length_append]
  exact Nat.le_add_right _ _

theorem Run.length_returned_le (hr : Run (Step maxLag) s₀ es s) (h : Started s₀) :
    (returned es).length ≤ (appended es).length := by
  have := congrArg List.length (Run.returned_append_inProgress hr h.handler)
  simp only [List.length_append, List.length_map] at this
  omega

/-- The worker and the followers have come upon registered offsets only. -/
theorem Run.seen_lt (hr : Run (TimelyStep maxLag) s₀ es s) (h : Started s₀)
    (hlt : s₀.store.nextOffset.toNat + (appended es).length < 2 ^ 64) {o : UInt64}
    (ho : Seen es o) : o.toNat < s₀.store.nextOffset.toNat + (returned es).length := by
  refine hr.invariant (I := fun es _ => s₀.store.nextOffset.toNat + (appended es).length < 2 ^ 64 →
    ∀ o, Seen es o → o.toNat < s₀.store.nextOffset.toNat + (returned es).length) ?_ ?_ hlt o ho
  · rintro - o (⟨qc, hqc, -⟩ | ⟨f, a, ha, -⟩)
    · exact absurd hqc List.not_mem_nil
    · exact absurd ha List.not_mem_nil
  · intro es s e s' hr ih hst hlt o ho
    have hlt' := (Nat.add_le_add_left length_appended_le _).trans_lt hlt
    have hlen : (returned es).length ≤ (returned (es ++ [e])).length := by simp
    rcases hst.seen ho with ho | ho
    · exact (ih hlt' o ho).trans_le (Nat.add_le_add_left hlen _)
    · have hle := Run.length_returned_le (Run.of_timely hr) h
      rw [Run.registeredUpTo_eq (Run.of_timely hr) h, UInt64.lt_iff_toNat_lt,
        PartitionStore.toNat_add_ofNat (by omega)] at ho
      omega

/-- What is registered is the first offset that was not. -/
theorem Step.registration_eq (hst : Step maxLag s e s') {e' : Leader.Event} (he : e' ∈ e.ofLeader)
    {reg : UInt64 × Response} (hreg : reg ∈ e'.registration) : reg.1 = s.registeredUpTo := by
  cases hst with
  | append | manage => exact absurd he List.not_mem_nil
  | register hh hm =>
    obtain rfl := List.mem_singleton.1 he
    obtain rfl := List.mem_singleton.1 hreg
    simp [registeredUpTo, inProgress, hh]
  | store hst hacc =>
    obtain ⟨qc, rfl⟩ := exists_of_mem_ofLeader_stored he
    exact absurd hreg List.not_mem_nil
  | lead hm hst hw =>
    obtain rfl := List.mem_singleton.1 he
    cases e' with
    | registered => exact hw.elim
    | _ => exact absurd hreg List.not_mem_nil

/-- All that happens after the registration of an entry is noticed by it, and nothing has
    happened before. -/
theorem Run.noticed (hr : Run (TimelyStep maxLag) s₀ es s) (h : Started s₀)
    (hlt : s₀.store.nextOffset.toNat + (appended es).length < 2 ^ 64) :
    ∀ pa ∈ s.leader.manager.pending, Leader.Noticed (leaderEvents es) pa := by
  refine hr.invariant (I := fun es s => s₀.store.nextOffset.toNat + (appended es).length < 2 ^ 64 →
    ∀ pa ∈ s.leader.manager.pending, Leader.Noticed (leaderEvents es) pa) ?_ ?_ hlt
  · intro _ pa hpa
    rw [h.leader] at hpa
    exact absurd hpa List.not_mem_nil
  · intro es s e s' hr ih hst hlt
    have hlt' := (Nat.add_le_add_left length_appended_le _).trans_lt hlt
    rw [leaderEvents_snoc]
    rcases hst.1.1.leader_cases with ⟨he, hs⟩ | ⟨e', he, hlst⟩
    · rw [he, hs, List.append_nil]
      exact ih hlt'
    · rw [he]
      refine hlst.noticed (ih hlt') fun reg hreg => ?_
      -- The offset registered now is behind all those that anyone has come upon.
      have hle := Run.length_returned_le (Run.of_timely hr) h
      have hreg : reg.1.toNat = s₀.store.nextOffset.toNat + (returned es).length := by
        rw [hst.1.1.registration_eq (he ▸ List.mem_singleton_self e') hreg,
          Run.registeredUpTo_eq (Run.of_timely hr) h, PartitionStore.toNat_add_ofNat (by omega)]
      have hunseen : ¬Seen es reg.1 := fun hs => by
        have := Run.seen_lt hr h hlt' hs
        omega
      exact ⟨fun hc => hunseen (.inl hc), fun f hf => hunseen (.inr ⟨f, hf⟩)⟩

/-! ## The ISR -/

theorem Step.leaderId_eq (hst : Step maxLag s e s') :
    s'.partition.leaderId = s.partition.leaderId := by
  rcases hst.leader_cases with ⟨-, hs⟩ | ⟨e', -, hlst⟩
  · exact congrArg (·.partition.leaderId) hs
  · exact hlst.leaderId_eq

theorem Run.partition_eq (hr : Run (TimelyStep maxLag) s₀ es s) :
    s.partition.isrIds = s₀.partition.isrIds ∧ s.partition.leaderId = s₀.partition.leaderId :=
  hr.invariant (I := fun _ s => s.partition.isrIds = s₀.partition.isrIds ∧
    s.partition.leaderId = s₀.partition.leaderId) ⟨rfl, rfl⟩ fun _ ih hst =>
    ⟨hst.1.2.trans ih.1, hst.1.1.leaderId_eq.trans ih.2⟩

/-- The entries were registered with the ISR as it is. -/
theorem Run.registeredAt (hr : Run (TimelyStep maxLag) s₀ es s) (h : Started s₀) :
    ∀ pa ∈ s.leader.manager.pending, pa.registeredAt.isrIds = s₀.partition.isrIds ∧
      pa.registeredAt.leaderId = s₀.partition.leaderId := by
  refine hr.invariant (I := fun _ s => ∀ pa ∈ s.leader.manager.pending,
    pa.registeredAt.isrIds = s₀.partition.isrIds ∧
      pa.registeredAt.leaderId = s₀.partition.leaderId) ?_ ?_
  · intro pa hpa
    rw [h.leader] at hpa
    exact absurd hpa List.not_mem_nil
  · intro es s e s' hr ih hst
    rcases hst.1.1.leader_cases with ⟨-, hs⟩ | ⟨e', -, hlst⟩
    · rw [hs]
      exact ih
    · exact hlst.registeredAt (P := fun m => m.isrIds = s₀.partition.isrIds ∧
        m.leaderId = s₀.partition.leaderId) ih fun _ => Run.partition_eq hr

/-- No follower has the id of the leader. -/
theorem Run.follower_ne (hr : Run (TimelyStep maxLag) s₀ es s) {f : UInt32} {o : UInt64}
    (hf : Leader.Acked (leaderEvents es) o f) : f ≠ s₀.partition.leaderId := by
  refine hr.invariant (I := fun es _ => ∀ f o, Leader.Acked (leaderEvents es) o f →
    f ≠ s₀.partition.leaderId) ?_ ?_ f o hf
  · rintro f o ⟨a, ha, -⟩
    exact absurd ha List.not_mem_nil
  · intro es s e s' hr ih hst f o hf
    rw [leaderEvents_snoc] at hf
    rcases hst.1.1.leader_cases with ⟨he, -⟩ | ⟨e', he, -⟩
    · rw [he, List.append_nil] at hf
      exact ih f o hf
    · rw [he] at hf
      rcases Leader.acked_snoc.1 hf with hf | ⟨a, ha, -⟩
      · exact ih f o hf
      · obtain rfl := (Event.eq_led (he ▸ List.mem_singleton_self e')).resolve_right
          fun hnil => by simp [hnil.2] at ha
        cases e' with
        | acked f' a' released =>
          obtain ⟨rfl, rfl⟩ := Prod.mk.inj (List.mem_singleton.1 ha)
          exact (Run.partition_eq hr).2 ▸ hst.2.2
        | _ => exact absurd ha List.not_mem_nil

/-! ## Commits -/

/-- The commit of a batch covers its records. -/
theorem covers_of_numbered {cmd : Record} {rest : List Record} {n : ℕ}
    (hnum : Numbered n (cmd :: rest)) (hlt : n + (cmd :: rest).length < 2 ^ 64) {r : Record}
    (hr : r ∈ cmd :: rest) : (QueuedCommit.mk cmd.offset (cmd :: rest)).Covers r.offset := by
  obtain ⟨i, hi, rfl⟩ := List.mem_iff_getElem.1 hr
  have hcmd : cmd.offset.toNat = n := hnum.offset_getElem (i := 0) (by simp)
  have hoff := hnum.offset_getElem hi
  constructor
  · rw [UInt64.le_iff_toNat_le, hoff]
    exact hcmd.le.trans (Nat.le_add_right n i)
  · rw [UInt64.lt_iff_toNat_lt, PartitionStore.toNat_add_ofNat (hcmd ▸ hlt), hoff]
    exact hcmd ▸ Nat.add_lt_add_left hi n

/-- The callback queues a commit for every record it is called for. -/
theorem TimelyStep.covered (hst : TimelyStep maxLag s e s') {n : ℕ}
    (hnum : Numbered n s.store.unnotified) (hlt : n + s.store.unnotified.length < 2 ^ 64)
    {r : Record} (hr : r ∈ PartitionStore.notifiedRecords e.ofStore) :
    ∃ qc ∈ Leader.enqueued e.ofLeader, qc.Covers r.offset := by
  obtain ⟨⟨hst, -⟩, hg⟩ := hst
  cases hst with
  | append | manage | register | lead => exact absurd hr List.not_mem_nil
  | store hst hacc =>
    rw [Event.ofStore, PartitionStore.notifiedRecords, List.flatMap_singleton] at hr
    cases hst with
    | @notify batch hio =>
      rw [PartitionStore.unnotified, hio] at hnum hlt
      cases batch with
      | nil => exact absurd hr List.not_mem_nil
      | cons cmd rest =>
        rw [hg (List.cons_ne_nil cmd rest)]
        exact ⟨_, List.mem_singleton_self _, covers_of_numbered hnum hlt hr⟩
    | _ => exact absurd hr List.not_mem_nil

/-- The callback has queued a commit for every record it was called for. -/
theorem Run.covered (hr : Run (TimelyStep maxLag) s₀ es s) (h : Started s₀)
    (hlt : s₀.store.nextOffset.toNat + (appended es).length < 2 ^ 64) {r : Record}
    (hrec : r ∈ PartitionStore.notifiedRecords (storeEvents es)) :
    ∃ qc ∈ Leader.enqueued (leaderEvents es), qc.Covers r.offset := by
  refine hr.invariant (I := fun es _ => s₀.store.nextOffset.toNat + (appended es).length < 2 ^ 64 →
    ∀ r ∈ PartitionStore.notifiedRecords (storeEvents es),
      ∃ qc ∈ Leader.enqueued (leaderEvents es), qc.Covers r.offset) ?_ ?_ hlt r hrec
  · intro _ r hrec
    exact absurd hrec List.not_mem_nil
  · intro es s e s' hr ih hst hlt r hrec
    have hlt' := (Nat.add_le_add_left length_appended_le _).trans_lt hlt
    have hnew : r ∈ PartitionStore.notifiedRecords (storeEvents es) ∨
        r ∈ PartitionStore.notifiedRecords e.ofStore := by
      simpa [PartitionStore.notifiedRecords] using hrec
    have henq : Leader.enqueued (leaderEvents (es ++ [e])) =
        Leader.enqueued (leaderEvents es) ++ Leader.enqueued e.ofLeader := by
      simp [Leader.enqueued]
    rw [henq]
    rcases hnew with hnew | hnew
    · obtain ⟨qc, hqc, hcov⟩ := ih hlt' r hnew
      exact ⟨qc, List.mem_append_left _ hqc, hcov⟩
    · -- The batch goes on where the ones before it ended, so its commit covers what it should.
      obtain ⟨n, hnum, hn⟩ :=
        PartitionStore.Run.numbered_unnotified (Run.store (Run.of_timely hr)) h.store hlt'
      obtain ⟨qc, hqc, hcov⟩ := hst.covered hnum hn hnew
      exact ⟨qc, List.mem_append_right _ hqc, hcov⟩

/-! ## Responses -/

theorem Step.posted_eq (hst : Step maxLag s e s') :
    s'.posted = s.posted ++ e.ofLeader.flatMap Leader.Event.passed := by
  cases hst with
  | append | manage | register => exact (List.append_nil s.posted).symm
  | store hst hacc =>
    rw [List.flatMap_eq_nil_iff.2 fun e' he => ?_, List.append_nil]
    obtain ⟨qc, rfl⟩ := exists_of_mem_ofLeader_stored he
    rfl
  | lead hm hst hw => rw [Event.ofLeader, List.flatMap_singleton]

/-- What is handed out is posted, or in the hands of the worker. -/
theorem Run.posted (hr : Run (Step maxLag) s₀ es s) {x : Response}
    (hx : x ∈ Leader.responses (leaderEvents es)) : x ∈ s.posted ∨ x ∈ s.leader.toSend := by
  refine hr.invariant (I := fun es s => ∀ x ∈ Leader.responses (leaderEvents es),
    x ∈ s.posted ∨ x ∈ s.leader.toSend) ?_ ?_ x hx
  · intro x hx
    exact absurd hx List.not_mem_nil
  · intro es s e s' hr ih hst x hx
    rw [leaderEvents_snoc] at hx
    rw [hst.posted_eq]
    rcases hst.leader_cases with ⟨he, hs⟩ | ⟨e', he, hlst⟩
    · rw [he, List.append_nil] at hx
      rw [he, hs, List.flatMap_nil, List.append_nil]
      exact ih x hx
    · rw [he, Leader.responses_snoc, List.mem_append] at hx
      rw [he, List.flatMap_singleton, List.mem_append, or_assoc]
      rcases hx with hx | hx
      · exact (ih x hx).imp_right fun hs => hlst.mem_passed (.inl hs)
      · exact .inr (hlst.mem_passed (.inr hx))

theorem mem_registrations {o : UInt64} {fd : ℤ} (h : (o, fd) ∈ returned es) :
    (o, fd, encodeAck o) ∈ Leader.registrations (leaderEvents es) := by
  obtain ⟨e, he, hret⟩ := List.mem_flatMap.1 h
  cases e with
  | returned offset fd' =>
    obtain ⟨rfl, rfl⟩ := Prod.mk.inj (List.mem_singleton.1 hret)
    exact List.mem_flatMap.2
      ⟨_, List.mem_flatMap.2 ⟨_, he, List.mem_singleton_self _⟩, List.mem_singleton_self _⟩
  | _ => exact absurd hret List.not_mem_nil

/-- All is done for the offset: its record is committed, the callback has been called for it,
    the worker has gone through the commits, and all followers in sync have acknowledged it. -/
structure Settled (es : List (Event κ)) (s : Publishing κ) (o : UInt64) : Prop where
  committed : o < s.store.committedOffset
  notified : ∀ r ∈ s.store.unnotified, r.offset ≠ o
  worker : s.leader.manager.worker = .waiting
  commitQueue : s.leader.manager.commitQueue = []
  acked : ∀ f ∈ s.partition.isrIds, f ≠ s.partition.leaderId → Leader.Acked (leaderEvents es) o f

/-- The callback was called for a deferred record whose commit is behind it. -/
theorem Run.mem_notifiedRecords (hr : Run (Step maxLag) s₀ es s) (h : Started s₀)
    (hlt : s₀.store.nextOffset.toNat + (appended es).length < 2 ^ 64) {o : UInt64} {fd : ℤ}
    (hret : (o, fd) ∈ returned es) (hs : Settled es s o) :
    ∃ r ∈ PartitionStore.notifiedRecords (storeEvents es), r.offset = o := by
  have hstore := Run.store hr
  have hq := PartitionStore.Run.queued hstore h.store
  have hmem : o ∈ (appended es).map (·.offset) := by
    rw [← Run.returned_append_inProgress hr h.handler]
    exact List.mem_append_left _ (List.mem_map.2 ⟨_, hret, rfl⟩)
  obtain ⟨r, hr', rfl⟩ := List.mem_map.1 hmem
  obtain ⟨i, hi, rfl⟩ := List.mem_iff_getElem.1 hr'
  -- The record is below the committed offset, so it is among those written.
  have hoff := (hq.consecutive.numbered hlt).offset_getElem hi
  have hcom := UInt64.lt_iff_toNat_lt.1 hs.committed
  rw [hq.toNat_committedOffset hlt, hoff] at hcom
  have hw : (appended es)[i] ∈ PartitionStore.writtenRecords (storeEvents es) := by
    have hpre : PartitionStore.writtenRecords (storeEvents es) <+: appended es :=
      ⟨_, (List.append_assoc _ _ _).symm.trans hq.accepted_eq⟩
    rw [← hpre.getElem (by omega)]
    exact List.getElem_mem _
  rw [← PartitionStore.Run.notified_append_unnotified hstore h.store] at hw
  rcases List.mem_append.1 hw with hw | hw
  · exact ⟨_, hw, rfl⟩
  · exact absurd rfl (hs.notified _ hw)

/-- The worker has seen the commit of the offset. -/
theorem Run.committed (hr : Run (TimelyStep maxLag) s₀ es s) (h : Started s₀)
    (hlt : s₀.store.nextOffset.toNat + (appended es).length < 2 ^ 64) {o : UInt64} {fd : ℤ}
    (hret : (o, fd) ∈ returned es) (hs : Settled es s o) :
    Leader.Committed (leaderEvents es) o := by
  obtain ⟨r, hrec, rfl⟩ := Run.mem_notifiedRecords (Run.of_timely hr) h hlt hret hs
  obtain ⟨qc, hqc, hcov⟩ := Run.covered hr h hlt hrec
  have hnil : s₀.leader.carried = [] := by rw [Leader.carried, h.leader]
  have hcar := Leader.Run.commits_append_carried (Run.leader (Run.of_timely hr)) hnil
  rw [Leader.carried, hs.worker, hs.commitQueue, List.append_nil] at hcar
  exact ⟨qc, hcar ▸ hqc, hcov⟩

/-- In every run of a broker that has just opened the partition, if the callback is there
    when it is due, and the worker and the followers do not get ahead of the registration,
    while the ISR stays as it is: when the publish request has been deferred, and all is done
    for its offset, its acknowledgement has been posted, and no entry is left for it. -/
theorem posted_of_timely (h : Started s₀) (hnodup : s₀.partition.isrIds.Nodup)
    (hr : Run (TimelyStep maxLag) s₀ es s)
    (hlt : s₀.store.nextOffset.toNat + (appended es).length < 2 ^ 64) {o : UInt64} {fd : ℤ}
    (hret : (o, fd) ∈ returned es) (hs : Settled es s o) :
    (fd, encodeAck o) ∈ s.posted ∧ ∀ pa ∈ s.leader.manager.pending, pa.offset ≠ o := by
  have hrun := Run.of_timely hr
  have hnil : s₀.leader.manager.pending = [] := by rw [h.leader]
  -- An entry for the offset would be complete by now, and such entries are not kept.
  have hgone : ∀ pa ∈ s.leader.manager.pending, pa.offset ≠ o := by
    rintro pa hpa rfl
    have ht := Leader.Run.tracked (Run.leader hrun) hnil pa hpa
    obtain ⟨hisr, hid⟩ := Run.registeredAt hr h pa hpa
    obtain ⟨hisr', hid'⟩ := Run.partition_eq hr
    have hd : Leader.Durable (leaderEvents es) pa := by
      refine ⟨Run.committed hr h hlt hret hs, fun f hf hne => hs.acked f ?_ ?_⟩
      · rwa [hisr', ← hisr]
      · rwa [hid', ← hid]
    refine Leader.Run.incomplete (Run.leader hrun) hnil pa hpa
      (hd.complete ht (Run.noticed hr h hlt pa hpa) (hisr ▸ hnodup) fun hmem => ?_)
    exact Run.follower_ne hr (ht.acked _ hmem) hid
  refine ⟨?_, hgone⟩
  -- So the response has been handed out, and the worker, which waits, does not hold it back.
  rcases Leader.Run.outstanding (Run.leader hrun) hnil _ (mem_registrations hret)
    (encodeFrame_ne_nil _ _) with ⟨pa, hpa, hoff, -⟩ | hresp
  · exact absurd hoff (hgone pa hpa)
  · refine (Run.posted hrun hresp).resolve_right ?_
    rw [Leader.toSend, hs.worker]
    exact List.not_mem_nil

/-! ## Two orders

The event loop and the I/O thread of a broker with one follower, in two orders: the
record is committed before its acknowledgement is registered, or after. -/

section

/-- A run of the store, with the callback installed. -/
theorem Run.stored {es' : List (PartitionStore.Event κ)} {store' : PartitionStore κ}
    {rm : ReplicaManager} (hr : Run PartitionStore.Step s.store es' store')
    (hacc : ∀ e ∈ es', e.accepted = []) (hm : s.manager = some rm) :
    Run (TimelyStep maxLag) s (es'.map (.stored · true))
      { s with store := store', manager := some (es'.foldl commitCallback rm) } := by
  induction hr with
  | nil =>
    rw [List.foldl_nil, ← hm]
    exact .nil
  | @snoc es' t t' e _ hst ih =>
    rw [List.map_append, List.foldl_append]
    refine (ih fun e he => hacc e (List.mem_append_left _ he)).snoc ⟨⟨?_, rfl⟩, fun _ => rfl⟩
    exact .store hst (hacc e (List.mem_append_right _ (List.mem_singleton_self e)))

/-- The broker `0` leads a partition that the broker `1` follows. -/
def twoInSync : PartitionMeta where
  topic := []
  role := .leader
  replicas := [{ brokerId := 0 }, { brokerId := 1 }]

/-- The store of the partition, which is empty. -/
def emptyStore : PartitionStore Unit := PartitionStore.open ∅ {}

/-- The commit of the first record. -/
def firstQueued : QueuedCommit := ⟨0, [emptyStore.command .empty 0]⟩

/-- The entry of the first record. -/
def firstPending (m : PartitionMeta) : PendingAck where
  offset := 0
  ackResponse := encodeAck 0
  producerFd := 5
  isrRequired := 1
  registeredAt := m

/-- The metadata when the leader has committed the first record. -/
def committedMeta : PartitionMeta :=
  (Leader.finishCommit ⟨{}, twoInSync⟩ firstQueued).partition

theorem registerPending_first {rm : ReplicaManager} {m : PartitionMeta}
    (hreq : ReplicaManager.isrRequired m = 1) :
    rm.registerPending m 0 (encodeAck 0) 5 =
      { rm with pending := rm.pending ++ [firstPending m] } := by
  rw [ReplicaManager.registerPending, hreq]
  rfl

/-- The broker, with the threads at the places given. -/
def broker (store : PartitionStore Unit) (rm : ReplicaManager) (m : PartitionMeta)
    (handler : Handler) : Publishing Unit :=
  ⟨store, some rm, m, handler, []⟩

theorem idle_emptyStore : emptyStore.Idle := ⟨rfl, rfl, rfl, rfl⟩

theorem append_emptyStore_accepted : (emptyStore.append .empty 0).1.accepted = true :=
  idle_emptyStore.append_accepted (by decide) (by decide)

theorem step_append (rm : ReplicaManager) (m : PartitionMeta) :
    TimelyStep 1000 (broker emptyStore rm m .idle) (.appended (emptyStore.command .empty 0))
      (broker (emptyStore.enqueue .empty 0) rm m (.appended 0 5)) :=
  ⟨⟨.append .empty 0 5 rfl append_emptyStore_accepted, rfl⟩, trivial⟩

/-- The event loop registers the acknowledgement. -/
theorem run_register {store : PartitionStore Unit} {rm : ReplicaManager} {m : PartitionMeta}
    (hreq : ReplicaManager.isrRequired m = 1) :
    Run (TimelyStep 1000) (broker store rm m (.appended 0 5)) [.managed, .returned 0 5]
      (broker store { rm with pending := rm.pending ++ [firstPending m] } m .idle) := by
  rw [← registerPending_first hreq]
  exact .cons ⟨⟨.manage rfl, rfl⟩, trivial⟩ (.single ⟨⟨.register rfl rfl, rfl⟩, trivial⟩)

/-- The I/O thread commits the record. -/
theorem run_commit (rm : ReplicaManager) (m : PartitionMeta) (handler : Handler) :
    Run (TimelyStep 1000) (broker (emptyStore.enqueue .empty 0) rm m handler)
      ((emptyStore.notifyOneEvents .empty 0).map (.stored · true))
      (broker (emptyStore.notifiedOne .empty 0) (rm.enqueueCommitted firstQueued) m
        handler) := by
  have hr := @PartitionStore.Idle.run_notifiedOne _ _ .empty 0 idle_emptyStore (by decide)
    (by decide)
  exact Run.stored hr (by simp [PartitionStore.notifyOneEvents, PartitionStore.Event.accepted]) rfl

/-- A step of the leader in which nothing is posted. -/
theorem step_lead {store : PartitionStore Unit} {rm : ReplicaManager} {m : PartitionMeta}
    {handler : Handler} {e : Leader.Event} (rm' : ReplicaManager) (m' : PartitionMeta)
    (hst : Leader.Step 1000 ⟨rm, m⟩ e ⟨rm', m'⟩) (hw : ByWorker e) (hp : e.passed = [])
    (hisr : m'.isrIds = m.isrIds) :
    SteadyStep 1000 (broker store rm m handler) (.led e) (broker store rm' m' handler) := by
  have hlead : Step 1000 (broker store rm m handler) (.led e)
      ⟨store, some rm', m', handler, [] ++ e.passed⟩ := .lead rfl hst hw
  rw [hp] at hlead
  exact ⟨hlead, hisr⟩

/-- The metadata when the follower has acknowledged the first record. -/
def ackedMeta : PartitionMeta :=
  committedMeta.onReplicaAck 1 1 1000 committedMeta.leaderCommittedOffset

/-- It is the only follower in sync. -/
theorem eq_one_of_mem_ackedMeta {f : UInt32} (hf : f ∈ ackedMeta.isrIds)
    (hne : f ≠ ackedMeta.leaderId) : f = 1 := by
  have hisr : ackedMeta.isrIds = [ackedMeta.leaderId, 1] := by decide
  rw [hisr] at hf
  simpa [hne] using hf

/-- The worker comes first: the entry is registered when the commit has been gone through. -/
def lateEvents : List (Event Unit) :=
  .appended (emptyStore.command .empty 0) ::
    ((emptyStore.notifyOneEvents .empty 0).map (.stored · true) ++
      ([.led .popped, .led (.processed firstQueued []), .led (.posted []), .led .finished] ++
        ([.managed, .returned 0 5] ++ [.led (.acked 1 1 [])])))

/-- The entry that is left. -/
def late : Publishing Unit :=
  broker (emptyStore.notifiedOne .empty 0) { pending := [(firstPending committedMeta).count 1] }
    ackedMeta .idle

theorem run_late :
    Run (SteadyStep 1000) (broker emptyStore {} twoInSync .idle) lateEvents late := by
  have hreq : ReplicaManager.isrRequired committedMeta = 1 := by decide +kernel
  have hcommit := (run_commit {} twoInSync (.appended 0 5)).of_guarded
  have hworker : Run (SteadyStep 1000)
      (broker (emptyStore.notifiedOne .empty 0) { commitQueue := [firstQueued] } twoInSync
        (.appended 0 5))
      [.led .popped, .led (.processed firstQueued []), .led (.posted []), .led .finished]
      (broker (emptyStore.notifiedOne .empty 0) {} committedMeta (.appended 0 5)) :=
    .cons (step_lead { worker := .popped firstQueued } twoInSync (.pop rfl rfl) trivial rfl rfl) <|
    .cons (step_lead { worker := .swept firstQueued [] } twoInSync (.process rfl) trivial rfl
      rfl) <|
    .cons (step_lead { worker := .posted firstQueued } twoInSync (.post rfl) trivial rfl rfl) <|
    .single (step_lead {} committedMeta (@Leader.Step.finish 1000 _ firstQueued rfl) trivial rfl
      rfl)
  have hregister := (@run_register (emptyStore.notifiedOne .empty 0) {} _ hreq).of_guarded
  have hack : SteadyStep 1000
      (broker (emptyStore.notifiedOne .empty 0) { pending := [firstPending committedMeta] }
        committedMeta .idle) (.led (.acked 1 1 [])) late :=
    step_lead _ _ (.ack 1 1) trivial rfl rfl
  exact .cons (step_append {} twoInSync).1 (hcommit.append (hworker.append (hregister.snoc hack)))

theorem settled_late : Settled lateEvents late 0 := by
  refine ⟨by decide, fun r hr => absurd hr List.not_mem_nil, rfl, rfl, fun f hf hne => ?_⟩
  rw [eq_one_of_mem_ackedMeta hf hne]
  exact ⟨1, by decide, by decide⟩

/-- The entry is registered first, as it should be. -/
def timelyEvents : List (Event Unit) :=
  .appended (emptyStore.command .empty 0) ::
    ([.managed, .returned 0 5] ++
      ((emptyStore.notifyOneEvents .empty 0).map (.stored · true) ++
        ([.led .popped, .led (.processed firstQueued []), .led (.posted []), .led .finished] ++
          [.led (.acked 1 1 [(firstPending twoInSync).mark])])))

/-- The acknowledgement is posted. -/
def timely : Publishing Unit :=
  ⟨emptyStore.notifiedOne .empty 0, some {}, ackedMeta, .idle, [(5, encodeAck 0)]⟩

theorem run_timely :
    Run (TimelyStep 1000) (broker emptyStore {} twoInSync .idle) timelyEvents timely := by
  have hreq : ReplicaManager.isrRequired twoInSync = 1 := by decide +kernel
  have hregister := @run_register (emptyStore.enqueue .empty 0) {} _ hreq
  have hcommit := run_commit { pending := [firstPending twoInSync] } twoInSync .idle
  have hworker : Run (TimelyStep 1000)
      (broker (emptyStore.notifiedOne .empty 0)
        { pending := [firstPending twoInSync], commitQueue := [firstQueued] } twoInSync .idle)
      [.led .popped, .led (.processed firstQueued []), .led (.posted []), .led .finished]
      (broker (emptyStore.notifiedOne .empty 0) { pending := [(firstPending twoInSync).mark] }
        committedMeta .idle) :=
    .cons ⟨step_lead { pending := [firstPending twoInSync], worker := .popped firstQueued }
      twoInSync (.pop rfl rfl) trivial rfl rfl, trivial⟩ <|
    .cons ⟨step_lead
      { pending := [(firstPending twoInSync).mark], worker := .swept firstQueued [] } twoInSync
      (.process rfl) trivial rfl rfl, fun o ho => ho.2⟩ <|
    .cons ⟨step_lead { pending := [(firstPending twoInSync).mark], worker := .posted firstQueued }
      twoInSync (.post rfl) trivial rfl rfl, trivial⟩ <|
    .single ⟨step_lead { pending := [(firstPending twoInSync).mark] } committedMeta
      (@Leader.Step.finish 1000 _ firstQueued rfl) trivial rfl rfl, trivial⟩
  have hack : TimelyStep 1000
      (broker (emptyStore.notifiedOne .empty 0) { pending := [(firstPending twoInSync).mark] }
        committedMeta .idle) (.led (.acked 1 1 [(firstPending twoInSync).mark])) timely :=
    ⟨⟨.lead rfl (.ack 1 1) trivial, rfl⟩, by decide, by decide⟩
  exact .cons (step_append {} twoInSync) (hregister.append (hcommit.append (hworker.snoc hack)))

theorem settled_timely : Settled timelyEvents timely 0 := by
  refine ⟨by decide, fun r hr => absurd hr List.not_mem_nil, rfl, rfl, fun f hf hne => ?_⟩
  rw [eq_one_of_mem_ackedMeta hf hne]
  exact ⟨1, by decide, by decide⟩

theorem started_broker : Started (broker emptyStore {} twoInSync .idle) :=
  ⟨PartitionStore.fresh_open _ _, rfl, rfl⟩

theorem posted_timely : (5, encodeAck 0) ∈ timely.posted ∧
    ∀ pa ∈ timely.leader.manager.pending, pa.offset ≠ 0 :=
  posted_of_timely started_broker (by decide) run_timely (by decide) (by decide) settled_timely

/-- An acknowledgement is lost if the commit is gone through before it is registered. -/
theorem not_forall_posted : ¬∀ (maxLag : UInt64) (s₀ s : Publishing Unit) (es : List (Event Unit))
    (o : UInt64) (fd : ℤ), Started s₀ → s₀.partition.isrIds.Nodup →
      Run (SteadyStep maxLag) s₀ es s →
      s₀.store.nextOffset.toNat + (appended es).length < 2 ^ 64 →
      (o, fd) ∈ returned es → Settled es s o →
      (fd, encodeAck o) ∈ s.posted ∧ ∀ pa ∈ s.leader.manager.pending, pa.offset ≠ o := by
  intro hall
  obtain ⟨-, hgone⟩ := hall 1000 _ late lateEvents 0 5 started_broker (by decide) run_late
    (by decide) (by decide) settled_late
  exact hgone _ (List.mem_singleton_self _) rfl

end

end Publishing

end Fell.Broker
