import Fell.Replication.Follower
import Fell.Replication.ReplicaManager

/-!
# The progress of a follower, as its leader knows it

When a record of a follower is committed, its callback queues a `ReplicaAck` in
`out_acks_`, which the event loop of the client takes out and sends, if it is connected
(`replication/replication_client.cpp`). The leader keeps the offset acknowledged last
(`ReplicaState::ack_offset`), and counts the follower for the entries below it. The
request of a follower that connects again carries its committed offset, which the leader
does not look at for this.

The system is put together from the follower, its leader, and the acknowledgements in
between: those queued, those sent over the present connection, which arrive in order, and
those left of connections that are closed, which may arrive or be dropped. As for the follower
alone, what `on_readable` does to its buffer after a rejected frame is left out.

* `Follower.Run.tracking`: a callback acknowledges each record of the follower that is
  not yet acknowledged, if frames are let through only when nothing is queued;
* `Run.accounted`: the last acknowledgement is on its way, or the leader knows it;
* `acknowledged`: so in a quiescent state the leader knows the committed offset of the
  follower, if no acknowledgement is dropped (`Kept`).
-/

namespace Fell.Replication

open Platform Storage

/-! ## The callbacks of a follower -/

namespace Follower

variable {brokerId : UInt32} {s s' s₀ : Follower} {e : Event} {es : List Event}

/-- The acknowledgements that are queued by the callbacks called in a step. -/
def Event.fired : Event → List ReplicaAck
  | .registered _ _ fired => fired
  | .stored e => e.fired
  | _ => []

/-- Only the client registers callbacks. -/
def Event.Own : Event → Prop
  | .stored (.registered ..) => False
  | _ => True

/-- Frames are let through only if nothing is queued or in flight, and only the client registers
    callbacks. -/
def InTurn (s : Follower) (e : Event) : Prop := s.Drained e ∧ e.Own

/-- Callbacks acknowledge the records they are registered for, and there is one for each record
    that is accepted and not told of. -/
structure Tracking (brokerId : UInt32) (s : Follower) : Prop where
  callbacks : ∀ c ∈ s.store.onceCallbacks, c.2.ackedOffset = c.1 + 1 ∧ c.2.followerId = brokerId
  outstanding : ∀ r ∈ s.store.outstanding, ∃ ack, (r.offset, ack) ∈ s.store.onceCallbacks
  client : ∀ r ∈ s.client.record, s.store.inFlight = [] ∧ s.store.queue = [] ∧
    r.offset = s.store.committedOffset
  registered : ∀ epoch r, s.client = .registered epoch r →
    ∃ ack, (r.offset, ack) ∈ s.store.onceCallbacks

/-- A follower whose partition has just been opened. -/
structure Opened (s : Follower) : Prop where
  store : s.store.Fresh
  onceCallbacks : s.store.onceCallbacks = []
  client : s.client = .idle

/-- No offset of the run reaches `2 ^ 64`. -/
def Fits (s₀ : Follower) (es : List Event) : Prop :=
  s₀.store.nextOffset.toNat + (appended es).length < 2 ^ 64

/-- The offset up to which the callbacks have been called. -/
def told (s₀ : Follower) (es : List Event) : ℕ :=
  s₀.store.nextOffset.toNat + (PartitionStore.notifiedRecords (storeEvents es)).length

theorem Fits.of_append {es' : List Event} (h : Fits s₀ (es ++ es')) : Fits s₀ es := by
  rw [Fits, appended, storeEvents, List.flatMap_append, PartitionStore.accepted,
    List.flatMap_append, List.length_append] at h
  exact Nat.lt_of_le_of_lt (Nat.add_le_add_left (Nat.le_add_right _ _) _) h

theorem told_snoc :
    told s₀ (es ++ [e]) = told s₀ es + (PartitionStore.notifiedRecords e.ofStore).length := by
  rw [told, storeEvents_snoc, PartitionStore.notifiedRecords, List.flatMap_append,
    List.length_append, ← Nat.add_assoc]
  rfl

/-- What the callbacks have been called for lies before what is committed. -/
theorem Run.told_add (hr : Run (Step brokerId) s₀ es s) (h : Opened s₀) (hfit : Fits s₀ es) :
    told s₀ es + s.store.unnotified.length = s.store.committedOffset.toNat := by
  have hrun := Run.store hr
  have hlen := congrArg List.length (PartitionStore.Run.notified_append_unnotified hrun h.store)
  rw [List.length_append] at hlen
  rw [(PartitionStore.Run.queued hrun h.store).toNat_committedOffset hfit, told]
  omega

/-- The steps that leave the store and the client alone. -/
theorem Tracking.of_eq (h : Tracking brokerId s) (hstore : s'.store = s.store)
    (hclient : s'.client = s.client) : Tracking brokerId s' where
  callbacks := hstore ▸ h.callbacks
  outstanding := hstore ▸ h.outstanding
  client := by
    rw [hclient, hstore]
    exact h.client
  registered := by
    rw [hclient, hstore]
    exact h.registered

/-- What the I/O thread does. -/
theorem Tracking.store {e : PartitionStore.Event ReplicaAck} {store : PartitionStore ReplicaAck}
    (h : Tracking brokerId s) (hr : Run (Step brokerId) s₀ es s) (ho : Opened s₀)
    (hst : PartitionStore.Step s.store e store) (hacc : e.accepted = [])
    (hown : Event.Own (.stored e)) (hfit : Fits s₀ (es ++ [.stored e])) :
    Tracking brokerId { s with store } := by
  have hrun := Run.store hr
  have hidle := PartitionStore.Run.idle_step hrun ho.store hst hacc
  have hrest := PartitionStore.Run.outstanding_eq hrun ho.store hst
  rw [hacc, List.append_nil] at hrest
  have hold : ∀ r ∈ store.outstanding, r ∈ s.store.outstanding := fun r hr =>
    hrest ▸ List.mem_append_right _ hr
  have hclient : ∀ r ∈ s.client.record, store.inFlight = [] ∧ store.queue = [] ∧
      r.offset = store.committedOffset := fun r hrec => by
    obtain ⟨hin, hqueue, hoff⟩ := h.client r hrec
    obtain ⟨hin', hqueue', hcom⟩ := hidle hin hqueue
    exact ⟨hin', hqueue', hcom ▸ hoff⟩
  rcases hst.callback_cases (PartitionStore.Run.loaded hrun ho.store.loaded) with
    ⟨-, -, hsame⟩ | ⟨offset, cb, fired, rfl⟩ | ⟨batch, hio, rfl, rfl⟩
  · exact ⟨hsame ▸ h.callbacks, fun r hr => hsame ▸ h.outstanding r (hold r hr), hclient,
      hsame ▸ h.registered⟩
  · exact hown.elim
  · -- What is outstanding after the callbacks were called is not committed.
    have hkept : ∀ {offset : UInt64} {ack : ReplicaAck}, ¬offset < s.store.committedOffset →
        (offset, ack) ∈ s.store.onceCallbacks →
        (offset, ack) ∈ (s.store.fireOnceCallbacks s.store.committedOffset).2.onceCallbacks :=
      fun hle hmem => List.mem_filter.2 ⟨hmem, by simpa using hle⟩
    refine ⟨fun c hc => h.callbacks c (List.mem_of_mem_filter hc), fun r hr₁ => ?_, hclient,
      fun epoch r hc => ?_⟩
    · obtain ⟨ack, hack⟩ := h.outstanding r (hold r hr₁)
      refine ⟨ack, hkept ?_ hack⟩
      have hr' := hr.snoc (.store hst hacc)
      have hnumbered := PartitionStore.Run.numbered_outstanding (Run.store hr') ho.store hfit
      have hle := hnumbered.le_offset hr₁
      have htold := Run.told_add hr' ho hfit
      rw [UInt64.lt_iff_toNat_lt, Nat.not_lt]
      exact (htold ▸ hle : s.store.committedOffset.toNat ≤ r.offset.toNat)
    · obtain ⟨ack, hack⟩ := h.registered epoch r hc
      obtain ⟨-, -, hoff⟩ := h.client r (by rw [hc]; exact List.mem_singleton_self _)
      exact ⟨ack, hkept (hoff ▸ UInt64.lt_irrefl _) hack⟩

theorem Step.tracking (hst : Step brokerId s e s') (hG : s.InTurn e)
    (hr : Run (Step brokerId) s₀ es s) (ho : Opened s₀) (hfit : Fits s₀ (es ++ [e]))
    (h : Tracking brokerId s) : Tracking brokerId s' := by
  have hq := PartitionStore.Run.queued (Run.store hr) ho.store
  cases hst with
  | commit | connect | accept | resend | resendEnd | stream | gap | syncEnd | lose =>
    exact h.of_eq rfl rfl
  | pass hi hc hoff =>
    refine ⟨h.callbacks, h.outstanding, fun r hrec => ?_, fun epoch r hclient => ?_⟩
    · rw [List.mem_singleton.1 hrec, hoff, PartitionStore.nextOffsetOfWriter, hq.writerNextOffset,
        hq.committedOffset]
      exact ⟨hG.1.1, hG.1.2, rfl⟩
    · simp at hclient
  | @register epoch record hi =>
    -- The record is not committed, so that the callback is kept.
    obtain ⟨hin, hqueue, hoff⟩ := h.client record (by rw [hi]; exact List.mem_singleton_self _)
    have hlt : ¬record.offset < s.store.committedOffset := hoff ▸ UInt64.lt_irrefl _
    have hstore : (s.store.setOnceCommitCallback record.offset (ackOf brokerId epoch record)).2 =
        { s.store with
          onceCallbacks := s.store.onceCallbacks ++
            [(record.offset, ackOf brokerId epoch record)] } := by
      rw [PartitionStore.setOnceCommitCallback, if_neg hlt]
    rw [hstore]
    refine ⟨fun c hc => ?_, fun r hrec => ?_, fun r hrec => ?_, fun epoch' r hclient => ?_⟩
    · rcases List.mem_append.1 hc with hc | hc
      · exact h.callbacks c hc
      · rw [List.mem_singleton.1 hc]
        exact ⟨rfl, rfl⟩
    · obtain ⟨ack, hack⟩ := h.outstanding r hrec
      exact ⟨ack, List.mem_append_left _ hack⟩
    · exact h.client r (by rw [hi]; exact hrec)
    · obtain ⟨rfl, rfl⟩ := Client.registered.inj hclient
      exact ⟨_, List.mem_append_right _ (List.mem_singleton_self _)⟩
  | @append epoch record now hi hacc =>
    obtain ⟨hin, hqueue, hoff⟩ := h.client record (by rw [hi]; exact List.mem_singleton_self _)
    obtain ⟨ack, hack⟩ := h.registered epoch record hi
    -- With nothing queued or in flight, the record gets the offset it comes with.
    have hnext : (s.store.command record.payload now).offset = record.offset := by
      have heq := hq.accepted_eq
      rw [hin, hqueue, List.append_nil, List.append_nil] at heq
      rw [hoff, hq.committedOffset, heq, ← hq.nextOffset]
      rfl
    rw [PartitionStore.append_of_accepted hacc]
    refine ⟨h.callbacks, fun r hrec => ?_, fun r hrec => absurd hrec List.not_mem_nil,
      fun epoch r hclient => by simp at hclient⟩
    change r ∈ s.store.unnotified ++ (s.store.inFlight ++ (s.store.queue ++ [_])) at hrec
    rw [← List.append_assoc, ← List.append_assoc, List.append_assoc _ _ s.store.queue] at hrec
    rcases List.mem_append.1 hrec with hrec | hrec
    · exact h.outstanding r hrec
    · rw [List.mem_singleton.1 hrec]
      exact ⟨ack, hnext.symm ▸ hack⟩
  | refuse now hi hrej =>
    rw [PartitionStore.append_of_rejected hrej]
    exact ⟨h.callbacks, h.outstanding, fun r hrec => absurd hrec List.not_mem_nil,
      fun epoch r hclient => by simp at hclient⟩
  | store hst hacc => exact h.store hr ho hst hacc hG.2 hfit

theorem Run.tracking (hr : Run (Guarded (Step brokerId) InTurn) s₀ es s) (ho : Opened s₀)
    (hfit : Fits s₀ es) : Tracking brokerId s := by
  refine hr.invariant (I := fun es s => Fits s₀ es → Tracking brokerId s) (fun _ => ?_) ?_ hfit
  · have hout : s₀.store.outstanding = [] := by
      simp [PartitionStore.outstanding, PartitionStore.unnotified, PartitionStore.inFlight,
        ho.store.io, ho.store.queue]
    refine ⟨?_, ?_, ?_, ?_⟩ <;> simp [ho.onceCallbacks, hout, ho.client, Client.record]
  · intro es s e s' hr ih hst hfit
    exact hst.1.tracking hst.2 hr.of_guarded ho hfit (ih hfit.of_append)

/-- With these acknowledgements of the follower, what is acknowledged comes from one offset to
    another. -/
def Acknowledges (brokerId : UInt32) (acks : List ReplicaAck) (start stop : ℕ) : Prop :=
  (∀ ack ∈ acks, ack.followerId = brokerId ∧ ack.ackedOffset.toNat ≤ stop) ∧
    (stop = start ∨ ∃ ack ∈ acks, ack.ackedOffset.toNat = stop)

theorem acknowledges_nil (brokerId : UInt32) (n : ℕ) : Acknowledges brokerId [] n n :=
  ⟨fun _ hack => absurd hack List.not_mem_nil, .inl rfl⟩

/-- The I/O thread calls the callbacks. -/
theorem Tracking.notify {batch : List Record} (h : Tracking brokerId s)
    (hr : Run (Step brokerId) s₀ es s) (ho : Opened s₀) (hfit : Fits s₀ es)
    (hio : s.store.io = .written batch) :
    Acknowledges brokerId (s.store.fireOnceCallbacks s.store.committedOffset).1 (told s₀ es)
      s.store.committedOffset.toNat := by
  have hbatch : s.store.unnotified = batch := by rw [PartitionStore.unnotified, hio]
  have hout : s.store.outstanding = batch ++ (s.store.inFlight ++ s.store.queue) := by
    rw [PartitionStore.outstanding, hbatch]
  have htold := Run.told_add hr ho hfit
  rw [hbatch] at htold
  refine ⟨fun ack hack => ?_, .inr ?_⟩
  · obtain ⟨c, hc, rfl⟩ := List.mem_map.1 hack
    obtain ⟨hc, hlt⟩ := List.mem_filter.1 hc
    have hlt : c.1 < s.store.committedOffset := by simpa using hlt
    obtain ⟨hacked, hid⟩ := h.callbacks c hc
    rw [hacked, toNat_add_one_of_lt hlt]
    exact ⟨hid, UInt64.lt_iff_toNat_lt.1 hlt⟩
  · -- The last record of the batch lies just before the committed offset.
    have hnum := PartitionStore.Run.numbered_outstanding (Run.store hr) ho.store hfit
    rw [hout, numbered_append] at hnum
    have hne : batch ≠ [] := by
      have hl := PartitionStore.Run.loaded (Run.store hr) ho.store.loaded
      rwa [PartitionStore.Loaded, hio] at hl
    have hpos := List.length_pos_of_ne_nil hne
    have hoff := hnum.1.offset_getElem (i := batch.length - 1) (by omega)
    have hmem : batch[batch.length - 1] ∈ s.store.outstanding :=
      hout ▸ List.mem_append_left _ (List.getElem_mem _)
    obtain ⟨ack, hack⟩ := h.outstanding _ hmem
    rw [← told] at hoff
    have hlt : batch[batch.length - 1].offset < s.store.committedOffset :=
      UInt64.lt_iff_toNat_lt.2 (by omega)
    refine ⟨ack, List.mem_map.2 ⟨_, List.mem_filter.2 ⟨hack, by simpa using hlt⟩, rfl⟩, ?_⟩
    rw [(h.callbacks _ hack).1, toNat_add_one_of_lt hlt]
    omega

/-- The callbacks acknowledge what they are called for, up to the last record. -/
theorem Step.acknowledges (hst : Step brokerId s e s') (hG : s.InTurn e)
    (hr : Run (Step brokerId) s₀ es s) (ho : Opened s₀) (hfit : Fits s₀ (es ++ [e]))
    (h : Tracking brokerId s) :
    Acknowledges brokerId e.fired (told s₀ es) (told s₀ (es ++ [e])) := by
  have hquiet : e.fired = [] → told s₀ (es ++ [e]) = told s₀ es →
      Acknowledges brokerId e.fired (told s₀ es) (told s₀ (es ++ [e])) := fun hfired htold => by
    rw [hfired, htold]
    exact acknowledges_nil brokerId _
  have hr' := hr.snoc hst
  cases hst with
  | @register epoch record hi =>
    -- The record is not committed yet, so the callback is not called at once.
    obtain ⟨-, -, hoff⟩ := h.client record (by rw [hi]; exact List.mem_singleton_self _)
    have hlt : ¬record.offset < s.store.committedOffset := hoff ▸ UInt64.lt_irrefl _
    refine hquiet ?_ told_snoc
    rw [Event.fired, PartitionStore.setOnceCommitCallback, if_neg hlt]
  | @store e store hst hacc =>
    rcases hst.callback_cases (PartitionStore.Run.loaded (Run.store hr) ho.store.loaded) with
      ⟨hfired, htold, -⟩ | ⟨offset, cb, fired, rfl⟩ | ⟨batch, hio, rfl, rfl⟩
    · refine hquiet hfired ?_
      rw [told_snoc]
      simp [Event.ofStore, PartitionStore.notifiedRecords, htold]
    · exact hG.2.elim
    · have htold : told s₀ (es ++ [.stored _]) = s.store.committedOffset.toNat :=
        Run.told_add hr' ho hfit
      rw [htold]
      exact h.notify hr ho hfit.of_append hio
  | _ => exact hquiet rfl told_snoc

end Follower

/-! ## The leader's knowledge -/

namespace Leader

variable {brokerId : UInt32} {maxLag : UInt64} {s s' : Leader} {e : Event}

/-- The follower is counted for all entries below the offset that it has acknowledged. -/
def Counted (brokerId : UInt32) (s : Leader) : Prop :=
  ∀ pa ∈ s.manager.pending, ∀ a, s.partition.ackOffset brokerId = some a → pa.offset < a →
    brokerId ∈ pa.ackedFollowers

/-- Neither is an acknowledgement of the follower handled in the step, nor are the metadata changed
    from outside. -/
def Event.Other (brokerId : UInt32) : Event → Prop
  | .acked followerId _ _ => followerId ≠ brokerId
  | .changed => False
  | _ => True

/-- Entries are registered for offsets that the follower has not acknowledged. -/
def Ahead (brokerId : UInt32) (s : Leader) : Event → Prop
  | .registered offset _ _ => ∀ a, s.partition.ackOffset brokerId = some a → a ≤ offset
  | _ => True

/-- What the leader does otherwise does not concern what the follower has acknowledged. -/
theorem Step.ackOffset_eq (hst : Step maxLag s e s') (he : e.Other brokerId)
    (hne : s.partition.leaderId ≠ brokerId) :
    s'.partition.ackOffset brokerId = s.partition.ackOffset brokerId := by
  cases hst with
  | finish hw =>
    rw [finishCommit]
    dsimp only
    split
    · rfl
    · exact PartitionMeta.ackOffset_updateReplica_ne (fun _ => rfl) hne
  | ack followerId ackedOffset =>
    exact PartitionMeta.ackOffset_onReplicaAck.trans (if_neg he)
  | change => exact he.elim
  | register | enqueue | pop | process | post => rfl

theorem Step.counted (hst : Step maxLag s e s') (he : e.Other brokerId) (hG : Ahead brokerId s e)
    (hne : s.partition.leaderId ≠ brokerId) (h : Counted brokerId s) : Counted brokerId s' := by
  have hsame := hst.ackOffset_eq he hne
  intro pa hpa a ha hlt
  rw [hsame] at ha
  cases hst.stays hpa with
  | register => exact absurd (UInt64.lt_of_lt_of_le hlt (hG a ha)) (UInt64.lt_irrefl _)
  | commit hmem =>
    rw [PendingAck.offset_commit] at hlt
    rw [PendingAck.ackedFollowers_commit]
    exact h _ hmem a ha hlt
  | ack hmem =>
    rw [PendingAck.offset_ack] at hlt
    exact PendingAck.mem_ackedFollowers_ack.2 (.inl (h _ hmem a ha hlt))
  | other hc hack hmem => exact h _ hmem a ha hlt

/-- An acknowledgement counts for the entries below its offset. -/
theorem Counted.onReplicaAck (h : Counted brokerId s) (ackedOffset : UInt64) :
    Counted brokerId (s.onReplicaAck maxLag brokerId ackedOffset).2 := by
  intro pa hpa a ha hlt
  obtain ⟨pa', hpa', rfl⟩ := ReplicaManager.mem_sweep hpa
  rw [PendingAck.offset_ack] at hlt
  have hack := PartitionMeta.ackOffset_onReplicaAck.symm.trans ha
  rw [if_pos rfl, Option.map_eq_some_iff] at hack
  obtain ⟨a₀, ha₀, rfl⟩ := hack
  rw [UInt64.lt_iff_toNat_lt, UInt64.toNat_max, lt_max_iff] at hlt
  rcases hlt with hlt | hlt
  · exact PendingAck.mem_ackedFollowers_ack.2
      (.inl (h pa' hpa' a₀ ha₀ (UInt64.lt_iff_toNat_lt.2 hlt)))
  · exact PendingAck.mem_ackedFollowers_ack.2 (.inr ⟨rfl, UInt64.lt_iff_toNat_lt.2 hlt⟩)

end Leader

/-! ## The system -/

/-- A follower and its leader, with the acknowledgements in between. -/
structure Acking where
  follower : Follower
  outAcks : List ReplicaAck := []
  /-- Those sent over the present connection. -/
  sent : List ReplicaAck := []
  /-- Those sent over connections that are closed. -/
  lingering : List ReplicaAck := []
  leader : Leader

namespace Acking

/-- What happens in a step. -/
inductive Event
  | followed (e : Follower.Event)
  | drained
  | delivered (ack : ReplicaAck)
  | dropped (ack : ReplicaAck)
  | led (e : Leader.Event)
  | ticked

section

variable (s : Acking)

/-- The follower moves on: what is acknowledged is queued, and what was sent over a connection that
    is closed lingers. -/
def follow (follower : Follower) (fired : List ReplicaAck) : Acking :=
  { s with
    follower
    outAcks := s.outAcks ++ fired
    sent := if follower.connection.isSome then s.sent else []
    lingering := if follower.connection.isSome then s.lingering else s.sent ++ s.lingering }

/-- The leader handles an acknowledgement. -/
def handle (maxLag : UInt64) (ack : ReplicaAck) : Leader :=
  (s.leader.onReplicaAck maxLag ack.followerId ack.ackedOffset).2

/-- The acknowledgements on their way. -/
def underway : List ReplicaAck := s.outAcks ++ (s.sent ++ s.lingering)

end

/-- A step of the follower, the leader or the network. -/
inductive Step (brokerId : UInt32) (maxLag : UInt64) (s : Acking) : Event → Acking → Prop
  | follow {e : Follower.Event} {follower : Follower}
      (hst : Follower.Step brokerId s.follower e follower) (he : e.Own) :
      Step brokerId maxLag s (.followed e) (s.follow follower e.fired)
  /-- The event loop takes out what is queued. If it is not connected, that is all. -/
  | drain (hi : s.follower.client = .idle) :
      Step brokerId maxLag s .drained
        { s with
          outAcks := []
          sent := s.sent ++ if s.follower.connection.isSome then s.outAcks else [] }
  | deliver {ack : ReplicaAck} {rest : List ReplicaAck} (hs : s.sent = ack :: rest) :
      Step brokerId maxLag s (.delivered ack) { s with sent := rest, leader := s.handle maxLag ack }
  | deliverLate {ack : ReplicaAck} {before after : List ReplicaAck}
      (hs : s.lingering = before ++ ack :: after) :
      Step brokerId maxLag s (.delivered ack)
        { s with lingering := before ++ after, leader := s.handle maxLag ack }
  | drop {ack : ReplicaAck} {before after : List ReplicaAck}
      (hs : s.lingering = before ++ ack :: after) :
      Step brokerId maxLag s (.dropped ack) { s with lingering := before ++ after }
  | lead {e : Leader.Event} {leader : Leader} (hst : Leader.Step maxLag s.leader e leader)
      (he : e.Other brokerId) : Step brokerId maxLag s (.led e) { s with leader }
  | tick (nowMs : UInt64) (timeoutMs : UInt32) :
      Step brokerId maxLag s .ticked
        { s with
          leader := { s.leader with partition := s.leader.partition.tickIsr nowMs timeoutMs } }

variable {brokerId : UInt32} {maxLag : UInt64} {s s' s₀ : Acking} {e : Event} {es : List Event}

/-- Acknowledgements are taken out only when the follower is connected, and none is dropped. A
    frame is let through only if nothing is queued or in flight, and an entry is registered only
    for an offset that the follower has not acknowledged. -/
def Kept (brokerId : UInt32) (s : Acking) : Event → Prop
  | .drained => s.outAcks = [] ∨ s.follower.connection.isSome
  | .dropped _ => False
  | .followed e => s.follower.Drained e
  | .led e => s.leader.Ahead brokerId e
  | _ => True

/-! ### The follower in a run -/

/-- What the follower does in a step. -/
def Event.ofFollower : Event → List Follower.Event
  | .followed e => [e]
  | _ => []

/-- What the follower has done. -/
def followerEvents (es : List Event) : List Follower.Event := es.flatMap Event.ofFollower

theorem followerEvents_snoc : followerEvents (es ++ [e]) = followerEvents es ++ e.ofFollower := by
  rw [followerEvents, List.flatMap_append, List.flatMap_singleton, followerEvents]

theorem Step.follower_run (hst : Guarded (Step brokerId maxLag) (Kept brokerId) s e s') :
    Run (Guarded (Follower.Step brokerId) Follower.InTurn) s.follower e.ofFollower s'.follower := by
  obtain ⟨hst, hG⟩ := hst
  cases hst with
  | follow hst he => exact .single ⟨hst, hG, he⟩
  | drain | deliver | deliverLate | drop | lead | tick => exact .nil

theorem Run.follower (hr : Run (Guarded (Step brokerId maxLag) (Kept brokerId)) s₀ es s) :
    Run (Guarded (Follower.Step brokerId) Follower.InTurn) s₀.follower (followerEvents es)
      s.follower :=
  hr.project Acking.follower Event.ofFollower Step.follower_run

/-! ### What is acknowledged -/

/-- Acknowledgements on their way are for what the callbacks have been called for, and the last of
    them is on its way or known to the leader. -/
structure Accounted (brokerId : UInt32) (told : ℕ) (s : Acking) : Prop where
  underway : ∀ ack ∈ s.underway, ack.followerId = brokerId ∧ ack.ackedOffset.toNat ≤ told
  ackOffset : ∃ a, s.leader.partition.ackOffset brokerId = some a ∧ a.toNat ≤ told ∧
    (a.toNat = told ∨ ∃ ack ∈ s.underway, ack.ackedOffset.toNat = told)
  counted : s.leader.Counted brokerId
  leaderId : s.leader.partition.leaderId ≠ brokerId

variable {told told' : ℕ}

/-- The leader gets to know nothing new. -/
theorem Accounted.of_mem (h : Accounted brokerId told s)
    (hmem : ∀ ack, ack ∈ s'.underway ↔ ack ∈ s.underway)
    (hoff : s'.leader.partition.ackOffset brokerId = s.leader.partition.ackOffset brokerId)
    (hcounted : s'.leader.Counted brokerId)
    (hid : s'.leader.partition.leaderId = s.leader.partition.leaderId) :
    Accounted brokerId told s' where
  underway ack hack := h.underway ack ((hmem ack).1 hack)
  ackOffset := by
    obtain ⟨a, ha, hle, hlast⟩ := h.ackOffset
    refine ⟨a, hoff.trans ha, hle, hlast.imp_right fun ⟨ack, hack, heq⟩ => ?_⟩
    exact ⟨ack, (hmem ack).2 hack, heq⟩
  counted := hcounted
  leaderId := hid ▸ h.leaderId

theorem mem_underway_follow {follower : Follower} {fired : List ReplicaAck} {ack : ReplicaAck} :
    ack ∈ (s.follow follower fired).underway ↔ ack ∈ s.underway ∨ ack ∈ fired := by
  rw [follow, underway, underway]
  dsimp only
  split_ifs <;> simp [or_comm, or_left_comm]

theorem Accounted.follow {follower : Follower} {fired : List ReplicaAck}
    (h : Accounted brokerId told s) (hfired : Follower.Acknowledges brokerId fired told told')
    (hle : told ≤ told') : Accounted brokerId told' (s.follow follower fired) where
  underway ack hack := by
    rcases mem_underway_follow.1 hack with hack | hack
    · exact ⟨(h.underway ack hack).1, (h.underway ack hack).2.trans hle⟩
    · exact hfired.1 ack hack
  ackOffset := by
    obtain ⟨a, ha, hale, hlast⟩ := h.ackOffset
    refine ⟨a, ha, hale.trans hle, ?_⟩
    rcases hfired.2 with rfl | ⟨ack, hack, heq⟩
    · exact hlast.imp_right fun ⟨ack, hack, heq⟩ => ⟨ack, mem_underway_follow.2 (.inl hack), heq⟩
    · exact .inr ⟨ack, mem_underway_follow.2 (.inr hack), heq⟩
  counted := h.counted
  leaderId := h.leaderId

/-- The leader handles one of the acknowledgements. -/
theorem Accounted.deliver {ack : ReplicaAck} (h : Accounted brokerId told s)
    (hperm : s.underway.Perm (ack :: s'.underway)) (hleader : s'.leader = s.handle maxLag ack) :
    Accounted brokerId told s' where
  underway ack' hack := h.underway ack' (hperm.mem_iff.2 (List.mem_cons_of_mem _ hack))
  ackOffset := by
    obtain ⟨hid, hle⟩ := h.underway ack (hperm.mem_iff.2 List.mem_cons_self)
    obtain ⟨a, ha, hale, hlast⟩ := h.ackOffset
    refine ⟨max a ack.ackedOffset, ?_, ?_, ?_⟩
    · rw [hleader]
      refine PartitionMeta.ackOffset_onReplicaAck.trans ?_
      rw [if_pos hid, ha, Option.map_some]
    · rw [UInt64.toNat_max]
      exact max_le hale hle
    · -- The acknowledgement of the last record is this one, or still under way.
      rw [UInt64.toNat_max]
      rcases hlast with heq | ⟨ack', hack', heq⟩
      · exact .inl (by omega)
      · rcases List.mem_cons.1 (hperm.mem_iff.1 hack') with rfl | hack'
        · exact .inl (by omega)
        · exact .inr ⟨ack', hack', heq⟩
  counted := by
    obtain ⟨hid, -⟩ := h.underway ack (hperm.mem_iff.2 List.mem_cons_self)
    rw [hleader, handle, hid]
    exact h.counted.onReplicaAck _
  leaderId := by
    rw [hleader]
    exact h.leaderId

/-- The follower has just been opened, and the leader knows how far it is. -/
structure Started (brokerId : UInt32) (s₀ : Acking) : Prop where
  follower : s₀.follower.Opened
  underway : s₀.underway = []
  pending : s₀.leader.manager.pending = []
  leaderId : s₀.leader.partition.leaderId ≠ brokerId
  ackOffset : s₀.leader.partition.ackOffset brokerId = some s₀.follower.store.committedOffset

/-- No offset of the run reaches `2 ^ 64`. -/
def Fits (s₀ : Acking) (es : List Event) : Prop := s₀.follower.Fits (followerEvents es)

theorem Fits.of_snoc (h : Fits s₀ (es ++ [e])) : Fits s₀ es := by
  rw [Fits, followerEvents_snoc] at h
  exact h.of_append

theorem Step.accounted (hst : Guarded (Step brokerId maxLag) (Kept brokerId) s e s')
    (hr : Run (Guarded (Step brokerId maxLag) (Kept brokerId)) s₀ es s) (hs₀ : s₀.follower.Opened)
    (hfit : Fits s₀ (es ++ [e]))
    (h : Accounted brokerId (s₀.follower.told (followerEvents es)) s) :
    Accounted brokerId (s₀.follower.told (followerEvents (es ++ [e]))) s' := by
  have hrun := Run.follower hr
  have hfit' := hfit
  rw [followerEvents_snoc]
  rw [Fits, followerEvents_snoc] at hfit'
  have hother : e.ofFollower = [] → Accounted brokerId (s₀.follower.told (followerEvents es)) s' →
      Accounted brokerId (s₀.follower.told (followerEvents es ++ e.ofFollower)) s' := by
    intro he hacc
    rwa [he, List.append_nil]
  obtain ⟨hst, hG⟩ := hst
  cases hst with
  | follow hst he =>
    have htrack := Follower.Run.tracking hrun hs₀ hfit.of_snoc
    refine h.follow (hst.acknowledges ⟨hG, he⟩ hrun.of_guarded hs₀ hfit' htrack) ?_
    rw [Event.ofFollower, Follower.told_snoc]
    exact Nat.le_add_right _ _
  | drain hi =>
    refine hother rfl (h.of_mem (fun ack => ?_) rfl h.counted rfl)
    -- What is taken out is sent, or there is nothing to take out.
    rw [underway, underway]
    rcases hG with hnil | hsome
    · simp [hnil]
    · simp [hsome, or_left_comm]
  | @deliver ack rest hs =>
    refine hother rfl (h.deliver ?_ rfl)
    rw [underway, hs]
    exact List.perm_middle
  | @deliverLate ack before after hs =>
    refine hother rfl (h.deliver ?_ rfl)
    rw [underway, underway, hs]
    simpa only [List.append_assoc] using
      @List.perm_middle _ ack (s.outAcks ++ (s.sent ++ before)) after
  | drop hs => exact hG.elim
  | lead hst he =>
    exact hother rfl (h.of_mem (fun _ => Iff.rfl) (hst.ackOffset_eq he h.leaderId)
      (hst.counted he hG h.leaderId h.counted) hst.leaderId_eq)
  | tick nowMs timeoutMs =>
    have hsame := @PartitionMeta.ackOffset_tickIsr s.leader.partition brokerId nowMs timeoutMs
    refine hother rfl (h.of_mem (fun _ => Iff.rfl) hsame (fun pa hpa a ha hlt => ?_) rfl)
    exact h.counted pa hpa a (hsame.symm.trans ha) hlt

theorem Run.accounted (hr : Run (Guarded (Step brokerId maxLag) (Kept brokerId)) s₀ es s)
    (h : Started brokerId s₀) (hfit : Fits s₀ es) :
    Accounted brokerId (s₀.follower.told (followerEvents es)) s := by
  refine hr.invariant (I := fun es s => Fits s₀ es →
    Accounted brokerId (s₀.follower.told (followerEvents es)) s) (fun _ => ?_) ?_ hfit
  · have htold : s₀.follower.told (followerEvents []) =
        s₀.follower.store.committedOffset.toNat := by
      rw [h.follower.store.committedOffset]
      rfl
    rw [htold]
    refine ⟨fun ack hack => ?_, ⟨_, h.ackOffset, Nat.le_refl _, .inl rfl⟩, fun pa hpa => ?_,
      h.leaderId⟩
    · exact absurd hack (by simp [h.underway])
    · exact absurd hpa (by simp [h.pending])
  · intro es s e s' hr ih hst hfit
    exact Step.accounted hst hr h.follower hfit (ih hfit.of_snoc)

/-! ### Quiescent states -/

/-- The follower is connected and has caught up with the leader, and nothing is queued or on its
    way. -/
structure Quiescent (s : Acking) : Prop where
  connection : s.follower.connection = some ⟨.done, []⟩
  client : s.follower.client = .idle
  caughtUp : s.follower.store.committedOffset = s.follower.leaderCommittedOffset
  io : s.follower.store.io = .waiting
  queue : s.follower.store.queue = []
  underway : s.underway = []

/-- The leader knows the committed offset of the follower, and no entry below it waits for the
    follower. -/
def Acknowledged (brokerId : UInt32) (s : Acking) : Prop :=
  s.leader.partition.ackOffset brokerId = some s.follower.store.committedOffset ∧
    ∀ pa ∈ s.leader.manager.pending, pa.offset < s.follower.store.committedOffset →
      brokerId ∈ pa.ackedFollowers

/-- In every run in which all acknowledgements are kept, the leader knows the committed offset of
    the follower in quiescent states. What `on_readable` does to its buffer after a rejected frame
    is left out. -/
theorem acknowledged (h : Started brokerId s₀)
    (hr : Run (Guarded (Step brokerId maxLag) (Kept brokerId)) s₀ es s) (hfit : Fits s₀ es)
    (hq : Quiescent s) : Acknowledged brokerId s := by
  have hacc := Run.accounted hr h hfit
  have htold := Follower.Run.told_add (Run.follower hr).of_guarded h.follower hfit
  have hun : s.follower.store.unnotified = [] := by rw [PartitionStore.unnotified, hq.io]
  rw [hun, List.length_nil, Nat.add_zero] at htold
  obtain ⟨a, ha, -, hlast⟩ := hacc.ackOffset
  have heq : a.toNat = s.follower.store.committedOffset.toNat := by
    rcases hlast with hlast | ⟨ack, hack, -⟩
    · exact hlast.trans htold
    · exact absurd hack (by simp [hq.underway])
  rw [UInt64.toNat_inj] at heq
  subst heq
  exact ⟨ha, fun pa hpa hlt => hacc.counted pa hpa _ ha hlt⟩

/-! ### One record

The record is committed, and its acknowledgement is queued. -/

section

open Follower

/-- What the follower does without acknowledging anything. -/
theorem run_followed {G : Acking → Event → Prop} {leader : Leader} {f f' : Follower}
    {fes : List Follower.Event} (hr : Run (Guarded (Follower.Step 1) Drained) f fes f')
    (hfes : ∀ e ∈ fes, e.Own ∧ e.fired = [])
    (hG : ∀ (s : Acking) e, s.follower.Drained e → G s (.followed e)) :
    Run (Guarded (Step 1 0) G) { follower := f, leader } (fes.map .followed)
      { follower := f', leader } := by
  induction hr with
  | nil => exact .nil
  | @snoc fes f f' e hr hst ih =>
    obtain ⟨hown, hfired⟩ := hfes e (by simp)
    have hstep : Step 1 0 { follower := f, leader } (.followed e)
        (follow { follower := f, leader } f' e.fired) :=
      .follow hst.1 hown
    have hsame : follow { follower := f, leader } f' [] = { follower := f', leader } := by
      simp [follow]
    rw [hfired, hsame] at hstep
    rw [List.map_append]
    exact (ih fun e he => hfes e (List.mem_append_left _ he)).snoc ⟨hstep, hG _ _ hst.2⟩

/-- What the I/O thread does, it does beside the client. -/
theorem run_stored {connection : Option Connection} {store store' : PartitionStore ReplicaAck}
    {ses : List (PartitionStore.Event ReplicaAck)} (hr : Run PartitionStore.Step store ses store')
    (hses : ∀ e ∈ ses, e.accepted = []) :
    Run (Guarded (Follower.Step 1) Drained) (withStore connection .idle store) (ses.map .stored)
      (withStore connection .idle store') := by
  induction hr with
  | nil => exact .nil
  | @snoc ses store store' e hr hst ih =>
    rw [List.map_append]
    exact (ih fun e he => hses e (List.mem_append_left _ he)).snoc
      ⟨.store (s := withStore connection .idle store) hst (hses e (by simp)), trivial⟩

/-- The record is taken for writing. -/
def takenStore : PartitionStore ReplicaAck :=
  { (received emptyStore).take onlyRecord [] [] with io := .taken [onlyRecord] }

/-- It is committed. -/
def writtenStore : PartitionStore ReplicaAck :=
  { takenStore.afterWrite [onlyRecord] 0 with io := .written [onlyRecord] }

/-- Its callback is called. -/
def notifiedStore : PartitionStore ReplicaAck :=
  { (writtenStore.fireOnceCallbacks 1).2 with io := .notified [onlyRecord] }

/-- The round is over. -/
def endedStore : PartitionStore ReplicaAck := { notifiedStore with io := .waiting }

/-- The acknowledgement of the record. -/
def onlyAck : ReplicaAck := ackOf 1 0 onlyRecord

theorem run_writtenStore : Run PartitionStore.Step (received emptyStore)
    [.took onlyRecord, .gathered, .wrote 0 [onlyRecord]] writtenStore := by
  have hwrite : takenStore.writeBatch [onlyRecord] = some (takenStore.afterWrite [onlyRecord] 0) :=
    @PartitionStore.writeBatch_of_lt _ takenStore [onlyRecord] onlyRecord rfl (by decide)
      (by decide)
  exact .cons (.takeFirst rfl rfl) <| .cons (.takeDone rfl) <| .single (.write rfl hwrite)

theorem step_notifiedStore :
    PartitionStore.Step writtenStore (.notified [onlyRecord] [onlyAck]) notifiedStore :=
  .notify rfl

theorem step_endedStore : PartitionStore.Step notifiedStore .ended endedStore := by
  have hst := PartitionStore.Step.endRound (s := notifiedStore) rfl
  rwa [PartitionStore.endRound_of_not_full (by decide)] at hst

/-- The leader `0`, with the follower `1`. -/
def freshLeader : Leader where
  manager := {}
  partition := { topic := [], replicas := [{ brokerId := 0 }, { brokerId := 1 }] }

/-- Neither has a record. -/
def freshAcking : Acking where
  follower := withStore none .idle emptyStore
  leader := freshLeader

theorem started_freshAcking : Started 1 freshAcking where
  follower := ⟨PartitionStore.fresh_open _ _, rfl, rfl⟩
  underway := rfl
  pending := rfl
  leaderId := by decide
  ackOffset := rfl

/-- What the follower does up to the commit of the record. -/
def writtenEvents : List Follower.Event :=
  receiveEvents emptyStore ++
    [.stored (.took onlyRecord), .stored .gathered, .stored (.wrote 0 [onlyRecord])]

/-- The record is committed, and the follower connected. -/
theorem run_written {G : Acking → Event → Prop}
    (hG : ∀ (s : Acking) e, s.follower.Drained e → G s (.followed e)) :
    Run (Guarded (Step 1 0) G) freshAcking (writtenEvents.map .followed)
      { follower := withStore (some ⟨.sending 1, []⟩) .idle writtenStore
        leader := freshLeader } := by
  have hstored : Run (Guarded (Follower.Step 1) Drained) (withStore (some ⟨.sending 1, []⟩) .idle _)
      [.stored (.took onlyRecord), .stored .gathered, .stored (.wrote 0 [onlyRecord])]
      (withStore _ .idle writtenStore) :=
    run_stored run_writtenStore (by simp [PartitionStore.Event.accepted])
  refine run_followed (run_receiveOnce.append hstored) (fun e he => ?_) hG
  simp only [writtenEvents, receiveEvents, List.cons_append, List.nil_append, List.mem_cons,
    List.not_mem_nil, or_false] at he
  rcases he with rfl | rfl | rfl | rfl | rfl | rfl | rfl | rfl | rfl <;> exact ⟨trivial, rfl⟩

/-- The round ends, and the follower is told that it has caught up. -/
def endingEvents : List Follower.Event := [.resentAll, .ended, .stored .ended]

theorem run_ending {G : Acking → Event → Prop} {leader : Leader}
    (hG : ∀ (s : Acking) e, s.follower.Drained e → G s (.followed e)) :
    Run (Guarded (Step 1 0) G)
      { follower := withStore (some ⟨.sending 1, []⟩) .idle notifiedStore, leader }
      (endingEvents.map .followed)
      { follower := withStore (some ⟨.done, []⟩) .idle endedStore, leader } := by
  have hend : Follower.Step 1 (withStore (some ⟨.sending 1, []⟩) .idle notifiedStore) .resentAll
      (withStore (some ⟨.done, [.syncEnd]⟩) .idle notifiedStore) :=
    @Follower.Step.resendEnd 1 (withStore _ _ _) 1 [] rfl (by decide)
  have hstored : Follower.Step 1 (withStore (some ⟨.done, []⟩) .idle notifiedStore) (.stored .ended)
      (withStore (some ⟨.done, []⟩) .idle endedStore) :=
    .store (s := withStore _ _ notifiedStore) step_endedStore rfl
  refine run_followed (.cons ⟨hend, trivial⟩ <| .cons ⟨.syncEnd rfl rfl, trivial⟩ <|
    .single ⟨hstored, trivial⟩) (fun e he => ?_) hG
  simp only [endingEvents, List.mem_cons, List.not_mem_nil, or_false] at he
  rcases he with rfl | rfl | rfl <;> exact ⟨trivial, rfl⟩

/-- The follower has caught up with the leader. -/
theorem quiescent_ended {leader : Leader} :
    Quiescent { follower := withStore (some ⟨.done, []⟩) .idle endedStore, leader } :=
  ⟨rfl, rfl, rfl, rfl, rfl, rfl⟩

/-- The leader with the acknowledgement of the record. -/
def ackedLeader : Leader := (freshLeader.onReplicaAck 0 1 1).2

/-- The acknowledgement is sent and arrives. -/
theorem acknowledged_onlyRecord : ∃ (es : List Event) (s : Acking),
    Run (Guarded (Step 1 0) (Kept 1)) freshAcking es s ∧ Quiescent s ∧
      s.follower.store.committedOffset = 1 ∧ Acknowledged 1 s := by
  let connected (store : PartitionStore ReplicaAck) := withStore (some ⟨.sending 1, []⟩) .idle store
  have hwritten : Run (Guarded (Step 1 0) (Kept 1)) freshAcking _ _ := run_written fun _ _ h => h
  have hnotify : Guarded (Step 1 0) (Kept 1)
      { follower := connected writtenStore, leader := freshLeader }
      (.followed (.stored (.notified [onlyRecord] [onlyAck])))
      { follower := connected notifiedStore, outAcks := [onlyAck], leader := freshLeader } :=
    ⟨.follow (.store (s := connected writtenStore) step_notifiedStore rfl) trivial, trivial⟩
  have hdrain : Guarded (Step 1 0) (Kept 1)
      { follower := connected notifiedStore, outAcks := [onlyAck], leader := freshLeader } .drained
      { follower := connected notifiedStore, sent := [onlyAck], leader := freshLeader } :=
    ⟨.drain rfl, .inr rfl⟩
  have hdeliver : Guarded (Step 1 0) (Kept 1)
      { follower := connected notifiedStore, sent := [onlyAck], leader := freshLeader }
      (.delivered onlyAck) { follower := connected notifiedStore, leader := ackedLeader } :=
    ⟨.deliver rfl, trivial⟩
  have hrun := ((hwritten.snoc hnotify).snoc hdrain).snoc hdeliver |>.append
    (run_ending fun _ _ h => h)
  exact ⟨_, _, hrun, quiescent_ended, rfl,
    acknowledged started_freshAcking hrun (by decide : 0 + 1 < 2 ^ 64) quiescent_ended⟩

/-- Not every quiescent state is acknowledged: the connection is lost before the acknowledgement is
    taken out, and the follower connects again. -/
theorem not_forall_acknowledged : ¬∀ (brokerId : UInt32) (maxLag : UInt64) (s₀ s : Acking)
    (es : List Event), Started brokerId s₀ → Run (Step brokerId maxLag) s₀ es s → Fits s₀ es →
      Quiescent s → Acknowledged brokerId s := by
  intro hall
  let G : Acking → Event → Prop := fun _ _ => True
  let disconnected (store : PartitionStore ReplicaAck) := withStore none .idle store
  have hwritten : Run (Guarded (Step 1 0) G) freshAcking _ _ := run_written fun _ _ _ => trivial
  have hlose : Guarded (Step 1 0) G
      { follower := withStore (some ⟨.sending 1, []⟩) .idle writtenStore, leader := freshLeader }
      (.followed .lost)
      { follower := disconnected writtenStore, leader := freshLeader } :=
    ⟨.follow (.lose rfl) trivial, trivial⟩
  have hnotify : Guarded (Step 1 0) G
      { follower := disconnected writtenStore, leader := freshLeader }
      (.followed (.stored (.notified [onlyRecord] [onlyAck])))
      { follower := disconnected notifiedStore, outAcks := [onlyAck], leader := freshLeader } :=
    ⟨.follow (.store (s := disconnected writtenStore) step_notifiedStore rfl) trivial, trivial⟩
  have hdrain : Guarded (Step 1 0) G
      { follower := disconnected notifiedStore, outAcks := [onlyAck], leader := freshLeader }
      .drained
      { follower := disconnected notifiedStore, leader := freshLeader } :=
    ⟨.drain rfl, trivial⟩
  have hconnect : Guarded (Step 1 0) G
      { follower := disconnected notifiedStore, leader := freshLeader }
      (.followed (.connected 1))
      { follower := withStore (some ⟨.requested 1, []⟩) .idle notifiedStore
        leader := freshLeader } :=
    ⟨.follow (.connect (s := disconnected notifiedStore) rfl rfl) trivial, trivial⟩
  have haccept : Guarded (Step 1 0) G
      { follower := withStore (some ⟨.requested 1, []⟩) .idle notifiedStore, leader := freshLeader }
      (.followed .accepted)
      { follower := withStore (some ⟨.sending 1, []⟩) .idle notifiedStore
        leader := freshLeader } :=
    ⟨.follow (.accept rfl) trivial, trivial⟩
  have hrun := ((((hwritten.snoc hlose).snoc hnotify).snoc hdrain).snoc hconnect).snoc haccept
    |>.append (run_ending fun _ _ _ => trivial)
  have hknown := (hall 1 0 _ _ _ started_freshAcking hrun.of_guarded
    (by decide : 0 + 1 < 2 ^ 64) quiescent_ended).1
  exact absurd hknown (by decide)

end

end Acking

end Fell.Replication
