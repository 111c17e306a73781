import Fell.Broker.DeferredAck
import Fell.Replication.Acknowledgement

/-!
# A record on its way to the followers and back

With `acks=all`, a record goes through the store of the leader, over the replication connections
into the stores of the followers, and what they acknowledge comes back to the replica manager,
which releases the response. Each part is modelled on its own: the leader with its event loop
(`Publishing`), and each follower with the acknowledgements on their way to the leader (`Acking`).
Here they are put together: one leader and any number of followers, of which each receives
what the leader has committed.

* `Run.publishing`, `Run.leader`, `Run.follower`: a run is a run of each of the parts;
* `Step.honest`, `Run.honest`: what a follower has acknowledged, it has committed;
* `replicated_of_released`: when a response is released, the record is in the log of the leader
  and in the logs of all followers that were in sync, under the same offset.

This is so if followers let a frame through only when nothing is queued, entries are
registered when the leader is in sync, and followers are counted only that were in sync then.
-/

namespace Fell.Replication.Leader

open Platform Storage

variable {maxLag : UInt64} {s s' s₀ : Leader} {e : Event} {es : List Event} {pa : PendingAck}

theorem Entitled.commit (h : Entitled pa) (qc : QueuedCommit) : Entitled (pa.commit qc).2 := by
  rw [Entitled, PendingAck.ackedFollowers_commit, PendingAck.registeredAt_commit]
  exact h

theorem Entitled.ack {f : UInt32} {a : UInt64} (h : Entitled pa)
    (hf : pa.offset < a → f ∈ pa.registeredAt.isrIds ∧ f ≠ pa.registeredAt.leaderId) :
    Entitled (pa.ack f a).2 := by
  intro g hg
  rw [PendingAck.registeredAt_ack]
  rcases PendingAck.mem_ackedFollowers_ack.1 hg with hg | ⟨rfl, hlt⟩
  · exact h g hg
  · exact hf hlt

/-- An entry is released when it is complete, with what the step adds to it. -/
theorem Step.complete_of_releases (hst : Step maxLag s e s') (hpa : pa ∈ e.releases)
    (es : List Event) :
    pa ∈ s.manager.pending ∧ ∃ pa' : PendingAck, pa'.Complete ∧ pa'.offset = pa.offset ∧
      pa'.registeredAt = pa.registeredAt ∧ (Tracked es pa → Tracked (es ++ [e]) pa') ∧
      (FromIsr s e → Entitled pa → Entitled pa') := by
  cases hst with
  | @process qc hw =>
    obtain ⟨hmem, hne⟩ := ReplicaManager.mem_released.1 hpa
    exact ⟨hmem, (pa.commit qc).2, PendingAck.complete_commit_snd hne,
      PendingAck.offset_commit .., PendingAck.registeredAt_commit .., Tracked.commit,
      fun _ hen => hen.commit qc⟩
  | ack f a =>
    obtain ⟨hmem, hne⟩ := ReplicaManager.mem_released.1 hpa
    exact ⟨hmem, (pa.ack f a).2, PendingAck.complete_ack_snd hne, PendingAck.offset_ack ..,
      PendingAck.registeredAt_ack .., Tracked.ack, fun hg hen => hen.ack (hg pa hmem)⟩
  | register | enqueue | pop | post | finish | change => exact absurd hpa List.not_mem_nil

theorem Step.durable (hst : Step maxLag s e s') (hg : FromIsr s e)
    (htr : ∀ pa ∈ s.manager.pending, Tracked es pa) (hen : ∀ pa ∈ s.manager.pending, Entitled pa)
    (hled : ∀ pa ∈ s.manager.pending, LedIsr pa.registeredAt) (hpa : pa ∈ e.releases) :
    Durable (es ++ [e]) pa := by
  obtain ⟨hmem, pa', hc, hoff, hreg, htr', hen'⟩ := hst.complete_of_releases hpa es
  have hled' := hled pa hmem
  rw [← hreg] at hled'
  have hd := (hen' hg (hen pa hmem)).durable hled' (htr' (htr pa hmem)) hc
  rwa [Durable, hoff, hreg] at hd

theorem Durable.snoc (h : Durable es pa) : Durable (es ++ [e]) pa :=
  ⟨h.1.snoc, fun f hf hne => (h.2 f hf hne).snoc⟩

theorem Run.durable (hr : Run (Guarded (Step maxLag) FromIsr) s₀ es s) (hnew : s₀.manager = {})
    (hpa : pa ∈ es.flatMap Event.releases) : Durable es pa := by
  have hnil : s₀.manager.pending = [] := by rw [hnew]
  refine hr.invariant (I := fun es _ => ∀ pa ∈ es.flatMap Event.releases, Durable es pa)
    ?_ ?_ pa hpa
  · exact fun _ h => absurd h List.not_mem_nil
  · intro es s e s' hr ih hst pa hpa
    rw [List.flatMap_append, List.flatMap_singleton] at hpa
    rcases List.mem_append.1 hpa with hpa | hpa
    · exact (ih pa hpa).snoc
    · exact hst.1.durable hst.2 (Run.tracked hr.of_guarded hnil) (Run.entitled hr hnil)
        (Run.ledIsr hr hnil) hpa

end Fell.Replication.Leader

namespace Fell.Broker

open Platform Replication Storage
open PartitionStore (accepted writtenRecords)

namespace Publishing

variable {κ : Type} {maxLag : UInt64} {s s' s₀ : Publishing κ} {e : Event κ} {es : List (Event κ)}
  {qc : QueuedCommit}

/-- The callback queues the batch that has just been written. -/
theorem Step.enqueued_cases (hst : Step maxLag s e s') (hqc : qc ∈ Leader.enqueued e.ofLeader) :
    ∃ cmd rest, s.store.unnotified = cmd :: rest ∧ qc = ⟨cmd.offset, cmd :: rest⟩ := by
  cases hst with
  | append | manage | register => exact absurd hqc List.not_mem_nil
  | @store e store' hst hacc =>
    rw [Event.ofLeader] at hqc
    split_ifs at hqc
    · cases hst with
      | @notify batch hio =>
        rw [PartitionStore.unnotified, hio]
        cases batch with
        | nil => exact absurd hqc List.not_mem_nil
        | cons cmd rest => exact ⟨cmd, rest, rfl, List.mem_singleton.1 hqc⟩
      | _ => exact absurd hqc List.not_mem_nil
    · exact absurd hqc List.not_mem_nil
  | lead hm hst hw =>
    cases hst with
    | enqueue => exact hw.elim
    | _ => exact absurd hqc List.not_mem_nil

/-- A batch covers the offsets of its records only. -/
theorem lt_of_covers {cmd : Record} {rest : List Record} {n : ℕ} {o : UInt64}
    (hnum : Numbered n (cmd :: rest)) (hlt : n + (cmd :: rest).length < 2 ^ 64)
    (hcov : (QueuedCommit.mk cmd.offset (cmd :: rest)).Covers o) :
    o.toNat < n + (cmd :: rest).length := by
  have hcmd : cmd.offset.toNat = n := hnum.offset_getElem (i := 0) (by simp)
  have ho := UInt64.lt_iff_toNat_lt.1 hcov.2
  rwa [PartitionStore.toNat_add_ofNat (hcmd ▸ hlt), hcmd] at ho

/-- The leader is told of a commit when its records are written. -/
theorem Run.lt_of_enqueued (hr : Run (Step maxLag) s₀ es s) (hfresh : s₀.store.Fresh)
    (hlt : s₀.store.nextOffset.toNat + (appended es).length < 2 ^ 64)
    (hqc : qc ∈ Leader.enqueued (leaderEvents es)) {o : UInt64} (hcov : qc.Covers o) :
    o.toNat < s₀.store.nextOffset.toNat + (writtenRecords (storeEvents es)).length := by
  refine hr.invariant (I := fun es _ => s₀.store.nextOffset.toNat + (appended es).length < 2 ^ 64 →
    ∀ qc ∈ Leader.enqueued (leaderEvents es), qc.Covers o →
      o.toNat < s₀.store.nextOffset.toNat + (writtenRecords (storeEvents es)).length)
    (fun _ qc hqc => absurd hqc List.not_mem_nil) ?_ hlt qc hqc hcov
  intro es s e s' hr ih hst hlt qc hqc hcov
  have hlt' := (Nat.add_le_add_left length_appended_le _).trans_lt hlt
  have hgrow : (writtenRecords (storeEvents es)).length ≤
      (writtenRecords (storeEvents (es ++ [e]))).length := by
    simp [writtenRecords]
  refine lt_of_lt_of_le ?_ (Nat.add_le_add_left hgrow _)
  have henq : Leader.enqueued (leaderEvents (es ++ [e])) =
      Leader.enqueued (leaderEvents es) ++ Leader.enqueued e.ofLeader := by
    simp [Leader.enqueued]
  rw [henq] at hqc
  rcases List.mem_append.1 hqc with hqc | hqc
  · exact ih hlt' qc hqc hcov
  · -- The batch ends where the records written end.
    obtain ⟨cmd, rest, hbatch, rfl⟩ := hst.enqueued_cases hqc
    have hstore := Run.store hr
    have hnum := PartitionStore.Run.numbered_outstanding hstore hfresh hlt'
    rw [PartitionStore.outstanding, numbered_append, hbatch] at hnum
    have hlen := congrArg List.length (PartitionStore.Run.notified_append_unnotified hstore hfresh)
    rw [List.length_append, hbatch] at hlen
    have hle : _ ≤ (appended es).length :=
      (PartitionStore.Run.queued hstore hfresh).length_written_le
    have ho := lt_of_covers hnum.1 (by omega) hcov
    omega

end Publishing

/-- A follower, with the acknowledgements on their way to the leader. -/
structure Link where
  follower : Follower
  outAcks : List ReplicaAck := []
  /-- Those sent over the present connection. -/
  sent : List ReplicaAck := []
  /-- Those sent over connections that are closed. -/
  lingering : List ReplicaAck := []

namespace Link

/-- The follower and the leader. -/
def acking (l : Link) (leader : Leader) : Acking where
  follower := l.follower
  outAcks := l.outAcks
  sent := l.sent
  lingering := l.lingering
  leader := leader

/-- The follower's side. -/
def ofAcking (a : Acking) : Link := ⟨a.follower, a.outAcks, a.sent, a.lingering⟩

/-- The leader has committed a batch. -/
def commit (l : Link) (batch : List Record) : Link :=
  { l with follower := { l.follower with leaderLog := l.follower.leaderLog ++ batch } }

/-- The acknowledgements on their way. -/
def underway (l : Link) : List ReplicaAck := l.outAcks ++ (l.sent ++ l.lingering)

end Link

/-- The leader of a partition, and the other brokers by their ids. -/
structure Replicating (κ : Type) where
  publishing : Publishing κ
  links : UInt32 → Link

namespace Replicating

variable {κ : Type}

/-- What happens in a step. -/
inductive Event (κ : Type)
  | published (e : Publishing.Event κ)
  | linked (i : UInt32) (e : Acking.Event)
  | delivered (i : UInt32) (ack : ReplicaAck) (released : List PendingAck)

/-- What the leader does without hearing of a follower. -/
def Unprompted : Publishing.Event κ → Prop
  | .led (.acked ..) => False
  | _ => True

/-- What happens on the side of a follower. -/
def Beside : Acking.Event → Prop
  | .followed (.committed _) | .delivered _ | .led _ | .ticked => False
  | _ => True

/-- A step of the leader, of a follower, or of the network. -/
inductive Step (maxLag : UInt64) (s : Replicating κ) : Event κ → Replicating κ → Prop
  | publish {e : Publishing.Event κ} {publishing : Publishing κ}
      (hst : Publishing.Step maxLag s.publishing e publishing) (he : Unprompted e) :
      Step maxLag s (.published e)
        { publishing, links := fun i => (s.links i).commit (writtenRecords e.ofStore) }
  | link (i : UInt32) {e : Acking.Event} {a : Acking}
      (hst : Acking.Step i maxLag ((s.links i).acking s.publishing.leader) e a) (he : Beside e) :
      Step maxLag s (.linked i e) { s with links := Function.update s.links i (.ofAcking a) }
  | deliver (i : UInt32) {ack : ReplicaAck} {a : Acking} {released : List PendingAck}
      {publishing : Publishing κ}
      (hst : Acking.Step i maxLag ((s.links i).acking s.publishing.leader) (.delivered ack) a)
      (hlead : Publishing.Step maxLag s.publishing
        (.led (.acked ack.followerId ack.ackedOffset released)) publishing) :
      Step maxLag s (.delivered i ack released)
        { publishing, links := Function.update s.links i (.ofAcking a) }

variable {maxLag : UInt64} {s s' s₀ : Replicating κ} {e : Event κ} {es : List (Event κ)}
  {i : UInt32}

/-! ## The parts -/

/-- The step of the leader's broker in a step. -/
def Event.ofPublishing : Event κ → List (Publishing.Event κ)
  | .published e => [e]
  | .delivered _ ack released => [.led (.acked ack.followerId ack.ackedOffset released)]
  | .linked .. => []

/-- The steps of a follower, for which a commit of the leader is one. -/
def Event.ofFollower (i : UInt32) : Event κ → List Follower.Event
  | .published e => [.committed (writtenRecords e.ofStore)]
  | .linked j e => if j = i then e.ofFollower else []
  | .delivered .. => []

/-- What the leader's broker has done. -/
def publishingEvents (es : List (Event κ)) : List (Publishing.Event κ) :=
  es.flatMap Event.ofPublishing

/-- What the store of the leader has done. -/
abbrev storeEvents (es : List (Event κ)) : List (PartitionStore.Event κ) :=
  Publishing.storeEvents (publishingEvents es)

/-- The step of the leader in a step. -/
def Event.ofLeader (e : Event κ) : List Leader.Event := e.ofPublishing.flatMap (·.ofLeader)

/-- What the leader has done. -/
def leaderEvents (es : List (Event κ)) : List Leader.Event := es.flatMap Event.ofLeader

/-- What a follower has done. -/
def followerEvents (i : UInt32) (es : List (Event κ)) : List Follower.Event :=
  es.flatMap (Event.ofFollower i)

theorem publishingEvents_snoc :
    publishingEvents (es ++ [e]) = publishingEvents es ++ e.ofPublishing := by
  simp [publishingEvents]

theorem leaderEvents_snoc : leaderEvents (es ++ [e]) = leaderEvents es ++ e.ofLeader := by
  simp [leaderEvents]

theorem followerEvents_snoc :
    followerEvents i (es ++ [e]) = followerEvents i es ++ e.ofFollower i := by
  simp [followerEvents]

/-- The records that the leader commits in a step. -/
def Event.committed (e : Event κ) : List Record :=
  writtenRecords (e.ofPublishing.flatMap (·.ofStore))

theorem writtenRecords_snoc :
    writtenRecords (storeEvents (es ++ [e])) = writtenRecords (storeEvents es) ++ e.committed := by
  simp [storeEvents, publishingEvents, Publishing.storeEvents, Event.committed, writtenRecords]

theorem Step.publishing_run (hst : Step maxLag s e s') :
    Run (Publishing.Step maxLag) s.publishing e.ofPublishing s'.publishing := by
  cases hst with
  | publish hst he => exact .single hst
  | link i hst he => exact .nil
  | deliver i hst hlead => exact .single hlead

/-- A run is a run of the leader's broker. -/
theorem Run.publishing (hr : Run (Step maxLag) s₀ es s) :
    Run (Publishing.Step maxLag) s₀.publishing (publishingEvents es) s.publishing :=
  hr.project Replicating.publishing Event.ofPublishing Step.publishing_run

/-- A run is a run of the leader's store. -/
theorem Run.store (hr : Run (Step maxLag) s₀ es s) :
    Run PartitionStore.Step s₀.publishing.store (storeEvents es) s.publishing.store :=
  Publishing.Run.store (Run.publishing hr)

/-- Beside the leader, a follower goes on with the log of the leader as it is. -/
theorem follower_cases {leader : Leader} {l : Link} {e : Acking.Event} {a : Acking}
    (hst : Acking.Step i maxLag (l.acking leader) e a)
    (he : ∀ batch, e ≠ .followed (.committed batch)) :
    a.follower.leaderLog = l.follower.leaderLog ∧
      (e.ofFollower = [] ∧ a.follower = l.follower ∨
        ∃ e', e = .followed e' ∧ e'.Own ∧ Follower.Step i l.follower e' a.follower) := by
  cases hst with
  | @follow e follower hst hown =>
    refine ⟨?_, .inr ⟨e, rfl, hown, hst⟩⟩
    cases hst with
    | commit batch hb => exact absurd rfl (he batch)
    | _ => rfl
  | drain | deliver | deliverLate | drop | lead | tick => exact ⟨rfl, .inl ⟨rfl, rfl⟩⟩

theorem Beside.ne_committed {e : Acking.Event} (he : Beside e) (batch : List Record) :
    e ≠ .followed (.committed batch) := by
  rintro rfl
  exact he

/-- The followers are to receive what the leader commits. -/
theorem Step.leaderLog_eq (hst : Step maxLag s e s') (i : UInt32) :
    (s'.links i).follower.leaderLog = (s.links i).follower.leaderLog ++ e.committed := by
  cases hst with
  | publish hst he => simp [Link.commit, Event.committed, Event.ofPublishing]
  | link j hst he =>
    have hlog := (follower_cases hst he.ne_committed).1
    rw [Event.committed, Event.ofPublishing]
    by_cases hj : i = j
    · subst hj
      simpa [Link.ofAcking, writtenRecords] using hlog
    · simp [Function.update_of_ne hj, writtenRecords]
  | deliver j hst hlead =>
    have hlog := (follower_cases hst fun _ => Acking.Event.noConfusion).1
    by_cases hj : i = j
    · subst hj
      simpa [Link.ofAcking, Event.committed, Event.ofPublishing, Publishing.Event.ofStore,
        writtenRecords] using hlog
    · simp [Function.update_of_ne hj, Event.committed, Event.ofPublishing,
        Publishing.Event.ofStore, writtenRecords]

/-- The leader has just opened a partition that is empty, and so have the followers. -/
structure Started (s₀ : Replicating κ) : Prop where
  store : ∃ options, s₀.publishing.store = PartitionStore.open ∅ options
  leader : s₀.publishing.leader.manager = {}
  follower : ∀ i, (s₀.links i).follower.Started
  leaderLog : ∀ i, (s₀.links i).follower.leaderLog = []
  underway : ∀ i, (s₀.links i).underway = []

theorem Started.fresh (h : Started s₀) : PartitionStore.Fresh s₀.publishing.store := by
  obtain ⟨options, hopen⟩ := h.store
  rw [hopen]
  exact PartitionStore.fresh_open ∅ options

theorem Run.leaderLog_eq (hr : Run (Step maxLag) s₀ es s) (h : Started s₀) (i : UInt32) :
    (s.links i).follower.leaderLog = writtenRecords (storeEvents es) := by
  refine hr.invariant (I := fun es s => (s.links i).follower.leaderLog =
    writtenRecords (storeEvents es)) (h.leaderLog i) fun _ ih hst => ?_
  rw [hst.leaderLog_eq i, ih, writtenRecords_snoc]

theorem Run.queued (hr : Run (Step maxLag) s₀ es s) (h : Started s₀) :
    PartitionStore.Queued 0 (storeEvents es) s.publishing.store := by
  have hq := PartitionStore.Run.queued (Run.store hr) h.fresh
  obtain ⟨options, hopen⟩ := h.store
  rwa [hopen, PartitionStore.nextOffset_open_empty] at hq

/-- What is committed in a step goes on from what is committed before. -/
theorem Run.consecutive_committed (hr : Run (Step maxLag) s₀ es s) (hst : Step maxLag s e s')
    (h : Started s₀) :
    PartitionStore.Consecutive (s.links i).follower.leaderCommittedOffset e.committed := by
  have hq := Run.queued (hr.snoc hst) h
  have hcons := hq.consecutive
  rw [← hq.accepted_eq, writtenRecords_snoc] at hcons
  rw [Follower.leaderCommittedOffset, Run.leaderLog_eq hr h, ← UInt64.zero_add (UInt64.ofNat _)]
  exact hcons.left.left.right

/-- Frames are let through only if nothing is queued, entries are registered when the leader is in
    sync, and only followers are counted that were in sync then. -/
def Orderly (s : Replicating κ) : Event κ → Prop
  | .published e => ∀ e' ∈ e.ofLeader, s.publishing.leader.FromIsr e'
  | .linked i (.followed e) => (s.links i).follower.Drained e
  | .linked _ _ => True
  | .delivered _ ack released =>
    s.publishing.leader.FromIsr (.acked ack.followerId ack.ackedOffset released)

theorem Step.follower_run (hst : Guarded (Step maxLag) Orderly s e s')
    (hr : Run (Step maxLag) s₀ es s) (h : Started s₀) (i : UInt32) :
    Run (Guarded (Follower.Step i) Follower.InTurn) (s.links i).follower (e.ofFollower i)
      (s'.links i).follower := by
  obtain ⟨hst, hG⟩ := hst
  have hcons := Run.consecutive_committed (i := i) hr hst h
  cases hst with
  | @publish e publishing hst he =>
    have hbatch : Event.committed (.published e) = writtenRecords e.ofStore := by
      simp [Event.committed, Event.ofPublishing]
    exact .single ⟨.commit _ (hbatch ▸ hcons), trivial, trivial⟩
  | @link j e a hst he =>
    by_cases hj : j = i
    · subst hj
      rw [Event.ofFollower, if_pos rfl]
      dsimp only
      rw [Function.update_self]
      rcases (follower_cases hst he.ne_committed).2 with ⟨hnil, heq⟩ | ⟨e', rfl, hown, hst'⟩
      · rw [hnil, Link.ofAcking, heq]
        exact .nil
      · exact .single ⟨hst', hG, hown⟩
    · rw [Event.ofFollower, if_neg hj]
      dsimp only
      rw [Function.update_of_ne (Ne.symm hj)]
      exact .nil
  | @deliver j ack a released publishing hst hlead =>
    rw [Event.ofFollower]
    by_cases hj : i = j
    · subst hj
      rcases (follower_cases hst fun _ => Acking.Event.noConfusion).2 with ⟨-, heq⟩ | ⟨_, h', -⟩
      · dsimp only
        rw [Function.update_self, Link.ofAcking, heq]
        exact .nil
      · cases h'
    · dsimp only
      rw [Function.update_of_ne hj]
      exact .nil

/-- A run is a run of each follower. -/
theorem Run.follower (hr : Run (Guarded (Step maxLag) Orderly) s₀ es s) (h : Started s₀)
    (i : UInt32) :
    Run (Guarded (Follower.Step i) Follower.InTurn) (s₀.links i).follower (followerEvents i es)
      (s.links i).follower :=
  hr.simulate (fun s => (s.links i).follower) (Event.ofFollower i) fun hr hst =>
    Step.follower_run hst hr.of_guarded h i

/-! ## What the followers acknowledge -/

/-- No offset of the run reaches `2 ^ 64`. -/
def Fits (es : List (Event κ)) : Prop := (accepted (storeEvents es)).length < 2 ^ 64

theorem Fits.of_snoc (h : Fits (es ++ [e])) : Fits es := by
  rw [Fits, storeEvents, publishingEvents_snoc, Publishing.storeEvents, List.flatMap_append,
    accepted, List.flatMap_append, List.length_append] at h
  exact Nat.lt_of_le_of_lt (Nat.le_add_right _ _) h

theorem Run.length_leaderLog_lt (hr : Run (Step maxLag) s₀ es s) (h : Started s₀)
    (hfit : Fits es) (i : UInt32) : (s.links i).follower.leaderLog.length < 2 ^ 64 := by
  rw [Run.leaderLog_eq hr h i]
  exact (Run.queued hr h).length_written_le.trans_lt hfit

/-- What a follower has appended comes from the leader. -/
theorem Run.appended_isPrefix (hr : Run (Guarded (Step maxLag) Orderly) s₀ es s) (h : Started s₀)
    (hfit : Fits es) (i : UInt32) :
    (Follower.appended (followerEvents i es)).map (·.payload) <+:
      (writtenRecords (storeEvents es)).map (·.payload) := by
  rw [← Run.leaderLog_eq hr.of_guarded h i]
  exact Follower.Run.appended_isPrefix ((Run.follower hr h i).mono fun hst => ⟨hst.1, hst.2.1⟩)
    (h.follower i) (Run.length_leaderLog_lt hr.of_guarded h hfit i)

theorem Run.length_appended_lt (hr : Run (Guarded (Step maxLag) Orderly) s₀ es s) (h : Started s₀)
    (hfit : Fits es) (i : UInt32) :
    (Follower.appended (followerEvents i es)).length < 2 ^ 64 := by
  have hlen := (Run.appended_isPrefix hr h hfit i).length_le
  rw [List.length_map, List.length_map] at hlen
  exact hlen.trans_lt ((Run.queued hr.of_guarded h).length_written_le.trans_lt hfit)

theorem nextOffset_of_started {f : Follower} (h : f.Started) : f.store.nextOffset = 0 := by
  obtain ⟨options, hopen⟩ := h.store
  rw [hopen, PartitionStore.nextOffset_open_empty]

theorem opened_of_started {f : Follower} (h : f.Started) : f.Opened := by
  refine ⟨h.fresh, ?_, h.client⟩
  obtain ⟨options, hopen⟩ := h.store
  rw [hopen]
  rfl

theorem Run.fits (hr : Run (Guarded (Step maxLag) Orderly) s₀ es s) (h : Started s₀)
    (hfit : Fits es) (i : UInt32) : (s₀.links i).follower.Fits (followerEvents i es) := by
  rw [Follower.Fits, nextOffset_of_started (h.follower i), UInt64.toNat_zero, Nat.zero_add]
  exact Run.length_appended_lt hr h hfit i

/-- The offset up to which the callbacks of a follower have been called. -/
def told (s₀ : Replicating κ) (es : List (Event κ)) (i : UInt32) : ℕ :=
  (s₀.links i).follower.told (followerEvents i es)

theorem told_le_snoc : told s₀ es i ≤ told s₀ (es ++ [e]) i := by
  simp only [told, followerEvents_snoc, Follower.told, Follower.storeEvents,
    PartitionStore.notifiedRecords, List.flatMap_append, List.length_append]
  omega

/-- A follower acknowledges what its callbacks have been called for: in the acknowledgements on
    their way, and in those that the leader has handled. -/
structure Honest (s₀ : Replicating κ) (es : List (Event κ)) (s : Replicating κ) : Prop where
  underway : ∀ i, ∀ ack ∈ (s.links i).underway,
    ack.followerId = i ∧ ack.ackedOffset.toNat ≤ told s₀ es i
  acks : ∀ f a, (f, a) ∈ Leader.acks (leaderEvents es) → a.toNat ≤ told s₀ es f

theorem acks_snoc : Leader.acks (leaderEvents (es ++ [e])) =
    Leader.acks (leaderEvents es) ++ Leader.acks e.ofLeader := by
  rw [leaderEvents_snoc, Leader.acks, List.flatMap_append]
  rfl

/-- On its own, the leader handles no acknowledgement. -/
theorem Unprompted.acks_eq_nil {e : Publishing.Event κ} (he : Unprompted e) :
    Leader.acks (Event.ofLeader (.published e)) = [] := by
  simp only [Event.ofLeader, Event.ofPublishing, List.flatMap_singleton]
  refine List.flatMap_eq_nil_iff.2 fun e' he' => ?_
  rcases Publishing.Event.eq_led he' with rfl | ⟨-, hack⟩
  · cases e' with
    | acked => exact he.elim
    | _ => rfl
  · exact hack

theorem Honest.acks_snoc (h : Honest s₀ es s) (hnil : Leader.acks e.ofLeader = []) {f : UInt32}
    {a : UInt64} (ha : (f, a) ∈ Leader.acks (leaderEvents (es ++ [e]))) :
    a.toNat ≤ told s₀ (es ++ [e]) f := by
  rw [Replicating.acks_snoc, hnil, List.append_nil] at ha
  exact (h.acks f a ha).trans told_le_snoc

/-- What happens on the side of a follower: it may acknowledge more, by what it commits. -/
theorem mem_underway_of_beside {leader : Leader} {l : Link} {e : Acking.Event} {a : Acking}
    (hst : Acking.Step i maxLag (l.acking leader) e a) (he : Beside e) {ack : ReplicaAck}
    (hack : ack ∈ a.underway) :
    ack ∈ l.underway ∨ ∃ e', e = .followed e' ∧ ack ∈ e'.fired := by
  cases hst with
  | @follow e follower hst hown =>
    exact (Acking.mem_underway_follow.1 hack).imp id fun hfired => ⟨e, rfl, hfired⟩
  | drain hi =>
    -- What is taken out is sent, or forgotten.
    simp only [Acking.underway, List.nil_append, List.mem_append] at hack
    refine .inl ?_
    rcases hack with (hsent | hout) | hlingering
    · exact List.mem_append_right _ (List.mem_append_left _ hsent)
    · split_ifs at hout
      · exact List.mem_append_left _ hout
      · exact absurd hout List.not_mem_nil
    · exact List.mem_append_right _ (List.mem_append_right _ hlingering)
  | @drop ack' before after hs =>
    refine .inl ?_
    rw [Acking.underway] at hack
    dsimp only [Link.acking] at hack hs
    rw [Link.underway, hs]
    simp only [List.mem_append, List.mem_cons] at hack ⊢
    tauto
  | deliver | deliverLate | lead | tick => exact he.elim

/-- The acknowledgement that is delivered was on its way. -/
theorem underway_of_delivered {leader : Leader} {l : Link} {a : Acking} {ack : ReplicaAck}
    (hst : Acking.Step i maxLag (l.acking leader) (.delivered ack) a) :
    ack ∈ l.underway ∧ ∀ ack' ∈ a.underway, ack' ∈ l.underway := by
  cases hst with
  | deliver hs =>
    dsimp only [Link.acking] at hs
    rw [Link.underway, hs]
    refine ⟨by simp, fun ack' h => ?_⟩
    simp only [Acking.underway, Link.acking, List.mem_append, List.mem_cons] at h ⊢
    tauto
  | deliverLate hs =>
    dsimp only [Link.acking] at hs
    rw [Link.underway, hs]
    refine ⟨by simp, fun ack' h => ?_⟩
    simp only [Acking.underway, Link.acking, List.mem_append, List.mem_cons] at h ⊢
    tauto

theorem Step.honest (hst : Guarded (Step maxLag) Orderly s e s')
    (hr : Run (Guarded (Step maxLag) Orderly) s₀ es s) (hs₀ : Started s₀) (hfit : Fits (es ++ [e]))
    (h : Honest s₀ es s) : Honest s₀ (es ++ [e]) s' := by
  have hfits := Run.fits (hr.snoc hst) hs₀ hfit
  obtain ⟨hst, hG⟩ := hst
  cases hst with
  | publish hst he =>
    refine ⟨fun i ack hack => ?_, fun f a ha => h.acks_snoc he.acks_eq_nil ha⟩
    exact (h.underway i ack hack).imp_right fun hle => hle.trans told_le_snoc
  | @link j e a hst he =>
    refine ⟨fun i ack hack => ?_, fun f a ha => h.acks_snoc rfl ha⟩
    dsimp only at hack
    by_cases hj : i = j
    · subst hj
      rw [Function.update_self] at hack
      rcases mem_underway_of_beside hst he hack with hold | ⟨e', rfl, hfired⟩
      · exact (h.underway i ack hold).imp_right fun hle => hle.trans told_le_snoc
      · -- The callbacks of the follower acknowledge what they are called for.
        have hopened := opened_of_started (hs₀.follower i)
        have hrun := Run.follower hr hs₀ i
        obtain ⟨-, ⟨hnil, -⟩ | ⟨e'', heq, hown, hst'⟩⟩ := follower_cases hst he.ne_committed
        · cases hnil
        · obtain rfl := Acking.Event.followed.inj heq
          have hfit' := hfits i
          rw [followerEvents_snoc, Event.ofFollower, if_pos rfl] at hfit'
          have hacks := hst'.acknowledges ⟨hG, hown⟩ hrun.of_guarded hopened hfit'
            (Follower.Run.tracking hrun hopened hfit'.of_append)
          rw [told, followerEvents_snoc, Event.ofFollower, if_pos rfl]
          exact hacks.1 ack hfired
    · rw [Function.update_of_ne hj] at hack
      exact (h.underway i ack hack).imp_right fun hle => hle.trans told_le_snoc
  | @deliver j ack a released publishing hst hlead =>
    obtain ⟨hmem, hrest⟩ := underway_of_delivered hst
    obtain ⟨hid, hle⟩ := h.underway j ack hmem
    refine ⟨fun i ack' hack => ?_, fun f a ha => ?_⟩
    · dsimp only at hack
      by_cases hj : i = j
      · subst hj
        rw [Function.update_self] at hack
        exact (h.underway i ack' (hrest ack' hack)).imp_right fun hle => hle.trans told_le_snoc
      · rw [Function.update_of_ne hj] at hack
        exact (h.underway i ack' hack).imp_right fun hle => hle.trans told_le_snoc
    · rw [acks_snoc] at ha
      rcases List.mem_append.1 ha with ha | ha
      · exact (h.acks f a ha).trans told_le_snoc
      · obtain ⟨rfl, rfl⟩ := Prod.mk.inj (List.mem_singleton.1 ha)
        rw [hid]
        exact hle.trans told_le_snoc

theorem Run.honest (hr : Run (Guarded (Step maxLag) Orderly) s₀ es s) (h : Started s₀)
    (hfit : Fits es) : Honest s₀ es s := by
  refine hr.invariant (I := fun es s => Fits es → Honest s₀ es s) (fun _ => ?_) ?_ hfit
  · refine ⟨fun i ack hack => ?_, fun f a ha => absurd ha List.not_mem_nil⟩
    rw [h.underway i] at hack
    exact absurd hack List.not_mem_nil
  · intro es s e s' hr ih hst hfit
    exact Step.honest hst hr h hfit (ih hfit.of_snoc)

/-! ## What is released -/

theorem Step.leader_run (hst : Guarded (Step maxLag) Orderly s e s') :
    Run (Guarded (Leader.Step maxLag) Leader.FromIsr) s.publishing.leader e.ofLeader
      s'.publishing.leader := by
  obtain ⟨hst, hG⟩ := hst
  cases hst with
  | @publish e publishing hst he =>
    rw [Event.ofLeader, Event.ofPublishing, List.flatMap_singleton]
    rcases hst.leader_cases with ⟨hnil, hs⟩ | ⟨e', heq, hlst⟩
    · rw [hnil, hs]
      exact .nil
    · rw [heq]
      exact .single ⟨hlst, hG e' (heq ▸ List.mem_singleton_self e')⟩
  | link => exact .nil
  | deliver i hst hlead =>
    rcases hlead.leader_cases with ⟨hnil, -⟩ | ⟨e', heq, hlst⟩
    · cases hnil
    · cases heq
      exact .single ⟨hlst, hG⟩

/-- A run is a run of the leader. -/
theorem Run.leader (hr : Run (Guarded (Step maxLag) Orderly) s₀ es s) :
    Run (Guarded (Leader.Step maxLag) Leader.FromIsr) s₀.publishing.leader (leaderEvents es)
      s.publishing.leader :=
  hr.project (·.publishing.leader) Event.ofLeader Step.leader_run

theorem leaderEvents_eq (es : List (Event κ)) :
    leaderEvents es = Publishing.leaderEvents (publishingEvents es) := by
  rw [Publishing.leaderEvents, publishingEvents, List.flatMap_assoc]
  rfl

/-- What the worker has gone through is in the log of the leader. -/
theorem Run.lt_of_committed (hr : Run (Guarded (Step maxLag) Orderly) s₀ es s) (h : Started s₀)
    (hfit : Fits es) {o : UInt64} (ho : Leader.Committed (leaderEvents es) o) :
    o.toNat < (writtenRecords (storeEvents es)).length := by
  obtain ⟨qc, hqc, hcov⟩ := ho
  have hnil : s₀.publishing.leader.carried = [] := by rw [Leader.carried, h.leader]
  have hcar := Leader.Run.commits_append_carried (Run.leader hr).of_guarded hnil
  have henq : qc ∈ Leader.enqueued (leaderEvents es) := hcar ▸ List.mem_append_left _ hqc
  rw [leaderEvents_eq] at henq
  obtain ⟨options, hopen⟩ := h.store
  have hzero : s₀.publishing.store.nextOffset.toNat = 0 := by
    rw [hopen, PartitionStore.nextOffset_open_empty]
    rfl
  have hlt := Publishing.Run.lt_of_enqueued (Run.publishing hr.of_guarded) h.fresh
    (by rw [hzero, Nat.zero_add]; exact hfit) henq hcov
  rwa [hzero, Nat.zero_add] at hlt

/-- What a follower has acknowledged is in its log. -/
theorem Run.lt_of_acked (hr : Run (Guarded (Step maxLag) Orderly) s₀ es s) (h : Started s₀)
    (hfit : Fits es) {o : UInt64} {f : UInt32} (ho : Leader.Acked (leaderEvents es) o f) :
    o.toNat < (writtenRecords (Follower.storeEvents (followerEvents f es))).length := by
  obtain ⟨a, ha, hlt⟩ := ho
  have hrun := (Run.follower hr h f).of_guarded
  have hle := (Run.honest hr h hfit).acks f a ha
  have htold := Follower.Run.told_add hrun (opened_of_started (h.follower f)) (Run.fits hr h hfit f)
  have hq := Follower.Run.queued hrun (h.follower f)
  have hcom := hq.toNat_committedOffset
    (by rw [UInt64.toNat_zero, Nat.zero_add]; exact Run.length_appended_lt hr h hfit f)
  rw [UInt64.toNat_zero, Nat.zero_add] at hcom
  rw [told] at hle
  have := UInt64.lt_iff_toNat_lt.1 hlt
  omega

/-- The record that was published with the offset of the entry is in the log of the leader, and
    in those of the followers that were in sync when the entry was registered. -/
def Replicated (es : List (Event κ)) (s : Replicating κ) (pa : PendingAck) : Prop :=
  ∃ r, (accepted (storeEvents es))[pa.offset.toNat]? = some r ∧ r.offset = pa.offset ∧
    s.publishing.store.wholeLog[pa.offset.toNat]? = some r ∧
    ∀ f ∈ pa.registeredAt.isrIds, f ≠ pa.registeredAt.leaderId →
      ∃ r', (s.links f).follower.store.wholeLog[pa.offset.toNat]? = some r' ∧
        r'.offset = r.offset ∧ r'.payload = r.payload

/-- The log of a store that was empty is what is written. -/
theorem wholeLog_eq {κ : Type} {store₀ store : PartitionStore κ}
    {es : List (PartitionStore.Event κ)} (hr : Run PartitionStore.Step store₀ es store)
    (h : ∃ options, store₀ = PartitionStore.open ∅ options)
    (hlt : (accepted es).length < 2 ^ 64) : store.wholeLog = writtenRecords es := by
  obtain ⟨options, rfl⟩ := h
  exact PartitionStore.Run.flatMap_records hr hlt

/-- A record that is written has the number of its place for its offset. -/
theorem offset_of_written {κ : Type} {store : PartitionStore κ}
    {es : List (PartitionStore.Event κ)} (hq : PartitionStore.Queued 0 es store)
    (hlt : (accepted es).length < 2 ^ 64) {o : UInt64} {r : Record}
    (hr : (writtenRecords es)[o.toNat]? = some r) :
    (accepted es)[o.toNat]? = some r ∧ r.offset = o := by
  have hlen := (List.getElem?_eq_some_iff.1 hr).1
  have hacc : (accepted es)[o.toNat]? = some r := by
    rw [← hq.accepted_eq, List.append_assoc, List.getElem?_append_left hlen]
    exact hr
  refine ⟨hacc, UInt64.toNat_inj.1 ?_⟩
  have hnum := hq.consecutive.numbered (by rwa [UInt64.toNat_zero, Nat.zero_add])
  obtain ⟨hlt', rfl⟩ := List.getElem?_eq_some_iff.1 hacc
  rw [hnum.offset_getElem hlt', UInt64.toNat_zero, Nat.zero_add]

/-- In every run of a leader and its followers from empty partitions, while the offsets fit, if
    followers let a frame through only when nothing is queued, entries are registered when the
    leader is in sync, and followers are counted only that were in sync then: when a response has
    been released, the record is in the log of the leader and of all followers that were in
    sync. -/
theorem replicated_of_released (h : Started s₀)
    (hr : Run (Guarded (Step maxLag) Orderly) s₀ es s) (hfit : Fits es) {pa : PendingAck}
    (hpa : pa ∈ (leaderEvents es).flatMap Leader.Event.releases) : Replicated es s pa := by
  obtain ⟨hcommitted, hacked⟩ := Leader.Run.durable (Run.leader hr) h.leader hpa
  have hq := Run.queued hr.of_guarded h
  have hlt := Run.lt_of_committed hr h hfit hcommitted
  have hrec := List.getElem?_eq_getElem hlt
  obtain ⟨hacc, hoff⟩ := offset_of_written hq hfit hrec
  refine ⟨_, hacc, hoff, ?_, fun f hf hne => ?_⟩
  · rw [wholeLog_eq (Run.store hr.of_guarded) h.store hfit, hrec]
  · have hrun := (Run.follower hr h f).of_guarded
    have hfitf := Run.length_appended_lt hr h hfit f
    have hltf := Run.lt_of_acked hr h hfit (hacked f hf hne)
    have hrecf := List.getElem?_eq_getElem hltf
    obtain ⟨haccf, hofff⟩ := offset_of_written (Follower.Run.queued hrun (h.follower f)) hfitf hrecf
    refine ⟨_, ?_, hofff.trans hoff.symm, ?_⟩
    · rw [wholeLog_eq (Follower.Run.store hrun) (h.follower f).store hfitf, hrecf]
    · -- What the follower has appended is what the leader has written.
      obtain ⟨rest, hrest⟩ := Run.appended_isPrefix hr h hfit f
      have hpayload := congrArg (·[pa.offset.toNat]?) hrest
      have hltf' : pa.offset.toNat <
          ((Follower.appended (followerEvents f es)).map (·.payload)).length := by
        rw [List.length_map]
        exact (List.getElem?_eq_some_iff.1 haccf).1
      rw [List.getElem?_append_left hltf', List.getElem?_map, List.getElem?_map, haccf, hrec]
        at hpayload
      exact Option.some.inj hpayload

/-! ## One record

The leader `0` publishes a record that the follower `1` receives and acknowledges. -/

section

open Follower (onlyRecord withStore)
open Publishing (broker emptyStore firstPending twoInSync)

/-- A step on the side of the follower. -/
theorem step_link {publishing : Publishing κ} {links : UInt32 → Link} {l l' : Link}
    {e : Acking.Event} {a : Acking} (hst : Acking.Step 1 0 (l.acking publishing.leader) e a)
    (he : Beside e) (hG : ∀ fe, e = .followed fe → l.follower.Drained fe)
    (hl : Link.ofAcking a = l') :
    Guarded (Step 0) Orderly ⟨publishing, Function.update links 1 l⟩ (.linked 1 e)
      ⟨publishing, Function.update links 1 l'⟩ := by
  have hself : Function.update links 1 l 1 = l := Function.update_self _ _ _
  rw [← hself] at hst
  have hlink := Step.link (s := ⟨publishing, Function.update links 1 l⟩) 1 hst he
  rw [hl, Function.update_idem] at hlink
  refine ⟨hlink, ?_⟩
  cases e with
  | followed fe => exact (congrArg (fun l => l.follower.Drained fe) hself).mpr (hG fe rfl)
  | _ => trivial

/-- What the follower does without acknowledging anything. -/
theorem run_linked {publishing : Publishing κ} {links : UInt32 → Link} {f f' : Follower}
    {fes : List Follower.Event}
    (hr : Run (Guarded (Follower.Step 1) Follower.Drained) f fes f')
    (hfes : ∀ e ∈ fes, e.Own ∧ e.fired = [] ∧ Beside (.followed e)) :
    Run (Guarded (Step 0) Orderly) ⟨publishing, Function.update links 1 { follower := f }⟩
      (fes.map fun e => .linked 1 (.followed e))
      ⟨publishing, Function.update links 1 { follower := f' }⟩ := by
  induction hr with
  | nil => exact .nil
  | @snoc fes f f' e hr hst ih =>
    obtain ⟨hown, hfired, hbeside⟩ := hfes e (by simp)
    rw [List.map_append]
    refine (ih fun e he => hfes e (List.mem_append_left _ he)).snoc
      (step_link (.follow hst.1 hown) hbeside (fun fe hfe => ?_) ?_)
    · cases hfe
      exact hst.2
    · simp [Link.ofAcking, Acking.follow, Link.acking, hfired]

/-- A step of the leader. -/
theorem step_publish {p p' : Publishing κ} {e : Publishing.Event κ} (links : UInt32 → Link)
    (hst : Publishing.Step 0 p e p') (hun : Unprompted e)
    (hisr : ∀ e' ∈ e.ofLeader, p.leader.FromIsr e') :
    Guarded (Step 0) Orderly ⟨p, links⟩ (.published e)
      ⟨p', fun i => (links i).commit (writtenRecords e.ofStore)⟩ :=
  ⟨.publish hst hun, hisr⟩

/-- What the leader does without registering anything. -/
theorem run_published {publishing publishing' : Publishing κ} {links : UInt32 → Link}
    {pes : List (Publishing.Event κ)}
    (hr : Run (Publishing.Step 0) publishing pes publishing')
    (hpes : ∀ e ∈ pes, Unprompted e ∧ ∀ l : Leader, ∀ e' ∈ e.ofLeader, l.FromIsr e') :
    Run (Guarded (Step 0) Orderly) ⟨publishing, links⟩ (pes.map .published)
      ⟨publishing', fun i =>
        (links i).commit (writtenRecords (Publishing.storeEvents pes))⟩ := by
  induction hr with
  | nil =>
    have hnil : (fun i => (links i).commit []) = links :=
      funext fun i => by simp [Link.commit]
    simp only [Publishing.storeEvents, List.flatMap_nil, writtenRecords, hnil]
    exact .nil
  | @snoc pes p p' e hr hst ih =>
    obtain ⟨hun, hisr⟩ := hpes e (by simp)
    have hlinks : ∀ i, ((links i).commit (writtenRecords (Publishing.storeEvents pes))).commit
        (writtenRecords e.ofStore) =
          (links i).commit (writtenRecords (Publishing.storeEvents (pes ++ [e]))) := by
      intro i
      simp [Link.commit, writtenRecords]
    have hrun := (ih fun e he => hpes e (List.mem_append_left _ he)).snoc
      (step_publish _ hst hun (hisr _))
    simp only [hlinks] at hrun
    rwa [List.map_append]

/-- The brokers, with nothing published. -/
def beforeOne : Replicating Unit where
  publishing := broker emptyStore {} twoInSync .idle
  links _ := { follower := { withStore none .idle Follower.emptyStore with leaderLog := [] } }

theorem started_beforeOne : Started beforeOne where
  store := ⟨{}, rfl⟩
  leader := rfl
  follower _ := ⟨⟨{}, rfl⟩, rfl, rfl, fun _ _ h => by simp [beforeOne] at h⟩
  leaderLog _ := rfl
  underway _ := rfl

/-- The record is committed, its entry registered, and the commit gone through. -/
def committedOne : Publishing Unit :=
  broker (emptyStore.notifiedOne onlyRecord.payload 0)
    { pending := [(firstPending twoInSync).mark]
      worker := .swept ⟨0, [onlyRecord]⟩ [] } twoInSync .idle

/-- The record is queued, and its entry registered. -/
def registeredOne : Publishing Unit :=
  broker (emptyStore.enqueue onlyRecord.payload 0)
    { pending := [firstPending twoInSync] } twoInSync .idle

theorem run_registeredOne :
    Run (Guarded (Step 0) Orderly) beforeOne
      [.published (.appended onlyRecord), .published .managed, .published (.returned 0 5)]
      ⟨registeredOne, beforeOne.links⟩ := by
  have hreq : ReplicaManager.isrRequired twoInSync = 1 := by decide +kernel
  have hacc : (emptyStore.append onlyRecord.payload 0).1.accepted = true := by decide
  have hled : Leader.LedIsr twoInSync := ⟨by decide, by decide, by decide⟩
  have happend : Publishing.Step 0 (broker emptyStore {} twoInSync .idle) (.appended onlyRecord)
      (broker (emptyStore.enqueue onlyRecord.payload 0) {} twoInSync
        (.appended 0 5)) :=
    .append onlyRecord.payload 0 5 rfl hacc
  have hmanage : Publishing.Step 0
      (broker (emptyStore.enqueue onlyRecord.payload 0) {} twoInSync (.appended 0 5))
      .managed (broker (emptyStore.enqueue onlyRecord.payload 0) {} twoInSync
        (.managed 0 5)) :=
    .manage rfl
  have hregister : Publishing.Step 0
      (broker (emptyStore.enqueue onlyRecord.payload 0) {} twoInSync (.managed 0 5)) (.returned 0 5)
      (broker (emptyStore.enqueue onlyRecord.payload 0)
        (ReplicaManager.registerPending {} twoInSync 0 (encodeAck 0) 5) twoInSync .idle) :=
    .register rfl rfl
  rw [Publishing.registerPending_first hreq] at hregister
  exact .cons (step_publish _ happend trivial fun e' he' => absurd he' List.not_mem_nil) <|
    .cons (step_publish _ hmanage trivial fun e' he' => absurd he' List.not_mem_nil) <|
    .single (step_publish _ hregister trivial fun e' he' => by
      rw [List.mem_singleton.1 he']
      exact hled)

/-- What the leader does with the record then. -/
def committedEvents : List (Publishing.Event Unit) :=
  (emptyStore.notifyOneEvents onlyRecord.payload 0).map (.stored · true) ++
    [.led .popped, .led (.processed ⟨0, [onlyRecord]⟩ [])]

theorem run_committedOne :
    Run (Publishing.Step 0) registeredOne committedEvents committedOne := by
  have hstore := @PartitionStore.Idle.run_notifiedOne _ _ onlyRecord.payload 0
    Publishing.idle_emptyStore (by decide) (by decide)
  have hcommit : Run (Publishing.TimelyStep 0) registeredOne _ _ :=
    Publishing.Run.stored hstore
      (by simp [PartitionStore.notifyOneEvents, PartitionStore.Event.accepted]) rfl
  refine (Publishing.Run.of_timely hcommit).append ?_
  have hpop : Leader.Step 0
      ⟨{ pending := [firstPending twoInSync], commitQueue := [⟨0, [onlyRecord]⟩] }, twoInSync⟩
      .popped ⟨{ pending := [firstPending twoInSync], worker := .popped ⟨0, [onlyRecord]⟩ },
        twoInSync⟩ := .pop rfl rfl
  have hprocess : Leader.Step 0
      ⟨{ pending := [firstPending twoInSync], worker := .popped ⟨0, [onlyRecord]⟩ }, twoInSync⟩
      (.processed ⟨0, [onlyRecord]⟩ [])
      ⟨{ pending := [(firstPending twoInSync).mark], worker := .swept ⟨0, [onlyRecord]⟩ [] },
        twoInSync⟩ := .process rfl
  exact .cons (.lead rfl hpop trivial) (.single (.lead rfl hprocess trivial))

/-- The follower's side, with its connection open. -/
def linkOne (store : PartitionStore ReplicaAck) (outAcks sent : List ReplicaAck) : Link where
  follower := withStore (some ⟨.sending 1, []⟩) .idle store
  outAcks := outAcks
  sent := sent

/-- The followers, when the leader has committed the record. -/
def linksOne : UInt32 → Link := fun _ => { follower := withStore none .idle Follower.emptyStore }

/-- The follower commits the record, and queues the acknowledgement. -/
theorem run_queuedOne :
    Run (Guarded (Step 0) Orderly) ⟨committedOne, linksOne⟩
      ((Acking.writtenEvents.map fun e => .linked 1 (.followed e)) ++
        [.linked 1 (.followed (.stored (.notified [onlyRecord] [Acking.onlyAck])))])
      ⟨committedOne, Function.update linksOne 1
        (linkOne Acking.notifiedStore [Acking.onlyAck] [])⟩ := by
  have hstored : Run (Guarded (Follower.Step 1) Follower.Drained)
      (withStore (some ⟨.sending 1, []⟩) .idle _)
      [.stored (.took onlyRecord), .stored .gathered, .stored (.wrote 0 [onlyRecord])]
      (withStore _ .idle Acking.writtenStore) :=
    Acking.run_stored Acking.run_writtenStore (by simp [PartitionStore.Event.accepted])
  have hwritten : Run (Guarded (Step 0) Orderly)
      ⟨committedOne, Function.update linksOne 1 (linksOne 1)⟩
      (Acking.writtenEvents.map fun e => .linked 1 (.followed e))
      ⟨committedOne, Function.update linksOne 1 (linkOne Acking.writtenStore [] [])⟩ := by
    refine run_linked (Follower.run_receiveOnce.append hstored) fun e he => ?_
    simp only [Acking.writtenEvents, Follower.receiveEvents, List.cons_append, List.nil_append,
      List.mem_cons, List.not_mem_nil, or_false] at he
    rcases he with rfl | rfl | rfl | rfl | rfl | rfl | rfl | rfl | rfl <;>
      exact ⟨trivial, rfl, trivial⟩
  rw [Function.update_eq_self] at hwritten
  have hnotify : Follower.Step 1 (withStore (some ⟨.sending 1, []⟩) .idle Acking.writtenStore)
      (.stored (.notified [onlyRecord] [Acking.onlyAck]))
      (withStore (some ⟨.sending 1, []⟩) .idle Acking.notifiedStore) :=
    .store (s := withStore (some ⟨.sending 1, []⟩) .idle Acking.writtenStore)
      Acking.step_notifiedStore rfl
  have hfire : Guarded (Step 0) Orderly
      ⟨committedOne, Function.update linksOne 1 (linkOne Acking.writtenStore [] [])⟩
      (.linked 1 (.followed (.stored (.notified [onlyRecord] [Acking.onlyAck]))))
      ⟨committedOne, Function.update linksOne 1
        (linkOne Acking.notifiedStore [Acking.onlyAck] [])⟩ := by
    refine step_link (.follow hnotify trivial) trivial (fun fe hfe => ?_) rfl
    cases hfe
    trivial
  exact hwritten.snoc hfire

/-- The record is published, and replicated to the follower. -/
def oneEvents : List (Event Unit) :=
  [.published (.appended onlyRecord), .published .managed, .published (.returned 0 5)] ++
    committedEvents.map .published ++
    ((Acking.writtenEvents.map fun e => .linked 1 (.followed e)) ++
      [.linked 1 (.followed (.stored (.notified [onlyRecord] [Acking.onlyAck])))])

theorem run_acknowledgedOne : Run (Guarded (Step 0) Orderly) beforeOne oneEvents
    ⟨committedOne, Function.update linksOne 1
      (linkOne Acking.notifiedStore [Acking.onlyAck] [])⟩ := by
  have hcommitted : Run (Guarded (Step 0) Orderly) ⟨registeredOne, beforeOne.links⟩ _
      ⟨committedOne, linksOne⟩ :=
    run_published run_committedOne fun e he => by
      simp only [committedEvents, PartitionStore.notifyOneEvents, List.map_cons, List.map_nil,
        List.cons_append, List.nil_append, List.mem_cons, List.not_mem_nil, or_false] at he
      rcases he with rfl | rfl | rfl | rfl | rfl | rfl <;>
        exact ⟨trivial, fun l e' he' => by
          simp [Publishing.Event.ofLeader, Publishing.commitOf] at he' <;> subst he' <;> trivial⟩
  exact (run_registeredOne.append hcommitted).append run_queuedOne

/-- It sends the acknowledgement. -/
theorem step_drainOne : Guarded (Step 0) Orderly
    ⟨committedOne, Function.update linksOne 1 (linkOne Acking.notifiedStore [Acking.onlyAck] [])⟩
    (.linked 1 .drained)
    ⟨committedOne, Function.update linksOne 1
      (linkOne Acking.notifiedStore [] [Acking.onlyAck])⟩ :=
  step_link (.drain rfl) trivial (fun fe hfe => by cases hfe) rfl

/-- The acknowledgement arrives. -/
theorem step_deliverOne : ∃ s', Guarded (Step 0) Orderly
    ⟨committedOne, Function.update linksOne 1 (linkOne Acking.notifiedStore [] [Acking.onlyAck])⟩
    (.delivered 1 Acking.onlyAck [(firstPending twoInSync).mark]) s' := by
  have hself : Function.update linksOne 1 (linkOne Acking.notifiedStore [] [Acking.onlyAck]) 1 =
      linkOne Acking.notifiedStore [] [Acking.onlyAck] := Function.update_self _ _ _
  have hlink : ∃ a, Acking.Step 1 0
      ((linkOne Acking.notifiedStore [] [Acking.onlyAck]).acking committedOne.leader)
      (.delivered Acking.onlyAck) a := ⟨_, .deliver rfl⟩
  have hack : ∃ p, Publishing.Step 0 committedOne
      (.led (.acked 1 1 [(firstPending twoInSync).mark])) p := ⟨_, .lead rfl (.ack 1 1) trivial⟩
  rw [← hself] at hlink
  obtain ⟨a, hlink⟩ := hlink
  obtain ⟨p, hack⟩ := hack
  refine ⟨_, .deliver 1 hlink hack, fun pa hpa _ => ?_⟩
  rw [List.mem_singleton.1 hpa]
  decide

theorem mem_releases_delivered {ack : ReplicaAck} {released : List PendingAck} {pa : PendingAck}
    (hpa : pa ∈ released) :
    pa ∈ (leaderEvents (es ++ [.delivered i ack released])).flatMap Leader.Event.releases := by
  rw [leaderEvents_snoc, List.flatMap_append]
  exact List.mem_append_right _ (List.mem_flatMap.2 ⟨_, List.mem_singleton_self _, hpa⟩)

/-- The response is released when the acknowledgement arrives. -/
theorem replicated_onlyRecord : ∃ (es : List (Event Unit)) (s : Replicating Unit) (pa : PendingAck),
    Run (Guarded (Step 0) Orderly) beforeOne es s ∧
      pa ∈ (leaderEvents es).flatMap Leader.Event.releases ∧ 1 ∈ pa.registeredAt.isrIds ∧
      Replicated es s pa := by
  obtain ⟨s', hdeliver⟩ := step_deliverOne
  have hrun := (run_acknowledgedOne.snoc step_drainOne).snoc hdeliver
  refine ⟨_, s', _, hrun, mem_releases_delivered (List.mem_singleton_self _), by decide, ?_⟩
  exact replicated_of_released started_beforeOne hrun (by decide : 1 < 2 ^ 64)
    (mem_releases_delivered (List.mem_singleton_self _))

end

end Replicating

end Fell.Broker
