import Fell.Replication.Election
import Fell.Replication.Follower
import Fell.Replication.ReplicaManager

/-!
# Frames of an old epoch

`REPLICA_SYNC` and `REPLICA_ACK` carry the epoch of the leader they come from or go to. The
broker that handles them has an epoch of its own for the partition, which an election or a
candidacy raises (`PartitionMeta`). Elections of an old epoch are turned down
(`handle_leader_election`), but neither `on_replica_sync` nor `handle_replica_ack` looks at
the epoch of a frame.

Here is one broker, with the frames that have been sent to it and that it has not handled
yet. It handles them in any order, between the moves of the other threads. What `on_readable` does
to its buffer after a rejected frame is left out.

* `Run.ahead`: if frames are sent only by brokers that are not behind, and the epoch is raised
  only when no older frame is under way, the frames under way are as new as the broker;
* `fenced`: then no record is appended from a frame of an old epoch, and no
  acknowledgement of an old epoch is counted.

Otherwise both happen (`not_fenced`).
-/

namespace Fell.Replication

open Platform Storage

/-- The replica manager leaves the epoch alone. -/
theorem Leader.Step.epoch_eq {maxLag : UInt64} {s s' : Leader} {e : Leader.Event}
    (hst : Leader.Step maxLag s e s') : s'.partition.epoch = s.partition.epoch := by
  cases hst with
  | finish hw =>
    rw [Leader.finishCommit]
    dsimp only
    split <;> rfl
  | _ => rfl

/-- A frame with an epoch. -/
inductive EpochFrame
  /-- `REPLICA_SYNC`. -/
  | sync (epoch : UInt32) (record : Record)
  /-- `REPLICA_ACK`. -/
  | ack (a : ReplicaAck)

def EpochFrame.epoch : EpochFrame → UInt32
  | .sync epoch _ => epoch
  | .ack a => a.epoch

/-- The frame in the hands of the client. -/
def Client.frame : Client → List EpochFrame
  | .idle => []
  | .checked epoch record | .registered epoch record => [.sync epoch record]

/-- The acknowledgement is counted for the entry. -/
def PendingAck.Counts (pa : PendingAck) (ack : ReplicaAck) : Prop :=
  pa.offset < ack.ackedOffset ∧ ack.followerId ∉ pa.ackedFollowers

/-- A broker, as far as a partition is concerned. -/
structure Replica where
  leader : Leader
  store : PartitionStore ReplicaAck
  client : Client
  /-- The frames that have been sent to the broker: on their way, or in a receive buffer. -/
  inbox : List EpochFrame

namespace Replica

variable (s : Replica)

/-- The epoch of the broker. -/
def epoch : UInt32 := s.leader.partition.epoch

/-- The frames that are not handled yet. -/
def underway : List EpochFrame := s.client.frame ++ s.inbox

/-- The metadata are changed. -/
def setPartition (m : PartitionMeta) : Replica :=
  { s with leader := { s.leader with partition := m } }

/-- What happens in a step. -/
inductive Event
  | sent (frame : EpochFrame)
  | lost (frame : EpochFrame)
  | passed (epoch : UInt32) (record : Record)
  | gap (epoch : UInt32) (record : Record)
  | registered (epoch : UInt32) (record : Record)
  | appended (epoch : UInt32) (record : Record)
  | refused (epoch : UInt32) (record : Record)
  | acked (ack : ReplicaAck)
  | campaigned
  | elected (le : LeaderElection)
  | stored (e : PartitionStore.Event ReplicaAck)
  | led (e : Leader.Event)

/-- A step of the broker, or of those that send to it. -/
inductive Step (brokerId : UInt32) (maxLag : UInt64) (s : Replica) : Event → Replica → Prop
  | send (frame : EpochFrame) :
      Step brokerId maxLag s (.sent frame) { s with inbox := s.inbox ++ [frame] }
  | lose {fs fs' : List EpochFrame} {frame : EpochFrame} (hin : s.inbox = fs ++ frame :: fs') :
      Step brokerId maxLag s (.lost frame) { s with inbox := fs ++ fs' }
  /-- `on_replica_sync`: the frame is let through. -/
  | pass {fs fs' : List EpochFrame} {epoch : UInt32} {record : Record} (hi : s.client = .idle)
      (hin : s.inbox = fs ++ .sync epoch record :: fs')
      (hoff : record.offset = s.store.nextOffsetOfWriter) :
      Step brokerId maxLag s (.passed epoch record)
        { s with inbox := fs ++ fs', client := .checked epoch record }
  /-- `on_replica_sync`: the frame is not the one expected. -/
  | gap {fs fs' : List EpochFrame} {epoch : UInt32} {record : Record} (hi : s.client = .idle)
      (hin : s.inbox = fs ++ .sync epoch record :: fs')
      (hoff : record.offset ≠ s.store.nextOffsetOfWriter) :
      Step brokerId maxLag s (.gap epoch record) { s with inbox := fs ++ fs' }
  | register {epoch : UInt32} {record : Record} (hi : s.client = .checked epoch record) :
      Step brokerId maxLag s (.registered epoch record)
        { s with
          client := .registered epoch record
          store := (s.store.setOnceCommitCallback record.offset
            (Follower.ackOf brokerId epoch record)).2 }
  | append {epoch : UInt32} {record : Record} (now : UInt64)
      (hi : s.client = .registered epoch record)
      (hacc : (s.store.append record.payload now).1.accepted = true) :
      Step brokerId maxLag s (.appended epoch record)
        { s with client := .idle, store := (s.store.append record.payload now).2 }
  | refuse {epoch : UInt32} {record : Record} (now : UInt64)
      (hi : s.client = .registered epoch record)
      (hrej : (s.store.append record.payload now).1.accepted = false) :
      Step brokerId maxLag s (.refused epoch record)
        { s with client := .idle, store := (s.store.append record.payload now).2 }
  /-- `handle_replica_ack`. -/
  | ack {fs fs' : List EpochFrame} {a : ReplicaAck} (hin : s.inbox = fs ++ .ack a :: fs') :
      Step brokerId maxLag s (.acked a)
        { s with
          leader := (s.leader.onReplicaAck maxLag a.followerId a.ackedOffset).2
          inbox := fs ++ fs' }
  /-- `maybe_elect_self`, by one who is not a candidate yet. -/
  | campaign (hrole : s.leader.partition.role ≠ .candidate) :
      Step brokerId maxLag s .campaigned (s.setPartition s.leader.partition.electSelf)
  /-- `handle_leader_election`. -/
  | elect (le : LeaderElection) :
      Step brokerId maxLag s (.elected le)
        (s.setPartition (s.leader.partition.handleLeaderElection brokerId
          (some s.store.committedOffset) le))
  /-- The I/O thread, or a client of the broker. -/
  | store {e : PartitionStore.Event ReplicaAck} {store' : PartitionStore ReplicaAck}
      (hst : PartitionStore.Step s.store e store') :
      Step brokerId maxLag s (.stored e) { s with store := store' }
  /-- The replica manager, but for the acknowledgements of followers. -/
  | lead {e : Leader.Event} {l : Leader} (hst : Leader.Step maxLag s.leader e l)
      (hack : e.ack = []) : Step brokerId maxLag s (.led e) { s with leader := l }

variable {s} {s' s₀ : Replica} {brokerId : UInt32} {maxLag : UInt64} {e : Event} {es : List Event}

/-- No frame is of an epoch older than that of the broker. -/
def Ahead (s : Replica) : Prop := ∀ f ∈ s.underway, s.epoch ≤ f.epoch

/-- A frame is sent by a broker that is not behind, and the epoch is raised when all frames
    under way are as new. -/
def Current (s : Replica) : Event → Prop
  | .sent frame => s.epoch ≤ frame.epoch
  | .campaigned => ∀ f ∈ s.underway, s.epoch + 1 ≤ f.epoch
  | .elected le => s.leader.partition.Accepts (some s.store.committedOffset) le →
      ∀ f ∈ s.underway, le.epoch ≤ f.epoch
  | _ => True

/-- A step that leaves the epoch, and adds no frame. -/
theorem Ahead.mono (h : Ahead s) (hepoch : s'.epoch = s.epoch) (hsub : s'.underway ⊆ s.underway) :
    Ahead s' := fun f hf => hepoch ▸ h f (hsub hf)

/-- A frame that is taken from the inbox was in it. -/
theorem subset_inbox {fs fs' : List EpochFrame} {f : EpochFrame}
    (hin : s.inbox = fs ++ f :: fs') : fs ++ fs' ⊆ s.inbox := by
  rw [hin]
  exact List.append_subset.2 ⟨List.subset_append_left _ _,
    List.Subset.trans (List.subset_cons_self f fs') (List.subset_append_right _ _)⟩

/-- A step that takes a frame from the inbox. -/
theorem Ahead.take {fs fs' : List EpochFrame} {f : EpochFrame} (h : Ahead s)
    (hin : s.inbox = fs ++ f :: fs') : Ahead { s with inbox := fs ++ fs' } :=
  h.mono rfl (List.append_subset.2 ⟨List.subset_append_left _ _,
    List.Subset.trans (subset_inbox hin) (List.subset_append_right _ _)⟩)

theorem mem_inbox {fs fs' : List EpochFrame} {f : EpochFrame} (hin : s.inbox = fs ++ f :: fs') :
    f ∈ s.inbox := by
  rw [hin]
  exact List.mem_append_right _ List.mem_cons_self

theorem Step.ahead (hst : Step brokerId maxLag s e s') (hG : Current s e) (h : Ahead s) :
    Ahead s' := by
  cases hst with
  | send frame =>
    intro f hf
    rcases List.mem_append.1 hf with hf | hf
    · exact h f (List.mem_append_left _ hf)
    · rcases List.mem_append.1 hf with hf | hf
      · exact h f (List.mem_append_right _ hf)
      · rw [List.mem_singleton.1 hf]
        exact hG
  | lose hin => exact h.take hin
  | pass hi hin hoff =>
    -- The frame goes from the inbox to the client.
    have hsub := List.Subset.trans (subset_inbox hin) (List.subset_append_right s.client.frame _)
    exact h.mono rfl (List.cons_subset.2 ⟨List.mem_append_right _ (mem_inbox hin), hsub⟩)
  | gap hi hin hoff => exact h.take hin
  | register hi =>
    refine h.mono rfl ?_
    rw [underway, underway, hi]
    exact List.Subset.refl _
  | append now hi hacc => exact h.mono rfl (List.subset_append_right _ _)
  | refuse now hi hrej => exact h.mono rfl (List.subset_append_right _ _)
  | ack hin => exact (h.take hin).mono rfl (List.Subset.refl _)
  | campaign hrole => exact hG
  | elect le =>
    by_cases hacc : s.leader.partition.Accepts (some s.store.committedOffset) le
    · have hepoch : (s.setPartition (s.leader.partition.handleLeaderElection brokerId
          (some s.store.committedOffset) le)).epoch = le.epoch := by
        rw [PartitionMeta.handleLeaderElection, if_pos hacc]
        rfl
      intro f hf
      rw [hepoch]
      exact hG hacc f hf
    · rw [PartitionMeta.handleLeaderElection, if_neg hacc]
      exact h
  | store hst => exact h
  | lead hst hack => exact h.mono hst.epoch_eq (List.Subset.refl _)

/-- The broker has just started. -/
structure Started (s : Replica) : Prop where
  client : s.client = .idle
  inbox : s.inbox = []

theorem Run.ahead (hr : Run (Guarded (Step brokerId maxLag) Current) s₀ es s) (h : Started s₀) :
    Ahead s := by
  refine hr.invariant (I := fun _ s => Ahead s) (fun f hf => ?_) fun _ ih hst =>
    hst.1.ahead hst.2 ih
  rw [underway, h.client, h.inbox] at hf
  exact absurd hf List.not_mem_nil

/-- No record is appended from a frame of an old epoch, and no acknowledgement of an old epoch is
    counted for an entry. -/
def Fenced (s : Replica) : Event → Prop
  | .appended epoch _ => s.epoch ≤ epoch
  | .acked ack => (∃ pa ∈ s.leader.manager.pending, pa.Counts ack) → s.epoch ≤ ack.epoch
  | _ => True

/-- In every run in which frames are sent only by brokers that are not behind, and the epoch is
    raised only when all frames under way are as new, frames of an old epoch have no effect. What
    `on_readable` does to its buffer after a rejected frame is left out. -/
theorem fenced (h : Started s₀) (hr : Run (Guarded (Step brokerId maxLag) Current) s₀ es s)
    (hst : Guarded (Step brokerId maxLag) Current s e s') : Fenced s e := by
  have hahead := Run.ahead hr h
  obtain ⟨hst, -⟩ := hst
  cases hst with
  | @append epoch record now hi hacc =>
    have hmem : .sync epoch record ∈ s.client.frame := by
      rw [hi]
      exact List.mem_singleton_self _
    exact hahead _ (List.mem_append_left _ hmem)
  | ack hin => exact fun _ => hahead (.ack _) (List.mem_append_right _ (mem_inbox hin))
  | _ => trivial

/-! ## An old leader -/

section

/-- The broker `1`, with the metadata of the partition and the frames sent to it as given. -/
def withMeta (m : PartitionMeta) (inbox : List EpochFrame) : Replica where
  leader := ⟨{}, m⟩
  store := Follower.emptyStore
  client := .idle
  inbox := inbox

/-- The metadata in the first epoch. -/
def firstMeta : PartitionMeta := { topic := [] }

theorem started_firstMeta : Started (withMeta firstMeta []) := ⟨rfl, rfl⟩

/-- The election of another broker. -/
def newLeader : LeaderElection := ⟨2, 1, 0⟩

/-- The metadata once it is accepted. -/
def electedMeta : PartitionMeta := { firstMeta with epoch := 1, leaderId := 2 }

theorem elect_newLeader (inbox : List EpochFrame) :
    Step 1 0 (withMeta firstMeta inbox) (.elected newLeader) (withMeta electedMeta inbox) :=
  .elect newLeader

/-- The broker has registered the callback for the record. -/
def awaiting (m : PartitionMeta) (epoch : UInt32) : Replica where
  leader := ⟨{}, m⟩
  store := (Follower.emptyStore.setOnceCommitCallback 0
    (Follower.ackOf 1 epoch Follower.onlyRecord)).2
  client := .registered epoch Follower.onlyRecord
  inbox := []

/-- A frame is handled, whatever its epoch. -/
theorem run_handle {G : Replica → Event → Prop} (m : PartitionMeta) (epoch : UInt32)
    (hG : ∀ s, G s (.passed epoch Follower.onlyRecord) ∧
      G s (.registered epoch Follower.onlyRecord)) :
    Run (Guarded (Step 1 0) G) (withMeta m [.sync epoch Follower.onlyRecord])
      [.passed epoch Follower.onlyRecord, .registered epoch Follower.onlyRecord]
      (awaiting m epoch) := by
  have hpass : Step 1 0 (withMeta m [.sync epoch Follower.onlyRecord])
      (.passed epoch Follower.onlyRecord)
      { withMeta m [] with client := .checked epoch Follower.onlyRecord } :=
    @Step.pass 1 0 (withMeta m [.sync epoch Follower.onlyRecord]) [] [] _ _ rfl rfl rfl
  exact .cons ⟨hpass, (hG _).1⟩ (.single ⟨.register rfl, (hG _).2⟩)

theorem append_awaiting (m : PartitionMeta) (epoch : UInt32) :
    Step 1 0 (awaiting m epoch) (.appended epoch Follower.onlyRecord)
      { awaiting m epoch with
        client := .idle
        store := ((awaiting m epoch).store.append Follower.onlyRecord.payload 0).2 } :=
  .append 0 rfl rfl

/-- The record of a leader that was elected before it was sent. -/
theorem fenced_newLeader : ∃ es s s', Started (withMeta firstMeta []) ∧
    Run (Guarded (Step 1 0) Current) (withMeta firstMeta []) es s ∧
      Guarded (Step 1 0) Current s (.appended 1 Follower.onlyRecord) s' ∧
        Fenced s (.appended 1 Follower.onlyRecord) := by
  have helect : Guarded (Step 1 0) Current (withMeta firstMeta []) (.elected newLeader)
      (withMeta electedMeta []) := ⟨elect_newLeader [], fun _ _ hf => nomatch hf⟩
  have hsend : Guarded (Step 1 0) Current (withMeta electedMeta [])
      (.sent (.sync 1 Follower.onlyRecord))
      (withMeta electedMeta [.sync 1 Follower.onlyRecord]) :=
    ⟨.send _, UInt32.le_refl _⟩
  have hhandle := run_handle (G := Current) electedMeta 1 fun _ => ⟨trivial, trivial⟩
  have hr := Run.cons helect (.cons hsend hhandle)
  have hst : Guarded (Step 1 0) Current _ _ _ := ⟨append_awaiting electedMeta 1, trivial⟩
  exact ⟨_, _, _, started_firstMeta, hr, hst, fenced started_firstMeta hr hst⟩

/-- The broker leads the partition, and a producer waits for an acknowledgement. -/
def pendingFirst (m : PartitionMeta) (inbox : List EpochFrame) : Replica :=
  { withMeta m inbox with leader := ⟨{ pending := [Leader.firstEntry] }, m⟩ }

/-- An acknowledgement in the first epoch. -/
def oldAck : ReplicaAck := ⟨0, 1, 3⟩

/-- A frame that was sent before a new leader was elected is handled after that. -/
theorem not_fenced :
    (¬∀ (brokerId : UInt32) (maxLag : UInt64) (s₀ s s' : Replica) (es : List Event) (epoch : UInt32)
      (record : Record), Started s₀ → Run (Step brokerId maxLag) s₀ es s →
        Step brokerId maxLag s (.appended epoch record) s' → Fenced s (.appended epoch record)) ∧
    ¬∀ (brokerId : UInt32) (maxLag : UInt64) (s₀ s s' : Replica) (es : List Event) (a : ReplicaAck),
      Started s₀ → Run (Step brokerId maxLag) s₀ es s → Step brokerId maxLag s (.acked a) s' →
        Fenced s (.acked a) := by
  refine ⟨fun hall => ?_, fun hall => ?_⟩
  · have hsend : Step 1 0 (withMeta firstMeta []) (.sent (.sync 0 Follower.onlyRecord))
        (withMeta firstMeta [.sync 0 Follower.onlyRecord]) := .send _
    have hhandle := run_handle (G := fun _ _ => True) electedMeta 0 fun _ => ⟨trivial, trivial⟩
    have hr := Run.cons hsend (.cons (elect_newLeader _) hhandle.of_guarded)
    have h := hall 1 0 _ _ _ _ 0 _ started_firstMeta hr (append_awaiting electedMeta 0)
    exact absurd h (UInt32.not_le.2 (by decide))
  · have hsend : Step 1 0 (pendingFirst firstMeta []) (.sent (.ack oldAck))
        (pendingFirst firstMeta [.ack oldAck]) := .send _
    have helect : Step 1 0 (pendingFirst firstMeta [.ack oldAck]) (.elected newLeader)
        (pendingFirst electedMeta [.ack oldAck]) := .elect newLeader
    have hack := @Step.ack 1 0 (pendingFirst electedMeta [.ack oldAck]) [] [] oldAck rfl
    have h := hall 1 0 _ _ _ _ oldAck ⟨rfl, rfl⟩ (.cons hsend (.single helect)) hack
    have hcounts : Leader.firstEntry.Counts oldAck := ⟨by decide, Finset.notMem_empty _⟩
    exact absurd (h ⟨_, List.mem_singleton_self _, hcounts⟩) (by decide)

end

end Replica

end Fell.Replication
