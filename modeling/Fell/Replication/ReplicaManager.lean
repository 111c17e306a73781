import Fell.Lib.Transition
import Fell.Replication.PartitionMeta
import Fell.Storage.LogFormat
import Mathlib.Data.Finset.Card

/-!
# The replica manager

With `acks=all`, the leader of a partition holds back the acknowledgement of a
record until the record is replicated (`replication/replica_manager.cpp`). An entry
is registered for it, which is complete when the worker thread has seen the commit
of the record and enough followers have acknowledged it. How many are enough
is the number of replicas in sync when it is registered, less one for the leader.

The state of the worker is its place in `worker_loop` with the commit it carries. What
is streamed to the followers leaves no trace here.

* `Step.tracked`, `Run.tracked`: what an entry knows is what has happened;
* `Entitled.durable`: what is complete is durable, if only followers were counted that
  were in sync at the registration;
* `durable_of_released`: so what is released is durable, as long as no other broker
  acknowledges.
-/

namespace Fell.Replication

open Platform Storage

/-- A response and the descriptor of the connection it is for. -/
abbrev Response := ℤ × Bytes

/-- `QueuedCommit`: a batch that the leader has committed. -/
structure QueuedCommit where
  baseOffset : UInt64
  records : List Record

/-- The offset is one of those of the batch. -/
def QueuedCommit.Covers (qc : QueuedCommit) (offset : UInt64) : Prop :=
  qc.baseOffset ≤ offset ∧ offset < qc.baseOffset + UInt64.ofNat qc.records.length

instance (qc : QueuedCommit) (offset : UInt64) : Decidable (qc.Covers offset) :=
  inferInstanceAs (Decidable (_ ∧ _))

/-! ## Pending acknowledgements -/

/-- `PendingAck`. -/
structure PendingAck where
  offset : UInt64
  ackResponse : Bytes
  producerFd : ℤ
  leaderCommitted : Bool := false
  isrAcked : UInt32 := 0
  isrRequired : UInt32 := 0
  ackedFollowers : Finset UInt32 := ∅
  /-- The metadata of the partition at the registration. The source keeps no such
      record, and no function reads it: statements about the entry do. -/
  registeredAt : PartitionMeta

namespace PendingAck

variable (pa : PendingAck)

/-- The condition on which an entry is erased. -/
def Complete : Prop := pa.leaderCommitted = true ∧ pa.isrRequired ≤ pa.isrAcked

instance : Decidable pa.Complete := inferInstanceAs (Decidable (_ ∧ _))

/-- The condition of `try_release`. -/
def QuorumMet : Prop :=
  if pa.isrRequired = 0 then pa.leaderCommitted = true
  else pa.leaderCommitted = true ∧ pa.isrRequired ≤ pa.isrAcked

theorem quorumMet_iff : pa.QuorumMet ↔ pa.Complete := by
  rw [QuorumMet, Complete]
  split_ifs with h
  · simp [h]
  · rfl

instance : Decidable pa.QuorumMet := decidable_of_iff _ pa.quorumMet_iff.symm

/-- `try_release`: the response is moved out of the entry. -/
def tryRelease : List Response × PendingAck :=
  if pa.QuorumMet then
    (if pa.ackResponse = [] then [] else [(pa.producerFd, pa.ackResponse)],
      { pa with ackResponse := [] })
  else ([], pa)

/-- A follower is counted. -/
def count (followerId : UInt32) : PendingAck :=
  { pa with
    ackedFollowers := insert followerId pa.ackedFollowers
    isrAcked := pa.isrAcked + 1 }

/-- What `on_replica_ack` does with an entry. -/
def ack (followerId : UInt32) (ackedOffset : UInt64) : List Response × PendingAck :=
  if pa.offset < ackedOffset ∧ followerId ∉ pa.ackedFollowers then (pa.count followerId).tryRelease
  else ([], pa)

/-- The commit of the leader is noted. -/
def mark : PendingAck := { pa with leaderCommitted := true }

/-- What `worker_loop` does with an entry. -/
def commit (qc : QueuedCommit) : List Response × PendingAck :=
  if qc.Covers pa.offset then pa.mark.tryRelease else ([], pa)

variable {pa}

/-- Trying to release an entry changes nothing but the response. -/
theorem tryRelease_snd :
    pa.tryRelease.2 = { pa with ackResponse := pa.tryRelease.2.ackResponse } := by
  rw [tryRelease]
  split <;> rfl

@[simp] theorem registeredAt_ack (followerId : UInt32) (ackedOffset : UInt64) :
    (pa.ack followerId ackedOffset).2.registeredAt = pa.registeredAt := by
  rw [ack]
  split_ifs
  · rw [tryRelease_snd]
    rfl
  · rfl

@[simp] theorem registeredAt_commit (qc : QueuedCommit) :
    (pa.commit qc).2.registeredAt = pa.registeredAt := by
  rw [commit]
  split_ifs
  · rw [tryRelease_snd]
    rfl
  · rfl

theorem offset_ack (followerId : UInt32) (ackedOffset : UInt64) :
    (pa.ack followerId ackedOffset).2.offset = pa.offset := by
  rw [ack]
  split_ifs
  · rw [tryRelease_snd]
    rfl
  · rfl

theorem leaderCommitted_ack (followerId : UInt32) (ackedOffset : UInt64) :
    (pa.ack followerId ackedOffset).2.leaderCommitted = pa.leaderCommitted := by
  rw [ack]
  split_ifs
  · rw [tryRelease_snd]
    rfl
  · rfl

/-- A follower is counted for what it acknowledges. -/
theorem mem_ackedFollowers_ack {f followerId : UInt32} {ackedOffset : UInt64} :
    f ∈ (pa.ack followerId ackedOffset).2.ackedFollowers ↔
      f ∈ pa.ackedFollowers ∨ f = followerId ∧ pa.offset < ackedOffset := by
  rw [ack]
  split_ifs with hcond
  · rw [tryRelease_snd]
    simp [count, hcond.1, or_comm]
  · have himp : f = followerId ∧ pa.offset < ackedOffset → f ∈ pa.ackedFollowers := by
      rintro ⟨rfl, hlt⟩
      by_contra hnot
      exact hcond ⟨hlt, hnot⟩
    exact ⟨.inl, fun h => h.elim id himp⟩

theorem offset_commit (qc : QueuedCommit) : (pa.commit qc).2.offset = pa.offset := by
  rw [commit]
  split_ifs
  · rw [tryRelease_snd]
    rfl
  · rfl

theorem leaderCommitted_commit {qc : QueuedCommit} :
    (pa.commit qc).2.leaderCommitted = true ↔
      pa.leaderCommitted = true ∨ qc.Covers pa.offset := by
  rw [commit]
  split_ifs with hcov
  · rw [tryRelease_snd]
    simp [mark, hcov]
  · simp [hcov]

theorem ackedFollowers_commit (qc : QueuedCommit) :
    (pa.commit qc).2.ackedFollowers = pa.ackedFollowers := by
  rw [commit]
  split_ifs
  · rw [tryRelease_snd]
    rfl
  · rfl

theorem tryRelease_of_not_complete (h : ¬pa.Complete) : pa.tryRelease = ([], pa) :=
  if_neg (mt pa.quorumMet_iff.1 h)

theorem tryRelease_of_complete (h : pa.Complete) (hne : pa.ackResponse ≠ []) :
    pa.tryRelease.1 = [(pa.producerFd, pa.ackResponse)] := by
  rw [tryRelease, if_pos (pa.quorumMet_iff.2 h), if_neg hne]

theorem complete_of_tryRelease (h : pa.tryRelease.1 ≠ []) : pa.Complete := by
  by_contra hc
  exact h (congrArg Prod.fst (tryRelease_of_not_complete hc))

/-- What is handed out is the response of the entry. -/
theorem tryRelease_fst (h : pa.tryRelease.1 ≠ []) :
    pa.tryRelease.1 = [(pa.producerFd, pa.ackResponse)] := by
  refine tryRelease_of_complete (complete_of_tryRelease h) fun hnil => h ?_
  rw [tryRelease, hnil]
  split <;> rfl

theorem commit_fst {qc : QueuedCommit} (h : (pa.commit qc).1 ≠ []) :
    (pa.commit qc).1 = [(pa.producerFd, pa.ackResponse)] := by
  rw [commit] at h ⊢
  split_ifs at h ⊢
  · exact tryRelease_fst h
  · exact absurd rfl h

/-- What becomes of an entry that still holds its response: it is handed out, or
    the entry is kept with it. -/
def Keeps (pa : PendingAck) (result : List Response × PendingAck) : Prop :=
  result.1 = [(pa.producerFd, pa.ackResponse)] ∨
    result.1 = [] ∧ ¬result.2.Complete ∧ result.2.offset = pa.offset ∧
      result.2.producerFd = pa.producerFd ∧ result.2.ackResponse = pa.ackResponse

theorem keeps_tryRelease (hne : pa.ackResponse ≠ []) : Keeps pa pa.tryRelease := by
  by_cases hc : pa.Complete
  · exact .inl (tryRelease_of_complete hc hne)
  · rw [tryRelease_of_not_complete hc]
    exact .inr ⟨rfl, hc, rfl, rfl, rfl⟩

theorem keeps_ack (hne : pa.ackResponse ≠ []) (hc : ¬pa.Complete) (followerId : UInt32)
    (ackedOffset : UInt64) : Keeps pa (pa.ack followerId ackedOffset) := by
  rw [ack]
  split_ifs
  · exact @keeps_tryRelease (pa.count followerId) hne
  · exact .inr ⟨rfl, hc, rfl, rfl, rfl⟩

theorem keeps_commit (hne : pa.ackResponse ≠ []) (hc : ¬pa.Complete) (qc : QueuedCommit) :
    Keeps pa (pa.commit qc) := by
  rw [commit]
  split_ifs
  · exact @keeps_tryRelease pa.mark hne
  · exact .inr ⟨rfl, hc, rfl, rfl, rfl⟩

/-- The response of an entry. -/
def response (pa : PendingAck) : Response := (pa.producerFd, pa.ackResponse)

/-- What is handed out is complete. -/
theorem complete_tryRelease_snd (h : pa.tryRelease.1 ≠ []) : pa.tryRelease.2.Complete := by
  have hc : pa.Complete := complete_of_tryRelease h
  rw [tryRelease_snd]
  exact hc

theorem complete_ack_snd {followerId : UInt32} {ackedOffset : UInt64}
    (h : (pa.ack followerId ackedOffset).1 ≠ []) : (pa.ack followerId ackedOffset).2.Complete := by
  rw [ack] at h ⊢
  split_ifs at h ⊢
  · exact complete_tryRelease_snd h
  · exact absurd rfl h

theorem complete_commit_snd {qc : QueuedCommit} (h : (pa.commit qc).1 ≠ []) :
    (pa.commit qc).2.Complete := by
  rw [commit] at h ⊢
  split_ifs at h ⊢
  · exact complete_tryRelease_snd h
  · exact absurd rfl h

end PendingAck

/-! ## The manager -/

/-- Where the worker is in `worker_loop`, and the commit it carries. -/
inductive Worker
  /-- Waiting for a commit. -/
  | waiting
  /-- A commit is taken off the queue. -/
  | popped (qc : QueuedCommit)
  /-- The entries have been gone through. -/
  | swept (qc : QueuedCommit) (toSend : List Response)
  /-- The responses have been posted. -/
  | posted (qc : QueuedCommit)

/-- `ReplicaManager`. -/
structure ReplicaManager where
  pending : List PendingAck := []
  commitQueue : List QueuedCommit := []
  worker : Worker := .waiting

namespace ReplicaManager

variable (rm : ReplicaManager)

/-- A number converted to `int`. -/
def toInt (n : ℕ) : ℤ := Int.bmod n UInt32.size

theorem toInt_le (n : ℕ) : toInt n ≤ n := by
  unfold toInt
  generalize UInt32.size = size
  have hmod : (n : ℤ) % size ≤ n := by exact_mod_cast Nat.mod_le n size
  rw [Int.bmod_def]
  split_ifs <;> omega

/-- `isr_required` of an entry that is registered now: the leader is not counted. -/
def isrRequired (m : PartitionMeta) : UInt32 :=
  UInt32.ofNat (max 0 (toInt m.isrIds.length - 1)).toNat

/-- `register_pending`. -/
def registerPending (m : PartitionMeta) (offset : UInt64) (ackResponse : Bytes) (producerFd : ℤ) :
    ReplicaManager :=
  { rm with
    pending := rm.pending ++
      [{ offset, ackResponse, producerFd, isrRequired := isrRequired m, registeredAt := m }] }

/-- `enqueue_committed`. -/
def enqueueCommitted (qc : QueuedCommit) : ReplicaManager :=
  { rm with commitQueue := rm.commitQueue ++ [qc] }

/-- All entries are gone through, and those that are complete are erased. -/
def sweep (f : PendingAck → List Response × PendingAck) : List Response × ReplicaManager :=
  (rm.pending.flatMap fun pa => (f pa).1,
    { rm with pending := (rm.pending.map fun pa => (f pa).2).filter fun pa => ¬pa.Complete })

/-- The entries whose responses are handed out. -/
def released (f : PendingAck → List Response × PendingAck) : List PendingAck :=
  rm.pending.filter fun pa => (f pa).1 ≠ []

variable {rm} {pa : PendingAck} {f : PendingAck → List Response × PendingAck}

theorem mem_sweep (h : pa ∈ (rm.sweep f).2.pending) : ∃ pa' ∈ rm.pending, (f pa').2 = pa :=
  List.mem_map.1 (List.mem_filter.1 h).1

theorem mem_sweep_fst {x : Response} : x ∈ (rm.sweep f).1 ↔ ∃ pa ∈ rm.pending, x ∈ (f pa).1 :=
  List.mem_flatMap

theorem mem_released : pa ∈ rm.released f ↔ pa ∈ rm.pending ∧ (f pa).1 ≠ [] := by simp [released]

end ReplicaManager

/-- A leader, as far as a partition is concerned. -/
structure Leader where
  manager : ReplicaManager
  partition : PartitionMeta

namespace Leader

variable (s : Leader)

/-- `ReplicaManager::on_replica_ack`. -/
def onReplicaAck (maxLag : UInt64) (followerId : UInt32) (ackedOffset : UInt64) :
    List Response × Leader :=
  let swept := s.manager.sweep (·.ack followerId ackedOffset)
  (swept.1,
    ⟨swept.2, s.partition.onReplicaAck followerId ackedOffset maxLag
      s.partition.leaderCommittedOffset⟩)

/-- The sweep of `worker_loop`. -/
def onCommit (qc : QueuedCommit) : Leader :=
  let swept := s.manager.sweep (·.commit qc)
  { s with manager := { swept.2 with worker := .swept qc swept.1 } }

/-- The rest of a round of `worker_loop`: the leader's own progress is recorded. -/
def finishCommit (qc : QueuedCommit) : Leader where
  manager := { s.manager with worker := .waiting }
  partition :=
    match qc.records.getLast? with
    | none => s.partition
    | some last =>
      s.partition.updateReplica s.partition.leaderId fun r =>
        { r with ackOffset := max r.ackOffset (last.offset + 1) }

/-- What happens in a step. -/
inductive Event
  | registered (offset : UInt64) (ackResponse : Bytes) (producerFd : ℤ)
  | enqueued (qc : QueuedCommit)
  | popped
  | processed (qc : QueuedCommit) (released : List PendingAck)
  | posted (toSend : List Response)
  | finished
  | acked (followerId : UInt32) (ackedOffset : UInt64) (released : List PendingAck)
  | changed

/-- A step of the threads that use a replica manager. -/
inductive Step (maxLag : UInt64) (s : Leader) : Event → Leader → Prop
  | register (offset : UInt64) (ackResponse : Bytes) (producerFd : ℤ) :
      Step maxLag s (.registered offset ackResponse producerFd)
        { s with manager := s.manager.registerPending s.partition offset ackResponse producerFd }
  | enqueue (qc : QueuedCommit) :
      Step maxLag s (.enqueued qc) { s with manager := s.manager.enqueueCommitted qc }
  | pop {qc : QueuedCommit} {rest : List QueuedCommit} (hw : s.manager.worker = .waiting)
      (hq : s.manager.commitQueue = qc :: rest) :
      Step maxLag s .popped
        { s with manager := { s.manager with commitQueue := rest, worker := .popped qc } }
  | process {qc : QueuedCommit} (hw : s.manager.worker = .popped qc) :
      Step maxLag s (.processed qc (s.manager.released (·.commit qc))) (s.onCommit qc)
  | post {qc : QueuedCommit} {toSend : List Response} (hw : s.manager.worker = .swept qc toSend) :
      Step maxLag s (.posted toSend) { s with manager := { s.manager with worker := .posted qc } }
  | finish {qc : QueuedCommit} (hw : s.manager.worker = .posted qc) :
      Step maxLag s .finished (s.finishCommit qc)
  | ack (followerId : UInt32) (ackedOffset : UInt64) :
      Step maxLag s
        (.acked followerId ackedOffset (s.manager.released (·.ack followerId ackedOffset)))
        (s.onReplicaAck maxLag followerId ackedOffset).2
  /-- The ISR changes otherwise, as by `tick_isr`. -/
  | change (replicas : List ReplicaState) :
      Step maxLag s .changed { s with partition := { s.partition with replicas } }

variable {maxLag : UInt64} {s s' s₀ : Leader} {e : Event} {es : List Event} {pa : PendingAck}

/-! ## What has happened -/

/-- The commit the worker went through in a step. -/
def Event.commit : Event → List QueuedCommit
  | .processed qc _ => [qc]
  | _ => []

/-- The acknowledgement handled in a step. -/
def Event.ack : Event → List (UInt32 × UInt64)
  | .acked followerId ackedOffset _ => [(followerId, ackedOffset)]
  | _ => []

/-- The registration made in a step: the offset, and the response. -/
def Event.registration : Event → List (UInt64 × Response)
  | .registered offset ackResponse producerFd => [(offset, producerFd, ackResponse)]
  | _ => []

/-- The entries released in a step. -/
def Event.releases : Event → List PendingAck
  | .processed _ released | .acked _ _ released => released
  | _ => []

/-- The commits that the worker has gone through. -/
def commits (es : List Event) : List QueuedCommit := es.flatMap Event.commit

/-- The acknowledgements of followers that have been handled. -/
def acks (es : List Event) : List (UInt32 × UInt64) := es.flatMap Event.ack

@[simp] theorem commits_snoc : commits (es ++ [e]) = commits es ++ e.commit := by simp [commits]

@[simp] theorem acks_snoc : acks (es ++ [e]) = acks es ++ e.ack := by simp [acks]

/-- The worker has seen the commit of the offset. -/
def Committed (es : List Event) (offset : UInt64) : Prop := ∃ qc ∈ commits es, qc.Covers offset

/-- The follower has acknowledged the offset. -/
def Acked (es : List Event) (offset : UInt64) (followerId : UInt32) : Prop :=
  ∃ ackedOffset, (followerId, ackedOffset) ∈ acks es ∧ offset < ackedOffset

theorem Committed.snoc {offset : UInt64} (h : Committed es offset) : Committed (es ++ [e]) offset :=
  let ⟨qc, hqc, hcov⟩ := h
  ⟨qc, by simp [hqc], hcov⟩

theorem Acked.snoc {offset : UInt64} {followerId : UInt32} (h : Acked es offset followerId) :
    Acked (es ++ [e]) offset followerId :=
  let ⟨a, ha, hlt⟩ := h
  ⟨a, by simp [ha], hlt⟩

/-- What an entry knows is what has happened. -/
structure Tracked (es : List Event) (pa : PendingAck) : Prop where
  committed : pa.leaderCommitted = true → Committed es pa.offset
  acked : ∀ f ∈ pa.ackedFollowers, Acked es pa.offset f
  isrAcked : pa.isrAcked = UInt32.ofNat pa.ackedFollowers.card
  isrRequired : pa.isrRequired = ReplicaManager.isrRequired pa.registeredAt

theorem Tracked.snoc (h : Tracked es pa) (e : Event) : Tracked (es ++ [e]) pa where
  committed hc := (h.committed hc).snoc
  acked f hf := (h.acked f hf).snoc
  isrAcked := h.isrAcked
  isrRequired := h.isrRequired

/-- The response does not matter. -/
theorem Tracked.tryRelease (h : Tracked es pa) : Tracked es pa.tryRelease.2 := by
  rw [PendingAck.tryRelease_snd]
  exact ⟨h.committed, h.acked, h.isrAcked, h.isrRequired⟩

theorem Tracked.count {f : UInt32} {a : UInt64} {released : List PendingAck} (h : Tracked es pa)
    (hlt : pa.offset < a) (hf : f ∉ pa.ackedFollowers) :
    Tracked (es ++ [.acked f a released]) (pa.count f) where
  committed hc := (h.committed hc).snoc
  acked g hg := by
    rcases Finset.mem_insert.1 hg with rfl | hg
    · exact ⟨a, by simp [Event.ack], hlt⟩
    · exact (h.acked g hg).snoc
  isrAcked := by
    change pa.isrAcked + 1 = UInt32.ofNat (insert f pa.ackedFollowers).card
    rw [Finset.card_insert_of_notMem hf, h.isrAcked, UInt32.ofNat_add]
    rfl
  isrRequired := h.isrRequired

theorem Tracked.ack {f : UInt32} {a : UInt64} {released : List PendingAck} (h : Tracked es pa) :
    Tracked (es ++ [.acked f a released]) (pa.ack f a).2 := by
  rw [PendingAck.ack]
  split_ifs with hcond
  · exact (h.count hcond.1 hcond.2).tryRelease
  · exact h.snoc _

theorem Tracked.mark {qc : QueuedCommit} {released : List PendingAck} (h : Tracked es pa)
    (hcov : qc.Covers pa.offset) : Tracked (es ++ [.processed qc released]) pa.mark where
  committed _ := ⟨qc, by simp [Event.commit], hcov⟩
  acked f hf := (h.acked f hf).snoc
  isrAcked := h.isrAcked
  isrRequired := h.isrRequired

theorem Tracked.commit {qc : QueuedCommit} {released : List PendingAck} (h : Tracked es pa) :
    Tracked (es ++ [.processed qc released]) (pa.commit qc).2 := by
  rw [PendingAck.commit]
  split_ifs with hcov
  · exact (h.mark hcov).tryRelease
  · exact h.snoc _

/-- Where an entry comes from that is there after a step. -/
inductive Stays (s : Leader) : Event → PendingAck → Prop
  | register {offset : UInt64} {ackResponse : Bytes} {producerFd : ℤ} :
      Stays s (.registered offset ackResponse producerFd)
        { offset, ackResponse, producerFd
          isrRequired := ReplicaManager.isrRequired s.partition
          registeredAt := s.partition }
  | commit {qc : QueuedCommit} {released : List PendingAck} {pa : PendingAck}
      (hpa : pa ∈ s.manager.pending) (hinc : ¬(pa.commit qc).2.Complete) :
      Stays s (.processed qc released) (pa.commit qc).2
  | ack {f : UInt32} {a : UInt64} {released : List PendingAck} {pa : PendingAck}
      (hpa : pa ∈ s.manager.pending) (hinc : ¬(pa.ack f a).2.Complete) :
      Stays s (.acked f a released) (pa.ack f a).2
  | other {e : Event} {pa : PendingAck} (hc : e.commit = []) (ha : e.ack = [])
      (hpa : pa ∈ s.manager.pending) : Stays s e pa

theorem Step.stays (hst : Step maxLag s e s') (hpa : pa ∈ s'.manager.pending) : Stays s e pa := by
  cases hst with
  | register offset ackResponse producerFd =>
    rcases List.mem_append.1 hpa with hpa | hpa
    · exact .other rfl rfl hpa
    · rw [List.mem_singleton.1 hpa]
      exact .register
  | process hw =>
    obtain ⟨pa', hpa', rfl⟩ := ReplicaManager.mem_sweep hpa
    exact .commit hpa' (by simpa using (List.mem_filter.1 hpa).2)
  | ack f a =>
    obtain ⟨pa', hpa', rfl⟩ := ReplicaManager.mem_sweep hpa
    exact .ack hpa' (by simpa using (List.mem_filter.1 hpa).2)
  | enqueue | pop | post | finish | change => exact .other rfl rfl hpa

theorem Step.tracked (hst : Step maxLag s e s') (h : ∀ pa ∈ s.manager.pending, Tracked es pa) :
    ∀ pa ∈ s'.manager.pending, Tracked (es ++ [e]) pa := by
  intro pa hpa
  cases hst.stays hpa with
  | register => exact ⟨fun hc => absurd hc (by simp), fun f hf => absurd hf (by simp), rfl, rfl⟩
  | commit hmem => exact (h _ hmem).commit
  | ack hmem => exact (h _ hmem).ack
  | other hc ha hmem => exact (h _ hmem).snoc _

theorem Run.tracked (hr : Run (Step maxLag) s₀ es s) (hnil : s₀.manager.pending = []) :
    ∀ pa ∈ s.manager.pending, Tracked es pa :=
  hr.invariant (I := fun es s => ∀ pa ∈ s.manager.pending, Tracked es pa)
    (by simp [hnil]) fun _ ih hst => hst.tracked ih

/-- Entries are registered with the metadata of the time. -/
theorem Step.registeredAt {P : PartitionMeta → Prop} (hst : Step maxLag s e s')
    (h : ∀ pa ∈ s.manager.pending, P pa.registeredAt) (hnew : e.registration ≠ [] → P s.partition) :
    ∀ pa ∈ s'.manager.pending, P pa.registeredAt := by
  intro pa hpa
  cases hst.stays hpa with
  | register => exact hnew (List.cons_ne_nil _ _)
  | commit hmem =>
    rw [PendingAck.registeredAt_commit]
    exact h _ hmem
  | ack hmem =>
    rw [PendingAck.registeredAt_ack]
    exact h _ hmem
  | other hc ha hmem => exact h _ hmem

/-- No step changes the leader. -/
theorem Step.leaderId_eq (hst : Step maxLag s e s') :
    s'.partition.leaderId = s.partition.leaderId := by
  cases hst with
  | finish hw =>
    rw [finishCommit]
    dsimp only
    split <;> rfl
  | register | enqueue | pop | process | post | ack | change => rfl

/-! ## Nothing is lost -/

/-- An entry that is complete is not kept. -/
theorem Step.incomplete (hst : Step maxLag s e s') (h : ∀ pa ∈ s.manager.pending, ¬pa.Complete) :
    ∀ pa ∈ s'.manager.pending, ¬pa.Complete := by
  intro pa hpa
  cases hst.stays hpa with
  | register => exact fun hc => absurd hc.1 (by simp)
  | commit hmem hinc => exact hinc
  | ack hmem hinc => exact hinc
  | other hc ha hmem => exact h _ hmem

theorem Run.incomplete (hr : Run (Step maxLag) s₀ es s) (hnil : s₀.manager.pending = []) :
    ∀ pa ∈ s.manager.pending, ¬pa.Complete :=
  hr.invariant (I := fun _ s => ∀ pa ∈ s.manager.pending, ¬pa.Complete) (by simp [hnil])
    fun _ ih hst => hst.incomplete ih

/-- The commits on their way to the entries: the one in the hands of the worker, and
    those queued. -/
def carried (s : Leader) : List QueuedCommit :=
  match s.manager.worker with
  | .popped qc => qc :: s.manager.commitQueue
  | _ => s.manager.commitQueue

/-- The commit queued in a step. -/
def Event.enqueue : Event → List QueuedCommit
  | .enqueued qc => [qc]
  | _ => []

/-- The commits that were queued. -/
def enqueued (es : List Event) : List QueuedCommit := es.flatMap Event.enqueue

@[simp] theorem enqueued_snoc : enqueued (es ++ [e]) = enqueued es ++ e.enqueue := by
  simp [enqueued]

/-- The worker goes through the commits in the order in which they were queued. -/
theorem Step.carried_eq (hst : Step maxLag s e s') :
    e.commit ++ s'.carried = s.carried ++ e.enqueue := by
  cases hst with
  | register => simp [Event.commit, Event.enqueue, carried, ReplicaManager.registerPending]
  | enqueue qc =>
    simp only [carried]
    simp only [Event.commit, Event.enqueue, ReplicaManager.enqueueCommitted]
    split <;> rfl
  | pop hw hq => simp [Event.commit, Event.enqueue, carried, hw, hq]
  | process hw => simp [Event.commit, Event.enqueue, carried, hw, onCommit, ReplicaManager.sweep]
  | post hw => simp [Event.commit, Event.enqueue, carried, hw]
  | finish hw => simp [Event.commit, Event.enqueue, carried, hw, finishCommit]
  | ack => simp [Event.commit, Event.enqueue, carried, onReplicaAck, ReplicaManager.sweep]
  | change => simp [Event.commit, Event.enqueue, carried]

theorem Run.commits_append_carried (hr : Run (Step maxLag) s₀ es s) (hnil : s₀.carried = []) :
    commits es ++ s.carried = enqueued es := by
  refine hr.invariant (I := fun es s => commits es ++ s.carried = enqueued es)
    (by simp [commits, enqueued, hnil]) fun _ ih hst => ?_
  rw [commits_snoc, enqueued_snoc, List.append_assoc, hst.carried_eq, ← List.append_assoc, ih]

/-- The responses handed out in a step. -/
def Event.responses (e : Event) : List Response :=
  e.releases.map fun pa => (pa.producerFd, pa.ackResponse)

/-- The registrations, with their responses. -/
def registrations (es : List Event) : List (UInt64 × Response) := es.flatMap Event.registration

/-- The responses that were handed out. -/
def responses (es : List Event) : List Response := es.flatMap Event.responses

@[simp] theorem registrations_snoc :
    registrations (es ++ [e]) = registrations es ++ e.registration := by
  simp [registrations]

@[simp] theorem responses_snoc : responses (es ++ [e]) = responses es ++ e.responses := by
  simp [responses]

/-- The response of a registration is in an entry for its offset, or was handed out. -/
def Outstanding (es : List Event) (s : Leader) (reg : UInt64 × Response) : Prop :=
  (∃ pa ∈ s.manager.pending, pa.offset = reg.1 ∧ (pa.producerFd, pa.ackResponse) = reg.2) ∨
    reg.2 ∈ responses es

theorem Outstanding.sweep {reg : UInt64 × Response} {f : PendingAck → List Response × PendingAck}
    {pending : List PendingAck} (h : Outstanding es s reg)
    (hf : ∀ pa ∈ s.manager.pending, (pa.producerFd, pa.ackResponse) = reg.2 → pa.Keeps (f pa))
    (hs : s'.manager.pending = pending) (hp : pending = (s.manager.sweep f).2.pending)
    (hr : e.releases = s.manager.released f) : Outstanding (es ++ [e]) s' reg := by
  rcases h with ⟨pa, hpa, hoff, hresp⟩ | h
  · rcases hf pa hpa hresp with hout | ⟨_, hinc, hoff', hfd', hresp'⟩
    · refine .inr ?_
      rw [responses_snoc, Event.responses, hr, ← hresp]
      refine List.mem_append_right _ (List.mem_map.2 ⟨pa, ?_, rfl⟩)
      exact ReplicaManager.mem_released.2 ⟨hpa, by rw [hout]; simp⟩
    · refine .inl ⟨(f pa).2, ?_, hoff'.trans hoff, by rw [hfd', hresp', hresp]⟩
      rw [hs, hp]
      exact List.mem_filter.2 ⟨List.mem_map_of_mem hpa, by simpa using hinc⟩
  · exact .inr (by simp [h])

theorem Step.outstanding {reg : UInt64 × Response} (hst : Step maxLag s e s')
    (hinc : ∀ pa ∈ s.manager.pending, ¬pa.Complete) (hne : reg.2.2 ≠ [])
    (h : Outstanding es s reg) : Outstanding (es ++ [e]) s' reg := by
  have hresp : ∀ pa : PendingAck,
      (pa.producerFd, pa.ackResponse) = reg.2 → pa.ackResponse ≠ [] := by
    rintro pa heq
    rwa [← heq] at hne
  cases hst with
  | register offset ackResponse producerFd =>
    rcases h with ⟨pa, hpa, hreg⟩ | h
    · exact .inl ⟨pa, List.mem_append_left _ hpa, hreg⟩
    · exact .inr (by simp [h])
  | process hw =>
    exact h.sweep (fun pa hpa heq => PendingAck.keeps_commit (hresp pa heq) (hinc pa hpa) _)
      rfl rfl rfl
  | ack f a =>
    exact h.sweep (fun pa hpa heq => PendingAck.keeps_ack (hresp pa heq) (hinc pa hpa) f a)
      rfl rfl rfl
  | enqueue | pop | post | finish | change =>
    rcases h with h | h
    · exact .inl h
    · exact .inr (by simp [h])

/-- No response is lost. -/
theorem Run.outstanding (hr : Run (Step maxLag) s₀ es s) (hnil : s₀.manager.pending = []) :
    ∀ reg ∈ registrations es, reg.2.2 ≠ [] → Outstanding es s reg := by
  refine hr.invariant
    (I := fun es s => ∀ reg ∈ registrations es, reg.2.2 ≠ [] → Outstanding es s reg)
    (by simp [registrations]) ?_
  intro es s e s' hr ih hst reg hreg hne
  rcases List.mem_append.1 (registrations_snoc ▸ hreg) with hreg | hreg
  · exact hst.outstanding (Run.incomplete hr hnil) hne (ih reg hreg hne)
  · cases hst with
    | register offset ackResponse producerFd =>
      rw [List.mem_singleton.1 hreg]
      exact .inl ⟨_, List.mem_append_right _ (List.mem_singleton_self _), rfl, rfl⟩
    | enqueue | pop | process | post | finish | ack | change => exact absurd hreg List.not_mem_nil

/-- The responses in the hands of the worker. -/
def toSend (s : Leader) : List Response :=
  match s.manager.worker with
  | .swept _ toSend => toSend
  | _ => []

/-- The responses passed on in a step, to be posted: by the worker, or when the
    acknowledgement of a follower is handled. -/
def Event.passed : Event → List Response
  | .posted toSend => toSend
  | .acked f a released => Event.responses (.acked f a released)
  | _ => []

/-- What is handed out is passed on, or in the hands of the worker. -/
theorem Step.mem_passed (hst : Step maxLag s e s') {x : Response}
    (hx : x ∈ s.toSend ∨ x ∈ e.responses) : x ∈ e.passed ∨ x ∈ s'.toSend := by
  cases hst with
  | pop hw hq => simp [toSend, hw, Event.responses, Event.releases] at hx
  | @process qc hw =>
    rcases hx with hx | hx
    · simp [toSend, hw] at hx
    · obtain ⟨pa, hpa, rfl⟩ := List.mem_map.1 hx
      obtain ⟨hmem, hne⟩ := ReplicaManager.mem_released.1 hpa
      refine .inr (ReplicaManager.mem_sweep_fst.2 ⟨pa, hmem, ?_⟩)
      rw [PendingAck.commit_fst hne]
      exact List.mem_singleton_self _
  | post hw =>
    rcases hx with hx | hx
    · rw [toSend, hw] at hx
      exact .inl hx
    · exact absurd hx List.not_mem_nil
  | finish hw => simp [toSend, hw, Event.responses, Event.releases] at hx
  | ack f a => exact hx.symm
  | register | enqueue | change => exact .inr (hx.resolve_right List.not_mem_nil)

/-- The entries are incomplete and hold their responses. -/
def Sound (s : Leader) : Prop := ∀ pa ∈ s.manager.pending, ¬pa.Complete ∧ pa.ackResponse ≠ []

/-- What a sweep makes of entries that hold their responses. -/
structure Sweeps (s : Leader) (f : PendingAck → List Response × PendingAck) : Prop where
  keeps : ∀ pa ∈ s.manager.pending, pa.Keeps (f pa)
  complete : ∀ pa ∈ s.manager.pending, (f pa).1 ≠ [] → (f pa).2.Complete

theorem Sound.sweeps_commit (h : Sound s) (qc : QueuedCommit) : Sweeps s (·.commit qc) where
  keeps pa hpa := PendingAck.keeps_commit (h pa hpa).2 (h pa hpa).1 qc
  complete _ _ := PendingAck.complete_commit_snd

theorem Sound.sweeps_ack (h : Sound s) (f : UInt32) (a : UInt64) : Sweeps s (·.ack f a) where
  keeps pa hpa := PendingAck.keeps_ack (h pa hpa).2 (h pa hpa).1 f a
  complete _ _ := PendingAck.complete_ack_snd

/-- An entry that is kept is the one it was, but for what it has noticed. -/
theorem Sweeps.mem_pending {f : PendingAck → List Response × PendingAck} (h : Sweeps s f)
    (hpa : pa ∈ (s.manager.sweep f).2.pending) :
    ∃ pa' ∈ s.manager.pending, (f pa').2 = pa ∧ pa.offset = pa'.offset ∧
      pa.producerFd = pa'.producerFd ∧ pa.ackResponse = pa'.ackResponse := by
  obtain ⟨pa', hmem, rfl⟩ := ReplicaManager.mem_sweep hpa
  have hinc : ¬(f pa').2.Complete := by simpa using (List.mem_filter.1 hpa).2
  rcases h.keeps pa' hmem with hout | ⟨-, -, heq⟩
  · exact absurd (h.complete pa' hmem (by rw [hout]; simp)) hinc
  · exact ⟨pa', hmem, rfl, heq⟩

theorem Sweeps.sound {f : PendingAck → List Response × PendingAck} (h : Sweeps s f)
    (hs : Sound s) : ∀ pa ∈ (s.manager.sweep f).2.pending, ¬pa.Complete ∧ pa.ackResponse ≠ [] := by
  intro pa hpa
  obtain ⟨pa', hmem, -, -, -, hresp⟩ := h.mem_pending hpa
  exact ⟨by simpa using (List.mem_filter.1 hpa).2, hresp ▸ (hs pa' hmem).2⟩

theorem Step.sound (hst : Step maxLag s e s') (h : Sound s)
    (hreg : ∀ reg ∈ e.registration, reg.2.2 ≠ []) : Sound s' := by
  cases hst with
  | register offset ackResponse producerFd =>
    intro pa hpa
    rcases List.mem_append.1 hpa with hpa | hpa
    · exact h pa hpa
    · rw [List.mem_singleton.1 hpa]
      exact ⟨fun hc => absurd hc.1 (by simp), hreg _ (List.mem_singleton_self _)⟩
  | process hw => exact (h.sweeps_commit _).sound h
  | ack f a => exact (h.sweeps_ack f a).sound h
  | enqueue | pop | post | finish | change => exact h

/-- The responses that are held back: in the entries, and in the hands of the worker. -/
def held (s : Leader) : List Response := s.manager.pending.map (·.response) ++ s.toSend

/-- A sweep hands out the responses of the entries it does not keep. -/
theorem Sweeps.perm {f : PendingAck → List Response × PendingAck} (h : Sweeps s f) :
    ((s.manager.sweep f).1 ++ (s.manager.sweep f).2.pending.map (·.response)).Perm
      (s.manager.pending.map (·.response)) := by
  obtain ⟨hk, hc⟩ := h
  simp only [ReplicaManager.sweep]
  generalize s.manager.pending = pending at hk hc ⊢
  induction pending with
  | nil => rfl
  | cons pa rest ih =>
    rw [List.forall_mem_cons] at hk hc
    rcases hk.1 with hout | ⟨hout, hinc, -, hfd, hresp⟩
    · have hcom := hc.1 (by rw [hout]; simp)
      simpa [hout, hcom, PendingAck.response] using ih hk.2 hc.2
    · have heq : (f pa).2.response = pa.response := by
        rw [PendingAck.response, hfd, hresp, PendingAck.response]
      simpa [hout, hinc, heq] using List.perm_middle.trans ((ih hk.2 hc.2).cons pa.response)

/-- What is swept out are the responses of the entries released. -/
theorem Sweeps.map_released {f : PendingAck → List Response × PendingAck} (h : Sweeps s f) :
    (s.manager.released f).map (·.response) = (s.manager.sweep f).1 := by
  obtain ⟨hk, -⟩ := h
  simp only [ReplicaManager.released, ReplicaManager.sweep]
  generalize s.manager.pending = pending at hk ⊢
  induction pending with
  | nil => rfl
  | cons pa rest ih =>
    rw [List.forall_mem_cons] at hk
    rcases hk.1 with hout | ⟨hout, -⟩
    · simpa [hout, PendingAck.response] using ih hk.2
    · simpa [hout] using ih hk.2

/-- A response is registered, held back and passed on once. -/
theorem Step.held_perm (hst : Step maxLag s e s') (h : Sound s) :
    (e.passed ++ s'.held).Perm (s.held ++ e.registration.map Prod.snd) := by
  cases hst with
  | register offset ackResponse producerFd =>
    have hsend : toSend { s with manager :=
        s.manager.registerPending s.partition offset ackResponse producerFd } = s.toSend := rfl
    simp only [Event.passed, List.nil_append, held, hsend, Event.registration]
    simp only [ReplicaManager.registerPending, List.map_append, List.append_assoc]
    exact List.Perm.append_left _ List.perm_append_comm
  | @process qc hw =>
    -- What is released is kept by the worker, until it posts it.
    have hsend : s.toSend = [] := by rw [toSend, hw]
    have hsend' : (s.onCommit qc).toSend = (s.manager.sweep (·.commit qc)).1 := rfl
    rw [held, held, hsend, hsend', List.append_nil]
    refine (List.perm_append_comm.trans (h.sweeps_commit qc).perm).trans ?_
    simp [Event.registration]
  | @post qc toSend' hw =>
    simp [Event.passed, held, toSend, hw, Event.registration, List.perm_append_comm]
  | ack f a =>
    -- The replication server posts what it releases at once.
    have hsw := h.sweeps_ack f a
    have hsend : toSend (s.onReplicaAck maxLag f a).2 = s.toSend := rfl
    have hpassed : (Event.acked f a (s.manager.released (·.ack f a))).passed =
        (s.manager.sweep (·.ack f a)).1 := hsw.map_released
    rw [hpassed, held, held, hsend, ← List.append_assoc]
    refine (hsw.perm.append_right s.toSend).trans ?_
    simp [Event.registration]
  | pop hw hq => simp [Event.passed, held, toSend, hw, Event.registration]
  | finish hw => simp [Event.passed, held, toSend, hw, Event.registration, finishCommit]
  | enqueue | change => simp [Event.passed, held, toSend, Event.registration,
      ReplicaManager.enqueueCommitted]

/-! ## What is acknowledged -/

/-- The responses are those of the offsets of their entries, and an entry that is marked, a response
    on its way and a commit on its way are for offsets with `P`. -/
structure Backed (P : UInt64 → Prop) (encode : UInt64 → Bytes) (s : Leader) : Prop where
  response : ∀ pa ∈ s.manager.pending, pa.ackResponse = encode pa.offset
  committed : ∀ pa ∈ s.manager.pending, pa.leaderCommitted = true → P pa.offset
  toSend : ∀ x ∈ s.toSend, ∃ o, x.2 = encode o ∧ P o
  carried : ∀ qc ∈ s.carried, ∀ o, qc.Covers o → P o

/-- The commits on their way after a step were on their way, or are enqueued in it. -/
theorem Step.mem_carried (hst : Step maxLag s e s') {qc : QueuedCommit} (h : qc ∈ s'.carried) :
    qc ∈ s.carried ∨ qc ∈ e.enqueue :=
  List.mem_append.1 (hst.carried_eq ▸ List.mem_append_right e.commit h)

section Backed

variable {P Q : UInt64 → Prop} {encode : UInt64 → Bytes}

theorem Backed.mono (h : Backed P encode s) (hPQ : ∀ o, P o → Q o) : Backed Q encode s where
  response := h.response
  committed pa hpa hc := hPQ _ (h.committed pa hpa hc)
  toSend x hx :=
    let ⟨o, ho, hP⟩ := h.toSend x hx
    ⟨o, ho, hPQ o hP⟩
  carried qc hqc o ho := hPQ o (h.carried qc hqc o ho)

theorem Backed.partition (h : Backed P encode s) (hm : s'.manager = s.manager) :
    Backed P encode s' := by
  cases s
  cases s'
  cases hm
  exact ⟨h.response, h.committed, h.toSend, h.carried⟩

theorem Backed.enqueue (h : Backed P encode s) {qc : QueuedCommit} (hqc : ∀ o, qc.Covers o → P o) :
    Backed P encode { s with manager := s.manager.enqueueCommitted qc } where
  response := h.response
  committed := h.committed
  toSend := h.toSend
  carried qc' hmem := by
    rcases (@Step.enqueue 0 s qc).mem_carried hmem with hmem | hmem
    · exact h.carried qc' hmem
    · rw [List.mem_singleton.1 hmem]
      exact hqc

/-- A sweep hands out responses of entries that are marked, and keeps the others. -/
theorem Sweeps.backed {f : PendingAck → List Response × PendingAck} (h : Sweeps s f)
    (hresp : ∀ pa ∈ s.manager.pending, pa.ackResponse = encode pa.offset)
    (hf : ∀ pa ∈ s.manager.pending, (f pa).2.leaderCommitted = true → P pa.offset) :
    (∀ pa ∈ (s.manager.sweep f).2.pending,
      pa.ackResponse = encode pa.offset ∧ (pa.leaderCommitted = true → P pa.offset)) ∧
    ∀ x ∈ (s.manager.sweep f).1, ∃ o, x.2 = encode o ∧ P o := by
  refine ⟨fun pa hpa => ?_, fun x hx => ?_⟩
  · obtain ⟨pa', hmem, rfl, hoff, -, hres⟩ := h.mem_pending hpa
    rw [hres, hoff]
    exact ⟨hresp pa' hmem, hf pa' hmem⟩
  · obtain ⟨pa, hmem, hx⟩ := ReplicaManager.mem_sweep_fst.1 hx
    have hcom := h.complete pa hmem (List.ne_nil_of_mem hx)
    rcases h.keeps pa hmem with hout | ⟨hout, -⟩
    · rw [hout, List.mem_singleton] at hx
      exact ⟨pa.offset, by rw [hx, ← hresp pa hmem], hf pa hmem hcom.1⟩
    · rw [hout] at hx
      exact absurd hx List.not_mem_nil

/-- A step keeps to offsets with `P`, and so do the responses passed on. -/
theorem Step.backed (hst : Step maxLag s e s') (h : Backed P encode s) (hs : Sound s)
    (hreg : ∀ reg ∈ e.registration, reg.2.2 = encode reg.1)
    (henq : ∀ qc ∈ e.enqueue, ∀ o, qc.Covers o → P o) :
    Backed P encode s' ∧ ∀ x ∈ e.passed, ∃ o, x.2 = encode o ∧ P o := by
  have hnone : ∀ x ∈ ([] : List Response), ∃ o, x.2 = encode o ∧ P o :=
    fun x hx => absurd hx List.not_mem_nil
  have hcarried : ∀ qc ∈ s'.carried, ∀ o, qc.Covers o → P o := fun qc hqc =>
    (hst.mem_carried hqc).elim (h.carried qc) (henq qc)
  cases hst with
  | register offset ackResponse producerFd =>
    refine ⟨⟨fun pa hpa => ?_, fun pa hpa => ?_, h.toSend, h.carried⟩, hnone⟩
    · rcases List.mem_append.1 hpa with hpa | hpa
      · exact h.response pa hpa
      · rw [List.mem_singleton.1 hpa]
        exact hreg _ (List.mem_singleton_self _)
    · rcases List.mem_append.1 hpa with hpa | hpa
      · exact h.committed pa hpa
      · rw [List.mem_singleton.1 hpa]
        exact fun hc => absurd hc Bool.false_ne_true
  | enqueue qc => exact ⟨h.enqueue (henq qc (List.mem_singleton_self _)), hnone⟩
  | pop hw hq => exact ⟨⟨h.response, h.committed, hnone, hcarried⟩, hnone⟩
  | @process qc hw =>
    -- An entry is marked by a commit that covers its offset.
    have hmem : qc ∈ s.carried := by
      rw [carried, hw]
      exact List.mem_cons_self
    obtain ⟨hpend, hout⟩ := (hs.sweeps_commit qc).backed h.response fun pa hpa hc =>
      (PendingAck.leaderCommitted_commit.1 hc).elim (h.committed pa hpa)
        (h.carried qc hmem pa.offset)
    exact ⟨⟨fun pa hpa => (hpend pa hpa).1, fun pa hpa => (hpend pa hpa).2, hout, hcarried⟩, hnone⟩
  | post hw =>
    refine ⟨⟨h.response, h.committed, hnone, hcarried⟩, fun x hx => h.toSend x ?_⟩
    rw [toSend, hw]
    exact hx
  | finish hw => exact ⟨⟨h.response, h.committed, hnone, hcarried⟩, hnone⟩
  | ack f a =>
    obtain ⟨hpend, hout⟩ := (hs.sweeps_ack f a).backed h.response fun pa hpa hc =>
      h.committed pa hpa (PendingAck.leaderCommitted_ack f a ▸ hc)
    have hpassed : (Event.acked f a (s.manager.released (·.ack f a))).passed =
        (s.manager.sweep (·.ack f a)).1 := (hs.sweeps_ack f a).map_released
    rw [hpassed]
    exact ⟨⟨fun pa hpa => (hpend pa hpa).1, fun pa hpa => (hpend pa hpa).2, h.toSend, hcarried⟩,
      hout⟩
  | change replicas => exact ⟨h.partition rfl, hnone⟩

end Backed

/-- What has happened is what an entry knows. -/
structure Noticed (es : List Event) (pa : PendingAck) : Prop where
  committed : Committed es pa.offset → pa.leaderCommitted = true
  acked : ∀ f, Acked es pa.offset f → f ∈ pa.ackedFollowers

theorem committed_snoc {offset : UInt64} :
    Committed (es ++ [e]) offset ↔ Committed es offset ∨ ∃ qc ∈ e.commit, qc.Covers offset := by
  simp [Committed, or_and_right, exists_or]

theorem acked_snoc {offset : UInt64} {f : UInt32} :
    Acked (es ++ [e]) offset f ↔ Acked es offset f ∨ ∃ a, (f, a) ∈ e.ack ∧ offset < a := by
  simp [Acked, or_and_right, exists_or]

theorem Noticed.frame (h : Noticed es pa) (hc : e.commit = []) (ha : e.ack = []) :
    Noticed (es ++ [e]) pa where
  committed hcom := h.committed (by simpa [committed_snoc, hc] using hcom)
  acked f hf := h.acked f (by simpa [acked_snoc, ha] using hf)

theorem Noticed.tryRelease (h : Noticed es pa) : Noticed es pa.tryRelease.2 := by
  rw [PendingAck.tryRelease_snd]
  exact ⟨h.committed, h.acked⟩

theorem Noticed.commit {qc : QueuedCommit} {released : List PendingAck} (h : Noticed es pa) :
    Noticed (es ++ [.processed qc released]) (pa.commit qc).2 := by
  have hacked : ∀ f, Acked (es ++ [.processed qc released]) pa.offset f → f ∈ pa.ackedFollowers :=
    fun f hf => h.acked f (by simpa [acked_snoc, Event.ack] using hf)
  rw [PendingAck.commit]
  split_ifs with hcov
  · exact Noticed.tryRelease ⟨fun _ => rfl, hacked⟩
  · exact ⟨fun hc => h.committed (by simpa [committed_snoc, Event.commit, hcov] using hc), hacked⟩

theorem Noticed.ack {f : UInt32} {a : UInt64} {released : List PendingAck} (h : Noticed es pa) :
    Noticed (es ++ [.acked f a released]) (pa.ack f a).2 := by
  have hcom : Committed (es ++ [.acked f a released]) pa.offset → pa.leaderCommitted = true :=
    fun hc => h.committed (by simpa [committed_snoc, Event.commit] using hc)
  have hacked : ∀ g, Acked (es ++ [.acked f a released]) pa.offset g →
      g ∈ pa.ackedFollowers ∨ g = f ∧ pa.offset < a := by
    intro g hg
    rcases acked_snoc.1 hg with hg | ⟨_, hg, hlt⟩
    · exact .inl (h.acked g hg)
    · obtain ⟨rfl, rfl⟩ := Prod.mk.inj (List.mem_singleton.1 hg)
      exact .inr ⟨rfl, hlt⟩
  rw [PendingAck.ack]
  split_ifs with hcond
  · refine Noticed.tryRelease ⟨hcom, fun g hg => Finset.mem_insert.2 ?_⟩
    exact (hacked g hg).symm.imp And.left id
  · refine ⟨hcom, fun g hg => (hacked g hg).elim id ?_⟩
    rintro ⟨rfl, hlt⟩
    by_contra hmem
    exact hcond ⟨hlt, hmem⟩

/-- The entries notice what happens, if they are registered in time. -/
theorem Step.noticed (hst : Step maxLag s e s') (h : ∀ pa ∈ s.manager.pending, Noticed es pa)
    (hnew : ∀ reg ∈ e.registration, ¬Committed es reg.1 ∧ ∀ f, ¬Acked es reg.1 f) :
    ∀ pa ∈ s'.manager.pending, Noticed (es ++ [e]) pa := by
  intro pa hpa
  cases hst.stays hpa with
  | register =>
    obtain ⟨hcom, hack⟩ := hnew _ (List.mem_singleton_self _)
    exact Noticed.frame ⟨fun hc => absurd hc hcom, fun f hf => absurd hf (hack f)⟩ rfl rfl
  | commit hmem => exact (h _ hmem).commit
  | ack hmem => exact (h _ hmem).ack
  | other hc ha hmem => exact (h _ hmem).frame hc ha

/-! ## Durability -/

/-- What an acknowledgement promises with `acks=all`: the leader has committed the record,
    and so have all brokers that were in sync when the entry was registered. -/
def Durable (es : List Event) (pa : PendingAck) : Prop :=
  Committed es pa.offset ∧ ∀ f ∈ pa.registeredAt.isrIds, f ≠ pa.registeredAt.leaderId →
    Acked es pa.offset f

/-- The ISR has no double entries, the leader is among them, and their number is within
    the range of `int`. -/
structure LedIsr (m : PartitionMeta) : Prop where
  nodup : m.isrIds.Nodup
  leader_mem : m.leaderId ∈ m.isrIds
  length_lt : m.isrIds.length < 2 ^ 31

/-- Only followers were counted that were in sync at the registration. -/
def Entitled (pa : PendingAck) : Prop :=
  ∀ f ∈ pa.ackedFollowers, f ∈ pa.registeredAt.isrIds ∧ f ≠ pa.registeredAt.leaderId

theorem toNat_isrRequired {m : PartitionMeta} (hlt : m.isrIds.length < 2 ^ 31) :
    (ReplicaManager.isrRequired m).toNat = m.isrIds.length - 1 := by
  have hint : ReplicaManager.toInt m.isrIds.length = m.isrIds.length :=
    Int.bmod_eq_of_le (by simp only [UInt32.size]; omega) (by simp only [UInt32.size]; omega)
  have hnat : (max 0 ((m.isrIds.length : ℤ) - 1)).toNat = m.isrIds.length - 1 := by omega
  rw [ReplicaManager.isrRequired, hint, hnat, UInt32.toNat_ofNat', Nat.mod_eq_of_lt (by omega)]

/-- An entry is complete only if all replicas that were in sync have acknowledged it, but for
    one. -/
theorem Tracked.length_isrIds_le (h : Tracked es pa) (hc : pa.Complete)
    (hlt : pa.registeredAt.isrIds.length < 2 ^ 31) :
    pa.registeredAt.isrIds.length ≤ pa.ackedFollowers.card + 1 := by
  have hreq := UInt32.le_iff_toNat_le.1 hc.2
  rw [h.isrRequired, toNat_isrRequired hlt, h.isrAcked, UInt32.toNat_ofNat'] at hreq
  have hmod := Nat.mod_le pa.ackedFollowers.card (2 ^ 32)
  omega

/-- The followers in sync. -/
def isrFollowers (m : PartitionMeta) : Finset UInt32 := m.isrIds.toFinset.erase m.leaderId

theorem LedIsr.card_isrFollowers {m : PartitionMeta} (h : LedIsr m) :
    (isrFollowers m).card = m.isrIds.length - 1 := by
  rw [isrFollowers, Finset.card_erase_of_mem (List.mem_toFinset.2 h.leader_mem),
    List.toFinset_card_of_nodup h.nodup]

/-- No more followers are required than there are. -/
theorem toNat_isrRequired_le {m : PartitionMeta} (hnodup : m.isrIds.Nodup) :
    (ReplicaManager.isrRequired m).toNat ≤ (isrFollowers m).card := by
  have hint := ReplicaManager.toInt_le m.isrIds.length
  have hpred := Finset.pred_card_le_card_erase (s := m.isrIds.toFinset) (a := m.leaderId)
  rw [List.toFinset_card_of_nodup hnodup] at hpred
  refine le_trans ?_ hpred
  rw [ReplicaManager.isrRequired, UInt32.toNat_ofNat']
  exact (Nat.mod_le _ _).trans (by omega)

/-- Ids other than a given one are fewer than the counter can count. -/
theorem card_lt_of_notMem {ids : Finset UInt32} {id : UInt32} (h : id ∉ ids) :
    ids.card < UInt32.size := by
  have hsub : ids.image UInt32.toNat ⊂ Finset.range UInt32.size := by
    refine (Finset.ssubset_iff_of_subset ?_).2 ⟨id.toNat, Finset.mem_range.2 id.toNat_lt_size, ?_⟩
    · intro n hn
      obtain ⟨f, -, rfl⟩ := Finset.mem_image.1 hn
      exact Finset.mem_range.2 f.toNat_lt_size
    · intro hid
      obtain ⟨f, hf, heq⟩ := Finset.mem_image.1 hid
      exact h (UInt32.toNat_inj.1 heq ▸ hf)
  have hcard := Finset.card_lt_card hsub
  rwa [Finset.card_range, Finset.card_image_of_injective _ fun _ _ => UInt32.toNat_inj.1] at hcard

/-- An entry is complete when the record is durable, if the leader is not counted. -/
theorem Durable.complete (h : Durable es pa) (ht : Tracked es pa) (hn : Noticed es pa)
    (hnodup : pa.registeredAt.isrIds.Nodup)
    (hleader : pa.registeredAt.leaderId ∉ pa.ackedFollowers) : pa.Complete := by
  refine ⟨hn.committed h.1, UInt32.le_iff_toNat_le.2 ?_⟩
  have hsub : isrFollowers pa.registeredAt ⊆ pa.ackedFollowers := by
    intro f hf
    obtain ⟨hne, hmem⟩ := Finset.mem_erase.1 hf
    exact hn.acked f (h.2 f (List.mem_toFinset.1 hmem) hne)
  rw [ht.isrAcked, ht.isrRequired, UInt32.toNat_ofNat',
    Nat.mod_eq_of_lt (card_lt_of_notMem hleader)]
  exact (toNat_isrRequired_le hnodup).trans (Finset.card_le_card hsub)

/-- As many followers as are required are all of them. -/
theorem Entitled.durable (he : Entitled pa) (hled : LedIsr pa.registeredAt) (ht : Tracked es pa)
    (hc : pa.Complete) : Durable es pa := by
  have hsub : pa.ackedFollowers ⊆ isrFollowers pa.registeredAt := fun f hf =>
    Finset.mem_erase.2 ⟨(he f hf).2, List.mem_toFinset.2 (he f hf).1⟩
  have hcard := hled.card_isrFollowers
  have hle := Finset.card_le_card hsub
  have hlt := hled.length_lt
  have hacked : pa.isrAcked.toNat = pa.ackedFollowers.card := by
    rw [ht.isrAcked, UInt32.toNat_ofNat', Nat.mod_eq_of_lt (by omega)]
  have hreq := UInt32.le_iff_toNat_le.1 hc.2
  rw [hacked, ht.isrRequired, toNat_isrRequired hlt] at hreq
  have heq := Finset.eq_of_subset_of_card_le hsub (by omega)
  refine ⟨ht.committed hc.1, fun f hf hne => ht.acked f ?_⟩
  rw [heq]
  exact Finset.mem_erase.2 ⟨hne, List.mem_toFinset.2 hf⟩

/-- Entries are registered when the leader is in sync, and acknowledgements come from
    followers that were in sync when the entries they count for were registered. -/
def FromIsr (s : Leader) : Event → Prop
  | .registered .. => LedIsr s.partition
  | .acked f a _ => ∀ pa ∈ s.manager.pending, pa.offset < a →
      f ∈ pa.registeredAt.isrIds ∧ f ≠ pa.registeredAt.leaderId
  | _ => True

theorem Entitled.tryRelease (h : Entitled pa) : Entitled pa.tryRelease.2 := by
  rw [PendingAck.tryRelease_snd]
  exact h

theorem Entitled.count {f : UInt32} (h : Entitled pa)
    (hf : f ∈ pa.registeredAt.isrIds ∧ f ≠ pa.registeredAt.leaderId) : Entitled (pa.count f) := by
  intro g hg
  rcases Finset.mem_insert.1 hg with rfl | hg
  · exact hf
  · exact h g hg

theorem Entitled.mark (h : Entitled pa) : Entitled pa.mark := h

theorem Step.entitled (hst : Step maxLag s e s') (hg : FromIsr s e)
    (h : ∀ pa ∈ s.manager.pending, Entitled pa) : ∀ pa ∈ s'.manager.pending, Entitled pa := by
  intro pa hpa
  cases hst.stays hpa with
  | register => exact fun f hf => absurd hf (Finset.notMem_empty f)
  | commit hmem =>
    rw [PendingAck.commit]
    split_ifs with hcov
    · exact (h _ hmem).mark.tryRelease
    · exact h _ hmem
  | ack hmem =>
    -- By the guard, the follower is in sync if the entry counts it.
    rw [PendingAck.ack]
    split_ifs with hcond
    · exact ((h _ hmem).count (hg _ hmem hcond.1)).tryRelease
    · exact h _ hmem
  | other hc ha hmem => exact h _ hmem

theorem Run.entitled (hr : Run (Guarded (Step maxLag) FromIsr) s₀ es s)
    (hnil : s₀.manager.pending = []) : ∀ pa ∈ s.manager.pending, Entitled pa :=
  hr.invariant (I := fun _ s => ∀ pa ∈ s.manager.pending, Entitled pa)
    (by simp [hnil]) fun _ ih hst => hst.1.entitled hst.2 ih

theorem Run.ledIsr (hr : Run (Guarded (Step maxLag) FromIsr) s₀ es s)
    (hnil : s₀.manager.pending = []) : ∀ pa ∈ s.manager.pending, LedIsr pa.registeredAt := by
  refine hr.invariant (I := fun _ s => ∀ pa ∈ s.manager.pending, LedIsr pa.registeredAt)
    (by simp [hnil]) fun {_ s e _} _ ih hst => hst.1.registeredAt ih fun hreg => ?_
  cases e with
  | registered => exact hst.2
  | _ => exact absurd rfl hreg

/-- In every run of a replica manager from its creation, if entries are registered when
    the leader is in sync, and acknowledged by followers only that were in sync then:
    an entry that is released is durable. -/
theorem durable_of_released (hnew : s₀.manager = {})
    (hr : Run (Guarded (Step maxLag) FromIsr) s₀ es s) (hst : Guarded (Step maxLag) FromIsr s e s')
    (hpa : pa ∈ e.releases) : Durable (es ++ [e]) pa := by
  have hnil : s₀.manager.pending = [] := by rw [hnew]
  have htr := Run.tracked hr.of_guarded hnil
  have hen := Run.entitled hr hnil
  have hled := Run.ledIsr hr hnil
  -- An entry is released when it is complete with the commit noted, or the follower counted.
  obtain ⟨hst, hg⟩ := hst
  cases hst with
  | process hw =>
    obtain ⟨hmem, hne⟩ := ReplicaManager.mem_released.1 hpa
    rw [PendingAck.commit] at hne
    split_ifs at hne with hcov
    · exact (hen pa hmem).mark.durable (hled pa hmem) ((htr pa hmem).mark hcov)
        (PendingAck.complete_of_tryRelease hne)
    · exact absurd rfl hne
  | ack f a =>
    obtain ⟨hmem, hne⟩ := ReplicaManager.mem_released.1 hpa
    rw [PendingAck.ack] at hne
    split_ifs at hne with hcond
    · exact ((hen pa hmem).count (hg pa hmem hcond.1)).durable (hled pa hmem)
        ((htr pa hmem).count hcond.1 hcond.2) (PendingAck.complete_of_tryRelease hne)
    · exact absurd rfl hne
  | register | enqueue | pop | post | finish | change => exact absurd hpa List.not_mem_nil

section

/-- The leader `0` has two followers, of which `1` is in sync. -/
def oneInSync : Leader where
  manager := {}
  partition :=
    { topic := [], role := .leader
      replicas := [{ brokerId := 0 }, { brokerId := 1 }, { brokerId := 2, inIsr := false }] }

/-- A commit of one record. -/
def firstCommit : QueuedCommit := ⟨0, [⟨0, 0, .empty⟩]⟩

/-- An entry registered for its record. -/
def firstEntry : PendingAck where
  offset := 0
  ackResponse := [1]
  producerFd := 5
  isrRequired := 1
  registeredAt := oneInSync.partition

/-- The leader with the entry registered, and the record committed. -/
def committedFirst : Leader :=
  Leader.finishCommit ⟨{ pending := [firstEntry.mark], worker := .posted firstCommit },
    oneInSync.partition⟩ firstCommit

def commitFirstEvents : List Event :=
  [.registered 0 [1] 5, .enqueued firstCommit, .popped, .processed firstCommit [], .posted [],
    .finished]

theorem register_firstEntry :
    oneInSync.manager.registerPending oneInSync.partition 0 [1] 5 =
      { pending := [firstEntry] } := by
  have hreq : ReplicaManager.isrRequired oneInSync.partition = 1 := by decide +kernel
  rw [ReplicaManager.registerPending, hreq]
  rfl

theorem run_committedFirst :
    Run (Guarded (Step 1000) FromIsr) oneInSync commitFirstEvents committedFirst := by
  have hreg : Step 1000 oneInSync (.registered 0 [1] 5)
      ⟨{ pending := [firstEntry] }, oneInSync.partition⟩ := by
    rw [← register_firstEntry]
    exact .register 0 [1] 5
  exact (((((Run.single ⟨hreg, ⟨by decide, by decide, by decide⟩⟩).snoc
    ⟨.enqueue firstCommit, trivial⟩).snoc ⟨.pop rfl rfl, trivial⟩).snoc
    ⟨.process rfl, trivial⟩).snoc ⟨.post rfl, trivial⟩).snoc ⟨.finish rfl, trivial⟩

/-- Any acknowledgement releases the entry. -/
theorem releases_committedFirst (f : UInt32) :
    firstEntry.mark ∈ (Event.acked f 1 (committedFirst.manager.released (·.ack f 1))).releases := by
  refine ReplicaManager.mem_released.2 ⟨List.mem_singleton_self _, ?_⟩
  have hmet : (firstEntry.mark.count f).QuorumMet := by
    rw [PendingAck.quorumMet_iff]
    exact ⟨rfl, by simp [PendingAck.count, PendingAck.mark, firstEntry]⟩
  rw [PendingAck.ack, if_pos ⟨by decide, Finset.notMem_empty _⟩, PendingAck.tryRelease, if_pos hmet]
  exact List.cons_ne_nil _ _

theorem durable_firstEntry :
    Durable (commitFirstEvents ++ [.acked 1 1 (committedFirst.manager.released (·.ack 1 1))])
      firstEntry.mark := by
  refine durable_of_released rfl run_committedFirst ⟨.ack 1 1, ?_⟩ (releases_committedFirst 1)
  intro pa hpa _
  obtain rfl := List.mem_singleton.1 hpa
  exact ⟨by decide, by decide⟩

/-- The follower that is not in sync acknowledges, and the entry is released without
    the one that is. -/
theorem not_forall_durable : ¬∀ (maxLag : UInt64) (s₀ s s' : Leader) (es : List Event) (e : Event)
    (pa : PendingAck), s₀.manager = {} → Run (Step maxLag) s₀ es s → Step maxLag s e s' →
      pa ∈ e.releases → Durable (es ++ [e]) pa := by
  intro h
  obtain ⟨_, hisr⟩ := h _ _ _ _ _ _ _ rfl run_committedFirst.of_guarded (.ack 2 1)
    (releases_committedFirst 2)
  obtain ⟨a, ha, _⟩ := hisr 1 (by decide) (by decide)
  simp [acks, commitFirstEvents, Event.ack] at ha

end

end Leader

end Fell.Replication
