import Fell.Replication.PartitionMeta

/-!
# Who is in sync

The documentation promises that the ISR follows the lag of the followers and the time
at which they were last seen: a follower is in it as long as it is not too far behind the
leader, and leaves it when it has been silent for too long. Of the two functions that
keep it (`replication/partition_meta.cpp`), `on_replica_ack` looks at the lag and
`tick_isr` at the time.

* `followsLag_iff`: an acknowledgement takes a follower back into the ISR, but never out
  of it, however far it lags behind. And it takes it back only if it is not ahead
  of what the leader has recorded of itself;
* `evictsExactly_iff`: the time for which a replica has been silent is an unsigned
  difference. One that was seen after `now_ms`, by another clock, seems to have been silent
  for almost `2 ^ 64` milliseconds.
-/

namespace Fell.Replication

namespace PartitionMeta

variable {m : PartitionMeta} {id : UInt32}

/-! ## The lag -/

/-- If no two replicas have the same id, the first one with an id is the only one. -/
theorem updateReplica_eq_map (h : m.replicaIds.Nodup) (f : ReplicaState → ReplicaState) :
    m.updateReplica id f =
      { m with replicas := m.replicas.map fun r => if r.brokerId = id then f r else r } := by
  rw [updateReplica, mk.injEq]
  refine ⟨rfl, rfl, rfl, rfl, rfl, ?_⟩
  rw [replicaIds] at h
  generalize m.replicas = replicas at h ⊢
  induction replicas with
  | nil => rfl
  | cons r rs ih =>
    rw [List.map_cons, List.nodup_cons] at h
    by_cases hr : r.brokerId = id
    · have hrest : rs.map (fun r => if r.brokerId = id then f r else r) = rs := by
        refine (List.map_congr_left fun r' hr' => if_neg fun heq => h.1 ?_).trans (List.map_id' rs)
        rw [hr, ← heq]
        exact List.mem_map_of_mem hr'
      simp [List.replaceF, hr, hrest]
    · simpa [List.replaceF, hr] using ih h.2

/-- A replica after an acknowledgement, as it should be: in the ISR exactly if it has
    what the leader has, or lags behind by no more than `maxLag` messages. -/
def lagRule (leaderCommitted ackedOffset maxLag : UInt64) (r : ReplicaState) : ReplicaState :=
  let ackOffset := max r.ackOffset ackedOffset
  { r with
    ackOffset
    inIsr := leaderCommitted ≤ ackOffset ∨
      leaderCommitted.toNat - ackOffset.toNat ≤ maxLag.toNat }

/-- An acknowledgement changes the replica it is from by the rule, and no other. -/
def FollowsLag (m : PartitionMeta) (id : UInt32) (ackedOffset maxLag : UInt64) : Prop :=
  m.onReplicaAck id ackedOffset maxLag m.leaderCommittedOffset =
    { m with
      replicas := m.replicas.map fun r =>
        if r.brokerId = id then lagRule m.leaderCommittedOffset ackedOffset maxLag r else r }

instance (m : PartitionMeta) (id : UInt32) (ackedOffset maxLag : UInt64) :
    Decidable (m.FollowsLag id ackedOffset maxLag) :=
  inferInstanceAs (Decidable (_ = _))

/-- What an acknowledgement does to a replica is the rule, unless it is in the ISR and too
    far behind, or not in the ISR and ahead. -/
theorem acked_eq_lagRule_iff (r : ReplicaState) (leaderCommitted ackedOffset maxLag : UInt64) :
    r.acked ackedOffset maxLag leaderCommitted = lagRule leaderCommitted ackedOffset maxLag r ↔
      (r.inIsr = true →
        leaderCommitted.toNat ≤ (max r.ackOffset ackedOffset).toNat + maxLag.toNat) ∧
      (r.inIsr = false → max r.ackOffset ackedOffset ≤ leaderCommitted) := by
  rw [ReplicaState.acked, lagRule]
  generalize max r.ackOffset ackedOffset = a
  have hle := @UInt64.le_iff_toNat_le a leaderCommitted
  have hle' := @UInt64.le_iff_toNat_le leaderCommitted a
  rw [ReplicaState.mk.injEq]
  simp only [true_and]
  cases hin : r.inIsr with
  | true =>
    simp only [Bool.true_or, true_implies, reduceCtorEq, false_implies, and_true]
    rw [eq_comm, decide_eq_true_iff, hle']
    omega
  | false =>
    simp only [Bool.false_or, true_implies, reduceCtorEq, false_implies, true_and, decide_eq_decide]
    constructor
    · intro h
      by_contra hlt
      rw [hle] at hlt
      exact hlt (hle.1 (h.2 (.inl (hle'.2 (by omega)))).1)
    · intro h
      have hsub : leaderCommitted - a ≤ maxLag ↔
          leaderCommitted.toNat - a.toNat ≤ maxLag.toNat := by
        rw [UInt64.le_iff_toNat_le, UInt64.toNat_sub_of_le _ _ h]
      rw [hsub, hle', and_iff_right h]
      omega

/-- The membership of a follower follows its lag exactly if it was in the ISR and is not too far
    behind, or was not and is not ahead of the leader. -/
theorem followsLag_iff {r : ReplicaState} (hnodup : m.replicaIds.Nodup) (hr : r ∈ m.replicas)
    (ackedOffset maxLag : UInt64) :
    m.FollowsLag r.brokerId ackedOffset maxLag ↔
      (r.inIsr = true → m.leaderCommittedOffset.toNat ≤
        (max r.ackOffset ackedOffset).toNat + maxLag.toNat) ∧
      (r.inIsr = false → max r.ackOffset ackedOffset ≤ m.leaderCommittedOffset) := by
  rw [← acked_eq_lagRule_iff, FollowsLag, onReplicaAck, updateReplica_eq_map hnodup, mk.injEq]
  simp only [true_and, List.map_inj_left]
  constructor
  · intro h
    simpa using h r hr
  · intro h r' hr'
    split_ifs with heq
    · rw [List.inj_on_of_nodup_map hnodup hr' hr heq, h]
    · rfl

/-- A leader with 2000 messages and its follower, at message `ackOffset`. -/
def leaderAndFollower (ackOffset : UInt64) (inIsr : Bool) : PartitionMeta where
  topic := []
  role := .leader
  replicas := [{ brokerId := 0, ackOffset := 2000 }, { brokerId := 1, ackOffset, inIsr }]

/-- A follower one message behind stays in the ISR, and rightly so. -/
theorem followsLag_leaderAndFollower :
    (leaderAndFollower 1998 true).FollowsLag 1 1999 1000 :=
  (@followsLag_iff (leaderAndFollower 1998 true) { brokerId := 1, ackOffset := 1998 }
    (by decide) (by decide) 1999 1000).2 (by decide)

/-- A follower that has fallen behind by 1999 messages is left in the ISR. -/
theorem not_forall_followsLag :
    ¬∀ (m : PartitionMeta) (r : ReplicaState) (ackedOffset maxLag : UInt64), m.replicaIds.Nodup →
      r ∈ m.replicas → r.brokerId ≠ m.leaderId → m.FollowsLag r.brokerId ackedOffset maxLag := by
  intro h
  have hbad := h (leaderAndFollower 0 true) { brokerId := 1 } 1 1000 (by decide) (by decide)
    (by decide)
  exact absurd hbad (by decide)

/-- A follower ahead of what the leader has recorded of itself is left out of the ISR. -/
example : ¬(leaderAndFollower 0 false).FollowsLag 1 2001 1000 := by decide

/-! ## The time -/

/-- The replicas other than the leader that were last seen more than `timeoutMs` before `nowMs`
    leave the ISR, and nothing else changes. -/
def EvictsExactly (m : PartitionMeta) (nowMs : UInt64) (timeoutMs : UInt32) : Prop :=
  m.tickIsr nowMs timeoutMs =
    { m with
      replicas := m.replicas.map fun r =>
        if r.inIsr ∧ r.brokerId ≠ m.leaderId ∧
            r.lastSeenMs.toNat + timeoutMs.toNat < nowMs.toNat then
          { r with inIsr := false }
        else r }

instance (m : PartitionMeta) (nowMs : UInt64) (timeoutMs : UInt32) :
    Decidable (m.EvictsExactly nowMs timeoutMs) :=
  inferInstanceAs (Decidable (_ = _))

/-- The difference of two clocks, as it is computed. -/
theorem lt_sub_iff (timeoutMs : UInt32) (nowMs lastSeenMs : UInt64) :
    timeoutMs.toUInt64 < nowMs - lastSeenMs ↔
      if nowMs.toNat < lastSeenMs.toNat then
        lastSeenMs.toNat - nowMs.toNat + timeoutMs.toNat < 2 ^ 64
      else lastSeenMs.toNat + timeoutMs.toNat < nowMs.toNat := by
  have hnow := nowMs.toNat_lt
  have hseen := lastSeenMs.toNat_lt
  rw [UInt64.lt_iff_toNat_lt, UInt32.toNat_toUInt64, UInt64.toNat_sub]
  split_ifs with hlt
  · rw [Nat.mod_eq_of_lt (by omega)]
    omega
  · rw [show 2 ^ 64 - lastSeenMs.toNat + nowMs.toNat =
      nowMs.toNat - lastSeenMs.toNat + 2 ^ 64 by omega, Nat.add_mod_right,
      Nat.mod_eq_of_lt (by omega)]
    omega

/-- Two conditions evict the same, if they agree on a replica that is in the ISR. -/
theorem evict_eq_evict_iff {P Q : Prop} [Decidable P] [Decidable Q] (r : ReplicaState) :
    (if P then { r with inIsr := false } else r) = (if Q then { r with inIsr := false } else r) ↔
      (r.inIsr = true → (P ↔ Q)) := by
  have hne : ({ r with inIsr := false } : ReplicaState) = r ↔ r.inIsr = false :=
    ⟨fun h => h ▸ rfl, fun h => by rw [← h]⟩
  by_cases hP : P <;> by_cases hQ : Q
  · simp [hP, hQ]
  · simp [hP, hQ, hne]
  · simp [hP, hQ, eq_comm.trans hne]
  · simp [hP, hQ]

/-- The eviction is exact unless a follower in the ISR was seen after `nowMs`, and not by so
    much that the difference comes round to the timeout. -/
theorem evictsExactly_iff (m : PartitionMeta) (nowMs : UInt64) (timeoutMs : UInt32) :
    m.EvictsExactly nowMs timeoutMs ↔
      ∀ r ∈ m.replicas, r.inIsr = true → r.brokerId ≠ m.leaderId → nowMs < r.lastSeenMs →
        2 ^ 64 ≤ r.lastSeenMs.toNat - nowMs.toNat + timeoutMs.toNat := by
  rw [EvictsExactly, tickIsr, mk.injEq]
  simp only [true_and, List.map_inj_left]
  refine forall₂_congr fun r _ => (evict_eq_evict_iff r).trans (imp_congr_right fun hin => ?_)
  rw [and_iff_right hin, and_iff_right hin, and_congr_right_iff, lt_sub_iff,
    UInt64.lt_iff_toNat_lt]
  refine imp_congr_right fun _ => ?_
  split_ifs with hlt
  · omega
  · omega

/-- A follower that was seen a millisecond later, by a clock that is ahead. -/
theorem not_forall_evictsExactly :
    ¬∀ (m : PartitionMeta) (nowMs : UInt64) (timeoutMs : UInt32),
      m.EvictsExactly nowMs timeoutMs := by
  intro h
  have hbad := h { topic := [], replicas := [{ brokerId := 1, lastSeenMs := 1 }] } 0 1000
  exact absurd hbad (by decide)

end PartitionMeta

end Fell.Replication
