import Fell.Replication.Election

/-!
# Epochs

Two threads of a broker advance the epoch of a partition. Its replication client makes the
broker a candidate when the leader cannot be reached (`maybe_elect_self`), and its
replication server takes the claims of others (`handle_leader_election`), in which anything may
be written: any epoch, any offset, and any leader, the broker itself included. Both hold the
lock of the metadata while they change them, so that a call is one step.

What a call may do to the metadata of a partition is said once (`metadata_call`): nothing, a
candidacy, or an election. From it,

* `epochs_advance`: along every run the epoch moves forward, a leader is replaced only in a
  newer epoch, claims that are rejected leave no trace, and a broker whose role is that of the
  leader is the one recorded, as long as the epochs do not run out.
-/

namespace Fell.Replication

open Platform PartitionMetaRegistry

namespace PartitionMeta

variable {m m' m'' : PartitionMeta} {committed : Option UInt64} {le : LeaderElection}

/-- The locked part of `maybe_elect_self`. -/
def maybeElectSelf (m : PartitionMeta) : PartitionMeta :=
  if m.role = .candidate then m else m.electSelf

/-- A claim is rejected: its epoch is not newer, or the candidate has less than the
    receiver, if this one has the partition. -/
def Rejects (m : PartitionMeta) (committed : Option UInt64) (le : LeaderElection) : Prop :=
  le.epoch ≤ m.epoch ∨ ∃ c ∈ committed, le.committedOffset < c

theorem Rejects.not_accepts (h : m.Rejects committed le) : ¬m.Accepts committed le := by
  rintro ⟨hepoch, hoffset⟩
  rcases h with hle | ⟨c, hc, hlt⟩
  · exact absurd hepoch (UInt32.not_lt.2 hle)
  · exact absurd hlt (UInt64.not_lt.2 (hoffset c hc))

/-- The metadata have moved on: to a newer epoch, or within the epoch, with the same
    leader. -/
def Advances (m m' : PartitionMeta) : Prop :=
  m.epoch < m'.epoch ∨ m.epoch = m'.epoch ∧ m.leaderId = m'.leaderId

theorem Advances.refl (m : PartitionMeta) : m.Advances m := .inr ⟨rfl, rfl⟩

theorem Advances.trans (h : m.Advances m') (h' : m'.Advances m'') : m.Advances m'' := by
  rcases h with hlt | ⟨hepoch, hleader⟩
  · rcases h' with hlt' | ⟨hepoch', -⟩
    · exact .inl (UInt32.lt_trans hlt hlt')
    · exact .inl (hepoch' ▸ hlt)
  · rw [Advances, hepoch, hleader]
    exact h'

theorem Advances.epoch_le (h : m.Advances m') : m.epoch ≤ m'.epoch :=
  h.elim UInt32.le_of_lt fun h => h.1 ▸ UInt32.le_refl _

theorem Advances.epoch_lt (h : m.Advances m') (hne : m'.leaderId ≠ m.leaderId) :
    m.epoch < m'.epoch :=
  h.resolve_right fun heq => hne heq.2.symm

/-- A candidacy is for the next epoch, if there is one. -/
theorem advances_electSelf (h : m.epoch.toNat + 1 < 2 ^ 32) : m.Advances m.electSelf := by
  refine .inl (UInt32.lt_iff_toNat_lt.2 ?_)
  have hone : (1 : UInt32).toNat = 1 := rfl
  rw [electSelf, UInt32.toNat_add, hone, Nat.mod_eq_of_lt h]
  omega

end PartitionMeta

namespace Epochs

/-- A broker, as far as its elections are concerned. -/
structure Voter where
  metaReg : PartitionMetaRegistry
  /-- The committed offsets of the partitions that the broker has. -/
  committed : Bytes → UInt16 → Option UInt64

/-- The calls, and the work of the partition stores. -/
inductive Call
  | maybeElectSelf (topic : Bytes) (partition : UInt16)
  | handleLeaderElection (topic : Bytes) (partition : UInt16) (le : LeaderElection)
  /-- Messages are committed, and partitions are created. -/
  | commit (committed : Bytes → UInt16 → Option UInt64)

/-- What a call does at the broker `brokerId`. -/
def Voter.call (brokerId : UInt32) (s : Voter) : Call → Voter
  | .maybeElectSelf topic partition =>
    match s.committed topic partition with
    | none => s
    | some _ => { s with metaReg := s.metaReg.modify topic partition (·.maybeElectSelf) }
  | .handleLeaderElection topic partition le =>
    { s with
      metaReg := s.metaReg.modify topic partition
        (·.handleLeaderElection brokerId (s.committed topic partition) le) }
  | .commit committed => { s with committed }

/-- What the broker knows of a partition. -/
abbrev Voter.metadata (s : Voter) (t : Bytes) (p : UInt16) : PartitionMeta := s.metaReg.find t p

/-- The steps of the broker `brokerId`. -/
def Step (brokerId : UInt32) (s : Voter) (e : Call) (s' : Voter) : Prop := s' = s.call brokerId e

/-- The epoch of the partition has not run out. -/
def Unexhausted (t : Bytes) (p : UInt16) (s : Voter) (_ : Call) : Prop :=
  (s.metadata t p).epoch.toNat + 1 < 2 ^ 32

variable {brokerId numBrokers : UInt32} {s s' s₀ : Voter} {e : Call} {es : List Call} {t : Bytes}
  {p : UInt16}

theorem metadata_handleLeaderElection (brokerId : UInt32) (s : Voter) (t : Bytes) (p : UInt16)
    (le : LeaderElection) :
    (s.call brokerId (.handleLeaderElection t p le)).metadata t p =
      (s.metadata t p).handleLeaderElection brokerId (s.committed t p) le := by
  rw [Voter.call, Voter.metadata, find_modify, if_pos ⟨rfl, rfl⟩]

/-- What a call may do to the metadata of a partition. -/
theorem metadata_call (brokerId : UInt32) (s : Voter) (e : Call) (t : Bytes) (p : UInt16) :
    (s.call brokerId e).metadata t p = s.metadata t p ∨
      e = .maybeElectSelf t p ∧ (s.call brokerId e).metadata t p = (s.metadata t p).electSelf ∨
      ∃ le, e = .handleLeaderElection t p le ∧ (s.metadata t p).Accepts (s.committed t p) le ∧
        (s.call brokerId e).metadata t p =
          { s.metadata t p with
            epoch := le.epoch
            leaderId := le.newLeaderId
            role := if le.newLeaderId = brokerId then .leader else .follower } := by
  cases e with
  | maybeElectSelf topic partition =>
    rw [Voter.call]
    split
    · exact .inl rfl
    · rw [Voter.metadata, find_modify]
      split_ifs with htp
      · obtain ⟨rfl, rfl⟩ := htp
        rw [PartitionMeta.maybeElectSelf]
        split_ifs
        · exact .inl rfl
        · exact .inr (.inl ⟨rfl, rfl⟩)
      · exact .inl rfl
  | handleLeaderElection topic partition le =>
    by_cases htp : t = topic ∧ p = partition
    · obtain ⟨rfl, rfl⟩ := htp
      rw [metadata_handleLeaderElection]
      by_cases hacc : (s.metadata t p).Accepts (s.committed t p) le
      · exact .inr (.inr ⟨le, rfl, hacc, if_pos hacc⟩)
      · exact .inl (if_neg hacc)
    · rw [Voter.call, Voter.metadata, find_modify, if_neg htp]
      exact .inl rfl
  | commit committed => exact .inl rfl

/-! ## One step -/

theorem Step.advances (hst : Step brokerId s e s') (h : Unexhausted t p s e) :
    (s.metadata t p).Advances (s'.metadata t p) := by
  subst hst
  rcases metadata_call brokerId s e t p with heq | ⟨-, heq⟩ | ⟨le, -, hacc, heq⟩
  · rw [heq]
    exact .refl _
  · rw [heq]
    exact PartitionMeta.advances_electSelf h
  · rw [heq]
    exact .inl hacc.1

/-- A claim that is rejected changes nothing. -/
theorem Step.eq_of_rejects {le : LeaderElection}
    (hst : Step brokerId s (.handleLeaderElection t p le) s')
    (h : (s.metadata t p).Rejects (s.committed t p) le) : s'.metadata t p = s.metadata t p := by
  subst hst
  rw [metadata_handleLeaderElection]
  exact if_neg h.not_accepts

/-- A claim that changes something comes from a candidate that is not behind. -/
theorem Step.committed_le {le : LeaderElection}
    (hst : Step brokerId s (.handleLeaderElection t p le) s')
    (h : s'.metadata t p ≠ s.metadata t p) : ∀ c ∈ s.committed t p, c ≤ le.committedOffset := by
  subst hst
  rw [metadata_handleLeaderElection] at h
  by_contra hbehind
  exact h (if_neg fun hacc => hbehind hacc.2)

/-- A broker that leads a partition is the leader it knows of. -/
def KnowsItself (brokerId : UInt32) (m : PartitionMeta) : Prop :=
  m.role = .leader → m.leaderId = brokerId

theorem eq_of_role_eq {leaderId : UInt32}
    (h : (if leaderId = brokerId then PartitionRole.leader else .follower) = .leader) :
    leaderId = brokerId := by
  by_contra hne
  rw [if_neg hne] at h
  exact absurd h (by decide)

theorem knowsItself_seed (m : PartitionMeta) :
    KnowsItself brokerId (seed brokerId numBrokers p m) :=
  fun hrole => eq_of_role_eq hrole

theorem Step.knowsItself (hst : Step brokerId s e s') (h : KnowsItself brokerId (s.metadata t p)) :
    KnowsItself brokerId (s'.metadata t p) := by
  subst hst
  rcases metadata_call brokerId s e t p with heq | ⟨-, heq⟩ | ⟨le, -, hacc, heq⟩
  · rwa [heq]
  · rw [heq]
    intro hrole
    cases hrole
  · rw [heq]
    exact fun hrole => eq_of_role_eq hrole

/-! ## Runs -/

theorem Run.advances_metadata (hr : Run (Guarded (Step brokerId) (Unexhausted t p)) s₀ es s) :
    (s₀.metadata t p).Advances (s.metadata t p) :=
  hr.invariant (I := fun _ s => (s₀.metadata t p).Advances (s.metadata t p)) (.refl _)
    fun _ h hst => h.trans (hst.1.advances hst.2)

theorem Run.knowsItself (hr : Run (Step brokerId) s₀ es s)
    (h : KnowsItself brokerId (s₀.metadata t p)) : KnowsItself brokerId (s.metadata t p) :=
  hr.invariant (I := fun _ s => KnowsItself brokerId (s.metadata t p)) h
    fun _ h hst => hst.knowsItself h

/-- Epochs only move forward. From the roles that were assigned, a run leads to a state `s`, and
    a call from there to `s'`: the epoch does not decrease, the leader changes only with it,
    a claim that is rejected changes nothing, one that changes something is from a broker
    that is not behind, and whoever has the role of the leader is the leader recorded. -/
theorem epochs_advance {reg : PartitionMetaRegistry} {topics : List Bytes}
    {partitionCounts : List UInt16} (hnum : numBrokers ≠ 0)
    (hmem : (t, p) ∈ assigned topics partitionCounts)
    (hseed : s₀.metaReg = reg.assignRoles brokerId numBrokers topics partitionCounts)
    (hr : Run (Guarded (Step brokerId) (Unexhausted t p)) s₀ es s)
    (hst : Guarded (Step brokerId) (Unexhausted t p) s e s') :
    let m₀ := s₀.metadata t p
    let m := s.metadata t p
    let m' := s'.metadata t p
    m₀.epoch ≤ m.epoch ∧ m.epoch ≤ m'.epoch ∧ (m'.leaderId ≠ m.leaderId → m.epoch < m'.epoch) ∧
      (∀ le, e = .handleLeaderElection t p le →
        (m.Rejects (s.committed t p) le →
          m'.epoch = m.epoch ∧ m'.leaderId = m.leaderId ∧ m'.role = m.role) ∧
        (m' ≠ m → ∀ c ∈ s.committed t p, c ≤ le.committedOffset)) ∧
      (m.role = .leader → m.leaderId = brokerId) ∧
      (m'.role = .leader → m'.leaderId = brokerId) := by
  have hinit : KnowsItself brokerId (s₀.metadata t p) := by
    rw [Voter.metadata, hseed, find_assignRoles reg hnum, if_pos hmem]
    exact knowsItself_seed _
  have hknows := Run.knowsItself hr.of_guarded hinit
  have hadv := hst.1.advances hst.2
  refine ⟨(Run.advances_metadata hr).epoch_le, hadv.epoch_le, hadv.epoch_lt, ?_, hknows,
    hst.1.knowsItself hknows⟩
  rintro le rfl
  refine ⟨fun hrej => ?_, hst.1.committed_le⟩
  have heq := hst.1.eq_of_rejects hrej
  exact ⟨congrArg _ heq, congrArg _ heq, congrArg _ heq⟩

/-- A broker of two that follows a partition. -/
def seededVoter : Voter := ⟨assignRoles ∅ 1 2 [[]] [1], fun _ _ => some 7⟩

/-- It makes itself a candidate. -/
def candidateVoter : Voter := seededVoter.call 1 (.maybeElectSelf [] 0)

/-- Then it is told that it leads, in a later epoch. -/
def electedVoter : Voter := candidateVoter.call 1 (.handleLeaderElection [] 0 ⟨1, 5, 9⟩)

theorem epochs_advance_elected :
    (electedVoter.metadata [] 0).role = .leader ∧ (electedVoter.metadata [] 0).leaderId = 1 ∧
      (candidateVoter.metadata [] 0).epoch < (electedVoter.metadata [] 0).epoch := by
  have hrun : Run (Guarded (Step 1) (Unexhausted [] 0)) seededVoter [.maybeElectSelf [] 0]
      candidateVoter := .single ⟨rfl, by unfold Unexhausted; decide⟩
  have hstep : Guarded (Step 1) (Unexhausted [] 0) candidateVoter
      (.handleLeaderElection [] 0 ⟨1, 5, 9⟩) electedVoter :=
    ⟨rfl, by unfold Unexhausted; decide⟩
  obtain ⟨-, -, hlt, -, -, hleader⟩ := @epochs_advance 1 2 _ _ seededVoter _ _ [] 0 ∅ [[]] [1]
    (by decide) (by decide) rfl hrun hstep
  have hrole : (electedVoter.metadata [] 0).role = .leader := by decide
  exact ⟨hrole, hleader hrole, hlt (by decide)⟩

end Epochs

end Fell.Replication
