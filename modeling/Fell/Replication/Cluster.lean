import Fell.Replication.Election
import Fell.Replication.ReplProtocol

/-!
# Who leads

The brokers of a cluster, each with the metadata of all partitions. A broker takes the role
of leader in two places: when roles are seeded (`assign_roles`), at the start and
when a topic is created, and when it is told that it was elected
(`handle_leader_election`). Restarts set role and epoch back, while messages from before may
still be on their way.

* `Step.placed`: a broker that leads a partition is the one to whom it is seeded, as
  nobody tells a candidate that it was elected;
* `eq_of_leads`: if the brokers seed with the same broker count, no two of them lead a partition
  at the same time.

The brokers are known by their ids, and messages reach the brokers they are meant for: the
addresses of the configuration are right.
-/

namespace Fell.Replication

open Platform PartitionMetaRegistry

namespace Cluster

open Election (Campaign)

/-- A broker. -/
structure Member where
  metaReg : PartitionMetaRegistry
  /-- The committed offsets of the partitions that the broker has. -/
  committed : Bytes × UInt16 → Option UInt64
  /-- The threads of the replication clients. -/
  campaigns : Bytes × UInt16 → Campaign

/-- `LEADER_ELECTION`, with its receiver. -/
structure Message where
  receiver : UInt32
  topic : TopicField
  partition : UInt16
  election : LeaderElection

end Cluster

/-- The brokers, by their ids, and what has been sent. -/
structure Cluster where
  members : UInt32 → Cluster.Member
  sent : List Cluster.Message

namespace Cluster

open Election (Campaign)

variable (s : Cluster)

/-- The metadata of a partition at a broker. -/
def partitionMeta (i : UInt32) (topic : Bytes) (partition : UInt16) : PartitionMeta :=
  (s.members i).metaReg.find topic partition

/-- The broker leads the partition. -/
def Leads (i : UInt32) (topic : Bytes) (partition : UInt16) : Prop :=
  (s.partitionMeta i topic partition).role = .leader

/-- One broker moves. -/
def set (i : UInt32) (m : Member) : Cluster := { s with members := Function.update s.members i m }

/-- The metadata of a broker are changed. -/
def setMetaReg (i : UInt32) (reg : PartitionMetaRegistry) : Cluster :=
  s.set i { s.members i with metaReg := reg }

/-- A replication client goes on with its campaign. -/
def setCampaign (i : UInt32) (tp : Bytes × UInt16) (c : Campaign) : Cluster :=
  s.set i { s.members i with campaigns := Function.update (s.members i).campaigns tp c }

/-- The locked part of `maybe_elect_self`. -/
def electSelf (i : UInt32) (tp : Bytes × UInt16) : Cluster :=
  s.set i
    { s.members i with
      metaReg := (s.members i).metaReg.modify tp.1 tp.2 PartitionMeta.electSelf
      campaigns := Function.update (s.members i).campaigns tp .raised }

/-- The messages of `maybe_elect_self`, to all peers but the candidate itself. -/
def announcements (peers : List UInt32) (i : UInt32) (tp : Bytes × UInt16) (epoch : UInt32)
    (committed : UInt64) : List Message :=
  (peers.filter (· ≠ i)).map fun j => ⟨j, .ofName tp.1, tp.2, ⟨i, epoch, committed⟩⟩

/-- `handle_leader_election`, at the receiver. -/
def handle (m : Message) : Cluster :=
  s.setMetaReg m.receiver ((s.members m.receiver).metaReg.modify m.topic.name m.partition
    fun pm => pm.handleLeaderElection m.receiver
      ((s.members m.receiver).committed (m.topic.name, m.partition)) m.election)

/-- What happens in a step. -/
inductive Event
  | started (i : UInt32)
  | assigned (i : UInt32)
  | campaigned (i : UInt32)
  | read (i : UInt32)
  | announced (i : UInt32)
  | delivered (m : Message)
  | looked (i : UInt32)
  | committed (i : UInt32)

/-- A step of the brokers, which seed with the given broker count. The peers are those in the
    configuration of each. -/
inductive Step (numBrokers : UInt32) (peers : UInt32 → List UInt32) (s : Cluster) :
    Event → Cluster → Prop
  /-- A broker is started, or started again: what it had in memory is gone. -/
  | start (i : UInt32) (committed : Bytes × UInt16 → Option UInt64) :
      Step numBrokers peers s (.started i) (s.set i ⟨∅, committed, fun _ => .idle⟩)
  /-- `assign_roles`, with the topics found at the start or with the one created. -/
  | assign (i : UInt32) (topics : List Bytes) (partitionCounts : List UInt16) :
      Step numBrokers peers s (.assigned i)
        (s.setMetaReg i
          ((s.members i).metaReg.assignRoles i numBrokers topics partitionCounts))
  | campaign {i : UInt32} {tp : Bytes × UInt16} (hc : ((s.members i).committed tp).isSome)
      (hidle : (s.members i).campaigns tp = .idle)
      (hrole : (s.partitionMeta i tp.1 tp.2).role ≠ .candidate) :
      Step numBrokers peers s (.campaigned i) (s.electSelf i tp)
  | read {i : UInt32} {tp : Bytes × UInt16} (hraised : (s.members i).campaigns tp = .raised) :
      Step numBrokers peers s (.read i)
        (s.setCampaign i tp (.read (s.partitionMeta i tp.1 tp.2).epoch))
  | announce {i epoch : UInt32} {tp : Bytes × UInt16} {c : UInt64}
      (hread : (s.members i).campaigns tp = .read epoch)
      (hc : (s.members i).committed tp = some c) :
      Step numBrokers peers s (.announced i)
        { s.setCampaign i tp .idle with
          sent := s.sent ++ announcements (peers i) i tp epoch c }
  /-- What was sent stays, and may be delivered again, or never. -/
  | deliver {m : Message} (hm : m ∈ s.sent) : Step numBrokers peers s (.delivered m) (s.handle m)
  /-- Metadata are looked up, and created if missing. -/
  | look (i : UInt32) (topic : Bytes) (partition : UInt16) :
      Step numBrokers peers s (.looked i)
        (s.setMetaReg i ((s.members i).metaReg.get topic partition))
  /-- The partitions of a broker move on. -/
  | commit (i : UInt32) (committed : Bytes × UInt16 → Option UInt64) :
      Step numBrokers peers s (.committed i) (s.set i { s.members i with committed })

variable {s} {s' s₀ : Cluster} {numBrokers : UInt32} {peers : UInt32 → List UInt32} {e : Event}
  {es : List Event} {i j : UInt32} {topic : Bytes} {partition : UInt16}

/-! ## The role of leader -/

theorem partitionMeta_set (m : Member) (j : UInt32) : (s.set i m).partitionMeta j topic partition =
    if j = i then m.metaReg.find topic partition else s.partitionMeta j topic partition := by
  simp only [partitionMeta, set, Function.update_apply]
  split_ifs <;> rfl

/-- A broker leads no partition it has not led before. -/
theorem Leads.of_set {m : Member} (h : (s.set i m).Leads j topic partition)
    (hm : (m.metaReg.find topic partition).role = .leader → s.Leads i topic partition) :
    s.Leads j topic partition := by
  rw [Leads, partitionMeta_set] at h
  split_ifs at h with hji
  · exact hji ▸ hm h
  · exact h

/-- A partition is led by the broker to whom it is seeded. -/
theorem seed_role {m : PartitionMeta} (h : (seed i numBrokers partition m).role = .leader) :
    i = partition.toUInt32 % numBrokers := by
  by_contra hne
  rw [seed] at h
  dsimp only at h
  rw [if_neg (Ne.symm hne)] at h
  exact PartitionRole.noConfusion h

/-- No broker makes itself the leader by a candidacy. -/
theorem role_electSelf (m : PartitionMeta) : m.electSelf.role ≠ .leader :=
  fun h => PartitionRole.noConfusion h

/-- Nor is it made the leader by the election of another. -/
theorem role_handleLeaderElection {m : PartitionMeta} {committed : Option UInt64}
    {le : LeaderElection} (hne : i ≠ le.newLeaderId)
    (h : (m.handleLeaderElection i committed le).role = .leader) : m.role = .leader := by
  rw [PartitionMeta.handleLeaderElection] at h
  split_ifs at h with hacc hid
  · exact absurd hid.symm hne
  · exact h

/-- Leaders are where they were seeded, and candidates are not told of their election. -/
structure Placed (numBrokers : UInt32) (s : Cluster) : Prop where
  leads : ∀ {i topic partition}, s.Leads i topic partition →
    i = UInt16.toUInt32 partition % numBrokers
  sent : ∀ m ∈ s.sent, m.receiver ≠ m.election.newLeaderId

theorem mem_announcements {l : List UInt32} {tp : Bytes × UInt16} {epoch : UInt32} {c : UInt64}
    {m : Message} (hm : m ∈ announcements l i tp epoch c) :
    m.receiver ≠ m.election.newLeaderId := by
  obtain ⟨j, hj, rfl⟩ := List.mem_map.1 hm
  exact of_decide_eq_true (List.mem_filter.1 hj).2

/-- If the metadata of a partition are changed, so may be who leads it. -/
theorem role_modify {reg : PartitionMetaRegistry} {t : Bytes} {p : UInt16}
    {f : PartitionMeta → PartitionMeta}
    (hf : (f (reg.find t p)).role = .leader → (reg.find t p).role = .leader)
    (h : ((reg.modify t p f).find topic partition).role = .leader) :
    (reg.find topic partition).role = .leader := by
  rw [find_modify] at h
  split_ifs at h with htp
  · obtain ⟨rfl, rfl⟩ := htp
    exact hf h
  · exact h

theorem Step.placed (hst : Step numBrokers peers s e s') (h : Placed numBrokers s) :
    Placed numBrokers s' := by
  cases hst with
  | start i committed =>
    -- Metadata that are made when they are asked for are those of a follower.
    refine ⟨fun hl => h.leads (hl.of_set fun hrole => ?_), h.sent⟩
    exact PartitionRole.noConfusion hrole
  | assign i topics partitionCounts =>
    refine ⟨fun {j topic partition} hl => ?_, h.sent⟩
    rw [Leads, setMetaReg, partitionMeta_set] at hl
    split_ifs at hl with hji
    · subst hji
      -- Where roles are assigned, the leader is the broker that the index leads to.
      by_cases hnum : numBrokers = 0
      · rw [assignRoles, if_pos hnum] at hl
        exact h.leads hl
      · rw [find_assignRoles _ hnum] at hl
        split_ifs at hl
        · exact seed_role hl
        · exact h.leads hl
    · exact h.leads hl
  | campaign hc hidle hrole =>
    refine ⟨fun hl => h.leads (hl.of_set (role_modify fun hlead => ?_)), h.sent⟩
    exact absurd hlead (role_electSelf _)
  | read hraised => exact ⟨fun hl => h.leads (hl.of_set id), h.sent⟩
  | announce hread hc =>
    refine ⟨fun hl => h.leads (Leads.of_set hl id), fun m hm => ?_⟩
    exact (List.mem_append.1 hm).elim (h.sent m) mem_announcements
  | deliver hm =>
    -- The message names its sender, who has not sent it to themselves.
    refine ⟨fun hl => h.leads (hl.of_set (role_modify ?_)), h.sent⟩
    exact role_handleLeaderElection (h.sent _ hm)
  | look i topic partition =>
    refine ⟨fun hl => h.leads (hl.of_set fun hrole => ?_), h.sent⟩
    rwa [find_get] at hrole
  | commit i committed => exact ⟨fun hl => h.leads (hl.of_set id), h.sent⟩

/-- No broker has been started. -/
def down : Cluster := ⟨fun _ => ⟨∅, fun _ => none, fun _ => .idle⟩, []⟩

theorem Run.placed (hr : Run (Step numBrokers peers) down es s) : Placed numBrokers s := by
  refine hr.invariant (I := fun _ s => Placed numBrokers s) ?_ fun _ ih hst => hst.placed ih
  exact ⟨fun hl => PartitionRole.noConfusion hl, fun _ hm => absurd hm List.not_mem_nil⟩

/-- Whatever the brokers do, and whatever becomes of their messages: no two of them lead a
    partition. -/
theorem eq_of_leads (hr : Run (Step numBrokers peers) down es s)
    (hi : s.Leads i topic partition) (hj : s.Leads j topic partition) : i = j :=
  have h := Run.placed hr
  (h.leads hi).trans (h.leads hj).symm

/-- A broker campaigns for a partition, and its message is delivered to a peer. -/
theorem exists_run_campaign {tp : Bytes × UInt16} {c : UInt64}
    (hc : (s.members i).committed tp = some c) (hidle : (s.members i).campaigns tp = .idle)
    (hrole : (s.partitionMeta i tp.1 tp.2).role ≠ .candidate) (hj : j ∈ peers i) (hne : j ≠ i) :
    ∃ m s', m.receiver = j ∧ m.election.newLeaderId = i ∧ Run (Step numBrokers peers) s
      [.campaigned i, .read i, .announced i, .delivered m] s' := by
  let epoch := ((s.electSelf i tp).partitionMeta i tp.1 tp.2).epoch
  have hraised : ((s.electSelf i tp).members i).campaigns tp = .raised := by simp [electSelf, set]
  have hread : (((s.electSelf i tp).setCampaign i tp (.read epoch)).members i).campaigns tp =
      .read epoch := by simp [setCampaign, set]
  have hcommitted : (((s.electSelf i tp).setCampaign i tp (.read epoch)).members i).committed tp =
      some c := by simpa [setCampaign, electSelf, set] using hc
  have hm : ⟨j, .ofName tp.1, tp.2, ⟨i, epoch, c⟩⟩ ∈ announcements (peers i) i tp epoch c :=
    List.mem_map_of_mem (List.mem_filter.2 ⟨hj, decide_eq_true hne⟩)
  have hr : Run (Step numBrokers peers) s _ _ := .cons (.campaign (by rw [hc]; rfl) hidle hrole) <|
    .cons (.read hraised) <| .cons (.announce hread hcommitted) <|
      .single (.deliver (List.mem_append_right _ hm))
  exact ⟨_, _, rfl, rfl, hr⟩

/-! ## Two brokers -/

/-- A broker is started and seeds the partition of a topic. -/
def seeded (s : Cluster) (i : UInt32) : Cluster :=
  let started := s.set i ⟨∅, fun _ => some 0, fun _ => .idle⟩
  started.setMetaReg i ((started.members i).metaReg.assignRoles i 2 [[97]] [1])

theorem run_seeded (peers : UInt32 → List UInt32) (s : Cluster) (i : UInt32) :
    Run (Step 2 peers) s [.started i, .assigned i] (s.seeded i) :=
  .cons (.start i _) (.single (.assign i [[97]] [1]))

theorem members_seeded (s : Cluster) (i : UInt32) : (s.seeded i).members i =
    ⟨assignRoles ∅ i 2 [[97]] [1], fun _ => some 0, fun _ => .idle⟩ := by
  simp [seeded, setMetaReg, set]

/-- The partition is seeded to the broker `0`. -/
theorem role_seeded (s : Cluster) (i : UInt32) :
    ((s.seeded i).partitionMeta i [97] 0).role = if i = 0 then .leader else .follower := by
  have hmem : (([97], 0) : Bytes × UInt16) ∈ assigned [[97]] [1] := by decide
  rw [seeded, setMetaReg, partitionMeta_set, if_pos rfl, find_assignRoles _ (by decide),
    if_pos hmem]
  simp [seed, eq_comm]

/-- Broker `1` campaigns and broker `0` is told so. Broker `0` leads once it is started again. -/
theorem eq_of_leads_campaigned : ∃ es s m, Run (Step 2 fun _ => [0, 1]) down es s ∧
    .campaigned 1 ∈ es ∧ .delivered m ∈ es ∧ m.receiver = 0 ∧ m.election.newLeaderId = 1 ∧
    s.Leads 0 [97] 0 ∧ ∀ j, s.Leads j [97] 0 → 0 = j := by
  have hseeded := (run_seeded (fun _ => [0, 1]) down 0).append (run_seeded _ _ 1)
  obtain ⟨m, s, hreceiver, hleader, hcampaign⟩ : ∃ m s', m.receiver = 0 ∧
      m.election.newLeaderId = 1 ∧ Run (Step 2 fun _ => [0, 1]) ((down.seeded 0).seeded 1)
        [.campaigned 1, .read 1, .announced 1, .delivered m] s' :=
    @exists_run_campaign _ _ _ _ _ ([97], 0) 0 (by rw [members_seeded]) (by rw [members_seeded])
      (by rw [role_seeded]; decide) (by simp) (by decide)
  have hr := (hseeded.append hcampaign).append (run_seeded _ s 0)
  have hleads : (s.seeded 0).Leads 0 [97] 0 := role_seeded s 0
  exact ⟨_, _, m, hr, by simp, by simp, hreceiver, hleader, hleads, fun j hj =>
    eq_of_leads hr hleads hj⟩

end Cluster

end Fell.Replication
