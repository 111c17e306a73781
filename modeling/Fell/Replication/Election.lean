import Fell.Lib.Transition
import Fell.Replication.PartitionMeta
import Mathlib.Logic.Function.Basic

/-!
# Leader election

When a follower cannot reach the leader of a partition, it makes itself a candidate
and tells the other brokers (`ReplicationClient::maybe_elect_self`), who take it for
the leader if its epoch is newer than theirs and it is not behind them
(`ReplicationServer::handle_leader_election`). The candidate takes the new epoch at
once, but neither records itself as the leader nor is told by anyone that it is.

The brokers run side by side, and a candidate does its work in three steps, since it reads its
epoch again, without the lock, after it has raised it. Messages are lost or
delivered late, out of order or twice: what was sent can be delivered at any later
time.

* `agree_of_keepsLeader`: brokers of the same epoch agree on the leader as long as all
  elections that are accepted name the leader already recorded;
* `Run.keepsLeader`: and no longer. If all states of a run agree, it is such a run;
* `knows_iff`: a broker that was elected never learns of it. Of the elections
  accepted, one of the latest epoch names a broker that is still a candidate in
  this epoch (`Run.candidate_of_accepted`).
-/

namespace Fell.Replication

/-- `LeaderElection`, the message. -/
structure LeaderElection where
  newLeaderId : UInt32
  epoch : UInt32
  committedOffset : UInt64
  deriving DecidableEq

namespace PartitionMeta

variable (m : PartitionMeta)

/-- The locked part of `maybe_elect_self`, for one who is not a candidate yet. -/
def electSelf : PartitionMeta := { m with role := .candidate, epoch := m.epoch + 1 }

/-- The checks of `handle_leader_election`. The committed offset is that of the
    receiver, if it has the partition. -/
def Accepts (committed : Option UInt64) (le : LeaderElection) : Prop :=
  m.epoch < le.epoch ∧ ∀ c ∈ committed, c ≤ le.committedOffset

instance (committed : Option UInt64) (le : LeaderElection) : Decidable (m.Accepts committed le) :=
  letI : Decidable (∀ c ∈ committed, c ≤ le.committedOffset) := Option.decidableForallMem committed
  inferInstanceAs (Decidable (_ ∧ _))

/-- `handle_leader_election`. -/
def handleLeaderElection (brokerId : UInt32) (committed : Option UInt64) (le : LeaderElection) :
    PartitionMeta :=
  if m.Accepts committed le then
    { m with
      epoch := le.epoch
      leaderId := le.newLeaderId
      role := if le.newLeaderId = brokerId then .leader else .follower }
  else m

end PartitionMeta

namespace Election

/-- Where the thread of the replication client is in `maybe_elect_self`. -/
inductive Campaign
  | idle
  /-- The epoch is raised, and the lock is given up. -/
  | raised
  /-- The epoch is read again. -/
  | read (epoch : UInt32)
  deriving DecidableEq

/-- A broker, as far as the partition is concerned. -/
structure Node where
  partition : PartitionMeta
  /-- The committed offset of the partition, if the broker has it. -/
  committed : Option UInt64
  campaign : Campaign

/-- The brokers, by their id, and what has been sent, with the receivers. -/
structure Network where
  nodes : UInt32 → Node
  sent : List (UInt32 × LeaderElection)

/-- What a step did. -/
inductive Event
  | campaigned (i : UInt32)
  | read (i : UInt32)
  | announced (i : UInt32)
  | accepted (i : UInt32) (le : LeaderElection)
  | ignored (i : UInt32) (le : LeaderElection)
  | committed (i : UInt32)
  deriving DecidableEq

namespace Network

variable (s : Network)

/-- One broker moves. -/
def set (i : UInt32) (n : Node) : Network := { s with nodes := Function.update s.nodes i n }

/-- A broker makes itself a candidate. -/
abbrev campaign (i : UInt32) : Network :=
  s.set i { s.nodes i with partition := (s.nodes i).partition.electSelf, campaign := .raised }

/-- A candidate reads its epoch. -/
abbrev readEpoch (i : UInt32) : Network :=
  s.set i { s.nodes i with campaign := .read (s.nodes i).partition.epoch }

/-- The broadcast of `maybe_elect_self`: to all peers but the candidate itself. -/
def broadcast (peers : List UInt32) (i : UInt32) (le : LeaderElection) : Network :=
  { s with sent := s.sent ++ (peers.filter (· ≠ i)).map (·, le) }

/-- A candidate tells the others. -/
abbrev announce (peers : List UInt32) (i epoch : UInt32) (c : UInt64) : Network :=
  (s.set i { s.nodes i with campaign := .idle }).broadcast peers i ⟨i, epoch, c⟩

/-- A message is handled by its receiver. -/
abbrev deliver (i : UInt32) (le : LeaderElection) : Network :=
  s.set i
    { s.nodes i with
      partition := (s.nodes i).partition.handleLeaderElection i (s.nodes i).committed le }

end Network

variable {peers : List UInt32} {s s' s₀ : Network} {e : Event} {es : List Event} {i j : UInt32}
  {le : LeaderElection}

/-- The steps of a cluster with the given brokers. -/
inductive Step (peers : List UInt32) (s : Network) : Event → Network → Prop
  | campaign {i : UInt32} (hi : i ∈ peers) (hc : (s.nodes i).committed.isSome)
      (hidle : (s.nodes i).campaign = .idle) (hrole : (s.nodes i).partition.role ≠ .candidate) :
      Step peers s (.campaigned i) (s.campaign i)
  | read {i : UInt32} (hraised : (s.nodes i).campaign = .raised) :
      Step peers s (.read i) (s.readEpoch i)
  | announce {i epoch : UInt32} {c : UInt64} (hread : (s.nodes i).campaign = .read epoch)
      (hc : (s.nodes i).committed = some c) :
      Step peers s (.announced i) (s.announce peers i epoch c)
  | accept {i : UInt32} {le : LeaderElection} (hmem : (i, le) ∈ s.sent)
      (hacc : (s.nodes i).partition.Accepts (s.nodes i).committed le) :
      Step peers s (.accepted i le) (s.deliver i le)
  | ignore {i : UInt32} {le : LeaderElection} (hmem : (i, le) ∈ s.sent)
      (hacc : ¬(s.nodes i).partition.Accepts (s.nodes i).committed le) :
      Step peers s (.ignored i le) (s.deliver i le)
  /-- The partition store of a broker moves on. -/
  | commit {i : UInt32} (c : UInt64) :
      Step peers s (.committed i) (s.set i { s.nodes i with committed := some c })

/-- The broker that moved. -/
def Event.broker : Event → UInt32
  | campaigned i | read i | announced i | accepted i _ | ignored i _ | committed i => i

/-- The election accepted in a step, if any. -/
def Event.election : Event → List LeaderElection
  | accepted _ le => [le]
  | _ => []

/-- The elections that brokers have accepted, the oldest first. -/
def accepted (es : List Event) : List LeaderElection := es.flatMap Event.election

@[simp] theorem accepted_snoc (es : List Event) (e : Event) :
    accepted (es ++ [e]) = accepted es ++ e.election := by
  simp [accepted]

@[simp] theorem set_nodes_self (n : Node) : (s.set i n).nodes i = n := Function.update_self ..

theorem set_nodes_ne (h : j ≠ i) (n : Node) : (s.set i n).nodes j = s.nodes j :=
  Function.update_of_ne h ..

@[simp] theorem broadcast_nodes : (s.broadcast peers i le).nodes = s.nodes := rfl

@[simp] theorem mem_broadcast_sent {x : UInt32 × LeaderElection} :
    x ∈ (s.broadcast peers i le).sent ↔ x ∈ s.sent ∨ (x.1 ∈ peers ∧ x.1 ≠ i) ∧ x.2 = le := by
  obtain ⟨j, le'⟩ := x
  simp only [Network.broadcast, List.mem_append, List.mem_map, List.mem_filter, Prod.mk.injEq,
    decide_eq_true_eq]
  refine or_congr_right ⟨?_, fun ⟨hj, heq⟩ => ⟨j, hj, rfl, heq.symm⟩⟩
  rintro ⟨_, hj, rfl, rfl⟩
  exact ⟨hj, rfl⟩

/-- A broker moves alone. -/
theorem Step.nodes_ne (h : Step peers s e s') (hj : j ≠ e.broker) : s'.nodes j = s.nodes j := by
  cases h with
  | campaign | read | accept | ignore | commit => exact set_nodes_ne hj _
  | announce => exact set_nodes_ne hj _

/-- What accepting an election does. -/
theorem Step.of_accepted (h : Step peers s (.accepted i le) s') :
    (i, le) ∈ s.sent ∧ (s.nodes i).partition.epoch < le.epoch ∧
      (s'.nodes i).partition =
        { (s.nodes i).partition with
          epoch := le.epoch
          leaderId := le.newLeaderId
          role := if le.newLeaderId = i then .leader else .follower } := by
  cases h with
  | accept hmem hacc =>
    refine ⟨hmem, hacc.1, ?_⟩
    rw [set_nodes_self, PartitionMeta.handleLeaderElection, if_pos hacc]

/-- What a broker knows of the partition changes only when it becomes a candidate or
    accepts an election. -/
theorem Step.partition_cases (h : Step peers s e s') (j : UInt32) :
    (s'.nodes j).partition = (s.nodes j).partition ∨
      (e = .campaigned j ∧ (s.nodes j).partition.role ≠ .candidate ∧
        (s'.nodes j).partition = (s.nodes j).partition.electSelf) ∨
      ∃ le, e = .accepted j le := by
  by_cases hj : j = e.broker
  · cases h with
    | campaign hi hc hidle hrole =>
      obtain rfl : j = _ := hj
      exact .inr (.inl ⟨rfl, hrole, by simp⟩)
    | read hraised => obtain rfl : j = _ := hj; exact .inl (by simp)
    | announce hread hc => obtain rfl : j = _ := hj; exact .inl (by simp)
    | accept hmem hacc =>
      obtain rfl : j = _ := hj
      exact .inr (.inr ⟨_, rfl⟩)
    | ignore hmem hacc =>
      obtain rfl : j = _ := hj
      refine .inl ?_
      rw [set_nodes_self, PartitionMeta.handleLeaderElection, if_neg hacc]
    | commit c => obtain rfl : j = _ := hj; exact .inl (by simp)
  · rw [h.nodes_ne hj]
    exact .inl rfl

/-! ## The candidate of the newest epoch -/

/-- The broker is a candidate in the epoch. -/
def Node.IsCandidate (n : Node) (epoch : UInt32) : Prop :=
  n.partition.epoch = epoch ∧ n.partition.role = .candidate

/-- No election of this epoch or a newer one has been accepted. -/
def Unaccepted (es : List Event) (epoch : UInt32) : Prop := ∀ le ∈ accepted es, le.epoch < epoch

theorem Unaccepted.of_snoc {epoch : UInt32} (h : Unaccepted (es ++ [e]) epoch) :
    Unaccepted es epoch :=
  fun le hle => h le (by simp [hle])

/-- What was just accepted is accepted. -/
theorem not_unaccepted_snoc : ¬Unaccepted (es ++ [.accepted i le]) le.epoch :=
  fun h => UInt32.lt_irrefl _ (h le (by simp [Event.election]))

/-- A candidate stays one until it accepts an election of a newer epoch. -/
theorem Step.isCandidate {epoch : UInt32} (h : Step peers s e s')
    (hc : (s.nodes i).IsCandidate epoch) :
    (s'.nodes i).IsCandidate epoch ∨ ∃ le, e = .accepted i le ∧ epoch < le.epoch := by
  rcases h.partition_cases i with heq | ⟨_, hrole, _⟩ | ⟨le, rfl⟩
  · exact .inl (by rwa [Node.IsCandidate, heq])
  · exact absurd hc.2 hrole
  · exact .inr ⟨le, rfl, hc.1 ▸ h.of_accepted.2.1⟩

theorem Step.isCandidate_of_unaccepted {epoch : UInt32} (h : Step peers s e s')
    (hc : (s.nodes i).IsCandidate epoch) (hun : Unaccepted (es ++ [e]) epoch) :
    (s'.nodes i).IsCandidate epoch := by
  rcases h.isCandidate hc with hc' | ⟨le, rfl, hlt⟩
  · exact hc'
  · exact absurd (hun le (by simp [Event.election])) (UInt32.lt_asymm hlt)

/-- A broker that has raised its epoch and is about to tell the others is a candidate in
    that epoch, unless elections as new have been accepted. -/
structure Node.Campaigning (es : List Event) (n : Node) : Prop where
  raised : n.campaign = .raised → Unaccepted es n.partition.epoch → n.partition.role = .candidate
  read : ∀ epoch, n.campaign = .read epoch → Unaccepted es epoch → n.IsCandidate epoch

theorem Node.Campaigning.snoc {n : Node} (h : n.Campaigning es) (e : Event) :
    n.Campaigning (es ++ [e]) where
  raised hn hun := h.raised hn hun.of_snoc
  read epoch hn hun := h.read epoch hn hun.of_snoc

/-- So is a broker that has told the others. -/
structure Campaigning (es : List Event) (s : Network) : Prop where
  nodes : ∀ i, (s.nodes i).Campaigning es
  sent : ∀ j le, (j, le) ∈ s.sent → Unaccepted es le.epoch →
    (s.nodes le.newLeaderId).IsCandidate le.epoch

theorem Step.nodeCampaigning (h : Step peers s e s') (hn : (s.nodes j).Campaigning es) :
    (s'.nodes j).Campaigning (es ++ [e]) := by
  by_cases hj : j = e.broker
  · -- The broker that moves. The others stay as they are.
    have hst := h
    cases h with
    | campaign hi hc hidle hrole =>
      obtain rfl : j = _ := hj
      rw [set_nodes_self]
      exact ⟨fun _ _ => rfl, fun _ hr => absurd hr (by simp)⟩
    | read hraised =>
      obtain rfl : j = _ := hj
      rw [set_nodes_self]
      refine ⟨fun hr => absurd hr (by simp), fun epoch hr hun => ?_⟩
      obtain rfl : _ = epoch := by simpa using hr
      exact ⟨rfl, hn.raised hraised hun.of_snoc⟩
    | announce hread hc =>
      obtain rfl : j = _ := hj
      rw [broadcast_nodes, set_nodes_self]
      exact ⟨fun hr => absurd hr (by simp), fun _ hr => absurd hr (by simp)⟩
    | accept hmem hacc =>
      obtain rfl : j = _ := hj
      refine ⟨fun _ hun => ?_, fun epoch hr hun => ?_⟩
      · -- The broker is in the epoch of the election it has just accepted.
        rw [set_nodes_self, PartitionMeta.handleLeaderElection, if_pos hacc] at hun
        exact absurd hun not_unaccepted_snoc
      · rw [set_nodes_self] at hr
        exact hst.isCandidate_of_unaccepted (hn.read epoch hr hun.of_snoc) hun
    | ignore hmem hacc =>
      obtain rfl : j = _ := hj
      rw [set_nodes_self, PartitionMeta.handleLeaderElection, if_neg hacc]
      exact ⟨(hn.snoc _).raised, (hn.snoc _).read⟩
    | commit c =>
      obtain rfl : j = _ := hj
      rw [set_nodes_self]
      exact ⟨(hn.snoc _).raised, (hn.snoc _).read⟩
  · rw [h.nodes_ne hj]
    exact hn.snoc e

theorem Step.campaigning (h : Step peers s e s') (hc : Campaigning es s) :
    Campaigning (es ++ [e]) s' := by
  have old : ∀ j le, (j, le) ∈ s.sent → Unaccepted (es ++ [e]) le.epoch →
      (s'.nodes le.newLeaderId).IsCandidate le.epoch := fun j le hle hun =>
    h.isCandidate_of_unaccepted (hc.sent j le hle hun.of_snoc) hun
  refine ⟨fun j => h.nodeCampaigning (hc.nodes j), ?_⟩
  cases h with
  | campaign | read | accept | ignore | commit => exact old
  | announce hread hcommitted =>
    intro j le hle hun
    rcases mem_broadcast_sent.1 hle with hle | ⟨_, rfl⟩
    · exact old j le hle hun
    · rw [broadcast_nodes, set_nodes_self]
      exact (hc.nodes _).read _ hread hun.of_snoc

/-- Of the elections accepted, one of the newest epoch names a broker that is still a
    candidate in this epoch. -/
def NewestIsCandidate (es : List Event) (s : Network) : Prop :=
  accepted es ≠ [] → ∃ le ∈ accepted es, (∀ le' ∈ accepted es, le'.epoch ≤ le.epoch) ∧
    (s.nodes le.newLeaderId).IsCandidate le.epoch

theorem Step.of_mem_election (h : Step peers s e s') (hle : le ∈ e.election) :
    ∃ i, e = .accepted i le ∧ (i, le) ∈ s.sent := by
  cases h with
  | campaign | read | announce | ignore | commit => exact absurd hle List.not_mem_nil
  | accept hmem hacc =>
    obtain rfl := List.mem_singleton.1 hle
    exact ⟨_, rfl, hmem⟩

theorem Step.newestIsCandidate (h : Step peers s e s') (hc : Campaigning es s)
    (hn : NewestIsCandidate es s) : NewestIsCandidate (es ++ [e]) s' := by
  intro hne
  by_cases hnew : ∃ le ∈ e.election, Unaccepted es le.epoch
  · -- The election accepted is the newest, and its sender has stayed a candidate.
    obtain ⟨le, hle, hun⟩ := hnew
    obtain ⟨i, rfl, hmem⟩ := h.of_mem_election hle
    refine ⟨le, by simp [Event.election], fun le' hle' => ?_, ?_⟩
    · simp only [accepted_snoc, Event.election, List.mem_append, List.mem_singleton] at hle'
      rcases hle' with hle' | rfl
      · exact UInt32.le_of_lt (hun le' hle')
      · exact UInt32.le_refl _
    · rcases h.isCandidate (hc.sent i le hmem hun) with hcand | ⟨le', heq, hlt⟩
      · exact hcand
      · obtain ⟨_, rfl⟩ := Event.accepted.inj heq
        exact absurd hlt (UInt32.lt_irrefl _)
  · -- The one that was the newest still is.
    have hne' : accepted es ≠ [] := by
      intro hnil
      obtain ⟨le, hle⟩ := List.exists_mem_of_ne_nil _ hne
      rw [accepted_snoc, hnil, List.nil_append] at hle
      exact hnew ⟨le, hle, fun le' hle' => absurd hle' (by simp [hnil])⟩
    obtain ⟨le, hle, hmax, hcand⟩ := hn hne'
    have hmax' : ∀ le' ∈ accepted (es ++ [e]), le'.epoch ≤ le.epoch := by
      intro le' hle'
      rcases List.mem_append.1 (accepted_snoc es e ▸ hle') with hle' | hle'
      · exact hmax le' hle'
      · have hold : ∃ b ∈ accepted es, le'.epoch ≤ b.epoch := by
          simpa [Unaccepted] using fun hun => hnew ⟨le', hle', hun⟩
        obtain ⟨b, hb, hb'⟩ := hold
        exact UInt32.le_trans hb' (hmax b hb)
    refine ⟨le, by simp [hle], hmax', ?_⟩
    rcases h.isCandidate hcand with hcand' | ⟨le', rfl, hlt⟩
    · exact hcand'
    · exact absurd (hmax' le' (by simp [Event.election])) (UInt32.not_le.2 hlt)

/-- No broker is in the middle of a candidacy, and nothing is on its way. -/
structure Quiet (s : Network) : Prop where
  idle : ∀ i, (s.nodes i).campaign = .idle
  sent : s.sent = []

theorem Quiet.campaigning (h : Quiet s) : Campaigning [] s where
  nodes i := ⟨fun hr => by simp [h.idle] at hr, fun _ hr => by simp [h.idle] at hr⟩
  sent j le hle := by simp [h.sent] at hle

theorem Run.campaigning (hr : Run (Step peers) s₀ es s) (hq : Quiet s₀) : Campaigning es s :=
  hr.invariant hq.campaigning fun _ hc h => h.campaigning hc

theorem Run.newestIsCandidate (hr : Run (Step peers) s₀ es s) (hq : Quiet s₀) :
    NewestIsCandidate es s :=
  hr.invariant (I := NewestIsCandidate) (fun h => absurd rfl h) fun hr hn h =>
    h.newestIsCandidate (Run.campaigning hr hq) hn

/-- Two brokers, of which the first leads, with empty partitions. -/
def pair : Network where
  nodes i := ⟨{ topic := [], role := if 0 = i then .leader else .follower }, some 0, .idle⟩
  sent := []

/-- One of two brokers becomes a candidate, and the other accepts its election. -/
def pairElected (i j : UInt32) : Network :=
  (((pair.campaign i).readEpoch i).announce [0, 1] i 1 0).deliver j ⟨i, 1, 0⟩

def electEvents (i j : UInt32) : List Event :=
  [.campaigned i, .read i, .announced i, .accepted j ⟨i, 1, 0⟩]

theorem quiet_pair : Quiet pair := ⟨fun _ => rfl, rfl⟩

/-- The second broker is elected. -/
theorem run_pairElected_one : Run (Step [0, 1]) pair (electEvents 1 0) (pairElected 1 0) :=
  (((Run.nil.snoc (.campaign (by decide) rfl rfl (by decide))).snoc (.read rfl)).snoc
    (.announce rfl rfl)).snoc (.accept (by decide) (by decide))

/-! ## Knowing that one is the leader -/

/-- The broker knows that it leads since the epoch, or is in a newer epoch by now. -/
def Knows (s : Network) (i epoch : UInt32) : Prop :=
  let m := (s.nodes i).partition
  epoch < m.epoch ∨ m.epoch = epoch ∧ m.leaderId = i ∧ m.role = .leader

instance (s : Network) (i epoch : UInt32) : Decidable (Knows s i epoch) :=
  inferInstanceAs (Decidable (_ ∨ _))

theorem Node.IsCandidate.not_knows {epoch : UInt32} (h : (s.nodes i).IsCandidate epoch) :
    ¬Knows s i epoch := by
  rintro (hlt | ⟨_, _, hrole⟩)
  · exact UInt32.lt_irrefl _ (h.1 ▸ hlt)
  · exact absurd (h.2.symm.trans hrole) (by decide)

/-- The brokers that were elected know of it as long as none was. -/
theorem knows_iff (hr : Run (Step peers) s₀ es s) (hq : Quiet s₀) :
    (∀ le ∈ accepted es, Knows s le.newLeaderId le.epoch) ↔ accepted es = [] := by
  constructor
  · intro hknows
    by_contra hne
    obtain ⟨le, hle, _, hcand⟩ := Run.newestIsCandidate hr hq hne
    exact hcand.not_knows (hknows le hle)
  · intro hnil le hle
    simp [hnil] at hle

theorem knows_iff_pairElected :
    (∀ le ∈ accepted (electEvents 1 0), Knows (pairElected 1 0) le.newLeaderId le.epoch) ↔
      accepted (electEvents 1 0) = [] :=
  knows_iff run_pairElected_one quiet_pair

/-- A broker that is elected stays a candidate, with the old leader on record. -/
theorem not_forall_knows : ¬∀ (peers : List UInt32) (s₀ s : Network) (es : List Event),
    Quiet s₀ → Run (Step peers) s₀ es s →
      ∀ le ∈ accepted es, Knows s le.newLeaderId le.epoch := by
  intro h
  have hknows := h _ _ _ _ quiet_pair run_pairElected_one ⟨1, 1, 0⟩ (by decide)
  exact absurd hknows (by decide)

/-! ## Agreement -/

/-- Brokers in the same epoch record the same leader. -/
def Agree (peers : List UInt32) (s : Network) : Prop :=
  ∀ i ∈ peers, ∀ j ∈ peers, (s.nodes i).partition.epoch = (s.nodes j).partition.epoch →
    (s.nodes i).partition.leaderId = (s.nodes j).partition.leaderId

instance (peers : List UInt32) (s : Network) : Decidable (Agree peers s) :=
  letI (i : UInt32) : Decidable (∀ j ∈ peers,
      (s.nodes i).partition.epoch = (s.nodes j).partition.epoch →
        (s.nodes i).partition.leaderId = (s.nodes j).partition.leaderId) :=
    List.decidableBAll _ peers
  List.decidableBAll _ peers

/-- An election that is accepted names the leader that its receiver has recorded. -/
def KeepsLeader (s : Network) (e : Event) : Prop :=
  ∀ i le, e = .accepted i le → le.newLeaderId = (s.nodes i).partition.leaderId

/-- All brokers have recorded the leader. -/
def LedBy (peers : List UInt32) (leader : UInt32) (s : Network) : Prop :=
  ∀ i ∈ peers, (s.nodes i).partition.leaderId = leader

theorem Step.ledBy {leader : UInt32} (h : Step peers s e s') (hk : KeepsLeader s e)
    (hl : LedBy peers leader s) : LedBy peers leader s' := by
  intro j hj
  rcases h.partition_cases j with heq | ⟨_, _, heq⟩ | ⟨le, rfl⟩
  · rw [heq, hl j hj]
  · rw [heq, PartitionMeta.electSelf, hl j hj]
  · rw [h.of_accepted.2.2, hk j le rfl, hl j hj]

theorem Run.ledBy {leader : UInt32} (hr : Run (Guarded (Step peers) KeepsLeader) s₀ es s)
    (hl : LedBy peers leader s₀) : LedBy peers leader s :=
  hr.invariant (I := fun _ s => LedBy peers leader s) hl fun _ hl h => h.1.ledBy h.2 hl

theorem LedBy.agree {leader : UInt32} (h : LedBy peers leader s) : Agree peers s :=
  fun i hi j hj _ => (h i hi).trans (h j hj).symm

/-- The brokers have been assigned the leader and the epoch, and nothing has happened
    since. -/
structure Assigned (peers : List UInt32) (leader epoch : UInt32) (s : Network) : Prop extends
    Quiet s where
  leaderId : ∀ i ∈ peers, (s.nodes i).partition.leaderId = leader
  epoch : ∀ i ∈ peers, (s.nodes i).partition.epoch = epoch
  role : ∀ i ∈ peers, (s.nodes i).partition.role = if leader = i then .leader else .follower

/-- Brokers agree on the leader as long as all elections that are accepted name the
    leader already recorded. -/
theorem agree_of_keepsLeader {leader epoch : UInt32} (h : Assigned peers leader epoch s₀)
    (hr : Run (Guarded (Step peers) KeepsLeader) s₀ es s) : Agree peers s :=
  (Run.ledBy hr h.leaderId).agree

theorem assigned_pair : Assigned [0, 1] 0 0 pair where
  toQuiet := quiet_pair
  leaderId _ _ := rfl
  epoch _ _ := rfl
  role _ _ := rfl

/-- The leader itself is a candidate, and is elected. -/
theorem run_pairElected_zero :
    Run (Guarded (Step [0, 1]) KeepsLeader) pair (electEvents 0 1) (pairElected 0 1) :=
  (((Run.nil.snoc ⟨.campaign (by decide) rfl rfl (by decide), by simp [KeepsLeader]⟩).snoc
    ⟨.read rfl, by simp [KeepsLeader]⟩).snoc ⟨.announce rfl rfl, by simp [KeepsLeader]⟩).snoc
    ⟨.accept (by decide) (by decide), by rintro i le ⟨⟩; rfl⟩

theorem agree_pairElected : Agree [0, 1] (pairElected 0 1) :=
  agree_of_keepsLeader assigned_pair run_pairElected_zero

/-- The broker elected and the one that accepts its election are in one epoch, with
    different leaders. -/
theorem not_forall_agree : ¬∀ (peers : List UInt32) (leader epoch : UInt32) (s₀ s : Network)
    (es : List Event), Assigned peers leader epoch s₀ → Run (Step peers) s₀ es s →
      Agree peers s := by
  intro h
  exact absurd (h _ _ _ _ _ _ assigned_pair run_pairElected_one) (by decide)

/-- A broker of a cluster that keeps its leader gets two epochs further at most, and the
    leader one: it becomes a candidate, and no election can end its candidacy. -/
def bound (leader epoch i : UInt32) : ℕ := epoch.toNat + if i = leader then 1 else 2

/-- The epoch of the broker is between the one assigned and the bound, below it if
    it is not a candidate. -/
structure Node.Bounded (n : Node) (lower upper : ℕ) : Prop where
  le_epoch : lower ≤ n.partition.epoch.toNat
  epoch_le : n.partition.epoch.toNat ≤ upper
  epoch_lt : n.partition.role ≠ .candidate → n.partition.epoch.toNat < upper
  read_le : ∀ epoch, n.campaign = .read epoch → epoch.toNat ≤ upper

structure Bounded (peers : List UInt32) (leader epoch : UInt32) (s : Network) : Prop where
  mem : ∀ i, (s.nodes i).campaign ≠ .idle → i ∈ peers
  nodes : ∀ i ∈ peers, (s.nodes i).Bounded epoch.toNat (bound leader epoch i)
  sent : ∀ i le, (i, le) ∈ s.sent → i ∈ peers ∧ i ≠ le.newLeaderId ∧ le.newLeaderId ∈ peers ∧
    le.epoch.toNat ≤ bound leader epoch le.newLeaderId

section

variable {leader epoch : UInt32}

theorem Assigned.bounded (h : Assigned peers leader epoch s) : Bounded peers leader epoch s where
  mem i hi := absurd (h.idle i) hi
  nodes i hi := by
    have hlt : epoch.toNat < bound leader epoch i := by
      rw [bound]
      split <;> omega
    have he := h.epoch i hi
    exact ⟨by rw [he], by rw [he]; exact hlt.le, fun _ => by rw [he]; exact hlt,
      fun _ hr => by simp [h.idle] at hr⟩
  sent i le hle := by simp [h.sent] at hle

theorem Bounded.set (h : Bounded peers leader epoch s) {n : Node}
    (hmem : n.campaign ≠ .idle → i ∈ peers)
    (hn : i ∈ peers → n.Bounded epoch.toNat (bound leader epoch i)) :
    Bounded peers leader epoch (s.set i n) where
  mem j hj := by
    rcases eq_or_ne j i with rfl | hji
    · exact hmem (by simpa using hj)
    · exact h.mem j (by rwa [set_nodes_ne hji] at hj)
  nodes j hj := by
    rcases eq_or_ne j i with rfl | hji
    · rw [set_nodes_self]
      exact hn hj
    · rw [set_nodes_ne hji]
      exact h.nodes j hj
  sent := h.sent

theorem bound_lt (hroom : epoch.toNat + 2 < UInt32.size) (i : UInt32) :
    bound leader epoch i < UInt32.size := by
  rw [bound]
  split <;> omega

/-- A broker that is not a candidate has room for one more epoch. -/
theorem Node.Bounded.electSelf {n : Node} {lower upper : ℕ} (h : n.Bounded lower upper)
    (hrole : n.partition.role ≠ .candidate) (hupper : upper < UInt32.size) :
    Node.Bounded { n with partition := n.partition.electSelf, campaign := .raised }
      lower upper := by
  have hlt := h.epoch_lt hrole
  have hsucc : (n.partition.epoch + 1).toNat = n.partition.epoch.toNat + 1 := by
    rw [UInt32.toNat_add]
    exact Nat.mod_eq_of_lt (by simp only [UInt32.size] at *; simp; omega)
  refine ⟨?_, ?_, fun hne => absurd rfl hne, by simp⟩
  · exact hsucc ▸ h.le_epoch.trans (Nat.le_succ _)
  · exact hsucc ▸ hlt

theorem Node.Bounded.read {n : Node} {lower upper : ℕ} (h : n.Bounded lower upper) :
    Node.Bounded { n with campaign := .read n.partition.epoch } lower upper where
  le_epoch := h.le_epoch
  epoch_le := h.epoch_le
  epoch_lt := h.epoch_lt
  read_le epoch hr := by
    obtain rfl : _ = epoch := by simpa using hr
    exact h.epoch_le

theorem Node.Bounded.idle {n : Node} {lower upper : ℕ} (h : n.Bounded lower upper) :
    Node.Bounded { n with campaign := .idle } lower upper :=
  ⟨h.le_epoch, h.epoch_le, h.epoch_lt, by simp⟩

theorem Step.bounded (h : Step peers s e s') (hroom : epoch.toNat + 2 < UInt32.size)
    (hl : LedBy peers leader s) (hk : KeepsLeader s e) (hb : Bounded peers leader epoch s) :
    Bounded peers leader epoch s' := by
  cases h with
  | @campaign i hi hc hidle hrole =>
    exact hb.set (fun _ => hi) fun _ => (hb.nodes i hi).electSelf hrole (bound_lt hroom i)
  | @read i hraised =>
    exact hb.set (fun _ => hb.mem i (by simp [hraised])) fun hi => (hb.nodes i hi).read
  | @announce i ep c hread hc =>
    have hi := hb.mem i (by simp [hread])
    have hset : Bounded peers leader epoch (s.set i { s.nodes i with campaign := .idle }) :=
      hb.set (fun hne => absurd rfl hne) fun hi => (hb.nodes i hi).idle
    refine ⟨hset.mem, hset.nodes, fun j le hle => ?_⟩
    rcases mem_broadcast_sent.1 hle with hle | ⟨⟨hj, hji⟩, rfl⟩
    · exact hset.sent j le hle
    · exact ⟨hj, hji, hi, (hb.nodes i hi).read_le ep hread⟩
  | @accept i le hmem hacc =>
    obtain ⟨hi, hne, _, hle⟩ := hb.sent i le hmem
    have hleader : le.newLeaderId = leader := (hk i le rfl).trans (hl i hi)
    have hlt := UInt32.lt_iff_toNat_lt.1 hacc.1
    have hn := hb.nodes i hi
    -- The leader, which is one epoch behind its followers, is not told of its own election.
    have hupper : le.epoch.toNat < bound leader epoch i := by
      rw [bound, if_neg (hleader ▸ hne)]
      rw [hleader, bound, if_pos rfl] at hle
      omega
    rw [Network.deliver, PartitionMeta.handleLeaderElection, if_pos hacc]
    exact hb.set (hb.mem i) fun _ => ⟨hn.le_epoch.trans hlt.le, hupper.le, fun _ => hupper,
      hn.read_le⟩
  | @ignore i le hmem hacc =>
    rw [Network.deliver, PartitionMeta.handleLeaderElection, if_neg hacc]
    exact hb.set (hb.mem i) (hb.nodes i)
  | @commit i c =>
    exact hb.set (hb.mem i) fun hi => ⟨(hb.nodes i hi).le_epoch, (hb.nodes i hi).epoch_le,
      (hb.nodes i hi).epoch_lt, (hb.nodes i hi).read_le⟩

theorem Run.bounded (hroom : epoch.toNat + 2 < UInt32.size) (h : Assigned peers leader epoch s₀)
    (hr : Run (Guarded (Step peers) KeepsLeader) s₀ es s) : Bounded peers leader epoch s :=
  hr.invariant (I := fun _ s => Bounded peers leader epoch s) h.bounded fun hr hb hst =>
    hst.1.bounded hroom (Run.ledBy hr h.leaderId) hst.2 hb

theorem Run.accepted_eq (hroom : epoch.toNat + 2 < UInt32.size)
    (h : Assigned peers leader epoch s₀) (hr : Run (Guarded (Step peers) KeepsLeader) s₀ es s) :
    ∀ le ∈ accepted es, le.newLeaderId = leader ∧ leader ∈ peers := by
  refine hr.invariant
    (I := fun es _ => ∀ le ∈ accepted es, le.newLeaderId = leader ∧ leader ∈ peers)
    (by simp [accepted]) ?_
  intro es s e s' hr ih hst le hle
  rcases List.mem_append.1 (accepted_snoc es e ▸ hle) with hle | hle
  · exact ih le hle
  · obtain ⟨i, rfl, hmem⟩ := hst.1.of_mem_election hle
    obtain ⟨hi, _, hle', _⟩ := (Run.bounded hroom h hr).sent i le hmem
    have heq : le.newLeaderId = leader :=
      (hst.2 i le rfl).trans (Run.ledBy hr h.leaderId i hi)
    exact ⟨heq, heq ▸ hle'⟩

/-- Some broker is in the epoch of an election by the time it can be accepted: the one
    that it names, or, if elections as new have been accepted, the leader. -/
theorem Run.exists_in_epoch (hroom : epoch.toNat + 2 < UInt32.size)
    (h : Assigned peers leader epoch s₀) (hr : Run (Guarded (Step peers) KeepsLeader) s₀ es s)
    (hmem : (i, le) ∈ s.sent) (hlt : (s.nodes i).partition.epoch < le.epoch) :
    ∃ j ∈ peers, (s.nodes j).partition.epoch = le.epoch := by
  have hb := Run.bounded hroom h hr
  obtain ⟨hi, _, hle, _⟩ := hb.sent i le hmem
  by_cases hun : Unaccepted es le.epoch
  · exact ⟨_, hle, ((Run.campaigning hr.of_guarded h.toQuiet).sent i le hmem hun).1⟩
  · obtain ⟨b, hbmem, hbe⟩ : ∃ b ∈ accepted es, le.epoch ≤ b.epoch := by
      simpa [Unaccepted] using hun
    obtain ⟨top, htop, hmax, hcand⟩ := Run.newestIsCandidate hr.of_guarded h.toQuiet
      (List.ne_nil_of_mem hbmem)
    obtain ⟨hleader, hmemleader⟩ := Run.accepted_eq hroom h hr top htop
    -- The leader is at most one epoch above the assigned one, and the receiver not below that.
    have hupper := (hb.nodes leader hmemleader).epoch_le
    rw [bound, if_pos rfl] at hupper
    have hlower := (hb.nodes i hi).le_epoch
    have hge : le.epoch ≤ (s.nodes leader).partition.epoch := by
      rw [← hleader, hcand.1]
      exact UInt32.le_trans hbe (hmax b hbmem)
    rw [UInt32.lt_iff_toNat_lt] at hlt
    rw [UInt32.le_iff_toNat_le] at hge
    exact ⟨leader, hmemleader, UInt32.toNat_inj.1 (by omega)⟩

/-- If brokers agree in all states of a run, then all elections that were accepted in it
    named the leader already recorded. -/
theorem Run.keepsLeader (hroom : epoch.toNat + 2 < UInt32.size)
    (h : Assigned peers leader epoch s₀)
    (hr : Run (fun s e s' => Step peers s e s' ∧ Agree peers s') s₀ es s) :
    Run (Guarded (Step peers) KeepsLeader) s₀ es s := by
  induction hr with
  | nil => exact .nil
  | @snoc es s s' e _ hst ih =>
    refine ih.snoc ⟨hst.1, ?_⟩
    rintro i le rfl
    obtain ⟨hmem, hlt, hpart⟩ := hst.1.of_accepted
    have hl := Run.ledBy ih h.leaderId
    obtain ⟨hi, -⟩ := (Run.bounded hroom h ih).sent i le hmem
    -- The receiver agrees with one that is in the epoch already, with the old leader.
    obtain ⟨j, hj, hepoch⟩ := Run.exists_in_epoch hroom h ih hmem hlt
    have hji : j ≠ i := by
      rintro rfl
      exact UInt32.lt_irrefl _ (hepoch ▸ hlt)
    have hsame := hst.1.nodes_ne hji
    have hagree := hst.2 i hi j hj (by rw [hpart, hsame, hepoch])
    rw [hpart, hsame, hl j hj] at hagree
    exact hagree.trans (hl i hi).symm

end

end Election

end Fell.Replication
