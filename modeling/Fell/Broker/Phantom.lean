import Fell.Broker.Roles
import Fell.Replication.ReplicaManager

/-!
# Waiting for a broker that does not exist

A replica leaves the ISR in `PartitionMeta::tick_isr` only, and no function of the broker calls it:
`handle_heartbeat` does nothing, and no thread looks at the clock. So the replicas that
`assign_roles` records are in sync for good, and with `acks=all` an acknowledgement is held back
until all of them but one have confirmed the record. Elections change the leader of a partition and
its epoch, and leave the replicas.

`Roles` has it that one replica too many is recorded, of a broker that does not exist. The other
brokers of the cluster are then too few.

* `LiveStep`: what happens at a leader, as the broker is;
* `not_complete`: an entry that waits for more brokers than there are is not complete;
* `never_released`: in a cluster that is configured as documented, no acknowledgement is released.
-/

namespace Fell.Replication

open Platform Storage

/-- The replicas are these, and all are in sync. -/
structure PartitionMeta.AllInSync (m : PartitionMeta) (ids : List UInt32) : Prop where
  replicaIds_eq : m.replicaIds = ids
  inIsr : ∀ r ∈ m.replicas, r.inIsr = true

namespace PartitionMeta.AllInSync

variable {m : PartitionMeta} {ids : List UInt32}

theorem isrIds_eq (h : m.AllInSync ids) : m.isrIds = ids := by
  rw [isrIds, List.filter_eq_self.2 h.inIsr]
  exact h.replicaIds_eq

/-- A change to a replica that leaves it in sync. -/
theorem updateReplica (h : m.AllInSync ids) (id : UInt32) {f : ReplicaState → ReplicaState}
    (hid : ∀ r, (f r).brokerId = r.brokerId) (hisr : ∀ r, r.inIsr = true → (f r).inIsr = true) :
    (m.updateReplica id f).AllInSync ids := by
  obtain ⟨hids, hin⟩ := h
  rw [replicaIds] at hids
  suffices hlist : ∀ l : List ReplicaState, (∀ r ∈ l, r.inIsr = true) →
      (l.replaceF fun r => if r.brokerId = id then some (f r) else none).map (·.brokerId) =
        l.map (·.brokerId) ∧
      ∀ r ∈ l.replaceF fun r => if r.brokerId = id then some (f r) else none, r.inIsr = true by
    obtain ⟨hmap, hall⟩ := hlist m.replicas hin
    exact ⟨hmap.trans hids, hall⟩
  intro l hl
  induction l with
  | nil => exact ⟨rfl, hl⟩
  | cons r l ih =>
    obtain ⟨hr, hl⟩ := List.forall_mem_cons.1 hl
    obtain ⟨hmap, hall⟩ := ih hl
    by_cases heq : r.brokerId = id
    · simp only [List.replaceF, if_pos heq, List.map_cons, hid, true_and]
      exact List.forall_mem_cons.2 ⟨hisr r hr, hl⟩
    · simp only [List.replaceF, if_neg heq, List.map_cons, hmap, true_and]
      exact List.forall_mem_cons.2 ⟨hr, hall⟩

end PartitionMeta.AllInSync

namespace Leader

variable {maxLag : UInt64} {s s' s₀ : Leader} {e : Event} {es : List Event} {pa : PendingAck}
  {ids : List UInt32} {n i : ℕ}

/-! ## What happens at a leader -/

/-- A step of the threads that use a replica manager, or an election. -/
inductive LiveStep (maxLag : UInt64) (s : Leader) : Event → Leader → Prop
  | step {e : Event} {s' : Leader} (hst : Step maxLag s e s') (he : e ≠ .changed) :
      LiveStep maxLag s e s'
  /-- `maybe_elect_self`, or `handle_leader_election`. -/
  | elect (leaderId : UInt32) (role : PartitionRole) (epoch : UInt32) :
      LiveStep maxLag s .changed
        { s with partition := { s.partition with leaderId, role, epoch } }

theorem LiveStep.allInSync (hst : LiveStep maxLag s e s') (h : s.partition.AllInSync ids) :
    s'.partition.AllInSync ids := by
  cases hst with
  | elect => exact ⟨h.replicaIds_eq, h.inIsr⟩
  | step hst he =>
    cases hst with
    | register | enqueue | pop | process | post => exact h
    | finish =>
      rw [finishCommit]
      split
      · exact h
      · exact h.updateReplica _ (fun _ => rfl) fun _ hr => hr
    | ack followerId ackedOffset =>
      refine h.updateReplica _ (fun _ => rfl) fun r hr => ?_
      rw [ReplicaState.acked, hr]
      rfl
    | change => exact absurd rfl he

theorem LiveStep.tracked (hst : LiveStep maxLag s e s')
    (h : ∀ pa ∈ s.manager.pending, Tracked es pa) :
    ∀ pa ∈ s'.manager.pending, Tracked (es ++ [e]) pa := by
  cases hst with
  | elect => exact fun pa hpa => (h pa hpa).snoc _
  | step hst he => exact hst.tracked h

theorem LiveStep.registeredAt {P : PartitionMeta → Prop} (hst : LiveStep maxLag s e s')
    (h : ∀ pa ∈ s.manager.pending, P pa.registeredAt) (hnew : P s.partition) :
    ∀ pa ∈ s'.manager.pending, P pa.registeredAt := by
  cases hst with
  | elect => exact h
  | step hst he => exact hst.registeredAt h fun _ => hnew

/-! ## Too few brokers -/

/-- Acknowledgements come from the `n` brokers of the cluster other than `i`. -/
def FromPeers (n i : ℕ) (_ : Leader) : Event → Prop
  | .acked f _ _ => f.toNat < n ∧ f.toNat ≠ i
  | _ => True

/-- There are `n - 1` other brokers. -/
theorem card_of_fromPeers {ids : Finset UInt32} (hi : i < n)
    (h : ∀ f ∈ ids, f.toNat < n ∧ f.toNat ≠ i) : ids.card < n := by
  have hsub : ids.image UInt32.toNat ⊆ (Finset.range n).erase i := by
    intro k hk
    obtain ⟨f, hf, rfl⟩ := Finset.mem_image.1 hk
    exact Finset.mem_erase.2 ⟨(h f hf).2, Finset.mem_range.2 (h f hf).1⟩
  have hcard := Finset.card_le_card hsub
  rw [Finset.card_image_of_injective _ fun _ _ => UInt32.toNat_inj.1,
    Finset.card_erase_of_mem (Finset.mem_range.2 hi), Finset.card_range] at hcard
  omega

/-- An entry that waits for `n` brokers is not complete. -/
theorem not_complete (hi : i < n) (hn : n + 1 < 2 ^ 31) (ht : Tracked es pa)
    (hreg : pa.registeredAt.isrIds.length = n + 1)
    (hacks : ∀ x ∈ acks es, x.1.toNat < n ∧ x.1.toNat ≠ i) : ¬pa.Complete := by
  intro hc
  have hcard : pa.ackedFollowers.card < n := by
    refine card_of_fromPeers hi fun f hf => ?_
    obtain ⟨a, ha, -⟩ := ht.acked f hf
    exact hacks _ ha
  have hle := ht.length_isrIds_le hc (hreg ▸ hn)
  omega

end Leader

namespace PendingAck

variable {pa : PendingAck}

/-- What is kept of an entry that is not complete. -/
def kept (pa : PendingAck) : UInt64 × Response := (pa.offset, pa.response)

theorem tryRelease_of_not_complete_snd (h : ¬pa.tryRelease.2.Complete) :
    pa.tryRelease = ([], pa) := by
  refine tryRelease_of_not_complete fun hc => h ?_
  rw [tryRelease_snd]
  exact hc

theorem ack_of_not_complete {followerId : UInt32} {ackedOffset : UInt64}
    (h : ¬(pa.ack followerId ackedOffset).2.Complete) :
    (pa.ack followerId ackedOffset).1 = [] ∧ (pa.ack followerId ackedOffset).2.kept = pa.kept := by
  rw [ack] at h ⊢
  split_ifs at h ⊢
  · rw [tryRelease_of_not_complete_snd h]
    exact ⟨rfl, rfl⟩
  · exact ⟨rfl, rfl⟩

theorem commit_of_not_complete {qc : QueuedCommit} (h : ¬(pa.commit qc).2.Complete) :
    (pa.commit qc).1 = [] ∧ (pa.commit qc).2.kept = pa.kept := by
  rw [commit] at h ⊢
  split_ifs at h ⊢
  · rw [tryRelease_of_not_complete_snd h]
    exact ⟨rfl, rfl⟩
  · exact ⟨rfl, rfl⟩

end PendingAck

/-- A sweep that leaves no entry complete hands nothing out, and erases nothing. -/
theorem ReplicaManager.sweep_of_not_complete {rm : ReplicaManager}
    {f : PendingAck → List Response × PendingAck}
    (hc : ∀ pa ∈ rm.pending, ¬(f pa).2.Complete)
    (hf : ∀ pa ∈ rm.pending, (f pa).1 = [] ∧ (f pa).2.kept = pa.kept) :
    rm.released f = [] ∧ (rm.sweep f).2.pending.map PendingAck.kept =
      rm.pending.map PendingAck.kept := by
  constructor
  · refine List.filter_eq_nil_iff.2 fun pa hpa => ?_
    simpa using (hf pa hpa).1
  · have hall : ((rm.pending.map fun pa => (f pa).2).filter fun pa => ¬pa.Complete) =
        rm.pending.map fun pa => (f pa).2 := by
      refine List.filter_eq_self.2 fun pa hpa => ?_
      obtain ⟨pa', hpa', rfl⟩ := List.mem_map.1 hpa
      simpa using hc pa' hpa'
    rw [sweep, hall, List.map_map]
    exact List.map_congr_left fun pa hpa => (hf pa hpa).2

namespace Leader

variable {maxLag : UInt64} {s s' s₀ : Leader} {e : Event} {es : List Event} {pa : PendingAck}
  {ids : List UInt32} {n i : ℕ}

/-- All entries that were registered are held back. -/
structure HeldBack (n i : ℕ) (ids : List UInt32) (es : List Event) (s : Leader) : Prop where
  allInSync : s.partition.AllInSync ids
  tracked : ∀ pa ∈ s.manager.pending, Tracked es pa
  registeredAt : ∀ pa ∈ s.manager.pending, pa.registeredAt.isrIds = ids
  acks : ∀ x ∈ acks es, x.1.toNat < n ∧ x.1.toNat ≠ i
  kept : s.manager.pending.map PendingAck.kept = es.flatMap Event.registration
  released : ∀ e ∈ es, e.releases = []

theorem heldBack_start (hm : s₀.manager = {}) (h : s₀.partition.AllInSync ids) :
    HeldBack n i ids [] s₀ := by
  have hnil : s₀.manager.pending = [] := by rw [hm]
  refine ⟨h, ?_, ?_, fun x hx => absurd hx List.not_mem_nil, by rw [hnil]; rfl,
    fun e he => absurd he List.not_mem_nil⟩ <;>
  · rw [hnil]
    exact fun pa hpa => absurd hpa List.not_mem_nil

/-- An event that is no registration, in which nothing is released and nothing erased. -/
theorem HeldBack.snoc (h : HeldBack n i ids es s) (hst : LiveStep maxLag s e s')
    (hacks : ∀ x ∈ Leader.acks (es ++ [e]), x.1.toNat < n ∧ x.1.toNat ≠ i)
    (hkept : s'.manager.pending.map PendingAck.kept =
      s.manager.pending.map PendingAck.kept ++ e.registration) (hrel : e.releases = []) :
    HeldBack n i ids (es ++ [e]) s' where
  allInSync := hst.allInSync h.allInSync
  tracked := hst.tracked h.tracked
  registeredAt := hst.registeredAt (P := fun m => m.isrIds = ids) h.registeredAt
    h.allInSync.isrIds_eq
  acks := hacks
  kept := by rw [hkept, h.kept, List.flatMap_append, List.flatMap_singleton]
  released e' he' := by
    rcases List.mem_append.1 he' with he' | he'
    · exact h.released e' he'
    · rw [List.mem_singleton.1 he', hrel]

theorem HeldBack.step (hi : i < n) (hn : n + 1 < 2 ^ 31) (hlen : ids.length = n + 1)
    (h : HeldBack n i ids es s) (hst : LiveStep maxLag s e s') (hg : FromPeers n i s e) :
    HeldBack n i ids (es ++ [e]) s' := by
  have hacks : ∀ x ∈ Leader.acks (es ++ [e]), x.1.toNat < n ∧ x.1.toNat ≠ i := by
    intro x hx
    rw [acks_snoc] at hx
    rcases List.mem_append.1 hx with hx | hx
    · exact h.acks x hx
    · cases e with
      | acked f a released =>
        rw [Event.ack, List.mem_singleton] at hx
        exact hx ▸ hg
      | _ => exact absurd hx List.not_mem_nil
  have hstep := hst
  cases hst with
  | elect => exact h.snoc hstep hacks (List.append_nil _).symm rfl
  | step hst he =>
    cases hst with
    | register => exact h.snoc hstep hacks (List.map_append) rfl
    | enqueue | pop | post | finish => exact h.snoc hstep hacks (List.append_nil _).symm rfl
    | @process qc hw =>
      have hc : ∀ pa ∈ s.manager.pending, ¬(pa.commit qc).2.Complete := fun pa hpa =>
        not_complete hi hn (h.tracked pa hpa).commit
          (by rw [PendingAck.registeredAt_commit, h.registeredAt pa hpa, hlen]) hacks
      obtain ⟨hrel, hkept⟩ := ReplicaManager.sweep_of_not_complete hc
        fun pa hpa => PendingAck.commit_of_not_complete (hc pa hpa)
      exact h.snoc hstep hacks (hkept.trans (List.append_nil _).symm) hrel
    | ack f a =>
      have hc : ∀ pa ∈ s.manager.pending, ¬(pa.ack f a).2.Complete := fun pa hpa =>
        not_complete hi hn (h.tracked pa hpa).ack
          (by rw [PendingAck.registeredAt_ack, h.registeredAt pa hpa, hlen]) hacks
      obtain ⟨hrel, hkept⟩ := ReplicaManager.sweep_of_not_complete hc
        fun pa hpa => PendingAck.ack_of_not_complete (hc pa hpa)
      exact h.snoc hstep hacks (hkept.trans (List.append_nil _).symm) hrel
    | change => exact absurd rfl he

theorem Run.heldBack (hi : i < n) (hn : n + 1 < 2 ^ 31) (hlen : ids.length = n + 1)
    (hm : s₀.manager = {}) (h : s₀.partition.AllInSync ids)
    (hr : Run (Guarded (LiveStep maxLag) (FromPeers n i)) s₀ es s) : HeldBack n i ids es s :=
  hr.invariant (I := HeldBack n i ids) (heldBack_start hm h)
    fun _ ih hst => ih.step hi hn hlen hst.1 hst.2

end Leader

end Fell.Replication

namespace Fell.Broker

open Platform Replication PartitionMetaRegistry

variable {b b' : Broker} {topic : Bytes} {count n i : ℕ}

theorem allInSync_seed (brokerId numBrokers : UInt32) (p : UInt16) (m : PartitionMeta) :
    (seed brokerId numBrokers p m).AllInSync ((List.range numBrokers.toNat).map UInt32.ofNat) := by
  refine ⟨replicaIds_seed m, fun r hr => ?_⟩
  obtain ⟨rid, -, rfl⟩ := List.mem_map.1 hr
  rfl

/-- The partitions of a topic start with one replica too many, and all in sync. -/
theorem Seeds.allInSync (h : Seeds topic count b b') (hcfg : b.cfg.Describes n i)
    (hn : n + 1 < 2 ^ 31) (hcount : count < UInt16.size) {p : UInt16} (hp : p.toNat < count) :
    (b'.metaReg.find topic p).AllInSync ((List.range (n + 1)).map UInt32.ofNat) := by
  have hmod : (n + 1) % UInt32.size = n + 1 :=
    Nat.mod_eq_of_lt (by simp only [UInt32.size]; omega)
  rcases h.find_eq hcfg.length_peers p hp with ⟨num, m, hnum, hfind⟩ | ⟨hzero | hbig, -⟩
  · rw [hmod, Nat.max_eq_right (by omega)] at hnum
    rw [hfind, ← hnum]
    exact allInSync_seed _ _ _ _
  · omega
  · omega

/-- In a cluster whose brokers are all listed as peers, and for every partition whose roles are
    seeded, at the start of the broker or when the topic is created: whatever is committed and
    whichever of the other brokers acknowledges it, no response that is registered with the replica
    manager is released. All of them stay there. -/
theorem never_released {maxLag : UInt64} {s₀ s : Leader} {es : List Leader.Event}
    (hcfg : b.cfg.Describes n i) (hi : i < n) (hn : n + 1 < 2 ^ 31)
    (hseed : Seeds topic count b b') (hcount : count < UInt16.size) {p : UInt16}
    (hp : p.toNat < count) (hpart : s₀.partition = b'.metaReg.find topic p)
    (hm : s₀.manager = {})
    (hr : Run (Guarded (Leader.LiveStep maxLag) (Leader.FromPeers n i)) s₀ es s) :
    (∀ e ∈ es, e.releases = []) ∧
      s.manager.pending.map PendingAck.kept = es.flatMap Leader.Event.registration := by
  have hsync : s₀.partition.AllInSync ((List.range (n + 1)).map UInt32.ofNat) := by
    rw [hpart]
    exact hseed.allInSync hcfg hn hcount hp
  have hheld := Leader.Run.heldBack hi hn (by simp) hm hsync hr
  exact ⟨hheld.released, hheld.kept⟩

/-- A broker of the default cluster, when it starts, as the leader of the first partition. -/
def defaultLeader (i : Fin 3) : Leader where
  manager := {}
  partition := (defaultBroker i).initializeReplication.metaReg.find (ascii "t") 0

/-- The record is committed, and the other two brokers acknowledge it. -/
theorem never_released_default : ∃ (es : List Leader.Event) (s : Leader),
    (defaultBroker 0).cfg.Describes 3 0 ∧
      Seeds (ascii "t") 4 (defaultBroker 0) (defaultBroker 0).initializeReplication ∧
      Run (Guarded (Leader.LiveStep 1000) (Leader.FromPeers 3 0)) (defaultLeader 0) es s ∧
      Leader.Committed es 0 ∧ Leader.acks es = [(1, 1), (2, 1)] ∧
      (∀ e ∈ es, e.releases = []) ∧ s.manager.pending.map PendingAck.kept = [(0, 5, [1])] := by
  have hone : (1 : UInt32).toNat < 3 ∧ (1 : UInt32).toNat ≠ 0 := by decide
  have htwo : (2 : UInt32).toNat < 3 ∧ (2 : UInt32).toNat ≠ 0 := by decide
  have hrun : ∃ es s, Run (Guarded (Leader.LiveStep 1000) (Leader.FromPeers 3 0))
      (defaultLeader 0) es s ∧ Leader.commits es = [Leader.firstCommit] ∧
        Leader.acks es = [(1, 1), (2, 1)] ∧
        es.flatMap Leader.Event.registration = [(0, 5, [1])] :=
    ⟨_, _, .snoc (.snoc (.snoc (.snoc (.snoc
      (.single ⟨.step (.register 0 [1] 5) (by rintro ⟨⟩), trivial⟩)
      ⟨.step (.enqueue Leader.firstCommit) (by rintro ⟨⟩), trivial⟩)
      ⟨.step (.pop rfl rfl) (by rintro ⟨⟩), trivial⟩)
      ⟨.step (.process rfl) (by rintro ⟨⟩), trivial⟩)
      ⟨.step (.ack 1 1) (by rintro ⟨⟩), hone⟩)
      ⟨.step (.ack 2 1) (by rintro ⟨⟩), htwo⟩, rfl, rfl, rfl⟩
  obtain ⟨es, s, hr, hcommits, hacks, hreg⟩ := hrun
  have h := never_released (p := 0) (describes_defaultBroker 0) (by decide) (by decide)
    (seeds_defaultBroker 0) (by decide) (by decide) rfl rfl hr
  refine ⟨es, s, describes_defaultBroker 0, seeds_defaultBroker 0, hr, ?_, hacks, h.1, hreg ▸ h.2⟩
  exact ⟨Leader.firstCommit, hcommits ▸ List.mem_singleton_self _, by decide⟩

end Fell.Broker
