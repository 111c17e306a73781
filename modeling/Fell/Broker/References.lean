import Fell.Broker.Roles
import Fell.Lib.OwnedMap
import Fell.Lib.Transition

/-!
# References to replication state

`PartitionMetaRegistry::get` returns a reference to metadata that the registry owns, and the
broker keeps its replica managers in a map of its own, under the same kind of key
(`Broker::replication_key`), each with a reference to the metadata it was made for. Such references
are kept, and read and written later, while others are handed out.

The registry of `Fell.Replication.PartitionMeta` has the metadata themselves. Here it has
references to them, as in the source, and `Represents.get`, `Represents.update` and
`Represents.assignRoles` say that it amounts to the same.

* `Run.named`, `Run.refers`: in every state, the metadata of a partition bear its name, and a
  replica manager refers to the metadata of its partition;
* `Run.returned`: what was returned for a partition is what is returned for it ever after;
* `replication_unshared`: so two partitions never share metadata or a replica manager,
  in whatever order they are asked for.
-/

namespace Fell.Replication

open Platform PartitionMetaRegistry

variable {topic t : Bytes} {partition p : UInt16}

/-- `PartitionMetaRegistry`, with the metadata it owns. -/
abbrev MetaTable := OwnedMap Bytes PartitionMeta

namespace MetaTable

variable (T : MetaTable)

/-- `get`: the reference, and the registry. -/
def get (topic : Bytes) (partition : UInt16) : ℕ × MetaTable :=
  T.getOrCreate (makeKey topic partition) { topic, partitionIdx := partition }

/-- Metadata are asked for and changed. -/
def update (topic : Bytes) (partition : UInt16) (f : PartitionMeta → PartitionMeta) : MetaTable :=
  (T.get topic partition).2.modify (T.get topic partition).1 f

/-- `assign_roles`. -/
def assignRoles (brokerId numBrokers : UInt32) (topics : List Bytes)
    (partitionCounts : List UInt16) : MetaTable :=
  if numBrokers = 0 then T
  else
    topics.zipIdx.foldl (fun T (topic, i) =>
      (List.range (partitionCounts[i]?.getD 1).toNat).foldl (fun T p =>
        T.update topic (UInt16.ofNat p) (seed brokerId numBrokers (UInt16.ofNat p))) T) T

variable {T} {f : PartitionMeta → PartitionMeta}

theorem mem_lookup_get (T : MetaTable) (topic : Bytes) (partition : UInt16) :
    (T.get topic partition).1 ∈ (T.get topic partition).2.index.lookup (makeKey topic partition) :=
  T.mem_lookup_getOrCreate _ _

theorem find?_get (T : MetaTable) (topic : Bytes) (partition : UInt16) (key : Bytes) :
    (T.get topic partition).2.find? key =
      if key = makeKey topic partition then
        some ((T.find? (makeKey topic partition)).getD { topic, partitionIdx := partition })
      else T.find? key :=
  T.find?_getOrCreate _ _ _

theorem find?_update (topic : Bytes) (partition : UInt16) (key : Bytes) :
    (T.update topic partition f).find? key =
      if key = makeKey topic partition then
        some (f ((T.find? (makeKey topic partition)).getD { topic, partitionIdx := partition }))
      else T.find? key := by
  rw [update, OwnedMap.find?_modify, find?_get]
  simp only [OwnedMap.lookup_eq_some_iff (T.mem_lookup_get topic partition)]
  split_ifs with hkey
  · rw [Option.map_some]
  · rfl

/-! ## Names -/

/-- The metadata under a key bear the name that the key is made of. -/
def Named (T : MetaTable) : Prop :=
  ∀ key m, T.find? key = some m → key = makeKey m.topic m.partitionIdx

/-- The keys of `T` have the same references in `T'`, and the names are still right. -/
structure Extends (T T' : MetaTable) : Prop where
  mem_lookup : ∀ {key ref}, ref ∈ T.index.lookup key → ref ∈ T'.index.lookup key
  named : T.Named → T'.Named

theorem Extends.refl (T : MetaTable) : T.Extends T := ⟨id, id⟩

theorem Extends.trans {T₁ T₂ T₃ : MetaTable} (h : T₁.Extends T₂) (h' : T₂.Extends T₃) :
    T₁.Extends T₃ :=
  ⟨fun hmem => h'.mem_lookup (h.mem_lookup hmem), fun hnamed => h'.named (h.named hnamed)⟩

theorem extends_get (T : MetaTable) (topic : Bytes) (partition : UInt16) :
    T.Extends (T.get topic partition).2 := by
  refine ⟨fun hmem => OwnedMap.lookup_getOrCreate hmem _ _, fun hnamed key m hm => ?_⟩
  rw [find?_get] at hm
  split_ifs at hm with hkey
  · cases hfind : T.find? (makeKey topic partition) with
    | some m' =>
      rw [hfind, Option.getD_some, Option.some.injEq] at hm
      rw [hkey, ← hm, ← hnamed _ _ hfind]
    | none =>
      rw [hfind, Option.getD_none, Option.some.injEq] at hm
      rw [hkey, ← hm]
  · exact hnamed key m hm

/-- A change that leaves the name alone. -/
theorem extends_modify (T : MetaTable) (ref : ℕ) (htopic : ∀ m, (f m).topic = m.topic)
    (hidx : ∀ m, (f m).partitionIdx = m.partitionIdx) : T.Extends (T.modify ref f) := by
  refine ⟨id, fun hnamed key m hm => ?_⟩
  rw [OwnedMap.find?_modify] at hm
  split_ifs at hm
  · obtain ⟨m', hm', rfl⟩ := Option.map_eq_some_iff.1 hm
    rw [htopic, hidx]
    exact hnamed key m' hm'
  · exact hnamed key m hm

theorem extends_foldl {ι : Type*} {g : MetaTable → ι → MetaTable} (l : List ι)
    (step : ∀ (T : MetaTable) i, T.Extends (g T i)) : T.Extends (l.foldl g T) := by
  induction l generalizing T with
  | nil => exact .refl T
  | cons i l ih => exact (step T i).trans ih

theorem extends_assignRoles (T : MetaTable) (brokerId numBrokers : UInt32) (topics : List Bytes)
    (partitionCounts : List UInt16) :
    T.Extends (T.assignRoles brokerId numBrokers topics partitionCounts) := by
  rw [assignRoles]
  split_ifs
  · exact .refl T
  · refine extends_foldl _ fun T x => ?_
    refine extends_foldl _ fun T p => ?_
    exact (extends_get T _ _).trans (extends_modify _ _ (fun _ => rfl) fun _ => rfl)

end MetaTable

/-! ## The registry without references -/

/-- The two registries have the same metadata. -/
def Represents (T : MetaTable) (reg : PartitionMetaRegistry) : Prop :=
  ∀ key, T.find? key = reg.lookup key

namespace Represents

variable {T : MetaTable} {reg : PartitionMetaRegistry}

theorem find_eq (h : Represents T reg) (topic : Bytes) (partition : UInt16) :
    (T.find? (makeKey topic partition)).getD { topic, partitionIdx := partition } =
      reg.find topic partition := by
  rw [h, find]

/-- Asking for metadata refers to those that are found. -/
theorem get (h : Represents T reg) (topic : Bytes) (partition : UInt16) :
    Represents (T.get topic partition).2 (reg.get topic partition) ∧
      (T.get topic partition).2.objects[(T.get topic partition).1]? =
        some (reg.find topic partition) := by
  constructor
  · intro key
    rw [MetaTable.find?_get, h.find_eq, PartitionMetaRegistry.get]
    split_ifs with hkey hmem hmem
    · obtain ⟨m, hm⟩ := Option.isSome_iff_exists.1 (AList.lookup_isSome.2 hmem)
      rw [hkey, find, hm, Option.getD_some]
    · rw [hkey, AList.lookup_insert]
    · exact h key
    · rw [AList.lookup_insert_ne hkey]
      exact h key
  · rw [← OwnedMap.find?_of_mem (T.mem_lookup_get topic partition), MetaTable.find?_get, if_pos rfl,
      h.find_eq]

theorem update (h : Represents T reg) (topic : Bytes) (partition : UInt16)
    (f : PartitionMeta → PartitionMeta) :
    Represents (T.update topic partition f) (reg.modify topic partition f) := by
  intro key
  rw [MetaTable.find?_update, h.find_eq, PartitionMetaRegistry.modify]
  split_ifs with hkey
  · rw [hkey, AList.lookup_insert]
  · rw [AList.lookup_insert_ne hkey]
    exact h key

/-- Loops whose bodies do the same do the same. -/
theorem foldl {ι : Type*} {f : MetaTable → ι → MetaTable}
    {g : PartitionMetaRegistry → ι → PartitionMetaRegistry}
    (step : ∀ T reg i, Represents T reg → Represents (f T i) (g reg i)) (l : List ι)
    (h : Represents T reg) : Represents (l.foldl f T) (l.foldl g reg) := by
  induction l generalizing T reg with
  | nil => exact h
  | cons i l ih => exact ih (step _ _ i h)

theorem assignRoles (h : Represents T reg) (brokerId numBrokers : UInt32) (topics : List Bytes)
    (partitionCounts : List UInt16) :
    Represents (T.assignRoles brokerId numBrokers topics partitionCounts)
      (reg.assignRoles brokerId numBrokers topics partitionCounts) := by
  rw [MetaTable.assignRoles, PartitionMetaRegistry.assignRoles]
  split_ifs
  · exact h
  · refine foldl (fun T reg x h => ?_) topics.zipIdx h
    refine foldl (fun T reg p h => ?_) (List.range (partitionCounts[x.2]?.getD 1).toNat) h
    exact h.update x.1 (UInt16.ofNat p) (seed brokerId numBrokers (UInt16.ofNat p))

end Represents

/-! ## The broker -/

/-- `Broker::replication_key`. -/
def replicationKey (topic : Bytes) (partition : UInt16) : Bytes :=
  topic ++ 45 :: toDecimal partition.toNat

theorem replicationKey_eq (topic : Bytes) (partition : UInt16) :
    replicationKey topic partition = makeKey topic partition := rfl

/-- The registry of the metadata and the map of the replica managers. A manager is what it was
    made for, the reference to the metadata. -/
structure ReplicationState where
  metas : MetaTable
  managers : OwnedMap Bytes ℕ

namespace ReplicationState

/-- Nothing has been asked for. -/
def initial : ReplicationState := ⟨.empty, .empty⟩

/-- `get_or_create_replica_manager`: the manager, and the state. -/
def getOrCreateReplicaManager (s : ReplicationState) (topic : Bytes) (partition : UInt16) :
    ℕ × ReplicationState :=
  match s.managers.index.lookup (replicationKey topic partition) with
  | some a => (a, s)
  | none =>
    let (ref, metas) := s.metas.get topic partition
    let (a, managers) := s.managers.getOrCreate (replicationKey topic partition) ref
    (a, ⟨metas, managers⟩)

/-- What was asked for and returned. -/
inductive Event
  | get (topic : Bytes) (partition : UInt16) (ref : ℕ)
  | assignRoles
  | getOrCreateReplicaManager (topic : Bytes) (partition : UInt16) (manager : ℕ)
  | write (ref : ℕ)

/-- The steps: the calls, and the writes of those who hold references. Nobody writes to the name
    of a partition. -/
inductive Step (s : ReplicationState) : Event → ReplicationState → Prop
  | get (topic : Bytes) (partition : UInt16) :
      Step s (.get topic partition (s.metas.get topic partition).1)
        { s with metas := (s.metas.get topic partition).2 }
  | assignRoles (brokerId numBrokers : UInt32) (topics : List Bytes)
      (partitionCounts : List UInt16) :
      Step s .assignRoles
        { s with metas := s.metas.assignRoles brokerId numBrokers topics partitionCounts }
  | manager (topic : Bytes) (partition : UInt16) :
      Step s
        (.getOrCreateReplicaManager topic partition (s.getOrCreateReplicaManager topic partition).1)
        (s.getOrCreateReplicaManager topic partition).2
  | write (ref : ℕ) {f : PartitionMeta → PartitionMeta} (htopic : ∀ m, (f m).topic = m.topic)
      (hidx : ∀ m, (f m).partitionIdx = m.partitionIdx) :
      Step s (.write ref) { s with metas := s.metas.modify ref f }

variable {s s' : ReplicationState} {e e' : Event} {es : List Event}

theorem getOrCreateReplicaManager_of_mem {a : ℕ}
    (h : a ∈ s.managers.index.lookup (replicationKey topic partition)) :
    s.getOrCreateReplicaManager topic partition = (a, s) := by
  rw [getOrCreateReplicaManager, Option.mem_def.1 h]

theorem getOrCreateReplicaManager_of_none
    (h : s.managers.index.lookup (replicationKey topic partition) = none) :
    s.getOrCreateReplicaManager topic partition =
      ((s.managers.getOrCreate (replicationKey topic partition) (s.metas.get topic partition).1).1,
        ⟨(s.metas.get topic partition).2,
          (s.managers.getOrCreate (replicationKey topic partition)
            (s.metas.get topic partition).1).2⟩) := by
  rw [getOrCreateReplicaManager, h]

/-- The broker without references has the same metadata, and replica managers under the same
    keys. -/
structure Mirrors (s : ReplicationState) (b : Broker) : Prop where
  metas : Represents s.metas b.metaReg
  managers : ∀ key, s.managers.find? key = none ↔ key ∉ b.replicaManagers

theorem Mirrors.getOrCreateReplicaManager {b : Broker} (h : Mirrors s b) (topic : Bytes)
    (partition : UInt16) :
    Mirrors (s.getOrCreateReplicaManager topic partition).2
      (b.getOrCreateReplicaManager topic partition) := by
  have hkey := h.managers (makeKey topic partition)
  rw [OwnedMap.find?_eq_none_iff] at hkey
  rw [Broker.getOrCreateReplicaManager]
  cases hlookup : s.managers.index.lookup (replicationKey topic partition) with
  | some a =>
    have hmem : makeKey topic partition ∈ b.replicaManagers := by
      by_contra hmem
      exact absurd (hlookup.symm.trans (hkey.2 hmem)) (by simp)
    rw [getOrCreateReplicaManager_of_mem hlookup, if_pos hmem]
    exact h
  | none =>
    rw [getOrCreateReplicaManager_of_none hlookup, if_neg (hkey.1 hlookup)]
    refine ⟨(h.metas.get topic partition).1, fun key => ?_⟩
    dsimp only
    rw [OwnedMap.find?_getOrCreate, AList.mem_insert, not_or, ← h.managers key,
      replicationKey_eq]
    split_ifs with heq
    · simp [heq]
    · simp [heq]

/-! ## What one step does -/

/-- What an event has returned is what the state has under the key. -/
def Returned (s : ReplicationState) : Event → Prop
  | .get topic partition ref => ref ∈ s.metas.index.lookup (makeKey topic partition)
  | .getOrCreateReplicaManager topic partition a =>
    a ∈ s.managers.index.lookup (replicationKey topic partition)
  | .assignRoles => True
  | .write _ => True

/-- The keys keep their references. -/
structure Keeps (s s' : ReplicationState) : Prop where
  metas : s.metas.Extends s'.metas
  managers : ∀ {key a}, a ∈ s.managers.index.lookup key → a ∈ s'.managers.index.lookup key

theorem Keeps.returned (h : Keeps s s') (he : s.Returned e) : s'.Returned e := by
  cases e with
  | get => exact h.metas.mem_lookup he
  | getOrCreateReplicaManager => exact h.managers he
  | assignRoles => trivial
  | write => trivial

theorem keeps_getOrCreateReplicaManager (s : ReplicationState) (topic : Bytes)
    (partition : UInt16) : Keeps s (s.getOrCreateReplicaManager topic partition).2 := by
  cases h : s.managers.index.lookup (replicationKey topic partition) with
  | some a =>
    rw [getOrCreateReplicaManager_of_mem h]
    exact ⟨.refl _, id⟩
  | none =>
    rw [getOrCreateReplicaManager_of_none h]
    exact ⟨MetaTable.extends_get _ _ _, fun ha => OwnedMap.lookup_getOrCreate ha _ _⟩

theorem Step.keeps (hst : Step s e s') : Keeps s s' := by
  cases hst with
  | get topic partition => exact ⟨MetaTable.extends_get _ _ _, id⟩
  | assignRoles brokerId numBrokers topics partitionCounts =>
    exact ⟨MetaTable.extends_assignRoles _ _ _ _ _, id⟩
  | manager topic partition => exact keeps_getOrCreateReplicaManager s topic partition
  | write ref htopic hidx => exact ⟨MetaTable.extends_modify _ _ htopic hidx, id⟩

theorem Step.returned (hst : Step s e s') : s'.Returned e := by
  cases hst with
  | get topic partition => exact MetaTable.mem_lookup_get _ _ _
  | assignRoles => trivial
  | manager topic partition =>
    cases h : s.managers.index.lookup (replicationKey topic partition) with
    | some a =>
      rw [getOrCreateReplicaManager_of_mem h]
      exact h
    | none =>
      rw [getOrCreateReplicaManager_of_none h]
      exact OwnedMap.mem_lookup_getOrCreate _ _ _
  | write => trivial

/-- The replica managers refer to the metadata of their partitions. -/
def Refers (s : ReplicationState) : Prop :=
  ∀ key ref, s.managers.find? key = some ref → ref ∈ s.metas.index.lookup key

theorem Step.refers (hst : Step s e s') (h : s.Refers) : s'.Refers := by
  have hkeeps := hst.keeps
  cases hst with
  | get | assignRoles | write =>
    exact fun key ref hfind => hkeeps.metas.mem_lookup (h key ref hfind)
  | manager topic partition =>
    cases hlookup : s.managers.index.lookup (replicationKey topic partition) with
    | some a =>
      rw [getOrCreateReplicaManager_of_mem hlookup]
      exact h
    | none =>
      -- The new manager is given the reference that the registry has under the same key.
      rw [getOrCreateReplicaManager_of_none hlookup] at hkeeps ⊢
      intro key ref hfind
      dsimp only at hfind
      rw [OwnedMap.find?_getOrCreate, OwnedMap.find?_eq_none_iff.2 hlookup] at hfind
      split_ifs at hfind with hkey
      · cases hfind
        rw [hkey]
        exact MetaTable.mem_lookup_get _ _ _
      · exact hkeeps.metas.mem_lookup (h key ref hfind)

/-! ## Runs -/

theorem Run.named (hr : Run Step initial es s) : s.metas.Named :=
  hr.invariant (I := fun _ s => s.metas.Named) (fun _ _ h => nomatch h)
    fun _ h hst => hst.keeps.metas.named h

theorem Run.refers (hr : Run Step initial es s) : s.Refers :=
  hr.invariant (I := fun _ s => s.Refers) (fun _ _ h => nomatch h) fun _ h hst => hst.refers h

/-- What was returned at any time is still what the key has. -/
theorem Run.returned (hr : Run Step initial es s) (he : e ∈ es) : s.Returned e := by
  obtain ⟨es₁, t, t', es₂, -, -, hst, hr₂⟩ := hr.exists_step he
  exact hr₂.invariant (I := fun _ s => s.Returned e) hst.returned
    fun _ h hst => hst.keeps.returned h

/-- Replication state is not shared between partitions. Whatever has been asked for, in
    whatever order, and written through the references: the metadata of a partition bear its name,
    metadata that were returned for two partitions are the same only if the
    partitions are, and so are replica managers, whose metadata are those of the
    partition. -/
theorem replication_unshared (hr : Run Step initial es s) :
    (∀ topic partition m, s.metas.find? (makeKey topic partition) = some m →
      m.topic = topic ∧ m.partitionIdx = partition) ∧
    (∀ t₁ t₂ p₁ p₂ ref, .get t₁ p₁ ref ∈ es → .get t₂ p₂ ref ∈ es → t₁ = t₂ ∧ p₁ = p₂) ∧
    (∀ t₁ t₂ p₁ p₂ a, .getOrCreateReplicaManager t₁ p₁ a ∈ es →
      .getOrCreateReplicaManager t₂ p₂ a ∈ es → t₁ = t₂ ∧ p₁ = p₂) ∧
    (∀ t₁ t₂ p₁ p₂, replicationKey t₁ p₁ = replicationKey t₂ p₂ → t₁ = t₂ ∧ p₁ = p₂) ∧
    ∀ topic partition ref, s.managers.find? (replicationKey topic partition) = some ref →
      ∃ m, s.metas.objects[ref]? = some m ∧ m.topic = topic ∧ m.partitionIdx = partition := by
  have hname : ∀ topic partition m, s.metas.find? (makeKey topic partition) = some m →
      m.topic = topic ∧ m.partitionIdx = partition := by
    intro topic partition m hm
    obtain ⟨ht, hp⟩ := makeKey_inj.1 (Run.named hr _ _ hm)
    exact ⟨ht.symm, hp.symm⟩
  refine ⟨hname, ?_, ?_, ?_, ?_⟩
  · intro t₁ t₂ p₁ p₂ ref h₁ h₂
    exact makeKey_inj.1 (s.metas.inj (Run.returned hr h₁) (Run.returned hr h₂))
  · intro t₁ t₂ p₁ p₂ a h₁ h₂
    exact makeKey_inj.1 (s.managers.inj (Run.returned hr h₁) (Run.returned hr h₂))
  · exact fun t₁ t₂ p₁ p₂ heq => makeKey_inj.1 heq
  · intro topic partition ref hfind
    have hmem := Run.refers hr _ _ hfind
    obtain ⟨m, hm⟩ := Option.ne_none_iff_exists'.1
      (mt List.getElem?_eq_none_iff.1 (Nat.not_le.2 (s.metas.lt_length hmem)))
    exact ⟨m, hm, hname _ _ m ((OwnedMap.find?_of_mem hmem).trans hm)⟩

/-- Partition 2 of the topic `a-1`, then partition 1 of the topic `a`. -/
def confusable : ReplicationState :=
  { initial with metas := ((initial.metas.get [97, 45, 49] 2).2.get [97] 1).2 }

theorem replication_unshared_confusable :
    Run Step initial [.get [97, 45, 49] 2 0, .get [97] 1 1] confusable ∧
      ∀ m, confusable.metas.find? (makeKey [97] 1) = some m →
        m.topic = [97] ∧ m.partitionIdx = 1 := by
  have hr : Run Step initial [.get [97, 45, 49] 2 0, .get [97] 1 1] confusable :=
    .cons (.get (s := initial) [97, 45, 49] 2) (.single (.get [97] 1))
  exact ⟨hr, (replication_unshared hr).1 [97] 1⟩

end ReplicationState

end Fell.Replication
