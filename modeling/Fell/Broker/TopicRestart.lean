import Fell.Broker.TopicRegistry
import Fell.Lib.Transition

/-!
# Topics after a restart

What `recover_all` finds of the topics that were created. `create_topic` makes the directories of a
topic one by one, and enters it in the registry last. If it is interrupted, by an exception or
a crash, some directories are there, and the registry is as it was.

* `allOrNothing_iff`: what is found of a topic whose creation was interrupted is the whole topic or
  nothing, if the interruption comes before the first directory for a partition or after the last,
  and none were there before;
* `recovered_iff`: a registry is recovered as it was, if all names are names of directories and the
  options are the default ones. If not, it is not.
-/

namespace Fell.Broker.TopicRegistry

open Platform Paths
open Storage (StorageOptions)

/-! ## Interrupted creation -/

section

variable {reg : TopicRegistry} {fs : FileSystem} {name c d : Bytes} {n done step : ℕ} {x : Dir}

/-- What is on disk when `create_topic` is interrupted, after some partitions and some of the
    directories on the way to the next. -/
def interrupted (root : Dir) (fs : FileSystem) (name : Bytes) (done step : ℕ) : FileSystem :=
  (makePartitions root fs name done).makeAll [] ((names (partitionDir root name done)).take step)

theorem mem_makePartitions (hname : Plain name) :
    x ∈ (makePartitions reg.dataRoot fs name n).dirs ↔
      x ∈ fs.dirs ∨ ∃ i < n, x <+: reg.dataRoot ++ [name, partitionName i] := by
  induction n with
  | zero => exact ⟨.inl, fun h => h.resolve_right fun ⟨i, hi, _⟩ => absurd hi (Nat.not_lt_zero i)⟩
  | succ n ih =>
    have hplain : ∀ c ∈ names (partitionDir reg.dataRoot name n), Plain c := by
      rw [names_partitionDir_of_plain reg.plain_dataRoot hname]
      exact fun c => plain_of_mem_partitionDir reg.plain_dataRoot hname
    rw [makePartitions, List.range_succ, List.foldl_append, List.foldl_cons, List.foldl_nil,
      FileSystem.createDirectories, FileSystem.mem_makeAll_root hplain,
      names_partitionDir_of_plain reg.plain_dataRoot hname, ← makePartitions, ih, or_assoc]
    refine or_congr_right ⟨?_, fun ⟨i, hi, hx⟩ => ?_⟩
    · rintro (⟨i, hi, hx⟩ | hx)
      · exact ⟨i, hi.trans (Nat.lt_succ_self n), hx⟩
      · exact ⟨n, Nat.lt_succ_self n, hx⟩
    · rcases Nat.lt_succ_iff_lt_or_eq.1 hi with hi | rfl
      · exact .inl ⟨i, hi, hx⟩
      · exact .inr hx

/-- The directories of partitions that are there are those made, and those that were there. -/
theorem pair_mem_interrupted (hname : Plain name) (hstep : step < reg.dataRoot.length + 2) :
    reg.dataRoot ++ [c, d] ∈ (interrupted reg.dataRoot fs name done step).dirs ↔
      reg.dataRoot ++ [c, d] ∈ fs.dirs ∨ c = name ∧ ∃ i < done, d = partitionName i := by
  have hplain : ∀ c ∈ (reg.dataRoot ++ [name, partitionName done]).take step, Plain c := fun c hc =>
    plain_of_mem_partitionDir reg.plain_dataRoot hname (List.mem_of_mem_take hc)
  have hpair : ∀ i, reg.dataRoot ++ [c, d] <+: reg.dataRoot ++ [name, partitionName i] ↔
      c = name ∧ d = partitionName i := fun i => by
    rw [List.prefix_append_right_inj, List.cons_prefix_cons, List.cons_prefix_cons]
    exact and_congr_right fun _ => and_iff_left List.nil_prefix
  -- The way to the next partition is not made to its end.
  have hnext : ¬reg.dataRoot ++ [c, d] <+:
      (reg.dataRoot ++ [name, partitionName done]).take step := fun h => by
    have hle := h.length_le
    rw [List.length_append, List.length_take] at hle
    exact absurd (hle.trans (min_le_left _ _)) (Nat.not_le.2 hstep)
  rw [interrupted, names_partitionDir_of_plain reg.plain_dataRoot hname,
    FileSystem.mem_makeAll_root hplain, or_iff_left hnext, mem_makePartitions hname]
  simp only [hpair]
  exact or_congr_right
    ⟨fun ⟨i, hi, hc, hd⟩ => ⟨hc, i, hi, hd⟩, fun ⟨hc, i, hi, hd⟩ => ⟨i, hi, hc, hd⟩⟩

theorem hasPartition_interrupted (hname : Plain name) (hstep : step < reg.dataRoot.length + 2)
    (hdone : done ≤ maxSize) (i : ℕ) :
    HasPartition (interrupted reg.dataRoot fs name done step) reg.dataRoot name i ↔
      HasPartition fs reg.dataRoot name i ∨ i < done := by
  constructor
  · rintro ⟨c, hmem, htag, hidx⟩
    rcases (pair_mem_interrupted hname hstep).1 hmem with hmem | ⟨-, j, hj, rfl⟩
    · exact .inl ⟨c, hmem, htag, hidx⟩
    · rw [partitionIndex_partitionName (hj.trans_le hdone)] at hidx
      exact .inr (Option.some.inj hidx ▸ hj)
  · rintro (⟨c, hmem, hprop⟩ | hi)
    · exact ⟨c, (pair_mem_interrupted hname hstep).2 (.inl hmem), hprop⟩
    · refine ⟨partitionName i, (pair_mem_interrupted hname hstep).2 (.inr ⟨rfl, i, hi, rfl⟩), ?_⟩
      exact ⟨List.prefix_append _ _, partitionIndex_partitionName (hi.trans_le hdone)⟩

theorem unreadable_interrupted (hname : Plain name) (hstep : step < reg.dataRoot.length + 2)
    (hdone : done ≤ maxSize) :
    Unreadable (interrupted reg.dataRoot fs name done step) reg.dataRoot ↔
      Unreadable fs reg.dataRoot := by
  constructor
  · rintro ⟨name', c, hmem, htag, hnone⟩
    rcases (pair_mem_interrupted hname hstep).1 hmem with hmem | ⟨-, j, hj, rfl⟩
    · exact ⟨name', c, hmem, htag, hnone⟩
    · rw [partitionIndex_partitionName (hj.trans_le hdone)] at hnone
      exact nomatch hnone
  · rintro ⟨name', c, hmem, hprop⟩
    exact ⟨name', c, (pair_mem_interrupted hname hstep).2 (.inl hmem), hprop⟩

/-- A topic is not there at all, or it has this number of partitions. -/
def Whole (reg : TopicRegistry) (name : Bytes) (n : ℕ) : Prop :=
  reg.topics.lookup name = none ∨
    ∃ ps, reg.topics.lookup name = some ps ∧ ps.length = n ∧ none ∉ ps

/-- What holds for a topic whose creation was interrupted, in the registry and in one that is
    recovered from disk. -/
def AllOrNothing (reg : TopicRegistry) {fs : FileSystem} (l : fs.Listing) (name : Bytes) (n : ℕ) :
    Prop :=
  name ∉ reg.topics ∧ ∀ reg', reg.restarted.recoverAll l = some reg' → reg'.Whole name n

theorem whole_recoverAll_iff {l : fs.Listing} (hname : Plain name) :
    (∀ reg', reg.restarted.recoverAll l = some reg' → reg'.Whole name n) ↔
      Unreadable fs reg.dataRoot ∨ (∀ i, ¬HasPartition fs reg.dataRoot name i) ∨
        ∀ i, HasPartition fs reg.dataRoot name i ↔ i < n := by
  -- If recovery throws an exception, there is no registry to speak of.
  by_cases hread : Unreadable fs reg.dataRoot
  · exact iff_of_true (fun reg' h => absurd hread (not_unreadable_of_recoverAll h)) (.inl hread)
  · obtain ⟨reg', hreg', -⟩ := recoverAll_eq_some (l := l) hread
    have hiff : (∀ reg₁, reg.restarted.recoverAll l = some reg₁ → reg₁.Whole name n) ↔
        reg'.Whole name n :=
      ⟨fun h => h _ hreg', fun h reg₁ hreg₁ => Option.some.inj (hreg'.symm.trans hreg₁) ▸ h⟩
    rw [hiff, or_iff_right hread]
    rcases lookup_recoverAll hreg' hname with ⟨hnone, hno⟩ | ⟨ps, hps, hplaced, i, hi⟩
    · exact iff_of_true (.inl hnone) (.inl hno)
    · have hcomplete := hplaced.complete_iff n
      have hhas : ∀ i, (∃ c ∈ partitionDirs reg.dataRoot l name, partitionIndex c = some i) ↔
          HasPartition fs reg.dataRoot name i := fun i => by
        simp only [mem_partitionDirs hname, HasPartition, and_assoc]
      simp only [hhas] at hcomplete
      rw [← hcomplete, or_iff_right fun hno => hno i hi]
      constructor
      · rintro (hnone | ⟨ps', hps', hprop⟩)
        · exact nomatch hnone.symm.trans hps
        · exact Option.some.inj (hps'.symm.trans hps) ▸ hprop
      · exact fun hprop => .inr ⟨ps, hps, hprop⟩

/-- The partitions with these numbers are there before, or made. -/
theorem whole_interrupted_iff (hname : Plain name) (hstep : step < reg.dataRoot.length + 2)
    (hdone : done ≤ maxSize) (l : (interrupted reg.dataRoot fs name done step).Listing) :
    (∀ reg', reg.restarted.recoverAll l = some reg' → reg'.Whole name n) ↔
      Unreadable fs reg.dataRoot ∨
        (∀ i, ¬(HasPartition fs reg.dataRoot name i ∨ i < done)) ∨
        ∀ i, HasPartition fs reg.dataRoot name i ∨ i < done ↔ i < n := by
  rw [whole_recoverAll_iff hname, unreadable_interrupted hname hstep hdone]
  simp only [hasPartition_interrupted hname hstep hdone]

/-- The creation of a topic is interrupted, after the directories of some partitions and in the
    middle of the next. Of the topic there is everything or nothing, exactly if its name is not one
    that is recovered, or recovery fails anyway, or the numbers of the partitions that were there
    before and of those made are none, or those of the topic. -/
theorem allOrNothing_iff (hnew : name ∉ reg.topics) (numPartitions : UInt16)
    (hdone : done ≤ numPartitions.toNat)
    (hstep : step < (names (partitionDir reg.dataRoot name done)).length)
    (l : (interrupted reg.dataRoot fs name done step).Listing) :
    AllOrNothing reg l name numPartitions.toNat ↔
      ¬Plain name ∨ Unreadable fs reg.dataRoot ∨
        (∀ i, ¬(HasPartition fs reg.dataRoot name i ∨ i < done)) ∨
        ∀ i, HasPartition fs reg.dataRoot name i ∨ i < done ↔ i < numPartitions.toNat := by
  rw [AllOrNothing, and_iff_right hnew]
  by_cases hname : Plain name
  · rw [names_partitionDir_of_plain reg.plain_dataRoot hname, List.length_append] at hstep
    have hmax : done ≤ maxSize := hdone.trans (numPartitions.toNat_lt.le.trans (by decide))
    rw [whole_interrupted_iff hname hstep hmax]
    exact (or_iff_right (not_not.2 hname)).symm
  · exact iff_of_true (fun reg' h => .inl (lookup_recoverAll_of_not_plain h hname)) (.inl hname)

end

section

/-- A disk with nothing on it. -/
def emptyDisk : FileSystem where
  dirs := {[]}
  root_mem := Finset.mem_singleton_self _
  parent_mem h := absurd (Finset.mem_singleton.1 h) (List.append_ne_nil_of_right_ne_nil _ nofun)

/-- A registry on a data root that is not made yet. -/
def freshRegistry (storageOptions : StorageOptions) : TopicRegistry where
  dataRoot := [[100]]
  plain_dataRoot := by decide
  storageOptions
  topics := ∅

theorem not_mem_emptyDisk {c d : Bytes} : [[100]] ++ [c, d] ∉ emptyDisk.dirs :=
  fun h => nomatch Finset.mem_singleton.1 h

theorem not_hasPartition_emptyDisk {name : Bytes} (i : ℕ) :
    ¬HasPartition emptyDisk [[100]] name i :=
  fun ⟨_, hmem, _⟩ => not_mem_emptyDisk hmem

theorem not_unreadable_emptyDisk : ¬Unreadable emptyDisk [[100]] :=
  fun ⟨_, _, hmem, _⟩ => not_mem_emptyDisk hmem

theorem allOrNothing_last : ∃ l : (interrupted [[100]] emptyDisk [97] 2 0).Listing,
    [97] ∉ (freshRegistry {}).topics ∧ AllOrNothing (freshRegistry {}) l [97] 2 := by
  obtain ⟨l⟩ := FileSystem.nonempty_listing (interrupted [[100]] emptyDisk [97] 2 0)
  have hnew : [97] ∉ (freshRegistry {}).topics := nofun
  have hall : ∀ i, HasPartition emptyDisk [[100]] [97] i ∨ i < 2 ↔ i < 2 := fun i =>
    or_iff_right (not_hasPartition_emptyDisk i)
  exact ⟨l, hnew, (allOrNothing_iff hnew 2 le_rfl (by decide) l).2 (.inr (.inr (.inr hall)))⟩

/-- The creation of a topic with two partitions is interrupted after the first. -/
theorem not_allOrNothing : ¬∀ (reg : TopicRegistry) (fs : FileSystem) (name : Bytes)
    (numPartitions : UInt16) (done step : ℕ)
    (l : (interrupted reg.dataRoot fs name done step).Listing),
    name ∉ reg.topics → done ≤ numPartitions.toNat →
      step < (names (partitionDir reg.dataRoot name done)).length →
        AllOrNothing reg l name numPartitions.toNat := by
  intro hall
  obtain ⟨l⟩ := FileSystem.nonempty_listing (interrupted [[100]] emptyDisk [97] 1 0)
  have h := hall (freshRegistry {}) emptyDisk [97] 2 1 0 l nofun (by decide) (by decide)
  have hiff := @whole_interrupted_iff (freshRegistry {}) emptyDisk [97] 2 1 0 (by decide)
    (by decide) (by decide) l
  rcases hiff.1 h.2 with hr | hno | hiff
  · exact not_unreadable_emptyDisk hr
  · exact hno 0 (.inr Nat.one_pos)
  · exact ((hiff 1).2 (by decide)).elim (not_hasPartition_emptyDisk 1) (lt_irrefl 1)

end

/-! ## Restarts -/

/-- A call of `create_topic` that is successful. -/
def Created (s : FileSystem × TopicRegistry) (call : Bytes × UInt16)
    (s' : FileSystem × TopicRegistry) : Prop :=
  0 < call.2 ∧ s.2.createTopic s.1 call.1 call.2 = (true, s')

/-- The registry is recovered: there are the same topics, with the same number of partitions. None
    of them is missing, and they are on the same directories and have the options of the
    registry. -/
structure Recovered (reg reg' : TopicRegistry) : Prop where
  mem_iff : ∀ name, name ∈ reg'.topics ↔ name ∈ reg.topics
  partitions : ∀ {name ps}, reg.topics.lookup name = some ps →
    ∃ ps', reg'.topics.lookup name = some ps' ∧ ps'.length = ps.length ∧
      ∀ i < ps.length, ∃ dir, ps[i]? = some (some ⟨dir, reg.storageOptions⟩) ∧
        ps'[i]? = some (some ⟨dir, reg.storageOptions⟩)

/-- A registry that has just been made, on a data root without directories. -/
structure Fresh (s : FileSystem × TopicRegistry) : Prop where
  topics : s.2.topics = ∅
  not_mem : ∀ c, s.2.dataRoot ++ [c] ∉ s.1.dirs

section

variable {s s' s₀ : FileSystem × TopicRegistry} {call : Bytes × UInt16}
  {calls : List (Bytes × UInt16)} {name : Bytes} {ps : List (Option Partition)}

/-- What a successful call does. -/
theorem Created.eq (h : Created s call s') : call.1 ∉ s.2.topics ∧
    s' = (makePartitions s.2.dataRoot s.1 call.1 call.2.toNat,
      { s.2 with topics := s.2.topics.insert call.1 (s.2.newPartitions call.1 call.2.toNat) }) := by
  have heq := h.2
  rw [createTopic] at heq
  split_ifs at heq with hmem
  · cases (Prod.mk.inj heq).1
  · exact ⟨hmem, (Prod.mk.inj heq).2.symm⟩

theorem Created.lookup (h : Created s call s') (name : Bytes) :
    s'.2.topics.lookup name =
      if name = call.1 then some (s.2.newPartitions call.1 call.2.toNat)
      else s.2.topics.lookup name := by
  rw [h.eq.2]
  split_ifs with hname
  · rw [hname, AList.lookup_insert]
  · exact AList.lookup_insert_ne hname

theorem Created.root_eq (h : Created s call s') :
    s'.2.dataRoot = s.2.dataRoot ∧ s'.2.storageOptions = s.2.storageOptions := by
  rw [h.eq.2]
  exact ⟨rfl, rfl⟩

/-- The partitions of a topic are those it was created with. -/
def Complete (reg : TopicRegistry) : Prop :=
  ∀ name ps, reg.topics.lookup name = some ps →
    0 < ps.length ∧ ps.length < maxSize ∧ ps = reg.newPartitions name ps.length

theorem length_newPartitions (reg : TopicRegistry) (name : Bytes) (n : ℕ) :
    (reg.newPartitions name n).length = n := by
  rw [newPartitions, List.length_map, List.length_range]

theorem Created.complete (h : Created s call s') (hs : s.2.Complete) : s'.2.Complete := by
  intro name ps hps
  have hnew : s'.2.newPartitions name ps.length = s.2.newPartitions name ps.length := by
    rw [h.eq.2]
    rfl
  rw [h.lookup] at hps
  rw [hnew]
  split_ifs at hps with hname
  · obtain rfl := Option.some.inj hps
    have hpos : 0 < call.2.toNat := UInt16.lt_iff_toNat_lt.1 h.1
    rw [length_newPartitions, hname]
    exact ⟨hpos, call.2.toNat_lt.trans (by decide), rfl⟩
  · exact hs name ps hps

/-- The directories for partitions are those of the topics. -/
def OnDisk (s : FileSystem × TopicRegistry) : Prop :=
  ∀ c d, s.2.dataRoot ++ [c, d] ∈ s.1.dirs ↔
    ∃ ps, s.2.topics.lookup c = some ps ∧ ∃ i < ps.length, d = partitionName i

theorem Created.onDisk (h : Created s call s') (hname : Plain call.1) (hs : OnDisk s) :
    OnDisk s' := by
  intro c d
  obtain ⟨hnew, heq⟩ := h.eq
  have hmade : s'.1 = interrupted s.2.dataRoot s.1 call.1 call.2.toNat 0 := by
    rw [heq]
    rfl
  rw [h.root_eq.1, hmade, pair_mem_interrupted hname (Nat.succ_pos _), hs, h.lookup]
  split_ifs with hc
  · subst hc
    have hnone : s.2.topics.lookup call.1 = none := AList.lookup_eq_none.2 hnew
    constructor
    · rintro (⟨ps, hps, -⟩ | ⟨-, i, hi, hd⟩)
      · exact nomatch hps.symm.trans hnone
      · exact ⟨_, rfl, i, by rwa [length_newPartitions], hd⟩
    · rintro ⟨ps, hps, i, hi, hd⟩
      rw [← Option.some.inj hps, length_newPartitions] at hi
      exact .inr ⟨rfl, i, hi, hd⟩
  · exact or_iff_left fun h => hc h.1

/-- What was created is in the registry. -/
theorem Run.mem_topics (hr : Run Created s₀ calls s) (hcall : call ∈ calls) :
    call.1 ∈ s.2.topics := by
  induction hr with
  | nil => exact absurd hcall List.not_mem_nil
  | snoc _ hst ih =>
    rw [← AList.lookup_isSome, hst.lookup]
    split_ifs with hname
    · rfl
    · rcases List.mem_append.1 hcall with hcall | hcall
      · exact AList.lookup_isSome.2 (ih hcall)
      · exact absurd (congrArg Prod.fst (List.mem_singleton.1 hcall)) hname

theorem Run.complete (hr : Run Created s₀ calls s) (h : Fresh s₀) : s.2.Complete := by
  refine hr.invariant (I := fun _ s => s.2.Complete) (fun name ps hps => ?_) fun _ ih hst =>
    hst.complete ih
  rw [h.topics] at hps
  exact nomatch hps

theorem Run.onDisk (hr : Run Created s₀ calls s) (h : Fresh s₀)
    (hplain : ∀ call ∈ calls, Plain call.1) : OnDisk s := by
  induction hr with
  | nil =>
    intro c d
    refine iff_of_false (fun hmem => h.not_mem c ?_) ?_
    · exact FileSystem.mem_of_append (l := [d]) (by rwa [List.append_assoc])
    · rintro ⟨ps, hps, -⟩
      rw [h.topics] at hps
      exact nomatch hps
  | snoc _ hst ih =>
    refine hst.onDisk (hplain _ (List.mem_append_right _ (List.mem_singleton_self _))) (ih ?_)
    exact fun call hcall => hplain call (List.mem_append_left _ hcall)

theorem Run.root_eq (hr : Run Created s₀ calls s) :
    s.2.dataRoot = s₀.2.dataRoot ∧ s.2.storageOptions = s₀.2.storageOptions := by
  refine hr.invariant (I := fun _ s => s.2.dataRoot = s₀.2.dataRoot ∧
    s.2.storageOptions = s₀.2.storageOptions) ⟨rfl, rfl⟩ fun _ ih hst => ?_
  exact ⟨hst.root_eq.1.trans ih.1, hst.root_eq.2.trans ih.2⟩

theorem OnDisk.not_unreadable (hs : OnDisk s) (hc : s.2.Complete) :
    ¬Unreadable s.1 s.2.dataRoot := by
  rintro ⟨name, c, hmem, -, hnone⟩
  obtain ⟨ps, hps, i, hi, rfl⟩ := (hs name c).1 hmem
  rw [partitionIndex_partitionName (hi.trans (hc name ps hps).2.1)] at hnone
  exact nomatch hnone

theorem OnDisk.hasPartition (hs : OnDisk s) (hc : s.2.Complete)
    (hps : s.2.topics.lookup name = some ps) {i : ℕ} (hi : i < ps.length) :
    HasPartition s.1 s.2.dataRoot name i :=
  ⟨partitionName i, (hs name _).2 ⟨ps, hps, i, hi, rfl⟩, List.prefix_append _ _,
    partitionIndex_partitionName (hi.trans (hc name ps hps).2.1)⟩

/-- The numbers of the partitions found are those of the partitions created. -/
theorem OnDisk.mem_partitionDirs_iff (hs : OnDisk s) (hc : s.2.Complete) (hname : Plain name)
    (hps : s.2.topics.lookup name = some ps) {l : s.1.Listing} {c : Bytes} {i : ℕ} :
    c ∈ partitionDirs s.2.dataRoot l name ∧ partitionIndex c = some i ↔
      i < ps.length ∧ c = partitionName i := by
  rw [mem_partitionDirs hname, hs]
  constructor
  · rintro ⟨⟨⟨ps', hps', j, hj, rfl⟩, -⟩, hidx⟩
    obtain rfl := Option.some.inj (hps'.symm.trans hps)
    rw [partitionIndex_partitionName (hj.trans (hc name _ hps).2.1)] at hidx
    obtain rfl := Option.some.inj hidx
    exact ⟨hj, rfl⟩
  · rintro ⟨hi, rfl⟩
    exact ⟨⟨⟨ps, hps, i, hi, rfl⟩, List.prefix_append _ _⟩,
      partitionIndex_partitionName (hi.trans (hc name ps hps).2.1)⟩

theorem OnDisk.recovered (hs : OnDisk s) (hc : s.2.Complete)
    (hopt : s.2.storageOptions = {} ∨ s.2.topics = ∅) (l : s.1.Listing) :
    ∃ reg', s.2.restarted.recoverAll l = some reg' ∧ Recovered s.2 reg' := by
  obtain ⟨reg', hreg', -⟩ := recoverAll_eq_some (hs.not_unreadable hc)
  have hplain : ∀ {name ps}, s.2.topics.lookup name = some ps → Plain name := by
    intro name ps hps
    obtain ⟨c, hmem, -⟩ := hs.hasPartition hc hps (hc name ps hps).1
    exact (plain_of_mem hmem).1
  refine ⟨reg', hreg', fun name => ?_, fun {name ps} hps => ?_⟩
  · rw [← AList.lookup_isSome, ← AList.lookup_isSome]
    by_cases hname : Plain name
    · rcases lookup_recoverAll hreg' hname with ⟨hnone, hno⟩ | ⟨ps', hps', -, i, c, hmem, -⟩
      · refine iff_of_false (by simp [hnone]) fun hsome => ?_
        obtain ⟨ps, hps⟩ := Option.isSome_iff_exists.1 hsome
        exact hno 0 (hs.hasPartition hc hps (hc name ps hps).1)
      · obtain ⟨ps, hps, -⟩ := (hs name c).1 hmem
        rw [hps', hps]
        exact Iff.rfl
    · refine iff_of_false (by simp [lookup_recoverAll_of_not_plain hreg' hname]) fun hsome => ?_
      obtain ⟨ps, hps⟩ := Option.isSome_iff_exists.1 hsome
      exact hname (hplain hps)
  · -- There is a topic, so the options are the default ones, with which partitions are recovered.
    have hopt : s.2.storageOptions = {} := hopt.resolve_right fun hempty => by
      rw [hempty] at hps
      exact nomatch hps
    have hname := hplain hps
    obtain ⟨hpos, hmax, hnew⟩ := hc name ps hps
    rcases lookup_recoverAll hreg' hname with ⟨-, hno⟩ | ⟨ps', hps', hplaced, -⟩
    · exact absurd (hs.hasPartition hc hps hpos) (hno 0)
    · have hnumbers : ∀ i, (∃ c ∈ partitionDirs s.2.dataRoot l name, partitionIndex c = some i) ↔
          i < ps.length := fun i => by
        simp only [hs.mem_partitionDirs_iff hc hname hps, exists_and_left, exists_eq, and_true]
      refine ⟨ps', hps', ((hplaced.complete_iff _).2 hnumbers).1, fun i hi => ?_⟩
      refine ⟨resolve (partitionDir s.2.dataRoot name i), ?_, ?_⟩
      · rw [hnew, newPartitions, List.getElem?_map, List.getElem?_range hi, Option.map_some]
      · -- The directory with the number is the one that was made for it.
        obtain ⟨c, hc', hidx⟩ := (hnumbers i).2 hi
        obtain ⟨p, hp⟩ := hplaced.exists_some hc' hidx
        obtain ⟨c', hc'', hidx', rfl⟩ := hplaced.found_of_some hp
        obtain rfl := ((hs.mem_partitionDirs_iff hc hname hps).1 ⟨hc'', hidx'⟩).2
        rw [hp, hopt]
        rfl

section

variable {reg reg' : TopicRegistry} {fs : FileSystem} {l : fs.Listing}
  (hrec : Recovered reg reg') (hreg' : reg.restarted.recoverAll l = some reg')
include hrec hreg'

/-- Only topics with the name of a directory are recovered. -/
theorem Recovered.plain (hname : name ∈ reg.topics) : Plain name := by
  by_contra hplain
  have hnone := lookup_recoverAll_of_not_plain hreg' hplain
  exact AList.lookup_eq_none.1 hnone ((hrec.mem_iff name).2 hname)

/-- They have the default options. -/
theorem Recovered.storageOptions_eq (hc : reg.Complete) (hname : name ∈ reg.topics) :
    reg.storageOptions = {} := by
  obtain ⟨ps, hps⟩ := Option.isSome_iff_exists.1 (AList.lookup_isSome.2 hname)
  obtain ⟨ps', hps', -, hpartition⟩ := hrec.partitions hps
  obtain ⟨dir, -, hdir⟩ := hpartition 0 (hc name ps hps).1
  rcases lookup_recoverAll hreg' (hrec.plain hreg' hname) with ⟨hnone, -⟩ | ⟨ps₁, hps₁, hplaced, -⟩
  · exact nomatch hnone.symm.trans hps'
  · obtain rfl := Option.some.inj (hps'.symm.trans hps₁)
    obtain ⟨c, -, -, hp⟩ := hplaced.found_of_some hdir
    exact congrArg Partition.options hp

end

/-- Registries are recovered exactly if they have the default options, and all topics have the name
    of a directory. -/
theorem recovered_iff (h : Fresh s₀) (hr : Run Created s₀ calls s) (l : s.1.Listing) :
    (∃ reg', s.2.restarted.recoverAll l = some reg' ∧ Recovered s.2 reg') ↔
      calls = [] ∨ s₀.2.storageOptions = {} ∧ ∀ call ∈ calls, Plain call.1 := by
  have hc := Run.complete hr h
  rw [← (Run.root_eq hr).2]
  constructor
  · rintro ⟨reg', hreg', hrec⟩
    by_cases hcalls : calls = []
    · exact .inl hcalls
    · obtain ⟨call, hcall⟩ := List.exists_mem_of_ne_nil _ hcalls
      refine .inr ⟨hrec.storageOptions_eq hreg' hc (Run.mem_topics hr hcall), fun call hcall => ?_⟩
      exact hrec.plain hreg' (Run.mem_topics hr hcall)
  · rintro (rfl | ⟨hopt, hplain⟩)
    · have hs : s = s₀ := hr.eq_of_nil
      refine (Run.onDisk hr h fun _ hcall => absurd hcall List.not_mem_nil).recovered hc (.inr ?_) l
      rw [hs, h.topics]
    · exact (Run.onDisk hr h hplain).recovered hc (.inl hopt) l

end

section

/-- One topic is created on an empty disk. -/
def oneTopic (storageOptions : StorageOptions) (name : Bytes) : FileSystem × TopicRegistry :=
  ((freshRegistry storageOptions).createTopic emptyDisk name 2).2

theorem fresh_emptyDisk (storageOptions : StorageOptions) :
    Fresh (emptyDisk, freshRegistry storageOptions) :=
  ⟨rfl, fun _ h => nomatch Finset.mem_singleton.1 h⟩

theorem run_oneTopic (storageOptions : StorageOptions) (name : Bytes) :
    Run Created (emptyDisk, freshRegistry storageOptions) [(name, 2)]
      (oneTopic storageOptions name) := by
  have hpos : (0 : UInt16) < 2 := by decide
  have hnew : name ∉ (freshRegistry storageOptions).topics := AList.notMem_empty name
  exact .single ⟨hpos, by rw [oneTopic, createTopic, if_neg hnew]⟩

theorem recovered_oneTopic : ∃ (l : (oneTopic {} [97]).1.Listing) (reg' : TopicRegistry),
    Fresh (emptyDisk, freshRegistry {}) ∧
      Run Created (emptyDisk, freshRegistry {}) [([97], 2)] (oneTopic {} [97]) ∧
        (oneTopic {} [97]).2.restarted.recoverAll l = some reg' ∧
          Recovered (oneTopic {} [97]).2 reg' := by
  obtain ⟨l⟩ := FileSystem.nonempty_listing (oneTopic {} [97]).1
  have hplain : ∀ call ∈ [(([97], 2) : Bytes × UInt16)], Plain call.1 := by decide
  obtain ⟨reg', hreg'⟩ := (recovered_iff (fresh_emptyDisk {}) (run_oneTopic {} [97]) l).2
    (.inr ⟨rfl, hplain⟩)
  exact ⟨l, reg', fresh_emptyDisk {}, run_oneTopic {} [97], hreg'⟩

/-- A topic is lost if there is a slash in its name, and other options are not kept. -/
theorem not_recovered :
    (¬∀ (s₀ s : FileSystem × TopicRegistry) (calls : List (Bytes × UInt16)) (l : s.1.Listing),
      Fresh s₀ → s₀.2.storageOptions = {} →
        (∀ call ∈ calls, call.1 ≠ [] ∧ call.1.length ≤ 255) → Run Created s₀ calls s →
          ∃ reg', s.2.restarted.recoverAll l = some reg' ∧ Recovered s.2 reg') ∧
    ¬∀ (s₀ s : FileSystem × TopicRegistry) (calls : List (Bytes × UInt16)) (l : s.1.Listing),
      Fresh s₀ → (∀ call ∈ calls, Plain call.1 ∧ call.1.length ≤ 255) → Run Created s₀ calls s →
        ∃ reg', s.2.restarted.recoverAll l = some reg' ∧ Recovered s.2 reg' := by
  refine ⟨fun hall => ?_, fun hall => ?_⟩
  · have hr := run_oneTopic {} [97, 47, 98]
    obtain ⟨l⟩ := FileSystem.nonempty_listing (oneTopic {} [97, 47, 98]).1
    obtain ⟨reg', hreg', hrec⟩ := hall _ _ _ l (fresh_emptyDisk {}) rfl (by decide) hr
    have hplain := hrec.plain hreg' (Run.mem_topics hr (List.mem_singleton_self _))
    exact absurd hplain (by decide)
  · have hr := run_oneTopic { batchWaitUs := 0 } [97]
    obtain ⟨l⟩ := FileSystem.nonempty_listing (oneTopic { batchWaitUs := 0 } [97]).1
    obtain ⟨reg', hreg', hrec⟩ := hall _ _ _ l (fresh_emptyDisk _) (by decide) hr
    have hopt := hrec.storageOptions_eq hreg' (Run.complete hr (fresh_emptyDisk _))
      (Run.mem_topics hr (List.mem_singleton_self _))
    exact absurd (congrArg StorageOptions.batchWaitUs hopt) (by decide)

end

end Fell.Broker.TopicRegistry
