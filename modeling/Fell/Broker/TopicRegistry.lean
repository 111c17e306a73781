import Fell.Broker.RequestHandler
import Fell.Lib.Paths

/-!
# The registry of topics

`broker/topic_registry.cpp`: topics and their partitions in memory, and the directories they are
kept in. A topic is a directory in the data root, with a directory `partition-N` for each of its
partitions. `create_topic` makes the directories, and `recover_all` finds the topics again, from
the directories that are there. Neither looks at the names: they are whatever clients send.

A partition is the directory it is opened on and its options (what is in the directory is the
matter of `Fell.Storage`). The data root is given by the directory that its path leads to, and the
file system is that of `Fell.Lib.Paths`.

* `names_partitionDir`: the names in the path of a partition;
* `Placed.complete_iff`: all places of the vector are taken, if the directories found have the
  numbers up to its length;
* `recoverAll_eq_none`: a directory `partition-N` whose number cannot be read ends in an exception;
* `lookup_recoverAll`: otherwise, what is found for a topic;
* `Backs.handleCreateTopic`: the request handler, which knows no more of the registry than the
  number of partitions and the null pointers among them, creates topics as the registry does.
-/

namespace Fell.Broker

open Platform Replication Positional Paths
open Storage (StorageOptions)

/-! ## Numbers in names -/

/-- `isspace`. -/
def isSpace (b : UInt8) : Bool := b = 32 ∨ 9 ≤ b ∧ b ≤ 13

/-- `isdigit`. -/
def isDigit (b : UInt8) : Bool := 48 ≤ b ∧ b ≤ 57

/-- `std::stoull`. It throws an exception if there is no number, or one that is too large. -/
def stoull (s : Bytes) : Option ℕ :=
  let signed := s.dropWhile isSpace
  let negative := signed.head? = some 45
  let unsigned := if negative ∨ signed.head? = some 43 then signed.tail else signed
  let digits := unsigned.takeWhile isDigit
  let n := value 10 (digits.map fun b => b.toNat - 48)
  if digits = [] ∨ 2 ^ 64 ≤ n then none
  else some (if negative then (2 ^ 64 - n) % 2 ^ 64 else n)

/-- Reading a number gives back what was written. -/
theorem stoull_toDecimal {n : ℕ} (hn : n < 2 ^ 64) : stoull (toDecimal n) = some n := by
  have hge : ∀ b ∈ toDecimal n, 48 ≤ b := fun b hb => UInt8.le_iff_toNat_le.2 (mem_toDecimal hb).1
  have hdigit : ∀ b ∈ toDecimal n, isDigit b = true := fun b hb =>
    decide_eq_true ⟨hge b hb, UInt8.le_iff_toNat_le.2 (Nat.le_of_lt_succ (mem_toDecimal hb).2)⟩
  -- The first character is neither a space nor a sign.
  have hspace : (toDecimal n).dropWhile isSpace = toDecimal n := by
    refine List.dropWhile_eq_self_iff.2 fun hpos h => ?_
    have hfirst := hge _ (List.getElem_mem hpos)
    rcases of_decide_eq_true h with h32 | ⟨-, h13⟩
    · rw [h32] at hfirst
      exact absurd hfirst (by decide)
    · exact absurd (UInt8.le_trans hfirst h13) (by decide)
  have hsign : ∀ b : UInt8, ¬48 ≤ b → (toDecimal n).head? ≠ some b := fun b hb h =>
    hb (hge b (List.mem_of_mem_head? h))
  have hvalue : value 10 ((toDecimal n).map fun b => b.toNat - 48) = n := by
    rw [map_toDecimal, value_numeral]
  rw [stoull, hspace, if_neg (not_or.2 ⟨hsign 45 (by decide), hsign 43 (by decide)⟩),
    List.takeWhile_eq_self_iff.2 hdigit, hvalue,
    if_neg (not_or.2 ⟨toDecimal_ne_nil n, Nat.not_le.2 hn⟩), if_neg (hsign 45 (by decide))]

/-! ## Names and paths -/

/-- `"partition-"`. -/
def partitionTag : Bytes := [112, 97, 114, 116, 105, 116, 105, 111, 110, 45]

/-- The name of the directory of a partition. -/
def partitionName (i : ℕ) : Bytes := partitionTag ++ toDecimal i

/-- The largest vector of partitions there can be. -/
def maxSize : ℕ := 2 ^ 60 - 1

/-- The index of the partition with this directory. It is too large if the vector cannot be
    resized for it. (For `2 ^ 64 - 1` the new size wraps to `0`, and the access that follows is out
    of bounds: that is no index either.) -/
def partitionIndex (c : Bytes) : Option ℕ := (stoull (c.drop 10)).filter (· < maxSize)

/-- `data_root_ / name`. -/
def topicDir (root : Dir) (name : Bytes) : Bytes := join (render root) name

/-- `topic_dir / ("partition-" + std::to_string(i))`. -/
def partitionDir (root : Dir) (name : Bytes) (i : ℕ) : Bytes :=
  join (topicDir root name) (partitionName i)

theorem plain_partitionName (i : ℕ) : Plain (partitionName i) := by
  have hdigit : ∀ b : UInt8, b.toNat < 48 → b ∉ toDecimal i := fun b hb hmem =>
    absurd (mem_toDecimal hmem).1 (Nat.not_le.2 hb)
  refine ⟨nofun, nofun, nofun, fun h => ?_, fun h => ?_⟩
  · exact (List.mem_append.1 h).elim (by decide) (hdigit _ (by decide))
  · exact (List.mem_append.1 h).elim (by decide) (hdigit _ (by decide))

theorem partitionIndex_partitionName {i : ℕ} (hi : i < maxSize) :
    partitionIndex (partitionName i) = some i := by
  have hlt : i < 2 ^ 64 := hi.trans (by decide)
  have hdrop : (partitionName i).drop 10 = toDecimal i := rfl
  rw [partitionIndex, hdrop, stoull_toDecimal hlt]
  exact if_pos (decide_eq_true hi)

section Paths

variable {root : Dir} (hroot : ∀ c ∈ root, Plain c) {name : Bytes}
include hroot

/-- A relative name is looked up in the data root, and an absolute one is not. -/
theorem names_topicDir :
    names (topicDir root name) = if IsAbsolute name then names name else root ++ names name := by
  split_ifs with habs
  · rw [topicDir, join_of_isAbsolute habs]
  · rw [topicDir, names_join (not_mem_render hroot) habs, names_render hroot]

/-- The directory of a partition is in that of its topic, unless the name ends at a NUL byte. -/
theorem names_partitionDir (i : ℕ) :
    names (partitionDir root name i) =
      names (topicDir root name) ++ if 0 ∈ name then [] else [partitionName i] := by
  have hplain := plain_partitionName i
  have hrel := not_isAbsolute_of_plain hplain
  have hmem : 0 ∈ topicDir root name ↔ 0 ∈ name := mem_join_iff (not_mem_render hroot)
  split_ifs with h0
  · rw [partitionDir, names_join_of_mem (hmem.2 h0) hrel, List.append_nil]
  · rw [partitionDir, names_join (mt hmem.1 h0) hrel, names_of_plain hplain]

variable (hname : Plain name)
include hname

theorem names_topicDir_of_plain : names (topicDir root name) = root ++ [name] := by
  rw [names_topicDir hroot, if_neg (not_isAbsolute_of_plain hname), names_of_plain hname]

theorem plain_of_mem_topicDir {c : Bytes} (hc : c ∈ root ++ [name]) : Plain c := by
  rcases List.mem_append.1 hc with hc | hc
  · exact hroot c hc
  · exact List.mem_singleton.1 hc ▸ hname

theorem resolve_topicDir : resolve (topicDir root name) = root ++ [name] := by
  rw [resolve, names_topicDir_of_plain hroot hname,
    foldl_follow_of_plain fun c => plain_of_mem_topicDir hroot hname, List.nil_append]

theorem names_partitionDir_of_plain (i : ℕ) :
    names (partitionDir root name i) = root ++ [name, partitionName i] := by
  rw [names_partitionDir hroot, names_topicDir_of_plain hroot hname, if_neg hname.not_mem_nul,
    List.append_assoc, List.singleton_append]

theorem plain_of_mem_partitionDir {i : ℕ} {c : Bytes}
    (hc : c ∈ root ++ [name, partitionName i]) : Plain c := by
  rcases List.mem_append.1 hc with hc | hc
  · exact hroot c hc
  · rcases List.mem_cons.1 hc with rfl | hc
    · exact hname
    · exact List.mem_singleton.1 hc ▸ plain_partitionName i

end Paths

/-! ## The registry -/

/-- `Partition`. -/
structure Partition where
  dir : Dir
  options : StorageOptions
  deriving DecidableEq

/-- `TopicRegistry`. -/
structure TopicRegistry where
  dataRoot : Dir
  plain_dataRoot : ∀ c ∈ dataRoot, Plain c
  storageOptions : StorageOptions
  /-- The partitions of the topics. There are null pointers among them if directories were
      missing when they were recovered. -/
  topics : AList fun _ : Bytes => List (Option Partition)

namespace TopicRegistry

variable (reg : TopicRegistry)

/-- The directories that `create_topic` makes for the first partitions. -/
def makePartitions (root : Dir) (fs : FileSystem) (name : Bytes) (n : ℕ) : FileSystem :=
  (List.range n).foldl (fun fs i => fs.createDirectories (partitionDir root name i)) fs

/-- The partitions of a new topic. -/
def newPartitions (name : Bytes) (n : ℕ) : List (Option Partition) :=
  (List.range n).map fun i =>
    some ⟨resolve (partitionDir reg.dataRoot name i), reg.storageOptions⟩

/-- `create_topic`. -/
def createTopic (fs : FileSystem) (name : Bytes) (numPartitions : UInt16) :
    Bool × FileSystem × TopicRegistry :=
  if name ∈ reg.topics then (false, fs, reg)
  else
    (true, makePartitions reg.dataRoot fs name numPartitions.toNat,
      { reg with topics := reg.topics.insert name (reg.newPartitions name numPartitions.toNat) })

/-- The directories found for the partitions of a topic. -/
def partitionDirs {fs : FileSystem} (root : Dir) (l : fs.Listing) (name : Bytes) : List Bytes :=
  (l.entries (resolve (topicDir root name))).filter (partitionTag <+: ·)

/-- A partition that was found is put in its place. It is opened with the default options. -/
def place (root : Dir) (name : Bytes) (partitions : List (Option Partition)) (c : Bytes) :
    Option (List (Option Partition)) :=
  (partitionIndex c).map fun idx =>
    let resized :=
      if partitions.length ≤ idx then
        partitions ++ List.replicate (idx + 1 - partitions.length) none
      else partitions
    resized.set idx (some ⟨resolve (join (topicDir root name) c), {}⟩)

/-- `recover_all`, for a directory in the data root. -/
def recoverTopic {fs : FileSystem} (root : Dir) (l : fs.Listing)
    (topics : AList fun _ : Bytes => List (Option Partition)) (name : Bytes) :
    Option (AList fun _ : Bytes => List (Option Partition)) :=
  if partitionDirs root l name = [] then some topics
  else ((partitionDirs root l name).foldlM (place root name) []).map (topics.insert name)

/-- `recover_all`. There is no result if it throws an exception. -/
def recoverAll {fs : FileSystem} (l : fs.Listing) : Option TopicRegistry :=
  if reg.dataRoot ∈ fs.dirs then
    ((l.entries reg.dataRoot).foldlM (recoverTopic reg.dataRoot l) reg.topics).map fun topics =>
      { reg with topics }
  else some reg

/-! ## What is recovered -/

section

variable {root : Dir} {name c : Bytes} {l : List Bytes} {ps ps' : List (Option Partition)} {i : ℕ}

/-- The partition that is opened on a directory found. -/
abbrev found (root : Dir) (name c : Bytes) : Partition :=
  ⟨resolve (join (topicDir root name) c), {}⟩

theorem place_eq (root : Dir) (name : Bytes) (ps : List (Option Partition)) {idx : ℕ}
    (hidx : partitionIndex c = some idx) :
    ∃ ps', place root name ps c = some ps' ∧ ps'.length = max ps.length (idx + 1) ∧
      ps'[idx]? = some (some (found root name c)) ∧
      ∀ i ≠ idx, ps'[i]? = if i < idx ∧ ps.length ≤ i then some none else ps[i]? := by
  rw [place, hidx, Option.map_some]
  dsimp only
  split_ifs with h
  · refine ⟨_, rfl, ?_, ?_, fun i hi => ?_⟩
    · rw [List.length_set, List.length_append, List.length_replicate, max_eq_right (by omega)]
      omega
    · rw [List.getElem?_set_self (by rw [List.length_append, List.length_replicate]; omega)]
    · rw [List.getElem?_set_ne (Ne.symm hi), List.getElem?_append]
      split_ifs with h₁ h₂ h₂
      · omega
      · rfl
      · rw [List.getElem?_replicate, if_pos (by omega)]
      · rw [List.getElem?_replicate, if_neg (by omega), List.getElem?_eq_none (by omega)]
  · refine ⟨_, rfl, ?_, ?_, fun i hi => ?_⟩
    · rw [List.length_set, max_eq_left (by omega)]
    · rw [List.getElem?_set_self (by omega)]
    · rw [List.getElem?_set_ne (Ne.symm hi), if_neg (by omega)]

/-- The partitions that were found are in their places, and the last place is taken. -/
structure Placed (root : Dir) (name : Bytes) (l : List Bytes) (ps : List (Option Partition)) :
    Prop where
  found_of_some : ∀ {i p}, ps[i]? = some (some p) →
    ∃ c ∈ l, partitionIndex c = some i ∧ p = found root name c
  exists_some : ∀ {c i}, c ∈ l → partitionIndex c = some i → ∃ p, ps[i]? = some (some p)
  last : ∀ {i}, ps.length = i + 1 → ∃ p, ps[i]? = some (some p)

theorem placed_nil : Placed root name [] [] := ⟨nofun, nofun, nofun⟩

theorem Placed.place (h : Placed root name l ps) {idx : ℕ} (hidx : partitionIndex c = some idx) :
    ∃ ps', TopicRegistry.place root name ps c = some ps' ∧ Placed root name (l ++ [c]) ps' := by
  obtain ⟨ps', hps', hlen, hself, hne⟩ := place_eq root name ps hidx
  -- At the index is the new partition, and elsewhere what was there, or a null pointer.
  refine ⟨ps', hps', fun {i p} hp => ?_, fun {c' i} hc' hi => ?_, fun {i} hi => ?_⟩
  · by_cases heq : i = idx
    · subst heq
      rw [hself] at hp
      obtain rfl := Option.some.inj (Option.some.inj hp)
      exact ⟨c, List.mem_append_right _ (List.mem_singleton_self c), hidx, rfl⟩
    · rw [hne i heq] at hp
      split_ifs at hp
      · exact nomatch hp
      · obtain ⟨c', hc', hprop⟩ := h.found_of_some hp
        exact ⟨c', List.mem_append_left _ hc', hprop⟩
  · by_cases heq : i = idx
    · exact ⟨_, heq ▸ hself⟩
    · rcases List.mem_append.1 hc' with hc' | hc'
      · obtain ⟨p, hp⟩ := h.exists_some hc' hi
        have hlt := (List.getElem?_eq_some_iff.1 hp).1
        exact ⟨p, by rw [hne i heq, if_neg (by omega), hp]⟩
      · rw [List.mem_singleton.1 hc', hidx] at hi
        exact absurd (Option.some.inj hi).symm heq
  · by_cases heq : i = idx
    · exact ⟨_, heq ▸ hself⟩
    · obtain ⟨p, hp⟩ := h.last (i := i) (by omega)
      exact ⟨p, by rw [hne i heq, if_neg (by omega), hp]⟩

/-- All partitions found are put in their places, if they have numbers. -/
theorem placed_foldlM (root : Dir) (name : Bytes) (hl : ∀ c ∈ l, partitionIndex c ≠ none) :
    ∃ ps, l.foldlM (TopicRegistry.place root name) [] = some ps ∧ Placed root name l ps := by
  induction l using List.reverseRecOn with
  | nil => exact ⟨[], rfl, placed_nil⟩
  | append_singleton l c ih =>
    obtain ⟨ps, hps, hplaced⟩ := ih fun c' hc' => hl c' (List.mem_append_left _ hc')
    obtain ⟨idx, hidx⟩ := Option.ne_none_iff_exists'.1
      (hl c (List.mem_append_right _ (List.mem_singleton_self c)))
    obtain ⟨ps', hps', hplaced'⟩ := hplaced.place hidx
    refine ⟨ps', ?_, hplaced'⟩
    rw [List.foldlM_append, hps]
    simpa using hps'

/-- A directory without a number ends in an exception. -/
theorem foldlM_place_eq_none (hc : c ∈ l) (hnone : partitionIndex c = none) :
    l.foldlM (TopicRegistry.place root name) ps = none := by
  induction l generalizing ps with
  | nil => exact absurd hc List.not_mem_nil
  | cons c' l ih =>
    rw [List.foldlM_cons]
    rcases List.mem_cons.1 hc with rfl | hc
    · rw [TopicRegistry.place, hnone]
      rfl
    · cases TopicRegistry.place root name ps c' with
      | none => rfl
      | some ps' => exact ih hc

/-- The partitions are complete, if those found have the numbers up to theirs. -/
theorem Placed.complete_iff (h : Placed root name l ps) (n : ℕ) :
    ps.length = n ∧ none ∉ ps ↔ ∀ i, (∃ c ∈ l, partitionIndex c = some i) ↔ i < n := by
  constructor
  · rintro ⟨rfl, hnone⟩ i
    constructor
    · rintro ⟨c, hc, hi⟩
      obtain ⟨p, hp⟩ := h.exists_some hc hi
      exact (List.getElem?_eq_some_iff.1 hp).1
    · intro hi
      obtain ⟨p, hp⟩ := Option.ne_none_iff_exists'.1 fun heq => hnone (heq ▸ List.getElem_mem hi)
      obtain ⟨c, hc, hidx, -⟩ := h.found_of_some (List.getElem?_eq_some_iff.2 ⟨hi, hp⟩)
      exact ⟨c, hc, hidx⟩
  · intro hall
    -- The last place is taken, so its number is one of those found.
    have hle : ps.length ≤ n := by
      by_contra hlt
      obtain ⟨p, hp⟩ := h.last (i := ps.length - 1) (by omega)
      obtain ⟨c, hc, hidx, -⟩ := h.found_of_some hp
      exact absurd ((hall _).1 ⟨c, hc, hidx⟩) (by omega)
    have hsome : ∀ i < n, ∃ p, ps[i]? = some (some p) := fun i hi => by
      obtain ⟨c, hc, hidx⟩ := (hall i).2 hi
      exact h.exists_some hc hidx
    refine ⟨le_antisymm hle (Nat.le_of_not_lt fun hlt => ?_), fun hmem => ?_⟩
    · obtain ⟨p, hp⟩ := hsome _ hlt
      exact absurd (List.getElem?_eq_some_iff.1 hp).1 (lt_irrefl _)
    · obtain ⟨i, hi⟩ := List.mem_iff_getElem?.1 hmem
      obtain ⟨p, hp⟩ := hsome i ((List.getElem?_eq_some_iff.1 hi).1.trans_le hle)
      exact nomatch hp.symm.trans hi

end

section

variable {fs : FileSystem} {l : fs.Listing} {root : Dir} {name c : Bytes}
  {topics topics' : AList fun _ : Bytes => List (Option Partition)} {es : List Bytes}

/-- The topic is entered, if there are directories for its partitions. -/
theorem lookup_recoverTopic (h : recoverTopic root l topics c = some topics') (name : Bytes) :
    topics'.lookup name =
      if name = c ∧ partitionDirs root l name ≠ [] then
        (partitionDirs root l name).foldlM (place root name) []
      else topics.lookup name := by
  rw [recoverTopic] at h
  split_ifs at h with hdirs
  · rw [← Option.some.inj h, if_neg fun hc => hc.2 (hc.1 ▸ hdirs)]
  · obtain ⟨ps, hps, rfl⟩ := Option.map_eq_some_iff.1 h
    split_ifs with hc
    · rw [hc.1, AList.lookup_insert, hps]
    · exact AList.lookup_insert_ne fun heq => hc ⟨heq, heq ▸ hdirs⟩

theorem lookup_foldlM_recoverTopic (h : es.foldlM (recoverTopic root l) topics = some topics')
    (name : Bytes) :
    topics'.lookup name =
      if name ∈ es ∧ partitionDirs root l name ≠ [] then
        (partitionDirs root l name).foldlM (place root name) []
      else topics.lookup name := by
  induction es generalizing topics with
  | nil =>
    rw [← Option.some.inj h, if_neg fun hc => List.not_mem_nil hc.1]
  | cons c es ih =>
    rw [List.foldlM_cons, Option.bind_eq_bind, Option.bind_eq_some_iff] at h
    obtain ⟨topics₁, h₁, h⟩ := h
    rw [ih h, lookup_recoverTopic h₁]
    by_cases hname : name = c
    · subst hname
      by_cases hdirs : partitionDirs root l name = []
      · rw [if_neg fun hc => hc.2 hdirs, if_neg fun hc => hc.2 hdirs, if_neg fun hc => hc.2 hdirs]
      · rw [if_pos (c := name ∈ name :: es ∧ _) ⟨List.mem_cons_self, hdirs⟩,
          if_pos (c := name = name ∧ _) ⟨rfl, hdirs⟩, ite_self]
    · simp only [List.mem_cons, hname, false_or, false_and, if_false]

/-- All directories of partitions have numbers. -/
theorem exists_foldlM_recoverTopic (topics : AList fun _ : Bytes => List (Option Partition))
    (h : ∀ name ∈ es, ∀ c ∈ partitionDirs root l name, partitionIndex c ≠ none) :
    ∃ topics', es.foldlM (recoverTopic root l) topics = some topics' := by
  induction es generalizing topics with
  | nil => exact ⟨topics, rfl⟩
  | cons name es ih =>
    obtain ⟨topics₁, h₁⟩ : ∃ topics₁, recoverTopic root l topics name = some topics₁ := by
      rw [recoverTopic]
      split_ifs
      · exact ⟨topics, rfl⟩
      · obtain ⟨ps, hps, -⟩ := placed_foldlM root name (h name List.mem_cons_self)
        exact ⟨_, Option.map_eq_some_iff.2 ⟨ps, hps, rfl⟩⟩
    obtain ⟨topics', h'⟩ := ih topics₁ fun name' hname' =>
      h name' (List.mem_cons_of_mem _ hname')
    exact ⟨topics', by rw [List.foldlM_cons, h₁]; exact h'⟩

/-- One of them has none. -/
theorem foldlM_recoverTopic_eq_none (hname : name ∈ es) (hc : c ∈ partitionDirs root l name)
    (hnone : partitionIndex c = none) : es.foldlM (recoverTopic root l) topics = none := by
  induction es generalizing topics with
  | nil => exact absurd hname List.not_mem_nil
  | cons name' es ih =>
    rw [List.foldlM_cons]
    rcases List.mem_cons.1 hname with rfl | hname
    · rw [recoverTopic, if_neg (List.ne_nil_of_mem hc), foldlM_place_eq_none hc hnone]
      rfl
    · cases recoverTopic root l topics name' with
      | none => rfl
      | some topics₁ => exact ih hname

end

/-! ## What is on disk -/

/-- There is a directory for a partition with this number. -/
def HasPartition (fs : FileSystem) (root : Dir) (name : Bytes) (i : ℕ) : Prop :=
  ∃ c, root ++ [name, c] ∈ fs.dirs ∧ partitionTag <+: c ∧ partitionIndex c = some i

/-- There is a directory for a partition without a number. -/
def Unreadable (fs : FileSystem) (root : Dir) : Prop :=
  ∃ name c, root ++ [name, c] ∈ fs.dirs ∧ partitionTag <+: c ∧ partitionIndex c = none

/-- A registry with the same data root and options that has just been made. -/
def restarted : TopicRegistry := { reg with topics := ∅ }

section

variable {reg} {fs : FileSystem} {l : fs.Listing} {name c : Bytes}

theorem plain_of_mem {root : Dir} (h : root ++ [name, c] ∈ fs.dirs) : Plain name ∧ Plain c := by
  have hc := fs.parent_mem (d := root ++ [name]) (c := c) (by rwa [List.append_assoc])
  exact ⟨(fs.parent_mem hc.1).2, hc.2⟩

theorem mem_partitionDirs (hname : Plain name) :
    c ∈ partitionDirs reg.dataRoot l name ↔
      reg.dataRoot ++ [name, c] ∈ fs.dirs ∧ partitionTag <+: c := by
  rw [partitionDirs, resolve_topicDir reg.plain_dataRoot hname, List.mem_filter, l.mem_entries,
    List.append_assoc, List.singleton_append, decide_eq_true_iff]

theorem mem_entries_of_partitionDirs (hname : Plain name)
    (h : partitionDirs reg.dataRoot l name ≠ []) : name ∈ l.entries reg.dataRoot := by
  obtain ⟨c, hc⟩ := List.exists_mem_of_ne_nil _ h
  have hmem := ((mem_partitionDirs hname).1 hc).1
  exact l.mem_entries.2 (fs.mem_of_append (l := [c]) (by rwa [List.append_assoc]))

/-- If a directory has no number, nothing is recovered. -/
theorem recoverAll_eq_none (h : Unreadable fs reg.dataRoot) : reg.recoverAll l = none := by
  obtain ⟨name, c, hmem, htag, hnone⟩ := h
  have hname := (plain_of_mem hmem).1
  have hc : c ∈ partitionDirs reg.dataRoot l name := (mem_partitionDirs hname).2 ⟨hmem, htag⟩
  have hentry := mem_entries_of_partitionDirs hname (List.ne_nil_of_mem hc)
  rw [recoverAll, if_pos (fs.mem_of_append hmem), foldlM_recoverTopic_eq_none hentry hc hnone,
    Option.map_none]

/-- Otherwise the topics that have directories for partitions are. -/
theorem recoverAll_eq_some (h : ¬Unreadable fs reg.dataRoot) :
    ∃ reg', reg.restarted.recoverAll l = some reg' ∧
      ∀ name, reg'.topics.lookup name =
        if Plain name ∧ partitionDirs reg.dataRoot l name ≠ [] then
          (partitionDirs reg.dataRoot l name).foldlM (place reg.dataRoot name) []
        else none := by
  rw [recoverAll]
  split_ifs with hroot
  · have hread : ∀ name ∈ l.entries reg.dataRoot, ∀ c ∈ partitionDirs reg.dataRoot l name,
        partitionIndex c ≠ none := by
      intro name hentry c hc hnone
      have hname := (fs.parent_mem (l.mem_entries.1 hentry)).2
      obtain ⟨hmem, htag⟩ := (mem_partitionDirs hname).1 hc
      exact h ⟨name, c, hmem, htag, hnone⟩
    obtain ⟨topics, htopics⟩ := exists_foldlM_recoverTopic ∅ hread
    refine ⟨_, Option.map_eq_some_iff.2 ⟨topics, htopics, rfl⟩, fun name => ?_⟩
    rw [lookup_foldlM_recoverTopic htopics]
    refine if_congr ⟨fun hc => ⟨?_, hc.2⟩, fun hc => ⟨?_, hc.2⟩⟩ rfl rfl
    · exact (fs.parent_mem (l.mem_entries.1 hc.1)).2
    · exact mem_entries_of_partitionDirs hc.1 hc.2
  · refine ⟨_, rfl, fun name => (if_neg fun hc => ?_).symm⟩
    obtain ⟨c, hc'⟩ := List.exists_mem_of_ne_nil _ hc.2
    exact hroot (fs.mem_of_append ((mem_partitionDirs hc.1).1 hc').1)

variable {reg' : TopicRegistry} (h : reg.restarted.recoverAll l = some reg')
include h

theorem not_unreadable_of_recoverAll : ¬Unreadable fs reg.dataRoot := by
  intro hread
  have hnone : reg.restarted.recoverAll l = none := recoverAll_eq_none hread
  exact nomatch hnone.symm.trans h

theorem lookup_eq_of_recoverAll (name : Bytes) :
    reg'.topics.lookup name =
      if Plain name ∧ partitionDirs reg.dataRoot l name ≠ [] then
        (partitionDirs reg.dataRoot l name).foldlM (place reg.dataRoot name) []
      else none := by
  obtain ⟨reg₁, hreg₁, hlookup⟩ := recoverAll_eq_some (not_unreadable_of_recoverAll h)
  obtain rfl := Option.some.inj (hreg₁.symm.trans h)
  exact hlookup name

/-- A topic whose name is not the name of a directory is not recovered. -/
theorem lookup_recoverAll_of_not_plain (hname : ¬Plain name) : reg'.topics.lookup name = none := by
  rw [lookup_eq_of_recoverAll h, if_neg fun hc => hname hc.1]

/-- What is found for a topic. -/
theorem lookup_recoverAll (hname : Plain name) :
    (reg'.topics.lookup name = none ∧ ∀ i, ¬HasPartition fs reg.dataRoot name i) ∨
      ∃ ps, reg'.topics.lookup name = some ps ∧
        Placed reg.dataRoot name (partitionDirs reg.dataRoot l name) ps ∧
          ∃ i, HasPartition fs reg.dataRoot name i := by
  have hread : ∀ c ∈ partitionDirs reg.dataRoot l name, partitionIndex c ≠ none := by
    intro c hc hnone
    obtain ⟨hmem, htag⟩ := (mem_partitionDirs hname).1 hc
    exact not_unreadable_of_recoverAll h ⟨name, c, hmem, htag, hnone⟩
  rw [lookup_eq_of_recoverAll h]
  split_ifs with hdirs
  · obtain ⟨ps, hps, hplaced⟩ := placed_foldlM reg.dataRoot name hread
    obtain ⟨c, hc⟩ := List.exists_mem_of_ne_nil _ hdirs.2
    obtain ⟨i, hi⟩ := Option.ne_none_iff_exists'.1 (hread c hc)
    obtain ⟨hmem, htag⟩ := (mem_partitionDirs hname).1 hc
    exact .inr ⟨ps, hps, hplaced, i, c, hmem, htag, hi⟩
  · refine .inl ⟨rfl, fun i ⟨c, hmem, htag, _⟩ => hdirs ⟨hname, ?_⟩⟩
    exact List.ne_nil_of_mem ((mem_partitionDirs hname).2 ⟨hmem, htag⟩)

end

/-! ## The registry of a request handler -/

/-- `num_partitions`. -/
def numPartitions (topic : Bytes) : UInt16 :=
  match reg.topics.lookup topic with
  | none => 0
  | some ps => UInt16.ofNat ps.length

/-- `get_partition`. -/
def getPartition (topic : Bytes) (partition : UInt16) : Option Partition :=
  match reg.topics.lookup topic with
  | none => none
  | some ps => ps[partition.toNat]?.join

/-- The request handler refers to the registry. -/
structure Backs (h : RequestHandler) : Prop where
  lookup_eq : ∀ t, (h.topics.lookup t).map PNat.val = (reg.topics.lookup t).map List.length
  missing_iff : ∀ {t ps}, reg.topics.lookup t = some ps → ∀ p : UInt16, p.toNat < ps.length →
    (h.missing t p = true ↔ ps[p.toNat]? = some none)

section

variable {reg} {h : RequestHandler}

/-- A topic is known to both, or to neither. -/
theorem Backs.cases (hb : reg.Backs h) (t : Bytes) :
    h.topics.lookup t = none ∧ reg.topics.lookup t = none ∨
      ∃ count ps, h.topics.lookup t = some count ∧ reg.topics.lookup t = some ps ∧
        (count : ℕ) = ps.length := by
  have heq := hb.lookup_eq t
  cases hh : h.topics.lookup t with
  | none =>
    rw [hh, Option.map_none, eq_comm, Option.map_eq_none_iff] at heq
    exact .inl ⟨rfl, heq⟩
  | some count =>
    rw [hh, Option.map_some, eq_comm, Option.map_eq_some_iff] at heq
    obtain ⟨ps, hps, hlen⟩ := heq
    exact .inr ⟨count, ps, rfl, hps, hlen.symm⟩

theorem Backs.mem_iff (hb : reg.Backs h) (t : Bytes) : t ∈ h.topics ↔ t ∈ reg.topics := by
  rw [← AList.lookup_isSome, ← AList.lookup_isSome]
  rcases hb.cases t with ⟨hh, hreg⟩ | ⟨count, ps, hh, hreg, -⟩
  · rw [hh, hreg]
    exact Iff.rfl
  · rw [hh, hreg]
    exact Iff.rfl

theorem Backs.numPartitions_eq (hb : reg.Backs h) (t : Bytes) :
    h.numPartitions t = reg.numPartitions t := by
  rw [RequestHandler.numPartitions, TopicRegistry.numPartitions]
  rcases hb.cases t with ⟨hh, hreg⟩ | ⟨count, ps, hh, hreg, hlen⟩
  · rw [hh, hreg]
  · rw [hh, hreg]
    exact congrArg UInt16.ofNat hlen

/-- The handler finds the partitions that are there. -/
theorem Backs.getPartition_eq (hb : reg.Backs h) (t : Bytes) (p : UInt16) :
    h.getPartition t p = (reg.getPartition t p).isSome := by
  rw [RequestHandler.getPartition, TopicRegistry.getPartition]
  rcases hb.cases t with ⟨hh, hreg⟩ | ⟨count, ps, hh, hreg, hlen⟩
  · rw [hh, hreg]
    rfl
  · rw [hh, hreg]
    dsimp only
    rw [hlen]
    by_cases hp : p.toNat < ps.length
    · have hmissing := hb.missing_iff hreg p hp
      rw [decide_eq_true hp, Bool.true_and]
      cases hps : ps[p.toNat] with
      | none =>
        rw [List.getElem?_eq_getElem hp, hps] at hmissing ⊢
        rw [hmissing.2 rfl]
        rfl
      | some x =>
        rw [List.getElem?_eq_getElem hp, hps] at hmissing ⊢
        rw [Bool.eq_false_iff.2 (mt hmissing.1 nofun)]
        rfl
    · rw [decide_eq_false hp, List.getElem?_eq_none (Nat.le_of_not_lt hp)]
      rfl

theorem Backs.createTopic {topic : Bytes} {numPartitions : UInt16} {count : ℕ+}
    (hb : reg.Backs h) (fs : FileSystem) (hnew : topic ∉ reg.topics)
    (hcount : (count : ℕ) = numPartitions.toNat) :
    (reg.createTopic fs topic numPartitions).2.2.Backs (h.createTopic topic count) := by
  rw [TopicRegistry.createTopic, if_neg hnew]
  refine ⟨fun t => ?_, fun {t ps} hps p hp => ?_⟩
  · dsimp only [RequestHandler.createTopic]
    by_cases ht : t = topic
    · rw [ht, AList.lookup_insert, AList.lookup_insert, Option.map_some, Option.map_some,
        newPartitions, List.length_map, List.length_range, hcount]
    · rw [AList.lookup_insert_ne ht, AList.lookup_insert_ne ht, hb.lookup_eq]
  · dsimp only [RequestHandler.createTopic] at hps ⊢
    by_cases ht : t = topic
    · -- No partition of a new topic is missing.
      rw [ht, AList.lookup_insert, Option.some.injEq] at hps
      subst hps
      refine iff_of_false (by simp [ht]) fun hnone => ?_
      obtain ⟨i, -, hi⟩ := List.mem_map.1 (List.mem_of_getElem? hnone)
      exact nomatch hi
    · rw [AList.lookup_insert_ne ht] at hps
      rw [decide_eq_true ht, Bool.true_and]
      exact hb.missing_iff hps p hp

/-- `CREATE_TOPIC` creates the topic in the registry and is acknowledged, or it is refused and
    changes nothing. -/
theorem Backs.handleCreateTopic (hb : reg.Backs h) (fs : FileSystem) (sess : Session)
    (payload : Bytes) :
    let r := h.handleCreateTopic sess payload
    let req := CreateTopicReq.ofPayload payload
    let created := reg.createTopic fs req.topicName req.numPartitions
    (r.outcome = .reply (encodeAck 0) ∧ created.1 = true ∧ created.2.2.Backs r.handler) ∨
      (∃ code msg, r.outcome = .reply (encodeError code msg)) ∧ r.handler = h := by
  intro r req created
  have hseed : ∀ (h' : RequestHandler) t n, (h'.seedRoles t n).topics = h'.topics ∧
      (h'.seedRoles t n).missing = h'.missing := fun h' t n => by
    rw [RequestHandler.seedRoles]
    split <;> exact ⟨rfl, rfl⟩
  simp only [r, RequestHandler.handleCreateTopic]
  split_ifs with hsize hname hn hmem
  iterate 4 exact .inr ⟨⟨_, _, rfl⟩, rfl⟩
  -- All checks are passed, and the registry does not have the topic either.
  have hnew : req.topicName ∉ reg.topics := mt (hb.mem_iff _).2 hmem
  have hbacks : created.2.2.Backs
      (h.createTopic req.topicName ⟨req.numPartitions.toNat, Nat.pos_of_ne_zero hn⟩) :=
    hb.createTopic fs hnew rfl
  refine .inl ⟨rfl, ?_, fun t => ?_, fun {t ps} hps p hp => ?_⟩
  · simp only [created, TopicRegistry.createTopic, if_neg hnew]
  · rw [(hseed _ _ _).1]
    exact hbacks.lookup_eq t
  · rw [(hseed _ _ _).2]
    exact hbacks.missing_iff hps p hp

end

end TopicRegistry

end Fell.Broker
