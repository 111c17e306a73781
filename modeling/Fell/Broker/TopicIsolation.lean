import Fell.Broker.TopicRegistry
import Mathlib.Data.Set.Finite.Range

/-!
# Where topics are

The directories that `create_topic` uses for two topics. `handle_create_topic` accepts any name that
is not empty, and the name is put behind the data root as a path: it may have slashes in it, lead
back by `..`, be absolute, or end at a NUL byte.

* `isolated_iff`: two topics do not get in each other's way, wherever the data root is, if both
  names lead down from it, and neither leads into the directory the other leads to
  (`way`). If they do not, there is a data root for which the topics do.
-/

namespace Fell.Broker.TopicRegistry

open Platform Paths

variable {root : Dir} {a b c : Bytes} {i j : ℕ}

/-- The directory lies below the data root. -/
def Below (root d : Dir) : Prop := root <+: d ∧ d ≠ root

/-- The partitions of two topics have directories of their own, which lie below the data root. -/
def Isolated (root : Dir) (a b : Bytes) : Prop :=
  ∀ i j : UInt16,
    resolve (partitionDir root a i.toNat) ≠ resolve (partitionDir root b j.toNat) ∧
    ¬resolve (topicDir root a) <+: resolve (partitionDir root b j.toNat) ∧
    ¬resolve (topicDir root b) <+: resolve (partitionDir root a i.toNat) ∧
    Below root (resolve (partitionDir root a i.toNat)) ∧
    Below root (resolve (partitionDir root b j.toNat))

/-- The way that a name leads down from the data root. There is none for a name that leaves it. -/
def way (name : Bytes) : Option Dir := if IsAbsolute name then none else descend [] (names name)

/-- Two names lead down from the data root, and neither into the directory of the other. -/
def Apart (a b : Bytes) : Prop :=
  ∃ l l', way a = some l ∧ way b = some l' ∧ ¬l <+: l' ∧ ¬l' <+: l

/-- The directory of a partition lies in that of its topic. -/
theorem topicDir_prefix_partitionDir (hroot : ∀ c ∈ root, Plain c) (name : Bytes) (i : ℕ) :
    resolve (topicDir root name) <+: resolve (partitionDir root name i) := by
  rw [resolve, resolve, names_partitionDir hroot, List.foldl_append]
  split_ifs
  · exact List.prefix_rfl
  · rw [List.foldl_cons, List.foldl_nil, follow_of_plain (plain_partitionName i)]
    exact List.prefix_append _ _

theorem resolve_topicDir_of_way (hroot : ∀ c ∈ root, Plain c) {l : Dir} (h : way a = some l) :
    resolve (topicDir root a) = root ++ l := by
  rw [way] at h
  split_ifs at h with habs
  rw [resolve, names_topicDir hroot, if_neg habs, List.foldl_append,
    foldl_follow_of_plain hroot, List.nil_append]
  simpa using foldl_follow_of_descend (d := root) h

/-- Topics whose names lead down, and not into each other, are isolated. -/
theorem isolated_of_apart (hroot : ∀ c ∈ root, Plain c) (h : Apart a b) : Isolated root a b := by
  obtain ⟨l, l', hl, hl', hle, hge⟩ := h
  have hne : ∀ {l l' : Dir}, ¬l <+: l' → l ≠ [] := fun h heq => h (heq ▸ List.nil_prefix)
  -- A directory in both trees would make one of the ways lead into the other.
  have hdisjoint : ∀ d, root ++ l <+: d → ¬root ++ l' <+: d := fun d hd hd' =>
    (List.prefix_or_prefix_of_prefix hd hd').elim
      (fun h => hle ((List.prefix_append_right_inj root).1 h))
      fun h => hge ((List.prefix_append_right_inj root).1 h)
  have hbelow : ∀ {l d : Dir}, l ≠ [] → root ++ l <+: d → Below root d := fun {l d} hl hd => by
    refine ⟨(List.prefix_append _ _).trans hd, fun heq => hl ?_⟩
    have hlen := hd.length_le
    rw [heq, List.length_append] at hlen
    exact List.eq_nil_of_length_eq_zero (by omega)
  intro i j
  have ha := topicDir_prefix_partitionDir hroot a i.toNat
  have hb := topicDir_prefix_partitionDir hroot b j.toNat
  rw [resolve_topicDir_of_way hroot hl] at ha ⊢
  rw [resolve_topicDir_of_way hroot hl'] at hb ⊢
  exact ⟨fun heq => hdisjoint _ ha (heq ▸ hb), fun h => hdisjoint _ h hb, hdisjoint _ ha,
    hbelow (hne hle) ha, hbelow (hne hge) hb⟩

/-- There are names that do not occur in two others. -/
theorem exists_plain_not_mem (l : List Bytes) :
    ∃ q, Plain q ∧ q ∉ l ∧ ∀ i, q ≠ partitionName i := by
  have hinj : Function.Injective fun n : ℕ => List.replicate (n + 1) (120 : UInt8) := by
    intro m n h
    have hlen := congrArg List.length h
    simpa using hlen
  obtain ⟨q, ⟨n, rfl⟩, hq⟩ := (Set.infinite_range_of_injective hinj).exists_notMem_finset l.toFinset
  have hall : ∀ b ∈ List.replicate (n + 1) (120 : UInt8), b = 120 := fun _ =>
    List.eq_of_mem_replicate
  have hnot : ∀ b : UInt8, b ≠ 120 → ∀ q : Bytes, b ∈ q → List.replicate (n + 1) 120 ≠ q :=
    fun b hb q hbq heq => hb (hall b (heq ▸ hbq))
  refine ⟨List.replicate (n + 1) 120, ⟨nofun, ?_, ?_, fun h => ?_, fun h => ?_⟩,
    fun hmem => hq (List.mem_toFinset.2 hmem), fun i => ?_⟩
  · exact hnot 46 (by decide) dot (by decide)
  · exact hnot 46 (by decide) dotDot (by decide)
  · exact absurd (hall slash h) (by decide)
  · exact absurd (hall 0 h) (by decide)
  · exact hnot 112 (by decide) _ List.mem_cons_self

/-- A name that does not lead down from the data root leads out of some. -/
theorem exists_way {q : Bytes} (hq : Plain q) (hmem : q ∉ names a) (hpart : q ≠ partitionName i)
    (h : Below [q] (resolve (partitionDir [q] a i))) : ∃ l, way a = some l := by
  have hroot : ∀ c ∈ [q], Plain c := fun c hc => List.mem_singleton.1 hc ▸ hq
  have hlast : q ∉ if 0 ∈ a then [] else [partitionName i] := by
    split_ifs
    · exact List.not_mem_nil
    · exact fun hmem => hpart (List.mem_singleton.1 hmem)
  have hin : q ∈ resolve (partitionDir [q] a i) := h.1.subset (List.mem_singleton_self q)
  rw [resolve, names_partitionDir hroot, names_topicDir hroot, List.foldl_append] at hin
  refine Option.ne_none_iff_exists'.1 fun hnone => not_mem_foldl_follow ?_ hlast hin
  rw [way] at hnone
  split_ifs at hnone ⊢ with habs
  · exact not_mem_foldl_follow List.not_mem_nil hmem
  · rw [List.singleton_append, List.foldl_cons, follow_of_plain hq, List.nil_append]
    exact not_mem_foldl_follow_of_descend List.not_mem_nil hmem hnone

/-- Topics that are isolated wherever the data root is have names that lead down from it, and not
    into each other. -/
theorem apart_of_isolated (h : ∀ root : Dir, (∀ c ∈ root, Plain c) → Isolated root a b) :
    Apart a b := by
  obtain ⟨q, hq, hmem, hpart⟩ := exists_plain_not_mem (names a ++ names b)
  have hroot : ∀ c ∈ [q], Plain c := fun c hc => List.mem_singleton.1 hc ▸ hq
  obtain ⟨-, hab, hba, ha, hb⟩ := h [q] hroot 0 0
  rw [List.mem_append, not_or] at hmem
  obtain ⟨l, hl⟩ := exists_way hq hmem.1 (hpart _) ha
  obtain ⟨l', hl'⟩ := exists_way hq hmem.2 (hpart _) hb
  have hle := topicDir_prefix_partitionDir hroot a (0 : UInt16).toNat
  have hle' := topicDir_prefix_partitionDir hroot b (0 : UInt16).toNat
  rw [resolve_topicDir_of_way hroot hl] at hle hab
  rw [resolve_topicDir_of_way hroot hl'] at hle' hba
  refine ⟨l, l', hl, hl', fun hpre => hab ?_, fun hpre => hba ?_⟩
  · exact ((List.prefix_append_right_inj [q]).2 hpre).trans hle'
  · exact ((List.prefix_append_right_inj [q]).2 hpre).trans hle

/-- Two topics are isolated on every data root, exactly if their names lead down from it and
    neither into the directory of the other. -/
theorem isolated_iff (a b : Bytes) :
    (∀ root : Dir, (∀ c ∈ root, Plain c) → Isolated root a b) ↔ Apart a b :=
  ⟨apart_of_isolated, fun h _ hroot => isolated_of_apart hroot h⟩

/-- Names of directories are such names. -/
theorem apart_of_plain (ha : Plain a) (hb : Plain b) (hne : a ≠ b) : Apart a b := by
  have hway : ∀ {c}, Plain c → way c = some [c] := fun {c} hc => by
    rw [way, if_neg (not_isAbsolute_of_plain hc), names_of_plain hc, descend,
      if_neg fun h => hc.ne_dotDot h.1, follow_of_plain hc]
    rfl
  refine ⟨[a], [b], hway ha, hway hb, ?_, ?_⟩
  · rw [List.cons_prefix_cons]
    exact fun h => hne h.1
  · rw [List.cons_prefix_cons]
    exact fun h => hne h.1.symm

/-- The topics `a` and `a/` have the same directories, and those of `..` are not in the data
    root. -/
theorem not_isolated :
    (¬∀ (root : Dir) (a b : Bytes), (∀ c ∈ root, Plain c) → a ≠ b →
      (∀ name ∈ [a, b], name ≠ [] ∧ name.length ≤ 255) → Isolated root a b) ∧
    ∀ i, ¬Below [[100]] (resolve (partitionDir [[100]] dotDot i)) := by
  refine ⟨fun hall => ?_, fun i h => ?_⟩
  · obtain ⟨hne, -⟩ := hall [[100]] [97] [97, slash] (by decide) (by decide) (by decide) 0 0
    exact hne rfl
  · have hnames : names (partitionDir [[100]] dotDot i) = [[100], dotDot, partitionName i] :=
      names_partitionDir (by decide) i
    have hresolve : resolve (partitionDir [[100]] dotDot i) = [partitionName i] := by
      rw [resolve, hnames]
      rfl
    rw [hresolve] at h
    cases (List.cons_prefix_cons.1 h.1).1

end Fell.Broker.TopicRegistry
