import Mathlib.Data.Finset.Dedup
import Mathlib.Data.Finset.Insert
import Mathlib.Data.List.Infix
import Mathlib.Data.List.TakeWhile

/-!
# Paths and directories

Path names as a file system reads them. A path is a text, which for the file system ends at its
first NUL byte (`cString`); it is taken apart at the slashes (`names`), and its names are followed
one by one, where `.` stays and `..` goes back (`follow`). Paths are put together as by
`operator/` of the C++ library, for which an absolute path replaces what stands before it
(`join`).

A file system is the set of its directories (`FileSystem`), with those above them. There are no
links, so that going back is the same as leaving out the last name.

* `names_join`: the names of a path that is put together;
* `mem_makeAll`: making a directory, with those that lead to it, makes the directories that are
  passed on the way;
* `foldl_follow_of_descend`: a path that does not go back beyond its start leads to a place below
  it, wherever it starts (`descend`). Any other leaves some directories
  (`not_mem_foldl_follow`).
-/

namespace Fell.Paths

/-- A directory, by the names that lead to it from the root. -/
abbrev Dir := List (List UInt8)

/-- `/`. -/
def slash : UInt8 := 47

/-- `.`. -/
def dot : List UInt8 := [46]

/-- `..`. -/
def dotDot : List UInt8 := [46, 46]

/-- What a system call sees of a text. -/
def cString (p : List UInt8) : List UInt8 := p.takeWhile (· ≠ 0)

/-- The names in a path. -/
def names (p : List UInt8) : List (List UInt8) := ((cString p).splitOn slash).filter (· ≠ [])

/-- The path starts at the root. -/
def IsAbsolute (p : List UInt8) : Prop := p.head? = some slash

instance (p : List UInt8) : Decidable (IsAbsolute p) := inferInstanceAs (Decidable (_ = _))

/-- `operator/`. -/
def join (p q : List UInt8) : List UInt8 :=
  if IsAbsolute q then q
  else if p = [] ∨ p.getLast? = some slash then p ++ q
  else p ++ slash :: q

/-- A name that a directory can have. -/
structure Plain (c : List UInt8) : Prop where
  ne_nil : c ≠ []
  ne_dot : c ≠ dot
  ne_dotDot : c ≠ dotDot
  not_mem_slash : slash ∉ c
  not_mem_nul : 0 ∉ c

instance (c : List UInt8) : Decidable (Plain c) :=
  decidable_of_iff (c ≠ [] ∧ c ≠ dot ∧ c ≠ dotDot ∧ slash ∉ c ∧ 0 ∉ c)
    ⟨fun ⟨h₁, h₂, h₃, h₄, h₅⟩ => ⟨h₁, h₂, h₃, h₄, h₅⟩,
      fun ⟨h₁, h₂, h₃, h₄, h₅⟩ => ⟨h₁, h₂, h₃, h₄, h₅⟩⟩

/-- The absolute path of a directory. -/
def render (d : Dir) : List UInt8 := slash :: [slash].intercalate d

variable {p q c : List UInt8} {d : Dir} {cs : List (List UInt8)}

/-! ## Names -/

theorem cString_append (h : 0 ∉ p) : cString (p ++ q) = p ++ cString q :=
  List.takeWhile_append_of_pos fun _ hb => decide_eq_true fun h0 => h (h0 ▸ hb)

theorem cString_of_not_mem (h : 0 ∉ p) : cString p = p :=
  List.takeWhile_eq_self_iff.2 fun _ hb => decide_eq_true fun h0 => h (h0 ▸ hb)

/-- Nothing behind a NUL byte counts. -/
theorem cString_append_of_mem (h : 0 ∈ p) : cString (p ++ q) = cString p := by
  induction p with
  | nil => exact absurd h List.not_mem_nil
  | cons b p ih =>
    by_cases hb : b = 0
    · simp [cString, hb]
    · have h0 : 0 ∈ p := (List.mem_cons.1 h).resolve_left (Ne.symm hb)
      have hcons : ∀ l, cString (b :: l) = b :: cString l := fun l =>
        List.takeWhile_cons_of_pos (decide_eq_true hb)
      rw [List.cons_append, hcons, hcons, ih h0]

/-- Names are separated by a slash. -/
theorem names_append_slash (h : 0 ∉ p) : names (p ++ slash :: q) = names p ++ names q := by
  have hq : cString (slash :: q) = slash :: cString q := cString_append (p := [slash]) (by decide)
  rw [names, cString_append h, hq, List.splitOn_append_cons_self, List.filter_append, names,
    cString_of_not_mem h, names]

theorem names_nil : names [] = [] := rfl

theorem names_of_plain (h : Plain c) : names c = [c] := by
  rw [names, cString_of_not_mem h.not_mem_nul, List.splitOn_eq_singleton h.not_mem_slash]
  exact List.filter_cons_of_pos (decide_eq_true h.ne_nil)

/-- The names of a path that is put together. -/
theorem names_join (h0 : 0 ∉ p) (hq : ¬IsAbsolute q) : names (join p q) = names p ++ names q := by
  rw [join, if_neg hq]
  split_ifs with h
  · rcases h with rfl | h
    · rfl
    · -- The separator is there already.
      obtain ⟨p', hp'⟩ := List.getLast?_eq_some_iff.1 h
      have h0' : 0 ∉ p' := fun hmem => h0 (hp' ▸ List.mem_append_left _ hmem)
      rw [hp', List.append_assoc, List.singleton_append, names_append_slash h0',
        names_append_slash h0', names_nil, List.append_nil]
  · exact names_append_slash h0

/-- No NUL byte comes in when paths are put together. -/
theorem mem_join_iff (h0 : 0 ∉ p) : 0 ∈ join p q ↔ 0 ∈ q := by
  rw [join]
  split_ifs
  · rfl
  · exact List.mem_append.trans (or_iff_right h0)
  · rw [List.mem_append, List.mem_cons]
    exact (or_iff_right h0).trans (or_iff_right (by decide))

/-- An absolute path stands for itself. -/
theorem join_of_isAbsolute (hq : IsAbsolute q) : join p q = q := if_pos hq

/-- What is put behind a path with a NUL byte is not seen. -/
theorem names_join_of_mem (h0 : 0 ∈ p) (hq : ¬IsAbsolute q) : names (join p q) = names p := by
  rw [join, if_neg hq]
  split_ifs
  · rw [names, cString_append_of_mem h0, names]
  · rw [names, cString_append_of_mem h0, names]

theorem not_isAbsolute_of_plain (h : Plain c) : ¬IsAbsolute c :=
  fun habs => h.not_mem_slash (List.mem_of_mem_head? habs)

/-- The names of the path of a directory. -/
theorem names_render (h : ∀ c ∈ d, Plain c) : names (render d) = d := by
  have hroot : ∀ {q}, names (slash :: q) = names q := names_append_slash List.not_mem_nil
  rw [render, hroot]
  induction d with
  | nil => rfl
  | cons c d ih =>
    have hc := h c List.mem_cons_self
    have hd := ih fun c' hc' => h c' (List.mem_cons_of_mem _ hc')
    cases d with
    | nil => rw [List.intercalate_singleton, names_of_plain hc]
    | cons c' d =>
      rw [List.intercalate_cons_cons, List.append_assoc, List.singleton_append,
        names_append_slash hc.not_mem_nul, names_of_plain hc, hd]
      rfl

theorem not_mem_render (h : ∀ c ∈ d, Plain c) : 0 ∉ render d := by
  refine List.mem_cons.not.2 (not_or.2 ⟨by decide, ?_⟩)
  induction d with
  | nil => exact List.not_mem_nil
  | cons c d ih =>
    have hc := (h c List.mem_cons_self).not_mem_nul
    have hd := ih fun c' hc' => h c' (List.mem_cons_of_mem _ hc')
    cases d with
    | nil => rwa [List.intercalate_singleton]
    | cons c' d =>
      rw [List.intercalate_cons_cons, List.mem_append, List.mem_append, not_or, not_or]
      exact ⟨⟨hc, by decide⟩, hd⟩

/-! ## Following names -/

/-- The directory that a name leads to. -/
def follow (d : Dir) (c : List UInt8) : Dir :=
  if c = dot then d else if c = dotDot then d.dropLast else d ++ [c]

theorem follow_of_plain (h : Plain c) : follow d c = d ++ [c] := by
  rw [follow, if_neg h.ne_dot, if_neg h.ne_dotDot]

/-- Plain names are put behind each other. -/
theorem foldl_follow_of_plain (h : ∀ c ∈ cs, Plain c) : cs.foldl follow d = d ++ cs := by
  induction cs generalizing d with
  | nil => rw [List.foldl_nil, List.append_nil]
  | cons c cs ih =>
    rw [List.foldl_cons, follow_of_plain (h c List.mem_cons_self),
      ih fun c' hc' => h c' (List.mem_cons_of_mem _ hc'), List.append_assoc, List.singleton_append]

/-- The directory that an absolute path leads to. -/
def resolve (p : List UInt8) : Dir := (names p).foldl follow []

/-- The way that names lead down from where they start, if they do not lead back beyond that. -/
def descend : Dir → List (List UInt8) → Option Dir
  | l, [] => some l
  | l, c :: cs => if c = dotDot ∧ l = [] then none else descend (follow l c) cs

/-- What is above is left alone, unless a name leads back to it. -/
theorem follow_append {l : Dir} (h : ¬(c = dotDot ∧ l = [])) :
    follow (d ++ l) c = d ++ follow l c := by
  rw [follow, follow]
  split_ifs with hdot hdd
  · rfl
  · exact List.dropLast_append_of_ne_nil fun hl => h ⟨hdd, hl⟩
  · exact List.append_assoc ..

theorem not_mem_follow {c' : List UInt8} (hd : c ∉ d) (hne : c ≠ c') : c ∉ follow d c' := by
  rw [follow]
  split_ifs
  · exact hd
  · exact fun hmem => hd (List.mem_of_mem_dropLast hmem)
  · exact fun hmem => (List.mem_append.1 hmem).elim hd fun h => hne (List.mem_singleton.1 h)

/-- Names that do not lead back beyond their start lead to the same place below it, wherever
    that is. -/
theorem foldl_follow_of_descend {l l' : Dir} (h : descend l cs = some l') :
    cs.foldl follow (d ++ l) = d ++ l' := by
  induction cs generalizing l with
  | nil => rw [List.foldl_nil, Option.some.inj h]
  | cons c cs ih =>
    rw [descend] at h
    split_ifs at h with hc
    rw [List.foldl_cons, follow_append hc, ih h]

/-- Names that are followed do not lead into a directory of another name. -/
theorem not_mem_foldl_follow (hd : c ∉ d) (hc : c ∉ cs) : c ∉ cs.foldl follow d := by
  induction cs generalizing d with
  | nil => exact hd
  | cons c' cs ih =>
    rw [List.mem_cons, not_or] at hc
    exact ih (not_mem_follow hd hc.1) hc.2

/-- Names that lead back beyond their start leave the directory they start in. -/
theorem not_mem_foldl_follow_of_descend {l : Dir} (hl : c ∉ l) (hc : c ∉ cs)
    (h : descend l cs = none) : c ∉ cs.foldl follow ([c] ++ l) := by
  induction cs generalizing l with
  | nil => exact nomatch h
  | cons c' cs ih =>
    rw [List.mem_cons, not_or] at hc
    rw [descend] at h
    split_ifs at h with hc'
    · obtain ⟨rfl, rfl⟩ := hc'
      exact not_mem_foldl_follow (d := follow [c] dotDot) List.not_mem_nil hc.2
    · rw [List.foldl_cons, follow_append hc']
      exact ih (not_mem_follow hl hc.1) hc.2 h

/-! ## File systems -/

/-- The directories of a file system. Those above a directory are there, too. -/
structure FileSystem where
  dirs : Finset Dir
  root_mem : [] ∈ dirs
  parent_mem : ∀ {d c}, d ++ [c] ∈ dirs → d ∈ dirs ∧ Plain c

namespace FileSystem

variable (fs : FileSystem) {x : Dir}

/-- The system call. It fails if there is no directory to make the new one in. -/
def mkdir (d : Dir) (c : List UInt8) : FileSystem :=
  if h : d ∈ fs.dirs ∧ Plain c then
    { dirs := insert (d ++ [c]) fs.dirs
      root_mem := Finset.mem_insert_of_mem fs.root_mem
      parent_mem := by
        intro d' c' hmem
        rcases Finset.mem_insert.1 hmem with heq | hmem
        · obtain ⟨rfl, hc⟩ := List.append_inj' heq rfl
          obtain rfl := List.singleton_inj.1 hc
          exact ⟨Finset.mem_insert_of_mem h.1, h.2⟩
        · exact ⟨Finset.mem_insert_of_mem (fs.parent_mem hmem).1, (fs.parent_mem hmem).2⟩ }
  else fs

/-- The directories on the way that names lead are made where they are missing. -/
def makeAll (fs : FileSystem) (d : Dir) : List (List UInt8) → FileSystem
  | [] => fs
  | c :: cs => (fs.mkdir d c).makeAll (follow d c) cs

/-- `create_directories`, of an absolute path. -/
def createDirectories (p : List UInt8) : FileSystem := fs.makeAll [] (names p)

variable {fs}

theorem mem_mkdir :
    x ∈ (fs.mkdir d c).dirs ↔ x ∈ fs.dirs ∨ d ∈ fs.dirs ∧ Plain c ∧ x = d ++ [c] := by
  rw [mkdir]
  split_ifs with h
  · rw [Finset.mem_insert, or_comm]
    exact or_congr_right ⟨fun hx => ⟨h.1, h.2, hx⟩, fun hx => hx.2.2⟩
  · exact ⟨.inl, fun hx => hx.resolve_right fun hx => h ⟨hx.1, hx.2.1⟩⟩

/-- What leads to a directory is there. -/
theorem mem_of_append {l : Dir} (h : d ++ l ∈ fs.dirs) : d ∈ fs.dirs := by
  induction l using List.reverseRecOn with
  | nil => rwa [List.append_nil] at h
  | append_singleton l c ih =>
    rw [← List.append_assoc] at h
    exact ih (fs.parent_mem h).1

/-- Along plain names, the directories made are those that are passed. -/
theorem mem_makeAll (hd : d ∈ fs.dirs) (hcs : ∀ c ∈ cs, Plain c) :
    x ∈ (fs.makeAll d cs).dirs ↔ x ∈ fs.dirs ∨ ∃ l, l <+: cs ∧ d ++ l = x := by
  induction cs generalizing fs d with
  | nil =>
    refine ⟨.inl, fun h => h.elim id ?_⟩
    rintro ⟨l, hl, rfl⟩
    rwa [List.prefix_nil.1 hl, List.append_nil]
  | cons c cs ih =>
    have hc := hcs c List.mem_cons_self
    have hmade : ∀ y, y ∈ (fs.mkdir d c).dirs ↔ y ∈ fs.dirs ∨ y = d ++ [c] := fun y => by
      rw [mem_mkdir, and_iff_right hd, and_iff_right hc]
    rw [makeAll, follow_of_plain hc, ih ((hmade _).2 (.inr rfl)) fun c' hc' =>
      hcs c' (List.mem_cons_of_mem _ hc'), hmade, or_assoc]
    simp only [List.append_assoc, List.singleton_append]
    constructor
    · rintro (hx | rfl | ⟨l, hl, hx⟩)
      · exact .inl hx
      · exact .inr ⟨[c], (List.prefix_cons_inj c).2 List.nil_prefix, rfl⟩
      · exact .inr ⟨c :: l, (List.prefix_cons_inj c).2 hl, hx⟩
    · rintro (hx | ⟨l, hl, hx⟩)
      · exact .inl hx
      · rcases List.prefix_cons_iff.1 hl with rfl | ⟨l', rfl, hl'⟩
        · exact .inl (hx ▸ (List.append_nil d).symm ▸ hd)
        · exact .inr (.inr ⟨l', hl', hx⟩)

/-- From the root, they are the beginnings of the path. -/
theorem mem_makeAll_root (hcs : ∀ c ∈ cs, Plain c) :
    x ∈ (fs.makeAll [] cs).dirs ↔ x ∈ fs.dirs ∨ x <+: cs := by
  rw [mem_makeAll fs.root_mem hcs]
  exact or_congr_right ⟨fun ⟨_, hl, hx⟩ => hx ▸ hl, fun hx => ⟨x, hx, rfl⟩⟩

/-- The directories in each directory, in the order in which they are listed. -/
structure Listing (fs : FileSystem) where
  entries : Dir → List (List UInt8)
  mem_entries : ∀ {d c}, c ∈ entries d ↔ d ++ [c] ∈ fs.dirs

/-- Directories can be listed. -/
theorem nonempty_listing (fs : FileSystem) : Nonempty fs.Listing := by
  refine ⟨fun d => fs.dirs.toList.filterMap fun x =>
    if x.dropLast = d then x.getLast? else none, fun {d c} => ?_⟩
  simp only [List.mem_filterMap, Finset.mem_toList, Option.ite_none_right_eq_some,
    List.getLast?_eq_some_iff]
  constructor
  · rintro ⟨x, hx, rfl, d, rfl⟩
    rwa [List.dropLast_concat]
  · exact fun h => ⟨d ++ [c], h, List.dropLast_concat, d, rfl⟩

end FileSystem

end Fell.Paths
