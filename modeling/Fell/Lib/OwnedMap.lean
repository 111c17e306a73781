import Mathlib.Data.List.AList

/-!
# Maps that own their values

A map from keys to objects that are created when they are first asked for and never removed,
as an `std::unordered_map` of `std::unique_ptr`s that only grows. Asking for a key gives a
*reference*, through which the object may be changed at any later time, by whoever holds it.
An object is referred to by its place in the order of creation.

Different keys have different objects, which is part of the type (`OwnedMap.inj`).

* `find?_getOrCreate`, `find?_modify`: creating an object, and changing one through its
  reference, concerns the object of one key;
* `mem_lookup_getOrCreate`, `lookup_getOrCreate`: a key has the reference that was returned for
  it, and keeps it.
-/

namespace Fell

/-- A map with objects of its own. -/
structure OwnedMap (κ α : Type*) [DecidableEq κ] where
  /-- The references of the keys. -/
  index : AList fun _ : κ => ℕ
  /-- The objects, in the order of their creation. -/
  objects : List α
  lt_length : ∀ {k a}, a ∈ index.lookup k → a < objects.length
  inj : ∀ {k k' a}, a ∈ index.lookup k → a ∈ index.lookup k' → k = k'

namespace OwnedMap

variable {κ α : Type*} [DecidableEq κ] (m : OwnedMap κ α) {k k' : κ} {a : ℕ}

/-- The map without objects. -/
def empty : OwnedMap κ α where
  index := ∅
  objects := []
  lt_length h := absurd h (by simp)
  inj h := absurd h (by simp)

/-- The object of a key, if it has one. -/
def find? (k : κ) : Option α := (m.index.lookup k).bind (m.objects[·]?)

/-- The map with a new object for a key. -/
def create (k : κ) (new : α) : OwnedMap κ α where
  index := m.index.insert k m.objects.length
  objects := m.objects ++ [new]
  lt_length {k' a} ha := by
    rw [List.length_append, List.length_singleton]
    by_cases hk : k' = k
    · rw [hk, AList.lookup_insert, Option.mem_some_iff] at ha
      omega
    · rw [AList.lookup_insert_ne hk] at ha
      exact Nat.lt_succ_of_lt (m.lt_length ha)
  inj {k₁ k₂ a} h₁ h₂ := by
    -- The new reference is beyond all others.
    by_cases hk₁ : k₁ = k <;> by_cases hk₂ : k₂ = k
    · rw [hk₁, hk₂]
    · rw [hk₁, AList.lookup_insert, Option.mem_some_iff] at h₁
      rw [AList.lookup_insert_ne hk₂] at h₂
      exact absurd (m.lt_length h₂) (by omega)
    · rw [AList.lookup_insert_ne hk₁] at h₁
      rw [hk₂, AList.lookup_insert, Option.mem_some_iff] at h₂
      exact absurd (m.lt_length h₁) (by omega)
    · rw [AList.lookup_insert_ne hk₁] at h₁
      rw [AList.lookup_insert_ne hk₂] at h₂
      exact m.inj h₁ h₂

/-- The reference of a key, and the map, in which the object is created if it was missing. -/
def getOrCreate (k : κ) (new : α) : ℕ × OwnedMap κ α :=
  match m.index.lookup k with
  | some a => (a, m)
  | none => (m.objects.length, m.create k new)

/-- An object is changed through a reference. -/
def modify (a : ℕ) (f : α → α) : OwnedMap κ α where
  index := m.index
  objects := m.objects.modify a f
  lt_length ha := by
    rw [List.length_modify]
    exact m.lt_length ha
  inj := m.inj

variable {m}

theorem find?_of_mem (ha : a ∈ m.index.lookup k) : m.find? k = m.objects[a]? := by
  rw [find?, Option.mem_def.1 ha, Option.bind_some]

theorem find?_eq_none_iff : m.find? k = none ↔ m.index.lookup k = none := by
  cases h : m.index.lookup k with
  | none => simp [find?, h]
  | some a =>
    rw [find?_of_mem h, List.getElem?_eq_none_iff]
    have := m.lt_length h
    constructor
    · intro hle
      omega
    · exact fun h => nomatch h

theorem getOrCreate_of_mem (ha : a ∈ m.index.lookup k) (new : α) :
    m.getOrCreate k new = (a, m) := by
  rw [getOrCreate, Option.mem_def.1 ha]

theorem getOrCreate_of_none (h : m.index.lookup k = none) (new : α) :
    m.getOrCreate k new = (m.objects.length, m.create k new) := by
  rw [getOrCreate, h]

/-- What is asked for is there afterwards. -/
theorem mem_lookup_getOrCreate (m : OwnedMap κ α) (k : κ) (new : α) :
    (m.getOrCreate k new).1 ∈ (m.getOrCreate k new).2.index.lookup k := by
  cases h : m.index.lookup k with
  | some a =>
    rw [getOrCreate_of_mem h]
    exact h
  | none =>
    rw [getOrCreate_of_none h]
    exact AList.lookup_insert _

/-- A key keeps its reference when another one is asked for. -/
theorem lookup_getOrCreate (ha : a ∈ m.index.lookup k) (k' : κ) (new : α) :
    a ∈ (m.getOrCreate k' new).2.index.lookup k := by
  cases h : m.index.lookup k' with
  | some b =>
    rw [getOrCreate_of_mem h]
    exact ha
  | none =>
    rw [getOrCreate_of_none h]
    have hne : k ≠ k' := by
      rintro rfl
      rw [h] at ha
      exact nomatch ha
    exact (AList.lookup_insert_ne hne).trans ha

theorem find?_create (m : OwnedMap κ α) (k k' : κ) (new : α) :
    (m.create k new).find? k' = if k' = k then some new else m.find? k' := by
  rw [find?, create]
  dsimp only
  split_ifs with hk
  · rw [hk, AList.lookup_insert, Option.bind_some, List.getElem?_concat_length]
  · rw [AList.lookup_insert_ne hk, find?]
    cases ha : m.index.lookup k' with
    | none => rfl
    | some a => exact List.getElem?_append_left (m.lt_length ha)

/-- Asking for a key concerns its object only. -/
theorem find?_getOrCreate (m : OwnedMap κ α) (k k' : κ) (new : α) :
    (m.getOrCreate k new).2.find? k' =
      if k' = k then some ((m.find? k).getD new) else m.find? k' := by
  cases h : m.index.lookup k with
  | some a =>
    rw [getOrCreate_of_mem h]
    split_ifs with hk
    · have hlt := m.lt_length h
      rw [hk, find?_of_mem h, List.getElem?_eq_getElem hlt, Option.getD_some]
    · rfl
  | none =>
    rw [getOrCreate_of_none h, find?_create, find?_eq_none_iff.2 h, Option.getD_none]

/-- A reference belongs to one key. -/
theorem lookup_eq_some_iff (ha : a ∈ m.index.lookup k) : m.index.lookup k' = some a ↔ k' = k :=
  ⟨fun h => m.inj h ha, fun h => h ▸ ha⟩

/-- A change through a reference concerns the object it belongs to only. -/
theorem find?_modify (m : OwnedMap κ α) (a : ℕ) (f : α → α) (k : κ) :
    (m.modify a f).find? k =
      if m.index.lookup k = some a then (m.find? k).map f else m.find? k := by
  rw [find?, find?, modify]
  dsimp only
  cases hb : m.index.lookup k with
  | none => simp
  | some b =>
    rw [Option.bind_some, Option.bind_some, List.getElem?_modify]
    by_cases hab : a = b
    · subst hab
      simp
    · simp [hab, Ne.symm hab]

end OwnedMap

end Fell
