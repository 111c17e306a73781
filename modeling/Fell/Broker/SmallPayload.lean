import Fell.Lib.Ownership
import Fell.Lib.Transition
import Fell.Platform

/-!
# Payloads in place and on the heap

The payload of a frame is a `SmallPayload` (`broker/include/broker/frame_decoder.hpp`): up to a
capacity, its bytes are in the object itself; otherwise they are in a block of the heap that belongs
to the object. Both share a union, and `is_small_` tells which of the two it is. Payloads are moved,
not copied. A payload that is moved from is empty if its bytes were on the heap; otherwise it keeps
them.

A program is a sequence of operations on its objects. The model of memory has the objects with their
unions and the blocks of the heap; an operation has no result if it would read a part of the union
that is not there, or free a block that is not allocated. `new` returns any address at which there
is no block, and does not fail.

* `Represents.exec`: one operation, against the same operation on lists of bytes;
* `exec_refines`: every program runs as it does on lists of bytes, and the blocks allocated are
  those of the payloads that are on the heap, one for each.
-/

namespace Fell.Broker

open Platform

/-- The union of `inline_data_`, with the bytes that have been written to it, and `heap_data_`. -/
inductive PayloadUnion
  | inlineData (bs : Bytes)
  | heapData (p : Option ℕ)

/-- The bytes that have been written to `inline_data_`. -/
def PayloadUnion.inlineBytes : PayloadUnion → Bytes
  | .inlineData bs => bs
  | .heapData _ => []

/-- The first bytes of `inline_data_`, if they have been written. -/
def PayloadUnion.read (storage : PayloadUnion) (size : ℕ) : Option Bytes :=
  if size ≤ storage.inlineBytes.length then some (storage.inlineBytes.take size) else none

/-- `SmallPayload`. -/
structure SmallPayload where
  size : ℕ
  isSmall : Bool
  storage : PayloadUnion

/-- The default constructor. -/
def SmallPayload.new : SmallPayload := ⟨0, true, .inlineData []⟩

/-- The block that belongs to a payload. -/
def SmallPayload.block (o : SmallPayload) : Option ℕ :=
  match o.isSmall, o.storage with
  | false, .heapData p => p
  | false, .inlineData _ | true, _ => none

/-- What a program does with payloads. -/
inductive PayloadOp (ι : Type)
  | construct (x : ι)
  | destroy (x : ι)
  | moveConstruct (x y : ι)
  | moveAssign (x y : ι)
  | assign (x : ι) (bs : Bytes)

/-- The objects that there are, and the blocks of the heap. -/
structure Memory (ι : Type) where
  objects : ι → Option SmallPayload
  heap : ℕ → Option Bytes

namespace Memory

variable {ι : Type} {cap : ℕ} {m m' : Memory ι} {x y : ι} {a : ℕ}

/-- No objects, and nothing on the heap. -/
def empty (ι : Type) : Memory ι := ⟨fun _ => none, fun _ => none⟩

/-- `data()` and `size()`: the bytes of a payload. -/
def data (m : Memory ι) (o : SmallPayload) : Option Bytes :=
  if o.isSmall then o.storage.read o.size
  else
    match o.storage with
    | .inlineData _ | .heapData none => none
    | .heapData (some a) => (m.heap a).bind fun bs =>
        if o.size ≤ bs.length then some (bs.take o.size) else none

/-- The bytes of the object `x`. -/
def contents (m : Memory ι) (x : ι) : Option Bytes := (m.objects x).bind m.data

/-- The block that belongs to the object `x`. -/
def own (m : Memory ι) (x : ι) : Option ℕ := (m.objects x).bind SmallPayload.block

section

variable [DecidableEq ι]

/-- The object is changed. -/
def set (m : Memory ι) (x : ι) (o : SmallPayload) : Memory ι :=
  { m with objects := Function.update m.objects x (some o) }

/-- `free_heap`. -/
def freeHeap (m : Memory ι) (x : ι) (o : SmallPayload) : Option (Memory ι) :=
  if o.isSmall then some m
  else
    match o.storage with
    | .inlineData _ => none
    | .heapData none => some m
    | .heapData (some a) =>
      if m.heap a = none then none
      else some { m.set x { o with storage := .heapData none } with
        heap := Function.update m.heap a none }

/-- What both the move constructor and the move assignment do at the end: the object `x` takes over
    from `y`, which is `o`. -/
def takeOver (m : Memory ι) (x y : ι) (o : SmallPayload) : Option (Memory ι) :=
  if o.isSmall then
    (o.storage.read o.size).map fun bs => m.set x ⟨o.size, true, .inlineData bs⟩
  else
    match o.storage with
    | .inlineData _ => none
    | .heapData p => some ((m.set y ⟨0, true, .heapData none⟩).set x ⟨o.size, false, .heapData p⟩)

/-- `assign`, behind `free_heap`. -/
def copyTo (cap a : ℕ) (m : Memory ι) (x : ι) (o : SmallPayload) (bs : Bytes) :
    Option (Memory ι) :=
  if bs.length ≤ cap then
    some (m.set x ⟨bs.length, true, if bs = [] then o.storage else .inlineData bs⟩)
  else if m.heap a = none then
    some { m.set x ⟨bs.length, false, .heapData (some a)⟩ with
      heap := Function.update m.heap a (some bs) }
  else none

/-- An operation, with the address that `new` returns. -/
def exec (cap a : ℕ) (m : Memory ι) : PayloadOp ι → Option (Memory ι)
  | .construct x => if m.objects x = none then some (m.set x .new) else none
  | .destroy x => (m.objects x).bind fun o => (m.freeHeap x o).map fun m =>
      { m with objects := Function.update m.objects x none }
  | .moveConstruct x y =>
    if m.objects x = none then (m.objects y).bind (m.takeOver x y) else none
  | .moveAssign x y =>
    (m.objects x).bind fun o =>
      if x = y then some m
      else (m.freeHeap x o).bind fun m => (m.objects y).bind (m.takeOver x y)
  | .assign x bs => (m.objects x).bind fun o => (m.freeHeap x o).bind fun m =>
      (m.objects x).bind fun o => m.copyTo cap a x o bs

/-! ## Lists of bytes -/

/-- What is left of a payload that is moved from. -/
def leftBy (cap : ℕ) (bs : Bytes) : Bytes := if bs.length ≤ cap then bs else []

/-- An operation on lists of bytes. -/
def spec (cap : ℕ) (v : ι → Option Bytes) : PayloadOp ι → Option (ι → Option Bytes)
  | .construct x => if v x = none then some (Function.update v x (some [])) else none
  | .destroy x => (v x).map fun _ => Function.update v x none
  | .moveConstruct x y =>
    if v x = none then (v y).map fun bs =>
      Function.update (Function.update v y (some (leftBy cap bs))) x (some bs)
    else none
  | .moveAssign x y =>
    (v x).bind fun _ =>
      if x = y then some v
      else (v y).map fun bs =>
        Function.update (Function.update v y (some (leftBy cap bs))) x (some bs)
  | .assign x bs => (v x).map fun _ => Function.update v x (some bs)

end

/-! ## Payloads that hold bytes -/

/-- The payload holds the bytes, in place or in its block. -/
inductive Holds (cap : ℕ) (heap : ℕ → Option Bytes) : SmallPayload → Bytes → Prop
  | inPlace {storage : PayloadUnion} {bs : Bytes} (hcap : bs.length ≤ cap)
      (hread : storage.read bs.length = some bs) : Holds cap heap ⟨bs.length, true, storage⟩ bs
  | onHeap {a : ℕ} {bs : Bytes} (hcap : cap < bs.length) (hheap : heap a = some bs) :
      Holds cap heap ⟨bs.length, false, .heapData (some a)⟩ bs

theorem Holds.data {o : SmallPayload} {bs : Bytes} (h : Holds cap m.heap o bs) :
    m.data o = some bs := by
  cases h with
  | inPlace hcap hread => exact hread
  | onHeap hcap hheap => simp [Memory.data, hheap]

theorem read_inlineData (bs : Bytes) : (PayloadUnion.inlineData bs).read bs.length = some bs := by
  simp [PayloadUnion.read, PayloadUnion.inlineBytes]

theorem read_zero (storage : PayloadUnion) : storage.read 0 = some [] := by
  simp [PayloadUnion.read]

/-- All payloads hold the bytes they should, and the blocks allocated are theirs. -/
structure Represents (cap : ℕ) (m : Memory ι) (v : ι → Option Bytes) : Prop where
  objects : ∀ x, Option.Rel (Holds cap m.heap) (m.objects x) (v x)
  exclusive : Exclusive m.own m.heap

/-- So it is for all but one, which has no block. -/
structure Vacant (cap : ℕ) (m : Memory ι) (v : ι → Option Bytes) (x : ι) : Prop where
  others : ∀ z, z ≠ x → Option.Rel (Holds cap m.heap) (m.objects z) (v z)
  own : m.own x = none
  exclusive : Exclusive m.own m.heap

variable {v v' : ι → Option Bytes} {o : SmallPayload} {bs : Bytes}

theorem Represents.vacant (h : Represents cap m v) (hx : m.own x = none) : Vacant cap m v x :=
  ⟨fun z _ => h.objects z, hx, h.exclusive⟩

theorem Represents.exists_holds (h : Represents cap m v) (hv : v x = some bs) :
    ∃ o, m.objects x = some o ∧ Holds cap m.heap o bs := by
  have hrel := h.objects x
  rw [hv] at hrel
  cases hobj : m.objects x with
  | none =>
    rw [hobj] at hrel
    cases hrel
  | some o =>
    rw [hobj] at hrel
    cases hrel with
    | some ho => exact ⟨o, rfl, ho⟩

theorem Represents.exists_bytes (h : Represents cap m v) (hx : m.objects x = some o) :
    ∃ bs, v x = some bs ∧ Holds cap m.heap o bs := by
  have hrel := h.objects x
  rw [hx] at hrel
  cases hv : v x with
  | none =>
    rw [hv] at hrel
    cases hrel
  | some bs =>
    rw [hv] at hrel
    cases hrel with
    | some ho => exact ⟨bs, rfl, ho⟩

theorem Represents.objects_eq_none (h : Represents cap m v) : m.objects x = none ↔ v x = none := by
  rw [← not_iff_not]
  simp only [← ne_eq, Option.ne_none_iff_exists']
  constructor
  · rintro ⟨o, ho⟩
    obtain ⟨bs, hv, -⟩ := h.exists_bytes ho
    exact ⟨bs, hv⟩
  · rintro ⟨bs, hv⟩
    obtain ⟨o, ho, -⟩ := h.exists_holds hv
    exact ⟨o, ho⟩

/-- A payload does not depend on the blocks of the others. -/
theorem rel_congr {heap heap' : ℕ → Option Bytes} {o : Option SmallPayload} {bs : Option Bytes}
    (h : Option.Rel (Holds cap heap) o bs)
    (hblock : ∀ a, o.bind SmallPayload.block = some a → heap' a = heap a) :
    Option.Rel (Holds cap heap') o bs := by
  cases h with
  | none => exact .none
  | some ho =>
    cases ho with
    | inPlace hcap hread => exact .some (.inPlace hcap hread)
    | onHeap hcap hheap => exact .some (.onHeap hcap ((hblock _ rfl).trans hheap))

section

variable [DecidableEq ι]

theorem objects_set (m : Memory ι) (x z : ι) (o : SmallPayload) :
    (m.set x o).objects z = if z = x then some o else m.objects z := Function.update_apply ..

theorem own_set (m : Memory ι) (x : ι) (o : SmallPayload) :
    (m.set x o).own = Function.update m.own x o.block := by
  funext z
  rw [own, objects_set, Function.update_apply]
  split_ifs
  · rfl
  · rfl

theorem Vacant.update_own (h : Vacant cap m v x) : Function.update m.own x none = m.own := by
  rw [← h.own, Function.update_eq_self]

/-- The object gets bytes in place. -/
theorem Vacant.set (h : Vacant cap m v x) (ho : Holds cap m.heap o bs) (hblock : o.block = none) :
    Represents cap (m.set x o) (Function.update v x (some bs)) where
  objects z := by
    rw [objects_set, Function.update_apply]
    split_ifs with hz
    · exact .some ho
    · exact h.others z hz
  exclusive := by
    rw [own_set, hblock, h.update_own]
    exact h.exclusive

/-- The object gets a new block. -/
theorem Vacant.alloc (h : Vacant cap m v x) (ha : m.heap a = none) (hcap : cap < bs.length) :
    Represents cap { m.set x ⟨bs.length, false, .heapData (some a)⟩ with
      heap := Function.update m.heap a (some bs) } (Function.update v x (some bs)) where
  objects z := by
    have hobj := objects_set m x z ⟨bs.length, false, .heapData (some a)⟩
    dsimp only
    rw [hobj, Function.update_apply]
    split_ifs with hz
    · exact .some (.onHeap hcap (Function.update_self _ _ _))
    · -- The block is not that of another object, since it was not allocated.
      refine rel_congr (h.others z hz) fun b hb => Function.update_of_ne (fun hba => ?_) _ _
      exact h.exclusive.allocated (hba ▸ hb) ha
  exclusive := (h.exclusive.acquire h.own ha bs).congr (congrFun (own_set m x _))

/-- The object is gone. -/
theorem Vacant.remove (h : Vacant cap m v x) :
    Represents cap { m with objects := Function.update m.objects x none }
      (Function.update v x none) where
  objects z := by
    dsimp only
    rw [Function.update_apply, Function.update_apply]
    split_ifs with hz
    · exact .none
    · exact h.others z hz
  exclusive := by
    refine h.exclusive.congr fun z => ?_
    dsimp only [Memory.own]
    rw [Function.update_apply]
    split_ifs with hz
    · exact hz ▸ h.own.symm
    · rfl

/-- The object takes over from another one, which keeps its bytes or is left empty. -/
theorem Vacant.takeOver (h : Vacant cap m v x) (hne : y ≠ x) (hy : m.objects y = some o)
    (hv : v y = some bs) :
    ∃ m', m.takeOver x y o = some m' ∧ Represents cap m'
      (Function.update (Function.update v y (some (leftBy cap bs))) x (some bs)) := by
  have ho : Holds cap m.heap o bs := by
    have hrel := h.others y hne
    rw [hy, hv] at hrel
    cases hrel with
    | some ho => exact ho
  cases ho with
  | @inPlace storage bs hcap hread =>
    refine ⟨m.set x ⟨bs.length, true, .inlineData bs⟩, ?_, ?_⟩
    · simp only [Memory.takeOver, hread, if_true, Option.map_some]
    · have hsame : Function.update v y (some bs) = v := by rw [← hv, Function.update_eq_self]
      rw [leftBy, if_pos hcap, hsame]
      exact h.set (.inPlace hcap (read_inlineData bs)) rfl
  | @onHeap a bs hcap hheap =>
    refine ⟨_, rfl, fun z => ?_, ?_⟩
    · rw [objects_set, objects_set, Function.update_apply, Function.update_apply, leftBy,
        if_neg (Nat.not_le.2 hcap)]
      split_ifs with hzx hzy
      · exact .some (.onHeap hcap hheap)
      · exact .some (@Holds.inPlace cap _ _ [] (Nat.zero_le cap) (read_zero _))
      · exact h.others z hzx
    · have hown : m.own y = some a := by
        rw [Memory.own, hy]
        rfl
      have htransfer := @Exclusive.transfer _ _ _ _ _ x y _ h.exclusive h.own
      rw [hown] at htransfer
      rw [own_set, own_set]
      exact htransfer

/-- `free_heap` leaves an object without a block. -/
theorem Represents.freeHeap (h : Represents cap m v) (hx : m.objects x = some o) :
    ∃ m', m.freeHeap x o = some m' ∧ Vacant cap m' v x ∧
      (∀ z, z ≠ x → m'.objects z = m.objects z) ∧ (∃ o', m'.objects x = some o') ∧
      ∀ a, m.heap a = none → m'.heap a = none := by
  obtain ⟨bs, -, ho⟩ := h.exists_bytes hx
  cases ho with
  | inPlace hcap hread =>
    refine ⟨m, rfl, h.vacant ?_, fun _ _ => rfl, ⟨_, hx⟩, fun _ ha => ha⟩
    rw [own, hx]
    rfl
  | @onHeap a bs hcap hheap =>
    have hown : m.own x = some a := by
      rw [own, hx]
      rfl
    refine ⟨{ m.set x ⟨bs.length, false, .heapData none⟩ with
      heap := Function.update m.heap a none }, ?_, ⟨fun z hz => ?_, ?_, ?_⟩, fun z hz => ?_,
      ⟨_, Function.update_self _ _ _⟩, fun b hb => ?_⟩
    · simp only [Memory.freeHeap, hheap]
      rfl
    · -- The block is not that of another object.
      have hobj := objects_set m x z ⟨bs.length, false, .heapData none⟩
      dsimp only
      rw [hobj, if_neg hz]
      refine rel_congr (h.objects z) fun b hb => Function.update_of_ne (fun hba => hz ?_) _ _
      exact h.exclusive.unique (hba ▸ hb) hown
    · exact (congrFun (own_set m x _) x).trans (Function.update_self _ _ _)
    · exact (h.exclusive.release hown).congr (congrFun (own_set m x _))
    · exact Function.update_of_ne hz _ _
    · dsimp only
      rw [Function.update_apply]
      split_ifs
      · rfl
      · exact hb

/-- `assign` fills the object in place or on the heap. -/
theorem Vacant.copyTo (h : Vacant cap m v x) (ha : m.heap a = none) (o : SmallPayload)
    (bs : Bytes) :
    ∃ m', m.copyTo cap a x o bs = some m' ∧
      Represents cap m' (Function.update v x (some bs)) := by
  rw [Memory.copyTo]
  split_ifs with hcap hnil
  · subst hnil
    exact ⟨_, rfl, h.set (@Holds.inPlace cap _ _ [] hcap (read_zero _)) rfl⟩
  · exact ⟨_, rfl, h.set (.inPlace hcap (read_inlineData bs)) rfl⟩
  · exact ⟨_, rfl, h.alloc ha (Nat.not_le.1 hcap)⟩

/-! ## Programs -/

variable {op : PayloadOp ι}

/-- What can be done with lists of bytes can be done with the payloads, with the same result. -/
theorem Represents.exec (h : Represents cap m v) (hspec : spec cap v op = some v')
    (ha : m.heap a = none) : ∃ m', m.exec cap a op = some m' ∧ Represents cap m' v' := by
  have hown : ∀ {x}, m.objects x = none → m.own x = none := fun hx => by
    rw [own, hx]
    rfl
  cases op with
  | construct x =>
    rw [spec] at hspec
    split_ifs at hspec with hx
    cases hspec
    have hobj := h.objects_eq_none.2 hx
    refine ⟨m.set x .new, if_pos hobj, (h.vacant (hown hobj)).set ?_ rfl⟩
    exact @Holds.inPlace cap _ _ [] (Nat.zero_le cap) (read_zero _)
  | destroy x =>
    obtain ⟨bs, hx, rfl⟩ := Option.map_eq_some_iff.1 hspec
    obtain ⟨o, hobj, -⟩ := h.exists_holds hx
    obtain ⟨m₁, hfree, hvac, -⟩ := h.freeHeap hobj
    refine ⟨_, ?_, hvac.remove⟩
    rw [Memory.exec, hobj, Option.bind_some, hfree, Option.map_some]
  | moveConstruct x y =>
    rw [spec] at hspec
    split_ifs at hspec with hx
    obtain ⟨bs, hy, rfl⟩ := Option.map_eq_some_iff.1 hspec
    have hobj := h.objects_eq_none.2 hx
    obtain ⟨o, hobjy, -⟩ := h.exists_holds hy
    have hne : y ≠ x := fun heq => by
      rw [heq, hx] at hy
      cases hy
    obtain ⟨m', htake, hrep⟩ := (h.vacant (hown hobj)).takeOver hne hobjy hy
    exact ⟨m', by rw [Memory.exec, if_pos hobj, hobjy, Option.bind_some, htake], hrep⟩
  | moveAssign x y =>
    obtain ⟨bs, hx, hspec⟩ := Option.bind_eq_some_iff.1 hspec
    obtain ⟨o, hobj, -⟩ := h.exists_holds hx
    split_ifs at hspec with heq
    · cases hspec
      exact ⟨m, by rw [Memory.exec, hobj, Option.bind_some, if_pos heq], h⟩
    · obtain ⟨bs', hy, rfl⟩ := Option.map_eq_some_iff.1 hspec
      obtain ⟨m₁, hfree, hvac, hsame, -⟩ := h.freeHeap hobj
      obtain ⟨o', hobjy, -⟩ := h.exists_holds hy
      rw [← hsame y (Ne.symm heq)] at hobjy
      obtain ⟨m', htake, hrep⟩ := hvac.takeOver (Ne.symm heq) hobjy hy
      refine ⟨m', ?_, hrep⟩
      rw [Memory.exec, hobj, Option.bind_some, if_neg heq, hfree, Option.bind_some, hobjy,
        Option.bind_some, htake]
  | assign x bs =>
    obtain ⟨bs', hx, rfl⟩ := Option.map_eq_some_iff.1 hspec
    obtain ⟨o, hobj, -⟩ := h.exists_holds hx
    obtain ⟨m₁, hfree, hvac, -, ⟨o', hobj'⟩, hfresh⟩ := h.freeHeap hobj
    obtain ⟨m', hcopy, hrep⟩ := hvac.copyTo (hfresh a ha) o' bs
    refine ⟨m', ?_, hrep⟩
    rw [Memory.exec, hobj, Option.bind_some, hfree, Option.bind_some, hobj', Option.bind_some,
      hcopy]

/-- What can be done with the payloads can be done with lists of bytes. -/
theorem Represents.exists_spec (h : Represents cap m v) (hexec : m.exec cap a op = some m') :
    ∃ v', spec cap v op = some v' := by
  cases op with
  | construct x =>
    rw [Memory.exec] at hexec
    split_ifs at hexec with hx
    exact ⟨_, if_pos (h.objects_eq_none.1 hx)⟩
  | destroy x =>
    obtain ⟨o, hx, -⟩ := Option.bind_eq_some_iff.1 hexec
    obtain ⟨bs, hv, -⟩ := h.exists_bytes hx
    exact ⟨_, by rw [spec, hv, Option.map_some]⟩
  | moveConstruct x y =>
    rw [Memory.exec] at hexec
    split_ifs at hexec with hx
    obtain ⟨o, hy, -⟩ := Option.bind_eq_some_iff.1 hexec
    obtain ⟨bs, hv, -⟩ := h.exists_bytes hy
    exact ⟨_, by rw [spec, if_pos (h.objects_eq_none.1 hx), hv, Option.map_some]⟩
  | moveAssign x y =>
    obtain ⟨o, hx, hexec⟩ := Option.bind_eq_some_iff.1 hexec
    obtain ⟨bs, hv, -⟩ := h.exists_bytes hx
    split_ifs at hexec with heq
    · exact ⟨v, by rw [spec, hv, Option.bind_some, if_pos heq]⟩
    · obtain ⟨m₁, hfree, hexec⟩ := Option.bind_eq_some_iff.1 hexec
      obtain ⟨m₂, hfree', -, hsame, -⟩ := h.freeHeap hx
      rw [hfree] at hfree'
      cases hfree'
      obtain ⟨o', hy, -⟩ := Option.bind_eq_some_iff.1 hexec
      rw [hsame y (Ne.symm heq)] at hy
      obtain ⟨bs', hv', -⟩ := h.exists_bytes hy
      exact ⟨_, by rw [spec, hv, Option.bind_some, if_neg heq, hv', Option.map_some]⟩
  | assign x bs =>
    obtain ⟨o, hx, -⟩ := Option.bind_eq_some_iff.1 hexec
    obtain ⟨bs', hv, -⟩ := h.exists_bytes hx
    exact ⟨_, by rw [spec, hv, Option.map_some]⟩

/-- An operation, with an address for `new` at which there is no block. -/
def Step (cap : ℕ) (m : Memory ι) (e : PayloadOp ι × ℕ) (m' : Memory ι) : Prop :=
  m.heap e.2 = none ∧ m.exec cap e.2 e.1 = some m'

variable {es : List (PayloadOp ι × ℕ)}

theorem Run.exists_represents (hrun : Run (Step cap) (empty ι) es m) :
    ∃ v, (es.map Prod.fst).foldlM (spec cap) (fun _ => none) = some v ∧ Represents cap m v := by
  refine hrun.invariant (I := fun es m => ∃ v, (es.map Prod.fst).foldlM (spec cap) (fun _ => none)
    = some v ∧ Represents cap m v) ⟨_, rfl, fun _ => .none, .empty⟩ ?_
  rintro es m ⟨op, a⟩ m' - ⟨v, hv, hrep⟩ ⟨ha, hexec⟩
  obtain ⟨v', hspec⟩ := hrep.exists_spec hexec
  obtain ⟨m'', hexec', hrep'⟩ := hrep.exec hspec ha
  rw [hexec] at hexec'
  cases hexec'
  refine ⟨v', ?_, hrep'⟩
  rw [List.map_append, List.foldlM_append, hv]
  simp [hspec]

/-- Every program on payloads does what it does on lists of bytes: whatever addresses `new` returns,
    it can go on as long as it can there, the payloads hold the same bytes, and the blocks allocated
    are those of the payloads on the heap, one for each. -/
theorem exec_refines (hrun : Run (Step cap) (empty ι) es m) :
    ∃ v, (es.map Prod.fst).foldlM (spec cap) (fun _ => none) = some v ∧
      (∀ x, m.contents x = v x) ∧ Exclusive m.own m.heap ∧
      ∀ op a, (spec cap v op).isSome → m.heap a = none → ∃ m', Step cap m (op, a) m' := by
  obtain ⟨v, hv, hrep⟩ := Run.exists_represents hrun
  refine ⟨v, hv, fun x => ?_, hrep.exclusive, fun op a hspec ha => ?_⟩
  · cases hx : v x with
    | none => rw [contents, hrep.objects_eq_none.2 hx, Option.bind_none]
    | some bs =>
      obtain ⟨o, ho, hbs⟩ := hrep.exists_holds hx
      rw [contents, ho, Option.bind_some, hbs.data]
  · obtain ⟨v', hv'⟩ := Option.isSome_iff_exists.1 hspec
    obtain ⟨m', hexec, -⟩ := hrep.exec hv' ha
    exact ⟨m', ha, hexec⟩

/-- A payload of two bytes, with a capacity of one, is moved, and both objects are destroyed. -/
def moveAndDestroy : List (PayloadOp Bool × ℕ) :=
  [(.construct true, 0), (.assign true [7, 8], 0), (.moveConstruct false true, 1),
    (.destroy true, 1), (.destroy false, 1)]

theorem exec_refines_moveAndDestroy : ∃ m, Run (Step 1) (empty Bool) moveAndDestroy m ∧
    Exclusive m.own m.heap ∧ ∀ a, m.heap a = none := by
  have hrun : Run (Step 1) (empty Bool) moveAndDestroy _ :=
    .cons ⟨rfl, rfl⟩ (.cons ⟨rfl, rfl⟩ (.cons ⟨rfl, rfl⟩ (.cons ⟨rfl, rfl⟩ (.single ⟨rfl, rfl⟩))))
  obtain ⟨v, -, -, hex, -⟩ := exec_refines hrun
  exact ⟨_, hrun, hex, hex.heap_eq_none fun x => by cases x <;> rfl⟩

end

end Memory

end Fell.Broker
