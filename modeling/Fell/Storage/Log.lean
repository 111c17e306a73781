import Fell.Storage.PartitionStore

/-!
# The log of a store

What the queue, the batch in the hands of the I/O thread and the segment files
hold together, in every run of a store from the moment it is opened: the
accepted appends, in the order of acceptance.

The events of a run tell which commands were accepted (`accepted`), and which
records were written (`writtenRecords`) and to which segment (`writtenTo`).

* `Run.queued`: what is written, in flight and queued are the accepted commands,
  and all the counters agree with that;
* `Run.log_eq`: every log has grown by the records written to it;
* `Run.laidOut`: the segments, one after the other, hold the records written.
-/

namespace Fell.Storage.PartitionStore

open Platform

variable {κ : Type} {s s' s₀ : PartitionStore κ} {e : Event κ} {es : List (Event κ)}

/-! ## Events -/

/-- The batch that is taken off the queue and not yet written. -/
def inFlight (s : PartitionStore κ) : List Record :=
  match s.io with
  | .gathering batch => batch
  | .taken batch => batch
  | _ => []

theorem inFlight_of_taken {batch : List Record} (hio : s.io = .taken batch) :
    s.inFlight = batch := by
  rw [inFlight, hio]

/-- The command accepted in a step. -/
def Event.accepted : Event κ → List Record
  | .appended cmd => [cmd]
  | _ => []

/-- The records written in a step. -/
def Event.written : Event κ → List Record
  | .wrote _ batch => batch
  | _ => []

/-- The records written to the segment `base` in a step. -/
def Event.writtenTo (base : UInt64) : Event κ → List Record
  | .wrote base' batch => if base' = base then batch else []
  | _ => []

/-- The commands of the accepted appends, in the order of acceptance. -/
def accepted (es : List (Event κ)) : List Record := es.flatMap Event.accepted

/-- The records written, in the order of writing. -/
def writtenRecords (es : List (Event κ)) : List Record := es.flatMap Event.written

/-- The records written to the segment `base`, in the order of writing. -/
def writtenTo (base : UInt64) (es : List (Event κ)) : List Record :=
  es.flatMap (Event.writtenTo base)

@[simp] theorem accepted_snoc : accepted (es ++ [e]) = accepted es ++ e.accepted := by
  simp [accepted]

@[simp] theorem writtenRecords_snoc :
    writtenRecords (es ++ [e]) = writtenRecords es ++ e.written := by
  simp [writtenRecords]

@[simp] theorem writtenTo_snoc (base : UInt64) :
    writtenTo base (es ++ [e]) = writtenTo base es ++ e.writtenTo base := by
  simp [writtenTo]

/-! ## Consecutive offsets -/

/-- The offsets of `rs` are `b`, `b + 1`, and so on, as the counters count. -/
def Consecutive (b : UInt64) (rs : List Record) : Prop :=
  ∀ i r, rs[i]? = some r → r.offset = b + UInt64.ofNat i

theorem add_ofNat_succ (b : UInt64) (n : ℕ) :
    b + UInt64.ofNat n + 1 = b + UInt64.ofNat (n + 1) := by
  rw [UInt64.ofNat_add, UInt64.add_assoc]
  rfl

theorem toNat_add_ofNat {b : UInt64} {n : ℕ} (h : b.toNat + n < 2 ^ 64) :
    (b + UInt64.ofNat n).toNat = b.toNat + n := by
  rw [UInt64.toNat_add, UInt64.toNat_ofNat', Nat.add_mod_mod]
  exact Nat.mod_eq_of_lt h

theorem Consecutive.append {b : UInt64} {rs rs' : List Record} (h : Consecutive b rs)
    (h' : Consecutive (b + UInt64.ofNat rs.length) rs') : Consecutive b (rs ++ rs') := by
  intro i r hi
  rcases Nat.lt_or_ge i rs.length with hlt | hge
  · rw [List.getElem?_append_left hlt] at hi
    exact h i r hi
  · rw [List.getElem?_append_right hge] at hi
    rw [h' _ r hi, UInt64.add_assoc, ← UInt64.ofNat_add, Nat.add_sub_cancel' hge]

theorem Consecutive.left {b : UInt64} {rs rs' : List Record} (h : Consecutive b (rs ++ rs')) :
    Consecutive b rs := fun i r hi =>
  h i r ((List.getElem?_append_left (List.getElem?_eq_some_iff.1 hi).1).trans hi)

theorem Consecutive.right {b : UInt64} {rs rs' : List Record} (h : Consecutive b (rs ++ rs')) :
    Consecutive (b + UInt64.ofNat rs.length) rs' := by
  intro i r hi
  have hi' : (rs ++ rs')[rs.length + i]? = some r := by
    rw [List.getElem?_append_right (Nat.le_add_right _ _), Nat.add_sub_cancel_left, hi]
  rw [h _ _ hi', UInt64.ofNat_add, UInt64.add_assoc]

theorem consecutive_singleton {b : UInt64} {r : Record} : Consecutive b [r] ↔ r.offset = b := by
  simp [Consecutive, List.getElem?_singleton]

/-- Consecutive offsets that stay below `2 ^ 64` do not wrap. -/
theorem Consecutive.numbered {b : UInt64} {rs : List Record} (h : Consecutive b rs)
    (hlt : b.toNat + rs.length < 2 ^ 64) : Numbered b.toNat rs := by
  refine List.ext_getElem (by simp) fun i h₁ h₂ => ?_
  rw [List.length_map] at h₁
  rw [List.getElem_map, List.getElem_range', Nat.one_mul, h i _ (List.getElem?_eq_getElem h₁),
    toNat_add_ofNat (by omega)]

/-! ## The batch in the I/O thread -/

/-- The I/O thread carries no empty batch. -/
def Loaded (s : PartitionStore κ) : Prop :=
  match s.io with
  | .gathering batch | .taken batch | .written batch | .notified batch => batch ≠ []
  | .waiting | .stopped => True

theorem Step.loaded (h : s.Loaded) (hst : Step s e s') : s'.Loaded := by
  cases hst with
  | append payload now hacc => rw [append_of_accepted hacc]; exact h
  | refuse payload now hrej => rw [append_of_rejected hrej]; exact h
  | register offset cb => rw [setOnceCommitCallback_snd]; exact h
  | takeFirst hio hq => exact List.cons_ne_nil _ _
  | takeMore hio hfull hq => exact List.append_ne_nil_of_right_ne_nil _ (List.cons_ne_nil _ _)
  | takeDone hio => simpa [Loaded, hio] using h
  | write hio hw => simpa [Loaded, hio] using h
  | notify hio => simpa [Loaded, hio] using h
  | endRound hio => trivial
  | fetch offset maxCount => rw [fetch_snd]; exact h
  | shutDown => exact h
  | stop hio hs hq => trivial

theorem Run.loaded (hrun : Run Step s₀ es s) (h : s₀.Loaded) : s.Loaded :=
  hrun.invariant (I := fun _ s => s.Loaded) h fun _ ih hst => hst.loaded ih

/-- A batch that is written ends with some record. -/
theorem Loaded.getLast? {batch : List Record} (h : s.Loaded) (hio : s.io = .taken batch) :
    ∃ last, batch.getLast? = some last := by
  have hne : batch ≠ [] := by simpa [Loaded, hio] using h
  exact ⟨_, List.getLast?_eq_some_getLast hne⟩

/-! ## The queue -/

/-- What is written, in flight and queued are the accepted commands, numbered from
    `b` on, and the counters tell how many they are. -/
structure Queued (b : UInt64) (es : List (Event κ)) (s : PartitionStore κ) : Prop where
  accepted_eq : writtenRecords es ++ s.inFlight ++ s.queue = accepted es
  consecutive : Consecutive b (accepted es)
  nextOffset : s.nextOffset = b + UInt64.ofNat (accepted es).length
  committedOffset : s.committedOffset = b + UInt64.ofNat (writtenRecords es).length
  writerNextOffset : s.writer.nextOffset = b + UInt64.ofNat (writtenRecords es).length

variable {b : UInt64}

/-- A step that neither accepts nor writes may only move the batch. -/
theorem Queued.frame (h : Queued b es s) (hacc : e.accepted = []) (hwr : e.written = [])
    (hq : s'.inFlight ++ s'.queue = s.inFlight ++ s.queue) (hn : s'.nextOffset = s.nextOffset)
    (hc : s'.committedOffset = s.committedOffset)
    (hw : s'.writer.nextOffset = s.writer.nextOffset) : Queued b (es ++ [e]) s' where
  accepted_eq := by
    rw [writtenRecords_snoc, accepted_snoc, hacc, hwr, List.append_nil, List.append_nil,
      List.append_assoc, hq, ← List.append_assoc, h.accepted_eq]
  consecutive := by rw [accepted_snoc, hacc, List.append_nil]; exact h.consecutive
  nextOffset := by rw [accepted_snoc, hacc, List.append_nil, hn, h.nextOffset]
  committedOffset := by rw [writtenRecords_snoc, hwr, List.append_nil, hc, h.committedOffset]
  writerNextOffset := by rw [writtenRecords_snoc, hwr, List.append_nil, hw, h.writerNextOffset]

theorem Queued.enqueue (h : Queued b es s) (payload : Payload) (now : UInt64) :
    Queued b (es ++ [.appended (s.command payload now)]) (s.enqueue payload now) where
  accepted_eq := by
    simp only [writtenRecords_snoc, accepted_snoc, Event.accepted, Event.written, List.append_nil]
    rw [← h.accepted_eq, List.append_assoc _ s.queue]
    rfl
  consecutive := by
    rw [accepted_snoc]
    exact h.consecutive.append (consecutive_singleton.2 h.nextOffset)
  nextOffset := by
    rw [accepted_snoc, Event.accepted, List.length_append, List.length_singleton, ← add_ofNat_succ,
      ← h.nextOffset]
    rfl
  committedOffset := by
    simpa [Event.written, PartitionStore.enqueue, getCachedTimestampLocked] using h.committedOffset
  writerNextOffset := by
    simpa [Event.written, PartitionStore.enqueue, getCachedTimestampLocked] using h.writerNextOffset

/-- The batch in flight follows the records written. -/
theorem Queued.consecutive_inFlight (h : Queued b es s) :
    Consecutive (b + UInt64.ofNat (writtenRecords es).length) s.inFlight := by
  have hcons := h.consecutive
  rw [← h.accepted_eq] at hcons
  exact hcons.left.right

theorem Queued.afterWrite {batch : List Record} {last : Record} (h : Queued b es s)
    (hio : s.io = .taken batch) (hlast : batch.getLast? = some last) :
    Queued b (es ++ [.wrote s.writer.baseOffset batch])
      { s.afterWrite batch last.offset with io := .written batch } where
  accepted_eq := by
    simpa [Event.accepted, Event.written, inFlight, hio, PartitionStore.afterWrite]
      using h.accepted_eq
  consecutive := by simpa [Event.accepted] using h.consecutive
  nextOffset := by simpa [Event.accepted, PartitionStore.afterWrite] using h.nextOffset
  committedOffset := by
    -- The counter is set from the last record of the batch, whose offset is one less.
    have hlen : batch.length - 1 + 1 = batch.length := by
      have : batch ≠ [] := by rintro rfl; simp at hlast
      have := List.length_pos_of_ne_nil this
      omega
    rw [List.getLast?_eq_getElem?] at hlast
    have hcons := h.consecutive_inFlight
    rw [inFlight_of_taken hio] at hcons
    have := hcons _ _ hlast
    rw [writtenRecords_snoc, Event.written, List.length_append]
    change last.offset + 1 = _
    rw [this, UInt64.add_assoc, UInt64.add_assoc, UInt64.ofNat_add]
    congr 2
    rw [← hlen, UInt64.ofNat_add]
    rfl
  writerNextOffset := by
    rw [writtenRecords_snoc, Event.written, List.length_append, UInt64.ofNat_add,
      ← UInt64.add_assoc, ← h.writerNextOffset]
    rfl

theorem Step.queued (hl : s.Loaded) (h : Queued b es s) (hst : Step s e s') :
    Queued b (es ++ [e]) s' := by
  cases hst with
  | append payload now hacc => rw [append_of_accepted hacc]; exact h.enqueue payload now
  | refuse payload now hrej => rw [append_of_rejected hrej]; exact h.frame rfl rfl rfl rfl rfl rfl
  | register offset cb => rw [setOnceCommitCallback_snd]; exact h.frame rfl rfl rfl rfl rfl rfl
  | takeFirst hio hq =>
    exact h.frame rfl rfl (by simp [inFlight, take, hio, hq]) rfl rfl rfl
  | takeMore hio hfull hq =>
    exact h.frame rfl rfl (by simp [inFlight, take, hio, hq]) rfl rfl rfl
  | takeDone hio => exact h.frame rfl rfl (by simp [inFlight, hio]) rfl rfl rfl
  | write hio hw =>
    obtain ⟨last, hlast⟩ := hl.getLast? hio
    obtain ⟨rfl, -⟩ := writeBatch_eq_some hlast hw
    exact h.afterWrite hio hlast
  | notify hio => exact h.frame rfl rfl (by simp [inFlight, hio, fireOnceCallbacks]) rfl rfl rfl
  | endRound hio =>
    rw [endRound_eq]
    exact h.frame rfl rfl (by simp [inFlight, hio]) rfl rfl rfl
  | fetch offset maxCount => rw [fetch_snd]; exact h.frame rfl rfl rfl rfl rfl rfl
  | shutDown => exact h.frame rfl rfl rfl rfl rfl rfl
  | stop hio hs hq => exact h.frame rfl rfl (by simp [inFlight, hio]) rfl rfl rfl

/-- A store that has just been opened: nothing queued, and all the counters at the
    next offset. -/
structure Fresh (s : PartitionStore κ) : Prop where
  io : s.io = .waiting
  queue : s.queue = []
  committedOffset : s.committedOffset = s.nextOffset
  writerNextOffset : s.writer.nextOffset = s.nextOffset

theorem fresh_open (dir : Dir) (options : StorageOptions) :
    Fresh («open» dir options : PartitionStore κ) :=
  ⟨rfl, rfl, rfl, rfl⟩

theorem Fresh.loaded (h : Fresh s₀) : s₀.Loaded := by simp [Loaded, h.io]

theorem Fresh.queued (h : Fresh s₀) : Queued s₀.nextOffset [] s₀ where
  accepted_eq := by simp [inFlight, h.io, h.queue, accepted, writtenRecords]
  consecutive i r hi := by simp [accepted] at hi
  nextOffset := by simp [accepted]
  committedOffset := by simp [writtenRecords, h.committedOffset]
  writerNextOffset := by simp [writtenRecords, h.writerNextOffset]

theorem Run.queued (hrun : Run Step s₀ es s) (h : Fresh s₀) : Queued s₀.nextOffset es s :=
  hrun.invariant (I := Queued s₀.nextOffset) h.queued fun hr ih hst =>
    hst.queued (Run.loaded hr h.loaded) ih

/-- Without anything queued or in flight, nothing is committed. -/
theorem Run.idle_step (hrun : Run Step s₀ es s) (h : Fresh s₀) (hst : Step s e s')
    (hacc : e.accepted = []) (hin : s.inFlight = []) (hqueue : s.queue = []) :
    s'.inFlight = [] ∧ s'.queue = [] ∧ s'.committedOffset = s.committedOffset := by
  have hold := Run.queued hrun h
  have hnew := Run.queued (hrun.snoc hst) h
  have heq := hnew.accepted_eq
  rw [writtenRecords_snoc, accepted_snoc, hacc, ← hold.accepted_eq, hin, hqueue] at heq
  obtain ⟨hwr, hin', hqueue'⟩ : e.written = [] ∧ s'.inFlight = [] ∧ s'.queue = [] := by
    simpa using heq
  refine ⟨hin', hqueue', ?_⟩
  rw [hnew.committedOffset, hold.committedOffset, writtenRecords_snoc, hwr, List.append_nil]

/-! ## The callbacks -/

/-- The records the callbacks are called for in a step. -/
def Event.toldOf : Event κ → List Record
  | .notified batch _ => batch
  | _ => []

/-- The records the callbacks have been called for. -/
def notifiedRecords (es : List (Event κ)) : List Record := es.flatMap Event.toldOf

@[simp] theorem notifiedRecords_snoc :
    notifiedRecords (es ++ [e]) = notifiedRecords es ++ e.toldOf := by
  simp [notifiedRecords]

/-- The batch that is written, and for which the callbacks have not been called. -/
def unnotified (s : PartitionStore κ) : List Record :=
  match s.io with
  | .written batch => batch
  | _ => []

theorem Step.unnotified_eq (hst : Step s e s') :
    e.toldOf ++ s'.unnotified = s.unnotified ++ e.written := by
  cases hst with
  | append payload now hacc =>
    rw [append_of_accepted hacc]
    exact (List.append_nil s.unnotified).symm
  | refuse payload now hrej =>
    rw [append_of_rejected hrej]
    exact (List.append_nil s.unnotified).symm
  | register offset cb =>
    rw [setOnceCommitCallback_snd]
    exact (List.append_nil s.unnotified).symm
  | fetch offset maxCount =>
    rw [fetch_snd]
    exact (List.append_nil s.unnotified).symm
  | shutDown => exact (List.append_nil s.unnotified).symm
  | takeFirst hio hq => simp [unnotified, hio, take, Event.toldOf, Event.written]
  | takeMore hio hfull hq => simp [unnotified, hio, take, Event.toldOf, Event.written]
  | takeDone hio => simp [unnotified, hio, Event.toldOf, Event.written]
  | write hio hw => simp [unnotified, hio, Event.toldOf, Event.written]
  | notify hio => simp [unnotified, hio, Event.toldOf, Event.written]
  | endRound hio => simp [unnotified, hio, Event.toldOf, Event.written]
  | stop hio hs hq => simp [unnotified, hio, Event.toldOf, Event.written]

/-- The callbacks are called for the records written, in order. -/
theorem Run.notified_append_unnotified (hrun : Run Step s₀ es s) (h : Fresh s₀) :
    notifiedRecords es ++ s.unnotified = writtenRecords es := by
  refine hrun.invariant (I := fun es s => notifiedRecords es ++ s.unnotified = writtenRecords es)
    (by simp [notifiedRecords, writtenRecords, unnotified, h.io]) fun _ ih hst => ?_
  rw [notifiedRecords_snoc, writtenRecords_snoc, List.append_assoc, hst.unnotified_eq,
    ← List.append_assoc, ih]

/-- The records that are accepted, and for which the callbacks have not been called. -/
def outstanding (s : PartitionStore κ) : List Record := s.unnotified ++ (s.inFlight ++ s.queue)

theorem Run.notified_append_outstanding (hrun : Run Step s₀ es s) (h : Fresh s₀) :
    notifiedRecords es ++ s.outstanding = accepted es := by
  rw [outstanding, ← List.append_assoc, Run.notified_append_unnotified hrun h, ← List.append_assoc,
    (Run.queued hrun h).accepted_eq]

/-- What is outstanding follows the records the callbacks were called for. -/
theorem Run.numbered_outstanding (hrun : Run Step s₀ es s) (h : Fresh s₀)
    (hlt : s₀.nextOffset.toNat + (accepted es).length < 2 ^ 64) :
    Numbered (s₀.nextOffset.toNat + (notifiedRecords es).length) s.outstanding := by
  have hnum := (Run.queued hrun h).consecutive.numbered hlt
  rw [← Run.notified_append_outstanding hrun h, numbered_append] at hnum
  exact hnum.2

/-- What is accepted is outstanding until the callbacks are called for it. -/
theorem Run.outstanding_eq (hrun : Run Step s₀ es s) (h : Fresh s₀) (hst : Step s e s') :
    e.toldOf ++ s'.outstanding = s.outstanding ++ e.accepted := by
  have heq := Run.notified_append_outstanding (hrun.snoc hst) h
  rw [notifiedRecords_snoc, accepted_snoc, ← Run.notified_append_outstanding hrun h,
    List.append_assoc, List.append_assoc] at heq
  exact List.append_cancel_left heq

/-- The batch that is written follows the records the callbacks were called for. -/
theorem Run.numbered_unnotified (hrun : Run Step s₀ es s) (h : Fresh s₀)
    (hlt : s₀.nextOffset.toNat + (accepted es).length < 2 ^ 64) :
    ∃ n, Numbered n s.unnotified ∧ n + s.unnotified.length < 2 ^ 64 := by
  have hlen := congrArg List.length (Run.notified_append_outstanding hrun h)
  have hnum := Run.numbered_outstanding hrun h hlt
  rw [outstanding, List.length_append, List.length_append] at hlen
  rw [outstanding, numbered_append] at hnum
  exact ⟨_, hnum.1, by omega⟩

/-- The callbacks called in a step. -/
def Event.fired : Event κ → List κ
  | .registered _ _ fired | .notified _ fired => fired
  | _ => []

/-- A step registers a callback, calls those that are due, or leaves them alone. -/
theorem Step.callback_cases (hl : s.Loaded) (hst : Step s e s') :
    (e.fired = [] ∧ e.toldOf = [] ∧ s'.onceCallbacks = s.onceCallbacks) ∨
      (∃ offset cb fired, e = .registered offset cb fired) ∨
      ∃ batch, s.io = .written batch ∧
        e = .notified batch (s.fireOnceCallbacks s.committedOffset).1 ∧
        s' = { (s.fireOnceCallbacks s.committedOffset).2 with io := .notified batch } := by
  cases hst with
  | append payload now hacc =>
    rw [append_of_accepted hacc]
    exact .inl ⟨rfl, rfl, rfl⟩
  | refuse payload now hrej =>
    rw [append_of_rejected hrej]
    exact .inl ⟨rfl, rfl, rfl⟩
  | register offset cb => exact .inr (.inl ⟨_, _, _, rfl⟩)
  | notify hio => exact .inr (.inr ⟨_, hio, rfl, rfl⟩)
  | write hio hw =>
    obtain ⟨last, hlast⟩ := hl.getLast? hio
    obtain ⟨rfl, -⟩ := writeBatch_eq_some hlast hw
    exact .inl ⟨rfl, rfl, rfl⟩
  | endRound hio =>
    rw [endRound_eq]
    exact .inl ⟨rfl, rfl, rfl⟩
  | fetch offset maxCount =>
    rw [fetch_snd]
    exact .inl ⟨rfl, rfl, rfl⟩
  | takeFirst | takeMore | takeDone | shutDown | stop => exact .inl ⟨rfl, rfl, rfl⟩

/-! ## The logs -/

/-- The log of the segment `base`. -/
def log (s : PartitionStore κ) (base : UInt64) : Bytes := (s.dir.files base).log

theorem files_openFiles (dir : Dir) (base base' : UInt64) :
    Dir.files (openFiles dir base) base' = dir.files base' := by
  rw [openFiles]
  split_ifs with hmem
  · rfl
  · by_cases hb : base' = base
    · rw [hb, Dir.files_insert_self, Dir.files, AList.lookup_eq_none.2 hmem]
      rfl
    · exact Dir.files_insert_ne hb _

theorem endRound_files (s : PartitionStore κ) (base : UInt64) :
    s.endRound.dir.files base = s.dir.files base := by
  rw [endRound]
  split_ifs
  · exact files_openFiles _ _ _
  · rfl

/-- A batch has been written in this round of the I/O loop. -/
def HasWritten (s : PartitionStore κ) : Prop :=
  match s.io with
  | .written _ | .notified _ => True
  | _ => False

/-- Nothing is written, and the files and the segments are left alone. -/
structure Aside (s : PartitionStore κ) (e : Event κ) (s' : PartitionStore κ) : Prop where
  written : e.written = []
  dir : s'.dir = s.dir
  writer : s'.writer = s.writer
  sealedSegments : s'.sealedSegments = s.sealedSegments
  hasWritten : s'.HasWritten → s.HasWritten

/-- A step writes a batch, ends a round, or leaves the files and the segments alone. -/
theorem Step.segment_cases (hl : s.Loaded) (hst : Step s e s') :
    Aside s e s' ∨
      (∃ batch last, s.io = .taken batch ∧ batch.getLast? = some last ∧
        e = .wrote s.writer.baseOffset batch ∧
        s' = { s.afterWrite batch last.offset with io := .written batch }) ∨
      ∃ batch, s.io = .notified batch ∧ e = .ended ∧ s' = { s.endRound with io := .waiting } := by
  cases hst with
  | append payload now hacc =>
    rw [append_of_accepted hacc]
    exact .inl ⟨rfl, rfl, rfl, rfl, id⟩
  | refuse payload now hrej =>
    rw [append_of_rejected hrej]
    exact .inl ⟨rfl, rfl, rfl, rfl, id⟩
  | register offset cb =>
    rw [setOnceCommitCallback_snd]
    exact .inl ⟨rfl, rfl, rfl, rfl, id⟩
  | fetch offset maxCount =>
    rw [fetch_snd]
    exact .inl ⟨rfl, rfl, rfl, rfl, id⟩
  | shutDown => exact .inl ⟨rfl, rfl, rfl, rfl, id⟩
  | takeFirst | takeMore | takeDone | stop => exact .inl ⟨rfl, rfl, rfl, rfl, False.elim⟩
  | notify hio => exact .inl ⟨rfl, rfl, rfl, rfl, fun _ => by simp [HasWritten, hio]⟩
  | write hio hw =>
    obtain ⟨last, hlast⟩ := hl.getLast? hio
    obtain ⟨rfl, -⟩ := writeBatch_eq_some hlast hw
    exact .inr (.inl ⟨_, last, hio, hlast, rfl, rfl⟩)
  | endRound hio => exact .inr (.inr ⟨_, hio, rfl, rfl⟩)

theorem Event.writtenTo_eq_nil (h : e.written = []) (base : UInt64) : e.writtenTo base = [] := by
  cases e <;> simp_all [Event.written, Event.writtenTo]

theorem log_afterWrite_self (s : PartitionStore κ) (batch : List Record) (last : UInt64) :
    (s.afterWrite batch last).log s.writer.baseOffset =
      s.log s.writer.baseOffset ++ recordFormat.encodeAll batch :=
  congrArg SegmentFiles.log (files_afterWrite_self s batch last)

theorem log_afterWrite_ne {base : UInt64} (h : base ≠ s.writer.baseOffset) (batch : List Record)
    (last : UInt64) : (s.afterWrite batch last).log base = s.log base :=
  congrArg SegmentFiles.log (files_afterWrite_ne h batch last)

/-- A step appends to the logs what it writes. -/
theorem Step.log_eq (hl : s.Loaded) (hst : Step s e s') (base : UInt64) :
    s'.log base = s.log base ++ recordFormat.encodeAll (e.writtenTo base) := by
  rcases hst.segment_cases hl with ha | ⟨batch, last, -, -, rfl, rfl⟩ | ⟨batch, -, rfl, rfl⟩
  · rw [Event.writtenTo_eq_nil ha.written, Format.encodeAll_nil, List.append_nil, log, ha.dir, log]
  · by_cases hb : base = s.writer.baseOffset
    · rw [hb, Event.writtenTo, if_pos rfl]
      exact log_afterWrite_self s batch last.offset
    · rw [Event.writtenTo, if_neg (Ne.symm hb), Format.encodeAll_nil, List.append_nil]
      exact log_afterWrite_ne hb batch last.offset
  · rw [Event.writtenTo_eq_nil rfl, Format.encodeAll_nil, List.append_nil]
    exact congrArg SegmentFiles.log (endRound_files s base)

/-- Since opening, every log has grown by the records written to it. -/
theorem Run.log_eq (hrun : Run Step s₀ es s) (h : s₀.Loaded) (base : UInt64) :
    s.log base = s₀.log base ++ recordFormat.encodeAll (writtenTo base es) := by
  refine hrun.invariant (I := fun es s =>
    s.log base = s₀.log base ++ recordFormat.encodeAll (writtenTo base es)) (by simp [writtenTo]) ?_
  intro es s e s' hr ih hst
  rw [hst.log_eq (Run.loaded hr h), ih, writtenTo_snoc, Format.encodeAll_append, List.append_assoc]

/-! ## The segments -/

/-- The segments of a store, the active one last. -/
def segments (s : PartitionStore κ) : List UInt64 := s.sealedSegments ++ [s.writer.baseOffset]

/-- Segments are added, and never go away. -/
theorem Step.segments_prefix (hl : s.Loaded) (hst : Step s e s') : s.segments <+: s'.segments := by
  rcases hst.segment_cases hl with ha | ⟨batch, last, -, -, rfl, rfl⟩ | ⟨batch, -, rfl, rfl⟩
  · have heq : s.segments = s'.segments := by
      rw [segments, segments, ha.writer, ha.sealedSegments]
    exact heq ▸ List.prefix_rfl
  · exact List.prefix_rfl
  · by_cases hfull : logSegmentMaxBytes ≤ s.writer.bytesWritten.toNat
    · rw [endRound_of_full hfull]
      exact List.prefix_append _ _
    · rw [endRound_of_not_full hfull]
      exact List.prefix_rfl

theorem Run.segments_prefix (hrun : Run Step s₀ es s) (h : s₀.Loaded) :
    s₀.segments <+: s.segments :=
  hrun.invariant (I := fun _ s => s₀.segments <+: s.segments) List.prefix_rfl fun hr ih hst =>
    ih.trans (hst.segments_prefix (Run.loaded hr h))

/-- As long as no segment is sealed, the active one is that of the start. -/
theorem Run.baseOffset_eq (hrun : Run Step s₀ es s) (h : s₀.Loaded)
    (hone : s.sealedSegments = []) : s.writer.baseOffset = s₀.writer.baseOffset := by
  have hpre := Run.segments_prefix hrun h
  rw [segments, segments, hone, List.nil_append] at hpre
  have hlen := hpre.length_le
  have hs₀ : s₀.sealedSegments = [] := by
    refine List.eq_nil_of_length_eq_zero ?_
    rw [List.length_append, List.length_singleton, List.length_singleton] at hlen
    omega
  rw [hs₀, List.nil_append, List.cons_prefix_cons] at hpre
  exact hpre.1.symm

/-- The segments `bases` sealed since `s₀`, followed by the active one, are
    different ones that hold the records written, one after the other. -/
structure LaidOut (s₀ : PartitionStore κ) (bases : List UInt64) (es : List (Event κ))
    (s : PartitionStore κ) : Prop where
  sealed_eq : s.sealedSegments = s₀.sealedSegments ++ bases
  records : (bases ++ [s.writer.baseOffset]).flatMap (writtenTo · es) = writtenRecords es
  nodup : (bases ++ [s.writer.baseOffset]).Nodup
  other : ∀ base ∉ bases ++ [s.writer.baseOffset], writtenTo base es = []
  le : ∀ base ∈ bases ++ [s.writer.baseOffset],
    base.toNat ≤ s₀.nextOffset.toNat + (writtenRecords es).length
  lt : s.HasWritten → ∀ base ∈ bases ++ [s.writer.baseOffset],
    base.toNat < s₀.nextOffset.toNat + (writtenRecords es).length

variable {bases : List UInt64}

theorem LaidOut.frame (h : LaidOut s₀ bases es s) (hwr : e.written = [])
    (hs : s'.sealedSegments = s.sealedSegments) (hb : s'.writer.baseOffset = s.writer.baseOffset)
    (hio : s'.HasWritten → s.HasWritten) : LaidOut s₀ bases (es ++ [e]) s' := by
  have hto : ∀ base, writtenTo base (es ++ [e]) = writtenTo base es := fun base => by
    rw [writtenTo_snoc, Event.writtenTo_eq_nil hwr, List.append_nil]
  have hrec : writtenRecords (es ++ [e]) = writtenRecords es := by
    rw [writtenRecords_snoc, hwr, List.append_nil]
  constructor
  · rw [hs, h.sealed_eq]
  · simpa only [hto, hrec, hb] using h.records
  · rw [hb]; exact h.nodup
  · simpa only [hto, hb] using h.other
  · simpa only [hrec, hb] using h.le
  · simpa only [hrec, hb] using fun hw => h.lt (hio hw)

theorem LaidOut.afterWrite {batch : List Record} {last : UInt64} (h : LaidOut s₀ bases es s)
    (hne : batch ≠ []) :
    LaidOut s₀ bases (es ++ [.wrote s.writer.baseOffset batch])
      { s.afterWrite batch last with io := .written batch } := by
  have hrec : writtenRecords (es ++ [.wrote s.writer.baseOffset batch]) =
      writtenRecords es ++ batch := writtenRecords_snoc
  have hto : ∀ base ≠ s.writer.baseOffset,
      writtenTo base (es ++ [.wrote s.writer.baseOffset batch]) =
        writtenTo base es := fun base hb => by
    rw [writtenTo_snoc, Event.writtenTo, if_neg (Ne.symm hb), List.append_nil]
  have hpos := List.length_pos_of_ne_nil hne
  have hlt : ∀ base ∈ bases ++ [s.writer.baseOffset],
      base.toNat < s₀.nextOffset.toNat + (writtenRecords es ++ batch).length := fun base hb => by
    have := h.le base hb
    rw [List.length_append]
    omega
  constructor
  · exact h.sealed_eq
  · -- Only the last of the segments has got more.
    have hmem : s.writer.baseOffset ∉ bases := (List.nodup_append.1 h.nodup).2.2 _ |>.mt (by simp)
    have hrest : bases.flatMap (writtenTo · (es ++ [.wrote s.writer.baseOffset batch])) =
        bases.flatMap (writtenTo · es) :=
      List.flatMap_congr fun base hb => hto base fun h => hmem (h ▸ hb)
    have hold := h.records
    rw [List.flatMap_append, List.flatMap_singleton] at hold
    rw [hrec, ← hold, List.flatMap_append, List.flatMap_singleton, List.append_assoc]
    refine congrArg₂ _ hrest ?_
    exact (writtenTo_snoc _).trans (congrArg _ (if_pos rfl))
  · exact h.nodup
  · intro base hb
    rw [hto base fun h => hb (by rw [h]; simp [PartitionStore.afterWrite])]
    exact h.other base hb
  · rw [hrec]; exact fun base hb => (hlt base hb).le
  · rw [hrec]; exact fun _ => hlt

theorem LaidOut.rotate (h : LaidOut s₀ bases es s) (hw : s.HasWritten)
    (hn : s.writer.nextOffset.toNat = s₀.nextOffset.toNat + (writtenRecords es).length) :
    LaidOut s₀ (bases ++ [s.writer.baseOffset]) (es ++ [.ended])
      { s.rotate with io := .waiting } := by
  -- The new segment lies behind all the records written, hence behind all others.
  have hnew : s.writer.nextOffset ∉ bases ++ [s.writer.baseOffset] := fun hb => by
    have := h.lt hw _ hb
    omega
  have hto : ∀ base, writtenTo base (es ++ [.ended]) = writtenTo base es := fun base => by
    rw [writtenTo_snoc, Event.writtenTo_eq_nil rfl, List.append_nil]
  have hrec : writtenRecords (es ++ [.ended]) = writtenRecords es :=
    writtenRecords_snoc.trans (List.append_nil _)
  constructor
  · simp [PartitionStore.rotate, h.sealed_eq]
  · simp only [hto, hrec]
    rw [List.flatMap_append, h.records, List.flatMap_singleton]
    exact (congrArg _ (h.other _ hnew)).trans (List.append_nil _)
  · exact h.nodup.append (List.nodup_singleton _) (List.disjoint_singleton.2 hnew)
  · intro base hb
    rw [hto]
    exact h.other base fun hmem => hb (List.mem_append_left _ hmem)
  · rw [hrec]
    intro base hb
    rcases List.mem_append.1 hb with hmem | hmem
    · exact h.le base hmem
    · rw [List.mem_singleton.1 hmem]
      exact hn.le
  · exact fun hf => hf.elim

theorem Step.laidOut (hl : s.Loaded) (h : LaidOut s₀ bases es s)
    (hn : s.writer.nextOffset.toNat = s₀.nextOffset.toNat + (writtenRecords es).length)
    (hst : Step s e s') : ∃ bases', LaidOut s₀ bases' (es ++ [e]) s' := by
  rcases hst.segment_cases hl with ha | ⟨batch, last, hio, -, rfl, rfl⟩ | ⟨batch, hio, rfl, rfl⟩
  · exact ⟨_, h.frame ha.written ha.sealedSegments (by rw [ha.writer]) ha.hasWritten⟩
  · exact ⟨_, h.afterWrite (by simpa [Loaded, hio] using hl)⟩
  · rw [PartitionStore.endRound]
    split_ifs with hfull
    · exact ⟨_, h.rotate (by simp [HasWritten, hio]) hn⟩
    · exact ⟨_, h.frame rfl rfl rfl False.elim⟩

theorem Queued.length_written_le (h : Queued b es s) :
    (writtenRecords es).length ≤ (accepted es).length := by
  rw [← h.accepted_eq, List.length_append, List.length_append]
  omega

theorem Queued.toNat_writerNextOffset (h : Queued b es s)
    (hlt : b.toNat + (accepted es).length < 2 ^ 64) :
    s.writer.nextOffset.toNat = b.toNat + (writtenRecords es).length := by
  have := h.length_written_le
  rw [h.writerNextOffset, toNat_add_ofNat (by omega)]

theorem Queued.toNat_committedOffset (h : Queued b es s)
    (hlt : b.toNat + (accepted es).length < 2 ^ 64) :
    s.committedOffset.toNat = b.toNat + (writtenRecords es).length := by
  rw [h.committedOffset, ← h.writerNextOffset, h.toNat_writerNextOffset hlt]

/-- Since opening, the segments hold the records written one after the other. -/
theorem Run.laidOut (hrun : Run Step s₀ es s) (h : Fresh s₀)
    (hbase : s₀.writer.baseOffset ≤ s₀.nextOffset)
    (hlt : s₀.nextOffset.toNat + (accepted es).length < 2 ^ 64) :
    ∃ bases, LaidOut s₀ bases es s := by
  refine hrun.invariant (I := fun es s => s₀.nextOffset.toNat + (accepted es).length < 2 ^ 64 →
    ∃ bases, LaidOut s₀ bases es s) (fun _ => ⟨[], ?_⟩) ?_ hlt
  · exact ⟨by simp, by simp [writtenTo, writtenRecords], by simp, by simp [writtenTo],
      by simpa [writtenRecords] using UInt64.le_iff_toNat_le.1 hbase, by simp [HasWritten, h.io]⟩
  · intro es s e s' hr ih hst hlt
    rw [accepted_snoc, List.length_append] at hlt
    have hlt' : s₀.nextOffset.toNat + (accepted es).length < 2 ^ 64 := by omega
    obtain ⟨bases, hlaid⟩ := ih hlt'
    exact hst.laidOut (Run.loaded hr h.loaded) hlaid ((Run.queued hr h).toNat_writerNextOffset hlt')

/-! ## Publishing one record

A run that every idle store can do: a record is appended, and the I/O thread takes
it, writes it and ends its round. -/

/-- Nothing is queued or in flight, and the store is open. -/
structure Idle (s : PartitionStore κ) : Prop where
  io : s.io = .waiting
  queue : s.queue = []
  pendingBytes : s.pendingBytes = 0
  shutdown : s.shutdown = false

/-- The store with a record appended and taken for writing. -/
def takenOne (s : PartitionStore κ) (payload : Payload) (now : UInt64) : PartitionStore κ :=
  { (s.enqueue payload now).take (s.command payload now) [] [] with
    io := .taken [s.command payload now] }

/-- The store with the record written. -/
def writtenOne (s : PartitionStore κ) (payload : Payload) (now : UInt64) : PartitionStore κ :=
  { (s.takenOne payload now).afterWrite [s.command payload now] s.nextOffset with
    io := .written [s.command payload now] }

/-- The store with the callbacks called. -/
def notifiedOne (s : PartitionStore κ) (payload : Payload) (now : UInt64) : PartitionStore κ :=
  { ((s.writtenOne payload now).fireOnceCallbacks (s.nextOffset + 1)).2 with
    io := .notified [s.command payload now] }

/-- The store at the end of the round. -/
def publishedOne (s : PartitionStore κ) (payload : Payload) (now : UInt64) : PartitionStore κ :=
  { (s.notifiedOne payload now).endRound with io := .waiting }

/-- What happens in the round from the append to the callbacks. -/
def notifyOneEvents (s : PartitionStore κ) (payload : Payload) (now : UInt64) : List (Event κ) :=
  let cmd := s.command payload now
  [.took cmd, .gathered, .wrote s.writer.baseOffset [cmd],
    .notified [cmd] ((s.writtenOne payload now).fireOnceCallbacks (s.nextOffset + 1)).1]

/-- What happens in the round. -/
def publishOneEvents (s : PartitionStore κ) (payload : Payload) (now : UInt64) : List (Event κ) :=
  .appended (s.command payload now) :: (s.notifyOneEvents payload now ++ [.ended])

section

variable {payload : Payload} {now : UInt64}

theorem files_writtenOne_self :
    (s.writtenOne payload now).dir.files s.writer.baseOffset =
      ⟨s.log s.writer.baseOffset ++ recordFormat.encodeAll [s.command payload now],
        (s.dir.files s.writer.baseOffset).idx ++ indexFormat.encodeAll
          (dueEntries s.writer.baseOffset [s.command payload now] s.writer.bytesWritten)⟩ :=
  files_afterWrite_self (s.takenOne payload now) _ s.nextOffset

theorem files_writtenOne_ne {base : UInt64} (h : base ≠ s.writer.baseOffset) :
    (s.writtenOne payload now).dir.files base = s.dir.files base :=
  @files_afterWrite_ne _ (s.takenOne payload now) _ h _ s.nextOffset

theorem length_encodeAll_command :
    (recordFormat.encodeAll [s.command payload now]).length =
      logRecordHeaderSize + payload.bytes.length := by
  rw [Format.encodeAll_cons, Format.encodeAll_nil, List.append_nil]
  exact Record.length_encode _

theorem Idle.append_accepted (h : Idle s) (hcap : 0 < s.options.queueCapacity)
    (hsize : UInt64.ofNat payload.bytes.length ≤ s.options.maxPendingBytes) :
    (s.append payload now).1.accepted = true := by
  refine PartitionStore.append_accepted h.shutdown ?_
  rw [queueFull, h.queue, h.pendingBytes, UInt64.zero_add, not_or, Nat.not_le, UInt64.not_lt]
  exact ⟨hcap, hsize⟩

theorem Idle.publishedOne (h : Idle s) : Idle (s.publishedOne payload now) := by
  rw [PartitionStore.publishedOne, endRound_eq]
  refine ⟨rfl, rfl, ?_, h.shutdown⟩
  change s.pendingBytes + UInt64.ofNat _ - UInt64.ofNat _ = 0
  rw [h.pendingBytes, UInt64.zero_add]
  exact UInt64.sub_self _

theorem options_publishedOne : (s.publishedOne payload now).options = s.options := by
  rw [PartitionStore.publishedOne, endRound_eq]
  rfl

theorem committedOffset_publishedOne :
    (s.publishedOne payload now).committedOffset = s.nextOffset + 1 := by
  rw [PartitionStore.publishedOne, endRound_eq]
  rfl

theorem nextOffset_publishedOne : (s.publishedOne payload now).nextOffset = s.nextOffset + 1 := by
  rw [PartitionStore.publishedOne, endRound_eq]
  rfl

/-- The end of the round leaves the files as they were written. -/
theorem files_publishedOne (base : UInt64) :
    (s.publishedOne payload now).dir.files base = (s.writtenOne payload now).dir.files base := by
  rw [PartitionStore.publishedOne]
  dsimp only
  rw [endRound_files, notifiedOne, fireOnceCallbacks]

/-- The bytes in the active segment with the record written. -/
theorem bytesWritten_notifiedOne :
    (s.notifiedOne payload now).writer.bytesWritten =
      s.writer.bytesWritten + UInt64.ofNat (logRecordHeaderSize + payload.bytes.length) := by
  rw [← @length_encodeAll_command κ s payload now]
  rfl

/-- A record that fills the segment has it sealed. -/
theorem publishedOne_of_full (hfull : logSegmentMaxBytes ≤
    (s.writer.bytesWritten + UInt64.ofNat (logRecordHeaderSize + payload.bytes.length)).toNat) :
    (s.publishedOne payload now).sealedSegments = s.sealedSegments ++ [s.writer.baseOffset] ∧
      (s.publishedOne payload now).writer =
        ⟨s.writer.nextOffset + 1, s.writer.nextOffset + 1, 0⟩ := by
  rw [← @bytesWritten_notifiedOne κ s payload now] at hfull
  rw [PartitionStore.publishedOne, endRound_of_full hfull]
  exact ⟨rfl, rfl⟩

theorem publishedOne_of_not_full (hfull : ¬logSegmentMaxBytes ≤
    (s.writer.bytesWritten + UInt64.ofNat (logRecordHeaderSize + payload.bytes.length)).toNat) :
    (s.publishedOne payload now).sealedSegments = s.sealedSegments ∧
      (s.publishedOne payload now).writer.baseOffset = s.writer.baseOffset := by
  rw [← @bytesWritten_notifiedOne κ s payload now] at hfull
  rw [PartitionStore.publishedOne, endRound_of_not_full hfull]
  exact ⟨rfl, rfl⟩

theorem Idle.step_append (h : Idle s) (hcap : 0 < s.options.queueCapacity)
    (hsize : UInt64.ofNat payload.bytes.length ≤ s.options.maxPendingBytes) :
    Step s (.appended (s.command payload now)) (s.enqueue payload now) := by
  have hacc : (s.append payload now).1.accepted = true := h.append_accepted hcap hsize
  have := Step.append payload now hacc
  rwa [append_of_accepted hacc] at this

theorem Idle.step_took (h : Idle s) : Step (s.enqueue payload now) (.took (s.command payload now))
    ((s.enqueue payload now).take (s.command payload now) [] []) :=
  .takeFirst h.io (by simp [enqueue, h.queue])

theorem step_wroteOne
    (hlog : (s.log s.writer.baseOffset).length + (logRecordHeaderSize + payload.bytes.length) <
      maxFileSize)
    (hidx : (s.dir.files s.writer.baseOffset).idx.length + indexEntrySize < maxFileSize) :
    Step (s.takenOne payload now) (.wrote s.writer.baseOffset [s.command payload now])
      (s.writtenOne payload now) := by
  have hwrite : (s.takenOne payload now).writeBatch [s.command payload now] =
      some ((s.takenOne payload now).afterWrite [s.command payload now] s.nextOffset) := by
    refine @writeBatch_of_lt κ _ _ (s.command payload now) rfl ?_ ?_
    · refine (congrArg (·.log.length) files_writtenOne_self).trans_lt ?_
      rwa [List.length_append, length_encodeAll_command]
    · refine (congrArg (·.idx.length) files_writtenOne_self).trans_lt ?_
      rw [List.length_append, length_encodeAll_indexFormat]
      refine (Nat.add_le_add_left ?_ _).trans_lt hidx
      rw [dueEntries, dueEntries]
      split_ifs <;> simp
  exact .write rfl hwrite

/-- The round up to the callbacks. -/
theorem Idle.run_notifiedOne (h : Idle s)
    (hlog : (s.log s.writer.baseOffset).length + (logRecordHeaderSize + payload.bytes.length) <
      maxFileSize)
    (hidx : (s.dir.files s.writer.baseOffset).idx.length + indexEntrySize < maxFileSize) :
    Run Step (s.enqueue payload now) (s.notifyOneEvents payload now)
      (s.notifiedOne payload now) :=
  .cons h.step_took <| .cons (.takeDone rfl) <| .cons (step_wroteOne hlog hidx) <|
    .single (.notify rfl)

theorem Idle.run_publishedOne (h : Idle s) (hcap : 0 < s.options.queueCapacity)
    (hsize : UInt64.ofNat payload.bytes.length ≤ s.options.maxPendingBytes)
    (hlog : (s.log s.writer.baseOffset).length + (logRecordHeaderSize + payload.bytes.length) <
      maxFileSize)
    (hidx : (s.dir.files s.writer.baseOffset).idx.length + indexEntrySize < maxFileSize) :
    Run Step s (s.publishOneEvents payload now) (s.publishedOne payload now) :=
  .cons (h.step_append hcap hsize) ((h.run_notifiedOne hlog hidx).snoc (.endRound rfl))

end

/-! ## The log is exactly the accepted appends -/

/-- What the log of the segment `base` has gained since `s₀`. -/
def gained (s₀ s : PartitionStore κ) (base : UInt64) : Bytes :=
  (s.log base).drop (s₀.log base).length

/-- The segments written to since `s₀`, the oldest first. -/
def segmentsSince (s₀ s : PartitionStore κ) : List UInt64 :=
  s.segments.drop s₀.sealedSegments.length

theorem Run.decode_gained (hrun : Run Step s₀ es s) (h : s₀.Loaded) (base : UInt64) :
    recordFormat.decode (gained s₀ s base) = writtenTo base es := by
  rw [gained, Run.log_eq hrun h, List.drop_left, Format.decode_encodeAll]

theorem LaidOut.segmentsSince_eq (h : LaidOut s₀ bases es s) :
    segmentsSince s₀ s = bases ++ [s.writer.baseOffset] := by
  rw [segmentsSince, segments, h.sealed_eq, List.append_assoc, List.drop_left]

theorem Run.baseOffset_mem_segmentsSince (hrun : Run Step s₀ es s) (h : s₀.Loaded) :
    s.writer.baseOffset ∈ segmentsSince s₀ s := by
  have hlen := (Run.segments_prefix hrun h).length_le
  rw [segments, segments, List.length_append, List.length_append] at hlen
  rw [segmentsSince, segments, List.drop_append_of_le_length (Nat.le_of_add_le_add_right hlen)]
  exact List.mem_append_right _ (List.mem_singleton_self _)

/-- Since opening, only the segments active meanwhile have been written to. -/
theorem Run.writtenTo_eq_nil (hrun : Run Step s₀ es s) (h : s₀.Loaded) :
    ∀ base ∉ segmentsSince s₀ s, writtenTo base es = [] := by
  refine hrun.invariant (I := fun es s => ∀ base ∉ segmentsSince s₀ s, writtenTo base es = [])
    (fun _ _ => rfl) ?_
  intro es s e s' hr ih hst base hb
  have hloaded := Run.loaded hr h
  have hsub : segmentsSince s₀ s ⊆ segmentsSince s₀ s' :=
    ((hst.segments_prefix hloaded).drop _).subset
  rw [writtenTo_snoc, ih base fun hmem => hb (hsub hmem), List.nil_append]
  rcases hst.segment_cases hloaded with ha | ⟨batch, last, -, -, rfl, -⟩ | ⟨batch, -, rfl, -⟩
  · exact Event.writtenTo_eq_nil ha.written base
  · refine if_neg fun heq => hb (hsub ?_)
    exact heq ▸ Run.baseOffset_mem_segmentsSince hr h
  · rfl

/-- What a step writes goes to one of the segments `bases`. -/
theorem Event.flatMap_writtenTo (hnd : bases.Nodup) (h : ∀ base ∉ bases, e.writtenTo base = []) :
    bases.flatMap e.writtenTo = e.written := by
  by_cases hwr : e.written = []
  · rw [hwr, List.flatMap_eq_nil_iff]
    exact fun base _ => Event.writtenTo_eq_nil hwr base
  · cases e with
    | wrote base' batch =>
      have hmem : base' ∈ bases := by
        by_contra hmem
        exact hwr ((if_pos rfl).symm.trans (h base' hmem))
      obtain ⟨pre, post, rfl⟩ := List.append_of_mem hmem
      have hne : ∀ base ∈ pre ++ post, (Event.wrote base' batch : Event κ).writtenTo base = [] := by
        intro base hb
        refine if_neg ?_
        rintro rfl
        exact (List.nodup_middle.1 hnd).notMem hb
      rw [List.flatMap_append, List.flatMap_cons,
        List.flatMap_eq_nil_iff.2 fun base hb => hne base (List.mem_append_left _ hb),
        List.flatMap_eq_nil_iff.2 fun base hb => hne base (List.mem_append_right _ hb),
        List.append_nil]
      exact if_pos rfl
    | _ => exact absurd rfl hwr

/-- Different segments hold all that is written, each record once. -/
theorem perm_flatMap_writtenTo (hnd : bases.Nodup) (h : ∀ base ∉ bases, writtenTo base es = []) :
    (bases.flatMap (writtenTo · es)).Perm (writtenRecords es) := by
  induction es with
  | nil => simp [writtenTo, writtenRecords]
  | cons e es ih =>
    have hcons : ∀ base, writtenTo base (e :: es) = e.writtenTo base ++ writtenTo base es :=
      fun base => List.flatMap_cons
    simp only [hcons, List.append_eq_nil_iff] at h ⊢
    refine (List.flatMap_append_perm bases e.writtenTo (writtenTo · es)).symm.trans ?_
    rw [Event.flatMap_writtenTo hnd fun base hb => (h base hb).1]
    exact (ih fun base hb => (h base hb).2).append_left _

/-- In every run of a store from its opening at the next offset `b`, as long as
    the offsets fit: every log has only grown, by the records written to it; the
    segments since then hold the records written, each of them once, and (if the
    segment opened does not start behind `b`) one after the other; the records
    written, the batch in flight and the queue are together the accepted commands,
    numbered from `b` on; the committed offset counts the records written; and an
    append that is rejected changes neither the queue, the next offset nor the
    pending bytes. -/
theorem log_eq_accepted {dir : Dir} {options : StorageOptions} (hopen : s₀ = «open» dir options)
    (hrun : Run Step s₀ es s) (hlt : s₀.nextOffset.toNat + (accepted es).length < 2 ^ 64) :
    (∀ base, s₀.log base <+: s.log base ∧
      recordFormat.decode (gained s₀ s base) = writtenTo base es) ∧
    ((segmentsSince s₀ s).dedup.flatMap fun base => recordFormat.decode (gained s₀ s base)).Perm
      (writtenRecords es) ∧
    (s₀.writer.baseOffset ≤ s₀.nextOffset →
      (segmentsSince s₀ s).flatMap (fun base => recordFormat.decode (gained s₀ s base)) =
        writtenRecords es) ∧
    writtenRecords es ++ s.inFlight ++ s.queue = accepted es ∧
    Numbered s₀.nextOffset.toNat (accepted es) ∧
    s.committedOffset.toNat = s₀.nextOffset.toNat + (writtenRecords es).length ∧
    ∀ payload now, (s.append payload now).1.accepted = false →
      (s.append payload now).2.queue = s.queue ∧
      (s.append payload now).2.nextOffset = s.nextOffset ∧
      (s.append payload now).2.pendingBytes = s.pendingBytes := by
  have hfresh : Fresh s₀ := hopen ▸ fresh_open dir options
  have hq := Run.queued hrun hfresh
  -- The segments hold each record once, whatever the order in which they come.
  refine ⟨fun base => ⟨?_, Run.decode_gained hrun hfresh.loaded base⟩, ?_, fun hbase => ?_,
    hq.accepted_eq, hq.consecutive.numbered hlt, hq.toNat_committedOffset hlt,
    fun payload now hrej => ?_⟩
  · rw [Run.log_eq hrun hfresh.loaded]
    exact List.prefix_append _ _
  · simp only [Run.decode_gained hrun hfresh.loaded]
    refine perm_flatMap_writtenTo (List.nodup_dedup _) fun base hb => ?_
    exact Run.writtenTo_eq_nil hrun hfresh.loaded base (mt List.mem_dedup.2 hb)
  · obtain ⟨bases, hlaid⟩ := Run.laidOut hrun hfresh hbase hlt
    simp only [Run.decode_gained hrun hfresh.loaded]
    rw [hlaid.segmentsSince_eq, hlaid.records]
  · rw [append_of_rejected hrej]
    exact ⟨rfl, rfl, rfl⟩

/-- One record published to an empty store: it is what segment `0` has gained. -/
theorem log_eq_accepted_publishedOne :
    let s₀ : PartitionStore Unit := «open» ∅ {}
    let s := s₀.publishedOne ⟨[7], by decide⟩ 5
    recordFormat.decode (gained s₀ s 0) = [⟨0, 5, ⟨[7], by decide⟩⟩] ∧
      s.committedOffset.toNat = 1 := by
  have hrun := @Idle.run_publishedOne Unit («open» ∅ {}) ⟨[7], by decide⟩ 5 ⟨rfl, rfl, rfl, rfl⟩
    (by decide) (by decide) (by decide) (by decide)
  have h := log_eq_accepted rfl hrun (by decide)
  exact ⟨(h.1 0).2, h.2.2.2.2.2.1⟩

end Fell.Storage.PartitionStore
