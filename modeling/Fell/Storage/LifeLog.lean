import Fell.Storage.Reopen

/-!
# The log over the restarts of a broker

A store is closed and opened again with the broker. Its log goes on from where it was: over all
lives of the store, it is the records that were accepted, in order, up to those that are queued or
in flight.

A fetch looks into one segment only, so it may find less than there is. But what it finds is a piece
of the log without a gap, from the offset on.

* `Run.inLog`: the log over all lives;
* `InLog.fetch_isPrefix`: what a fetch finds of it;
* `fetch_of_life`: both, in every life of a store.
-/

namespace Fell.Storage.PartitionStore

variable {κ : Type} {s s' s₀ : PartitionStore κ} {es : List (Event κ)} {options : StorageOptions}

/-! ## One life -/

/-- In a run, what is written comes to the end of the log. -/
theorem Run.wholeLog_eq (hrun : Run Step s₀ es s) (hf : Fresh s₀) (h : Indexed s₀)
    (hlt : s₀.nextOffset.toNat + (accepted es).length < 2 ^ 64) :
    s.wholeLog = s₀.wholeLog ++ writtenRecords es := by
  refine hrun.invariant (I := fun es s => s₀.nextOffset.toNat + (accepted es).length < 2 ^ 64 →
    s.wholeLog = s₀.wholeLog ++ writtenRecords es) (fun _ => (List.append_nil _).symm) ?_ hlt
  intro es s e s' hr ih hst hlt
  rw [accepted_snoc, List.length_append] at hlt
  have hlt' : s₀.nextOffset.toNat + (accepted es).length < 2 ^ 64 := by omega
  rw [hst.wholeLog_eq (Run.loaded hr hf.loaded) (Run.indexed hr hf h hlt'), ih hlt',
    writtenRecords_snoc, List.append_assoc]

/-- The log that starts with the first segment is numbered from its base offset on. -/
theorem Indexed.numbered_of_head (h : Indexed s) {a : UInt64} (ha : s.segments.head? = some a) :
    Numbered a.toNat s.wholeLog ∧
      a.toNat + s.wholeLog.length = s.writer.nextOffset.toNat := by
  obtain ⟨l, hl⟩ := List.head?_eq_some_iff.1 ha
  have hadj := h.adjacent
  have hlast : s.segments.getLast? = some s.writer.baseOffset := by simp [segments]
  rw [hl] at hadj hlast
  refine ⟨?_, ?_⟩
  · rw [wholeLog, hl]
    exact numbered_flatMap hadj fun b hb => (h.sound b (hl ▸ hb)).numbered
  · rw [wholeLog, hl, h.nextOffset, hadj.end_eq hlast]

/-- A fetch finds a piece of the log, from the offset on. -/
theorem Indexed.fetch_isPrefix (h : Indexed s) {a : UInt64} (ha : s.segments.head? = some a)
    (o : UInt64) (n : ℕ) :
    ∃ rs, (s.fetch o n).1 = some rs ∧ rs.length ≤ n ∧
      rs <+: s.wholeLog.drop (o.toNat - a.toNat) := by
  cases hfind : s.findSegmentFor o with
  | none =>
    refine ⟨[], ?_, Nat.zero_le n, List.nil_prefix⟩
    rw [PartitionStore.fetch, hfind]
  | some base =>
    obtain ⟨l, hl⟩ := List.head?_eq_some_iff.1 ha
    have hadj := h.adjacent
    rw [hl] at hadj
    refine ⟨_, h.fetch_eq hfind n, List.length_take_le _ _, (List.take_prefix _ _).trans ?_⟩
    rw [wholeLog, hl]
    exact hadj.drop_isPrefix (hl ▸ findSegmentFor_mem hfind)
      (UInt64.le_iff_toNat_le.1 (findSegmentFor_le hfind))

/-! ## All lives -/

/-- The store is in a life that began with a log from the offset zero on, and with what is accepted
    since, this is all that was accepted. -/
def InLog (es : List (LifeEvent κ)) (s : PartitionStore κ) : Prop :=
  ∃ (s₀ : PartitionStore κ) (es' : List (Event κ)), Fresh s₀ ∧ Linked s₀ ∧
    s₀.segments.head? = some 0 ∧ Run Step s₀ es' s ∧
    s₀.wholeLog ++ accepted es' = acceptedInLife es

theorem acceptedInLife_snoc (es : List (LifeEvent κ)) (e : LifeEvent κ) :
    acceptedInLife (es ++ [e]) = acceptedInLife es ++ e.accepted := by
  simp [acceptedInLife]

/-- What is known of a store in its life. -/
structure Logged (log : List Record) (s : PartitionStore κ) : Prop where
  linked : Linked s
  head : s.segments.head? = some 0
  /-- The log is followed by what is in flight and what is queued. -/
  log_eq : s.wholeLog ++ s.inFlight ++ s.queue = log

theorem InLog.logged {es : List (LifeEvent κ)} (h : InLog es s)
    (hlt : (acceptedInLife es).length < 2 ^ 64) : Logged (acceptedInLife es) s := by
  obtain ⟨s₀, es', hf, hlinked, hhead, hrun, hlog⟩ := h
  have hnext := (hlinked.indexed.numbered_of_head hhead).2
  have hfit : s₀.nextOffset.toNat + (accepted es').length < 2 ^ 64 := by
    rw [← hlog, List.length_append] at hlt
    rw [← hf.writerNextOffset, ← hnext]
    simpa using hlt
  refine ⟨Run.linked hrun hf hlinked hfit, ?_, ?_⟩
  · obtain ⟨l, hl⟩ := Run.segments_prefix hrun hf.loaded
    rw [← hl, List.head?_append, hhead, Option.some_or]
  · rw [Run.wholeLog_eq hrun hf hlinked.indexed hfit, ← hlog, ← (Run.queued hrun hf).accepted_eq]
    simp only [List.append_assoc]

/-- All that was accepted is numbered from the offset zero on. -/
theorem InLog.numbered {es : List (LifeEvent κ)} (h : InLog es s)
    (hlt : (acceptedInLife es).length < 2 ^ 64) : Numbered 0 (acceptedInLife es) := by
  obtain ⟨s₀, es', hf, hlinked, hhead, hrun, hlog⟩ := h
  obtain ⟨hnum, hnext⟩ := hlinked.indexed.numbered_of_head hhead
  rw [UInt64.toNat_zero] at hnum hnext
  rw [hf.writerNextOffset] at hnext
  rw [← hlog, List.length_append] at hlt
  rw [← hlog, numbered_append, hnext]
  exact ⟨hnum, (Run.queued hrun hf).consecutive.numbered (by omega)⟩

theorem LifeStep.inLog {es : List (LifeEvent κ)} {e : LifeEvent κ} (h : InLog es s)
    (hlt : (acceptedInLife es).length < 2 ^ 64) (hst : LifeStep s e s') :
    InLog (es ++ [e]) s' := by
  obtain ⟨hlinked, hhead, hlog⟩ := h.logged hlt
  obtain ⟨s₀, es', hf, hlinked₀, hhead₀, hrun, hlog₀⟩ := h
  cases hst with
  | @live e s' hst =>
    refine ⟨s₀, es' ++ [e], hf, hlinked₀, hhead₀, hrun.snoc hst, ?_⟩
    rw [acceptedInLife_snoc, accepted_snoc, ← List.append_assoc, hlog₀]
    rfl
  | reopen options hstop =>
    -- A store that has stopped has nothing queued, and is opened with the same segments.
    obtain ⟨-, hdir, hsealed, hwriter⟩ := hlinked.resumable.open_eq options
    have hseg : («open» s.dir options : PartitionStore κ).segments = s.segments := by
      rw [segments, segments, hsealed, hwriter]
    have hwritten := Run.accepted_eq_of_stopped hrun hf hstop
    have hpending := (Run.queued hrun hf).accepted_eq
    rw [hwritten, List.append_assoc, List.append_right_eq_self] at hpending
    refine ⟨_, [], fresh_open _ _, hlinked.reopen options, hseg ▸ hhead, .nil, ?_⟩
    rw [acceptedInLife_snoc, ← hlog, List.append_assoc s.wholeLog, hpending, List.append_nil,
      wholeLog_congr hdir hseg]
    rfl

theorem Run.inLog {es : List (LifeEvent κ)} (hrun : Run LifeStep («open» ∅ options) es s)
    (hlt : (acceptedInLife es).length < 2 ^ 64) : InLog es s := by
  refine hrun.invariant (I := fun es s => (acceptedInLife es).length < 2 ^ 64 → InLog es s)
    (fun _ => ⟨_, [], fresh_open _ _, linked_open_empty options, rfl, .nil, ?_⟩) ?_ hlt
  · rw [wholeLog, show («open» ∅ options : PartitionStore κ).segments = [0] from rfl,
      List.flatMap_singleton, records, log, files_open_empty, Format.decode_nil]
    rfl
  · intro es s e s' hr ih hst hlt
    have hle : (acceptedInLife es).length ≤ (acceptedInLife (es ++ [e])).length := by
      simp [acceptedInLife]
    exact hst.inLog (ih (hle.trans_lt hlt)) (hle.trans_lt hlt)

/-- A fetch from a store with a log finds a piece of the log, from the offset on. -/
theorem Logged.fetch_isPrefix {log : List Record} (h : Logged log s) (o : UInt64) (n : ℕ) :
    ∃ rs, (s.fetch o n).1 = some rs ∧ rs.length ≤ n ∧ rs <+: log.drop o.toNat := by
  obtain ⟨rs, hrs, hlen, hpre⟩ := h.linked.indexed.fetch_isPrefix h.head o n
  rw [UInt64.toNat_zero, Nat.sub_zero] at hpre
  refine ⟨rs, hrs, hlen, hpre.trans ?_⟩
  rw [← h.log_eq, List.append_assoc]
  exact (List.prefix_append _ _).drop _

/-- A fetch of one record finds the record of the log with the offset, or none. -/
theorem Logged.fetch_one {log : List Record} (h : Logged log s) (o : UInt64) :
    (s.fetch o 1).1 = some [] ∨
      ∃ r, (s.fetch o 1).1 = some [r] ∧ log[o.toNat]? = some r ∧ r.offset = o := by
  obtain ⟨rs, hrs, hlen, hpre⟩ := h.linked.indexed.fetch_isPrefix h.head o 1
  have hnum := (h.linked.indexed.numbered_of_head h.head).1
  rw [UInt64.toNat_zero, Nat.sub_zero] at hpre
  rw [UInt64.toNat_zero] at hnum
  cases rs with
  | nil => exact .inl hrs
  | cons r rs =>
    obtain rfl : rs = [] := List.eq_nil_of_length_eq_zero (by simpa using hlen)
    obtain ⟨more, hmore⟩ := hpre
    have hget : s.wholeLog[o.toNat]? = some r := by
      rw [← Nat.add_zero o.toNat, ← List.getElem?_drop, ← hmore]
      rfl
    obtain ⟨hlt, hr⟩ := List.getElem?_eq_some_iff.1 hget
    refine .inr ⟨r, hrs, ?_, UInt64.toNat_inj.1 ?_⟩
    · rw [← h.log_eq, List.append_assoc, List.getElem?_append_left hlt, hget]
    · rw [← hr, hnum.offset_getElem, Nat.zero_add]

/-- In every life of a store from an empty directory, with any number of clean restarts, as long as
    the offsets fit: what was accepted in all lives is numbered from zero on, the log is that, up to
    what is in flight or queued, and whatever the offset, a fetch finds the records of it from there
    on, without a gap. -/
theorem fetch_of_life {es : List (LifeEvent κ)} (hrun : Run LifeStep («open» ∅ options) es s)
    (hlt : (acceptedInLife es).length < 2 ^ 64) (o : UInt64) (n : ℕ) :
    Numbered 0 (acceptedInLife es) ∧ s.wholeLog ++ s.inFlight ++ s.queue = acceptedInLife es ∧
      ∃ rs, (s.fetch o n).1 = some rs ∧ rs.length ≤ n ∧
        rs <+: (acceptedInLife es).drop o.toNat := by
  have hin := Run.inLog hrun hlt
  have h := hin.logged hlt
  exact ⟨hin.numbered hlt, h.log_eq, h.fetch_isPrefix o n⟩

/-- A record published before a restart, and one published after it. -/
theorem fetch_of_life_reopened :
    ∃ (es : List (LifeEvent Unit)) (s : PartitionStore Unit),
      Run LifeStep («open» ∅ {}) es s ∧ (acceptedInLife es).length = 2 ∧
        ∃ rs, (s.fetch 1 5).1 = some rs ∧ rs.length ≤ 5 ∧
          rs <+: (acceptedInLife es).drop (1 : UInt64).toNat := by
  have hidle : Idle («open» closedOne.dir {} : PartitionStore Unit) := ⟨rfl, rfl, rfl, rfl⟩
  have hagain := @Idle.run_publishedOne _ _ .empty 6 hidle (by decide) (by decide) (by decide)
    (by decide)
  have hrun := ((Run.lived run_closedOne).snoc (.reopen {} rfl)).append (Run.lived hagain)
  exact ⟨_, _, hrun, by decide, (fetch_of_life hrun (by decide) 1 5).2.2⟩

end Fell.Storage.PartitionStore
