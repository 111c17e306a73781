import Fell.Storage.Backlog
import Fell.Storage.LifeLog

/-!
# Timestamps

A record is given a timestamp when it is accepted. The clock is not read for each
(`get_cached_timestamp_locked` in `storage/partition_store.cpp`): a reading is used for sixteen
records, however far apart in time they are. A store that is opened again starts with a new one.

What the clock would have shown is no part of the store. It is kept beside it: `readings` has the
time of each accepted append, whether the clock was read for it or not.

* `Dated`: what a timestamp has to do with the readings;
* `timestamps_of_life`: a timestamp is that of one of the last sixteen appends, and as long as the
  clock does not go back, the log and all that is fetched from it are in the order of time.
-/

namespace Fell.Storage.PartitionStore

variable {κ : Type} {s s' : PartitionStore κ} {e : Event κ} {options : StorageOptions}
  {readings : List UInt64} {rs : List Record}

/-- The records are in the order of time. -/
def InTime (rs : List Record) : Prop := rs.Pairwise fun r r' => r.timestampMs ≤ r'.timestampMs

/-- Each record has the time of one of the last appends up to its own, and in order if the clock
    does not go back. A reading that is still in use is that of the last record. -/
structure Dated (readings : List UInt64) (rs : List Record) (s : PartitionStore κ) : Prop where
  length_eq : rs.length = readings.length
  recent : ∀ k r, rs[k]? = some r →
    ∃ j ≤ k, k < j + timestampRefreshEvery ∧ readings[j]? = some r.timestampMs
  inTime : readings.Pairwise (· ≤ ·) → InTime rs
  tsCounter_lt : s.tsCounter < timestampRefreshEvery
  cached : s.tsCounter ≠ 0 → ∃ j, j + s.tsCounter = readings.length ∧
    readings[j]? = some s.lastTimestampMs ∧ ∃ r, rs.getLast? = some r ∧
      r.timestampMs = s.lastTimestampMs

theorem Dated.congr (h : Dated readings rs s) (hcounter : s'.tsCounter = s.tsCounter)
    (hlast : s'.lastTimestampMs = s.lastTimestampMs) : Dated readings rs s' where
  length_eq := h.length_eq
  recent := h.recent
  inTime := h.inTime
  tsCounter_lt := hcounter ▸ h.tsCounter_lt
  cached := by
    rw [hcounter, hlast]
    exact h.cached

/-- A store that is opened has no reading. -/
theorem Dated.open (h : Dated readings rs s) (dir : Dir) (options : StorageOptions) :
    Dated readings rs («open» dir options : PartitionStore κ) where
  length_eq := h.length_eq
  recent := h.recent
  inTime := h.inTime
  tsCounter_lt := Nat.zero_lt_succ 15
  cached hne := absurd rfl hne

/-- A timestamp is one of the readings. -/
theorem Dated.mem_readings (h : Dated readings rs s) {r : Record} (hr : r ∈ rs) :
    r.timestampMs ∈ readings := by
  obtain ⟨k, hk⟩ := List.mem_iff_getElem?.1 hr
  obtain ⟨j, -, -, hj⟩ := h.recent k r hk
  exact List.mem_of_getElem? hj

/-- The reading that an accepted append uses, and where it is among the readings. -/
theorem Dated.exists_reading (h : Dated readings rs s) (now : UInt64) :
    ∃ j ≤ readings.length, readings.length < j + timestampRefreshEvery ∧
      (readings ++ [now])[j]? = some (s.getCachedTimestampLocked now).1 ∧
      j + s.tsCounter = readings.length := by
  have hlt := h.tsCounter_lt
  by_cases h0 : s.tsCounter = 0
  · refine ⟨readings.length, Nat.le_refl _, by omega, ?_, by omega⟩
    simp only [getCachedTimestampLocked, if_pos h0]
    rw [List.getElem?_concat_length]
  · obtain ⟨j, hj, hread, -⟩ := h.cached h0
    refine ⟨j, by omega, by omega, ?_, hj⟩
    simp only [getCachedTimestampLocked, if_neg h0]
    rw [List.getElem?_append_left (by omega), hread]

/-- No record before has a later timestamp, if the clock does not go back. -/
theorem Dated.le_reading (h : Dated readings rs s) {now : UInt64}
    (hclock : (readings ++ [now]).Pairwise (· ≤ ·)) {r : Record} (hr : r ∈ rs) :
    r.timestampMs ≤ (s.getCachedTimestampLocked now).1 := by
  obtain ⟨hsorted, -, hnow⟩ := List.pairwise_append.1 hclock
  by_cases h0 : s.tsCounter = 0
  · simp only [getCachedTimestampLocked, if_pos h0]
    exact hnow _ (h.mem_readings hr) _ (List.mem_singleton_self _)
  · obtain ⟨j, -, -, last, hlast, heq⟩ := h.cached h0
    simp only [getCachedTimestampLocked, if_neg h0]
    -- The last record has the timestamp already.
    obtain ⟨before, rfl⟩ := List.getLast?_eq_some_iff.1 hlast
    rw [← heq]
    rcases List.mem_append.1 hr with hr | hr
    · exact (List.pairwise_append.1 (h.inTime hsorted)).2.2 r hr last (List.mem_singleton_self _)
    · exact UInt64.le_of_eq (congrArg _ (List.mem_singleton.1 hr))

theorem tsCounter_enqueue (s : PartitionStore κ) (payload : Payload) (now : UInt64) :
    (s.enqueue payload now).tsCounter =
      if timestampRefreshEvery ≤ s.tsCounter + 1 then 0 else s.tsCounter + 1 := rfl

/-- A record is accepted. -/
theorem Dated.enqueue (h : Dated readings rs s) (payload : Payload) (now : UInt64) :
    Dated (readings ++ [now]) (rs ++ [s.command payload now]) (s.enqueue payload now) where
  length_eq := by simp [h.length_eq]
  recent k r hr := by
    obtain ⟨j, hj, hlt, hread, -⟩ := h.exists_reading now
    rcases Nat.lt_or_ge k rs.length with hk | hk
    · rw [List.getElem?_append_left hk] at hr
      obtain ⟨j, hj, hlt, hread⟩ := h.recent k r hr
      refine ⟨j, hj, hlt, ?_⟩
      rw [List.getElem?_append_left (by rw [← h.length_eq]; omega), hread]
    · obtain ⟨hlt', hget⟩ := List.getElem?_eq_some_iff.1 hr
      rw [List.length_append, List.length_singleton] at hlt'
      obtain rfl : k = rs.length := by omega
      rw [List.getElem_concat_length rfl] at hget
      rw [h.length_eq, ← hget]
      exact ⟨j, hj, hlt, hread⟩
  inTime hclock := by
    have hsorted := (List.pairwise_append.1 hclock).1
    refine List.pairwise_append.2 ⟨h.inTime hsorted, List.pairwise_singleton _ _, ?_⟩
    intro r hr r' hr'
    rw [List.mem_singleton.1 hr']
    exact h.le_reading hclock hr
  tsCounter_lt := by
    rw [tsCounter_enqueue]
    split_ifs with hwrap
    · exact Nat.zero_lt_succ 15
    · exact Nat.lt_of_not_le hwrap
  cached hne := by
    obtain ⟨j, -, -, hread, hj⟩ := h.exists_reading now
    rw [tsCounter_enqueue] at hne ⊢
    split_ifs at hne ⊢ with hwrap
    · exact absurd rfl hne
    · refine ⟨j, ?_, hread, _, List.getLast?_concat, rfl⟩
      rw [List.length_append, List.length_singleton]
      omega

/-! ## Lives with a clock -/

/-- A step of the store in one of its lives, with the time of an accepted append. -/
inductive ClockedStep (x : PartitionStore κ × List UInt64) :
    LifeEvent κ → PartitionStore κ × List UInt64 → Prop
  | append (payload : Payload) (now : UInt64)
      (hacc : (x.1.append payload now).1.accepted = true) :
      ClockedStep x (.lived (.appended (x.1.command payload now)))
        ((x.1.append payload now).2, x.2 ++ [now])
  | other {e : LifeEvent κ} {s' : PartitionStore κ} (hst : LifeStep x.1 e s')
      (he : e.accepted = []) : ClockedStep x e (s', x.2)

variable {x x' : PartitionStore κ × List UInt64} {es : List (LifeEvent κ)}

/-- The clock is beside the store. -/
theorem ClockedStep.life {e : LifeEvent κ} (hst : ClockedStep x e x') : LifeStep x.1 e x'.1 := by
  cases hst with
  | append payload now hacc => exact .live (.append payload now hacc)
  | other hst he => exact hst

theorem ClockedStep.run_life (hr : Run ClockedStep x es x') : Run LifeStep x.1 es x'.1 := by
  have hproj := hr.project Prod.fst (fun e => [e]) fun hst => Run.single hst.life
  rwa [List.flatMap_singleton'] at hproj

/-- It leaves out no step of the store. -/
theorem exists_clockedStep {e : LifeEvent κ} (hst : LifeStep x.1 e s') :
    ∃ readings, ClockedStep x e (s', readings) := by
  by_cases he : e.accepted = []
  · exact ⟨_, .other hst he⟩
  · cases hst with
    | live hst =>
      cases hst with
      | append payload now hacc => exact ⟨_, .append payload now hacc⟩
      | _ => exact absurd rfl he
    | reopen => exact absurd rfl he

/-- Only an accepted append uses the clock. -/
theorem Step.cache_eq (hst : Step s e s') (he : e.accepted = []) :
    s'.tsCounter = s.tsCounter ∧ s'.lastTimestampMs = s.lastTimestampMs := by
  cases hst with
  | append payload now hacc => exact absurd he (List.cons_ne_nil _ _)
  | refuse payload now hrej =>
    rw [append_of_rejected hrej]
    exact ⟨rfl, rfl⟩
  | register offset cb =>
    rw [setOnceCommitCallback_snd]
    exact ⟨rfl, rfl⟩
  | @write s' batch hio hw =>
    cases hlast : batch.getLast? with
    | none =>
      rw [writeBatch, hlast, Option.some.injEq] at hw
      exact hw ▸ ⟨rfl, rfl⟩
    | some last => exact (writeBatch_eq_some hlast hw).1 ▸ ⟨rfl, rfl⟩
  | endRound hio =>
    rw [endRound_eq]
    exact ⟨rfl, rfl⟩
  | fetch offset maxCount =>
    rw [fetch_snd]
    exact ⟨rfl, rfl⟩
  | takeFirst | takeMore | takeDone | notify | shutDown | stop => exact ⟨rfl, rfl⟩

theorem ClockedStep.dated {e : LifeEvent κ} (hst : ClockedStep x e x')
    (h : Dated x.2 (acceptedInLife es) x.1) : Dated x'.2 (acceptedInLife (es ++ [e])) x'.1 := by
  rw [acceptedInLife_snoc]
  cases hst with
  | append payload now hacc =>
    rw [append_of_accepted hacc]
    exact h.enqueue payload now
  | other hst he =>
    rw [he, List.append_nil]
    cases hst with
    | live hst =>
      obtain ⟨hcounter, hlast⟩ := hst.cache_eq he
      exact h.congr hcounter hlast
    | reopen options hstop => exact h.open _ _

theorem dated_open (dir : Dir) (options : StorageOptions) :
    Dated [] [] («open» dir options : PartitionStore κ) where
  length_eq := rfl
  recent k r hr := by simp at hr
  inTime _ := List.Pairwise.nil
  tsCounter_lt := Nat.zero_lt_succ 15
  cached hne := absurd rfl hne

theorem ClockedStep.run_dated {dir : Dir} (hr : Run ClockedStep («open» dir options, []) es x) :
    Dated x.2 (acceptedInLife es) x.1 :=
  hr.invariant (I := fun es x => Dated x.2 (acceptedInLife es) x.1) (dated_open _ _)
    fun _ ih hst => hst.dated ih

/-- In every life of a store from an empty directory, with any number of clean restarts, as long as
    the offsets fit: the timestamp of a record is the time of its append, or of one of the fifteen
    before it. If the time of no append is before that of an earlier one, then the timestamps never
    go back, in the log and in all that a fetch finds. -/
theorem timestamps_of_life (hrun : Run ClockedStep («open» ∅ options, []) es (s, readings))
    (hlt : (acceptedInLife es).length < 2 ^ 64) :
    (∀ k r, (acceptedInLife es)[k]? = some r →
        ∃ j ≤ k, k < j + timestampRefreshEvery ∧ readings[j]? = some r.timestampMs) ∧
      (readings.Pairwise (· ≤ ·) → InTime s.wholeLog ∧
        ∀ o n rs, (s.fetch o n).1 = some rs → InTime rs) := by
  have hdated := ClockedStep.run_dated hrun
  have hlog := (Run.inLog (ClockedStep.run_life hrun) hlt).logged hlt
  refine ⟨hdated.recent, fun hclock => ?_⟩
  have htime : InTime (acceptedInLife es) := hdated.inTime hclock
  refine ⟨?_, fun o n rs hrs => ?_⟩
  · rw [← hlog.log_eq, List.append_assoc] at htime
    exact (List.pairwise_append.1 htime).1
  · obtain ⟨rs', hrs', -, hpre⟩ := hlog.fetch_isPrefix o n
    obtain rfl : rs = rs' := Option.some.inj (hrs.symm.trans hrs')
    exact (List.Pairwise.sublist (List.drop_sublist _ _) htime).sublist hpre.sublist

/-- The second record is accepted an hour later, and has the timestamp of the first. -/
theorem timestamps_of_life_two :
    ∃ (es : List (LifeEvent Unit)) (s : PartitionStore Unit),
      Run ClockedStep («open» ∅ {}, []) es (s, [5, 3600005]) ∧
        (acceptedInLife es).map Record.timestampMs = [5, 5] ∧
        InTime s.wholeLog ∧ ∀ o n rs, (s.fetch o n).1 = some rs → InTime rs := by
  have hrun : Run ClockedStep ((«open» ∅ {} : PartitionStore Unit), []) _ (_, [5, 3600005]) :=
    .snoc (.single (.append .empty 5 (by decide))) (.append .empty 3600005 (by decide))
  exact ⟨_, _, hrun, by decide, (timestamps_of_life hrun (by decide)).2 (by decide)⟩

end Fell.Storage.PartitionStore
