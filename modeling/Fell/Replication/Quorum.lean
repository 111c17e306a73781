import Fell.Replication.ReplicaManager

/-!
# The quorum of an acknowledgement

When is a pending acknowledgement released? A `Registration` records what has
happened since an entry was registered: it is *ready* when the worker has gone
through a commit of its offset, and as many followers as there were in the ISR,
less the leader, have acknowledged it. The ledger of a run is the list of its
registrations, kept as a history beside the replica manager.

An entry is a function of its registration (`Registration.entry`), and what a step does
to an entry is what the step adds to the registration (`ack_entry`, `commit_entry`). So
the entries pending are those of the registrations not ready (`Run.pending_eq`).
-/

namespace Fell.Replication.Leader

open Platform Storage

instance (es : List Event) (offset : UInt64) : Decidable (Committed es offset) :=
  inferInstanceAs (Decidable (∃ qc ∈ commits es, qc.Covers offset))

/-- A registration, and what has happened since. -/
structure Registration where
  offset : UInt64
  response : Response
  registeredAt : PartitionMeta
  since : List Event

namespace Registration

variable (r : Registration)

/-- The registration when another step has been taken. -/
def after (e : Event) : Registration := { r with since := r.since ++ [e] }

/-- The ids that have acknowledged the offset. -/
def ackers : Finset UInt32 :=
  (((acks r.since).filter fun ack => r.offset < ack.2).map Prod.fst).toFinset

/-- The size of the ISR at the registration, less one for the leader. -/
def required : ℕ := r.registeredAt.isrIds.length - 1

/-- The leader has committed the record, and enough followers have acknowledged it. -/
def Ready : Prop := Committed r.since r.offset ∧ r.required ≤ r.ackers.card

instance : Decidable r.Ready := inferInstanceAs (Decidable (_ ∧ _))

/-- The entry that `pending_` holds for a registration that is not ready. -/
def entry : PendingAck where
  offset := r.offset
  ackResponse := r.response.2
  producerFd := r.response.1
  leaderCommitted := decide (Committed r.since r.offset)
  isrAcked := UInt32.ofNat r.ackers.card
  isrRequired := ReplicaManager.isrRequired r.registeredAt
  ackedFollowers := r.ackers
  registeredAt := r.registeredAt

/-- The counters of the entry count what they are to count: the size of the ISR is
    within the range of `int`, and not all `2 ^ 32` ids have acknowledged. -/
structure InRange : Prop where
  isr_lt : r.registeredAt.isrIds.length < 2 ^ 31
  ackers_lt : r.ackers.card < 2 ^ 32

variable {r} {e : Event}

theorem mem_ackers {f : UInt32} : f ∈ r.ackers ↔ Acked r.since r.offset f := by
  simp [ackers, Acked]

theorem complete_entry (h : r.InRange) : r.entry.Complete ↔ r.Ready := by
  have hacked : (UInt32.ofNat r.ackers.card).toNat = r.ackers.card := by
    rw [UInt32.toNat_ofNat', Nat.mod_eq_of_lt h.ackers_lt]
  rw [PendingAck.Complete, entry, UInt32.le_iff_toNat_le, toNat_isrRequired h.isr_lt, hacked,
    decide_eq_true_iff, Ready, required]

theorem committed_after (e : Event) :
    Committed (r.after e).since r.offset ↔
      Committed r.since r.offset ∨ ∃ qc ∈ e.commit, qc.Covers r.offset :=
  committed_snoc

theorem mem_ackers_after {f : UInt32} :
    f ∈ (r.after e).ackers ↔ f ∈ r.ackers ∨ ∃ a, (f, a) ∈ e.ack ∧ r.offset < a := by
  rw [mem_ackers, mem_ackers]
  exact acked_snoc

/-- A step changes what the entry knows, and nothing else. -/
theorem entry_after {fs : Finset UInt32} {committed : Bool} (ha : (r.after e).ackers = fs)
    (hc : decide (Committed (r.after e).since r.offset) = committed) :
    (r.after e).entry = { r.entry with
      leaderCommitted := committed
      isrAcked := UInt32.ofNat fs.card
      ackedFollowers := fs } := by
  subst ha hc
  rfl

/-- A step that is neither a commit nor an acknowledgement leaves the entry as it is. -/
theorem entry_after_of_nil (hc : e.commit = []) (ha : e.ack = []) :
    (r.after e).entry = r.entry := by
  have hack : (r.after e).ackers = r.ackers := by
    ext f
    simp [mem_ackers_after, ha]
  have hcom : Committed (r.after e).since r.offset ↔ Committed r.since r.offset := by
    simp [committed_after, hc]
  exact entry_after hack (decide_eq_decide.2 hcom)

/-- What is ready stays so. -/
theorem Ready.after (h : r.Ready) (e : Event) : (r.after e).Ready := by
  refine ⟨(committed_after e).2 (.inl h.1), h.2.trans (Finset.card_le_card fun f hf => ?_)⟩
  exact mem_ackers_after.2 (.inl hf)

theorem InRange.of_after (h : (r.after e).InRange) : r.InRange where
  isr_lt := h.isr_lt
  ackers_lt := by
    refine (Finset.card_le_card fun f hf => ?_).trans_lt h.ackers_lt
    exact mem_ackers_after.2 (.inl hf)

/-- A follower counted is one more id that has acknowledged. -/
theorem ack_entry {f : UInt32} {a : UInt64} {released : List PendingAck} (h : ¬r.entry.Complete) :
    r.entry.ack f a = (r.after (.acked f a released)).entry.tryRelease := by
  have hcom : Committed (r.after (.acked f a released)).since r.offset ↔
      Committed r.since r.offset := by
    simp [committed_after, Event.commit]
  have hmem : ∀ g, g ∈ (r.after (.acked f a released)).ackers ↔
      g ∈ r.ackers ∨ g = f ∧ r.offset < a := by
    intro g
    simp [mem_ackers_after, Event.ack, and_assoc]
  rw [PendingAck.ack]
  split_ifs with hcond
  · obtain ⟨hlt, hnew⟩ : r.offset < a ∧ f ∉ r.ackers := hcond
    have hins : (r.after (.acked f a released)).ackers = insert f r.ackers := by
      ext g
      rw [hmem, Finset.mem_insert, and_iff_left hlt, or_comm]
    rw [entry_after hins (decide_eq_decide.2 hcom), Finset.card_insert_of_notMem hnew,
      UInt32.ofNat_add]
    rfl
  · -- It is for an earlier offset, or of a follower that has been counted.
    have hsame : (r.after (.acked f a released)).ackers = r.ackers := by
      ext g
      rw [hmem, or_iff_left_iff_imp]
      rintro ⟨rfl, hlt⟩
      by_contra hg
      exact hcond ⟨hlt, hg⟩
    rw [entry_after hsame (decide_eq_decide.2 hcom)]
    exact (PendingAck.tryRelease_of_not_complete h).symm

/-- A commit noted is a commit of the offset. -/
theorem commit_entry {qc : QueuedCommit} {released : List PendingAck} (h : ¬r.entry.Complete) :
    r.entry.commit qc = (r.after (.processed qc released)).entry.tryRelease := by
  have hsame : (r.after (.processed qc released)).ackers = r.ackers := by
    ext g
    simp [mem_ackers_after, Event.ack]
  have hcom : Committed (r.after (.processed qc released)).since r.offset ↔
      Committed r.since r.offset ∨ qc.Covers r.offset := by
    simp [committed_after, Event.commit]
  rw [PendingAck.commit]
  split_ifs with hcov
  · rw [entry_after hsame (decide_eq_true (hcom.2 (.inr hcov)))]
    rfl
  · rw [entry_after hsame (decide_eq_decide.2 (hcom.trans (or_iff_left hcov)))]
    exact (PendingAck.tryRelease_of_not_complete h).symm

end Registration

/-! ## The ledger -/

/-- A step as the ledger has it: all registrations see it, and it may make a new one. -/
def record (s : Leader) (e : Event) (regs : List Registration) : List Registration :=
  regs.map (·.after e) ++ e.registration.map fun reg => ⟨reg.1, reg.2, s.partition, []⟩

theorem record_of_nil {s : Leader} {e : Event} {regs : List Registration}
    (h : e.registration = []) : record s e regs = regs.map (·.after e) := by
  rw [record, h, List.map_nil, List.append_nil]

/-- The registrations that the step makes ready. -/
def fulfilled (e : Event) (regs : List Registration) : List Registration :=
  regs.filter fun r => ¬r.Ready ∧ (r.after e).Ready

/-- The entries of the registrations that are not ready. -/
def unfulfilled (regs : List Registration) : List PendingAck :=
  (regs.filter fun r => ¬r.Ready).map Registration.entry

variable {maxLag : UInt64} {s s' : Leader} {e : Event} {es : List Event}
  {regs : List Registration} {f : PendingAck → List Response × PendingAck}

theorem unfulfilled_cons_of_ready {r : Registration} (h : r.Ready) :
    unfulfilled (r :: regs) = unfulfilled regs := by
  simp [unfulfilled, h]

theorem unfulfilled_cons_of_not_ready {r : Registration} (h : ¬r.Ready) :
    unfulfilled (r :: regs) = r.entry :: unfulfilled regs := by
  simp [unfulfilled, h]

/-- The entries are gone through: those of the registrations that are ready now are
    released and erased. -/
theorem sweep_unfulfilled {rm : ReplicaManager} (hp : rm.pending = unfulfilled regs)
    (hf : ∀ r ∈ regs, ¬r.entry.Complete → f r.entry = (r.after e).entry.tryRelease)
    (hrange : ∀ r ∈ regs, (r.after e).InRange) (hne : ∀ r ∈ regs, r.response.2 ≠ []) :
    (rm.sweep f).2.pending = unfulfilled (regs.map (·.after e)) ∧
      (rm.released f).map (fun pa => (pa.producerFd, pa.ackResponse)) =
        (fulfilled e regs).map (·.response) := by
  simp only [ReplicaManager.sweep, ReplicaManager.released, hp]
  clear hp
  induction regs with
  | nil => exact ⟨rfl, rfl⟩
  | cons r regs ih =>
    rw [List.forall_mem_cons] at hf hrange hne
    obtain ⟨ihp, ihr⟩ := ih hf.2 hrange.2 hne.2
    have hcomplete := Registration.complete_entry hrange.1
    rw [List.map_cons]
    by_cases hr : r.Ready
    · -- The entry is gone already.
      have hr' := hr.after e
      rw [unfulfilled_cons_of_ready hr, unfulfilled_cons_of_ready hr', ihp, ihr]
      simp [fulfilled, hr]
    · have hfr := hf.1 (mt (Registration.complete_entry hrange.1.of_after).1 hr)
      rw [unfulfilled_cons_of_not_ready hr, List.map_cons]
      by_cases hr' : (r.after e).Ready
      · -- The step makes it ready: the entry is released, and then erased.
        have hrel := PendingAck.tryRelease_of_complete (hcomplete.2 hr') hne.1
        have herase : (r.after e).entry.tryRelease.2.Complete := by
          rw [PendingAck.tryRelease_snd]
          exact hcomplete.2 hr'
        rw [unfulfilled_cons_of_ready hr', List.filter_cons_of_neg (by simpa [hfr] using herase),
          List.filter_cons_of_pos (by simp [hfr, hrel]), List.map_cons, ihp, ihr]
        simp [fulfilled, hr, hr', Registration.entry]
      · have hstay := mt hcomplete.1 hr'
        have hkeep := PendingAck.tryRelease_of_not_complete hstay
        rw [unfulfilled_cons_of_not_ready hr', hfr, hkeep,
          List.filter_cons_of_pos (by simpa using hstay),
          List.filter_cons_of_neg (by simp [hfr, hkeep]), ihp, ihr]
        simp [fulfilled, hr']

/-- A step that is neither a commit nor an acknowledgement makes nothing ready. -/
theorem unfulfilled_map_after (hc : e.commit = []) (ha : e.ack = [])
    (hrange : ∀ r ∈ regs, (r.after e).InRange) :
    unfulfilled (regs.map (·.after e)) = unfulfilled regs ∧ fulfilled e regs = [] := by
  have hready : ∀ r ∈ regs, (r.after e).Ready ↔ r.Ready := fun r hr => by
    rw [← Registration.complete_entry (hrange r hr),
      ← Registration.complete_entry (hrange r hr).of_after, Registration.entry_after_of_nil hc ha]
  constructor
  · rw [unfulfilled, unfulfilled, List.filter_map, List.map_map]
    have hfilter : regs.filter ((fun r => decide ¬r.Ready) ∘ fun r => r.after e) =
        regs.filter fun r => ¬r.Ready :=
      List.filter_congr fun r hr => by simp [hready r hr]
    rw [hfilter]
    exact List.map_congr_left fun r _ => Registration.entry_after_of_nil hc ha
  · refine List.filter_eq_nil_iff.2 fun r hr => ?_
    simp [hready r hr]

/-- What is pending is what is not ready, and what a step releases is what it makes ready. -/
theorem Step.unfulfilled_eq (hst : Step maxLag s e s') (hp : s.manager.pending = unfulfilled regs)
    (hrange : ∀ r ∈ record s e regs, r.InRange) (hne : ∀ r ∈ record s e regs, r.response.2 ≠ []) :
    s'.manager.pending = unfulfilled (record s e regs) ∧
      e.responses = (fulfilled e regs).map (·.response) := by
  have hrange' : ∀ r ∈ regs, (r.after e).InRange := fun r hr =>
    hrange _ (List.mem_append_left _ (List.mem_map_of_mem hr))
  have hne' : ∀ r ∈ regs, r.response.2 ≠ [] := fun r hr =>
    hne (r.after e) (List.mem_append_left _ (List.mem_map_of_mem hr))
  cases hst with
  | register offset ackResponse producerFd =>
    -- A new entry is not committed, so it is not ready even if no follower is waited for.
    obtain ⟨hsame, hnone⟩ := unfulfilled_map_after rfl rfl hrange'
    rw [hnone]
    refine ⟨?_, rfl⟩
    change s.manager.pending ++ [_] = _
    rw [record, unfulfilled, List.filter_append, List.map_append, ← unfulfilled, hsame, hp]
    simp [Event.registration, Registration.Ready, Registration.entry, Committed, commits,
      Registration.ackers, acks]
  | process hw =>
    rw [record_of_nil rfl]
    exact sweep_unfulfilled hp (fun r _ h => Registration.commit_entry h) hrange' hne'
  | ack f a =>
    rw [record_of_nil rfl]
    exact sweep_unfulfilled hp (fun r _ h => Registration.ack_entry h) hrange' hne'
  | enqueue | pop | post | finish | change =>
    obtain ⟨hsame, hnone⟩ := unfulfilled_map_after rfl rfl hrange'
    rw [record_of_nil rfl, hsame, hnone]
    exact ⟨hp, rfl⟩

/-- What was ready, and what a step makes ready, is ready. -/
theorem perm_filter_ready (e : Event) (regs : List Registration) :
    ((regs.filter fun r => r.Ready).map (·.response) ++ (fulfilled e regs).map (·.response)).Perm
      (((record s e regs).filter fun r => r.Ready).map (·.response)) := by
  have hnew : (record s e regs).filter (fun r => r.Ready) =
      (regs.filter fun r => (r.after e).Ready).map (·.after e) := by
    rw [record, List.filter_append, List.filter_map]
    refine (List.append_right_eq_self.2 (List.filter_eq_nil_iff.2 fun r hr => ?_)).trans rfl
    obtain ⟨reg, _, rfl⟩ := List.mem_map.1 hr
    simp [Registration.Ready, Committed, commits]
  -- What is ready after the step was so before, or has been made so.
  have hsplit := List.filter_append_perm (fun r : Registration => decide r.Ready)
    (regs.filter fun r => (r.after e).Ready)
  rw [List.filter_filter, List.filter_filter] at hsplit
  have hold : (regs.filter fun r => decide r.Ready && decide (r.after e).Ready) =
      regs.filter fun r => r.Ready := by
    refine List.filter_congr fun r _ => ?_
    by_cases hr : r.Ready
    · simp [hr, hr.after e]
    · simp [hr]
  have hful : (regs.filter fun r => (!decide r.Ready) && decide (r.after e).Ready) =
      fulfilled e regs :=
    List.filter_congr fun r _ => by simp
  rw [hold, hful] at hsplit
  rw [hnew, List.map_map, ← List.map_append]
  exact hsplit.map _

variable {s₀ : Leader} {t t' : Leader × List Registration}

/-- In every run from a manager without entries, those pending are the ones of the
    registrations that are not ready, and for each one that is, there was a release. -/
theorem Run.pending_eq (hr : Run (Recorded (Step maxLag) record) (s₀, []) es t)
    (hnil : s₀.manager.pending = []) (hrange : ∀ r ∈ t.2, r.InRange)
    (hne : ∀ r ∈ t.2, r.response.2 ≠ []) :
    t.1.manager.pending = unfulfilled t.2 ∧
      (responses es).Perm ((t.2.filter fun r => r.Ready).map (·.response)) := by
  refine hr.invariant (I := fun es t => (∀ r ∈ t.2, r.InRange) → (∀ r ∈ t.2, r.response.2 ≠ []) →
    t.1.manager.pending = unfulfilled t.2 ∧
      (responses es).Perm ((t.2.filter fun r => r.Ready).map (·.response)))
    (fun _ _ => ⟨hnil, .refl _⟩) ?_ hrange hne
  intro es t e t' _ ih hst hrange hne
  obtain ⟨hst, hreg⟩ := hst
  rw [hreg] at hrange hne ⊢
  have hmem : ∀ r ∈ t.2, r.after e ∈ record t.1 e t.2 := fun r hr =>
    List.mem_append_left _ (List.mem_map_of_mem hr)
  obtain ⟨hp, hperm⟩ := ih (fun r hr => (hrange _ (hmem r hr)).of_after)
    fun r hr => hne (r.after e) (hmem r hr)
  obtain ⟨hp', hresp⟩ := hst.unfulfilled_eq hp hrange hne
  refine ⟨hp', ?_⟩
  rw [responses_snoc, hresp]
  exact (hperm.append_right _).trans (perm_filter_ready e t.2)

/-- In every run from a manager without entries, whose responses are not empty and whose
    counters are in range: a step releases the entries whose registrations it makes ready,
    after it the entries of those not ready are pending and no other, and over the run one
    entry is released for each that is ready. -/
theorem releases_fulfilled (hnil : s₀.manager.pending = [])
    (hr : Run (Recorded (Step maxLag) record) (s₀, []) es t)
    (hst : Recorded (Step maxLag) record t e t') (hne : ∀ r ∈ t'.2, r.response.2 ≠ [])
    (hrange : ∀ r ∈ t'.2, r.InRange) :
    e.responses = (fulfilled e t.2).map (·.response) ∧
      t'.1.manager.pending = unfulfilled t'.2 ∧
      (responses (es ++ [e])).Perm ((t'.2.filter fun r => r.Ready).map (·.response)) := by
  obtain ⟨hp', hperm⟩ := Run.pending_eq (hr.snoc hst) hnil hrange hne
  obtain ⟨hst, hreg⟩ := hst
  rw [hreg] at hrange hne
  have hmem : ∀ r ∈ t.2, r.after e ∈ record t.1 e t.2 := fun r hr =>
    List.mem_append_left _ (List.mem_map_of_mem hr)
  obtain ⟨hp, _⟩ := Run.pending_eq hr hnil (fun r hr => (hrange _ (hmem r hr)).of_after)
    fun r hr => hne (r.after e) (hmem r hr)
  exact ⟨(hst.unfulfilled_eq hp hrange hne).2, hp', hperm⟩

section

/-- The registration of the entry, when its record is committed. -/
def firstRegistration : Registration where
  offset := 0
  response := (5, [1])
  registeredAt := oneInSync.partition
  since := commitFirstEvents.tail

theorem run_firstRegistration :
    Run (Recorded (Step 1000) record) (oneInSync, []) commitFirstEvents
      (committedFirst, [firstRegistration]) := by
  have hreg : Step 1000 oneInSync (.registered 0 [1] 5)
      ⟨{ pending := [firstEntry] }, oneInSync.partition⟩ := by
    rw [← register_firstEntry]
    exact .register 0 [1] 5
  have h₁ : Run (Recorded (Step 1000) record) (oneInSync, []) [.registered 0 [1] 5] _ :=
    .single (.of_step hreg)
  have h₂ := (h₁.snoc (.of_step (.enqueue firstCommit))).snoc (.of_step (.pop rfl rfl))
  exact ((h₂.snoc (.of_step (.process rfl))).snoc (.of_step (.post rfl))).snoc
    (.of_step (.finish rfl))

/-- With the acknowledgement of the follower in sync, the entry is ready and released. -/
theorem releases_firstRegistration :
    (Event.acked 1 1 (committedFirst.manager.released (·.ack 1 1))).responses = [(5, [1])] ∧
      (committedFirst.onReplicaAck 1000 1 1).2.manager.pending = [] := by
  obtain ⟨hresp, hpending, -⟩ :=
    releases_fulfilled rfl run_firstRegistration (.of_step (.ack 1 1)) (by decide) (by
      intro r hr
      obtain rfl := List.mem_singleton.1 hr
      exact ⟨by decide, by decide⟩)
  exact ⟨hresp.trans (by decide), hpending.trans (by decide)⟩

/-- A leader whose ISR has `n` members. -/
def crowded (n : ℕ) : Leader where
  manager := {}
  partition :=
    { topic := [], role := .leader
      replicas := (List.range n).map fun id => { brokerId := UInt32.ofNat id } }

theorem length_isrIds_crowded (n : ℕ) : (crowded n).partition.isrIds.length = n := by
  simp [crowded, PartitionMeta.isrIds, List.filter_map, Function.comp_def]

/-- An entry that requires no follower, and its commit in the hands of the worker. -/
def crowdedPopped (n : ℕ) : Leader where
  manager :=
    { pending := [{ offset := 0, ackResponse := [1], producerFd := 5,
                    registeredAt := (crowded n).partition }]
      worker := .popped firstCommit }
  partition := (crowded n).partition

/-- The registration of the entry. -/
def crowdedRegistration (n : ℕ) : Registration where
  offset := 0
  response := (5, [1])
  registeredAt := (crowded n).partition
  since := [.enqueued firstCommit, .popped]

theorem run_crowded {n : ℕ} (h : ReplicaManager.isrRequired (crowded n).partition = 0) :
    Run (Recorded (Step 1000) record) (crowded n, [])
      [.registered 0 [1] 5, .enqueued firstCommit, .popped]
      (crowdedPopped n, [crowdedRegistration n]) := by
  have h₁ : Run (Recorded (Step 1000) record) (crowded n, []) [.registered 0 [1] 5] _ :=
    .single (.of_step (.register 0 [1] 5))
  rw [ReplicaManager.registerPending, h] at h₁
  exact (h₁.snoc (.of_step (.enqueue firstCommit))).snoc (.of_step (.pop rfl rfl))

/-- No follower has acknowledged, but one or more are to. -/
theorem not_ready_crowded {n : ℕ} (hn : 1 < n) (e : Event) (he : e.ack = []) :
    ¬((crowdedRegistration n).after e).Ready := by
  intro hr
  have hnone : acks ((crowdedRegistration n).after e).since = [] := by
    simp only [Registration.after, acks_snoc, he]
    rfl
  have hle := hr.2
  rw [Registration.ackers, hnone] at hle
  have hlen : ((crowdedRegistration n).after e).required = n - 1 :=
    congrArg (· - 1) (length_isrIds_crowded n)
  rw [hlen] at hle
  simp only [List.filter_nil, List.map_nil, List.toFinset_nil, Finset.card_empty] at hle
  omega

/-- An ISR of more than `2 ^ 31` members is negative as an `int`, so that no follower is
    required, and the entry is released with the commit. -/
theorem not_forall_releases_fulfilled :
    ¬∀ (maxLag : UInt64) (s₀ : Leader) (es : List Event) (t t' : Leader × List Registration)
      (e : Event), s₀.manager.pending = [] → Run (Recorded (Step maxLag) record) (s₀, []) es t →
      Recorded (Step maxLag) record t e t' → (∀ r ∈ t'.2, r.response.2 ≠ []) →
      e.responses = (fulfilled e t.2).map (·.response) := by
  intro h
  obtain ⟨n, hn, hint⟩ : ∃ n : ℕ, 1 < n ∧ ReplicaManager.toInt n ≤ 1 :=
    ⟨2 ^ 31 + 1, by decide, by decide⟩
  have hreq : ReplicaManager.isrRequired (crowded n).partition = 0 := by
    rw [ReplicaManager.isrRequired, length_isrIds_crowded, max_eq_left (by omega)]
    rfl
  have hresp := h 1000 _ _ _ _ _ rfl (run_crowded hreq) (.of_step (.process rfl)) (by
    intro r hr
    obtain rfl := List.mem_singleton.1 hr
    exact List.cons_ne_nil _ _)
  have hnone : fulfilled (.processed firstCommit
      ((crowdedPopped n).manager.released (·.commit firstCommit))) [crowdedRegistration n] = [] :=
    List.filter_eq_nil_iff.2 fun r hr => by
      obtain rfl := List.mem_singleton.1 hr
      simpa using fun _ => not_ready_crowded hn (.processed firstCommit _) rfl
  rw [hnone] at hresp
  exact absurd hresp (List.cons_ne_nil _ _)

end

end Fell.Replication.Leader
