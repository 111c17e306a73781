import Fell.Replication.ReplicaManager

/-!
# The order of the acknowledgements

The entries of a partition are registered in the order of their offsets, and the worker goes
through the commits in that order too. The acknowledgements of followers come as they like,
repeated or with an offset below an earlier one. Are the responses still released in
the order of the offsets?

A follower is counted for all entries below the offset it acknowledges. So an entry has been
acknowledged by every follower that has acknowledged one after it, also by one registered in
between (`PendingAck.Precedes`). While the ISR does not change, all entries require the same
number of followers, and none is complete before those in front of it.

* `Step.lined`, `Run.lined`: what has been released, followed by what is pending, is what
  was registered;
* `releasedInOrder`: so each response is released after those of the smaller offsets;
* `not_forall_releasedInOrder`: unless the count of the followers wraps around, when all
  `2 ^ 32` ids have acknowledged an entry.
-/

namespace Fell.Replication

open Platform Storage

/-- If an element has a property only when those in front of it do, those that have it come
    first. -/
theorem filter_append_filter_not {α : Type*} {p : α → Prop} [DecidablePred p] {l : List α}
    (h : l.Pairwise fun a b => p b → p a) : l.filter p ++ l.filter (¬p ·) = l := by
  induction l with
  | nil => rfl
  | cons a l ih =>
    rw [List.pairwise_cons] at h
    by_cases ha : p a
    · simpa [ha] using ih h.2
    · have hnone : ∀ b ∈ l, ¬p b := fun b hb hpb => ha (h.1 b hb hpb)
      have hnil : l.filter p = [] := List.filter_eq_nil_iff.2 (by simpa using hnone)
      have hall : l.filter (¬p ·) = l := List.filter_eq_self.2 (by simpa using hnone)
      rw [List.filter_cons_of_neg (by simpa using ha), hnil,
        List.filter_cons_of_pos (by simpa using ha), hall]
      rfl

/-! ## Entries -/

namespace PendingAck

variable {pa pa' : PendingAck}

/-- What the entry was registered with. -/
def registration (pa : PendingAck) : UInt64 × Response := (pa.offset, pa.response)

/-- An entry in front of another: it has noticed all that the other has. -/
structure Precedes (pa pa' : PendingAck) : Prop where
  offset : pa.offset < pa'.offset
  committed : pa'.leaderCommitted = true → pa.leaderCommitted = true
  acked : pa'.ackedFollowers ⊆ pa.ackedFollowers

theorem Precedes.ack (h : pa.Precedes pa') (followerId : UInt32) (ackedOffset : UInt64) :
    (pa.ack followerId ackedOffset).2.Precedes (pa'.ack followerId ackedOffset).2 where
  offset := by
    rw [offset_ack, offset_ack]
    exact h.offset
  committed := by
    rw [leaderCommitted_ack, leaderCommitted_ack]
    exact h.committed
  acked f hf := by
    -- What is acknowledged above the offset of the second is so above that of the first.
    rcases mem_ackedFollowers_ack.1 hf with hf | ⟨hf, hlt⟩
    · exact mem_ackedFollowers_ack.2 (.inl (h.acked hf))
    · exact mem_ackedFollowers_ack.2 (.inr ⟨hf, UInt64.lt_trans h.offset hlt⟩)

/-- A commit is noticed in order, if what is below it has been. -/
theorem Precedes.commit {qc : QueuedCommit} (h : pa.Precedes pa')
    (hbelow : pa.offset < qc.baseOffset → pa.leaderCommitted = true) :
    (pa.commit qc).2.Precedes (pa'.commit qc).2 where
  offset := by
    rw [offset_commit, offset_commit]
    exact h.offset
  committed hc := by
    refine leaderCommitted_commit.2 ?_
    rcases leaderCommitted_commit.1 hc with hc | ⟨-, hlt⟩
    · exact .inl (h.committed hc)
    · by_cases hbase : pa.offset < qc.baseOffset
      · exact .inl (hbelow hbase)
      · exact .inr ⟨UInt64.not_lt.1 hbase, UInt64.lt_trans h.offset hlt⟩
  acked := by
    rw [ackedFollowers_commit, ackedFollowers_commit]
    exact h.acked

/-- Of two entries that require the same number, the first is complete when the second is,
    if the counts have not wrapped around. -/
theorem Precedes.complete (h : pa.Precedes pa') (hreq : pa.isrRequired = pa'.isrRequired)
    (hcount : pa.isrAcked = UInt32.ofNat pa.ackedFollowers.card)
    (hcount' : pa'.isrAcked = UInt32.ofNat pa'.ackedFollowers.card)
    (hsize : pa.ackedFollowers.card < UInt32.size) (hc : pa'.Complete) : pa.Complete := by
  refine ⟨h.committed hc.1, ?_⟩
  have hcard : pa'.ackedFollowers.card ≤ pa.ackedFollowers.card := Finset.card_le_card h.acked
  rw [hreq, hcount]
  refine UInt32.le_trans hc.2 ?_
  rw [hcount', UInt32.le_iff_toNat_le, UInt32.toNat_ofNat_of_lt' (hcard.trans_lt hsize),
    UInt32.toNat_ofNat_of_lt' hsize]
  exact hcard

/-- What becomes of an entry: its response, if it has one, is released when it is
    complete, and otherwise it is kept. -/
structure Settles (pa : PendingAck) (result : List Response × PendingAck) : Prop where
  released : result.1 ≠ [] ↔ result.2.Complete ∧ pa.ackResponse ≠ []
  kept : ¬result.2.Complete → result.2.registration = pa.registration

theorem settles_self (hc : ¬pa.Complete) : pa.Settles ([], pa) where
  released := ⟨fun h => absurd rfl h, fun h => absurd h.1 hc⟩
  kept _ := rfl

theorem settles_tryRelease : pa.Settles pa.tryRelease := by
  by_cases hc : pa.Complete
  · have hc' : pa.tryRelease.2.Complete := by
      rw [tryRelease_snd]
      exact hc
    refine ⟨⟨fun h => ⟨hc', fun hnil => h ?_⟩, fun h => ?_⟩, fun h => absurd hc' h⟩
    · rw [tryRelease, hnil]
      split <;> rfl
    · rw [tryRelease_of_complete hc h.2]
      exact List.cons_ne_nil _ _
  · rw [tryRelease_of_not_complete hc]
    exact settles_self hc

theorem settles_ack (hc : ¬pa.Complete) (followerId : UInt32) (ackedOffset : UInt64) :
    pa.Settles (pa.ack followerId ackedOffset) := by
  rw [ack]
  split_ifs
  · exact ⟨settles_tryRelease.released, settles_tryRelease.kept⟩
  · exact settles_self hc

theorem settles_commit (hc : ¬pa.Complete) (qc : QueuedCommit) : pa.Settles (pa.commit qc) := by
  rw [commit]
  split_ifs
  · exact ⟨settles_tryRelease.released, settles_tryRelease.kept⟩
  · exact settles_self hc

end PendingAck

/-- The registrations that have a response to be released. -/
def due (regs : List (UInt64 × Response)) : List (UInt64 × Response) :=
  regs.filter fun reg => reg.2.2 ≠ []

theorem due_append (regs regs' : List (UInt64 × Response)) :
    due (regs ++ regs') = due regs ++ due regs' :=
  List.filter_append ..

theorem due_map_registration (l : List PendingAck) :
    due (l.map PendingAck.registration) =
      (l.filter fun pa => pa.ackResponse ≠ []).map PendingAck.registration :=
  List.filter_map

/-- A sweep that completes an entry only with those in front of it releases from the front. -/
theorem ReplicaManager.due_sweep {rm : ReplicaManager} {f : PendingAck → List Response × PendingAck}
    (hs : ∀ pa ∈ rm.pending, pa.Settles (f pa))
    (hfront : rm.pending.Pairwise fun pa pa' => (f pa').2.Complete → (f pa).2.Complete) :
    (rm.released f).map PendingAck.registration ++
        due ((rm.sweep f).2.pending.map PendingAck.registration) =
      due (rm.pending.map PendingAck.registration) := by
  have hreleased : rm.released f =
      (rm.pending.filter fun pa => (f pa).2.Complete).filter fun pa => pa.ackResponse ≠ [] := by
    rw [released, List.filter_filter]
    exact List.filter_congr fun pa hpa => by simp [(hs pa hpa).released, and_comm]
  have hkept : (rm.sweep f).2.pending.map PendingAck.registration =
      (rm.pending.filter fun pa => ¬(f pa).2.Complete).map PendingAck.registration := by
    rw [sweep, List.filter_map, List.map_map]
    refine List.map_congr_left fun pa hpa => ?_
    obtain ⟨hmem, hinc⟩ := List.mem_filter.1 hpa
    exact (hs pa hmem).kept (by simpa using hinc)
  rw [hreleased, hkept, due_map_registration, ← List.map_append, ← List.filter_append,
    filter_append_filter_not hfront, due_map_registration]

namespace Leader

variable {maxLag : UInt64} {s s' s₀ : Leader} {e : Event} {es : List Event}
  {pa pa' : PendingAck} {isr : List UInt32} {batches : List QueuedCommit}

/-! ## Runs in order -/

/-- The ISR is the one given. -/
def InSync (isr : List UInt32) (s : Leader) (_ : Event) : Prop := s.partition.isrIds.Perm isr

theorem Committed.of_snoc {offset : UInt64} (h : Committed (es ++ [e]) offset)
    (hcom : e.commit = []) : Committed es offset := by
  rwa [Committed, commits_snoc, hcom, List.append_nil] at h

/-- The entries are registered in the order of their offsets, each before its commit is
    gone through, and the commits are gone through in the order of their offsets: `batches`
    are those of the partition, also the ones that are yet to come. -/
structure InOrder (batches : List QueuedCommit) (es : List Event) : Prop where
  registered : (registrations es).Pairwise fun reg reg' => reg.1 < reg'.1
  sorted : batches.Pairwise fun qc qc' => qc.baseOffset ≤ qc'.baseOffset
  processed : commits es <+: batches
  batched : ∀ reg ∈ registrations es, ∃ qc ∈ batches, qc.Covers reg.1
  before : es.Pairwise fun e e' => ∀ qc ∈ e.commit, ∀ reg ∈ e'.registration, ¬qc.Covers reg.1

theorem InOrder.of_snoc (h : InOrder batches (es ++ [e])) : InOrder batches es where
  registered := by
    have hreg := h.registered
    rw [registrations_snoc] at hreg
    exact (List.pairwise_append.1 hreg).1
  sorted := h.sorted
  processed := by
    have hproc := h.processed
    rw [commits_snoc] at hproc
    exact (List.prefix_append _ _).trans hproc
  batched reg hreg := h.batched reg (by simp [hreg])
  before := (List.pairwise_append.1 h.before).1

/-- An entry is new when it is registered. -/
theorem InOrder.lt {reg reg' : UInt64 × Response} (h : InOrder batches (es ++ [e]))
    (hreg : reg ∈ registrations es) (hreg' : reg' ∈ e.registration) : reg.1 < reg'.1 := by
  have hpair := h.registered
  rw [registrations_snoc] at hpair
  exact (List.pairwise_append.1 hpair).2.2 reg hreg reg' hreg'

theorem InOrder.not_committed {reg : UInt64 × Response} (h : InOrder batches (es ++ [e]))
    (hreg : reg ∈ e.registration) : ¬Committed es reg.1 := by
  rintro ⟨qc, hqc, hcov⟩
  obtain ⟨e', he', hqc⟩ := List.mem_flatMap.1 hqc
  exact (List.pairwise_append.1 h.before).2.2 e' he' e (List.mem_singleton_self _) qc hqc reg hreg
    hcov

/-- What is below a commit has been committed. -/
theorem InOrder.committed {qc : QueuedCommit} {released : List PendingAck} {offset : UInt64}
    (h : InOrder batches (es ++ [.processed qc released]))
    (hreg : offset ∈ (registrations es).map Prod.fst) (hlt : offset < qc.baseOffset) :
    Committed es offset := by
  obtain ⟨reg, hmem, rfl⟩ := List.mem_map.1 hreg
  obtain ⟨qc', hqc', hcov⟩ := h.batched reg (by simp [hmem])
  obtain ⟨rest, hrest⟩ := h.processed
  have hsorted := h.sorted
  rw [← hrest, commits_snoc, List.append_assoc] at hqc' hsorted
  rcases List.mem_append.1 hqc' with hdone | hrest
  · exact ⟨qc', hdone, hcov⟩
  · -- The batch of the offset is not at or behind the one gone through, which is above it.
    have hle : qc.baseOffset ≤ qc'.baseOffset := by
      rcases List.mem_cons.1 hrest with rfl | hrest
      · exact UInt64.le_refl _
      · exact (List.pairwise_cons.1 (List.pairwise_append.1 hsorted).2.1).1 qc' hrest
    exact absurd (UInt64.lt_of_lt_of_le hlt (UInt64.le_trans hle hcov.1)) (UInt64.lt_irrefl _)

/-! ## The line of the entries -/

/-- The entries released, the oldest first. -/
def releases (es : List Event) : List PendingAck := es.flatMap Event.releases

@[simp] theorem releases_snoc : releases (es ++ [e]) = releases es ++ e.releases := by
  simp [releases]

/-- The entries stand in the order of their offsets, behind those that were released. -/
structure Lined (es : List Event) (s : Leader) : Prop where
  precedes : s.manager.pending.Pairwise PendingAck.Precedes
  registered : ∀ pa ∈ s.manager.pending, pa.offset ∈ (registrations es).map Prod.fst
  committed : ∀ pa ∈ s.manager.pending, Committed es pa.offset → pa.leaderCommitted = true
  ledger : (releases es).map PendingAck.registration ++
      due (s.manager.pending.map PendingAck.registration) = due (registrations es)

/-- A step that leaves the entries as they are. -/
theorem Lined.of_eq (h : Lined es s) (hp : s'.manager.pending = s.manager.pending)
    (hreg : e.registration = []) (hcom : e.commit = []) (hrel : e.releases = []) :
    Lined (es ++ [e]) s' where
  precedes := hp ▸ h.precedes
  registered := by
    rw [hp, registrations_snoc, hreg, List.append_nil]
    exact h.registered
  committed := by
    rw [hp]
    intro pa hpa hc
    exact h.committed pa hpa (hc.of_snoc hcom)
  ledger := by
    rw [hp, releases_snoc, registrations_snoc, hrel, hreg, List.append_nil, List.append_nil]
    exact h.ledger

theorem Lined.register {offset : UInt64} {ackResponse : Bytes} {producerFd : ℤ} (h : Lined es s)
    (ho : InOrder batches (es ++ [.registered offset ackResponse producerFd])) :
    Lined (es ++ [.registered offset ackResponse producerFd])
      { s with
        manager := s.manager.registerPending s.partition offset ackResponse producerFd } where
  precedes := by
    refine List.pairwise_append.2 ⟨h.precedes, List.pairwise_singleton _ _, ?_⟩
    intro pa hpa pa' hpa'
    obtain ⟨reg, hreg, hoff⟩ := List.mem_map.1 (h.registered pa hpa)
    rw [List.mem_singleton.1 hpa']
    have hlt := ho.lt hreg (List.mem_singleton_self _)
    rw [hoff] at hlt
    exact ⟨hlt, fun hc => absurd hc (by simp), Finset.empty_subset _⟩
  registered pa hpa := by
    rw [registrations_snoc, List.map_append]
    rcases List.mem_append.1 hpa with hpa | hpa
    · exact List.mem_append_left _ (h.registered pa hpa)
    · rw [List.mem_singleton.1 hpa]
      exact List.mem_append_right _ (List.mem_singleton_self _)
  committed pa hpa hc := by
    rcases List.mem_append.1 hpa with hpa | hpa
    · exact h.committed pa hpa (hc.of_snoc rfl)
    · rw [List.mem_singleton.1 hpa] at hc
      exact absurd (hc.of_snoc rfl) (ho.not_committed (List.mem_singleton_self _))
  ledger := by
    have hnone : (Event.registered offset ackResponse producerFd).releases = [] := rfl
    rw [releases_snoc, registrations_snoc, hnone, List.append_nil, due_append, ← h.ledger,
      ReplicaManager.registerPending, List.map_append, due_append, List.append_assoc]
    rfl

/-- A sweep that keeps the entries in line. -/
theorem Lined.sweep {f : PendingAck → List Response × PendingAck} (h : Lined es s)
    (hp : s'.manager.pending = (s.manager.sweep f).2.pending) (hreg : e.registration = [])
    (hrel : e.releases = s.manager.released f)
    (hs : ∀ pa ∈ s.manager.pending, pa.Settles (f pa)) (hoff : ∀ pa, (f pa).2.offset = pa.offset)
    (hprec : s.manager.pending.Pairwise fun pa pa' => (f pa).2.Precedes (f pa').2)
    (hfront : s.manager.pending.Pairwise fun pa pa' => (f pa').2.Complete → (f pa).2.Complete)
    (hcom : ∀ pa ∈ s.manager.pending, Committed (es ++ [e]) pa.offset →
      (f pa).2.leaderCommitted = true) :
    Lined (es ++ [e]) s' where
  precedes := by
    rw [hp]
    exact (List.pairwise_map.2 hprec).filter _
  registered pa hpa := by
    rw [hp] at hpa
    obtain ⟨pa', hpa', rfl⟩ := ReplicaManager.mem_sweep hpa
    rw [hoff, registrations_snoc, hreg, List.append_nil]
    exact h.registered pa' hpa'
  committed pa hpa hc := by
    rw [hp] at hpa
    obtain ⟨pa', hpa', rfl⟩ := ReplicaManager.mem_sweep hpa
    rw [hoff] at hc
    exact hcom pa' hpa' hc
  ledger := by
    rw [releases_snoc, registrations_snoc, hreg, List.append_nil, hrel, hp, List.map_append,
      List.append_assoc, ReplicaManager.due_sweep hs hfront]
    exact h.ledger

/-- Not all ids have acknowledged an entry, if one has not acknowledged at all. -/
theorem Tracked.card_lt (h : Tracked es pa) (hid : ∃ f, ∀ a, (f, a) ∉ acks es) :
    pa.ackedFollowers.card < UInt32.size := by
  obtain ⟨f, hf⟩ := hid
  exact card_lt_of_notMem fun hmem =>
    let ⟨a, ha, _⟩ := h.acked f hmem
    hf a ha

theorem isrRequired_eq_of_perm {m m' : PartitionMeta} (h : m.isrIds.Perm m'.isrIds) :
    ReplicaManager.isrRequired m = ReplicaManager.isrRequired m' := by
  rw [ReplicaManager.isrRequired, ReplicaManager.isrRequired, h.length_eq]

/-- An entry registered with the same ISR is complete when one behind it is. -/
theorem Tracked.complete (h : Tracked es pa) (h' : Tracked es pa') (hp : pa.Precedes pa')
    (hisr : pa.registeredAt.isrIds.Perm pa'.registeredAt.isrIds)
    (hid : ∃ f, ∀ a, (f, a) ∉ acks es) (hc : pa'.Complete) : pa.Complete := by
  refine hp.complete ?_ h.isrAcked h'.isrAcked (h.card_lt hid) hc
  rw [h.isrRequired, h'.isrRequired, isrRequired_eq_of_perm hisr]

theorem Step.lined (hst : Step maxLag s e s') (h : Lined es s) (ho : InOrder batches (es ++ [e]))
    (ht : ∀ pa ∈ s.manager.pending, Tracked es pa)
    (hisr : ∀ pa ∈ s.manager.pending, pa.registeredAt.isrIds.Perm isr)
    (hinc : ∀ pa ∈ s.manager.pending, ¬pa.Complete)
    (hid : ∃ f, ∀ a, (f, a) ∉ acks (es ++ [e])) : Lined (es ++ [e]) s' := by
  cases hst with
  | register offset ackResponse producerFd => exact h.register ho
  | @process qc hw =>
    have hprec : s.manager.pending.Pairwise fun pa pa' =>
        (pa.commit qc).2.Precedes (pa'.commit qc).2 :=
      h.precedes.imp_of_mem fun hpa _ hlt => hlt.commit fun hbase =>
        h.committed _ hpa (ho.committed (h.registered _ hpa) hbase)
    refine h.sweep rfl rfl rfl (fun pa hpa => PendingAck.settles_commit (hinc pa hpa) qc)
      (fun pa => PendingAck.offset_commit qc) hprec ?_ fun pa hpa hc => ?_
    · refine hprec.imp_of_mem fun hpa hpa' hlt => (ht _ hpa).commit.complete (ht _ hpa').commit hlt
        ?_ hid
      rw [PendingAck.registeredAt_commit, PendingAck.registeredAt_commit]
      exact (hisr _ hpa).trans (hisr _ hpa').symm
    · obtain ⟨qc', hqc', hcov⟩ := hc
      rw [commits_snoc] at hqc'
      rcases List.mem_append.1 hqc' with hdone | hnow
      · exact PendingAck.leaderCommitted_commit.2 (.inl (h.committed pa hpa ⟨qc', hdone, hcov⟩))
      · rw [List.mem_singleton.1 hnow] at hcov
        exact PendingAck.leaderCommitted_commit.2 (.inr hcov)
  | ack f a =>
    have hprec : s.manager.pending.Pairwise fun pa pa' => (pa.ack f a).2.Precedes (pa'.ack f a).2 :=
      h.precedes.imp fun hlt => hlt.ack f a
    refine h.sweep rfl rfl rfl (fun pa hpa => PendingAck.settles_ack (hinc pa hpa) f a)
      (fun pa => PendingAck.offset_ack f a) hprec ?_ fun pa hpa hc => ?_
    · refine hprec.imp_of_mem fun hpa hpa' hlt => (ht _ hpa).ack.complete (ht _ hpa').ack hlt ?_ hid
      rw [PendingAck.registeredAt_ack, PendingAck.registeredAt_ack]
      exact (hisr _ hpa).trans (hisr _ hpa').symm
    · rw [PendingAck.leaderCommitted_ack]
      exact h.committed pa hpa (hc.of_snoc rfl)
  | enqueue | pop | post | finish | change => exact h.of_eq rfl rfl rfl rfl

/-- The entries are registered with the ISR given. -/
theorem Run.registeredAt_inSync (hr : Run (Guarded (Step maxLag) (InSync isr)) s₀ es s)
    (hnil : s₀.manager.pending = []) :
    ∀ pa ∈ s.manager.pending, pa.registeredAt.isrIds.Perm isr :=
  hr.invariant (I := fun _ s => ∀ pa ∈ s.manager.pending, pa.registeredAt.isrIds.Perm isr)
    (by simp [hnil]) fun _ ih hst =>
      hst.1.registeredAt (P := fun m => m.isrIds.Perm isr) ih fun _ => hst.2

theorem Run.lined (hr : Run (Guarded (Step maxLag) (InSync isr)) s₀ es s)
    (hnil : s₀.manager.pending = []) (ho : InOrder batches es)
    (hid : ∃ f, ∀ a, (f, a) ∉ acks es) : Lined es s := by
  induction hr with
  | nil =>
    refine ⟨?_, ?_, ?_, ?_⟩ <;> simp [hnil, releases, registrations, due]
  | @snoc es s s' e hr hst ih =>
    obtain ⟨f, hf⟩ := hid
    have hf' : ∀ a, (f, a) ∉ acks es := fun a ha => hf a (by simp [ha])
    exact hst.1.lined (ih ho.of_snoc ⟨f, hf'⟩) ho (Run.tracked hr.of_guarded hnil)
      (Run.registeredAt_inSync hr hnil) (Run.incomplete hr.of_guarded hnil) ⟨f, hf⟩

/-! ## The order of the releases -/

/-- When a response is released, those of the smaller offsets have been. -/
def ReleasedInOrder (es : List Event) : Prop :=
  ∀ (before : List PendingAck) (pa : PendingAck) (after : List PendingAck),
    releases es = before ++ pa :: after →
    ∀ reg ∈ registrations es, reg.2.2 ≠ [] → reg.1 < pa.offset →
      ∃ pa' ∈ before, pa'.registration = reg

/-- The acknowledgements are released in the order of their offsets, as long as the ISR stays
    the same and one of the `2 ^ 32` ids has not acknowledged. -/
theorem releasedInOrder (hnil : s₀.manager.pending = [])
    (hr : Run (Guarded (Step maxLag) (InSync isr)) s₀ es s) (ho : InOrder batches es)
    (hid : ∃ f, ∀ a, (f, a) ∉ acks es) : ReleasedInOrder es := by
  intro before pa after hrel reg hreg hne hlt
  have hledger := (Run.lined hr hnil ho hid).ledger
  rw [hrel, List.map_append, List.map_cons, List.append_assoc, List.cons_append] at hledger
  have hsorted : (due (registrations es)).Pairwise fun reg reg' => reg.1 < reg'.1 :=
    ho.registered.filter _
  have hmem : reg ∈ due (registrations es) := List.mem_filter.2 ⟨hreg, by simpa using hne⟩
  rw [← hledger] at hsorted hmem
  rcases List.mem_append.1 hmem with hbefore | hrest
  · exact List.mem_map.1 hbefore
  · -- Nothing with a smaller offset is left at or behind the entry.
    have hle : pa.offset ≤ reg.1 := by
      rcases List.mem_cons.1 hrest with rfl | hrest
      · exact UInt64.le_refl _
      · exact UInt64.le_of_lt
          ((List.pairwise_cons.1 (List.pairwise_append.1 hsorted).2.1).1 reg hrest)
    exact absurd (UInt64.lt_of_lt_of_le hlt hle) (UInt64.lt_irrefl _)

section

/-- A leader and a follower, both in the ISR. -/
def pair : Leader where
  manager := {}
  partition := { topic := [], role := .leader, replicas := [{ brokerId := 0 }, { brokerId := 1 }] }

/-- The ids that acknowledge, one after the other. -/
def acker (i : ℕ) : UInt32 := UInt32.ofNat (i + 1)

/-- An entry that the first `k` of them have acknowledged. -/
def pairEntry (offset : UInt64) (k : ℕ) : PendingAck where
  offset
  ackResponse := [1]
  producerFd := 5
  isrAcked := UInt32.ofNat k
  isrRequired := 1
  ackedFollowers := (Finset.range k).image acker
  registeredAt := pair.partition

/-- The commit of two records. -/
def pairBatch : QueuedCommit := ⟨0, [⟨0, 0, .empty⟩, ⟨1, 0, .empty⟩]⟩

/-- Two entries are registered before anything else. -/
def pairEvents (es : List Event) : List Event :=
  .registered 0 [1] 5 :: .registered 1 [1] 5 :: es

/-- The entries are acknowledged by `k` ids. -/
def ackers (k : ℕ) : List Event := (List.range k).map fun i => .acked (acker i) 2 []

theorem ackers_succ (k : ℕ) : ackers (k + 1) = ackers k ++ [.acked (acker k) 2 []] := by
  simp [ackers, List.range_succ]

theorem acker_notMem {k : ℕ} (hk : k < UInt32.size) : acker k ∉ (Finset.range k).image acker := by
  intro hmem
  obtain ⟨i, hi, heq⟩ := Finset.mem_image.1 hmem
  have hi : i < k := Finset.mem_range.1 hi
  have hmod : (i + 1) % UInt32.size = (k + 1) % UInt32.size := congrArg UInt32.toNat heq
  -- No two of the numbers `1, …, 2 ^ 32` are the same id.
  rw [UInt32.size] at hk hmod
  omega

theorem ack_pairEntry {offset ackedOffset : UInt64} {k : ℕ} (hk : k < UInt32.size)
    (hlt : offset < ackedOffset) :
    (pairEntry offset k).ack (acker k) ackedOffset = ([], pairEntry offset (k + 1)) := by
  have hcount : (pairEntry offset k).count (acker k) = pairEntry offset (k + 1) := by
    simp [pairEntry, PendingAck.count, Finset.range_add_one, UInt32.ofNat_add]
  rw [PendingAck.ack, if_pos ⟨hlt, acker_notMem hk⟩, hcount]
  exact PendingAck.tryRelease_of_not_complete fun hc => absurd hc.1 (by simp [pairEntry])

/-- Both are in the ISR, whatever they have acknowledged. -/
def Paired (m : PartitionMeta) : Prop :=
  ∃ r r' : ReplicaState, m.replicas = [r, r'] ∧ (r.brokerId = 0 ∧ r.inIsr = true) ∧
    r'.brokerId = 1 ∧ r'.inIsr = true

theorem Paired.isrIds {m : PartitionMeta} (h : Paired m) : m.isrIds = [0, 1] := by
  obtain ⟨r, r', hm, hr, hr'⟩ := h
  simp [PartitionMeta.isrIds, hm, hr, hr']

theorem Paired.onReplicaAck {m : PartitionMeta} (h : Paired m) (id : UInt32)
    (ackedOffset maxLag leaderCommitted : UInt64) :
    Paired (m.onReplicaAck id ackedOffset maxLag leaderCommitted) := by
  obtain ⟨r, r', hm, hr, hr'⟩ := h
  rw [Paired, PartitionMeta.onReplicaAck, PartitionMeta.updateReplica, hm]
  by_cases h₀ : r.brokerId = id
  · exact ⟨r.acked ackedOffset maxLag leaderCommitted, r', by simp [List.replaceF, h₀],
      ⟨hr.1, by simp [ReplicaState.acked, hr.2]⟩, hr'⟩
  · by_cases h₁ : r'.brokerId = id
    · exact ⟨r, r'.acked ackedOffset maxLag leaderCommitted, by simp [List.replaceF, h₀, h₁], hr,
        hr'.1, by simp [ReplicaState.acked, hr'.2]⟩
    · exact ⟨r, r', by simp [List.replaceF, h₀, h₁], hr, hr'⟩

/-- An acknowledgement that releases neither of two entries. -/
theorem step_ack_pair {m : PartitionMeta} {f : UInt32} {a : UInt64} {pa pa' qa qa' : PendingAck}
    (hm : Paired m) (hpa : pa.ack f a = ([], qa)) (hpa' : pa'.ack f a = ([], qa'))
    (hqa : qa.leaderCommitted = false) (hqa' : qa'.leaderCommitted = false) :
    ∃ m', Paired m' ∧ Guarded (Step 1000) (InSync [0, 1]) ⟨{ pending := [pa, pa'] }, m⟩
      (.acked f a []) ⟨{ pending := [qa, qa'] }, m'⟩ := by
  refine ⟨_, hm.onReplicaAck f a 1000 m.leaderCommittedOffset, ?_, by rw [InSync, hm.isrIds]⟩
  have hst := @Step.ack 1000 ⟨{ pending := [pa, pa'] }, m⟩ f a
  simpa [onReplicaAck, ReplicaManager.sweep, ReplicaManager.released, hpa, hpa',
    PendingAck.Complete, hqa, hqa'] using hst

theorem step_register_pair (pending : List PendingAck) (offset : UInt64) :
    Guarded (Step 1000) (InSync [0, 1]) ⟨{ pending }, pair.partition⟩ (.registered offset [1] 5)
      ⟨{ pending := pending ++ [pairEntry offset 0] }, pair.partition⟩ := by
  have hreq : ReplicaManager.isrRequired pair.partition = 1 := by decide +kernel
  have hst := @Step.register 1000 ⟨{ pending }, pair.partition⟩ offset [1] 5
  rw [ReplicaManager.registerPending, hreq] at hst
  exact ⟨hst, List.Perm.refl _⟩

theorem run_ackers {k : ℕ} (hk : k ≤ UInt32.size) :
    ∃ m, Paired m ∧ Run (Guarded (Step 1000) (InSync [0, 1])) pair (pairEvents (ackers k))
      ⟨{ pending := [pairEntry 0 k, pairEntry 1 k] }, m⟩ := by
  induction k with
  | zero =>
    exact ⟨pair.partition, ⟨_, _, rfl, ⟨rfl, rfl⟩, rfl, rfl⟩,
      .cons (step_register_pair [] 0) (.single (step_register_pair _ 1))⟩
  | succ k ih =>
    obtain ⟨m, hm, hr⟩ := ih (by omega)
    obtain ⟨m', hm', hst⟩ := step_ack_pair hm (@ack_pairEntry 0 2 k hk (by decide))
      (@ack_pairEntry 1 2 k hk (by decide)) rfl rfl
    refine ⟨m', hm', ?_⟩
    rw [ackers_succ]
    exact hr.snoc hst

/-- The commit of the two records is queued and gone through at the end. -/
def pairRun (es : List Event) (released : List PendingAck) : List Event :=
  pairEvents es ++ [.enqueued pairBatch, .popped] ++ [.processed pairBatch released]

theorem run_pairRun {m : PartitionMeta} {pending : List PendingAck} (hm : Paired m)
    (hr : Run (Guarded (Step 1000) (InSync [0, 1])) pair (pairEvents es) ⟨{ pending }, m⟩) :
    ∃ s, Run (Guarded (Step 1000) (InSync [0, 1])) pair
      (pairRun es (pending.filter fun pa => (pa.commit pairBatch).1 ≠ [])) s := by
  have hisr : m.isrIds.Perm [0, 1] := by rw [hm.isrIds]
  exact ⟨_, (hr.append (.cons ⟨.enqueue pairBatch, hisr⟩ (.single ⟨.pop rfl rfl, hisr⟩))).snoc
    ⟨.process rfl, hisr⟩⟩

/-- Only acknowledgements are handled, which release nothing. -/
def Unanswered (es : List Event) : Prop := ∀ e ∈ es, ∃ f a, e = .acked f a []

theorem unanswered_ackers (k : ℕ) : Unanswered (ackers k) := by
  intro e he
  obtain ⟨i, -, rfl⟩ := List.mem_map.1 he
  exact ⟨_, _, rfl⟩

theorem Unanswered.flatMap_eq_nil {β : Type} {g : Event → List β} (h : Unanswered es)
    (hg : ∀ f a, g (.acked f a []) = []) : es.flatMap g = [] := by
  refine List.flatMap_eq_nil_iff.2 fun e he => ?_
  obtain ⟨f, a, rfl⟩ := h e he
  exact hg f a

theorem Unanswered.registrations_pairRun (h : Unanswered es) (released : List PendingAck) :
    registrations (pairRun es released) = [(0, 5, [1]), (1, 5, [1])] := by
  have hnil : es.flatMap Event.registration = [] := h.flatMap_eq_nil fun _ _ => rfl
  simp only [registrations, pairRun, pairEvents, List.cons_append, List.flatMap_cons,
    List.flatMap_append, hnil]
  rfl

theorem Unanswered.releases_pairRun (h : Unanswered es) (released : List PendingAck) :
    releases (pairRun es released) = released := by
  have hnil : es.flatMap Event.releases = [] := h.flatMap_eq_nil fun _ _ => rfl
  simp only [releases, pairRun, pairEvents, List.cons_append, List.flatMap_cons,
    List.flatMap_append, hnil]
  exact List.append_nil _

theorem Unanswered.inOrder_pairRun (h : Unanswered es) (released : List PendingAck) :
    InOrder [pairBatch] (pairRun es released) := by
  have hnil : commits (pairEvents es ++ [.enqueued pairBatch, .popped]) = [] := by
    have hack : es.flatMap Event.commit = [] := h.flatMap_eq_nil fun _ _ => rfl
    simp only [commits, pairEvents, List.cons_append, List.flatMap_cons, List.flatMap_append, hack]
    rfl
  have hnone := List.flatMap_eq_nil_iff.1 hnil
  refine ⟨?_, List.pairwise_singleton _ _, ?_, ?_, ?_⟩
  · rw [h.registrations_pairRun]
    decide
  · rw [pairRun, commits_snoc, hnil]
    exact List.prefix_refl _
  · rw [h.registrations_pairRun]
    decide
  · refine List.pairwise_append.2 ⟨?_, List.pairwise_singleton _ _, ?_⟩
    · exact List.pairwise_of_forall_mem_list fun e he _ _ qc hqc =>
        absurd (hnone e he ▸ hqc) List.not_mem_nil
    · exact fun e he _ _ qc hqc => absurd (hnone e he ▸ hqc) List.not_mem_nil

/-- An entry is released with the commit, if its count is not `0`. -/
theorem commit_pairEntry {offset : UInt64} {k : ℕ} (hcov : pairBatch.Covers offset) :
    ((pairEntry offset k).commit pairBatch).1 ≠ [] ↔ 1 ≤ UInt32.ofNat k := by
  have hinc : ¬(pairEntry offset k).Complete := fun hc => absurd hc.1 (by simp [pairEntry])
  have hcov' : pairBatch.Covers (pairEntry offset k).offset := hcov
  rw [(PendingAck.settles_commit hinc pairBatch).released, PendingAck.commit, if_pos hcov',
    PendingAck.tryRelease_snd]
  simp [PendingAck.Complete, PendingAck.mark, pairEntry]

/-- Both entries are released with their commit, once the follower has acknowledged them. -/
theorem releasedInOrder_pair :
    ReleasedInOrder (pairRun (ackers 1) [pairEntry 0 1, pairEntry 1 1]) := by
  obtain ⟨m, hm, hr⟩ := @run_ackers 1 (by decide)
  obtain ⟨s, hs⟩ := run_pairRun hm hr
  have hboth : [pairEntry 0 1, pairEntry 1 1].filter (fun pa => (pa.commit pairBatch).1 ≠ []) =
      [pairEntry 0 1, pairEntry 1 1] := by
    have h₀ := (@commit_pairEntry 0 1 (by decide)).2 (by decide)
    have h₁ := (@commit_pairEntry 1 1 (by decide)).2 (by decide)
    simp [h₀, h₁]
  rw [hboth] at hs
  exact releasedInOrder rfl hs ((unanswered_ackers 1).inOrder_pairRun _) ⟨7, by
    simp [acks, pairRun, pairEvents, ackers, Event.ack, acker]⟩

/-- When all ids have acknowledged the first entry, and all but one the second, the count
    of the first is `0`, and the second is released without it. -/
theorem not_forall_releasedInOrder :
    ¬∀ (maxLag : UInt64) (isr : List UInt32) (batches : List QueuedCommit) (s₀ s : Leader)
      (es : List Event), s₀.manager.pending = [] →
      Run (Guarded (Step maxLag) (InSync isr)) s₀ es s → InOrder batches es →
      ReleasedInOrder es := by
  intro h
  obtain ⟨n, hn, hpos, hzero⟩ : ∃ n : ℕ, n < UInt32.size ∧ 1 ≤ UInt32.ofNat n ∧
      UInt32.ofNat (n + 1) = 0 := ⟨4294967295, by decide, by decide, by decide⟩
  obtain ⟨m, hm, hr⟩ := run_ackers hn.le
  -- The last id acknowledges the first offset only.
  have hkeep : (pairEntry 1 n).ack (acker n) 1 = ([], pairEntry 1 n) :=
    if_neg fun hcond => absurd hcond.1 (UInt64.lt_irrefl 1)
  obtain ⟨m', hm', hst⟩ := step_ack_pair hm (@ack_pairEntry 0 1 n hn (by decide)) hkeep rfl rfl
  have hr' : Run _ pair (pairEvents (ackers n ++ [.acked (acker n) 1 []])) _ := hr.snoc hst
  obtain ⟨s, hs⟩ := run_pairRun hm' hr'
  have hq : Unanswered (ackers n ++ [.acked (acker n) 1 []]) :=
    List.forall_mem_append.2 ⟨unanswered_ackers n, by simp⟩
  have hsecond : [pairEntry 0 (n + 1), pairEntry 1 n].filter
      (fun pa => (pa.commit pairBatch).1 ≠ []) = [pairEntry 1 n] := by
    have h₀ := mt (@commit_pairEntry 0 (n + 1) (by decide)).1 (by rw [hzero]; decide)
    have h₁ := (@commit_pairEntry 1 n (by decide)).2 hpos
    rw [List.filter_cons_of_neg (by simpa using h₀), List.filter_cons_of_pos (by simpa using h₁)]
    rfl
  rw [hsecond] at hs
  have hord := h _ _ _ _ _ _ rfl hs (hq.inOrder_pairRun _)
  obtain ⟨pa, hpa, -⟩ := hord [] (pairEntry 1 n) [] (hq.releases_pairRun _) (0, 5, [1])
    (by simp [hq.registrations_pairRun]) (List.cons_ne_nil _ _)
    (show (0 : UInt64) < 1 by decide)
  exact absurd hpa List.not_mem_nil

end

end Leader

end Fell.Replication
