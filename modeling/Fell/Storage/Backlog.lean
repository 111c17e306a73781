import Fell.Storage.Log

/-!
# The backlog of a store

`append` refuses a record when the queue has no room for it: when it holds as many commands as it
may, or as many bytes. The bytes are counted in `pending_bytes_`, by the producers as they put
commands in the queue, and by the I/O thread as it takes them out.

* `Step.backlog`, `Run.backlog`: the counter is the number of bytes in the queue, and both limits
  are kept;
* `refused_iff_full`: so a record is refused if and only if there is no room for it.
-/

namespace Fell.Storage.PartitionStore

variable {κ : Type} {s s' s₀ : PartitionStore κ} {e : Event κ} {es : List (Event κ)}

/-- The bytes of the payloads. -/
def payloadBytes (cmds : List Record) : ℕ := (cmds.map fun cmd => cmd.payload.bytes.length).sum

@[simp] theorem payloadBytes_nil : payloadBytes [] = 0 := rfl

@[simp] theorem payloadBytes_cons (cmd : Record) (cmds : List Record) :
    payloadBytes (cmd :: cmds) = cmd.payload.bytes.length + payloadBytes cmds := List.sum_cons

@[simp] theorem payloadBytes_append (cmds cmds' : List Record) :
    payloadBytes (cmds ++ cmds') = payloadBytes cmds + payloadBytes cmds' := by
  simp [payloadBytes]

/-- The queue is counted right, and keeps within its limits. -/
structure Backlog (s : PartitionStore κ) : Prop where
  pendingBytes : s.pendingBytes.toNat = payloadBytes s.queue
  bytes_le : payloadBytes s.queue ≤ s.options.maxPendingBytes.toNat
  length_le : s.queue.length ≤ s.options.queueCapacity

/-- The limits are about the queue only. -/
theorem Backlog.congr (h : Backlog s) (hq : s'.queue = s.queue)
    (hp : s'.pendingBytes = s.pendingBytes) (ho : s'.options = s.options) : Backlog s' := by
  refine ⟨?_, ?_, ?_⟩
  · rw [hq, hp]
    exact h.pendingBytes
  · rw [hq, ho]
    exact h.bytes_le
  · rw [hq, ho]
    exact h.length_le

/-- With a limit of at most `2 ^ 63`, the bytes of another payload do not make the counter wrap. -/
theorem Backlog.toNat_add (h : Backlog s) (hmax : s.options.maxPendingBytes.toNat ≤ 2 ^ 63)
    (payload : Payload) :
    (s.pendingBytes + UInt64.ofNat payload.bytes.length).toNat =
      payloadBytes s.queue + payload.bytes.length := by
  have hle := h.bytes_le
  have hlt := payload.length_lt
  rw [toNat_add_ofNat (by rw [h.pendingBytes]; omega), h.pendingBytes]

theorem Backlog.queueFull_iff (h : Backlog s) (hmax : s.options.maxPendingBytes.toNat ≤ 2 ^ 63)
    (payload : Payload) :
    s.queueFull payload.bytes.length ↔ s.queue.length = s.options.queueCapacity ∨
      s.options.maxPendingBytes.toNat < payloadBytes s.queue + payload.bytes.length := by
  have hle := h.length_le
  rw [queueFull, UInt64.lt_iff_toNat_lt, h.toNat_add hmax]
  exact or_congr (by omega) Iff.rfl

theorem Backlog.enqueue (h : Backlog s) (hmax : s.options.maxPendingBytes.toNat ≤ 2 ^ 63)
    {payload : Payload} (hroom : ¬s.queueFull payload.bytes.length) (now : UInt64) :
    Backlog (s.enqueue payload now) := by
  have hle := h.length_le
  rw [h.queueFull_iff hmax, not_or] at hroom
  have hbytes : payloadBytes (s.enqueue payload now).queue =
      payloadBytes s.queue + payload.bytes.length := by
    simp [PartitionStore.enqueue, command]
  have hlen : (s.enqueue payload now).queue.length = s.queue.length + 1 := by
    simp [PartitionStore.enqueue]
  refine ⟨(h.toNat_add hmax payload).trans hbytes.symm, ?_, ?_⟩
  · rw [hbytes]
    exact Nat.le_of_not_lt hroom.2
  · rw [hlen]
    exact Nat.lt_of_le_of_ne hle hroom.1

/-- What is taken out of the queue was counted. -/
theorem Backlog.length_le_pendingBytes (h : Backlog s) {cmd : Record} {rest : List Record}
    (hq : s.queue = cmd :: rest) : cmd.payload.bytes.length ≤ s.pendingBytes.toNat := by
  rw [h.pendingBytes, hq, payloadBytes_cons]
  exact Nat.le_add_right _ _

theorem Backlog.take (h : Backlog s) {cmd : Record} {rest : List Record}
    (hq : s.queue = cmd :: rest) (batch : List Record) : Backlog (s.take cmd rest batch) := by
  have hcounted := h.length_le_pendingBytes hq
  have hlt := cmd.payload.length_lt
  have hsize : (UInt64.ofNat cmd.payload.bytes.length).toNat = cmd.payload.bytes.length :=
    UInt64.toNat_ofNat_of_lt' (hlt.trans (by decide))
  have hsub : (s.pendingBytes - UInt64.ofNat cmd.payload.bytes.length).toNat =
      s.pendingBytes.toNat - cmd.payload.bytes.length := by
    rw [UInt64.toNat_sub_of_le _ _ (by rwa [UInt64.le_iff_toNat_le, hsize]), hsize]
  obtain ⟨hp, hbytes, hlen⟩ := h
  rw [hq, payloadBytes_cons] at hp hbytes
  rw [hq, List.length_cons] at hlen
  exact ⟨hsub.trans (by rw [hp, Nat.add_sub_cancel_left]; rfl), Nat.le_of_add_left_le hbytes,
    Nat.le_of_succ_le hlen⟩

theorem options_writeBatch {batch : List Record} (h : s.writeBatch batch = some s') :
    s'.options = s.options ∧ s'.queue = s.queue ∧ s'.pendingBytes = s.pendingBytes := by
  cases hlast : batch.getLast? with
  | none =>
    rw [writeBatch, hlast, Option.some.injEq] at h
    exact h ▸ ⟨rfl, rfl, rfl⟩
  | some last => exact (writeBatch_eq_some hlast h).1 ▸ ⟨rfl, rfl, rfl⟩

/-- No step changes the options. -/
theorem Step.options_eq (hst : Step s e s') : s'.options = s.options := by
  cases hst with
  | append payload now hacc => rw [append_of_accepted hacc]; rfl
  | refuse payload now hrej => rw [append_of_rejected hrej]
  | register offset cb => rw [setOnceCommitCallback_snd]
  | write hio hw => exact (options_writeBatch hw).1
  | endRound hio => rw [endRound_eq]
  | fetch offset maxCount => rw [fetch_snd]
  | takeFirst | takeMore | takeDone | notify | shutDown | stop => rfl

theorem Step.backlog (hst : Step s e s') (hmax : s.options.maxPendingBytes.toNat ≤ 2 ^ 63)
    (h : Backlog s) : Backlog s' := by
  cases hst with
  | append payload now hacc =>
    rw [append_of_accepted hacc]
    exact h.enqueue hmax (accepted_append_iff.1 hacc).2 now
  | refuse payload now hrej =>
    rw [append_of_rejected hrej]
    exact h
  | register offset cb =>
    rw [setOnceCommitCallback_snd]
    exact h.congr rfl rfl rfl
  | takeFirst hio hq => exact h.take hq []
  | takeMore hio hfull hq => exact h.take hq _
  | write hio hw =>
    obtain ⟨ho, hq, hp⟩ := options_writeBatch hw
    exact h.congr hq hp ho
  | endRound hio =>
    rw [endRound_eq]
    exact h.congr rfl rfl rfl
  | fetch offset maxCount =>
    rw [fetch_snd]
    exact h.congr rfl rfl rfl
  | takeDone | notify | shutDown | stop => exact h.congr rfl rfl rfl

theorem Run.options_eq (hrun : Run Step s₀ es s) : s.options = s₀.options :=
  hrun.invariant (I := fun _ s => s.options = s₀.options) rfl fun _ ih hst =>
    hst.options_eq.trans ih

theorem backlog_open (dir : Dir) (options : StorageOptions) :
    Backlog («open» dir options : PartitionStore κ) :=
  ⟨rfl, Nat.zero_le _, Nat.zero_le _⟩

theorem Run.backlog {dir : Dir} {options : StorageOptions}
    (hrun : Run Step («open» dir options) es s) (hmax : options.maxPendingBytes.toNat ≤ 2 ^ 63) :
    Backlog s :=
  hrun.invariant (I := fun _ s => Backlog s) (backlog_open dir options) fun hr ih hst =>
    hst.backlog (by rw [Run.options_eq hr]; exact hmax) ih

/-- An open store answers `Busy` if and only if it has no room. -/
theorem append_fst_eq_busy_iff (hs : s.shutdown = false) {payload : Payload} {now : UInt64} :
    (s.append payload now).1 = .busy ↔ s.queueFull payload.bytes.length := by
  rw [append, hs, if_neg Bool.false_ne_true]
  split_ifs with hfull
  · exact iff_of_true rfl hfull
  · exact iff_of_false (fun h => Bool.false_ne_true (congrArg AppendResult.accepted h).symm) hfull

/-- In every state of a store that a limit of at most `2 ^ 63` bytes is set for, the counter is the
    number of bytes in the queue, taking a command out of the queue does not make it wrap, both
    limits are kept, and a record is refused as long as the store is open if and only if there are
    as many commands in the queue as it may hold, or its bytes would be too many. -/
theorem refused_iff_full {dir : Dir} {options : StorageOptions}
    (hmax : options.maxPendingBytes.toNat ≤ 2 ^ 63)
    (hrun : Run Step («open» dir options : PartitionStore κ) es s) :
    s.pendingBytes.toNat = payloadBytes s.queue ∧
      (∀ cmd rest, s.queue = cmd :: rest →
        cmd.payload.bytes.length ≤ s.pendingBytes.toNat) ∧
      s.pendingBytes ≤ options.maxPendingBytes ∧ s.queue.length ≤ options.queueCapacity ∧
      (s.shutdown = false → ∀ payload now, (s.append payload now).1 = .busy ↔
        s.queue.length = options.queueCapacity ∨
          options.maxPendingBytes.toNat < s.pendingBytes.toNat + payload.bytes.length) := by
  have h := Run.backlog hrun hmax
  have ho : s.options = options := Run.options_eq hrun
  refine ⟨h.pendingBytes, fun cmd rest => h.length_le_pendingBytes, ?_, ho ▸ h.length_le,
    fun hs payload now => ?_⟩
  · rw [UInt64.le_iff_toNat_le, h.pendingBytes, ← ho]
    exact h.bytes_le
  · rw [append_fst_eq_busy_iff hs, h.queueFull_iff (by rwa [ho]), h.pendingBytes, ho]

/-- A store with room for one command of two bytes. -/
def narrow : StorageOptions := { maxPendingBytes := 2, queueCapacity := 1 }

theorem refused_iff_full_narrow :
    narrow.maxPendingBytes.toNat ≤ 2 ^ 63 ∧
      ((«open» ∅ narrow : PartitionStore Unit).append .empty 0).2.queue.length = 1 ∧
      (((«open» ∅ narrow : PartitionStore Unit).append .empty 0).2.append .empty 0).1 = .busy := by
  have hmax : narrow.maxPendingBytes.toNat ≤ 2 ^ 63 := by decide
  have hacc : ((«open» ∅ narrow : PartitionStore Unit).append .empty 0).1.accepted = true := by
    decide
  have hlen : ((«open» ∅ narrow : PartitionStore Unit).append .empty 0).2.queue.length = 1 := by
    decide
  obtain ⟨-, -, -, -, hbusy⟩ := refused_iff_full hmax (.single (.append .empty 0 hacc))
  exact ⟨hmax, hlen, (hbusy (by decide) .empty 0).2 (.inl hlen)⟩

end Fell.Storage.PartitionStore
