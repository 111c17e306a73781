import Fell.Broker.Delivery
import Fell.Storage.Reopen

/-!
# Durability of acknowledged records

A publish request is acknowledged with the offset of its record. What the client may
conclude depends on when: with `acks=-1` the acknowledgement is released by the replica
manager, which is told of a record when it is written; otherwise it is put in the
outbound buffer as soon as the record is queued.

* `Run.store`: what a run does to the store of a partition is a run of the store;
* `Run.backing`: an acknowledgement that is released is for a record that is written;
* `acknowledged_durable`: if the responses of a batch are put in the outbound buffer only
  when nothing is queued or in flight in the partitions they are about, then a record that
  is acknowledged is committed, and found again after a crash of the process.

With `acks=1` nothing waits for the record to be written (`not_acknowledged_durable`).
-/

namespace Fell.Broker.Serving

open Platform Replication Storage
open PartitionStore (accepted writtenRecords)

variable {κ : Type} {s s' s₀ : Serving κ} {e : Event κ} {es : List (Event κ)} {tp : PartitionKey}
  {o : UInt64}

/-! ## The stores -/

/-- What happens to the store of a partition in a step. -/
def Event.storeEvents (tp : PartitionKey) : Event κ → List (PartitionStore.Event κ)
  | .stored tp' e => if tp' = tp then [e] else []
  | .answered _ _ _ _ (some (tp', e)) => if tp' = tp then [e] else []
  | .deferred _ _ _ tp' cmd => if tp' = tp then [.appended cmd] else []
  | _ => []

/-- What has happened to the store of a partition. -/
def storeEvents (tp : PartitionKey) (es : List (Event κ)) : List (PartitionStore.Event κ) :=
  es.flatMap (Event.storeEvents tp)

theorem storeEvents_snoc : storeEvents tp (es ++ [e]) = storeEvents tp es ++ e.storeEvents tp := by
  rw [storeEvents, List.flatMap_append, List.flatMap_singleton]
  rfl

/-- A step of one store is a run of each of them, of one step or none. -/
theorem run_update {tp' : PartitionKey} {e : PartitionStore.Event κ} {store' : PartitionStore κ}
    (hst : PartitionStore.Step (s.stores tp') e store') (tp : PartitionKey) :
    Run PartitionStore.Step (s.stores tp) (if tp' = tp then [e] else [])
      (Function.update s.stores tp' store' tp) := by
  by_cases heq : tp' = tp
  · subst heq
    rw [if_pos rfl, Function.update_self]
    exact .single hst
  · rw [if_neg heq, Function.update_of_ne (Ne.symm heq)]
    exact .nil

theorem Step.run_store (hst : Step s e s') (tp : PartitionKey) :
    Run PartitionStore.Step (s.stores tp) (e.storeEvents tp) (s'.stores tp) := by
  cases hst with
  | @fetch b c f fs tp' offset maxMessages found r hl hc hf hfound hr =>
    have hst := @PartitionStore.Step.fetch _ (s.stores tp') offset maxMessages.toNat
    rw [hfound] at hst
    exact run_update hst tp
  | refuse now hl hc hf hacc => exact run_update (.refuse _ now hacc) tp
  | append now hl hc hf hacc => exact run_update (.append _ now hacc) tp
  | appendDeferred now hl hc hf hacc => exact run_update (.append _ now hacc) tp
  | drain hl =>
    obtain ⟨conns, hfold, -⟩ := @foldl_deliver κ { s with responseQueue := [] } s.responseQueue
    rw [drainResponseQueue, hfold]
    exact .nil
  | store hst => exact run_update hst tp
  | _ => exact .nil

/-- A run of the broker is a run of the store of each partition. -/
theorem Run.store (hr : Run Step s₀ es s) (tp : PartitionKey) :
    Run PartitionStore.Step (s₀.stores tp) (storeEvents tp es) (s.stores tp) :=
  hr.project (Serving.stores · tp) (Event.storeEvents tp) fun hst => hst.run_store tp

/-- A record with this offset is written. -/
def Written (es : List (Event κ)) (tp : PartitionKey) (o : UInt64) : Prop :=
  ∃ r ∈ writtenRecords (storeEvents tp es), r.offset = o

theorem Written.snoc (h : Written es tp o) (e : Event κ) : Written (es ++ [e]) tp o := by
  obtain ⟨r, hr, hoff⟩ := h
  refine ⟨r, ?_, hoff⟩
  rw [storeEvents_snoc, writtenRecords, List.flatMap_append]
  exact List.mem_append_left _ hr

/-- The records that are accepted stay so. -/
theorem mem_accepted_snoc {r : Record} (hr : r ∈ accepted (storeEvents tp es)) (e : Event κ) :
    r ∈ accepted (storeEvents tp (es ++ [e])) := by
  rw [storeEvents_snoc, accepted, List.flatMap_append]
  exact List.mem_append_left _ hr

/-! ## Where the acknowledgements are -/

/-- A response on its way was so before, or is passed on by a replica manager. -/
theorem Step.mem_posted (hst : Step s e s') {r : PendingResponse}
    (hr : r ∈ s'.posting ++ s'.responseQueue) :
    r ∈ s.posting ++ s.responseQueue ∨
      ∃ tp e', ∃ x ∈ Leader.Event.passed e', e = .led tp e' ∧ r = ⟨x.1, x.2, tp⟩ := by
  cases hst with
  | drain hl =>
    obtain ⟨conns, hfold, -⟩ := @foldl_deliver κ { s with responseQueue := [] } s.responseQueue
    rw [drainResponseQueue, hfold, List.append_nil] at hr
    exact .inl (List.mem_append_left _ hr)
  | @lead tp e l hm hst hw =>
    rw [setLeader, List.append_assoc, List.mem_append, List.mem_append, List.mem_map] at hr
    rcases hr with hr | ⟨x, hx, rfl⟩ | hr
    · exact .inl (List.mem_append_left _ hr)
    · exact .inr ⟨tp, e, x, hx, rfl, rfl⟩
    · exact .inl (List.mem_append_right _ hr)
  | @post r' rs rs' hp =>
    refine .inl ?_
    rw [hp]
    simp only [List.mem_append, List.mem_cons, List.not_mem_nil, or_false] at hr ⊢
    tauto
  | _ => exact .inl hr

/-- A response in the hands of the event loop was so before, or is that of the request answered
    in the step: if it is an acknowledgement, of the record accepted in it. -/
theorem Step.mem_batch (hst : Step s e s') {b' : Batch} {r : Reply} (hb' : s'.loop.batch? = some b')
    (hr : r ∈ b'.responses) :
    (∃ b, s.loop.batch? = some b ∧ r ∈ b.responses) ∨ r.origin = none ∨
      ∃ tp, ∃ cmd ∈ accepted (e.storeEvents tp), r = ackReply tp cmd.offset := by
  -- The handlers put one response behind those of the batch.
  have hanswer : ∀ {b : Batch} {x : Reply}, s.loop.batch? = some b → b.answer x = b' →
      (∃ b, s.loop.batch? = some b ∧ r ∈ b.responses) ∨ r = x := by
    rintro b x hb rfl
    rcases List.mem_append.1 hr with hr | hr
    · exact .inl ⟨b, hb, hr⟩
    · exact .inr (List.mem_singleton.1 hr)
  cases hst with
  | accept | write | store | lead | post | change => exact .inl ⟨b', hb', hr⟩
  | drain hl =>
    rw [loop_drainResponseQueue] at hb'
    exact .inl ⟨b', hb', hr⟩
  | hangUp | readable | wouldBlock | flush => cases hb'
  | receive =>
    cases hb'
    exact absurd hr List.not_mem_nil
  | locate hl | manage hl | register hl =>
    cases hb'
    exact .inl ⟨_, by rw [hl]; rfl, hr⟩
  | reply hl hc hf hout =>
    rcases hanswer (by rw [hl]; rfl) (Option.some.inj hb') with h | rfl
    · exact .inl h
    · exact .inr (.inl rfl)
  | subscribe hl hc hf hr' =>
    rcases hanswer (by rw [hl]; rfl) (Option.some.inj hb') with h | rfl
    · exact .inl h
    · exact .inr (.inl rfl)
  | fetch hl =>
    rcases hanswer (by rw [hl]; rfl) (Option.some.inj hb') with h | rfl
    · exact .inl h
    · exact .inr (.inl rfl)
  | refuse now hl =>
    rcases hanswer (by rw [hl]; rfl) (Option.some.inj hb') with h | rfl
    · exact .inl h
    · exact .inr (.inl rfl)
  | @append b c f fs tp payload now hl hc hf hacc hacks =>
    rcases hanswer (by rw [hl]; rfl) (Option.some.inj hb') with h | rfl
    · exact .inl h
    · refine .inr (.inr ⟨tp, (s.stores tp).command payload now, ?_, ?_⟩)
      · simp [Event.storeEvents, accepted, PartitionStore.Event.accepted]
      · rw [PartitionStore.append_of_accepted hacc]
        rfl
  | @appendDeferred b c f fs tp payload now hl hc hf hacc hacks =>
    cases hb'
    exact .inl ⟨b, by rw [hl]; rfl, hr⟩

/-- A response is written at the end of a batch, or taken from the response queue. -/
theorem Step.mem_written (hst : Step s e s') {id : ℕ} {r : Reply}
    (h : r ∈ Deferral.written id e.deferral) :
    (∃ b, s.loop.batch? = some b ∧ e = .flushed id b.responses ∧ r ∈ b.responses) ∨
      ∃ x ∈ s.responseQueue, r = x.reply.2 := by
  obtain ⟨d, hd, hr⟩ := List.mem_flatMap.1 h
  clear h
  cases hst with
  | flush hl hc hf =>
    rw [List.mem_singleton.1 hd, Deferral.Event.written?] at hr
    split_ifs at hr with hid
    · exact .inl ⟨_, by rw [hl]; rfl, by rw [hid], hr⟩
    · exact absurd hr List.not_mem_nil
  | drain hl =>
    obtain ⟨x, hx, rfl⟩ := List.mem_map.1 hd
    obtain ⟨y, hy, rfl⟩ := List.mem_map.1 hx
    rw [Deferral.Event.written?] at hr
    split_ifs at hr
    · exact .inr ⟨y, hy, List.mem_singleton.1 hr⟩
    · exact absurd hr List.not_mem_nil
  | readable | wouldBlock | locate | manage | register | write | store | lead | post | change =>
    exact absurd hd List.not_mem_nil
  | _ =>
    rw [List.mem_singleton.1 hd] at hr
    exact absurd hr List.not_mem_nil

/-! ## What is acknowledged -/

/-- The commit of a batch of consecutive records covers only them. -/
theorem exists_mem_of_covers {b : UInt64} {cmd : Record} {rest : List Record}
    (h : PartitionStore.Consecutive b (cmd :: rest))
    (ho : (QueuedCommit.mk cmd.offset (cmd :: rest)).Covers o) :
    ∃ r ∈ cmd :: rest, r.offset = o := by
  have hcmd : cmd.offset = b := by simpa using h 0 cmd rfl
  have hle : b.toNat ≤ o.toNat := UInt64.le_iff_toNat_le.1 (hcmd ▸ ho.1)
  have hlt : o.toNat < (b + UInt64.ofNat (cmd :: rest).length).toNat :=
    UInt64.lt_iff_toNat_lt.1 (hcmd ▸ ho.2)
  rw [UInt64.toNat_add, UInt64.toNat_ofNat'] at hlt
  -- The sum does not wrap: otherwise it would be below the base offset.
  have hi : o.toNat - b.toNat < (cmd :: rest).length := by
    have := Nat.mod_le (b.toNat + (cmd :: rest).length % 2 ^ 64) (2 ^ 64)
    have := Nat.mod_le (cmd :: rest).length (2 ^ 64)
    omega
  refine ⟨(cmd :: rest)[o.toNat - b.toNat], List.getElem_mem hi, ?_⟩
  rw [h _ _ (List.getElem?_eq_getElem hi)]
  apply UInt64.toNat_inj.1
  rw [UInt64.toNat_add, UInt64.toNat_ofNat', Nat.add_mod_mod, Nat.add_sub_cancel' hle]
  exact Nat.mod_eq_of_lt o.toNat_lt

/-- The callback is called for records that are written. -/
theorem Run.written_of_told (hr : Run Step s₀ es s) (hf : PartitionStore.Fresh (s₀.stores tp))
    {cmd : Record} {rest : List Record} {fired : List κ}
    (hst : Step s (.stored tp (.notified (cmd :: rest) fired)) s')
    (ho : (QueuedCommit.mk cmd.offset (cmd :: rest)).Covers o) : Written es tp o := by
  have hrun := Run.store hr tp
  have hio : (s.stores tp).unnotified = cmd :: rest := by
    cases hst with
    | store hst =>
      cases hst with
      | notify hio => rw [PartitionStore.unnotified, hio]
  have hwritten := PartitionStore.Run.notified_append_unnotified hrun hf
  have hq := PartitionStore.Run.queued hrun hf
  have hcons := hq.consecutive
  rw [← hq.accepted_eq, ← hwritten, hio] at hcons
  rw [hio] at hwritten
  obtain ⟨r, hmem, hoff⟩ := exists_mem_of_covers hcons.left.left.right ho
  exact ⟨r, hwritten ▸ List.mem_append_right _ hmem, hoff⟩

/-- The replica managers release acknowledgements of records that are written, and the others
    are of records that are accepted. -/
structure Backing (es : List (Event κ)) (s : Serving κ) : Prop where
  leader : ∀ tp, Leader.Backed (Written es tp) encodeAck (s.leader tp)
  posted : ∀ r ∈ s.posting ++ s.responseQueue, ∃ o, r.data = encodeAck o ∧ Written es r.origin o
  batch : ∀ b, s.loop.batch? = some b → ∀ r ∈ b.responses, ∀ tp, r.origin = some tp →
    ∃ cmd ∈ accepted (storeEvents tp es), r = ackReply tp cmd.offset

/-- What the replica manager of a partition comes to, and what it passes on. -/
theorem Backing.leader_step (h : Backing es s) (hr : Run Step s₀ es s) (hstart : Started s₀)
    (hf : PartitionStore.Fresh (s₀.stores tp)) (hst : Step s e s') :
    Leader.Backed (Written es tp) encodeAck (s'.leader tp) ∧
      ∀ e', e = .led tp e' → ∀ x ∈ e'.passed, ∃ o, x.2 = encodeAck o ∧ Written es tp o := by
  have hs' : s'.leader tp = ⟨s'.managers tp, (s'.leader tp).partition⟩ := rfl
  rcases hst.manager_cases tp with ⟨heq, hne⟩ | ⟨cmd, rest, fired, rfl, heq⟩ |
    ⟨e', l, rfl, hlst, heq, hreg, henq⟩
  · exact ⟨(h.leader tp).partition heq, fun e' he => absurd he (hne e')⟩
  · rw [hs', heq]
    exact ⟨((h.leader tp).enqueue fun o ho => Run.written_of_told hr hf hst ho).partition rfl,
      fun e' he => by cases he⟩
  · obtain ⟨hback, hpass⟩ := hlst.backed (h.leader tp) (Run.sound hr hstart tp) hreg
      fun qc hqc => by
        rw [henq] at hqc
        exact absurd hqc List.not_mem_nil
    refine ⟨?_, fun e'' he => ?_⟩
    · rw [hs', heq]
      exact hback.partition rfl
    · cases he
      exact hpass

theorem Backing.step (h : Backing es s) (hr : Run Step s₀ es s) (hstart : Started s₀)
    (hf : ∀ tp, PartitionStore.Fresh (s₀.stores tp)) (hst : Step s e s') :
    Backing (es ++ [e]) s' where
  leader tp := (h.leader_step hr hstart (hf tp) hst).1.mono fun o ho => ho.snoc e
  posted r hmem := by
    rcases hst.mem_posted hmem with hmem | ⟨tp, e', x, hx, he, rfl⟩
    · obtain ⟨o, hdata, ho⟩ := h.posted r hmem
      exact ⟨o, hdata, ho.snoc e⟩
    · obtain ⟨o, hdata, ho⟩ := (h.leader_step hr hstart (hf tp) hst).2 e' he x hx
      exact ⟨o, hdata, ho.snoc e⟩
  batch b' hb' r hmem tp htp := by
    rcases hst.mem_batch hb' hmem with ⟨b, hb, hmem⟩ | hnone | ⟨tp', cmd, hcmd, rfl⟩
    · obtain ⟨cmd, hcmd, heq⟩ := h.batch b hb r hmem tp htp
      exact ⟨cmd, mem_accepted_snoc hcmd e, heq⟩
    · rw [hnone] at htp
      cases htp
    · obtain rfl : tp' = tp := Option.some.inj htp
      refine ⟨cmd, ?_, rfl⟩
      rw [storeEvents_snoc, accepted, List.flatMap_append]
      exact List.mem_append_right _ hcmd

theorem Run.backing (hr : Run Step s₀ es s) (hstart : Started s₀)
    (hf : ∀ tp, PartitionStore.Fresh (s₀.stores tp)) : Backing es s := by
  refine hr.invariant (I := Backing) ⟨fun tp => ?_, ?_, ?_⟩ fun hr ih hst =>
    ih.step hr hstart hf hst
  · rw [leader, hstart.managers]
    exact ⟨fun _ h => absurd h List.not_mem_nil, fun _ h => absurd h List.not_mem_nil,
      fun _ h => absurd h List.not_mem_nil, fun _ h => absurd h List.not_mem_nil⟩
  · rw [hstart.posting, hstart.responseQueue]
    exact fun r hr => absurd hr List.not_mem_nil
  · rw [hstart.loop]
    exact fun b hb => absurd hb (by simp [Loop.batch?])

/-- When the responses of a batch are put in the outbound buffer, nothing is queued or in flight in
    the partitions whose records they acknowledge. -/
def Settled (s : Serving κ) : Event κ → Prop
  | .flushed _ responses => ∀ r ∈ responses, ∀ tp, r.origin = some tp →
      (s.stores tp).inFlight = [] ∧ (s.stores tp).queue = []
  | _ => True

/-- What is acknowledged is written. -/
theorem Run.written_of_acknowledged (hr : Run (Guarded Step Settled) s₀ es s) (hstart : Started s₀)
    (hf : ∀ tp, PartitionStore.Fresh (s₀.stores tp)) {id : ℕ} {r : Reply}
    (hmem : r ∈ Deferral.written id (deferralEvents es)) (htp : r.origin = some tp) :
    ∃ o, r = ackReply tp o ∧ Written es tp o := by
  refine hr.invariant (I := fun es _ => r ∈ Deferral.written id (deferralEvents es) →
    ∃ o, r = ackReply tp o ∧ Written es tp o) (fun hmem => absurd hmem List.not_mem_nil) ?_ hmem
  intro es s e s' hr ih hst hmem
  have hb := Run.backing hr.of_guarded hstart hf
  rw [deferralEvents, List.flatMap_append, List.flatMap_singleton, Deferral.written,
    List.flatMap_append] at hmem
  rcases List.mem_append.1 hmem with hmem | hmem
  · obtain ⟨o, heq, ho⟩ := ih hmem
    exact ⟨o, heq, ho.snoc e⟩
  rcases hst.1.mem_written hmem with ⟨b, hbatch, rfl, hr'⟩ | ⟨x, hx, rfl⟩
  · -- At the end of a batch, what is accepted is written.
    obtain ⟨cmd, hcmd, rfl⟩ := hb.batch b hbatch r hr' tp htp
    obtain ⟨hin, hqueue⟩ := hst.2 _ hr' tp htp
    have hacc := (PartitionStore.Run.queued (Run.store hr.of_guarded tp) (hf tp)).accepted_eq
    rw [hin, hqueue, List.append_nil, List.append_nil] at hacc
    exact ⟨cmd.offset, rfl, Written.snoc ⟨cmd, hacc ▸ hcmd, rfl⟩ _⟩
  · -- From the response queue.
    obtain ⟨o, hdata, ho⟩ := hb.posted x (List.mem_append_right _ hx)
    obtain rfl : x.origin = tp := Option.some.inj htp
    exact ⟨o, congrArg (Reply.mk (some x.origin)) hdata, ho.snoc e⟩

/-! ## The result -/

/-- The partitions have just been opened, each on its directory. -/
def Opened (s : Serving κ) : Prop :=
  ∀ tp, ∃ dir options, s.stores tp = .open dir options ∧
    (s.stores tp).writer.baseOffset ≤ (s.stores tp).nextOffset

theorem Opened.fresh (h : Opened s) (tp : PartitionKey) : PartitionStore.Fresh (s.stores tp) := by
  obtain ⟨dir, options, heq, -⟩ := h tp
  rw [heq]
  exact PartitionStore.fresh_open dir options

/-- The offset is committed, and its record is found when the partition is opened after a crash of
    the process. -/
def Durable (es : List (Event κ)) (s : Serving κ) (tp : PartitionKey) (o : UInt64) : Prop :=
  o < (s.stores tp).committedOffset ∧ ∃ r ∈ accepted (storeEvents tp es), r.offset = o ∧
    ∀ (tail idx : Bytes) (options : StorageOptions),
      let recovered : PartitionStore κ := .open ((s.stores tp).interrupted tail idx) options
      ∃ base ∈ recovered.segments, r ∈ recovered.records base

/-- In every run in which the responses of a batch are put in the outbound buffer only when nothing
    is queued or in flight in the partitions whose records they acknowledge: a record that is
    acknowledged is committed, and survives a crash. -/
theorem acknowledged_durable (hstart : Started s₀) (hopen : Opened s₀)
    (hr : Run (Guarded Step Settled) s₀ es s)
    (hlt : (s₀.stores tp).nextOffset.toNat + (accepted (storeEvents tp es)).length < 2 ^ 64)
    {id : ℕ} (hack : ackReply tp o ∈ Deferral.written id (deferralEvents es)) :
    Durable es s tp o := by
  have hf := hopen.fresh
  have hrun := Run.store hr.of_guarded tp
  obtain ⟨o', heq, r, hwritten, rfl⟩ := Run.written_of_acknowledged hr hstart hf hack rfl
  obtain rfl : o = r.offset := encodeAck_injective (congrArg Reply.bytes heq)
  have hq := PartitionStore.Run.queued hrun (hf tp)
  have hmem : r ∈ accepted (storeEvents tp es) := by
    rw [← hq.accepted_eq]
    exact List.mem_append_left _ (List.mem_append_left _ hwritten)
  refine ⟨?_, r, hmem, rfl, fun tail idx options => ?_⟩
  · -- What is written is numbered from the first offset on, up to the committed one.
    obtain ⟨i, hi, rfl⟩ := List.mem_iff_getElem.1 hwritten
    have hlen := hq.length_written_le
    have hoff := (hq.accepted_eq ▸ hq.consecutive).left.left i _ (List.getElem?_eq_getElem hi)
    rw [UInt64.lt_iff_toNat_lt, hq.toNat_committedOffset hlt, hoff,
      PartitionStore.toNat_add_ofNat (by omega)]
    omega
  · obtain ⟨dir, opts, hdir, hbase⟩ := hopen tp
    refine PartitionStore.Run.mem_records_open hrun (hf tp) ?_ hbase hlt hwritten tail idx options
    rw [hdir]
    exact PartitionStore.resumable_open dir opts

theorem opened_single (acks : ℤ) : Opened (single acks) := by
  have hbase : (Publishing.emptyStore : PartitionStore Unit).writer.baseOffset ≤
      Publishing.emptyStore.nextOffset := by decide
  exact fun _ => ⟨∅, {}, rfl, hbase⟩

theorem acknowledged_durable_single : ∃ es s, Started (single (-1)) ∧ Opened (single (-1)) ∧
    Run (Guarded Step Settled) (single (-1)) es s ∧ Durable es s first 0 := by
  obtain ⟨m, s, hr⟩ := run_exchange
  have hr : Run (Guarded Step Settled) (single (-1)) (exchangeEvents m) s := by
    refine hr.of_guarded.guarded fun e he s => ?_
    cases e with
    | flushed id rs =>
      obtain ⟨-, rfl⟩ : id = 0 ∧ rs = [] := by
        simpa [exchangeEvents, releaseEvents, PartitionStore.notifyOneEvents] using he
      exact fun r hr => absurd hr List.not_mem_nil
    | _ => trivial
  have hlen : (accepted (storeEvents first (exchangeEvents m))).length = 1 := by
    simp [exchangeEvents, releaseEvents, PartitionStore.notifyOneEvents, storeEvents,
      Event.storeEvents, accepted, PartitionStore.Event.accepted]
  refine ⟨_, s, started_single _, opened_single _, hr,
    @acknowledged_durable _ _ _ _ first 0 (started_single _) (opened_single _) hr ?_ 0 ?_⟩
  · rw [hlen]
    decide
  · simp [exchangeEvents, releaseEvents, deferralEvents, Event.deferral, Deferral.written,
      Deferral.Event.written?, PartitionStore.notifyOneEvents, firstResponse, PendingResponse.reply,
      ackReply]

/-- With `acks=1`, the acknowledgement is in the outbound buffer when the record is still queued. -/
theorem not_acknowledged_durable :
    ¬∀ (s₀ s : Serving Unit) (es : List (Event Unit)) (id : ℕ) (tp : PartitionKey) (o : UInt64),
      Started s₀ → Opened s₀ → s₀.broker.cfg.acks = 1 ∨ s₀.broker.cfg.acks = -1 → Run Step s₀ es s →
        ackReply tp o ∈ Deferral.written id (deferralEvents es) →
          o < (s.stores tp).committedOffset := by
  intro hall
  obtain ⟨s, hr, h⟩ := run_acked
  have hlt := hall _ s _ 0 first 0 (started_single 1) (opened_single 1)
    (.inl (acks_single (.inr rfl)).1) hr ?_
  · rw [h.store] at hlt
    exact absurd hlt (by decide)
  · simp [ackedEvents, answeredEvents, deferralEvents, Event.deferral, Deferral.written,
      Deferral.Event.written?]

end Fell.Broker.Serving
