import Fell.Storage.Segments

/-!
# A follower and its leader

A follower keeps a connection to the leader of the partition, over which it asks for the
log from its own committed offset on (`FETCH_LOG`) and receives records
(`REPLICA_SYNC`), which it appends to its own partition store
(`replication/replication_client.cpp`). The records come from two threads of the leader:
`handle_fetch_log` of the replication server, and the worker of the replica manager,
which streams the records as they are committed.

The leader's log is a list of records that only grows. The follower's partition is the
whole partition store. A frame is appended if its offset is the one the *writer*
is to write next, which is not the one the append will get: records may be queued.

Left out: the topic and the partition in the frames, as a connection serves one partition;
the way of the acknowledgements to the leader; and what `on_readable` does to the
emptied buffer when a frame has closed the connection.

* `Run.store`: a run is a run of the partition store;
* `Run.mem_leaderLog`: only records of the leader's log are on their way;
* `Drained`: a frame is let through only if nothing is queued or in flight;
* `prefix_of_drained`: then the follower's log is a prefix of the leader's.
-/

namespace Fell.Replication

open Platform Storage

/-- `ReplicaAck`. -/
structure ReplicaAck where
  epoch : UInt32
  ackedOffset : UInt64
  followerId : UInt32

/-- A frame from the leader. -/
inductive SyncFrame
  /-- `REPLICA_SYNC`: a record, in the epoch of the leader. -/
  | sync (epoch : UInt32) (record : Record)
  /-- `REPLICA_SYNC_END`. -/
  | syncEnd

/-- Where `handle_fetch_log` is with a request. -/
inductive FetchLog
  /-- The request is on its way. -/
  | requested (startOffset : UInt64)
  /-- The records from `offset` on are still to be sent. -/
  | sending (offset : UInt64)
  | done

/-- A connection: the request made over it, and the frames on their way to the follower. -/
structure Connection where
  fetchLog : FetchLog
  frames : List SyncFrame

/-- Where the client is in `on_replica_sync`. -/
inductive Client
  | idle
  /-- The offset of the record is the expected one. -/
  | checked (epoch : UInt32) (record : Record)
  /-- The callback is registered. -/
  | registered (epoch : UInt32) (record : Record)

/-- The record in a frame. -/
def SyncFrame.record : SyncFrame → List Record
  | .sync _ record => [record]
  | .syncEnd => []

/-- `worker_loop` sends a frame, if `FETCH_LOG` has made the connection known to it. -/
def Connection.stream (c : Connection) (frame : SyncFrame) : Connection :=
  match c.fetchLog with
  | .requested _ => c
  | _ => { c with frames := c.frames ++ [frame] }

/-- The records in the frames of a connection. -/
def Connection.records (c : Connection) : List Record := c.frames.flatMap SyncFrame.record

theorem Connection.mem_records_stream {c : Connection} {frame : SyncFrame} {r : Record}
    (hr : r ∈ (c.stream frame).records) : r ∈ c.records ∨ r ∈ frame.record := by
  rw [stream] at hr
  split at hr
  · exact .inl hr
  · simpa [records] using hr

/-- The record in the hands of the client. -/
def Client.record : Client → List Record
  | .idle => []
  | .checked _ record | .registered _ record => [record]

/-- A follower of a partition, with its leader. -/
structure Follower where
  /-- The records that the leader has committed. -/
  leaderLog : List Record
  /-- How many of them the leader's worker has gone through. -/
  streamed : ℕ
  connection : Option Connection
  client : Client
  store : PartitionStore ReplicaAck

namespace Follower

/-- The acknowledgement of a record, sent when it is committed. -/
def ackOf (brokerId epoch : UInt32) (record : Record) : ReplicaAck :=
  ⟨epoch, record.offset + 1, brokerId⟩

/-- The leader's `committed_offset`. -/
def leaderCommittedOffset (s : Follower) : UInt64 := UInt64.ofNat s.leaderLog.length

/-- What happens in a step. -/
inductive Event
  | committed (batch : List Record)
  | connected (startOffset : UInt64)
  | accepted
  | resent (record : Record)
  | resentAll
  | streamed (record : Record)
  | passed (record : Record)
  | gap (record : Record)
  | ended
  | registered (record : Record) (ack : ReplicaAck) (fired : List ReplicaAck)
  | appended (record cmd : Record)
  | refused (record : Record) (error : AppendError)
  | lost
  | stored (e : PartitionStore.Event ReplicaAck)

/-- A step of the leader, of the client, or of the I/O thread of the follower. -/
inductive Step (brokerId : UInt32) (s : Follower) : Event → Follower → Prop
  | commit (batch : List Record)
      (hb : PartitionStore.Consecutive s.leaderCommittedOffset batch) :
      Step brokerId s (.committed batch) { s with leaderLog := s.leaderLog ++ batch }
  /-- `connect_to_leader`. -/
  | connect (hc : s.connection = none) (hi : s.client = .idle) :
      Step brokerId s (.connected s.store.committedOffset)
        { s with connection := some ⟨.requested s.store.committedOffset, []⟩ }
  /-- `handle_fetch_log` comes to its loop. -/
  | accept {start : UInt64} {frames : List SyncFrame}
      (hc : s.connection = some ⟨.requested start, frames⟩) :
      Step brokerId s .accepted { s with connection := some ⟨.sending start, frames⟩ }
  /-- A round of its loop. -/
  | resend {offset : UInt64} {frames : List SyncFrame} {record : Record} (epoch : UInt32)
      (hc : s.connection = some ⟨.sending offset, frames⟩) (hlt : offset < s.leaderCommittedOffset)
      (hrec : s.leaderLog[offset.toNat]? = some record) :
      Step brokerId s (.resent record)
        { s with connection := some ⟨.sending (offset + 1), frames ++ [.sync epoch record]⟩ }
  | resendEnd {offset : UInt64} {frames : List SyncFrame}
      (hc : s.connection = some ⟨.sending offset, frames⟩)
      (hge : ¬offset < s.leaderCommittedOffset) :
      Step brokerId s .resentAll { s with connection := some ⟨.done, frames ++ [.syncEnd]⟩ }
  | stream {record : Record} (epoch : UInt32) (hrec : s.leaderLog[s.streamed]? = some record) :
      Step brokerId s (.streamed record)
        { s with
          streamed := s.streamed + 1
          connection := s.connection.map (·.stream (.sync epoch record)) }
  /-- `on_replica_sync`: the frame is let through. -/
  | pass {fetchLog : FetchLog} {frames : List SyncFrame} {epoch : UInt32} {record : Record}
      (hi : s.client = .idle) (hc : s.connection = some ⟨fetchLog, .sync epoch record :: frames⟩)
      (hoff : record.offset = s.store.nextOffsetOfWriter) :
      Step brokerId s (.passed record)
        { s with connection := some ⟨fetchLog, frames⟩, client := .checked epoch record }
  /-- `on_replica_sync`: the frame is not the one expected. -/
  | gap {fetchLog : FetchLog} {frames : List SyncFrame} {epoch : UInt32} {record : Record}
      (hi : s.client = .idle) (hc : s.connection = some ⟨fetchLog, .sync epoch record :: frames⟩)
      (hoff : record.offset ≠ s.store.nextOffsetOfWriter) :
      Step brokerId s (.gap record) { s with connection := none }
  | syncEnd {fetchLog : FetchLog} {frames : List SyncFrame} (hi : s.client = .idle)
      (hc : s.connection = some ⟨fetchLog, .syncEnd :: frames⟩) :
      Step brokerId s .ended { s with connection := some ⟨fetchLog, frames⟩ }
  | register {epoch : UInt32} {record : Record} (hi : s.client = .checked epoch record) :
      Step brokerId s
        (.registered record (ackOf brokerId epoch record)
          (s.store.setOnceCommitCallback record.offset (ackOf brokerId epoch record)).1)
        { s with
          client := .registered epoch record
          store := (s.store.setOnceCommitCallback record.offset (ackOf brokerId epoch record)).2 }
  | append {epoch : UInt32} {record : Record} (now : UInt64)
      (hi : s.client = .registered epoch record)
      (hacc : (s.store.append record.payload now).1.accepted = true) :
      Step brokerId s (.appended record (s.store.command record.payload now))
        { s with client := .idle, store := (s.store.append record.payload now).2 }
  | refuse {epoch : UInt32} {record : Record} (now : UInt64)
      (hi : s.client = .registered epoch record)
      (hrej : (s.store.append record.payload now).1.accepted = false) :
      Step brokerId s (.refused record (s.store.append record.payload now).1.error)
        { s with
          client := .idle
          connection := none
          store := (s.store.append record.payload now).2 }
  | lose (hi : s.client = .idle) : Step brokerId s .lost { s with connection := none }
  /-- The I/O thread, or a consumer. -/
  | store {e : PartitionStore.Event ReplicaAck} {store' : PartitionStore ReplicaAck}
      (hst : PartitionStore.Step s.store e store') (hacc : e.accepted = []) :
      Step brokerId s (.stored e) { s with store := store' }

variable {brokerId : UInt32} {s s' s₀ : Follower} {e : Event} {es : List Event}

/-! ## The partition store -/

/-- What the store does in a step. -/
def Event.ofStore : Event → List (PartitionStore.Event ReplicaAck)
  | .registered record ack fired => [.registered record.offset ack fired]
  | .appended _ cmd => [.appended cmd]
  | .refused _ error => [.refused error]
  | .stored e => [e]
  | _ => []

/-- What the store has done. -/
def storeEvents (es : List Event) : List (PartitionStore.Event ReplicaAck) :=
  es.flatMap Event.ofStore

@[simp] theorem storeEvents_snoc : storeEvents (es ++ [e]) = storeEvents es ++ e.ofStore := by
  simp [storeEvents]

theorem Step.store_run (hst : Step brokerId s e s') :
    Run PartitionStore.Step s.store e.ofStore s'.store := by
  cases hst with
  | register hi => exact .single (.register _ _)
  | append now hi hacc => exact .single (.append _ now hacc)
  | refuse now hi hrej => exact .single (.refuse _ now hrej)
  | store hst hacc => exact .single hst
  | commit | connect | accept | resend | resendEnd | stream | pass | gap | syncEnd | lose =>
    exact .nil

/-- A run is a run of the partition store. -/
theorem Run.store (hr : Run (Step brokerId) s₀ es s) :
    Run PartitionStore.Step s₀.store (storeEvents es) s.store :=
  hr.project Follower.store Event.ofStore Step.store_run

/-- The records that were appended. -/
abbrev appended (es : List Event) : List Record := PartitionStore.accepted (storeEvents es)

@[simp] theorem appended_snoc :
    appended (es ++ [e]) = appended es ++ PartitionStore.accepted e.ofStore := by
  simp [appended, PartitionStore.accepted]

/-- A follower whose partition is empty, and that is not connected yet. -/
structure Started (s : Follower) : Prop where
  store : ∃ options, s.store = PartitionStore.open ∅ options
  connection : s.connection = none
  client : s.client = .idle
  leaderLog : PartitionStore.Consecutive 0 s.leaderLog

theorem Started.fresh (h : Started s₀) : PartitionStore.Fresh s₀.store := by
  obtain ⟨options, hopen⟩ := h.store
  rw [hopen]
  exact PartitionStore.fresh_open ∅ options

theorem Run.queued (hr : Run (Step brokerId) s₀ es s) (h : Started s₀) :
    PartitionStore.Queued 0 (storeEvents es) s.store := by
  have hq := PartitionStore.Run.queued (Run.store hr) h.fresh
  obtain ⟨options, hopen⟩ := h.store
  rwa [hopen, PartitionStore.nextOffset_open_empty] at hq

/-! ## The leader's log -/

theorem Step.leaderLog_isPrefix (hst : Step brokerId s e s') : s.leaderLog <+: s'.leaderLog := by
  cases hst with
  | commit batch hb => exact List.prefix_append _ _
  | connect | accept | resend | resendEnd | stream | pass | gap | syncEnd | register | append
  | refuse | lose | store => exact List.prefix_rfl

/-- The offsets of the leader's log count its records. -/
theorem Run.consecutive_leaderLog (hr : Run (Step brokerId) s₀ es s) (h : Started s₀) :
    PartitionStore.Consecutive 0 s.leaderLog := by
  refine hr.invariant (I := fun _ s => PartitionStore.Consecutive 0 s.leaderLog) h.leaderLog ?_
  intro es s e s' _ ih hst
  cases hst with
  | commit batch hb =>
    refine ih.append ?_
    rw [UInt64.zero_add]
    exact hb
  | connect | accept | resend | resendEnd | stream | pass | gap | syncEnd | register | append
  | refuse | lose | store => exact ih

/-! ## Records on their way -/

/-- The records on their way to the store. -/
def underway (s : Follower) : List Record :=
  s.client.record ++ (s.connection.map Connection.records).getD []

/-- A record that is on its way was before, or is in the leader's log. -/
theorem Step.mem_underway (hst : Step brokerId s e s') {r : Record} (hr : r ∈ s'.underway) :
    r ∈ s.underway ∨ r ∈ s.leaderLog := by
  -- The leader's threads add records of the log; the other steps only move or drop some.
  cases hst with
  | commit | store => exact .inl hr
  | connect hc hi => exact .inl (by simpa [underway, Connection.records, hc] using hr)
  | accept hc => exact .inl (by simpa [underway, Connection.records, hc] using hr)
  | resend epoch hc hlt hrec =>
    have hmem := List.mem_of_getElem? hrec
    simp only [underway, Connection.records, hc, SyncFrame.record, Option.map_some,
      Option.getD_some, List.flatMap_append, List.flatMap_singleton, List.mem_append,
      List.mem_singleton] at hr ⊢
    rcases hr with hr | hr | rfl
    · exact .inl (.inl hr)
    · exact .inl (.inr hr)
    · exact .inr hmem
  | resendEnd hc hge =>
    exact .inl (by simpa [underway, Connection.records, hc, SyncFrame.record] using hr)
  | stream epoch hrec =>
    have hmem := List.mem_of_getElem? hrec
    rcases List.mem_append.1 hr with hr | hr
    · exact .inl (List.mem_append_left _ hr)
    · cases hc : s.connection with
      | none => simp [hc] at hr
      | some c =>
        rw [hc] at hr
        rcases Connection.mem_records_stream hr with hr | hr
        · exact .inl (List.mem_append_right _ (by rwa [hc]))
        · exact .inr (List.mem_singleton.1 hr ▸ hmem)
  | pass hi hc hoff =>
    exact .inl
      (by simpa [underway, Connection.records, hc, hi, SyncFrame.record, Client.record] using hr)
  | gap hi hc hoff => exact .inl (List.mem_append_left _ (by simpa [underway] using hr))
  | syncEnd hi hc =>
    exact .inl (by simpa [underway, Connection.records, hc, SyncFrame.record] using hr)
  | register hi => exact .inl (by simpa [underway, hi, Client.record] using hr)
  | append now hi hacc => exact .inl (List.mem_append_right _ hr)
  | refuse now hi hrej => exact absurd hr List.not_mem_nil
  | lose hi => exact .inl (List.mem_append_left _ (by simpa [underway] using hr))

/-- Only records of the leader's log are on their way. -/
theorem Run.mem_leaderLog (hr : Run (Step brokerId) s₀ es s) (h : Started s₀) {r : Record}
    (hrec : r ∈ s.underway) : r ∈ s.leaderLog := by
  refine hr.invariant (I := fun _ s => ∀ r ∈ s.underway, r ∈ s.leaderLog) ?_ ?_ r hrec
  · simp [underway, Client.record, h.client, h.connection]
  · intro es s e s' _ ih hst r hr
    exact hst.leaderLog_isPrefix.subset ((hst.mem_underway hr).elim (ih r) id)

/-! ## The follower's log -/

/-- A frame is let through only if nothing is queued or in flight. -/
def Drained (s : Follower) : Event → Prop
  | .passed _ => s.store.inFlight = [] ∧ s.store.queue = []
  | _ => True

/-- The records of the follower: those in the logs of its segments, the batch about to
    be written, and those queued. -/
def records (s : Follower) : List Record :=
  s.store.segments.flatMap s.store.records ++ s.store.inFlight ++ s.store.queue

/-- Only the client appends, and what it has in its hands. -/
theorem Step.accepted_cases (hst : Step brokerId s e s') :
    PartitionStore.accepted e.ofStore = [] ∨ ∃ record ∈ s.client.record,
      (PartitionStore.accepted e.ofStore).map (·.payload) = [record.payload] := by
  cases hst with
  | @append epoch record now hi hacc => exact .inr ⟨record, by simp [hi, Client.record], rfl⟩
  | store hst hacc => exact .inl (by simp [Event.ofStore, PartitionStore.accepted, hacc])
  | commit | connect | accept | resend | resendEnd | stream | pass | gap | syncEnd | register
  | refuse | lose => exact .inl rfl

/-- The record in the hands of the client has the offset that its append will get. -/
theorem Run.offset_eq (hr : Run (Guarded (Step brokerId) Drained) s₀ es s) (h : Started s₀)
    {r : Record} (hrec : r ∈ s.client.record) : r.offset = UInt64.ofNat (appended es).length := by
  refine hr.invariant (I := fun es s => ∀ r ∈ s.client.record,
    r.offset = UInt64.ofNat (appended es).length) ?_ ?_ r hrec
  · simp [h.client, Client.record]
  · intro es s e s' hr ih hst r hrec
    obtain ⟨hst, hg⟩ := hst
    cases hst with
    | pass hi hc hoff =>
      -- With nothing queued or in flight, all that was appended is written.
      have hq := Run.queued hr.of_guarded h
      have hwritten := hq.accepted_eq
      rw [hg.1, hg.2, List.append_nil, List.append_nil] at hwritten
      rw [List.mem_singleton.1 hrec, hoff, PartitionStore.nextOffsetOfWriter, hq.writerNextOffset,
        UInt64.zero_add, hwritten]
      simp [Event.ofStore, PartitionStore.accepted]
    | register hi =>
      rw [ih r (by rwa [hi])]
      simp [Event.ofStore, PartitionStore.accepted, PartitionStore.Event.accepted]
    | store hst hacc =>
      rw [ih r hrec]
      simp [Event.ofStore, PartitionStore.accepted, hacc]
    | append | refuse => exact absurd hrec List.not_mem_nil
    | commit | connect | accept | resend | resendEnd | stream | gap | syncEnd | lose =>
      rw [ih r hrec]
      simp [Event.ofStore, PartitionStore.accepted]

/-- What the follower has appended is a prefix of the leader's log. -/
theorem Run.appended_isPrefix (hr : Run (Guarded (Step brokerId) Drained) s₀ es s) (h : Started s₀)
    (hlt : s.leaderLog.length < 2 ^ 64) :
    (appended es).map (·.payload) <+: s.leaderLog.map (·.payload) := by
  refine hr.invariant (I := fun es s => s.leaderLog.length < 2 ^ 64 →
    (appended es).map (·.payload) <+: s.leaderLog.map (·.payload)) ?_ ?_ hlt
  · exact fun _ => ⟨_, List.nil_append _⟩
  · intro es s e s' hr ih hst hlt
    have hgrow := hst.1.leaderLog_isPrefix
    have hpre := ih (hgrow.length_le.trans_lt hlt)
    rw [appended_snoc, List.map_append]
    rcases hst.1.accepted_cases with hnil | ⟨record, hrec, happ⟩
    · rw [hnil, List.map_nil, List.append_nil]
      exact hpre.trans (hgrow.map _)
    · -- The record is in the leader's log at its offset, which is where it is appended.
      obtain ⟨i, hi, rfl⟩ := List.mem_iff_getElem.1
        (Run.mem_leaderLog hr.of_guarded h (List.mem_append_left _ hrec))
      have hoff := Run.consecutive_leaderLog hr.of_guarded h i _ (List.getElem?_eq_getElem hi)
      have hlen := hpre.length_le
      have hle := hgrow.length_le
      rw [List.length_map, List.length_map] at hlen
      rw [Run.offset_eq hr h hrec, UInt64.zero_add, ← UInt64.toNat_inj, UInt64.toNat_ofNat',
        UInt64.toNat_ofNat', Nat.mod_eq_of_lt (by omega), Nat.mod_eq_of_lt (by omega)] at hoff
      obtain rfl := hoff
      rw [happ]
      have hsnoc := List.concat_get_prefix hpre (by rwa [List.length_map, List.length_map])
      simp only [List.get_eq_getElem, List.getElem_map, List.length_map] at hsnoc
      exact hsnoc.trans (hgrow.map _)

/-- In every run of a follower from an empty partition, if a frame is let through only
    when nothing is queued or in flight: the records of the follower, those queued
    included, are numbered from `0` on, and their payloads are a prefix of those in the
    leader's log. What `on_readable` does to its buffer after a rejected frame is left
    out. -/
theorem prefix_of_drained (h : Started s₀) (hr : Run (Guarded (Step brokerId) Drained) s₀ es s)
    (hlt : s.leaderLog.length < 2 ^ 64) :
    s.records.map (·.payload) <+: s.leaderLog.map (·.payload) ∧ Numbered 0 s.records := by
  have hpre := Run.appended_isPrefix hr h hlt
  have hq := Run.queued hr.of_guarded h
  have hlen : (appended es).length < 2 ^ 64 := by
    have := hpre.length_le
    rw [List.length_map, List.length_map] at this
    omega
  have hrec : s.records = appended es := by
    obtain ⟨options, hopen⟩ := h.store
    have hstore := Run.store hr.of_guarded
    rw [hopen] at hstore
    rw [records, PartitionStore.Run.flatMap_records hstore hlen, hq.accepted_eq]
  rw [hrec]
  exact ⟨hpre, hq.consecutive.numbered (by simpa using hlen)⟩

/-! ## A record sent twice

The record is queued when the connection is lost. The follower asks for it again, as it is
not committed, and takes it again, as it is the one expected. -/

section

/-- The leader's only record. -/
def onlyRecord : Record := ⟨0, 0, ⟨[7], Payload.length_seven_lt⟩⟩

/-- The follower `1` with its partition as given, and its leader with one record. -/
def withStore (connection : Option Connection) (client : Client)
    (store : PartitionStore ReplicaAck) : Follower :=
  ⟨[onlyRecord], 0, connection, client, store⟩

/-- The store with the callback for the record registered. -/
def awaiting (store : PartitionStore ReplicaAck) : PartitionStore ReplicaAck :=
  (store.setOnceCommitCallback 0 (ackOf 1 0 onlyRecord)).2

/-- The store with the record appended. -/
def received (store : PartitionStore ReplicaAck) : PartitionStore ReplicaAck :=
  ((awaiting store).append onlyRecord.payload 0).2

/-- The record is asked for, sent and appended. -/
def receiveEvents (store : PartitionStore ReplicaAck) : List Event :=
  [.connected 0, .accepted, .resent onlyRecord, .passed onlyRecord,
    .registered onlyRecord (ackOf 1 0 onlyRecord)
      (store.setOnceCommitCallback 0 (ackOf 1 0 onlyRecord)).1,
    .appended onlyRecord ((awaiting store).command onlyRecord.payload 0)]

theorem run_receive {G : Follower → Event → Prop} {store : PartitionStore ReplicaAck}
    (hcom : store.committedOffset = 0) (hnext : store.nextOffsetOfWriter = 0)
    (hacc : ((awaiting store).append onlyRecord.payload 0).1.accepted = true)
    (hG : ∀ s e, (∀ record, e = .passed record → s.store = store) → G s e) :
    Run (Guarded (Step 1) G) (withStore none .idle store) (receiveEvents store)
      (withStore (some ⟨.sending 1, []⟩) .idle (received store)) := by
  have hconnect : Step 1 (withStore none .idle store) (.connected 0)
      (withStore (some ⟨.requested 0, []⟩) .idle store) := by
    rw [← hcom]
    exact .connect rfl rfl
  have hresend : Step 1 (withStore (some ⟨.sending 0, []⟩) .idle store) (.resent onlyRecord)
      (withStore (some ⟨.sending 1, [.sync 0 onlyRecord]⟩) .idle store) := by
    have hlt : (0 : UInt64) < UInt64.ofNat 1 := by decide
    exact @Step.resend 1 (withStore _ _ _) 0 [] onlyRecord 0 rfl hlt rfl
  have hpass : Step 1 (withStore (some ⟨.sending 1, [.sync 0 onlyRecord]⟩) .idle store)
      (.passed onlyRecord) (withStore (some ⟨.sending 1, []⟩) (.checked 0 onlyRecord) store) :=
    .pass rfl rfl hnext.symm
  exact .cons ⟨hconnect, hG _ _ fun _ h => nomatch h⟩ <|
    .cons ⟨.accept rfl, hG _ _ fun _ h => nomatch h⟩ <|
    .cons ⟨hresend, hG _ _ fun _ h => nomatch h⟩ <|
    .cons ⟨hpass, hG _ _ fun _ _ => rfl⟩ <|
    .cons ⟨.register rfl, hG _ _ fun _ h => nomatch h⟩ <|
    .single ⟨.append 0 rfl hacc, hG _ _ fun _ h => nomatch h⟩

/-- The follower's partition is empty. -/
def emptyStore : PartitionStore ReplicaAck := PartitionStore.open ∅ {}

theorem started_emptyStore : Started (withStore none .idle emptyStore) where
  store := ⟨{}, rfl⟩
  connection := rfl
  client := rfl
  leaderLog := PartitionStore.consecutive_singleton.2 rfl

theorem run_receiveOnce : Run (Guarded (Step 1) Drained) (withStore none .idle emptyStore)
    (receiveEvents emptyStore) (withStore (some ⟨.sending 1, []⟩) .idle (received emptyStore)) := by
  refine run_receive rfl rfl (by decide) fun s e he => ?_
  cases e with
  | passed record =>
    rw [Drained, he record rfl]
    exact ⟨rfl, rfl⟩
  | _ => trivial

theorem prefix_receiveOnce :
    let s := withStore (some ⟨.sending 1, []⟩) .idle (received emptyStore)
    s.records.map (·.payload) <+: [onlyRecord.payload] ∧ Numbered 0 s.records :=
  prefix_of_drained started_emptyStore run_receiveOnce (by decide)

/-- The record comes again before it is committed. -/
theorem run_receiveTwice : Run (Step 1) (withStore none .idle emptyStore)
    (receiveEvents emptyStore ++ .lost :: receiveEvents (received emptyStore))
    (withStore (some ⟨.sending 1, []⟩) .idle (received (received emptyStore))) := by
  have hagain : Run (Guarded (Step 1) fun _ _ => True) (withStore none .idle (received emptyStore))
      (receiveEvents (received emptyStore))
      (withStore (some ⟨.sending 1, []⟩) .idle (received (received emptyStore))) :=
    run_receive rfl rfl (by decide) fun _ _ _ => trivial
  exact run_receiveOnce.of_guarded.append (.cons (.lose rfl) hagain.of_guarded)

/-- The follower's log is longer than the leader's. -/
theorem not_forall_isPrefix : ¬∀ (brokerId : UInt32) (s₀ s : Follower) (es : List Event),
    Started s₀ → Run (Step brokerId) s₀ es s → s.leaderLog.length < 2 ^ 64 →
      s.records.map (·.payload) <+: s.leaderLog.map (·.payload) ∧ Numbered 0 s.records := by
  intro hall
  have hpre := (hall 1 _ _ _ started_emptyStore run_receiveTwice (by decide)).1
  have hqueue : (received (received emptyStore)).queue.length = 2 := by decide
  have hlen := hpre.length_le
  rw [List.length_map, records, List.length_append] at hlen
  exact absurd ((Nat.le_add_left _ _).trans hlen) (by rw [withStore, hqueue]; decide)

end

end Follower

end Fell.Replication
