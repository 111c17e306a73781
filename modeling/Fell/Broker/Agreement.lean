import Fell.Broker.Subscription
import Fell.Storage.Refinement

/-!
# One log for all clients

Any number of clients publish to a broker and fetch from it, while the threads of its partitions and
of its replica managers move. Still all that they are told about a partition is true of one log, to
which records were appended one by one.

* `outcome_fetch`: where a `FETCH` leads to;
* `Run.log`: a run of the broker is one of the log of each partition;
* `answers_of_logs`: an offset that is acknowledged is that of the message in the log, and the
  messages in the response to a `FETCH` are those of the log from the offset on. So two clients that
  fetch from the same offset never get different messages there.
-/

namespace Fell.Broker

open Platform Replication Storage
open PartitionStore (accepted acceptedInLife LifeEvent LifeStep InLog)

/-! ## What the requests ask for -/

/-- The partition that a `FETCH` names. -/
def Frame.fetchKey (f : Frame) : PartitionKey :=
  let req := FetchReq.ofPayload f.payload
  (req.topicName, req.partition)

/-- The offset that a `FETCH` names, and the number of messages. -/
def Frame.fetchAccess (f : Frame) : Access :=
  let req := FetchReq.ofPayload f.payload
  .fetch req.offset req.maxMessages

/-- The response tells of an error. -/
def IsError (resp : Bytes) : Prop := ∃ code msg, resp = encodeError code msg

namespace RequestHandler

variable {f : Frame}

/-- A `FETCH` is answered with an error, or comes to the partition it names. -/
theorem outcome_fetch (h : RequestHandler) (sess : Session) (hop : f.op = .fetch) :
    (∃ resp, IsError resp ∧ (h.handle sess f).outcome = .reply resp) ∨
      (h.handle sess f).outcome = .access f.fetchKey.1 f.fetchKey.2 f.fetchAccess := by
  have hhandle : h.handle sess f = h.handleFetch sess f.payload := by
    rw [handle, hop]
    rfl
  rw [hhandle, handleFetch]
  split_ifs
  · exact .inl ⟨_, ⟨_, _, rfl⟩, rfl⟩
  · rcases outcome_checkPartition with ⟨code, msg, hout⟩ | hout
    · exact .inl ⟨_, ⟨code, msg, rfl⟩, hout⟩
    · exact .inr hout

/-- A publish request is answered with an error, or comes to a partition of its topic with its
    message. -/
theorem outcome_publish (h : RequestHandler) (sess : Session)
    (hop : f.op = .publish ∨ f.op = .publishV2) :
    (∃ resp, IsError resp ∧ (h.handle sess f).outcome = .reply resp) ∨
      ∃ p message, message.bytes = f.publication.message ∧
        (h.handle sess f).outcome = .access f.publication.topic p (.append message) := by
  rcases admitted_handle h sess hop with ⟨code, msg, hout⟩ | ⟨-, -, -, message, hmsg, hout⟩
  · exact .inl ⟨_, ⟨code, msg, rfl⟩, hout⟩
  · exact .inr ⟨_, message, hmsg, hout⟩

end RequestHandler

namespace Serving

variable {κ : Type} {s s' s₀ : Serving κ} {e : Event κ} {es : List (Event κ)} {tp : PartitionKey}

/-! ## The logs -/

/-- The log of a partition. -/
def log (s : Serving κ) (tp : PartitionKey) : AppendLog Record := (s.stores tp).appendLog

/-- What happens to the log of a partition in a step. -/
def Event.onLog (tp : PartitionKey) (e : Event κ) : List (AppendLog.Event Record) :=
  (e.storeEvents tp).flatMap PartitionStore.Event.onLog

theorem onLog_answered (fd : ℤ) (id : ℕ) (f : Frame) (r : Reply) (e : PartitionStore.Event κ) :
    Event.onLog tp (.answered fd id f r (some (tp, e))) = e.onLog := by
  rw [Event.onLog, Event.storeEvents, if_pos rfl, List.flatMap_singleton]

theorem onLog_deferred (fd : ℤ) (id : ℕ) (f : Frame) (cmd : Record) :
    Event.onLog tp (.deferred fd id f tp cmd : Event κ) = [.appended cmd.offset.toNat cmd] := by
  rw [Event.onLog, Event.storeEvents, if_pos rfl, List.flatMap_singleton,
    PartitionStore.Event.onLog]

/-- Each partition has gone through some lives, from an empty directory on, each of which but the
    last was ended by closing the store. -/
def Lived (lives : PartitionKey → List (LifeEvent κ)) (s : Serving κ) : Prop :=
  ∀ tp, ∃ options, Run LifeStep (.open ∅ options) (lives tp) (s.stores tp)

/-- No offset of the run reaches `2 ^ 64`. -/
def Fits (lives : PartitionKey → List (LifeEvent κ)) (es : List (Event κ)) : Prop :=
  ∀ tp, (acceptedInLife (lives tp)).length + (accepted (storeEvents tp es)).length < 2 ^ 64

theorem acceptedInLife_map_lived (es : List (PartitionStore.Event κ)) :
    acceptedInLife (es.map .lived) = accepted es := by
  rw [acceptedInLife, List.flatMap_map]
  rfl

/-- A run of the broker is one of the log of each partition. -/
theorem Run.log {lives : PartitionKey → List (LifeEvent κ)} (hr : Run Step s₀ es s)
    (hlives : Lived lives s₀) (hlt : Fits lives es) (tp : PartitionKey) :
    Run AppendLog.Step (s₀.log tp) (es.flatMap (Event.onLog tp)) (s.log tp) := by
  obtain ⟨options, hbefore⟩ := hlives tp
  have hstore := PartitionStore.Run.lived (Run.store hr tp)
  have hfit := hlt tp
  have hin : InLog (lives tp) (s₀.stores tp) :=
    PartitionStore.Run.inLog hbefore (by omega)
  have hwhole : (acceptedInLife (lives tp ++ (storeEvents tp es).map .lived)).length < 2 ^ 64 := by
    rwa [acceptedInLife, List.flatMap_append, ← acceptedInLife, ← acceptedInLife,
      acceptedInLife_map_lived, List.length_append]
  have hlog := (PartitionStore.Run.appendLog hstore hin hwhole).2
  rwa [List.flatMap_map, storeEvents, List.flatMap_assoc] at hlog

/-! ## The answers -/

/-- The response to a `FETCH`: a frame for each message, or an acknowledgement if there is none. -/
def fetchResponse (messages : List Record) : Bytes := (RequestHandler.fetched {} messages).1

/-- The response is what the logs say. -/
structure Explains (logs : PartitionKey → List Record) (f : Frame) (resp : Bytes) : Prop where
  fetch : f.op = .fetch → ∃ messages, resp = fetchResponse messages ∧
    messages.length ≤ (FetchReq.ofPayload f.payload).maxMessages.toNat ∧
    messages <+: (logs f.fetchKey).drop (FetchReq.ofPayload f.payload).offset.toNat
  publish : f.op = .publish ∨ f.op = .publishV2 → ∃ (p : UInt16) (r : Record),
    resp = encodeAck r.offset ∧ (logs (f.publication.topic, p))[r.offset.toNat]? = some r ∧
    r.payload.bytes = f.publication.message

section

variable {logs : PartitionKey → List Record} {f : Frame} {resp : Bytes}
  {handler : RequestHandler} {sess : Session}

/-- A response from the checks of a request. -/
theorem explains_of_reply (hout : (handler.handle sess f).outcome = .reply resp) :
    IsError resp ∨ Explains logs f resp := by
  by_cases hfetch : f.op = .fetch
  · rcases RequestHandler.outcome_fetch handler sess hfetch with
      ⟨resp', herr, hout'⟩ | hout'
    · cases hout.symm.trans hout'
      exact .inl herr
    · cases hout.symm.trans hout'
  · by_cases hpub : f.op = .publish ∨ f.op = .publishV2
    · rcases RequestHandler.outcome_publish handler sess hpub with
        ⟨resp', herr, hout'⟩ | ⟨p, message, -, hout'⟩
      · cases hout.symm.trans hout'
        exact .inl herr
      · cases hout.symm.trans hout'
    · exact .inr ⟨fun h => absurd h hfetch, fun h => absurd h hpub⟩

/-- A response from a partition. -/
theorem explains_of_access {a : Access}
    (hout : (handler.handle sess f).outcome = .access tp.1 tp.2 a)
    (hfetch : ∀ o n, a = .fetch o n → ∃ messages, resp = fetchResponse messages ∧
      messages.length ≤ n.toNat ∧ messages <+: (logs tp).drop o.toNat)
    (hpub : ∀ message, a = .append message → ∃ r : Record, resp = encodeAck r.offset ∧
      (logs tp)[r.offset.toNat]? = some r ∧ r.payload = message) :
    Explains logs f resp where
  fetch hop := by
    rcases RequestHandler.outcome_fetch handler sess hop with
      ⟨_, -, hout'⟩ | hout'
    · cases hout.symm.trans hout'
    · obtain ⟨htopic, hpart, ha⟩ := Outcome.access.inj (hout.symm.trans hout')
      obtain rfl : tp = f.fetchKey := Prod.ext htopic hpart
      exact hfetch _ _ ha
  publish hop := by
    rcases RequestHandler.outcome_publish handler sess hop with
      ⟨_, -, hout'⟩ | ⟨p, message, hmsg, hout'⟩
    · cases hout.symm.trans hout'
    · obtain ⟨htopic, hpart, ha⟩ := Outcome.access.inj (hout.symm.trans hout')
      obtain rfl : tp = (f.publication.topic, p) := Prod.ext htopic hpart
      obtain ⟨r, hresp, hlog, hr⟩ := hpub message ha
      exact ⟨p, r, hresp, hlog, hr ▸ hmsg⟩

end

/-- A request is answered with an error, or as the logs say, if what is done in the step is true of
    them. -/
theorem Step.explains {logs : PartitionKey → List Record} {fd : ℤ} {id : ℕ} {f : Frame} {r : Reply}
    {did : Option (PartitionKey × PartitionStore.Event κ)}
    (hst : Step s (.answered fd id f r did) s') (h : s.Located)
    (htrue : ∀ tp, ∀ e ∈ Event.onLog tp (.answered fd id f r did), e.TrueOf (logs tp)) :
    IsError r.bytes ∨ Explains logs f r.bytes := by
  cases hst with
  | reply hl hc hf hout => exact explains_of_reply hout
  | subscribe hl hc hf hr =>
    obtain ⟨handler, sess, hout⟩ := h _ _ _ _ _ hl hf
    exact .inr (explains_of_access hout (by rintro _ _ ⟨⟩) (by rintro _ ⟨⟩))
  | @fetch b c _ fs tp offset maxMessages found r hl hc hf hfound hr =>
    obtain ⟨handler, sess, hout⟩ := h _ _ _ _ _ hl hf
    have hread : AppendLog.Event.TrueOf (logs tp)
        (.read offset.toNat maxMessages.toNat found) :=
      htrue tp _ (onLog_answered .. ▸ List.mem_singleton_self _)
    refine .inr (explains_of_access hout ?_ (by rintro _ ⟨⟩))
    rintro o n ⟨⟩
    exact ⟨found, by rw [← hr]; rfl, hread⟩
  | refuse now hl hc hf hacc => exact .inl (RequestHandler.refusal_eq _)
  | @append b c _ fs tp payload now hl hc hf hacc hacks =>
    obtain ⟨handler, sess, hout⟩ := h _ _ _ _ _ hl hf
    have happ : AppendLog.Event.TrueOf (logs tp)
        (.appended ((s.stores tp).command payload now).offset.toNat
          ((s.stores tp).command payload now)) :=
      htrue tp _ (onLog_answered .. ▸ List.mem_singleton_self _)
    refine .inr (explains_of_access hout (by rintro _ _ ⟨⟩) ?_)
    rintro message ⟨⟩
    have hoff : ((s.stores tp).append payload now).1.offset =
        ((s.stores tp).command payload now).offset := by
      rw [PartitionStore.append_of_accepted hacc]
      rfl
    exact ⟨(s.stores tp).command payload now, congrArg encodeAck hoff, happ, rfl⟩

/-- A request is put off, to be answered as the logs say. -/
theorem Step.explains_of_deferred {logs : PartitionKey → List Record} {fd : ℤ} {id : ℕ} {f : Frame}
    {cmd : Record} (hst : Step s (.deferred fd id f tp cmd) s') (h : s.Located)
    (htrue : ∀ tp', ∀ e ∈ Event.onLog tp' (.deferred fd id f tp cmd : Event κ),
      e.TrueOf (logs tp')) :
    Explains logs f (encodeAck cmd.offset) := by
  cases hst with
  | appendDeferred now hl hc hf hacc hacks =>
    obtain ⟨handler, sess, hout⟩ := h _ _ _ _ _ hl hf
    refine explains_of_access hout (by rintro _ _ ⟨⟩) ?_
    rintro message ⟨⟩
    exact ⟨_, rfl, htrue tp (.appended _ _) (onLog_deferred .. ▸ List.mem_singleton_self _), rfl⟩

/-- In every run of a broker whose partitions have gone through any number of clean lives before, as
    long as the offsets fit: what happens to a partition happens to a log. And all answers are what
    the logs say at the end, whoever asked and whenever: an error apart, an offset that is
    acknowledged to a publish request is that of its message in a partition of its topic, and the
    messages in the response to a `FETCH` are those of its partition from the offset on. -/
theorem answers_of_logs {lives : PartitionKey → List (LifeEvent κ)} (hstart : Started s₀)
    (hlives : Lived lives s₀) (hr : Run Step s₀ es s) (hlt : Fits lives es) :
    (∀ tp, Run AppendLog.Step (s₀.log tp) (es.flatMap (Event.onLog tp)) (s.log tp)) ∧
      (∀ fd id f r did, .answered fd id f r did ∈ es →
        IsError r.bytes ∨ Explains (fun tp => (s.log tp).log) f r.bytes) ∧
      ∀ fd id f tp cmd, .deferred fd id f tp cmd ∈ es →
        Explains (fun tp => (s.log tp).log) f (encodeAck cmd.offset) := by
  have hlog := Run.log hr hlives hlt
  have htrue : ∀ {e}, e ∈ es → ∀ tp, ∀ e' ∈ Event.onLog tp e, e'.TrueOf (s.log tp).log :=
    fun he tp e' he' => AppendLog.Run.trueOf (hlog tp) (List.mem_flatMap.2 ⟨_, he, he'⟩)
  refine ⟨hlog, fun fd id f r did he => ?_, fun fd id f tp cmd he => ?_⟩
  · obtain ⟨es₁, t, t', es₂, -, hbefore, hst, -⟩ := hr.exists_step he
    exact hst.explains (Run.located hbefore hstart) (htrue he)
  · obtain ⟨es₁, t, t', es₂, -, hbefore, hst, -⟩ := hr.exists_step he
    exact hst.explains_of_deferred (Run.located hbefore hstart) (htrue he)

/-- A client publishes a message, which is the first of the log. -/
theorem answers_of_logs_published : ∃ s, Started (single 1) ∧ Lived (fun _ => []) (single 1) ∧
    Run Step (single 1) publishedEvents s ∧ Fits (fun _ => []) publishedEvents ∧
      Explains (fun tp => (s.log tp).log) publishFrame (encodeAck 0) := by
  obtain ⟨s, hr, -⟩ := run_published
  have hlives : Lived (fun _ => []) (single 1) := fun _ => ⟨{}, .nil⟩
  have hlt : Fits (fun _ => []) publishedEvents := by
    intro tp
    by_cases heq : first = tp <;>
      simp [publishedEvents, storeEvents, Event.storeEvents, accepted, acceptedInLife,
        PartitionStore.Event.accepted, heq]
  have hexplains := (answers_of_logs (started_single 1) hlives hr hlt).2.1 5 0 publishFrame
    (ackReply first 0) (some (first, .appended (Publishing.emptyStore.command .empty 0)))
    (by simp [publishedEvents])
  refine ⟨s, started_single 1, hlives, hr, hlt, hexplains.resolve_left ?_⟩
  rintro ⟨code, msg, heq⟩
  exact encodeError_ne_encodeAck _ _ _ heq.symm

end Serving

end Fell.Broker
