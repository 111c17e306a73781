import Fell.Broker.Requests
import Fell.Cli.Framing
import Fell.Cli.Producer
import Fell.Storage.LifeLog

/-!
# The loop of the producer

The producer (`main` in `cli/producer_cli.cpp`) publishes a number of messages, one after the
other. For each it asks for the metadata, connects to the leader of a partition, sends the request
and waits for the response. With `NOT_LEADER`, and when the connection fails, it starts again with
the metadata; with `BUSY` it may send the request again. Only what keeps it from sending counts as a
retry, of which there are three for each message.

A request whose connection has failed may still be handled, at any time later. So a message may be
appended more than once, and its copies may come behind later messages. But the first of them does
not: a message is sent only when all before it have been acknowledged.

The brokers acknowledge a record when it is queued (`acks` other than -1); otherwise, the response
on a connection may be one to somebody else. There is one store for each partition, whichever broker
handles a request. It may be closed and opened again (`LifeStep`), but is not killed.

* `serve_publish`: a request appends its message and is acknowledged with the offset, or is refused;
* `Step.carried`: what one step keeps;
* `published_in_order`: what is reported has been published, under the offset that is told, and the
  messages come in order.
-/

namespace Fell.Cli

open Platform Broker Storage PartitionStore RequestHandler Producer

/-! ## The producer -/

/-- The arguments of the producer, with a topic that passes the check of `main`. -/
structure ProducerArgs where
  topic : Bytes
  key : Bytes := []
  /-- The message, with its number behind it if there are several. -/
  payload : ℕ → Payload
  count : ℤ := 1
  retryOnBusy : Bool := false
  topic_ne : topic ≠ []
  length_topic : topic.length ≤ fieldSize

/-- What the producer does about a response. -/
inductive Verdict
  /-- It starts again with the metadata. -/
  | refresh
  /-- It sends the request again. -/
  | again
  | failed
  | published (offset : UInt64)

/-- The branches for a response. -/
def onPublished (retryOnBusy : Bool) (resp : Frame) : Verdict :=
  if resp.op = .err then
    if resp.payload.head? = some ErrCode.notLeader.toByte then .refresh
    else if resp.payload.head? = some ErrCode.busy.toByte ∧ retryOnBusy then .again
    else .failed
  else if resp.op = .ack then .published (readBe64 resp.payload)
  else .again

/-- Where the producer is. -/
inductive ProducerPhase
  /-- At the condition of the loop that asks for the metadata. -/
  | choosing
  /-- At the start of the loop that sends the request. -/
  | sending (request : Frame)
  | waiting (request : Frame)
  | exited (code : ℕ)

/-- The producer and the partitions. -/
structure Producing (κ : Type) where
  stores : PartitionKey → PartitionStore κ
  /-- The number of the message. -/
  index : ℕ := 0
  mdRetries : ℕ := 0
  rrCounter : UInt16 := 0
  phase : ProducerPhase := .choosing
  /-- The response on its way. -/
  response : Option Bytes := none
  /-- The requests on connections that have failed, with the numbers of their messages. -/
  adrift : List (ℕ × Frame) := []

/-- The record that a request appends. -/
def appendOf {κ : Type} (h : RequestHandler) (stores : PartitionKey → PartitionStore κ)
    (sess : Session) (now : UInt64) (f : Frame) : Option (PartitionKey × Record) :=
  match (h.handle sess f).outcome with
  | .access t p (.append message) =>
    if ((stores (t, p)).append message now).1.accepted then
      some ((t, p), (stores (t, p)).command message now)
    else none
  | .access _ _ (.subscribe _) | .access _ _ (.fetch _ _) | .reply _ => none

namespace Producing

variable {κ : Type} {args : ProducerArgs} {s s' s₀ : Producing κ}

/-- What happens in a step. -/
inductive Event (κ : Type)
  | stored (tp : PartitionKey) (e : LifeEvent κ)
  /-- A request with the message `index` is handled, and appends a record. -/
  | handled (index : ℕ) (appended : Option (PartitionKey × Record))
  /-- The message is reported as published. -/
  | reported (offset : UInt64)
  | moved

/-- What a round of the loop comes to. -/
def tried (args : ProducerArgs) (s : Producing κ) (md : Metadata) : Attempt :=
  attempt md args.topic args.key (args.payload s.index) s.rrCounter

/-- `rr_counter`, after a round of the loop. -/
def counted (args : ProducerArgs) (s : Producing κ) (md : Metadata) : UInt16 :=
  if md.partLeaders.keys = [] then s.rrCounter
  else (choosePartition md args.key s.rrCounter).2

/-- What `read_frame` returns. -/
def receive (args : ProducerArgs) (s : Producing κ) (f : Frame) :
    Option (Frame × List Bytes) → Event κ × Producing κ
  | none => (.moved, { s with phase := .choosing, response := none })
  | some (resp, _) =>
    match onPublished args.retryOnBusy resp with
    | .refresh => (.moved, { s with phase := .choosing, response := none })
    | .again => (.moved, { s with phase := .sending f, response := none })
    | .failed => (.moved, { s with phase := .exited 1, response := none })
    | .published offset => (.reported offset,
        { s with phase := .choosing, response := none, index := s.index + 1, mdRetries := 0 })

/-- A step of the producer, of a broker that handles one of its requests, or of a partition. There
    is none once the key has been copied past the end of the request (`Attempt.undefined`). -/
inductive Step (args : ProducerArgs) (s : Producing κ) : Event κ → Producing κ → Prop
  | store {tp : PartitionKey} {e : LifeEvent κ} {store : PartitionStore κ}
      (hst : LifeStep (s.stores tp) e store) :
      Step args s (.stored tp e) { s with stores := Function.update s.stores tp store }
  /-- There is no metadata (`md` is empty), or no leader in it. -/
  | retry {md : Metadata} (hphase : s.phase = .choosing) (hcount : (s.index : ℤ) < args.count)
      (hretries : s.mdRetries < 3) (htried : s.tried args md = .retry) :
      Step args s .moved { s with mdRetries := s.mdRetries + 1, rrCounter := s.counted args md }
  /-- The leader cannot be connected to. -/
  | unreachable {md : Metadata} {broker : BrokerInfo} {partition : UInt16} {request : Bytes}
      (hphase : s.phase = .choosing) (hcount : (s.index : ℤ) < args.count)
      (hretries : s.mdRetries < 3) (htried : s.tried args md = .send broker partition request) :
      Step args s .moved { s with mdRetries := s.mdRetries + 1, rrCounter := s.counted args md }
  | connect {md : Metadata} {broker : BrokerInfo} {partition : UInt16} {request : Bytes}
      (hphase : s.phase = .choosing) (hcount : (s.index : ℤ) < args.count)
      (hretries : s.mdRetries < 3) (htried : s.tried args md = .send broker partition request) :
      Step args s .moved
        { s with rrCounter := s.counted args md, phase := .sending ⟨.publishV2, request⟩ }
  | write {f : Frame} (hphase : s.phase = .sending f) :
      Step args s .moved { s with phase := .waiting f, response := none }
  | writeFailed {f : Frame} (hphase : s.phase = .sending f) :
      Step args s .moved { s with phase := .choosing }
  /-- A broker handles the request. -/
  | handle {f : Frame} {h : RequestHandler} {sess : Session} {fd : ℤ} {now : UInt64}
      {r : Served κ} (hphase : s.phase = .waiting f) (hnone : s.response = none)
      (hdefers : ¬h.Defers) (hserve : h.serve s.stores sess fd now f = some r) :
      Step args s (.handled s.index (appendOf h s.stores sess now f))
        { s with stores := r.stores, response := some r.response }
  /-- A broker handles a request whose connection has failed. -/
  | handleAdrift {i : ℕ} {f : Frame} {before after : List (ℕ × Frame)} {h : RequestHandler}
      {sess : Session} {fd : ℤ} {now : UInt64} {r : Served κ}
      (hadrift : s.adrift = before ++ (i, f) :: after) (hdefers : ¬h.Defers)
      (hserve : h.serve s.stores sess fd now f = some r) :
      Step args s (.handled i (appendOf h s.stores sess now f))
        { s with stores := r.stores, adrift := before ++ after }
  /-- `read_frame` returns, with the response or with what has come of it before the connection has
      ended. -/
  | receive {f : Frame} {resp : Bytes} {chunks : List Bytes} (hphase : s.phase = .waiting f)
      (hresp : s.response = some resp) (hne : ∀ chunk ∈ chunks, chunk ≠ [])
      (hwire : chunks.flatten <+: resp) :
      Step args s (s.receive args f (readFrame chunks)).1 (s.receive args f (readFrame chunks)).2
  /-- The connection ends before the request is handled. -/
  | lose {f : Frame} (hphase : s.phase = .waiting f) (hnone : s.response = none) :
      Step args s .moved { s with phase := .choosing, adrift := s.adrift ++ [(s.index, f)] }
  | giveUp (hphase : s.phase = .choosing) (hcount : (s.index : ℤ) < args.count)
      (hretries : 3 ≤ s.mdRetries) : Step args s .moved { s with phase := .exited 1 }
  | finish (hphase : s.phase = .choosing) (hcount : args.count ≤ s.index) :
      Step args s .moved { s with phase := .exited 0 }

/-- The producer is started, with all partitions on empty directories. -/
def start (κ : Type) (options : PartitionKey → StorageOptions) : Producing κ where
  stores tp := «open» ∅ (options tp)

/-! ## Requests -/

/-- The request that the producer builds for a message, and the partition it names. -/
def Carries (args : ProducerArgs) (i : ℕ) (f : Frame) : Prop :=
  f.op = .publishV2 ∧ ∃ partition,
    buildRequest args.topic partition args.key (args.payload i) = some f.payload

theorem carries_of_tried {md : Metadata} {broker : BrokerInfo} {partition : UInt16}
    {request : Bytes} (h : s.tried args md = .send broker partition request) :
    Carries args s.index ⟨.publishV2, request⟩ := by
  rw [tried, attempt] at h
  split_ifs at h
  dsimp only at h
  split at h
  · cases h
  · split at h
    · cases h
    · cases h
      exact ⟨rfl, _, ‹_›⟩

/-- The broker finds the topic and the message. -/
theorem Carries.publication_eq {i : ℕ} {f : Frame} (h : Carries args i f) :
    f.publication.topic = args.topic ∧ f.publication.message = (args.payload i).bytes := by
  obtain ⟨hop, partition, hbuild⟩ := h
  have hne : f.op ≠ .publish := by
    rw [hop]
    decide
  rw [Frame.publication, if_neg hne]
  simp only [buildRequest] at hbuild
  split_ifs at hbuild
  all_goals
    rw [Option.some.injEq] at hbuild
    rw [← hbuild, ofPayload_encodeRequest.1, ofPayload_encodeRequest.2]
    exact ⟨take_field_length args.length_topic, rfl⟩

/-- A publish request appends its message to a partition of its topic and is acknowledged with the
    offset, or is refused and appends nothing. -/
theorem serve_publish {f : Frame} {h : RequestHandler} {stores : PartitionKey → PartitionStore κ}
    {sess : Session} {fd : ℤ} {now : UInt64} {r : Served κ} (hop : f.op = .publishV2)
    (hserve : h.serve stores sess fd now f = some r) :
    (appendOf h stores sess now f = none ∧ r.stores = stores ∧
        ∃ code msg, r.response = encodeError code msg) ∨
      ∃ tp message, appendOf h stores sess now f = some (tp, (stores tp).command message now) ∧
        tp.1 = f.publication.topic ∧ message.bytes = f.publication.message ∧
        ((stores tp).append message now).1.accepted = true ∧
        r.stores = Function.update stores tp ((stores tp).append message now).2 ∧
        (¬h.Defers → r.response = encodeAck ((stores tp).command message now).offset) := by
  have hkeeps := @keeps_handle h sess f
  rw [serve] at hserve
  rw [appendOf]
  rcases admitted_handle h sess (.inr hop) with ⟨code, msg, hout⟩ | ⟨-, -, -, message, hmsg, hout⟩
  · rw [hout] at hserve ⊢
    cases hserve
    exact .inl ⟨rfl, rfl, code, msg, rfl⟩
  · rw [hout] at hserve ⊢
    dsimp only at hserve ⊢
    rw [access] at hserve
    split_ifs at hserve ⊢ with hacc hdefers
    · cases hserve
      refine .inr ⟨_, message, rfl, rfl, hmsg, hacc, rfl, fun hnot => absurd ?_ hnot⟩
      rwa [Defers, hkeeps.cfg, hkeeps.deferCb] at hdefers
    · cases hserve
      refine .inr ⟨_, message, rfl, rfl, hmsg, hacc, rfl, fun _ => ?_⟩
      rw [append_of_accepted hacc]
      rfl
    · cases hserve
      refine .inl ⟨rfl, ?_, refusal_eq _⟩
      have hrej : ((stores (f.publication.topic, _)).append message now).1.accepted = false :=
        Bool.not_eq_true _ ▸ hacc
      rw [append_of_rejected hrej]
      exact Function.update_eq_self _ _

/-! ## What is sent and what is reported -/

variable {e : Event κ} {es : List (Event κ)}

/-- The offset reported in a step. -/
def Event.reports : Event κ → List UInt64
  | .reported offset => [offset]
  | .stored _ _ | .handled _ _ | .moved => []

/-- The offsets reported, in the order of the messages. -/
def reports (es : List (Event κ)) : List UInt64 := es.flatMap Event.reports

theorem reports_snoc : reports (es ++ [e]) = reports es ++ e.reports := by
  simp [reports]

/-- What the producer has sent is its messages, up to the one it is at; what it is told and what it
    has reported are the offsets of records that they have appended. -/
structure Carried (args : ProducerArgs) (es : List (Event κ)) (s : Producing κ) : Prop where
  index : s.index = (reports es).length
  request : ∀ f, s.phase = .sending f ∨ s.phase = .waiting f →
    Carries args s.index f ∧ (s.index : ℤ) < args.count
  adrift : ∀ x ∈ s.adrift, x.1 ≤ s.index ∧ Carries args x.1 x.2
  response : ∀ resp, s.response = some resp → (∃ code msg, resp = encodeError code msg) ∨
    ∃ tp r, .handled s.index (some (tp, r)) ∈ es ∧ resp = encodeAck r.offset
  reported : ∀ i offset, (reports es)[i]? = some offset →
    ∃ tp r, .handled i (some (tp, r)) ∈ es ∧ r.offset = offset
  le : s.index ≤ args.count.toNat
  finished : s.phase = .exited 0 → args.count ≤ s.index

/-- A step that reports nothing. -/
theorem Carried.move (h : Carried args es s) (he : e.reports = []) (hindex : s'.index = s.index)
    (hrequest : ∀ f, s'.phase = .sending f ∨ s'.phase = .waiting f →
      Carries args s.index f ∧ (s.index : ℤ) < args.count)
    (hadrift : ∀ x ∈ s'.adrift, x ∈ s.adrift ∨ x.1 ≤ s.index ∧ Carries args x.1 x.2)
    (hresponse : ∀ resp, s'.response = some resp → s.response = some resp ∨
      (∃ code msg, resp = encodeError code msg) ∨
      ∃ tp r, e = .handled s.index (some (tp, r)) ∧ resp = encodeAck r.offset)
    (hfinished : s'.phase = .exited 0 → args.count ≤ s.index) : Carried args (es ++ [e]) s' where
  index := by rw [reports_snoc, he, List.append_nil, hindex, h.index]
  request := by rwa [hindex]
  adrift x hx := by
    rw [hindex]
    exact (hadrift x hx).elim (h.adrift x) id
  response resp hresp := by
    rw [hindex]
    rcases hresponse resp hresp with hold | herror | ⟨tp, r, rfl, hack⟩
    · refine (h.response resp hold).imp_right fun ⟨tp, r, hmem, hack⟩ => ?_
      exact ⟨tp, r, List.mem_append_left _ hmem, hack⟩
    · exact .inl herror
    · exact .inr ⟨tp, r, List.mem_append_right _ (List.mem_singleton_self _), hack⟩
  reported i offset hi := by
    rw [reports_snoc, he, List.append_nil] at hi
    obtain ⟨tp, r, hmem, hoffset⟩ := h.reported i offset hi
    exact ⟨tp, r, List.mem_append_left _ hmem, hoffset⟩
  le := by rw [hindex]; exact h.le
  finished := by rwa [hindex]

theorem onPublished_ackFrame (retryOnBusy : Bool) (value : UInt64) :
    onPublished retryOnBusy (ackFrame value) = .published value := by
  have hread := readBe64_append value []
  rw [List.append_nil] at hread
  have hne : (ackFrame value).op ≠ .err := show Op.ack ≠ .err by decide
  have hack : (ackFrame value).op = .ack := rfl
  rw [onPublished, if_neg hne, if_pos hack]
  exact congrArg Verdict.published hread

theorem onPublished_errorFrame (retryOnBusy : Bool) (code : ErrCode) (msg : String)
    (offset : UInt64) : onPublished retryOnBusy (errorFrame code msg) ≠ .published offset := by
  have herr : (errorFrame code msg).op = .err := rfl
  rw [onPublished, if_pos herr]
  split_ifs <;> simp

/-- The message is reported with the offset of its record. -/
theorem Carried.published (h : Carried args es s) {tp : PartitionKey} {r : Record}
    (hmem : .handled s.index (some (tp, r)) ∈ es) (hcount : (s.index : ℤ) < args.count) :
    Carried args (es ++ [.reported r.offset])
      { s with phase := .choosing, response := none, index := s.index + 1, mdRetries := 0 } where
  index := by rw [reports_snoc, List.length_append, ← h.index]; rfl
  request f hf := by simp at hf
  adrift x hx := ⟨(h.adrift x hx).1.trans (Nat.le_succ _), (h.adrift x hx).2⟩
  response resp hresp := by cases hresp
  reported i offset hi := by
    rw [reports_snoc] at hi
    rcases Nat.lt_or_ge i (reports es).length with hlt | hge
    · rw [List.getElem?_append_left hlt] at hi
      obtain ⟨tp, r, hmem, hoffset⟩ := h.reported i offset hi
      exact ⟨tp, r, List.mem_append_left _ hmem, hoffset⟩
    · rw [List.getElem?_append_right hge] at hi
      obtain ⟨hi, hoffset⟩ := List.getElem?_eq_some_iff.1 hi
      have hlast : i = s.index := by
        rw [h.index]
        simp only [Event.reports, List.length_singleton] at hi
        omega
      simp only [Event.reports, List.getElem_singleton] at hoffset
      exact ⟨tp, r, List.mem_append_left _ (hlast ▸ hmem), hoffset⟩
  le := by
    have := h.le
    dsimp only
    omega
  finished hphase := by cases hphase

theorem Carried.received {f : Frame} {resp : Bytes} {chunks : List Bytes}
    (h : Carried args es s) (hphase : s.phase = .waiting f) (hresp : s.response = some resp)
    (hne : ∀ chunk ∈ chunks, chunk ≠ []) (hwire : chunks.flatten <+: resp) :
    Carried args (es ++ [(s.receive args f (readFrame chunks)).1])
      (s.receive args f (readFrame chunks)).2 := by
  have hcarries := h.request f (.inr hphase)
  have hrefresh : Carried args (es ++ [.moved]) { s with phase := .choosing, response := none } :=
    h.move rfl rfl (by simp) (fun x hx => .inl hx) nofun nofun
  cases hread : readFrame chunks with
  | none => exact hrefresh
  | some r =>
    obtain ⟨f', rest⟩ := r
    dsimp only [receive]
    cases hverdict : onPublished args.retryOnBusy f' with
    | refresh => exact hrefresh
    | again =>
      refine h.move rfl rfl (fun g hg => ?_) (fun x hx => .inl hx) nofun nofun
      simp only [ProducerPhase.sending.injEq, reduceCtorEq, or_false] at hg
      exact hg ▸ hcarries
    | failed => exact h.move rfl rfl (by simp) (fun x hx => .inl hx) nofun nofun
    | published offset =>
      rcases h.response resp hresp with ⟨code, msg, rfl⟩ | ⟨tp, rec, hmem, rfl⟩
      · obtain rfl := eq_of_readFrame (fits_errorFrame code msg) hne hwire hread
        exact absurd hverdict (onPublished_errorFrame _ _ _ _)
      · obtain rfl := eq_of_readFrame (fits_ackFrame rec.offset) hne hwire hread
        rw [onPublished_ackFrame, Verdict.published.injEq] at hverdict
        exact hverdict ▸ h.published hmem hcarries.2

theorem Step.carried (hst : Step args s e s') (h : Carried args es s) :
    Carried args (es ++ [e]) s' := by
  cases hst with
  | store | retry | unreachable =>
    exact h.move rfl rfl h.request (fun x hx => .inl hx) (fun resp hr => .inl hr) h.finished
  | connect hphase hcount hretries htried =>
    refine h.move rfl rfl (fun g hg => ?_) (fun x hx => .inl hx) (fun resp hr => .inl hr) nofun
    simp only [ProducerPhase.sending.injEq, reduceCtorEq, or_false] at hg
    exact hg ▸ ⟨carries_of_tried htried, hcount⟩
  | write hphase =>
    refine h.move rfl rfl (fun g hg => ?_) (fun x hx => .inl hx) nofun nofun
    simp only [ProducerPhase.waiting.injEq, reduceCtorEq, false_or] at hg
    exact hg ▸ h.request _ (.inl hphase)
  | writeFailed hphase =>
    exact h.move rfl rfl (by simp) (fun x hx => .inl hx) (fun resp hr => .inl hr) nofun
  | @handle f hd sess fd now r hphase hnone hdefers hserve =>
    refine h.move rfl rfl h.request (fun x hx => .inl hx) (fun resp hr => .inr ?_) h.finished
    cases hr
    rcases serve_publish (h.request f (.inr hphase)).1.1 hserve with
      ⟨-, -, herror⟩ | ⟨tp, message, happ, -, -, -, -, hack⟩
    · exact .inl herror
    · exact .inr ⟨tp, _, by rw [happ], hack hdefers⟩
  | handleAdrift hadrift =>
    refine h.move rfl rfl h.request (fun x hx => .inl ?_) (fun resp hr => .inl hr) h.finished
    rw [hadrift]
    exact (List.mem_append.1 hx).elim (List.mem_append_left _)
      fun hx => List.mem_append_right _ (List.mem_cons_of_mem _ hx)
  | receive hphase hresp hne hwire => exact h.received hphase hresp hne hwire
  | lose hphase hnone =>
    refine h.move rfl rfl (by simp) (fun x hx => ?_) (fun resp hr => .inl hr) nofun
    refine (List.mem_append.1 hx).imp_right fun hx => ?_
    rw [List.mem_singleton.1 hx]
    exact ⟨Nat.le_refl _, (h.request _ (.inr hphase)).1⟩
  | giveUp =>
    exact h.move rfl rfl (by simp) (fun x hx => .inl hx) (fun resp hr => .inl hr) (by simp)
  | finish hphase hcount =>
    exact h.move rfl rfl (by simp) (fun x hx => .inl hx) (fun resp hr => .inl hr)
      fun _ => hcount

theorem Run.carried {options : PartitionKey → StorageOptions}
    (hrun : Run (Step args) (start κ options) es s) : Carried args es s := by
  refine hrun.invariant (I := Carried args) ⟨rfl, ?_, ?_, nofun, ?_, Nat.zero_le _, nofun⟩
    fun _ ih hst => hst.carried ih
  · simp [start]
  · simp [start]
  · simp [reports]

/-! ## The partitions under the producer -/

/-- The record that a partition accepts in a step. -/
def Event.acceptedAt (tp : PartitionKey) : Event κ → List Record
  | .stored tp' e => if tp' = tp then e.accepted else []
  | .handled _ (some (tp', r)) => if tp' = tp then [r] else []
  | .handled _ none | .reported _ | .moved => []

/-- The records that a partition has accepted, from whatever client. -/
def acceptedAt (tp : PartitionKey) (es : List (Event κ)) : List Record :=
  es.flatMap (Event.acceptedAt tp)

theorem acceptedAt_snoc (tp : PartitionKey) :
    acceptedAt tp (es ++ [e]) = acceptedAt tp es ++ e.acceptedAt tp := by
  simp [acceptedAt]

/-- A partition takes one of its own steps, or none. -/
def StoreStep (tp : PartitionKey) (s : Producing κ) (e : Event κ)
    (stores : PartitionKey → PartitionStore κ) : Prop :=
  stores tp = s.stores tp ∧ e.acceptedAt tp = [] ∨
    ∃ le, LifeStep (s.stores tp) le (stores tp) ∧ le.accepted = e.acceptedAt tp

theorem storeStep_of_serve {f : Frame} {h : RequestHandler} {sess : Session} {fd : ℤ}
    {now : UInt64} {r : Served κ} (hop : f.op = .publishV2)
    (hserve : h.serve s.stores sess fd now f = some r) (i : ℕ) (tp : PartitionKey) :
    StoreStep tp s (.handled i (appendOf h s.stores sess now f)) r.stores := by
  rcases serve_publish hop hserve with
    ⟨happ, hstores, -⟩ | ⟨tp', message, happ, -, -, hacc, hstores, -⟩
  · exact .inl ⟨by rw [hstores], by rw [happ]; rfl⟩
  · rw [happ, hstores]
    by_cases htp : tp' = tp
    · subst htp
      refine .inr ⟨.lived (.appended _), ?_, (if_pos rfl).symm⟩
      rw [Function.update_self]
      exact .live (.append message now hacc)
    · exact .inl ⟨Function.update_of_ne (Ne.symm htp) _ _, if_neg htp⟩

theorem Step.storeStep (hst : Step args s e s') (h : Carried args es s) (tp : PartitionKey) :
    StoreStep tp s e s'.stores := by
  cases hst with
  | @store tp' le store hst =>
    by_cases htp : tp' = tp
    · subst htp
      refine .inr ⟨le, ?_, (if_pos rfl).symm⟩
      dsimp only
      rwa [Function.update_self]
    · exact .inl ⟨Function.update_of_ne (Ne.symm htp) _ _, if_neg htp⟩
  | handle hphase hnone hdefers hserve =>
    exact storeStep_of_serve (h.request _ (.inr hphase)).1.1 hserve _ tp
  | handleAdrift hadrift hdefers hserve =>
    have hmem : _ ∈ s.adrift := hadrift ▸ List.mem_append_right _ List.mem_cons_self
    exact storeStep_of_serve (h.adrift _ hmem).2.1 hserve _ tp
  | @receive f resp chunks =>
    cases hread : readFrame chunks with
    | none => exact .inl ⟨rfl, rfl⟩
    | some r =>
      dsimp only [Producing.receive]
      split <;> exact .inl ⟨rfl, rfl⟩
  | retry | unreachable | connect | write | writeFailed | lose | giveUp | finish =>
    exact .inl ⟨rfl, rfl⟩

variable {options : PartitionKey → StorageOptions}

theorem Run.exists_life (hrun : Run (Step args) (start κ options) es s) (tp : PartitionKey) :
    ∃ les, Run LifeStep («open» ∅ (options tp)) les (s.stores tp) ∧
      acceptedInLife les = acceptedAt tp es := by
  refine hrun.invariant (I := fun es s => ∃ les, Run LifeStep («open» ∅ (options tp)) les
    (s.stores tp) ∧ acceptedInLife les = acceptedAt tp es) ⟨[], .nil, rfl⟩ ?_
  rintro es s e s' hr ⟨les, hlife, hacc⟩ hst
  rw [acceptedAt_snoc]
  rcases hst.storeStep (Run.carried hr) tp with ⟨hsame, hnone⟩ | ⟨le, hle, haccle⟩
  · exact ⟨les, hsame ▸ hlife, by rw [hnone, List.append_nil, hacc]⟩
  · exact ⟨les ++ [le], hlife.snoc hle, by rw [acceptedInLife_snoc, hacc, haccle]⟩

/-- An accepted record is found under its offset. -/
theorem Run.getElem?_acceptedAt (hrun : Run (Step args) (start κ options) es s)
    {tp : PartitionKey} (hlt : (acceptedAt tp es).length < 2 ^ 64) {r : Record}
    (hr : r ∈ acceptedAt tp es) : (acceptedAt tp es)[r.offset.toNat]? = some r := by
  obtain ⟨les, hlife, hacc⟩ := Run.exists_life hrun tp
  rw [← hacc] at hlt hr ⊢
  have hnum := (Run.inLog hlife hlt).numbered hlt
  obtain ⟨i, hi, rfl⟩ := List.getElem_of_mem hr
  rw [hnum.offset_getElem hi, Nat.zero_add, List.getElem?_eq_getElem hi]

/-! ## The whole run -/

/-- A request that is handled has one of the messages up to the one that the producer is at. -/
theorem Step.handled {i : ℕ} {tp : PartitionKey} {r : Record}
    (hst : Step args s (.handled i (some (tp, r))) s') (h : Carried args es s) :
    i ≤ s.index ∧ tp.1 = args.topic ∧ r.payload = args.payload i := by
  have hmessage : ∀ {f : Frame} {hd : RequestHandler} {sess : Session} {fd : ℤ} {now : UInt64}
      {served : Served κ}, Carries args i f → hd.serve s.stores sess fd now f = some served →
      appendOf hd s.stores sess now f = some (tp, r) →
      tp.1 = args.topic ∧ r.payload = args.payload i := by
    intro f hd sess fd now served hcarries hserve happ
    obtain ⟨htopic, hmsg⟩ := hcarries.publication_eq
    rcases serve_publish hcarries.1 hserve with ⟨hnone, -⟩ | ⟨tp', message, happ', htp, hbytes, -⟩
    · rw [hnone] at happ
      cases happ
    · rw [happ'] at happ
      cases happ
      exact ⟨htp.trans htopic, Payload.ext (hbytes.trans hmsg)⟩
  generalize happ : some (tp, r) = appended at hst
  generalize he : Event.handled i appended = e at hst
  cases hst with
  | handle hphase hnone hdefers hserve =>
    cases he
    exact ⟨Nat.le_refl _, hmessage (h.request _ (.inr hphase)).1 hserve happ.symm⟩
  | handleAdrift hadrift hdefers hserve =>
    cases he
    have hmem : _ ∈ s.adrift := hadrift ▸ List.mem_append_right _ List.mem_cons_self
    exact ⟨(h.adrift _ hmem).1, hmessage (h.adrift _ hmem).2 hserve happ.symm⟩
  | @receive f resp chunks =>
    cases hread : readFrame chunks with
    | none =>
      rw [hread] at he
      cases he
    | some r =>
      rw [hread] at he
      dsimp only [Producing.receive] at he
      split at he <;> cases he
  | store | retry | unreachable | connect | write | writeFailed | lose | giveUp | finish =>
    cases he

/-- In every run of a producer and the partitions, with other clients, clean restarts, connections
    that fail and requests that are handled late, as long as the offsets fit: a request
    that appends a record appends the message it is for, to a partition of the topic, and by then
    all messages before it have been reported; and what is reported is the offset under which a
    partition of the topic has the message. If the producer exits with success, all messages have
    been reported. -/
theorem published_in_order (hrun : Run (Step args) (start κ options) es s)
    (hlt : ∀ tp, (acceptedAt tp es).length < 2 ^ 64) :
    (∀ es₁ es₂ i tp r, es = es₁ ++ .handled i (some (tp, r)) :: es₂ →
      i ≤ (reports es₁).length ∧ tp.1 = args.topic ∧ r.payload = args.payload i) ∧
    (∀ i offset, (reports es)[i]? = some offset → ∃ tp r, tp.1 = args.topic ∧
      r.payload = args.payload i ∧ (acceptedAt tp es)[offset.toNat]? = some r) ∧
    (s.phase = .exited 0 → (reports es).length = args.count.toNat) := by
  have h := Run.carried hrun
  have hhandled : ∀ es₁ es₂ i tp r, es = es₁ ++ .handled i (some (tp, r)) :: es₂ →
      i ≤ (reports es₁).length ∧ tp.1 = args.topic ∧ r.payload = args.payload i := by
    rintro es₁ es₂ i tp r rfl
    obtain ⟨t, t', hr, hst, -⟩ := hrun.exists_step_of_append
    have ht := Run.carried hr
    exact ht.index ▸ hst.handled ht
  refine ⟨hhandled, fun i offset hi => ?_, fun hphase => ?_⟩
  · obtain ⟨tp, r, hmem, rfl⟩ := h.reported i offset hi
    obtain ⟨es₁, es₂, hes⟩ := List.append_of_mem hmem
    obtain ⟨-, htopic, hpayload⟩ := hhandled es₁ es₂ i tp r hes
    refine ⟨tp, r, htopic, hpayload, Run.getElem?_acceptedAt hrun (hlt tp) ?_⟩
    exact List.mem_flatMap.2 ⟨_, hmem, by simp [Event.acceptedAt]⟩
  · have hle := h.le
    have hcount := h.finished hphase
    rw [← h.index]
    omega

/-! ## One message -/

theorem topicOne_ne : [(116 : UInt8)] ≠ [] := List.cons_ne_nil _ _

/-- A producer with one message. -/
def oneArgs : ProducerArgs where
  topic := [116]
  payload _ := ⟨[7], Payload.length_seven_lt⟩
  topic_ne := topicOne_ne
  length_topic := length_topicOne

/-- The request for the message. -/
def oneRequest : Frame :=
  ⟨.publishV2, encodeRequest [116] 0 0 [] ⟨[7], Payload.length_seven_lt⟩⟩

/-- The producer, with the request and the response. -/
def publishingOne (stores : PartitionKey → PartitionStore Unit) (phase : ProducerPhase)
    (response : Option Bytes) : Producing Unit where
  stores := stores
  rrCounter := 1
  phase := phase
  response := response

theorem tried_one : ∃ broker, (start Unit fun _ => {}).tried oneArgs (uniform 1) =
    .send broker 0 oneRequest.payload := ⟨_, rfl⟩

theorem step_handleOne : ∃ stores appended, Step oneArgs
    (publishingOne (fun _ => «open» ∅ {}) (.waiting oneRequest) none) (.handled 0 appended)
    (publishingOne stores (.waiting oneRequest) (some (ackFrame 0).encode)) := by
  have hresp : (lone.serve (fun _ => («open» ∅ {} : PartitionStore Unit)) {} 5 0 oneRequest).map
      Served.response = some (ackFrame 0).encode := by decide +kernel
  obtain ⟨r, hr, hack⟩ := Option.map_eq_some_iff.1 hresp
  have hst : Step oneArgs (publishingOne (fun _ => «open» ∅ {}) (.waiting oneRequest) none) _ _ :=
    .handle rfl rfl not_defers_lone hr
  rw [hack] at hst
  exact ⟨_, _, hst⟩

theorem step_reportOne (stores : PartitionKey → PartitionStore Unit) : Step oneArgs
    (publishingOne stores (.waiting oneRequest) (some (ackFrame 0).encode)) (.reported 0)
    { publishingOne stores .choosing none with index := 1 } := by
  have hread : readFrame [(ackFrame 0).encode] = some (ackFrame 0, []) := by decide
  obtain ⟨hne, hwire⟩ := whole_encode (ackFrame 0)
  have hst : Step oneArgs
      (publishingOne stores (.waiting oneRequest) (some (ackFrame 0).encode)) _ _ :=
    .receive rfl rfl hne hwire
  rwa [hread] at hst

/-- The message is published, and reported. -/
theorem run_one : ∃ es s, Run (Step oneArgs) (start Unit fun _ => {}) es s ∧
    reports es = [0] ∧ s.phase = .exited 0 ∧ ∀ tp, (acceptedAt tp es).length ≤ 1 := by
  obtain ⟨broker, htried⟩ := tried_one
  obtain ⟨stores, appended, hhandle⟩ := step_handleOne
  have hwaiting : Run (Step oneArgs) (start Unit fun _ => {}) _
      (publishingOne (fun _ => «open» ∅ {}) (.waiting oneRequest) none) :=
    (Run.single (.connect rfl (by decide) (by decide) htried)).snoc (.write rfl)
  refine ⟨_, _, ((hwaiting.snoc hhandle).snoc (step_reportOne stores)).snoc
    (.finish rfl (Int.le_refl 1)), rfl, rfl, fun tp => ?_⟩
  rcases appended with _ | ⟨tp', r⟩
  · exact Nat.zero_le 1
  · simp only [acceptedAt, List.flatMap_append, List.flatMap_singleton, Event.acceptedAt]
    split_ifs <;> simp

theorem published_in_order_one : ∃ es s, Run (Step oneArgs) (start Unit fun _ => {}) es s ∧
    reports es = [0] ∧ ∃ tp r, tp.1 = oneArgs.topic ∧ r.payload = oneArgs.payload 0 ∧
      (acceptedAt tp es)[(0 : UInt64).toNat]? = some r := by
  obtain ⟨es, s, hrun, hreports, -, hlen⟩ := run_one
  have hlt : ∀ tp, (acceptedAt tp es).length < 2 ^ 64 := fun tp =>
    (hlen tp).trans_lt (by decide)
  exact ⟨es, s, hrun, hreports, (published_in_order hrun hlt).2.1 0 0 (by rw [hreports]; rfl)⟩

end Producing

end Fell.Cli
