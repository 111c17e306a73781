import Fell.Broker.Parsing
import Fell.Broker.Subscription
import Fell.Cli.Consumer
import Fell.Cli.Framing
import Fell.Cli.Producer
import Fell.Storage.LifeLog

/-!
# The loop of the consumer

The consumer (`main` in `cli/consumer_cli.cpp`) connects to the leader of a partition, subscribes,
and then fetches one message after the other. Whenever the connection fails, or the broker does not
lead the partition, it connects again; the offset and the number of messages read go on.

The other side is any broker that has the partition: the requests are handled by
`RequestHandler.serve`, with whatever roles, sessions and other partitions there are, and in between
the threads of the partition go on, for other clients too. There is one store of the partition,
whichever broker handles a request. It may be closed and opened again (`LifeStep`), but is not
killed. A response may be lost as a whole or in part.

The brokers acknowledge a record when it is queued (`acks` other than -1). Otherwise, a connection
may be sent an acknowledgement that is for somebody else, which the consumer would take for the
response to its request.

Since a `FETCH` asks for one message, every response is one frame, and nothing of it is left on the
connection once it is read.

* `Served.reply`: the responses to the requests of the consumer;
* `Step.follows`: what one step keeps;
* `printed_eq_log`: the messages printed are those of the log from the start offset on, each of them
  once and in order.
-/

namespace Fell.Cli

open Platform Broker Storage PartitionStore RequestHandler

/-! ## The consumer -/

/-- The arguments of the consumer, with a topic that passes the check of `main`. -/
structure ConsumerArgs where
  topic : Bytes
  partition : UInt16 := 0
  /-- Any number, if negative. -/
  count : ℤ := -1
  topic_ne : topic ≠ []
  length_topic : topic.length ≤ fieldSize

namespace ConsumerArgs

variable (args : ConsumerArgs)

def key : PartitionKey := (args.topic, args.partition)

/-- The condition of both loops. -/
def More (c : Consumer) : Prop := args.count < 0 ∨ (c.readCount : ℤ) < args.count

instance (c : Consumer) : Decidable (args.More c) := inferInstanceAs (Decidable (_ ∨ _))

/-- The fields that both requests start with. -/
def request (fields : Bytes) : Bytes :=
  UInt8.ofNat args.topic.length ::
    (Producer.field args.topic ++ (hostToBe16 args.partition ++ fields))

/-- The `SUBSCRIBE` request. -/
def subscribeReq (offset : UInt64) : Frame := ⟨.subscribe, args.request (hostToBe64 offset)⟩

/-- The `FETCH` request, for one message. -/
def fetchReq (offset : UInt64) : Frame :=
  ⟨.fetch, args.request (hostToBe64 offset ++ hostToBe16 1)⟩

end ConsumerArgs

/-- Where the consumer is. -/
inductive ConsumerPhase
  /-- At the condition of the outer loop. -/
  | connecting
  | subscribing
  /-- At the condition of the inner loop. -/
  | looping
  | fetching
  | exited (code : ℕ)
  deriving DecidableEq

/-- What the consumer does about an error. -/
def onError (payload : Bytes) : ConsumerPhase :=
  if payload.head? = some ErrCode.notLeader.toByte then .connecting else .exited 1

namespace Consumer

variable (c : Consumer)

/-- The response to `SUBSCRIBE`. An acknowledgement tells where the end of the log is. -/
def onSubscribed (resp : Frame) : ConsumerPhase × Consumer :=
  if resp.op = .err then (onError resp.payload, c)
  else if resp.op = .ack ∧ 8 ≤ resp.payload.length ∧ c.offset = latest then
    (.looping, { c with offset := readBe64 resp.payload })
  else (.looping, c)

/-- The response to `FETCH`, with what is printed for it. -/
def onFetched (resp : Frame) : ConsumerPhase × Consumer × List Printed :=
  if resp.op = .err then (onError resp.payload, c, [])
  else if resp.op = .ack then (.looping, c, [])
  else if resp.op = .fetchResponse then
    match c.onFetchResponse resp.payload with
    | none => (.connecting, c, [])
    | some (msg, c') => (.looping, c', [msg])
  else (.connecting, c, [])

end Consumer

/-- The consumer and the partition. -/
structure Consuming (κ : Type) where
  store : PartitionStore κ
  consumer : Consumer
  phase : ConsumerPhase := .connecting
  /-- The response on its way. -/
  response : Option Bytes := none
  printed : List Printed := []

namespace Consuming

variable {κ : Type} {args : ConsumerArgs} {s s' s₀ : Consuming κ}

/-- The request that waits for a response. -/
def request (args : ConsumerArgs) (s : Consuming κ) : Option Frame :=
  match s.phase with
  | .subscribing => some (args.subscribeReq s.consumer.offset)
  | .fetching => some (args.fetchReq s.consumer.offset)
  | .connecting | .looping | .exited _ => none

/-- What `read_frame` returns. -/
def receive (s : Consuming κ) : Option (Frame × List Bytes) → Consuming κ
  | none => { s with phase := .connecting, response := none }
  | some (resp, _) =>
    match s.phase with
    | .subscribing =>
      let r := s.consumer.onSubscribed resp
      { s with phase := r.1, consumer := r.2, response := none }
    | .fetching =>
      let r := s.consumer.onFetched resp
      { s with phase := r.1, consumer := r.2.1, response := none, printed := s.printed ++ r.2.2 }
    | .connecting | .looping | .exited _ => s

/-- What happens in a step. -/
inductive Event (κ : Type)
  | stored (e : LifeEvent κ)
  | connected
  | handled
  | received
  | lost
  | looped

/-- A step of the consumer, of the broker that handles its requests, or of the partition. -/
inductive Step (args : ConsumerArgs) (s : Consuming κ) : Event κ → Consuming κ → Prop
  | store {e : LifeEvent κ} {store : PartitionStore κ} (hst : LifeStep s.store e store) :
      Step args s (.stored e) { s with store }
  | connect (hphase : s.phase = .connecting) (hmore : args.More s.consumer) :
      Step args s .connected { s with phase := .subscribing, response := none }
  | finish (hphase : s.phase = .connecting) (hmore : ¬args.More s.consumer) :
      Step args s .looped { s with phase := .exited 0, response := none }
  /-- A broker handles the request, one that does not defer acknowledgements. -/
  | handle {f : Frame} {h : RequestHandler} {stores : PartitionKey → PartitionStore κ}
      {sess : Session} {fd : ℤ} {now : UInt64} {r : Served κ} (hreq : s.request args = some f)
      (hnone : s.response = none) (hdefers : ¬h.Defers) (hstore : stores args.key = s.store)
      (hserve : h.serve stores sess fd now f = some r) :
      Step args s .handled { s with store := r.stores args.key, response := some r.response }
  /-- `read_frame` returns, with the response or with what has come of it before the connection has
      ended. -/
  | receive {resp : Bytes} {chunks : List Bytes} (hresp : s.response = some resp)
      (hne : ∀ chunk ∈ chunks, chunk ≠ []) (hwire : chunks.flatten <+: resp) :
      Step args s .received (s.receive (readFrame chunks))
  /-- The request is not written, or no response comes. -/
  | lose (hphase : s.phase = .subscribing ∨ s.phase = .fetching) :
      Step args s .lost { s with phase := .connecting, response := none }
  | loop (hphase : s.phase = .looping) (hmore : args.More s.consumer) :
      Step args s .looped { s with phase := .fetching, response := none }
  | leave (hphase : s.phase = .looping) (hmore : ¬args.More s.consumer) :
      Step args s .looped { s with phase := .connecting, response := none }

/-- The consumer is started with an offset, and the partition on an empty directory. -/
def start (κ : Type) (options : StorageOptions) (offset : UInt64) : Consuming κ where
  store := «open» ∅ options
  consumer := ⟨offset, 0⟩

/-! ## Requests -/

section

variable {fields : Bytes} {offset : UInt64}

/-- The topic of a request is read back. -/
theorem topicReq_request (fields : Bytes) :
    TopicReq.ofPayload (args.request fields) =
      ⟨UInt8.ofNat args.topic.length, Producer.field args.topic⟩ := by
  rw [TopicReq.ofPayload, ConsumerArgs.request, List.headD_cons, List.drop_succ_cons,
    List.drop_zero, List.take_left' (Producer.length_field _)]

theorem topicName_request :
    (TopicReq.ofPayload (args.request fields)).topicName = args.topic := by
  rw [topicReq_request]
  exact Producer.take_field_length args.length_topic

/-- Behind the topic, there are the partition and the other fields. -/
theorem drop_request (fields : Bytes) :
    (args.request fields).drop TopicReq.size = hostToBe16 args.partition ++ fields := by
  rw [ConsumerArgs.request, show TopicReq.size = fieldSize + 1 from rfl, List.drop_succ_cons,
    List.drop_left' (Producer.length_field _)]

theorem partition_request (fields : Bytes) :
    readBe16 ((args.request fields).drop TopicReq.size) = args.partition := by
  rw [drop_request, readBe16, List.take_left' (length_hostToBe16 _)]
  exact be16ToHost_hostToBe16 args.partition

theorem drop_request_fields (fields : Bytes) :
    (args.request fields).drop (TopicReq.size + 2) = fields := by
  rw [← List.drop_drop, drop_request, List.drop_left' (length_hostToBe16 _)]

theorem length_request (fields : Bytes) :
    (args.request fields).length = TopicReq.size + 2 + fields.length := by
  simp [ConsumerArgs.request, TopicReq.size]
  omega

theorem subscribesTo_subscribeReq : SubscribesTo (args.subscribeReq offset) args.key offset where
  op := rfl
  size := by
    rw [ConsumerArgs.subscribeReq, length_request, length_hostToBe64]
    exact Nat.le_refl _
  topicLen := by
    rw [SubscribeReq.ofPayload, ConsumerArgs.subscribeReq, topicReq_request]
    exact Producer.ofNat_length_ne_zero args.topic_ne args.length_topic
  topic := topicName_request
  partition := partition_request _
  startOffset := by
    have hread := readBe64_append offset []
    rw [List.append_nil] at hread
    rw [SubscribeReq.ofPayload, ConsumerArgs.subscribeReq]
    simp only [drop_request_fields, hread]

theorem handle_fetchReq (h : RequestHandler) (sess : Session) :
    h.handle sess (args.fetchReq offset) =
      h.checkPartition sess (TopicReq.ofPayload (args.fetchReq offset).payload) args.partition
        (.fetch offset 1) := by
  have hhandle : h.handle sess (args.fetchReq offset) =
      h.handleFetch sess (args.fetchReq offset).payload := rfl
  have hsize : FetchReq.size ≤ (args.fetchReq offset).payload.length := by
    rw [ConsumerArgs.fetchReq, length_request, List.length_append, length_hostToBe64,
      length_hostToBe16]
    exact Nat.le_refl _
  have hmax : ((args.fetchReq offset).payload).drop (TopicReq.size + 2 + 8) = hostToBe16 1 := by
    rw [← List.drop_drop, ConsumerArgs.fetchReq, drop_request_fields,
      List.drop_left' (length_hostToBe64 _)]
  have hone : readBe16 (hostToBe16 1) = 1 := by decide
  rw [hhandle, handleFetch, if_neg (Nat.not_lt.2 hsize), FetchReq.ofPayload]
  simp only [hmax, hone]
  rw [ConsumerArgs.fetchReq, partition_request, drop_request_fields, readBe64_append]

end

/-! ## Responses -/

theorem fits_responseFrame {r : Record} (h : FitsFrame r) : (responseFrame r).Fits := by
  rw [Frame.Fits, responseFrame, length_responsePayload, Nat.add_comm FetchResponseHeader.size]
  exact h

/-- A response to the request of a phase, for an offset: `ends` are the offsets that may be told as
    the end of the log. -/
inductive Reply (ends : ℕ → Prop) (log : List Record) (offset : UInt64) :
    ConsumerPhase → Frame → Prop
  | error {phase : ConsumerPhase} (code : ErrCode) (msg : String) :
      Reply ends log offset phase (errorFrame code msg)
  | subscribed {value : UInt64}
      (hend : offset = latest → ends value.toNat ∧ value.toNat ≤ log.length) :
      Reply ends log offset .subscribing (ackFrame value)
  | empty : Reply ends log offset .fetching (ackFrame 0)
  | found {r : Record} (hr : log[offset.toNat]? = some r) (hoffset : r.offset = offset) :
      Reply ends log offset .fetching (responseFrame r)

theorem Reply.fits {ends : ℕ → Prop} {log : List Record} {offset : UInt64} {phase : ConsumerPhase}
    {f : Frame} (h : Reply ends log offset phase f) (hfits : ∀ r ∈ log, FitsFrame r) : f.Fits := by
  cases h with
  | error code msg => exact fits_errorFrame code msg
  | subscribed | empty => exact fits_ackFrame _
  | found hr => exact fits_responseFrame (hfits _ (List.mem_of_getElem? hr))

theorem Reply.mono {ends ends' : ℕ → Prop} {log log' : List Record} {offset : UInt64}
    {phase : ConsumerPhase} {f : Frame} (h : Reply ends log offset phase f)
    (hends : ∀ n, ends n → ends' n) (hlog : log <+: log') : Reply ends' log' offset phase f := by
  cases h with
  | error code msg => exact .error code msg
  | subscribed hend =>
    exact .subscribed fun hlatest =>
      ⟨hends _ (hend hlatest).1, (hend hlatest).2.trans hlog.length_le⟩
  | empty => exact .empty
  | found hr hoffset =>
    obtain ⟨more, rfl⟩ := hlog
    exact .found ((List.getElem?_append_left (List.getElem?_eq_some_iff.1 hr).1).trans hr) hoffset

section

variable {h : RequestHandler} {stores : PartitionKey → PartitionStore κ} {sess : Session} {fd : ℤ}
  {now offset : UInt64} {r : Served κ}

theorem subscribeAt_fst {topic : Bytes} {partition : UInt16} {startOffset nextOffset : UInt64} :
    (∃ code msg, (subscribeAt sess topic partition startOffset nextOffset).1 =
        encodeError code msg) ∨
      (subscribeAt sess topic partition startOffset nextOffset).1 =
        encodeAck (if startOffset = latest then nextOffset else startOffset) := by
  rw [subscribeAt]
  by_cases hfuture : startOffset ≠ latest ∧ nextOffset < startOffset
  · rw [if_pos hfuture]
    exact .inl ⟨_, _, rfl⟩
  · rw [if_neg hfuture]
    exact .inr rfl

/-- `SUBSCRIBE` changes no partition, and is answered with an error or with the offset. -/
theorem serve_subscribeReq
    (hserve : h.serve stores sess fd now (args.subscribeReq offset) = some r) :
    r.stores = stores ∧ ((∃ code msg, r.response = encodeError code msg) ∨
      r.response = encodeAck (if offset = latest then (stores args.key).nextOffsetOfWriter
        else offset)) := by
  have htopic : (SubscribeReq.ofPayload (args.subscribeReq offset).payload).toTopicReq.topicName =
      args.topic := topicName_request
  rw [serve, subscribesTo_subscribeReq.handle_eq] at hserve
  rcases outcome_checkPartition with ⟨code, msg, hout⟩ | hout
  · rw [hout] at hserve
    cases hserve
    exact ⟨rfl, .inl ⟨code, msg, rfl⟩⟩
  · rw [hout, htopic] at hserve
    cases hserve
    exact ⟨rfl, subscribeAt_fst⟩

/-- `FETCH` is answered with an error, or with what is found. -/
theorem serve_fetchReq (hserve : h.serve stores sess fd now (args.fetchReq offset) = some r) :
    (r.stores = stores ∧ ∃ code msg, r.response = encodeError code msg) ∨
      ∃ messages, ((stores args.key).fetch offset 1).1 = some messages ∧
        r.response = (fetched sess messages).1 ∧
        r.stores args.key = ((stores args.key).fetch offset 1).2 := by
  have htopic : (TopicReq.ofPayload (args.fetchReq offset).payload).topicName = args.topic :=
    topicName_request
  rw [serve, handle_fetchReq] at hserve
  rcases outcome_checkPartition with ⟨code, msg, hout⟩ | hout
  · rw [hout] at hserve
    cases hserve
    exact .inl ⟨rfl, code, msg, rfl⟩
  · rw [hout, htopic] at hserve
    obtain ⟨messages, hfound, hr⟩ := Option.map_eq_some_iff.1 hserve
    refine .inr ⟨messages, hfound, congrArg Served.response hr.symm, ?_⟩
    exact (congrArg (Served.stores · args.key) hr.symm).trans (Function.update_self args.key _ _)

end

/-! ## The partition under the consumer -/

variable {e : Event κ} {es : List (Event κ)} {ends ends' : ℕ → Prop} {log log' : List Record}

/-- The record that the partition accepts in a step. -/
def Event.accepted : Event κ → List Record
  | .stored e => e.accepted
  | .connected | .handled | .received | .lost | .looped => []

/-- The records that the partition has accepted, from whatever client. -/
def accepted (es : List (Event κ)) : List Record := es.flatMap Event.accepted

theorem accepted_snoc : accepted (es ++ [e]) = accepted es ++ e.accepted := by
  simp [accepted]

theorem store_receive (r : Option (Frame × List Bytes)) : (s.receive r).store = s.store := by
  cases r with
  | none => rfl
  | some r =>
    dsimp only [receive]
    split <;> rfl

/-- A request of the consumer changes the partition by a fetch, or not at all. -/
theorem store_of_serve {f : Frame} {h : RequestHandler} {stores : PartitionKey → PartitionStore κ}
    {sess : Session} {fd : ℤ} {now : UInt64} {r : Served κ} (hreq : s.request args = some f)
    (hserve : h.serve stores sess fd now f = some r) :
    r.stores args.key = stores args.key ∨
      r.stores args.key = ((stores args.key).fetch s.consumer.offset 1).2 := by
  rw [request] at hreq
  split at hreq
  · cases hreq
    exact .inl (by rw [(serve_subscribeReq hserve).1])
  · cases hreq
    rcases serve_fetchReq hserve with ⟨hstores, -⟩ | ⟨messages, -, -, hstores⟩
    · exact .inl (by rw [hstores])
    · exact .inr hstores
  · cases hreq
  · cases hreq
  · cases hreq

/-- The partition takes one of its own steps, or none. -/
theorem Step.store_cases (hst : Step args s e s') :
    s'.store = s.store ∧ e.accepted = [] ∨
      ∃ le, LifeStep s.store le s'.store ∧ le.accepted = e.accepted := by
  cases hst with
  | store hst => exact .inr ⟨_, hst, rfl⟩
  | handle hreq hnone hdefers hstore hserve =>
    rcases store_of_serve hreq hserve with hsame | hfetch
    · exact .inl ⟨hsame.trans hstore, rfl⟩
    · rw [hstore] at hfetch
      exact .inr ⟨.lived (.fetched s.consumer.offset 1 (s.store.fetch s.consumer.offset 1).1),
        hfetch ▸ .live (.fetch s.consumer.offset 1), rfl⟩
  | receive => exact .inl ⟨store_receive _, rfl⟩
  | connect | finish | lose | loop | leave => exact .inl ⟨rfl, rfl⟩

theorem Run.exists_life (hrun : Run (Step args) s₀ es s) :
    ∃ les, Run LifeStep s₀.store les s.store ∧ acceptedInLife les = accepted es := by
  induction hrun with
  | nil => exact ⟨[], .nil, rfl⟩
  | snoc _ hst ih =>
    obtain ⟨les, hlife, hacc⟩ := ih
    rcases hst.store_cases with ⟨hsame, hnone⟩ | ⟨le, hle, haccle⟩
    · exact ⟨les, hsame ▸ hlife, by rw [accepted_snoc, hnone, List.append_nil, hacc]⟩
    · exact ⟨les ++ [le], hlife.snoc hle, by rw [acceptedInLife_snoc, accepted_snoc, hacc, haccle]⟩

theorem Run.logged {options : StorageOptions} {offset : UInt64}
    (hrun : Run (Step args) (start κ options offset) es s)
    (hlt : (accepted es).length < 2 ^ 64) : Logged (accepted es) s.store := by
  obtain ⟨les, hlife, hacc⟩ := Run.exists_life hrun
  rw [← hacc] at hlt ⊢
  exact (Run.inLog hlife hlt).logged hlt

/-! ## What is printed -/

/-- The consumer was started at the end of the log, is still to be told where that is, and has
    printed nothing. -/
structure Unresolved (s₀ s : Consuming κ) : Prop where
  start : s₀.consumer.offset = latest
  offset : s.consumer.offset = latest
  printed : s.printed = []
  phase : s.phase ≠ .looping ∧ s.phase ≠ .fetching

/-- The consumer has printed the messages of the log from `first` on, and goes on behind them. -/
structure At (first : ℕ) (log : List Record) (s : Consuming κ) : Prop where
  offset : s.consumer.offset.toNat = first + s.printed.length
  ne_latest : s.consumer.offset ≠ latest
  printed : s.printed = ((log.drop first).take s.printed.length).map .ofRecord

/-- What the consumer has printed, and what it may be told next. -/
structure Follows (s₀ : Consuming κ) (ends : ℕ → Prop) (log : List Record) (s : Consuming κ) :
    Prop where
  readCount : s.consumer.readCount = s.printed.length
  position : Unresolved s₀ s ∨ ∃ first, ends first ∧ At first log s
  reply : ∀ resp, s.response = some resp →
    ∃ f, Reply ends log s.consumer.offset s.phase f ∧ resp = f.encode

theorem At.mono {first : ℕ} (h : At first log s) (hlog : log <+: log') : At first log' s where
  offset := h.offset
  ne_latest := h.ne_latest
  printed := by
    obtain ⟨more, rfl⟩ := hlog
    -- All that is printed lies in the log as it was.
    have hlen := congrArg List.length h.printed
    rw [List.length_map, List.length_take, List.length_drop] at hlen
    rcases Nat.le_total first log.length with hle | hge
    · rw [List.drop_append_of_le_length hle,
        List.take_append_of_le_length (by rw [List.length_drop]; omega)]
      exact h.printed
    · rw [show s.printed = [] from List.eq_nil_of_length_eq_zero (by omega)]
      rfl

theorem Follows.mono (h : Follows s₀ ends log s) (hends : ∀ n, ends n → ends' n)
    (hlog : log <+: log') : Follows s₀ ends' log' s where
  readCount := h.readCount
  position := h.position.imp_right fun ⟨first, hfirst, hat⟩ =>
    ⟨first, hends first hfirst, hat.mono hlog⟩
  reply resp hresp := by
    obtain ⟨f, hreply, hf⟩ := h.reply resp hresp
    exact ⟨f, hreply.mono hends hlog, hf⟩

/-- The consumer moves on without a response. -/
theorem Follows.move (h : Follows s₀ ends log s) {phase : ConsumerPhase}
    (hphase : phase = .looping ∨ phase = .fetching → s.phase = .looping ∨ s.phase = .fetching) :
    Follows s₀ ends log { s with phase, response := none } where
  readCount := h.readCount
  position := by
    refine h.position.imp (fun hun => ⟨hun.start, hun.offset, hun.printed, ?_⟩) ?_
    · have hidle : ¬(phase = .looping ∨ phase = .fetching) := fun hp =>
        (hphase hp).elim hun.phase.1 hun.phase.2
      exact not_or.1 hidle
    · rintro ⟨first, hfirst, hat⟩
      exact ⟨first, hfirst, hat.offset, hat.ne_latest, hat.printed⟩
  reply resp hresp := by cases hresp

theorem onError_cases (payload : Bytes) :
    onError payload = .connecting ∨ onError payload = .exited 1 := by
  rw [onError]
  split_ifs
  · exact .inl rfl
  · exact .inr rfl

/-- After an error, the consumer is in none of the loops. -/
theorem Follows.refused (h : Follows s₀ ends log s) (payload : Bytes) :
    Follows s₀ ends log { s with phase := onError payload, response := none } :=
  h.move fun hp => by
    rcases onError_cases payload with hc | hc <;> rw [hc] at hp <;>
      exact absurd hp (by simp)

theorem toNat_latest : latest.toNat = 2 ^ 64 - 1 := rfl

/-- The consumer is told where the log ends. -/
theorem Follows.subscribed {value : UInt64} (h : Follows s₀ ends log s)
    (hlt : log.length + 1 < 2 ^ 64)
    (hend : s.consumer.offset = latest → ends value.toNat ∧ value.toNat ≤ log.length) :
    let r := s.consumer.onSubscribed (ackFrame value)
    Follows s₀ ends log { s with phase := r.1, consumer := r.2, response := none } := by
  have hread : readBe64 (ackFrame value).payload = value := by
    have := readBe64_append value []
    rwa [List.append_nil] at this
  have hsize : 8 ≤ (ackFrame value).payload.length := (length_hostToBe64 value).ge
  have hop : (ackFrame value).op ≠ .err := show Op.ack ≠ .err by decide
  rw [Consumer.onSubscribed, if_neg hop]
  by_cases hlatest : s.consumer.offset = latest
  · rw [if_pos ⟨rfl, hsize, hlatest⟩, hread]
    obtain ⟨hvalue, hle⟩ := hend hlatest
    have hprinted : s.printed = [] := by
      rcases h.position with hun | ⟨_, _, hat⟩
      · exact hun.printed
      · exact absurd hlatest hat.ne_latest
    have hne : value ≠ latest := fun heq => by
      rw [heq, toNat_latest] at hle
      omega
    exact ⟨h.readCount, .inr ⟨value.toNat, hvalue, by simp [hprinted], hne, by simp [hprinted]⟩,
      nofun⟩
  · rw [if_neg fun hc => hlatest hc.2.2]
    rcases h.position with hun | ⟨first, hfirst, hat⟩
    · exact absurd hun.offset hlatest
    · exact ⟨h.readCount, .inr ⟨first, hfirst, hat.offset, hat.ne_latest, hat.printed⟩, nofun⟩

/-- The consumer prints the message with its offset. -/
theorem At.snoc {first : ℕ} {r : Record} (h : At first log s) (hlt : log.length + 1 < 2 ^ 64)
    (hr : log[s.consumer.offset.toNat]? = some r) (hoffset : r.offset = s.consumer.offset)
    {phase : ConsumerPhase} {readCount : ℕ} :
    At first log { s with
      phase, consumer := ⟨r.offset + 1, readCount⟩, response := none
      printed := s.printed ++ [.ofRecord r] } := by
  have hget := (List.getElem?_eq_some_iff.1 hr).1
  have hnext : (r.offset + 1).toNat = s.consumer.offset.toNat + 1 := by
    rw [hoffset, UInt64.toNat_add]
    exact Nat.mod_eq_of_lt (by rw [UInt64.toNat_one]; omega)
  refine ⟨?_, ?_, ?_⟩
  · rw [hnext, h.offset, List.length_append, List.length_singleton, Nat.add_assoc]
  · intro heq
    have hlatest := congrArg UInt64.toNat heq
    rw [hnext, toNat_latest] at hlatest
    omega
  · dsimp only
    rw [List.length_append, List.length_singleton, List.take_add_one, List.map_append, ← h.printed,
      List.getElem?_drop, ← h.offset, hr]
    rfl

theorem Follows.fetched {f : Frame} (h : Follows s₀ ends log s) (hphase : s.phase = .fetching)
    (hlt : log.length + 1 < 2 ^ 64) (hreply : Reply ends log s.consumer.offset .fetching f) :
    let r := s.consumer.onFetched f
    Follows s₀ ends log { s with
      phase := r.1, consumer := r.2.1, response := none, printed := s.printed ++ r.2.2 } := by
  obtain ⟨first, hfirst, hat⟩ : ∃ first, ends first ∧ At first log s :=
    h.position.resolve_left fun hun => hun.phase.2 hphase
  intro r
  cases hreply with
  | error code msg =>
    have hr : r = (onError (errorFrame code msg).payload, s.consumer, []) := if_pos rfl
    rw [hr, List.append_nil]
    exact h.refused _
  | empty =>
    have hr : r = (.looping, s.consumer, []) := rfl
    rw [hr, List.append_nil]
    exact h.move fun _ => .inr hphase
  | @found msg hmsg hoffset =>
    have hr : r = (.looping, ⟨msg.offset + 1, s.consumer.readCount + 1⟩, [.ofRecord msg]) := by
      have hprint := onFetchResponse_responsePayload s.consumer msg
      have hpayload : (responseFrame msg).payload = responsePayload msg := rfl
      simp only [r, Consumer.onFetched, hpayload, hprint]
      rfl
    rw [hr]
    refine ⟨?_, .inr ⟨first, hfirst, hat.snoc hlt hmsg hoffset⟩, nofun⟩
    rw [List.length_append, List.length_singleton, h.readCount]

/-- The broker answers with one of the responses that the consumer may be told. -/
theorem reply_of_serve {f : Frame} {h : RequestHandler} {stores : PartitionKey → PartitionStore κ}
    {sess : Session} {fd : ℤ} {now : UInt64} {r : Served κ} (hlogged : Logged log s.store)
    (hend : s.phase = .subscribing → s.consumer.offset = latest → ends s.store.wholeLog.length)
    (hreq : s.request args = some f) (hstore : stores args.key = s.store)
    (hserve : h.serve stores sess fd now f = some r) :
    ∃ f', Reply ends log s.consumer.offset s.phase f' ∧ r.response = f'.encode := by
  rw [request] at hreq
  split at hreq
  · rename_i hphase
    cases hreq
    rw [hphase]
    rcases (serve_subscribeReq hserve).2 with ⟨code, msg, hresp⟩ | hresp
    · exact ⟨_, .error code msg, hresp⟩
    · refine ⟨_, .subscribed fun hlatest => ?_, hresp⟩
      have hnext := (hlogged.linked.indexed.numbered_of_head hlogged.head).2
      rw [UInt64.toNat_zero, Nat.zero_add] at hnext
      rw [if_pos hlatest, hstore, nextOffsetOfWriter, ← hnext, ← hlogged.log_eq, List.append_assoc]
      exact ⟨hend hphase hlatest, (List.prefix_append _ _).length_le⟩
  · rename_i hphase
    cases hreq
    rw [hphase]
    rcases serve_fetchReq hserve with ⟨-, code, msg, hresp⟩ | ⟨messages, hfound, hresp, -⟩
    · exact ⟨_, .error code msg, hresp⟩
    · rw [hstore] at hfound
      rcases hlogged.fetch_one s.consumer.offset with hnone | ⟨msg, hone, hmsg, hoffset⟩
      · rw [hnone] at hfound
        cases hfound
        exact ⟨_, .empty, hresp⟩
      · rw [hone] at hfound
        cases hfound
        refine ⟨_, .found hmsg hoffset, hresp.trans ?_⟩
        rw [fetched_fst sess (List.cons_ne_nil msg [])]
        simp
  · cases hreq
  · cases hreq
  · cases hreq

/-- The consumer reads a response, or a part of it that is no frame. -/
theorem Follows.received {resp : Bytes} {chunks : List Bytes} (h : Follows s₀ ends log s)
    (hlt : log.length + 1 < 2 ^ 64) (hfits : ∀ r ∈ log, FitsFrame r)
    (hresp : s.response = some resp) (hne : ∀ chunk ∈ chunks, chunk ≠ [])
    (hwire : chunks.flatten <+: resp) : Follows s₀ ends log (s.receive (readFrame chunks)) := by
  obtain ⟨f, hreply, rfl⟩ := h.reply resp hresp
  cases hread : readFrame chunks with
  | none => exact h.move fun hp => absurd hp (by simp)
  | some r =>
    obtain ⟨f', rest⟩ := r
    obtain rfl := eq_of_readFrame (hreply.fits hfits) hne hwire hread
    dsimp only [receive]
    split
    · rename_i hphase
      rw [hphase] at hreply
      cases hreply with
      | error code msg => exact h.refused _
      | subscribed hend => exact h.subscribed hlt hend
    · rename_i hphase
      exact h.fetched hphase hlt (hphase ▸ hreply)
    · exact h
    · exact h
    · exact h

theorem Step.follows (hst : Step args s e s') (h : Follows s₀ ends log s)
    (hlogged : Logged log s.store) (hlt : log.length + 1 < 2 ^ 64)
    (hfits : ∀ r ∈ log, FitsFrame r)
    (hend : s.phase = .subscribing → s.consumer.offset = latest → ends s.store.wholeLog.length) :
    Follows s₀ ends log s' := by
  cases hst with
  | store hst => exact ⟨h.readCount, h.position.imp (fun hun => ⟨hun.1, hun.2, hun.3, hun.4⟩)
      fun ⟨first, hfirst, hat⟩ => ⟨first, hfirst, hat.1, hat.2, hat.3⟩, h.reply⟩
  | connect => exact h.move fun hp => absurd hp (by simp)
  | finish => exact h.move fun hp => absurd hp (by simp)
  | handle hreq hnone hdefers hstore hserve =>
    obtain ⟨f', hreply, hf'⟩ := reply_of_serve hlogged hend hreq hstore hserve
    refine ⟨h.readCount, h.position.imp (fun hun => ⟨hun.1, hun.2, hun.3, hun.4⟩)
      fun ⟨first, hfirst, hat⟩ => ⟨first, hfirst, hat.1, hat.2, hat.3⟩, fun resp hresp => ?_⟩
    cases hresp
    exact ⟨f', hreply, hf'⟩
  | receive hresp hne hwire => exact h.received hlt hfits hresp hne hwire
  | lose => exact h.move fun hp => absurd hp (by simp)
  | loop hphase => exact h.move fun _ => .inl hphase
  | leave => exact h.move fun hp => absurd hp (by simp)

/-- Where the messages printed may begin: at the start offset, or where the log ended at a time
    when the consumer was about to be told. -/
def Began (args : ConsumerArgs) (s₀ : Consuming κ) (es : List (Event κ)) (first : ℕ) : Prop :=
  if s₀.consumer.offset = latest then
    ∃ es₁ s₁, es₁ <+: es ∧ Run (Step args) s₀ es₁ s₁ ∧ s₁.phase = .subscribing ∧
      first = s₁.store.wholeLog.length
  else first = s₀.consumer.offset.toNat

theorem Began.mono {es' : List (Event κ)} {first : ℕ} (h : Began args s₀ es first)
    (hes : es <+: es') : Began args s₀ es' first := by
  rw [Began] at h ⊢
  split_ifs at h ⊢ with hlatest
  · obtain ⟨es₁, s₁, hes₁, hrest⟩ := h
    exact ⟨es₁, s₁, hes₁.trans hes, hrest⟩
  · exact h

/-! ## How much is printed -/

/-- The consumer reads no more messages than it is asked for, and exits with success only when it
    has read them. -/
structure Counted (args : ConsumerArgs) (s : Consuming κ) : Prop where
  fetching : s.phase = .fetching → args.More s.consumer
  le : args.count < 0 ∨ (s.consumer.readCount : ℤ) ≤ args.count
  exited : s.phase = .exited 0 → ¬args.More s.consumer

theorem onSubscribed_snd (c : Consumer) (resp : Frame) :
    (c.onSubscribed resp).2.readCount = c.readCount ∧ (c.onSubscribed resp).1 ≠ .fetching ∧
      (c.onSubscribed resp).1 ≠ .exited 0 := by
  rw [Consumer.onSubscribed]
  split_ifs
  · rcases onError_cases resp.payload with hc | hc <;> simp [hc]
  · simp
  · simp

theorem onFetched_snd (c : Consumer) (resp : Frame) :
    (c.onFetched resp).2.1.readCount ≤ c.readCount + 1 ∧ (c.onFetched resp).1 ≠ .fetching ∧
      (c.onFetched resp).1 ≠ .exited 0 := by
  have hprint : ∀ r, c.onFetchResponse resp.payload = some r → r.2.readCount = c.readCount + 1 := by
    intro r hr
    simp only [Consumer.onFetchResponse] at hr
    split_ifs at hr
    cases hr
    rfl
  rw [Consumer.onFetched]
  split_ifs
  · rcases onError_cases resp.payload with hc | hc <;> simp [hc]
  · simp
  · cases hr : c.onFetchResponse resp.payload with
    | none => simp
    | some r => simp [hprint r hr]
  · simp

theorem Counted.receive (h : Counted args s) (r : Option (Frame × List Bytes)) :
    Counted args (s.receive r) := by
  cases r with
  | none => exact ⟨nofun, h.le, nofun⟩
  | some r =>
    dsimp only [Consuming.receive]
    split
    · obtain ⟨hread, hne, hne'⟩ := onSubscribed_snd s.consumer r.1
      exact ⟨fun hp => absurd hp hne, by rw [hread]; exact h.le, fun hp => absurd hp hne'⟩
    · rename_i hphase
      obtain ⟨hread, hne, hne'⟩ := onFetched_snd s.consumer r.1
      refine ⟨fun hp => absurd hp hne, ?_, fun hp => absurd hp hne'⟩
      refine (h.fetching hphase).imp_right fun hlt => ?_
      dsimp only
      omega
    · exact h
    · exact h
    · exact h

theorem Step.counted (hst : Step args s e s') (h : Counted args s) : Counted args s' := by
  cases hst with
  | store | handle => exact ⟨h.fetching, h.le, h.exited⟩
  | connect | lose | leave => exact ⟨nofun, h.le, nofun⟩
  | finish hphase hmore => exact ⟨nofun, h.le, fun _ => hmore⟩
  | receive => exact h.receive _
  | loop hphase hmore => exact ⟨fun _ => hmore, h.le, nofun⟩

/-! ## The whole run -/

variable {options : StorageOptions} {offset : UInt64}

theorem Run.follows (hrun : Run (Step args) (start κ options offset) es s)
    (hlt : (accepted es).length + 1 < 2 ^ 64) (hfits : ∀ r ∈ accepted es, FitsFrame r) :
    Follows (start κ options offset) (Began args (start κ options offset) es) (accepted es) s := by
  refine hrun.invariant (I := fun es s => (accepted es).length + 1 < 2 ^ 64 →
    (∀ r ∈ accepted es, FitsFrame r) → Follows (start κ options offset)
      (Began args (start κ options offset) es) (accepted es) s) (fun _ _ => ?_) ?_ hlt hfits
  · by_cases hlatest : offset = latest
    · exact ⟨rfl, .inl ⟨hlatest, hlatest, rfl, by simp [start]⟩, nofun⟩
    · have hbegan : Began args (start κ options offset) [] offset.toNat := by
        rw [Began, if_neg (show (start κ options offset).consumer.offset ≠ latest from hlatest)]
        rfl
      exact ⟨rfl, .inr ⟨offset.toNat, hbegan, rfl, hlatest, rfl⟩, nofun⟩
  · intro es s e s' hr ih hst hlt hfits
    rw [accepted_snoc] at hlt hfits ⊢
    have hlt' : (accepted es).length + 1 < 2 ^ 64 := by
      rw [List.length_append] at hlt
      omega
    have hfits' : ∀ r ∈ accepted es, FitsFrame r := fun r hr =>
      hfits r (List.mem_append_left _ hr)
    have h := ih hlt' hfits'
    have hstep := hst.follows h (Run.logged hr (by omega)) hlt' hfits' fun hphase hlatest => by
      -- Only a consumer that was started at the end of the log is still to be told where it is.
      have hstart : (start κ options offset).consumer.offset = latest := by
        rcases h.position with hun | ⟨_, _, hat⟩
        · exact hun.start
        · exact absurd hlatest hat.ne_latest
      rw [Began, if_pos hstart]
      exact ⟨es, s, List.prefix_rfl, hr, hphase, rfl⟩
    exact hstep.mono (fun n hn => hn.mono (List.prefix_append _ _)) (List.prefix_append _ _)

theorem Run.counted (hrun : Run (Step args) (start κ options offset) es s) : Counted args s := by
  refine hrun.invariant (I := fun _ s => Counted args s) ⟨nofun, ?_, nofun⟩
    fun _ ih hst => hst.counted ih
  exact (lt_or_ge args.count 0).imp_right fun h => by simpa [start] using h

/-- In every run of a consumer and a partition, with brokers that do not defer acknowledgements,
    other clients, clean restarts, lost connections and responses in pieces, as long as the offsets
    fit and the messages fit frames: the messages printed are those that the partition has accepted,
    from the start offset on, each of them once and in order. If the consumer is started at the end
    of the log, they begin where the log ended at a time when the consumer was subscribing. It
    prints no more of them than it is asked for, and if it exits with success, as many. -/
theorem printed_eq_log (hrun : Run (Step args) (start κ options offset) es s)
    (hlt : (accepted es).length + 1 < 2 ^ 64) (hfits : ∀ r ∈ accepted es, FitsFrame r) :
    (s.printed ≠ [] → ∃ first, Began args (start κ options offset) es first ∧
      s.printed = (((accepted es).drop first).take s.printed.length).map .ofRecord) ∧
    (args.count < 0 ∨ (s.printed.length : ℤ) ≤ args.count) ∧
    (s.phase = .exited 0 → (s.printed.length : ℤ) = args.count) := by
  have h := Run.follows hrun hlt hfits
  have hcounted := Run.counted hrun
  refine ⟨fun hne => ?_, h.readCount ▸ hcounted.le, fun hphase => ?_⟩
  · rcases h.position with hun | ⟨first, hfirst, hat⟩
    · exact absurd hun.printed hne
    · exact ⟨first, hfirst, hat.printed⟩
  · have hmore := hcounted.exited hphase
    rw [ConsumerArgs.More, not_or, h.readCount] at hmore
    have hle := hcounted.le
    rw [h.readCount] at hle
    omega

/-! ## One message -/

/-- A consumer that is asked for one message. -/
def oneArgs : ConsumerArgs where
  topic := [116]
  count := 1
  topic_ne := List.cons_ne_nil _ _
  length_topic := Producer.length_topicOne

/-- The message of the partition `short`. -/
def oneMessage : Record := ⟨0, 5, ⟨[7], Payload.length_seven_lt⟩⟩

/-- The consumer, before it has read the message. -/
def beforeOne (store : PartitionStore Unit) (phase : ConsumerPhase) (response : Option Bytes) :
    Consuming Unit where
  store := store
  consumer := ⟨0, 0⟩
  phase := phase
  response := response

/-- The response comes as a whole. -/
theorem Step.receive_whole (f : Frame) (hresp : s.response = some f.encode)
    (hread : readFrame [f.encode] = some (f, [])) :
    Step args s .received (s.receive (some (f, []))) := by
  have hst : Step args s .received (s.receive (readFrame [f.encode])) :=
    .receive hresp (whole_encode f).1 (whole_encode f).2
  rwa [hread] at hst

theorem step_subscribeOne : Step oneArgs (beforeOne short .subscribing none) .handled
    (beforeOne short .subscribing (some (ackFrame 0).encode)) := by
  have hresp : (lone.serve (fun _ => short) {} 5 0 (oneArgs.subscribeReq 0)).map Served.response =
      some (ackFrame 0).encode := by decide +kernel
  obtain ⟨r, hr, hack⟩ := Option.map_eq_some_iff.1 hresp
  have hst : Step oneArgs (beforeOne short .subscribing none) .handled _ :=
    .handle rfl rfl not_defers_lone rfl hr
  rwa [(serve_subscribeReq hr).1, hack] at hst

theorem step_subscribedOne : Step oneArgs
    (beforeOne short .subscribing (some (ackFrame 0).encode)) .received
    (beforeOne short .looping none) :=
  .receive_whole (ackFrame 0) rfl (by decide)

theorem step_fetchOne : ∃ store, Step oneArgs (beforeOne short .fetching none) .handled
    (beforeOne store .fetching (some (responseFrame oneMessage).encode)) := by
  have hresp : (lone.serve (fun _ => short) {} 5 0 (oneArgs.fetchReq 0)).map Served.response =
      some (responseFrame oneMessage).encode := by decide +kernel
  obtain ⟨r, hr, hfound⟩ := Option.map_eq_some_iff.1 hresp
  have hst : Step oneArgs (beforeOne short .fetching none) .handled _ :=
    .handle rfl rfl not_defers_lone rfl hr
  rw [hfound] at hst
  exact ⟨_, hst⟩

theorem step_fetchedOne (store : PartitionStore Unit) : Step oneArgs
    (beforeOne store .fetching (some (responseFrame oneMessage).encode)) .received
    ⟨store, ⟨1, 1⟩, .looping, none, [.ofRecord oneMessage]⟩ :=
  .receive_whole (responseFrame oneMessage) rfl (by decide)

/-- The steps of the partition are steps of the system. -/
theorem run_stored {les : List (LifeEvent κ)} {store : PartitionStore κ}
    (hlife : Run LifeStep s.store les store) :
    Run (Step args) s (les.map .stored) { s with store } := by
  induction hlife with
  | nil => exact .nil
  | snoc _ hst ih =>
    rw [List.map_append]
    exact ih.snoc (.store hst)

/-- A message is published, and the consumer prints it. -/
theorem run_one : ∃ es s, Run (Step oneArgs) (start Unit {} 0) es s ∧
    accepted es = [oneMessage] ∧ s.phase = .exited 0 := by
  have hmore : ¬oneArgs.More ⟨1, 1⟩ := by decide
  have hpublish := @Idle.run_publishedOne Unit («open» ∅ {}) ⟨[7], Payload.length_seven_lt⟩ 5
    ⟨rfl, rfl, rfl, rfl⟩ (by decide) (by decide) (by decide) (by decide)
  have hstored : Run (Step oneArgs) (start Unit {} 0) _ (beforeOne short .connecting none) :=
    run_stored (Run.lived hpublish)
  obtain ⟨store, hfetch⟩ := step_fetchOne
  have hfetched := ((((hstored.snoc (.connect rfl (by decide))).snoc step_subscribeOne).snoc
    step_subscribedOne).snoc (.loop rfl (by decide))).snoc hfetch |>.snoc (step_fetchedOne store)
  exact ⟨_, _, (hfetched.snoc (.leave rfl hmore)).snoc (.finish rfl hmore), rfl, rfl⟩

theorem printed_eq_log_one : ∃ es s, Run (Step oneArgs) (start Unit {} 0) es s ∧
    accepted es = [oneMessage] ∧ s.phase = .exited 0 ∧ (s.printed.length : ℤ) = oneArgs.count := by
  obtain ⟨es, s, hrun, hacc, hphase⟩ := run_one
  have hfits : ∀ r ∈ accepted es, FitsFrame r := by
    rw [hacc, List.forall_mem_singleton, FitsFrame]
    decide
  exact ⟨es, s, hrun, hacc, hphase, (printed_eq_log hrun (by rw [hacc]; decide) hfits).2.2 hphase⟩

end Consuming

end Fell.Cli
