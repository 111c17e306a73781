import Fell.Broker.RequestHandler

/-!
# The consumer

The consumer (`cli/consumer_cli.cpp`) fetches the messages of a partition and prints them. A
`FETCH_RESPONSE` frame carries one message, behind a header with its offset, its timestamp and its
size.

A response has the frames of all messages found, one after the other. Its header is shorter than
that of the `PUBLISH` request with which the message came, so that its frame is no larger.

* `exists_responseMessage`: the frame of a message that could be published;
* `consume_responseFrames`: the consumer prints the messages of a response;
* `consume_fetched`: what was fetched is what is printed, however the response is cut into chunks.
-/

namespace Fell.Cli

open Platform Broker Storage

/-- A message as it is printed. -/
structure Printed where
  offset : UInt64
  timestampMs : UInt64
  payload : Bytes
  deriving DecidableEq

/-- A message of the log, as it should be printed. -/
def Printed.ofRecord (msg : Record) : Printed := ⟨msg.offset, msg.timestampMs, msg.payload.bytes⟩

/-- The offset that the consumer asks for next, and how many messages it has read. -/
structure Consumer where
  offset : UInt64
  /-- `read_count`, an `int`. That it overflows, if it is asked for no number, is left out. -/
  readCount : ℕ
  deriving DecidableEq

namespace Consumer

/-- The branch for `FETCH_RESPONSE`: the message, unless the payload is not of the size that its
    header announces. -/
def onFetchResponse (c : Consumer) (payload : Bytes) : Option (Printed × Consumer) :=
  if payload.length < FetchResponseHeader.size then none
  else
    let header := FetchResponseHeader.ofPayload payload
    if payload.length ≠ FetchResponseHeader.size + header.payloadSize.toNat then none
    else
      some (⟨header.offset, header.timestampMs,
          (payload.drop FetchResponseHeader.size).take header.payloadSize.toNat⟩,
        ⟨header.offset + 1, c.readCount + 1⟩)

/-- The messages printed for frames that are all of them `FETCH_RESPONSE` frames. -/
def consume (c : Consumer) : List Frame → Option (List Printed × Consumer)
  | [] => some ([], c)
  | f :: fs =>
    if f.op = .fetchResponse then
      (c.onFetchResponse f.payload).bind fun r =>
        (r.2.consume fs).map fun rs => (r.1 :: rs.1, rs.2)
    else none

end Consumer

/-! ## The frames of a response -/

/-- The payload of the frame with a message. -/
def responsePayload (msg : Record) : Bytes :=
  FetchResponseHeader.encode ⟨msg.offset, msg.timestampMs, msg.payload.size⟩ ++ msg.payload.bytes

theorem length_responsePayload (msg : Record) :
    (responsePayload msg).length = FetchResponseHeader.size + msg.payload.bytes.length := by
  rw [responsePayload, List.length_append, FetchResponseHeader.length_encode]

/-- The frame with a message. -/
def responseFrame (msg : Record) : Frame := ⟨.fetchResponse, responsePayload msg⟩

theorem onFetchResponse_responsePayload (c : Consumer) (msg : Record) :
    c.onFetchResponse (responsePayload msg) =
      some (.ofRecord msg, ⟨msg.offset + 1, c.readCount + 1⟩) := by
  have hlen := length_responsePayload msg
  have hheader : FetchResponseHeader.ofPayload (responsePayload msg) =
      ⟨msg.offset, msg.timestampMs, msg.payload.size⟩ := FetchResponseHeader.ofPayload_encode _ _
  have hdrop : (responsePayload msg).drop FetchResponseHeader.size = msg.payload.bytes := by
    rw [responsePayload, List.drop_left' (FetchResponseHeader.length_encode _)]
  rw [Consumer.onFetchResponse, if_neg (by rw [hlen]; omega)]
  simp only [hheader, hdrop, Payload.toNat_size]
  rw [if_neg (not_not.2 hlen), List.take_length]
  rfl

/-- The consumer prints the messages of a response, and goes on behind the last one. -/
theorem consume_responseFrames (c : Consumer) (messages : List Record) :
    c.consume (messages.map responseFrame) =
      some (messages.map .ofRecord,
        ⟨messages.foldl (fun _ msg => msg.offset + 1) c.offset,
          c.readCount + messages.length⟩) := by
  induction messages generalizing c with
  | nil => rfl
  | cons msg messages ih =>
    have hop : (responseFrame msg).op = .fetchResponse := rfl
    have hpayload : (responseFrame msg).payload = responsePayload msg := rfl
    rw [List.map_cons, Consumer.consume, if_pos hop, hpayload, onFetchResponse_responsePayload,
      Option.bind_some, ih, Option.map_some, List.map_cons, List.foldl_cons, List.length_cons,
      Nat.add_right_comm, Nat.add_assoc]

/-- The broker keeps the same offset with the connection. -/
theorem fetchOffset_fetched (sess : Session) (messages : List Record) :
    (RequestHandler.fetched sess messages).2.fetchOffset =
      messages.foldl (fun _ msg => msg.offset + 1) sess.fetchOffset := by
  rw [RequestHandler.fetched]
  induction messages generalizing sess with
  | nil => rfl
  | cons msg messages ih =>
    rw [List.foldl_cons, List.foldl_cons]
    exact ih { sess with fetchOffset := msg.offset + 1 }

theorem foldl_offset_concat (o : UInt64) (messages : List Record) (msg : Record) :
    (messages ++ [msg]).foldl (fun _ msg => msg.offset + 1) o = msg.offset + 1 := by
  rw [List.foldl_append]
  rfl

/-! ## Messages that can be published -/

/-- The payload can be published by a `PUBLISH` frame within the limit: it follows the header of
    the request, in a frame whose length fits the length field. -/
def Publishable (maxFrameSize : UInt64) (payload : Payload) : Prop :=
  ∃ m : Message 4, m.tag = Op.publish.toByte ∧ PublishReq.size ≤ m.body.length ∧
    m.body.drop PublishReq.size = payload.bytes ∧ m.body.length + 1 ≤ maxFrameSize.toNat

/-- Such a payload fits the frame of a response, within the same limit. -/
theorem exists_responseMessage {maxFrameSize : UInt64} {msg : Record}
    (h : Publishable maxFrameSize msg.payload) :
    ∃ m : Message 4, Frame.ofMessage m = responseFrame msg ∧
      m.body.length + 1 ≤ maxFrameSize.toNat := by
  obtain ⟨m, -, hsize, hbytes, hmax⟩ := h
  have hlen := congrArg List.length hbytes
  rw [List.length_drop] at hlen
  have hshort : FetchResponseHeader.size ≤ PublishReq.size := by decide
  have hlt := m.length_lt
  have hresp := length_responsePayload msg
  refine ⟨⟨Op.fetchResponse.toByte, responsePayload msg, ?_⟩, rfl, ?_⟩
  · rw [hresp]
    omega
  · rw [hresp]
    omega

theorem exists_responseMessages {maxFrameSize : UInt64} {messages : List Record}
    (h : ∀ msg ∈ messages, Publishable maxFrameSize msg.payload) :
    ∃ ms : List (Message 4), ms.map Frame.ofMessage = messages.map responseFrame ∧
      ∀ m ∈ ms, m.body.length + 1 ≤ maxFrameSize.toNat := by
  induction messages with
  | nil => exact ⟨[], rfl, nofun⟩
  | cons msg messages ih =>
    rw [List.forall_mem_cons] at h
    obtain ⟨m, hm, hmax⟩ := exists_responseMessage h.1
    obtain ⟨ms, hms, hmaxs⟩ := ih h.2
    exact ⟨m :: ms, by rw [List.map_cons, List.map_cons, hm, hms],
      List.forall_mem_cons.2 ⟨hmax, hmaxs⟩⟩

/-- The response for messages found is the frames of the messages. -/
theorem fetched_fst (sess : Session) {messages : List Record} (hne : messages ≠ []) :
    (RequestHandler.fetched sess messages).1 =
      (messages.map responseFrame).flatMap Frame.encode := by
  have hbytes : (messages.map responseFrame).flatMap Frame.encode =
      messages.flatMap RequestHandler.fetchFrame := by
    rw [List.flatMap_map]
    rfl
  obtain ⟨msg, messages, rfl⟩ := List.exists_cons_of_ne_nil hne
  have hframe : RequestHandler.fetchFrame msg ≠ [] := encodeFrame_ne_nil _ _
  rw [hbytes, RequestHandler.fetched, if_neg]
  rw [List.flatMap_cons, List.append_eq_nil_iff]
  exact fun h => hframe h.1

/-- The frames of messages that could be published are decoded, however they are cut. -/
theorem decodeChunks_responseFrames {maxFrameSize : UInt64} {messages : List Record}
    {chunks : List Bytes} (hpub : ∀ msg ∈ messages, Publishable maxFrameSize msg.payload)
    (hcut : chunks.flatten = (messages.map responseFrame).flatMap Frame.encode)
    (hok : ∀ r ∈ FrameDecoder.decodeChunks maxFrameSize chunks, r.1 ≠ -1) :
    (FrameDecoder.decodeChunks maxFrameSize chunks).flatMap (·.2) = messages.map responseFrame := by
  obtain ⟨ms, hms, hmax⟩ := exists_responseMessages hpub
  rw [← hms, Frame.flatMap_encode_map_ofMessage] at hcut
  have hfront : FrameDecoder.Front maxFrameSize ([] ++ chunks.flatten) :=
    ⟨ms, [], by rw [List.nil_append, List.append_nil, hcut], hmax⟩
  obtain ⟨hemit, -⟩ := (FrameDecoder.holds_new maxFrameSize).pushAll hfront hok
  rw [Format.decode_nil, List.map_nil, List.nil_append, List.nil_append, hcut,
    Format.decode_encodeAll, hms] at hemit
  exact hemit

/-- Messages that could be published within a limit are printed as they were fetched: their
    frames keep within the limit too, are decoded in whatever chunks the response comes, and give
    back the offsets, the timestamps and the payloads. The broker and the consumer go on behind the
    last of them. -/
theorem consume_fetched {maxFrameSize : UInt64} {messages : List Record} {last : Record}
    {chunks : List Bytes} (sess : Session) (c : Consumer)
    (hlast : messages.getLast? = some last)
    (hpub : ∀ msg ∈ messages, Publishable maxFrameSize msg.payload)
    (hcut : chunks.flatten = (RequestHandler.fetched sess messages).1)
    (hok : ∀ r ∈ FrameDecoder.decodeChunks maxFrameSize chunks, r.1 ≠ -1) :
    let frames := (FrameDecoder.decodeChunks maxFrameSize chunks).flatMap (·.2)
    c.consume frames = some (messages.map .ofRecord,
        ⟨last.offset + 1, c.readCount + messages.length⟩) ∧
      frames.flatMap Frame.encode = (RequestHandler.fetched sess messages).1 ∧
      (∀ f ∈ frames, f.Fits ∧ f.payload.length + 1 ≤ maxFrameSize.toNat) ∧
      (RequestHandler.fetched sess messages).2.fetchOffset = last.offset + 1 := by
  intro frames
  obtain ⟨front, rfl⟩ := List.getLast?_eq_some_iff.1 hlast
  have hbytes := fetched_fst sess (List.append_ne_nil_of_right_ne_nil front
    (List.cons_ne_nil last []))
  have hframes : frames = (front ++ [last]).map responseFrame :=
    decodeChunks_responseFrames hpub (hcut.trans hbytes) hok
  rw [hframes]
  refine ⟨?_, hbytes.symm, fun f hf => ?_, ?_⟩
  · rw [consume_responseFrames, foldl_offset_concat]
  · obtain ⟨msg, hmsg, rfl⟩ := List.mem_map.1 hf
    obtain ⟨m, hm, hmax⟩ := exists_responseMessage (hpub msg hmsg)
    rw [← hm]
    exact ⟨m.length_lt, hmax⟩
  · rw [fetchOffset_fetched, foldl_offset_concat]

/-- Messages with the payload `[7]`. -/
def seven (offset : UInt64) : Record := ⟨offset, 1700, ⟨[7], Payload.length_seven_lt⟩⟩

/-- It could be published. -/
theorem publishable_seven : Publishable 1048576 (seven 0).payload :=
  ⟨⟨Op.publish.toByte, List.replicate PublishReq.size 0 ++ [7], by decide +kernel⟩, rfl,
    by decide +kernel, by decide +kernel, by decide +kernel⟩

/-- The response to a fetch of two messages, in two chunks. -/
def sevenChunks : List Bytes :=
  let resp := (RequestHandler.fetched {} [seven 3, seven 4]).1
  [resp.take 30, resp.drop 30]

/-- The messages, fetched and received in two chunks. -/
theorem consume_fetched_seven :
    (∀ msg ∈ [seven 3, seven 4], Publishable 1048576 msg.payload) ∧
      (⟨0, 0⟩ : Consumer).consume ((FrameDecoder.decodeChunks 1048576 sevenChunks).flatMap (·.2)) =
        some ([⟨3, 1700, [7]⟩, ⟨4, 1700, [7]⟩], ⟨5, 2⟩) := by
  have hpub : ∀ msg ∈ [seven 3, seven 4], Publishable 1048576 msg.payload :=
    List.forall_mem_cons.2 ⟨publishable_seven, List.forall_mem_singleton.2 publishable_seven⟩
  exact ⟨hpub, (@consume_fetched 1048576 _ (seven 4) sevenChunks {} ⟨0, 0⟩ rfl hpub
    (by simp [sevenChunks]) (by decide +kernel)).1⟩

end Fell.Cli
