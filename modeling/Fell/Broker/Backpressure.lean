import Fell.Broker.Outbound
import Fell.Broker.Parsing

/-!
# Backpressure

When more than 16 MiB are unsent on a connection, `on_readable` has the poller no longer watch it
for input, until `on_writable` has sent everything. But `on_readable` itself goes on: it reads until
the socket has nothing more, whatever is unsent by then.

The life of one connection, with its input in chunks of at most 4096 bytes and any responses to the
requests in them. Deferred acknowledgements are put in the buffer as well, by
`drain_response_queue`, which does not look at how much is unsent.

* `Step.gauged`: what is unsent, and whether reading is disabled, in every step;
* `heeded_iff`: requests are handled too late only by a further `recv` of the same call.
-/

namespace Fell.Broker

open Platform Replication Storage

namespace ConnectionState

variable {c : ConnectionState}

/-- The buffer and the registration with the poller are in order. -/
def Sound (c : ConnectionState) : Prop := c.Delivers c.unsent []

theorem Sound.unsent_finishBatch (h : c.Sound) (resp : Bytes) :
    (c.finishBatch resp).unsent = c.unsent ++ resp :=
  (Delivers.finishBatch h resp).complete

theorem Sound.finishBatch (h : c.Sound) (resp : Bytes) : (c.finishBatch resp).Sound := by
  have hd := Delivers.finishBatch h resp
  rwa [← h.unsent_finishBatch] at hd

theorem Sound.unsent_enqueue (h : c.Sound) (data : Bytes) :
    (c.enqueue data).unsent = c.unsent ++ data :=
  (Delivers.enqueue h data).complete

theorem Sound.enqueue (h : c.Sound) (data : Bytes) : (c.enqueue data).Sound := by
  have hd := Delivers.enqueue h data
  rwa [← h.unsent_enqueue] at hd

theorem length_unsent (c : ConnectionState) :
    c.unsent.length = c.outbound.data.length - c.outbound.writeOffset := List.length_drop

/-- The check at the end of a batch. -/
theorem readDisabled_throttle (c : ConnectionState) :
    c.throttle.readDisabled = true ↔
      c.readDisabled = true ∨ backpressureThreshold < c.unsent.length := by
  rw [throttle, length_unsent]
  split_ifs with h
  · exact iff_of_true rfl (.inr h.1)
  · refine ⟨.inl, fun hor => hor.elim (fun h => h) fun hlt => ?_⟩
    exact Bool.eq_true_of_not_eq_false fun hfalse => h ⟨hlt, hfalse⟩

/-- Reading is disabled when more is unsent than the threshold at the end of a batch. -/
theorem Sound.readDisabled_finishBatch (h : c.Sound) (resp : Bytes) :
    (c.finishBatch resp).readDisabled = true ↔
      c.readDisabled = true ∨ backpressureThreshold < (c.unsent ++ resp).length := by
  rw [ConnectionState.finishBatch, readDisabled_throttle]
  split_ifs with hresp
  · rw [hresp, List.append_nil]
  · rw [h.unsent_enqueue]
    rfl

/-- What `on_writable` does: everything is sent, and reading is enabled, or something is left. -/
theorem Sound.onWritable (h : c.Sound) {sent : ℕ} (hsent : sent ≤ c.unsent.length) :
    (c.onWritable sent).Sound ∧
      ((c.onWritable sent).unsent = [] ∨
        (c.onWritable sent).readDisabled = c.readDisabled ∧
          (c.onWritable sent).unsent.length ≤ c.unsent.length) := by
  have hle := h.writeOffset_le
  rw [length_unsent] at hsent
  have hd := Delivers.onWritable h (show c.outbound.writeOffset + sent ≤ c.outbound.data.length by
    omega)
  refine ⟨⟨rfl, hd.writeOffset_le, hd.write, hd.read⟩, ?_⟩
  rw [ConnectionState.onWritable]
  dsimp only
  split_ifs with hall
  · exact .inl rfl
  · refine .inr ⟨rfl, ?_⟩
    rw [length_unsent, length_unsent]
    exact Nat.sub_le_sub_left (Nat.le_add_right _ _) _

end ConnectionState

/-! ## The life of a connection -/

/-- Where the event loop is with the connection. -/
inductive Phase
  | idle
  /-- In `on_readable`, before the first `recv`. -/
  | entered
  /-- In `on_readable`, after a `recv`. -/
  | again
  deriving DecidableEq

/-- A connection. -/
structure Reader where
  conn : ConnectionState
  phase : Phase
  /-- More than the threshold has been unsent since the buffer was last empty. The source keeps no
      such record. -/
  exceeded : Bool

/-- What is handled after a `recv`. -/
structure Receipt where
  frames : List Frame
  responses : List Bytes
  /-- It is not the first `recv` of the call. -/
  again : Bool
  /-- How much is unsent before, and after. -/
  before : ℕ
  after : ℕ
  exceeded : Bool

namespace Reader

open ConnectionState

variable (s : Reader)

/-- A connection that is accepted. -/
def accepted (id : ℕ) (maxFrameSize : UInt64) : Reader :=
  ⟨{ id, decoder := { maxFrameSize } }, .idle, false⟩

/-- The connection has changed. -/
def set (c : ConnectionState) (phase : Phase) : Reader :=
  ⟨c, phase, decide (c.unsent ≠ [] ∧ (s.exceeded = true ∨ backpressureThreshold < c.unsent.length))⟩

inductive Event
  | received (r : Receipt)
  /-- Deferred responses are put in the buffer, after which so much is unsent. -/
  | drained (after : ℕ)
  | wentOn

/-- The connection after the frames in `data` have been handled. -/
def batch (data : Bytes) (responses : List Bytes) : ConnectionState :=
  { s.conn with decoder := (s.conn.decoder.push data).2.2 }.finishBatch responses.flatten

/-- A step of the event loop at the connection, as long as it is not removed. -/
inductive Step : Event → Reader → Prop
  | readable (hp : s.phase = .idle) (hread : s.conn.interest.read = true) :
      Step .wentOn { s with phase := .entered }
  | receive (data : Bytes) (responses : List Bytes) (hp : s.phase ≠ .idle) (hpos : data ≠ [])
      (hlen : data.length ≤ 4096) (hpush : (s.conn.decoder.push data).1 ≠ -1)
      (hresp : responses.length = (s.conn.decoder.push data).2.1.length) :
      Step
        (.received ⟨(s.conn.decoder.push data).2.1, responses, decide (s.phase = .again),
          s.conn.unsent.length, (s.batch data responses).unsent.length, s.exceeded⟩)
        (s.set (s.batch data responses) .again)
  | wouldBlock (hp : s.phase ≠ .idle) : Step .wentOn { s with phase := .idle }
  | writable {sent : ℕ} (hp : s.phase = .idle) (hsent : sent ≤ s.conn.unsent.length) :
      Step .wentOn (s.set (s.conn.onWritable sent) .idle)
  | drain (data : Bytes) (hp : s.phase = .idle) :
      Step (.drained (s.conn.enqueue data).unsent.length) (s.set (s.conn.enqueue data) .idle)

/-- Deferred responses do not take what is unsent over the threshold while reading is enabled. -/
def Measured : Event → Prop
  | .drained after => after ≤ backpressureThreshold ∨ s.conn.readDisabled = true
  | _ => True

/-- Over the threshold, reading is disabled. -/
structure Gauged : Prop where
  sound : s.conn.Sound
  exceeded : backpressureThreshold < s.conn.unsent.length → s.exceeded = true
  disabled : s.exceeded = true → s.conn.readDisabled = true
  entered : s.phase = .entered → s.exceeded = false
  /-- Nothing is sent in `on_readable`. -/
  again : s.phase = .again → s.exceeded = true → backpressureThreshold < s.conn.unsent.length

variable {s} {s' : Reader} {e : Event} {es : List Event}

theorem exceeded_set (c : ConnectionState) (phase : Phase) : (s.set c phase).exceeded = true ↔
    c.unsent ≠ [] ∧ (s.exceeded = true ∨ backpressureThreshold < c.unsent.length) :=
  decide_eq_true_iff

theorem exceeded_set_of_lt {c : ConnectionState} {phase : Phase}
    (h : backpressureThreshold < c.unsent.length) : (s.set c phase).exceeded = true := by
  refine (exceeded_set c phase).2 ⟨?_, .inr h⟩
  rintro hnil
  rw [hnil] at h
  exact absurd h (Nat.not_lt_zero _)

theorem gauged_accepted (id : ℕ) (maxFrameSize : UInt64) : (accepted id maxFrameSize).Gauged where
  sound := delivers_new id _
  exceeded h := absurd h (Nat.not_lt_zero _)
  disabled := nofun
  entered := nofun
  again := nofun

theorem Gauged.sound_decoder (h : s.Gauged) (decoder : FrameDecoder) :
    { s.conn with decoder := decoder }.Sound := Delivers.congr h.sound rfl

theorem Gauged.unsent_batch (h : s.Gauged) (data : Bytes) (responses : List Bytes) :
    (s.batch data responses).unsent = s.conn.unsent ++ responses.flatten :=
  (h.sound_decoder _).unsent_finishBatch _

theorem Gauged.receive (h : s.Gauged) (hp : s.phase ≠ .idle) (data : Bytes)
    (responses : List Bytes) : (s.set (s.batch data responses) .again).Gauged := by
  have hunsent := h.unsent_batch data responses
  have hdisabled := (h.sound_decoder (s.conn.decoder.push data).2.2).readDisabled_finishBatch
    responses.flatten
  have hlt : (s.set (s.batch data responses) .again).exceeded = true →
      backpressureThreshold < (s.batch data responses).unsent.length := by
    intro hexc
    rcases ((exceeded_set _ _).1 hexc).2 with hbefore | hlt
    · cases hphase : s.phase with
      | idle => exact absurd hphase hp
      | entered => exact absurd hbefore (by rw [h.entered hphase]; exact Bool.false_ne_true)
      | again =>
        rw [hunsent, List.length_append]
        exact Nat.lt_add_right _ (h.again hphase hbefore)
    · exact hlt
  exact
    { sound := (h.sound_decoder _).finishBatch _
      exceeded := exceeded_set_of_lt
      disabled := fun hexc => hdisabled.2 (.inr (hunsent ▸ hlt hexc))
      entered := nofun
      again := fun _ => hlt }

theorem Gauged.writable (h : s.Gauged) {sent : ℕ} (hsent : sent ≤ s.conn.unsent.length) :
    (s.set (s.conn.onWritable sent) .idle).Gauged := by
  obtain ⟨hsound, hunsent⟩ := h.sound.onWritable hsent
  refine ⟨hsound, exceeded_set_of_lt, fun hexc => ?_, nofun, nofun⟩
  obtain ⟨hne, hor⟩ := (exceeded_set _ _).1 hexc
  obtain ⟨hsame, hle⟩ := hunsent.resolve_left hne
  exact hsame.trans (h.disabled (hor.elim (fun h => h) fun hlt => h.exceeded (hlt.trans_le hle)))

theorem Gauged.drain (h : s.Gauged) {data : Bytes}
    (hg : s.Measured (.drained (s.conn.enqueue data).unsent.length)) :
    (s.set (s.conn.enqueue data) .idle).Gauged := by
  refine ⟨h.sound.enqueue data, exceeded_set_of_lt, fun hexc => ?_, nofun, nofun⟩
  rcases ((exceeded_set _ _).1 hexc).2 with hbefore | hlt
  · exact h.disabled hbefore
  · exact hg.resolve_left (Nat.not_le.2 hlt)

/-- Every step keeps to it, if deferred responses do. -/
theorem Step.gauged (hst : Guarded Step Measured s e s') (h : s.Gauged) : s'.Gauged := by
  obtain ⟨hst, hg⟩ := hst
  cases hst with
  | readable hp hread =>
    have hnot : s.exceeded = false := by
      refine Bool.eq_false_of_not_eq_true fun hnot => ?_
      exact absurd ((h.sound.read.1 hread).symm.trans (h.disabled hnot)) Bool.false_ne_true
    exact ⟨h.sound, h.exceeded, h.disabled, fun _ => hnot, nofun⟩
  | receive data responses hp => exact h.receive hp data responses
  | wouldBlock hp => exact ⟨h.sound, h.exceeded, h.disabled, nofun, nofun⟩
  | writable hp hsent => exact h.writable hsent
  | drain data hp => exact h.drain hg

end Reader

/-- The backpressure is heeded: requests are only handled if no more than the threshold has been
    unsent since the buffer was last empty, and no more is unsent afterwards than the threshold and
    the responses to them. -/
def Receipt.Heeded (r : Receipt) : Prop :=
  r.frames ≠ [] → r.exceeded = false ∧
    r.after ≤ ConnectionState.backpressureThreshold + r.responses.flatten.length

/-- A further `recv` of a call has only requests if no more than the threshold is unsent. -/
def Receipt.InTime (r : Receipt) : Prop :=
  r.again = true → r.frames ≠ [] → r.before ≤ ConnectionState.backpressureThreshold

namespace Reader

open ConnectionState

variable {s s' : Reader} {e : Event} {es : List Event}

theorem Step.heeded_iff_inTime {r : Receipt} (hst : Step s (.received r) s') (h : s.Gauged) :
    r.Heeded ↔ r.InTime := by
  generalize he : Event.received r = e at hst
  cases hst with
  | receive data responses hp =>
    cases he
    constructor
    · intro hheeded hagain hframes
      refine Nat.le_of_not_lt fun hlt => ?_
      exact Bool.false_ne_true ((hheeded hframes).1.symm.trans (h.exceeded hlt))
    · intro htime hframes
      have hnot : s.exceeded = false := by
        refine Bool.eq_false_of_not_eq_true fun hnot => ?_
        cases hphase : s.phase with
        | idle => exact hp hphase
        | entered => exact Bool.false_ne_true ((h.entered hphase).symm.trans hnot)
        | again =>
          exact absurd (h.again hphase hnot)
            (Nat.not_lt.2 (htime (decide_eq_true hphase) hframes))
      refine ⟨hnot, ?_⟩
      have hle : s.conn.unsent.length ≤ backpressureThreshold :=
        Nat.le_of_not_lt fun hlt => Bool.false_ne_true (hnot.symm.trans (h.exceeded hlt))
      change (s.batch data responses).unsent.length ≤ _
      rw [h.unsent_batch, List.length_append]
      exact Nat.add_le_add_right hle _
  | _ => cases he

theorem Run.gauged {id : ℕ} {maxFrameSize : UInt64}
    (hrun : Run (Guarded Step Measured) (accepted id maxFrameSize) es s) : s.Gauged :=
  hrun.invariant (gauged_accepted id maxFrameSize) fun _ h hst => Step.gauged hst h

/-- The backpressure is heeded in every run in which it is heeded by each call of `on_readable`. -/
theorem heeded_iff {id : ℕ} {maxFrameSize : UInt64}
    (hrun : Run (Guarded Step Measured) (accepted id maxFrameSize) es s) :
    (∀ r, .received r ∈ es → r.Heeded) ↔ ∀ r, .received r ∈ es → r.InTime := by
  refine forall_congr' fun r => imp_congr_right fun hmem => ?_
  obtain ⟨es₁, t, t', es₂, -, hrun₁, hst, -⟩ := hrun.exists_step hmem
  exact hst.1.heeded_iff_inTime (Run.gauged hrun₁)

/-! ## Two requests -/

/-- The bytes of a `FETCH` request. -/
def fetchBytes : Bytes := RequestHandler.fetchFirst.encode

/-- A response that is larger than the threshold. -/
def large : Bytes := List.replicate (backpressureThreshold + 1) 0

theorem length_large : large.length = backpressureThreshold + 1 := List.length_replicate

theorem length_fetchBytes : fetchBytes.length = 273 := by decide +kernel

theorem push_fetchBytes {d : FrameDecoder} (h : d.Holds 4096 []) :
    ∃ d' : FrameDecoder, d'.Holds 4096 [] ∧
      d.push fetchBytes = (1, [RequestHandler.fetchFirst], d') := by
  have hlen : RequestHandler.fetchFirst.payload.length = 268 := by decide +kernel
  let m : Message 4 := ⟨Op.fetch.toByte, RequestHandler.fetchFirst.payload, by rw [hlen]; decide⟩
  have hbytes : fetchBytes = (lengthPrefixed 4).encodeAll [m] :=
    (Frame.encode_ofMessage m).trans (List.append_nil _).symm
  rw [hbytes]
  refine h.push_encodeAll (List.forall_mem_singleton.2 ?_) ?_
  · rw [hlen]
    decide
  · rw [← hbytes, length_fetchBytes]
    decide

/-- A request that is received whole. -/
theorem step_fetchFirst {s : Reader} (hp : s.phase ≠ .idle)
    (hdecoder : s.conn.decoder.Holds 4096 []) (response : Bytes) :
    ∃ s', Guarded Step Measured s
        (.received ⟨[RequestHandler.fetchFirst], [response], decide (s.phase = .again),
          s.conn.unsent.length, s'.conn.unsent.length, s.exceeded⟩) s' ∧
      s'.phase = .again ∧ s'.conn.decoder.Holds 4096 [] ∧
      (s.Gauged → s'.conn.unsent.length = s.conn.unsent.length + response.length) := by
  obtain ⟨d, hd, hpush⟩ := push_fetchBytes hdecoder
  have hst := Step.receive fetchBytes [response] hp (List.ne_nil_of_length_pos (by
    rw [length_fetchBytes]; decide)) (by rw [length_fetchBytes]; decide)
    (by rw [hpush]; exact (by decide : (1 : ℤ) ≠ -1)) (by rw [hpush]; rfl)
  rw [hpush] at hst
  refine ⟨s.set (s.batch fetchBytes [response]) .again, ⟨hst, trivial⟩, rfl, ?_, fun h => ?_⟩
  · change (s.batch fetchBytes [response]).decoder.Holds 4096 []
    rwa [batch, decoder_finishBatch, hpush]
  · change (s.batch fetchBytes [response]).unsent.length = _
    rw [h.unsent_batch, List.length_append, List.flatten_singleton]

/-- A new connection on which a request arrives. -/
theorem exists_run_fetchFirst (response : Bytes) :
    ∃ e s, Run (Guarded Step Measured) (accepted 0 4096) [.wentOn, e] s ∧
      s.phase = .again ∧ s.conn.decoder.Holds 4096 [] ∧
      s.conn.unsent.length = response.length := by
  have henter : Guarded Step Measured (accepted 0 4096) .wentOn
      { accepted 0 4096 with phase := .entered } := ⟨.readable rfl rfl, trivial⟩
  obtain ⟨s, hst, hphase, hdecoder, hunsent⟩ := @step_fetchFirst
    { accepted 0 4096 with phase := .entered } nofun (FrameDecoder.holds_new 4096) response
  refine ⟨_, s, (Run.single henter).snoc hst, hphase, hdecoder, ?_⟩
  rw [hunsent (Run.gauged (Run.single henter))]
  exact Nat.zero_add _

/-- Two requests arrive in one call of `on_readable`, and the response to the first is larger than
    the threshold. -/
theorem exists_run_twoRequests :
    ∃ es s r, Run (Guarded Step Measured) (accepted 0 4096) es s ∧ .received r ∈ es ∧
      r.again = true ∧ r.frames ≠ [] ∧ backpressureThreshold < r.before ∧ r.exceeded = true ∧
      backpressureThreshold + r.responses.flatten.length < r.after := by
  obtain ⟨e, s₁, hrun, hphase, hdecoder, hunsent⟩ := exists_run_fetchFirst large
  obtain ⟨s₂, hst, -, -, hunsent'⟩ :=
    step_fetchFirst (by rw [hphase]; decide) hdecoder large
  have hgauged := Run.gauged hrun
  rw [length_large] at hunsent
  have hlt : backpressureThreshold < s₁.conn.unsent.length := by omega
  refine ⟨_, s₂, _, hrun.snoc hst, List.mem_append_right _ (List.mem_singleton_self _),
    decide_eq_true hphase, by simp, hlt, hgauged.exceeded hlt, ?_⟩
  change _ + [large].flatten.length < s₂.conn.unsent.length
  rw [hunsent' hgauged, hunsent, List.flatten_singleton]
  omega

/-- The second of the requests is handled although the response to the first is unsent. -/
theorem not_heeded_twoRequests :
    ∃ es s r, Run (Guarded Step Measured) (accepted 0 4096) es s ∧ .received r ∈ es ∧
      r.frames ≠ [] ∧ r.exceeded = true ∧
      backpressureThreshold + r.responses.flatten.length < r.after := by
  obtain ⟨es, s, r, hrun, hmem, -, hframes, -, hexceeded, hafter⟩ := exists_run_twoRequests
  exact ⟨es, s, r, hrun, hmem, hframes, hexceeded, hafter⟩

theorem heeded_iff_twoRequests :
    ∃ es s, Run (Guarded Step Measured) (accepted 0 4096) es s ∧
      (¬∀ r, .received r ∈ es → r.InTime) ∧
      ((∀ r, .received r ∈ es → r.Heeded) ↔ ∀ r, .received r ∈ es → r.InTime) := by
  obtain ⟨es, s, r, hrun, hmem, hagain, hframes, hbefore, -⟩ := exists_run_twoRequests
  exact ⟨es, s, hrun, fun h => Nat.not_le.2 hbefore (h r hmem hagain hframes), heeded_iff hrun⟩

end Reader

end Fell.Broker
