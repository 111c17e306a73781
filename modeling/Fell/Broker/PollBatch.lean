import Fell.Broker.Outbound

/-!
# A batch of events

`poller_->wait` returns events with the pointers that the sockets were registered with, and flags.
The event loop calls `on_hangup`, or `on_readable` and then `on_writable`, as the flags say. Each of
them may remove the connection, which frees it (`ConnectionManager::remove`); the event loop does
not look up the connection again.

An access to a connection is recorded with whether it is still in the `ConnectionManager`. What
follows from an access to one that is not there is not defined, and not modelled.

* `process_safe_iff`: when an event touches its connection after its end;
* `safe_iff_not_dangling`: when a batch of events does.
-/

namespace Fell.Broker

open Platform Replication Storage

/-- A pointer to a connection: its descriptor, and its number. -/
structure Ctx where
  fd : ℤ
  id : ℕ

/-- A result of `recv`. -/
inductive Recv
  | closed
  | failed
  | wouldBlock
  /-- Bytes, and the responses to the requests that they complete. -/
  | data (chunk : Bytes) (responses : List Bytes)

/-- A result of `send`. -/
inductive SendResult
  | sent (n : ℕ)
  | wouldBlock
  | failed
  deriving DecidableEq

/-- A poll event for a connection, with what happens at the socket. -/
structure ConnEvent where
  ctx : Ctx
  hup : Bool
  read : Bool
  write : Bool
  /-- The results of `recv`, up to one that ends the loop. After the last one, it would block. -/
  recvs : List Recv
  send : SendResult

/-- An access to a connection, and whether it is there. -/
structure Touch where
  ctx : Ctx
  live : Bool

/-- The connections, and the accesses to them. -/
structure Polled where
  conns : ℤ → Option ConnectionState
  opened : ℕ
  maxFrameSize : UInt64
  touches : List Touch

namespace Polled

/-- The pointer is to a connection that is in the `ConnectionManager`. -/
def live (s : Polled) (ctx : Ctx) : Bool :=
  match s.conns ctx.fd with
  | none => false
  | some c => c.id = ctx.id

def touch (s : Polled) (ctx : Ctx) : Polled :=
  { s with touches := s.touches ++ [⟨ctx, s.live ctx⟩] }

def setConn (s : Polled) (fd : ℤ) (c : ConnectionState) : Polled :=
  { s with conns := Function.update s.conns fd (some c) }

/-- `ConnectionManager::add`, of a descriptor that has no connection. -/
def add (s : Polled) (fd : ℤ) : Polled :=
  { s.setConn fd { id := s.opened, decoder := { maxFrameSize := s.maxFrameSize } } with
    opened := s.opened + 1 }

/-- `ConnectionManager::remove`. -/
def remove (s : Polled) (fd : ℤ) : Polled := { s with conns := Function.update s.conns fd none }

/-- `on_hangup`. -/
def onHangup (s : Polled) (ctx : Ctx) : Polled := (s.touch ctx).remove ctx.fd

/-- `on_readable`. -/
def onReadable (ctx : Ctx) : List Recv → Polled → Polled
  | [], s => s.touch ctx
  | .wouldBlock :: _, s => s.touch ctx
  | .closed :: _, s => (s.touch ctx).onHangup ctx
  | .failed :: _, s => (s.touch ctx).onHangup ctx
  | .data chunk responses :: recvs, s =>
    match s.conns ctx.fd with
    | none => s.touch ctx
    | some c =>
      let r := c.decoder.push chunk
      if r.1 = -1 then (s.touch ctx).onHangup ctx
      else
        onReadable ctx recvs ((s.touch ctx).setConn ctx.fd
          ({ c with decoder := r.2.2 }.finishBatch responses.flatten))

/-- `on_writable`. -/
def onWritable (s : Polled) (ctx : Ctx) (send : SendResult) : Polled :=
  match s.conns ctx.fd with
  | none => s.touch ctx
  | some c =>
    if c.unsent = [] then (s.touch ctx).setConn ctx.fd (c.onWritable 0)
    else
      match send with
      | .sent n => (s.touch ctx).setConn ctx.fd (c.onWritable (min n c.unsent.length))
      | .wouldBlock => (s.touch ctx).setConn ctx.fd (c.onWritable 0)
      | .failed => (s.touch ctx).onHangup ctx

/-- The branch of `event_loop` for a connection. -/
def process (s : Polled) (e : ConnEvent) : Polled :=
  if e.hup then s.onHangup e.ctx
  else
    let s := if e.read then onReadable e.ctx e.recvs s else s
    if e.write then s.onWritable e.ctx e.send else s

/-- All accesses are to connections that are there. -/
def Safe (s : Polled) : Prop := ∀ t ∈ s.touches, t.live = true

/-- The connection of the pointer is there. -/
def Holds (s : Polled) (ctx : Ctx) (decoder : FrameDecoder) : Prop :=
  ∃ c, s.conns ctx.fd = some c ∧ c.id = ctx.id ∧ c.decoder = decoder

variable {s s' : Polled} {ctx : Ctx} {d : FrameDecoder}

theorem safe_touch : (s.touch ctx).Safe ↔ s.Safe ∧ s.live ctx = true := by
  simp only [Safe, touch, List.forall_mem_append, List.forall_mem_singleton]

theorem Holds.live (h : s.Holds ctx d) : s.live ctx = true := by
  obtain ⟨c, hc, hid, -⟩ := h
  rw [Polled.live, hc]
  exact decide_eq_true hid

theorem live_of_conns_eq_none (h : s.conns ctx.fd = none) : s.live ctx = false := by
  rw [live, h]

theorem Holds.safe_touch (h : s.Holds ctx d) : (s.touch ctx).Safe ↔ s.Safe := by
  rw [Polled.safe_touch, and_iff_left h.live]

theorem Holds.safe_onHangup (h : s.Holds ctx d) : (s.onHangup ctx).Safe ↔ s.Safe := h.safe_touch

/-- The bytes received, or the end of the connection, make `on_readable` remove it. -/
def hangsUp : FrameDecoder → List Recv → Bool
  | _, [] => false
  | _, .wouldBlock :: _ => false
  | _, .closed :: _ => true
  | _, .failed :: _ => true
  | d, .data chunk _ :: recvs => (d.push chunk).1 = -1 || hangsUp (d.push chunk).2.2 recvs

theorem Holds.touch (h : s.Holds ctx d) : (s.touch ctx).Holds ctx d := h

theorem Holds.setConn {c : ConnectionState} (hid : c.id = ctx.id) :
    (s.setConn ctx.fd c).Holds ctx c.decoder :=
  ⟨c, Function.update_self _ _ _, hid, rfl⟩

theorem conns_setConn_of_ne {fd fd' : ℤ} (hne : fd' ≠ fd) (c : ConnectionState) :
    (s.setConn fd c).conns fd' = s.conns fd' := Function.update_of_ne hne _ _

theorem conns_onHangup_of_ne {fd : ℤ} (hne : fd ≠ ctx.fd) :
    (s.onHangup ctx).conns fd = s.conns fd := Function.update_of_ne hne _ _

/-- `on_readable` is only concerned with its connection. -/
theorem conns_onReadable_of_ne {fd : ℤ} (hne : fd ≠ ctx.fd) (recvs : List Recv) :
    (onReadable ctx recvs s).conns fd = s.conns fd := by
  induction recvs generalizing s with
  | nil => rfl
  | cons r recvs ih =>
    cases r with
    | wouldBlock => rfl
    | closed => exact conns_onHangup_of_ne hne
    | failed => exact conns_onHangup_of_ne hne
    | data chunk responses =>
      rw [onReadable]
      split
      · rfl
      · dsimp only
        split
        · exact conns_onHangup_of_ne hne
        · rw [ih]
          exact conns_setConn_of_ne hne _

theorem conns_onWritable_of_ne {fd : ℤ} (hne : fd ≠ ctx.fd) (send : SendResult) :
    (s.onWritable ctx send).conns fd = s.conns fd := by
  rw [onWritable]
  split
  · rfl
  · split
    · exact conns_setConn_of_ne hne _
    · split
      · exact conns_setConn_of_ne hne _
      · exact conns_setConn_of_ne hne _
      · exact conns_onHangup_of_ne hne

theorem conns_process_of_ne {e : ConnEvent} {fd : ℤ} (hne : fd ≠ e.ctx.fd) :
    (s.process e).conns fd = s.conns fd := by
  rw [process]
  split
  · exact conns_onHangup_of_ne hne
  · have hread : (if e.read = true then onReadable e.ctx e.recvs s else s).conns fd =
        s.conns fd := by
      split
      · exact conns_onReadable_of_ne hne _
      · rfl
    dsimp only
    split
    · rw [conns_onWritable_of_ne hne, hread]
    · exact hread

/-- Inside `on_readable`, the connection is there until it is removed. -/
theorem Holds.onReadable (h : s.Holds ctx d) (recvs : List Recv) :
    ((onReadable ctx recvs s).Safe ↔ s.Safe) ∧
      ((hangsUp d recvs = true ∧ (Polled.onReadable ctx recvs s).conns ctx.fd = none) ∨
        (hangsUp d recvs = false ∧ ∃ d', (Polled.onReadable ctx recvs s).Holds ctx d')) := by
  induction recvs generalizing s d with
  | nil => exact ⟨h.safe_touch, .inr ⟨rfl, d, h⟩⟩
  | cons r recvs ih =>
    have hremoved : ((s.touch ctx).onHangup ctx).conns ctx.fd = none := Function.update_self _ _ _
    have hsafe : ((s.touch ctx).onHangup ctx).Safe ↔ s.Safe :=
      h.touch.safe_onHangup.trans h.safe_touch
    cases r with
    | wouldBlock => exact ⟨h.safe_touch, .inr ⟨rfl, d, h⟩⟩
    | closed => exact ⟨hsafe, .inl ⟨rfl, hremoved⟩⟩
    | failed => exact ⟨hsafe, .inl ⟨rfl, hremoved⟩⟩
    | data chunk responses =>
      obtain ⟨c, hc, hid, rfl⟩ := id h
      rw [Polled.onReadable, hc, hangsUp]
      dsimp only
      split
      · rename_i hpush
        exact ⟨hsafe, .inl ⟨by simp [hpush], hremoved⟩⟩
      · rename_i hpush
        have hset : ((s.touch ctx).setConn ctx.fd
            ({ c with decoder := (c.decoder.push chunk).2.2 }.finishBatch
              responses.flatten)).Holds ctx (c.decoder.push chunk).2.2 := by
          have hholds := @Holds.setConn (s.touch ctx) ctx
            ({ c with decoder := (c.decoder.push chunk).2.2 }.finishBatch responses.flatten)
            (by rw [ConnectionState.id_finishBatch]; exact hid)
          rwa [ConnectionState.decoder_finishBatch] at hholds
        obtain ⟨hsafe', hcases⟩ := ih hset
        rw [decide_eq_false hpush, Bool.false_or]
        exact ⟨hsafe'.trans h.safe_touch, hcases⟩

theorem Holds.safe_onWritable (h : s.Holds ctx d) (send : SendResult) :
    (s.onWritable ctx send).Safe ↔ s.Safe := by
  obtain ⟨c, hc, -⟩ := id h
  rw [onWritable, hc]
  dsimp only
  split
  · exact h.safe_touch
  · split
    · exact h.safe_touch
    · exact h.safe_touch
    · exact h.touch.safe_onHangup.trans h.safe_touch

/-- `on_writable` for a connection that has been removed. -/
theorem not_safe_onWritable (h : s.conns ctx.fd = none) (send : SendResult) :
    ¬(s.onWritable ctx send).Safe := by
  rw [onWritable, h]
  intro hsafe
  exact Bool.false_ne_true ((live_of_conns_eq_none h).symm.trans (safe_touch.1 hsafe).2)

end Polled

/-- The event is for reading and for writing, and reading removes the connection. -/
def ConnEvent.Dangles (e : ConnEvent) (d : FrameDecoder) : Prop :=
  e.hup = false ∧ e.read = true ∧ e.write = true ∧ Polled.hangsUp d e.recvs = true

namespace Polled

variable {s s' : Polled} {d : FrameDecoder}

/-- An event touches its connection after its end if it dangles. -/
theorem process_safe_iff {e : ConnEvent} (h : s.Holds e.ctx d) :
    (s.process e).Safe ↔ s.Safe ∧ ¬e.Dangles d := by
  rw [process, ConnEvent.Dangles]
  cases hhup : e.hup with
  | true => simp [h.safe_onHangup]
  | false =>
    obtain ⟨hsafe, hcases⟩ := h.onReadable e.recvs
    cases hread : e.read with
    | false =>
      cases hwrite : e.write with
      | false => simp
      | true => simp [h.safe_onWritable]
    | true =>
      cases hwrite : e.write with
      | false => simp [hsafe]
      | true =>
        rcases hcases with ⟨hup, hnone⟩ | ⟨hup, d', hholds⟩
        · simp [hup, not_safe_onWritable hnone]
        · simp [hup, hholds.safe_onWritable, hsafe]

/-! ## Batches -/

/-- `PollEvent`. -/
inductive PollEvent
  /-- The other end of the notification pipe has been written to. -/
  | notified
  /-- The listening socket has a connection, with this descriptor. -/
  | accept (fd : ℤ)
  | conn (e : ConnEvent)

/-- The descriptor of the connection that an event is for. -/
def PollEvent.fd? : PollEvent → Option ℤ
  | .conn e => some e.ctx.fd
  | _ => none

/-- An event is processed. A descriptor that the system gives to a new connection is not that of
    another one. -/
inductive Step (s : Polled) : PollEvent → Polled → Prop
  | notified : Step s .notified s
  | accept {fd : ℤ} (hfd : s.conns fd = none) : Step s (.accept fd) (s.add fd)
  | conn (e : ConnEvent) : Step s (.conn e) (s.process e)

/-- Each event is for a connection that is there before the batch, and no two are for the same. -/
structure Announced (s : Polled) (es : List PollEvent) : Prop where
  conns : ∀ e, .conn e ∈ es → ∃ d, s.Holds e.ctx d
  nodup : (es.filterMap PollEvent.fd?).Nodup

/-- An event in a batch dangles, by the decoder that its connection has before the batch. -/
def Dangling (s : Polled) (es : List PollEvent) : Prop :=
  ∃ e, .conn e ∈ es ∧ ∃ c, s.conns e.ctx.fd = some c ∧ e.Dangles c.decoder

variable {es : List PollEvent}

theorem Announced.of_snoc {e : PollEvent} (h : s.Announced (es ++ [e])) : s.Announced es where
  conns e' he' := h.conns e' (List.mem_append_left _ he')
  nodup := by
    have hnodup := h.nodup
    rw [List.filterMap_append] at hnodup
    exact hnodup.of_append_left

/-- Events leave other connections alone. -/
theorem Run.conns_of_not_mem (hrun : Run Step s es s') {fd : ℤ} {c : ConnectionState}
    (hc : s.conns fd = some c) (hfd : fd ∉ es.filterMap PollEvent.fd?) :
    s'.conns fd = some c := by
  induction hrun with
  | nil => exact hc
  | @snoc es t t' e hrun hst ih =>
    rw [List.filterMap_append, List.mem_append, not_or] at hfd
    have ht := ih hfd.1
    cases hst with
    | notified => exact ht
    | @accept fd' hfd' =>
      have hne : fd ≠ fd' := by
        rintro rfl
        exact absurd (hfd'.symm.trans ht) nofun
      exact (conns_setConn_of_ne hne _).trans ht
    | conn e =>
      have hne : fd ≠ e.ctx.fd := fun heq => hfd.2 (by simp [PollEvent.fd?, heq])
      exact (conns_process_of_ne hne).trans ht

theorem dangling_snoc {e : PollEvent} :
    s.Dangling (es ++ [e]) ↔ s.Dangling es ∨ s.Dangling [e] := by
  simp only [Dangling, List.mem_append, or_and_right, exists_or]

/-- A batch only touches connections that are there, unless an event dangles. -/
theorem safe_iff_not_dangling (hrun : Run Step s es s') (hes : s.Announced es)
    (hnew : s.touches = []) : s'.Safe ↔ ¬s.Dangling es := by
  induction hrun with
  | nil =>
    refine iff_of_true (fun t ht => ?_) fun ⟨e, he, _⟩ => absurd he List.not_mem_nil
    rw [hnew] at ht
    exact absurd ht List.not_mem_nil
  | @snoc es t t' e hrun hst ih =>
    have hsafe := ih hes.of_snoc
    rw [dangling_snoc, not_or, ← hsafe]
    cases hst with
    | notified => simp [Dangling]
    | accept hfd => simp [Dangling, Safe, add, setConn]
    | conn e =>
      obtain ⟨d, c, hc, hid, rfl⟩ :=
        hes.conns e (List.mem_append_right _ (List.mem_singleton_self _))
      have hfd : e.ctx.fd ∉ es.filterMap PollEvent.fd? := by
        have hnodup := hes.nodup
        rw [List.filterMap_append, List.nodup_append] at hnodup
        intro hmem
        exact hnodup.2.2 _ hmem _ (by simp [PollEvent.fd?]) rfl
      have hholds : t.Holds e.ctx c.decoder := ⟨c, Run.conns_of_not_mem hrun hc hfd, hid, rfl⟩
      rw [process_safe_iff hholds]
      simp [Dangling, hc]

/-- A connection whose client has closed its side, and which can be written to. -/
def halfClosed : ConnEvent where
  ctx := ⟨5, 0⟩
  hup := false
  read := true
  write := true
  recvs := [.closed]
  send := .wouldBlock

/-- One connection, just accepted. -/
def alone : Polled where
  conns := Function.update (fun _ => none) 5 (some { id := 0, decoder := { maxFrameSize := 4096 } })
  opened := 1
  maxFrameSize := 4096
  touches := []

theorem announced_alone (e : ConnEvent) (he : e.ctx = ⟨5, 0⟩) : alone.Announced [.conn e] where
  conns e' he' := by
    cases List.mem_singleton.1 he'
    rw [he]
    exact ⟨_, _, rfl, rfl, rfl⟩
  nodup := List.nodup_singleton _

/-- `on_writable` is called for the connection that `on_readable` has removed. -/
theorem not_safe_halfClosed : alone.Announced [.conn halfClosed] ∧
    ∃ s, Run Step alone [.conn halfClosed] s ∧ ¬s.Safe := by
  refine ⟨announced_alone _ rfl, _, .single (.conn halfClosed), ?_⟩
  rw [process_safe_iff ⟨_, rfl, rfl, rfl⟩]
  exact fun h => h.2 ⟨rfl, rfl, rfl, rfl⟩

theorem safe_iff_alone :
    ∃ s, Run Step alone [.conn { halfClosed with write := false }] s ∧
      (s.Safe ↔ ¬alone.Dangling [.conn { halfClosed with write := false }]) :=
  ⟨_, .single (.conn _), safe_iff_not_dangling (.single (.conn _)) (announced_alone _ rfl) rfl⟩

end Polled

end Fell.Broker
