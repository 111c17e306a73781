import Fell.Broker.Delivery

/-!
# The output of a connection

Responses are put in the outbound buffer of a connection by `on_readable` and by
`drain_response_queue`, and sent by `on_writable`, as much at a time as the socket takes. The
registration with the poller is changed by all three.

What was sent on a connection is no part of the broker's state. `Wired` is the broker with a record
of it, and of what was put in the buffers.

* `Delivers.enqueue`, `Delivers.throttle`, `Delivers.onWritable`: what each of the three does;
* `Step.output_cases`: the steps of the broker, as what they do to the buffers;
* `output_delivered`: nothing is lost, sent twice or out of order, and what is unsent is waited for.
-/

namespace Fell.Broker

open Platform Replication Storage

namespace ConnectionState

variable (c : ConnectionState)

/-- The bytes in the outbound buffer that are not sent. -/
def unsent : Bytes := c.outbound.data.drop c.outbound.writeOffset

/-- What is sent and what is unsent is what was enqueued, the poller watches for the socket to take
    more as long as there is more, and for input unless reading is disabled. -/
structure Delivers (enqueued sent : Bytes) : Prop where
  complete : sent ++ c.unsent = enqueued
  writeOffset_le : c.outbound.writeOffset ≤ c.outbound.data.length
  write : c.unsent ≠ [] → c.interest.write = true
  read : c.interest.read = true ↔ c.readDisabled = false

/-- The part of the connection that is about its output. -/
def output : OutboundState × Bool × Interest := (c.outbound, c.readDisabled, c.interest)

variable {c} {c' : ConnectionState} {enqueued sent : Bytes}

theorem Delivers.congr (h : c.Delivers enqueued sent) (heq : c'.output = c.output) :
    c'.Delivers enqueued sent := by
  obtain ⟨hout, hread, hint⟩ : c'.outbound = c.outbound ∧ c'.readDisabled = c.readDisabled ∧
      c'.interest = c.interest := by simpa [output] using heq
  have hunsent : c'.unsent = c.unsent := by rw [unsent, unsent, hout]
  constructor
  · rw [hunsent]
    exact h.complete
  · rw [hout]
    exact h.writeOffset_le
  · rw [hunsent, hint]
    exact h.write
  · rw [hint, hread]
    exact h.read

theorem Delivers.enqueue (h : c.Delivers enqueued sent) (data : Bytes) :
    (c.enqueue data).Delivers (enqueued ++ data) sent where
  complete := by
    rw [← h.complete, unsent, ConnectionState.enqueue,
      List.drop_append_of_le_length h.writeOffset_le, List.append_assoc, unsent]
  writeOffset_le := by
    rw [ConnectionState.enqueue, List.length_append]
    exact Nat.le_add_right_of_le h.writeOffset_le
  write _ := rfl
  read := by
    change (!c.readDisabled) = true ↔ c.readDisabled = false
    rw [Bool.not_eq_true']

theorem Delivers.throttle (h : c.Delivers enqueued sent) : c.throttle.Delivers enqueued sent := by
  rw [ConnectionState.throttle]
  split_ifs
  · exact ⟨h.complete, h.writeOffset_le, fun _ => rfl, iff_of_false Bool.false_ne_true (by simp)⟩
  · exact h

theorem Delivers.finishBatch (h : c.Delivers enqueued sent) (resp : Bytes) :
    (c.finishBatch resp).Delivers (enqueued ++ resp) sent := by
  rw [ConnectionState.finishBatch]
  split_ifs with hnil
  · rw [hnil, List.append_nil]
    exact h.throttle
  · exact (h.enqueue resp).throttle

theorem Delivers.onWritable (h : c.Delivers enqueued sent) {n : ℕ}
    (hn : c.outbound.writeOffset + n ≤ c.outbound.data.length) :
    (c.onWritable n).Delivers enqueued (sent ++ c.unsent.take n) := by
  have hsplit : (sent ++ c.unsent.take n) ++ c.unsent.drop n = enqueued := by
    rw [List.append_assoc, List.take_append_drop, h.complete]
  rw [ConnectionState.onWritable]
  dsimp only
  split_ifs with hall
  · -- All is sent, and the buffer is cleared.
    have hnil : c.unsent.drop n = [] := by
      rw [unsent, List.drop_drop, hall, List.drop_length]
    rw [hnil] at hsplit
    exact ⟨hsplit, Nat.le_refl _, fun hne => absurd rfl hne, iff_of_true rfl rfl⟩
  · rw [unsent, List.drop_drop] at hsplit
    refine ⟨hsplit, hn, fun _ => h.write ?_, h.read⟩
    rw [unsent, ne_eq, List.drop_eq_nil_iff]
    omega

theorem Delivers.unsent_finishBatch (h : c.Delivers enqueued sent) (resp : Bytes) :
    (c.finishBatch resp).unsent = c.unsent ++ resp := by
  have hall := (h.finishBatch resp).complete
  rw [← h.complete, List.append_assoc] at hall
  exact List.append_cancel_left hall

theorem Delivers.unsent_onWritable (h : c.Delivers enqueued sent) {n : ℕ}
    (hn : c.outbound.writeOffset + n ≤ c.outbound.data.length) :
    (c.onWritable n).unsent = c.unsent.drop n := by
  have hall := (h.onWritable hn).complete
  rw [← h.complete, List.append_assoc] at hall
  refine List.append_cancel_left ((List.append_cancel_left hall).trans ?_)
  exact (List.take_append_drop n _).symm

theorem decoder_finishBatch (c : ConnectionState) (resp : Bytes) :
    (c.finishBatch resp).decoder = c.decoder := by
  rw [ConnectionState.finishBatch, ConnectionState.throttle]
  split_ifs <;> rfl

/-- A new connection. -/
theorem delivers_new (id : ℕ) (decoder : FrameDecoder) :
    Delivers { id, decoder } [] [] :=
  ⟨rfl, Nat.le_refl _, fun hne => absurd rfl hne, iff_of_true rfl rfl⟩

end ConnectionState

namespace Serving

variable {κ : Type} {s s' s₀ : Serving κ} {e : Event κ} {es : List (Event κ)}

/-! ## Steps -/

/-- The bytes that are put in the outbound buffer of a connection. -/
def Event.enqueued : Event κ → ℕ → Bytes
  | .flushed id' responses, id => if id' = id then responses.flatMap Reply.bytes else []
  | .drained responses, id => (responses.filter (·.2 = some id)).flatMap (·.1.data)
  | _, _ => []

/-- The socket of the connection on `fd` takes `n` bytes. -/
def Sends (s : Serving κ) (fd : ℤ) (n : ℕ) (e : Event κ) (s' : Serving κ) : Prop :=
  e = .wentOn ∧ ∃ c, s.loop = .polling ∧ s.conns fd = some c ∧
    c.outbound.writeOffset + n ≤ c.outbound.data.length ∧ s' = s.setConn fd (c.onWritable n)

/-- What a step does to the output of the connections. -/
inductive Output (s : Serving κ) : Event κ → Serving κ → Prop
  | same {e : Event κ} {s' : Serving κ} (he : e.enqueued = fun _ => [])
      (hopened : s'.opened = s.opened)
      (hsame : ∀ fd, (s'.conns fd).map (fun c => (c.id, c.output)) =
        (s.conns fd).map fun c => (c.id, c.output)) : Output s e s'
  | accept {fd : ℤ} : Output s (.accepted fd s.opened) (s.addConn fd)
  | hangUp {fd : ℤ} {s' : Serving κ} (hopened : s'.opened = s.opened)
      (hconns : s'.conns = Function.update s.conns fd none) : Output s (.closed fd) s'
  | flush {fd : ℤ} {c : ConnectionState} {responses : List Reply} {s' : Serving κ}
      (hc : s.conns fd = some c) (hopened : s'.opened = s.opened)
      (hconns : s'.conns = Function.update s.conns fd
        (some (c.finishBatch (responses.flatMap Reply.bytes)))) :
      Output s (.flushed c.id responses) s'
  | drain : Output s
      (.drained (s.responseQueue.map fun r => (r, (s.conns r.fd).map ConnectionState.id)))
      s.drainResponseQueue
  | send {fd : ℤ} {n : ℕ} {e : Event κ} {s' : Serving κ} (hsend : s.Sends fd n e s') : Output s e s'

/-- A connection is replaced by one with the same output. -/
theorem Output.setConn {fd : ℤ} {c c' : ConnectionState} (he : e.enqueued = fun _ => [])
    (hc : s.conns fd = some c) (hconns : s'.conns = Function.update s.conns fd (some c'))
    (hopened : s'.opened = s.opened) (hc' : (c'.id, c'.output) = (c.id, c.output)) :
    Output s e s' := by
  refine .same he hopened fun fd' => ?_
  rw [hconns]
  by_cases hfd : fd' = fd
  · rw [hfd, Function.update_self, hc, Option.map_some, Option.map_some, hc']
  · rw [Function.update_of_ne hfd]

theorem Step.output_cases (hst : Step s e s') : Output s e s' := by
  cases hst with
  | accept hl hc => exact .accept
  | hangUp hl => exact .hangUp rfl rfl
  | readable | wouldBlock | manage | register | post | change =>
    exact .same rfl rfl fun _ => rfl
  | refuse | append | appendDeferred | store | lead => exact .same rfl rfl fun _ => rfl
  | receive data hl hc => exact .setConn rfl hc rfl rfl rfl
  | reply hl hc | locate hl hc | subscribe hl hc | fetch hl hc => exact .setConn rfl hc rfl rfl rfl
  | flush hl hc => exact .flush hc rfl rfl
  | drain => exact .drain
  | write n hl hc hn => exact .send ⟨rfl, _, hl, hc, hn, rfl⟩

/-! ## Accounts -/

/-- The connections are numbered below `opened`, each differently, and the output of each is
    accounted for. -/
structure Accounted (conns : ℤ → Option ConnectionState) (opened : ℕ)
    (enqueued sent : ℕ → Bytes) : Prop where
  delivers : ∀ fd, ∀ c ∈ conns fd, c.Delivers (enqueued c.id) (sent c.id)
  id_lt : ∀ fd, ∀ c ∈ conns fd, c.id < opened
  id_inj : ∀ fd fd', ∀ c ∈ conns fd, ∀ c' ∈ conns fd', c.id = c'.id → fd = fd'
  fresh : ∀ id, opened ≤ id → enqueued id = [] ∧ sent id = []

namespace Accounted

variable {conns conns' : ℤ → Option ConnectionState} {opened : ℕ}
  {enqueued sent enqueued' sent' : ℕ → Bytes} {fd : ℤ} {c c' : ConnectionState}

/-- A change that leaves the output of the connections. -/
theorem congr (h : Accounted conns opened enqueued sent)
    (hsame : ∀ fd, (conns' fd).map (fun c => (c.id, c.output)) =
      (conns fd).map fun c => (c.id, c.output)) : Accounted conns' opened enqueued sent := by
  have hback : ∀ fd, ∀ c' ∈ conns' fd, ∃ c ∈ conns fd, c'.id = c.id ∧ c'.output = c.output := by
    intro fd c' hc'
    have hmap := hsame fd
    rw [Option.mem_def.1 hc', Option.map_some, eq_comm, Option.map_eq_some_iff] at hmap
    obtain ⟨c, hc, heq⟩ := hmap
    exact ⟨c, hc, (congrArg Prod.fst heq).symm, (congrArg Prod.snd heq).symm⟩
  constructor
  · intro fd c' hc'
    obtain ⟨c, hc, hid, hout⟩ := hback fd c' hc'
    rw [hid]
    exact (h.delivers fd c hc).congr hout
  · intro fd c' hc'
    obtain ⟨c, hc, hid, -⟩ := hback fd c' hc'
    exact hid ▸ h.id_lt fd c hc
  · intro fd₁ fd₂ c₁' hc₁' c₂' hc₂' heq
    obtain ⟨c₁, hc₁, hid₁, -⟩ := hback fd₁ c₁' hc₁'
    obtain ⟨c₂, hc₂, hid₂, -⟩ := hback fd₂ c₂' hc₂'
    exact h.id_inj fd₁ fd₂ c₁ hc₁ c₂ hc₂ (hid₁ ▸ hid₂ ▸ heq)
  · exact h.fresh

/-- A connection is closed. -/
theorem remove (h : Accounted conns opened enqueued sent) (fd : ℤ) :
    Accounted (Function.update conns fd none) opened enqueued sent := by
  have hback : ∀ fd', ∀ c ∈ Function.update conns fd none fd', c ∈ conns fd' := by
    intro fd' c hc
    by_cases hfd : fd' = fd
    · rw [hfd, Function.update_self] at hc
      cases hc
    · rwa [Function.update_of_ne hfd] at hc
  exact ⟨fun fd' c hc => h.delivers fd' c (hback fd' c hc),
    fun fd' c hc => h.id_lt fd' c (hback fd' c hc),
    fun fd₁ fd₂ c₁ hc₁ c₂ hc₂ => h.id_inj fd₁ fd₂ c₁ (hback fd₁ c₁ hc₁) c₂ (hback fd₂ c₂ hc₂),
    h.fresh⟩

/-- A connection is opened. -/
theorem add (h : Accounted conns opened enqueued sent) (fd : ℤ) (decoder : FrameDecoder) :
    Accounted (Function.update conns fd (some { id := opened, decoder })) (opened + 1) enqueued
      sent := by
  have hback : ∀ fd', ∀ c ∈ Function.update conns fd (some { id := opened, decoder }) fd',
      fd' = fd ∧ c = { id := opened, decoder } ∨ c ∈ conns fd' := by
    intro fd' c hc
    by_cases hfd : fd' = fd
    · rw [hfd, Function.update_self] at hc
      exact .inl ⟨hfd, (Option.some.inj hc).symm⟩
    · rw [Function.update_of_ne hfd] at hc
      exact .inr hc
  constructor
  · intro fd' c hc
    rcases hback fd' c hc with ⟨-, rfl⟩ | hc
    · obtain ⟨henq, hsent⟩ := h.fresh opened (Nat.le_refl _)
      rw [henq, hsent]
      exact ConnectionState.delivers_new _ _
    · exact h.delivers fd' c hc
  · intro fd' c hc
    rcases hback fd' c hc with ⟨-, rfl⟩ | hc
    · exact Nat.lt_succ_self _
    · exact Nat.lt_succ_of_lt (h.id_lt fd' c hc)
  · intro fd₁ fd₂ c₁ hc₁ c₂ hc₂ heq
    rcases hback fd₁ c₁ hc₁ with ⟨hfd₁, rfl⟩ | hc₁ <;>
      rcases hback fd₂ c₂ hc₂ with ⟨hfd₂, rfl⟩ | hc₂
    · exact hfd₁.trans hfd₂.symm
    · exact absurd heq.symm (Nat.ne_of_lt (h.id_lt fd₂ c₂ hc₂))
    · exact absurd heq (Nat.ne_of_lt (h.id_lt fd₁ c₁ hc₁))
    · exact h.id_inj fd₁ fd₂ c₁ hc₁ c₂ hc₂ heq
  · exact fun id hid => h.fresh id (Nat.le_of_succ_le hid)

/-- The output of one connection changes, and its account. -/
theorem replace (h : Accounted conns opened enqueued sent) (hc : conns fd = some c)
    (hid : c'.id = c.id) (hd : c'.Delivers (enqueued' c.id) (sent' c.id))
    (hothers : ∀ id ≠ c.id, enqueued' id = enqueued id ∧ sent' id = sent id) :
    Accounted (Function.update conns fd (some c')) opened enqueued' sent' := by
  have hlt := h.id_lt fd c hc
  have hback : ∀ fd', ∀ d ∈ Function.update conns fd (some c') fd',
      fd' = fd ∧ d = c' ∨ d ∈ conns fd' ∧ d.id ≠ c.id := by
    intro fd' d hd'
    by_cases hfd : fd' = fd
    · rw [hfd, Function.update_self] at hd'
      exact .inl ⟨hfd, (Option.some.inj hd').symm⟩
    · rw [Function.update_of_ne hfd] at hd'
      exact .inr ⟨hd', fun heq => hfd (h.id_inj fd' fd d hd' c hc heq)⟩
  constructor
  · intro fd' d hd'
    rcases hback fd' d hd' with ⟨-, rfl⟩ | ⟨hd', hne⟩
    · rwa [hid]
    · rw [(hothers d.id hne).1, (hothers d.id hne).2]
      exact h.delivers fd' d hd'
  · intro fd' d hd'
    rcases hback fd' d hd' with ⟨-, rfl⟩ | ⟨hd', -⟩
    · exact hid ▸ hlt
    · exact h.id_lt fd' d hd'
  · intro fd₁ fd₂ d₁ hd₁ d₂ hd₂ heq
    rcases hback fd₁ d₁ hd₁ with ⟨hfd₁, rfl⟩ | ⟨hd₁, hne₁⟩ <;>
      rcases hback fd₂ d₂ hd₂ with ⟨hfd₂, rfl⟩ | ⟨hd₂, hne₂⟩
    · exact hfd₁.trans hfd₂.symm
    · exact absurd (heq.symm.trans hid) hne₂
    · exact absurd (heq.trans hid) hne₁
    · exact h.id_inj fd₁ fd₂ d₁ hd₁ d₂ hd₂ heq
  · intro id hid'
    have hne : id ≠ c.id := by omega
    rw [(hothers id hne).1, (hothers id hne).2]
    exact h.fresh id hid'

end Accounted

/-- The response in the queue is put in the buffer of the connection that has its descriptor. -/
theorem Accounted.deliver {enqueued sent : ℕ → Bytes}
    (h : Accounted s.conns s.opened enqueued sent) (r : PendingResponse) :
    Accounted (s.deliver r).conns s.opened
      (fun id => enqueued id ++
        if (s.conns r.fd).map ConnectionState.id = some id then r.data else []) sent := by
  rw [Serving.deliver]
  cases hc : s.conns r.fd with
  | none => simpa using h
  | some c =>
    refine h.replace hc (c.id_enqueue r.data) ?_ fun id hne => ⟨?_, rfl⟩
    · rw [Option.map_some, if_pos rfl]
      exact (h.delivers r.fd c hc).enqueue r.data
    · rw [Option.map_some, if_neg fun heq => hne (Option.some.inj heq).symm, List.append_nil]

theorem enqueued_drained_cons (r : PendingResponse) (o : Option ℕ)
    (rs : List (PendingResponse × Option ℕ)) (id : ℕ) :
    (Event.drained ((r, o) :: rs) : Event κ).enqueued id =
      (if o = some id then r.data else []) ++ (Event.drained rs : Event κ).enqueued id := by
  simp only [Event.enqueued, List.filter_cons, decide_eq_true_eq]
  split_ifs <;> simp

/-- All responses in the queue are. -/
theorem Accounted.foldl_deliver {enqueued sent : ℕ → Bytes}
    (h : Accounted s.conns s.opened enqueued sent) (rs : List PendingResponse) :
    Accounted (rs.foldl Serving.deliver s).conns s.opened
      (fun id => enqueued id ++ (Event.drained (rs.map fun r =>
        (r, (s.conns r.fd).map ConnectionState.id)) : Event κ).enqueued id) sent := by
  induction rs generalizing s enqueued with
  | nil => simpa [Event.enqueued] using h
  | cons r rs ih =>
    -- What is delivered leaves the numbers of the connections.
    obtain ⟨conns, heq, hids⟩ := @Serving.foldl_deliver κ s [r]
    have heq : s.deliver r = { s with conns := conns } := heq
    have hrest := @ih (s.deliver r) _ (by rw [heq]; exact heq ▸ h.deliver r)
    have hopened : (s.deliver r).opened = s.opened := by rw [heq]
    have hconns : ∀ fd, ((s.deliver r).conns fd).map ConnectionState.id =
        (s.conns fd).map ConnectionState.id := fun fd => by rw [heq]; exact hids fd
    simp only [hopened, hconns, List.append_assoc, ← enqueued_drained_cons] at hrest
    exact hrest

/-! ## The broker and what it sends -/

/-- The broker, with a record for each connection of the bytes put in its outbound buffer, and of
    those sent. -/
structure Wired (κ : Type) where
  serving : Serving κ
  enqueued : ℕ → Bytes
  sent : ℕ → Bytes

namespace Wired

/-- At the start, nothing is recorded. -/
def start (s₀ : Serving κ) : Wired κ := ⟨s₀, fun _ => [], fun _ => []⟩

/-- A step: the bytes that the socket takes are sent, or the broker takes another step. -/
inductive Step (w : Wired κ) : Event κ → Wired κ → Prop
  | send {fd : ℤ} {c : ConnectionState} (n : ℕ) (hl : w.serving.loop = .polling)
      (hc : w.serving.conns fd = some c)
      (hn : c.outbound.writeOffset + n ≤ c.outbound.data.length) :
      Step w .wentOn ⟨w.serving.setConn fd (c.onWritable n), w.enqueued,
        Function.update w.sent c.id (w.sent c.id ++ c.unsent.take n)⟩
  | other {e : Event κ} {s' : Serving κ} (hst : Serving.Step w.serving e s')
      (hs : ∀ fd n, ¬w.serving.Sends fd n e s') :
      Step w e ⟨s', fun id => w.enqueued id ++ e.enqueued id, w.sent⟩

variable {w w' : Wired κ}

/-- The record leaves out no step of the broker. -/
theorem exists_step (hst : Serving.Step w.serving e s') : ∃ w', Step w e w' ∧ w'.serving = s' := by
  by_cases hs : ∃ fd n, w.serving.Sends fd n e s'
  · obtain ⟨fd, n, rfl, c, hl, hc, hn, rfl⟩ := hs
    exact ⟨_, .send n hl hc hn, rfl⟩
  · exact ⟨_, .other hst fun fd n hsend => hs ⟨fd, n, hsend⟩, rfl⟩

theorem exists_run (hr : Run Serving.Step s₀ es s) :
    ∃ w, Run Step (start s₀) es w ∧ w.serving = s := by
  induction hr with
  | nil => exact ⟨_, .nil, rfl⟩
  | snoc _ hst ih =>
    obtain ⟨w, hw, rfl⟩ := ih
    obtain ⟨w', hst', rfl⟩ := exists_step hst
    exact ⟨w', hw.snoc hst', rfl⟩

/-- And adds none. -/
theorem Step.serving (hst : Step w e w') : Serving.Step w.serving e w'.serving := by
  cases hst with
  | send n hl hc hn => exact .write n hl hc hn
  | other hst => exact hst

/-- The output of every connection is accounted for. -/
def Sound (w : Wired κ) : Prop := Accounted w.serving.conns w.serving.opened w.enqueued w.sent

theorem sound_start (h : ∀ fd, s₀.conns fd = none) : (start s₀).Sound := by
  have hnone : ∀ fd, ∀ c, c ∉ s₀.conns fd := fun fd c hc => by
    rw [h fd] at hc
    cases hc
  exact ⟨fun fd c hc => absurd hc (hnone fd c), fun fd c hc => absurd hc (hnone fd c),
    fun fd _ c hc => absurd hc (hnone fd c), fun _ _ => ⟨rfl, rfl⟩⟩

theorem Step.sound (hst : Step w e w') (h : w.Sound) : w'.Sound := by
  cases hst with
  | @send fd c n hl hc hn =>
    refine Accounted.replace h hc (c.id_onWritable n) ?_ fun id hne =>
      ⟨rfl, Function.update_of_ne hne _ _⟩
    simp only [Function.update_self]
    exact (h.delivers fd c hc).onWritable hn
  | other hst hs =>
    cases hst.output_cases with
    | same he hopened hsame =>
      simp only [Sound, he, List.append_nil, hopened]
      exact Accounted.congr h hsame
    | accept =>
      simp only [Sound, Event.enqueued, List.append_nil]
      exact Accounted.add h _ _
    | hangUp hopened hconns =>
      simp only [Sound, Event.enqueued, List.append_nil, hopened, hconns]
      exact Accounted.remove h _
    | @flush fd c responses _ hc hopened hconns =>
      simp only [Sound, hopened, hconns]
      refine Accounted.replace h hc (c.id_finishBatch _) ?_ fun id hne => ⟨?_, rfl⟩
      · rw [Event.enqueued, if_pos rfl]
        exact (h.delivers fd c hc).finishBatch _
      · rw [Event.enqueued, if_neg hne.symm, List.append_nil]
    | drain =>
      obtain ⟨conns, hfold, -⟩ :=
        @Serving.foldl_deliver κ { w.serving with responseQueue := [] } w.serving.responseQueue
      have hd := @Accounted.foldl_deliver κ { w.serving with responseQueue := [] } _ _ h
        w.serving.responseQueue
      rw [hfold] at hd
      rw [Sound, drainResponseQueue, hfold]
      exact hd
    | send hsend => exact absurd hsend (hs _ _)

theorem Run.sound (h : ∀ fd, s₀.conns fd = none) (hr : Run Step (start s₀) es w) : w.Sound :=
  hr.invariant (I := fun _ w => w.Sound) (sound_start h) fun _ ih hst => hst.sound ih

/-- In every run, for every connection: the bytes sent so far, followed by those in the outbound
    buffer that are not sent, are the responses put in the buffer, in that order; and the poller
    watches for what the connection waits for. -/
theorem output_delivered (h : ∀ fd, s₀.conns fd = none) (hr : Run Step (start s₀) es w) {fd : ℤ}
    {c : ConnectionState} (hc : w.serving.conns fd = some c) :
    c.Delivers (w.enqueued c.id) (w.sent c.id) :=
  (Run.sound h hr).delivers fd c hc

/-- An acknowledgement is put in the outbound buffer. -/
theorem exists_run_acked : ∃ es w c, Run Step (start (single 1)) es w ∧ w.serving.loop = .polling ∧
    w.serving.conns 5 = some c ∧ 2 ≤ c.unsent.length := by
  obtain ⟨s, hr, h⟩ := run_answered
  obtain ⟨w, hw, rfl⟩ := exists_run hr
  obtain ⟨c, hc, -⟩ := Option.map_eq_some_iff.1 h.conn
  obtain ⟨w₁, hflush, hserving₁⟩ := exists_step (Serving.Step.flush h.loop hc rfl)
  obtain ⟨w₂, hblock, hserving₂⟩ :=
    exists_step (w := w₁) (Serving.Step.wouldBlock (by rw [hserving₁]))
  refine ⟨_, w₂, c.finishBatch (encodeAck 0), (hw.snoc hflush).snoc hblock, by rw [hserving₂], ?_,
    ?_⟩
  · rw [hserving₂, hserving₁]
    simp [setConn, ackReply]
  · have hd := (Run.sound (fun _ => rfl) hw).delivers 5 c hc
    rw [hd.unsent_finishBatch, List.length_append]
    exact Nat.le_add_left_of_le (by decide)

/-- The socket takes the first byte of the acknowledgement. -/
theorem output_delivered_acked : ∃ es w c, (∀ fd, (single 1).conns fd = none) ∧
    Run Step (start (single 1)) es w ∧ w.serving.conns 5 = some c ∧ w.sent c.id ≠ [] ∧
      c.unsent ≠ [] ∧ c.Delivers (w.enqueued c.id) (w.sent c.id) := by
  obtain ⟨es, w, c, hr, hl, hc, hlen⟩ := exists_run_acked
  have hn : c.outbound.writeOffset + 1 ≤ c.outbound.data.length := by
    rw [ConnectionState.unsent, List.length_drop] at hlen
    omega
  have hr' := hr.snoc (.send 1 hl hc hn)
  have hc' : (w.serving.setConn 5 (c.onWritable 1)).conns 5 = some (c.onWritable 1) := by
    simp [setConn]
  refine ⟨_, _, _, fun _ => rfl, hr', hc', ?_, ?_, output_delivered (fun _ => rfl) hr' hc'⟩
  · simp [List.ne_nil_of_length_pos (Nat.zero_lt_of_lt hlen)]
  · rw [((Run.sound (fun _ => rfl) hr).delivers 5 c hc).unsent_onWritable hn]
    exact List.ne_nil_of_length_pos (by rw [List.length_drop]; omega)

end Wired

end Serving

end Fell.Broker
