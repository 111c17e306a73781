import Fell.Broker.EventLoop

/-!
# Delivery of responses

A client takes the responses on its connection for the answers to its requests, in turn:
the frames carry nothing to tell them by. The event loop writes most responses when it has
handled a request. An acknowledgement that is deferred comes later, to whatever connection
has the descriptor by then (`drain_response_queue`).

* `drained_to_publisher`: if the operating system gives out a descriptor only when no
  acknowledgement is on its way to it, an acknowledgement goes to the connection that
  published the record;
* `replied_in_order`: if moreover no request is answered on a connection that is waiting
  for an acknowledgement, the responses come in the order of the requests.

Neither is sure: nothing keeps a descriptor from being given out again
(`not_drained_to_publisher`), and a client may send requests without waiting for the
responses (`not_replied_in_order`).
-/

namespace Fell.Broker.Serving

open Platform Replication Storage

variable {κ : Type} {s s' s₀ : Serving κ} {e : Event κ} {es : List (Event κ)} {fd : ℤ}

/-- An acknowledgement is on its way to the descriptor: held back by a replica manager, about
    to be posted, or in the response queue. -/
def Awaited (s : Serving κ) (fd : ℤ) : Prop :=
  (∃ tp, ∃ x ∈ (s.leader tp).held, x.1 = fd) ∨ (∃ r ∈ s.posting, r.fd = fd) ∨
    ∃ r ∈ s.responseQueue, r.fd = fd

theorem quiet_of_not_awaited (hreg : ∀ tp, s.registering tp = []) (h : ¬s.Awaited fd) :
    s.deferral.Quiet fd := by
  intro tp
  rw [Multiset.eq_zero_iff_forall_notMem]
  intro r hr
  rw [Deferral.mem_owedTo, owed_deferral, Multiset.mem_coe, owed, hreg, List.nil_append] at hr
  rcases List.mem_append.1 hr with hr | hr
  · obtain ⟨x, hx, heq⟩ := List.mem_map.1 hr
    exact h (.inl ⟨tp, x, hx, congrArg Prod.fst heq⟩)
  · rcases List.mem_append.1 hr with hr | hr
    · obtain ⟨x, hx, heq⟩ := List.mem_map.1 hr
      exact h (.inr (.inl ⟨x, List.mem_of_mem_filter hx, congrArg Prod.fst heq⟩))
    · obtain ⟨x, hx, heq⟩ := List.mem_map.1 hr
      exact h (.inr (.inr ⟨x, List.mem_of_mem_filter hx, congrArg Prod.fst heq⟩))

/-- The descriptor that is given out, or has a request answered, in a step. -/
def Event.fd? : Event κ → Option ℤ
  | .accepted fd _ | .answered fd _ _ _ _ | .deferred fd _ _ _ _ => some fd
  | _ => none

/-- Meanwhile no acknowledgement is being registered. -/
theorem Step.registering_of_mem (hst : Step s e s') (he : fd ∈ e.fd?) (tp : PartitionKey) :
    s.registering tp = [] := by
  cases hst with
  | accept hl | reply hl | subscribe hl | fetch hl | refuse _ hl | append _ hl
  | appendDeferred _ hl => simp [registering, hl]
  | _ => cases he

/-- What else happens to the responses is in no hurry. -/
theorem Event.unhurried_of_none (he : e.fd? = none) :
    ∀ d ∈ e.deferral, ∀ t, Deferral.Unhurried t d := by
  intro d hd t
  cases e with
  | accepted | answered | deferred => cases he
  | closed | received | flushed =>
    rw [List.mem_singleton.1 hd]
    trivial
  | drained rs =>
    obtain ⟨x, -, rfl⟩ := List.mem_map.1 hd
    trivial
  | stored | led | wentOn => exact absurd hd List.not_mem_nil

/-- A run that keeps to a condition is taken to one that keeps to a condition, if the steps
    for which it matters are steps there as well. -/
theorem Run.deferral_guarded {G : Serving κ → Event κ → Prop}
    {G' : Deferral ℤ PartitionKey Frame Reply → Deferral.Event ℤ PartitionKey Frame Reply → Prop}
    (hr : Run (Guarded Step G) s₀ es s) (h : Started s₀)
    (hg : ∀ {es s e s'}, Run Step s₀ es s → Step s e s' → G s e →
      (∃ d, e.deferral = [d] ∧ G' s.deferral d) ∨ ∀ d ∈ e.deferral, ∀ t, G' t d) :
    Run (Guarded Deferral.Step G') s₀.deferral (deferralEvents es) s.deferral := by
  refine hr.simulate Serving.deferral Event.deferral fun hr hst => ?_
  have hrun := hst.1.deferral (Run.sound hr.of_guarded h)
  rcases hg hr.of_guarded hst.1 hst.2 with ⟨d, hd, hG⟩ | hG
  · rw [hd] at hrun ⊢
    exact .single ⟨hrun.step_of_single, hG⟩
  · exact hrun.guarded hG

/-! ## To whom -/

/-- A descriptor is given out when no acknowledgement is on its way to it. -/
def Undisturbed (s : Serving κ) : Event κ → Prop
  | .accepted fd _ => ¬s.Awaited fd
  | _ => True

theorem Run.deferral_undisturbed (hr : Run (Guarded Step Undisturbed) s₀ es s) (h : Started s₀) :
    Run (Guarded Deferral.Step Deferral.Undisturbed) s₀.deferral (deferralEvents es)
      s.deferral := by
  refine Run.deferral_guarded hr h fun {es s e s'} _ hst hg => ?_
  cases e with
  | accepted fd id =>
    exact .inl ⟨_, rfl, quiet_of_not_awaited (hst.registering_of_mem rfl) hg⟩
  | answered | deferred => exact .inl ⟨_, rfl, trivial⟩
  | _ => exact .inr fun d hd t => (Event.unhurried_of_none rfl d hd t).undisturbed

/-- A handler is at the partition that its request leads to. -/
def Located (s : Serving κ) : Prop :=
  ∀ b tp a f fs, s.loop = .accessing b tp a → b.frames = f :: fs →
    ∃ (handler : RequestHandler) (sess : Session),
      (handler.handle sess f).outcome = .access tp.1 tp.2 a

theorem Step.located (hst : Step s e s') (h : s.Located) : s'.Located := by
  intro b' tp' a' f' fs' hl' hf'
  cases hst with
  | @locate b c f fs t p a hl hc hf hout =>
    cases hl'
    rw [hf] at hf'
    cases hf'
    exact ⟨_, _, hout⟩
  | accept | write | store | lead | post | change => exact h _ _ _ _ _ hl' hf'
  | drain hl =>
    rw [loop_drainResponseQueue] at hl'
    exact h _ _ _ _ _ hl' hf'
  | _ => cases hl'

theorem Run.located (hr : Run Step s₀ es s) (h : Started s₀) : s.Located := by
  refine hr.invariant (I := fun _ s => s.Located) ?_ fun _ ih hst => hst.located ih
  intro b tp a f fs hl
  rw [h.loop] at hl
  cases hl

/-- The acknowledgements that are deferred are those of publish requests. -/
theorem Run.publish_of_deferred (hr : Run Step s₀ es s) (h : Started s₀) {id : ℕ} {f : Frame}
    {tp : PartitionKey} {cmd : Record} (he : Event.deferred fd id f tp cmd ∈ es) :
    f.op = .publish ∨ f.op = .publishV2 := by
  refine hr.invariant (I := fun es _ => Event.deferred fd id f tp cmd ∈ es →
    f.op = .publish ∨ f.op = .publishV2) (fun he => absurd he List.not_mem_nil) ?_ he
  intro es s e s' hr ih hst he
  rcases List.mem_append.1 he with he | he
  · exact ih he
  · rw [List.mem_singleton] at he
    subst he
    cases hst with
    | appendDeferred now hl hc hf hacc hacks =>
      obtain ⟨handler, sess, hout⟩ := Run.located hr h _ _ _ _ _ hl hf
      exact RequestHandler.append_of_handle hout

/-- The response is put in the outbound buffer of a connection by `drain_response_queue`. -/
def Drained (es : List (Event κ)) (id : ℕ) (r : PendingResponse) : Prop :=
  ∃ rs, Event.drained rs ∈ es ∧ (r, some id) ∈ rs

/-- The response is the acknowledgement of the record of a publish request that was received on
    the connection. -/
def AckFor (es : List (Event κ)) (id : ℕ) (r : PendingResponse) : Prop :=
  ∃ fd f cmd, Event.deferred fd id f r.origin cmd ∈ es ∧ r.data = encodeAck cmd.offset ∧
    (f.op = .publish ∨ f.op = .publishV2) ∧ f ∈ Deferral.received id (deferralEvents es)

/-- What is deferred in a run was deferred by the broker. -/
theorem deferred_of_mem {id : ℕ} {f : Frame} {tp : PartitionKey} {r : Reply}
    (he : .deferred fd id f tp r ∈ deferralEvents es) :
    ∃ cmd, Event.deferred fd id f tp cmd ∈ es ∧ r = ackReply tp cmd.offset := by
  obtain ⟨e, hmem, he⟩ := List.mem_flatMap.1 he
  cases e with
  | deferred fd' id' f' tp' cmd =>
    cases List.mem_singleton.1 he
    exact ⟨cmd, hmem, rfl⟩
  | drained rs =>
    obtain ⟨x, -, hx⟩ := List.mem_map.1 he
    cases hx
  | stored | led | wentOn => exact absurd he List.not_mem_nil
  | _ => cases List.mem_singleton.1 he

/-! ## In which order -/

/-- With `acks=-1`, a descriptor is given out, and a request of it answered, when no
    acknowledgement is on its way to it. -/
def Unhurried (s : Serving κ) (e : Event κ) : Prop :=
  s.broker.cfg.acks = -1 → ∀ fd ∈ e.fd?, ¬s.Awaited fd

theorem Step.cfg_eq (hst : Step s e s') : s'.broker.cfg = s.broker.cfg := by
  cases hst with
  | drain hl =>
    obtain ⟨conns, hfold, -⟩ := @foldl_deliver κ { s with responseQueue := [] } s.responseQueue
    rw [drainResponseQueue, hfold]
  | @manage b tp offset hl =>
    simp only [getOrCreateReplicaManager, Broker.getOrCreateReplicaManager]
    split_ifs <;> rfl
  | _ => rfl

theorem Run.acks_of_deferred (hr : Run Step s₀ es s) {id : ℕ} {f : Frame} {tp : PartitionKey}
    {cmd : Record} (he : Event.deferred fd id f tp cmd ∈ es) : s.broker.cfg.acks = -1 := by
  refine hr.invariant (I := fun es s => Event.deferred fd id f tp cmd ∈ es →
    s.broker.cfg.acks = -1) (fun he => absurd he List.not_mem_nil) ?_ he
  intro es s e s' hr ih hst he
  rw [hst.cfg_eq]
  rcases List.mem_append.1 he with he | he
  · exact ih he
  · rw [List.mem_singleton] at he
    subst he
    cases hst with
    | appendDeferred now hl hc hf hacc hacks => exact hacks

/-- Without `acks=-1`, no acknowledgement is deferred. -/
theorem Run.quiet (hr : Run Step s₀ es s) (h : Started s₀) (hacks : s.broker.cfg.acks ≠ -1)
    (fd : ℤ) : s.deferral.Quiet fd := by
  intro tp
  have howed : s.deferral.owed tp = 0 := by
    refine Deferral.Run.owed_eq_zero (Run.deferral hr h) h.new (fun fd id f tp r he => ?_) tp
    obtain ⟨cmd, hcmd, -⟩ := deferred_of_mem he
    exact hacks (Run.acks_of_deferred hr hcmd)
  rw [Deferral.owedTo, howed]
  rfl

theorem Run.deferral_unhurried (hr : Run (Guarded Step Unhurried) s₀ es s) (h : Started s₀) :
    Run (Guarded Deferral.Step Deferral.Unhurried) s₀.deferral (deferralEvents es)
      s.deferral := by
  refine Run.deferral_guarded hr h fun {es s e s'} hr hst hg => ?_
  have hquiet : ∀ fd ∈ e.fd?, s.deferral.Quiet fd := by
    intro fd he
    by_cases hacks : s.broker.cfg.acks = -1
    · exact quiet_of_not_awaited (hst.registering_of_mem he) (hg hacks fd he)
    · exact Run.quiet hr h hacks fd
  cases e with
  | accepted fd | answered fd | deferred fd => exact .inl ⟨_, rfl, hquiet fd rfl⟩
  | _ => exact .inr (Event.unhurried_of_none rfl)

/-- The responses written to a connection are those to the requests received on it, the first
    to the first, and so on. -/
def RepliedInOrder (es : List (Event κ)) (id : ℕ) : Prop :=
  ∀ (k : ℕ) (r : Reply), (Deferral.written id (deferralEvents es))[k]? = some r →
    ∃ f, (Deferral.received id (deferralEvents es))[k]? = some f ∧
      (Deferral.answers id (deferralEvents es))[k]? = some (f, r)

/-! ## An exchange -/

/-- A broker with no peers and one topic, after its start. -/
def single (acks : ℤ) : Serving Unit where
  broker := Broker.initializeReplication
    { cfg := { ClusterConfig.loadDefault with peers := [], acks }
      topics := AList.insert (ascii "t") ⟨1, Nat.one_pos⟩ ∅
      metaReg := ∅
      replicaManagers := ∅
      replicationClients := ∅ }
  missing _ _ := false
  maxFrameSize := 1048576
  stores _ := Publishing.emptyStore
  managers _ := {}
  conns _ := none
  opened := 0
  posting := []
  responseQueue := []
  loop := .polling

theorem started_single (acks : ℤ) : Started (single acks) :=
  ⟨fun _ => rfl, fun _ => rfl, rfl, rfl, rfl⟩

/-- A request to publish an empty message. -/
def publishFrame : Frame := ⟨.publish, [1, 116] ++ List.replicate 260 0⟩

/-- A request for the metadata of the topic. -/
def metadataFrame : Frame := ⟨.metadataReq, [1, 116] ++ List.replicate 254 0⟩

/-- The frames as they are sent. -/
def sent (frames : List Frame) : Bytes := frames.flatMap fun f => encodeFrame f.op f.payload

/-- A step in which no acknowledgement is on its way to the descriptor it is about. -/
def Calm (s : Serving κ) (e : Event κ) : Prop := ∀ fd ∈ e.fd?, ¬s.Awaited fd

theorem Calm.undisturbed (h : Calm s e) : Undisturbed s e := by
  cases e with
  | accepted fd => exact h fd rfl
  | _ => trivial

theorem Calm.unhurried (h : Calm s e) : Unhurried s e := fun _ => h

theorem Calm.of_none (he : e.fd? = none) : Calm s e := fun fd hfd => by
  rw [he] at hfd
  cases hfd

theorem Calm.of_idle (hm : s.managers = fun _ => {}) (hp : s.posting = [])
    (hq : s.responseQueue = []) : Calm s e := by
  rintro fd - (⟨tp, x, hx, -⟩ | ⟨r, hr, -⟩ | ⟨r, hr, -⟩)
  · rw [leader, hm] at hx
    exact absurd hx List.not_mem_nil
  · rw [hp] at hr
    exact absurd hr List.not_mem_nil
  · rw [hq] at hr
    exact absurd hr List.not_mem_nil

/-- The decoder of a connection that is new. -/
def newDecoder (s : Serving κ) : FrameDecoder := { maxFrameSize := s.maxFrameSize }

/-- A client has connected, and its first requests are received. -/
def receiving (s : Serving κ) (fd : ℤ) (data : Bytes) (frames : List Frame) : Serving κ :=
  { (s.addConn fd).setConn fd { id := s.opened, decoder := (s.newDecoder.push data).2.2 } with
    loop := .handling ⟨fd, frames, []⟩ }

theorem handle_receiving (s : Serving κ) (data : Bytes) (frames : List Frame) (c : ConnectionState)
    (f : Frame) : (s.receiving fd data frames).handle c f = s.handle c f := rfl

theorem broker_receiving (s : Serving κ) (data : Bytes) (frames : List Frame) :
    (s.receiving fd data frames).broker = s.broker := rfl

theorem run_receive (hl : s.loop = .polling) (hc : s.conns fd = none) (hcalm : ¬s.Awaited fd)
    {data : Bytes} {frames : List Frame} (hpush : (s.newDecoder.push data).1 ≠ -1)
    (hframes : (s.newDecoder.push data).2.1 = frames) (hpos : data ≠ [])
    (hlen : data.length ≤ 4096) :
    Run (Guarded Step Calm) s [.accepted fd s.opened, .wentOn, .received s.opened frames]
      (s.receiving fd data frames) := by
  subst hframes
  have haccept : Step s (.accepted fd s.opened) (s.addConn fd) := .accept hl hc
  have hconn : (s.addConn fd).conns fd = some { id := s.opened, decoder := s.newDecoder } :=
    Function.update_self fd _ _
  have hread : Step (s.addConn fd) .wentOn { s.addConn fd with loop := .reading fd } :=
    .readable hl hconn
  have hrecv : Step { s.addConn fd with loop := .reading fd }
      (.received s.opened (s.newDecoder.push data).2.1)
      (s.receiving fd data (s.newDecoder.push data).2.1) :=
    @Step.receive _ { s.addConn fd with loop := .reading fd } fd _ data rfl hconn hpos hlen hpush
  exact .cons ⟨haccept, by rintro _ ⟨⟩; exact hcalm⟩ <| .cons ⟨hread, .of_none rfl⟩ <|
    .single ⟨hrecv, .of_none rfl⟩

/-- The partition. -/
def first : PartitionKey := (ascii "t", 0)

/-- Where the exchange with the client on the descriptor `5` is. -/
structure Exchange (s : Serving Unit) (id : ℕ) (acks : ℤ) (store : PartitionStore Unit)
    (rm : ReplicaManager) (l : Loop) : Prop where
  acks : s.broker.cfg.acks = acks
  managed : s.Managed first
  required : ReplicaManager.isrRequired (s.leader first).partition = 0
  conn : (s.conns 5).map ConnectionState.id = some id
  opened : s.opened = id + 1
  store : s.stores first = store
  managers : s.managers = Function.update (fun _ => {}) first rm
  posting : s.posting = []
  responseQueue : s.responseQueue = []
  loop : s.loop = l

/-- The handler lets the request through, and leaves the metadata of the partition. -/
theorem handle_publishFrame {acks : ℤ} (hacks : acks = -1 ∨ acks = 1) {c : ConnectionState}
    (hc : c.session = {}) :
    ((single acks).handle c publishFrame).outcome = .access (ascii "t") 0 (.append .empty) ∧
      ReplicaManager.isrRequired ((((single acks).handle c publishFrame).handler.metaReg.getD
        (single acks).broker.metaReg).find (ascii "t") 0) = 0 := by
  rw [handle, hc]
  rcases hacks with rfl | rfl <;> decide +kernel

theorem acks_single {acks : ℤ} (hacks : acks = -1 ∨ acks = 1) :
    (single acks).broker.cfg.acks = acks ∧ (single acks).Managed first ∧
      ReplicaManager.isrRequired ((single acks).leader first).partition = 0 := by
  rcases hacks with rfl | rfl <;> decide +kernel

/-- The entry of the record. -/
def firstEntry (m : PartitionMeta) : PendingAck :=
  { Publishing.firstPending m with isrRequired := 0 }

section

variable {s : Serving Unit} {acks : ℤ} {store : PartitionStore Unit} {rm : ReplicaManager}
  {l : Loop} {fs : List Frame} {id : ℕ} {m : PartitionMeta}

theorem Exchange.calm (h : Exchange s id acks store {} l) {e : Event Unit} : Calm s e :=
  .of_idle (h.managers.trans (Function.update_eq_self _ _)) h.posting h.responseQueue

/-- The handler lets the request through. -/
theorem Exchange.locate (h : Exchange s id acks store rm (.handling ⟨5, publishFrame :: fs, []⟩))
    (hhandle : ∀ c ∈ s.conns 5, (s.handle c publishFrame).outcome =
        .access (ascii "t") 0 (.append .empty) ∧
      ReplicaManager.isrRequired (((s.handle c publishFrame).handler.metaReg.getD
        s.broker.metaReg).find (ascii "t") 0) = 0) :
    ∃ s', Step s .wentOn s' ∧ Exchange s' id acks store rm
      (.accessing ⟨5, publishFrame :: fs, []⟩ first (.append .empty)) := by
  obtain ⟨c, hc, hid⟩ := Option.map_eq_some_iff.1 h.conn
  obtain ⟨hout, hreq⟩ := hhandle c hc
  have hst := Step.locate h.loop hc rfl hout
  generalize s.handle c publishFrame = r at hreq hst
  exact ⟨_, hst, h.acks, h.managed, hreq, (conn_setConn hc rfl 5).trans h.conn, h.opened, h.store,
    h.managers, h.posting, h.responseQueue, rfl⟩

/-- A client connects and sends its requests, the first of which is to publish. -/
theorem run_request (hacks : acks = -1 ∨ acks = 1) {frames : List Frame}
    (hframes : frames = publishFrame :: fs) (hfs : fs = [] ∨ fs = [metadataFrame]) :
    ∃ s, Run (Guarded Step Calm) (single acks)
        ([.accepted 5 0, .wentOn, .received 0 frames] ++ [.wentOn]) s ∧
      Exchange s 0 acks Publishing.emptyStore {}
        (.accessing ⟨5, frames, []⟩ first (.append .empty)) := by
  have hcalm : ¬(single acks).Awaited 5 :=
    @Calm.of_idle _ (single acks) (.accepted 5 0) rfl rfl rfl 5 rfl
  -- The decoder finds the frames in what was sent, for each of the configurations.
  have hrecv : Run (Guarded Step Calm) (single acks) [.accepted 5 0, .wentOn, .received 0 frames]
      ((single acks).receiving 5 (sent frames) frames) := by
    refine run_receive rfl rfl hcalm ?_ ?_ ?_ ?_ <;> rw [hframes] <;>
      rcases hacks with rfl | rfl <;> rcases hfs with rfl | rfl <;> decide +kernel
  have hx : Exchange ((single acks).receiving 5 (sent frames) frames) 0 acks
      Publishing.emptyStore {} (.handling ⟨5, frames, []⟩) :=
    ⟨(acks_single hacks).1, (acks_single hacks).2.1, (acks_single hacks).2.2, rfl, rfl, rfl,
      (Function.update_eq_self _ _).symm, rfl, rfl, rfl⟩
  subst hframes
  obtain ⟨s', hst, hs'⟩ := hx.locate fun c hc => by
    have hsess : c.session = {} := by
      cases hc
      rfl
    rw [handle_receiving, broker_receiving]
    exact handle_publishFrame hacks hsess
  exact ⟨s', hrecv.snoc ⟨hst, .of_none rfl⟩, hs'⟩

/-- The record is appended. -/
theorem Exchange.append (h : Exchange s id acks Publishing.emptyStore rm l) (l' : Loop) :
    Exchange { s.setStore first (.appended (Publishing.emptyStore.command .empty 0))
        (Publishing.emptyStore.append .empty 0).2 with loop := l' } id acks
      (Publishing.emptyStore.enqueue .empty 0) rm l' where
  acks := h.acks
  managed := h.managed
  required := h.required
  conn := h.conn
  opened := h.opened
  store := by
    refine (Function.update_self first _ s.stores).trans ?_
    have happend := PartitionStore.append_of_accepted Publishing.append_emptyStore_accepted
    exact congrArg Prod.snd happend
  managers := (managers_setStore_of_nil s first
    (Publishing.emptyStore.append .empty 0).2 rfl).trans h.managers
  posting := h.posting
  responseQueue := h.responseQueue
  loop := rfl

/-- The replica manager is there. -/
theorem Exchange.manage (h : Exchange s id acks store rm l) (l' : Loop) :
    Exchange { s.getOrCreateReplicaManager first with loop := l' } id acks store rm l' := by
  have hget : s.getOrCreateReplicaManager first = s := by
    have hm := h.managed
    rw [Managed] at hm
    simp [getOrCreateReplicaManager, Broker.getOrCreateReplicaManager, hm]
  rw [hget]
  exact ⟨h.acks, h.managed, h.required, h.conn, h.opened, h.store, h.managers, h.posting,
    h.responseQueue, rfl⟩

/-- The acknowledgement is registered. -/
theorem Exchange.register (h : Exchange s id acks store {} l) (l' : Loop) :
    Exchange { s with
        managers := Function.update s.managers first ((s.managers first).registerPending
          (s.leader first).partition 0 (encodeAck 0) 5)
        loop := l' } id acks store { pending := [firstEntry (s.leader first).partition] } l' := by
  have hrm : (s.managers first).registerPending (s.leader first).partition 0 (encodeAck 0) 5 =
      { pending := [firstEntry (s.leader first).partition] } := by
    rw [h.managers, Function.update_self, ReplicaManager.registerPending, h.required]
    rfl
  refine ⟨h.acks, h.managed, h.required, h.conn, h.opened, h.store, ?_, h.posting,
    h.responseQueue, rfl⟩
  dsimp only
  rw [hrm, h.managers, Function.update_idem]

/-- The acknowledgement is deferred, and held back. -/
theorem Exchange.run_defer
    (h : Exchange s id (-1) Publishing.emptyStore {}
      (.accessing ⟨5, publishFrame :: fs, []⟩ first (.append .empty))) :
    ∃ m s', Run (Guarded Step Calm) s
        [.deferred 5 id publishFrame first (Publishing.emptyStore.command .empty 0), .wentOn,
          .led first (.registered 0 (encodeAck 0) 5)] s' ∧
      Exchange s' id (-1) (Publishing.emptyStore.enqueue .empty 0) { pending := [firstEntry m] }
        (.handling ⟨5, fs, []⟩) := by
  obtain ⟨c, hc, hid⟩ := Option.map_eq_some_iff.1 h.conn
  have hacc : ((s.stores first).append .empty 0).1.accepted = true := by
    rw [h.store]
    exact Publishing.append_emptyStore_accepted
  have happend := @Step.appendDeferred _ s ⟨5, publishFrame :: fs, []⟩ c publishFrame fs first
    .empty 0 h.loop hc rfl hacc h.acks
  rw [h.store, hid] at happend
  have h₁ := h.append (.appended ⟨5, fs, []⟩ first 0)
  have hmanage : Step _ .wentOn _ := .manage h₁.loop
  have h₂ := h₁.manage (.managed ⟨5, fs, []⟩ first 0)
  have hregister : Step _ (.led first (.registered 0 (encodeAck 0) 5)) _ := .register h₂.loop
  exact ⟨_, _, .cons ⟨happend, h.calm⟩ <| .cons ⟨hmanage, .of_none rfl⟩ <|
    .single ⟨hregister, .of_none rfl⟩, h₂.register _⟩

/-- The responses are put in the outbound buffer, and there is nothing more to read. -/
theorem Exchange.run_flush {rs : List Reply}
    (h : Exchange s id acks store rm (.handling ⟨5, [], rs⟩)) :
    ∃ s', Run (Guarded Step Calm) s [.flushed id rs, .wentOn] s' ∧
      Exchange s' id acks store rm .polling := by
  obtain ⟨c, hc, hid⟩ := Option.map_eq_some_iff.1 h.conn
  have hflush := Step.flush h.loop hc rfl
  rw [hid] at hflush
  refine ⟨_, .cons ⟨hflush, .of_none rfl⟩ (.single ⟨.wouldBlock rfl, .of_none rfl⟩), h.acks,
    h.managed, h.required, ?_, h.opened, h.store, h.managers, h.posting, h.responseQueue, rfl⟩
  exact (conn_setConn hc (by simp) 5).trans h.conn

/-- The client hangs up, and another one connects, which gets the descriptor. -/
theorem Exchange.run_reuse (h : Exchange s id acks store rm .polling) :
    ∃ s', Run Step s [.closed 5, .accepted 5 (id + 1)] s' ∧
      Exchange s' (id + 1) acks store rm .polling := by
  have hclose : Step s (.closed 5) { s.removeConn 5 with loop := .polling } := .hangUp (.inl h.loop)
  have haccept := @Step.accept _ { s.removeConn 5 with loop := .polling } 5 rfl
    (by simp [removeConn])
  have hopened : Serving.opened { s.removeConn 5 with loop := .polling } = id + 1 := h.opened
  rw [hopened] at haccept
  refine ⟨_, .cons hclose (.single haccept), h.acks, h.managed, h.required, ?_,
    congrArg (· + 1) hopened, h.store, h.managers, h.posting, h.responseQueue, rfl⟩
  exact congrArg some hopened

end

/-- A run of the store of a partition. -/
theorem Run.stored {tp : PartitionKey} {es' : List (PartitionStore.Event κ)}
    {store' : PartitionStore κ} (hr : Run PartitionStore.Step (s.stores tp) es' store')
    (hm : s.Managed tp) :
    Run Step s (es'.map (.stored tp))
      { s with
        stores := Function.update s.stores tp store'
        managers := Function.update s.managers tp
          (es'.foldl Publishing.commitCallback (s.managers tp)) } := by
  induction hr with
  | nil =>
    simp only [List.foldl_nil, List.map_nil, Function.update_eq_self]
    exact .nil
  | @snoc es' t t' e _ hst ih =>
    rw [List.map_append, List.foldl_append]
    refine ih.snoc ?_
    have hstep := @Step.store _ { s with
        stores := Function.update s.stores tp t
        managers := Function.update s.managers tp
          (es'.foldl Publishing.commitCallback (s.managers tp)) } tp e t' (by simpa using hst)
    have hm' : Managed { s with
        stores := Function.update s.stores tp t
        managers := Function.update s.managers tp
          (es'.foldl Publishing.commitCallback (s.managers tp)) } tp := hm
    simpa [setStore, hm'] using hstep

theorem leader_setLeader (s : Serving κ) (tp : PartitionKey) (l : Leader) (passed : List Response) :
    (s.setLeader tp l passed).leader tp = l := by
  simp [setLeader, leader, PartitionMetaRegistry.find_modify]

/-- One response is in the queue. -/
theorem step_drain {id : ℕ} {r : PendingResponse} (hl : s.loop = .polling)
    (hq : s.responseQueue = [r]) (hc : (s.conns r.fd).map ConnectionState.id = some id) :
    Step s (.drained [(r, some id)]) s.drainResponseQueue := by
  have hst := Step.drain hl
  rw [hq, List.map_singleton, hc] at hst
  exact hst

/-- The acknowledgement, on its way to the descriptor. -/
def firstResponse : PendingResponse := ⟨5, encodeAck 0, first⟩

section

variable {s : Serving Unit} {id : ℕ} {acks : ℤ} {store : PartitionStore Unit}
  {rm rm' : ReplicaManager}

theorem Exchange.leader_eq {l : Loop} (h : Exchange s id acks store rm l) :
    s.leader first = ⟨rm, (s.leader first).partition⟩ := by
  rw [leader, h.managers, Function.update_self]

/-- A step of the replica manager. -/
theorem Exchange.lead {e : Leader.Event} (h : Exchange s id acks store rm .polling)
    (hst : ∀ maxLag m, Leader.Step maxLag ⟨rm, m⟩ e ⟨rm', m⟩) (hw : Publishing.ByWorker e)
    (hp : e.passed = []) :
    ∃ s', Step s (.led first e) s' ∧ Exchange s' id acks store rm' .polling := by
  have hstep := @Step.lead _ s first e ⟨rm', (s.leader first).partition⟩ h.managed
    (by rw [h.leader_eq]; exact hst _ _) hw
  rw [hp] at hstep
  refine ⟨_, hstep, h.acks, h.managed, ?_, h.conn, h.opened, h.store, ?_, ?_, h.responseQueue,
    h.loop⟩
  · rw [leader_setLeader]
    exact h.required
  · simp only [setLeader, h.managers, Function.update_idem]
  · simp [setLeader, h.posting]

/-- The record is committed, and its acknowledgement is delivered. -/
def releaseEvents (id : ℕ) (m : PartitionMeta) : List (Event Unit) :=
  (Publishing.emptyStore.notifyOneEvents .empty 0).map (.stored first) ++
    [.led first .popped, .led first (.processed Publishing.firstQueued [firstEntry m]),
      .led first (.posted [(5, encodeAck 0)]), .wentOn, .drained [(firstResponse, some id)]]

theorem Exchange.run_release {m : PartitionMeta}
    (h : Exchange s id acks (Publishing.emptyStore.enqueue .empty 0) { pending := [firstEntry m] }
      .polling) :
    ∃ s', Run Step s (releaseEvents id m) s' := by
  have hstore := @PartitionStore.Idle.run_notifiedOne _ _ .empty 0 Publishing.idle_emptyStore
    (by decide) (by decide)
  rw [← h.store] at hstore
  have hrun := Run.stored hstore h.managed
  have hcommit : (Publishing.emptyStore.notifyOneEvents .empty 0).foldl Publishing.commitCallback
      { pending := [firstEntry m] } =
        { pending := [firstEntry m], commitQueue := [Publishing.firstQueued] } := rfl
  have h₁ : Exchange { s with
        stores := Function.update s.stores first (Publishing.emptyStore.notifiedOne .empty 0)
        managers := Function.update s.managers first
          ((Publishing.emptyStore.notifyOneEvents .empty 0).foldl Publishing.commitCallback
            (s.managers first)) } id acks (Publishing.emptyStore.notifiedOne .empty 0)
      { pending := [firstEntry m], commitQueue := [Publishing.firstQueued] } .polling := by
    refine ⟨h.acks, h.managed, h.required, h.conn, h.opened, by simp, ?_,
      h.posting, h.responseQueue, h.loop⟩
    dsimp only
    rw [h.managers, Function.update_self, hcommit, Function.update_idem]
  -- The worker takes up the commit, and finds that no follower is waited for.
  obtain ⟨s₂, hpop, h₂⟩ := @Exchange.lead _ _ _ _ _
    { pending := [firstEntry m], worker := .popped Publishing.firstQueued } _ h₁
    (fun _ _ => .pop rfl rfl) trivial rfl
  obtain ⟨s₃, hprocess, h₃⟩ := @Exchange.lead _ _ _ _ _
    { worker := .swept Publishing.firstQueued [(5, encodeAck 0)] }
    (.processed Publishing.firstQueued [firstEntry m]) h₂ (fun _ _ => .process rfl)
    trivial rfl
  -- The acknowledgement goes through the response queue to whoever has the descriptor.
  have hpost := @Step.lead _ s₃ first (.posted [(5, encodeAck 0)])
    ⟨{ worker := .posted Publishing.firstQueued }, (s₃.leader first).partition⟩ h₃.managed
    (by rw [h₃.leader_eq]; exact .post rfl) trivial
  have hqueue : (s₃.setLeader first
      ⟨{ worker := .posted Publishing.firstQueued }, (s₃.leader first).partition⟩
      [(5, encodeAck 0)]).posting = [] ++ firstResponse :: [] := by
    simp [setLeader, h₃.posting, firstResponse]
  have hdrain := @step_drain _ { s₃.setLeader first
      ⟨{ worker := .posted Publishing.firstQueued }, (s₃.leader first).partition⟩
      [(5, encodeAck 0)] with
        posting := [] ++ []
        responseQueue := s₃.responseQueue ++ [firstResponse] } id firstResponse h₃.loop
    (by rw [h₃.responseQueue]; rfl) h₃.conn
  exact ⟨_, hrun.append <| .cons hpop <| .cons hprocess <| .cons hpost <| .cons (.post hqueue) <|
    .single hdrain⟩

/-- Another request is answered meanwhile. -/
theorem Exchange.run_answer
    (h : Exchange s id acks store rm (.handling ⟨5, [metadataFrame], []⟩)) :
    ∃ resp s', Run Step s
      [.answered 5 id metadataFrame ⟨none, resp⟩ none, .flushed id [⟨none, resp⟩]] s' := by
  obtain ⟨c, hc, hid⟩ := Option.map_eq_some_iff.1 h.conn
  obtain ⟨resp, hout⟩ : ∃ resp, (s.handle c metadataFrame).outcome = .reply resp :=
    RequestHandler.reply_of_metadataReq rfl
  have hreply := Step.reply h.loop hc rfl hout
  generalize s.handle c metadataFrame = r at hreply
  have hflush := @Step.flush _ { s.afterHandle 5 c r with
      loop := .handling (Batch.answer ⟨5, [metadataFrame], []⟩ ⟨none, resp⟩) } _
    { c with session := r.session } rfl (by simp [afterHandle, setConn, Batch.answer]) rfl
  rw [hid] at hreply
  have hid' : ConnectionState.id { c with session := r.session } = id := hid
  rw [hid'] at hflush
  exact ⟨resp, _, .cons hreply (.single hflush)⟩

end

/-- The client publishes, and gets the acknowledgement. -/
def exchangeEvents (m : PartitionMeta) : List (Event Unit) :=
  ([.accepted 5 0, .wentOn, .received 0 [publishFrame]] ++ [.wentOn]) ++
    ([.deferred 5 0 publishFrame first (Publishing.emptyStore.command .empty 0), .wentOn,
        .led first (.registered 0 (encodeAck 0) 5)] ++
      ([.flushed 0 [], .wentOn] ++ releaseEvents 0 m))

theorem run_exchange : ∃ m s, Run (Guarded Step Calm) (single (-1)) (exchangeEvents m) s := by
  obtain ⟨s₁, hr₁, h₁⟩ := run_request (.inl rfl) rfl (.inl rfl)
  obtain ⟨m, s₂, hr₂, h₂⟩ := h₁.run_defer
  obtain ⟨s₃, hr₃, h₃⟩ := h₂.run_flush
  obtain ⟨s₄, hr₄⟩ := h₃.run_release
  have hcalm : ∀ e ∈ releaseEvents 0 m, ∀ s : Serving Unit, Calm s e := by
    intro e he s
    simp only [releaseEvents, PartitionStore.notifyOneEvents, List.map_cons, List.map_nil,
      List.cons_append, List.nil_append, List.mem_cons, List.not_mem_nil, or_false] at he
    rcases he with rfl | rfl | rfl | rfl | rfl | rfl | rfl | rfl | rfl <;> exact .of_none rfl
  exact ⟨m, s₄, hr₁.append (hr₂.append (hr₃.append (hr₄.guarded hcalm)))⟩

/-- With `acks=1`, the record is acknowledged at once. -/
def answeredEvents : List (Event Unit) :=
  ([.accepted 5 0, .wentOn, .received 0 [publishFrame]] ++ [.wentOn]) ++
    [.answered 5 0 publishFrame (ackReply first 0)
      (some (first, .appended (Publishing.emptyStore.command .empty 0)))]

theorem run_answered : ∃ s, Run Step (single 1) answeredEvents s ∧
    Exchange s 0 1 (Publishing.emptyStore.enqueue .empty 0) {}
      (.handling ⟨5, [], [ackReply first 0]⟩) := by
  obtain ⟨s, hr, h⟩ := run_request (.inr rfl) rfl (.inl rfl)
  obtain ⟨c, hc, hid⟩ := Option.map_eq_some_iff.1 h.conn
  have hacc : ((s.stores first).append .empty 0).1.accepted = true := by
    rw [h.store]
    exact Publishing.append_emptyStore_accepted
  have happend := Step.append 0 h.loop hc rfl hacc (by rw [h.acks]; decide)
  rw [h.store, hid] at happend
  exact ⟨_, hr.of_guarded.snoc happend, h.append _⟩

/-- The acknowledgement is put in the outbound buffer. -/
def ackedEvents : List (Event Unit) := answeredEvents ++ [.flushed 0 [ackReply first 0], .wentOn]

theorem run_acked : ∃ s, Run Step (single 1) ackedEvents s ∧
    Exchange s 0 1 (Publishing.emptyStore.enqueue .empty 0) {} .polling := by
  obtain ⟨s₁, hr₁, h₁⟩ := run_answered
  obtain ⟨s₂, hr₂, h₂⟩ := h₁.run_flush
  exact ⟨s₂, hr₁.append hr₂.of_guarded, h₂⟩

/-- The client hangs up before the record is committed, and its descriptor is given out
    again. -/
def reusedEvents (m : PartitionMeta) : List (Event Unit) :=
  ([.accepted 5 0, .wentOn, .received 0 [publishFrame]] ++ [.wentOn]) ++
    ([.deferred 5 0 publishFrame first (Publishing.emptyStore.command .empty 0), .wentOn,
        .led first (.registered 0 (encodeAck 0) 5)] ++
      ([.flushed 0 [], .wentOn] ++ ([.closed 5, .accepted 5 1] ++ releaseEvents 1 m)))

theorem run_reused : ∃ m s, Run Step (single (-1)) (reusedEvents m) s := by
  obtain ⟨s₁, hr₁, h₁⟩ := run_request (.inl rfl) rfl (.inl rfl)
  obtain ⟨m, s₂, hr₂, h₂⟩ := h₁.run_defer
  obtain ⟨s₃, hr₃, h₃⟩ := h₂.run_flush
  obtain ⟨s₄, hr₄, h₄⟩ := h₃.run_reuse
  obtain ⟨s₅, hr₅⟩ := h₄.run_release
  exact ⟨m, s₅, hr₁.of_guarded.append
    (hr₂.of_guarded.append (hr₃.of_guarded.append (hr₄.append hr₅)))⟩

/-- The client does not wait for the acknowledgement with its next request. -/
def pipelinedEvents (resp : Bytes) : List (Event Unit) :=
  ([.accepted 5 0, .wentOn, .received 0 [publishFrame, metadataFrame]] ++ [.wentOn]) ++
    ([.deferred 5 0 publishFrame first (Publishing.emptyStore.command .empty 0), .wentOn,
        .led first (.registered 0 (encodeAck 0) 5)] ++
      [.answered 5 0 metadataFrame ⟨none, resp⟩ none, .flushed 0 [⟨none, resp⟩]])

theorem run_pipelined : ∃ resp s, Run Step (single (-1)) (pipelinedEvents resp) s := by
  obtain ⟨s₁, hr₁, h₁⟩ := run_request (.inl rfl) rfl (.inr rfl)
  obtain ⟨m, s₂, hr₂, h₂⟩ := h₁.run_defer
  obtain ⟨resp, s₃, hr₃⟩ := h₂.run_answer
  exact ⟨resp, s₃, hr₁.of_guarded.append (hr₂.of_guarded.append hr₃)⟩

/-! ## The results -/

/-- In every run in which a descriptor is given out only when no acknowledgement is on its way
    to it: a deferred acknowledgement reaches only the connection that published. -/
theorem drained_to_publisher (h : Started s₀) (hr : Run (Guarded Step Undisturbed) s₀ es s)
    {id : ℕ} {r : PendingResponse} (hd : Drained es id r) : AckFor es id r := by
  obtain ⟨rs, hmem, hr'⟩ := hd
  have hdel : Deferral.Event.delivered (some id) r.origin r.reply.2 ∈ deferralEvents es :=
    List.mem_flatMap.2 ⟨_, hmem, List.mem_map.2 ⟨_, hr', rfl⟩⟩
  obtain ⟨fd, f, hdef⟩ := Deferral.attributed h.new (Run.deferral_undisturbed hr h) hdel
  obtain ⟨cmd, hcmd, heq⟩ := deferred_of_mem hdef
  have hans : (f, r.reply.2) ∈ Deferral.answers id (deferralEvents es) :=
    List.mem_flatMap.2 ⟨_, hdef, by simp [Deferral.Event.answer?]⟩
  have hrecv := (Deferral.Run.answers_isPrefix (Run.deferral hr.of_guarded h) h.new id).subset
    (List.mem_map_of_mem hans)
  exact ⟨fd, f, cmd, hcmd, congrArg Reply.bytes heq,
    Run.publish_of_deferred hr.of_guarded h hcmd, hrecv⟩

theorem drained_to_publisher_single : ∃ es s, Started (single (-1)) ∧
    Run (Guarded Step Undisturbed) (single (-1)) es s ∧ Drained es 0 firstResponse ∧
      AckFor es 0 firstResponse := by
  obtain ⟨m, s, hr⟩ := run_exchange
  have hr : Run (Guarded Step Undisturbed) (single (-1)) (exchangeEvents m) s :=
    hr.mono fun hst => ⟨hst.1, hst.2.undisturbed⟩
  have hd : Drained (exchangeEvents m) 0 firstResponse := by
    refine ⟨[(firstResponse, some 0)], ?_, List.mem_singleton_self _⟩
    simp [exchangeEvents, releaseEvents]
  exact ⟨_, s, started_single _, hr, hd, drained_to_publisher (started_single _) hr hd⟩

/-- The operating system gives the descriptor of a connection that is closed to another client,
    which then gets the acknowledgement. -/
theorem not_drained_to_publisher :
    ¬∀ (s₀ s : Serving Unit) (es : List (Event Unit)) (id : ℕ) (r : PendingResponse), Started s₀ →
      s₀.broker.cfg.acks = -1 → Run Step s₀ es s → Drained es id r → AckFor es id r := by
  intro hall
  obtain ⟨m, s, hr⟩ := run_reused
  have hd : Drained (reusedEvents m) 1 firstResponse := by
    refine ⟨[(firstResponse, some 1)], ?_, List.mem_singleton_self _⟩
    simp [reusedEvents, releaseEvents]
  obtain ⟨fd, f, cmd, hmem, -⟩ := hall _ s _ 1 _ (started_single (-1))
    (acks_single (.inl rfl)).1 hr hd
  simp [reusedEvents, releaseEvents] at hmem

/-- In every run in which, with `acks=-1`, a descriptor is given out, and a request of it
    answered, only when no acknowledgement is on its way to it: the responses come back in the
    order of the requests. -/
theorem replied_in_order (h : Started s₀) (hr : Run (Guarded Step Unhurried) s₀ es s) (id : ℕ) :
    RepliedInOrder es id := by
  intro k r hk
  obtain ⟨hlt, rfl⟩ := List.getElem?_eq_some_iff.1 hk
  have hsnd := List.prefix_iff_getElem?.1
    (Deferral.inOrder h.new (Run.deferral_unhurried hr h) id) k hlt
  rw [List.getElem?_map, Option.map_eq_some_iff] at hsnd
  obtain ⟨x, hx, hxr⟩ := hsnd
  have hfst : ((Deferral.answers id (deferralEvents es)).map Prod.fst)[k]? = some x.1 := by
    rw [List.getElem?_map, hx, Option.map_some]
  obtain ⟨hlt', hx'⟩ := List.getElem?_eq_some_iff.1 hfst
  refine ⟨x.1, ?_, by rw [hx, ← hxr]⟩
  rw [← hx']
  exact List.prefix_iff_getElem?.1
    (Deferral.Run.answers_isPrefix (Run.deferral hr.of_guarded h) h.new id) k hlt'

theorem replied_in_order_single : ∃ es s, Started (single (-1)) ∧
    Run (Guarded Step Unhurried) (single (-1)) es s ∧
      Deferral.written 0 (deferralEvents es) = [ackReply first 0] ∧ RepliedInOrder es 0 := by
  obtain ⟨m, s, hr⟩ := run_exchange
  have hr : Run (Guarded Step Unhurried) (single (-1)) (exchangeEvents m) s :=
    hr.mono fun hst => ⟨hst.1, hst.2.unhurried⟩
  refine ⟨_, s, started_single _, hr, ?_, replied_in_order (started_single _) hr 0⟩
  simp [exchangeEvents, releaseEvents, deferralEvents, Event.deferral, Deferral.written,
    Deferral.Event.written?, PartitionStore.notifyOneEvents, firstResponse, PendingResponse.reply,
    ackReply]

/-- The response to the second request comes first, while the acknowledgement is held back. -/
theorem not_replied_in_order :
    ¬∀ (s₀ s : Serving Unit) (es : List (Event Unit)) (id : ℕ), Started s₀ → Run Step s₀ es s →
      RepliedInOrder es id := by
  intro hall
  obtain ⟨resp, s, hr⟩ := run_pipelined
  have hwritten : (Deferral.written 0 (deferralEvents (pipelinedEvents resp)))[0]? =
      some ⟨none, resp⟩ := by
    simp [pipelinedEvents, deferralEvents, Event.deferral, Deferral.written,
      Deferral.Event.written?]
  obtain ⟨f, -, hans⟩ := hall _ s _ 0 (started_single (-1)) hr 0 _ hwritten
  simp [pipelinedEvents, deferralEvents, Event.deferral, Deferral.answers, Deferral.Event.answer?,
    ackReply] at hans

end Fell.Broker.Serving
