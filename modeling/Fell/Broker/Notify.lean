import Fell.Broker.Replicated
import Fell.Lib.Doorbell

/-!
# How a follower gets to know that it has something to send

The callback of a record that a follower has committed puts an acknowledgement in `out_acks_`, and
then sends a byte over a pair of descriptors (`platform::create_notify_pair`), at whose other end
the event loop of the client waits. Only when it finds a byte there does the event loop send what is
in `out_acks_`.

The byte is sent with `platform::send_data`. On Windows, the pair is one of sockets. On Linux it is
a pipe, and `::send` fails for what is no socket.

* `Run.attentive`: with sockets, no acknowledgement is forgotten in `out_acks_`;
* `Run.mute`: with a pipe, all of them are: none is ever sent;
* `acks_of_pairs`: so if all followers are on Linux, a response with `acks=all` is released only if
  it waits for none of them.
-/

namespace Fell.Platform

/-- What `create_notify_pair` makes. -/
inductive NotifyPair
  /-- On Linux, a pipe. -/
  | pipe
  /-- On Windows, two sockets connected with each other, that hold so many bytes. -/
  | sockets (capacity : ℕ) (hpos : 0 < capacity)

namespace NotifyPair

/-- `send_data` of one byte to the one end: what it returns, and how many bytes there are to read
    then. A pipe is refused (`ENOTSOCK`). -/
def sendData : NotifyPair → ℕ → ℤ × ℕ
  | .pipe, n => (-1, n)
  | .sockets capacity _, n => if n < capacity then (1, n + 1) else (-1, n)

/-- `recv_data` from the other end, into a buffer of the length `len`. -/
def recvData (len : ℕ) : NotifyPair → ℕ → ℤ × ℕ
  | .pipe, n => (-1, n)
  | .sockets _ _, n => if n = 0 then (-1, 0) else (min len n, n - min len n)

theorem sendData_sockets_pos {capacity : ℕ} (hpos : 0 < capacity) (n : ℕ) :
    0 < ((sockets capacity hpos).sendData n).2 := by
  rw [sendData]
  split_ifs with hlt
  · exact Nat.succ_pos n
  · exact hpos.trans_le (Nat.not_lt.1 hlt)

end NotifyPair

end Fell.Platform

namespace Fell.Replication.Leader

variable {maxLag : UInt64} {s s₀ : Leader} {es : List Event} {pa : PendingAck}

/-- Without acknowledgements, an entry is released only if it waits for none. -/
theorem Run.length_isrIds_le_one (hr : Run (Step maxLag) s₀ es s) (hnil : s₀.manager.pending = [])
    (hacks : acks es = []) (hpa : pa ∈ es.flatMap Event.releases)
    (hlt : pa.registeredAt.isrIds.length < 2 ^ 31) : pa.registeredAt.isrIds.length ≤ 1 := by
  obtain ⟨e, he, hrel⟩ := List.mem_flatMap.1 hpa
  obtain ⟨es₁, t, t', es₂, rfl, hbefore, hst, -⟩ := hr.exists_step he
  obtain ⟨hmem, pa', hc, -, hreg, htracked, -⟩ := hst.complete_of_releases hrel es₁
  have ht := htracked (Run.tracked hbefore hnil pa hmem)
  have hnone : pa'.ackedFollowers = ∅ := by
    refine Finset.eq_empty_of_forall_notMem fun f hf => ?_
    obtain ⟨a, ha, -⟩ := ht.acked f hf
    have hall : acks (es₁ ++ [e]) <+: acks (es₁ ++ e :: es₂) := by simp [acks]
    exact List.not_mem_nil (hacks ▸ hall.subset ha)
  have hle := ht.length_isrIds_le hc (hreg ▸ hlt)
  rwa [hnone, Finset.card_empty, Nat.zero_add, hreg] at hle

end Fell.Replication.Leader

namespace Fell.Broker

open Platform Replication Storage

/-! ## What is queued and sent -/

/-- The acknowledgements that are sent, and not delivered. -/
def Link.inNetwork (l : Link) : List ReplicaAck := l.sent ++ l.lingering

namespace Replicating

variable {κ : Type} {maxLag : UInt64} {s s' : Replicating κ} {e : Event κ} {i : UInt32}

/-- The acknowledgements that a follower puts in its queue in a step. -/
def Event.fired (i : UInt32) : Event κ → List ReplicaAck
  | .linked j (.followed e) => if j = i then e.fired else []
  | _ => []

/-- A step of another part leaves the acknowledgements of a follower where they are. A step of its
    own adds to its queue, unless it empties it. -/
theorem Step.outAcks_eq (hst : Step maxLag s e s') (he : e ≠ .linked i .drained) :
    (s'.links i).outAcks = (s.links i).outAcks ++ e.fired i := by
  cases hst with
  | publish hst he => exact (List.append_nil _).symm
  | @link j e a hst hb =>
    by_cases hj : j = i
    · subst hj
      dsimp only
      rw [Function.update_self]
      cases hst with
      | follow hst hown =>
        rw [Event.fired, if_pos rfl]
        rfl
      | drain => exact absurd rfl he
      | drop => exact (List.append_nil _).symm
      | deliver | deliverLate | lead | tick => exact hb.elim
    · have hnil : Event.fired i (.linked j e : Event κ) = [] := by
        cases e with
        | followed => exact if_neg hj
        | _ => rfl
      dsimp only
      rw [Function.update_of_ne (Ne.symm hj), hnil, List.append_nil]
  | @deliver j ack a released publishing hst hlead =>
    refine Eq.trans ?_ (List.append_nil _).symm
    by_cases hj : i = j
    · subst hj
      dsimp only
      rw [Function.update_self]
      cases hst <;> rfl
    · exact congrArg Link.outAcks (Function.update_of_ne hj _ _)

theorem Step.outAcks_of_drained (hst : Step maxLag s (.linked i .drained) s') :
    (s'.links i).outAcks = [] := by
  cases hst with
  | link _ hst hb =>
    dsimp only
    rw [Function.update_self]
    cases hst
    rfl

/-- Nothing is sent but what the event loop takes out. -/
theorem Step.inNetwork_eq_nil (hst : Step maxLag s e s') (he : e ≠ .linked i .drained)
    (h : (s.links i).inNetwork = []) :
    (s'.links i).inNetwork = [] ∧ ∀ ack released, e ≠ .delivered i ack released := by
  obtain ⟨hsent, hlingering⟩ := List.append_eq_nil_iff.1 h
  cases hst with
  | publish hst he => exact ⟨h, by rintro _ _ ⟨⟩⟩
  | @link j e a hst hb =>
    refine ⟨?_, by rintro _ _ ⟨⟩⟩
    by_cases hj : j = i
    · subst hj
      dsimp only
      rw [Function.update_self]
      cases hst with
      | follow hst hown =>
        simp [Link.inNetwork, Link.ofAcking, Acking.follow, Link.acking, hsent, hlingering]
      | drain => exact absurd rfl he
      | drop hs =>
        dsimp only [Link.acking] at hs
        rw [hlingering] at hs
        exact absurd hs (by simp)
      | deliver | deliverLate | lead | tick => exact hb.elim
    · dsimp only
      rwa [Function.update_of_ne (Ne.symm hj)]
  | @deliver j ack a released publishing hst hlead =>
    by_cases hj : i = j
    · subst hj
      cases hst with
      | deliver hs =>
        dsimp only [Link.acking] at hs
        exact absurd (hsent.symm.trans hs) (by simp)
      | deliverLate hs =>
        dsimp only [Link.acking] at hs
        exact absurd (hlingering.symm.trans hs) (by simp)
    · refine ⟨?_, fun _ _ heq => hj (Event.delivered.inj heq).1.symm⟩
      dsimp only
      rwa [Function.update_of_ne hj]

/-- The leader handles only what is delivered. -/
theorem Run.acks_eq_nil {s₀ : Replicating κ} {es : List (Event κ)}
    (hr : Run (Step maxLag) s₀ es s) (h : ∀ i ack released, .delivered i ack released ∉ es) :
    Leader.acks (leaderEvents es) = [] := by
  rw [Leader.acks, leaderEvents, List.flatMap_assoc]
  refine List.flatMap_eq_nil_iff.2 fun e he => ?_
  obtain ⟨es₁, t, t', es₂, -, -, hst, -⟩ := hr.exists_step he
  cases hst with
  | publish hst hun => exact hun.acks_eq_nil
  | link => rfl
  | deliver i => exact absurd he (h i _ _)

end Replicating

/-! ## The event loops of the followers -/

/-- A leader and its followers, with the notify pairs of the replication clients. -/
structure Notifying (κ : Type) where
  replicating : Replicating κ
  bells : UInt32 → Doorbell

namespace Notifying

variable {κ : Type}

/-- What happens in a step. -/
inductive Event (κ : Type)
  | moved (e : Replicating.Event κ)
  | rang (i : UInt32)
  | heard (i : UInt32)

/-- A step of the brokers, in which the event loop of a follower takes out its acknowledgements only
    when it has read from its notify pair. -/
inductive Step (pairs : UInt32 → NotifyPair) (maxLag : UInt64) (s : Notifying κ) :
    Event κ → Notifying κ → Prop
  /-- A callback that puts an acknowledgement in the queue is to send a byte then. -/
  | move {e : Replicating.Event κ} {r : Replicating κ}
      (hst : Replicating.Step maxLag s.replicating e r) (he : ∀ i, e ≠ .linked i .drained) :
      Step pairs maxLag s (.moved e)
        { replicating := r, bells := fun i => (s.bells i).put (e.fired i).length }
  | ring {i : UInt32} (hdue : 0 < (s.bells i).due) :
      Step pairs maxLag s (.rang i)
        { s with
          bells := Function.update s.bells i
            ((s.bells i).ring fun n => ((pairs i).sendData n).2) }
  /-- The poller finds a byte. -/
  | hear {i : UInt32} (hrung : 0 < (s.bells i).rung) :
      Step pairs maxLag s (.heard i)
        { s with
          bells := Function.update s.bells i
            ((s.bells i).hear fun n => ((pairs i).recvData 64 n).2) }
  | drain {i : UInt32} {r : Replicating κ}
      (hst : Replicating.Step maxLag s.replicating (.linked i .drained) r)
      (ha : (s.bells i).answering = true) :
      Step pairs maxLag s (.moved (.linked i .drained))
        { replicating := r, bells := Function.update s.bells i (s.bells i).take }

variable {pairs : UInt32 → NotifyPair} {maxLag : UInt64} {s s' s₀ : Notifying κ} {e : Event κ}
  {es : List (Event κ)} {i : UInt32}

/-- What the brokers do in a step. -/
def Event.ofReplicating : Event κ → List (Replicating.Event κ)
  | .moved e => [e]
  | .rang _ | .heard _ => []

/-- What the brokers have done. -/
def replicatingEvents (es : List (Event κ)) : List (Replicating.Event κ) :=
  es.flatMap Event.ofReplicating

theorem Step.replicating_run (hst : Step pairs maxLag s e s') :
    Run (Replicating.Step maxLag) s.replicating e.ofReplicating s'.replicating := by
  cases hst with
  | move hst he => exact .single hst
  | drain hst ha => exact .single hst
  | ring | hear => exact .nil

/-- A run is one of the brokers. -/
theorem Run.replicating (hr : Run (Step pairs maxLag) s₀ es s) :
    Run (Replicating.Step maxLag) s₀.replicating (replicatingEvents es) s.replicating :=
  hr.project Notifying.replicating Event.ofReplicating Step.replicating_run

/-- The brokers have just started, and no bell was rung. -/
structure Started (s₀ : Notifying κ) : Prop where
  replicating : s₀.replicating.Started
  bells : ∀ i, s₀.bells i = {}

theorem Started.outAcks (h : Started s₀) (i : UInt32) : (s₀.replicating.links i).outAcks = [] :=
  (List.append_eq_nil_iff.1 (h.replicating.underway i)).1

theorem Started.inNetwork (h : Started s₀) (i : UInt32) :
    (s₀.replicating.links i).inNetwork = [] :=
  (List.append_eq_nil_iff.1 (h.replicating.underway i)).2

/-! ## Sockets -/

/-- No acknowledgement is forgotten in the queue of a follower. -/
def Attentive (i : UInt32) (s : Notifying κ) : Prop :=
  (s.bells i).Attentive ((s.replicating.links i).outAcks ≠ [])

theorem Step.attentive (hst : Step pairs maxLag s e s') (hpair : pairs i ≠ .pipe)
    (h : s.Attentive i) : s'.Attentive i := by
  cases hst with
  | @move e r hst he =>
    refine Doorbell.Attentive.put h fun hne => ?_
    rw [hst.outAcks_eq (he i), ← List.length_pos_iff, List.length_append] at hne
    rw [← List.length_pos_iff]
    omega
  | @ring j hdue =>
    by_cases hj : i = j
    · subst hj
      rw [Attentive]
      dsimp only
      rw [Function.update_self]
      refine Doorbell.attentive_ring ?_
      cases hp : pairs i with
      | pipe => exact absurd hp hpair
      | sockets capacity hpos => exact NotifyPair.sendData_sockets_pos hpos _
    · rw [Attentive]
      dsimp only
      rwa [Function.update_of_ne hj]
  | @hear j hrung =>
    rw [Attentive]
    dsimp only
    by_cases hj : i = j
    · subst hj
      rw [Function.update_self]
      exact Doorbell.attentive_hear
    · rwa [Function.update_of_ne hj]
  | @drain j r hst ha =>
    rw [Attentive]
    dsimp only
    by_cases hj : i = j
    · subst hj
      rw [Function.update_self]
      exact Doorbell.attentive_take (not_not.2 hst.outAcks_of_drained)
    · have hother : (.linked j .drained : Replicating.Event κ) ≠ .linked i .drained :=
        fun heq => hj (Replicating.Event.linked.inj heq).1.symm
      rw [Function.update_of_ne hj, hst.outAcks_eq hother]
      exact (List.append_nil (s.replicating.links i).outAcks).symm ▸ h

theorem Run.attentive (hr : Run (Step pairs maxLag) s₀ es s) (h : Started s₀)
    (hpair : pairs i ≠ .pipe) : s.Attentive i :=
  hr.invariant (I := fun _ s => s.Attentive i) (fun hne => absurd (h.outAcks i) hne)
    fun _ ih hst => hst.attentive hpair ih

/-! ## Pipes -/

/-- The acknowledgements that a follower puts in its queue in a step. -/
def Event.queued (i : UInt32) : Event κ → List ReplicaAck
  | .moved e => e.fired i
  | .rang _ | .heard _ => []

/-- All acknowledgements that a follower has put in its queue are still there, and none was
    delivered. -/
structure Mute (i : UInt32) (es : List (Event κ)) (s : Notifying κ) : Prop where
  silent : (s.bells i).Silent
  inNetwork : (s.replicating.links i).inNetwork = []
  outAcks : (s.replicating.links i).outAcks = es.flatMap (Event.queued i)
  undelivered : ∀ ack released, .moved (.delivered i ack released) ∉ es

/-- The brokers move, and the event loop of the follower takes nothing out. -/
theorem Mute.move {e : Replicating.Event κ} {r : Replicating κ} {b : UInt32 → Doorbell}
    (h : Mute i es s) (hst : Replicating.Step maxLag s.replicating e r)
    (he : e ≠ .linked i .drained) (hb : (b i).Silent) :
    Mute i (es ++ [.moved e]) ⟨r, b⟩ where
  silent := hb
  inNetwork := (hst.inNetwork_eq_nil he h.inNetwork).1
  outAcks := by
    rw [hst.outAcks_eq he, h.outAcks, List.flatMap_append, List.flatMap_singleton, Event.queued]
  undelivered ack released hmem := by
    rcases List.mem_append.1 hmem with hmem | hmem
    · exact h.undelivered ack released hmem
    · cases List.mem_singleton.1 hmem
      exact (hst.inNetwork_eq_nil he h.inNetwork).2 ack released rfl

/-- The brokers do not move. -/
theorem Mute.stay {b : UInt32 → Doorbell} (h : Mute i es s) (he : e.ofReplicating = [])
    (hb : (b i).Silent) : Mute i (es ++ [e]) { s with bells := b } := by
  cases e with
  | moved e => cases he
  | rang j | heard j =>
    refine ⟨hb, h.inNetwork, ?_, fun ack released hmem => ?_⟩
    · rw [h.outAcks, List.flatMap_append, List.flatMap_singleton, Event.queued, List.append_nil]
    · rcases List.mem_append.1 hmem with hmem | hmem
      · exact h.undelivered ack released hmem
      · cases List.mem_singleton.1 hmem

theorem Step.mute (hst : Step pairs maxLag s e s') (hpair : pairs i = .pipe) (h : Mute i es s) :
    Mute i (es ++ [e]) s' := by
  cases hst with
  | move hst he => exact h.move hst (he i) (h.silent.put _)
  | @ring j hdue =>
    refine h.stay rfl ?_
    by_cases hj : i = j
    · subst hj
      rw [Function.update_self, hpair]
      exact h.silent.ring rfl
    · rw [Function.update_of_ne hj]
      exact h.silent
  | @hear j hrung =>
    refine h.stay rfl ?_
    by_cases hj : i = j
    · subst hj
      rw [h.silent.rung] at hrung
      exact absurd hrung (Nat.lt_irrefl 0)
    · rw [Function.update_of_ne hj]
      exact h.silent
  | @drain j r hst ha =>
    by_cases hj : i = j
    · subst hj
      rw [h.silent.answering] at ha
      exact absurd ha Bool.false_ne_true
    · refine h.move hst (fun heq => hj (Replicating.Event.linked.inj heq).1.symm) ?_
      rw [Function.update_of_ne hj]
      exact h.silent

theorem Run.mute (hr : Run (Step pairs maxLag) s₀ es s) (h : Started s₀) (hpair : pairs i = .pipe) :
    Mute i es s := by
  refine hr.invariant (I := Mute i) ⟨?_, h.inNetwork i, h.outAcks i, ?_⟩
    fun _ ih hst => hst.mute hpair ih
  · rw [h.bells]
    exact ⟨rfl, rfl⟩
  · exact fun _ _ => List.not_mem_nil

/-! ## What is released -/

/-- The entries of the replica manager that are released. -/
def released (es : List (Event κ)) : List PendingAck :=
  (Replicating.leaderEvents (replicatingEvents es)).flatMap Leader.Event.releases

theorem mem_of_mem_replicatingEvents {e : Replicating.Event κ} (he : e ∈ replicatingEvents es) :
    .moved e ∈ es := by
  obtain ⟨e', hmem, he⟩ := List.mem_flatMap.1 he
  cases e' with
  | moved e' => rwa [List.mem_singleton.1 he]
  | rang | heard => exact absurd he List.not_mem_nil

/-- In every run of a leader and its followers from empty partitions, each on Windows or on Linux.
    On Windows, the event loop of a follower always gets to know of the acknowledgements in its
    queue: it is about to take them out, or a byte is there or about to be sent. On Linux, all of
    them stay in the queue. So if all followers are on Linux, a response with `acks=all` is released
    only if at most one replica was in sync when it was registered. -/
theorem acks_of_pairs (h : Started s₀) (hr : Run (Step pairs maxLag) s₀ es s) :
    (∀ i, pairs i ≠ .pipe → s.Attentive i) ∧ (∀ i, pairs i = .pipe → Mute i es s) ∧
      ((∀ i, pairs i = .pipe) → ∀ pa ∈ released es, pa.registeredAt.isrIds.length < 2 ^ 31 →
        pa.registeredAt.isrIds.length ≤ 1) := by
  refine ⟨fun i => Run.attentive hr h, fun i => Run.mute hr h, fun hpipes pa hpa hlt => ?_⟩
  have hrep := Run.replicating hr
  have hacks := Replicating.Run.acks_eq_nil hrep fun i ack released hmem =>
    (Run.mute hr h (hpipes i)).undelivered ack released (mem_of_mem_replicatingEvents hmem)
  have hleader := Publishing.Run.leader (Replicating.Run.publishing hrep)
  rw [← Replicating.leaderEvents_eq] at hleader
  have hnil : s₀.replicating.publishing.leader.manager.pending = [] := by
    rw [h.replicating.leader]
  exact Leader.Run.length_isrIds_le_one hleader hnil hacks hpa hlt

/-- Steps in which nothing is taken out of a queue. -/
theorem exists_run_moved {r₀ r : Replicating κ} {res : List (Replicating.Event κ)}
    (hr : Run (Replicating.Step maxLag) r₀ res r)
    (hres : ∀ e ∈ res, ∀ i, e ≠ .linked i .drained) (b : UInt32 → Doorbell) :
    ∃ b', Run (Step pairs maxLag) ⟨r₀, b⟩ (res.map .moved) ⟨r, b'⟩ := by
  induction hr with
  | nil => exact ⟨b, .nil⟩
  | snoc hr hst ih =>
    obtain ⟨b', hr'⟩ := ih fun e he => hres e (List.mem_append_left _ he)
    rw [List.map_append]
    exact ⟨_, hr'.snoc (.move hst (hres _ (by simp)))⟩

/-- On Linux, a follower commits a record, and its acknowledgement stays where it is. -/
theorem acks_of_pairs_pipe : ∃ (es : List (Event Unit)) (s : Notifying Unit),
    Started ⟨Replicating.beforeOne, fun _ => {}⟩ ∧
      Run (Step (fun _ => .pipe) 0) ⟨Replicating.beforeOne, fun _ => {}⟩ es s ∧
      (s.replicating.links 1).outAcks = [Acking.onlyAck] ∧
      s.replicating.publishing.leader.manager.pending.length = 1 ∧ Mute 1 es s := by
  have hstart : Started ⟨Replicating.beforeOne, fun _ => {}⟩ :=
    ⟨Replicating.started_beforeOne, fun _ => rfl⟩
  have hmoved : ∀ e ∈ Replicating.oneEvents, ∀ i, e ≠ .linked i .drained := by
    simp [Replicating.oneEvents, Replicating.committedEvents, PartitionStore.notifyOneEvents,
      Acking.writtenEvents, Follower.receiveEvents]
  obtain ⟨b, hr⟩ : ∃ b, Run (Step (fun _ => .pipe) 0) ⟨Replicating.beforeOne, fun _ => {}⟩ _
      ⟨_, b⟩ := exists_run_moved Replicating.run_acknowledgedOne.of_guarded hmoved _
  refine ⟨_, _, hstart, hr, ?_, rfl, (acks_of_pairs hstart hr).2.1 1 rfl⟩
  dsimp only
  rw [Function.update_self]
  rfl

end Notifying

end Fell.Broker
