import Fell.Lib.Transition
import Fell.Replication.ReplicaSync
import Mathlib.Data.List.AList

/-!
# The sockets of the followers

A replica manager streams what is committed to the sockets its followers have asked on
(`replica_manager.cpp`). It knows them by their descriptors, which `set_follower_fd` enters when
a follower sends `FETCH_LOG`. The replication server closes the sockets of followers that are
gone, but nothing takes their descriptors from the replica managers, and the operating
system gives them to the sockets that are opened next.

The threads are the replication server, the workers of the replica managers, and all that
open and close sockets otherwise. What the workers have to send, and when, is left open.

* `Run.tied`: as long as no descriptor is given out again that a replica manager knows, those
  that are open belong to the followers they are entered for;
* `streamed_to_follower`: then the workers write to followers that have asked for it.

Otherwise a client may be sent a follower's records (`not_streamed_to_follower`).
-/

namespace Fell.Replication

open Platform

/-- A socket that is open. -/
inductive Socket
  /-- Accepted by the replication server. The requests are those received on it, with the
      follower and the partition they name. -/
  | replication (requests : List (UInt32 × Bytes × UInt16))
  /-- Of a client, a listening socket, or one to a peer. -/
  | other

/-- The follower has asked for the partition on this socket. -/
def Socket.Requested (followerId : UInt32) (tp : Bytes × UInt16) : Socket → Prop
  | .replication requests => (followerId, tp) ∈ requests
  | .other => False

/-- A call of `send_data` in `worker_loop`. -/
structure FollowerSend where
  followerId : UInt32
  fd : ℤ
  data : Bytes

/-- The part of a replica manager that streams. -/
structure FollowerStream where
  followerFds : AList fun _ : UInt32 => ℤ := ∅
  /-- What is left to send, with `fds_mu_` held. -/
  sends : List FollowerSend := []

namespace FollowerStream

variable (m : FollowerStream)

/-- `set_follower_fd`. -/
def setFollowerFd (followerId : UInt32) (fd : ℤ) : FollowerStream :=
  { m with followerFds := m.followerFds.insert followerId fd }

/-- The end of a round of `worker_loop`: the records for each follower, in the order in which the
    map is gone through. -/
def stream (tp : Bytes × UInt16) (epoch : UInt32) (records : List Storage.Record)
    (order : List (UInt32 × ℤ)) : FollowerStream :=
  { m with
    sends := order.flatMap fun (followerId, fd) => records.flatMap fun r =>
      (workerPieces { topic := tp.1, partitionIdx := tp.2 } epoch r).map (⟨followerId, fd, ·⟩) }

end FollowerStream

/-- A broker, as far as the sockets of followers are concerned. -/
structure FollowerSockets where
  /-- The sockets that are open, by their descriptors. -/
  sockets : ℤ → Option Socket
  /-- The partitions that exist. -/
  partitions : List (Bytes × UInt16)
  /-- The replica managers, by their partitions. -/
  managers : Bytes × UInt16 → Option FollowerStream

namespace FollowerSockets

variable (s : FollowerSockets)

/-- A descriptor is given to a socket, or taken from it. -/
def setSocket (fd : ℤ) (k : Option Socket) : FollowerSockets :=
  { s with sockets := Function.update s.sockets fd k }

def setManager (tp : Bytes × UInt16) (m : FollowerStream) : FollowerSockets :=
  { s with managers := Function.update s.managers tp (some m) }

/-- What happens in a step. -/
inductive Event
  | accepted (fd : ℤ)
  | opened (fd : ℤ)
  | closed (fd : ℤ)
  | created (tp : Bytes × UInt16)
  | led (tp : Bytes × UInt16)
  | received (fd : ℤ) (followerId : UInt32) (tp : Bytes × UInt16)
  | registered (fd : ℤ) (followerId : UInt32) (tp : Bytes × UInt16)
  | turnedDown (fd : ℤ)
  | locked (tp : Bytes × UInt16)
  | written (tp : Bytes × UInt16) (send : FollowerSend)
  | failed (tp : Bytes × UInt16) (send : FollowerSend)

/-- A step of the threads of a broker. -/
inductive Step (s : FollowerSockets) : Event → FollowerSockets → Prop
  /-- The replication server accepts a connection. -/
  | accept {fd : ℤ} (hfree : s.sockets fd = none) :
      Step s (.accepted fd) (s.setSocket fd (some (.replication [])))
  /-- A socket is opened otherwise. -/
  | openOther {fd : ℤ} (hfree : s.sockets fd = none) :
      Step s (.opened fd) (s.setSocket fd (some .other))
  /-- A socket is closed, by whoever it belongs to. -/
  | close {fd : ℤ} (hopen : s.sockets fd ≠ none) : Step s (.closed fd) (s.setSocket fd none)
  | create (tp : Bytes × UInt16) :
      Step s (.created tp) { s with partitions := s.partitions ++ [tp] }
  /-- `get_or_create_replica_manager`. -/
  | lead {tp : Bytes × UInt16} (hnone : s.managers tp = none) :
      Step s (.led tp) (s.setManager tp {})
  /-- `handle_fetch_log`, for a partition that exists. The replica manager, if there is one, is
      told after that. -/
  | receive {fd : ℤ} {requests : List (UInt32 × Bytes × UInt16)} (followerId : UInt32)
      {tp : Bytes × UInt16} (hsock : s.sockets fd = some (.replication requests))
      (hpart : tp ∈ s.partitions) :
      Step s (.received fd followerId tp)
        (s.setSocket fd (some (.replication (requests ++ [(followerId, tp)]))))
  /-- `set_follower_fd`, which waits for `fds_mu_`. The replication server is still in
      `handle_fetch_log`, so the socket is open. -/
  | register {fd : ℤ} {k : Socket} {followerId : UInt32} {tp : Bytes × UInt16} {m : FollowerStream}
      (hsock : s.sockets fd = some k) (hreq : k.Requested followerId tp)
      (hm : s.managers tp = some m) (hlock : m.sends = []) :
      Step s (.registered fd followerId tp) (s.setManager tp (m.setFollowerFd followerId fd))
  /-- `handle_fetch_log`, for a partition that does not exist. -/
  | turnDown {fd : ℤ} {requests : List (UInt32 × Bytes × UInt16)} {tp : Bytes × UInt16}
      (hsock : s.sockets fd = some (.replication requests)) (hpart : tp ∉ s.partitions) :
      Step s (.turnedDown fd) (s.setSocket fd none)
  /-- A worker has something to send. -/
  | lock {tp : Bytes × UInt16} {m : FollowerStream} (epoch : UInt32)
      (records : List Storage.Record) {order : List (UInt32 × ℤ)} (hm : s.managers tp = some m)
      (hlock : m.sends = [])
      (horder : order.Perm (m.followerFds.entries.map fun x => (x.1, x.2))) :
      Step s (.locked tp) (s.setManager tp (m.stream tp epoch records order))
  | write {tp : Bytes × UInt16} {m : FollowerStream} {x : FollowerSend} {rest : List FollowerSend}
      (hm : s.managers tp = some m) (hsends : m.sends = x :: rest) (hopen : s.sockets x.fd ≠ none) :
      Step s (.written tp x) (s.setManager tp { m with sends := rest })
  /-- Nothing is written to a descriptor that is not open. -/
  | fail {tp : Bytes × UInt16} {m : FollowerStream} {x : FollowerSend} {rest : List FollowerSend}
      (hm : s.managers tp = some m) (hsends : m.sends = x :: rest)
      (hclosed : s.sockets x.fd = none) :
      Step s (.failed tp x) (s.setManager tp { m with sends := rest })

variable {s} {s' s₀ : FollowerSockets} {e : Event} {es : List Event} {fd : ℤ}

theorem sockets_setSocket (k : Option Socket) (fd' : ℤ) :
    (s.setSocket fd k).sockets fd' = if fd' = fd then k else s.sockets fd' :=
  Function.update_apply ..

theorem managers_setManager (tp tp' : Bytes × UInt16) (m : FollowerStream) :
    (s.setManager tp m).managers tp' = if tp' = tp then some m else s.managers tp' :=
  Function.update_apply ..

/-- A replica manager has the descriptor for a follower. -/
def Knows (s : FollowerSockets) (tp : Bytes × UInt16) (followerId : UInt32) (fd : ℤ) : Prop :=
  ∃ m, s.managers tp = some m ∧ m.followerFds.lookup followerId = some fd

/-- A descriptor that a replica manager knows is not given to a new socket. -/
def Unknown (s : FollowerSockets) : Event → Prop
  | .accepted fd | .opened fd => ∀ tp followerId, ¬s.Knows tp followerId fd
  | _ => True

/-- The sockets known are closed, or belong to the followers. What is sent is sent to those. -/
structure Tied (s : FollowerSockets) : Prop where
  requested : ∀ {tp followerId fd}, s.Knows tp followerId fd → ∀ k, s.sockets fd = some k →
    k.Requested followerId tp
  sends : ∀ {tp m}, s.managers tp = some m → ∀ x ∈ m.sends, s.Knows tp x.followerId x.fd

/-- A change of sockets that leaves to those known what was asked on them. -/
theorem Tied.setSocket (h : Tied s) {k : Option Socket}
    (hk : ∀ tp followerId, s.Knows tp followerId fd → ∀ k' ∈ k, k'.Requested followerId tp) :
    Tied (s.setSocket fd k) where
  requested {tp followerId fd'} hknow k' hk' := by
    rw [sockets_setSocket] at hk'
    split_ifs at hk' with hfd
    · exact hk tp followerId (hfd ▸ hknow) k' hk'
    · exact h.requested hknow k' hk'
  sends := h.sends

/-- A change of a replica manager. -/
theorem Tied.setManager (h : Tied s) {tp : Bytes × UInt16} {m : FollowerStream}
    (hfds : ∀ followerId fd, m.followerFds.lookup followerId = some fd →
      ∀ k, s.sockets fd = some k → k.Requested followerId tp)
    (hsends : ∀ x ∈ m.sends, m.followerFds.lookup x.followerId = some x.fd) :
    Tied (s.setManager tp m) where
  requested {tp' followerId fd} hknow k hk := by
    obtain ⟨m', hm', hlook⟩ := hknow
    rw [managers_setManager] at hm'
    split_ifs at hm' with htp
    · obtain rfl := Option.some.inj hm'
      exact htp ▸ hfds followerId fd hlook k hk
    · exact h.requested ⟨m', hm', hlook⟩ k hk
  sends {tp' m'} hm' x hx := by
    have hm'' := hm'
    rw [managers_setManager] at hm''
    split_ifs at hm'' with htp
    · obtain rfl := Option.some.inj hm''
      exact ⟨m, hm', hsends x hx⟩
    · obtain ⟨m₁, hm₁, hlook⟩ := h.sends hm'' x hx
      obtain rfl := Option.some.inj (hm''.symm.trans hm₁)
      exact ⟨m', hm', hlook⟩

/-- What a worker sends is for the followers it knows. -/
theorem mem_stream {m : FollowerStream} {tp : Bytes × UInt16} {epoch : UInt32}
    {records : List Storage.Record} {order : List (UInt32 × ℤ)} {x : FollowerSend}
    (horder : order.Perm (m.followerFds.entries.map fun x => (x.1, x.2)))
    (hx : x ∈ (m.stream tp epoch records order).sends) :
    m.followerFds.lookup x.followerId = some x.fd := by
  obtain ⟨⟨followerId, fd⟩, hmem, hx⟩ := List.mem_flatMap.1 hx
  obtain ⟨r, -, hx⟩ := List.mem_flatMap.1 hx
  obtain ⟨data, -, rfl⟩ := List.mem_map.1 hx
  obtain ⟨⟨followerId', fd'⟩, hentry, heq⟩ := List.mem_map.1 (horder.mem_iff.1 hmem)
  obtain ⟨rfl, rfl⟩ := Prod.mk.inj heq
  exact AList.mem_lookup_iff.2 hentry

/-- A worker goes on to the next call. -/
theorem Tied.next (h : Tied s) {tp : Bytes × UInt16} {m : FollowerStream} {x : FollowerSend}
    {rest : List FollowerSend} (hm : s.managers tp = some m) (hsends : m.sends = x :: rest) :
    Tied (s.setManager tp { m with sends := rest }) := by
  refine h.setManager (fun followerId fd hlook => h.requested ⟨m, hm, hlook⟩) fun y hy => ?_
  obtain ⟨m', hm', hlook⟩ := h.sends hm y (hsends ▸ List.mem_cons_of_mem x hy)
  obtain rfl := Option.some.inj (hm.symm.trans hm')
  exact hlook

theorem Step.tied (hst : Step s e s') (hG : Unknown s e) (h : Tied s) : Tied s' := by
  cases hst with
  | accept hfree | openOther hfree =>
    -- By the guard, nobody has registered the descriptor.
    exact h.setSocket fun tp followerId hknow => absurd hknow (hG tp followerId)
  | close hopen => exact h.setSocket fun _ _ _ _ hk' => nomatch hk'
  | create tp => exact ⟨h.requested, h.sends⟩
  | lead hnone =>
    exact h.setManager (fun _ _ hlook => nomatch hlook) fun _ hx => absurd hx List.not_mem_nil
  | receive followerId hsock hpart =>
    -- What was asked for on the socket before stays on record.
    refine h.setSocket fun tp f hknow k hk => ?_
    obtain rfl := Option.some.inj hk
    exact List.mem_append_left _ (h.requested hknow _ hsock)
  | @register fd k followerId tp m hsock hreq hm hlock =>
    refine h.setManager (fun f fd' hlook k' hk' => ?_) fun x hx => ?_
    · -- The socket that is registered is the one the request has come on.
      rw [FollowerStream.setFollowerFd] at hlook
      by_cases hf : f = followerId
      · subst hf
        rw [AList.lookup_insert] at hlook
        obtain rfl := Option.some.inj hlook
        obtain rfl := Option.some.inj (hsock.symm.trans hk')
        exact hreq
      · rw [AList.lookup_insert_ne hf] at hlook
        exact h.requested ⟨m, hm, hlook⟩ k' hk'
    · -- The lock is free: nothing is left to send.
      have hnil : x ∈ m.sends := hx
      rw [hlock] at hnil
      exact absurd hnil List.not_mem_nil
  | turnDown hsock hpart => exact h.setSocket fun _ _ _ _ hk' => nomatch hk'
  | lock epoch records hm hlock horder =>
    exact h.setManager (fun followerId fd hlook => h.requested ⟨_, hm, hlook⟩) fun x hx =>
      mem_stream horder hx
  | write hm hsends hopen => exact h.next hm hsends
  | fail hm hsends hclosed => exact h.next hm hsends

/-- There are no replica managers yet. -/
def Started (s : FollowerSockets) : Prop := ∀ tp, s.managers tp = none

theorem Started.tied (h : Started s) : Tied s where
  requested := fun ⟨_, hm, _⟩ => absurd hm (by simp [h _])
  sends hm := absurd hm (by simp [h _])

theorem Run.tied (hr : Run (Guarded Step Unknown) s₀ es s) (h : Started s₀) : Tied s :=
  hr.invariant (I := fun _ s => Tied s) h.tied fun _ ih hst => hst.1.tied hst.2 ih

/-- What a worker writes goes to a replication connection, on which the follower has asked for
    the partition. -/
def Streamed (s : FollowerSockets) : Event → Prop
  | .written tp x =>
    ∃ requests, s.sockets x.fd = some (.replication requests) ∧ (x.followerId, tp) ∈ requests
  | _ => True

/-- In every run in which no descriptor that a replica manager knows is given out again, what the
    workers write goes to the followers. -/
theorem streamed_to_follower (h : Started s₀) (hr : Run (Guarded Step Unknown) s₀ es s)
    (hst : Guarded Step Unknown s e s') : Streamed s e := by
  have htied := Run.tied hr h
  obtain ⟨hst, -⟩ := hst
  cases hst with
  | @write tp m x rest hm hsends hopen =>
    obtain ⟨k, hk⟩ := Option.ne_none_iff_exists'.1 hopen
    have hknow := htied.sends hm x (hsends ▸ List.mem_cons_self)
    have hreq := htied.requested hknow k hk
    cases k with
    | replication requests => exact ⟨requests, hk, hreq⟩
    | other => exact hreq.elim
  | _ => trivial

/-! ## A client in the place of a follower -/

section

/-- The partition. -/
def firstPartition : Bytes × UInt16 := ([97], 0)

/-- A broker with the partition. -/
def onePartition : FollowerSockets := ⟨fun _ => none, [firstPartition], fun _ => none⟩

/-- The follower `1` has asked on the descriptor `5`. -/
def asked : FollowerSockets :=
  (((onePartition.setManager firstPartition {}).setSocket 5 (some (.replication []))).setSocket 5
    (some (.replication [(1, firstPartition)]))).setManager firstPartition
      (FollowerStream.setFollowerFd {} 1 5)

def askEvents : List Event :=
  [.led firstPartition, .accepted 5, .received 5 1 firstPartition, .registered 5 1 firstPartition]

theorem run_asked {G : FollowerSockets → Event → Prop}
    (hG : ∀ s e, (∀ fd, e ≠ .accepted fd ∧ e ≠ .opened fd) → G s e)
    (haccept : G (onePartition.setManager firstPartition {}) (.accepted 5)) :
    Run (Guarded Step G) onePartition askEvents asked := by
  have hreceive : Step _ (.received 5 1 firstPartition) _ :=
    .receive (s := (onePartition.setManager firstPartition {}).setSocket 5
      (some (.replication []))) 1 rfl (List.mem_singleton_self _)
  have hregister : Step _ (.registered 5 1 firstPartition) asked :=
    .register (k := .replication [(1, firstPartition)]) rfl (List.mem_singleton_self _) rfl rfl
  exact .cons ⟨.lead rfl, hG _ _ fun _ => ⟨nofun, nofun⟩⟩ <|
    .cons ⟨.accept rfl, haccept⟩ <|
    .cons ⟨hreceive, hG _ _ fun _ => ⟨nofun, nofun⟩⟩ <|
    .single ⟨hregister, hG _ _ fun _ => ⟨nofun, nofun⟩⟩

/-- The replica manager, about to send a record to the follower. -/
def firstStream : FollowerStream :=
  FollowerStream.stream (FollowerStream.setFollowerFd {} 1 5) firstPartition 0 [⟨0, 0, .empty⟩]
    [(1, 5)]

theorem lock_firstStream
    (hm : s.managers firstPartition = some (FollowerStream.setFollowerFd {} 1 5)) :
    Step s (.locked firstPartition) (s.setManager firstPartition firstStream) :=
  .lock 0 _ hm rfl (.refl _)

/-- The length of the frame. -/
def firstSend : FollowerSend := ⟨1, 5, hostToBe32 (frameSize 0)⟩

theorem write_firstStream (hopen : s.sockets 5 ≠ none) : ∃ s',
    Step (s.setManager firstPartition firstStream) (.written firstPartition firstSend) s' := by
  refine ⟨_, .write (m := firstStream) ?_ rfl hopen⟩
  rw [managers_setManager, if_pos rfl]

theorem streamed_firstSend : ∃ es s s', Started onePartition ∧
    Run (Guarded Step Unknown) onePartition es s ∧
      Guarded Step Unknown s (.written firstPartition firstSend) s' ∧
        Streamed s (.written firstPartition firstSend) := by
  have hunknown : Unknown (onePartition.setManager firstPartition {}) (.accepted 5) := by
    rintro tp followerId ⟨m, hm, hlook⟩
    rw [managers_setManager] at hm
    split_ifs at hm
    · obtain rfl := Option.some.inj hm
      exact nomatch hlook
    · exact nomatch hm
  have hr : Run (Guarded Step Unknown) onePartition askEvents asked := by
    refine run_asked (fun s e he => ?_) hunknown
    cases e with
    | accepted fd => exact absurd rfl (he fd).1
    | opened fd => exact absurd rfl (he fd).2
    | _ => trivial
  have hlock : Guarded Step Unknown asked _ _ := ⟨lock_firstStream rfl, trivial⟩
  obtain ⟨s', hwrite⟩ := write_firstStream (s := asked) nofun
  have hst : Guarded Step Unknown _ _ s' := ⟨hwrite, trivial⟩
  exact ⟨_, _, s', fun _ => rfl, hr.snoc hlock, hst,
    streamed_to_follower (fun _ => rfl) (hr.snoc hlock) hst⟩

/-- The follower is gone, and a client has its descriptor. -/
theorem not_streamed_to_follower : ¬∀ (s₀ s s' : FollowerSockets) (es : List Event) (e : Event),
    Started s₀ → Run Step s₀ es s → Step s e s' → Streamed s e := by
  intro hall
  have hr := (run_asked (G := fun _ _ => True) (fun _ _ _ => trivial) trivial).of_guarded
  have hclose : Step asked (.closed 5) (asked.setSocket 5 none) := .close nofun
  have hopen : Step (asked.setSocket 5 none) (.opened 5)
      ((asked.setSocket 5 none).setSocket 5 (some .other)) := .openOther rfl
  have hlock := lock_firstStream (s := (asked.setSocket 5 none).setSocket 5 (some .other)) rfl
  obtain ⟨s', hwrite⟩ := write_firstStream
    (s := (asked.setSocket 5 none).setSocket 5 (some .other)) nofun
  obtain ⟨requests, hsock, -⟩ := hall _ _ s' _ _ (fun _ => rfl)
    (((hr.snoc hclose).snoc hopen).snoc hlock) hwrite
  exact nomatch hsock

end

end FollowerSockets

end Fell.Replication
