import Fell.Broker.CatchUp

/-!
# What a follower receives

The bytes on the socket of a follower, which `handle_fetch_log` and the worker of the
replica manager both send to. They are read as a concatenation of frames
(`Lib.LengthPrefixed`), whose `REPLICA_SYNC` frames are to carry the offsets from the one
asked for on.

A frame takes several calls of `send_data`, and only the worker holds `fds_mu_` in between.
Besides, catching up reads what is committed, whether the worker has yet to send it or not.

* `Run.fetchesCommitted`: a fetch that finds the segment its offset lies in, and reads nothing
  of a batch that is being written, returns committed records;
* `synced`: the stream is well formed and in order, if the worker begins to send only when no
  follower is catching up, and has nothing to send when catching up ends (`Serial`).
-/

namespace Fell.Broker

open Platform Replication Storage

namespace Server

variable {σ : Type}

/-- The call of `handle_fetch_log`, from the registration of the follower on. -/
def catchUp : Server σ → Option (CatchUp σ)
  | .looping c | .fetching c | .sending c _ _ | .ending c _ => some c
  | .idle | .requested .. | .failed => none

/-- What is left to send of the current frame. -/
def sends : Server σ → List (Send σ)
  | .sending _ sends _ | .ending _ sends => sends
  | _ => []

/-- The socket, and the offset of the record whose frame is begun next on it. -/
def next : Server σ → Option (σ × ℕ)
  | .looping c | .fetching c => some (c.socket, c.offset.toNat)
  | .sending c sends _ => some (c.socket, c.offset.toNat + if sends = [] then 0 else 1)
  | _ => none

theorem sends_of_catchUp {s : Server σ} (h : s.catchUp = none) : s.sends = [] := by
  cases s with
  | sending | ending => simp [catchUp] at h
  | _ => rfl

theorem next_ne {s : Server σ} {socket : σ} (h : ∀ c, s.catchUp = some c → c.socket ≠ socket)
    (m : ℕ) : s.next ≠ some (socket, m) := by
  cases s with
  | looping c | fetching c | sending c =>
    exact fun hm => h c rfl (congrArg Prod.fst (Option.some.inj hm))
  | _ => simp [next]

end Server

namespace Feed

variable {κ σ : Type} {maxLag : UInt64} {s s' s₀ : Feed κ σ} {e : Event κ σ}
  {es : List (Event κ σ)}

/-! ## The fetches -/

/-- An offset lies in the segment that is found for it. -/
def Finds (s : Feed κ σ) (offset : UInt64) : Prop :=
  ∃ base, s.live.view.findSegmentFor offset = some base ∧
    offset.toNat < base.toNat + (s.live.store.records base).length

/-- The worker begins to send when no follower is catching up, and catching up ends when the
    worker has nothing to send. A follower does not ask for more than is committed, and is sent
    nothing too large for a frame. Fetches find the segments of their offsets, and do not
    return while records of a batch that is being written can be read. -/
def Serial (s : Feed κ σ) : Event κ σ → Prop
  | .locked qc => s.server.catchUp = none ∧ ∀ r ∈ qc.records, FitsFrame r.payload
  | .left => s.awaiting = []
  | .registered _ startOffset _ => startOffset ≤ s.committedOffset
  | .framed r => FitsFrame r.payload
  | .lived (.located .replicationServer offset _) => s.Finds offset
  | .lived (.failed .replicationServer offset _) => s.Finds offset
  | .lived (.returned .replicationServer offset maxCount found) =>
    (s.live.readers .replicationServer = none → s.Finds offset) ∧
      s.live.Shielded (.returned .replicationServer offset maxCount found)
  | _ => True

/-- The replication server fetches what it sends next. -/
def Fetching (s : Feed κ σ) : Prop :=
  match s.server with
  | .fetching c => ∀ r, s.live.readers .replicationServer = some r → r.offset = c.offset ∧
      r.maxCount = fetchCount ∧
      c.offset.toNat < r.base.toNat + (s.live.store.records r.base).length
  | _ => s.live.readers .replicationServer = none

theorem fetching_of_readers (h : s.live.readers .replicationServer = none) : s.Fetching := by
  rw [Fetching]
  split
  · exact fun r hr => absurd hr (by simp [h])
  · exact h

theorem Fetching.readers (h : s.Fetching) (hs : ∀ c, s.server ≠ .fetching c) :
    s.live.readers .replicationServer = none := by
  rw [Fetching] at h
  split at h
  · exact absurd ‹_› (hs _)
  · exact h

/-- What is read is committed, and so the log it is read from only gets longer. -/
theorem Fetching.live {live : Live κ FetchThread} {e : Live.Event κ FetchThread} {leader : Leader}
    (h : s.Fetching) (hst : Live.Step s.live e live) (hcoh : s.live.Coherent) (hp : s.live.Placed)
    (he : live.readers .replicationServer = s.live.readers .replicationServer) :
    Fetching { s with live, leader } := by
  rw [Fetching] at h ⊢
  dsimp only
  split
  · next c hs =>
    simp only [hs] at h
    intro r hr
    rw [he] at hr
    obtain ⟨hoff, hmax, hlt⟩ := h r hr
    obtain ⟨i, hat⟩ := hp.readers _ r hr
    exact ⟨hoff, hmax, hlt.trans_le (Nat.add_le_add_left
      (hst.records_isPrefix hcoh hat.mem).length_le _)⟩
  · next hs =>
    split at h
    · exact absurd ‹_› (hs _)
    · exact he.trans h

/-- A fetch starts in the segment of its offset, and stays there. -/
theorem Fetching.fetch {live : Live κ FetchThread} {e : Live.Event κ FetchThread} {c : CatchUp σ}
    (h : s.Fetching) (hs : s.server = .fetching c) (hst : Live.Step s.live e live)
    (he : e = .located .replicationServer c.offset fetchCount ∨ e = .advanced .replicationServer)
    (hG : s.Serial (.lived e)) (hcoh : s.live.Coherent) (hp : s.live.Placed) :
    Fetching { s with live } := by
  simp only [Fetching, hs] at h ⊢
  intro r hr
  rcases he with rfl | rfl
  · obtain ⟨base, hfind, hreader⟩ := hst.located_cases
    obtain ⟨base', hfind', hlt⟩ := hG
    obtain rfl : base' = base := Option.some.inj (hfind'.symm.trans hfind)
    obtain rfl := Option.some.inj (hr.symm.trans hreader)
    exact ⟨rfl, rfl, hlt.trans_le (Nat.add_le_add_left
      (hst.records_isPrefix hcoh (Live.findSegmentFor_view hfind).1).length_le _)⟩
  · obtain ⟨r₀, r', hr₀, hr', hoff, hmax, hbase⟩ := hst.advanced_cases
    obtain rfl := Option.some.inj (hr.symm.trans hr')
    obtain ⟨hoff₀, hmax₀, hlt⟩ := h r₀ hr₀
    obtain ⟨i, hat⟩ := hp.readers _ r₀ hr₀
    rw [hoff, hmax, hbase]
    exact ⟨hoff₀, hmax₀, hlt.trans_le (Nat.add_le_add_left
      (hst.records_isPrefix hcoh hat.mem).length_le _)⟩

/-- No fetch fails. -/
theorem Serial.not_failed {live : Live κ FetchThread} {offset : UInt64} {maxCount : ℕ}
    (hG : s.Serial (.lived (.failed .replicationServer offset maxCount)))
    (hcoh : s.live.Coherent) (hp : s.live.Placed) :
    ¬Live.Step s.live (.failed .replicationServer offset maxCount) live := by
  intro hst
  obtain ⟨base, hfind, hread⟩ := hst.failed_cases
  obtain ⟨base', hfind', hlt⟩ := hG
  obtain rfl : base' = base := Option.some.inj (hfind'.symm.trans hfind)
  obtain ⟨hmem, hle⟩ := Live.findSegmentFor_view hfind
  exact hread ⟨(hcoh.indexed.mem_dir base').2 hmem, hcoh.filePos_lt hp hmem hle hlt⟩

theorem Step.fetching (hst : Step maxLag s e s') (hG : s.Serial e) (hcoh : s.live.Coherent)
    (hp : s.live.Placed) (h : s.Fetching) : s'.Fetching := by
  cases hst with
  | live hst he => exact h.live hst hcoh hp (hst.readers_eq he)
  | lead | pop | finish | lock | stream | unlock => exact h
  | request | register | enter | frame | send | loop | leave | sendEnd | finishEnd =>
    exact fetching_of_readers (h.readers (by simp [*]))
  | fetch hs hst he => exact h.fetch hs hst he hG hcoh hp
  | fetchFail hs hst => exact absurd hst (hG.not_failed hcoh hp)
  | fetched hs hst hne => exact fetching_of_readers hst.returned_cases.2.1
  | fetchedNone hs hst => exact fetching_of_readers hst.returned_cases.2.1

/-- What a fetch returns is committed, and from the offset on. -/
theorem Step.fetchesCommitted (hst : Step maxLag s e s') (hG : s.Serial e)
    (hcoh : s.live.Coherent) (hp : s.live.Placed)
    (hnext : s.live.store.committedOffset = s.live.store.writer.nextOffset) (h : s.Fetching) :
    s.FetchesCommitted e := by
  -- What the reader has when it returns, in both cases.
  have hreturned : ∀ {c : CatchUp σ} {found : List Record} {live : Live κ FetchThread},
      s.server = .fetching c →
      Live.Step s.live (.returned .replicationServer c.offset fetchCount found) live →
      s.Serial (.lived (.returned .replicationServer c.offset fetchCount found)) →
      found ≠ [] ∧ Numbered c.offset.toNat found ∧ ∀ r ∈ found, r ∈ s.live.store.wholeLog := by
    intro c found live hs hst hG
    simp only [Fetching, hs] at h
    obtain ⟨hfinds, hshield⟩ := hG
    obtain ⟨-, -, ⟨hnone, hfind⟩ | ⟨r, hr, hoff, hmax, rfl, hend⟩⟩ := hst.returned_cases
    · obtain ⟨base, hfind', -⟩ := hfinds hnone
      exact absurd (hfind.symm.trans hfind') (by simp)
    · obtain ⟨i, hat⟩ := hp.readers _ r hr
      obtain ⟨-, -, hlt⟩ := h r hr
      rw [← hoff] at hlt
      refine ⟨?_, hoff ▸ hat.numbered hcoh, fun rec hrec => ?_⟩
      · rcases hend with hfull | hend
        · intro hnil
          rw [hmax, hnil] at hfull
          exact absurd hfull (by decide)
        · exact hat.records_ne_nil hcoh hlt hend
      · refine hat.mem_wholeLog hcoh hnext hrec (hat.committed hcoh hnext ?_ rec hrec)
        rw [hoff, hmax]
        exact hshield
  cases hst with
  | live hst he =>
    cases ‹Live.Event κ FetchThread› with
    | returned t offset maxCount found =>
      cases t with
      | eventLoop => trivial
      | replicationServer => exact absurd rfl he
    | _ => trivial
  | fetch hs hst he => rcases he with rfl | rfl <;> trivial
  | fetched hs hst hne => exact fun _ => hreturned hs hst hG
  | fetchedNone hs hst => exact fun _ => hreturned hs hst hG
  | _ => trivial

theorem Run.fetchesCommitted (hr : Run (Guarded (Step maxLag) Serial) s₀ es s) (h : Started s₀)
    (hfit : Fits s₀ es) : Run (Guarded (Step maxLag) FetchesCommitted) s₀ es s ∧ s.Fetching := by
  refine hr.invariant (I := fun es s => Fits s₀ es →
    Run (Guarded (Step maxLag) FetchesCommitted) s₀ es s ∧ s.Fetching) (fun _ => ?_) ?_ hfit
  · exact ⟨.nil, fetching_of_readers (h.live.readers _)⟩
  · intro es s e s' hr ih hst hfit
    obtain ⟨hrun, hfetch⟩ := ih hfit.of_snoc
    have hlive := Run.live hr.of_guarded
    have hcoh := Live.Run.coherent hlive h.live hfit.of_snoc
    have hp := Live.Run.placed hlive h.live hfit.of_snoc
    have hnext := Live.Run.committedOffset_eq hlive h.live
    exact ⟨hrun.snoc ⟨hst.1, hst.1.fetchesCommitted hst.2 hcoh hp hnext hfetch⟩,
      hst.1.fetching hst.2 hcoh hp hfetch⟩

/-! ## The calls of `send_data` -/

/-- The calls of a step. -/
def Event.sends : Event κ σ → List (Send σ)
  | .sent x => [x]
  | _ => []

/-- The start offset and the socket of the follower that is registered in a step. -/
def Event.registration : Event κ σ → List (UInt64 × σ)
  | .registered _ startOffset socket => [(startOffset, socket)]
  | _ => []

/-- The calls that are to be made next. -/
def pending (s : Feed κ σ) : List (Send σ) := s.server.sends ++ s.streamer.sends

/-- The calls that have been made, and those that are to be made next. -/
def calls (es : List (Event κ σ)) (s : Feed κ σ) : List (Send σ) :=
  es.flatMap Event.sends ++ s.pending

/-- The followers registered in a run. -/
def registrations (es : List (Event κ σ)) : List (UInt64 × σ) := es.flatMap Event.registration

/-- The sockets of these followers. -/
def sockets (es : List (Event κ σ)) : List σ := (registrations es).map (·.2)

theorem calls_snoc (es : List (Event κ σ)) (e : Event κ σ) (s' : Feed κ σ) :
    calls (es ++ [e]) s' = es.flatMap Event.sends ++ (e.sends ++ s'.pending) := by
  rw [calls, List.flatMap_append, List.flatMap_singleton, List.append_assoc]

theorem registrations_snoc (es : List (Event κ σ)) (e : Event κ σ) :
    registrations (es ++ [e]) = registrations es ++ e.registration := by
  rw [registrations, List.flatMap_append, List.flatMap_singleton, registrations]

theorem sockets_snoc (es : List (Event κ σ)) (e : Event κ σ) :
    sockets (es ++ [e]) = sockets es ++ e.registration.map (·.2) := by
  rw [sockets, registrations_snoc, List.map_append, sockets]

/-- A fetch of the replication server fails or returns with nothing. -/
def Event.Lost : Event κ σ → Prop
  | .lived (.failed .replicationServer _ _) => True
  | .lived (.returned .replicationServer _ _ found) => found = []
  | _ => False

/-- No follower is registered in the step, and no frame is begun. -/
def Event.Quiet : Event κ σ → Prop
  | .registered .. | .locked _ | .framed _ | .left => False
  | _ => True

/-- What such a step does to the calls. -/
structure Quiet (s : Feed κ σ) (e : Event κ σ) (s' : Feed κ σ) : Prop where
  registration : e.registration = []
  streamed : e.streamed = []
  followerFds : s'.followerFds = s.followerFds
  next : s'.server.next = s.server.next
  catchUp : ∀ c, s'.server.catchUp = some c → ∃ c₀, s.server.catchUp = some c₀ ∧
    c.socket = c₀.socket ∧ c.startOffset = c₀.startOffset
  pending : e.sends ++ s'.pending = s.pending
  streamer : s.streamer.sends = [] → s'.streamer.sends = []

/-- The worker makes the next call, or goes on without one. -/
theorem quiet_of_streamer {live : Live κ FetchThread} {leader : Leader} {streamer : Streamer σ}
    (hreg : e.registration = []) (hstr : e.streamed = [])
    (hsends : e.sends ++ (s.server.sends ++ streamer.sends) = s.server.sends ++ s.streamer.sends)
    (hstreamer : s.streamer.sends = [] → streamer.sends = []) :
    Quiet s e { s with live, leader, streamer } :=
  ⟨hreg, hstr, rfl, rfl, fun c h => ⟨c, h, rfl, rfl⟩, hsends, hstreamer⟩

/-- The replication server makes the next call, or goes on without one. -/
theorem quiet_of_server {live : Live κ FetchThread} {server : Server σ}
    (hreg : e.registration = []) (hstr : e.streamed = []) (hnext : server.next = s.server.next)
    (hcatch : ∀ c, server.catchUp = some c → ∃ c₀, s.server.catchUp = some c₀ ∧
      c.socket = c₀.socket ∧ c.startOffset = c₀.startOffset)
    (hsends : e.sends ++ server.sends = s.server.sends) : Quiet s e { s with live, server } where
  registration := hreg
  streamed := hstr
  followerFds := rfl
  next := hnext
  catchUp := hcatch
  pending := by
    dsimp only [pending]
    rw [← List.append_assoc, hsends]
  streamer := id

theorem Step.quiet (hst : Step maxLag s e s') (he : e.Quiet) (hlost : ¬e.Lost)
    (hapart : s.server.catchUp ≠ none → s.streamer.sends = [])
    (hnext : ∀ c sends msgs, s.server = .sending c sends msgs → sends ≠ [] →
      (c.offset + 1).toNat = c.offset.toNat + 1) : Quiet s e s' := by
  cases hst with
  | live | lead | pop => exact quiet_of_streamer rfl rfl rfl id
  | finish hw hidle => exact quiet_of_streamer rfl rfl (by rw [hidle]; rfl) fun _ => rfl
  | stream hs =>
    -- Nothing else is being sent, so the piece is the first of those to come.
    have hnone : s.server.catchUp = none := by
      by_contra hne
      simpa [hs, Streamer.sends] using hapart hne
    refine quiet_of_streamer rfl rfl ?_ fun h => by simp [hs, Streamer.sends] at h
    rw [Server.sends_of_catchUp hnone, hs]
    rfl
  | unlock hs => exact quiet_of_streamer rfl rfl (by rw [hs]; rfl) fun _ => rfl
  | request followerId startOffset socket hs | finishEnd hs =>
    exact quiet_of_server rfl rfl (by rw [hs]; rfl) (fun c h => by simp [Server.catchUp] at h)
      (by rw [hs]; rfl)
  | enter hs | fetched hs | loop hs | sendEnd hs =>
    exact quiet_of_server rfl rfl (by rw [hs]; rfl) (fun c h => ⟨c, by rw [hs]; exact h, rfl, rfl⟩)
      (by rw [hs]; rfl)
  | fetch hs hst hfetch =>
    rcases hfetch with rfl | rfl <;> exact quiet_of_streamer rfl rfl rfl id
  | @send c x rest msgs hs =>
    refine quiet_of_server rfl rfl ?_ (fun c' h => ⟨c, by rw [hs]; rfl, ?_⟩) (by rw [hs]; rfl)
    · -- With its last piece, a frame is behind the next offset no more.
      rw [hs, Server.next, Server.next, if_neg (List.cons_ne_nil _ _)]
      split_ifs with hlast
      · rw [Nat.add_zero, hnext c _ msgs hs (List.cons_ne_nil _ _)]
      · rfl
    · obtain rfl := Option.some.inj h
      split_ifs <;> exact ⟨rfl, rfl⟩
  | register | lock | frame | leave => exact he.elim
  | fetchFail => exact absurd trivial hlost
  | fetchedNone => exact absurd rfl hlost

/-- A fetch of the replication server returns with something. -/
theorem Step.not_lost (hst : Step maxLag s e s') (hG : s.Serial e) (hcoh : s.live.Coherent)
    (hp : s.live.Placed) (hfetch : s.FetchesCommitted e) (hprogress : Progress es s) :
    ¬e.Lost := by
  cases hst with
  | live hst hreader =>
    cases ‹Live.Event κ FetchThread› with
    | failed t | returned t =>
      cases t with
      | eventLoop => exact id
      | replicationServer => exact absurd rfl hreader
    | _ => exact id
  | fetch hs hst he => rcases he with rfl | rfl <;> exact id
  | fetchFail hs hst => exact absurd hst (hG.not_failed hcoh hp)
  | fetched hs hst hne => exact hne
  | fetchedNone hs hst =>
    simp only [Progress, hs] at hprogress
    exact absurd rfl (hfetch hprogress.2).1
  | _ => exact id

/-- The offset of a record that is being sent is followed by another. -/
theorem Progress.toNat_next (h : Progress es s) {b : ℕ} (hlog : Numbered b s.live.store.wholeLog)
    (hend : b + s.live.store.wholeLog.length = s.committedOffset.toNat) {c : CatchUp σ}
    {sends : List (Send σ)} {msgs : List Record} (hs : s.server = .sending c sends msgs)
    (hne : sends ≠ []) : (c.offset + 1).toNat = c.offset.toNat + 1 := by
  simp only [Progress, hs] at h
  obtain ⟨-, todo, hnum, hmem, ⟨hnil, -⟩ | ⟨r, pieces, -, -, rfl⟩⟩ := h
  · exact absurd hnil hne
  · have hlt := hlog.offset_lt (hmem r List.mem_cons_self)
    rw [(numbered_cons.1 hnum).1, hend] at hlt
    exact toNat_add_one_of_lt (UInt64.lt_iff_toNat_lt.2 hlt)

theorem Quiet.calls_eq (hq : Quiet s e s') : calls (es ++ [e]) s' = calls es s := by
  rw [calls_snoc, hq.pending, calls]

theorem Quiet.sockets_eq (hq : Quiet s e s') : sockets (es ++ [e]) = sockets es := by
  rw [sockets_snoc, hq.registration, List.map_nil, List.append_nil]

/-- A frame is begun behind the others. -/
theorem calls_begin {sends : List (Send σ)} (he : e.sends = [])
    (hp : s'.pending = s.pending ++ sends) : calls (es ++ [e]) s' = calls es s ++ sends := by
  rw [calls_snoc, he, hp, calls, List.nil_append, List.append_assoc]

/-- Calls are made on the sockets of followers, and the worker has none to make while a follower is
    catching up. -/
structure Orderly (es : List (Event κ σ)) (s : Feed κ σ) : Prop where
  nodup : (s.followerFds.map (·.2)).Nodup
  followerFds : ∀ f ∈ s.followerFds, f.2 ∈ sockets es
  catchUp : ∀ c, s.server.catchUp = some c →
    c.socket ∈ sockets es ∧ c.startOffset ≤ s.committedOffset
  apart : s.server.catchUp ≠ none → s.streamer.sends = []
  calls : ∀ x ∈ calls es s, x.socket ∈ sockets es

theorem Orderly.quiet (h : Orderly es s) (hq : Quiet s e s')
    (hle : s.committedOffset ≤ s'.committedOffset) : Orderly (es ++ [e]) s' where
  nodup := by
    rw [hq.followerFds]
    exact h.nodup
  followerFds := by
    rw [hq.followerFds, hq.sockets_eq]
    exact h.followerFds
  catchUp c hc := by
    obtain ⟨c₀, hc₀, hsocket, hstart⟩ := hq.catchUp c hc
    rw [hsocket, hstart, hq.sockets_eq]
    exact ⟨(h.catchUp c₀ hc₀).1, UInt64.le_trans (h.catchUp c₀ hc₀).2 hle⟩
  apart hne := by
    obtain ⟨c, hc⟩ := Option.ne_none_iff_exists'.1 hne
    obtain ⟨c₀, hc₀, -⟩ := hq.catchUp c hc
    exact hq.streamer (h.apart (by simp [hc₀]))
  calls := by
    rw [hq.calls_eq, hq.sockets_eq]
    exact h.calls

/-- The replication server begins a frame. -/
theorem Orderly.pending_server {c : CatchUp σ} {server : Server σ} (h : Orderly es s)
    (hc : s.server.catchUp = some c) (hs : s.server.sends = []) :
    pending { s with server } = s.pending ++ server.sends := by
  have hstreamer := h.apart (by simp [hc])
  simp [pending, hs, hstreamer]

/-- The worker begins its frames. -/
theorem pending_streamer {qc : QueuedCommit} {epoch : UInt32} {streamer : Streamer σ}
    (hs : s.streamer = .ready qc epoch) :
    pending { s with streamer } = s.pending ++ streamer.sends := by
  simp [pending, hs, Streamer.sends]

theorem socket_of_mem_sendAll {socket : σ} {completes : Option Record} {pieces : List Bytes}
    {x : Send σ} (hx : x ∈ sendAll socket completes pieces) : x.socket = socket := by
  induction pieces with
  | nil => exact absurd hx List.not_mem_nil
  | cons data rest ih =>
    rw [sendAll, List.mem_cons] at hx
    rcases hx with rfl | hx
    · rfl
    · exact ih hx

/-- The replication server begins a frame on its socket. -/
theorem Orderly.begin {c : CatchUp σ} {server : Server σ} (h : Orderly es s)
    (hreg : e.registration = []) (he : e.sends = []) (hc : s.server.catchUp = some c)
    (hs : s.server.sends = []) (hc' : server.catchUp = some c)
    (hsocket : ∀ x ∈ server.sends, x.socket = c.socket) :
    Orderly (es ++ [e]) { s with server } := by
  have hsockets : sockets (es ++ [e]) = sockets es := by
    rw [sockets_snoc, hreg, List.map_nil, List.append_nil]
  refine ⟨h.nodup, hsockets ▸ h.followerFds, fun c' hcatch => ?_, fun _ => ?_, ?_⟩
  · obtain rfl := Option.some.inj (hc'.symm.trans hcatch)
    exact hsockets ▸ h.catchUp c hc
  · exact h.apart (by simp [hc])
  · rw [calls_begin he (h.pending_server hc hs), hsockets]
    intro x hx
    rcases List.mem_append.1 hx with hx | hx
    · exact h.calls x hx
    · exact hsocket x hx ▸ (h.catchUp c hc).1

theorem Step.orderly (hst : Step maxLag s e s') (hG : s.Serial e) (hlost : ¬e.Lost)
    (hle : s.committedOffset ≤ s'.committedOffset)
    (hnext : ∀ c sends msgs, s.server = .sending c sends msgs → sends ≠ [] →
      (c.offset + 1).toNat = c.offset.toNat + 1)
    (hnodup : (sockets (es ++ [e])).Nodup) (h : Orderly es s) : Orderly (es ++ [e]) s' := by
  have hquiet : e.Quiet → Orderly (es ++ [e]) s' := fun he =>
    h.quiet (hst.quiet he hlost h.apart hnext) hle
  cases hst with
  | @lock qc epoch order hs horder =>
    have hsockets : sockets (es ++ [.locked qc]) = sockets es := by
      rw [sockets_snoc]
      exact List.append_nil _
    refine ⟨h.nodup, hsockets ▸ h.followerFds, hsockets ▸ h.catchUp,
      fun hne => absurd hG.1 hne, ?_⟩
    rw [calls_begin rfl (pending_streamer hs), hsockets]
    intro x hx
    rcases List.mem_append.1 hx with hx | hx
    · exact h.calls x hx
    · obtain ⟨f, hf, hx⟩ := List.mem_flatMap.1 hx
      obtain ⟨r, -, hx⟩ := List.mem_flatMap.1 hx
      exact socket_of_mem_sendAll hx ▸ h.followerFds f (horder.mem_iff.1 hf)
  | @register followerId startOffset socket hs hlock =>
    have hsockets : sockets (es ++ [.registered followerId startOffset socket]) =
        sockets es ++ [socket] := sockets_snoc es _
    have hstreamer : s.streamer.sends = [] := by
      cases hsend : s.streamer with
      | sending sends => exact absurd hsend (hlock sends)
      | _ => rfl
    have hfilter : ∀ f ∈ s.followerFds.filter (·.1 ≠ followerId), f.2 ∈ sockets es := fun f hf =>
      h.followerFds f (List.mem_of_mem_filter hf)
    rw [hsockets, List.nodup_append] at hnodup
    refine ⟨?_, fun f hf => ?_, fun c hc => ?_, fun _ => hstreamer, ?_⟩
    · -- The follower's old socket is dropped, and the new one is in nobody else's use.
      rw [setFollowerFd, List.map_append, List.nodup_append]
      refine ⟨h.nodup.sublist (List.filter_sublist.map _), by simp, fun a ha b hb => ?_⟩
      obtain ⟨f, hf, rfl⟩ := List.mem_map.1 ha
      exact hnodup.2.2 _ (hfilter f hf) b hb
    · rw [hsockets, List.mem_append]
      rcases List.mem_append.1 hf with hf | hf
      · exact .inl (hfilter f hf)
      · exact .inr (List.mem_singleton.1 hf ▸ List.mem_singleton_self _)
    · obtain rfl := Option.some.inj hc
      exact ⟨hsockets ▸ List.mem_append_right _ (List.mem_singleton_self _), hG⟩
    · rw [hsockets, calls_snoc]
      intro x hx
      refine List.mem_append_left _ (h.calls x ?_)
      rw [calls, pending, hs]
      exact hx
  | frame hs | leave hs =>
    exact h.begin rfl rfl (by rw [hs]; rfl) (by rw [hs]; rfl) rfl fun x hx =>
      socket_of_mem_sendAll hx
  | _ => exact hquiet trivial

/-- What is awaiting ends at the committed offset. -/
theorem Run.numbered_awaiting (hr : Run (Step maxLag) s₀ es s) (h : Started s₀)
    (hfit : Fits s₀ es) :
    ∃ b, Numbered b s.awaiting ∧ b + s.awaiting.length = s.committedOffset.toNat := by
  obtain ⟨-, pre, hpre⟩ := Run.awaiting_isSuffix hr h hfit
  obtain ⟨b, hnum, hend⟩ := Run.numbered_wholeLog hr h hfit
  rw [← hpre, numbered_append] at hnum
  rw [← hpre, List.length_append, ← Nat.add_assoc] at hend
  exact ⟨b + pre.length, hnum.2, hend⟩

/-! ## The bytes on a socket -/

section

variable [DecidableEq σ]

/-- The bytes that calls put on a socket. -/
def bytesOn (socket : σ) (sends : List (Send σ)) : Bytes :=
  sends.flatMap fun x => if x.socket = socket then x.data else []

variable {socket : σ}

@[simp] theorem bytesOn_append (sends sends' : List (Send σ)) :
    bytesOn socket (sends ++ sends') = bytesOn socket sends ++ bytesOn socket sends' :=
  List.flatMap_append

theorem bytesOn_eq_nil {sends : List (Send σ)} (h : ∀ x ∈ sends, x.socket ≠ socket) :
    bytesOn socket sends = [] :=
  List.flatMap_eq_nil_iff.2 fun x hx => if_neg (h x hx)

theorem bytesOn_sendAll (completes : Option Record) (pieces : List Bytes) :
    bytesOn socket (sendAll socket completes pieces) = pieces.flatten := by
  induction pieces with
  | nil => rfl
  | cons data rest ih =>
    rw [List.flatten_cons, ← ih, sendAll, bytesOn, List.flatMap_cons, if_pos rfl]
    rfl

/-- The records are sent in one frame each. -/
theorem bytesOn_syncSends (socket : σ) (s : Feed κ σ) (epoch : UInt32) {records : List Record}
    (hfit : ∀ r ∈ records, FitsFrame r.payload) :
    ∃ ms, bytesOn socket (records.flatMap (s.syncSends epoch socket)) =
        (lengthPrefixed 4).encodeAll ms ∧
      syncOffsets ms = records.map fun r => r.offset.toNat := by
  induction records with
  | nil => exact ⟨[], rfl, rfl⟩
  | cons r records ih =>
    obtain ⟨ms, hms, hoff⟩ := ih fun r hr => hfit r (List.mem_cons_of_mem _ hr)
    have hr := hfit r List.mem_cons_self
    refine ⟨frame .replicaSync (.ofRecord (.ofName s.leader.partition.topic)
      s.leader.partition.partitionIdx epoch r) r.payload hr :: ms, ?_, ?_⟩
    · rw [List.flatMap_cons, bytesOn_append, hms, syncSends, bytesOn_sendAll,
        flatten_framePieces _ _ hr, Format.encodeAll_cons]
      rfl
    · rw [syncOffsets, List.filterMap_cons_some (syncOffset?_sync _ r.payload hr), List.map_cons,
        List.map_cons, ← hoff]
      rfl

/-- `REPLICA_SYNC_END` is a frame without a record. -/
theorem bytesOn_endSends (socket : σ) (s : Feed κ σ) :
    ∃ ms, bytesOn socket (s.endSends socket) = (lengthPrefixed 4).encodeAll ms ∧
      syncOffsets ms = [] := by
  have hfit : FitsFrame .empty := by decide
  let hdr : ReplicaSyncHeader :=
    { topic := .ofName s.leader.partition.topic, partition := s.leader.partition.partitionIdx }
  refine ⟨[frame .replicaSyncEnd hdr .empty hfit], ?_, ?_⟩
  · rw [endSends, bytesOn_sendAll, flatten_framePieces _ _ hfit]
    exact (List.append_nil _).symm
  · rw [syncOffsets, List.filterMap_cons_none (syncOffset?_syncEnd _ .empty hfit)]
    rfl

/-- Of what the worker sends, a follower gets one round. -/
theorem bytesOn_order {epoch : UInt32} {records : List Record} {order : List (UInt32 × σ)}
    (hnodup : (order.map (·.2)).Nodup) {followerId : UInt32} (hmem : (followerId, socket) ∈ order) :
    bytesOn socket (order.flatMap fun f => records.flatMap (s.syncSends epoch f.2)) =
      bytesOn socket (records.flatMap (s.syncSends epoch socket)) := by
  have hother : ∀ order : List (UInt32 × σ), socket ∉ order.map (·.2) →
      bytesOn socket (order.flatMap fun f => records.flatMap (s.syncSends epoch f.2)) = [] := by
    intro order hnot
    refine bytesOn_eq_nil fun x hx heq => hnot ?_
    obtain ⟨f, hf, hx⟩ := List.mem_flatMap.1 hx
    obtain ⟨r, -, hx⟩ := List.mem_flatMap.1 hx
    exact heq ▸ socket_of_mem_sendAll hx ▸ List.mem_map_of_mem hf
  obtain ⟨front, back, rfl⟩ := List.append_of_mem hmem
  rw [List.map_append, List.map_cons, List.nodup_append, List.nodup_cons] at hnodup
  obtain ⟨-, ⟨hback, -⟩, hfront⟩ := hnodup
  have hfront' : socket ∉ front.map (·.2) := fun hin =>
    hfront socket hin socket List.mem_cons_self rfl
  rw [List.flatMap_append, List.flatMap_cons, bytesOn_append, bytesOn_append, hother _ hfront',
    hother _ hback, List.nil_append, List.append_nil]

/-- The bytes on the socket of a follower, with those that are to come next: the frames `ms`, of
    which `n` carry records, from the start offset on. While the follower is catching up, the record
    that comes next is that of the replication server, and afterwards that of the worker. -/
structure Framed (es : List (Event κ σ)) (s : Feed κ σ) (startOffset : UInt64) (socket : σ)
    (ms : List (Message 4)) (n : ℕ) : Prop where
  bytes : bytesOn socket (calls es s) = (lengthPrefixed 4).encodeAll ms
  offsets : syncOffsets ms = List.range' startOffset.toNat n
  catchingUp : ∀ m, s.server.next = some (socket, m) → startOffset.toNat + n = m
  streaming : (∀ m, s.server.next ≠ some (socket, m)) → s.Registered socket →
    startOffset.toNat + n + s.awaiting.length = s.committedOffset.toNat

variable {startOffset : UInt64} {ms : List (Message 4)} {n : ℕ}

theorem Framed.quiet (h : Framed es s startOffset socket ms n) (hq : Quiet s e s')
    (hcount : s.awaiting ++ e.written = e.streamed ++ s'.awaiting)
    (hc : s'.committedOffset.toNat = s.committedOffset.toNat + e.written.length) :
    Framed (es ++ [e]) s' startOffset socket ms n where
  bytes := by
    rw [hq.calls_eq]
    exact h.bytes
  offsets := h.offsets
  catchingUp m hm := h.catchingUp m (hq.next ▸ hm)
  streaming hne hreg := by
    rw [hq.next] at hne
    rw [Registered, hq.followerFds] at hreg
    have hlen := congrArg List.length hcount
    rw [hq.streamed, List.length_append, List.nil_append] at hlen
    have := h.streaming hne hreg
    omega

theorem syncOffsets_append {ms ms' : List (Message 4)} {start n n' : ℕ}
    (h : syncOffsets ms = List.range' start n)
    (h' : syncOffsets ms' = List.range' (start + n) n') :
    syncOffsets (ms ++ ms') = List.range' start (n + n') := by
  have happend : syncOffsets (ms ++ ms') = syncOffsets ms ++ syncOffsets ms' := by
    rw [syncOffsets, List.filterMap_append, List.map_append, syncOffsets, syncOffsets]
  rw [happend, h, h', List.range'_append_1]

/-- What is begun on other sockets. -/
theorem Framed.other {sends : List (Send σ)} (h : Framed es s startOffset socket ms n)
    (hcalls : calls (es ++ [e]) s' = calls es s ++ sends)
    (hsends : ∀ x ∈ sends, x.socket ≠ socket) (hnext : ∀ m, s.server.next ≠ some (socket, m))
    (hnext' : ∀ m, s'.server.next ≠ some (socket, m))
    (hreg : s'.Registered socket → s.Registered socket ∧
      s'.awaiting.length + s.committedOffset.toNat =
        s.awaiting.length + s'.committedOffset.toNat) :
    Framed (es ++ [e]) s' startOffset socket ms n where
  bytes := by
    rw [hcalls, bytesOn_append, bytesOn_eq_nil hsends, List.append_nil]
    exact h.bytes
  offsets := h.offsets
  catchingUp m hm := absurd hm (hnext' m)
  streaming _ hr := by
    obtain ⟨hr, hcount⟩ := hreg hr
    have := h.streaming hnext hr
    omega

/-- The replication server begins a frame on another socket. -/
theorem Framed.begin_other {c : CatchUp σ} {server : Server σ}
    (h : Framed es s startOffset socket ms n) (hord : Orderly es s) (he : e.sends = [])
    (hc : s.server.catchUp = some c) (hs : s.server.sends = []) (hc' : server.catchUp = some c)
    (hsends : ∀ x ∈ server.sends, x.socket = c.socket) (hne : c.socket ≠ socket) :
    Framed (es ++ [e]) { s with server } startOffset socket ms n := by
  refine h.other (calls_begin he (hord.pending_server hc hs)) (fun x hx => hsends x hx ▸ hne)
    (Server.next_ne fun c₀ hc₀ => ?_) (Server.next_ne fun c₀ hc₀ => ?_) fun hreg => ⟨hreg, rfl⟩
  · exact Option.some.inj (hc.symm.trans hc₀) ▸ hne
  · exact Option.some.inj (hc'.symm.trans hc₀) ▸ hne

/-- A follower that is registered has not been sent anything. -/
theorem framed_register {followerId : UInt32} (h : Orderly es s)
    (hs : s.server = .requested followerId startOffset socket) (hfresh : socket ∉ sockets es) :
    Framed (es ++ [.registered followerId startOffset socket])
      { s with
        followerFds := s.setFollowerFd followerId socket
        server := .looping ⟨socket, startOffset, startOffset⟩ } startOffset socket [] 0 where
  bytes := by
    refine bytesOn_eq_nil fun x hx heq => hfresh (heq ▸ h.calls x ?_)
    rw [calls_snoc] at hx
    rw [calls, pending, hs]
    exact hx
  offsets := rfl
  catchingUp m hm := (congrArg Prod.snd (Option.some.inj hm))
  streaming hne := absurd rfl (hne _)

/-- The replication server begins the frame of the next record. -/
theorem Framed.frame {c : CatchUp σ} {msg : Record} {msgs : List Record}
    (h : Framed es s startOffset c.socket ms n) (hord : Orderly es s)
    (hs : s.server = .sending c [] (msg :: msgs)) (hfit : FitsFrame msg.payload)
    (hoff : msg.offset.toNat = c.offset.toNat) :
    ∃ ms, Framed (es ++ [.framed msg])
      { s with server := .sending c (s.syncSends s.leader.partition.epoch c.socket msg) msgs }
      startOffset c.socket ms (n + 1) := by
  have hn : startOffset.toNat + n = c.offset.toNat := h.catchingUp _ (by rw [hs]; rfl)
  have hfits : ∀ r ∈ [msg], FitsFrame r.payload := fun r hr => List.mem_singleton.1 hr ▸ hfit
  obtain ⟨ms', hms', hoffs⟩ := bytesOn_syncSends c.socket s s.leader.partition.epoch hfits
  rw [List.flatMap_singleton] at hms'
  have hne : s.syncSends s.leader.partition.epoch c.socket msg ≠ [] :=
    mt sendAll_eq_nil.1 (framePieces_ne_nil _ _ _)
  refine ⟨ms ++ ms', ?_, ?_, fun m hm => ?_, fun hnone => ?_⟩
  · rw [calls_begin rfl (hord.pending_server (c := c) (by rw [hs]; rfl) (by rw [hs]; rfl)),
      bytesOn_append, h.bytes, Format.encodeAll_append, ← hms']
    rfl
  · refine syncOffsets_append h.offsets (hoffs.trans ?_)
    rw [hn, ← hoff]
    rfl
  · have hm' : c.offset.toNat + (if _ = [] then 0 else 1) = m :=
      congrArg Prod.snd (Option.some.inj hm)
    rw [← hm', if_neg hne, ← hn, Nat.add_assoc]
  · exact absurd rfl (hnone _)

/-- The replication server begins `REPLICA_SYNC_END`. -/
theorem Framed.leave {c : CatchUp σ} (h : Framed es s startOffset c.socket ms n)
    (hord : Orderly es s) (hs : s.server = .looping c) (hc : c.offset = s.committedOffset)
    (haw : s.awaiting = []) :
    ∃ ms, Framed (es ++ [.left]) { s with server := .ending c (s.endSends c.socket) }
      startOffset c.socket ms n := by
  have hn : startOffset.toNat + n = c.offset.toNat := h.catchingUp _ (by rw [hs]; rfl)
  obtain ⟨ms', hms', hoffs⟩ := bytesOn_endSends c.socket s
  have hoffs' : syncOffsets (ms ++ ms') = List.range' startOffset.toNat (n + 0) :=
    syncOffsets_append h.offsets hoffs
  refine ⟨ms ++ ms', ?_, hoffs', fun m hm => ?_, fun _ _ => ?_⟩
  · rw [calls_begin rfl (hord.pending_server (c := c) (by rw [hs]; rfl) (by rw [hs]; rfl)),
      bytesOn_append, h.bytes, Format.encodeAll_append, ← hms']
    rfl
  · simp [Server.next] at hm
  · have haw' : awaiting { s with server := .ending c (s.endSends c.socket) } = [] := haw
    rw [haw', hn, hc]
    rfl

/-- The worker begins to send its records. -/
theorem Framed.lock {qc : QueuedCommit} {epoch : UInt32} {order : List (UInt32 × σ)}
    (h : Framed es s startOffset socket ms n) (hord : Orderly es s) (halt : s.Alternates)
    (hs : s.streamer = .ready qc epoch) (horder : order.Perm s.followerFds)
    (hreg : s.Registered socket) (hnone : s.server.catchUp = none)
    (hfit : ∀ r ∈ qc.records, FitsFrame r.payload) {b : ℕ} (hnum : Numbered b s.awaiting)
    (hend : b + s.awaiting.length = s.committedOffset.toNat) :
    ∃ ms n, Framed (es ++ [.locked qc])
      { s with
        streamer := .sending (order.flatMap fun f => qc.records.flatMap (s.syncSends epoch f.2)) }
      startOffset socket ms n := by
  have hnext : ∀ m, s.server.next ≠ some (socket, m) := Server.next_ne (by simp [hnone])
  have hcount := h.streaming hnext hreg
  obtain ⟨followerId, hmem⟩ := hreg
  obtain ⟨ms', hms', hoffs⟩ := bytesOn_syncSends socket s epoch hfit
  have hstep := @Step.lock κ σ 0 s qc epoch order hs horder
  have haw := (List.append_nil _).symm.trans (hstep.awaiting_eq halt)
  rw [haw, Event.streamed] at hnum hend hcount
  -- The socket is in the order once, so what is sent to it are the records, in their order.
  refine ⟨ms ++ ms', n + qc.records.length, ?_, ?_, fun m hm => absurd hm (hnext m),
    fun _ _ => ?_⟩
  · have hnodup := (horder.map (·.2)).nodup_iff.2 hord.nodup
    rw [calls_begin rfl (pending_streamer hs), bytesOn_append, h.bytes, Format.encodeAll_append,
      ← hms', ← bytesOn_order hnodup (horder.mem_iff.2 hmem)]
    rfl
  · rw [List.length_append] at hend hcount
    obtain rfl : b = startOffset.toNat + n := by omega
    exact syncOffsets_append h.offsets (hoffs.trans (numbered_append.1 hnum).1)
  · rw [List.length_append, ← Nat.add_assoc, Nat.add_assoc startOffset.toNat] at hcount
    exact hcount

theorem Step.framed (hst : Step maxLag s e s') (hG : s.Serial e) (hlost : ¬e.Lost)
    (hord : Orderly es s) (halt : s.Alternates) (hprogress : Progress es s)
    (hnext : ∀ c sends msgs, s.server = .sending c sends msgs → sends ≠ [] →
      (c.offset + 1).toNat = c.offset.toNat + 1)
    (hc : s'.committedOffset.toNat = s.committedOffset.toNat + e.written.length)
    {b : ℕ} (hnum : Numbered b s.awaiting)
    (hend : b + s.awaiting.length = s.committedOffset.toNat)
    (hnodup : (sockets (es ++ [e])).Nodup)
    (h : ∀ p ∈ registrations es, ∃ ms n, Framed es s p.1 p.2 ms n) :
    ∀ p ∈ registrations (es ++ [e]), ∃ ms n, Framed (es ++ [e]) s' p.1 p.2 ms n := by
  have hcount := hst.awaiting_eq halt
  have hquiet : e.Quiet →
      ∀ p ∈ registrations (es ++ [e]), ∃ ms n, Framed (es ++ [e]) s' p.1 p.2 ms n := by
    intro he p hp
    have hq := hst.quiet he hlost hord.apart hnext
    rw [registrations_snoc, hq.registration, List.append_nil] at hp
    obtain ⟨ms, n, hframed⟩ := h p hp
    exact ⟨ms, n, hframed.quiet hq hcount hc⟩
  have hold : e.registration = [] → ∀ p ∈ registrations (es ++ [e]), p ∈ registrations es := by
    intro he p hp
    rwa [registrations_snoc, he, List.append_nil] at hp
  cases hst with
  | @register followerId startOffset socket hs hlock =>
    intro p hp
    rw [registrations_snoc, List.mem_append] at hp
    rw [sockets_snoc, List.nodup_append] at hnodup
    have hfresh : ∀ socket' ∈ sockets es, socket' ≠ socket := fun socket' hin =>
      hnodup.2.2 socket' hin socket (List.mem_singleton_self _)
    rcases hp with hp | hp
    · obtain ⟨ms, n, hframed⟩ := h p hp
      have hne := hfresh p.2 (List.mem_map_of_mem hp)
      have hnone : ∀ x ∈ ([] : List (Send σ)), x.socket ≠ p.2 := fun x hx =>
        absurd hx List.not_mem_nil
      refine ⟨ms, n, hframed.other ?_ hnone
        (fun m => by simp [hs, Server.next]) (fun m => by simp [Server.next, hne.symm]) ?_⟩
      · rw [List.append_nil, calls_snoc, calls, pending, pending, hs]
        rfl
      · rintro ⟨followerId', hmem⟩
        refine ⟨⟨followerId', ?_⟩, rfl⟩
        rcases List.mem_append.1 hmem with hmem | hmem
        · exact List.mem_of_mem_filter hmem
        · exact absurd (congrArg Prod.snd (List.mem_singleton.1 hmem)) hne
    · obtain rfl := List.mem_singleton.1 hp
      exact ⟨[], 0, framed_register hord hs fun hin => hfresh socket hin rfl⟩
  | @frame c msg msgs hs =>
    intro p hp
    obtain ⟨ms, n, hframed⟩ := h p (hold rfl p hp)
    by_cases hsocket : p.2 = c.socket
    · -- What is in hand begins at the offset to go on from.
      have hoff : msg.offset.toNat = c.offset.toNat := by
        simp only [Progress, hs] at hprogress
        obtain ⟨-, todo, hnum, -, ⟨-, rfl⟩ | ⟨r, pieces, hne, hsends, -⟩⟩ := hprogress
        · exact (numbered_cons.1 hnum).1
        · exact absurd (sendAll_eq_nil.1 hsends.symm) hne
      rw [hsocket] at hframed ⊢
      obtain ⟨ms', hframed'⟩ := hframed.frame hord hs hG hoff
      exact ⟨ms', n + 1, hframed'⟩
    · exact ⟨ms, n, hframed.begin_other hord rfl (by rw [hs]; rfl) (by rw [hs]; rfl) rfl
        (fun x hx => socket_of_mem_sendAll hx) (Ne.symm hsocket)⟩
  | @leave c hs hge =>
    intro p hp
    obtain ⟨ms, n, hframed⟩ := h p (hold rfl p hp)
    by_cases hsocket : p.2 = c.socket
    · have hle : c.offset ≤ s.committedOffset := by
        simp only [Progress, hs] at hprogress
        rcases hprogress.offset with heq | hle
        · exact heq ▸ (hord.catchUp c (by rw [hs]; rfl)).2
        · exact hle
      rw [hsocket] at hframed ⊢
      obtain ⟨ms', hframed'⟩ := hframed.leave hord hs
        (UInt64.le_antisymm hle (UInt64.not_lt.1 hge)) hG
      exact ⟨ms', n, hframed'⟩
    · exact ⟨ms, n, hframed.begin_other hord rfl (by rw [hs]; rfl) (by rw [hs]; rfl) rfl
        (fun x hx => socket_of_mem_sendAll hx) (Ne.symm hsocket)⟩
  | @lock qc epoch order hs horder =>
    intro p hp
    obtain ⟨ms, n, hframed⟩ := h p (hold rfl p hp)
    -- A follower that has asked again with another socket is sent nothing on the old one.
    by_cases hreg : s.Registered p.2
    · exact hframed.lock hord halt hs horder hreg hG.1 hG.2 hnum hend
    · have hnone : ∀ m, s.server.next ≠ some (p.2, m) := Server.next_ne (by simp [hG.1])
      refine ⟨ms, n, hframed.other (calls_begin rfl (pending_streamer hs)) (fun x hx heq => hreg ?_)
        hnone hnone fun hreg' => absurd hreg' hreg⟩
      obtain ⟨f, hf, hx⟩ := List.mem_flatMap.1 hx
      obtain ⟨r, -, hx⟩ := List.mem_flatMap.1 hx
      refine ⟨f.1, ?_⟩
      rw [← heq, socket_of_mem_sendAll hx]
      exact horder.mem_iff.1 hf
  | _ => exact hquiet trivial

/-- The bytes on the socket of a follower, with those of the frames that have been begun, are a
    concatenation of frames, and the records come from the start offset on. -/
def Synced (es : List (Event κ σ)) (s : Feed κ σ) (startOffset : UInt64) (socket : σ) : Prop :=
  ∃ ms n, bytesOn socket (es.flatMap Event.sends) ++ bytesOn socket s.pending =
      (lengthPrefixed 4).encodeAll ms ∧
    syncOffsets ms = List.range' startOffset.toNat n

/-- In every run whose steps are all serial, and in which a follower is registered with each socket
    at most once, the stream to a follower is well formed and in order. -/
theorem synced (h : Started s₀) (hr : Run (Guarded (Step maxLag) Serial) s₀ es s)
    (hfit : Fits s₀ es) (hnodup : (sockets es).Nodup)
    (hreg : (startOffset, socket) ∈ registrations es) : Synced es s startOffset socket := by
  suffices hinv : Orderly es s ∧ ∀ p ∈ registrations es, ∃ ms n, Framed es s p.1 p.2 ms n by
    obtain ⟨ms, n, hframed⟩ := hinv.2 _ hreg
    exact ⟨ms, n, (bytesOn_append _ _).symm.trans hframed.bytes, hframed.offsets⟩
  refine hr.invariant (I := fun es s => Fits s₀ es → (sockets es).Nodup →
    Orderly es s ∧ ∀ p ∈ registrations es, ∃ ms n, Framed es s p.1 p.2 ms n)
    (fun _ _ => ?_) ?_ hfit hnodup
  · refine ⟨⟨?_, ?_, ?_, ?_, ?_⟩, fun p hp => absurd hp List.not_mem_nil⟩ <;>
      simp [h.followerFds, h.server, h.streamer, Server.catchUp, calls, pending, Server.sends,
        Streamer.sends]
  · -- The log is numbered and what is fetched is committed, so the server goes on where it is.
    intro es s e s' hr ih hst hfit hnodup
    obtain ⟨hord, hframed⟩ := ih hfit.of_snoc (by
      rw [sockets_snoc] at hnodup
      exact hnodup.of_append_left)
    have hr' := hr.of_guarded
    obtain ⟨hrun, hfetching⟩ := Run.fetchesCommitted hr h hfit.of_snoc
    have hcoh := Live.Run.coherent (Run.live hr') h.live hfit.of_snoc
    have hp := Live.Run.placed (Run.live hr') h.live hfit.of_snoc
    have hprogress := Run.progress hrun h hfit.of_snoc
    obtain ⟨b, hlog, hend⟩ := Run.numbered_wholeLog hr' h hfit.of_snoc
    obtain ⟨b', hnum, hend'⟩ := Run.numbered_awaiting hr' h hfit.of_snoc
    have hfetch := hst.1.fetchesCommitted hst.2 hcoh hp
      (Live.Run.committedOffset_eq (Run.live hr') h.live) hfetching
    have hlost := hst.1.not_lost hst.2 hcoh hp hfetch hprogress
    have hnext : ∀ c sends msgs, s.server = .sending c sends msgs → sends ≠ [] →
        (c.offset + 1).toNat = c.offset.toNat + 1 :=
      fun c sends msgs hs hne => hprogress.toNat_next hlog hend hs hne
    have hc := Run.toNat_committedOffset hr' h hst.1 hfit
    refine ⟨hst.1.orderly hst.2 hlost ?_ hnext hnodup hord, ?_⟩
    · exact UInt64.le_iff_toNat_le.2 (hc ▸ Nat.le_add_right _ _)
    · exact hst.1.framed hst.2 hlost hord (Run.awaiting_isSuffix hr' h hfit.of_snoc).1 hprogress
        hnext hc hnum hend' hnodup hframed

end

/-! ## The first record -/

section

variable {G : Feed κ σ → Event κ σ → Prop}

/-- The worker sends the next pieces. -/
theorem run_stream (hG : ∀ s x, G s (.sent x)) (sends rest : List (Send σ))
    (hs : s.streamer = .sending (sends ++ rest)) :
    Run (Guarded (Step maxLag) G) s (sends.map .sent) { s with streamer := .sending rest } := by
  induction sends generalizing s with
  | nil =>
    have hsame : { s with streamer := .sending rest } = s := by rw [← List.nil_append rest, ← hs]
    rw [hsame]
    exact .nil
  | cons x sends ih =>
    exact .cons ⟨.stream hs, hG _ _⟩ (ih (s := { s with streamer := .sending (sends ++ rest) }) rfl)

/-- The replication server sends the next pieces of `REPLICA_SYNC_END`. -/
theorem run_sendEnd (hG : ∀ s x, G s (.sent x)) {c : CatchUp σ} (sends rest : List (Send σ))
    (hs : s.server = .ending c (sends ++ rest)) :
    Run (Guarded (Step maxLag) G) s (sends.map .sent) { s with server := .ending c rest } := by
  induction sends generalizing s with
  | nil =>
    have hsame : { s with server := .ending c rest } = s := by rw [← List.nil_append rest, ← hs]
    rw [hsame]
    exact .nil
  | cons x sends ih =>
    exact .cons ⟨.sendEnd hs, hG _ _⟩ (ih (s := { s with server := .ending c (sends ++ rest) }) rfl)

end

/-- The commit of the first record. -/
def firstCommit : QueuedCommit := ⟨0, [Live.firstRecord]⟩

/-- The first record is committed. -/
def committedFeed (server : Server Unit) : Feed Unit Unit :=
  { loopingFeed with live := { store := Live.firstWritten }, server }

/-- What is done up to its sending. -/
def firstEvents : List (Event Unit Unit) :=
  [.lived (.stored (.notified [Live.firstRecord] [])), .led .popped,
    .led (.processed firstCommit []), .led (.posted []), .finished]

/-- The worker is about to send it. -/
def readyFeed (server : Server Unit) : Feed Unit Unit :=
  { loopingFeed with
    live := { store := { Live.firstWritten with io := .notified [Live.firstRecord] } }
    streamer := .ready firstCommit 0
    server }

/-- Its pieces. -/
def firstSends : List (Send Unit) := loopingFeed.syncSends 0 () Live.firstRecord

theorem run_readyFeed {G : Feed Unit Unit → Event Unit Unit → Prop}
    (hG : ∀ s, ∀ e ∈ firstEvents, G s e) (server : Server Unit) :
    Run (Guarded (Step maxLag) G) (committedFeed server) firstEvents (readyFeed server) := by
  have hnotify : Live.Step (committedFeed server).live
      (.stored (.notified [Live.firstRecord] [])) (readyFeed server).live :=
    .store (.notify rfl) (by simp [PartitionStore.Event.OnFiles])
  let posted : Feed Unit Unit :=
    { readyFeed server with
      leader := { loopingFeed.leader with manager := { worker := .posted firstCommit } }
      streamer := .idle }
  have hfinish : Step maxLag posted .finished (readyFeed server) :=
    @Step.finish Unit Unit maxLag posted firstCommit rfl rfl
  exact .cons ⟨.live hnotify (by simp [Live.Event.reader]), hG _ _ (by simp [firstEvents])⟩ <|
    .cons ⟨.pop (.pop rfl rfl) rfl, hG _ _ (by simp [firstEvents])⟩ <|
    .cons ⟨.lead (.process rfl) trivial, hG _ _ (by simp [firstEvents])⟩ <|
    .cons ⟨.lead (.post rfl) trivial, hG _ _ (by simp [firstEvents])⟩ <|
    .single ⟨hfinish, hG _ _ (by simp [firstEvents])⟩

/-- The worker sends the record, with the lock held. -/
def streamingFeed (server : Server Unit) (sends : List (Send Unit)) : Feed Unit Unit :=
  { readyFeed server with streamer := .sending sends }

theorem step_streamingFeed (server : Server Unit) :
    Step maxLag (readyFeed server) (.locked firstCommit) (streamingFeed server firstSends) :=
  @Step.lock Unit Unit maxLag (readyFeed server) firstCommit 0 [(1, ())] rfl (.refl _)

/-- The follower gets `REPLICA_SYNC_END`, and then the record. -/
theorem synced_firstRecord : ∃ (es : List (Event Unit Unit)) (s : Feed Unit Unit),
    Run (Guarded (Step 0) Serial) emptyFeed es s ∧ (sockets es).Nodup ∧
      (0, ()) ∈ registrations es ∧ Sent es () Live.firstRecord ∧ Synced es s 0 () := by
  have hsent : ∀ (s : Feed Unit Unit) (x : Send Unit), s.Serial (.sent x) := fun _ _ => trivial
  have hend : Run (Guarded (Step 0) Serial) emptyFeed _ endingFeed :=
    run_endingFeed trivial (by decide : (0 : UInt64) ≤ 0) rfl
  have hsend : Run (Guarded (Step 0) Serial) endingFeed ((loopingFeed.endSends ()).map .sent)
      { loopingFeed with server := .ending ⟨(), 0, 0⟩ [] } :=
    run_sendEnd hsent (loopingFeed.endSends ()) [] rfl
  have hidle : Guarded (Step 0) Serial { loopingFeed with server := .ending ⟨(), 0, 0⟩ [] } .ended
      { loopingFeed with server := .idle } :=
    ⟨.finishEnd rfl, trivial⟩
  have hcommit : Run (Guarded (Step 0) Serial) { loopingFeed with server := .idle } _
      (committedFeed .idle) :=
    run_of_live Live.run_firstWritten Live.reader_firstCommitEvents fun s e he => by
      cases e <;> trivial
  have hready : Run (Guarded (Step 0) Serial) (committedFeed .idle) firstEvents (readyFeed .idle) :=
    run_readyFeed (fun s e he => by
      simp only [firstEvents, List.mem_cons, List.not_mem_nil, or_false] at he
      rcases he with rfl | rfl | rfl | rfl | rfl <;> trivial) .idle
  have hlock : Guarded (Step 0) Serial (readyFeed .idle) (.locked firstCommit)
      (streamingFeed .idle firstSends) :=
    ⟨step_streamingFeed .idle, rfl, fun r hr => List.mem_singleton.1 hr ▸ by decide⟩
  have hstream : Run (Guarded (Step 0) Serial) (streamingFeed .idle firstSends)
      (firstSends.map .sent) (streamingFeed .idle []) :=
    run_stream hsent firstSends [] rfl
  have hrun := ((((hend.append hsend).snoc hidle).append hcommit).append hready).snoc hlock
    |>.append hstream
  obtain ⟨x, hx, hprop⟩ := exists_mem_sendAll (framePieces_ne_nil _ _ _)
  have hnodup : [()].Nodup := by decide
  refine ⟨_, _, hrun, hnodup, List.mem_singleton_self _, ⟨x, ?_, hprop⟩,
    synced started_emptyFeed hrun (by decide : 0 + 1 < 2 ^ 64) hnodup (List.mem_singleton_self _)⟩
  exact List.mem_append_right _ (List.mem_map_of_mem hx)

theorem sends_map_sent (sends : List (Send σ)) :
    (sends.map .sent : List (Event κ σ)).flatMap Event.sends = sends := by
  rw [List.flatMap_map]
  exact List.flatMap_singleton' sends

/-- The first piece of `REPLICA_SYNC_END`, which is its length. -/
def endLength : List (Send Unit) := (loopingFeed.endSends ()).take 1

/-- The others. -/
def endRest : List (Send Unit) := (loopingFeed.endSends ()).drop 1

/-- Not every stream is well formed: the record is sent between the pieces of
    `REPLICA_SYNC_END`. -/
theorem not_forall_synced :
    ¬∀ (s₀ s : Feed Unit Unit) (es : List (Event Unit Unit)) (startOffset : UInt64) (socket : Unit),
      Started s₀ → Run (Step 0) s₀ es s → Fits s₀ es → (sockets es).Nodup →
      (startOffset, socket) ∈ registrations es → Synced es s startOffset socket := by
  intro hall
  let G : Feed Unit Unit → Event Unit Unit → Prop := fun _ _ => True
  let c : CatchUp Unit := ⟨(), 0, 0⟩
  have hend : Run (Guarded (Step 0) G) emptyFeed _ endingFeed :=
    run_endingFeed trivial trivial trivial
  have hlength : Run (Guarded (Step 0) G) endingFeed (endLength.map .sent)
      { loopingFeed with server := .ending c endRest } :=
    run_sendEnd (fun _ _ => trivial) endLength endRest rfl
  have hcommit : Run (Guarded (Step 0) G) { loopingFeed with server := .ending c endRest } _
      (committedFeed (.ending c endRest)) :=
    run_of_live Live.run_firstWritten Live.reader_firstCommitEvents fun _ _ _ => trivial
  have hready : Run (Guarded (Step 0) G) _ firstEvents _ :=
    run_readyFeed (fun _ _ _ => trivial) (.ending c endRest)
  have hstream : Run (Guarded (Step 0) G) (streamingFeed (.ending c endRest) firstSends)
      (firstSends.map .sent) (streamingFeed (.ending c endRest) []) :=
    run_stream (fun _ _ => trivial) firstSends [] rfl
  have hrest : Run (Guarded (Step 0) G) (streamingFeed (.ending c endRest) [])
      (endRest.map .sent) (streamingFeed (.ending c []) []) :=
    run_sendEnd (fun _ _ => trivial) endRest [] rfl
  have hrun := ((((hend.append hlength).append hcommit).append hready).snoc
    ⟨step_streamingFeed _, trivial⟩).append hstream |>.append hrest
  obtain ⟨ms, n, hms, -⟩ := hall emptyFeed _ _ 0 () started_emptyFeed hrun.of_guarded
    (by decide : 0 + 1 < 2 ^ 64) (by decide : [()].Nodup) (List.mem_singleton_self _)
  have hquiet : (Live.firstCommitEvents.map .lived : List (Event Unit Unit)).flatMap Event.sends =
      [] := rfl
  have hbytes : bytesOn () (endLength ++ (firstSends ++ endRest)) =
      (lengthPrefixed 4).encodeAll ms := by
    rw [← hms]
    simp only [List.flatMap_append, sends_map_sent, hquiet]
    simp [Event.sends, firstEvents, pending, streamingFeed, readyFeed, Server.sends, Streamer.sends,
      bytesOn]
  -- The length field takes in most of the record, and what follows it is taken for a length.
  have hnil : (lengthPrefixed 4).rest (bytesOn () (endLength ++ (firstSends ++ endRest))) = [] := by
    rw [hbytes, ← List.append_nil ((lengthPrefixed 4).encodeAll ms), Format.rest_encodeAll_append]
    rfl
  have hlen : ((lengthPrefixed 4).rest
      (bytesOn () (endLength ++ (firstSends ++ endRest)))).length = 283 := by
    decide +kernel
  rw [hnil] at hlen
  exact absurd hlen (by decide)

end Feed

end Fell.Broker
