import Fell.Storage.Log

/-!
# Once-callbacks, step by step

`set_once_commit_callback` holds the lock `once_cb_mu_` while it compares the offset with the
committed offset, and calls or keeps the callback. The I/O thread stores the committed offset
without the lock, loads it again, takes the lock to sort out the callbacks that are due
(`fire_once_callbacks`), and calls them after it has released it.

In `PartitionStore.Step`, a registration is one step, and so is the round of callbacks after a batch
is written. Here they are taken apart, for any number of threads.

* `Step.atomic`: a registration takes place when the offset is compared, and a round of callbacks
  when they are sorted out;
* `Run.registered_perm`: a callback that was registered is called, or still to be called, and once
  only;
* `once`: no callback is called too early, or is left behind by the I/O thread.
-/

namespace Fell.Storage

open Platform

/-- Where a call of `set_once_commit_callback` is that holds the lock. -/
inductive Setting
  | entered
  /-- The offset is below the committed offset that was loaded. -/
  | calls (seen : UInt64)
  | inserts
  | leaves

/-- `once_cb_mu_`, and who holds it. -/
inductive OnceLock (κ : Type)
  | free
  | setter (offset : UInt64) (cb : κ) (pc : Setting)
  | io

/-- Where the I/O thread is in `fire_once_callbacks`. The callbacks are kept with their
    offsets, which `to_call` does not have. -/
inductive Firing (κ : Type)
  | idle
  | loaded (committed : UInt64)
  | locked (committed : UInt64)
  | swept (committed : UInt64) (toCall : List (UInt64 × κ))
  | calling (committed : UInt64) (toCall : List (UInt64 × κ))

/-- A partition store, with the threads at its callbacks. -/
structure OnceStore (κ : Type) where
  store : PartitionStore κ
  lock : OnceLock κ
  firing : Firing κ

namespace PartitionStore

variable {κ : Type} {s s' : PartitionStore κ} {e : Event κ}

/-- Neither a registration nor a round of callbacks. -/
def Event.Elsewhere : Event κ → Prop
  | .registered .. | .notified .. => False
  | _ => True

/-- The store, but for the callbacks and the place of the I/O thread. -/
def withCallbacks (s : PartitionStore κ) (cbs : List (UInt64 × κ)) (io : IoPhase) :
    PartitionStore κ :=
  { s with onceCallbacks := cbs, io }

theorem append_withCallbacks (cbs : List (UInt64 × κ)) (io : IoPhase) (payload : Payload)
    (now : UInt64) :
    (s.withCallbacks cbs io).append payload now =
      ((s.append payload now).1, (s.append payload now).2.withCallbacks cbs io) := by
  have hshut : (s.withCallbacks cbs io).shutdown = s.shutdown := rfl
  have hfull : (s.withCallbacks cbs io).queueFull payload.bytes.length ↔
      s.queueFull payload.bytes.length := Iff.rfl
  simp only [append, hshut, hfull]
  split_ifs <;> rfl

theorem fetch_withCallbacks (cbs : List (UInt64 × κ)) (io : IoPhase) (offset : UInt64)
    (maxCount : ℕ) :
    (s.withCallbacks cbs io).fetch offset maxCount =
      ((s.fetch offset maxCount).1, (s.fetch offset maxCount).2.withCallbacks cbs io) := by
  have hfind : (s.withCallbacks cbs io).findSegmentFor offset = s.findSegmentFor offset := rfl
  rw [fetch, fetch, hfind]
  split <;> rfl

theorem writeBatch_withCallbacks (cbs : List (UInt64 × κ)) (io : IoPhase) (batch : List Record) :
    (s.withCallbacks cbs io).writeBatch batch =
      (s.writeBatch batch).map fun s' => s'.withCallbacks cbs io := by
  rw [writeBatch, writeBatch]
  split
  · rfl
  · simp only [withCallbacks, Option.bind_eq_bind, Option.map_bind, Function.comp_def,
      Option.map_some]

theorem endRound_withCallbacks (cbs : List (UInt64 × κ)) (io : IoPhase) :
    (s.withCallbacks cbs io).endRound = s.endRound.withCallbacks cbs io := by
  have hbytes : (s.withCallbacks cbs io).writer = s.writer := rfl
  rw [endRound, endRound, hbytes]
  split <;> rfl

/-- The steps that other threads take beside the I/O thread, which leave it where it is. -/
def Event.Beside : Event κ → Prop
  | .appended _ | .refused _ | .fetched .. | .shutDown => True
  | _ => False

theorem Step.beside (hst : Step s e s') (he : e.Beside) :
    s'.io = s.io ∧ s'.committedOffset = s.committedOffset ∧ s'.onceCallbacks = s.onceCallbacks ∧
      ∀ cbs io, Step (s.withCallbacks cbs io) e (s'.withCallbacks cbs io) := by
  cases hst with
  | append payload now hacc =>
    refine ⟨?_, ?_, ?_, fun cbs io => ?_⟩
    iterate 3 rw [append_of_accepted hacc]; rfl
    have hst := @Step.append κ (s.withCallbacks cbs io) payload now
    rw [append_withCallbacks] at hst
    exact hst hacc
  | refuse payload now hrej =>
    refine ⟨?_, ?_, ?_, fun cbs io => ?_⟩
    iterate 3 rw [append_of_rejected hrej]
    have hst := @Step.refuse κ (s.withCallbacks cbs io) payload now
    rw [append_withCallbacks] at hst
    exact hst hrej
  | fetch offset maxCount =>
    refine ⟨?_, ?_, ?_, fun cbs io => ?_⟩
    iterate 3 rw [fetch_snd]
    have hst := @Step.fetch κ (s.withCallbacks cbs io) offset maxCount
    rw [fetch_withCallbacks] at hst
    exact hst
  | shutDown => exact ⟨rfl, rfl, rfl, fun _ _ => .shutDown⟩
  | _ => exact he.elim

/-- The other steps do not look at the callbacks. -/
theorem Step.withCallbacks (hst : Step s e s') (he : e.Elsewhere) (cbs : List (UInt64 × κ)) :
    Step (s.withCallbacks cbs s.io) e (s'.withCallbacks cbs s'.io) := by
  have hbeside : e.Beside → Step (s.withCallbacks cbs s.io) e (s'.withCallbacks cbs s'.io) := by
    intro hb
    obtain ⟨hio, -, -, hlift⟩ := hst.beside hb
    rw [hio]
    exact hlift cbs s.io
  cases hst with
  | append | refuse | fetch | shutDown => exact hbeside trivial
  | register | notify => exact he.elim
  | takeFirst hio hq => exact .takeFirst hio hq
  | takeMore hio hfull hq => exact .takeMore hio hfull hq
  | takeDone hio => exact .takeDone hio
  | @write s' batch hio hw =>
    refine @Step.write κ _ (s'.withCallbacks cbs s.io) _ hio ?_
    rw [writeBatch_withCallbacks, hw, Option.map_some]
  | endRound hio =>
    have hst := @Step.endRound κ (s.withCallbacks cbs s.io) _ hio
    rw [endRound_withCallbacks] at hst
    exact hst
  | stop hio hs hq => exact .stop hio hs hq

/-- While a batch is written and its callbacks are not called, only other threads move. -/
theorem Step.beside_of_written {batch : List Record} (hst : Step s e s') (he : e.Elsewhere)
    (hio : s.io = .written batch) : e.Beside := by
  cases hst with
  | append | refuse | fetch | shutDown => trivial
  | register | notify => exact he.elim
  | takeFirst hio' | takeMore hio' | takeDone hio' | write hio' | endRound hio' | stop hio' =>
    exact absurd (hio.symm.trans hio') nofun

theorem Step.onceCallbacks_eq (hst : Step s e s') (he : e.Elsewhere) :
    s'.onceCallbacks = s.onceCallbacks := by
  have hbeside : e.Beside → s'.onceCallbacks = s.onceCallbacks := fun hb => (hst.beside hb).2.2.1
  cases hst with
  | append | refuse | fetch | shutDown => exact hbeside trivial
  | register | notify => exact he.elim
  | takeFirst | takeMore | takeDone | stop => rfl
  | @write s' batch hio hw =>
    have hsame := @writeBatch_withCallbacks κ s s.onceCallbacks s.io batch
    rw [hw, Option.map_some] at hsame
    have heq : s' = s'.withCallbacks s.onceCallbacks s.io := Option.some.inj (hw.symm.trans hsame)
    have hcbs := congrArg PartitionStore.onceCallbacks heq
    exact hcbs
  | endRound hio =>
    rw [endRound_eq]

end PartitionStore

namespace OnceStore

variable {κ : Type}

/-- Events. -/
inductive Event (κ : Type)
  | store (e : PartitionStore.Event κ)
  | entered (offset : UInt64) (cb : κ)
  | compared (offset : UInt64) (cb : κ) (called : Bool)
  /-- A callback is called: the committed offset that was loaded for it, and the one at the time. -/
  | invoked (offset : UInt64) (cb : κ) (seen now : UInt64)
  | swept (batch : List Record) (toCall : List (UInt64 × κ))
  /-- `fire_once_callbacks` has returned, with these callbacks registered. -/
  | fired (committed : UInt64) (left : List (UInt64 × κ))
  | wentOn

/-- A step of one of the threads. -/
inductive Step (s : OnceStore κ) : Event κ → OnceStore κ → Prop
  | store {e : PartitionStore.Event κ} {store' : PartitionStore κ}
      (hst : PartitionStore.Step s.store e store') (he : e.Elsewhere) :
      Step s (.store e) { s with store := store' }
  | enter (offset : UInt64) (cb : κ) (hlock : s.lock = .free) :
      Step s (.entered offset cb) { s with lock := .setter offset cb .entered }
  | compareBelow {offset : UInt64} {cb : κ} (hlock : s.lock = .setter offset cb .entered)
      (hlt : offset < s.store.committedOffset) :
      Step s (.compared offset cb true)
        { s with lock := .setter offset cb (.calls s.store.committedOffset) }
  | compareAbove {offset : UInt64} {cb : κ} (hlock : s.lock = .setter offset cb .entered)
      (hge : ¬offset < s.store.committedOffset) :
      Step s (.compared offset cb false) { s with lock := .setter offset cb .inserts }
  | call {offset seen : UInt64} {cb : κ} (hlock : s.lock = .setter offset cb (.calls seen)) :
      Step s (.invoked offset cb seen s.store.committedOffset)
        { s with lock := .setter offset cb .leaves }
  | insert {offset : UInt64} {cb : κ} (hlock : s.lock = .setter offset cb .inserts) :
      Step s .wentOn
        { s with
          store := { s.store with onceCallbacks := s.store.onceCallbacks ++ [(offset, cb)] }
          lock := .setter offset cb .leaves }
  | leave {offset : UInt64} {cb : κ} (hlock : s.lock = .setter offset cb .leaves) :
      Step s .wentOn { s with lock := .free }
  | load {batch : List Record} (hio : s.store.io = .written batch) (hfiring : s.firing = .idle) :
      Step s .wentOn { s with firing := .loaded s.store.committedOffset }
  | acquire {c : UInt64} (hfiring : s.firing = .loaded c) (hlock : s.lock = .free) :
      Step s .wentOn { s with lock := .io, firing := .locked c }
  | sweep {c : UInt64} {batch : List Record} (hfiring : s.firing = .locked c)
      (hio : s.store.io = .written batch) :
      Step s (.swept batch (s.store.onceCallbacks.filter fun x => x.1 < c))
        { s with
          store := (s.store.fireOnceCallbacks c).2
          firing := .swept c (s.store.onceCallbacks.filter fun x => x.1 < c) }
  | release {c : UInt64} {toCall : List (UInt64 × κ)} (hfiring : s.firing = .swept c toCall) :
      Step s .wentOn { s with lock := .free, firing := .calling c toCall }
  | fire {c : UInt64} {x : UInt64 × κ} {toCall : List (UInt64 × κ)}
      (hfiring : s.firing = .calling c (x :: toCall)) :
      Step s (.invoked x.1 x.2 c s.store.committedOffset)
        { s with firing := .calling c toCall }
  | finish {c : UInt64} {batch : List Record} (hfiring : s.firing = .calling c [])
      (hio : s.store.io = .written batch) :
      Step s (.fired c s.store.onceCallbacks)
        { s with store := { s.store with io := .notified batch }, firing := .idle }

/-- A store that is open, before any callback is registered. -/
def start (dir : Dir) (options : StorageOptions) : OnceStore κ := ⟨.open dir options, .free, .idle⟩

end OnceStore

/-! ## Where the threads are -/

/-- The callback that the holder of the lock is about to keep. -/
def OnceLock.inserting {κ : Type} : OnceLock κ → List (UInt64 × κ)
  | .setter offset cb .inserts => [(offset, cb)]
  | _ => []

/-- The batch counts as notified. -/
def IoPhase.notify : IoPhase → IoPhase
  | .written batch => .notified batch
  | io => io

/-- Where the I/O thread is, when it has sorted out the callbacks as soon as it has to. -/
def Firing.ioPhase {κ : Type} : Firing κ → IoPhase → IoPhase
  | .swept .., io | .calling .., io => io.notify
  | .idle, io | .loaded _, io | .locked _, io => io

namespace OnceStore

variable {κ : Type} {s s' : OnceStore κ} {e : Event κ} {es : List (Event κ)}

/-- The I/O thread is in `fire_once_callbacks` with the committed offset `c`, which only it
    stores. -/
def At (s : OnceStore κ) (c : UInt64) : Prop :=
  s.store.committedOffset = c ∧ ∃ batch, s.store.io = .written batch

/-- The callbacks that are kept, or about to be kept. -/
def kept (s : OnceStore κ) : List (UInt64 × κ) := s.store.onceCallbacks ++ s.lock.inserting

/-- None of them is due. -/
def NoneBelow (s : OnceStore κ) (c : UInt64) : Prop := ∀ x ∈ s.kept, ¬x.1 < c

/-- What is known in each place of the I/O thread. -/
def Orderly (s : OnceStore κ) : Prop :=
  match s.firing with
  | .idle => s.lock ≠ .io
  | .loaded c => s.lock ≠ .io ∧ s.At c
  | .locked c => s.lock = .io ∧ s.At c
  | .swept c toCall => s.lock = .io ∧ s.At c ∧ (∀ x ∈ toCall, x.1 < c) ∧ s.NoneBelow c
  | .calling c toCall => s.lock ≠ .io ∧ s.At c ∧ (∀ x ∈ toCall, x.1 < c) ∧ s.NoneBelow c

/-- A thread that is not the I/O thread moves, and keeps no callback that is due. -/
theorem Orderly.setter (h : s.Orderly) (hfiring : s'.firing = s.firing) (hlock : s.lock ≠ .io)
    (hlock' : s'.lock ≠ .io) (hat : ∀ c, s.At c → s'.At c)
    (hkept : ∀ x ∈ s'.kept, x ∈ s.kept ∨ ¬x.1 < s.store.committedOffset) : s'.Orderly := by
  have hnone : ∀ c, s.At c → s.NoneBelow c → s'.NoneBelow c := by
    rintro c ⟨rfl, -⟩ hnone x hx
    exact (hkept x hx).elim (hnone x) id
  rw [Orderly, hfiring]
  rw [Orderly] at h
  split at h
  · exact hlock'
  · exact ⟨hlock', hat _ h.2⟩
  · exact absurd h.1 hlock
  · exact absurd h.1 hlock
  · exact ⟨hlock', hat _ h.2.1, h.2.2.1, hnone _ h.2.1 h.2.2.2⟩

theorem Orderly.store (h : s.Orderly) {e : PartitionStore.Event κ} {store' : PartitionStore κ}
    (hst : PartitionStore.Step s.store e store') (he : e.Elsewhere) :
    Orderly { s with store := store' } := by
  have hat : ∀ c, s.At c → At { s with store := store' } c := by
    rintro c ⟨hc, batch, hio⟩
    obtain ⟨hio', hc', -⟩ := hst.beside (hst.beside_of_written he hio)
    exact ⟨hc'.trans hc, batch, hio'.trans hio⟩
  have hnone : ∀ c, s.NoneBelow c → NoneBelow { s with store := store' } c := by
    intro c hnone
    rw [NoneBelow, kept, hst.onceCallbacks_eq he]
    exact hnone
  unfold Orderly at h ⊢
  dsimp only
  split at h
  · exact h
  · exact ⟨h.1, hat _ h.2⟩
  · exact ⟨h.1, hat _ h.2⟩
  · exact ⟨h.1, hat _ h.2.1, h.2.2.1, hnone _ h.2.2.2⟩
  · exact ⟨h.1, hat _ h.2.1, h.2.2.1, hnone _ h.2.2.2⟩

theorem Step.orderly (hst : Step s e s') (h : s.Orderly) : s'.Orderly := by
  cases hst with
  | store hst he => exact h.store hst he
  | enter offset cb hlock =>
    refine h.setter rfl (by rw [hlock]; nofun) nofun (fun _ hat => hat) fun x hx => .inl ?_
    simpa [kept, OnceLock.inserting, hlock] using hx
  | compareBelow hlock hlt =>
    refine h.setter rfl (by rw [hlock]; nofun) nofun (fun _ hat => hat) fun x hx => .inl ?_
    simpa [kept, OnceLock.inserting, hlock] using hx
  | compareAbove hlock hge =>
    refine h.setter rfl (by rw [hlock]; nofun) nofun (fun _ hat => hat) fun x hx => ?_
    rcases List.mem_append.1 hx with hold | hnew
    · exact .inl (List.mem_append_left _ hold)
    · rw [List.mem_singleton.1 hnew]
      exact .inr hge
  | call hlock =>
    refine h.setter rfl (by rw [hlock]; nofun) nofun (fun _ hat => hat) fun x hx => .inl ?_
    simpa [kept, OnceLock.inserting, hlock] using hx
  | insert hlock =>
    refine h.setter rfl (by rw [hlock]; nofun) nofun (fun _ hat => hat) fun x hx => .inl ?_
    simpa [kept, OnceLock.inserting, hlock] using hx
  | leave hlock =>
    refine h.setter rfl (by rw [hlock]; nofun) nofun (fun _ hat => hat) fun x hx => .inl ?_
    simpa [kept, OnceLock.inserting, hlock] using hx
  | load hio hfiring =>
    rw [Orderly, hfiring] at h
    exact ⟨h, rfl, _, hio⟩
  | acquire hfiring hlock =>
    rw [Orderly, hfiring] at h
    exact ⟨rfl, h.2⟩
  | @sweep c batch hfiring hio =>
    rw [Orderly, hfiring] at h
    refine ⟨h.1, ⟨h.2.1, _, hio⟩, fun x hx => by simpa using (List.mem_filter.1 hx).2, ?_⟩
    rw [NoneBelow, kept, h.1]
    intro x hx
    have hmem : x ∈ (s.store.fireOnceCallbacks c).2.onceCallbacks := by
      simpa only [OnceLock.inserting, List.append_nil] using hx
    simpa using (List.mem_filter.1 hmem).2
  | release hfiring =>
    rw [Orderly, hfiring] at h
    refine ⟨nofun, h.2.1, h.2.2.1, ?_⟩
    simpa [NoneBelow, kept, OnceLock.inserting, h.1] using h.2.2.2
  | fire hfiring =>
    rw [Orderly, hfiring] at h
    exact ⟨h.1, h.2.1, fun x hx => h.2.2.1 x (List.mem_cons_of_mem _ hx), h.2.2.2⟩
  | finish hfiring hio =>
    rw [Orderly, hfiring] at h
    exact h.1

theorem Run.orderly {dir : Dir} {options : StorageOptions}
    (hrun : Run Step (start dir options) es s) : s.Orderly :=
  hrun.invariant (I := fun _ s => s.Orderly) (nofun : OnceLock.free ≠ .io) fun _ h hst =>
    hst.orderly h

/-! ## The steps as the store takes them -/

/-- The store, with what has been decided as done. -/
def atomic (s : OnceStore κ) : PartitionStore κ :=
  s.store.withCallbacks s.kept (s.firing.ioPhase s.store.io)

/-- The step of the store that an event is. -/
def Event.atomic : Event κ → List (PartitionStore.Event κ)
  | .store e => [e]
  | .compared offset cb called => [.registered offset cb (if called then [cb] else [])]
  | .swept batch toCall => [.notified batch (toCall.map Prod.snd)]
  | _ => []

/-- The store goes on by itself, also when its callbacks are ahead. -/
theorem Orderly.atomic_store (h : s.Orderly) {e : PartitionStore.Event κ}
    {store' : PartitionStore κ} (hst : PartitionStore.Step s.store e store') (he : e.Elsewhere) :
    PartitionStore.Step s.atomic e (OnceStore.atomic { s with store := store' }) := by
  have hcbs := hst.onceCallbacks_eq he
  have hwritten : (∃ batch, s.store.io = .written batch) →
      PartitionStore.Step s.atomic e (OnceStore.atomic { s with store := store' }) := by
    rintro ⟨batch, hio⟩
    obtain ⟨hio', -, -, hlift⟩ := hst.beside (hst.beside_of_written he hio)
    simpa only [OnceStore.atomic, kept, hcbs, hio'] using hlift _ _
  rw [Orderly] at h
  split at h
  · rename_i hfiring
    simpa only [OnceStore.atomic, kept, hcbs, Firing.ioPhase, hfiring] using hst.withCallbacks he _
  · exact hwritten h.2.2
  · exact hwritten h.2.2
  · exact hwritten h.2.1.2
  · exact hwritten h.2.1.2

theorem Step.atomic (hst : Step s e s') (h : s.Orderly) :
    Run PartitionStore.Step s.atomic e.atomic s'.atomic := by
  have hsame : s'.atomic = s.atomic → Run PartitionStore.Step s.atomic [] s'.atomic :=
    fun heq => heq ▸ .nil
  cases hst with
  | store hst he => exact .single (h.atomic_store hst he)
  | enter offset cb hlock =>
    exact hsame (by simp [OnceStore.atomic, kept, OnceLock.inserting, hlock])
  | @compareBelow offset cb hlock hlt =>
    have hst := @PartitionStore.Step.register κ s.atomic offset cb
    have hbelow : offset < s.atomic.committedOffset := hlt
    rw [PartitionStore.setOnceCommitCallback, if_pos hbelow] at hst
    have heq :
        OnceStore.atomic { s with lock := .setter offset cb (.calls s.store.committedOffset) } =
          s.atomic := by simp [OnceStore.atomic, kept, OnceLock.inserting, hlock]
    rw [heq]
    exact .single hst
  | @compareAbove offset cb hlock hge =>
    have hst := @PartitionStore.Step.register κ s.atomic offset cb
    have habove : ¬offset < s.atomic.committedOffset := hge
    rw [PartitionStore.setOnceCommitCallback, if_neg habove] at hst
    refine .single ?_
    simpa [OnceStore.atomic, kept, OnceLock.inserting, hlock,
      PartitionStore.withCallbacks] using hst
  | call hlock => exact hsame (by simp [OnceStore.atomic, kept, OnceLock.inserting, hlock])
  | insert hlock =>
    exact hsame (by
      simp [OnceStore.atomic, kept, OnceLock.inserting, hlock, PartitionStore.withCallbacks])
  | leave hlock => exact hsame (by simp [OnceStore.atomic, kept, OnceLock.inserting, hlock])
  | load hio hfiring => exact hsame (by simp [OnceStore.atomic, kept, Firing.ioPhase, hfiring])
  | acquire hfiring hlock =>
    exact hsame (by
      simp [OnceStore.atomic, kept, Firing.ioPhase, OnceLock.inserting, hfiring, hlock])
  | @sweep c batch hfiring hio =>
    rw [Orderly, hfiring] at h
    have hnotify : s.atomic.io = .written batch := by
      rw [← hio]
      simp [OnceStore.atomic, kept, Firing.ioPhase, hfiring, PartitionStore.withCallbacks]
    have hst := PartitionStore.Step.notify hnotify
    have hc : s.atomic.committedOffset = c := h.2.1
    rw [hc] at hst
    refine .single ?_
    simpa [OnceStore.atomic, kept, OnceLock.inserting, Firing.ioPhase, IoPhase.notify, h.1, hio,
      PartitionStore.fireOnceCallbacks, PartitionStore.withCallbacks] using hst
  | release hfiring =>
    rw [Orderly, hfiring] at h
    exact hsame (by simp [OnceStore.atomic, kept, Firing.ioPhase, OnceLock.inserting, hfiring, h.1])
  | fire hfiring => exact hsame (by simp [OnceStore.atomic, kept, Firing.ioPhase, hfiring])
  | finish hfiring hio =>
    exact hsame (by simp [OnceStore.atomic, kept, Firing.ioPhase, IoPhase.notify, hfiring, hio,
      PartitionStore.withCallbacks])

/-- The threads at the callbacks do what the store does in its steps. -/
theorem Run.atomic {dir : Dir} {options : StorageOptions}
    (hrun : Run Step (start dir options) es s) :
    Run PartitionStore.Step (.open dir options) (es.flatMap Event.atomic) s.atomic :=
  hrun.simulate OnceStore.atomic Event.atomic fun hr hst => hst.atomic (Run.orderly hr)

/-! ## Callbacks are called once -/

end OnceStore

/-- The callback of a call of `set_once_commit_callback`, until it is called or kept. -/
def OnceLock.held {κ : Type} : OnceLock κ → List (UInt64 × κ)
  | .setter _ _ .leaves | .free | .io => []
  | .setter offset cb _ => [(offset, cb)]

/-- The callbacks that the I/O thread is about to call. -/
def Firing.toCall {κ : Type} : Firing κ → List (UInt64 × κ)
  | .swept _ toCall | .calling _ toCall => toCall
  | .idle | .loaded _ | .locked _ => []

namespace OnceStore

variable {κ : Type} {s s' : OnceStore κ} {e : Event κ} {es : List (Event κ)}

/-- The callbacks that are still to be called. -/
def pending (s : OnceStore κ) : List (UInt64 × κ) :=
  s.lock.held ++ (s.firing.toCall ++ s.store.onceCallbacks)

/-- The callback that is registered in an event. -/
def Event.registered : Event κ → List (UInt64 × κ)
  | .entered offset cb => [(offset, cb)]
  | _ => []

/-- The callback that is called in an event. -/
def Event.called : Event κ → List (UInt64 × κ)
  | .invoked offset cb _ _ => [(offset, cb)]
  | _ => []

/-- The callbacks registered in a run. -/
def registered (es : List (Event κ)) : List (UInt64 × κ) := es.flatMap Event.registered

/-- The callbacks called in a run. -/
def called (es : List (Event κ)) : List (UInt64 × κ) := es.flatMap Event.called

/-- A callback that is registered is pending, until it is called. -/
theorem Step.pending_perm (hst : Step s e s') (h : s.Orderly) :
    (e.registered ++ s.pending).Perm (e.called ++ s'.pending) := by
  cases hst with
  | store hst he => simp [pending, Event.registered, Event.called, hst.onceCallbacks_eq he]
  | enter offset cb hlock => simp [pending, Event.registered, Event.called, OnceLock.held, hlock]
  | compareBelow hlock hlt => simp [pending, Event.registered, Event.called, OnceLock.held, hlock]
  | compareAbove hlock hge => simp [pending, Event.registered, Event.called, OnceLock.held, hlock]
  | call hlock => simp [pending, Event.registered, Event.called, OnceLock.held, hlock]
  | @insert offset cb hlock =>
    have hlast := List.perm_append_singleton (offset, cb) (s.firing.toCall ++ s.store.onceCallbacks)
    rw [List.append_assoc] at hlast
    simpa [pending, Event.registered, Event.called, OnceLock.held, hlock] using hlast.symm
  | leave hlock => simp [pending, Event.registered, Event.called, OnceLock.held, hlock]
  | load hio hfiring => simp [pending, Event.registered, Event.called, Firing.toCall, hfiring]
  | acquire hfiring hlock =>
    simp [pending, Event.registered, Event.called, OnceLock.held, Firing.toCall, hfiring, hlock]
  | @sweep c batch hfiring hio =>
    have hsplit := List.filter_append_perm (fun x : UInt64 × κ => decide (x.1 < c))
      s.store.onceCallbacks
    simp only [← decide_not] at hsplit
    simpa only [pending, Event.registered, Event.called, Firing.toCall, hfiring, List.nil_append,
      PartitionStore.fireOnceCallbacks] using hsplit.symm.append_left s.lock.held
  | release hfiring =>
    rw [Orderly, hfiring] at h
    simp [pending, Event.registered, Event.called, OnceLock.held, Firing.toCall, hfiring, h.1]
  | fire hfiring => simp [pending, Event.registered, Event.called, Firing.toCall, hfiring]
  | finish hfiring hio => simp [pending, Event.registered, Event.called, Firing.toCall, hfiring]

/-- Each callback that was registered is called or pending, and only one of the two. -/
theorem Run.registered_perm {dir : Dir} {options : StorageOptions}
    (hrun : Run Step (start dir options) es s) :
    (registered es).Perm (called es ++ s.pending) := by
  refine hrun.invariant (I := fun es s => (registered es).Perm (called es ++ s.pending)) .rfl ?_
  intro es s e s' hrun ih hst
  have hregistered : registered (es ++ [e]) = registered es ++ e.registered := by simp [registered]
  have hcalled : called (es ++ [e]) = called es ++ e.called := by simp [called]
  have hmoved : (called es ++ s.pending ++ e.registered).Perm
      (called es ++ (e.registered ++ s.pending)) := by
    rw [List.append_assoc]
    exact List.perm_append_comm.append_left _
  rw [hregistered, hcalled, List.append_assoc]
  exact ((ih.append_right _).trans hmoved).trans
    ((hst.pending_perm (Run.orderly hrun)).append_left _)

/-! ## Callbacks are not called early -/

/-- The offsets given out since the store was opened have not come to their end. -/
def Unexhausted (store₀ : PartitionStore κ) (es : List (Event κ)) : Prop :=
  store₀.nextOffset.toNat + (PartitionStore.accepted (es.flatMap Event.atomic)).length < 2 ^ 64

theorem Unexhausted.left {store₀ : PartitionStore κ} {es' : List (Event κ)}
    (h : Unexhausted store₀ (es ++ es')) : Unexhausted store₀ es := by
  rw [Unexhausted, PartitionStore.accepted, List.flatMap_append, List.flatMap_append,
    List.length_append] at h
  exact Nat.lt_of_le_of_lt (Nat.add_le_add_left (Nat.le_add_right _ _) _) h

theorem Run.toNat_committedOffset {dir : Dir} {options : StorageOptions}
    (hrun : Run Step (start dir options) es s) (hlt : Unexhausted (.open dir options) es) :
    s.store.committedOffset.toNat =
      (PartitionStore.open dir options : PartitionStore κ).nextOffset.toNat +
        (PartitionStore.writtenRecords (es.flatMap Event.atomic)).length :=
  (PartitionStore.Run.queued (Run.atomic hrun)
    (PartitionStore.fresh_open dir options)).toNat_committedOffset hlt

theorem Run.committedOffset_mono {dir : Dir} {options : StorageOptions}
    (hrun : Run Step (start dir options) es s) (hst : Step s e s')
    (hlt : Unexhausted (.open dir options) (es ++ [e])) :
    s.store.committedOffset ≤ s'.store.committedOffset := by
  rw [UInt64.le_iff_toNat_le, Run.toNat_committedOffset hrun hlt.left,
    Run.toNat_committedOffset (hrun.snoc hst) hlt, PartitionStore.writtenRecords,
    PartitionStore.writtenRecords, List.flatMap_append, List.flatMap_append, List.length_append]
  exact Nat.add_le_add_left (Nat.le_add_right _ _) _

/-- A thread calls its callback if it has found the offset committed. -/
theorem Step.lock_calls (hst : Step s e s') {offset seen : UInt64} {cb : κ}
    (h : s'.lock = .setter offset cb (.calls seen)) :
    s.lock = .setter offset cb (.calls seen) ∨
      offset < s.store.committedOffset ∧ seen = s.store.committedOffset := by
  cases hst with
  | store | load | sweep | fire | finish => exact .inl h
  | enter | compareAbove | call | insert | leave | acquire | release => exact absurd h nofun
  | compareBelow hlock hlt =>
    cases h
    exact .inr ⟨hlt, rfl⟩

/-- What is known of a thread that is about to call its callback. -/
def Timely (store₀ : PartitionStore κ) (es : List (Event κ)) (s : OnceStore κ) : Prop :=
  ∀ offset cb seen, s.lock = .setter offset cb (.calls seen) →
    offset < seen ∧ (Unexhausted store₀ es → seen ≤ s.store.committedOffset)

theorem Run.timely {dir : Dir} {options : StorageOptions}
    (hrun : Run Step (start dir options) es s) : Timely (.open dir options) es s := by
  refine hrun.invariant (I := Timely (.open dir options)) nofun ?_
  intro es s e s' hrun ih hst offset cb seen hlock
  rcases hst.lock_calls hlock with hlock | ⟨hlt, rfl⟩
  · obtain ⟨hlt, hle⟩ := ih offset cb seen hlock
    refine ⟨hlt, fun hu => ?_⟩
    exact UInt64.le_trans (hle hu.left) (Run.committedOffset_mono hrun hst hu)
  · exact ⟨hlt, Run.committedOffset_mono hrun hst⟩

/-- Each callback is called at most once, and only for an offset that is committed; and the I/O
    thread leaves none behind. -/
theorem once {dir : Dir} {options : StorageOptions} (hrun : Run Step (start dir options) es s) :
    (registered es).Perm (called es ++ s.pending) ∧
      (∀ offset cb seen now, .invoked offset cb seen now ∈ es → offset < seen ∧
        (Unexhausted (.open dir options : PartitionStore κ) es → offset < now)) ∧
      ∀ c left, .fired c left ∈ es → ∀ x ∈ left, ¬x.1 < c := by
  refine ⟨Run.registered_perm hrun, fun offset cb seen now hmem => ?_, fun c left hmem => ?_⟩
  · obtain ⟨es₁, t, t', es₂, rfl, hrun₁, hst, -⟩ := hrun.exists_step hmem
    have horderly := Run.orderly hrun₁
    cases hst with
    | call hlock =>
      obtain ⟨hlt, hle⟩ := Run.timely hrun₁ _ _ _ hlock
      exact ⟨hlt, fun hu => UInt64.lt_of_lt_of_le hlt (hle hu.left)⟩
    | fire hfiring =>
      rw [Orderly, hfiring] at horderly
      have hlt := horderly.2.2.1 _ List.mem_cons_self
      exact ⟨hlt, fun _ => horderly.2.1.1.symm ▸ hlt⟩
  · obtain ⟨es₁, t, t', es₂, rfl, hrun₁, hst, -⟩ := hrun.exists_step hmem
    have horderly := Run.orderly hrun₁
    cases hst with
    | finish hfiring hio =>
      rw [Orderly, hfiring] at horderly
      exact fun x hx => horderly.2.2.2 x (List.mem_append_left _ hx)

/-! ## Two callbacks -/

/-- A store with a callback for the first record, before there is one. -/
def oneKept : PartitionStore Bool :=
  (PartitionStore.open ∅ {} : PartitionStore Bool).withCallbacks [(0, false)] .waiting

theorem run_oneKept : Run Step (start ∅ {})
    [.entered 0 false, .compared 0 false false, .wentOn, .wentOn] ⟨oneKept, .free, .idle⟩ :=
  .cons (.enter 0 false rfl) <| .cons (.compareAbove rfl (by decide)) <| .cons (.insert rfl) <|
    .single (.leave rfl)

/-- What happens from the append of the record to its being written. -/
def oneWritten : List (Event Bool) :=
  let cmd := oneKept.command .empty 5
  [.store (.appended cmd), .store (.took cmd), .store .gathered, .store (.wrote 0 [cmd])]

theorem run_oneWritten :
    Run Step ⟨oneKept, .free, .idle⟩ oneWritten ⟨oneKept.writtenOne .empty 5, .free, .idle⟩ := by
  have hidle : PartitionStore.Idle oneKept := ⟨rfl, rfl, rfl, rfl⟩
  refine .cons (.store (hidle.step_append (by decide) (by decide)) trivial) ?_
  refine .cons (.store hidle.step_took trivial) ?_
  refine .cons (.store (.takeDone rfl) trivial) ?_
  exact .single (.store (PartitionStore.step_wroteOne (by decide) (by decide)) trivial)

/-- What happens in the round of callbacks. -/
def oneFired : List (Event Bool) :=
  [.wentOn, .wentOn, .swept [oneKept.command .empty 5] [(0, false)], .wentOn, .invoked 0 false 1 1,
    .fired 1 []]

theorem run_oneFired : Run Step ⟨oneKept.writtenOne .empty 5, .free, .idle⟩ oneFired
    ⟨oneKept.notifiedOne .empty 5, .free, .idle⟩ :=
  .cons (.load rfl rfl) <| .cons (.acquire rfl rfl) <| .cons (@Step.sweep _ _ 1 _ rfl rfl) <|
    .cons (@Step.release _ _ 1 [(0, false)] rfl) <| .cons (@Step.fire _ _ 1 (0, false) [] rfl) <|
    .single (.finish rfl rfl)

/-- Another callback, which is registered after the round. -/
def oneLate : List (Event Bool) :=
  [.entered 0 true, .compared 0 true true, .invoked 0 true 1 1, .wentOn]

theorem run_oneLate : Run Step ⟨oneKept.notifiedOne .empty 5, .free, .idle⟩ oneLate
    ⟨oneKept.notifiedOne .empty 5, .free, .idle⟩ :=
  .cons (.enter 0 true rfl) <| .cons (.compareBelow rfl (by decide)) <| .cons (.call rfl) <|
    .single (.leave rfl)

/-- The first callback is called in the round, and the second at once. -/
theorem once_called : ∃ es s, Run Step (start ∅ {} : OnceStore Bool) es s ∧
    registered es = [(0, false), (0, true)] ∧ .invoked 0 false 1 1 ∈ es ∧ .fired 1 [] ∈ es ∧
    (registered es).Perm (called es ++ s.pending) ∧
      (∀ offset cb seen now, .invoked offset cb seen now ∈ es → offset < seen ∧
        (Unexhausted (.open ∅ {} : PartitionStore Bool) es → offset < now)) ∧
      ∀ c left, .fired c left ∈ es → ∀ x ∈ left, ¬x.1 < c := by
  have hrun := ((run_oneKept.append run_oneWritten).append run_oneFired).append run_oneLate
  exact ⟨_, _, hrun, rfl, by simp [oneFired], by simp [oneFired], once hrun⟩

end OnceStore

end Fell.Storage
