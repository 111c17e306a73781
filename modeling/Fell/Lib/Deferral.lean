import Fell.Lib.Transition
import Mathlib.Data.Multiset.Filter
import Mathlib.Logic.Function.Basic

/-!
# Deferred responses

A server answers the requests that come in on its connections. A response is put in a
batch, which is written as a whole, or it is deferred: some part `i : ι` of the server owes
it, and delivers it later. What is owed is addressed by the descriptor `d : δ` of a
connection, and is written to whatever connection has that descriptor by then. As
descriptors are given out again, the connections are told apart by their numbers.

* `attributed`: if a descriptor is given out again only when nothing is owed to it, a
  response is delivered to the connection it was deferred for;
* `inOrder`: if moreover a connection that is owed a response has no other request
  answered, the responses are written in the order of the requests.
-/

namespace Fell

variable {δ ι φ ρ : Type*}

/-- A server, as far as its responses are concerned. -/
@[ext] structure Deferral (δ ι φ ρ : Type*) where
  /-- The number of the connection that has a descriptor. -/
  conn : δ → Option ℕ
  /-- How many connections there have been. -/
  opened : ℕ
  /-- The requests received and not answered yet. -/
  unhandled : δ → List φ
  /-- The responses in the batch. -/
  batch : δ → List ρ
  /-- The deferred responses. -/
  owed : ι → Multiset (δ × ρ)

namespace Deferral

/-- What happens in a step. -/
inductive Event (δ ι φ ρ : Type*)
  | opened (d : δ) (id : ℕ)
  | closed (d : δ)
  | received (id : ℕ) (fs : List φ)
  | answered (d : δ) (id : ℕ) (f : φ) (r : ρ)
  | deferred (d : δ) (id : ℕ) (f : φ) (i : ι) (r : ρ)
  | flushed (id : ℕ) (rs : List ρ)
  | delivered (id : Option ℕ) (i : ι) (r : ρ)

section Steps

variable [DecidableEq δ] [DecidableEq ι]

/-- A step of the server. -/
inductive Step (s : Deferral δ ι φ ρ) : Event δ ι φ ρ → Deferral δ ι φ ρ → Prop
  | «open» {d : δ} (hd : s.conn d = none) :
      Step s (.opened d s.opened)
        { s with conn := Function.update s.conn d (some s.opened), opened := s.opened + 1 }
  | close {d : δ} (hu : s.unhandled d = []) (hb : s.batch d = []) :
      Step s (.closed d) { s with conn := Function.update s.conn d none }
  | receive {d : δ} {id : ℕ} (fs : List φ) (hd : s.conn d = some id) (hu : s.unhandled d = []) :
      Step s (.received id fs) { s with unhandled := Function.update s.unhandled d fs }
  | answer {d : δ} {id : ℕ} {f : φ} {fs : List φ} (r : ρ) (hd : s.conn d = some id)
      (hu : s.unhandled d = f :: fs) :
      Step s (.answered d id f r)
        { s with
          unhandled := Function.update s.unhandled d fs
          batch := Function.update s.batch d (s.batch d ++ [r]) }
  | defer {d : δ} {id : ℕ} {f : φ} {fs : List φ} (i : ι) (r : ρ) (hd : s.conn d = some id)
      (hu : s.unhandled d = f :: fs) :
      Step s (.deferred d id f i r)
        { s with
          unhandled := Function.update s.unhandled d fs
          owed := Function.update s.owed i ((d, r) ::ₘ s.owed i) }
  | flush {d : δ} {id : ℕ} (hd : s.conn d = some id) :
      Step s (.flushed id (s.batch d)) { s with batch := Function.update s.batch d [] }
  | deliver {d : δ} {i : ι} {r : ρ} {rest : Multiset (δ × ρ)} (hb : s.batch d = [])
      (ho : s.owed i = (d, r) ::ₘ rest) :
      Step s (.delivered (s.conn d) i r) { s with owed := Function.update s.owed i rest }

end Steps

variable {s s' s₀ : Deferral δ ι φ ρ} {e : Event δ ι φ ρ} {es : List (Event δ ι φ ρ)}

/-! ## What has happened on a connection -/

/-- The requests received on a connection in a step. -/
def Event.received? (id : ℕ) : Event δ ι φ ρ → List φ
  | .received id' fs => if id' = id then fs else []
  | _ => []

/-- The request of a connection answered in a step, with its response. -/
def Event.answer? (id : ℕ) : Event δ ι φ ρ → List (φ × ρ)
  | .answered _ id' f r | .deferred _ id' f _ r => if id' = id then [(f, r)] else []
  | _ => []

/-- The responses written to a connection in a step. -/
def Event.written? (id : ℕ) : Event δ ι φ ρ → List ρ
  | .flushed id' rs => if id' = id then rs else []
  | .delivered id' _ r => if id' = some id then [r] else []
  | _ => []

/-- The requests received on a connection. -/
def received (id : ℕ) (es : List (Event δ ι φ ρ)) : List φ := es.flatMap (Event.received? id)

/-- The requests of a connection that have been answered, with their responses. -/
def answers (id : ℕ) (es : List (Event δ ι φ ρ)) : List (φ × ρ) := es.flatMap (Event.answer? id)

/-- The responses written to a connection. -/
def written (id : ℕ) (es : List (Event δ ι φ ρ)) : List ρ := es.flatMap (Event.written? id)

@[simp] theorem received_snoc (id : ℕ) :
    received id (es ++ [e]) = received id es ++ e.received? id := by
  simp [received]

@[simp] theorem answers_snoc (id : ℕ) : answers id (es ++ [e]) = answers id es ++ e.answer? id := by
  simp [answers]

@[simp] theorem written_snoc (id : ℕ) :
    written id (es ++ [e]) = written id es ++ e.written? id := by
  simp [written]

/-- The step is not about the connection. -/
structure Event.Aside (e : Event δ ι φ ρ) (id : ℕ) : Prop where
  received : e.received? id = []
  answer : e.answer? id = []
  written : e.written? id = []

variable [DecidableEq δ] [DecidableEq ι]

/-- Steps are about connections that are open before and after. -/
theorem Step.aside (hst : Step s e s') {id : ℕ}
    (hid : ∀ d, s.conn d = some id → s'.conn d ≠ some id) : e.Aside id := by
  cases hst with
  | «open» | close => exact ⟨rfl, rfl, rfl⟩
  | receive fs hd hu => exact ⟨if_neg (by rintro rfl; exact hid _ hd hd), rfl, rfl⟩
  | answer r hd hu => exact ⟨rfl, if_neg (by rintro rfl; exact hid _ hd hd), rfl⟩
  | defer i r hd hu => exact ⟨rfl, if_neg (by rintro rfl; exact hid _ hd hd), rfl⟩
  | flush hd => exact ⟨rfl, rfl, if_neg (by rintro rfl; exact hid _ hd hd)⟩
  | deliver hb ho => exact ⟨rfl, rfl, if_neg fun hd => hid _ hd hd⟩

/-! ## Descriptors and numbers -/

/-- The connections that are open have numbers of their own, and nothing is kept for a
    descriptor that has no connection. -/
structure Tidy (es : List (Event δ ι φ ρ)) (s : Deferral δ ι φ ρ) : Prop where
  lt : ∀ {d id}, s.conn d = some id → id < s.opened
  inj : ∀ {d d' id}, s.conn d = some id → s.conn d' = some id → d = d'
  none : ∀ {d}, s.conn d = none → s.unhandled d = [] ∧ s.batch d = []
  fresh : ∀ {id}, s.opened ≤ id → received id es = [] ∧ answers id es = [] ∧ written id es = []

theorem Tidy.fresh_snoc (h : Tidy es s) (hst : Step s e s') {id : ℕ} (hid : s.opened ≤ id) :
    received id (es ++ [e]) = [] ∧ answers id (es ++ [e]) = [] ∧ written id (es ++ [e]) = [] := by
  obtain ⟨hr, ha, hw⟩ := h.fresh hid
  have hside := hst.aside fun d hd => absurd (h.lt hd) (Nat.not_lt.2 hid)
  simp [hr, ha, hw, hside.received, hside.answer, hside.written]

theorem Step.tidy (h : Tidy es s) (hst : Step s e s') : Tidy (es ++ [e]) s' := by
  have hfresh : ∀ {id}, s.opened ≤ id → received id (es ++ [e]) = [] ∧
      answers id (es ++ [e]) = [] ∧ written id (es ++ [e]) = [] := h.fresh_snoc hst
  -- What is done for a connection leaves the descriptors without one.
  have hne : ∀ {d d' id}, s.conn d = some id → s.conn d' = none → d' ≠ d :=
    fun hd hd' heq => Option.some_ne_none _ (hd.symm.trans (heq ▸ hd'))
  cases hst with
  | @«open» d hd =>
    refine ⟨fun {d' id} hd' => ?_, fun {d₁ d₂ id} h₁ h₂ => ?_, fun {d'} hd' => ?_,
      fun hid => hfresh (Nat.le_of_succ_le hid)⟩
    · simp only [Function.update_apply] at hd'
      split_ifs at hd' with heq
      · cases hd'
        exact Nat.lt_succ_self _
      · exact Nat.lt_succ_of_lt (h.lt hd')
    · simp only [Function.update_apply] at h₁ h₂
      split_ifs at h₁ h₂ with heq₁ heq₂ heq₂
      · rw [heq₁, heq₂]
      · cases h₁
        exact absurd (h.lt h₂) (Nat.lt_irrefl _)
      · cases h₂
        exact absurd (h.lt h₁) (Nat.lt_irrefl _)
      · exact h.inj h₁ h₂
    · simp only [Function.update_apply] at hd'
      split_ifs at hd'
      exact h.none hd'
  | @close d hu hb =>
    have hsome : ∀ {d' id}, Function.update s.conn d none d' = some id → s.conn d' = some id := by
      intro d' id hd'
      simp only [Function.update_apply] at hd'
      split_ifs at hd'
      exact hd'
    refine ⟨fun hd' => h.lt (hsome hd'), fun h₁ h₂ => h.inj (hsome h₁) (hsome h₂),
      fun {d'} hd' => ?_, hfresh⟩
    simp only [Function.update_apply] at hd'
    split_ifs at hd' with heq
    · rw [heq]
      exact ⟨hu, hb⟩
    · exact h.none hd'
  | receive fs hd hu | defer i r hd hu =>
    refine ⟨h.lt, h.inj, fun {d'} hd' => ?_, hfresh⟩
    exact ⟨(Function.update_of_ne (hne hd hd') _ _).trans (h.none hd').1, (h.none hd').2⟩
  | answer r hd hu =>
    refine ⟨h.lt, h.inj, fun {d'} hd' => ?_, hfresh⟩
    exact ⟨(Function.update_of_ne (hne hd hd') _ _).trans (h.none hd').1,
      (Function.update_of_ne (hne hd hd') _ _).trans (h.none hd').2⟩
  | flush hd =>
    refine ⟨h.lt, h.inj, fun {d'} hd' => ?_, hfresh⟩
    exact ⟨(h.none hd').1, (Function.update_of_ne (hne hd hd') _ _).trans (h.none hd').2⟩
  | deliver hb ho => exact ⟨h.lt, h.inj, h.none, hfresh⟩

/-- No connection is open yet, and no response is owed. -/
structure New (s : Deferral δ ι φ ρ) : Prop where
  conn : ∀ d, s.conn d = none
  unhandled : ∀ d, s.unhandled d = []
  batch : ∀ d, s.batch d = []
  owed : ∀ i, s.owed i = 0

theorem Run.tidy (hr : Run Step s₀ es s) (h : New s₀) : Tidy es s := by
  refine hr.invariant (I := Tidy) ⟨?_, ?_, fun _ => ⟨h.unhandled _, h.batch _⟩,
    fun _ => ⟨rfl, rfl, rfl⟩⟩ fun _ ih hst => hst.tidy ih
  · intro d id hd
    rw [h.conn] at hd
    cases hd
  · intro d d' id hd
    rw [h.conn] at hd
    cases hd

/-! ## Requests -/

/-- The requests of a connection are answered in turn. -/
def Handled (es : List (Event δ ι φ ρ)) (s : Deferral δ ι φ ρ) (d : δ) (id : ℕ) : Prop :=
  (answers id es).map Prod.fst ++ s.unhandled d = received id es

omit [DecidableEq δ] [DecidableEq ι] in
theorem Handled.frame {d : δ} {id : ℕ} (h : Handled es s d id) (he : e.Aside id)
    (hu : s'.unhandled d = s.unhandled d) : Handled (es ++ [e]) s' d id := by
  rw [Handled, hu, answers_snoc, received_snoc, he.answer, he.received, List.append_nil,
    List.append_nil]
  exact h

theorem Step.handled (ht : Tidy es s) (h : ∀ d id, s.conn d = some id → Handled es s d id)
    (hst : Step s e s') : ∀ d id, s'.conn d = some id → Handled (es ++ [e]) s' d id := by
  intro d' id' hd'
  have hne : ∀ {d id}, s.conn d = some id → s.conn d' = some id' → d' ≠ d → id ≠ id' :=
    fun hd hd' hne hid => hne (ht.inj hd' (hid ▸ hd))
  cases hst with
  | @«open» d hd =>
    by_cases heq : d' = d
    · subst heq
      obtain rfl : s.opened = id' := by simpa using hd'
      obtain ⟨hr, ha, -⟩ := ht.fresh_snoc (.open hd) (Nat.le_refl _)
      rw [Handled, ha, hr]
      exact (ht.none hd).1
    · have hd' : s.conn d' = some id' := by simpa [heq] using hd'
      exact (h d' id' hd').frame ⟨rfl, rfl, rfl⟩ rfl
  | @close d hu hb =>
    have heq : d' ≠ d := fun heq => by simp [heq] at hd'
    have hd' : s.conn d' = some id' := by simpa [heq] using hd'
    exact (h d' id' hd').frame ⟨rfl, rfl, rfl⟩ rfl
  | @receive d id fs hd hu =>
    by_cases heq : d' = d
    · subst heq
      cases hd.symm.trans hd'
      have hold := h d' _ hd
      rw [Handled, hu, List.append_nil] at hold
      simp [Handled, Event.answer?, Event.received?, hold]
    · exact (h d' id' hd').frame ⟨if_neg (hne hd hd' heq), rfl, rfl⟩
        (Function.update_of_ne heq _ _)
  | @answer d id f fs r hd hu | @defer d id f fs i r hd hu =>
    by_cases heq : d' = d
    · -- The request goes from those not handled yet to those that are.
      subst heq
      cases hd.symm.trans hd'
      have hold := h d' _ hd
      rw [Handled, hu] at hold
      simp [Handled, Event.answer?, Event.received?, hold]
    · exact (h d' id' hd').frame ⟨rfl, if_neg (hne hd hd' heq), rfl⟩
        (Function.update_of_ne heq _ _)
  | flush hd | deliver hb ho =>
    simpa [Handled, Event.answer?, Event.received?] using h d' id' hd'

theorem Run.handled (hr : Run Step s₀ es s) (h : New s₀) :
    ∀ d id, s.conn d = some id → Handled es s d id := by
  refine hr.invariant (I := fun es s => ∀ d id, s.conn d = some id → Handled es s d id) ?_
    fun hr ih hst => hst.handled (Run.tidy hr h) ih
  intro d id hd
  rw [h.conn] at hd
  cases hd

/-- What holds of the connections that are open holds of all that there have been, if it does
    not depend on more than what has happened on them. -/
theorem Run.connections {P : List (Event δ ι φ ρ) → Prop} {Step' : Deferral δ ι φ ρ →
      Event δ ι φ ρ → Deferral δ ι φ ρ → Prop} (hr : Run Step' s₀ es s)
    (hsub : ∀ {s e s'}, Step' s e s' → Step s e s') (id : ℕ) (hnil : P [])
    (hframe : ∀ {es e}, e.Aside id → P es → P (es ++ [e]))
    (hopen : ∀ {es s d}, Run Step' s₀ es s → s.conn d = some id → P es) : P es := by
  refine hr.invariant (I := fun es _ => P es) hnil ?_
  intro es s e s' hr ih hst
  by_cases hid : ∃ d, s'.conn d = some id
  · obtain ⟨d, hd⟩ := hid
    exact hopen (hr.snoc hst) hd
  · exact hframe ((hsub hst).aside fun d _ hd => hid ⟨d, hd⟩) ih

/-- The requests of a connection are answered in the order in which they are received. -/
theorem Run.answers_isPrefix (hr : Run Step s₀ es s) (h : New s₀) (id : ℕ) :
    (answers id es).map Prod.fst <+: received id es := by
  refine Run.connections hr (P := fun es => (answers id es).map Prod.fst <+: received id es)
    (fun hst => hst) id List.prefix_rfl (fun he ih => ?_)
    fun hr hd => ⟨_, Run.handled hr h _ id hd⟩
  simpa [he.answer, he.received] using ih

/-! ## To whom -/

/-- What a part owes to a descriptor. -/
def owedTo (s : Deferral δ ι φ ρ) (d : δ) (i : ι) : Multiset ρ :=
  ((s.owed i).filter (·.1 = d)).map Prod.snd

/-- Nothing is owed to the descriptor. -/
def Quiet (s : Deferral δ ι φ ρ) (d : δ) : Prop := ∀ i, s.owedTo d i = 0

omit [DecidableEq ι] in
theorem mem_owedTo {d : δ} {i : ι} {r : ρ} : r ∈ s.owedTo d i ↔ (d, r) ∈ s.owed i := by
  simp [owedTo]

/-- A descriptor is given out when nothing is owed to it. -/
def Undisturbed (s : Deferral δ ι φ ρ) : Event δ ι φ ρ → Prop
  | .opened d _ => s.Quiet d
  | _ => True

/-- The response of a part was deferred for a request of the connection. -/
def DeferredFor (es : List (Event δ ι φ ρ)) (id : ℕ) (i : ι) (r : ρ) : Prop :=
  ∃ d f, Event.deferred d id f i r ∈ es

omit [DecidableEq δ] [DecidableEq ι] in
theorem DeferredFor.snoc {id : ℕ} {i : ι} {r : ρ} (h : DeferredFor es id i r) :
    DeferredFor (es ++ [e]) id i r := by
  obtain ⟨d, f, hmem⟩ := h
  exact ⟨d, f, List.mem_append_left _ hmem⟩

/-- What is owed to an open connection was deferred for it. -/
def OwedRightly (es : List (Event δ ι φ ρ)) (s : Deferral δ ι φ ρ) : Prop :=
  ∀ d id, s.conn d = some id → ∀ i r, (d, r) ∈ s.owed i → DeferredFor es id i r

theorem Step.owedRightly (h : OwedRightly es s) (hst : Step s e s') (hg : Undisturbed s e) :
    OwedRightly (es ++ [e]) s' := by
  intro d' id' hd' j r' hmem
  cases hst with
  | @«open» d hd =>
    simp only [Function.update_apply] at hd'
    split_ifs at hd' with heq
    · -- The guard: nothing is owed to a descriptor that is given out.
      have hr : r' ∈ s.owedTo d j := mem_owedTo.2 (heq ▸ hmem)
      rw [hg j] at hr
      exact absurd hr (Multiset.notMem_zero _)
    · exact (h _ _ hd' _ _ hmem).snoc
  | @close d hu hb =>
    simp only [Function.update_apply] at hd'
    split_ifs at hd'
    exact (h _ _ hd' _ _ hmem).snoc
  | @defer d id f fs i r hd hu =>
    simp only [Function.update_apply] at hmem
    split_ifs at hmem with heq
    · rcases Multiset.mem_cons.1 hmem with hnew | hmem
      · obtain ⟨rfl, rfl⟩ := Prod.mk.inj hnew
        rw [hd] at hd'
        cases hd'
        exact ⟨d', f, by simp [heq]⟩
      · exact (h _ _ hd' _ _ (heq ▸ hmem)).snoc
    · exact (h _ _ hd' _ _ hmem).snoc
  | @deliver d i r rest hb ho =>
    simp only [Function.update_apply] at hmem
    split_ifs at hmem with heq
    · refine (h _ _ hd' _ _ (heq ▸ ?_)).snoc
      rw [ho]
      exact Multiset.mem_cons_of_mem hmem
    · exact (h _ _ hd' _ _ hmem).snoc
  | receive | answer | flush => exact (h _ _ hd' _ _ hmem).snoc

theorem Run.owedRightly (hr : Run (Guarded Step Undisturbed) s₀ es s) (h : New s₀) :
    OwedRightly es s := by
  refine hr.invariant (I := OwedRightly) ?_ fun _ ih hst => hst.1.owedRightly ih hst.2
  intro d id hd
  rw [h.conn] at hd
  cases hd

/-- In every run in which a descriptor is given out only when nothing is owed to it: a
    response that is delivered to a connection was deferred for it. -/
theorem attributed (h : New s₀) (hr : Run (Guarded Step Undisturbed) s₀ es s) {id : ℕ} {i : ι}
    {r : ρ} (he : Event.delivered (some id) i r ∈ es) : DeferredFor es id i r := by
  refine hr.invariant (I := fun es _ => Event.delivered (some id) i r ∈ es →
    DeferredFor es id i r) (fun he => absurd he List.not_mem_nil) ?_ he
  intro es s e s' hr ih hst he
  rcases List.mem_append.1 he with he | he
  · exact (ih he).snoc
  · obtain ⟨hst, -⟩ := hst
    rw [List.mem_singleton] at he
    cases hst with
    | deliver hb ho =>
      obtain ⟨hd, rfl, rfl⟩ : some id = s.conn _ ∧ _ ∧ _ := by simpa using he
      refine (Run.owedRightly hr h _ id hd.symm i r ?_).snoc
      rw [ho]
      exact Multiset.mem_cons_self _ _
    | _ => cases he

/-! ## In which order -/

/-- A descriptor is given out, and a request of it answered, when nothing is owed to it. -/
def Unhurried (s : Deferral δ ι φ ρ) : Event δ ι φ ρ → Prop
  | .opened d _ | .answered d _ _ _ | .deferred d _ _ _ _ => s.Quiet d
  | _ => True

omit [DecidableEq ι] in
theorem Unhurried.undisturbed (h : Unhurried s e) : Undisturbed s e := by
  cases e with
  | opened => exact h
  | _ => trivial

/-- One response is owed to the descriptor. -/
def Owes (s : Deferral δ ι φ ρ) (d : δ) (r : ρ) : Prop :=
  ∃ i, s.owedTo d i = {r} ∧ ∀ j ≠ i, s.owedTo d j = 0

/-- The responses of a connection have been written, but for those in the batch, and one that
    is owed. -/
def Accounted (es : List (Event δ ι φ ρ)) (s : Deferral δ ι φ ρ) (d : δ) (id : ℕ) : Prop :=
  s.Quiet d ∧ written id es ++ s.batch d = (answers id es).map Prod.snd ∨
    ∃ r, s.Owes d r ∧ written id es ++ s.batch d ++ [r] = (answers id es).map Prod.snd

omit [DecidableEq ι] in
theorem Quiet.congr {d : δ} (h : s.Quiet d) (ho : ∀ i, s'.owedTo d i = s.owedTo d i) :
    s'.Quiet d := fun i => (ho i).trans (h i)

omit [DecidableEq ι] in
theorem Owes.congr {d : δ} {r : ρ} (h : s.Owes d r) (ho : ∀ i, s'.owedTo d i = s.owedTo d i) :
    s'.Owes d r := by
  obtain ⟨i, hi, hj⟩ := h
  exact ⟨i, (ho i).trans hi, fun j hne => (ho j).trans (hj j hne)⟩

omit [DecidableEq ι] in
theorem Owes.not_quiet {d : δ} {r : ρ} (h : s.Owes d r) : ¬s.Quiet d := by
  obtain ⟨i, hi, -⟩ := h
  intro hq
  rw [hq i] at hi
  exact absurd hi.symm (Multiset.singleton_ne_zero r)

omit [DecidableEq ι] in
/-- Other connections are not affected. -/
theorem Accounted.frame {d : δ} {id : ℕ} (h : Accounted es s d id) (he : e.answer? id = [])
    (he' : e.written? id = []) (hb : s'.batch d = s.batch d)
    (ho : ∀ i, s'.owedTo d i = s.owedTo d i) : Accounted (es ++ [e]) s' d id := by
  rw [Accounted, answers_snoc, written_snoc, he, he', hb, List.append_nil, List.append_nil]
  exact h.imp (fun h => ⟨h.1.congr ho, h.2⟩) fun ⟨r, hr, heq⟩ => ⟨r, hr.congr ho, heq⟩

theorem owedTo_update {d : δ} {i j : ι} {m : Multiset (δ × ρ)} :
    owedTo { s with owed := Function.update s.owed i m } d j =
      if j = i then (m.filter (·.1 = d)).map Prod.snd else s.owedTo d j := by
  simp only [owedTo, Function.update_apply]
  split <;> rfl

section

variable {d : δ} {id : ℕ} {f : φ} {fs : List φ} {i : ι} {r : ρ}

omit [DecidableEq ι] in
theorem Accounted.written_of_quiet (h : Accounted es s d id) (hq : s.Quiet d) :
    written id es ++ s.batch d = (answers id es).map Prod.snd := by
  rcases h with ⟨-, heq⟩ | ⟨r, hr, -⟩
  · exact heq
  · exact absurd hq hr.not_quiet

omit [DecidableEq ι] in
theorem Accounted.answer (h : Accounted es s d id) (hq : s.Quiet d) :
    Accounted (es ++ [.answered d id f r])
      { s with
        unhandled := Function.update s.unhandled d fs
        batch := Function.update s.batch d (s.batch d ++ [r]) } d id := by
  refine .inl ⟨hq, ?_⟩
  simp [Event.answer?, Event.written?, ← h.written_of_quiet hq]

theorem Accounted.defer (h : Accounted es s d id) (hq : s.Quiet d) :
    Accounted (es ++ [.deferred d id f i r])
      { s with
        unhandled := Function.update s.unhandled d fs
        owed := Function.update s.owed i ((d, r) ::ₘ s.owed i) } d id := by
  refine .inr ⟨r, ⟨i, ?_, fun j hj => ?_⟩, ?_⟩
  · have hi := hq i
    rw [owedTo] at hi
    simp [owedTo, hi]
  · have hj' := hq j
    rw [owedTo] at hj'
    simp [owedTo, hj, hj']
  · simp [Event.answer?, Event.written?, ← h.written_of_quiet hq]

omit [DecidableEq ι] in
theorem Accounted.flush (h : Accounted es s d id) :
    Accounted (es ++ [.flushed id (s.batch d)])
      { s with batch := Function.update s.batch d [] } d id :=
  h.imp (fun hw => ⟨hw.1, by simpa [Event.answer?, Event.written?] using hw.2⟩)
    fun ⟨r, hr, heq⟩ => ⟨r, hr, by simpa [Event.answer?, Event.written?] using heq⟩

theorem Accounted.deliver (h : Accounted es s d id) (hd : s.conn d = some id)
    {rest : Multiset (δ × ρ)} (hb : s.batch d = []) (ho : s.owed i = (d, r) ::ₘ rest) :
    Accounted (es ++ [.delivered (s.conn d) i r])
      { s with owed := Function.update s.owed i rest } d id := by
  have hi : s.owedTo d i = r ::ₘ (rest.filter (·.1 = d)).map Prod.snd := by simp [owedTo, ho]
  rcases h with ⟨hq, -⟩ | ⟨r', ⟨i', hr', hother⟩, heq⟩
  · rw [hq i] at hi
    exact absurd hi.symm Multiset.cons_ne_zero
  · -- What is delivered is the response that is owed, and nothing else is.
    obtain rfl : i = i' := by
      by_contra hne
      rw [hother i hne] at hi
      exact absurd hi.symm Multiset.cons_ne_zero
    obtain ⟨rfl, hrest⟩ : r' = r ∧ (rest.filter (·.1 = d)).map Prod.snd = 0 := by
      rw [hr', ← Multiset.cons_zero] at hi
      simpa [eq_comm] using hi
    refine .inl ⟨fun j => ?_, ?_⟩
    · rw [owedTo_update]
      split_ifs with hj
      · exact hrest
      · exact hother j hj
    · rw [hb, List.append_nil] at heq
      simpa [Event.answer?, Event.written?, hd, hb] using heq

end

theorem Step.accounted (ht : Tidy es s)
    (h : ∀ d id, s.conn d = some id → Accounted es s d id) (hst : Step s e s')
    (hg : Unhurried s e) : ∀ d id, s'.conn d = some id → Accounted (es ++ [e]) s' d id := by
  intro d' id' hd'
  have hne : ∀ {d id}, s.conn d = some id → s.conn d' = some id' → d' ≠ d → id ≠ id' :=
    fun hd hd' hne hid => hne (ht.inj hd' (hid ▸ hd))
  cases hst with
  | @«open» d hd =>
    by_cases heq : d' = d
    · -- A new connection has no history, and by the guard none of its descriptor's.
      subst heq
      obtain rfl : s.opened = id' := by simpa using hd'
      obtain ⟨-, ha, hw⟩ := ht.fresh_snoc (.open hd) (Nat.le_refl _)
      exact .inl ⟨hg, by rw [ha, hw]; exact (ht.none hd).2⟩
    · have hd' : s.conn d' = some id' := by simpa [heq] using hd'
      exact (h d' id' hd').frame rfl rfl rfl fun _ => rfl
  | @close d hu hb =>
    have heq : d' ≠ d := fun heq => by simp [heq] at hd'
    have hd' : s.conn d' = some id' := by simpa [heq] using hd'
    exact (h d' id' hd').frame rfl rfl rfl fun _ => rfl
  | receive fs hd hu => exact (h d' id' hd').frame rfl rfl rfl fun _ => rfl
  | @answer d id f fs r hd hu =>
    by_cases heq : d' = d
    · subst heq
      cases hd.symm.trans hd'
      exact (h d' _ hd).answer hg
    · exact (h d' id' hd').frame (if_neg (hne hd hd' heq)) rfl (Function.update_of_ne heq _ _)
        fun _ => rfl
  | @defer d id f fs i r hd hu =>
    by_cases heq : d' = d
    · subst heq
      cases hd.symm.trans hd'
      exact (h d' _ hd).defer hg
    · refine (h d' id' hd').frame (if_neg (hne hd hd' heq)) rfl rfl fun j => ?_
      simp only [owedTo, Function.update_apply]
      split_ifs with hj
      · simp [hj, Ne.symm heq]
      · rfl
  | @flush d id hd =>
    by_cases heq : d' = d
    · subst heq
      cases hd.symm.trans hd'
      exact (h d' _ hd).flush
    · exact (h d' id' hd').frame rfl (if_neg (hne hd hd' heq)) (Function.update_of_ne heq _ _)
        fun _ => rfl
  | @deliver d i r rest hb ho =>
    by_cases heq : d' = d
    · subst heq
      exact (h d' id' hd').deliver hd' hb ho
    · refine (h d' id' hd').frame rfl (if_neg fun hd => heq (ht.inj hd' hd)) rfl fun j => ?_
      rw [owedTo_update]
      split_ifs with hj
      · simp [hj, owedTo, ho, Ne.symm heq]
      · rfl

theorem Run.accounted (hr : Run (Guarded Step Unhurried) s₀ es s) (h : New s₀) :
    ∀ d id, s.conn d = some id → Accounted es s d id := by
  refine hr.invariant (I := fun es s => ∀ d id, s.conn d = some id → Accounted es s d id) ?_
    fun hr ih hst => hst.1.accounted (Run.tidy hr.of_guarded h) ih hst.2
  intro d id hd
  rw [h.conn] at hd
  cases hd

/-- In every run in which a descriptor is given out, and a request of it answered, only when
    nothing is owed to it: the responses are written in the order of the requests. -/
theorem inOrder (h : New s₀) (hr : Run (Guarded Step Unhurried) s₀ es s) (id : ℕ) :
    written id es <+: (answers id es).map Prod.snd := by
  refine Run.connections hr (P := fun es => written id es <+: (answers id es).map Prod.snd)
    (fun hst => hst.1) id List.prefix_rfl (fun he ih => ?_) fun hr hd => ?_
  · simpa [he.answer, he.written] using ih
  · rcases Run.accounted hr h _ id hd with ⟨-, heq⟩ | ⟨r, -, heq⟩
    · exact ⟨_, heq⟩
    · exact ⟨_, (List.append_assoc _ _ _).symm.trans heq⟩

/-- If no response is deferred, none is owed. -/
theorem Run.owed_eq_zero (hr : Run Step s₀ es s) (h : New s₀)
    (hno : ∀ d id f i r, Event.deferred d id f i r ∉ es) (i : ι) : s.owed i = 0 := by
  refine hr.invariant (I := fun es s => (∀ d id f i r, Event.deferred d id f i r ∉ es) →
    ∀ i, s.owed i = 0) (fun _ => h.owed) ?_ hno i
  intro es s e s' hr ih hst hno i
  have hold := ih fun d id f i r hmem => hno d id f i r (List.mem_append_left _ hmem)
  cases hst with
  | defer i r hd hu =>
    exact absurd (List.mem_append_right _ (List.mem_singleton_self _)) (hno _ _ _ _ _)
  | deliver hb ho =>
    rw [hold] at ho
    exact absurd ho.symm Multiset.cons_ne_zero
  | _ => exact hold i

/-- The responses in a list that are owed are delivered in turn. -/
theorem run_deliver {xs : List (ι × δ × ρ)} {rest : ι → Multiset (δ × ρ)}
    (hb : ∀ d, s.batch d = [])
    (ho : ∀ i, s.owed i = ↑((xs.filter (·.1 = i)).map Prod.snd) + rest i) :
    Run Step s (xs.map fun x => .delivered (s.conn x.2.1) x.1 x.2.2) { s with owed := rest } := by
  induction xs generalizing s with
  | nil =>
    have howed : s.owed = rest := funext fun i => by simpa using ho i
    rw [← howed]
    exact .nil
  | cons x xs ih =>
    obtain ⟨i, d, r⟩ := x
    have hi : s.owed i = (d, r) ::ₘ (↑((xs.filter (·.1 = i)).map Prod.snd) + rest i) := by
      simpa [← Multiset.cons_coe] using ho i
    refine .cons (.deliver (hb d) hi) (ih hb fun j => ?_)
    simp only [Function.update_apply]
    split_ifs with hj
    · rw [hj]
    · simpa [Ne.symm hj] using ho j

end Deferral

end Fell
