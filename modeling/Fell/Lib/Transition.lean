import Mathlib.Data.List.Basic

/-!
# Runs of labelled transition systems

A system is a step relation `Step s e s'`: from the state `s`, the system may
move to `s'`, the event `e` telling what happened (which thread moved, what was
passed and what was answered). A run from `s₀` is a chain of steps, with the
list of its events, the oldest first.

* `Run.invariant`: what holds initially and is kept by every step holds in
  every state reached. The invariant may speak of the events so far, and its
  step may assume the run that leads to the state.
* `Run.simulate`, `Run.project`: if each step is matched by a run of another
  system, a run is matched by a run of that system. So a part of a system is run
  by what the system does to it.
* `Guarded Step G`: the system restricted to the steps that meet a condition
  `G` on the state before the step and the event. A run of it is a run whose
  steps all meet the condition (`Run.of_guarded`).
* `Recorded Step upd`: the system with a history, which no step reads.
-/

namespace Fell

variable {σ ε : Type*}

/-- The runs from `s₀`: their events, the oldest first, and the state reached. -/
inductive Run (Step : σ → ε → σ → Prop) (s₀ : σ) : List ε → σ → Prop
  | nil : Run Step s₀ [] s₀
  | snoc {es : List ε} {s s' : σ} {e : ε} :
      Run Step s₀ es s → Step s e s' → Run Step s₀ (es ++ [e]) s'

/-- The steps that meet the condition `G`, on the state before and the event. -/
def Guarded (Step : σ → ε → σ → Prop) (G : σ → ε → Prop) (s : σ) (e : ε) (s' : σ) : Prop :=
  Step s e s' ∧ G s e

/-- The system with a history that is updated in every step, from the state before it and
    the event. -/
def Recorded {η : Type*} (Step : σ → ε → σ → Prop) (update : σ → ε → η → η) (s : σ × η) (e : ε)
    (s' : σ × η) : Prop :=
  Step s.1 e s'.1 ∧ s'.2 = update s.1 e s.2

theorem Recorded.of_step {η : Type*} {Step : σ → ε → σ → Prop} {update : σ → ε → η → η} {s s' : σ}
    {e : ε} {h : η} (hst : Step s e s') :
    Recorded Step update (s, h) e (s', update s e h) :=
  ⟨hst, rfl⟩

namespace Run

variable {Step Step' : σ → ε → σ → Prop} {s₀ s s' : σ} {es es' : List ε} {e : ε}

theorem invariant {I : List ε → σ → Prop} (hr : Run Step s₀ es s) (init : I [] s₀)
    (step : ∀ {es s e s'}, Run Step s₀ es s → I es s → Step s e s' → I (es ++ [e]) s') :
    I es s := by
  induction hr with
  | nil => exact init
  | snoc hr hst ih => exact step hr ih hst

theorem mono (h : ∀ {s e s'}, Step s e s' → Step' s e s') (hr : Run Step s₀ es s) :
    Run Step' s₀ es s := by
  induction hr with
  | nil => exact .nil
  | snoc _ hst ih => exact ih.snoc (h hst)

/-- A run whose steps all meet a condition is a run. -/
theorem of_guarded {G : σ → ε → Prop} (hr : Run (Guarded Step G) s₀ es s) : Run Step s₀ es s :=
  hr.mono fun h => h.1

theorem append (h₁ : Run Step s₀ es s) (h₂ : Run Step s es' s') : Run Step s₀ (es ++ es') s' := by
  induction h₂ with
  | nil => rwa [List.append_nil]
  | snoc _ hst ih =>
    rw [← List.append_assoc]
    exact ih.snoc hst

theorem single (h : Step s₀ e s) : Run Step s₀ [e] s := by
  rw [← List.nil_append [e]]
  exact .snoc .nil h

theorem cons (h : Step s₀ e s) (hr : Run Step s es s') : Run Step s₀ (e :: es) s' :=
  (single h).append hr

/-- A system each of whose steps is matched by a run of another, under a map of the
    states, with the events the map of the events tells. The step may assume the run that
    leads to it. -/
theorem simulate {τ δ : Type*} {Part : τ → δ → τ → Prop} (f : σ → τ) (g : ε → List δ)
    (h : ∀ {es s e s'}, Run Step s₀ es s → Step s e s' → Run Part (f s) (g e) (f s'))
    (hr : Run Step s₀ es s) : Run Part (f s₀) (es.flatMap g) (f s) := by
  induction hr with
  | nil => exact .nil
  | snoc hr hst ih =>
    rw [List.flatMap_append, List.flatMap_singleton]
    exact ih.append (h hr hst)

theorem project {τ δ : Type*} {Part : τ → δ → τ → Prop} (f : σ → τ) (g : ε → List δ)
    (h : ∀ {s e s'}, Step s e s' → Run Part (f s) (g e) (f s')) (hr : Run Step s₀ es s) :
    Run Part (f s₀) (es.flatMap g) (f s) :=
  hr.simulate f g fun _ => h

theorem eq_of_nil (hr : Run Step s₀ [] s) : s = s₀ := by
  generalize hes : [] = es at hr
  cases hr with
  | nil => rfl
  | snoc => simp at hes

theorem step_of_single (hr : Run Step s₀ [e] s) : Step s₀ e s := by
  generalize hes : [e] = es at hr
  cases hr with
  | nil => cases hes
  | @snoc es s _ _ hr hst =>
    obtain ⟨rfl, rfl⟩ : es = [] ∧ _ := by simpa [List.singleton_eq_append_iff] using hes
    exact eq_of_nil hr ▸ hst

/-- Every event of a run is that of a step, between what comes before and what comes after. -/
theorem exists_step (hr : Run Step s₀ es s) (he : e ∈ es) :
    ∃ es₁ t t' es₂, es = es₁ ++ e :: es₂ ∧ Run Step s₀ es₁ t ∧ Step t e t' ∧
      Run Step t' es₂ s := by
  induction hr with
  | nil => exact absurd he List.not_mem_nil
  | @snoc es s s' e' hr hst ih =>
    rcases List.mem_append.1 he with hmem | hlast
    · obtain ⟨es₁, t, t', es₂, rfl, hr₁, ht, hr₂⟩ := ih hmem
      exact ⟨es₁, t, t', es₂ ++ [e'], by simp, hr₁, ht, hr₂.snoc hst⟩
    · obtain rfl := List.mem_singleton.1 hlast
      exact ⟨es, s, s', [], rfl, hr, hst, .nil⟩

/-- Between what comes before an event and what comes after it, there is its step. -/
theorem exists_step_of_append {es₁ es₂ : List ε} (hr : Run Step s₀ (es₁ ++ e :: es₂) s) :
    ∃ t t', Run Step s₀ es₁ t ∧ Step t e t' ∧ Run Step t' es₂ s := by
  generalize hes : es₁ ++ e :: es₂ = es at hr
  induction hr generalizing es₂ with
  | nil => simp at hes
  | @snoc es s s' e' hr hst ih =>
    rcases List.eq_nil_or_concat es₂ with rfl | ⟨es₃, last, rfl⟩
    · obtain ⟨rfl, he⟩ := List.append_inj' hes rfl
      cases he
      exact ⟨s, s', hr, hst, .nil⟩
    · rw [List.concat_eq_append, ← List.cons_append, ← List.append_assoc] at hes
      obtain ⟨hfront, hlast⟩ := List.append_inj' hes rfl
      cases hlast
      obtain ⟨t, t', hr₁, ht, hr₂⟩ := ih hfront
      exact ⟨t, t', hr₁, ht, List.concat_eq_append ▸ hr₂.snoc hst⟩

/-- A run whose events meet a condition, whatever the state, is a guarded run. -/
theorem guarded {G : σ → ε → Prop} (hr : Run Step s₀ es s) (h : ∀ e ∈ es, ∀ s, G s e) :
    Run (Guarded Step G) s₀ es s := by
  induction hr with
  | nil => exact .nil
  | snoc _ hst ih =>
    refine (ih fun e he => h e (List.mem_append_left _ he)).snoc ⟨hst, h _ ?_ _⟩
    exact List.mem_append_right _ (List.mem_singleton_self _)

end Run

end Fell
