import Mathlib.Data.List.Basic

/-!
# Runs of a system driven by events

A system is given by a partial step function: in a state, an event either cannot
happen (`none`) or leads to one next state.  Everything the environment may
choose (who runs next, which copy faults, what another process wrote) is part of
the event, so that quantifying over lists of events quantifies over all
interleavings and all choices.

* `exec` performs a list of events; `exec_append` cuts a run in two.
* `StepsMeet` says that every step of a run meets a condition on the state before
  the step and the event; `allSteps` tests it along a run.
* `exec_invariant` is the induction every safety statement of the development
  rests on: what one step preserves, a whole run preserves.  `exec_last` adds what holds after
  the last step.  `exec_simulation` is the same for a relation to an abstract system, and
  `exec_simulation_total` says also that the system does not fail.
-/

namespace Lib

variable {σ ε : Type*}

/-- Perform the events in order; `none` as soon as one of them cannot happen. -/
def exec (step : σ → ε → Option σ) : σ → List ε → Option σ
  | s, [] => some s
  | s, e :: es => (step s e).bind fun t => exec step t es

/-- Every step of the run meets the condition `C` in the state it starts from. -/
def StepsMeet (C : σ → ε → Prop) (step : σ → ε → Option σ) : σ → List ε → Prop
  | _, [] => True
  | s, e :: es => C s e ∧ ∀ t, step s e = some t → StepsMeet C step t es

variable {step : σ → ε → Option σ} {s t : σ}

/-- A condition that each of the events meets in every state. -/
theorem stepsMeet_of_forall {C : σ → ε → Prop} {es : List ε} (h : ∀ e ∈ es, ∀ s, C s e) :
    StepsMeet C step s es := by
  induction es generalizing s with
  | nil => trivial
  | cons e es ih =>
    exact ⟨h e List.mem_cons_self s, fun t _ => ih fun f hf => h f (List.mem_cons_of_mem _ hf)⟩

/-- The condition of a run whose first step is known. -/
theorem StepsMeet.cons {C : σ → ε → Prop} {e : ε} {es : List ε} (he : step s e = some t)
    (hC : C s e) (h : StepsMeet C step t es) : StepsMeet C step s (e :: es) := by
  refine ⟨hC, fun u hu => ?_⟩
  rw [he] at hu
  cases hu
  exact h

/-- Every step of the run passes the test `c`. -/
def allSteps (c : σ → ε → Bool) (step : σ → ε → Option σ) : σ → List ε → Bool
  | _, [] => true
  | s, e :: es => c s e && (step s e).all fun t => allSteps c step t es

/-- A condition that a test implies can be checked by running. -/
theorem stepsMeet_of_allSteps {C : σ → ε → Prop} {c : σ → ε → Bool}
    (hc : ∀ s e, c s e = true → C s e) {es : List ε} (h : allSteps c step s es = true) :
    StepsMeet C step s es := by
  induction es generalizing s with
  | nil => trivial
  | cons e es ih =>
    rw [allSteps, Bool.and_eq_true] at h
    refine ⟨hc s e h.1, fun t ht => ih ?_⟩
    have h2 := h.2
    rwa [ht] at h2

@[simp] theorem exec_nil : exec step s [] = some s := rfl

theorem exec_cons {e : ε} {es : List ε} :
    exec step s (e :: es) = some t ↔ ∃ u, step s e = some u ∧ exec step u es = some t := by
  rw [exec, Option.bind_eq_some_iff]

theorem exec_append {es fs : List ε} :
    exec step s (es ++ fs) = some t ↔ ∃ u, exec step s es = some u ∧ exec step u fs = some t := by
  induction es generalizing s with
  | nil => simp
  | cons e es ih =>
    rw [List.cons_append, exec_cons]
    constructor
    · rintro ⟨u, hu, h⟩
      obtain ⟨v, hv, h⟩ := ih.mp h
      exact ⟨v, exec_cons.mpr ⟨u, hu, hv⟩, h⟩
    · rintro ⟨v, hv, h⟩
      obtain ⟨u, hu, hv⟩ := exec_cons.mp hv
      exact ⟨u, hu, ih.mpr ⟨v, hv, h⟩⟩

/-- **The invariant rule.**  A property of the starting state that every step
meeting `C` preserves holds in the last state of every run whose steps all meet
`C`. -/
theorem exec_invariant {P : σ → Prop} {C : σ → ε → Prop}
    (hstep : ∀ s e t, P s → C s e → step s e = some t → P t) {es : List ε}
    (hs : P s) (hC : StepsMeet C step s es) (h : exec step s es = some t) : P t := by
  induction es generalizing s with
  | nil => cases h; exact hs
  | cons e es ih =>
    obtain ⟨u, hu, h⟩ := exec_cons.mp h
    exact ih (hstep s e u hs hC.1 hu) (hC.2 u hu) h

/-- The invariant rule, and what holds after the last step. -/
theorem exec_last {P : σ → Prop} {Q : σ → ε → Prop} {C : σ → ε → Prop}
    (hstep : ∀ s e t, P s → C s e → step s e = some t → P t ∧ Q t e) {es : List ε}
    (hs : P s) (hC : StepsMeet C step s es) (h : exec step s es = some t) :
    P t ∧ ∀ e ∈ es.getLast?, Q t e := by
  induction es generalizing s with
  | nil => cases h; exact ⟨hs, fun _ h => nomatch h⟩
  | cons e es ih =>
    obtain ⟨u, hu, h⟩ := exec_cons.mp h
    obtain ⟨hP, hQ⟩ := hstep s e u hs hC.1 hu
    cases es with
    | nil =>
      cases h
      exact ⟨hP, fun f hf => by cases hf; exact hQ⟩
    | cons f es =>
      rw [List.getLast?_cons_cons]
      exact ih hP (hC.2 u hu) h

/-- The invariant rule with no condition on the steps. -/
theorem exec_invariant' {P : σ → Prop} (hstep : ∀ s e t, P s → step s e = some t → P t)
    {es : List ε} (hs : P s) (h : exec step s es = some t) : P t := by
  induction es generalizing s with
  | nil => cases h; exact hs
  | cons e es ih =>
    obtain ⟨u, hu, h⟩ := exec_cons.mp h
    exact ih (hstep s e u hs hu) h

/-- **The simulation rule.**  A relation to the states of an abstract system that every
step keeps, holds between the two ends of a run. -/
theorem exec_simulation {τ : Type*} {R : σ → τ → Prop} {astep : τ → ε → τ} {a : τ}
    (hstep : ∀ s a e t, R s a → step s e = some t → R t (astep a e)) {es : List ε}
    (hs : R s a) (h : exec step s es = some t) : R t (es.foldl astep a) := by
  induction es generalizing s a with
  | nil => cases h; exact hs
  | cons e es ih =>
    obtain ⟨u, hu, h⟩ := exec_cons.mp h
    exact ih (hstep s a e u hs hu) h

/-- The simulation rule for a system that does not fail: as long as the abstract system's steps meet
`C`, each step of it is one that the other system can do as well. -/
theorem exec_simulation_total {τ : Type*} {R : σ → τ → Prop} {astep : τ → ε → Option τ}
    {C : τ → ε → Prop} {a : τ}
    (hstep : ∀ s a e, R s a → C a e → ∃ t b, step s e = some t ∧ astep a e = some b ∧ R t b)
    {es : List ε} (hs : R s a) (hC : StepsMeet C astep a es) :
    ∃ t b, exec step s es = some t ∧ exec astep a es = some b ∧ R t b := by
  induction es generalizing s a with
  | nil => exact ⟨s, a, rfl, rfl, hs⟩
  | cons e es ih =>
    obtain ⟨t, b, ht, hb, hR⟩ := hstep s a e hs hC.1
    obtain ⟨u, c, hu, hc, hR'⟩ := ih hR (hC.2 b hb)
    exact ⟨u, c, exec_cons.mpr ⟨t, ht, hu⟩, exec_cons.mpr ⟨b, hb, hc⟩, hR'⟩

end Lib
