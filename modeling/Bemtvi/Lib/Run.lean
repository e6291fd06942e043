/-
Module: Bemtvi.Lib.Run
Purpose: Runs of a partial step function: a machine that takes one event after another, where a
  step may be disabled.  One induction each for what every run preserves, and for what a
  state says about the events that led to it.
Trusted boundary: none
Main exports: run, run_append, run_concat, run_invariant, run_history, Along, run_along,
  run_along_total, run_map_along, along_append, Lawful, lawful_append
-/
import Mathlib

namespace Bemtvi.Run

variable {σ ε : Type*}

/-- Take the events one after the other; `none` when one of them is not enabled. -/
def run (step : σ → ε → Option σ) : σ → List ε → Option σ
  | state, [] => some state
  | state, event :: events =>
      match step state event with
      | some next => run step next events
      | none => none

variable {step : σ → ε → Option σ}

@[simp] theorem run_nil (state : σ) : run step state [] = some state := rfl

variable {events : List ε} {final state : σ} {Meets : σ → ε → Prop}

theorem run_cons {event : ε} : run step state (event :: events) = some final ↔
      ∃ next, step state event = some next ∧ run step next events = some final := by
  rw [run]
  cases taken : step state event with
  | none =>
      constructor
      · intro same
        cases same
      · rintro ⟨next, same, -⟩
        cases same
  | some next =>
      constructor
      · intro rest
        exact ⟨next, rfl, rest⟩
      · rintro ⟨next', same, rest⟩
        cases same
        exact rest

theorem run_append {later : List ε} : run step state (events ++ later) = some final ↔
      ∃ middle, run step state events = some middle ∧ run step middle later = some final := by
  induction events generalizing state with
  | nil =>
      constructor
      · intro rest
        exact ⟨state, rfl, rest⟩
      · rintro ⟨middle, same, rest⟩
        cases same
        exact rest
  | cons event events ih =>
      rw [List.cons_append, run_cons]
      constructor
      · rintro ⟨next, taken, rest⟩
        rcases ih.1 rest with ⟨middle, front, back⟩
        exact ⟨middle, run_cons.2 ⟨next, taken, front⟩, back⟩
      · rintro ⟨middle, front, back⟩
        rcases run_cons.1 front with ⟨next, taken, rest⟩
        exact ⟨next, taken, ih.2 ⟨middle, rest, back⟩⟩

theorem run_concat {event : ε} : run step state (events ++ [event]) = some final ↔
      ∃ middle, run step state events = some middle ∧ step middle event = some final := by
  rw [run_append]
  constructor
  · rintro ⟨middle, front, back⟩
    rcases run_cons.1 back with ⟨next, taken, rest⟩
    cases rest
    exact ⟨middle, front, taken⟩
  · rintro ⟨middle, front, taken⟩
    exact ⟨middle, front, run_cons.2 ⟨final, taken, rfl⟩⟩

/-- **Invariants.**  What every step preserves, every run preserves. -/
theorem run_invariant (Inv : σ → Prop)
    (preserves : ∀ state event next, Inv state → step state event = some next → Inv next)
    (holds : Inv state) (reached : run step state events = some final) : Inv final := by
  induction events generalizing state with
  | nil =>
      cases reached
      exact holds
  | cons event events ih =>
      rcases run_cons.1 reached with ⟨next, taken, rest⟩
      exact ih (preserves state event next holds taken) rest

/-- **Histories.**  What relates a state to the events behind it, when each step keeps it. -/
theorem run_history (Hist : List ε → σ → Prop) {initial : σ} (start : Hist [] initial)
    (extends_by : ∀ events state event next, run step initial events = some state →
      Hist events state → step state event = some next → Hist (events ++ [event]) next)
    (reached : run step initial events = some final) : Hist events final := by
  induction events using List.reverseRecOn generalizing final with
  | nil =>
      cases reached
      exact start
  | append_singleton events event ih =>
      rcases run_concat.1 reached with ⟨middle, front, taken⟩
      exact extends_by events middle event final front (ih front) taken

/-- Every step of a run is taken under `Meets`. -/
def Along (Meets : σ → ε → Prop) (step : σ → ε → Option σ) : σ → List ε → Prop
  | _, [] => True
  | state, event :: events =>
      Meets state event ∧ ∀ next, step state event = some next → Along Meets step next events

/-- What every step taken under `Meets` preserves, every run under it preserves. -/
theorem run_along (Inv : σ → Prop)
    (preserves : ∀ state event next, Inv state → Meets state event →
      step state event = some next → Inv next) (holds : Inv state)
    (along : Along Meets step state events) (reached : run step state events = some final) :
    Inv final := by
  induction events generalizing state with
  | nil =>
      cases reached
      exact holds
  | cons event events ih =>
      rcases run_cons.1 reached with ⟨next, taken, rest⟩
      exact ih (preserves state event next holds along.1 taken) (along.2 next taken) rest

/-- A run whose steps are all taken under `Meets` gets to its end, when each such step is enabled and
preserves what enables the next. -/
theorem run_along_total (Inv : σ → Prop) (enabled : ∀ state event, Inv state → Meets state event →
      ∃ next, step state event = some next ∧ Inv next) (holds : Inv state)
    (along : Along Meets step state events) :
    ∃ final, run step state events = some final ∧ Inv final := by
  induction events generalizing state with
  | nil => exact ⟨state, rfl, holds⟩
  | cons event events ih =>
      obtain ⟨next, taken, holds⟩ := enabled state event holds along.1
      obtain ⟨final, reached, holds⟩ := ih holds (along.2 next taken)
      exact ⟨final, run_cons.2 ⟨next, taken, reached⟩, holds⟩

/-- A map of states that takes each step taken under `Meets`, from a state with `Inv`, to a step takes
the run to a run. -/
theorem run_map_along {τ : Type*} {step' : τ → ε → Option τ} (Inv : σ → Prop) (abs : σ → τ)
    (simulates : ∀ state event, Inv state → Meets state event →
      step' (abs state) event = (step state event).map abs)
    (preserves : ∀ state event next, Inv state → Meets state event →
      step state event = some next → Inv next) (holds : Inv state)
    (along : Along Meets step state events) :
    run step' (abs state) events = (run step state events).map abs := by
  induction events generalizing state with
  | nil => rfl
  | cons event events ih =>
      rw [run, run, simulates state event holds along.1]
      cases taken : step state event with
      | none => rfl
      | some next =>
          exact ih (preserves state event next holds along.1 taken) (along.2 next taken)

/-- What is left of a run taken under `Meets` is taken under it. -/
theorem along_append {middle : σ} {front back : List ε}
    (along : Along Meets step state (front ++ back)) (early : run step state front = some middle) :
    Along Meets step middle back := by
  induction front generalizing state with
  | nil =>
      cases early
      exact along
  | cons event front ih =>
      obtain ⟨next, taken, later⟩ := run_cons.1 early
      exact ih (along.2 next taken) later

/-! ### Traces -/

variable {μ : Type*}

/-- Every mark of a trace was allowed by the marks before it. -/
def Lawful (Ok : List μ → μ → Prop) (trace : List μ) : Prop :=
  ∀ before mark after, trace = before ++ mark :: after → Ok before mark

variable {Ok : List μ → μ → Prop}

theorem lawful_nil : Lawful Ok [] := by
  intro before mark after whole
  cases before <;> cases whole

theorem lawful_concat {trace : List μ} {mark : μ} :
    Lawful Ok (trace ++ [mark]) ↔ Lawful Ok trace ∧ Ok trace mark := by
  constructor
  · intro lawful
    constructor
    · intro before other after whole
      apply lawful before other (after ++ [mark])
      rw [whole, List.append_assoc, List.cons_append]
    · exact lawful trace mark [] rfl
  · rintro ⟨lawful, allowed⟩ before other after whole
    rcases List.eq_nil_or_concat after with rfl | ⟨front, last, rfl⟩
    · rcases List.append_inj' whole rfl with ⟨rfl, same⟩
      cases same
      exact allowed
    · rw [List.concat_eq_append, ← List.cons_append, ← List.append_assoc] at whole
      rcases List.append_inj' whole rfl with ⟨rfl, -⟩
      exact lawful before other front rfl

/-- Marks that are allowed behind a lawful trace, one after the other, keep it lawful. -/
theorem lawful_append {trace later : List μ} (lawful : Lawful Ok trace)
    (allowed : ∀ before mark after, later = before ++ mark :: after → Ok (trace ++ before) mark) :
    Lawful Ok (trace ++ later) := by
  induction later using List.reverseRecOn with
  | nil =>
      rw [List.append_nil]
      exact lawful
  | append_singleton later mark ih =>
      rw [← List.append_assoc]
      refine lawful_concat.2 ⟨ih ?_, allowed later mark [] rfl⟩
      intro before other after whole
      apply allowed before other (after ++ [mark])
      rw [whole, List.append_assoc, List.cons_append]

end Bemtvi.Run
