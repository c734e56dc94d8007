import DirWatcher.Foundation.Runs
import Mathlib.Data.Nat.Find

/-!
Runs that never end, in which the steps of one party are taken among those of others. The
run is fair to the party when it takes a step again and again as long as it can. A measure
that its steps bring down, and those of the others leave alone, then brings it to its goal.
-/

set_option autoImplicit false
set_option relaxedAutoImplicit false

namespace DirWatcher.Foundation.Runs

variable {σ ℓ : Type*}

/-- The states of a run, with the label of the step from each to the next. -/
structure EndlessRun (step : σ → ℓ → Option σ) where
  state : ℕ → σ
  label : ℕ → ℓ
  steps : ∀ n, step (state n) (label n) = some (state (n + 1))

variable {step : σ → ℓ → Option σ} {own : ℓ → Prop}

/-- The party can take a step. -/
def Ready (step : σ → ℓ → Option σ) (own : ℓ → Prop) (state : σ) : Prop :=
  ∃ label next, own label ∧ step state label = some next

namespace EndlessRun

/-- A party that can take a step from some time on takes one. -/
def Fair (run : EndlessRun step) (own : ℓ → Prop) : Prop :=
  ∀ n, (∀ later ≥ n, Ready step own (run.state later)) → ∃ later ≥ n, own (run.label later)

variable {run : EndlessRun step}

theorem reaches (run : EndlessRun step) (n : ℕ) : Reaches step (run.state 0) (run.state n) := by
  induction n with
  | zero => exact Relation.ReflTransGen.refl
  | succ n ih => exact ih.tail ⟨run.label n, trivial, run.steps n⟩

/-- A property that every step keeps stays from its first time on. -/
theorem stays (holds : σ → Prop) (hstep : ∀ state label next, holds state →
      step state label = some next → holds next) {n later : ℕ} (hn : n ≤ later)
    (hholds : holds (run.state n)) : holds (run.state later) := by
  induction later, hn using Nat.le_induction with
  | base => exact hholds
  | succ later _ ih => exact hstep _ _ _ ih (run.steps later)

/-- As long as none of its steps has been taken, what the others leave alone is as it was. -/
theorem eq_of_idle {β : Type*} {view : σ → β} (hidle : ∀ state label next, ¬ own label →
      step state label = some next → view next = view state) {n later : ℕ} (hn : n ≤ later)
    (hnone : ∀ middle, n ≤ middle → middle < later → ¬ own (run.label middle)) :
    view (run.state later) = view (run.state n) := by
  induction later, hn using Nat.le_induction with
  | base => rfl
  | succ later hlater ih =>
    rw [hidle _ _ _ (hnone later hlater (Nat.lt_succ_self later)) (run.steps later)]
    exact ih fun middle hfrom hto ↦ hnone middle hfrom (Nat.lt_succ_of_lt hto)

/-- In a fair run there is a first step of a party that is ready until it reaches its goal. -/
theorem exists_first_own (hfair : run.Fair own) {n : ℕ}
    (hready : ∀ later ≥ n, Ready step own (run.state later)) :
    ∃ later ≥ n, own (run.label later) ∧
      ∀ middle, n ≤ middle → middle < later → ¬ own (run.label middle) := by
  classical
  have hsome := hfair n hready
  refine ⟨Nat.find hsome, (Nat.find_spec hsome).1, (Nat.find_spec hsome).2, ?_⟩
  exact fun middle hfrom hto hown ↦ Nat.find_min hsome hto ⟨hfrom, hown⟩

/-- The steps of the party reach its goal or bring the measure down, and it is ready as long
as the goal is not reached. -/
theorem exists_goal {β : Type*} {less : β → β → Prop} (hless : WellFounded less)
    (measure : σ → β) (holds : σ → Prop) (goal : σ → ℓ → Prop) (done : σ → Prop)
    (hfair : run.Fair own) (hholds : ∀ n, holds (run.state n))
    (hready : ∀ state, holds state → ¬ done state → Ready step own state)
    (hidle : ∀ state label next, ¬ own label → step state label = some next →
      measure next = measure state)
    (hown : ∀ state label next, holds state → own label → step state label = some next →
      goal state label ∨ done next ∨ less (measure next) (measure state)) (n : ℕ) :
    (∃ later ≥ n, done (run.state later)) ∨
      ∃ later ≥ n, own (run.label later) ∧ goal (run.state later) (run.label later) := by
  induction hstart : measure (run.state n) using hless.induction generalizing n with
  | _ _ ih =>
    subst hstart
    by_cases hdone : ∃ later ≥ n, done (run.state later)
    · exact Or.inl hdone
    have hundone : ∀ later ≥ n, ¬ done (run.state later) := fun later hlater hhere ↦
      hdone ⟨later, hlater, hhere⟩
    obtain ⟨first, hfirst, hfirstOwn, hnone⟩ := exists_first_own hfair fun later hlater ↦
      hready _ (hholds later) (hundone later hlater)
    rcases hown _ _ _ (hholds first) hfirstOwn (run.steps first) with hgoal | hends | hdown
    · exact Or.inr ⟨first, hfirst, hfirstOwn, hgoal⟩
    · exact Or.inl ⟨first + 1, by omega, hends⟩
    · rw [eq_of_idle hidle hfirst hnone] at hdown
      exact (ih _ hdown (first + 1) rfl).imp
        (fun ⟨later, hlater, hends⟩ ↦ ⟨later, by omega, hends⟩)
        fun ⟨later, hlater, hgoal⟩ ↦ ⟨later, by omega, hgoal⟩

end EndlessRun

/-! ### A list of steps, and then the same one for ever -/

section OfList

variable {before last : σ} {labels : List ℓ} {idle : ℓ}

theorem exists_run_take (hrun : run step before labels = some last) (n : ℕ) :
    ∃ state, run step before (labels.take n) = some state := by
  rw [← List.take_append_drop n labels, run, runChecked, List.foldlM_append] at hrun
  obtain ⟨state, hstate, -⟩ := Option.bind_eq_some_iff.mp hrun
  exact ⟨state, hstate⟩

theorem step_of_take (hrun : run step before labels = some last)
    (hidle : step last idle = some last) (n : ℕ) :
    step ((run step before (labels.take n)).getD last) (labels.getD n idle) =
      some ((run step before (labels.take (n + 1))).getD last) := by
  obtain ⟨state, hstate⟩ := exists_run_take hrun n
  by_cases hn : n < labels.length
  · obtain ⟨next, hnext⟩ := exists_run_take hrun (n + 1)
    have hstep : run step before (labels.take (n + 1)) = step state labels[n] := by
      rw [List.take_succ_eq_append_getElem hn, run, runChecked, List.foldlM_append]
      exact (congrArg (Option.bind · _) hstate).trans (by simp)
    rw [hnext] at hstep
    simp [hstate, hnext, List.getElem?_eq_getElem hn, ← hstep]
  · rw [not_lt] at hn
    simp [List.take_of_length_le, hn, Nat.le_succ_of_le hn, hrun, hidle]

/-- The last step of the run changes nothing. -/
def EndlessRun.ofList (hrun : run step before labels = some last)
    (hidle : step last idle = some last) : EndlessRun step where
  state n := (run step before (labels.take n)).getD last
  label n := labels.getD n idle
  steps := step_of_take hrun hidle

variable (hrun : run step before labels = some last) (hidle : step last idle = some last)

theorem EndlessRun.ofList_state {n : ℕ} {state : σ}
    (hstate : run step before (labels.take n) = some state) :
    (ofList hrun hidle).state n = state := by
  simp [ofList, hstate]

theorem EndlessRun.ofList_state_last {n : ℕ} (hn : labels.length ≤ n) :
    (ofList hrun hidle).state n = last := by
  simp [ofList, List.take_of_length_le hn, hrun]

end OfList

end DirWatcher.Foundation.Runs
