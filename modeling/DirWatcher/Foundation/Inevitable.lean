import DirWatcher.Foundation.Runs

/-!
States from which every run comes to its end: whatever steps are taken, as long as they
meet a condition, the work is finished after some of them.
-/

set_option autoImplicit false
set_option relaxedAutoImplicit false

namespace DirWatcher.Foundation.Runs

variable {σ ℓ : Type*}

/-- However the run goes on by steps that meet the condition, it comes to a state in which
the work is finished. Until then there is always such a step. -/
inductive Inevitable (step : σ → ℓ → Option σ) (condition : σ → ℓ → Prop) (finished : σ → Prop) :
    σ → Prop
  | now {state : σ} (hfinished : finished state) : Inevitable step condition finished state
  | later {state : σ}
      (hcan : ∃ label next, condition state label ∧ step state label = some next)
      (hall : ∀ label next, condition state label → step state label = some next →
        Inevitable step condition finished next) : Inevitable step condition finished state

variable {step : σ → ℓ → Option σ} {condition : σ → ℓ → Prop} {finished : σ → Prop}

/-- An invariant, a step that can always be taken, and a measure that goes down with each
step in a well-founded order. -/
theorem inevitable_of_wellFounded {β : Type*} {less : β → β → Prop} (hless : WellFounded less)
    (measure : σ → β) (holds : σ → Prop) {before : σ} (hstart : holds before)
    (hcan : ∀ state, holds state → ¬ finished state →
      ∃ label next, condition state label ∧ step state label = some next)
    (hstep : ∀ state label next, holds state → condition state label →
      step state label = some next → holds next ∧ less (measure next) (measure state)) :
    Inevitable step condition finished before := by
  induction hmeasure : measure before using hless.induction generalizing before with
  | _ _ ih =>
    subst hmeasure
    by_cases hfinished : finished before
    · exact .now hfinished
    · refine .later (hcan before hstart hfinished) fun label next hlabel hnext ↦ ?_
      obtain ⟨hholds, hdown⟩ := hstep before label next hstart hlabel hnext
      exact ih _ hdown hholds rfl

theorem Inevitable.reaches (hlast : ∀ state label, finished state → step state label = none)
    {before after : σ} (hbefore : Inevitable step condition finished before)
    (hruns : ReachesWhen step condition before after) : Inevitable step condition finished after :=
  hruns.invariant _ hbefore fun state label next hstate hlabel hnext ↦ by
    cases hstate with
    | now hfinished => cases (hlast state label hfinished).symm.trans hnext
    | later _ hall => exact hall label next hlabel hnext

/-- A run that cannot go on has finished its work. -/
theorem Inevitable.finished_of_stuck
    (hlast : ∀ state label, finished state → step state label = none) {before after : σ}
    (hbefore : Inevitable step condition finished before)
    (hruns : ReachesWhen step condition before after)
    (hstuck : ∀ label, step after label = none) : finished after := by
  cases hbefore.reaches hlast hruns with
  | now hfinished => exact hfinished
  | later hcan _ =>
    obtain ⟨label, next, -, hnext⟩ := hcan
    cases (hstuck label).symm.trans hnext

end DirWatcher.Foundation.Runs
