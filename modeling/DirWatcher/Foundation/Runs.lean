import Mathlib.Logic.Relation

/-!
Runs of a system given by a partial step function on labels: which states are
reached by steps that all meet a condition, what holds in all of them, and how
the runs of one system are runs of another.
-/

set_option autoImplicit false
set_option relaxedAutoImplicit false

namespace DirWatcher.Foundation.Runs

variable {σ ℓ σ' ℓ' : Type*}

/-- A step whose label meets the condition in the state before it. -/
def StepWhen (step : σ → ℓ → Option σ) (condition : σ → ℓ → Prop) (before after : σ) : Prop :=
  ∃ label, condition before label ∧ step before label = some after

/-- The second state is reached from the first by steps that all meet the condition. -/
def ReachesWhen (step : σ → ℓ → Option σ) (condition : σ → ℓ → Prop) : σ → σ → Prop :=
  Relation.ReflTransGen (StepWhen step condition)

/-- The second state is reached from the first by any steps. -/
def Reaches (step : σ → ℓ → Option σ) : σ → σ → Prop := ReachesWhen step fun _ _ ↦ True

variable {step : σ → ℓ → Option σ} {condition : σ → ℓ → Prop}

theorem ReachesWhen.mono {weaker : σ → ℓ → Prop} {before after : σ}
    (hruns : ReachesWhen step condition before after)
    (hweaker : ∀ state label, condition state label → weaker state label) :
    ReachesWhen step weaker before after := by
  refine Relation.ReflTransGen.mono (fun _ _ hstep ↦ ?_) _ _ hruns
  obtain ⟨label, hlabel, hnext⟩ := hstep
  exact ⟨label, hweaker _ label hlabel, hnext⟩

theorem ReachesWhen.reaches {before after : σ} (hruns : ReachesWhen step condition before after) :
    Reaches step before after := hruns.mono fun _ _ _ ↦ trivial

/-- A property of the first state that every step under the condition keeps is one
of every state reached. -/
theorem ReachesWhen.invariant (holds : σ → Prop) {before after : σ}
    (hruns : ReachesWhen step condition before after) (hstart : holds before)
    (hstep : ∀ state label next, holds state → condition state label →
      step state label = some next → holds next) : holds after := by
  induction hruns with
  | refl => exact hstart
  | tail _ hlast ih =>
    obtain ⟨label, hlabel, hnext⟩ := hlast
    exact hstep _ label _ ih hlabel hnext

/-- A map under which each step is a run of another system maps runs to runs. -/
theorem ReachesWhen.map {step' : σ' → ℓ' → Option σ'} {condition' : σ' → ℓ' → Prop}
    (view : σ → σ') {before after : σ} (hruns : ReachesWhen step condition before after)
    (hstep : ∀ state label next, condition state label → step state label = some next →
      ReachesWhen step' condition' (view state) (view next)) :
    ReachesWhen step' condition' (view before) (view after) := by
  induction hruns with
  | refl => exact Relation.ReflTransGen.refl
  | tail _ hlast ih =>
    obtain ⟨label, hlabel, hnext⟩ := hlast
    exact ih.trans (hstep _ label _ hlabel hnext)

/-- The steps for a list of labels, each of which passes a test. -/
def runChecked (step : σ → ℓ → Option σ) (check : σ → ℓ → Bool) (state : σ) (labels : List ℓ) :
    Option σ :=
  labels.foldlM (fun state label ↦ if check state label then step state label else none) state

theorem runChecked_cons_eq_some_iff {check : σ → ℓ → Bool} {before after : σ} {label : ℓ}
    {labels : List ℓ} :
    runChecked step check before (label :: labels) = some after ↔
      check before label = true ∧ ∃ next, step before label = some next ∧
        runChecked step check next labels = some after := by
  rw [runChecked, List.foldlM_cons]
  by_cases hpass : check before label = true
  · simp only [hpass, if_true, true_and]
    exact Option.bind_eq_some_iff
  · simp [hpass]

theorem reachesWhen_of_runChecked (check : σ → ℓ → Bool) {before after : σ} {labels : List ℓ}
    (hcheck : ∀ state label, check state label = true → condition state label)
    (hrun : runChecked step check before labels = some after) :
    ReachesWhen step condition before after := by
  induction labels generalizing before with
  | nil =>
    obtain rfl : before = after := by simpa [runChecked] using hrun
    exact Relation.ReflTransGen.refl
  | cons label labels ih =>
    obtain ⟨hpass, next, hnext, hrest⟩ := runChecked_cons_eq_some_iff.mp hrun
    exact Relation.ReflTransGen.head ⟨label, hcheck before label hpass, hnext⟩ (ih hrest)

theorem runChecked_mono {check weaker : σ → ℓ → Bool} {before after : σ} {labels : List ℓ}
    (hweaker : ∀ state label, check state label = true → weaker state label = true)
    (hrun : runChecked step check before labels = some after) :
    runChecked step weaker before labels = some after := by
  induction labels generalizing before with
  | nil => exact hrun
  | cons label labels ih =>
    obtain ⟨hpass, next, hnext, hrest⟩ := runChecked_cons_eq_some_iff.mp hrun
    exact runChecked_cons_eq_some_iff.mpr ⟨hweaker before label hpass, next, hnext, ih hrest⟩

/-- The steps for a list of labels that pass one test pass another one too, or one of them
does not. -/
theorem runChecked_or_fails {check : σ → ℓ → Bool} (further : σ → ℓ → Bool) {before after : σ}
    {labels : List ℓ} (hrun : runChecked step check before labels = some after) :
    runChecked step (fun state label ↦ check state label && further state label) before labels =
        some after ∨
      ∃ middle label next, ReachesWhen step
        (fun state label ↦ check state label = true) before middle ∧
        check middle label = true ∧ further middle label = false ∧ step middle label = some next ∧
        ReachesWhen step (fun state label ↦ check state label = true) next after := by
  induction labels generalizing before with
  | nil => exact Or.inl hrun
  | cons label labels ih =>
    obtain ⟨hpass, next, hnext, hrest⟩ := runChecked_cons_eq_some_iff.mp hrun
    cases hfurther : further before label with
    | false =>
      exact Or.inr ⟨before, label, next, Relation.ReflTransGen.refl, hpass, hfurther, hnext,
        reachesWhen_of_runChecked check (fun _ _ h ↦ h) hrest⟩
    | true =>
      rcases ih hrest with hall | ⟨middle, failing, later, hbefore, hrest⟩
      · exact Or.inl (runChecked_cons_eq_some_iff.mpr ⟨by simp [hpass, hfurther], next, hnext,
          hall⟩)
      · exact Or.inr ⟨middle, failing, later,
          Relation.ReflTransGen.head ⟨label, hpass, hnext⟩ hbefore, hrest⟩

/-- Two systems that take the same steps from the states of an invariant have the same
runs from such a state. -/
theorem runChecked_congr {other : σ → ℓ → Option σ} {check : σ → ℓ → Bool} (holds : σ → Prop)
    {before : σ} (hstart : holds before)
    (hstep : ∀ state label next, holds state → check state label = true →
      step state label = some next → holds next)
    (hsame : ∀ state label, holds state → other state label = step state label) (labels : List ℓ) :
    runChecked other check before labels = runChecked step check before labels := by
  induction labels generalizing before with
  | nil => rfl
  | cons label labels ih =>
    rw [runChecked, runChecked, List.foldlM_cons, List.foldlM_cons, hsame before label hstart]
    refine Option.bind_congr fun next hnext ↦ ih ?_
    by_cases hpass : check before label = true
    · rw [if_pos hpass] at hnext
      exact hstep before label next hstart hpass hnext
    · rw [if_neg hpass] at hnext
      cases hnext

/-- What can be seen of the state at the end of a list of steps that meet a condition
is seen of a state that is reached by such steps. -/
theorem exists_reachesWhen_of_run [∀ state label, Decidable (condition state label)] {β : Type*}
    {before : σ} {labels : List ℓ} {view : σ → β} {seen : β}
    (hrun : (runChecked step (fun state label ↦ decide (condition state label)) before labels).map
      view = some seen) :
    ∃ after, ReachesWhen step condition before after ∧ view after = seen := by
  obtain ⟨after, hafter, hseen⟩ := Option.map_eq_some_iff.mp hrun
  exact ⟨after, reachesWhen_of_runChecked _ (fun _ _ hcheck ↦ of_decide_eq_true hcheck) hafter,
    hseen⟩

/-- The steps for a list of labels, without a test. -/
def run (step : σ → ℓ → Option σ) (state : σ) (labels : List ℓ) : Option σ :=
  runChecked step (fun _ _ ↦ true) state labels

/-- What can be seen of the state at the end of a list of steps is seen of a state
that is reached. -/
theorem exists_reaches_of_run {β : Type*} {before : σ} {labels : List ℓ} {view : σ → β} {seen : β}
    (hrun : (run step before labels).map view = some seen) :
    ∃ after, Reaches step before after ∧ view after = seen := by
  obtain ⟨after, hafter, hseen⟩ := Option.map_eq_some_iff.mp hrun
  exact ⟨after, reachesWhen_of_runChecked _ (fun _ _ _ ↦ trivial) hafter, hseen⟩

/-- A step between two lists of steps, with what can be seen of the states around it. -/
theorem exists_reachesWhen_around {later : σ → ℓ → Prop}
    [∀ state label, Decidable (condition state label)]
    [∀ state label, Decidable (later state label)] {β : Type*} {before : σ} {label : ℓ}
    {first rest : List ℓ} {view : σ → σ → σ → β} {seen : β}
    (hrun : ((runChecked step (fun state label ↦ decide (condition state label)) before first).bind
      fun middle ↦ (step middle label).bind fun next ↦
        (runChecked step (fun state label ↦ decide (later state label)) next rest).map
          (view middle next)) = some seen) :
    ∃ middle next after, ReachesWhen step condition before middle ∧ step middle label = some next ∧
      ReachesWhen step later next after ∧ view middle next after = seen := by
  obtain ⟨middle, hmiddle, hrun⟩ := Option.bind_eq_some_iff.mp hrun
  obtain ⟨next, hnext, hrun⟩ := Option.bind_eq_some_iff.mp hrun
  obtain ⟨after, hafter, hseen⟩ := Option.map_eq_some_iff.mp hrun
  exact ⟨middle, next, after,
    reachesWhen_of_runChecked _ (fun _ _ hcheck ↦ of_decide_eq_true hcheck) hmiddle, hnext,
    reachesWhen_of_runChecked _ (fun _ _ hcheck ↦ of_decide_eq_true hcheck) hafter, hseen⟩

/-! ### Systems that take the same steps

The second system may lose the first one, and then it stays without it. -/

section Simulation

theorem rel_map {β : Type*} {rel : σ → σ' → Prop} {result : Option β} {first : β → σ}
    {second : β → σ'} (hrel : ∀ value, result = some value → rel (first value) (second value)) :
    Option.Rel rel (result.map first) (result.map second) := by
  cases result with
  | none => exact .none
  | some value => exact .some (hrel value rfl)

theorem rel_mono {rel weaker : σ → σ' → Prop} {first : Option σ} {second : Option σ'}
    (hrel : Option.Rel rel first second)
    (hweaker : ∀ state state', rel state state' → weaker state state') :
    Option.Rel weaker first second := by
  cases hrel with
  | none => exact .none
  | some hstate => exact .some (hweaker _ _ hstate)

theorem rel_map_right {rel : σ → σ' → Prop} {result : Option σ} {second : σ → σ'}
    (hrel : ∀ state, result = some state → rel state (second state)) :
    Option.Rel rel result (result.map second) := by
  cases result with
  | none => exact .none
  | some value => exact .some (hrel value rfl)

variable {step' : σ' → ℓ → Option σ'} {fits : ℓ → Prop} {rel : σ → σ' → Prop} {lost : σ' → Prop}
  {before : σ} {before' : σ'}

/-- What the second system comes to, the first one can come to. -/
theorem ReachesWhen.exists_rel {after' : σ'}
    (hsteps : ∀ state state' label, rel state state' → fits label →
      Option.Rel (fun next next' ↦ rel next next' ∨ lost next')
        (step state label) (step' state' label))
    (hlost : ∀ state label next, lost state → step' state label = some next → lost next)
    (hruns : ReachesWhen step' (fun _ label ↦ fits label) before' after')
    (hstart : rel before before') :
    (∃ after, ReachesWhen step (fun _ label ↦ fits label) before after ∧ rel after after') ∨
      lost after' := by
  induction hruns with
  | refl => exact Or.inl ⟨before, .refl, hstart⟩
  | tail _ hlast ih =>
    obtain ⟨label, hlabel, hnext'⟩ := hlast
    rcases ih with ⟨state, hreaches, hrel⟩ | hlast
    · have hmatch := hsteps state _ label hrel hlabel
      rw [hnext'] at hmatch
      cases hnext : step state label with
      | none => exact absurd (hnext ▸ hmatch) nofun
      | some next =>
        rw [hnext] at hmatch
        cases hmatch with
        | some hmatch =>
          exact hmatch.imp_left fun hrel ↦ ⟨next, hreaches.tail ⟨label, hlabel, hnext⟩, hrel⟩
    · exact Or.inr (hlost _ label _ hlast hnext')

/-- What the first system comes to, the second one comes to, unless it loses it. -/
theorem ReachesWhen.exists_rel_of {after : σ}
    (hsteps : ∀ state state' label, rel state state' → fits label →
      Option.Rel (fun next next' ↦ rel next next' ∨ lost next')
        (step state label) (step' state' label))
    (hruns : ReachesWhen step (fun _ label ↦ fits label) before after)
    (hstart : rel before before') :
    ∃ after', ReachesWhen step' (fun _ label ↦ fits label) before' after' ∧
      (rel after after' ∨ lost after') := by
  induction hruns with
  | refl => exact ⟨before', .refl, Or.inl hstart⟩
  | tail _ hlast ih =>
    obtain ⟨label, hlabel, hnext⟩ := hlast
    obtain ⟨state', hreaches, hrel | hlost⟩ := ih
    · have hmatch := hsteps _ state' label hrel hlabel
      rw [hnext] at hmatch
      cases hnext' : step' state' label with
      | none => exact absurd (hnext' ▸ hmatch) nofun
      | some next' =>
        rw [hnext'] at hmatch
        cases hmatch with
        | some hmatch => exact ⟨next', hreaches.tail ⟨label, hlabel, hnext'⟩, hmatch⟩
    · exact ⟨state', hreaches, Or.inr hlost⟩

end Simulation

end DirWatcher.Foundation.Runs
