import Mathlib.Data.List.Infix

/-! Runs of a machine given by a partial step function. A run is recorded by
its actions, so that a property may speak about the history of a state. -/
namespace Transition

universe u v u' v'

variable {State : Type u} {Action : Type v}

/-- Every action of the list is enabled in turn and leads to the last state. -/
inductive Runs (step : State → Action → Option State) (start : State) :
    List Action → State → Prop where
  | nil : Runs step start [] start
  | snoc {actions : List Action} {action : Action} {middle finish : State}
      (prior : Runs step start actions middle) (last : step middle action = some finish) :
      Runs step start (actions ++ [action]) finish

variable {step : State → Action → Option State} {start : State}

theorem Runs.eq_start {finish : State} (run : Runs step start [] finish) : finish = start := by
  generalize hActions : ([] : List Action) = actions at run
  cases run with
  | nil => rfl
  | snoc prior last => simp at hActions

/-- The last transition of a nonempty run. -/
theorem Runs.last {actions : List Action} {action : Action} {finish : State}
    (run : Runs step start (actions ++ [action]) finish) :
    ∃ middle, Runs step start actions middle ∧ step middle action = some finish := by
  generalize hActions : actions ++ [action] = all at run
  cases run with
  | nil => simp at hActions
  | snoc prior last =>
      obtain ⟨rfl, hLast⟩ := List.append_inj' hActions rfl
      cases hLast
      exact ⟨_, prior, last⟩

/-- The step function is a function, so the actions determine the state. -/
theorem Runs.deterministic {actions : List Action} {first second : State}
    (left : Runs step start actions first) (right : Runs step start actions second) :
    first = second := by
  induction left generalizing second with
  | nil => exact right.eq_start.symm
  | snoc prior last ih =>
      obtain ⟨middle, hPrior, hLast⟩ := right.last
      cases ih hPrior
      exact Option.some.inj (last.symm.trans hLast)

/-- A run passes through a state after each of its prefixes. -/
theorem Runs.passes {actions before : List Action} {finish : State}
    (run : Runs step start actions finish) (h : before <+: actions) :
    ∃ middle, Runs step start before middle := by
  induction run with
  | nil => exact ⟨start, by rw [List.prefix_nil.mp h]; exact Runs.nil⟩
  | snoc prior last ih =>
      rcases List.prefix_concat_iff.mp h with rfl | h
      · exact ⟨_, Runs.snoc prior last⟩
      · exact ih h

/-- A run continues from where another one ended. -/
theorem Runs.append {before later : List Action} {middle finish : State}
    (prior : Runs step start before middle) (run : Runs step middle later finish) :
    Runs step start (before ++ later) finish := by
  induction run with
  | nil => simpa using prior
  | snoc _ last ih =>
      rw [← List.append_assoc]
      exact Runs.snoc ih last

/-- Running the actions one after the other computes the last state. -/
theorem runs_iff_foldlM {actions : List Action} {finish : State} :
    Runs step start actions finish ↔ actions.foldlM step start = some finish := by
  induction actions using List.reverseRecOn generalizing finish with
  | nil =>
      constructor
      · intro run
        rw [run.eq_start]
        rfl
      · intro h
        cases h
        exact Runs.nil
  | append_singleton actions action ih =>
      rw [List.foldlM_append]
      constructor
      · intro run
        obtain ⟨middle, prior, last⟩ := run.last
        simp [ih.mp prior, last]
      · intro h
        obtain ⟨middle, hPrior, hLast⟩ := Option.bind_eq_some_iff.mp h
        refine Runs.snoc (ih.mpr hPrior) ?_
        simpa using hLast

/-- A run may be cut between any two of its actions. -/
theorem Runs.split {before later : List Action} {finish : State} (run : Runs step start (before ++ later) finish) :
    ∃ middle, Runs step start before middle ∧ Runs step middle later finish := by
  rw [runs_iff_foldlM, List.foldlM_append] at run
  obtain ⟨middle, hBefore, hLater⟩ := Option.bind_eq_some_iff.mp run
  exact ⟨middle, runs_iff_foldlM.mpr hBefore, runs_iff_foldlM.mpr hLater⟩

/-- What holds at the start and is preserved by every transition holds after
every run, together with the history that led there. -/
theorem Runs.history {property : List Action → State → Prop} {actions : List Action}
    {finish : State} (run : Runs step start actions finish) (hStart : property [] start)
    (hStep : ∀ actions action s t, Runs step start actions s → property actions s →
      step s action = some t → property (actions ++ [action]) t) : property actions finish := by
  induction run with
  | nil => exact hStart
  | snoc prior last ih => exact hStep _ _ _ _ prior ih last

/-- The state-only form of `Runs.history`. -/
theorem Runs.invariant {property : State → Prop} {actions : List Action} {finish : State}
    (run : Runs step start actions finish) (hStart : property start)
    (hStep : ∀ action s t, property s → step s action = some t → property t) : property finish :=
  @Runs.history _ _ step start (fun _ => property) _ _ run hStart fun _ action s t _ => hStep action s t

/-- A property of history and state that holds at every point of a run. -/
def Throughout (step : State → Action → Option State) (start : State) (actions : List Action)
    (property : List Action → State → Prop) : Prop :=
  ∀ before s, before <+: actions → Runs step start before s → property before s

/-- A condition that every transition of a run meets, on the history and the
state before the transition and on its action. -/
def EachStep (step : State → Action → Option State) (start : State) (actions : List Action)
    (condition : List Action → State → Action → Prop) : Prop :=
  ∀ before action s, before ++ [action] <+: actions → Runs step start before s →
    condition before s action

theorem Throughout.finish {actions : List Action} {property : List Action → State → Prop}
    {finish : State} (h : Throughout step start actions property)
    (run : Runs step start actions finish) : property actions finish :=
  h actions finish (List.prefix_refl actions) run

/-- Conditions on the steps of a run carry a property through the run. -/
theorem throughout_of_eachStep {property : List Action → State → Prop}
    {condition : List Action → State → Action → Prop} (hStart : property [] start)
    (hStep : ∀ actions action s t, Runs step start actions s → property actions s →
      condition actions s action → step s action = some t → property (actions ++ [action]) t)
    {actions : List Action} (hEach : EachStep step start actions condition) :
    Throughout step start actions property := by
  intro before s hPrefix run
  induction run with
  | nil => exact hStart
  | snoc prior last ih =>
      have hBefore := (List.prefix_append _ _).trans hPrefix
      exact hStep _ _ _ _ prior (ih hBefore) (hEach _ _ _ hPrefix prior) last

/-- A property that fails right after every step that breaks a condition
forces the condition on every step. -/
theorem eachStep_of_throughout {property : List Action → State → Prop}
    {condition : List Action → State → Action → Prop}
    (hStep : ∀ actions action s t, Runs step start actions s → step s action = some t →
      property (actions ++ [action]) t → condition actions s action)
    {actions : List Action} {finish : State} (run : Runs step start actions finish)
    (h : Throughout step start actions property) : EachStep step start actions condition := by
  intro before action s hPrefix prior
  obtain ⟨t, runNext⟩ := run.passes hPrefix
  obtain ⟨middle, hPrior, hLast⟩ := runNext.last
  cases prior.deterministic hPrior
  exact hStep before action s t prior hLast (h _ _ hPrefix runNext)

/-- What the steps of a run stand for in another machine. -/
def matched {Matched : Type v'} (step : State → Action → Option State) (emit : State → Action → List Matched)
    (start : State) : List Action → List Matched
  | [] => []
  | action :: rest =>
      match step start action with
      | none => []
      | some next => emit start action ++ matched step emit next rest

theorem matched_concat {Matched : Type v'} {emit : State → Action → List Matched} {actions : List Action}
    {action : Action} {middle finish : State} (run : Runs step start actions middle)
    (last : step middle action = some finish) :
    matched step emit start (actions ++ [action]) = matched step emit start actions ++ emit middle action := by
  rw [runs_iff_foldlM] at run
  induction actions generalizing start with
  | nil =>
      cases run
      simp [matched, last]
  | cons first rest ih =>
      obtain ⟨next, hFirst, hRest⟩ := Option.bind_eq_some_iff.mp run
      simp [matched, hFirst, ih hRest]

/-- A simulation carries every run over to a run of the other machine. -/
theorem Runs.simulate {State' : Type u'} {Action' : Type v'} {step' : State' → Action' → Option State'}
    {start' : State'} {emit : State → Action → List Action'} {relation : State → State' → Prop}
    {actions : List Action} {finish : State} (run : Runs step start actions finish) (hStart : relation start start')
    (hStep : ∀ actions action s t s', Runs step start actions s → step s action = some t →
      Runs step' start' (matched step emit start actions) s' → relation s s' →
      ∃ t', Runs step' s' (emit s action) t' ∧ relation t t') :
    ∃ finish', Runs step' start' (matched step emit start actions) finish' ∧ relation finish finish' := by
  induction run with
  | nil => exact ⟨start', Runs.nil, hStart⟩
  | snoc prior last ih =>
      obtain ⟨s', runMatched, hRelation⟩ := ih
      obtain ⟨t', runLast, hNext⟩ := hStep _ _ _ _ _ prior last runMatched hRelation
      exact ⟨t', matched_concat prior last ▸ runMatched.append runLast, hNext⟩

end Transition
