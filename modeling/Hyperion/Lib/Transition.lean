import Mathlib

/-!
# Runs of a labelled transition relation

A component is described by its states and by a relation `Step state label next`,
where the label records one call together with what it answered.  A `Run` is a
finite sequence of such steps, and the list of its labels is everything an
observer of the component has seen.  Most results about a component say what
holds in every state reached, in terms of that list; `Run.history_invariant` is
the induction behind all of them.
-/

namespace Hyperion.Lib

variable {State Label : Type*}

/-- `Run Step start labels state`: the relation takes `start` to `state`, and
`labels` are the labels met on the way, oldest first. -/
inductive Run (Step : State → Label → State → Prop) (start : State) :
    List Label → State → Prop
  | nil : Run Step start [] start
  | snoc {labels : List Label} {label : Label} {state next : State}
      (run : Run Step start labels state) (step : Step state label next) :
      Run Step start (labels ++ [label]) next

variable {Step : State → Label → State → Prop} {start state : State} {labels : List Label}

/-- A property of the history and the state that holds at the start and is kept
by every step holds of every run. -/
theorem Run.history_invariant (Inv : List Label → State → Prop) (hnil : Inv [] start)
    (hstep : ∀ labels state label next, Inv labels state → Step state label next →
      Inv (labels ++ [label]) next)
    (run : Run Step start labels state) : Inv labels state := by
  induction run with
  | nil => exact hnil
  | snoc _ step ih => exact hstep _ _ _ _ ih step

/-- The invariant rule for a property of the state alone. -/
theorem Run.invariant (Inv : State → Prop) (hnil : Inv start)
    (hstep : ∀ state label next, Inv state → Step state label next → Inv next)
    (run : Run Step start labels state) : Inv state := by
  induction run with
  | nil => exact hnil
  | snoc _ step ih => exact hstep _ _ _ ih step

/-! ## Splitting a run -/

theorem Run.eq_of_nil (run : Run Step start [] state) : state = start := by
  generalize hall : ([] : List Label) = all at run
  cases run with
  | nil => rfl
  | snoc _ _ => simp at hall

theorem Run.exists_last {label : Label} (run : Run Step start (labels ++ [label]) state) :
    ∃ before, Run Step start labels before ∧ Step before label state := by
  generalize hall : labels ++ [label] = all at run
  cases run with
  | nil => simp at hall
  | snoc run step =>
    obtain ⟨rfl, hlabel⟩ := List.append_inj' hall rfl
    obtain rfl : label = _ := by simpa using hlabel
    exact ⟨_, run, step⟩

theorem Run.step_of_singleton {label : Label} (run : Run Step start [label] state) :
    Step start label state := by
  rw [← List.nil_append [label]] at run
  obtain ⟨before, hnil, hstep⟩ := run.exists_last
  rwa [hnil.eq_of_nil] at hstep

/-- A run along `first ++ second` passes through a state between the two. -/
theorem Run.split {first second : List Label} (run : Run Step start (first ++ second) state) :
    ∃ middle, Run Step start first middle ∧ Run Step middle second state := by
  induction second using List.reverseRecOn generalizing state with
  | nil => exact ⟨state, by simpa using run, .nil⟩
  | append_singleton second label ih =>
    rw [← List.append_assoc] at run
    obtain ⟨before, hbefore, hstep⟩ := run.exists_last
    obtain ⟨middle, hfirst, hsecond⟩ := ih hbefore
    exact ⟨middle, hfirst, hsecond.snoc hstep⟩

/-! ## Refinement -/

variable {Spec : Type*} {SpecStep : Spec → Label → Spec → Prop}

/-- Forward simulation: if related states stay related, the specification making
a step with the same label, then every run is matched by a run of the
specification with the same labels. -/
theorem Run.simulation (Rel : State → Spec → Prop) {specStart : Spec} (hstart : Rel start specStart)
    (hstep : ∀ state spec label next, Rel state spec → Step state label next →
      ∃ specNext, SpecStep spec label specNext ∧ Rel next specNext)
    (run : Run Step start labels state) :
    ∃ spec, Run SpecStep specStart labels spec ∧ Rel state spec := by
  induction run with
  | nil => exact ⟨specStart, .nil, hstart⟩
  | snoc _ step ih =>
    obtain ⟨spec, hrun, hrel⟩ := ih
    obtain ⟨specNext, hspec, hnext⟩ := hstep _ _ _ _ hrel step
    exact ⟨specNext, hrun.snoc hspec, hnext⟩

end Hyperion.Lib
