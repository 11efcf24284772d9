import Mathlib.Logic.Relation
import Mathlib.Tactic.Common

/-!
# Runs of a transition system

A step takes a state and an event and may be refused.  A run is a sequence of
steps that each meet a condition on the state they start from; what one such
step keeps, the whole run keeps.
-/

namespace WeaveC.Library

variable {State Event : Type*}

/-- The states reached from `start` by steps that meet `allowed`. -/
inductive Run (step : State → Event → Option State) (allowed : State → Event → Prop)
    (start : State) : State → Prop where
  | refl : Run step allowed start start
  | tail {s s' : State} {e : Event} :
      Run step allowed start s → allowed s e → step s e = some s' →
        Run step allowed start s'

namespace Run

variable {step : State → Event → Option State} {allowed : State → Event → Prop}
  {start s : State}

theorem invariant {I : State → Prop} (run : Run step allowed start s) (initial : I start)
    (kept : ∀ s e s', I s → allowed s e → step s e = some s' → I s') : I s := by
  induction run with
  | refl => exact initial
  | tail _ meets taken inductionHypothesis => exact kept _ _ _ inductionHypothesis meets taken

theorem trans {s' : State} (run : Run step allowed start s) (run' : Run step allowed s s') :
    Run step allowed start s' := by
  induction run' with
  | refl => exact run
  | tail _ meets taken inductionHypothesis => exact inductionHypothesis.tail meets taken

theorem mono {allowed' : State → Event → Prop} (run : Run step allowed start s)
    (weaker : ∀ s e, allowed s e → allowed' s e) : Run step allowed' start s := by
  induction run with
  | refl => exact .refl
  | tail _ meets taken inductionHypothesis => exact inductionHypothesis.tail (weaker _ _ meets) taken

/-- Events taken one after another, each checked against the condition. -/
def exec (step : State → Event → Option State) (allowed : State → Event → Prop)
    [∀ s e, Decidable (allowed s e)] : State → List Event → Option State
  | s, [] => some s
  | s, e :: es =>
      if allowed s e then (step s e).bind fun s' => exec step allowed s' es else none

theorem of_exec [∀ s e, Decidable (allowed s e)] (es : List Event)
    (taken : exec step allowed start es = some s) : Run step allowed start s := by
  induction es generalizing start with
  | nil =>
      obtain rfl : start = s := by simpa [exec] using taken
      exact .refl
  | cons e es inductionHypothesis =>
      unfold exec at taken
      split_ifs at taken with meets
      obtain ⟨s', first, rest⟩ := Option.bind_eq_some_iff.mp taken
      exact trans (.tail .refl meets first) (inductionHypothesis rest)

/-- A run through given events that ends where `seen` says so. -/
theorem exists_exec [∀ s e, Decidable (allowed s e)] {α : Type*} {seen : State → α} {v : α}
    (es : List Event) (taken : (exec step allowed start es).map seen = some v) :
    ∃ s, Run step allowed start s ∧ seen s = v := by
  obtain ⟨s, reached, eq⟩ := Option.map_eq_some_iff.mp taken
  exact ⟨s, of_exec es reached, eq⟩

/-- A run that ends outside `P` has a step that leaves it. -/
theorem exists_step {P : State → Prop} (run : Run step allowed start s) (initial : P start)
    (left : ¬ P s) :
    ∃ u e v, Run step allowed start u ∧ allowed u e ∧ step u e = some v ∧ Run step allowed v s ∧
      P u ∧ ¬ P v := by
  induction run with
  | refl => exact absurd initial left
  | @tail u v e run meets taken inductionHypothesis =>
      by_cases still : P u
      · exact ⟨u, e, v, run, meets, taken, .refl, still, left⟩
      · obtain ⟨u', e', v', run', meets', taken', rest, inside, outside⟩ :=
          inductionHypothesis still
        exact ⟨u', e', v', run', meets', taken', rest.tail meets taken, inside, outside⟩

end Run

end WeaveC.Library
