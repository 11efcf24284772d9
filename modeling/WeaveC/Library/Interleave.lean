import Mathlib.Data.List.Basic
import Mathlib.Tactic.Common

/-!
# Interleavings

Several lists taken element by element, each from its front, in any order.
-/

namespace WeaveC.Library

variable {α : Type*}

/-- The second list holds the elements of the lists of the first, each list's
in its own order. -/
inductive Interleave : List (List α) → List α → Prop where
  | done {ls : List (List α)} (empty : ∀ l ∈ ls, l = []) : Interleave ls []
  | take {before after : List (List α)} {x : α} {l merged : List α}
      (rest : Interleave (before ++ l :: after) merged) :
      Interleave (before ++ (x :: l) :: after) (x :: merged)

namespace Interleave

variable {ls : List (List α)} {merged : List α}

theorem perm (order : Interleave ls merged) : merged.Perm ls.flatten := by
  induction order with
  | done empty =>
      rw [List.flatten_eq_nil_iff.mpr empty]
  | @take before after x l merged rest inductionHypothesis =>
      refine (inductionHypothesis.cons x).trans ?_
      simp only [List.flatten_append, List.flatten_cons, List.cons_append]
      exact List.perm_middle.symm

theorem mem_iff (order : Interleave ls merged) (x : α) : x ∈ merged ↔ ∃ l ∈ ls, x ∈ l := by
  rw [order.perm.mem_iff, List.mem_flatten]

/-- One list after another, behind lists that are used up. -/
theorem flatten_of_empty {before : List (List α)} (empty : ∀ l ∈ before, l = []) :
    Interleave (before ++ ls) ls.flatten := by
  induction ls generalizing before with
  | nil =>
      rw [List.append_nil]
      exact .done empty
  | cons l ls inductionHypothesis =>
      induction l with
      | nil =>
          have rest := @inductionHypothesis (before ++ [[]]) fun l mem => by
            rcases List.mem_append.mp mem with old | new
            · exact empty l old
            · exact List.mem_singleton.mp new
          rw [List.append_assoc] at rest
          exact rest
      | cons x l first => exact .take first

theorem flatten (ls : List (List α)) : Interleave ls ls.flatten :=
  @flatten_of_empty _ ls [] fun _ mem => absurd mem List.not_mem_nil

end Interleave

end WeaveC.Library
