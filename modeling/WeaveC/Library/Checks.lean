import Mathlib.Tactic.Common

/-!
# Programs that check

A program of checks stops where one of them finds a reason to, and otherwise
returns.  Checks made one after the other stop for either's reasons.
-/

namespace WeaveC.Library

variable {ε α β : Type}

/-- The program stops where `reported` holds, and otherwise returns what is
`good`. -/
inductive Checks (reported : Prop) (good : α → Prop) : Except ε α → Prop
  | stops (failure : ε) (reason : reported) : Checks reported good (.error failure)
  | passes (answer : α) (holds : good answer) (none : ¬ reported) : Checks reported good (.ok answer)

namespace Checks

variable {reported reported' : Prop} {good : α → Prop} {good' : β → Prop} {x : Except ε α}

theorem imp {good' : α → Prop} (checks : Checks reported good x)
    (weaker : ∀ answer, good answer → good' answer) (same : reported ↔ reported') :
    Checks reported' good' x := by
  cases checks with
  | stops failure reason => exact .stops failure (same.mp reason)
  | passes answer holds none =>
      exact .passes answer (weaker answer holds) fun reason => none (same.mpr reason)

theorem congr (checks : Checks reported good x) (same : reported ↔ reported') :
    Checks reported' good x :=
  checks.imp (fun _ => id) same

theorem mapError {ε' : Type} (f : ε → ε') (checks : Checks reported good x) :
    Checks reported good (x.mapError f) := by
  cases checks with
  | stops failure reason => exact .stops (f failure) reason
  | passes answer holds none => exact .passes answer holds none

/-- One check, and then the rest of the program, with the reasons of that. -/
theorem bind {f : α → Except ε β} (reported' : Prop) (checks : Checks reported good x)
    (rest : ∀ answer, good answer → Checks reported' good' (f answer)) :
    Checks (reported ∨ reported') good' (x >>= f) := by
  cases checks with
  | stops failure reason => exact .stops failure (.inl reason)
  | passes answer holds none =>
      have after := rest answer holds
      change Checks _ _ (f answer)
      cases found : f answer with
      | error failure =>
          rw [found] at after
          cases after with
          | stops _ reason => exact .stops failure (.inr reason)
      | ok result =>
          rw [found] at after
          cases after with
          | passes _ holds' none' =>
              exact .passes result holds' fun either => either.elim none none'

theorem pure {answer : α} (holds : good answer) : Checks False good (.ok answer : Except ε α) :=
  .passes answer holds id

/-- One check after another, each of which leaves a state in which the others
find the same reasons. -/
theorem foldlM {ι : Type} {f : α → ι → Except ε α} (reported : α → ι → Prop) (goes : α → α → Prop)
    (refl : ∀ state, goes state state)
    (trans : ∀ state state' state'', goes state state' → goes state' state'' → goes state state'')
    (same : ∀ state state' i, goes state state' → (reported state' i ↔ reported state i))
    (checks : ∀ state i, Checks (reported state i) (goes state) (f state i)) (is : List ι)
    (state : α) : Checks (∃ i ∈ is, reported state i) (goes state) (is.foldlM f state) := by
  induction is generalizing state with
  | nil => exact (pure (refl state)).congr (iff_of_false id nofun)
  | cons i is inductionHypothesis =>
      rw [List.foldlM_cons]
      have both := (checks state i).bind (∃ j ∈ is, reported state j)
        fun state' went => (inductionHypothesis state').imp (fun answer => trans _ _ answer went)
          (exists_congr fun j => and_congr_right fun _ => same state state' j went)
      refine both.congr ⟨?_, ?_⟩
      · rintro (here | ⟨j, mem, found⟩)
        · exact ⟨i, List.mem_cons_self, here⟩
        · exact ⟨j, List.mem_cons_of_mem _ mem, found⟩
      · rintro ⟨j, mem, found⟩
        rcases List.mem_cons.mp mem with rfl | mem
        · exact .inl found
        · exact .inr ⟨j, mem, found⟩

/-- A test of the program's own. -/
theorem ite {p : Prop} [Decidable p] {failure : ε} {rest : Except ε α}
    (checks : Checks reported good rest) :
    Checks (p ∨ reported) good (if p then .error failure else rest) := by
  split
  · rename_i reason
    exact .stops failure (.inl reason)
  · rename_i none
    cases checks with
    | stops failure reason => exact .stops failure (.inr reason)
    | passes answer holds none' => exact .passes answer holds fun either => either.elim none none'

theorem stops_iff (checks : Checks reported good x) : (∃ failure, x = .error failure) ↔ reported := by
  cases checks with
  | stops failure reason => exact iff_of_true ⟨failure, rfl⟩ reason
  | passes answer holds none => exact iff_of_false nofun none

theorem returns_iff (checks : Checks reported good x) : (∃ answer, x = .ok answer) ↔ ¬ reported := by
  cases checks with
  | stops failure reason => exact iff_of_false nofun fun none => none reason
  | passes answer holds none => exact iff_of_true ⟨answer, rfl⟩ none

theorem returns (checks : Checks reported good x) (none : ¬ reported) :
    ∃ answer, x = .ok answer ∧ good answer := by
  cases checks with
  | stops failure reason => exact absurd reason none
  | passes answer holds => exact ⟨answer, rfl, holds⟩

end Checks

end WeaveC.Library
