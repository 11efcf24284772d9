import Mathlib.Algebra.Order.Ring.Nat
import Mathlib.Data.List.Basic

/-!
# Moving until nothing moves

A loop that goes over a list of obstacles, each of which may move the value on,
and that starts over as long as one did.  Where every move brings the value
closer to a bound, the loop ends, and no obstacle moves what it ends with.
-/

namespace WeaveC.Library.Settling

variable {α β : Type*}

/-- Goes over the obstacles once; tells whether one moved the value. -/
def pass (move : β → α → Option α) (obstacles : List β) (found : α × Bool) : α × Bool :=
  obstacles.foldl (fun found obstacle =>
    match move obstacle found.1 with
    | some x => (x, true)
    | none => found) found

/-- Passes until one that moves nothing, of at most as many as the fuel. -/
def settle (move : β → α → Option α) (obstacles : List β) : Nat → α → Option α
  | 0, _ => none
  | fuel + 1, x =>
      let found := pass move obstacles (x, false)
      if found.2 then settle move obstacles fuel found.1 else some found.1

variable {move : β → α → Option α} {obstacles : List β}

theorem pass_cons_of_some {obstacle : β} {found : α × Bool} {x : α}
    (moved : move obstacle found.1 = some x) :
    pass move (obstacle :: obstacles) found = pass move obstacles (x, true) := by
  unfold pass
  rw [List.foldl_cons, moved]

theorem pass_cons_of_none {obstacle : β} {found : α × Bool}
    (stays : move obstacle found.1 = none) :
    pass move (obstacle :: obstacles) found = pass move obstacles found := by
  unfold pass
  rw [List.foldl_cons, stays]

/-- What a pass has noticed stays noticed. -/
theorem pass_noticed (found : α × Bool) (noticed : found.2 = true) :
    (pass move obstacles found).2 = true := by
  induction obstacles generalizing found with
  | nil => exact noticed
  | cons obstacle obstacles ih =>
      cases moved : move obstacle found.1 with
      | none =>
          rw [pass_cons_of_none moved]
          exact ih found noticed
      | some x =>
          rw [pass_cons_of_some moved]
          exact ih (x, true) rfl

/-- A pass that noticed nothing changed nothing. -/
theorem pass_quiet {found : α × Bool} (quiet : (pass move obstacles found).2 = false) :
    pass move obstacles found = found ∧ ∀ obstacle ∈ obstacles, move obstacle found.1 = none := by
  induction obstacles with
  | nil => exact ⟨rfl, fun _ mem => absurd mem List.not_mem_nil⟩
  | cons obstacle obstacles ih =>
      cases moved : move obstacle found.1 with
      | none =>
          rw [pass_cons_of_none moved] at quiet ⊢
          obtain ⟨same, none⟩ := ih quiet
          refine ⟨same, fun other mem => ?_⟩
          cases mem with
          | head => exact moved
          | tail _ later => exact none other later
      | some x =>
          rw [pass_cons_of_some moved, pass_noticed (x, true) rfl] at quiet
          exact absurd quiet.symm Bool.false_ne_true

/-- A value that no obstacle moves stays. -/
theorem pass_still {found : α × Bool}
    (still : ∀ obstacle ∈ obstacles, move obstacle found.1 = none) :
    pass move obstacles found = found := by
  induction obstacles with
  | nil => rfl
  | cons obstacle obstacles ih =>
      rw [pass_cons_of_none (still obstacle List.mem_cons_self)]
      exact ih fun other mem => still other (List.mem_cons_of_mem _ mem)

/-- What every move keeps, a pass keeps. -/
theorem pass_keeps {good : α → Prop}
    (keeps : ∀ obstacle ∈ obstacles, ∀ x y, good x → move obstacle x = some y → good y)
    {found : α × Bool} (first : good found.1) : good (pass move obstacles found).1 := by
  induction obstacles generalizing found with
  | nil => exact first
  | cons obstacle obstacles ih =>
      have later := fun other (mem : other ∈ obstacles) => keeps other (List.mem_cons_of_mem _ mem)
      cases moved : move obstacle found.1 with
      | none =>
          rw [pass_cons_of_none moved]
          exact ih later first
      | some x =>
          rw [pass_cons_of_some moved]
          exact ih later (keeps obstacle List.mem_cons_self _ _ first moved)

theorem settle_of_noticed {x : α} {fuel : Nat}
    (noticed : (pass move obstacles (x, false)).2 = true) :
    settle move obstacles (fuel + 1) x =
      settle move obstacles fuel (pass move obstacles (x, false)).1 :=
  if_pos noticed

theorem settle_of_quiet {x : α} {fuel : Nat}
    (quiet : (pass move obstacles (x, false)).2 = false) :
    settle move obstacles (fuel + 1) x = some x :=
  calc settle move obstacles (fuel + 1) x
      = some (pass move obstacles (x, false)).1 := if_neg (ne_true_of_eq_false quiet)
    _ = some x := congrArg (fun found => some found.1) (pass_quiet quiet).1

section Measure

variable {good : α → Prop} {measure : α → Nat}
  (keeps : ∀ obstacle ∈ obstacles, ∀ x y, good x → move obstacle x = some y →
    good y ∧ measure x < measure y)
include keeps

theorem pass_le (found : α × Bool) (first : good found.1) :
    measure found.1 ≤ measure (pass move obstacles found).1 := by
  have both := @pass_keeps α β move obstacles (fun y => good y ∧ measure found.1 ≤ measure y)
    (fun obstacle mem x y before moved =>
      have after := keeps obstacle mem x y before.1 moved
      ⟨after.1, before.2.trans (Nat.le_of_lt after.2)⟩)
    found ⟨first, Nat.le_refl _⟩
  exact both.2

/-- A pass that noticed a move has moved the value on. -/
theorem pass_lt {x : α} (first : good x) (noticed : (pass move obstacles (x, false)).2 = true) :
    measure x < measure (pass move obstacles (x, false)).1 := by
  induction obstacles with
  | nil => exact absurd noticed Bool.false_ne_true
  | cons obstacle obstacles ih =>
      have later := fun other (mem : other ∈ obstacles) => keeps other (List.mem_cons_of_mem _ mem)
      cases moved : move obstacle x with
      | none =>
          rw [pass_cons_of_none moved] at noticed ⊢
          exact ih later noticed
      | some y =>
          obtain ⟨next, more⟩ := keeps obstacle List.mem_cons_self x y first moved
          rw [pass_cons_of_some moved]
          exact more.trans_le (pass_le later (y, true) next)

/-- The loop ends, with a value that is good and that no obstacle moves. -/
theorem settle_ends {bound : Nat} (bounded : ∀ x, good x → measure x ≤ bound) (x : α)
    (first : good x) (fuel : Nat) (enough : bound < measure x + fuel) :
    ∃ y, settle move obstacles fuel x = some y ∧ good y ∧
      ∀ obstacle ∈ obstacles, move obstacle y = none := by
  induction fuel generalizing x with
  | zero => exact absurd (bounded x first) (Nat.not_le.mpr enough)
  | succ fuel ih =>
      have kept : good (pass move obstacles (x, false)).1 :=
        pass_keeps (fun obstacle mem x y before moved => (keeps obstacle mem x y before moved).1)
          first
      cases noticed : (pass move obstacles (x, false)).2 with
      | true =>
          have more := pass_lt keeps first noticed
          rw [settle_of_noticed noticed]
          exact ih _ kept (by omega)
      | false =>
          rw [settle_of_quiet noticed]
          exact ⟨x, rfl, first, (pass_quiet noticed).2⟩

end Measure

end WeaveC.Library.Settling
