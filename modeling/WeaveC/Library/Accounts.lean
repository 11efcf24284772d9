import Mathlib.Algebra.BigOperators.Group.Finset.Piecewise
import Mathlib.Algebra.BigOperators.Fin
import Mathlib.Data.Fintype.BigOperators
import Mathlib.Tactic.Abel

/-!
# What a counter lacks

Many parties move goods to and from a shared store and add to a shared counter
of what is in it, but not at the same moment.  What the counter lacks is then
what the parties still owe it.
-/

namespace WeaveC.Library

section Sums

variable {ι M : Type*} [DecidableEq ι] [AddCommMonoid M] {f : ι → M} {s : Finset ι} {i : ι}

/-- A sum of which one term changes. -/
theorem sum_update_add (mem : i ∈ s) (v : M) :
    ∑ j ∈ s, Function.update f i v j + f i = ∑ j ∈ s, f j + v := by
  rw [Finset.sum_update_of_mem mem, ← Finset.sum_sdiff (Finset.singleton_subset_iff.mpr mem),
    Finset.sum_singleton]
  abel

end Sums

/-- What is subtracted one by one is subtracted as a sum. -/
theorem foldl_sub_eq {ι G : Type*} [AddCommGroup G] (f : ι → G) (l : List ι) (start : G) :
    l.foldl (fun g i => g - f i) start + (l.map f).sum = start := by
  induction l generalizing start with
  | nil => exact add_zero start
  | cons i l inductionHypothesis =>
      rw [List.foldl_cons, List.map_cons, List.sum_cons, add_comm (f i), ← add_assoc,
        inductionHypothesis]
      exact sub_add_cancel start (f i)

variable {G T : Type*} [AddCommGroup G] [Fintype T] {lacking lacking' : G} {owed owed' : T → G}
  {t : T}

/-- What the counter lacks of what is held is what the parties still owe it. -/
def Reckoned (lacking : G) (owed : T → G) : Prop := lacking = ∑ t, owed t

namespace Reckoned

/-- One party moves goods, pays or comes to owe. -/
theorem step [DecidableEq T] (balanced : Reckoned lacking owed)
    (others : ∀ u, u ≠ t → owed' u = owed u)
    (moves : lacking' + owed t = lacking + owed' t) : Reckoned lacking' owed' := by
  have same : owed' = Function.update owed t (owed' t) := by
    funext u
    by_cases self : u = t
    · rw [self, Function.update_self]
    · rw [others u self, Function.update_of_ne self]
  have total := sum_update_add (f := owed) (Finset.mem_univ t) (owed' t)
  unfold Reckoned at balanced ⊢
  rw [← same, ← balanced, ← moves] at total
  exact (add_right_cancel total).symm

/-- When nobody owes, the counter lacks nothing. -/
theorem settled (balanced : Reckoned lacking owed) (nobody : ∀ t, owed t = 0) : lacking = 0 :=
  balanced.trans (Finset.sum_eq_zero fun t _ => nobody t)

end Reckoned

end WeaveC.Library
