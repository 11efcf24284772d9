import Mathlib.Logic.Function.Basic
import Mathlib.Tactic.Common

/-!
# Tables filled by probing

A key looks for its place along a sequence of slots of its own, and takes the
first that is free; a slot once taken keeps its key.  Whoever has passed a slot
need not look at it again, and no key has two places, whatever is put into the
table in between.
-/

namespace WeaveC.Library.Probing

variable {Slot Key : Type*} {free : Key} {seq : Key → Nat → Slot} {t t' t'' : Slot → Key}
  {k : Key} {n m : Nat}

/-- The first `n` slots of the key's sequence are taken by other keys. -/
def Passed (free : Key) (seq : Key → Nat → Slot) (t : Slot → Key) (k : Key) (n : Nat) : Prop :=
  ∀ i, i < n → t (seq k i) ≠ free ∧ t (seq k i) ≠ k

/-- What was taken stays. -/
def Grows (free : Key) (t t' : Slot → Key) : Prop := ∀ s, t s ≠ free → t' s = t s

/-- Each key lies where its sequence comes to it. -/
def Placed (free : Key) (seq : Key → Nat → Slot) (t : Slot → Key) : Prop :=
  ∀ s, t s ≠ free → ∃ n, seq (t s) n = s ∧ Passed free seq t (t s) n

theorem Grows.update [DecidableEq Slot] {slot : Slot} (room : t slot = free) (k : Key) :
    Grows free t (Function.update t slot k) := by
  intro s taken
  refine Function.update_of_ne ?_ k t
  rintro rfl
  exact taken room

theorem Passed.zero : Passed free seq t k 0 := fun i below => absurd below (Nat.not_lt_zero i)

theorem Passed.succ (passed : Passed free seq t k n) (taken : t (seq k n) ≠ free)
    (other : t (seq k n) ≠ k) : Passed free seq t k (n + 1) := by
  intro i below
  rcases Nat.lt_succ_iff_lt_or_eq.mp below with earlier | rfl
  · exact passed i earlier
  · exact ⟨taken, other⟩

theorem Passed.grows (passed : Passed free seq t k n) (grows : Grows free t t') :
    Passed free seq t' k n := by
  intro i below
  obtain ⟨taken, other⟩ := passed i below
  rw [grows _ taken]
  exact ⟨taken, other⟩

/-- Behind a free slot that the key has come to, its sequence holds it nowhere. -/
theorem Placed.absent (placed : Placed free seq t) (passed : Passed free seq t k n)
    (room : t (seq k n) = free) (key : k ≠ free) (s : Slot) : t s ≠ k := by
  rintro rfl
  obtain ⟨m, here, before⟩ := placed s key
  rcases Nat.lt_trichotomy m n with less | rfl | more
  · exact (passed m less).2 (congrArg t here)
  · rw [here] at room
    exact key room
  · exact (before n more).1 room

/-- A key put into the first free slot of its sequence. -/
theorem Placed.update [DecidableEq Slot] (placed : Placed free seq t)
    (passed : Passed free seq t k n) (room : t (seq k n) = free) :
    Placed free seq (Function.update t (seq k n) k) := by
  have grows : Grows free t (Function.update t (seq k n) k) := .update room k
  intro s taken
  by_cases here : s = seq k n
  · rw [here, Function.update_self]
    exact ⟨n, rfl, passed.grows grows⟩
  · rw [Function.update_of_ne here] at taken ⊢
    obtain ⟨m, there, before⟩ := placed s taken
    exact ⟨m, there, before.grows grows⟩

/-- A key that has passed every slot finds the table full of others. -/
theorem Passed.full (passed : Passed free seq t k n) (all : ∀ s, ∃ i, i < n ∧ seq k i = s)
    (s : Slot) : t s ≠ free ∧ t s ≠ k := by
  obtain ⟨i, below, rfl⟩ := all s
  exact passed i below

end WeaveC.Library.Probing
