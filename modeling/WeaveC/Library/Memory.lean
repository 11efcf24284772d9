import Mathlib.Algebra.Notation.Defs
import Mathlib.Tactic.Common

/-!
# Ranges of memory

A memory holds a value at every address.  A range of it is set to zero, or a
range's values are copied to another.
-/

namespace WeaveC.Library

variable {α : Type*} {memory : Nat → α} {start n a : Nat}

/-- The address is one of the `n` from `start` on. -/
def InRange (start n a : Nat) : Prop := start ≤ a ∧ a < start + n

instance : Decidable (InRange start n a) := inferInstanceAs (Decidable (_ ∧ _))

/-- The memory with zero in the range. -/
def zeroRange [Zero α] (memory : Nat → α) (start n : Nat) : Nat → α :=
  fun a => if InRange start n a then 0 else memory a

/-- The memory with the `n` values from `source` on also at `target`. -/
def copyRange (memory : Nat → α) (target source n : Nat) : Nat → α :=
  fun a => if InRange target n a then memory (source + (a - target)) else memory a

/-- Every value in the range is zero. -/
def ZeroIn [Zero α] (memory : Nat → α) (start n : Nat) : Prop :=
  ∀ a, InRange start n a → memory a = 0

theorem zeroRange_of_not_mem [Zero α] (out : ¬ InRange start n a) :
    zeroRange memory start n a = memory a :=
  if_neg out

theorem zeroIn_zeroRange [Zero α] (memory : Nat → α) (start n : Nat) :
    ZeroIn (zeroRange memory start n) start n :=
  fun _ inside => if_pos inside

theorem copyRange_of_not_mem {target source : Nat} (out : ¬ InRange target n a) :
    copyRange memory target source n a = memory a :=
  if_neg out

theorem copyRange_add {target source i : Nat} (inside : i < n) :
    copyRange memory target source n (target + i) = memory (source + i) := by
  have mem : InRange target n (target + i) :=
    ⟨Nat.le_add_right _ _, Nat.add_lt_add_left inside target⟩
  unfold copyRange
  rw [if_pos mem, Nat.add_sub_cancel_left]

/-! ## The values of a range -/

/-- The `n` values from `start` on. -/
def valuesAt (memory : Nat → α) (start n : Nat) : List α :=
  (List.range n).map fun i => memory (start + i)

/-- The first `n` of some values, with zeros after them where there are fewer. -/
def resized [Zero α] (values : List α) (n : Nat) : List α :=
  values.take n ++ List.replicate (n - values.length) 0

@[simp] theorem length_valuesAt (memory : Nat → α) (start n : Nat) :
    (valuesAt memory start n).length = n := by
  unfold valuesAt
  rw [List.length_map, List.length_range]

theorem getElem?_valuesAt {i : Nat} (inside : i < n) :
    (valuesAt memory start n)[i]? = some (memory (start + i)) := by
  unfold valuesAt
  rw [List.getElem?_map, List.getElem?_range inside]
  rfl

@[simp] theorem length_resized [Zero α] (values : List α) (n : Nat) :
    (resized values n).length = n := by
  unfold resized
  rw [List.length_append, List.length_take, List.length_replicate]
  omega

theorem getElem?_resized [Zero α] {values : List α} {i : Nat} (inside : i < n) :
    (resized values n)[i]? = some ((values[i]?).getD 0) := by
  unfold resized
  by_cases old : i < values.length
  · rw [List.getElem?_append_left (by rw [List.length_take]; omega),
      List.getElem?_take_of_lt inside, List.getElem?_eq_getElem old]
    rfl
  · rw [List.getElem?_append_right (by rw [List.length_take]; omega), List.length_take,
      List.getElem?_replicate_of_lt (by omega), List.getElem?_eq_none (Nat.not_lt.mp old)]
    rfl

/-- Memory holds what is said of each of its values. -/
theorem valuesAt_eq {values : List α} (length : values.length = n)
    (each : ∀ i < n, values[i]? = some (memory (start + i))) : valuesAt memory start n = values := by
  refine List.ext_getElem? fun i => ?_
  by_cases inside : i < n
  · rw [getElem?_valuesAt inside, each i inside]
  · rw [List.getElem?_eq_none (by rw [length_valuesAt]; omega),
      List.getElem?_eq_none (by omega)]

theorem valuesAt_congr {memory' : Nat → α}
    (same : ∀ a, InRange start n a → memory' a = memory a) :
    valuesAt memory' start n = valuesAt memory start n := by
  refine valuesAt_eq (length_valuesAt _ _ _) fun i inside => ?_
  rw [getElem?_valuesAt inside, same]
  exact ⟨Nat.le_add_right _ _, Nat.add_lt_add_left inside start⟩

theorem valuesAt_of_zeroIn [Zero α] (zero : ZeroIn memory start n) :
    valuesAt memory start n = List.replicate n 0 := by
  refine valuesAt_eq (List.length_replicate ..) fun i inside => ?_
  rw [List.getElem?_replicate_of_lt inside, zero]
  exact ⟨Nat.le_add_right _ _, Nat.add_lt_add_left inside start⟩

/-- A store of one value. -/
theorem valuesAt_update {i : Nat} {v : α} (inside : i < n) :
    valuesAt (Function.update memory (start + i) v) start n =
      (valuesAt memory start n).set i v := by
  refine valuesAt_eq (by rw [List.length_set, length_valuesAt]) fun j below => ?_
  by_cases same : i = j
  · subst same
    rw [List.getElem?_set_self (by rw [length_valuesAt]; exact inside), Function.update_self]
  · rw [List.getElem?_set_ne same, getElem?_valuesAt below,
      Function.update_of_ne (by omega)]

/-- Zeros set behind the first `n` values. -/
theorem valuesAt_zeroRange [Zero α] {size : Nat} :
    valuesAt (if n < size then zeroRange memory (start + n) (size - n) else memory) start size =
      resized (valuesAt memory start n) size := by
  refine valuesAt_eq (length_resized _ _) fun i inside => ?_
  rw [getElem?_resized inside]
  by_cases old : i < n
  · rw [getElem?_valuesAt old]
    split
    · rw [zeroRange_of_not_mem (by unfold InRange; omega)]
      rfl
    · rfl
  · rw [List.getElem?_eq_none (by rw [length_valuesAt]; omega), if_pos (by omega),
      zeroIn_zeroRange memory (start + n) (size - n) (start + i) ⟨by omega, by omega⟩]
    rfl

/-- Values copied to zeros. -/
theorem valuesAt_copyRange [Zero α] {target size : Nat} (zero : ZeroIn memory target size) :
    valuesAt (copyRange memory target start (if n < size then n else size)) target size =
      resized (valuesAt memory start n) size := by
  refine valuesAt_eq (length_resized _ _) fun i inside => ?_
  rw [getElem?_resized inside]
  by_cases old : i < n
  · rw [getElem?_valuesAt old, copyRange_add (by split <;> omega)]
    rfl
  · rw [List.getElem?_eq_none (by rw [length_valuesAt]; omega), if_pos (by omega),
      copyRange_of_not_mem (by unfold InRange; omega), zero (target + i) ⟨by omega, by omega⟩]
    rfl

end WeaveC.Library
