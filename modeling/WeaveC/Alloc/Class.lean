import Mathlib.Data.Nat.Log
import Mathlib.Tactic.IntervalCases
import Mathlib.Tactic.Common
import Mathlib.Tactic.Ring

/-!
# Size classes

16, 32, ..., 128, then four classes for every doubling.  A class's slots fill
a region of `2 ^ shift` bytes from its start; the slot of an address is found
with a multiplication by a reciprocal instead of a division.
-/

namespace WeaveC.Alloc

def ClassCount : Nat := 100
def RegionCount : Nat := 160
def SmallClasses : Nat := 8
def MaxClassShift : Nat := 30

/-- `struct __weavec_rt_class`. -/
structure Class where
  size : Nat
  magic : Nat
  shift : Nat
  capacity : Nat
  deriving DecidableEq, Repr

/-- Class `index`'s slots are `m << k` bytes. -/
def classFactors (index : Nat) : Nat × Nat :=
  if index < SmallClasses then (index + 1, 4)
  else (5 + (index - SmallClasses) % 4, 5 + (index - SmallClasses) / 4)

/-- Normalizes so that `m` is odd; `m` is at most 8. -/
def normalize : Nat → Nat × Nat → Nat × Nat
  | 0, p => p
  | fuel + 1, (m, k) => if m % 2 = 0 ∧ 1 < m then normalize fuel (m / 2, k + 1) else (m, k)

/-- The entry `buildClasses` makes of class `index`. -/
def buildClass (shift index : Nat) : Class :=
  let p := normalize 3 (classFactors index)
  let size := p.1 <<< p.2
  { size
    magic := if p.1 = 1 then 0 else (2 ^ 32 + p.1 - 1) / p.1
    shift := p.2
    capacity := 2 ^ shift / size }

/-- How many classes `buildClasses` makes: none larger than a quarter of its
region. -/
def classes (shift : Nat) : Nat :=
  ((List.range ClassCount).takeWhile fun index =>
    (buildClass shift index).size ≤ 2 ^ (shift - 2)).length

/-- A spare region's entry until a class takes it. -/
def spareClass (shift : Nat) : Class :=
  { size := 2 ^ (shift - 1), magic := 0, shift, capacity := 0 }

/-- `classFor`: the class whose slots are the smallest strictly larger than
`size`. -/
def classFor (size : Nat) : Nat :=
  let need := (size + 1) % 2 ^ 64
  if need ≤ 128 then (need + 2 ^ 64 - 1) % 2 ^ 64 / 16 % 2 ^ 32
  else if 2 ^ MaxClassShift < need then ClassCount
  else
    let k := Nat.log2 (need - 1) - 2
    let m := (need - 1) >>> k + 1
    SmallClasses + 4 * (k - 5) + (m - 5)

/-- `powerClass`. -/
def powerClass (bytes : Nat) : Nat := classFor (bytes - 1)

/-- The smallest doubling of `bytes` above `size`, at most `2 ^ MaxClassShift`. -/
def doubled (size : Nat) : Nat → Nat → Nat
  | 0, bytes => bytes
  | fuel + 1, bytes =>
      if bytes ≤ size ∧ bytes < 2 ^ MaxClassShift then doubled size fuel (bytes <<< 1) else bytes

/-- The class `allocate` chooses: with an alignment, the smallest power-of-two
class above the size and at least the alignment, whose slots are aligned. -/
def requestClass (size alignment : Nat) : Nat :=
  if 16 < alignment then
    let bytes := doubled size 64 alignment
    if size < bytes then powerClass bytes else ClassCount
  else classFor size

/-- The slot index `slotOf` computes for an offset into a region. -/
def Class.slotAt (entry : Class) (offset : Nat) : Nat :=
  let units := offset >>> entry.shift
  if entry.magic = 0 then units else (units * entry.magic) >>> 32

/-! ## Their geometry -/

/-- What `buildClasses` makes sure of. -/
structure Class.Valid (shift : Nat) (entry : Class) : Prop where
  granule : 16 ∣ entry.size
  positive : 16 ≤ entry.size
  quarter : entry.size ≤ 2 ^ (shift - 2)
  capacity : entry.capacity = 2 ^ shift / entry.size
  factor : ∃ m ∈ [1, 3, 5, 7], entry.size = m * 2 ^ entry.shift ∧ 4 ≤ entry.shift ∧
    entry.magic = if m = 1 then 0 else (2 ^ 32 + m - 1) / m

instance (shift : Nat) (entry : Class) : Decidable (entry.Valid shift) :=
  decidable_of_iff
    (16 ∣ entry.size ∧ 16 ≤ entry.size ∧ entry.size ≤ 2 ^ (shift - 2) ∧
      entry.capacity = 2 ^ shift / entry.size ∧
      ∃ m ∈ [1, 3, 5, 7], entry.size = m * 2 ^ entry.shift ∧ 4 ≤ entry.shift ∧
        entry.magic = if m = 1 then 0 else (2 ^ 32 + m - 1) / m)
    ⟨fun ⟨a, b, c, d, e⟩ => ⟨a, b, c, d, e⟩, fun ⟨a, b, c, d, e⟩ => ⟨a, b, c, d, e⟩⟩

theorem classes_30 : classes 30 = 92 := by decide

theorem classes_31 : classes 31 = 96 := by decide

theorem classes_valid {shift : Nat} (width : shift = 30 ∨ shift = 31) {c : Nat}
    (made : c < classes shift) : (buildClass shift c).Valid shift := by
  have all (shift n : Nat) (every : ∀ c ∈ List.range n, (buildClass shift c).Valid shift)
      (c : Nat) (below : c < n) : (buildClass shift c).Valid shift :=
    every c (List.mem_range.mpr below)
  rcases width with rfl | rfl
  · rw [classes_30] at made
    exact all 30 92 (by decide +kernel) c made
  · rw [classes_31] at made
    exact all 31 96 (by decide +kernel) c made

theorem classes_lt {shift : Nat} (width : shift = 30 ∨ shift = 31) :
    classes shift < RegionCount := by
  rcases width with rfl | rfl
  · rw [classes_30]
    decide
  · rw [classes_31]
    decide

namespace Class.Valid

variable {shift : Nat} {entry : Class}

theorem capacity_mul_le (valid : entry.Valid shift) : entry.capacity * entry.size ≤ 2 ^ shift := by
  rw [valid.capacity]
  exact Nat.div_mul_le_self _ _

theorem capacity_le (valid : entry.Valid shift) (width : shift ≤ 31) :
    entry.capacity ≤ 2 ^ 27 := by
  rw [valid.capacity]
  calc 2 ^ shift / entry.size ≤ 2 ^ 31 / 16 :=
        Nat.div_le_div (Nat.pow_le_pow_right (by omega) width) valid.positive (by omega)
    _ = 2 ^ 27 := by decide

/-- The reciprocal's error stays below one slot. -/
theorem slotAt_eq (valid : entry.Valid shift) (width : shift ≤ 31) {offset : Nat}
    (inside : offset < 2 ^ shift) : entry.slotAt offset = offset / entry.size := by
  obtain ⟨m, odd, size, units, magic⟩ := valid.factor
  have bound : offset < 2 ^ 31 := inside.trans_le (Nat.pow_le_pow_right (by omega) width)
  have small : offset / 2 ^ entry.shift < 2 ^ 27 := by
    have : 2 ^ 4 ≤ 2 ^ entry.shift := Nat.pow_le_pow_right (by omega) units
    rw [Nat.div_lt_iff_lt_mul (by omega)]
    calc offset < 2 ^ 27 * 2 ^ 4 := by omega
      _ ≤ 2 ^ 27 * 2 ^ entry.shift := Nat.mul_le_mul_left _ this
  have divided : offset / entry.size = offset / 2 ^ entry.shift / m := by
    rw [size, Nat.div_div_eq_div_mul, Nat.mul_comm]
  rw [divided, slotAt, magic, Nat.shiftRight_eq_div_pow]
  generalize offset / 2 ^ entry.shift = n at small
  simp only [List.mem_cons, List.not_mem_nil, or_false] at odd
  rcases odd with rfl | rfl | rfl | rfl
  · simp
  all_goals
    simp only [Nat.shiftRight_eq_div_pow, Nat.reduceEqDiff, if_false, Nat.reducePow,
      Nat.reduceAdd, Nat.reduceSub, Nat.reduceDiv]
    omega

/-- An offset lies in the slot the division names, and in no other. -/
theorem slotAt_eq_iff (valid : entry.Valid shift) (width : shift ≤ 31) {offset : Nat}
    (inside : offset < 2 ^ shift) (slot : Nat) :
    entry.slotAt offset = slot ↔
      slot * entry.size ≤ offset ∧ offset < slot * entry.size + entry.size := by
  have positive : 0 < entry.size := by
    have := valid.positive
    omega
  rw [valid.slotAt_eq width inside, Nat.div_eq_iff positive]
  rw [Nat.add_comm]
  omega

end Class.Valid

/-! ## The class of a request -/

/-- The sizes above the small classes: `m << k` with `m` from 5 to 8. -/
theorem classFactors_large {k m : Nat} (k_ge : 5 ≤ k) (m_ge : 5 ≤ m) (m_le : m ≤ 8) :
    classFactors (SmallClasses + 4 * (k - 5) + (m - 5)) = (m, k) := by
  unfold classFactors SmallClasses
  rw [if_neg (by omega)]
  ext <;> simp only <;> omega

theorem normalize_mul (fuel : Nat) (p : Nat × Nat) :
    (normalize fuel p).1 * 2 ^ (normalize fuel p).2 = p.1 * 2 ^ p.2 := by
  induction fuel generalizing p with
  | zero => rfl
  | succ fuel inductionHypothesis =>
      obtain ⟨m, k⟩ := p
      unfold normalize
      split_ifs with even
      · rw [inductionHypothesis]
        simp only
        rw [Nat.pow_succ, ← Nat.mul_assoc, Nat.mul_right_comm, Nat.div_mul_cancel]
        omega
      · rfl

theorem buildClass_size (shift index : Nat) :
    (buildClass shift index).size = (classFactors index).1 * 2 ^ (classFactors index).2 := by
  rw [← normalize_mul 3]
  exact Nat.shiftLeft_eq _ _

/-- The class a request is given is strictly larger than it. -/
theorem classFor_fits {shift size : Nat} (bound : size < 2 ^ 64)
    (made : classFor size < ClassCount) : size < (buildClass shift (classFor size)).size := by
  rw [buildClass_size]
  by_cases wraps : size = 2 ^ 64 - 1
  · subst wraps
    exact absurd made (by decide)
  have need : (size + 1) % 2 ^ 64 = size + 1 := Nat.mod_eq_of_lt (by omega)
  unfold classFor at made ⊢
  simp only [need] at made ⊢
  split_ifs at made ⊢ with small large
  · have wrapped : (size + 1 + 2 ^ 64 - 1) % 2 ^ 64 / 16 % 2 ^ 32 = size / 16 := by omega
    rw [wrapped, classFactors, if_pos (by unfold SmallClasses; omega)]
    simp only
    omega
  · exact absurd made (Nat.lt_irrefl _)
  · simp only [Nat.add_sub_cancel] at made ⊢
    have positive : size ≠ 0 := by omega
    have low : 2 ^ Nat.log2 size ≤ size := Nat.log2_self_le positive
    have high : size < 2 ^ (Nat.log2 size + 1) := Nat.lt_log2_self
    have wide : 7 ≤ Nat.log2 size := (Nat.le_log2 positive).mpr (by omega)
    generalize Nat.log2 size = n at *
    obtain ⟨k, rfl⟩ : ∃ k, n = k + 2 := ⟨n - 2, by omega⟩
    rw [Nat.add_sub_cancel, Nat.shiftRight_eq_div_pow] at *
    have low' : 4 ≤ size / 2 ^ k := by
      rw [Nat.le_div_iff_mul_le (Nat.two_pow_pos k), ← show 2 ^ (k + 2) = 4 * 2 ^ k by ring]
      exact low
    have high' : size / 2 ^ k < 8 := by
      rw [Nat.div_lt_iff_lt_mul (Nat.two_pow_pos k), ← show 2 ^ (k + 2 + 1) = 8 * 2 ^ k by ring]
      exact high
    rw [classFactors_large (by omega) (by omega) (by omega)]
    have := Nat.lt_div_mul_add (a := size) (Nat.two_pow_pos k)
    rw [Nat.add_mul, Nat.one_mul]
    exact this

theorem doubled_lt {size fuel bytes : Nat} (bound : bytes < 2 ^ 64) :
    doubled size fuel bytes < 2 ^ 64 := by
  induction fuel generalizing bytes with
  | zero => exact bound
  | succ fuel inductionHypothesis =>
      unfold doubled
      split_ifs with small
      · refine inductionHypothesis ?_
        rw [Nat.shiftLeft_eq]
        have := small.2
        simp only [MaxClassShift] at this
        omega
      · exact bound

/-- The class a request with an alignment is given is larger than it too. -/
theorem requestClass_fits {shift size alignment : Nat} (bound : size < 2 ^ 64)
    (bound' : alignment < 2 ^ 64) (made : requestClass size alignment < ClassCount) :
    size < (buildClass shift (requestClass size alignment)).size := by
  unfold requestClass at made ⊢
  split_ifs at made ⊢ with aligned
  · simp only at made ⊢
    split_ifs at made ⊢ with larger
    · have bytes : doubled size 64 alignment < 2 ^ 64 := doubled_lt bound'
      have fits : doubled size 64 alignment - 1 <
          (buildClass shift (classFor (doubled size 64 alignment - 1))).size :=
        classFor_fits (by omega) made
      unfold powerClass
      omega
    · exact absurd made (Nat.lt_irrefl _)
  · exact classFor_fits bound made

end WeaveC.Alloc
