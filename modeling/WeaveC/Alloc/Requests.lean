import WeaveC.Alloc.Slots

/-!
# The class a request is served from

The class table grows with its index, so the class computed from a size is the
least that holds it; an aligned request's class is a power of two, and its
slots lie at multiples of it.
-/

namespace WeaveC.Alloc

/-! ## Sizes grow with the index -/

theorem buildClass_size_le {shift c c' : Nat} (below : c ≤ c') (made : c' < ClassCount) :
    (buildClass shift c).size ≤ (buildClass shift c').size := by
  have steps : ∀ i ∈ List.range (ClassCount - 1),
      (buildClass 0 i).size ≤ (buildClass 0 (i + 1)).size := by decide +kernel
  induction c', below using Nat.le_induction with
  | base => exact Nat.le_refl _
  | succ c' _ inductionHypothesis =>
    refine (inductionHypothesis (Nat.lt_of_succ_lt made)).trans ?_
    exact steps c' (List.mem_range.mpr (Nat.lt_sub_of_add_lt made))

/-- The class before the one a request is given does not hold it. -/
theorem buildClass_pred_le {shift size : Nat} (bound : size + 1 < 2 ^ 64)
    (some : 0 < classFor size) :
    (buildClass shift (classFor size - 1)).size ≤ size := by
  have need : (size + 1) % 2 ^ 64 = size + 1 := Nat.mod_eq_of_lt bound
  unfold classFor at some ⊢
  simp only [need] at some ⊢
  split_ifs at some ⊢ with small large
  · have wrapped : (size + 1 + 2 ^ 64 - 1) % 2 ^ 64 / 16 % 2 ^ 32 = size / 16 := by omega
    rw [wrapped] at some ⊢
    rw [buildClass_size, classFactors, if_pos (by unfold SmallClasses; omega)]
    simp only
    omega
  · have last : (buildClass shift (ClassCount - 1)).size = 2 ^ 30 := rfl
    rw [last]
    unfold MaxClassShift at large
    omega
  · simp only [Nat.add_sub_cancel] at some ⊢
    have positive : size ≠ 0 := by omega
    have low : 2 ^ Nat.log2 size ≤ size := Nat.log2_self_le positive
    have high : size < 2 ^ (Nat.log2 size + 1) := Nat.lt_log2_self
    have wide : 7 ≤ Nat.log2 size := (Nat.le_log2 positive).mpr (by omega)
    generalize Nat.log2 size = n at *
    obtain ⟨k, rfl⟩ : ∃ k, n = k + 2 := ⟨n - 2, by omega⟩
    rw [Nat.add_sub_cancel, Nat.shiftRight_eq_div_pow] at *
    have low' : 4 ≤ size / 2 ^ k := by
      rw [Nat.le_div_iff_mul_le (Nat.two_pow_pos k), ← show 2 ^ (k + 2) = 4 * 2 ^ k by ring]
      exact low
    have high' : size / 2 ^ k < 8 := by
      rw [Nat.div_lt_iff_lt_mul (Nat.two_pow_pos k), ← show 2 ^ (k + 2 + 1) = 8 * 2 ^ k by ring]
      exact high
    have under : size / 2 ^ k * 2 ^ k ≤ size := Nat.div_mul_le_self _ _
    generalize size / 2 ^ k = m at *
    -- the class before `m << k` is `(m - 1) << k`, or the last of the doubling before
    by_cases first : m = 4
    · subst first
      by_cases least : k = 5
      · subst least
        exact under
      · have before : SmallClasses + 4 * (k - 5) + (4 + 1 - 5) - 1 =
            SmallClasses + 4 * (k - 1 - 5) + (8 - 5) := by unfold SmallClasses; omega
        rw [before, buildClass_size, classFactors_large (by omega) (by omega) (by omega)]
        have double : 8 * 2 ^ (k - 1) = 4 * 2 ^ k := by
          obtain ⟨j, rfl⟩ : ∃ j, k = j + 1 := ⟨k - 1, by omega⟩
          rw [Nat.add_sub_cancel]
          ring
        exact double.trans_le under
    · have before : SmallClasses + 4 * (k - 5) + (m + 1 - 5) - 1 =
          SmallClasses + 4 * (k - 5) + (m - 5) := by omega
      rw [before, buildClass_size, classFactors_large (by omega) (by omega) (by omega)]
      exact under

theorem classFor_le {size : Nat} (bound : size + 1 < 2 ^ 64) : classFor size ≤ ClassCount := by
  have need : (size + 1) % 2 ^ 64 = size + 1 := Nat.mod_eq_of_lt bound
  unfold classFor
  simp only [need]
  split_ifs with small large
  · unfold ClassCount
    omega
  · exact Nat.le_refl _
  · simp only [Nat.add_sub_cancel]
    have positive : size ≠ 0 := by omega
    have shift : Nat.log2 size < 30 := by
      rw [Nat.log2_lt positive]
      unfold MaxClassShift at large
      omega
    have high : size < 2 ^ (Nat.log2 size + 1) := Nat.lt_log2_self
    have wide : 7 ≤ Nat.log2 size := (Nat.le_log2 positive).mpr (by omega)
    generalize Nat.log2 size = n at *
    obtain ⟨k, rfl⟩ : ∃ k, n = k + 2 := ⟨n - 2, by omega⟩
    rw [Nat.add_sub_cancel, Nat.shiftRight_eq_div_pow]
    have high' : size / 2 ^ k < 8 := by
      rw [Nat.div_lt_iff_lt_mul (Nat.two_pow_pos k), ← show 2 ^ (k + 2 + 1) = 8 * 2 ^ k by ring]
      exact high
    unfold SmallClasses ClassCount
    omega

/-- No class below the one computed holds the size. -/
theorem classFor_least {shift size c : Nat} (bound : size < 2 ^ 64) (made : c < ClassCount)
    (larger : size < (buildClass shift c).size) : classFor size ≤ c := by
  by_contra above
  have last : (buildClass shift c).size ≤ 2 ^ 30 :=
    @buildClass_size_le shift c (ClassCount - 1) (Nat.le_sub_one_of_lt made) (by decide)
  have inside : size + 1 < 2 ^ 64 := by omega
  have count := classFor_le inside
  have before : (buildClass shift (classFor size - 1)).size ≤ size :=
    buildClass_pred_le inside (Nat.zero_lt_of_lt (Nat.lt_of_not_le above))
  have grows : (buildClass shift c).size ≤ (buildClass shift (classFor size - 1)).size :=
    buildClass_size_le (by omega) (by unfold ClassCount at *; omega)
  exact Nat.lt_irrefl _ (larger.trans_le (grows.trans before))

/-! ## Aligned requests -/

/-- The power-of-two class of exactly `bytes`. -/
theorem powerClass_size {shift n : Nat} (least : 5 ≤ n) (most : n ≤ 30) :
    (buildClass shift (powerClass (2 ^ n))).size = 2 ^ n := by
  have all : ∀ n ∈ List.range 31, 5 ≤ n → (buildClass 0 (powerClass (2 ^ n))).size = 2 ^ n := by
    decide +kernel
  exact all n (List.mem_range.mpr (Nat.lt_succ_of_le most)) least

theorem powerClass_large {n : Nat} (large : 31 ≤ n) (word : n < 64) :
    powerClass (2 ^ n) = ClassCount := by
  have all : ∀ n ∈ List.range 64, 31 ≤ n → powerClass (2 ^ n) = ClassCount := by decide +kernel
  exact all n (List.mem_range.mpr word) large

theorem doubled_pow {size n : Nat} (fuel : Nat) (word : n < 64) :
    ∃ m, n ≤ m ∧ m < 64 ∧ doubled size fuel (2 ^ n) = 2 ^ m := by
  induction fuel generalizing n with
  | zero => exact ⟨n, Nat.le_refl _, word, rfl⟩
  | succ fuel inductionHypothesis =>
    unfold doubled
    split_ifs with small
    · have under : n < MaxClassShift := (Nat.pow_lt_pow_iff_right (by decide)).mp small.2
      unfold MaxClassShift at under
      obtain ⟨m, le, lt, eq⟩ := inductionHypothesis (show n + 1 < 64 by omega)
      refine ⟨m, (Nat.le_succ n).trans le, lt, ?_⟩
      rw [← eq, Nat.shiftLeft_eq, Nat.pow_one, ← Nat.pow_succ]
    · exact ⟨n, Nat.le_refl _, word, rfl⟩

/-- An alignment above a granule that `allocate` takes: a power of two. -/
theorem pow_of_alignment {alignment : Nat} (above : 16 < alignment) (bound : alignment < 2 ^ 64)
    (power : alignment &&& (alignment - 1) = 0) :
    ∃ n, 5 ≤ n ∧ n < 64 ∧ alignment = 2 ^ n := by
  obtain ⟨n, rfl⟩ : alignment.isPowerOfTwo :=
    (Nat.and_sub_one_eq_zero_iff_isPowerOfTwo (by omega)).mp power
  refine ⟨n, ?_, (Nat.pow_lt_pow_iff_right (by decide)).mp bound, rfl⟩
  by_contra small
  have : 2 ^ n ≤ 2 ^ 4 := Nat.pow_le_pow_right (by decide) (by omega)
  omega

/-- An aligned request's class has slots of a power of two, at least its
alignment. -/
theorem requestClass_pow {shift size alignment : Nat} (above : 16 < alignment)
    (bound : alignment < 2 ^ 64) (power : alignment &&& (alignment - 1) = 0)
    (made : requestClass size alignment < ClassCount) :
    ∃ m, (buildClass shift (requestClass size alignment)).size = 2 ^ m ∧ alignment ∣ 2 ^ m := by
  obtain ⟨n, least, word, rfl⟩ := pow_of_alignment above bound power
  obtain ⟨m, le, lt, eq⟩ := @doubled_pow size n 64 word
  unfold requestClass at made ⊢
  rw [if_pos above, eq] at made ⊢
  simp only at made ⊢
  split_ifs at made ⊢ with larger
  · have most : m ≤ 30 := by
      by_contra large
      rw [powerClass_large (Nat.lt_of_not_le large) lt] at made
      exact Nat.lt_irrefl _ made
    exact ⟨m, powerClass_size (least.trans le) most, Nat.pow_dvd_pow 2 le⟩
  · exact absurd made (Nat.lt_irrefl _)

namespace Arena

variable (A : Arena)

theorem dvd_regionStart {m : Nat} (small : m ≤ A.shift) (r : Nat) : 2 ^ m ∣ A.regionStart r := by
  have divides : 2 ^ m ∣ 2 ^ A.shift := Nat.pow_dvd_pow 2 small
  unfold regionStart
  rw [Nat.shiftLeft_eq]
  exact Nat.dvd_add (divides.trans A.aligned) (Dvd.dvd.mul_left divides r)

theorem shift_le : A.shift ≤ 31 := by
  rcases A.width with eq | eq
  · rw [eq]
    decide
  · exact eq.le

theorem le_shift : 30 ≤ A.shift := by
  rcases A.width with eq | eq
  · exact eq.ge
  · rw [eq]
    decide

theorem entry_valid {c : Nat} (made : c < A.classCount) : (A.entry c).Valid A.shift :=
  classes_valid A.width made

/-- A slot of a request's class lies at a multiple of its alignment. -/
theorem alignment_dvd_slot {size alignment : Nat} (some : alignment ≠ 0)
    (bound : alignment < 2 ^ 64) (power : alignment &&& (alignment - 1) = 0)
    (made : requestClass size alignment < A.classCount) (r i : Nat) :
    alignment ∣ A.regionStart r + i * (A.entry (requestClass size alignment)).size := by
  have valid := A.entry_valid made
  have count : requestClass size alignment < ClassCount := made.trans (classCount_lt A).2
  by_cases above : 16 < alignment
  · obtain ⟨m, eq, divides⟩ := @requestClass_pow A.shift size alignment above bound power count
    have quarter : (A.entry (requestClass size alignment)).size ≤ 2 ^ (A.shift - 2) :=
      valid.quarter
    have size_eq : (A.entry (requestClass size alignment)).size = 2 ^ m := eq
    rw [size_eq] at quarter ⊢
    have small : m ≤ A.shift - 2 := (Nat.pow_le_pow_iff_right (by decide)).mp quarter
    refine divides.trans (Nat.dvd_add (A.dvd_regionStart (by omega) r) ?_)
    exact Nat.dvd_mul_left _ _
  · obtain ⟨n, rfl⟩ : alignment.isPowerOfTwo :=
      (Nat.and_sub_one_eq_zero_iff_isPowerOfTwo some).mp power
    have small : n ≤ 4 := (Nat.pow_le_pow_iff_right (by decide : 1 < 2)).mp (Nat.le_of_not_lt above)
    have wide := A.le_shift
    refine (Nat.pow_dvd_pow 2 small).trans (Nat.dvd_add (A.dvd_regionStart (by omega) r) ?_)
    exact Dvd.dvd.mul_left valid.granule i

end Arena

/-! ## Size classes -/

/-- The reserved but untaken regions' entry puts every address in its first
slot. -/
theorem spareClass_slotAt {shift offset : Nat} (inside : offset < 2 ^ shift) :
    (spareClass shift).slotAt offset = 0 := by
  unfold Class.slotAt spareClass
  rw [if_pos rfl, Nat.shiftRight_eq_div_pow, Nat.div_eq_of_lt inside]

/-- The class of a size is the least of the table that holds it, aligned
requests get aligned slots, what no class holds becomes a huge block, and the
slot of an offset is its quotient by the slots' size; a region no class has
taken is one slot. -/
theorem size_classes (A : Arena) :
    (∀ size, size < 2 ^ 64 → classFor size < A.classCount →
      size < (A.entry (classFor size)).size ∧
        ∀ c < A.classCount, size < (A.entry c).size →
          (A.entry (classFor size)).size ≤ (A.entry c).size) ∧
    (∀ size alignment, size < 2 ^ 64 → alignment < 2 ^ 64 →
      requestClass size alignment < A.classCount →
        size < (A.entry (requestClass size alignment)).size ∧
          (alignment ≠ 0 → alignment &&& (alignment - 1) = 0 → ∀ r i,
            alignment ∣ A.regionStart r + i * (A.entry (requestClass size alignment)).size)) ∧
    (∀ size, size < 2 ^ 64 →
      (classFor size < A.classCount ↔ ∃ c < A.classCount, size < (A.entry c).size)) ∧
    (∀ (th : Thread) size alignment purpose mapped,
      ¬ (16 < alignment ∧ alignment &&& (alignment - 1) ≠ 0) →
        A.classCount ≤ requestClass size alignment →
          (th.allocate A size alignment purpose mapped).point = .huge size alignment purpose) ∧
    (∀ c < A.classCount, ∀ offset < 2 ^ A.shift,
      (A.entry c).slotAt offset = offset / (A.entry c).size) ∧
    ∀ offset < 2 ^ A.shift, (spareClass A.shift).slotAt offset = 0 := by
  have counts := (classCount_lt A).2
  refine ⟨?_, ?_, ?_, ?_, ?_, ?_⟩
  · intro size bound made
    refine ⟨classFor_fits bound (made.trans counts), ?_⟩
    intro c below larger
    exact buildClass_size_le (classFor_least bound (below.trans counts) larger) (below.trans counts)
  · intro size alignment bound bound' made
    refine ⟨requestClass_fits bound bound' (made.trans counts), ?_⟩
    intro some power r i
    exact A.alignment_dvd_slot some bound' power made r i
  · intro size bound
    constructor
    · intro made
      exact ⟨_, made, classFor_fits bound (made.trans counts)⟩
    · rintro ⟨c, below, larger⟩
      exact (classFor_least bound (below.trans counts) larger).trans_lt below
  · intro th size alignment purpose mapped taken none
    unfold Thread.allocate
    rw [if_neg taken, if_neg (Nat.not_lt.mpr none)]
    rfl
  · intro c made offset inside
    exact (A.entry_valid made).slotAt_eq A.shift_le inside
  · intro offset inside
    exact spareClass_slotAt inside

/-- The second half of an untaken region of 2 GiB. -/
theorem spareClass_slotAt_half : ¬ ∀ shift, shift = 30 ∨ shift = 31 → ∀ offset < 2 ^ shift,
    (spareClass shift).slotAt offset = offset / (spareClass shift).size := by
  intro exact_quotient
  have half := exact_quotient 31 (.inr rfl) (2 ^ 30) (by decide)
  rw [spareClass_slotAt (by decide)] at half
  exact absurd half (by decide)

end WeaveC.Alloc
