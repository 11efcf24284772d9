import Mathlib.Data.Nat.Bitwise
import Mathlib.Logic.Function.Basic

/-!
# Little-endian loads

A memory is a function from addresses to bytes.  A load of `n` bytes is the
number whose base-256 digits they are.  Tests of several bytes at once (is the
sign bit of one of them set?) become masks of the loaded number; the lemmas
below turn each mask back into a statement about single bytes.
-/

namespace WeaveC.Library

/-- The `n` bytes from `i` on, the first one lowest. -/
def loadLE (memory : Nat → UInt8) (i : Nat) : Nat → Nat
  | 0 => 0
  | n + 1 => (memory i).toNat + 256 * loadLE memory (i + 1) n

/-- The number whose `n` bytes are all `0x80`. -/
def signBits : Nat → Nat
  | 0 => 0
  | n + 1 => 0x80 + 256 * signBits n

@[simp] theorem signBits_one : signBits 1 = 0x80 := rfl

@[simp] theorem signBits_two : signBits 2 = 0x8080 := rfl

@[simp] theorem signBits_eight : signBits 8 = 0x8080808080808080 := rfl

@[simp] theorem loadLE_zero (memory : Nat → UInt8) (i : Nat) : loadLE memory i 0 = 0 := rfl

theorem loadLE_lt (memory : Nat → UInt8) (i n : Nat) : loadLE memory i n < 256 ^ n := by
  induction n generalizing i with
  | zero => simp
  | succ n ih =>
    have first := (memory i).toNat_lt
    have rest := ih (i + 1)
    simp only [loadLE, Nat.pow_succ]
    omega

/-- The low bytes of a load are a shorter load. -/
theorem loadLE_mod (memory : Nat → UInt8) (i : Nat) {k n : Nat} (short : k ≤ n) :
    loadLE memory i n % 256 ^ k = loadLE memory i k := by
  induction k generalizing i n with
  | zero => simp [Nat.mod_one]
  | succ k ih =>
    obtain ⟨n, rfl⟩ : ∃ m, n = m + 1 := ⟨n - 1, by omega⟩
    have first := (memory i).toNat_lt
    have rest := ih (i + 1) (n := n) (by omega)
    simp only [loadLE, Nat.pow_succ, Nat.mul_comm (256 ^ k) 256]
    rw [Nat.mod_mul, Nat.add_mul_mod_self_left, Nat.mod_eq_of_lt first,
      Nat.add_mul_div_left _ _ (by decide), Nat.div_eq_of_lt first, Nat.zero_add, rest]

/-- The high bytes of a load are the load of what follows. -/
theorem loadLE_div (memory : Nat → UInt8) (i : Nat) {k n : Nat} (short : k ≤ n) :
    loadLE memory i n / 256 ^ k = loadLE memory (i + k) (n - k) := by
  induction k generalizing i n with
  | zero => simp
  | succ k ih =>
    obtain ⟨n, rfl⟩ : ∃ m, n = m + 1 := ⟨n - 1, by omega⟩
    have first := (memory i).toNat_lt
    have rest := ih (i + 1) (n := n) (by omega)
    simp only [loadLE, Nat.pow_succ, Nat.mul_comm (256 ^ k) 256]
    rw [← Nat.div_div_eq_div_mul, Nat.add_mul_div_left _ _ (by decide),
      Nat.div_eq_of_lt first, Nat.zero_add, rest]
    congr 1 <;> omega

theorem pow_256 (k : Nat) : 256 ^ k = 2 ^ (8 * k) := by
  rw [Nat.pow_mul]

/-- Byte `k` of a load, as a shift and a truncation read it. -/
theorem loadLE_byte (memory : Nat → UInt8) (i : Nat) {k n : Nat} (inside : k < n) :
    UInt8.ofNat (loadLE memory i n >>> (8 * k)) = memory (i + k) := by
  rw [Nat.shiftRight_eq_div_pow, ← pow_256, loadLE_div memory i (by omega)]
  obtain ⟨m, found⟩ : ∃ m, n - k = m + 1 := ⟨n - k - 1, by omega⟩
  rw [found]
  apply UInt8.toNat_inj.mp
  have byte := (memory (i + k)).toNat_lt
  simp only [loadLE, UInt8.toNat_ofNat', Nat.add_mul_mod_self_left]
  omega

/-- Masks act digit by digit. -/
theorem and_digits {a b : Nat} (x y : Nat) (small : a < 256) (small' : b < 256) :
    (a + 256 * x) &&& (b + 256 * y) = (a &&& b) + 256 * (x &&& y) := by
  apply Nat.eq_of_testBit_eq
  intro j
  have digit : (a &&& b) < 2 ^ 8 := Nat.and_lt_two_pow a small'
  rw [Nat.testBit_and, Nat.add_comm a, Nat.add_comm b, Nat.add_comm (a &&& b),
    show 256 = 2 ^ 8 from rfl, Nat.testBit_two_pow_mul_add _ small,
    Nat.testBit_two_pow_mul_add _ small', Nat.testBit_two_pow_mul_add _ digit]
  split <;> simp

theorem and_sign {v : Nat} (byte : v < 256) : v &&& 0x80 = 0 ↔ v < 0x80 := by
  rw [show 0x80 = 2 ^ 7 from rfl, Nat.and_two_pow, Nat.testBit_eq_decide_div_mod_eq,
    Nat.mul_eq_zero, Bool.toNat_eq_zero, decide_eq_false_iff_not]
  omega

/-- One mask asks for the sign bit of each of the first bytes at once. -/
theorem loadLE_and_signBits (memory : Nat → UInt8) (i k n : Nat) :
    loadLE memory i k &&& signBits n = 0 ↔
      ∀ j, j < k → j < n → (memory (i + j)).toNat < 0x80 := by
  induction k generalizing i n with
  | zero => simp
  | succ k ih =>
    cases n with
    | zero => simp [signBits]
    | succ n =>
      have first := (memory i).toNat_lt
      rw [loadLE, signBits, and_digits _ _ first (by decide), Nat.add_eq_zero_iff,
        and_sign first, Nat.mul_eq_zero, ih]
      constructor
      · rintro ⟨head, rest⟩ j below below'
        cases j with
        | zero => exact head
        | succ j =>
          have := rest.resolve_left (by decide) j (by omega) (by omega)
          rwa [Nat.add_assoc, Nat.add_comm 1 j] at this
      · intro all
        refine ⟨all 0 (by omega) (by omega), .inr ?_⟩
        intro j below below'
        have := all (j + 1) (by omega) (by omega)
        rwa [← Nat.add_assoc, Nat.add_right_comm] at this

/-- The low `k` bytes of a wider load, masked. -/
theorem loadLE_low_and_signBits (memory : Nat → UInt8) (i : Nat) {k n : Nat} (short : k ≤ n) :
    (loadLE memory i n &&& (2 ^ (8 * k) - 1)) &&& signBits n = 0 ↔
      ∀ j, j < k → (memory (i + j)).toNat < 0x80 := by
  rw [Nat.and_two_pow_sub_one_eq_mod, ← pow_256, loadLE_mod memory i short,
    loadLE_and_signBits]
  constructor
  · intro all j below
    exact all j below (by omega)
  · intro all j below _
    exact all j below

/-! ## A zero byte of a word -/

/-- The number whose `n` bytes are all 1. -/
def ones : Nat → Nat
  | 0 => 0
  | n + 1 => 1 + 256 * ones n

@[simp] theorem ones_eight : ones 8 = 0x0101010101010101 := rfl

theorem ones_lt (n : Nat) : ones n < 256 ^ n := by
  induction n with
  | zero => decide
  | succ n ih =>
    rw [ones, Nat.pow_succ]
    omega

/-- A byte is zero when taking 1 from it sets its sign bit, which it had not. -/
theorem lowered_and_sign {b : Nat} (byte : b < 256) :
    (b - 1) &&& (255 - b) &&& 0x80 = 0 := by
  rw [Nat.and_assoc, Nat.and_comm, Nat.and_assoc]
  by_cases low : b - 1 < 0x80
  · rw [Nat.and_comm 0x80, (and_sign (show b - 1 < 256 by omega)).mpr low, Nat.and_zero]
  · have upper : 255 - b < 0x80 := by omega
    rw [← Nat.and_assoc, (and_sign (show 255 - b < 256 by omega)).mpr upper, Nat.zero_and]

/-- The test of a whole word for a zero byte. -/
theorem loadLE_zeroByte (memory : Nat → UInt8) (i n : Nat) :
    (loadLE memory i n + (256 ^ n - ones n)) % 256 ^ n &&& (256 ^ n - 1 - loadLE memory i n) &&&
      signBits n = 0 ↔ ∀ j, j < n → memory (i + j) ≠ 0 := by
  induction n generalizing i with
  | zero => simp [signBits]
  | succ n ih =>
    have first := (memory i).toNat_lt
    have rest := loadLE_lt memory (i + 1) n
    have fewer := ones_lt n
    have step := ih (i + 1)
    simp only [loadLE, ones, signBits, Nat.pow_succ, Nat.mul_comm _ 256] at *
    generalize loadLE memory (i + 1) n = w at *
    generalize 256 ^ n = p at *
    generalize ones n = o at *
    rw [show 256 * p - 1 - ((memory i).toNat + 256 * w) =
      (255 - (memory i).toNat) + 256 * (p - 1 - w) by omega, Nat.mod_mul]
    by_cases zero : (memory i).toNat = 0
    · -- taking 1 from it borrows, and leaves 255
      have here : memory i = 0 := UInt8.toNat_inj.mp zero
      rw [zero, show (0 + 256 * w + (256 * p - (1 + 256 * o))) =
        255 + 256 * (w + (p - o - 1)) by omega, Nat.add_mul_mod_self_left,
        and_digits _ _ (by decide) (by decide), and_digits _ _ (by decide) (by decide)]
      constructor
      · intro none
        exact absurd (Nat.add_eq_zero_iff.mp none).1 (by decide)
      · intro all
        exact absurd here (all 0 (by omega))
    · have here : memory i ≠ 0 := fun same => zero (by rw [same]; rfl)
      rw [show (memory i).toNat + 256 * w + (256 * p - (1 + 256 * o)) =
        ((memory i).toNat - 1) + 256 * (w + (p - o)) by omega, Nat.add_mul_mod_self_left,
        Nat.mod_eq_of_lt (show (memory i).toNat - 1 < 256 by omega),
        Nat.add_mul_div_left _ _ (by decide),
        Nat.div_eq_of_lt (show (memory i).toNat - 1 < 256 by omega), Nat.zero_add,
        and_digits _ _ (by omega) (by omega),
        and_digits _ _ (Nat.lt_of_le_of_lt Nat.and_le_left (by omega)) (by decide),
        lowered_and_sign first, Nat.zero_add, Nat.mul_eq_zero, step]
      constructor
      · rintro rest j below
        cases j with
        | zero => exact here
        | succ j =>
          have := rest.resolve_left (by decide) j (by omega)
          rwa [Nat.add_assoc, Nat.add_comm 1 j] at this
      · intro all
        refine .inr fun j below => ?_
        have := all (j + 1) (by omega)
        rwa [← Nat.add_assoc, Nat.add_right_comm] at this

/-! ## Stores -/

/-- The stores of a word's bytes, the lowest first. -/
def storeLE (i value n : Nat) : List (Nat × UInt8) :=
  (List.range n).map fun k => (i + k, UInt8.ofNat (value >>> (8 * k)))

/-- A memory after stores. -/
def written (memory : Nat → UInt8) (stores : List (Nat × UInt8)) : Nat → UInt8 :=
  stores.foldl (fun memory store => Function.update memory store.1 store.2) memory

theorem written_of_forall_ne {memory : Nat → UInt8} {stores : List (Nat × UInt8)} {a : Nat}
    (other : ∀ store ∈ stores, store.1 ≠ a) : written memory stores a = memory a := by
  induction stores generalizing memory with
  | nil => rfl
  | cons store stores ih =>
    have rest : written (Function.update memory store.1 store.2) stores a =
        Function.update memory store.1 store.2 a :=
      ih fun s mem => other s (List.mem_cons_of_mem store mem)
    exact rest.trans (Function.update_of_ne (other store List.mem_cons_self).symm _ _)

/-- Stores of one value leave it wherever they go. -/
theorem written_of_mem {memory : Nat → UInt8} {stores : List (Nat × UInt8)} {a : Nat} {v : UInt8}
    (all : ∀ store ∈ stores, store.2 = v) (mem : ∃ store ∈ stores, store.1 = a) :
    written memory stores a = v := by
  induction stores generalizing memory with
  | nil =>
    obtain ⟨store, mem, -⟩ := mem
    cases mem
  | cons store stores ih =>
    have later : ∀ s ∈ stores, s.2 = v := fun s mem => all s (List.mem_cons_of_mem store mem)
    by_cases again : ∃ s ∈ stores, s.1 = a
    · exact ih later again
    · have kept : written (Function.update memory store.1 store.2) stores a =
          Function.update memory store.1 store.2 a :=
        written_of_forall_ne fun s mem same => again ⟨s, mem, same⟩
      obtain ⟨s, mem, rfl⟩ := mem
      obtain rfl : s = store := (List.mem_cons.mp mem).resolve_right fun mem => again ⟨s, mem, rfl⟩
      refine kept.trans ?_
      rw [Function.update_self]
      exact all s List.mem_cons_self

/-- Each byte of a word of ones times a byte is that byte. -/
theorem ones_mul_byte (v : UInt8) {k n : Nat} (inside : k < n) :
    UInt8.ofNat ((ones n * v.toNat) >>> (8 * k)) = v := by
  have byte := v.toNat_lt
  induction n generalizing k with
  | zero => exact absurd inside (Nat.not_lt_zero k)
  | succ n ih =>
    have split : ones (n + 1) * v.toNat = v.toNat + 256 * (ones n * v.toNat) := by
      rw [ones, Nat.add_mul, Nat.one_mul, Nat.mul_assoc]
    rw [split, Nat.shiftRight_eq_div_pow, ← pow_256]
    cases k with
    | zero =>
      rw [Nat.pow_zero, Nat.div_one]
      refine UInt8.toNat_inj.mp ?_
      rw [UInt8.toNat_ofNat']
      omega
    | succ k =>
      rw [Nat.pow_succ, Nat.mul_comm (256 ^ k), ← Nat.div_div_eq_div_mul]
      have high : (v.toNat + 256 * (ones n * v.toNat)) / 256 = ones n * v.toNat := by omega
      rw [high, pow_256, ← Nat.shiftRight_eq_div_pow]
      exact ih (Nat.lt_of_succ_lt_succ inside)

/-! ## Masks -/

/-- A 64-bit word rounded down to a multiple of a power of two, by its mask. -/
theorem and_two_pow_mask {x k : Nat} (word : x < 2 ^ 64) (small : k ≤ 64) :
    x &&& (2 ^ 64 - 2 ^ k) = x / 2 ^ k * 2 ^ k := by
  have pos := Nat.two_pow_pos k
  have bound : 2 ^ k - 1 < 2 ^ 64 := by
    have := Nat.pow_le_pow_right (show 0 < 2 by decide) small
    omega
  have mask : 2 ^ 64 - 2 ^ k = 2 ^ 64 - ((2 ^ k - 1) + 1) := by omega
  refine Nat.eq_of_testBit_eq fun i => ?_
  rw [mask, Nat.testBit_and, Nat.testBit_two_pow_sub_succ bound, Nat.testBit_two_pow_sub_one,
    Nat.testBit_mul_two_pow, Nat.testBit_div_two_pow]
  by_cases high : k ≤ i
  · have sum : i - k + k = i := by omega
    have outside : ¬i < k := by omega
    by_cases inside : i < 64
    · simp [high, outside, inside]
    · have zero : x.testBit i = false := by
        refine Nat.testBit_lt_two_pow (Nat.lt_of_lt_of_le word ?_)
        exact Nat.pow_le_pow_right (by decide) (Nat.le_of_not_lt inside)
      simp [sum, zero]
  · have inside : i < k := by omega
    simp [high, inside]

end WeaveC.Library
