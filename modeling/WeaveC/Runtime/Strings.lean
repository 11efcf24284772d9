import WeaveC.Runtime.Decided
import Mathlib.Data.ENat.Lattice

/-!
# Strings

`__weavec_rt_strlen` scans a string as the C library does, and then asks the
shadow about the bytes it scanned; a short string in whole granules is scanned
a word at a time.  It lets a string through when the bytes up to where the scan
stopped are addressable.
-/

namespace WeaveC.Runtime

open WeaveC.Library

abbrev Memory := Nat → UInt8

/-- The C library's scan. -/
def strnlen (memory : Memory) (s : Nat) : Nat → Nat
  | 0 => 0
  | max + 1 => if memory s = 0 then 0 else strnlen memory (s + 1) max + 1

/-- The bytes such a scan reads. -/
def scanned (memory : Memory) (s max : Nat) : Nat :=
  let length := strnlen memory s max
  if length < max then length + 1 else max

inductive StringReportKind where
  | nullDereference
  | heapUseAfterFree
  | unterminatedString
  deriving DecidableEq, Repr

def StringReportKind.name : StringReportKind → String
  | .nullDereference => "null-dereference"
  | .heapUseAfterFree => "heap-use-after-free"
  | .unterminatedString => "unterminated-string"

structure StringReport where
  kind : StringReportKind
  address : Nat
  width : Nat
  deriving DecidableEq, Repr

def stringLength (ctx : Context) (shadow : Shadow) (memory : Memory) (s max : Nat) :
    Except StringReport (Nat × Shadow) :=
  let length := strnlen memory s max
  let scanned := if length < max then length + 1 else max
  if quickOk shadow s scanned then .ok (length, shadow)
  else
    match firstUnaddressable ctx shadow s scanned with
    | (none, shadow) => .ok (length, shadow)
    | (some (_, value), _) =>
        .error ⟨if value = ShadowValue.heapFreed then .heapUseAfterFree else .unterminatedString,
          s, scanned⟩

/-- Whether one of the eight bytes of `word` is zero. -/
def hasZeroByte (word : BitVec 64) : Bool :=
  (word - 0x0101010101010101#64) &&& ~~~word &&& 0x8080808080808080#64 ≠ 0#64

/-- The scan of the words from word `i` on. -/
def scanWords (memory : Memory) (s i : Nat) : Nat → Option Nat
  | 0 => none
  | left + 1 =>
      if hasZeroByte (BitVec.ofNat 64 (loadLE memory (s + 8 * i) 8)) then
        -- the byte is one of the word's
        some (8 * i + strnlen memory (s + 8 * i) 8)
      else scanWords memory s (i + 1) left

/-- Whether the granules of the first 32 bytes are whole, in one page. -/
def wholeWords (shadow : Shadow) (s max : Nat) : Bool :=
  let i := shadow.index s
  decide (32 ≤ max ∧ s &&& 4095 ≤ 4096 - 32 ∧ shadow.Ready ∧ shadow.InWindow ((s + 32) % 2 ^ 64)) &&
    ((shadow.byte i ||| shadow.byte (i + 1) |||
      if s &&& 15 ≠ 0 then shadow.byte (i + 2) else 0) &&& 0x80 = 0)

/-- `__weavec_rt_strlen`; `nullOk` is the flag of its site. -/
def strlen (ctx : Context) (shadow : Shadow) (memory : Memory) (s max : Nat) (nullOk : Bool) :
    Except StringReport (Nat × Shadow) :=
  if s = 0 then if nullOk then .ok (0, shadow) else .error ⟨.nullDereference, 0, 1⟩
  else
    match if wholeWords shadow s max then scanWords memory s 0 4 else none with
    | some length => .ok (length, shadow)
    | none => stringLength ctx shadow memory s max

/-! ## The scan -/

theorem strnlen_le (memory : Memory) (s max : Nat) : strnlen memory s max ≤ max := by
  induction max generalizing s with
  | zero => exact Nat.le_refl 0
  | succ max inductionHypothesis =>
      rw [strnlen]
      split
      · exact Nat.zero_le _
      · exact Nat.succ_le_succ (inductionHypothesis (s + 1))

/-- The bytes before the length are not zero, and the one after them is. -/
theorem strnlen_spec (memory : Memory) (s max : Nat) :
    (∀ k, k < strnlen memory s max → memory (s + k) ≠ 0) ∧
      (strnlen memory s max < max → memory (s + strnlen memory s max) = 0) := by
  induction max generalizing s with
  | zero => exact ⟨fun k below => absurd below (Nat.not_lt_zero k), nofun⟩
  | succ max inductionHypothesis =>
      rw [strnlen]
      obtain ⟨before, after⟩ := inductionHypothesis (s + 1)
      split
      · rename_i zero
        exact ⟨fun k below => absurd below (Nat.not_lt_zero k), fun _ => zero⟩
      · rename_i nonzero
        constructor
        · intro k below
          cases k with
          | zero => exact nonzero
          | succ k =>
              rw [Nat.add_comm k, ← Nat.add_assoc]
              exact before k (Nat.lt_of_succ_lt_succ below)
        · intro below
          rw [Nat.add_comm _ 1, ← Nat.add_assoc]
          exact after (Nat.lt_of_succ_lt_succ below)

/-- A scan stops at the first zero byte, wherever that is known from. -/
theorem strnlen_eq {memory : Memory} {s max length : Nat} (below : length < max)
    (before : ∀ k, k < length → memory (s + k) ≠ 0) (zero : memory (s + length) = 0) :
    strnlen memory s max = length := by
  obtain ⟨earlier, stops⟩ := strnlen_spec memory s max
  rcases Nat.lt_trichotomy (strnlen memory s max) length with less | same | more
  · exact absurd (stops (Nat.lt_trans less below)) (before _ less)
  · exact same
  · exact absurd zero (earlier length more)

theorem scanned_le (memory : Memory) (s max : Nat) : scanned memory s max ≤ max := by
  unfold scanned
  dsimp only
  split
  · assumption
  · exact Nat.le_refl max

/-! ## The first zero byte -/

open Classical in
/-- The distance from `s` to the first zero byte, `⊤` when there is none. -/
noncomputable def distance (memory : Memory) (s : Nat) : ℕ∞ :=
  if found : ∃ k, memory (s + k) = 0 then (Nat.find found : ℕ∞) else ⊤

theorem le_distance {memory : Memory} {s n : Nat} :
    (n : ℕ∞) ≤ distance memory s ↔ ∀ k < n, memory (s + k) ≠ 0 := by
  classical
  unfold distance
  split
  · rename_i found
    rw [Nat.cast_le, Nat.le_find_iff]
  · rename_i none
    exact iff_of_true le_top fun k _ zero => none ⟨k, zero⟩

theorem distance_eq {memory : Memory} {s n : Nat} (before : ∀ k < n, memory (s + k) ≠ 0)
    (zero : memory (s + n) = 0) : distance memory s = n := by
  refine le_antisymm ?_ (le_distance.mpr before)
  by_contra after
  have further : ((n + 1 : Nat) : ℕ∞) ≤ distance memory s := by
    rw [Nat.cast_succ]
    exact Order.add_one_le_of_lt (not_le.mp after)
  exact le_distance.mp further n (Nat.lt_succ_self n) zero

/-- The scan's length is the distance, up to its limit. -/
theorem strnlen_eq_min (memory : Memory) (s max : Nat) :
    (strnlen memory s max : ℕ∞) = min (distance memory s) max := by
  obtain ⟨before, stops⟩ := strnlen_spec memory s max
  rcases Nat.lt_or_eq_of_le (strnlen_le memory s max) with short | whole
  · rw [distance_eq before (stops short), min_eq_left (Nat.cast_le.mpr (Nat.le_of_lt short))]
  · rw [whole] at before ⊢
    exact (min_eq_right (le_distance.mpr before)).symm

theorem scanned_eq_min (memory : Memory) (s max : Nat) :
    (scanned memory s max : ℕ∞) = min (distance memory s + 1) max := by
  obtain ⟨before, stops⟩ := strnlen_spec memory s max
  unfold scanned
  dsimp only
  split
  · rename_i short
    rw [distance_eq before (stops short), ← Nat.cast_succ, min_eq_left (Nat.cast_le.mpr short)]
  · rename_i whole
    have all : strnlen memory s max = max :=
      Nat.le_antisymm (strnlen_le memory s max) (Nat.le_of_not_lt whole)
    rw [all] at before
    exact (min_eq_right ((le_distance.mpr before).trans le_self_add)).symm

/-! ## The words -/

theorem hasZeroByte_eq_false (memory : Memory) (i : Nat) :
    hasZeroByte (BitVec.ofNat 64 (loadLE memory i 8)) = false ↔ ∀ j, j < 8 → memory (i + j) ≠ 0 := by
  have word : (BitVec.ofNat 64 (loadLE memory i 8)).toNat = loadLE memory i 8 :=
    (BitVec.toNat_ofNat _ _).trans (Nat.mod_eq_of_lt (loadLE_lt memory i 8))
  rw [← loadLE_zeroByte memory i 8]
  unfold hasZeroByte
  rw [decide_eq_false_iff_not, not_not, ← BitVec.toNat_inj, BitVec.toNat_and, BitVec.toNat_and,
    BitVec.toNat_sub, BitVec.toNat_not, word, Nat.add_comm (2 ^ 64 - _)]
  rfl

theorem scanWords_spec {memory : Memory} {s i left length : Nat}
    (before : ∀ k, k < 8 * i → memory (s + k) ≠ 0)
    (found : scanWords memory s i left = some length) :
    length < 8 * (i + left) ∧ (∀ k, k < length → memory (s + k) ≠ 0) ∧ memory (s + length) = 0 := by
  induction left generalizing i with
  | zero => cases found
  | succ left inductionHypothesis =>
      rw [scanWords] at found
      split at found
      · rename_i some
        cases found
        obtain ⟨earlier, stops⟩ := strnlen_spec memory (s + 8 * i) 8
        have inside : strnlen memory (s + 8 * i) 8 < 8 := by
          refine Nat.lt_of_le_of_ne (strnlen_le _ _ _) fun whole => ?_
          rw [whole] at earlier
          rw [(hasZeroByte_eq_false memory (s + 8 * i)).mpr earlier] at some
          cases some
        refine ⟨by omega, fun k below => ?_, ?_⟩
        · by_cases old : k < 8 * i
          · exact before k old
          · have new := earlier (k - 8 * i) (by omega)
            rwa [show s + 8 * i + (k - 8 * i) = s + k by omega] at new
        · rw [← Nat.add_assoc]
          exact stops inside
      · rename_i none
        have further : ∀ k, k < 8 * (i + 1) → memory (s + k) ≠ 0 := by
          intro k below
          by_cases old : k < 8 * i
          · exact before k old
          · have new := (hasZeroByte_eq_false memory (s + 8 * i)).mp
              (Bool.eq_false_iff.mpr none) (k - 8 * i) (by omega)
            rwa [show s + 8 * i + (k - 8 * i) = s + k by omega] at new
        obtain ⟨inside, rest⟩ := inductionHypothesis further found
        exact ⟨by omega, rest⟩

/-! ## What a scan lets through -/

theorem stringLength_eq (ctx : Context) (shadow : Shadow) (memory : Memory) (s max : Nat) :
    stringLength ctx shadow memory s max =
      if quickOk shadow s (scanned memory s max) then .ok (strnlen memory s max, shadow)
      else
        match firstUnaddressable ctx shadow s (scanned memory s max) with
        | (none, shadow) => .ok (strnlen memory s max, shadow)
        | (some (_, value), _) =>
            .error ⟨if value = ShadowValue.heapFreed then .heapUseAfterFree else .unterminatedString,
              s, scanned memory s max⟩ := rfl

theorem stringLength_spec (ctx : Context) (shadow : Shadow) (memory : Memory) (s max : Nat) :
    match stringLength ctx shadow memory s max with
    | .ok (length, shadow') =>
        length = strnlen memory s max ∧ Settles ctx shadow shadow' ∧
          unaddressable ctx shadow (reached ctx shadow s) (scanned memory s max) = ∅
    | .error _ => unaddressable ctx shadow (reached ctx shadow s) (scanned memory s max) ≠ ∅ := by
  rw [stringLength_eq]
  by_cases quick : quickOk shadow s (scanned memory s max) = true
  · rw [if_pos quick]
    refine ⟨rfl, .refl ctx shadow, fast_sound ctx ?_⟩
    rw [quick, Bool.true_or]
  · rw [if_neg quick]
    have same := (firstUnaddressable_spec ctx shadow s (scanned memory s max)).1
    have none := firstUnaddressable_eq_none_iff ctx shadow s (scanned memory s max)
    generalize firstUnaddressable ctx shadow s (scanned memory s max) = answer at same none
    rcases answer with ⟨_ | ⟨bad, value⟩, shadow'⟩
    · exact ⟨rfl, same, none.mp rfl⟩
    · intro empty
      cases none.mpr empty

theorem sign_clear (v : UInt8) : v &&& 0x80 = 0 ↔ shadowFull v := by
  rw [← UInt8.toNat_inj, UInt8.toNat_and]
  exact and_sign v.toNat_lt

theorem or_sign_clear (v w : UInt8) :
    (v ||| w) &&& 0x80 = 0 ↔ v &&& 0x80 = 0 ∧ w &&& 0x80 = 0 := by
  simp only [← UInt8.toNat_inj, UInt8.toNat_and, UInt8.toNat_or, UInt8.toNat_zero,
    Nat.and_or_distrib_right, Nat.or_eq_zero_iff]

/-- The granules of the first 32 bytes, when none has its sign bit set. -/
theorem wholeWords_spec (ctx : Context) {shadow : Shadow} {s max : Nat}
    (whole : wholeWords shadow s max = true) :
    32 ≤ max ∧ ∀ n ≤ 32, unaddressable ctx shadow (reached ctx shadow s) n = ∅ := by
  unfold wholeWords at whole
  rw [Bool.and_eq_true, decide_eq_true_eq, decide_eq_true_eq, or_sign_clear, or_sign_clear,
    sign_clear, sign_clear, sign_clear] at whole
  obtain ⟨⟨wide, -⟩, ⟨first, second⟩, third⟩ := whole
  have full : ∀ j ≤ (s % 16 + 31) / 16, shadowFull (shadow.byte (shadow.index s + j)) := by
    intro j below
    have near : j = 0 ∨ j = 1 ∨ j = 2 := by omega
    rcases near with rfl | rfl | rfl
    · exact first
    · exact second
    · have unaligned : s &&& 15 ≠ 0 := by
        rw [show (15 : Nat) = 2 ^ 4 - 1 from rfl, Nat.and_two_pow_sub_one_eq_mod]
        omega
      rwa [if_pos unaligned] at third
  refine ⟨wide, fun n short => granules_sound ctx (fun j below => ?_) fun _ _ => .inl ?_⟩
  · exact full j (by omega)
  · exact full _ (by omega)

theorem strlen_spec (ctx : Context) (shadow : Shadow) (memory : Memory) (s max : Nat)
    (nullOk : Bool) :
    match strlen ctx shadow memory s max nullOk with
    | .ok (length, shadow') =>
        Settles ctx shadow shadow' ∧
          (s = 0 ∧ nullOk = true ∧ length = 0 ∨
            s ≠ 0 ∧ length = strnlen memory s max ∧
              unaddressable ctx shadow (reached ctx shadow s) (scanned memory s max) = ∅)
    | .error _ =>
        s = 0 ∧ nullOk = false ∨
          s ≠ 0 ∧ unaddressable ctx shadow (reached ctx shadow s) (scanned memory s max) ≠ ∅ := by
  unfold strlen
  by_cases null : s = 0
  · rw [if_pos null]
    cases nullOk with
    | true => exact ⟨.refl ctx shadow, .inl ⟨null, rfl, rfl⟩⟩
    | false => exact .inl ⟨null, rfl⟩
  · rw [if_neg null]
    generalize words : (if wholeWords shadow s max then scanWords memory s 0 4 else none) = answer
    cases answer with
    | none =>
        have spec := stringLength_spec ctx shadow memory s max
        dsimp only
        generalize stringLength ctx shadow memory s max = answer at spec
        rcases answer with report | ⟨length, shadow'⟩
        · exact .inr ⟨null, spec⟩
        · exact ⟨spec.2.1, .inr ⟨null, spec.1, spec.2.2⟩⟩
    | some length =>
        rw [Option.ite_none_right_eq_some] at words
        obtain ⟨whole, found⟩ := words
        obtain ⟨wide, all⟩ := wholeWords_spec ctx whole
        obtain ⟨below, before, zero⟩ := scanWords_spec (fun k less => absurd less (by omega)) found
        have length_eq : strnlen memory s max = length := strnlen_eq (by omega) before zero
        refine ⟨.refl ctx shadow, .inr ⟨null, length_eq.symm, ?_⟩⟩
        have reads : scanned memory s max = length + 1 := by
          unfold scanned
          rw [length_eq]
          exact if_pos (by omega)
        rw [reads]
        exact all _ (by omega)

end WeaveC.Runtime
