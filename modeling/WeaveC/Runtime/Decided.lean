import WeaveC.Runtime.GuardSpec
import Mathlib.Tactic.IntervalCases

/-!
# The bytes a check decides

A check of a range decides the bytes of the window that the hardware reaches
from the range's start on; what it says of them it says of no others, but of
those before a byte in its granule.
-/

namespace WeaveC.Runtime

/-- The address the hardware reaches: AArch64 ignores the top byte. -/
def hardware (ctx : Context) (address : Nat) : Nat :=
  if ctx.aarch64 = true then address % 0x100000000000000 else address

theorem hardware_le (ctx : Context) (address : Nat) : hardware ctx address ≤ address := by
  unfold hardware
  split <;> omega

theorem hardware_mod (ctx : Context) (address : Nat) :
    hardware ctx address % 0x100000000000000 = address % 0x100000000000000 := by
  unfold hardware
  split <;> omega

/-- The bytes of `[address, address + n)` that a check decides, whatever the
window. -/
def Decides (ctx : Context) (address n b : Nat) : Prop :=
  hardware ctx address ≤ b ∧ b < hardware ctx address + n

theorem mem_unaddressable_reached {ctx : Context} {s : Shadow} (ready : s.Ready)
    {address n b : Nat} :
    b ∈ unaddressable ctx s (reached ctx s address) n ↔
      Decides ctx address n b ∧ b < 2 ^ s.bits ∧ ¬ Addressable ctx s b := by
  have narrow : 2 ^ s.bits ≤ 2 ^ 56 := Nat.pow_le_pow_right (by decide) ready.bounds.2.2
  have low : address &&& 0x00FFFFFFFFFFFFFF = address % 0x100000000000000 :=
    Nat.and_two_pow_sub_one_eq_mod address 56
  rw [mem_unaddressable ready, ← and_assoc]
  unfold Decides hardware reached
  simp only [Shadow.inWindow_iff ready, low]
  by_cases arm : ctx.aarch64 = true
  · rw [if_pos arm]
    split_ifs with tagged
    · rfl
    · have outside : ¬ (¬ address < 2 ^ s.bits ∧ address % 0x100000000000000 < 2 ^ s.bits) :=
        fun both => tagged ⟨arm, both⟩
      constructor
      · rintro ⟨⟨above, below⟩, inside, bad⟩
        exact ⟨⟨by omega, by omega⟩, inside, bad⟩
      · rintro ⟨⟨above, below⟩, inside, bad⟩
        exact ⟨⟨by omega, by omega⟩, inside, bad⟩
  · rw [if_neg arm, if_neg fun tagged => arm tagged.1]

theorem unaddressable_reached_empty {ctx : Context} {s : Shadow} (ready : s.Ready)
    {address n : Nat} :
    unaddressable ctx s (reached ctx s address) n = ∅ ↔
      ∀ b, Decides ctx address n b → b < 2 ^ s.bits → Addressable ctx s b := by
  rw [Set.eq_empty_iff_forall_notMem]
  simp only [mem_unaddressable_reached ready, not_and, not_not]

/-- Byte `k` from `address` on is in the window, and not addressable. -/
def Bad (ctx : Context) (s : Shadow) (address k : Nat) : Prop :=
  s.Ready ∧ s.InWindow (hardware ctx address + k) ∧ ¬ Addressable ctx s (hardware ctx address + k)

/-- A range without an unaddressable byte, byte by byte. -/
theorem unaddressable_reached_none (ctx : Context) (s : Shadow) (address n : Nat) :
    unaddressable ctx s (reached ctx s address) n = ∅ ↔ ∀ k < n, ¬ Bad ctx s address k := by
  by_cases ready : s.Ready
  · rw [unaddressable_reached_empty ready]
    unfold Decides Bad
    simp only [Shadow.inWindow_iff ready]
    constructor
    · rintro all k below ⟨-, inside, bad⟩
      exact bad (all _ ⟨by omega, by omega⟩ inside)
    · rintro none b ⟨low, high⟩ inside
      by_contra bad
      refine none (b - hardware ctx address) (by omega) ⟨ready, ?_⟩
      rw [show hardware ctx address + (b - hardware ctx address) = b by omega]
      exact ⟨inside, bad⟩
  · refine iff_of_true (unaddressable_empty fun isReady => absurd isReady ready) ?_
    rintro k - ⟨isReady, -⟩
    exact ready isReady

/-- Where a granule is not marked returned, its own value decides. -/
theorem addressable_iff {ctx : Context} {s : Shadow} {b : Nat} (ready : s.Ready) (inside : b < 2 ^ s.bits)
    (fresh : s.byte (b / 16) ≠ ShadowValue.returned) :
    Addressable ctx s b ↔
      shadowFull (s.byte (b / 16)) ∨
        ¬ shadowPoison (s.byte (b / 16)) ∧ b % 16 < shadowBytes (s.byte (b / 16)) := by
  have index : s.index (b / 16 * 16) = b / 16 := by
    rw [Shadow.index_eq_div ready (by omega)]
    omega
  have value : settled ctx s (b / 16 * 16) = s.byte (b / 16) := by
    rw [settled_eq, Shadow.of, index, if_neg fun both => fresh both.1]
  unfold Addressable
  simp only [value]

theorem rangeOk_settles (ctx : Context) (s : Shadow) (address n : Nat) :
    Settles ctx s (rangeOk ctx s address n).2 := by
  unfold rangeOk
  split
  · exact Settles.refl ctx s
  · have same := (firstUnaddressable_spec ctx s address n).1
    split
    · rename_i found
      rw [found] at same
      exact same
    · rename_i found
      rw [found] at same
      exact same

/-- Clearing stale granules decides no byte the other way. -/
theorem Settles.unaddressable_reached {ctx : Context} {s s' : Shadow} (same : Settles ctx s s')
    (address n : Nat) :
    unaddressable ctx s' (reached ctx s' address) n = unaddressable ctx s (reached ctx s address) n := by
  by_cases ready : s.Ready
  · ext b
    rw [mem_unaddressable_reached ready, mem_unaddressable_reached (same.ready ready), same.bits]
    refine and_congr_right fun _ => and_congr_right fun inside => ?_
    exact not_congr (same.addressable ready inside)
  · have notReady : ¬ s'.Ready := by
      unfold Shadow.Ready at *
      rw [same.mask]
      exact ready
    have empty : ∀ (t : Shadow), ¬ t.Ready → ∀ x, unaddressable ctx t x n = ∅ := by
      intro t not_ready x
      exact unaddressable_empty fun isReady => absurd isReady not_ready
    rw [empty s ready, empty s' notReady]

/-- A byte with the bytes before it in its granule: they are addressable when
it is. -/
theorem Addressable.before {ctx : Context} {s : Shadow} {b c : Nat}
    (good : Addressable ctx s c) (granule : b / 16 = c / 16) (before : b ≤ c) :
    Addressable ctx s b := by
  unfold Addressable at *
  rw [granule]
  rcases good with full | ⟨notPoison, some⟩
  · exact .inl full
  · exact .inr ⟨notPoison, by omega⟩

/-! ## A shadow for one byte -/

/-- All is addressable in the widest window but, in one granule, `b` and what
follows it. -/
def stopsAt (b : Nat) : Shadow where
  bits := 56
  mask := 2 ^ (56 - 4) - 1
  byte i :=
    if i = b / 16 then
      if b % 16 = 0 then ShadowValue.null else shadowPartialOf 0 (b % 16)
    else ShadowValue.addressable
  wf := .inr ⟨rfl, by decide, by decide⟩

theorem stopsAt_ready (b : Nat) : (stopsAt b).Ready := by
  show 2 ^ (56 - 4) - 1 ≠ 0
  decide

theorem stopsAt_index (b : Nat) {c : Nat} (inside : c < 2 ^ 56) : (stopsAt b).index c = c / 16 :=
  Shadow.index_eq_div (stopsAt_ready b) inside

theorem stopsAt_of (b : Nat) {c : Nat} (inside : c < 2 ^ 56) :
    (stopsAt b).of c = (stopsAt b).byte (c / 16) := by
  rw [Shadow.of, stopsAt_index b inside]

/-- A color of an object: a whole granule's value, its low bits not 7. -/
def IsColor (c : UInt8) : Prop := shadowFull c ∧ c.toNat &&& 7 < 7

theorem isColor_color (n : Nat) : IsColor (color n) := by
  have all : ∀ m < 112, shadowFull (UInt8.ofNat (((m / 7) <<< 3) ||| (m % 7))) ∧
      (UInt8.ofNat (((m / 7) <<< 3) ||| (m % 7))).toNat &&& 7 < 7 := by
    decide
  have small : n % 111 < 111 := Nat.mod_lt _ (by decide)
  exact all (n % 111 + 1) (by omega)

/-- A partial granule of a color whose low bits are not all set. -/
theorem shadowPartialOf_value {c : Nat} (low : c &&& 7 < 7) {k : Nat} (small : k < 16) :
    ¬ shadowFull (shadowPartialOf c k) ∧ ¬ shadowPoison (shadowPartialOf c k) ∧
      shadowBytes (shadowPartialOf c k) = k := by
  have all : ∀ low < 7, ∀ k < 16,
      ¬ shadowFull (UInt8.ofNat (0x80 ||| (low <<< 4) ||| k)) ∧
        ¬ shadowPoison (UInt8.ofNat (0x80 ||| (low <<< 4) ||| k)) ∧
          shadowBytes (UInt8.ofNat (0x80 ||| (low <<< 4) ||| k)) = k := by
    decide
  exact all _ low k small

theorem partialOf_zero {k : Nat} (short : k < 16) :
    ¬ shadowFull (shadowPartialOf 0 k) ∧ ¬ shadowPoison (shadowPartialOf 0 k) ∧
      shadowBytes (shadowPartialOf 0 k) = k ∧ shadowPartialOf 0 k ≠ ShadowValue.returned := by
  obtain ⟨notFull, notPoison, bytes⟩ := shadowPartialOf_value (show 0 &&& 7 < 7 by decide) short
  refine ⟨notFull, notPoison, bytes, fun returned => ?_⟩
  rw [returned] at notPoison
  exact notPoison (by decide)

theorem stopsAt_addressable (ctx : Context) {b c : Nat} (inside : c < 2 ^ 56) :
    Addressable ctx (stopsAt b) c ↔ ¬ (c / 16 = b / 16 ∧ b ≤ c) := by
  have start : c / 16 * 16 < 2 ^ 56 := by omega
  unfold Addressable
  have value : settled ctx (stopsAt b) (c / 16 * 16) = (stopsAt b).byte (c / 16) := by
    rw [settled_eq, stopsAt_of b start, show c / 16 * 16 / 16 = c / 16 by omega, if_neg]
    rintro ⟨returned, -⟩
    unfold stopsAt at returned
    dsimp only at returned
    split_ifs at returned with here aligned
    · exact absurd returned (by decide)
    · exact (partialOf_zero (by omega)).2.2.2 returned
    · exact absurd returned (by decide)
  rw [value]
  unfold stopsAt
  dsimp only
  split_ifs with here aligned
  · have poison : ¬ shadowFull ShadowValue.null ∧ shadowPoison ShadowValue.null := by decide
    constructor
    · rintro (full | ⟨notPoison, -⟩)
      · exact absurd full poison.1
      · exact absurd poison.2 notPoison
    · intro notAfter
      exact absurd ⟨here, by omega⟩ notAfter
  · obtain ⟨notFull, notPoison, bytes, -⟩ := partialOf_zero (show b % 16 < 16 by omega)
    rw [bytes]
    constructor
    · rintro (full | ⟨-, some⟩)
      · exact absurd full notFull
      · omega
    · intro notAfter
      exact .inr ⟨notPoison, by omega⟩
  · have full : shadowFull ShadowValue.addressable := by decide
    exact iff_of_true (.inl full) fun both => here both.1

/-- A thread without a stack of its own, and no heap. -/
def Context.bare : Context := ⟨0, 0, 0, false, fun _ => ⟨false, false, 0, 0⟩, false⟩

/-- A shadow in which everything is addressable. -/
def Shadow.clean : Shadow := ⟨48, 0xFFFFFFFFFFF, fun _ => 0, .inr (by decide)⟩

end WeaveC.Runtime
