import WeaveC.Pass.Frame
import WeaveC.Pass.Inline
import WeaveC.Runtime.Decided

/-!
# Dynamic allocas

A tracked dynamic alloca becomes one of more bytes, with a redzone after the
object, whose size is computed in 64-bit words at run time.  A call of the
runtime then writes the object's shadow and the redzone's; it writes nothing
for an object that the stack cannot hold.
-/

namespace WeaveC.Pass

open WeaveC.Runtime

/-! ## The code -/

/-- The alloca that replaces a dynamic one, and the object's bytes as the code
computes them. -/
structure Replacement where
  bytes : Nat
  padded : Nat
  alignment : Nat

/-- Rounded to 32 and 32 more: the redzone.  The sums and the product wrap. -/
def replacement (count element : BitVec 64) (alignment : Align) : Replacement :=
  let bytes := (count * element).toNat
  { bytes
    padded := ((bytes + (FrameAlign - 1)) % 0x10000000000000000 / FrameAlign * FrameAlign +
      FrameAlign) % 0x10000000000000000
    alignment := max FrameAlign alignment.value }

/-- Whether `[address, stop)` overlaps the calling thread's own stack. -/
def onOwnStack (ctx : Context) (address stop : Nat) : Prop :=
  ctx.stackTop ≠ 0 ∧ address < ctx.stackTop ∧ ctx.stackBottom < stop

instance (ctx : Context) (address stop : Nat) : Decidable (onOwnStack ctx address stop) :=
  inferInstanceAs (Decidable (_ ∧ _))

/-- `__weavec_rt_alloca_poison`. -/
def allocaPoison (ctx : Context) (page : Nat) (s : Shadow) (address size : Nat) : Shadow :=
  let used := (size + 15) % 0x10000000000000000 / 16 * 16
  let padded := ((size + 31) % 0x10000000000000000 / 32 * 32 + 32) % 0x10000000000000000
  let stop := address + padded
  if address % 16 ≠ 0 ∨ padded < size ∨ 0x10000000000000000 ≤ stop ∨
      (if onOwnStack ctx address stop then ctx.stackTop < stop ∨ address < ctx.stackBottom
        else 1 <<< 30 < padded) then s
  else
    (s.object page address size ShadowValue.stackDynamic 0).set (address + used) (padded - used)
      ShadowValue.stackDynamic

/-! ## What is asked of it -/

/-- The bytes of the object, which need not fit a word. -/
def total (count element : BitVec 64) : Nat := count.toNat * element.toNat

/-- The replacement at `address`, in the stack `[low, high)`. -/
structure Replacement.At (r : Replacement) (low high address : Nat) : Prop where
  aligned : address % r.alignment = 0
  above : low ≤ address
  below : address + r.padded ≤ high

/-- The object of `size` bytes and a redzone of at least 32 bytes lie in the
`padded` bytes, and `s'` is `s` but for saying so. -/
structure Guarded (ctx : Context) (s s' : Shadow) (address size padded : Nat) : Prop where
  room : size + 32 ≤ padded
  window : Shadow.SameWindow s s'
  object : ∀ b, address ≤ b → b < address + size → Addressable ctx s' b
  redzone : ∀ b, address + size ≤ b → b < address + padded → ¬ Addressable ctx s' b
  others : ∀ j, 16 * j + 16 ≤ address ∨ address + padded ≤ 16 * j → s'.byte j = s.byte j

/-- Wherever the stack holds the replacement, the object and its redzone are
guarded. -/
def HeldIsGuarded (ctx : Context) (page low high : Nat) (count element : BitVec 64)
    (alignment : Align) : Prop :=
  let r := replacement count element alignment
  ∀ (s : Shadow) (address : Nat), s.Ready → high ≤ 2 ^ s.bits → r.At low high address →
    Guarded ctx s (allocaPoison ctx page s address r.bytes) address (total count element) r.padded

/-! ## The sums -/

theorem replacement_of_small {count element : BitVec 64} (alignment : Align)
    (small : total count element + 64 ≤ 0x10000000000000000) :
    (replacement count element alignment).bytes = total count element ∧
      (replacement count element alignment).padded =
        (total count element + 31) / 32 * 32 + 32 := by
  have bytes : (count * element).toNat = total count element :=
    (BitVec.toNat_mul count element).trans (Nat.mod_eq_of_lt (show total count element < _ by omega))
  unfold replacement FrameAlign
  rw [bytes]
  dsimp only
  omega

/-- A replacement with room for its object and the redzone is of no wrapped
size. -/
theorem small_of_room {count element : BitVec 64} (alignment : Align)
    (room : total count element + 32 ≤ (replacement count element alignment).padded) :
    total count element + 64 ≤ 0x10000000000000000 := by
  have bytes : (count * element).toNat = total count element % 0x10000000000000000 :=
    BitVec.toNat_mul count element
  unfold replacement FrameAlign at room
  rw [bytes] at room
  dsimp only at room
  omega

theorem Replacement.At.aligned_frame {count element : BitVec 64} {alignment : Align}
    {low high address : Nat} (at' : (replacement count element alignment).At low high address) :
    address % 32 = 0 := by
  have divides : 32 ∣ (replacement count element alignment).alignment := by
    change 32 ∣ max 32 (2 ^ alignment.shift)
    rcases Nat.le_total alignment.shift 5 with small | large
    · have short : 2 ^ alignment.shift ≤ 32 :=
        (Nat.pow_le_pow_right (by decide) small).trans (show 2 ^ 5 ≤ 32 by decide)
      rw [Nat.max_eq_left short]
    · have long : 32 ≤ 2 ^ alignment.shift :=
        (show 32 ≤ 2 ^ 5 by decide).trans (Nat.pow_le_pow_right (by decide) large)
      rw [Nat.max_eq_right long]
      exact Nat.pow_dvd_pow 2 large
  exact Nat.mod_eq_zero_of_dvd (divides.trans (Nat.dvd_of_mod_eq_zero at'.aligned))

/-! ## What the call writes -/

section Poison

variable {ctx : Context} {page : Nat} {s : Shadow} {address size : Nat}

/-- The bytes of the replacement of an object of `size` bytes. -/
def paddedOf (size : Nat) : Nat := (size + 31) / 32 * 32 + 32

theorem allocaPoison_skips (size : Nat) (apart : ¬ onOwnStack ctx address (address + paddedOf size))
    (long : 1 <<< 30 < paddedOf size) (small : size + 64 ≤ 0x10000000000000000) :
    allocaPoison ctx page s address size = s := by
  have padded : ((size + 31) % 0x10000000000000000 / 32 * 32 + 32) % 0x10000000000000000 =
      paddedOf size := by
    unfold paddedOf
    omega
  unfold allocaPoison
  rw [padded]
  simp only [if_neg apart]
  rw [if_pos (.inr (.inr (.inr long)))]

theorem allocaPoison_eq (small : size + 64 ≤ 0x10000000000000000) (aligned : address % 32 = 0)
    (inside : address + paddedOf size ≤ 2 ^ 56)
    (fits : if onOwnStack ctx address (address + paddedOf size) then
      address + paddedOf size ≤ ctx.stackTop ∧ ctx.stackBottom ≤ address
      else paddedOf size ≤ 1 <<< 30) :
    allocaPoison ctx page s address size =
      (s.object page address size ShadowValue.stackDynamic 0).set (address + (size + 15) / 16 * 16)
        (paddedOf size - (size + 15) / 16 * 16) ShadowValue.stackDynamic := by
  have padded : ((size + 31) % 0x10000000000000000 / 32 * 32 + 32) % 0x10000000000000000 =
      paddedOf size := by
    unfold paddedOf
    omega
  have used : (size + 15) % 0x10000000000000000 / 16 * 16 = (size + 15) / 16 * 16 := by omega
  have larger : size + 32 ≤ paddedOf size := by
    unfold paddedOf
    omega
  unfold allocaPoison
  rw [padded, used]
  refine if_neg ?_
  rintro (misaligned | short | wraps | outside)
  · omega
  · omega
  · omega
  · split at outside
    · rename_i own
      rw [if_pos own] at fits
      omega
    · rename_i other
      rw [if_neg other] at fits
      omega

/-- An object's granules and the redzone behind them, one range after another. -/
theorem redzone_objectByte {granules : Nat} (room : (size + 15) / 16 < granules) (first j : Nat)
    (old : UInt8) :
    (if first + (size + 15) / 16 ≤ j ∧
          j < first + (size + 15) / 16 + (granules - (size + 15) / 16) then
        ShadowValue.stackDynamic
      else if first ≤ j then
        (Shadow.objectByte page size ShadowValue.stackDynamic 0 (j - first)).getD old
      else old) =
      if j < first ∨ first + granules ≤ j then old
      else if j < first + size / 16 then 0
      else if j = first + size / 16 ∧ size % 16 ≠ 0 then shadowPartialOf 0 (size % 16)
      else ShadowValue.stackDynamic := by
  unfold Shadow.objectByte
  simp only [ite_self, UInt8.toNat_zero]
  rcases Nat.lt_or_ge j first with before | after
  · rw [if_neg (by omega), if_neg (by omega), if_pos (.inl before)]
  by_cases object : j < first + size / 16
  · rw [if_neg (by omega), if_pos after, if_pos (by omega), if_neg (by omega), if_pos object]
    rfl
  by_cases last : j = first + size / 16 ∧ size % 16 ≠ 0
  · rw [if_neg (by omega), if_pos after, if_neg (by omega), if_pos (by omega), if_neg (by omega),
      if_neg object, if_pos last]
    rfl
  by_cases zone : j < first + granules
  · rw [if_pos (by omega), if_neg (by omega), if_neg object, if_neg last]
  · rw [if_neg (by omega), if_pos after, if_neg (by omega), if_neg (by omega), if_neg (by omega),
      if_pos (.inr (Nat.le_of_not_lt zone))]
    rfl

/-- The granules of the object hold its bytes, those after it the redzone. -/
theorem allocaPoison_byte (ready : s.Ready) (pages : 0 < page)
    (small : size + 64 ≤ 0x10000000000000000) (aligned : address % 32 = 0)
    (inside : address + paddedOf size ≤ 2 ^ s.bits)
    (fits : if onOwnStack ctx address (address + paddedOf size) then
      address + paddedOf size ≤ ctx.stackTop ∧ ctx.stackBottom ≤ address
      else paddedOf size ≤ 1 <<< 30) (j : Nat) :
    (allocaPoison ctx page s address size).byte j =
      if j < address / 16 ∨ (address + paddedOf size) / 16 ≤ j then s.byte j
      else if j < address / 16 + size / 16 then 0
      else if j = address / 16 + size / 16 ∧ size % 16 ≠ 0 then shadowPartialOf 0 (size % 16)
      else ShadowValue.stackDynamic := by
  have narrow : 2 ^ s.bits ≤ 2 ^ 56 := Nat.pow_le_pow_right (by decide) ready.bounds.2.2
  have larger : size + 32 ≤ paddedOf size := by
    unfold paddedOf
    omega
  have within : ∀ b, b < address + paddedOf size → s.InWindow b :=
    fun b below => (Shadow.inWindow_iff ready b).mpr (by omega)
  have same := Shadow.sameWindow_object s page address size ShadowValue.stackDynamic 0
  rw [allocaPoison_eq small aligned (by omega) fits,
    Shadow.set_byte (same.ready ready) ((same.inWindow _).mpr (within _ (by omega))),
    Shadow.object_byte ready pages (by omega) (fun b _ below => within b (by omega))]
  have whole : paddedOf size % 32 = 0 := by
    unfold paddedOf
    omega
  have start : (address + (size + 15) / 16 * 16) / 16 = address / 16 + (size + 15) / 16 := by omega
  have count : (paddedOf size - (size + 15) / 16 * 16 + 15) / 16 =
      paddedOf size / 16 - (size + 15) / 16 := by omega
  have stop : (address + paddedOf size) / 16 = address / 16 + paddedOf size / 16 := by omega
  rw [start, count, stop]
  exact redzone_objectByte (by omega) (address / 16) j (s.byte j)

theorem sameWindow_allocaPoison (ctx : Context) (page : Nat) (s : Shadow) (address size : Nat) :
    Shadow.SameWindow s (allocaPoison ctx page s address size) := by
  have written (address' size' : Nat) (v : UInt8) :
      Shadow.SameWindow s ((s.object page address size v 0).set address' size' v) :=
    (Shadow.sameWindow_object s page address size v 0).trans (Shadow.sameWindow_set _ _ _ _)
  unfold allocaPoison
  dsimp only
  split_ifs
  · exact .refl s
  · exact written _ _ _
  · exact .refl s
  · exact written _ _ _

/-- An object whose sums do not wrap, on a stack the call writes. -/
theorem allocaPoison_guarded (ready : s.Ready) (pages : 0 < page)
    (small : size + 64 ≤ 0x10000000000000000) (aligned : address % 32 = 0)
    (inside : address + paddedOf size ≤ 2 ^ s.bits)
    (fits : if onOwnStack ctx address (address + paddedOf size) then
      address + paddedOf size ≤ ctx.stackTop ∧ ctx.stackBottom ≤ address
      else paddedOf size ≤ 1 <<< 30) :
    Guarded ctx s (allocaPoison ctx page s address size) address size (paddedOf size) := by
  have window := sameWindow_allocaPoison ctx page s address size
  have byte := allocaPoison_byte ready pages small aligned inside fits
  have whole : paddedOf size % 32 = 0 := by
    unfold paddedOf
    omega
  have larger : size + 32 ≤ paddedOf size := by
    unfold paddedOf
    omega
  generalize allocaPoison ctx page s address size = s' at window byte
  have reads (b : Nat) (below : b < address + paddedOf size)
      (fresh : s'.byte (b / 16) ≠ ShadowValue.returned) :
      Addressable ctx s' b ↔ shadowFull (s'.byte (b / 16)) ∨
        ¬ shadowPoison (s'.byte (b / 16)) ∧ b % 16 < shadowBytes (s'.byte (b / 16)) :=
    addressable_iff (window.ready ready) (by rw [window.bits]; omega) fresh
  refine ⟨larger, window, fun b above below => ?_, fun b above below => ?_, fun j outside => ?_⟩
  · have value := byte (b / 16)
    rw [if_neg (by omega)] at value
    by_cases own : b / 16 < address / 16 + size / 16
    · rw [if_pos own] at value
      rw [reads b (by omega) (by rw [value]; decide), value]
      exact .inl (by decide)
    · obtain ⟨notFull, notPoison, bytes, fresh⟩ :=
        partialOf_zero (show size % 16 < 16 by omega)
      rw [if_neg own, if_pos (by omega)] at value
      rw [reads b (by omega) (by rw [value]; exact fresh), value, bytes]
      exact .inr ⟨notPoison, by omega⟩
  · have value := byte (b / 16)
    rw [if_neg (by omega), if_neg (by omega)] at value
    split at value
    · obtain ⟨notFull, notPoison, bytes, fresh⟩ :=
        partialOf_zero (show size % 16 < 16 by omega)
      rw [reads b below (by rw [value]; exact fresh), value, bytes]
      rintro (full | ⟨-, more⟩)
      · exact notFull full
      · omega
    · rw [reads b below (by rw [value]; decide), value]
      rintro (full | ⟨notPoison, -⟩)
      · exact absurd full (by decide)
      · exact notPoison (by decide)
  · rw [byte j, if_pos (by omega)]

end Poison

/-! ## Which replacements are guarded -/

/-- The stack a function runs on: the thread's own, or one apart from it. -/
inductive Stack (ctx : Context) (low high : Nat) : Prop
  | own (bottom : ctx.stackBottom = low) (top : ctx.stackTop = high)
  | other (apart : high ≤ ctx.stackBottom ∨ ctx.stackTop ≤ low)

/-- The widest window, all of it addressable. -/
def untouched : Shadow where
  bits := 56
  mask := 0xFFFFFFFFFFFFF
  byte _ := 0
  wf := .inr (by decide)

theorem untouched_addressable (ctx : Context) (b : Nat) : Addressable ctx untouched b :=
  addressable_of_full (by rw [settled_of_full] <;> exact (by decide : shadowFull 0))

/-- The stack has no aligned place for an object of `size` bytes and its
redzone, counted in 64-bit words. -/
def NoPlace (low high size : Nat) (alignment : Align) : Prop :=
  ∀ address, address % max 32 alignment.value = 0 → low ≤ address →
    high < address + (size + 63) / 32 * 32 % 0x10000000000000000

theorem noPlace_iff (low high : Nat) (count element : BitVec 64) (alignment : Align) :
    NoPlace low high (total count element) alignment ↔
      ∀ address, ¬ (replacement count element alignment).At low high address := by
  have padded : (replacement count element alignment).padded =
      (total count element + 63) / 32 * 32 % 0x10000000000000000 := by
    have bytes : (count * element).toNat = total count element % 0x10000000000000000 :=
      BitVec.toNat_mul count element
    unfold replacement FrameAlign
    rw [bytes]
    dsimp only
    omega
  constructor
  · intro none address at'
    have beyond := none address at'.aligned at'.above
    have below := at'.below
    omega
  · intro none address aligned above
    by_contra held
    exact none address ⟨aligned, above, by omega⟩

/-- Every replacement that the stack holds is guarded if and only if the size
and its redzone fit a word, and so does the extent the call knows of a stack
that is not the thread's own, or the stack holds none. -/
theorem alloca_guarded_iff (ctx : Context) (page low high : Nat) (pages : 0 < page)
    (stack : Stack ctx low high) (narrow : high ≤ 2 ^ 56) (count element : BitVec 64)
    (alignment : Align) :
    HeldIsGuarded ctx page low high count element alignment ↔
      (total count element + 64 ≤ 0x10000000000000000 ∧
        ((ctx.stackBottom = low ∧ ctx.stackTop = high) ∨
          total count element + 32 ≤ 1 <<< 30)) ∨
        NoPlace low high (total count element) alignment := by
  have giga : 1 <<< 30 = 0x40000000 := rfl
  rw [noPlace_iff]
  constructor
  · intro guarded
    by_contra neither
    obtain ⟨wrong, held⟩ := not_or.mp neither
    push Not at held
    obtain ⟨address, at'⟩ := held
    have here := guarded untouched address (by decide) narrow at'
    have small := small_of_room alignment here.room
    obtain ⟨bytes, padded⟩ := replacement_of_small alignment small
    refine wrong ⟨small, ?_⟩
    by_contra other
    obtain ⟨notOwn, long⟩ := not_or.mp other
    have apart : ¬ onOwnStack ctx address (address + paddedOf (total count element)) := by
      rintro ⟨-, below, above⟩
      have above' := at'.above
      have below' := at'.below
      rw [padded] at below'
      unfold paddedOf at above
      cases stack with
      | own bottom top => exact notOwn ⟨bottom, top⟩
      | other apart => omega
    have beyond : 1 <<< 30 < paddedOf (total count element) := by
      unfold paddedOf
      omega
    have skipped : allocaPoison ctx page untouched address (total count element) = untouched :=
      allocaPoison_skips _ apart beyond small
    rw [bytes, skipped, padded] at here
    exact here.redzone (address + total count element) (Nat.le_refl _) (by omega)
      (untouched_addressable ctx _)
  · rintro (⟨small, known⟩ | none) s address ready inside at'
    · obtain ⟨bytes, padded⟩ := replacement_of_small alignment small
      have above := at'.above
      have below := at'.below
      rw [padded] at below
      rw [bytes, padded]
      refine allocaPoison_guarded ready pages small at'.aligned_frame ?_ ?_
      · unfold paddedOf
        omega
      · unfold paddedOf
        split
        · rename_i own
          unfold onOwnStack at own
          cases stack with
          | own bottom top => omega
          | other apart => omega
        · rename_i notOwn
          rcases known with ⟨bottom, top⟩ | short
          · exact absurd ⟨by omega, by omega, by omega⟩ notOwn
          · omega
    · exact absurd at' (none address)

def mainStack : Context :=
  ⟨0x1000, 0x100000, 0x200000, false, fun _ => ⟨false, false, 0, 0⟩, false⟩

theorem alloca_guarded_ten : 0 < 4096 ∧ HeldIsGuarded mainStack 4096 0x100000 0x200000 10#64 8#64 ⟨3⟩ :=
  ⟨by decide, (alloca_guarded_iff mainStack 4096 0x100000 0x200000 (by decide) (.own rfl rfl)
    (by decide) 10#64 8#64 ⟨3⟩).mpr (.inl ⟨by decide, .inl ⟨rfl, rfl⟩⟩)⟩

/-- `char a[n]` with `n` converted from -1: 32 bytes for it. -/
theorem alloca_wraps : ¬ ∀ (ctx : Context) (page low high : Nat), 0 < page →
    ctx.stackBottom = low → ctx.stackTop = high → high ≤ 2 ^ 56 →
      ∀ (count element : BitVec 64) (alignment : Align),
        HeldIsGuarded ctx page low high count element alignment := by
  intro all
  have guarded := all mainStack 4096 0x100000 0x200000 (by decide) rfl rfl (by decide)
    0xFFFFFFFFFFFFFFFF#64 1#64 ⟨0⟩ untouched 0x100000 (by decide) (by decide)
    ⟨by decide, by decide, by decide⟩
  exact absurd guarded.room (by decide)

end WeaveC.Pass
