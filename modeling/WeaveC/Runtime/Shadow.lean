import WeaveC.Library.Bytes
import Mathlib.Tactic.Common

/-!
# The shadow

One byte per 16-byte granule of a window of the address space.  Addresses and
lengths are natural numbers standing for 64-bit words; arithmetic that can
wrap says so.

A byte below `0x80` is a whole granule of that color, `1ccc kkkk` a granule
whose first `k` bytes are addressable in an object whose color's low bits are
`ccc`, and a byte from `0xF0` on is poison.
-/

namespace WeaveC.Runtime

open WeaveC.Library

/-! ## Values -/

namespace ShadowValue

def addressable : UInt8 := 0x00
def returned : UInt8 := 0xF5
def user : UInt8 := 0xF7
def stackScope : UInt8 := 0xF8
def stackLeft : UInt8 := 0xF1
def stackMid : UInt8 := 0xF2
def stackRight : UInt8 := 0xF3
def stackDynamic : UInt8 := 0xF4
def global : UInt8 := 0xF9
def heapTail : UInt8 := 0xFA
def heapFreed : UInt8 := 0xFD
def null : UInt8 := 0xFE

end ShadowValue

abbrev shadowFull (v : UInt8) : Prop := v.toNat < 0x80

abbrev shadowPoison (v : UInt8) : Prop := 0xF0 ≤ v.toNat

/-- The addressable bytes of a granule that is neither whole nor poison. -/
def shadowBytes (v : UInt8) : Nat := v.toNat &&& 15

def shadowPartialOf (color k : Nat) : UInt8 := UInt8.ofNat (0x80 ||| ((color &&& 7) <<< 4) ||| k)

/-- The low three bits of a granule's color, whole or partial. -/
def shadowClass (v : UInt8) : Nat :=
  if v.toNat < 0x80 then v.toNat &&& 7 else (v.toNat >>> 4) &&& 7

/-- The `n`-th color: between 1 and 126, its low bits never 7. -/
def color (n : Nat) : UInt8 :=
  let m := n % 111 + 1
  UInt8.ofNat (((m / 7) <<< 3) ||| (m % 7))

/-! ## The map -/

/-- What `__weavec_rt_shadow` describes.  Until the shadow is reserved `mask`
is 0 and every granule reads the scratch bytes; the window is then the whole
address space.  Once reserved, the window is that of user addresses, whose
width the stack gives: at least 39 bits, and below 2^56 on every target. -/
structure Shadow where
  bits : Nat
  mask : Nat
  byte : Nat → UInt8
  wf : mask = 0 ∧ bits = 64 ∨ mask = 2 ^ (bits - 4) - 1 ∧ 39 ≤ bits ∧ bits ≤ 56

namespace Shadow

abbrev Ready (s : Shadow) : Prop := s.mask ≠ 0

/-- Whether the shadow describes `address` itself rather than an alias. -/
abbrev InWindow (s : Shadow) (address : Nat) : Prop := 64 ≤ s.bits ∨ address >>> s.bits = 0

/-- Where the shadow byte of `address` lies from the shadow's base. -/
def index (s : Shadow) (address : Nat) : Nat := (address >>> 4) &&& s.mask

/-- `*weavecRtShadowOf(address)`. -/
def of (s : Shadow) (address : Nat) : UInt8 := s.byte (s.index address)

/-- A store of one shadow byte. -/
def put (s : Shadow) (i : Nat) (v : UInt8) : Shadow :=
  { s with byte := Function.update s.byte i v }

@[simp] theorem put_bits (s : Shadow) (i : Nat) (v : UInt8) : (s.put i v).bits = s.bits := rfl

@[simp] theorem put_mask (s : Shadow) (i : Nat) (v : UInt8) : (s.put i v).mask = s.mask := rfl

@[simp] theorem put_index (s : Shadow) (i : Nat) (v : UInt8) (address : Nat) :
    (s.put i v).index address = s.index address := rfl

@[simp] theorem put_byte (s : Shadow) (i : Nat) (v : UInt8) (j : Nat) :
    (s.put i v).byte j = if j = i then v else s.byte j := by
  simp [put, Function.update_apply]

theorem Ready.bounds {s : Shadow} (ready : s.Ready) :
    s.mask = 2 ^ (s.bits - 4) - 1 ∧ 39 ≤ s.bits ∧ s.bits ≤ 56 :=
  s.wf.resolve_left fun scratch => ready scratch.1

theorem inWindow_iff {s : Shadow} (ready : s.Ready) (address : Nat) :
    s.InWindow address ↔ address < 2 ^ s.bits := by
  have bounds := ready.bounds
  rw [InWindow, Nat.shiftRight_eq_div_pow, Nat.div_eq_zero_iff]
  have : 2 ^ s.bits ≠ 0 := (Nat.two_pow_pos _).ne'
  constructor
  · rintro (wide | zero | small)
    · omega
    · exact absurd zero this
    · exact small
  · exact fun small => .inr (.inr small)

theorem index_eq_mod {s : Shadow} (ready : s.Ready) (address : Nat) :
    s.index address = address / 16 % 2 ^ (s.bits - 4) := by
  rw [index, ready.bounds.1, Nat.and_two_pow_sub_one_eq_mod, Nat.shiftRight_eq_div_pow]

theorem two_pow_bits {s : Shadow} (ready : s.Ready) : 2 ^ s.bits = 16 * 2 ^ (s.bits - 4) := by
  have bounds := ready.bounds
  have split : s.bits = 4 + (s.bits - 4) := by omega
  calc 2 ^ s.bits = 2 ^ (4 + (s.bits - 4)) := by rw [← split]
    _ = 16 * 2 ^ (s.bits - 4) := by rw [Nat.pow_add]

theorem index_eq_div {s : Shadow} (ready : s.Ready) {address : Nat}
    (inside : address < 2 ^ s.bits) : s.index address = address / 16 := by
  have := two_pow_bits ready
  rw [index_eq_mod ready, Nat.mod_eq_of_lt]
  omega

end Shadow

end WeaveC.Runtime
