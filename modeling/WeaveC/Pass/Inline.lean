import WeaveC.Runtime.Color

/-!
# Inline guards

The code the guard pass emits for one guard, as the function it computes: the
value is the shadow when the access is let through, or the report of the call
that stops it.  `i64` values are numbers below `2^64` whose sums wrap, an `i8`
is a byte, and a signed comparison of a byte with 0 asks for its sign bit.
-/

namespace WeaveC.Pass

open WeaveC.Library WeaveC.Runtime

/-- An IR value; its run-time value is the environment's. -/
abbrev Value := Nat

abbrev Env := Value → BitVec 64

/-- A power of two, as `llvm::Align` holds it. -/
structure Align where
  shift : Nat

def Align.value (alignment : Align) : Nat := 2 ^ alignment.shift

/-- An access a merged guard covers. -/
structure Member where
  pointer : Value
  width : Nat

/-- The root an access is computed from, with its shadow byte; a monitor's
mismatch reports with its own site. -/
structure RootCheck where
  root : Value
  byte : UInt8
  monitor : Bool

/-- The root's byte, sign-extended to 32 bits. -/
def RootCheck.shadow (root : RootCheck) : Nat :=
  if root.byte.toNat < 0x80 then root.byte.toNat else root.byte.toNat + 0xFFFFFF00

/-- `icmp slt i8 v, 0`. -/
abbrev negative (v : UInt8) : Prop := 0x80 ≤ v.toNat

/-- Poison, or a partial granule that ends at or before byte `last`. -/
def endsPast (v : UInt8) (last : Nat) : Prop := 0xF0 ≤ v.toNat ∨ v.toNat &&& 15 ≤ last

instance (v : UInt8) (last : Nat) : Decidable (endsPast v last) :=
  inferInstanceAs (Decidable (_ ∨ _))

/-- A power of two at most 16 whose alignment keeps it in one granule. -/
def OneGranule (width : Nat) (alignment : Align) : Prop :=
  width ≤ 16 ∧ width ≠ 0 ∧ width &&& (width - 1) = 0 ∧ width ≤ alignment.value

instance (width : Nat) (alignment : Align) : Decidable (OneGranule width alignment) :=
  inferInstanceAs (Decidable (_ ∧ _))

/-- Whether the null test of `nullBase` fails. -/
def nullTest (env : Env) : Option Value → Bool
  | none => false
  | some base => decide (env base = 0#64)

/-- When the root is the base, a null base goes to the check block, its shadow
being poison, and the null test can wait there. -/
def nullInCheck : Option RootCheck → Option Value → Bool
  | some root, some base => decide (root.root = base)
  | _, _ => false

section

variable (ctx : Context) (env : Env)

/-- The slow path: the full check, or that of each access a merged guard
covers. -/
def slowGuard (s : Shadow) (address width : Nat) : List Member → Outcome
  | [] => guardSlow ctx s address width
  | members => members.foldlM
      (fun s member => guardSlow ctx s (env member.pointer).toNat member.width) s

/-- The color test all but the one-granule form make apart. -/
def colorCheck (s : Shadow) (address width : Nat) (root : RootCheck) : Outcome :=
  let value := s.of address
  if value.toNat ≠ root.shadow ∧ value ≠ root.byte then
    jumpSlow ctx s address width (env root.root).toNat root.byte
  else .ok s

/-- The low bits of a byte's color, as the emitted `select` computes them. -/
def classOf (byte : UInt8) : Nat :=
  if negative byte then (byte.toNat >>> 4) &&& 7 else byte.toNat &&& 7

def differs (value rootByte : UInt8) : Prop :=
  (¬ negative value ∧ ¬ negative rootByte) ∧ value ≠ rootByte ∨ classOf value ≠ classOf rootByte

instance (value rootByte : UInt8) : Decidable (differs value rootByte) :=
  inferInstanceAs (Decidable (_ ∨ _))

/-- The one-granule form. -/
def emitOneGranule (s : Shadow) (address width : Nat) (nullBase : Option Value)
    (members : List Member) (root : Option RootCheck) : Outcome :=
  let value := s.of address
  let offset := address &&& 15
  let null := nullTest env nullBase
  let nonzero := match root with
    | none => decide (negative value)
    | some root => decide (value.toNat ≠ root.shadow)
  if ¬ (nonzero || null && ! nullInCheck root nullBase) then .ok s
  else if null then .error ⟨.nullDereference, address, 0⟩
  else
    let last := (offset + (width - 1)) % 2 ^ 8
    match root with
    | none => if endsPast value last then slowGuard ctx env s address width members else .ok s
    | some root =>
        let bad := negative value ∧ endsPast value last
        if root.monitor = false ∧ members = [] then
          -- one cold call decides the guard and the color
          if bad ∨ differs value root.byte then
            guardJumpSlow ctx s address width (env root.root).toNat root.byte
          else .ok s
        else do
          let s ← if bad then slowGuard ctx env s address width members else .ok s
          if value ≠ root.byte then
            jumpSlow ctx s address width (env root.root).toNat root.byte
          else .ok s

/-- The two-granule form, up to 16 bytes: the first byte's granule and the
last byte's. -/
def emitTwoGranules (s : Shadow) (little : Bool) (address width : Nat) (null : Bool)
    (members : List Member) : Outcome :=
  let lastAddress := (address + (width - 1)) % 2 ^ 64
  let first := s.of address
  let last := s.of lastAddress
  let nonzero :=
    if little then decide (loadLE s.byte (s.index address) 2 &&& 0x8080 ≠ 0)
    else decide (negative (first ||| last))
  if ¬ (nonzero || null) then .ok s
  else if null then .error ⟨.nullDereference, address, 0⟩
  else
    let crosses := (address ^^^ lastAddress) >>> 4 ≠ 0
    let lastByte := lastAddress &&& 15
    if crosses ∧ negative first ∨ negative last ∧ endsPast last lastByte then
      slowGuard ctx env s address width members
    else .ok s

/-- The fast test of a constant width: every granule the access could touch,
whatever its offset in the first. -/
def chunkFast (s : Shadow) (address width : Nat) : Bool :=
  let reach := (15 + width + 15) / 16
  if reach ≤ 2 then
    let mask := 0x8080808080808080 % 2 ^ (8 * reach)
    decide (loadLE s.byte (s.index address) reach &&& mask ≠ 0)
  else
    let mask := if 8 ≤ reach then 2 ^ 64 - 1 else (1 <<< (8 * reach)) - 1
    decide (loadLE s.byte (s.index address) 8 &&& (mask &&& 0x8080808080808080) ≠ 0)

/-- What the null test of `nullBase` reports, when it fails. -/
def nullReport (address : Nat) (nullBase : Option Value) : Option Report :=
  if nullTest env nullBase then some ⟨.nullDereference, address, 0⟩ else none

/-- The chunk form, from 1 to 113 bytes: up to eight granules, one load.
`null` is the report of a null test that fails, `slow` the call that decides
what the load cannot. -/
def chunkCheck {ε : Type} (s : Shadow) (address width : Nat) (constant : Bool) (null : Option ε)
    (slow : Except ε Shadow) : Except ε Shadow :=
  if constant ∧ width ≠ 0 ∧ width ≤ 113 ∧ ¬ (chunkFast s address width || null.isSome) then .ok s
  else
    let offset := address &&& 15
    let lastOffset := (offset + (width + 2 ^ 64 - 1)) % 2 ^ 64
    let granules := lastOffset >>> 4
    let chunk := loadLE s.byte (s.index address) 8
    let bits := granules <<< 3
    let rest := (chunk &&& ((1 <<< bits) - 1)) &&& 0x8080808080808080
    let lastValue := UInt8.ofNat (chunk >>> bits)
    if ¬ (decide (rest ≠ 0) || decide (negative lastValue) || null.isSome) then .ok s
    else
      match null with
      | some report => .error report
      | none =>
          let lastByte := lastOffset &&& 15
          if rest ≠ 0 ∨ negative lastValue ∧ endsPast lastValue lastByte then slow else .ok s

/-- The guard of `width` constant bytes at `pointer`. -/
def emitGuard (s : Shadow) (little : Bool) (pointer : Value) (width : Nat) (alignment : Align)
    (nullBase : Option Value) (members : List Member) (root : Option RootCheck) : Outcome :=
  let address := (env pointer).toNat
  if width = 0 then .ok s
  else do
    let s ← match root with
      | none => .ok s
      | some root =>
          if OneGranule width alignment then .ok s
          else colorCheck ctx env s address width root
    if 113 < width ∨ little = false ∧ 16 < width then
      if members = [] then range ctx s address width
      else slowGuard ctx env s address width members
    else if OneGranule width alignment then
      emitOneGranule ctx env s address width nullBase members root
    else if width ≤ 16 then
      emitTwoGranules ctx env s little address width (nullTest env nullBase) members
    else
      chunkCheck s address width true (nullReport env address nullBase)
        (slowGuard ctx env s address width members)

/-- The guard of a range whose length is a value: from 1 to 113 bytes inline,
the rest, and 0, through the runtime. -/
def emitRange (s : Shadow) (little : Bool) (pointer : Value) (length : BitVec 64)
    (constant : Bool) : Outcome :=
  let address := (env pointer).toNat
  let bytes := length.toNat
  if little = false then range ctx s address bytes
  else if (bytes + 2 ^ 64 - 1) % 2 ^ 64 < 113 then
    chunkCheck s address bytes constant none (slowGuard ctx env s address bytes [])
  else range ctx s address bytes

end

end WeaveC.Pass
