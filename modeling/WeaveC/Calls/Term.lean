import Mathlib.Data.Nat.Basic
import Mathlib.Tactic.Common

/-!
# Terms of the library table

A row's extents are terms over a call's arguments and the lengths of its
strings.  The table evaluates one in checked signed arithmetic on known
values; the pass emits code that computes it in unsigned arithmetic that
saturates, where a string's length is bounded by the `min` around it.
-/

namespace WeaveC.Calls

/-- `LibTerm`; a value is an `std::int64_t`. -/
inductive LibTerm where
  | constant (value : Int)
  | argument (arg : Nat)
  | stringLength (arg : Nat)
  | product (left right : LibTerm)
  | sum (left right : LibTerm)
  | difference (left : LibTerm) (value : Int)
  | min (left right : LibTerm)
  | quotient (left : LibTerm) (value : Int)
  deriving DecidableEq

def Int64.max : Int := 0x7FFFFFFFFFFFFFFF

def Int64.min : Int := -0x8000000000000000

namespace LibTerm

/-- A term the language spells: numbers have no sign, a divisor is positive and
an argument is one of 256. -/
def Valid : LibTerm → Prop
  | constant value => 0 ≤ value ∧ value ≤ Int64.max
  | argument arg | stringLength arg => arg ≤ 255
  | product left right | sum left right | min left right => left.Valid ∧ right.Valid
  | difference left value => left.Valid ∧ 0 ≤ value ∧ value ≤ Int64.max
  | quotient left value => left.Valid ∧ 0 < value ∧ value ≤ Int64.max

/-! ## The table's evaluator -/

/-- Known values for the leaves of a term. -/
structure Values where
  argument : Nat → Option Int
  stringLength : Nat → Option Int

def checkedAdd (left right : Int) : Option Int :=
  if 0 < right ∧ Int64.max - right < left ∨ right < 0 ∧ left < Int64.min - right then none
  else some (left + right)

def checkedMultiply (left right : Int) : Option Int :=
  if left = 0 ∨ right = 0 then some 0
  else
    let overflows :=
      if 0 < left then
        if 0 < right then decide (Int64.max.tdiv right < left)
        else decide (right < Int64.min.tdiv left)
      else if 0 < right then decide (left < Int64.min.tdiv right)
      else decide (left < Int64.max.tdiv right)
    if overflows then none else some (left * right)

def evaluate (values : Values) : LibTerm → Option Int
  | constant value => some value
  | argument arg => values.argument arg
  | stringLength arg => values.stringLength arg
  | difference left value =>
      match left.evaluate values with
      | none => none
      | some l => if value = Int64.min then none else checkedAdd l (-value)
  | quotient left value =>
      match left.evaluate values with
      | none => none
      | some l =>
          if value ≤ 0 then none
          -- rounded down, as a mathematical integer
          else some (if 0 ≤ l then l.tdiv value else -((-l + value - 1).tdiv value))
  | product left right =>
      match left.evaluate values, right.evaluate values with
      | some l, some r => checkedMultiply l r
      | _, _ => none
  | sum left right =>
      match left.evaluate values, right.evaluate values with
      | some l, some r => checkedAdd l r
      | _, _ => none
  | min left right =>
      match left.evaluate values, right.evaluate values with
      | some l, some r => some (if r < l then r else l)
      | _, _ => none

end LibTerm

/-! ## The emitted code -/

/-- An argument of the call, as the IR has it: an integer of some width, or a
pointer to a string, which may be a literal the pass can read. -/
inductive Argument where
  | integer (width : Nat) (value : BitVec width) (constant : Bool)
  | pointer (literal : Bool) (length : Nat)

/-- An `i64` the emitted code computes, and whether the IR has it as a constant. -/
structure Operand where
  value : Nat
  constant : Bool

/-- One call being guarded, by its row's arguments. -/
structure LibraryCall where
  argument : Nat → Option Argument
  wide : Bool
  /-- Whether the builder folds an intrinsic of constants. -/
  folds : Bool

def UInt64.max : Nat := 0xFFFFFFFFFFFFFFFF

/-- The result of an intrinsic with an overflow flag, or the largest value. -/
def saturated (exact : Nat) : Nat := if UInt64.max < exact then UInt64.max else exact

namespace LibraryCall

variable (call : LibraryCall)

/-- The checked length of a string, at most `bound`; a literal's is a
constant. -/
def stringLength (literal : Bool) (length : Nat) (bound : Option Operand) : Operand :=
  if call.wide = false ∧ literal = true then
    match bound with
    | some b => ⟨if b.constant then Nat.min length b.value else length, true⟩
    | none => ⟨length, true⟩
  else
    match bound with
    | some b => ⟨Nat.min length b.value, false⟩
    | none => ⟨Nat.min length UInt64.max, false⟩

/-- A term's value as an unsigned 64-bit integer, saturated; `bound` bounds the
`strlen` leaves inside `min`. -/
def evaluate (bound : Option Operand) : LibTerm → Option Operand
  | .constant value => some ⟨(max value 0).toNat, true⟩
  | .argument arg =>
      match call.argument arg with
      | some (.integer _ value constant) => some ⟨(value.signExtend 64).toNat, constant⟩
      | _ => none
  | .stringLength arg =>
      match call.argument arg with
      | some (.pointer literal length) => some (call.stringLength literal length bound)
      | _ => none
  | .product left right =>
      match evaluate bound left, evaluate bound right with
      | some l, some r =>
          some ⟨saturated (l.value * r.value), call.folds && l.constant && r.constant⟩
      | _, _ => none
  | .sum left right =>
      match evaluate bound left, evaluate bound right with
      | some l, some r =>
          some ⟨saturated (l.value + r.value), call.folds && l.constant && r.constant⟩
      | _, _ => none
  | .difference left value =>
      match evaluate bound left with
      | none => none
      | some l =>
          let subtrahend := (max value 0).toNat
          some ⟨if l.value < subtrahend then 0 else l.value - subtrahend, l.constant⟩
  | .min left right =>
      match evaluate bound left with
      | none => none
      | some l =>
          -- a string in the second operand is scanned no further than the first
          match evaluate (some l) right with
          | none => none
          | some r => some ⟨Nat.min l.value r.value, call.folds && l.constant && r.constant⟩
  | .quotient left value =>
      match evaluate bound left with
      | none => none
      | some l => if value ≤ 0 then none else some ⟨l.value / value.toNat, l.constant⟩

end LibraryCall

end WeaveC.Calls
