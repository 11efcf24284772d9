import WeaveC.Pass.Inline
import WeaveC.Runtime.Decided

/-!
# Versioned loops

Rule 6.4 runs a copy of a loop without the guards whose bytes over the whole
trip one range covers, when the test in the preheader finds the trip long
enough, no bound of a range past 64 bits, every range addressable and no base
null.  Colors are left out: without a root a guard is its bytes and its base.
-/

namespace WeaveC.Pass.Loops

open WeaveC.Library WeaveC.Runtime

/-- A value the preheader can compute. -/
abbrev Expr := Env → BitVec 64

/-- What `ScalarEvolution` says of a value in the loop. -/
inductive Scev where
  | invariant (value : Expr)
  /-- A recurrence, perhaps of another loop; its step when that is a constant. -/
  | recurrence (start : Expr) (step : Option (BitVec 64)) (ofLoop affine : Bool)
  | other

structure ScalarEvolution where
  getSCEV : Value → Scev
  isLoopInvariant : Value → Bool

inductive MarkerKind where
  | guard
  | range
  | string
  | disjoint
  deriving DecidableEq

/-- One marker of the loop. -/
structure Marker where
  kind : MarkerKind
  pointer : Value
  bytes : Value
  keep : Bool
  nullBase : Option Value

/-- A guard whose bytes over the whole trip one range covers: from `start`,
moving by `step` bytes per iteration (0 when invariant), `bytes` wide. -/
structure Ranged where
  marker : Marker
  start : Expr
  step : BitVec 64
  bytes : Expr
  nullBase : Option Value

/-- The base a guard tests for null. -/
def Marker.tested (marker : Marker) : Option Value :=
  if marker.kind = .guard then marker.nullBase else none

/-- The guard of a marker, by its check: every byte of it, after the null test. -/
def Marker.guard (ctx : Context) (env : Env) (s : Shadow) (marker : Marker) : Outcome :=
  let address := (env marker.pointer).toNat
  let bytes := (env marker.bytes).toNat
  if nullTest env marker.tested then .error ⟨.nullDereference, address, 0⟩
  else if marker.kind = .range then range ctx s address bytes
  else guardSlow ctx s address bytes

/-- `getSignificantBits() <= 63`. -/
def fits63 (step : BitVec 64) : Bool :=
  decide (-0x4000000000000000 ≤ step.toInt ∧ step.toInt < 0x4000000000000000)

def rangeOf (evolution : ScalarEvolution) (marker : Marker) : Option Ranged :=
  if marker.kind ≠ .guard ∧ marker.kind ≠ .range ∨ marker.keep = true then none
  else if marker.tested.any (fun base => ! evolution.isLoopInvariant base) then none
  else
    match evolution.getSCEV marker.bytes with
    | .invariant bytes =>
        match evolution.getSCEV marker.pointer with
        | .invariant start => some ⟨marker, start, 0#64, bytes, marker.tested⟩
        | .recurrence start (some step) true true =>
            -- (a step of the most negative value has no magnitude in 64 bits)
            if fits63 step then some ⟨marker, start, step, bytes, marker.tested⟩ else none
        | _ => none
    | _ => none

/-- The test of the base, when there is one. -/
def Ranged.baseNotNull (range : Ranged) (entry : Env) : Bool :=
  match range.nullBase with
  | none => true
  | some base => decide (entry base ≠ 0#64)

def MinTrip : Nat := 16

/-- The bounds of a range, in 64 bits, with whether one of them overflows. -/
structure Bounds where
  overflow : Bool
  low : Nat
  high : Nat

/-- The arithmetic of the test for one range. -/
def Ranged.bounds (range : Ranged) (entry : Env) (trips : BitVec 64) : Bounds :=
  let first := (range.start entry).toNat
  let bytes := (range.bytes entry).toNat
  let magnitude := (if range.step.slt 0#64 then 0#64 - range.step else range.step).toNat
  let product := trips.toNat * magnitude
  let span := product % 2 ^ 64
  let moves := decide (range.step ≠ 0#64)
  let ascends := moves && ! range.step.slt 0#64
  let descends := moves && range.step.slt 0#64
  let last := if ascends then (first + span) % 2 ^ 64 else first
  { overflow := moves && decide (2 ^ 64 ≤ product) ||
      ascends && decide (2 ^ 64 ≤ first + span) || descends && decide (first < span) ||
      decide (2 ^ 64 ≤ last + bytes)
    low := if descends then (first + 2 ^ 64 - span) % 2 ^ 64 else first
    high := (last + bytes) % 2 ^ 64 }

/-- What the test says of a range once the runtime is called. -/
def Bounds.test (bounds : Bounds) (baseNotNull : Bool) (called : Bool × Shadow) : Bool × Shadow :=
  (! bounds.overflow && called.1 && baseNotNull, called.2)

section

variable (ctx : Context) (entry : Env) (trips : BitVec 64)

/-- The part of the test for one range. -/
def rangeTest (s : Shadow) (range : Ranged) : Bool × Shadow :=
  let bounds := range.bounds entry trips
  bounds.test (range.baseNotNull entry)
    (rangeOk ctx s bounds.low ((bounds.high + 2 ^ 64 - bounds.low) % 2 ^ 64))

/-- The test of every range; each is called. -/
def rangesAddressable (s : Shadow) : List Ranged → Bool × Shadow
  | [] => (true, s)
  | range :: ranges =>
      let first := rangeTest ctx entry trips s range
      let rest := rangesAddressable first.2 ranges
      (first.1 && rest.1, rest.2)

/-- Whether the loop without guards runs, and the shadow it runs in. -/
def versioned (s : Shadow) (ranges : List Ranged) : Bool × Shadow :=
  if trips.toNat < MinTrip - 1 then (false, s) else rangesAddressable ctx entry trips s ranges

end

end WeaveC.Pass.Loops
