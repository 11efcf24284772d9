import WeaveC.Library.Transition
import WeaveC.Pass.Dominated

/-!
# The enforcement ledger

The guard passes record each access and library call they guard, and later say
of each copy of a guard the optimizer left whether it stays; `finish` settles
the outcome of each row.  Between the passes the optimizer copies and removes
what it finds.
-/

namespace WeaveC.Pass.Enforcement

open WeaveC.Library

inductive Outcome where
  | guarded
  | proven
  | unguarded
  deriving DecidableEq

/-- What the pass decided for one access; where it is plays no part. -/
structure LedgerRow where
  outcome : Outcome
  reason : String
  deriving DecidableEq

/-- The copies of a row's guard, in counters of 32 bits. -/
structure Copies where
  stay : BitVec 32
  removed : BitVec 32
  reason : String
  deriving DecidableEq

structure EnforcementLedger where
  rows : List LedgerRow
  copies : List Copies
  guarded : Nat
  proven : Nat
  unguarded : Nat
  deriving DecidableEq

namespace EnforcementLedger

variable (ledger : EnforcementLedger)

/-- Adds a row; its index names it. -/
def add (row : LedgerRow) : EnforcementLedger × Nat :=
  ({ ledger with
      rows := ledger.rows ++ [row]
      copies := ledger.copies ++ [⟨0#32, 0#32, ""⟩] }, ledger.rows.length)

def copy (index : Nat) (stays : Bool) (reason : String) : EnforcementLedger :=
  match ledger.copies[index]? with
  | none => ledger
  | some seen =>
      let seen := if stays then { seen with stay := seen.stay + 1#32 }
        else { seen with removed := seen.removed + 1#32, reason := reason }
      { ledger with copies := ledger.copies.set index seen }

/-- The row once its copies are known. -/
def settle (row : LedgerRow) (seen : Copies) : LedgerRow :=
  if row.outcome = .guarded ∧ seen.stay = 0#32 then
    -- every copy removed, or none left
    ⟨.proven, if seen.removed ≠ 0#32 then seen.reason else "optimized"⟩
  else row

def finish : EnforcementLedger :=
  let rows := List.zipWith settle ledger.rows ledger.copies
  { rows := rows
    copies := ledger.copies
    guarded := rows.countP fun row => row.outcome = .guarded
    proven := rows.countP fun row => row.outcome = .proven
    unguarded := rows.countP fun row => row.outcome = .unguarded }

end EnforcementLedger

/-- What the passes leave in the code for a row. -/
inductive Element where
  /-- The marker of a guard or a range: its bytes when they are constant, and
  whether it is only a monitor's. -/
  | marker (row : Nat) (width : Option (BitVec 64)) (proven : Bool)
  | stringMarker (row : Nat)
  /-- A string marker's scan, inline or by the runtime. -/
  | stringCheck (row : Nat)
  /-- A scan of a wide string by the runtime. -/
  | wideScan (row : Nat)
  /-- A call of the runtime's checked version, made before or after the optimizer. -/
  | checkedCall (row : Nat) (late : Bool)
  deriving DecidableEq

def Element.isMarker : Element → Bool
  | .marker _ _ _ => true
  | .stringMarker _ => true
  | _ => false

/-- An access as the expansion leaves it: its state, and the bytes its guard
has after merging. -/
structure Access where
  row : Nat
  state : Dominated.State
  guardWidth : Option (BitVec 64)
  deriving DecidableEq

inductive Phase where
  | optimizing
  | expanding
  | finished
  deriving DecidableEq

structure State where
  verify : Bool
  phase : Phase
  ledger : EnforcementLedger
  code : List Element
  accesses : List Access

inductive Event where
  /-- An access in unsafe code. -/
  | leave
  | insertGuard (width : Option (BitVec 64)) (reason : String)
  | insertString
  | scanWide
  | redirect
  /-- Inlining and unrolling, and the copy of a versioned loop. -/
  | duplicate (element : Element)
  /-- Redundancy elimination and dead code, and a versioned loop's range. -/
  | delete (element : Element)
  /-- The length of a range becomes a constant. -/
  | fold (row : Nat) (proven : Bool) (width : BitVec 64)
  | prune (row : Nat) (width : BitVec 64) (proven : Bool)
  | startExpand
  | expand (row : Nat) (width : Option (BitVec 64)) (proven : Bool) (access : Access)
  | expandString (row : Nat)
  | finish

/-- The reason a ledger row gives for a removed guard. -/
def reasonOf : Dominated.State → String
  | .inBounds => "in-bounds"
  | .dominated => "dominated"
  | .merged => "merged"
  | .guard => "access"

namespace State

variable (s : State)

/-- A row recorded as guarded, with what its check puts in the code. -/
def record (reason : String) (element : Nat → Element) : State :=
  let added := s.ledger.add ⟨.guarded, reason⟩
  { s with ledger := added.1, code := s.code ++ [element added.2] }

def take (element : Element) (next : State → Option State) : Option State :=
  if element ∈ s.code then next { s with code := s.code.erase element } else none

def step (s : State) : Event → Option State
  | .leave =>
      if s.phase = .optimizing then
        some { s with ledger := (s.ledger.add ⟨.unguarded, "unsafe"⟩).1 }
      else none
  | .insertGuard width reason =>
      -- before the optimizer, or by the late pass for a cheap call
      if s.phase ≠ .finished then some (s.record reason fun row => .marker row width false) else none
  | .insertString =>
      if s.phase ≠ .finished then some (s.record "string" .stringMarker) else none
  | .scanWide =>
      if s.phase ≠ .finished then some (s.record "string" .wideScan) else none
  | .redirect =>
      match s.phase with
      | .optimizing => some (s.record "checked-call" fun row => .checkedCall row false)
      | .expanding =>
          let row := s.ledger.rows.length
          let recorded := s.record "checked-call" fun row => .checkedCall row true
          some { recorded with ledger := recorded.ledger.copy row true "checked-call" }
      | .finished => none
  | .duplicate element =>
      if s.phase = .optimizing ∧ element ∈ s.code then
        some { s with code := s.code ++ [element] }
      else none
  | .delete element => if s.phase = .optimizing then s.take element some else none
  | .fold row proven width =>
      if s.phase = .optimizing then
        s.take (.marker row none proven) fun s =>
          some { s with code := s.code ++ [.marker row (some width) proven] }
      else none
  | .prune row width proven =>
      if s.phase = .optimizing then
        s.take (.marker row (some width) proven) fun s =>
          if s.verify then some { s with code := s.code ++ [.marker row (some width) true] }
          else some { s with ledger := s.ledger.copy row false "in-bounds" }
      else none
  | .startExpand =>
      if s.phase = .optimizing then some { s with phase := .expanding } else none
  | .expand row width proven access =>
      if s.phase = .expanding ∧ access.row = row ∧ access.guardWidth.isSome = width.isSome ∧
          (proven = true → access.state = .inBounds) then
        s.take (.marker row width proven) fun s =>
          some { s with
            ledger := s.ledger.copy row (access.state = .guard) (reasonOf access.state)
            accesses := s.accesses ++ [access] }
      else none
  | .expandString row =>
      if s.phase = .expanding then
        s.take (.stringMarker row) fun s => some { s with code := s.code ++ [.stringCheck row] }
      else none
  | .finish =>
      if s.phase = .expanding ∧ ∀ element ∈ s.code, element.isMarker = false then
        some { s with phase := .finished, ledger := s.ledger.finish }
      else none

end State

def initial (verify : Bool) : State := ⟨verify, .optimizing, ⟨[], [], 0, 0, 0⟩, [], []⟩

/-- Whether the expansion emits a check of the access; what verify mode emits
for an access whose guard was removed is a monitor. -/
def Access.emits (access : Access) : Bool :=
  access.state = .guard && access.guardWidth ≠ some 0#64

/-- A check of a row in the emitted code. -/
def Remains (s : State) (row : Nat) : Prop :=
  (∃ access ∈ s.accesses, access.row = row ∧ access.emits = true) ∨
    .stringCheck row ∈ s.code ∨ .wideScan row ∈ s.code ∨ ∃ late, .checkedCall row late ∈ s.code

end WeaveC.Pass.Enforcement
