import Mathlib.Tactic.Common

/-!
# The root of an address

An access is held to the color of its root, the pointer its address is computed
from.  The search strips geps, casts and integer arithmetic, looks through phis
and selects whose inputs have one root, and remembers the roots that do not
depend on the nodes it is looking through.
-/

namespace WeaveC.Pass

/-! ## Values -/

/-- What the search asks of a pointer. -/
inductive Shape (Value : Type) where
  | gep (pointer : Value)
  | intToPtr (integer : Value)
  | phi (incoming : List Value)
  | select (ifTrue ifFalse : Value)
  | constantNull
  | undef
  | poison
  | constantExpr
  | other

inductive Opcode where
  | add
  | sub
  | or
  | other
  deriving DecidableEq

/-- What the search asks of an integer. -/
inductive IntegerShape (Value : Type) where
  | ptrToInt (pointer : Value)
  | binary (opcode : Opcode) (left right : Value)
  | other

/-- A function's values, with LLVM's `stripPointerCasts`. -/
structure Graph (Value : Type) where
  stripPointerCasts : Value → Value
  shape : Value → Shape Value
  integer : Value → IntegerShape Value

/-- The pointer an integer is computed from: none, one, or several. -/
structure IntegerPointer (Value : Type) where
  pointer : Option Value
  mixed : Bool

variable {Value : Type}

namespace Graph

/-- `pointerUnder`, with the levels that are left of its nine. -/
def pointerUnder (g : Graph Value) (left : Nat) (integer : Value) : IntegerPointer Value :=
  match g.integer integer with
  | .ptrToInt pointer => ⟨some pointer, false⟩
  | .other => ⟨none, false⟩
  | .binary opcode a b =>
      if opcode = .other then ⟨none, false⟩
      else
        match left with
        | 0 => ⟨none, true⟩
        | left + 1 =>
            let l := g.pointerUnder left a
            let r := g.pointerUnder left b
            -- a pointer subtracted, or two added, is a distance
            if l.mixed ∨ r.mixed ∨ (l.pointer.isSome ∧ r.pointer.isSome) ∨
                (opcode = .sub ∧ r.pointer.isSome) then ⟨none, true⟩
            else if l.pointer.isSome then l else r

/-- The geps, casts and integer arithmetic over a value stripped: none past
the steps that are left, or where the arithmetic is not on one pointer. -/
def stripped (g : Graph Value) : Nat → Value → Option Value
  | 0, _ => none
  | steps + 1, value =>
      let value := g.stripPointerCasts value
      match g.shape value with
      | .gep pointer => g.stripped steps pointer
      | .intToPtr integer =>
          let under := g.pointerUnder 9 integer
          match under.pointer with
          | none => none
          | some pointer => if under.mixed then none else g.stripped steps pointer
      | _ => some value

/-- The inputs of a phi or a select. -/
def inputs (g : Graph Value) (value : Value) : Option (List Value) :=
  match g.shape value with
  | .phi incoming => some incoming
  | .select ifTrue ifFalse => some [ifTrue, ifFalse]
  | _ => none

end Graph

/-! ## One search -/

/-- The roots that are remembered; a node may have none. -/
abbrev RootCache (Value : Type) := Value → Option (Option Value)

/-- `RootSearch`, but for the nodes being looked through, and whether it ran out
of its budget. -/
structure RootSearch (Value : Type) where
  known : RootCache Value
  cycles : Nat
  budget : Nat
  starved : Bool

/-- What a node's inputs gave so far. -/
structure InputRoots (Value : Type) where
  common : Option Value
  cycle : Option Value
  differ : Bool
  derived : Bool
  none : Bool

namespace InputRoots

def start : InputRoots Value := ⟨.none, .none, false, false, false⟩

variable [DecidableEq Value]

/-- An input's root.  One that comes back to a node being looked through
constrains nothing. -/
def add (g : Graph Value) (visiting : List Value) (f : InputRoots Value) (input root : Value) :
    InputRoots Value :=
  if root ∈ visiting then { f with cycle := some root }
  else
    let derived := f.derived || root != g.stripPointerCasts input
    match f.common with
    | .none => { f with common := some root, derived }
    | some common => { f with differ := f.differ || common != root, derived }

/-- The node's root. -/
def root (f : InputRoots Value) (value : Value) : Option Value :=
  if f.none then .none
  else
    match f.common with
    | .none => f.cycle
    | some common =>
        if !f.differ then some common else if !f.derived then some value else .none

end InputRoots

variable [DecidableEq Value]

namespace RootSearch

def remember (search : RootSearch Value) (value : Value) (root : Option Value) :
    RootSearch Value :=
  { search with known := Function.update search.known value (some root) }

end RootSearch

/-- The inputs of a node one after another, to the first without a root. -/
def lookThrough (g : Graph Value) (visiting : List Value)
    (rootUnder : Value → RootSearch Value → Option Value × RootSearch Value) :
    List Value → InputRoots Value → RootSearch Value → InputRoots Value × RootSearch Value
  | [], f, search => (f, search)
  | input :: rest, f, search =>
      match rootUnder input search with
      | (none, search) => ({ f with none := true }, search)
      | (some root, search) =>
          lookThrough g visiting rootUnder rest (f.add g visiting input root) search

/-- `rootUnder`.  Every node looked through takes one of the budget, so that the
recursion is no deeper than the budget. -/
def rootUnder (g : Graph Value) (fuel : Nat) (visiting : List Value) (value : Value)
    (search : RootSearch Value) : Option Value × RootSearch Value :=
  match g.stripped 64 value with
  | none => (none, search)
  | some value =>
      match g.inputs value with
      | none => (some value, search)
      | some inputs =>
          if value ∈ visiting then (some value, { search with cycles := search.cycles + 1 })
          else
            match search.known value with
            | some root => (root, search)
            | none =>
                match fuel with
                | 0 => (none, { search with starved := true })
                | fuel + 1 =>
                    if search.budget = 0 then (none, { search with starved := true })
                    else
                      let (found, after) :=
                        lookThrough g (value :: visiting) (rootUnder g fuel (value :: visiting))
                          inputs .start { search with budget := search.budget - 1 }
                      let root := found.root value
                      (root,
                        -- a root that does not depend on the nodes being looked through
                        if after.cycles = search.cycles ∧ after.budget ≠ 0 then
                          after.remember value root
                        else after)

/-- The start of a query. -/
def RootSearch.of (known : RootCache Value) : RootSearch Value := ⟨known, 0, 256, false⟩

/-- Whether `colorRoot` takes the root: a pointer the program holds. -/
def Graph.holds (g : Graph Value) (root : Value) : Bool :=
  match g.shape root with
  | .constantNull | .intToPtr _ | .undef | .constantExpr | .poison => false
  | _ => true

/-- `colorRoot`: the root, the cache after the query, and whether it ran out of
its budget. -/
def colorRoot (g : Graph Value) (base : Option Value) (known : RootCache Value) :
    Option Value × RootCache Value × Bool :=
  match base with
  | none => (none, known, false)
  | some base =>
      match g.shape base with
      | .gep _ | .intToPtr _ =>
          let (root, search) := rootUnder g 257 [] base (.of known)
          (root.filter g.holds, search.known, search.starved)
      | _ => (none, known, false)

/-- Queries that share one cache, from what it holds. -/
def colorRoots (g : Graph Value) (known : RootCache Value) :
    List (Option Value) → List (Option Value × Bool)
  | [] => []
  | base :: bases =>
      let (root, known, starved) := colorRoot g base known
      (root, starved) :: colorRoots g known bases

/-- A cache without an entry. -/
def RootCache.empty : RootCache Value := fun _ => none

end WeaveC.Pass
