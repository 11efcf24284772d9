import WeaveC.Pass.Inline
import Mathlib.Data.Fintype.Card

/-!
# Accesses known in bounds

Rule 6.1 removes the guard of an access inside its object at every execution:
at a constant offset from the object itself by arithmetic, elsewhere by what
`ScalarEvolution` reports.
-/

namespace WeaveC.Pass.InBounds

open WeaveC.Library WeaveC.Runtime

/-- The address of an instruction. -/
abbrev InstructionId := Nat

structure TypeSize where
  value : BitVec 64
  scalable : Bool

/-- What an object is. -/
inductive Object where
  | alloca (isStatic : Bool) (allocationSize : Option TypeSize)
  | global (isDeclaration hasExactDefinition isInterposable hasCommonLinkage : Bool)
      (typeAllocSize : TypeSize)
  | other

/-- `llvm::dyn_cast<llvm::AllocaInst>`. -/
def Object.isAlloca : Object → Bool
  | .alloca .. => true
  | _ => false

def exactSize : Object → Option (BitVec 64)
  | .alloca isStatic allocationSize =>
      if isStatic = false then none
      else match allocationSize with
        | none => none
        | some size => if size.scalable then none else some size.value
  | .global isDeclaration hasExactDefinition isInterposable hasCommonLinkage size =>
      if isDeclaration || ! hasExactDefinition || isInterposable || hasCommonLinkage then none
      else if size.scalable then none
      else some size.value
  | .other => none

def insideAt (object : Object) (offset width : BitVec 64) : Bool :=
  match exactSize object with
  | none => false
  | some size =>
      (0#64).sle offset && decide (offset.toNat ≤ size.toNat) &&
        decide (width.toNat ≤ size.toNat - offset.toNat)

/-! ## Scopes -/

/-- A function's blocks with the lifetime markers of its allocas: `true` is a
start. -/
structure Scopes (Block : Type) where
  block : Block → List InstructionId
  successors : Block → List Block
  parent : InstructionId → Block
  lifetime : InstructionId → Option (Bool × Value)
  /-- The instructions among an alloca's users. -/
  users : Value → List InstructionId

namespace Scopes

variable {Block : Type} [DecidableEq Block] (scopes : Scopes Block)

/-- The lifetime marker an instruction is of `alloca`: 1 a start, -1 an end, 0
none. -/
def markerFor (i : InstructionId) (alloca : Value) : Int :=
  match scopes.lifetime i with
  | some (isStart, operand) => if operand = alloca then if isStart then 1 else -1 else 0
  | none => 0

/-- The scope's state after an instruction. -/
def after (alloca : Value) (state : Bool) (i : InstructionId) : Bool :=
  if scopes.markerFor i alloca = 0 then state else decide (scopes.markerFor i alloca < 0)

def leavesDead (alloca : Value) (block : Block) (enteredDead : Bool) : Bool :=
  (scopes.block block).foldl (scopes.after alloca) enteredDead

/-- The successors of a block that leaves the scope dead: each one new to `dead`
is pushed. -/
def pushSuccessors (dead : Finset Block) (work : List Block) :
    List Block → Finset Block × List Block
  | [] => (dead, work)
  | successor :: rest =>
      if successor ∈ dead then pushSuccessors dead work rest
      else pushSuccessors (insert successor dead) (successor :: work) rest

/-- The work list, its last element first. -/
def flowDead [Fintype Block] (alloca : Value) : List Block → Finset Block → Finset Block → Finset Block
  | [], dead, _ => dead
  | block :: work, dead, leftDead =>
      if scopes.leavesDead alloca block (decide (block ∈ dead)) = false then
        flowDead alloca work dead leftDead
      else if block ∈ leftDead then flowDead alloca work dead leftDead
      else
        let next := pushSuccessors dead work (scopes.successors block)
        flowDead alloca next.2 next.1 (insert block leftDead)
  termination_by work _ leftDead => ((Finset.univ \ leftDead).card, work.length)
  decreasing_by
    · exact Prod.Lex.right _ (Nat.lt_succ_self _)
    · exact Prod.Lex.right _ (Nat.lt_succ_self _)
    · rename_i fresh
      refine Prod.Lex.left _ _ (Finset.card_lt_card ?_)
      refine Finset.ssubset_iff_of_subset ?_ |>.mpr ⟨block, ?_, ?_⟩
      · exact Finset.sdiff_subset_sdiff (Finset.Subset.refl _) (Finset.subset_insert _ _)
      · simpa using fresh
      · simp

/-- The blocks entered out of scope. -/
def deadAtEntry [Fintype Block] (alloca : Value) : Finset Block :=
  let ends := (scopes.users alloca).filter fun i => decide (scopes.markerFor i alloca < 0)
  scopes.flowDead alloca (ends.map scopes.parent).reverse ∅ ∅

def mayBeOutOfScope [Fintype Block] (alloca : Value) (i : InstructionId) : Bool :=
  ((scopes.block (scopes.parent i)).takeWhile (· ≠ i)).foldl (scopes.after alloca)
    (decide (scopes.parent i ∈ scopes.deadAtEntry alloca))

end Scopes

/-! ## The rule -/

inductive Kind where
  | guard
  | range
  | string
  deriving DecidableEq

/-- One marker the optimizer left; `length` is `none` when `width` gives the
bytes. -/
structure Access where
  marker : InstructionId
  kind : Kind
  pointer : Value
  width : BitVec 64
  length : Option Value
  /-- The pointer stripped of constant offsets, and the offset. -/
  base : Option Value
  offset : BitVec 64
  object : Option Value

inductive Predicate where
  | ule
  | sge
  | sle
  deriving DecidableEq

def Predicate.holds (a b : BitVec 64) : Predicate → Bool
  | .ule => a.ule b
  | .sge => b.sle a
  | .sle => a.sle b

/-- What the pass asks `ScalarEvolution`.  A difference is `none` when it could
not be computed or is no integer. -/
structure ScalarEvolution where
  Scev : Type
  isSCEVable : Value → Bool
  getSCEV : Value → Scev
  getMinusSCEV : Scev → Scev → Option Scev
  getConstant : BitVec 64 → Scev
  getAddExpr : Scev → Scev → Scev
  isKnownPredicateAt : Predicate → Scev → Scev → InstructionId → Bool

section

variable {Block : Type} [DecidableEq Block] [Fintype Block]

/-- The access lies inside its object at every execution, and a local's scope
holds it. -/
def inBounds (access : Access) (evolution : ScalarEvolution) (objects : Value → Object)
    (scopes : Scopes Block) : Bool :=
  match access.object with
  | none => false
  | some object =>
      if access.kind = .string then false
      else if (objects object).isAlloca && scopes.mayBeOutOfScope object access.marker then false
      else match exactSize (objects object) with
        | none => false
        | some size =>
            -- a constant offset from the object itself
            if access.base = some object ∧ access.length = none then
              insideAt (objects object) access.offset access.width
            else if evolution.isSCEVable access.pointer = false then false
            else match evolution.getMinusSCEV (evolution.getSCEV access.pointer)
                (evolution.getSCEV object) with
              | none => false
              | some offset =>
                  let known := evolution.isKnownPredicateAt
                  let limit := evolution.getConstant size
                  let ends (stop : evolution.Scev) : Bool :=
                    known .sge offset (evolution.getConstant 0#64) access.marker &&
                      known .sle stop limit access.marker
                  match access.length with
                  | some length =>
                      if evolution.isSCEVable length = false then false
                      else if known .ule (evolution.getSCEV length) limit access.marker = false
                      then false
                      else ends (evolution.getAddExpr offset (evolution.getSCEV length))
                  | none =>
                      if size.toNat < access.width.toNat then false
                      else ends (evolution.getAddExpr offset
                        (evolution.getConstant access.width))

end

end WeaveC.Pass.InBounds
