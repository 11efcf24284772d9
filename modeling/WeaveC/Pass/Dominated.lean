import WeaveC.Library.Dataflow
import Mathlib.Data.List.Basic

/-!
# Dominated guards

Rule 6.2 removes a guard when a guard of the same base is available on every
path to it and covers its bytes.  Instructions are known by their addresses,
as the pass knows them; what the analysis asks of one is a table of the
function's.
-/

namespace WeaveC.Pass.Dominated

open WeaveC.Library

abbrev Value := Nat

/-- The address of an instruction. -/
abbrev InstructionId := Nat

abbrev BlockId := Nat

inductive Intrinsic where
  | lifetimeStart
  | lifetimeEnd
  | stackRestore
  | other
  deriving DecidableEq

structure Call where
  /-- The name of the function called, when it is known. -/
  callee : Option String
  intrinsic : Option Intrinsic
  noFree : Bool

def markerNames : List String :=
  ["__weavec.guard", "__weavec.range", "__weavec.strlen", "__weavec.disjoint"]

/-- `ModuleContext::markerOf`. -/
def markerOf (call : Call) : Option String :=
  call.callee.filter (fun name => markerNames.contains name)

/-- `ModuleContext::isRuntimeName`. -/
def isRuntimeName (name : String) : Bool :=
  ["__weavec_", "__weavec.", "__ubsan_handle_"].any fun start =>
    start.toList.isPrefixOf name.toList

structure Instruction where
  /-- The value it computes, if any. -/
  result : Option Value
  call : Option Call

/-- Whether an instruction may release memory or change the shadow of an
object, so that a guard before it says nothing about an access after. -/
def killsGuards (instruction : Instruction) : Bool :=
  match instruction.call with
  | none => false
  | some call =>
      if (markerOf call).isSome then false
      else
        match call.intrinsic with
        | some .lifetimeEnd => true
        | some .lifetimeStart => true
        | some .stackRestore => true
        | some .other => ! call.noFree
        | none =>
            match call.callee with
            | some name => if isRuntimeName name then false else ! call.noFree
            | none => ! call.noFree

inductive State where
  | guard
  | inBounds
  | dominated
  | merged
  deriving DecidableEq

/-- One marker: its constant number of bytes, 0 when a length gives them at
run time, and its pointer as a base and a constant offset. -/
structure Access where
  marker : InstructionId
  constant : Bool
  width : BitVec 64
  state : State
  base : Option Value
  offset : BitVec 64

def removable (access : Access) : Bool :=
  access.state = .guard && access.constant && access.base.isSome

/-- The control flow of a function.  Paths start at the entry, the first block
visited; `rest` are the others a path reaches. -/
structure Cfg where
  size : Nat
  entry : BlockId
  rest : List BlockId
  predecessors : BlockId → List BlockId
  block : BlockId → List InstructionId
  instruction : InstructionId → Instruction
  nonempty (b : BlockId) : block b ≠ []
  nodup (b : BlockId) : (block b).Nodup
  unique {b c : BlockId} {i : InstructionId} : i ∈ block b → i ∈ block c → b = c
  closed {b c : BlockId} : b ∈ predecessors c → b ∈ entry :: rest → c ∈ entry :: rest
  reached {b : BlockId} : b ∈ rest → Relation.ReflTransGen (fun b c => b ∈ predecessors c) entry b

namespace Cfg

/-- Whether `j` may be executed right after `i`. -/
inductive Follows (g : Cfg) (i j : InstructionId) : Prop where
  | within {b : BlockId} {done later : List InstructionId} :
      g.block b = done ++ i :: j :: later → Follows g i j
  | across {b c : BlockId} {done later : List InstructionId} :
      b ∈ g.predecessors c → g.block b = done ++ [i] → g.block c = j :: later → Follows g i j

/-- A path on which an instruction is reached, with what was executed before. -/
inductive Reaches (g : Cfg) : InstructionId → List InstructionId → Prop where
  | start {i : InstructionId} {later : List InstructionId} :
      g.block g.entry = i :: later → Reaches g i []
  | next {i j : InstructionId} {before : List InstructionId} :
      Reaches g i before → Follows g i j → Reaches g j (before ++ [i])

end Cfg

/-- What the pass is given of a function in SSA form. -/
structure Function extends Cfg where
  accesses : List Access
  distinct : (accesses.map Access.marker).Nodup
  isMarker {access : Access} : access ∈ accesses →
    ∃ call, (instruction access.marker).call = some call ∧ (markerOf call).isSome
  void {access : Access} : access ∈ accesses → access.constant = true →
    (instruction access.marker).result = none
  dominates {access : Access} : access ∈ accesses → ∀ v, access.base = some v →
    ∀ i, (instruction i).result = some v → ∀ before, toCfg.Reaches access.marker before →
      i ∈ before

namespace Function

variable (f : Function)

def order : List BlockId := f.entry :: f.rest

def candidates : List Access := f.accesses.filter removable

abbrev Candidate := Fin f.candidates.length

def access (c : f.Candidate) : Access := f.candidates.get c

/-- The candidate a marker is. -/
def byMarker (i : InstructionId) : Option f.Candidate :=
  (List.finRange f.candidates.length).find? (fun c => (f.access c).marker = i)

/-- The range check of `covered`, in 64-bit signed arithmetic that wraps. -/
def covers (guard access : Access) : Bool :=
  guard.offset.sle access.offset &&
    (access.offset + access.width).sle (guard.offset + guard.width)

def covered (available : Finset f.Candidate) (candidate : f.Candidate) : Bool :=
  (List.finRange f.candidates.length).any fun other =>
    (f.access other).base = (f.access candidate).base && other ≠ candidate &&
      decide (other ∈ available) && covers (f.access other) (f.access candidate)

/-- One instruction of `transfer`. -/
def transferOne (set : Finset f.Candidate) (i : InstructionId) : Finset f.Candidate :=
  let set := if killsGuards (f.instruction i) then ∅ else set
  match f.byMarker i with
  | none => set
  | some c => insert c set

def transfer (b : BlockId) (set : Finset f.Candidate) : Finset f.Candidate :=
  (f.block b).foldl f.transferOne set

theorem transferOne_inter (set set' : Finset f.Candidate) (i : InstructionId) :
    f.transferOne (set ∩ set') i = f.transferOne set i ∩ f.transferOne set' i := by
  unfold transferOne
  cases f.byMarker i <;> split_ifs <;>
    simp only [Finset.inter_self, Finset.insert_inter_distrib]

theorem foldl_transferOne_inter (is : List InstructionId) (set set' : Finset f.Candidate) :
    is.foldl f.transferOne (set ∩ set') = is.foldl f.transferOne set ∩ is.foldl f.transferOne set' := by
  induction is generalizing set set' with
  | nil => rfl
  | cons i is ih => rw [List.foldl_cons, transferOne_inter, ih, List.foldl_cons, List.foldl_cons]

def available : Dataflow BlockId f.Candidate where
  entry := f.entry
  rest := f.rest
  predecessors := f.predecessors
  transfer := f.transfer
  transfer_inter b := f.foldl_transferOne_inter (f.block b)
  closed := f.closed
  reached := f.reached

/-- The second walk over a block: the candidates it decides are dominated. -/
def transferDeciding (set : Finset f.Candidate) : List InstructionId → List f.Candidate
  | [] => []
  | i :: is =>
      let killed := if killsGuards (f.instruction i) then ∅ else set
      match f.byMarker i with
      | none => transferDeciding killed is
      | some c => if f.covered killed c then c :: transferDeciding (insert c killed) is
          else transferDeciding (insert c killed) is

def maxCandidates : Nat := 20000

/-- The candidates whose guards are removed. -/
def dominated : List f.Candidate :=
  if f.candidates = [] ∨ maxCandidates < f.candidates.length ∨ maxCandidates < f.size then []
  else
    let out := f.available.solve
    f.order.flatMap fun b => f.transferDeciding (f.available.flowIn out b) (f.block b)

def removeDominated : List Access :=
  f.accesses.map fun access =>
    if removable access ∧ ∃ c ∈ f.dominated, (f.access c).marker = access.marker then
      { access with state := .dominated }
    else access

end Function

end WeaveC.Pass.Dominated
