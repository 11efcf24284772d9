import WeaveC.Pass.Dominated
import WeaveC.Pass.InlineSpec
import Mathlib.Logic.Function.Basic

/-!
# Merged guards

Rule 6.3 makes one guard of the guards of a block on one base whose hull is
small, with nothing between them that may not reach the next.  The accesses are
in the order of the blocks, so a leader comes before those merged into it.
Roots are left out: without colors a guard is its bytes and its base.
-/

namespace WeaveC.Pass.Merge

open WeaveC.Library WeaveC.Runtime

/-- One access: its constant number of bytes, its pointer as a base and an
offset, and what merging makes of it. -/
structure Access where
  constant : Bool
  state : Dominated.State
  pointer : Value
  width : BitVec 64
  alignment : Align
  nullBase : Option Value
  base : Option Value
  offset : BitVec 64
  guardOffset : BitVec 64
  guardWidth : BitVec 64
  leader : Nat

def removable (access : Access) : Bool :=
  access.state = .guard && access.constant && access.base.isSome

/-- An access before merging: its guard is its own. -/
def Access.fresh (access : Access) : Access :=
  { access with guardOffset := access.offset, guardWidth := access.width }

/-- One instruction of a block: the marker of an access, or another. -/
inductive Item where
  | access (access : Access) (unmerged : access.state ≠ .merged)
  | other (instruction : Dominated.Instruction) (loadOrStore transfers : Bool)

/-- Whether no guard is open after an instruction. -/
def closes (instruction : Dominated.Instruction) (loadOrStore transfers : Bool) : Bool :=
  Dominated.killsGuards instruction ||
    ! (instruction.call.any fun call => (Dominated.markerOf call).isSome) && ! loadOrStore &&
      ! transfers

/-- The accesses so far, and for each base the one that later ones join. -/
structure Merging where
  accesses : List Access
  opened : Value → Option Nat

def MaxHull : BitVec 64 := 64#64

def signedMin (a b : BitVec 64) : BitVec 64 := if b.slt a then b else a

def signedMax (a b : BitVec 64) : BitVec 64 := if a.slt b then b else a

namespace Merging

variable (m : Merging)

def append (access : Access) : Merging :=
  { m with accesses := m.accesses ++ [access] }

/-- The access opens a group of its own. -/
def opens (access : Access) (base : Value) : Merging :=
  { accesses := m.accesses ++ [access]
    opened := Function.update m.opened base (some m.accesses.length) }

/-- The access joins the group of `guard`, which is number `g`. -/
def joins (access : Access) (g : Nat) (guard : Access) (low high : BitVec 64) : Merging :=
  { m with
    accesses := m.accesses.set g { guard with guardOffset := low, guardWidth := high - low } ++
      [{ access with state := .merged, leader := g }] }

def mergeAccess (access : Access) : Merging :=
  let access := access.fresh
  match removable access, access.base with
  | true, some base =>
      match m.opened base with
      | some g =>
          match m.accesses[g]? with
          | some guard =>
              let low := signedMin guard.guardOffset access.offset
              let high := signedMax (guard.guardOffset + guard.guardWidth)
                (access.offset + access.width)
              if (high - low).sle MaxHull then m.joins access g guard low high
              else m.opens access base
          | none => m.opens access base
      | none => m.opens access base
  | _, _ => m.append access

def mergeOne : Item → Merging
  | .access access _ => m.mergeAccess access
  | .other instruction loadOrStore transfers =>
      if closes instruction loadOrStore transfers then { m with opened := fun _ => none } else m

def mergeInBlock (items : List Item) : Merging :=
  items.foldl mergeOne { m with opened := fun _ => none }

end Merging

def mergeInBlocks (blocks : List (List Item)) : List Access :=
  (blocks.foldl Merging.mergeInBlock ⟨[], fun _ => none⟩).accesses

/-- The accesses merged into number `k`, in the order of their block. -/
def mergedInto (accesses : List Access) (k : Nat) : List Access :=
  accesses.filter fun access => decide (access.state = .merged) && decide (access.leader = k)

/-- What a run makes of the values of the accesses: a pointer is its base and
offset, and so is the address emitted for it. -/
structure Run (accesses : List Access) where
  env : Env
  gep : Access → BitVec 64 → Value
  gep_eq : ∀ access base offset, access.base = some base →
    env (gep access offset) = env base + offset
  pointer_eq : ∀ access ∈ accesses, ∀ base, access.base = some base →
    env access.pointer = env base + access.offset

section

variable {accesses : List Access} (run : Run accesses) (ctx : Context) (little : Bool)

/-- The guard of an access on its own, by its check. -/
def Access.guard (access : Access) (s : Shadow) : Outcome :=
  let address := (run.env access.pointer).toNat
  if NullTested little access.width.toNat ∧ nullTest run.env access.nullBase = true then
    .error ⟨.nullDereference, address, 0⟩
  else guardSlow ctx s address access.width.toNat

/-- The members of the group of number `k`; its leader is one when it has others. -/
def members (k : Nat) (leader : Access) : List Member :=
  let group := match mergedInto accesses k with
    | [] => []
    | merged => leader :: merged
  group.map fun access => ⟨run.gep access access.offset, access.width.toNat⟩

/-- The guard emitted for number `k`, which was not merged. -/
def expand (k : Nat) (leader : Access) (s : Shadow) : Outcome :=
  if leader.guardOffset ≠ leader.offset ∨ leader.guardWidth ≠ leader.width then
    emitGuard ctx run.env s little (run.gep leader leader.guardOffset) leader.guardWidth.toNat ⟨0⟩
      leader.nullBase (members run k leader) none
  else
    emitGuard ctx run.env s little leader.pointer leader.width.toNat leader.alignment
      leader.nullBase [] none

/-- The guards of a group, one after another as the block had them. -/
def separately (k : Nat) (leader : Access) (s : Shadow) : Outcome :=
  (leader :: mergedInto accesses k).foldlM
    (fun s access => access.guard run ctx little s) s

end

end WeaveC.Pass.Merge
