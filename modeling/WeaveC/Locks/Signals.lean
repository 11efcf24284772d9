import WeaveC.Locks.Order
import WeaveC.Library.Transition
import Mathlib.Algebra.Order.Ring.Nat

/-!
# Calls that signals nest

One thread, its cache's counters and deferred releases, and its calls in
progress: a signal may arrive before any action, and its handler calls the
allocator while the interrupted call stands still.  Other threads take and give
locks as they like.
-/

namespace WeaveC.Locks

open WeaveC.Library

/-- The thread's value of the cache's key. -/
inductive Own where
  | unmade
  | made
  | gone
deriving DecidableEq

/-- What a call holds, what it has added to the cache's counters, and whether
its thread's counters can have given the answers it went on with. -/
structure Call where
  hold : Hold
  counted : Nat
  depth : Nat
  /-- How many times it has the cache's arrays open -/
  opens : Nat
  blocked : Bool
  possible : Bool

/-- How far a call is with putting a release into the deferred ones, or with
taking one. -/
inductive Window where
  | shut
  | room
  | pending
  | loaded
  | stored
deriving DecidableEq

/-- What a call may still release. -/
structure Token where
  argument : Bool
  deferred : Bool
  window : Window

structure Frame where
  entry : Entry
  code : Program
  call : Call
  token : Token
  /-- The block it is about, one number a call -/
  argument : Nat
  /-- The deferred block it loaded -/
  pointer : Nat
  /-- The count it loaded -/
  count : Nat
  /-- It began with the thread's cache there, and so did those below. -/
  covered : Bool

namespace Call

def outside : Call := ⟨Hold.nothing, 0, 0, 0, false, true⟩

/-- The calls below, together. -/
structure Below where
  held : List Lock
  counted : Nat
  depth : Nat
  opens : Nat

/-- What a call with the thread's cache is answered. -/
def answer (B : Below) (c : Call) : Query → Option Bool
  | .reserved | .cached => some true
  | .unmade => some false
  | .busy => some (decide (B.depth + c.depth ≠ 0 ∧ B.counted + c.counted ≠ 0))
  | .nested => some (decide (1 < B.depth + c.depth))
  | .inside => some (decide (B.depth + c.depth ≠ 0))
  | .pending | .room => none

def after (B : Below) (c : Call) (a : Action) : Call :=
  let c := { c with hold := c.hold.after a }
  match a with
  | .query q b => { c with possible := c.possible && (c.answer B q).all (· == b) }
  | .locksUp => { c with counted := c.counted + 1 }
  | .locksDown => { c with counted := c.counted - 1 }
  | .depthUp => { c with depth := c.depth + 1 }
  | .depthDown => { c with depth := c.depth - 1 }
  | .openArrays => { c with opens := c.opens + 1 }
  | .closeArrays => { c with opens := c.opens - 1 }
  | .blockSignals => { c with blocked := true }
  | .restoreSignals => { c with blocked := false }
  | _ => c

theorem after_hold (B : Below) (c : Call) (a : Action) : (c.after B a).hold = c.hold.after a := by
  cases a <;> rfl

end Call

namespace Token

def after (t : Token) : Action → Token
  | .release .argument => { t with argument := false }
  | .release .deferred => { t with deferred := false }
  | .query .room true => { t with window := .room }
  | .defer .argument => { t with argument := false, window := .shut }
  | .defer .deferred => { t with deferred := false, window := .shut }
  | .query .pending true => { t with window := .pending }
  | .loadCount => { t with window := .loaded }
  | .storeCount => { t with window := .stored }
  | .loadDeferred => { t with window := .shut, deferred := true }
  | _ => t

end Token

/-- The call past its action. -/
def Frame.advance (f : Frame) (B : Call.Below) (a : Action) : Frame :=
  { f with code := f.code.rest, call := f.call.after B a, token := f.token.after a }

def Frame.value (f : Frame) : Pointer → Nat
  | .argument => f.argument
  | .deferred => f.pointer

/-- What the calls of the list hold and have added to the counters. -/
def below (frames : List Frame) : Call.Below where
  held := frames.flatMap fun f => f.call.hold.locks
  counted := (frames.map fun f => f.call.counted).sum
  depth := (frames.map fun f => f.call.depth).sum
  opens := (frames.map fun f => f.call.opens).sum

structure Nest where
  /-- The calls in progress, the one that runs first -/
  frames : List Frame
  reserved : Bool
  own : Own
  depth : Int
  locks : Int
  deferredCount : Nat
  deferred : Nat → Nat
  /-- The locks other threads hold -/
  others : Lock → Bool
  /-- The releases that took effect, the last one first -/
  released : List Nat
  calls : Nat

namespace Nest

def DeferredSlots : Nat := 16

def answer (n : Nest) : Query → Bool
  | .reserved => n.reserved
  | .cached => decide (n.own = .made)
  | .unmade => decide (n.own = .unmade)
  | .busy => decide (n.depth ≠ 0 ∧ n.locks ≠ 0)
  | .nested => decide (n.own = .made ∧ 1 < n.depth)
  | .inside => decide (n.depth ≠ 0)
  | .pending => decide (n.deferredCount ≠ 0)
  | .room => decide (n.deferredCount < DeferredSlots)

def held (n : Nest) : List Lock := (below n.frames).held

/-- `--deferredCount`, of an `unsigned` -/
def oneLess (count : Nat) : Nat := (count + 0xFFFFFFFF) % 0x100000000

/-- The thread after the action of its running call `f`, above `rest`. -/
def perform (n : Nest) (f : Frame) (rest : List Frame) (a : Action) : Option Nest :=
  let f' := f.advance (below rest) a
  let n' : Nest := { n with frames := f' :: rest }
  match a with
  | .lock l | .tryLock l => if n.others l ∨ l ∈ n.held then none else some n'
  | .query q b => if n.answer q = b then some n' else none
  | .storeBytes => some { n' with reserved := true }
  | .locksUp => some { n' with locks := n.locks + 1 }
  | .locksDown => some { n' with locks := n.locks - 1 }
  | .depthUp => some { n' with depth := n.depth + 1 }
  | .depthDown => some { n' with depth := n.depth - 1 }
  | .setCache => some { n' with own := .made, depth := 0, locks := 0, deferredCount := 0 }
  | .setGone => some { n' with own := .gone }
  | .defer p =>
    some { n' with
      deferred := Function.update n.deferred n.deferredCount (f.value p)
      deferredCount := n.deferredCount + 1 }
  | .loadCount => some { n with frames := { f' with count := n.deferredCount } :: rest }
  | .storeCount => some { n' with deferredCount := oneLess f.count }
  | .loadDeferred =>
    if oneLess f.count < DeferredSlots then
      some { n with frames := { f' with pointer := n.deferred (oneLess f.count) } :: rest }
    else none
  | .release p => some { n' with released := f.value p :: n.released }
  | _ => some n'

inductive Event where
  /-- The program calls. -/
  | call (e : Entry)
  /-- A signal's handler calls. -/
  | signal (e : Entry)
  | turn (d : Turn Region)
  | act
  /-- The running call returns. -/
  | leave
  /-- Another thread takes or gives a lock. -/
  | other (l : Lock)

/-- `alloc`, `free`, `realloc` and `size` -/
def Allocator (e : Entry) : Prop := e = .alloc ∨ e = .free ∨ e = .realloc ∨ e = .size

instance (e : Entry) : Decidable (Allocator e) := inferInstanceAs (Decidable (_ ∨ _ ∨ _ ∨ _))

def enter (n : Nest) (e : Entry) (covered : Bool) : Nest :=
  { n with
    frames := ⟨e, e.program, Call.outside, ⟨true, false, .shut⟩, n.calls, 0, 0, covered⟩ :: n.frames
    calls := n.calls + 1 }

def step (n : Nest) : Event → Option Nest
  | .call e =>
    if n.frames = [] ∧ (Allocator e ∨ e = .dropCache) then
      some (n.enter e (decide (Allocator e ∧ n.reserved ∧ n.own = .made ∧ n.depth = 0 ∧ n.locks = 0)))
    else none
  | .signal e =>
    if n.frames ≠ [] ∧ (∀ f ∈ n.frames, f.call.blocked = false) ∧ Allocator e then
      some (n.enter e (n.frames.all Frame.covered))
    else none
  | .turn d =>
    match n.frames with
    | [] => none
    | f :: rest =>
      (f.code.resolve Procedure.body d).map fun c => { n with frames := { f with code := c } :: rest }
  | .act =>
    match n.frames with
    | [] => none
    | f :: rest => f.code.head.bind (n.perform f rest)
  | .leave =>
    match n.frames with
    | ⟨_, .skip, _, _, _, _, _, _⟩ :: rest => some { n with frames := rest }
    | _ => none
  | .other l =>
    if l ∈ n.held then none
    else some { n with others := Function.update n.others l (!n.others l) }

/-- A thread before its first call. -/
def initial (reserved : Bool) : Nest where
  frames := []
  reserved := reserved
  own := .unmade
  depth := 0
  locks := 0
  deferredCount := 0
  deferred _ := 0
  others _ := false
  released := []
  calls := 0

end Nest

end WeaveC.Locks
