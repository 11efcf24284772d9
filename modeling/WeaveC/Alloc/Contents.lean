import WeaveC.Alloc.HugeOrder
import WeaveC.Alloc.UserRuns
import WeaveC.Library.Memory
import Mathlib.Data.UInt

/-!
# What memory holds

The allocator's machine with the bytes of memory: a reused slot is filled with
zeros before it is handed out, a reallocation copies, and whole pages that are
given back or mapped afresh read zero.  Between the allocator's steps the
program writes bytes.
-/

namespace WeaveC.Alloc

open WeaveC.Library

variable {T : Type} {A : Arena}

/-! ## Pages -/

/-- Where the first whole page of a range starts. -/
def Arena.pageAbove (A : Arena) (address : Nat) : Nat := (address + A.page - 1) / A.page * A.page

/-- Where the last whole page of a range that ends at `address` ends. -/
def Arena.pageBelow (A : Arena) (address : Nat) : Nat := address / A.page * A.page

/-- `zeroFill`; `grant` is the system's answer to the mapping. -/
def zeroFill (A : Arena) (grant : Nat → Bool) (memory : Nat → UInt8) (base size : Nat) :
    Nat → UInt8 :=
  let first := A.pageAbove base
  let last := A.pageBelow (base + size)
  if size < 16 * A.page ∨ last ≤ first ∨ grant first = false then zeroRange memory base size
  else
    let memory := zeroRange memory first (last - first)
    let memory := zeroRange memory base (first - base)
    zeroRange memory last (base + size - last)

def DecommitBytes : Nat := 64 * 1024

/-- `decommit`: a page given back reads zero; `grant` is the system's answer to
the advice. -/
def decommit (A : Arena) (grant : Nat → Bool) (memory : Nat → UInt8) (base bytes : Nat) :
    Nat → UInt8 :=
  let first := A.pageAbove base
  let last := A.pageBelow (base + bytes)
  if last ≤ first ∨ grant first = false then memory else zeroRange memory first (last - first)

/-! ## What a call keeps on its stack -/

/-- The pointer that a `__weavec_rt_realloc` under way was given (else 0), the
size that it found there, and the block the call has allocated, which it
returns. -/
structure Locals where
  p : Nat
  old : Nat
  block : Nat
  deriving DecidableEq, Repr

def Locals.enter : Call → Locals
  | .realloc p _ => ⟨p, 0, 0⟩
  | _ => ⟨0, 0, 0⟩

namespace Heap

/-- The size of the live block at `p`: its slot's word has it, else
`ownedSize`. -/
def sizeAt (A : Arena) (h : Heap) (p : Nat) : Nat :=
  if A.inArena p then (h.table.word (h.table.slotOf A p)).value
  else
    match h.huge.find p with
    | some block => block.size
    | none => 0

/-- The mapping that `hugeAlloc` makes a block in. -/
def hugePlaced (A : Arena) (h : Heap) (size alignment : Nat) (a : Answer) :
    Option (HugeRequest × Nat) :=
  match h.hugeRequest A size alignment, a.map with
  | some request, some map => if a.hugeTable then some (request, map) else none
  | _, _ => none

/-- The mapping that `hugeFree` drops. -/
def hugeDropped (h : Heap) (p : Nat) : Option HugeBlock :=
  match h.hugeFree p with
  | some _ => Huge.blockAt h.huge.blocks p
  | none => none

end Heap

namespace Locals

variable (A : Arena) (h : Heap) (a : Answer) (l : Locals)

/-- What a step stores in them. -/
def after : Point → Locals
  | .shadowLive _ e => { l with block := h.table.slotBase A e.place }
  | .huge size alignment _ =>
      match h.hugePlaced A size alignment a with
      | some (request, map) => { l with block := hugeBase request map }
      | none => l
  | .resize p _ => { l with old := h.sizeAt A p }
  | .resizeWord x _ => { l with block := h.table.slotBase A x }
  | _ => l

/-- `__weavec_rt_realloc` copies to the new block before it releases the old
one. -/
def copied (memory : Nat → UInt8) (block size : Nat) : Purpose → Nat → UInt8
  | .request => memory
  | .move p => copyRange memory block p (if l.old < size then l.old else size)

/-- What a step writes to memory. -/
def memory (memory : Nat → UInt8) : Point → Nat → UInt8
  | .storeLive w e =>
      -- a slot that was not used before is zero
      if e.used = true ∧ w.size ≠ 0 then
        zeroFill A a.grant memory (h.table.slotBase A e.place) w.size
      else memory
  | .shadowLive w e => l.copied memory (h.table.slotBase A e.place) w.size w.purpose
  | .huge size alignment purpose =>
      match h.hugePlaced A size alignment a with
      | some (request, map) =>
          l.copied (zeroRange memory map request.mapBytes) (hugeBase request map) size purpose
      | none => memory
  | .release p =>
      if A.inArena p then memory
      else
        match h.hugeDropped p with
        | some block => zeroRange memory block.map block.mapBytes
        | none => memory
  | .shadowDead x cached =>
      if cached = false ∧ DecommitBytes ≤ h.table.slotBytes x then
        decommit A a.grant memory (h.table.slotBase A x) (h.table.slotBytes x)
      else memory
  | .resizeShadow x size =>
      if l.old < size then zeroRange memory (h.table.slotBase A x + l.old) (size - l.old)
      else memory
  | _ => memory

end Locals

/-! ## The machine with its memory -/

/-- The allocator, the bytes of memory, and what each thread's call keeps. -/
structure Filled (T : Type) where
  state : State T
  memory : Nat → UInt8
  locals : T → Locals

/-- A step of the allocator, or a store of the program: to byte `i` of the block
at `p`, or to memory that is not the allocator's. -/
inductive Deed (T : Type) where
  | step (e : Event T)
  | write (p i : Nat) (value : UInt8)
  | elsewhere (address : Nat) (value : UInt8)

namespace Filled

variable (A) (w : Filled T)

/-- The arena's pages are mapped zero. -/
def initial (byte : Nat → UInt8) (memory : Nat → UInt8) : Filled T :=
  ⟨.initial A byte, zeroRange memory A.base A.bytes, fun _ => ⟨0, 0, 0⟩⟩

/-- The bytes of memory after a step. -/
def memoryAfter (e : Event T) : Nat → UInt8 :=
  match e.call with
  | some _ => w.memory
  | none =>
      (w.locals e.thread).memory A w.state.heap e.answer w.memory (w.state.thread e.thread).point

/-- What the call of the thread that takes the step keeps after it. -/
def localsAfter (e : Event T) : Locals :=
  match e.call with
  | some call => .enter call
  | none => (w.locals e.thread).after A w.state.heap e.answer (w.state.thread e.thread).point

/-- The program stores a byte. -/
def stored (w : Filled T) (address : Nat) (value : UInt8) : Filled T :=
  { w with memory := Function.update w.memory address value }

variable [DecidableEq T]

/-- After a step that leads to state `s`. -/
def next (e : Event T) (s : State T) : Filled T where
  state := s
  memory := w.memoryAfter A e
  locals := Function.update w.locals e.thread (w.localsAfter A e)

def step (w : Filled T) : Deed T → Option (Filled T)
  | .step e => (w.state.step A e).map (w.next A e)
  | .write p i value => some (w.stored (p + i) value)
  | .elsewhere address value => some (w.stored address value)

end Filled

/-! ## The blocks of the program -/

/-- The slot has a live block of `n` bytes at `p` whose allocation has returned. -/
structure State.SlotBlock (A : Arena) (s : State T) (x : Slot) (p n : Nat) : Prop where
  word : s.heap.table.word x = ⟨n, .live⟩
  base : s.heap.table.slotBase A x = p
  returned : ∀ t, (s.thread t).point.stage.handed ≠ some x

/-- There is a live block of `n` bytes at `p` whose allocation has returned. -/
def State.BlockAt (A : Arena) (s : State T) (p n : Nat) : Prop :=
  (∃ x, s.SlotBlock A x p n) ∨ ∃ b ∈ s.heap.huge.blocks, b.dead = 0 ∧ b.base = p ∧ b.size = n

/-- The address is not in memory of the allocator's. -/
def State.Elsewhere (A : Arena) (s : State T) (address : Nat) : Prop :=
  A.inArena address = false ∧ ∀ b ∈ s.heap.huge.blocks, ¬ InRange b.map b.mapBytes address

instance (A : Arena) (s : State T) (address : Nat) : Decidable (s.Elsewhere A address) :=
  inferInstanceAs (Decidable (_ ∧ ∀ b ∈ s.heap.huge.blocks, ¬ _))

end WeaveC.Alloc
