import WeaveC.Library.Transition
import WeaveC.Pass.ShadowRuns
import Mathlib.Data.List.Sort
import Mathlib.Data.Finset.Basic

/-!
# Frame layout

The tracked locals of a function become offsets into one frame with redzones
between them.  In a large frame two locals whose live ranges do not overlap may
share bytes.  The frame's shadow is written at entry; lifetime markers write the
scope of their local.
-/

namespace WeaveC.Pass

open WeaveC.Runtime WeaveC.Library

def FrameAlign : Nat := 32
def LeftZone : Nat := 64
def ShareAbove : Nat := 512

/-- An `alloca` of the function; it is known by its address. -/
structure Alloca where
  address : Nat
  /-- `getAllocationSize`, unless it is unknown or scalable. -/
  size : Option Nat
  alignLog : Nat
  swiftError : Bool
  usedWithInAlloca : Bool
  deriving DecidableEq, Repr

/-- A lifetime marker that names an `alloca` directly. -/
inductive Marker where
  | start (alloca : Nat)
  | stop (alloca : Nat)
  deriving DecidableEq, Repr

/-- What the layout reads of a function: its tracked allocas, its instructions
in control-flow order, the markers among them, and the ranges in which
`StackLifetime` says that an alloca may be live. -/
structure Function (P : Type) [DecidableEq P] where
  allocas : List Alloca
  distinct : (allocas.map Alloca.address).Nodup
  entry : P
  next : P → List P
  marker : P → Option Marker
  /-- The instructions that start an alloca's lifetime. -/
  starts : Nat → List P
  mem_starts : ∀ p x, p ∈ starts x ↔ marker p = some (.start x)
  liveRange : Nat → Finset P
  /-- `xxh3_64bits` of its name. -/
  hash : Nat

structure FrameObject where
  alloca : Nat
  alignLog : Nat
  size : Nat
  offset : Nat
  color : UInt8
  deriving DecidableEq, Repr

def paddedSize (size : Nat) : Nat := (size + max 32 (min (size / 8) 4096) + 31) / 32 * 32

/-- The granules `size` bytes cover. -/
def granules (size : Nat) : Nat := (size + 15) / 16

/-- The next multiple of `align`. -/
def alignTo (offset align : Nat) : Nat := (offset + align - 1) / align * align

namespace FrameObject

def extentEnd (o : FrameObject) : Nat := o.offset + paddedSize o.size

def align (o : FrameObject) : Nat := max FrameAlign (2 ^ o.alignLog)

end FrameObject

namespace Function

variable {P : Type} [DecidableEq P] (f : Function P)

/-- The objects to lay out: larger alignments first, then in source order. -/
def objects : List FrameObject :=
  (f.allocas.filterMap fun a =>
    match a.size with
    | some size =>
        if a.swiftError || a.usedWithInAlloca then none
        else some ⟨a.address, a.alignLog, max size 1, 0, 0⟩
    | none => none).insertionSort fun a b => b.alignLog ≤ a.alignLog

/-- Whether two objects may not share bytes. -/
def together (sharing : Bool) (a b : FrameObject) : Bool :=
  !sharing || f.starts a.alloca = [] || f.starts b.alloca = [] ||
    !decide (Disjoint (f.liveRange a.alloca) (f.liveRange b.alloca))

/-! ## Placing -/

/-- The body of the loop over the objects already placed. -/
def bump (sharing : Bool) (o : FrameObject) (found : Nat × Bool) (other : FrameObject) :
    Nat × Bool :=
  if found.1 < other.extentEnd ∧ other.offset < found.1 + paddedSize o.size ∧
      f.together sharing other o then
    (alignTo other.extentEnd o.align, true)
  else found

/-- The lowest offset from `offset` on where the object clashes with none. -/
def settle (sharing : Bool) (placed : List FrameObject) (o : FrameObject) : Nat → Nat → Nat
  | 0, offset => offset
  | fuel + 1, offset =>
      let found := placed.foldl (f.bump sharing o) (offset, false)
      if found.2 then settle sharing placed o fuel found.1 else found.1

/-- The end of the last extent. -/
def lastEnd (placed : List FrameObject) : Nat := (placed.map FrameObject.extentEnd).foldl max 0

/-- The body of the loop of `place`: the objects placed and the frame's size. -/
def placeOne (sharing : Bool) (frame : List FrameObject × Nat) (o : FrameObject) :
    List FrameObject × Nat :=
  let offset := f.settle sharing frame.1 o (lastEnd frame.1 + 1) (alignTo LeftZone o.align)
  let o := { o with offset := offset }
  (frame.1 ++ [o], max frame.2 o.extentEnd)

def place (sharing : Bool) (objects : List FrameObject) : List FrameObject × Nat :=
  objects.foldl (f.placeOne sharing) ([], LeftZone)

/-- The objects in their consecutive colors. -/
def colored (objects : List FrameObject) : List FrameObject :=
  objects.mapIdx fun i o => { o with color := color ((f.hash + i) % 2 ^ 64) }

/-- Whether locals share bytes: only in a frame that is large without. -/
def sharing : Bool :=
  decide (ShareAbove < (f.place false f.objects).2) &&
    (f.objects.any fun o => !(f.starts o.alloca).isEmpty)

/-- The objects at their offsets, and the frame's size. -/
def layout : List FrameObject × Nat :=
  let first := f.place false f.objects
  if f.sharing then f.place true (f.colored first.1) else (f.colored first.1, first.2)

/-- The frame's alignment. -/
def alignment : Nat := (f.objects.map fun o => 2 ^ o.alignLog).foldl max FrameAlign

/-! ## The shadow at entry -/

def partialOf (color : UInt8) (bytes : Nat) : UInt8 := shadowPartialOf color.toNat bytes

/-- What an object's granule reads while the object is in scope. -/
def own (o : FrameObject) (g : Nat) : UInt8 :=
  if g - o.offset / 16 < o.size / 16 then o.color else partialOf o.color (o.size % 16)

/-- Whether granule `g` of the frame is one of the object's. -/
def Covers (o : FrameObject) (g : Nat) : Prop :=
  o.offset / 16 ≤ g ∧ g < o.offset / 16 + granules o.size

instance (o : FrameObject) (g : Nat) : Decidable (Covers o g) :=
  inferInstanceAs (Decidable (_ ∧ _))

/-- The end of the last object. -/
def objectsEnd (objects : List FrameObject) : Nat :=
  (objects.map fun o => o.offset + o.size).foldl max 0

/-- The loop over the objects that cover a granule, in layout order. -/
def coverValue (objects : List FrameObject) (g : Nat) (value : UInt8) : UInt8 :=
  objects.foldl (fun value o =>
    if Covers o g then
      let inScope := f.starts o.alloca = []
      if inScope ∨ value = ShadowValue.stackMid then
        if inScope then own o g else ShadowValue.stackScope
      else value
    else value) value

/-- The value of the frame's granule `g` at entry. -/
def entryValue (objects : List FrameObject) (g : Nat) : UInt8 :=
  let value := if g < LeftZone / 16 then ShadowValue.stackLeft else ShadowValue.stackMid
  if granules (objectsEnd objects) ≤ g then ShadowValue.stackRight
  else f.coverValue objects g value

/-- The granules where an object begins, ends whole and ends. -/
def cutsOf (o : FrameObject) : List Nat :=
  [o.offset / 16, o.offset / 16 + o.size / 16, o.offset / 16 + granules o.size]

def cuts (objects : List FrameObject) (frameSize : Nat) : List Nat :=
  (([0, LeftZone / 16, granules (objectsEnd objects), frameSize / 16] ++
    objects.flatMap cutsOf).insertionSort (· ≤ ·)).dedup

/-- The loop over the stretches between two cuts. -/
def entryRuns (objects : List FrameObject) (size : Nat) : List Nat → List ShadowRun → List ShadowRun
  | g :: g' :: rest, runs =>
      if g < size then
        entryRuns objects size (g' :: rest)
          (appendRun runs (min g' size - g) (f.entryValue objects g))
      else runs
  | _, runs => runs

/-- The shadow of the frame at entry. -/
def entryShadow : List ShadowRun :=
  f.entryRuns f.layout.1 (f.layout.2 / 16) (cuts f.layout.1 f.layout.2) []

/-! ## The shadow of a scope -/

/-- Whole granules the color, a partial last granule its byte count. -/
def objectRuns (size : Nat) (color : UInt8) : List ShadowRun :=
  let runs := appendRun [] (size / 16) color
  if size % 16 ≠ 0 then appendRun runs 1 (partialOf color (size % 16)) else runs

/-- Whether the redzone shares bytes with another object. -/
def sharesRedzone (objects : List FrameObject) (o : FrameObject) : Bool :=
  objects.any fun other =>
    decide (other.alloca ≠ o.alloca ∧ other.offset < o.extentEnd ∧
      o.offset + o.size < other.offset + other.size)

/-- What a lifetime start writes. -/
def liveRuns (o : FrameObject) : List ShadowRun :=
  let runs := objectRuns o.size o.color
  if sharesRedzone f.layout.1 o then
    appendRun runs (paddedSize o.size / 16 - granules o.size) ShadowValue.stackMid
  else runs

/-- What a lifetime end writes. -/
def deadRuns (o : FrameObject) : List ShadowRun :=
  appendRun [] (granules o.size) ShadowValue.stackScope

/-! ## Running -/

/-- Which locals are in scope: those without a start from the function's entry. -/
def initialScope (x : Nat) : Bool := decide (f.starts x = [])

/-- A start brings a local in scope, an end out of scope; an end of a local that
is out of scope has no effect. -/
def nextScope (scope : Nat → Bool) : Option Marker → Nat → Bool
  | some (.start x) => Function.update scope x true
  | some (.stop x) => Function.update scope x false
  | none => scope

/-- The instructions that paths from the entry reach, with the locals in scope
there. -/
inductive Reach : P → (Nat → Bool) → Prop where
  | entry : Reach f.entry f.initialScope
  | next {p q : P} {scope : Nat → Bool} :
      Reach p scope → q ∈ f.next p → Reach q (nextScope scope (f.marker p))

/-- `StackLifetime`'s ranges contain every instruction where a local with
lifetime starts may be live. -/
def Contained : Prop :=
  ∀ p scope x, f.Reach p scope → f.starts x ≠ [] → scope x = true → p ∈ f.liveRange x

end Function

/-- A function running: its next instruction, the locals in scope and the
shadow. -/
structure Running (P : Type) where
  point : P
  scope : Nat → Bool
  shadow : Shadow

namespace Function

variable {P : Type} [DecidableEq P] (f : Function P)

section Step

variable (ctx : Context) (little : Bool) (frame : Nat)

/-- What the code beside a marker writes. -/
def mark (s : Shadow) : Option Marker → Shadow
  | some (.start x) =>
      match f.layout.1.find? (·.alloca = x) with
      | some o => writeShadow ctx little (frame + o.offset) s (f.liveRuns o)
      | none => s
  | some (.stop x) =>
      match f.layout.1.find? (·.alloca = x) with
      | some o => writeShadow ctx little (frame + o.offset) s (deadRuns o)
      | none => s
  | none => s

/-- At the function's entry, with the frame's shadow written. -/
def enter (s : Shadow) : Running P :=
  ⟨f.entry, f.initialScope, writeShadow ctx little frame s f.entryShadow⟩

/-- Executes the next instruction and goes on to `q`. -/
def step (r : Running P) (q : P) : Option (Running P) :=
  if q ∈ f.next r.point then
    some ⟨q, nextScope r.scope (f.marker r.point), f.mark ctx little frame r.shadow
      (f.marker r.point)⟩
  else none

end Step

end Function

end WeaveC.Pass
