import WeaveC.Sweep.Roots
import WeaveC.Alloc.Class
import Mathlib.Data.List.Sort

/-!
# The runtime's own mappings

The runtime registers each mapping of its own, so that the scan of the roots
leaves it out, in a step apart from the mapping itself; a table that grows is
dropped and unmapped once its successor is registered.  A state lies between
two calls of the kernel or of the table, whose answers are the events.
-/

namespace WeaveC.Sweep.Internal

open WeaveC.Alloc (RegionCount)

/-! ## The table -/

def InternalSlots : Nat := 512

/-- `weavecRtInternal`. -/
def register (r : Span) (table : List Span) : List Span :=
  if table.length < InternalSlots then table ++ [r] else table

/-- `weavecRtInternalDrop`: the last range takes the place of the first that
starts at `low`. -/
def drop (low : Nat) : List Span → List Span
  | [] => []
  | r :: rest =>
      if r.low = low then
        match rest.getLast? with
        | none => []
        | some last => last :: rest.dropLast
      else r :: drop low rest

/-- `sortInternal`. -/
def sort (table : List Span) : List Span := table.insertionSort fun r q => r.low ≤ q.low

/-! ## States -/

/-- What the runtime maps for itself: the shadow, the arena, the table of huge
blocks (for a block waiting for its entry), a region's marks (with the regions
still to map), a worker's stack, the stopped world, the listed work, and the
text of /proc/self/maps with the bytes read so far. -/
inductive Use where
  | shadow
  | arena (shift : Nat)
  | hugeTable (block : Span)
  | marks (region : Nat) (rest : List Nat)
  | stack
  | world
  | work
  | text (used : Nat)
  deriving DecidableEq

/-- What the runtime does next. -/
inductive Point where
  | idle
  /-- `mmap`. -/
  | mapping (u : Use)
  /-- Setting a worker's attributes to its mapped stack. -/
  | attributes (r : Span)
  /-- `weavecRtInternal`. -/
  | mapped (u : Use) (r : Span)
  /-- What follows the registration. -/
  | registered (u : Use) (r : Span)
  /-- `munmap` of the mapping that `r` replaces, no longer registered. -/
  | dropped (u : Use) (r : Span)
  /-- `munmap` of a reservation that `mprotect` refused. -/
  | refused (shift : Nat) (r : Span)
  /-- A reservation has failed. -/
  | unreserved (shift : Nat)
  /-- `mmap` of a huge block. -/
  | blockMapping (bytes : Nat)
  | blockMapped (block : Span)
  /-- `munmap` of a huge block that has no entry. -/
  | blockRefused (block : Span)
  /-- The head of the loop that starts workers. -/
  | starting
  /-- The loop of `readMaps`. -/
  | reading (used : Nat)
  deriving DecidableEq

structure Config where
  bits : Nat
  pageBytes : Nat
  workersWanted : Nat
  /-- The slots of a region. -/
  capacity : Nat → Nat

structure State where
  /-- What the runtime has mapped for itself and not unmapped. -/
  owned : List Span
  /-- The other mappings, the huge blocks among them. -/
  program : List Span
  table : List Span
  point : Point
  tried : Bool
  shadowReady : Bool
  initialized : Bool
  hugeTable : Option Span
  hugeCount : Nat
  hugeCapacity : Nat
  marks : List Nat
  workerCount : Nat
  workersFailed : Bool
  world : Bool
  work : Bool
  mapsText : Option Span
  mapsRoom : Nat
  /-- The table when the operation began, and whether it failed and unmapped
  what it had mapped. -/
  begun : List Span
  unmapped : Bool

def start (program : List Span) : State where
  owned := []
  program
  table := []
  point := .idle
  tried := false
  shadowReady := false
  initialized := false
  hugeTable := none
  hugeCount := 0
  hugeCapacity := 0
  marks := []
  workerCount := 0
  workersFailed := false
  world := false
  work := false
  mapsText := none
  mapsRoom := 0
  begun := []
  unmapped := false

inductive Event where
  | initialize'
  | hugeAlloc (size alignment : Nat)
  /-- The regions whose quarantine holds slots. -/
  | prepareMarks (wanted : List Nat)
  | startWorkers
  | mapWorld
  | readMaps
  | sortInternal
  /-- A sweep unmaps a released huge block. -/
  | recycle (block : Span)
  /-- The kernel's answers. -/
  | mmap (address : Option Nat)
  | mprotect (ok : Bool)
  | attributes (ok : Bool)
  | create (ok : Bool)
  | read (got : Option Nat)
  /-- Whether the heap is large enough for another worker. -/
  | liveBytes (large : Bool)
  /-- A call that cannot fail. -/
  | call
  | programMap (r : Span)
  | programUnmap (r : Span)

def Span.Apart (r q : Span) : Prop := r.high ≤ q.low ∨ q.high ≤ r.low

instance (r q : Span) : Decidable (Span.Apart r q) := inferInstanceAs (Decidable (_ ∨ _))

namespace State

variable (cfg : Config) (s : State)

/-- A range the kernel may map. -/
def Free (r : Span) : Prop :=
  r.low < r.high ∧ (∀ q ∈ s.owned, Span.Apart r q) ∧ ∀ q ∈ s.program, Span.Apart r q

instance (r : Span) : Decidable (s.Free r) := inferInstanceAs (Decidable (_ ∧ _ ∧ _))

/-- An operation begins. -/
def begin' (point : Point) : State := { s with point, begun := s.table, unmapped := false }

/-- The capacity of a huge table that takes the place of a full one. -/
def grownCapacity : Nat := if s.hugeCapacity ≠ 0 then s.hugeCapacity * 2 else 256

/-- The room of a text that takes the place of one too small. -/
def grownRoom : Nat := if s.mapsRoom = 0 then 1 <<< 20 else s.mapsRoom * 2

/-- The bytes mapped. -/
def bytes : Use → Nat
  | .shadow => (1 <<< (cfg.bits - 4)) + 64
  | .arena shift =>
      (RegionCount <<< shift) + (RegionCount <<< (shift - 2)) + 2 * (1 <<< shift)
  | .hugeTable _ => s.grownCapacity * 48
  | .marks region _ => (cfg.capacity region + 63) / 64 * 8
  | .stack => 256 * 1024
  | .world => 4292648
  | .work => 65536 * 24
  | .text _ => s.grownRoom

/-! ## The operations -/

/-- `reserve(31) || reserve(30)`, from the reservation of `shift` on. -/
def reserve (shift : Nat) : State := s.begin' (.mapping (.arena shift))

/-- `weavecRtPrepareMarks`: the first region of the list without marks. -/
def prepareMarks : List Nat → State
  | [] => { s with point := .idle }
  | region :: rest =>
      if region ∈ s.marks then prepareMarks rest
      else { s with point := .mapping (.marks region rest) }

/-- The bytes `hugeAlloc` maps, or none when the block has no room. -/
def mapBytes (size alignment : Nat) : Option Nat :=
  let page := cfg.pageBytes
  let alignment := if alignment < page then page else alignment
  let limit : Int :=
    (0x7FFFFFFFFFFFFFFF - 2 * (alignment : Int) - 2 * (page : Int)) % 0x10000000000000000
  if limit < size ∨ s.shadowReady = true ∧ cfg.bits < 64 ∧ 1 <<< (cfg.bits - 2) < size then none
  else
    let bytes := (size + page - 1) / page * page
    let bytes := if bytes = 0 then page else bytes
    some ((bytes + page + if page < alignment then alignment else 0) % 0x10000000000000000)

def begins : Event → Option State
  | .initialize' =>
      if s.initialized || s.tried then some s
      else some { s.begin' (.mapping .shadow) with tried := true }
  | .hugeAlloc size alignment =>
      match s.mapBytes cfg size alignment with
      | none => some s
      | some bytes => some (s.begin' (.blockMapping bytes))
  | .prepareMarks wanted => some ((s.begin' .idle).prepareMarks wanted)
  | .startWorkers => some (s.begin' .starting)
  | .mapWorld => some (if s.world then s else s.begin' (.mapping .world))
  | .readMaps => some (s.begin' (.reading 0))
  | .sortInternal => some { s with table := sort s.table }
  | .recycle block =>
      if s.hugeCount ≠ 0 ∧ block ∈ s.program then
        some { s with program := s.program.erase block, hugeCount := s.hugeCount - 1 }
      else none
  | _ => none

/-- What follows a mapping the kernel refused. -/
def unavailable : Use → State
  | .shadow => s.reserve 31
  | .arena shift => { s with point := .unreserved shift }
  | .hugeTable block => { s with point := .blockRefused block }
  | .stack => { s with workersFailed := true, point := .idle }
  | _ => { s with point := .idle }

/-- The mapping takes its place. -/
def store (u : Use) (r : Span) : State :=
  match u with
  | .hugeTable _ =>
      { s with hugeTable := some r, hugeCapacity := s.grownCapacity,
               hugeCount := s.hugeCount + 1, point := .idle }
  | .text used => { s with mapsText := some r, mapsRoom := s.grownRoom, point := .reading used }
  | _ => s

/-- The mapping `u` takes the place of. -/
def replaced : Use → Option Span
  | .hugeTable _ => s.hugeTable
  | .text _ => s.mapsText
  | _ => none

/-- What follows a registration. -/
def afterRegister (u : Use) (r : Span) : Event → Option State
  | .mprotect ok =>
      match u with
      | .arena shift =>
          some (if ok then { s with initialized := true, point := .idle }
            else { s with point := .refused shift r })
      | _ => none
  | .create ok =>
      match u with
      | .stack =>
          some (if ok then { s with workerCount := s.workerCount + 1, point := .starting }
            else { s with workersFailed := true, point := .idle })
      | _ => none
  | .call =>
      match u with
      | .shadow => some ({ s with shadowReady := true }.reserve 31)
      | .marks region rest => some ({ s with marks := region :: s.marks }.prepareMarks rest)
      | .world => some { s with world := true, point := .mapping .work }
      | .work => some { s with work := true, point := .idle }
      | .hugeTable _ | .text _ =>
          match s.replaced u with
          | none => some (s.store u r)
          | some old => some { s with table := drop old.low s.table, point := .dropped u r }
      | .arena _ | .stack => none
  | _ => none

end State

def step (cfg : Config) (s : State) (e : Event) : Option State :=
  match e with
  | .programMap r => if s.Free r then some { s with program := r :: s.program } else none
  | .programUnmap r =>
      if r ∈ s.program then some { s with program := s.program.erase r } else none
  | e =>
    match s.point with
    | .idle => s.begins cfg e
    | .mapping u =>
        match e with
        | .mmap none => some (s.unavailable u)
        | .mmap (some address) =>
            let r : Span := ⟨address, address + s.bytes cfg u⟩
            if s.Free r then
              some { s with owned := r :: s.owned,
                            point := if u = .stack then .attributes r else .mapped u r }
            else none
        | _ => none
    | .attributes r =>
        match e with
        | .attributes ok =>
            some (if ok then { s with point := .mapped .stack r }
              else { s with workersFailed := true, point := .idle })
        | _ => none
    | .mapped u r =>
        match e with
        | .call => some { s with table := register r s.table, point := .registered u r }
        | _ => none
    | .registered u r => s.afterRegister u r e
    | .dropped u r =>
        match e, s.replaced u with
        | .call, some old => some ({ s with owned := s.owned.erase old }.store u r)
        | _, _ => none
    | .refused shift r =>
        match e with
        | .call =>
            some { s with owned := s.owned.erase r, unmapped := true, point := .unreserved shift }
        | _ => none
    | .unreserved shift =>
        match e with
        | .call => some (if shift = 31 then s.reserve 30 else { s with point := .idle })
        | _ => none
    | .blockMapping bytes =>
        match e with
        | .mmap none => some { s with point := .idle }
        | .mmap (some address) =>
            let block : Span := ⟨address, address + bytes⟩
            if s.Free block then
              some { s with program := block :: s.program, point := .blockMapped block }
            else none
        | _ => none
    | .blockMapped block =>
        match e with
        | .call =>
            some (if s.hugeCount = s.hugeCapacity then
                { s with point := .mapping (.hugeTable block) }
              else { s with hugeCount := s.hugeCount + 1, point := .idle })
        | _ => none
    | .blockRefused block =>
        match e with
        | .call =>
            some { s with program := s.program.erase block, unmapped := true, point := .idle }
        | _ => none
    | .starting =>
        match e with
        | .liveBytes large =>
            some (if !s.workersFailed && decide (s.workerCount < cfg.workersWanted) && large then
                { s with point := .mapping .stack }
              else { s with point := .idle })
        | _ => none
    | .reading used =>
        if s.mapsRoom < used + 4096 then
          match e with
          | .call => some { s with point := .mapping (.text used) }
          | _ => none
        else
          match e with
          | .read (some 0) => some { s with point := .idle }
          | .read (some got) =>
              if used + got < s.mapsRoom then some { s with point := .reading (used + got) }
              else none
          | .read none => some { s with point := .idle }
          | _ => none

end WeaveC.Sweep.Internal
