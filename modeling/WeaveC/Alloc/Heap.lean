import WeaveC.Alloc.Class
import WeaveC.Runtime.ShadowWrite
import WeaveC.Runtime.Guard

/-!
# The shared heap

Regions of slots, the words that say what each slot holds, the lists threaded
through those words, the huge blocks, and the counters.  Each function here is
what the code does while it holds the region's (or the huge table's) lock.
-/

namespace WeaveC.Alloc

open WeaveC.Runtime

/-! ## Where the arena lies -/

/-- What initialization fixes.  The arena lies inside the shadow's window, and
a page is at most 64 KiB. -/
structure Arena where
  shift : Nat
  base : Nat
  page : Nat
  bits : Nat
  quarantineBudget : BitVec 64
  width : shift = 30 ∨ shift = 31
  aligned : 2 ^ shift ∣ base
  above : 16 ≤ base
  pages : 0 < page
  pageBound : page ∣ 64 * 1024
  window : 39 ≤ bits ∧ bits ≤ 56
  inside : base + RegionCount * 2 ^ shift < 2 ^ bits

/-- A slot of the arena. -/
structure Slot where
  region : Nat
  index : Nat
  deriving DecidableEq, Repr

/-- `slotEntry`: a cached slot, with whether it was used before. -/
structure Entry where
  region : Nat
  slot : Nat
  used : Bool
  deriving DecidableEq, Repr

def Entry.place (e : Entry) : Slot := ⟨e.region, e.slot⟩

namespace Arena

variable (A : Arena)

def regionBytes : Nat := 1 <<< A.shift

def regionStart (region : Nat) : Nat := A.base + region <<< A.shift

def bytes : Nat := RegionCount <<< A.shift

/-- Where the slot words of a region lie, after the regions. -/
def wordStart (region : Nat) : Nat := A.base + A.bytes + region <<< (A.shift - 2)

def inArena (address : Nat) : Bool := A.base ≤ address && address < A.base + A.bytes

def classCount : Nat := classes A.shift

def entry (c : Nat) : Class := buildClass A.shift c

end Arena

/-! ## Slot words -/

inductive WordState where
  | never
  | live
  | free
  | dead
  deriving DecidableEq, Repr

/-- A slot word: of a live slot the object's size, of a free or queued one the
index + 1 of the next slot on its list. -/
structure Word where
  value : Nat
  state : WordState
  deriving DecidableEq, Repr

namespace Word

/-- `CachedDead`. -/
def cachedDead : Nat := 2 ^ 30 - 1

def never : Word := ⟨0, .never⟩

/-- Released, but not queued yet. -/
def claimed : Word := ⟨cachedDead, .dead⟩

/-- Released and queued. -/
def Queued (w : Word) : Prop := w.state = .dead ∧ w.value ≠ cachedDead

instance (w : Word) : Decidable w.Queued := inferInstanceAs (Decidable (_ ∧ _))

end Word

/-! ## Regions -/

def NoRegion : Nat := 0xFF
def DataChunk : Nat := 1 <<< 20
def MetaChunk : Nat := 64 * 1024

/-- A region: its table entry, its class and the next region of that class,
and what its lock guards.  The words live in its part of the metadata. -/
structure Region where
  entry : Class
  regionClass : Nat
  regionNext : Nat
  bump : Nat
  freeHead : Nat
  deadHead : Nat
  deadTail : Nat
  marks : Option (Nat → Bool)
  committed : Nat
  metaCommitted : Nat
  words : Nat → Word

namespace Region

/-- A region no slot of which has been handed out. -/
def untouched (entry : Class) (regionClass : Nat) : Region :=
  { entry, regionClass
    regionNext := NoRegion
    bump := 0
    freeHead := 0
    deadHead := 0
    deadTail := 0
    marks := none
    committed := 0
    metaCommitted := 0
    words := fun _ => Word.never }

def setWord (R : Region) (slot : Nat) (w : Word) : Region :=
  { R with words := Function.update R.words slot w }

/-- Puts a slot on the free list, as `returnSlots` does. -/
def giveBack (R : Region) (slot : Nat) : Region :=
  { R.setWord slot ⟨R.freeHead, .free⟩ with freeHead := slot + 1 }

/-- Puts a claimed slot behind the quarantine queue, as `retire` and
`flushReleases` do. -/
def enqueue (R : Region) (slot : Nat) : Region :=
  let R := R.setWord slot ⟨0, .dead⟩
  let R :=
    if R.deadTail ≠ 0 then R.setWord (R.deadTail - 1) ⟨slot + 1, .dead⟩
    else { R with deadHead := slot + 1 }
  { R with deadTail := slot + 1 }

end Region

/-- `commit`: the new extent of a range's accessible part, none when the system
refuses.  `grant` is the system's answer, by address. -/
def commit (A : Arena) (grant : Nat → Bool) (start committed end' chunk limit : Nat) :
    Option Nat :=
  if end' ≤ committed then some committed
  else
    let chunk := max chunk A.page
    let target := min ((end' + chunk - 1) / chunk * chunk) limit
    if grant (start + committed) then some target else none

/-- The shadow of what a commit made accessible, and of the granule before a
region that had nothing accessible before. -/
def poisonFresh (A : Arena) (region : Nat) (entry : Class) (before committed : Nat)
    (shadow : Shadow) : Shadow :=
  let shadow :=
    if before < committed then
      shadow.set (A.regionStart region + before)
        (if entry.size ≤ Shadow.tailLimit then committed - before else Shadow.tailLimit)
        ShadowValue.heapTail
    else shadow
  if before = 0 then shadow.set (A.regionStart region - 16) 16 ShadowValue.heapTail
  else shadow

/-- `popSlot`: a slot off the free list, or a fresh one. -/
def popSlot (A : Arena) (grant : Nat → Bool) (region : Nat) (R : Region) (shadow : Shadow) :
    Option Entry × Region × Shadow :=
  if R.freeHead ≠ 0 then
    let slot := R.freeHead - 1
    (some ⟨region, slot, true⟩, { R with freeHead := (R.words slot).value }, shadow)
  else
    let limit := A.regionBytes
    let slot := R.bump
    if R.entry.capacity ≤ slot then (none, R, shadow)
    else
      match commit A grant (A.regionStart region) R.committed ((slot + 1) * R.entry.size)
          DataChunk limit with
      | none => (none, R, shadow)
      | some committed =>
          match commit A grant (A.wordStart region) R.metaCommitted ((slot + 1) * 4)
              MetaChunk (limit >>> 2) with
          | none => (none, { R with committed }, shadow)
          | some metaCommitted =>
              (some ⟨region, slot, false⟩, { R with committed, metaCommitted, bump := slot + 1 },
                poisonFresh A region R.entry R.committed committed shadow)

/-- `popRegion`: up to `want` slots. -/
def popRegion (A : Arena) (grant : Nat → Bool) (region : Nat) :
    Nat → Region → Shadow → List Entry × Region × Shadow
  | 0, R, shadow => ([], R, shadow)
  | want + 1, R, shadow =>
      match popSlot A grant region R shadow with
      | (none, R, shadow) => ([], R, shadow)
      | (some e, R, shadow) =>
          let (es, R, shadow) := popRegion A grant region want R shadow
          (e :: es, R, shadow)

/-! ## The table of regions -/

/-- `__weavec_rt_heap` and `regionState`: how many regions are in use, the
regions, and the one each class's allocations try first. -/
structure Table where
  regions : Nat
  region : Nat → Region
  classActive : Nat → Nat

namespace Table

/-- Each class's own region, and the spares. -/
def initial (A : Arena) : Table :=
  { regions := A.classCount
    region := fun region =>
      if region < A.classCount then Region.untouched (A.entry region) region
      else Region.untouched (spareClass A.shift) NoRegion
    classActive := fun c => c }

def setRegion (t : Table) (region : Nat) (R : Region) : Table :=
  { t with region := Function.update t.region region R }

def word (t : Table) (x : Slot) : Word := (t.region x.region).words x.index

def setWord (t : Table) (x : Slot) (w : Word) : Table :=
  t.setRegion x.region ((t.region x.region).setWord x.index w)

/-- The bytes of a slot, as its region's entry has them. -/
def slotBytes (t : Table) (x : Slot) : Nat := (t.region x.region).entry.size

def regionClass (t : Table) (x : Slot) : Nat := (t.region x.region).regionClass

/-- Where a slot starts. -/
def slotBase (A : Arena) (t : Table) (x : Slot) : Nat :=
  A.regionStart x.region + x.index * t.slotBytes x

/-- `slotOf`: the slot of an arena address. -/
def slotOf (A : Arena) (t : Table) (address : Nat) : Slot :=
  let offset := address - A.base
  let region := offset >>> A.shift
  ⟨region, (t.region region).entry.slotAt (offset % 2 ^ A.shift)⟩

/-- The last region of the list that starts at `region`. -/
def lastOf (t : Table) : Nat → Nat → Nat
  | 0, region => region
  | fuel + 1, region =>
      if (t.region region).regionNext = NoRegion then region
      else t.lastOf fuel (t.region region).regionNext

/-- The regions after class `c` has taken the spare `region`, linked behind
`last`. -/
def withSpare (t : Table) (c region last : Nat) : Nat → Region :=
  let taken := Function.update t.region region
    { t.region region with entry := (t.region c).entry, regionClass := c }
  Function.update taken last { taken last with regionNext := region }

/-- `takeSpare`. -/
def takeSpare (t : Table) (c : Nat) : Option Table :=
  let region := t.regions
  if RegionCount ≤ region then none
  else
    some
      { regions := region + 1
        region := t.withSpare c region (t.lastOf RegionCount c)
        classActive := Function.update t.classActive c region }

end Table

/-! ## Huge blocks -/

/-- A block mapped on its own; `dead` is 0 while it is live, else the order of
its release. -/
structure HugeBlock where
  base : Nat
  size : Nat
  map : Nat
  mapBytes : Nat
  dead : Nat
  marked : Bool
  deriving DecidableEq, Repr

/-- The huge table, in address order. -/
structure Huge where
  blocks : List HugeBlock
  low : Nat
  high : Nat
  deadCount : Nat
  releases : Nat

namespace Huge

def initial : Huge := { blocks := [], low := 2 ^ 64 - 1, high := 0, deadCount := 0, releases := 0 }

/-- `hugeIndex` + 1, searched between `low` and `high`. -/
def search (blocks : List HugeBlock) (address : Nat) : Nat → Nat → Nat → Nat
  | 0, low, _ => low
  | fuel + 1, low, high =>
      if low < high then
        let mid := low + (high - low) / 2
        match blocks[mid]? with
        | none => low
        | some block =>
            if block.map ≤ address then search blocks address fuel (mid + 1) high
            else search blocks address fuel low mid
      else low

/-- How many blocks start at `address` or below: `hugeIndex` + 1. -/
def countTo (blocks : List HugeBlock) (address : Nat) : Nat :=
  search blocks address blocks.length 0 blocks.length

/-- The block `hugeIndex` names. -/
def blockAt (blocks : List HugeBlock) (address : Nat) : Option HugeBlock :=
  match countTo blocks address with
  | 0 => none
  | index + 1 => blocks[index]?

def maybeHuge (g : Huge) (address : Nat) : Bool := g.low ≤ address && address < g.high

/-- `hugeFind`. -/
def find (g : Huge) (address : Nat) : Option HugeBlock :=
  if g.maybeHuge address then
    match blockAt g.blocks address with
    | none => none
    | some block => if address < block.map + block.mapBytes then some block else none
  else none

end Huge

/-! ## The heap -/

structure Heap where
  table : Table
  huge : Huge
  classGained : Nat → BitVec 64
  quarantineBytes : BitVec 64
  hugeDeadBytes : BitVec 64
  retainedBytes : BitVec 64
  liveBytes : BitVec 64
  lastSweepEnd : BitVec 64
  lastSweepTook : BitVec 64
  nextPacingCheck : BitVec 64
  sweepLocked : Bool
  shadow : Shadow

namespace Heap

/-- The heap after initialization, with the shadow reserved. -/
def initial (A : Arena) (byte : Nat → UInt8) : Heap :=
  { table := Table.initial A
    huge := Huge.initial
    classGained := fun _ => 0
    quarantineBytes := 0
    hugeDeadBytes := 0
    retainedBytes := 0
    liveBytes := 0
    lastSweepEnd := 0
    lastSweepTook := 0
    nextPacingCheck := 0
    sweepLocked := false
    shadow :=
      { bits := A.bits
        mask := 2 ^ (A.bits - 4) - 1
        byte
        wf := .inr ⟨rfl, A.window⟩ } }

/-- `addLive`. -/
def addLive (h : Heap) (bytes : Int) : Heap :=
  { h with liveBytes := h.liveBytes + BitVec.ofInt 64 bytes }

/-- `liveNow`, of a loaded count. -/
def liveNow (live : BitVec 64) : BitVec 64 := if 0 < live.toInt then live else 0

/-- The color of a slot's objects, from its index and its region's. -/
def colorOfHeap (x : Slot) : UInt8 := color (x.index + x.region * 41)

/-- `shadowLive` of the object at the start of slot `x`. -/
def shadowLive (A : Arena) (h : Heap) (x : Slot) (size slotBytes : Nat) : Heap :=
  { h with
    shadow := h.shadow.live A.page (A.regionStart x.region + x.index * slotBytes) size slotBytes
      (colorOfHeap x) }

/-- `shadowDead` of slot `x`. -/
def shadowDead (A : Arena) (h : Heap) (x : Slot) : Heap :=
  { h with shadow := h.shadow.dead (h.table.slotBase A x) (h.table.slotBytes x) }

/-- Whether the system may place a mapping there: it overlaps no mapping of the
allocator's. -/
def Unmapped (A : Arena) (h : Heap) (map mapBytes : Nat) : Prop :=
  A.page ∣ map ∧ 0 < map ∧ map + mapBytes < 2 ^ A.bits ∧
    (map + mapBytes ≤ A.base - 16 ∨ A.base + A.bytes ≤ map) ∧
    ∀ block ∈ h.huge.blocks, map + mapBytes ≤ block.map ∨ block.map + block.mapBytes ≤ map

instance (A : Arena) (h : Heap) (map mapBytes : Nat) : Decidable (h.Unmapped A map mapBytes) :=
  inferInstanceAs (Decidable (_ ∧ _))

/-- The size and the placement of a huge block's mapping. -/
structure HugeRequest where
  alignment : Nat
  bytes : Nat
  mapBytes : Nat

/-- What `hugeAlloc` asks the system for, none when the block is too large. -/
def hugeRequest (A : Arena) (h : Heap) (size alignment : Nat) : Option HugeRequest :=
  let alignment := if alignment < A.page then A.page else alignment
  if ((2 ^ 64 - 1) / 2 + 2 ^ 66 - 2 * alignment - 2 * A.page) % 2 ^ 64 < size ∨
      h.shadow.Ready ∧ h.shadow.bits < 64 ∧ 1 <<< (h.shadow.bits - 2) < size then none
  else
    let bytes := (size + A.page - 1) / A.page * A.page
    let bytes := if bytes = 0 then A.page else bytes
    some ⟨alignment, bytes, bytes + A.page + if A.page < alignment then alignment else 0⟩

/-- `hugeAlloc`'s critical section, for the mapping the system gave. -/
def hugeInsert (A : Arena) (h : Heap) (size : Nat) (request : HugeRequest) (map : Nat) : Heap :=
  let base := (map + request.alignment - 1) / request.alignment * request.alignment
  let at' := Huge.countTo h.huge.blocks map
  let block : HugeBlock := ⟨base, size, map, request.mapBytes, 0, false⟩
  { h with
    huge :=
      { h.huge with
        blocks := h.huge.blocks.insertIdx at' block
        low := if map < h.huge.low then map else h.huge.low
        high := if h.huge.high < map + request.mapBytes then map + request.mapBytes
          else h.huge.high }
    shadow := h.shadow.live A.page base size request.bytes 0 }

/-- A released huge block's shadow: of a large one the ends only. -/
def hugeShadowDead (shadow : Shadow) (block : HugeBlock) : Shadow :=
  if 2 * Shadow.tailLimit < block.size then
    ((shadow.dead block.base Shadow.tailLimit).clear (block.base + Shadow.tailLimit)
      (block.base + block.size - Shadow.tailLimit)).dead
        (block.base + block.size - Shadow.tailLimit) Shadow.tailLimit
  else shadow.dead block.base block.size

/-- `hugeFree`: none when no live huge block starts at `address`. -/
def hugeFree (h : Heap) (address : Nat) : Option Heap :=
  if h.huge.maybeHuge address then
    match Huge.blockAt h.huge.blocks address with
    | none => none
    | some block =>
        if block.base = address ∧ block.dead = 0 then
          some
            { h with
              huge :=
                { h.huge with
                  blocks := h.huge.blocks.set (Huge.countTo h.huge.blocks address - 1)
                    { block with dead := h.huge.releases + 1 }
                  releases := h.huge.releases + 1
                  deadCount := h.huge.deadCount + 1 }
              hugeDeadBytes := h.hugeDeadBytes + BitVec.ofNat 64 block.size
              shadow := hugeShadowDead h.shadow block }
        else none
  else none

end Heap

end WeaveC.Alloc
