import WeaveC.Alloc.Sweep

/-!
# Threads in the allocator

Every thread is at a point of the allocator's code between two accesses to
memory that another thread may see: a critical section, an atomic access to a
slot word or a counter, or an access to the thread's own cache, which a fork
copies as it is.  A step takes one thread from its point to the next.

Signal handlers that enter the allocator again, the counters of the statistics
and the contents of blocks are left out.
-/

namespace WeaveC.Alloc

open WeaveC.Runtime

/-! ## Caches -/

def CachedClasses : Nat := 40
def CacheSlots : Nat := 32
def CacheBytes : Nat := 32 * 1024
def FoldBytes : Int := 256 * 1024

structure SlotCache where
  count : Nat
  slots : Nat → Entry

/-- `ThreadCache`, with a class's allocations and releases apart. -/
structure ThreadCache where
  alloc : Nat → SlotCache
  release : Nat → SlotCache
  liveDelta : Int

namespace ThreadCache

/-- A cache as it is mapped. -/
def fresh : ThreadCache :=
  { alloc := fun _ => ⟨0, fun _ => ⟨0, 0, false⟩⟩
    release := fun _ => ⟨0, fun _ => ⟨0, 0, false⟩⟩
    liveDelta := 0 }

def setAlloc (k : ThreadCache) (c : Nat) (s : SlotCache) : ThreadCache :=
  { k with alloc := Function.update k.alloc c s }

def setRelease (k : ThreadCache) (c : Nat) (s : SlotCache) : ThreadCache :=
  { k with release := Function.update k.release c s }

end ThreadCache

namespace Arena

/-- How many classes a cache serves. -/
def cachedClasses (A : Arena) : Nat :=
  ((List.range CachedClasses).takeWhile fun c =>
    c < A.classCount && (A.entry c).size ≤ CacheBytes).length

def cacheLimit (A : Arena) (c : Nat) : Nat :=
  let fit := CacheBytes / (A.entry c).size
  if fit = 0 then 1 else if fit < CacheSlots then fit else CacheSlots

end Arena

/-- The value of the cache's key: none yet, the thread's cache, or gone. -/
inductive CacheKey where
  | none
  | own
  | gone
  deriving DecidableEq, Repr

/-! ## Points -/

/-- What an allocation is for: the program, or the new block of a `realloc` of
the block at `old`. -/
inductive Purpose where
  | request
  | move (old : Nat)
  deriving DecidableEq, Repr

/-- An allocation in progress: its class, the object's size and alignment, and
whether it goes through the thread's cache. -/
structure Want where
  cls : Nat
  size : Nat
  alignment : Nat
  cached : Bool
  purpose : Purpose
  deriving DecidableEq, Repr

/-- What a sweep returns to: the program, or `popClass`'s loop. -/
inductive Then where
  | done
  | pop (w : Want)
  deriving DecidableEq, Repr

/-- What a drain of the own cache returns to. -/
inductive After where
  | sweep (k : Then)
  | exit
  deriving DecidableEq, Repr

/-- What a flush of a release cache returns to. -/
inductive FlushFor where
  | full
  | drain (k : After)
  deriving DecidableEq, Repr

/-- What `overBudget` has loaded so far. -/
inductive Reading where
  | start
  | quarantine (bytes : BitVec 64)
  | held (bytes : BitVec 64)
  | gained (held kept : BitVec 64)
  | budgets (gained live : BitVec 64)
  | clock (gained live : BitVec 64)
  | ended (gained live ended : BitVec 64)
  | pace (check : BitVec 64)
  deriving DecidableEq, Repr

inductive Point where
  | idle
  -- allocation
  | popActive (w : Want) (swept : Bool)
  | popRegion (w : Want) (swept first : Bool) (region : Nat)
  | popNext (w : Want) (swept : Bool) (region : Nat)
  | setActive (w : Want) (region got : Nat) (taken : Entry)
  | popGained (w : Want) (swept : Bool)
  | spare (w : Want) (swept : Bool)
  | setCount (w : Want) (got : Nat)
  | swapLow (w : Want) (i : Nat)
  | swapHigh (w : Want) (i : Nat) (swap : Entry)
  | charge (w : Want)
  | takeTop (w : Want)
  | addLive (w : Want) (taken : Entry)
  | storeLive (w : Want) (taken : Entry)
  | shadowLive (w : Want) (taken : Entry)
  | huge (size alignment : Nat) (purpose : Purpose)
  -- release
  | release (p : Nat)
  | claim (x : Slot) (word : Word)
  | chooseCache (x : Slot)
  | shadowDead (x : Slot) (cached : Bool)
  | push (x : Slot)
  | pushCount (x : Slot)
  | pushSlot (x : Slot)
  | credit (c : Nat)
  | retire (x : Slot)
  | retireAdd (x : Slot)
  | retireGained (x : Slot)
  | retireLive (x : Slot)
  | overBudget (r : Reading)
  -- the own cache's way back
  | flush (c i : Nat) (bytes : Nat) (k : FlushFor)
  | flushAdd (c bytes : Nat) (k : FlushFor)
  | flushGained (c bytes : Nat) (k : FlushFor)
  | giveBack (c i : Nat) (k : After)
  | fold (k : After)
  | unlink
  -- sweep
  | sweep (k : Then)
  | wanted (k : Then)
  | wantedHuge (k : Then)
  | trySweepLock (k : Then)
  | world (k : Then)
  | swept (k : Then) (marked : Bool)
  | sweepUnlock (k : Then)
  -- reallocation in place
  | resize (p size : Nat)
  | resizeShadow (x : Slot) (size : Nat)
  | resizeWord (x : Slot) (size : Nat)
  deriving DecidableEq, Repr

structure Thread where
  key : CacheKey
  cache : ThreadCache
  point : Point

/-- A thread that has not called the allocator yet. -/
def Thread.fresh : Thread := ⟨.none, .fresh, .idle⟩

/-! ## Calls and answers -/

inductive Call where
  | alloc (size alignment : Nat)
  | free (p : Nat)
  | realloc (p size : Nat)
  | exit
  deriving DecidableEq, Repr

/-- Sizes and addresses are 64-bit words. -/
def Call.Typed : Call → Prop
  | .alloc size alignment => size < 2 ^ 64 ∧ alignment < 2 ^ 64
  | .free p => p < 2 ^ 64
  | .realloc p size => p < 2 ^ 64 ∧ size < 2 ^ 64
  | .exit => True

instance (c : Call) : Decidable c.Typed :=
  match c with
  | .alloc _ _ => inferInstanceAs (Decidable (_ ∧ _))
  | .free _ => inferInstanceAs (Decidable (_ < _))
  | .realloc _ _ => inferInstanceAs (Decidable (_ ∧ _))
  | .exit => .isTrue trivial

/-- What the system answers, and the one choice the compiler has: which of a
cache's two stores of a release comes first. -/
structure Answer where
  grant : Nat → Bool
  cacheMapped : Bool
  countFirst : Bool
  map : Option Nat
  hugeTable : Bool
  worldMapped : Bool
  world : Heap.WorldAnswer
  now : BitVec 64
  took : BitVec 64

/-! ## Steps -/

/-- A thread's step: the heap and the thread after it. -/
abbrev Stepped := Option (Heap × Thread)

namespace Thread

variable (A : Arena) (h : Heap) (th : Thread)

def goto (p : Point) : Thread := { th with point := p }

@[simp] theorem goto_key (p : Point) : (th.goto p).key = th.key := rfl
@[simp] theorem goto_cache (p : Point) : (th.goto p).cache = th.cache := rfl
@[simp] theorem goto_point (p : Point) : (th.goto p).point = p := rfl

/-- `cacheFor` in a call that is the thread's only one: whether it goes through
a cache.  A thread's cache is mapped once, zero, on its first use. -/
def cacheFor (c : Nat) (mapped : Bool) : Bool × Thread :=
  if c < A.cachedClasses then
    match th.key with
    | .own => (true, th)
    | .gone => (false, th)
    | .none => if mapped then (true, { th with key := .own }) else (false, th)
  else (false, th)

/-- Where an allocation returns to. -/
def allocated : Purpose → Point
  | .request => .idle
  | .move old => .release old

/-- `allocate`, up to its first access to shared memory. -/
def allocate (size alignment : Nat) (purpose : Purpose) (mapped : Bool) : Thread :=
  if 16 < alignment ∧ alignment &&& (alignment - 1) ≠ 0 then th.goto .idle
  else
    let c := requestClass size alignment
    if c < A.classCount then
      let (cached, th) := th.cacheFor A c mapped
      let w : Want := ⟨c, size, alignment, cached, purpose⟩
      if cached then
        if (th.cache.alloc c).count = 0 then th.goto (.popActive w false)
        else th.goto (.charge w)
      else th.goto (.popActive w false)
    else th.goto (.huge size alignment purpose)

/-- The start of a call. -/
def call (mapped : Bool) : Call → Option Thread
  | .alloc size alignment => some (th.allocate A size alignment .request mapped)
  | .free p => some (if p = 0 then th else th.goto (.release p))
  | .realloc p size =>
      some (if p = 0 then th.allocate A size 0 .request mapped else th.goto (.resize p size))
  | .exit =>
      if th.key = .own then some { th with key := .gone, point := .flush 0 0 0 (.drain .exit) }
      else none

/-- The slots `popRegion` wrote to the own cache, from its start. -/
def fillSlots (slots : Nat → Entry) (es : List Entry) : Nat → Entry :=
  fun i => (es[i]?).getD (slots i)

/-- Where `popClass` returns to with at least one slot. -/
def popped (w : Want) (got : Nat) (taken : Entry) : Point :=
  if w.cached then .setCount w got else .addLive w taken

/-- The own cache with the slots `popRegion` wrote to it. -/
def storePopped (w : Want) (es : List Entry) : Thread :=
  if w.cached then
    let own := th.cache.alloc w.cls
    { th with cache := th.cache.setAlloc w.cls { own with slots := fillSlots own.slots es } }
  else th

/-- Where `popClass` goes after it tried a region: back with slots, from the
region its allocations try first (`first`) or from another, or on. -/
def afterPop (w : Want) (swept first : Bool) (region : Nat) : List Entry → Point
  | e :: es =>
      if first then popped w (es.length + 1) e else .setActive w region (es.length + 1) e
  | [] => if first then .popRegion w swept false w.cls else .popNext w swept region

/-- Where the reversal of a refilled cache goes on. -/
def reversal (w : Want) (count i : Nat) : Point :=
  if i < count / 2 then .swapLow w i else .charge w

/-- Where a sweep returns to. -/
def resume : Then → Point
  | .done => .idle
  | .pop w => .popActive w true

/-- Where a flush goes on when its class is done. -/
def flushed (c : Nat) : FlushFor → Point
  | .full => .overBudget .start
  | .drain k => .giveBack c 0 k

/-- Where a drain starts with class `c`, or ends. -/
def drainFrom (c : Nat) (k : After) : Point :=
  if c < A.cachedClasses then .flush c 0 0 (.drain k) else .fold k

/-- How many entries from `i` on are of one region. -/
def runLength (slots : Nat → Entry) (region : Nat) : Nat → Nat → Nat
  | _, 0 => 0
  | i, left + 1 =>
      if (slots i).region = region then runLength slots region (i + 1) left + 1 else 0

/-- The entries from `i` on, put behind their regions' queues. -/
def enqueueRun (slots : Nat → Entry) : Nat → Nat → Table → Table
  | _, 0, t => t
  | i, n + 1, t =>
      let e := slots i
      enqueueRun slots (i + 1) n (t.setRegion e.region ((t.region e.region).enqueue e.slot))

/-- A change of the live heap's bytes, folded into the shared count when it has
grown to `FoldBytes`. -/
def foldLive (delta : Int) (past : Bool) : Heap × Int :=
  if past then (h.addLive delta, 0) else (h, delta)

/-- `overBudget`, one load at a time; the answer is where it goes. -/
def overBudget (now : BitVec 64) : Reading → Heap × Point
  | .start => (h, .overBudget (.quarantine h.quarantineBytes))
  | .quarantine bytes => (h, .overBudget (.held (bytes + h.hugeDeadBytes)))
  | .held bytes => (h, .overBudget (.gained bytes h.retainedBytes))
  | .gained held kept =>
      (h, .overBudget (.budgets (Heap.gainedOf held kept) (Heap.liveNow h.liveBytes)))
  | .budgets gained live =>
      if gained < Heap.softOf A live ∨ gained < h.nextPacingCheck then (h, .idle)
      else if Heap.hardOf A live ≤ gained then (h, .sweep .done)
      else (h, .overBudget (.clock gained live))
  | .clock gained live => (h, .overBudget (.ended gained live h.lastSweepEnd))
  | .ended gained live ended =>
      if 8 * h.lastSweepTook ≤ now - ended then (h, .sweep .done)
      else (h, .overBudget (.pace (gained + Heap.softOf A live / 16)))
  | .pace check => ({ h with nextPacingCheck := check }, .idle)

/-- `release`, from its load of the slot word; none when it reports. -/
def release (p : Nat) : Stepped :=
  if A.inArena p then
    let x := h.table.slotOf A p
    let word := h.table.word x
    if h.table.slotBase A x ≠ p ∨ word.state ≠ .live then none
    else some (h, th.goto (.claim x word))
  else
    match h.hugeFree p with
    | some h => some (h, th.goto (.overBudget .start))
    | none => if (h.huge.find p).isSome then none else some (h, th.goto .idle)

/-- `__weavec_rt_realloc`, from its load of the slot word. -/
def resize (p size : Nat) (mapped : Bool) : Stepped :=
  if A.inArena p then
    let x := h.table.slotOf A p
    let word := h.table.word x
    if h.table.slotBase A x ≠ p ∨ word.state ≠ .live then none
    else if classFor size = h.table.regionClass x then some (h, th.goto (.resizeShadow x size))
    else some (h, th.allocate A size 0 (.move p) mapped)
  else
    match h.huge.find p with
    | some block =>
        if block.base = p ∧ block.dead = 0 then some (h, th.allocate A size 0 (.move p) mapped)
        else none
    | none => some (h, th.goto .idle)

/-- `hugeAlloc`. -/
def hugeAlloc (size alignment : Nat) (purpose : Purpose) (a : Answer) : Stepped :=
  match h.hugeRequest A size alignment, a.map with
  | some request, some map =>
      if h.Unmapped A map request.mapBytes then
        if a.hugeTable then
          some (h.hugeInsert A size request map, th.goto (allocated purpose))
        else some (h, th.goto .idle)
      else none
  | _, _ => some (h, th.goto .idle)

/-- A step of a thread inside the allocator. -/
def step (a : Answer) : Stepped :=
  match th.point with
  | .idle => none
  | .popActive w swept =>
      some (h, th.goto (.popRegion w swept true (h.table.classActive w.cls)))
  | .popRegion w swept first region =>
      let want := if w.cached then A.cacheLimit w.cls else 1
      let (es, R, shadow) := Alloc.popRegion A a.grant region want (h.table.region region) h.shadow
      some ({ h with table := h.table.setRegion region R, shadow },
        (th.storePopped w es).goto (afterPop w swept first region es))
  | .popNext w swept region =>
      let next := (h.table.region region).regionNext
      some (h, th.goto
        (if next = NoRegion then .popGained w swept else .popRegion w swept false next))
  | .setActive w region got taken =>
      let classActive := Function.update h.table.classActive w.cls region
      some ({ h with table := { h.table with classActive } }, th.goto (popped w got taken))
  | .popGained w swept =>
      let entry := A.entry w.cls
      let quarter := BitVec.ofNat 64 (entry.capacity * entry.size / 4)
      if swept = false ∧ quarter ≤ h.classGained w.cls then some (h, th.goto (.sweep (.pop w)))
      else some (h, th.goto (.spare w swept))
  | .spare w swept =>
      match h.table.takeSpare w.cls with
      | some table => some ({ h with table }, th.goto (.popActive w swept))
      | none =>
          if swept then some (h, th.goto (.huge w.size w.alignment w.purpose))
          else some (h, th.goto (.sweep (.pop w)))
  | .setCount w got =>
      let own := th.cache.alloc w.cls
      let th := { th with cache := th.cache.setAlloc w.cls { own with count := got } }
      some (h, th.goto (reversal w got 0))
  | .swapLow w i =>
      let own := th.cache.alloc w.cls
      let swap := own.slots i
      let slots := Function.update own.slots i (own.slots (own.count - 1 - i))
      let th := { th with cache := th.cache.setAlloc w.cls { own with slots } }
      some (h, th.goto (.swapHigh w i swap))
  | .swapHigh w i swap =>
      let own := th.cache.alloc w.cls
      let slots := Function.update own.slots (own.count - 1 - i) swap
      let th := { th with cache := th.cache.setAlloc w.cls { own with slots } }
      some (h, th.goto (reversal w own.count (i + 1)))
  | .charge w =>
      let delta := th.cache.liveDelta + (A.entry w.cls).size
      let (h, delta) := foldLive h delta (FoldBytes ≤ delta)
      some (h, { th with cache := { th.cache with liveDelta := delta }, point := .takeTop w })
  | .takeTop w =>
      let own := th.cache.alloc w.cls
      let taken := own.slots (own.count - 1)
      let th := { th with cache := th.cache.setAlloc w.cls { own with count := own.count - 1 } }
      some (h, th.goto (.storeLive w taken))
  | .addLive w taken =>
      some (h.addLive (A.entry w.cls).size, th.goto (.storeLive w taken))
  | .storeLive w taken =>
      some ({ h with table := h.table.setWord taken.place ⟨w.size, .live⟩ },
        th.goto (.shadowLive w taken))
  | .shadowLive w taken =>
      some (h.shadowLive A taken.place w.size (A.entry w.cls).size,
        th.goto (allocated w.purpose))
  | .huge size alignment purpose => hugeAlloc A h th size alignment purpose a
  | .release p => release A h th p
  | .claim x word =>
      if h.table.word x = word then
        some ({ h with table := h.table.setWord x Word.claimed }, th.goto (.chooseCache x))
      else none
  | .chooseCache x =>
      let (cached, th) := th.cacheFor A (h.table.regionClass x) a.cacheMapped
      some (h, th.goto (.shadowDead x cached))
  | .shadowDead x cached =>
      some (h.shadowDead A x, th.goto (if cached then .push x else .retire x))
  | .push x =>
      let c := h.table.regionClass x
      let own := th.cache.release c
      if a.countFirst then
        let th := { th with cache := th.cache.setRelease c { own with count := own.count + 1 } }
        some (h, th.goto (.pushSlot x))
      else
        let slots := Function.update own.slots own.count ⟨x.region, x.index, true⟩
        let th := { th with cache := th.cache.setRelease c { own with slots } }
        some (h, th.goto (.pushCount x))
  | .pushCount x =>
      let c := h.table.regionClass x
      let own := th.cache.release c
      let th := { th with cache := th.cache.setRelease c { own with count := own.count + 1 } }
      some (h, th.goto (.credit c))
  | .pushSlot x =>
      let c := h.table.regionClass x
      let own := th.cache.release c
      let slots := Function.update own.slots (own.count - 1) ⟨x.region, x.index, true⟩
      let th := { th with cache := th.cache.setRelease c { own with slots } }
      some (h, th.goto (.credit c))
  | .credit c =>
      let delta := th.cache.liveDelta - (A.entry c).size
      let (h, delta) := foldLive h delta (delta ≤ -FoldBytes)
      some (h,
        { th with
          cache := { th.cache with liveDelta := delta }
          point := if (th.cache.release c).count = A.cacheLimit c then .flush c 0 0 .full
            else .idle })
  | .retire x =>
      some ({ h with
          table := h.table.setRegion x.region ((h.table.region x.region).enqueue x.index) },
        th.goto (.retireAdd x))
  | .retireAdd x =>
      some ({ h with
          quarantineBytes := h.quarantineBytes + BitVec.ofNat 64 (h.table.slotBytes x) },
        th.goto (.retireGained x))
  | .retireGained x =>
      let c := h.table.regionClass x
      let gained := h.classGained c + BitVec.ofNat 64 (h.table.slotBytes x)
      some ({ h with classGained := Function.update h.classGained c gained },
        th.goto (.retireLive x))
  | .retireLive x =>
      some (h.addLive (-(h.table.slotBytes x)), th.goto (.overBudget .start))
  | .overBudget r =>
      let (h, point) := overBudget A h a.now r
      some (h, th.goto point)
  | .flush c i bytes k =>
      let own := th.cache.release c
      if i < own.count then
        let n := runLength own.slots (own.slots i).region i (own.count - i)
        some ({ h with table := enqueueRun own.slots i n h.table },
          th.goto (.flush c (i + n) (bytes + n * (A.entry c).size) k))
      else
        let th := { th with cache := th.cache.setRelease c { own with count := 0 } }
        some (h, th.goto (if bytes ≠ 0 then .flushAdd c bytes k else flushed c k))
  | .flushAdd c bytes k =>
      some ({ h with quarantineBytes := h.quarantineBytes + BitVec.ofNat 64 bytes },
        th.goto (.flushGained c bytes k))
  | .flushGained c bytes k =>
      let gained := h.classGained c + BitVec.ofNat 64 bytes
      some ({ h with classGained := Function.update h.classGained c gained },
        th.goto (flushed c k))
  | .giveBack c i k =>
      let own := th.cache.alloc c
      if i < own.count then
        let e := own.slots i
        some ({ h with
            table := h.table.setRegion e.region ((h.table.region e.region).giveBack e.slot) },
          th.goto (.giveBack c (i + 1) k))
      else
        let th := { th with cache := th.cache.setAlloc c { own with count := 0 } }
        some (h, th.goto (drainFrom A (c + 1) k))
  | .fold k =>
      let (h, delta) := foldLive h th.cache.liveDelta (th.cache.liveDelta ≠ 0)
      some (h,
        { th with
          cache := { th.cache with liveDelta := delta }
          point := match k with
            | .sweep k => .wanted k
            | .exit => .unlink })
  | .unlink => some (h, { th with cache := .fresh, point := .idle })
  | .sweep k =>
      some (h, th.goto (if th.key = .own then drainFrom A 0 (.sweep k) else .wanted k))
  | .wanted k =>
      some (h, th.goto (if h.quarantineBytes ≠ 0 then .trySweepLock k else .wantedHuge k))
  | .wantedHuge k =>
      some (h, th.goto (if h.huge.deadCount ≠ 0 then .trySweepLock k else resume k))
  | .trySweepLock k =>
      if h.sweepLocked then some (h, th.goto (resume k))
      else some ({ h with sweepLocked := true }, th.goto (.world k))
  | .world k =>
      if a.worldMapped then
        let (marked, h) := h.sweepWorld A a.world
        some (h, th.goto (.swept k marked))
      else some (h, th.goto (.sweepUnlock k))
  | .swept k marked =>
      some (h.swept A a.now a.took marked, th.goto (.sweepUnlock k))
  | .sweepUnlock k => some ({ h with sweepLocked := false }, th.goto (resume k))
  | .resize p size => resize A h th p size a.cacheMapped
  | .resizeShadow x size =>
      some (h.shadowLive A x size (h.table.slotBytes x), th.goto (.resizeWord x size))
  | .resizeWord x size =>
      some ({ h with table := h.table.setWord x ⟨size, .live⟩ }, th.goto .idle)

end Thread

/-! ## The machine -/

/-- The heap, the threads, and the list of the caches in use. -/
structure State (T : Type) where
  heap : Heap
  thread : T → Thread
  caches : List T

/-- A call of an idle thread, or the next step of one inside the allocator. -/
structure Event (T : Type) where
  thread : T
  call : Option Call
  answer : Answer

namespace State

variable {T : Type} [DecidableEq T]

def initial (A : Arena) (byte : Nat → UInt8) : State T :=
  { heap := .initial A byte, thread := fun _ => .fresh, caches := [] }

/-- The list of caches after a step of thread `t`: `makeCache` puts the new one
in front, `dropCache` takes the thread's out. -/
def linked (s : State T) (t : T) (th : Thread) : List T :=
  if (s.thread t).key = .none ∧ th.key = .own then t :: s.caches
  else if (s.thread t).point = .unlink then s.caches.erase t
  else s.caches

/-- The heap and the thread that takes the step, after it. -/
def stepOf (A : Arena) (s : State T) (e : Event T) : Stepped :=
  let th := s.thread e.thread
  match e.call with
  | some call =>
      if th.point = .idle ∧ call.Typed then
        (th.call A e.answer.cacheMapped call).map fun th => (s.heap, th)
      else none
  | none => th.step A s.heap e.answer

def step (A : Arena) (s : State T) (e : Event T) : Option (State T) :=
  match stepOf A s e with
  | none => none
  | some (heap, th) =>
      some
        { heap
          thread := Function.update s.thread e.thread th
          caches := s.linked e.thread th }

end State

/-! ## A machine to run -/

/-- Regions of 2 GiB from 2 GiB on, in a 47-bit address space with 4 KiB pages. -/
def Arena.sample : Arena where
  shift := 31
  base := 2 ^ 31
  page := 4096
  bits := 47
  quarantineBudget := 64 * 1024 * 1024
  width := .inr rfl
  aligned := ⟨1, rfl⟩
  above := by decide
  pages := by decide
  pageBound := ⟨16, rfl⟩
  window := by decide
  inside := by decide

/-- A system that grants every mapping but a huge block's, and finds nothing in
the world. -/
def Answer.sample : Answer :=
  { grant := fun _ => true
    cacheMapped := true
    countFirst := true
    map := none
    hugeTable := true
    worldMapped := true
    world :=
      { stopped := true
        grantMarks := fun _ => true
        registers := []
        workers := 0
        scan := ⟨[], fun _ => 0⟩
        read := fun _ _ => true
        scanned := true
        changed := false
        ordered := fun _ mem => absurd mem List.not_mem_nil }
    now := 0
    took := 0 }

namespace Event

variable {T : Type}

def enter (t : T) (call : Call) : Event T := ⟨t, some call, .sample⟩

def next (t : T) : Event T := ⟨t, none, .sample⟩

end Event

end WeaveC.Alloc
