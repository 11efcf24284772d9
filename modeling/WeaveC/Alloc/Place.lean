import WeaveC.Alloc.Machine
import WeaveC.Library.Intrusive

/-!
# Where each slot is

The abstract heap gives every slot one place.  `Partition` ties the places to
what the machine's memory says: the slot words, the lists threaded through
them, each thread's caches, and the slots a thread's point has in hand.
-/

namespace WeaveC.Alloc

open WeaveC.Library

/-- The place of a slot: not handed out yet, on its region's free list, in a
thread's cache of free slots, taken by an allocation in progress, live, being
released by a thread, in a thread's cache of released slots, or in its
region's quarantine queue. -/
inductive Place (T : Type) where
  | fresh
  | free
  | cached (t : T) (c : Nat)
  | taken (t : T)
  | live
  | retiring (t : T)
  | released (t : T) (c : Nat)
  | queued

namespace Place

variable {T : Type}

/-- The thread that alone may move the slot. -/
def owner : Place T → Option T
  | cached t _ | taken t | retiring t | released t _ => some t
  | fresh | free | live | queued => none

/-- Handed to a thread and not live yet. -/
def Handed : Place T → Prop
  | cached _ _ | taken _ => True
  | _ => False

/-- Claimed by a release and not queued yet. -/
def Claimed : Place T → Prop
  | retiring _ | released _ _ => True
  | _ => False

/-- What the slot's word says there. -/
def WordOk : Place T → Word → Prop
  | fresh, w => w = Word.never
  | free, w => w.state = .free
  | cached _ _, w | taken _, w => w.state = .free ∨ w.state = .never
  | live, w => w.state = .live
  | retiring _, w | released _ _, w => w = Word.claimed
  | queued, w => w.Queued

theorem WordOk.handed {p : Place T} {w : Word} (handed : p.Handed) :
    p.WordOk w ↔ w.state = .free ∨ w.state = .never := by
  cases p <;> first | exact handed.elim | exact Iff.rfl

theorem WordOk.claimed {p : Place T} {w : Word} (claimed : p.Claimed) :
    p.WordOk w ↔ w = Word.claimed := by
  cases p <;> first | exact claimed.elim | exact Iff.rfl

theorem WordOk.live_iff {p : Place T} {w : Word} (ok : p.WordOk w) :
    p = .live ↔ w.state = .live := by
  cases p <;> simp_all [WordOk, Word.never, Word.claimed, Word.Queued]
  rcases ok with ok | ok <;> simp [ok]
  rcases ok with ok | ok <;> simp [ok]

theorem WordOk.queued_iff {p : Place T} {w : Word} (ok : p.WordOk w) :
    p = .queued ↔ w.Queued := by
  cases p <;> simp_all [WordOk, Word.never, Word.claimed, Word.Queued]
  rcases ok with ok | ok <;> simp [ok]
  rcases ok with ok | ok <;> simp [ok]

theorem WordOk.dead_iff {p : Place T} {w : Word} (ok : p.WordOk w) :
    w.state = .dead ↔ p.Claimed ∨ p = .queued := by
  cases p <;> simp_all [WordOk, Word.never, Word.claimed, Word.Queued, Claimed]
  rcases ok with ok | ok <;> simp [ok]
  rcases ok with ok | ok <;> simp [ok]

end Place

/-! ## Regions -/

variable {T : Type}

def Region.nextOf (R : Region) (slot : Nat) : Nat := (R.words slot).value

/-- A region's memory agrees with its slots' places. -/
structure RegionOk (A : Arena) (R : Region) (place : Nat → Place T) : Prop where
  free : ∃ l, Chain R.nextOf R.freeHead l ∧ ∀ s, s ∈ l ↔ place s = .free
  queue : ∃ l, Queue R.nextOf R.deadHead R.deadTail l ∧ ∀ s, s ∈ l ↔ place s = .queued
  word : ∀ s, (place s).WordOk (R.words s)
  fresh : ∀ s, place s = .fresh ↔ R.bump ≤ s
  bump : R.bump ≤ R.entry.capacity
  capacity : R.entry.capacity ≤ 2 ^ 27
  whole : R.entry.capacity * R.entry.size ≤ A.regionBytes
  extent : R.bump * R.entry.size ≤ R.committed
  committed : R.committed ≤ A.regionBytes
  chunks : DataChunk ∣ R.committed

/-- The table's regions, classes and lists of regions. -/
structure TableOk (A : Arena) (t : Table) (place : Slot → Place T) : Prop where
  classes : A.classCount ≤ t.regions
  count : t.regions ≤ RegionCount
  region : ∀ r, RegionOk A (t.region r) fun i => place ⟨r, i⟩
  own : ∀ c, c < A.classCount → (t.region c).regionClass = c
  ofClass : ∀ r, r < t.regions → (t.region r).regionClass < A.classCount
  entry : ∀ r, r < t.regions → (t.region r).entry = A.entry (t.region r).regionClass
  spare : ∀ r, t.regions ≤ r → (t.region r).entry.capacity = 0 ∧ (t.region r).regionNext = NoRegion
  next : ∀ r, r < t.regions → (t.region r).regionNext ≠ NoRegion →
    (t.region r).regionNext < t.regions ∧
      (t.region (t.region r).regionNext).regionClass = (t.region r).regionClass
  active : ∀ c, c < A.classCount → t.classActive c < t.regions ∧
    (t.region (t.classActive c)).regionClass = c
  cls : ∀ x t' c, place x = .cached t' c ∨ place x = .released t' c → t.regionClass x = c

/-! ## Threads -/

/-- The part of a cache's array that holds slots. -/
structure Held where
  slots : Nat → Entry
  low : Nat
  high : Nat

def SlotCache.held (s : SlotCache) : Held := ⟨s.slots, 0, s.count⟩

/-- What a point has in hand: which part of each of the thread's caches holds
slots there, the slots taken or being released, and the one a reallocation in
place is about. -/
structure View where
  alloc : Nat → SlotCache → Held
  release : Nat → SlotCache → Held
  taken : Option Slot
  retiring : Option Slot
  resizing : Option Slot

def View.plain : View := ⟨fun _ => SlotCache.held, fun _ => SlotCache.held, none, none, none⟩

namespace Point

/-- While a cache is refilled, reversed or given back its count does not say
what it holds. -/
def allocHeld (p : Point) (c : Nat) (s : SlotCache) : Held :=
  match p with
  | .setActive w _ got _ => if w.cached = true ∧ w.cls = c then ⟨s.slots, 0, got⟩ else s.held
  | .setCount w got => if w.cls = c then ⟨s.slots, 0, got⟩ else s.held
  | .swapHigh w i swap =>
      if w.cls = c then ⟨Function.update s.slots (s.count - 1 - i) swap, 0, s.count⟩ else s.held
  | .giveBack c' i _ => if c' = c then ⟨s.slots, i, s.count⟩ else s.held
  | _ => s.held

/-- While a release is pushed or a cache is flushed its count does not say what
it holds. -/
def releaseHeld (p : Point) (cls : Slot → Nat) (c : Nat) (s : SlotCache) : Held :=
  match p with
  | .pushSlot x => if cls x = c then ⟨s.slots, 0, s.count - 1⟩ else s.held
  | .flush c' i _ _ => if c' = c then ⟨s.slots, i, s.count⟩ else s.held
  | _ => s.held

def taken : Point → Option Slot
  | .setActive w _ _ e => if w.cached then none else some e.place
  | .addLive _ e | .storeLive _ e => some e.place
  | _ => none

def retiring : Point → Option Slot
  | .chooseCache x | .shadowDead x _ | .push x | .pushCount x | .pushSlot x | .retire x => some x
  | _ => none

/-- The slot that a reallocation in place is between its load and its store
of. -/
def resizing : Point → Option Slot
  | .resizeShadow x _ | .resizeWord x _ => some x
  | _ => none

def view (p : Point) (cls : Slot → Nat) : View :=
  { alloc := p.allocHeld
    release := p.releaseHeld cls
    taken := p.taken
    retiring := p.retiring
    resizing := p.resizing }

end Point

/-- An allocation's request fits its class. -/
structure Want.Ok (A : Arena) (w : Want) : Prop where
  cls : w.cls < A.classCount
  fits : w.size < (A.entry w.cls).size
  cached : w.cached = true → w.cls < A.cachedClasses

/-- The own cache of the class is empty while `popClass` runs for it. -/
def Want.Empty (w : Want) (k : ThreadCache) : Prop := w.cached = true → (k.alloc w.cls).count = 0

def Then.Ok (A : Arena) (k : ThreadCache) : Then → Prop
  | .done => True
  | .pop w => w.Ok A ∧ w.Empty k

/-- The classes below `c` that an exiting thread's drain has emptied. -/
def Drained (k : ThreadCache) (c : Nat) : Prop :=
  ∀ c', c' < c → (k.alloc c').count = 0 ∧ (k.release c').count = 0

def After.Ok (A : Arena) (k : ThreadCache) (c : Nat) : After → Prop
  | .sweep next => next.Ok A k
  | .exit => Drained k c

def FlushFor.Ok (A : Arena) (k : ThreadCache) (c : Nat) : FlushFor → Prop
  | .full => True
  | .drain next => next.Ok A k c

/-- What holds of the thread's own data at a point. -/
def PointOk (A : Arena) (t : Table) (k : ThreadCache) : Point → Prop
  | .popActive w _ | .popGained w _ | .spare w _ => w.Ok A ∧ w.Empty k
  | .popRegion w _ _ region | .popNext w _ region =>
      w.Ok A ∧ w.Empty k ∧ region < t.regions ∧ (t.region region).regionClass = w.cls
  | .setActive w region got e =>
      w.Ok A ∧ region < t.regions ∧ (t.region region).regionClass = w.cls ∧ 0 < got ∧
        (w.cached = false → e.region < t.regions ∧ (t.region e.region).regionClass = w.cls)
  | .setCount w got => w.Ok A ∧ w.cached = true ∧ 0 < got
  | .swapLow w i | .swapHigh w i _ => w.Ok A ∧ w.cached = true ∧ i < (k.alloc w.cls).count / 2
  | .charge w | .takeTop w => w.Ok A ∧ w.cached = true ∧ 0 < (k.alloc w.cls).count
  | .addLive w e | .storeLive w e | .shadowLive w e =>
      w.Ok A ∧ e.region < t.regions ∧ (t.region e.region).regionClass = w.cls
  | .claim _ word => word.state = .live
  | .shadowDead x cached => cached = true → t.regionClass x < A.cachedClasses
  | .push x => t.regionClass x < A.cachedClasses
  | .pushCount x =>
      t.regionClass x < A.cachedClasses ∧
        ((k.release (t.regionClass x)).slots (k.release (t.regionClass x)).count).place = x
  | .pushSlot x =>
      t.regionClass x < A.cachedClasses ∧ 0 < (k.release (t.regionClass x)).count
  | .credit c => c < A.cachedClasses
  | .retireAdd x | .retireGained x | .retireLive x => x.region < t.regions
  | .flush c i _ f => c < A.cachedClasses ∧ i ≤ (k.release c).count ∧ f.Ok A k c
  | .flushAdd c _ f | .flushGained c _ f =>
      c < A.cachedClasses ∧ f.Ok A k c ∧ (k.release c).count = 0
  | .giveBack c i a =>
      c < A.cachedClasses ∧ i ≤ (k.alloc c).count ∧ a.Ok A k c ∧ (k.release c).count = 0
  | .fold a => a.Ok A k A.cachedClasses
  | .unlink => Drained k A.cachedClasses
  | .sweep next | .wanted next | .wantedHuge next | .trySweepLock next | .world next
  | .swept next _ | .sweepUnlock next => next.Ok A k
  | .resize _ size => size < 2 ^ 64
  | .resizeShadow x size | .resizeWord x size => size < t.slotBytes x
  | _ => True

/-- A thread's memory agrees with the places of its slots. -/
structure ThreadOk (A : Arena) (place : Slot → Place T) (t : T) (v : View) (k : ThreadCache) :
    Prop where
  alloc : ∀ c, Segment (fun i => ((v.alloc c (k.alloc c)).slots i).place)
    (v.alloc c (k.alloc c)).low (v.alloc c (k.alloc c)).high {x | place x = .cached t c}
  release : ∀ c, Segment (fun i => ((v.release c (k.release c)).slots i).place)
    (v.release c (k.release c)).low (v.release c (k.release c)).high {x | place x = .released t c}
  taken : ∀ x, place x = .taken t ↔ v.taken = some x
  retiring : ∀ x, place x = .retiring t ↔ v.retiring = some x
  resizing : ∀ x, v.resizing = some x → place x = .live
  uncached : ∀ c, A.cachedClasses ≤ c → (k.alloc c).count = 0 ∧ (k.release c).count = 0

/-- The machine's memory agrees with the places of the slots. -/
structure Partition (A : Arena) (s : State T) (place : Slot → Place T) : Prop where
  table : TableOk A s.heap.table place
  thread : ∀ t, ThreadOk A place t ((s.thread t).point.view s.heap.table.regionClass)
    (s.thread t).cache
  point : ∀ t, PointOk A s.heap.table (s.thread t).cache (s.thread t).point

end WeaveC.Alloc
