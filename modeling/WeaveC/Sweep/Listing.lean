import WeaveC.Alloc.Scan

/-!
# The work list of a parallel sweep

A large sweep lists its ranges first, in chunks, and then the live slots by
region; what the list cannot hold is marked at once.  The listed items are then
taken by the sweeping thread and the workers.
-/

namespace WeaveC.Sweep

open WeaveC.Alloc

def MarkChunk : Nat := 4 <<< 20
def WorkSlots : Nat := 1 <<< 16
def WordsWork : Nat := 0xFFFFFFFF
def ParallelBytes : BitVec 64 := 64 <<< 20

/-- A work item: the words of `[low, high)`, or else the slots `[low, high)` of
a region. -/
structure Work where
  low : Nat
  high : Nat
  region : Nat
  deriving DecidableEq, Repr

/-- The words of the live objects among the slots `[first, last)` of a region,
as `weavecRtMarkSlots` reads them. -/
def slotWords (A : Arena) (h : Heap) (memory : Nat → Nat) (region first last : Nat) : List Nat :=
  (List.range' first (last - first)).flatMap fun slot =>
    let x : Slot := ⟨region, slot⟩
    let word := h.table.word x
    if word.state = .live then
      let base := h.table.slotBase A x
      Heap.wordsIn memory base (base + word.value)
    else []

/-- The words an item has marked, as `markWork` reads them. -/
def Work.words (A : Arena) (h : Heap) (memory : Nat → Nat) (item : Work) : List Nat :=
  if item.region = WordsWork then Heap.wordsIn memory item.low item.high
  else slotWords A h memory item.region (item.low % 2 ^ 32) (item.high % 2 ^ 32)

/-- The work list, and the heap with what was marked already. -/
structure Collected where
  work : List Work
  heap : Heap

section Collecting

variable (A : Arena) (memory : Nat → Nat)

/-- `addWork`: lists an item, or marks it at once when the list is full. -/
def addWork (c : Collected) (item : Work) : Collected :=
  if c.work.length < WorkSlots then { c with work := c.work ++ [item] }
  else { c with heap := c.heap.markWords A (item.words A c.heap memory) }

/-- `markRange` while a parallel sweep collects its ranges. -/
def markRange (low high : Nat) (c : Collected) : Collected :=
  if MarkChunk < high - low then
    markRange (low + MarkChunk) high (addWork A memory c ⟨low, low + MarkChunk, WordsWork⟩)
  else if low < high then addWork A memory c ⟨low, high, WordsWork⟩
  else c
termination_by high - low
decreasing_by
  unfold MarkChunk at *
  omega

/-- The loop of `weavecRtHeapWork` over a region's slots, from `first`. -/
def addSlots (region bump step : Nat) : Nat → Nat → Collected → Collected
  | 0, _, c => c
  | fuel + 1, first, c =>
      if first < bump then
        let next := (first + step) % 2 ^ 32
        addSlots region bump step fuel next
          (addWork A memory c ⟨first, if step < bump - first then next else bump, region⟩)
      else c

/-- How many slots of `size` bytes an item lists. -/
def slotStep (size : Nat) : Nat := if MarkChunk ≤ size then 1 else MarkChunk / size % 2 ^ 32

/-- `weavecRtHeapWork`. -/
def heapWork (h : Heap) (c : Collected) : Collected :=
  (List.range h.table.regions).foldl (fun c region =>
    let R := h.table.region region
    addSlots A memory region R.bump (slotStep R.entry.size) R.bump 0 c) c

/-- What a parallel sweep lists of its ranges and of the live slots, and marks
while it lists. -/
def gather (h : Heap) (ranges : List (Nat × Nat)) : Collected :=
  heapWork A memory h
    (ranges.foldl (fun c range => markRange A memory range.1 range.2 c) ⟨[], h⟩)

/-- The words that have been read of listed items: of item `i` those numbered `j`
where `read i j`. -/
def readWords (h : Heap) (read : Nat → Nat → Bool) (work : List Work) : List Nat :=
  work.zipIdx.flatMap fun (item, i) =>
    ((item.words A h memory).zipIdx.filter fun (_, j) => read i j).map Prod.fst

end Collecting

/-! ## Listing marks and does nothing else -/

section Marks

variable {A : Arena} {memory : Nat → Nat} {h : Heap} {c : Collected}

theorem marked_addWork (marked : h.MarkedTo A c.heap) (item : Work) :
    h.MarkedTo A (addWork A memory c item).heap := by
  unfold addWork
  split_ifs
  · exact marked
  · exact marked.markWords _

theorem marked_markRange {low high : Nat} (marked : h.MarkedTo A c.heap) :
    h.MarkedTo A (markRange A memory low high c).heap := by
  fun_induction markRange A memory low high c with
  | case1 low c more inductionHypothesis => exact inductionHypothesis (marked_addWork marked _)
  | case2 low c more some => exact marked_addWork marked _
  | case3 low c more none => exact marked

theorem marked_addSlots {region bump step fuel first : Nat} (marked : h.MarkedTo A c.heap) :
    h.MarkedTo A (addSlots A memory region bump step fuel first c).heap := by
  induction fuel generalizing first c with
  | zero => exact marked
  | succ fuel inductionHypothesis =>
      unfold addSlots
      by_cases more : first < bump
      · rw [if_pos more]
        exact inductionHypothesis (marked_addWork marked _)
      · rw [if_neg more]
        exact marked

theorem marked_gather (A : Arena) (memory : Nat → Nat) (h : Heap) (ranges : List (Nat × Nat)) :
    h.MarkedTo A (gather A memory h ranges).heap := by
  have roots : h.MarkedTo A
      (ranges.foldl (fun c range => markRange A memory range.1 range.2 c) ⟨[], h⟩).heap :=
    List.foldlRecOn ranges _ (motive := fun c : Collected => h.MarkedTo A c.heap) (.refl A h)
      fun _ marked _ _ => marked_markRange marked
  exact List.foldlRecOn (List.range h.table.regions) _
    (motive := fun c : Collected => h.MarkedTo A c.heap) roots fun _ marked _ _ =>
      marked_addSlots marked

end Marks

end WeaveC.Sweep
