import WeaveC.Sweep.Listing

/-!
# The allocator's side of a sweep

With the world stopped and every lock held: the marks are mapped, every word
of the scanned ranges and of the live objects is marked, and what no word
points into is recycled.
-/

namespace WeaveC.Alloc

namespace Heap

/-! ## Marking -/

/-- `weavecRtPrepareMarks`; `grant` is the system's answer for each region, and
the first refusal ends it. -/
def prepareFrom (grant : Nat → Bool) : Nat → Nat → Table → Bool × Table
  | 0, _, t => (true, t)
  | left + 1, region, t =>
      let R := t.region region
      if R.deadHead = 0 ∨ R.marks.isSome then prepareFrom grant left (region + 1) t
      else if grant region then
        prepareFrom grant left (region + 1)
          (t.setRegion region { R with marks := some fun _ => false })
      else (false, t)

def prepareMarks (grant : Nat → Bool) (h : Heap) : Bool × Heap :=
  let (ok, table) := prepareFrom grant h.table.regions 0 h.table
  (ok, { h with table })

end Heap

/-! ## Recycling -/

/-- A region's lists while its slots are recycled, from the last one. -/
structure Recycling where
  words : Nat → Word
  freeHead : Nat
  keptHead : Nat
  deadTail : Nat
  recycled : Nat

namespace Region

/-- What `weavecRtRecycle` does with one slot. -/
def recycleSlot (recycle : Bool) (marks : Nat → Bool) (slot : Nat) (r : Recycling) : Recycling :=
  let word := r.words slot
  -- a slot in a thread's cache, or being released, is not queued
  if word.state ≠ .dead ∨ word.value = Word.cachedDead then r
  else if recycle = false ∨ marks slot = true then
    { r with
      deadTail := if r.keptHead = 0 then slot + 1 else r.deadTail
      words := Function.update r.words slot ⟨r.keptHead, .dead⟩
      keptHead := slot + 1 }
  else
    { r with
      words := Function.update r.words slot ⟨r.freeHead, .free⟩
      freeHead := slot + 1
      recycled := r.recycled + 1 }

/-- The slots below `slot`, from the last. -/
def recycleBelow (recycle : Bool) (marks : Nat → Bool) : Nat → Recycling → Recycling
  | 0, r => r
  | slot + 1, r => recycleBelow recycle marks slot (recycleSlot recycle marks slot r)

/-- Recycles a region: the region, and how many slots went to its free list. -/
def recycle (R : Region) (recycle : Bool) : Region × Nat :=
  match R.marks with
  | none => (R, 0)
  | some marks =>
      if R.deadHead = 0 then (R, 0)
      else
        let r := recycleBelow recycle marks R.bump ⟨R.words, R.freeHead, 0, R.deadTail, 0⟩
        ({ R with
            words := r.words
            freeHead := r.freeHead
            deadHead := r.keptHead
            deadTail := if r.keptHead = 0 then 0 else r.deadTail
            marks := some fun slot =>
              if slot < (R.bump + 63) / 64 * 64 then false else marks slot },
          r.recycled)

end Region

namespace Heap

/-- The regions' part of `weavecRtRecycle`: each on its own. -/
def recycleRegions (A : Arena) (h : Heap) (recycle : Bool) : Heap :=
  { h with
    classGained := fun c => if c < A.classCount then 0 else h.classGained c
    table :=
      { h.table with
        region := fun region =>
          if region < h.table.regions then ((h.table.region region).recycle recycle).1
          else h.table.region region }
    quarantineBytes :=
      (List.range h.table.regions).foldl
        (fun bytes region =>
          let R := h.table.region region
          bytes - BitVec.ofNat 64 (R.entry.size * (R.recycle recycle).2))
        h.quarantineBytes }

/-- Whether a huge block stays in the table. -/
def keepsHuge (recycle : Bool) (block : HugeBlock) : Bool :=
  block.dead = 0 || block.marked || !recycle

/-- The huge blocks' part. -/
def recycleHuge (h : Heap) (recycle : Bool) : Heap :=
  let gone := h.huge.blocks.filter fun block => !keepsHuge recycle block
  { h with
    huge :=
      { h.huge with
        blocks := (h.huge.blocks.filter (keepsHuge recycle)).map fun block =>
          { block with marked := false }
        deadCount := h.huge.deadCount - gone.length }
    hugeDeadBytes := gone.foldl (fun bytes block => bytes - BitVec.ofNat 64 block.size)
      h.hugeDeadBytes
    shadow := gone.foldl (fun shadow block =>
      shadow.clear block.base (block.base + block.size + 16)) h.shadow }

/-- `weavecRtRecycle`. -/
def recycle (A : Arena) (h : Heap) (recycle : Bool) : Heap :=
  let h := (h.recycleRegions A recycle).recycleHuge recycle
  { h with retainedBytes := h.quarantineBytes + h.hugeDeadBytes }

/-! ## The sweep -/

/-- What stopping the world brings: whether the threads stopped, whether the
marks could be mapped, the words of the threads' registers, how many mark workers
there are, what was found, which words of the listed items have been read when a
parallel sweep's `runWork` returns, whether every root was scanned, and whether the
threads changed meanwhile.  `scanExcluding` passes on no empty range. -/
structure WorldAnswer where
  stopped : Bool
  grantMarks : Nat → Bool
  registers : List Nat
  workers : Nat
  scan : Scan
  read : Nat → Nat → Bool
  scanned : Bool
  changed : Bool
  ordered : ∀ range ∈ scan.ranges, range.1 < range.2

/-- The sweep is one that marks in parallel. -/
def Parallel (h : Heap) (answer : WorldAnswer) : Prop :=
  answer.workers ≠ 0 ∧ Sweep.ParallelBytes ≤ liveNow h.liveBytes

instance (h : Heap) (answer : WorldAnswer) : Decidable (h.Parallel answer) :=
  inferInstanceAs (Decidable (_ ∧ _))

/-- What a parallel sweep lists, and marks while it lists. -/
def gathered (A : Arena) (h : Heap) (answer : WorldAnswer) : Sweep.Collected :=
  Sweep.gather A answer.scan.memory h answer.scan.ranges

/-- The parallel branch of `weavecRtSweep`: the ranges and the live slots are
listed, the listed items marked by `runWork`, and the live huge blocks after it.
Marking changes none of the words. -/
def markParallel (A : Arena) (h : Heap) (answer : WorldAnswer) : Heap :=
  let collected := h.gathered A answer
  let read := Sweep.readWords A answer.scan.memory h answer.read collected.work
  (collected.heap.markWords A read).markWords A (h.hugeWords answer.scan.memory)

/-- The marking of `weavecRtSweep`, the registers' words first. -/
def mark (A : Arena) (h : Heap) (answer : WorldAnswer) : Heap :=
  let h := h.markWords A answer.registers
  if h.Parallel answer then h.markParallel A answer
  else h.markWords A (h.scannedWords A answer.scan)

/-- Marking marks words and does nothing else. -/
theorem markedTo_mark (A : Arena) (h : Heap) (answer : WorldAnswer) :
    h.MarkedTo A (h.mark A answer) := by
  have registers : h.MarkedTo A (h.markWords A answer.registers) := (MarkedTo.refl A h).markWords _
  unfold mark
  dsimp only
  split_ifs
  · have listed := Sweep.marked_gather A answer.scan.memory (h.markWords A answer.registers)
      answer.scan.ranges
    exact ((registers.trans listed).markWords _).markWords _
  · exact registers.markWords _

/-- The section of `weavecRtSweep` that runs with the world stopped, and whether
it could mark. -/
def sweepWorld (A : Arena) (h : Heap) (answer : WorldAnswer) : Bool × Heap :=
  if answer.stopped then
    let (prepared, h) := h.prepareMarks answer.grantMarks
    if prepared then (true, (h.mark A answer).recycle A (answer.scanned && !answer.changed))
    else (false, h)
  else (false, h)

/-! ## When a sweep runs -/

/-- The bytes released since the last sweep, as `overBudget` computes them. -/
def gainedOf (held kept : BitVec 64) : BitVec 64 := if kept < held then held - kept else 0

def softOf (A : Arena) (live : BitVec 64) : BitVec 64 :=
  if live / 4 < A.quarantineBudget then A.quarantineBudget else live / 4

def hardOf (A : Arena) (live : BitVec 64) : BitVec 64 :=
  if live / 2 < 2 * A.quarantineBudget then 2 * A.quarantineBudget else live / 2

/-- `weavecRtSwept`. -/
def swept (A : Arena) (h : Heap) (ended took : BitVec 64) (marked : Bool) : Heap :=
  let held := h.quarantineBytes + h.hugeDeadBytes
  let hard := hardOf A (liveNow h.liveBytes)
  { h with
    lastSweepEnd := ended
    lastSweepTook := took
    nextPacingCheck := if marked then 0 else gainedOf held h.retainedBytes + hard }

end Heap

end WeaveC.Alloc
