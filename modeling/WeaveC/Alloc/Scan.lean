import WeaveC.Alloc.Heap

/-!
# Marking

A word of memory marks the released slot or huge block that it is an address in.
A sweep reads the words of the scanned ranges and of the live objects.
-/

namespace WeaveC.Alloc

/-- What a sweep finds when it has stopped the world: the ranges it scans and
what every 8-byte word of memory holds. -/
structure Scan where
  ranges : List (Nat × Nat)
  memory : Nat → Nat

/-- Sets the mark of a slot. -/
def Region.mark (R : Region) (slot : Nat) : Region :=
  { R with marks := R.marks.map fun marks => Function.update marks slot true }

namespace Heap

/-- `markAddress`. -/
def markAddress (A : Arena) (h : Heap) (value : Nat) : Heap :=
  if A.inArena value then
    let R := h.table.region ((value - A.base) >>> A.shift)
    if R.marks.isNone ∨ R.deadHead = 0 then h
    else
      let x := h.table.slotOf A value
      if (h.table.word x).state = .dead then
        { h with table := h.table.setRegion x.region ((h.table.region x.region).mark x.index) }
      else h
  else if h.huge.deadCount ≠ 0 ∧ h.huge.maybeHuge value then
    match Huge.countTo h.huge.blocks value with
    | 0 => h
    | index + 1 =>
        match h.huge.blocks[index]? with
        | none => h
        | some block =>
            if block.dead ≠ 0 ∧ value < block.map + block.mapBytes then
              { h with
                huge :=
                  { h.huge with blocks := h.huge.blocks.set index { block with marked := true } } }
            else h
  else h

/-- The words of a range: those of its 8-byte cells that lie wholly inside. -/
def wordsIn (memory : Nat → Nat) (low high : Nat) : List Nat :=
  let first := (low + 7) / 8
  let stop := high / 8
  (List.range (stop - first)).map fun i => memory ((first + i) * 8)

/-- The words of the region's live objects, as `weavecRtMarkSlots` reads them. -/
def liveWords (A : Arena) (h : Heap) (memory : Nat → Nat) (region : Nat) : List Nat :=
  (List.range (h.table.region region).bump).flatMap fun slot =>
    let x : Slot := ⟨region, slot⟩
    let word := h.table.word x
    if word.state = .live then
      let base := h.table.slotBase A x
      wordsIn memory base (base + word.value)
    else []

/-- The words of the live huge blocks, as `weavecRtMarkHuge` reads them. -/
def hugeWords (h : Heap) (memory : Nat → Nat) : List Nat :=
  h.huge.blocks.flatMap fun block =>
    if block.dead = 0 then wordsIn memory block.base (block.base + block.size) else []

/-- Every word a sweep marks: those of the scanned ranges, then those of the
live objects. -/
def scannedWords (A : Arena) (h : Heap) (scan : Scan) : List Nat :=
  (scan.ranges.flatMap fun range => wordsIn scan.memory range.1 range.2) ++
    ((List.range h.table.regions).flatMap (h.liveWords A scan.memory) ++ h.hugeWords scan.memory)

def markWords (A : Arena) (h : Heap) (words : List Nat) : Heap :=
  words.foldl (markAddress A) h

theorem markWords_append (A : Arena) (h : Heap) (words words' : List Nat) :
    h.markWords A (words ++ words') = (h.markWords A words).markWords A words' :=
  List.foldl_append

/-- The other heap is this one with some words marked. -/
def MarkedTo (A : Arena) (h h' : Heap) : Prop := ∃ words, h' = h.markWords A words

theorem MarkedTo.refl (A : Arena) (h : Heap) : h.MarkedTo A h := ⟨[], rfl⟩

theorem MarkedTo.markWords {A : Arena} {h h' : Heap} (marked : h.MarkedTo A h') (words : List Nat) :
    h.MarkedTo A (h'.markWords A words) := by
  obtain ⟨before, rfl⟩ := marked
  exact ⟨before ++ words, (markWords_append A h before words).symm⟩

theorem MarkedTo.trans {A : Arena} {h h' h'' : Heap} (first : h.MarkedTo A h')
    (second : h'.MarkedTo A h'') : h.MarkedTo A h'' := by
  obtain ⟨words, rfl⟩ := second
  exact first.markWords words

end Heap

end WeaveC.Alloc
