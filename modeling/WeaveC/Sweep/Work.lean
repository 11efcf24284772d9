import WeaveC.Alloc.Marks
import WeaveC.Alloc.Partition
import WeaveC.Library.Interleave

/-!
# Marking in parallel

The words of the listed items and of those that the list could not hold are the
words of the ranges' chunks and of the live slots.  Where the ranges are aligned
the marks are those of the sequential sweep, in whatever order the items are
taken.
-/

namespace WeaveC.Sweep

open WeaveC.Alloc WeaveC.Library

/-- A range of memory to scan, as `scanMappings` passes it on. -/
structure RootRange where
  low : Nat
  high : Nat
  ordered : low ≤ high
  alignedLow : 8 ∣ low
  alignedHigh : 8 ∣ high

/-- What a parallel sweep lists of such ranges, and marks while it lists. -/
def collect (A : Arena) (memory : Nat → Nat) (h : Heap) (ranges : List RootRange) : Collected :=
  gather A memory h (ranges.map fun range => (range.low, range.high))

/-! ## Which words a range holds -/

theorem mem_wordsIn {memory : Nat → Nat} {low high value : Nat} :
    value ∈ Heap.wordsIn memory low high ↔
      ∃ cell, low ≤ 8 * cell ∧ 8 * cell + 8 ≤ high ∧ memory (8 * cell) = value := by
  unfold Heap.wordsIn
  simp only [List.mem_map, List.mem_range]
  constructor
  · rintro ⟨i, below, rfl⟩
    refine ⟨(low + 7) / 8 + i, ?_, ?_, ?_⟩
    · omega
    · omega
    · rw [Nat.mul_comm]
  · rintro ⟨cell, above, below, rfl⟩
    refine ⟨cell - (low + 7) / 8, ?_, ?_⟩
    · omega
    · congr 1
      omega

/-- A range is its parts, cut between two words. -/
theorem mem_wordsIn_cut {memory : Nat → Nat} {low mid high : Nat} (value : Nat) (aligned : 8 ∣ mid)
    (above : low ≤ mid) (below : mid ≤ high) :
    value ∈ Heap.wordsIn memory low high ↔
      value ∈ Heap.wordsIn memory low mid ∨ value ∈ Heap.wordsIn memory mid high := by
  simp only [mem_wordsIn]
  constructor
  · rintro ⟨cell, from_low, to_high, eq⟩
    by_cases first : 8 * cell < mid
    · refine .inl ⟨cell, from_low, ?_, eq⟩
      omega
    · exact .inr ⟨cell, Nat.not_lt.mp first, to_high, eq⟩
  · rintro (⟨cell, from_low, to_mid, eq⟩ | ⟨cell, from_mid, to_high, eq⟩)
    · exact ⟨cell, from_low, to_mid.trans below, eq⟩
    · exact ⟨cell, above.trans from_mid, to_high, eq⟩

section Marking

variable {A : Arena} {h : Heap} {memory : Nat → Nat}

theorem mem_slotWords {region first last value : Nat} :
    value ∈ slotWords A h memory region first last ↔
      ∃ slot, first ≤ slot ∧ slot < last ∧ (h.table.word ⟨region, slot⟩).state = .live ∧
        value ∈ Heap.wordsIn memory (h.table.slotBase A ⟨region, slot⟩)
          (h.table.slotBase A ⟨region, slot⟩ + (h.table.word ⟨region, slot⟩).value) := by
  unfold slotWords
  simp only [List.mem_flatMap, List.mem_range'_1]
  constructor
  · rintro ⟨slot, ⟨above, below⟩, mem⟩
    split_ifs at mem with live
    · exact ⟨slot, above, by omega, live, mem⟩
    · exact absurd mem (by simp)
  · rintro ⟨slot, above, below, live, mem⟩
    refine ⟨slot, ⟨above, by omega⟩, ?_⟩
    rw [if_pos live]
    exact mem

theorem mem_slotWords_cut {region first mid last : Nat} (value : Nat) (above : first ≤ mid)
    (below : mid ≤ last) :
    value ∈ slotWords A h memory region first last ↔
      value ∈ slotWords A h memory region first mid ∨
        value ∈ slotWords A h memory region mid last := by
  simp only [mem_slotWords]
  constructor
  · rintro ⟨slot, from_first, to_last, live, mem⟩
    by_cases early : slot < mid
    · exact .inl ⟨slot, from_first, early, live, mem⟩
    · exact .inr ⟨slot, Nat.not_lt.mp early, to_last, live, mem⟩
  · rintro (⟨slot, from_first, to_mid, live, mem⟩ | ⟨slot, from_mid, to_last, live, mem⟩)
    · exact ⟨slot, from_first, to_mid.trans_le below, live, mem⟩
    · exact ⟨slot, above.trans from_mid, to_last, live, mem⟩

theorem liveWords_eq (region : Nat) :
    h.liveWords A memory region =
      slotWords A h memory region 0 (h.table.region region).bump := by
  unfold Heap.liveWords slotWords
  rw [List.range_eq_range', Nat.sub_zero]

/-- Marking changes no object's size or place. -/
theorem Work.words_congr {h' : Heap} (same : h.SameButMarks h') (item : Work) :
    item.words A h' memory = item.words A h memory := by
  unfold Work.words slotWords
  simp only [same.slots.word, same.slots.slotBase]

/-! ## What the list covers -/

/-- The words of `W` are those of the listed items and those marked already. -/
def Covers (A : Arena) (h : Heap) (memory : Nat → Nat) (c : Collected) (W : Set Nat) : Prop :=
  ∃ now : List Nat, c.heap = h.markWords A now ∧
    ∀ value, value ∈ W ↔ value ∈ now ∨ ∃ item ∈ c.work, value ∈ item.words A h memory

variable {c : Collected} {W : Set Nat}

theorem Covers.congr {W' : Set Nat} (covers : Covers A h memory c W) (same : ∀ v, v ∈ W' ↔ v ∈ W) :
    Covers A h memory c W' := by
  obtain ⟨now, heap, words⟩ := covers
  exact ⟨now, heap, fun value => (same value).trans (words value)⟩

theorem Covers.addWork (covers : Covers A h memory c W) (item : Work) :
    Covers A h memory (addWork A memory c item) (W ∪ {v | v ∈ item.words A h memory}) := by
  obtain ⟨now, heap, words⟩ := covers
  unfold Sweep.addWork
  split_ifs with room
  · refine ⟨now, heap, fun value => ?_⟩
    simp only [Set.mem_union, words, Set.mem_ofPred_eq, List.mem_append, List.mem_singleton]
    constructor
    · rintro ((early | ⟨listed, mem, here⟩) | here)
      · exact .inl early
      · exact .inr ⟨listed, .inl mem, here⟩
      · exact .inr ⟨item, .inr rfl, here⟩
    · rintro (early | ⟨listed, mem | rfl, here⟩)
      · exact .inl (.inl early)
      · exact .inl (.inr ⟨listed, mem, here⟩)
      · exact .inr here
  · have same : h.SameButMarks c.heap := by
      rw [heap]
      exact Heap.sameButMarks_markWords A h now
    refine ⟨now ++ item.words A h memory, ?_, fun value => ?_⟩
    · simp only [item.words_congr same, Heap.markWords_append]
      rw [heap]
    · simp only [Set.mem_union, words, Set.mem_ofPred_eq, List.mem_append]
      exact or_right_comm

/-- A range's chunks and its rest are the range. -/
theorem Covers.markRange {low high : Nat} (covers : Covers A h memory c W) (aligned : 8 ∣ low) :
    Covers A h memory (markRange A memory low high c)
      (W ∪ {v | v ∈ Heap.wordsIn memory low high}) := by
  fun_induction Sweep.markRange A memory low high c generalizing W with
  | case1 low c more inductionHypothesis =>
      have chunk : 8 ∣ MarkChunk := by decide
      have rest := inductionHypothesis (covers.addWork ⟨low, low + MarkChunk, WordsWork⟩)
        (Nat.dvd_add aligned chunk)
      refine rest.congr fun value => ?_
      simp only [Set.mem_union, Set.mem_ofPred_eq, Work.words, if_true]
      rw [mem_wordsIn_cut value (Nat.dvd_add aligned chunk) (by omega) (by omega)]
      tauto
  | case2 low c more some => exact covers.addWork ⟨low, high, WordsWork⟩
  | case3 low c more none =>
      refine covers.congr fun value => ?_
      simp only [Set.mem_union, Set.mem_ofPred_eq, mem_wordsIn]
      constructor
      · rintro (mem | ⟨cell, above, below, -⟩)
        · exact mem
        · omega
      · exact .inl

theorem slotStep_pos {size : Nat} (positive : 16 ≤ size) :
    0 < slotStep size ∧ slotStep size ≤ 2 ^ 18 := by
  unfold slotStep
  split_ifs with large
  · decide
  · have fits : MarkChunk / size ≤ 2 ^ 18 :=
      calc MarkChunk / size ≤ MarkChunk / 16 := Nat.div_le_div_left positive (by decide)
        _ = 2 ^ 18 := by decide
    have some : 0 < MarkChunk / size := Nat.div_pos (by omega) (by omega)
    rw [Nat.mod_eq_of_lt (by omega)]
    exact ⟨some, fits⟩

/-- The items of a region's slots from `first` on are the region's slots. -/
theorem Covers.addSlots {region bump step fuel first : Nat} (covers : Covers A h memory c W)
    (numbered : region ≠ WordsWork) (bound : bump ≤ 2 ^ 27) (some : 0 < step)
    (short : step ≤ 2 ^ 18) (enough : bump ≤ first + fuel) (begun : first ≤ 2 ^ 28) :
    Covers A h memory (addSlots A memory region bump step fuel first c)
      (W ∪ {v | v ∈ slotWords A h memory region first bump}) := by
  have nothing (first : Nat) (past : bump ≤ first) (value : Nat) :
      value ∉ slotWords A h memory region first bump := by
    rw [mem_slotWords]
    rintro ⟨slot, above, below, -⟩
    omega
  induction fuel generalizing first c W with
  | zero =>
      refine covers.congr fun value => ?_
      simp [nothing first (by omega) value]
  | succ fuel inductionHypothesis =>
      unfold Sweep.addSlots
      by_cases more : first < bump
      · rw [if_pos more]
        have next : (first + step) % 2 ^ 32 = first + step := Nat.mod_eq_of_lt (by omega)
        simp only [next]
        have rest := inductionHypothesis
          (covers.addWork ⟨first, if step < bump - first then first + step else bump, region⟩)
          (show bump ≤ first + step + fuel by omega) (by omega)
        refine rest.congr fun value => ?_
        simp only [Set.mem_union, Set.mem_ofPred_eq, Work.words, if_neg numbered]
        rw [Nat.mod_eq_of_lt (a := first) (by omega)]
        split_ifs with long
        · rw [Nat.mod_eq_of_lt (by omega),
            mem_slotWords_cut value (show first ≤ first + step by omega) (by omega)]
          tauto
        · rw [Nat.mod_eq_of_lt (by omega)]
          have past := nothing (first + step) (by omega) value
          tauto
      · rw [if_neg more]
        refine covers.congr fun value => ?_
        simp [nothing first (by omega) value]

/-- What the allocator's tables say of every heap: the sizes and numbers of the
slots a sweep lists. -/
structure Listable (h : Heap) : Prop where
  count : h.table.regions ≤ RegionCount
  size : ∀ r, r < h.table.regions → 16 ≤ (h.table.region r).entry.size
  bump : ∀ r, r < h.table.regions → (h.table.region r).bump ≤ 2 ^ 27

theorem Covers.heapWork (covers : Covers A h memory c W) (listable : Listable h) :
    Covers A h memory (heapWork A memory h c)
      (W ∪ {v | v ∈ (List.range h.table.regions).flatMap (h.liveWords A memory)}) := by
  unfold Sweep.heapWork
  have every : ∀ r ∈ List.range h.table.regions, r < h.table.regions := fun r => List.mem_range.mp
  generalize List.range h.table.regions = regions at every ⊢
  induction regions generalizing c W with
  | nil =>
      refine covers.congr fun value => ?_
      simp
  | cons r regions inductionHypothesis =>
      have used := every r (by simp)
      have step := slotStep_pos (listable.size r used)
      have numbered : r ≠ WordsWork := by
        have := listable.count
        unfold RegionCount at this
        unfold WordsWork
        omega
      rw [List.foldl_cons]
      have rest := inductionHypothesis
        (covers.addSlots numbered (listable.bump r used) step.1 step.2
          (Nat.zero_add (h.table.region r).bump).ge (Nat.zero_le _))
        fun r' mem => every r' (by simp [mem])
      refine rest.congr fun value => ?_
      simp only [Set.mem_union, Set.mem_ofPred_eq, List.flatMap_cons, List.mem_append,
        liveWords_eq]
      tauto

/-- The list and what was marked while it was made cover every range and every
live slot, if they cover what is listed of one range. -/
theorem gather_covers (listable : Listable h) (ranges : List (Nat × Nat))
    (parts : Nat × Nat → Set Nat)
    (each : ∀ range ∈ ranges, ∀ (c : Collected) (W : Set Nat), Covers A h memory c W →
      Covers A h memory (markRange A memory range.1 range.2 c) (W ∪ parts range)) :
    Covers A h memory (gather A memory h ranges)
      {v | (∃ range ∈ ranges, v ∈ parts range) ∨
        v ∈ (List.range h.table.regions).flatMap (h.liveWords A memory)} := by
  have roots (c : Collected) (W : Set Nat) (covers : Covers A h memory c W) :
      Covers A h memory
        (ranges.foldl (fun c range => markRange A memory range.1 range.2 c) c)
        (W ∪ {v | ∃ range ∈ ranges, v ∈ parts range}) := by
    induction ranges generalizing c W with
    | nil =>
        refine covers.congr fun value => ?_
        simp
    | cons range ranges inductionHypothesis =>
        rw [List.foldl_cons]
        obtain ⟨first, rest⟩ := List.forall_mem_cons.mp each
        refine (inductionHypothesis rest _ _ (first c W covers)).congr fun value => ?_
        simp only [Set.mem_union, Set.mem_ofPred_eq, List.mem_cons, exists_eq_or_imp]
        tauto
  have start : Covers A h memory ⟨[], h⟩ ∅ := ⟨[], rfl, by simp⟩
  refine ((roots _ _ start).heapWork listable).congr fun value => ?_
  simp

theorem mem_readWords {read : Nat → Nat → Bool} {work : List Work} {value : Nat} :
    value ∈ readWords A memory h read work ↔
      ∃ i item, work[i]? = some item ∧
        ∃ j, (item.words A h memory)[j]? = some value ∧ read i j = true := by
  unfold readWords
  simp only [List.mem_flatMap, List.mem_map, List.mem_filter, Prod.exists,
    List.mk_mem_zipIdx_iff_getElem?]
  constructor
  · rintro ⟨item, i, listed, v, j, ⟨found, seen⟩, rfl⟩
    exact ⟨i, item, listed, j, found, seen⟩
  · rintro ⟨i, item, listed, j, found, seen⟩
    exact ⟨item, i, listed, value, j, ⟨found, seen⟩, rfl⟩

/-- All the words of the listed items. -/
theorem mem_readWords_whole {read : Nat → Nat → Bool} {work : List Work} {value : Nat}
    (whole : ∀ i < work.length, ∀ j, read i j = true) :
    value ∈ readWords A memory h read work ↔ ∃ item ∈ work, value ∈ item.words A h memory := by
  rw [mem_readWords]
  constructor
  · rintro ⟨i, item, listed, j, found, -⟩
    exact ⟨item, List.mem_of_getElem? listed, List.mem_of_getElem? found⟩
  · rintro ⟨item, mem, found⟩
    obtain ⟨i, listed⟩ := List.mem_iff_getElem?.mp mem
    obtain ⟨j, found⟩ := List.mem_iff_getElem?.mp found
    have below := (List.getElem?_eq_some_iff.mp listed).1
    exact ⟨i, item, listed, j, found, whole i below j⟩

/-- Aligned ranges are covered whole. -/
theorem collect_covers (listable : Listable h) (ranges : List RootRange) :
    Covers A h memory (collect A memory h ranges)
      {v | v ∈ (ranges.flatMap fun range => Heap.wordsIn memory range.low range.high) ∨
        v ∈ (List.range h.table.regions).flatMap (h.liveWords A memory)} := by
  refine (gather_covers listable (ranges.map fun range => (range.low, range.high))
    (fun range => {v | v ∈ Heap.wordsIn memory range.1 range.2}) ?_).congr fun value => ?_
  · rintro range mem c W covers
    obtain ⟨root, -, rfl⟩ := List.mem_map.mp mem
    exact covers.markRange root.alignedLow
  · simp only [Set.mem_ofPred_eq, List.mem_map, exists_exists_and_eq_and, List.mem_flatMap]

/-! ## The marks -/

/-- However the listed items are dealt to threads and however the threads'
reads interleave, the marks are those of the sequential sweep. -/
theorem parallel_marks (listable : Listable h) (ranges : List RootRange)
    {shares : List (List Work)} {read : List Nat}
    (dealt : shares.flatten.Perm (collect A memory h ranges).work)
    (order : Interleave (shares.map fun share => share.flatMap (Work.words A h memory)) read) :
    let parallel := ((collect A memory h ranges).heap.markWords A read).markWords A
      (h.hugeWords memory)
    let sequential := h.markWords A
      (h.scannedWords A ⟨ranges.map fun range => (range.low, range.high), memory⟩)
    (∀ x, parallel.SlotMarked x ↔ sequential.SlotMarked x) ∧
      ∀ index, parallel.HugeMarked index ↔ sequential.HugeMarked index := by
  intro parallel sequential
  obtain ⟨now, heap, words⟩ : Covers A h memory (collect A memory h ranges) _ :=
    collect_covers listable ranges
  have listed (value : Nat) :
      value ∈ read ↔
        ∃ item ∈ (collect A memory h ranges).work, value ∈ item.words A h memory := by
    rw [order.mem_iff]
    simp only [List.mem_map, exists_exists_and_eq_and, List.mem_flatMap]
    constructor
    · rintro ⟨share, mem, item, taken, here⟩
      exact ⟨item, dealt.mem_iff.mp (List.mem_flatten.mpr ⟨share, mem, taken⟩), here⟩
    · rintro ⟨item, taken, here⟩
      obtain ⟨share, mem, taken⟩ := List.mem_flatten.mp (dealt.mem_iff.mpr taken)
      exact ⟨share, mem, item, taken, here⟩
  have every (value : Nat) :
      value ∈ now ++ read ++ h.hugeWords memory ↔
        value ∈ h.scannedWords A ⟨ranges.map fun range => (range.low, range.high), memory⟩ := by
    unfold Heap.scannedWords
    simp only [List.mem_append, listed, List.flatMap_map]
    rw [← words value]
    simp only [Set.mem_ofPred_eq]
    tauto
  have joined : parallel = h.markWords A (now ++ read ++ h.hugeWords memory) := by
    simp only [parallel, heap, Heap.markWords_append]
  constructor
  · intro x
    rw [joined, Heap.slotMarked_markWords, Heap.slotMarked_markWords]
    simp only [every]
  · intro index
    rw [joined, Heap.hugeMarked_markWords, Heap.hugeMarked_markWords]
    simp only [every]

end Marking

/-- The allocator's tables are those a sweep can list. -/
theorem TableOk.listable {T : Type} {A : Arena} {h : Heap} {place : Slot → Place T}
    (ok : TableOk A h.table place) : Listable h where
  count := ok.count
  size r used := by
    rw [ok.entry r used]
    exact (classes_valid A.width (ok.ofClass r used)).positive
  bump r _ := (ok.region r).bump.trans (ok.region r).capacity

/-- Two slots of 192 MiB and a huge block, the first slot released and queued. -/
def queuedBesideLive : List (Event Unit) :=
  .enter () (.alloc 0xC000000 0) :: List.replicate 5 (.next ()) ++
    .enter () (.alloc 0xC000000 0) :: List.replicate 5 (.next ()) ++
      [.enter () (.alloc 0x20000010 0),
        ⟨(), none, { Answer.sample with map := some 0x10000000000 }⟩] ++
        .enter () (.free 0x2D80000000) :: List.replicate 8 (.next ())

/-- Two ranges, the first longer than a chunk. -/
def longRanges : List RootRange :=
  [⟨0x10000, 0x510000, by decide, by decide, by decide⟩,
    ⟨0x600000, 0x600010, by decide, by decide, by decide⟩]

/-- Memory whose word in the second chunk of the first range points into the queued
slot. -/
def pointing : Nat → Nat := fun address => if address = 0x500000 then 0x2D80000010 else 0

/-- One thread takes every item but the first, the other the first one, last. -/
theorem parallel_marks_two : ∃ (h : Heap) (shares : List (List Work)) (read : List Nat),
    (h.table.word ⟨90, 1⟩).state = .live ∧ (∃ b ∈ h.huge.blocks, b.dead = 0) ∧
      shares.map List.length = [4, 1] ∧
        (((collect .sample pointing h longRanges).heap.markWords .sample read).markWords .sample
          (h.hugeWords pointing)).SlotMarked ⟨90, 0⟩ ∧
          (h.markWords .sample (h.scannedWords .sample
            ⟨longRanges.map fun range => (range.low, range.high), pointing⟩)).SlotMarked ⟨90, 0⟩ := by
  obtain ⟨s, run, seen⟩ : ∃ s : State Unit,
      Run (State.step .sample) State.NoRace (.initial .sample fun _ => 0) s ∧
        ((s.heap.table.word ⟨90, 1⟩).state, s.heap.huge.blocks.map HugeBlock.dead,
          (collect .sample pointing (s.heap.prepared Answer.sample.world) longRanges).work.length,
          (s.heap.prepared Answer.sample.world).target .sample 0x2D80000010) =
        (.live, [0], 5, some (.slot ⟨90, 0⟩)) :=
    Run.exists_exec queuedBesideLive (by decide +kernel)
  simp only [Prod.mk.injEq] at seen
  obtain ⟨live, huge, count, hit⟩ := seen
  obtain ⟨place, partition⟩ := partition_run run
  have same := Heap.prepared_sameSlots s.heap Answer.sample.world
  have blocks : (s.heap.prepared Answer.sample.world).huge = s.heap.huge := rfl
  generalize s.heap.prepared Answer.sample.world = h at count hit same blocks
  let work := (collect .sample pointing h longRanges).work
  let shares := [work.drop 1, work.take 1]
  have dealt : shares.flatten.Perm work := by
    simp only [shares, List.flatten_cons, List.flatten_nil, List.append_nil]
    exact List.perm_append_comm.trans (.of_eq (List.take_append_drop 1 work))
  have order := Interleave.flatten
    (shares.map fun share => share.flatMap (Work.words .sample h pointing))
  have listable : Listable h := TableOk.listable (partition.table.sameSlots same)
  have sequential : (h.markWords .sample (h.scannedWords .sample
      ⟨longRanges.map fun range => (range.low, range.high), pointing⟩)).SlotMarked ⟨90, 0⟩ := by
    refine (Heap.slotMarked_markWords _ _ _ _).mpr (.inr ⟨0x2D80000010, ?_, hit⟩)
    refine List.mem_append_left _ (List.mem_flatMap.mpr ⟨_, List.mem_cons_self, ?_⟩)
    exact mem_wordsIn.mpr ⟨0xA0000, by decide, by decide, rfl⟩
  refine ⟨h, shares, _, ?_, ?_, ?_,
    ((parallel_marks listable longRanges dealt order).1 _).mpr sequential, sequential⟩
  · rw [same.word]
    exact live
  · have first : 0 ∈ s.heap.huge.blocks.map HugeBlock.dead := by
      rw [huge]
      exact List.mem_singleton_self 0
    rw [blocks]
    exact List.mem_map.mp first
  · simp only [shares, work, List.map_cons, List.map_nil, List.length_drop, List.length_take, count]
    decide

end WeaveC.Sweep
