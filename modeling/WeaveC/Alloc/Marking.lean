import WeaveC.Alloc.HugeOrder
import WeaveC.Alloc.UserRuns

/-!
# What a sweep finds

A sweep scans the registers and the aligned words of the scanned ranges, of the
live slots' objects and of the live huge blocks.  No mark is set when it starts,
so that it marks a queued slot or a released huge block exactly when one of the
values that it marks from is an address inside it.
-/

namespace WeaveC.Alloc

open WeaveC.Library

variable {T : Type} {A : Arena} {h h' : Heap} {th th' : Thread} {s s' : State T} {e : Event T}
  {place : Slot → Place T} {scan : Scan}

/-! ## The words -/

/-- An aligned cell of 8 bytes that a range holds. -/
def CellIn (low high cell : Nat) : Prop := 8 ∣ cell ∧ low ≤ cell ∧ cell + 8 ≤ high

namespace Heap

variable {value : Nat}

theorem mem_wordsIn {memory : Nat → Nat} {low high : Nat} :
    value ∈ wordsIn memory low high ↔ ∃ cell, CellIn low high cell ∧ memory cell = value := by
  unfold wordsIn CellIn
  simp only [List.mem_map, List.mem_range]
  constructor
  · rintro ⟨i, inside, read⟩
    exact ⟨_, ⟨Nat.dvd_mul_left 8 _, by omega, by omega⟩, read⟩
  · rintro ⟨cell, ⟨⟨n, rfl⟩, above, below⟩, read⟩
    refine ⟨n - (low + 7) / 8, by omega, ?_⟩
    rw [show ((low + 7) / 8 + (n - (low + 7) / 8)) * 8 = 8 * n by omega]
    exact read

/-- A range of memory that a sweep reads. -/
inductive Reads (A : Arena) (h : Heap) (scan : Scan) : Nat → Nat → Prop where
  | range {low high : Nat} (listed : (low, high) ∈ scan.ranges) : Reads A h scan low high
  | slot (x : Slot) (live : (h.table.word x).state = .live) :
      Reads A h scan (h.table.slotBase A x) (h.table.slotBase A x + (h.table.word x).value)
  | huge (b : HugeBlock) (listed : b ∈ h.huge.blocks) (live : b.dead = 0) :
      Reads A h scan b.base (b.base + b.size)

/-- A word that a sweep reads has the value. -/
def Scans (A : Arena) (h : Heap) (scan : Scan) (value : Nat) : Prop :=
  ∃ low high cell, h.Reads A scan low high ∧ CellIn low high cell ∧ scan.memory cell = value

theorem mem_scannedWords (ok : TableOk A h.table place) :
    value ∈ h.scannedWords A scan ↔ h.Scans A scan value := by
  unfold scannedWords liveWords hugeWords
  simp only [List.mem_append, List.mem_flatMap, List.mem_range]
  constructor
  · rintro (⟨range, listed, mem⟩ | ⟨r, used, i, first, mem⟩ | ⟨b, listed, mem⟩)
    · obtain ⟨cell, inside, read⟩ := mem_wordsIn.mp mem
      exact ⟨_, _, cell, .range listed, inside, read⟩
    · split_ifs at mem with live
      · obtain ⟨cell, inside, read⟩ := mem_wordsIn.mp mem
        exact ⟨_, _, cell, .slot ⟨r, i⟩ live, inside, read⟩
      · cases mem
    · split_ifs at mem with live
      · obtain ⟨cell, inside, read⟩ := mem_wordsIn.mp mem
        exact ⟨_, _, cell, .huge b listed live, inside, read⟩
      · cases mem
  · rintro ⟨low, high, cell, reads, inside, read⟩
    have mem := mem_wordsIn.mpr ⟨cell, inside, read⟩
    cases reads with
    | range listed => exact .inl ⟨_, listed, mem⟩
    | slot x live =>
        have used : place x ≠ .fresh := by
          rw [(ok.live_iff x).mpr live]
          simp
        refine .inr (.inl ⟨x.region, ok.used used, x.index, (ok.region x.region).lt_bump used, ?_⟩)
        rw [if_pos live]
        exact mem
    | huge b listed live =>
        refine .inr (.inr ⟨b, listed, ?_⟩)
        rw [if_pos live]
        exact mem

/-- What is read depends on the slots' words and the huge blocks, not on marks. -/
theorem scans_congr (slots : h.table.SameSlots h'.table)
    (blocks : h'.huge.blocks.map HugeBlock.unmarked = h.huge.blocks.map HugeBlock.unmarked) :
    h'.Scans A scan value ↔ h.Scans A scan value := by
  have one {g g' : Heap} (word : ∀ x, g'.table.word x = g.table.word x)
      (base : ∀ x, g'.table.slotBase A x = g.table.slotBase A x)
      (blocks : g'.huge.blocks.map HugeBlock.unmarked = g.huge.blocks.map HugeBlock.unmarked)
      {low high : Nat} (reads : g'.Reads A scan low high) : g.Reads A scan low high := by
    cases reads with
    | range listed => exact .range listed
    | slot x live =>
        rw [word] at live ⊢
        rw [base]
        exact .slot x live
    | huge b listed live =>
        have mem : b.unmarked ∈ g.huge.blocks.map HugeBlock.unmarked :=
          blocks ▸ List.mem_map_of_mem listed
        obtain ⟨c, mem, same⟩ := List.mem_map.mp mem
        obtain ⟨base, size, -, -, dead, -⟩ := HugeBlock.mk.inj same
        rw [← base, ← size]
        exact .huge c mem (dead.trans live)
  unfold Scans
  exact exists_congr fun low => exists_congr fun high => exists_congr fun cell =>
    and_congr_left fun _ => ⟨one slots.word (fun x => slots.slotBase x) blocks,
      one (fun x => (slots.word x).symm) (fun x => (slots.slotBase x).symm) blocks.symm⟩

/-- A sweep that scans the ranges sees the value, in a register or in a word. -/
def Sees (A : Arena) (h : Heap) (registers : List Nat) (scan : Scan) (value : Nat) : Prop :=
  value ∈ registers ∨ h.Scans A scan value

/-- The sweep marks what the values point into that it sees when it scans the
ranges of `scan`. -/
def MarksFrom (A : Arena) (h : Heap) (answer : WorldAnswer) (scan : Scan) : Prop :=
  ∃ words, h.markedBy A answer = (h.prepared answer).markWords A words ∧
    ∀ value, value ∈ words ↔ h.Sees A answer.registers scan value

end Heap

/-! ## Marks between sweeps -/

/-- No mark is set. -/
structure Heap.Unmarked (h : Heap) : Prop where
  slots : ∀ x, ¬ h.SlotMarked x
  blocks : ∀ b ∈ h.huge.blocks, b.marked = false

namespace Heap.Unmarked

theorem of_same (clean : h.Unmarked) (marks : ∀ r, (h'.table.region r).marks = (h.table.region r).marks)
    (blocks : ∀ b ∈ h'.huge.blocks, b.marked = false) : h'.Unmarked := by
  refine ⟨?_, blocks⟩
  rintro x ⟨set, mapped, marked⟩
  exact clean.slots x ⟨set, (marks _).symm.trans mapped, marked⟩

theorem of_region (clean : h.Unmarked) {r : Nat} {R : Region}
    (table : h'.table = h.table.setRegion r R) (huge : h'.huge = h.huge)
    (marks : R.marks = (h.table.region r).marks) : h'.Unmarked := by
  refine clean.of_same (fun r' => ?_) (huge ▸ clean.blocks)
  rw [table]
  unfold Table.setRegion
  dsimp only
  by_cases same : r' = r
  · subst same
    rw [Function.update_self]
    exact marks
  · rw [Function.update_of_ne same]

theorem prepared (clean : h.Unmarked) (answer : WorldAnswer) : (h.prepared answer).Unmarked := by
  refine ⟨?_, clean.blocks⟩
  rintro x ⟨set, mapped, marked⟩
  rcases marks_prepareFrom answer.grantMarks h.table.regions 0 h.table x.region with same | new
  · exact clean.slots x ⟨set, same.symm.trans mapped, marked⟩
  · obtain rfl := Option.some.inj (new.symm.trans mapped)
    cases marked

end Heap.Unmarked

/-! ## What marking marks -/

/-- The slot that the division finds is the one the address lies in. -/
theorem Partition.slotOf_iff (ok : Partition A s place) {x : Slot} (used : place x ≠ .fresh)
    {address : Nat} (inside : A.inArena address = true) :
    s.heap.table.slotOf A address = x ↔ s.heap.table.slotBase A x ≤ address ∧
      address < s.heap.table.slotBase A x + s.heap.table.slotBytes x := by
  constructor
  · rintro rfl
    have region := ok.table.used used
    have wide : A.shift ≤ 31 := by
      rcases A.width with width | width <;> omega
    have valid : (s.heap.table.region ((address - A.base) >>> A.shift)).entry.Valid A.shift := by
      have ofClass := classes_valid A.width (ok.table.ofClass _ region)
      rw [← Arena.entry, ← ok.table.entry _ region] at ofClass
      exact ofClass
    have short := Nat.mod_lt (address - A.base) (Nat.two_pow_pos A.shift)
    have here := (valid.slotAt_eq_iff wide short _).mp rfl
    have parts := Nat.div_add_mod' (address - A.base) (2 ^ A.shift)
    unfold Arena.inArena at inside
    rw [Bool.and_eq_true, decide_eq_true_iff, decide_eq_true_iff] at inside
    unfold Table.slotBase Table.slotBytes Table.slotOf
    dsimp only
    rw [A.regionStart_eq, A.regionBytes_eq, Nat.shiftRight_eq_div_pow] at *
    omega
  · rintro ⟨first, last⟩
    exact ok.slotOf_eq used first last

namespace Heap

/-- The marks are mapped of a region with a queued slot. -/
theorem mapped_of_queued (ok : Partition A s place) {answer : WorldAnswer}
    (marking : s.heap.Marks answer) {x : Slot} (queued : place x = .queued) :
    (s.heap.table.region x.region).deadHead ≠ 0 ∧
      ((s.heap.prepared answer).table.region x.region).marks.isSome = true := by
  have region := ok.table.used (x := x) (by rw [queued]; simp)
  obtain ⟨l, queue, members⟩ := (ok.table.region x.region).queue
  have some : (s.heap.table.region x.region).deadHead ≠ 0 := by
    intro none
    have listed := (members x.index).mpr queued
    rw [queue.head_iff.mp none] at listed
    cases listed
  exact ⟨some, mapped_prepareFrom marking.2 (Nat.zero_le x.region) (by omega) some⟩

/-- A sweep that marks finds a queued slot by the addresses inside it. -/
theorem target_slot_iff (ok : Partition A s place) {answer : WorldAnswer}
    (marking : s.heap.Marks answer) {x : Slot} (queued : place x = .queued) (value : Nat) :
    (s.heap.prepared answer).target A value = some (.slot x) ↔
      s.heap.table.slotBase A x ≤ value ∧
        value < s.heap.table.slotBase A x + s.heap.table.slotBytes x := by
  have same := prepared_sameSlots s.heap answer
  have used : place x ≠ .fresh := by
    rw [queued]
    simp
  constructor
  · intro hit
    obtain ⟨inside, found, -⟩ := target_slot hit
    rw [same.slotOf] at found
    exact (ok.slotOf_iff used inside).mp found
  · rintro ⟨first, last⟩
    obtain ⟨-, -, above, room, -⟩ := ok.slot_inside used
    have inside : A.inArena value = true := by
      unfold Arena.inArena
      rw [Bool.and_eq_true, decide_eq_true_iff, decide_eq_true_iff]
      omega
    have found := ok.slotOf_eq used first last
    have word := ok.table.word x
    rw [queued] at word
    obtain ⟨some, mapped⟩ := mapped_of_queued ok marking queued
    unfold target
    rw [if_pos inside, same.slotOf, found]
    dsimp only
    rw [same.deadHead, same.word, if_pos ⟨mapped, some, word.1⟩]

/-- It finds a released huge block by the addresses inside its mapping. -/
theorem target_huge_iff (ordered : h.huge.Ordered A) {i : Nat} {b : HugeBlock}
    (listed : h.huge.blocks[i]? = some b) (dead : b.dead ≠ 0) (value : Nat) :
    h.target A value = some (.huge i) ↔ b.Maps value := by
  constructor
  · intro hit
    obtain ⟨-, -, -, count, c, listed', -, past⟩ := target_huge hit
    obtain rfl := Option.some.inj (listed.symm.trans listed')
    exact ordered.maps_of_countTo listed count past
  · intro maps
    have mem := List.mem_of_getElem? listed
    have out : ¬ A.inArena value = true := by
      have outside := ordered.outside b mem
      obtain ⟨first, past⟩ := maps
      unfold Arena.inArena
      rw [Bool.and_eq_true, decide_eq_true_iff, decide_eq_true_iff]
      omega
    unfold target
    rw [if_neg out, if_pos ⟨ordered.deadCount_ne_zero mem dead, ordered.maybeHuge mem maps⟩,
      ordered.countTo_of_maps listed maps]
    dsimp only
    rw [listed]
    exact if_pos ⟨dead, maps.2⟩

/-- A queued slot is marked when a value that the sweep sees is an address inside
it. -/
theorem slotMarked_iff (ok : Partition A s place) (clean : s.heap.Unmarked) {answer : WorldAnswer}
    (marking : s.heap.Marks answer) (reads : s.heap.MarksFrom A answer scan) {x : Slot}
    (queued : place x = .queued) :
    (s.heap.markedBy A answer).SlotMarked x ↔ ∃ value, s.heap.Sees A answer.registers scan value ∧
      s.heap.table.slotBase A x ≤ value ∧
        value < s.heap.table.slotBase A x + s.heap.table.slotBytes x := by
  obtain ⟨words, eq, mem⟩ := reads
  rw [eq, slotMarked_markWords, or_iff_right ((clean.prepared answer).slots x)]
  simp only [mem, target_slot_iff ok marking queued]

theorem hugeMarked_iff (ordered : h.huge.Ordered A) (clean : h.Unmarked) {answer : WorldAnswer}
    (reads : h.MarksFrom A answer scan) {i : Nat} {b : HugeBlock}
    (listed : h.huge.blocks[i]? = some b) (dead : b.dead ≠ 0) :
    (h.markedBy A answer).HugeMarked i ↔
      ∃ value, h.Sees A answer.registers scan value ∧ b.Maps value := by
  have unmarked : ¬ (h.prepared answer).HugeMarked i := by
    rintro ⟨c, listed', marked⟩
    rw [clean.blocks c (List.mem_of_getElem? listed')] at marked
    cases marked
  have hit (value : Nat) : (h.prepared answer).target A value = some (.huge i) ↔ b.Maps value :=
    target_huge_iff (h := h.prepared answer) ordered listed dead value
  obtain ⟨words, eq, mem⟩ := reads
  rw [eq, hugeMarked_markWords, or_iff_right unmarked]
  simp only [mem, hit]

end Heap

/-! ## Every step -/

/-- A marked slot is one of a region whose quarantine holds slots, below its bump
position. -/
theorem Heap.SlotMarked.queued (clean : h.Unmarked) (ok : TableOk A h.table place)
    {answer : Heap.WorldAnswer} {x : Slot} (marked : (h.markedBy A answer).SlotMarked x) :
    x.region < h.table.regions ∧ x.index < (h.table.region x.region).bump ∧
      (h.table.region x.region).deadHead ≠ 0 := by
  have same := Heap.prepared_sameSlots h answer
  obtain ⟨words, eq⟩ := (h.prepared answer).markedTo_mark A answer
  unfold Heap.markedBy at marked
  rw [eq] at marked
  obtain ⟨value, -, hit⟩ := ((Heap.slotMarked_markWords A _ _ x).mp marked).resolve_left
    ((clean.prepared answer).slots x)
  obtain ⟨-, -, -, some, dead⟩ := Heap.target_slot hit
  rw [same.word] at dead
  rw [same.deadHead] at some
  have used : place x ≠ .fresh := by
    intro fresh
    have word := ok.word x
    rw [fresh] at word
    rw [show h.table.word x = Word.never from word] at dead
    cases dead
  exact ⟨ok.used used, (ok.region x.region).lt_bump used, some⟩

theorem Region.recycle_marks {R : Region} {recycle : Bool} {set : Nat → Bool} {i : Nat}
    (mapped : (R.recycle recycle).1.marks = some set) (marked : set i = true) :
    (∃ set, R.marks = some set ∧ set i = true) ∧ (R.deadHead = 0 ∨ R.bump ≤ i) := by
  unfold Region.recycle at mapped
  cases before : R.marks with
  | none =>
      rw [before] at mapped
      rw [before] at mapped
      cases mapped
  | some old =>
      rw [before] at mapped
      dsimp only at mapped
      by_cases none : R.deadHead = 0
      · rw [if_pos none] at mapped
        obtain rfl := Option.some.inj (before.symm.trans mapped)
        exact ⟨⟨old, rfl, marked⟩, .inl none⟩
      · rw [if_neg none] at mapped
        obtain rfl := Option.some.inj mapped
        dsimp only at marked
        split_ifs at marked with above
        exact ⟨⟨old, rfl, marked⟩, .inr (by omega)⟩

/-- A sweep clears the marks it has set. -/
theorem Heap.Unmarked.sweepWorld (clean : h.Unmarked) (ok : TableOk A h.table place)
    (answer : Heap.WorldAnswer) : (h.sweepWorld A answer).2.Unmarked := by
  by_cases marking : h.Marks answer
  · rw [Heap.sweepWorld_of_marks marking]
    have same := Heap.markedBy_sameSlots A h answer
    constructor
    · rintro x ⟨set, mapped, marked⟩
      change (if x.region < (h.markedBy A answer).table.regions then
        (((h.markedBy A answer).table.region x.region).recycle _).1
          else (h.markedBy A answer).table.region x.region).marks = some set at mapped
      split_ifs at mapped with used
      · obtain ⟨⟨old, before, was⟩, none⟩ := Region.recycle_marks mapped marked
        obtain ⟨-, first, some⟩ := Heap.SlotMarked.queued clean ok ⟨old, before, was⟩
        rw [same.deadHead] at none
        obtain ⟨marks, eq⟩ := same.region x.region
        rw [eq] at none
        rcases none with none | above
        · exact some none
        · exact absurd first (Nat.not_lt.mpr above)
      · obtain ⟨region, -⟩ := Heap.SlotMarked.queued clean ok ⟨set, mapped, marked⟩
        rw [same.regions] at used
        exact used region
    · intro b mem
      obtain ⟨c, -, rfl⟩ := List.mem_map.mp mem
      rfl
  · rcases (Heap.sweepWorld_of_not_marks marking).2 with same | same
    · rw [same]
      exact clean
    · rw [same]
      exact clean.prepared answer

theorem Heap.Unmarked.step (clean : s.heap.Unmarked) (ok : Partition A s place)
    (taken : s.stepOf A e = some (h', th')) : h'.Unmarked := by
  cases stepOf_effect taken with
  | calm _ huge _ steady =>
      exact clean.of_same (fun r => (steady r).marks) (huge ▸ clean.blocks)
  | returned _ _ eq | stored _ eq =>
      subst eq
      exact clean.of_region rfl rfl rfl
  | popped _ eq =>
      subst eq
      exact clean.of_region rfl rfl (popRegion_words A _ _ _ _ _).2
  | made _ eq | resized _ eq | released _ eq =>
      exact eq ▸ clean.of_same (fun _ => rfl) clean.blocks
  | inserted _ _ _ _ _ eq =>
      subst eq
      refine clean.of_same (fun _ => rfl) fun b mem => ?_
      rcases List.eq_or_mem_of_mem_insertIdx mem with rfl | old
      · rfl
      · exact clean.blocks b old
  | freed _ found =>
      obtain ⟨i, block, listed, -, -, rfl⟩ := hugeFree_heap found
      refine clean.of_same (fun _ => rfl) fun b mem => ?_
      rcases List.mem_or_eq_of_mem_set mem with old | rfl
      · exact clean.blocks b old
      · exact clean.blocks block (List.mem_of_getElem? listed)
  | swept point _ _ =>
      rcases stepOf_world taken point with ⟨-, rfl⟩ | ⟨-, rfl⟩
      · exact clean.sweepWorld ok.table _
      · exact clean

/-! ## What a sweep recycles -/

namespace Heap

/-- The sweep marks, recycles what is not marked, and no value that a sweep of the
ranges of `scan` sees is an address in `[low, high)`. -/
structure Clears (A : Arena) (h : Heap) (answer : WorldAnswer) (scan : Scan) (low high : Nat) :
    Prop where
  marks : h.Marks answer
  scanned : answer.scanned = true
  unchanged : answer.changed = false
  none : ∀ value, h.Sees A answer.registers scan value → ¬ (low ≤ value ∧ value < high)

theorem clears_iff {answer : WorldAnswer} (marking : h.Marks answer) {low high : Nat} :
    h.Clears A answer scan low high ↔ (answer.scanned && !answer.changed) = true ∧
      ¬ ∃ value, h.Sees A answer.registers scan value ∧ low ≤ value ∧ value < high := by
  rw [Bool.and_eq_true, Bool.not_eq_true']
  constructor
  · intro clears
    exact ⟨⟨clears.scanned, clears.unchanged⟩,
      fun ⟨value, read, inside⟩ => clears.none value read inside⟩
  · rintro ⟨⟨scanned, unchanged⟩, none⟩
    exact ⟨marking, scanned, unchanged, fun value read inside => none ⟨value, read, inside⟩⟩

/-- The mark of a queued slot. -/
theorem marked_eq_false_iff (ok : Partition A s place) {answer : WorldAnswer}
    (marking : s.heap.Marks answer) {x : Slot} (queued : place x = .queued) :
    ((s.heap.markedBy A answer).table.region x.region).marked x.index = false ↔
      ¬ (s.heap.markedBy A answer).SlotMarked x := by
  have mapped : ((s.heap.markedBy A answer).table.region x.region).marks.isSome = true := by
    rw [(markedBy_sameButMarks A s.heap answer).mapped]
    exact (mapped_of_queued ok marking queued).2
  obtain ⟨set, eq⟩ := Option.isSome_iff_exists.mp mapped
  unfold Region.marked SlotMarked
  rw [eq]
  simp

/-- A sweep recycles the queued slots into which no word points, and no slot that
is claimed but not queued. -/
theorem swept_dead_iff (ok : Partition A s place) (clean : s.heap.Unmarked) {answer : WorldAnswer}
    (reads : s.heap.Marks answer → s.heap.MarksFrom A answer scan) {x : Slot}
    (dead : (s.heap.table.word x).state = .dead) :
    ((s.heap.sweepWorld A answer).2.table.word x).state = .dead ↔
      ¬ (place x = .queued ∧ s.heap.Clears A answer scan (s.heap.table.slotBase A x)
        (s.heap.table.slotBase A x + s.heap.table.slotBytes x)) := by
  by_cases marking : s.heap.Marks answer
  · rw [sweepWorld_of_marks marking]
    have same := markedBy_sameSlots A s.heap answer
    have swept := ((ok.table.sameSlots same).recycleRegions
      (answer.scanned && !answer.changed)).word x
    have placed := TableOk.recycledPlace_eq (s.heap.markedBy A answer).table
      (answer.scanned && !answer.changed) place x
    refine Iff.trans swept.dead_iff ?_
    rcases (ok.table.word x).dead_iff.mp dead with claimed | queued
    · have unqueued : place x ≠ .queued := by
        intro queued
        rw [queued] at claimed
        exact claimed
      rcases placed with stays | ⟨queued, -⟩
      · rw [stays]
        exact iff_of_true (.inl claimed) fun both => unqueued both.1
      · exact absurd queued unqueued
    · have used : x.region < (s.heap.markedBy A answer).table.regions := by
        rw [same.regions]
        exact ok.table.used (by rw [queued]; simp)
      have free := TableOk.recycledPlace_free_iff (s.heap.markedBy A answer).table
        (answer.scanned && !answer.changed) used queued
      rw [marked_eq_false_iff ok marking queued, slotMarked_iff ok clean marking (reads marking) queued,
        ← clears_iff marking] at free
      rw [and_iff_right queued, ← free]
      rcases placed with stays | ⟨-, freed⟩
      · rw [stays, queued]
        exact iff_of_true (.inr rfl) (by simp)
      · rw [freed]
        exact iff_of_false (by simp [Place.Claimed]) (by simp)
  · have word : (s.heap.sweepWorld A answer).2.table.word x = s.heap.table.word x := by
      rcases (sweepWorld_of_not_marks marking).2 with same | same
      · rw [same]
      · rw [same]
        exact (prepared_sameSlots s.heap answer).word x
    rw [word]
    exact iff_of_true dead fun both => marking both.2.marks

/-- A sweep unmaps the released huge blocks into whose mappings no word points. -/
theorem swept_gone_iff (ordered : h.huge.Ordered A) (clean : h.Unmarked) {answer : WorldAnswer}
    (reads : h.Marks answer → h.MarksFrom A answer scan) {b : HugeBlock} (mem : b ∈ h.huge.blocks)
    (dead : b.dead ≠ 0) :
    (∀ c ∈ (h.sweepWorld A answer).2.huge.blocks, c.unmarked ≠ b.unmarked) ↔
      h.Clears A answer scan b.map (b.map + b.mapBytes) := by
  by_cases marking : h.Marks answer
  · obtain ⟨i, listed⟩ := List.mem_iff_getElem?.mp mem
    have same := markedBy_sameButMarks A h answer
    obtain ⟨m, here, eq⟩ : ∃ m, (h.markedBy A answer).huge.blocks[i]? = some m ∧
        m.unmarked = b.unmarked := by
      have block := same.block i
      change _ = Option.map _ h.huge.blocks[i]? at block
      rw [listed] at block
      exact Option.map_eq_some_iff.mp block
    obtain ⟨-, -, map, mapBytes, still, -⟩ := HugeBlock.mk.inj eq
    have marked : m.marked = true ↔
        ∃ value, h.Sees A answer.registers scan value ∧ b.Maps value := by
      rw [← hugeMarked_iff ordered clean (reads marking) listed dead]
      constructor
      · exact fun set => ⟨m, here, set⟩
      · rintro ⟨m', here', set⟩
        obtain rfl := Option.some.inj (here.symm.trans here')
        exact set
    have keeps : keepsHuge (answer.scanned && !answer.changed) m = false ↔
        h.Clears A answer scan b.map (b.map + b.mapBytes) := by
      unfold HugeBlock.Maps at marked
      rw [clears_iff marking, ← marked]
      unfold keepsHuge
      rw [still, decide_eq_false dead]
      cases m.marked <;> cases answer.scanned && !answer.changed <;> simp
    rw [sweepWorld_of_marks marking, ← keeps]
    have order := Huge.Ordered.marked (h := h.prepared answer) ordered same
    constructor
    · intro gone
      by_contra stays
      refine gone m.unmarked (List.mem_map_of_mem (List.mem_filter.mpr
        ⟨List.mem_of_getElem? here, Bool.not_eq_false _ ▸ stays⟩)) ?_
      exact eq
    · rintro goes c mem' same'
      obtain ⟨m', left, rfl⟩ := List.mem_map.mp mem'
      obtain ⟨left, stays⟩ := List.mem_filter.mp left
      have one : m' = m := order.unique left (List.mem_of_getElem? here)
        ((HugeBlock.mk.inj (same'.trans eq.symm)).2.2.1)
      rw [one, goes] at stays
      cases stays
  · have blocks : (h.sweepWorld A answer).2.huge = h.huge := by
      rcases (sweepWorld_of_not_marks marking).2 with same | same
      · rw [same]
      · rw [same]
        rfl
    rw [blocks]
    exact iff_of_false (fun gone => gone b mem rfl) fun clears => marking clears.marks

end Heap

end WeaveC.Alloc
