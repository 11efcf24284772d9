import WeaveC.Alloc.Sections

/-!
# What marking marks

A word marks at most one slot or huge block, which the heap alone decides, and
marking changes nothing that decides it.  So the marks left by a list of words
are those of its words, in whatever order they were read.
-/

namespace WeaveC.Alloc

/-- What a word's value may mark: a slot, or the huge block at an index. -/
inductive Target where
  | slot (x : Slot)
  | huge (index : Nat)
  deriving DecidableEq, Repr

namespace Heap

/-- What `markAddress` marks for a value. -/
def target (A : Arena) (h : Heap) (value : Nat) : Option Target :=
  if A.inArena value then
    let x := h.table.slotOf A value
    let R := h.table.region x.region
    if R.marks.isSome ∧ R.deadHead ≠ 0 ∧ (h.table.word x).state = .dead then some (.slot x)
    else none
  else if h.huge.deadCount ≠ 0 ∧ h.huge.maybeHuge value then
    match Huge.countTo h.huge.blocks value with
    | 0 => none
    | index + 1 =>
        match h.huge.blocks[index]? with
        | none => none
        | some block =>
            if block.dead ≠ 0 ∧ value < block.map + block.mapBytes then some (.huge index)
            else none
  else none

def setMark (h : Heap) : Option Target → Heap
  | none => h
  | some (.slot x) =>
      { h with table := h.table.setRegion x.region ((h.table.region x.region).mark x.index) }
  | some (.huge index) =>
      { h with
        huge :=
          { h.huge with
            blocks := h.huge.blocks.modify index fun block => { block with marked := true } } }

theorem markAddress_eq (A : Arena) (h : Heap) (value : Nat) :
    h.markAddress A value = h.setMark (h.target A value) := by
  unfold markAddress target
  by_cases inside : A.inArena value = true
  · rw [if_pos inside, if_pos inside]
    have region : (value - A.base) >>> A.shift = (h.table.slotOf A value).region := rfl
    simp only [region]
    generalize h.table.slotOf A value = x
    by_cases mapped : (h.table.region x.region).marks.isSome = true
    · by_cases queued : (h.table.region x.region).deadHead = 0
      · simp [queued, setMark]
      · by_cases dead : (h.table.word x).state = .dead
        · rw [if_neg (by simp [queued, Option.isSome_iff_ne_none.mp mapped]), if_pos dead,
            if_pos ⟨mapped, queued, dead⟩]
          rfl
        · rw [if_neg (by simp [queued, Option.isSome_iff_ne_none.mp mapped]), if_neg dead,
            if_neg fun all => dead all.2.2]
          rfl
    · rw [if_pos (.inl (by simpa using mapped)), if_neg fun all => mapped all.1]
      rfl
  · rw [if_neg inside, if_neg inside]
    by_cases some : h.huge.deadCount ≠ 0 ∧ h.huge.maybeHuge value = true
    · rw [if_pos some, if_pos some]
      cases Huge.countTo h.huge.blocks value with
      | zero => rfl
      | succ index =>
          simp only
          cases found : h.huge.blocks[index]? with
          | none => rfl
          | some block =>
              simp only
              split_ifs
              · simp only [setMark]
                rw [List.modify_eq_set_getElem?, found]
                rfl
              · rfl
    · rw [if_neg some, if_neg some]
      rfl

/-! ## Marks decide nothing -/

end Heap

namespace Table.SameSlots

variable {A : Arena} {t t' : Table}

theorem slotOf (same : t.SameSlots t') (value : Nat) : t'.slotOf A value = t.slotOf A value := by
  unfold Table.slotOf
  simp only
  obtain ⟨marks, eq⟩ := same.region ((value - A.base) >>> A.shift)
  rw [eq]

theorem word (same : t.SameSlots t') (x : Slot) : t'.word x = t.word x := by
  unfold Table.word
  obtain ⟨marks, eq⟩ := same.region x.region
  rw [eq]

theorem slotBase (same : t.SameSlots t') (x : Slot) : t'.slotBase A x = t.slotBase A x := by
  unfold Table.slotBase Table.slotBytes
  obtain ⟨marks, eq⟩ := same.region x.region
  rw [eq]

theorem deadHead (same : t.SameSlots t') (r : Nat) :
    (t'.region r).deadHead = (t.region r).deadHead := by
  obtain ⟨marks, eq⟩ := same.region r
  rw [eq]

end Table.SameSlots

def HugeBlock.unmarked (block : HugeBlock) : HugeBlock := { block with marked := false }

theorem Huge.search_map {f : HugeBlock → HugeBlock} (same : ∀ block, (f block).map = block.map)
    (blocks : List HugeBlock) (address fuel low high : Nat) :
    search (blocks.map f) address fuel low high = search blocks address fuel low high := by
  induction fuel generalizing low high with
  | zero => rfl
  | succ fuel inductionHypothesis =>
      unfold search
      simp only [List.getElem?_map]
      split_ifs
      · cases blocks[low + (high - low) / 2]? with
        | none => rfl
        | some block => simp only [Option.map_some, same, inductionHypothesis]
      · rfl

theorem Huge.countTo_map {f : HugeBlock → HugeBlock} (same : ∀ block, (f block).map = block.map)
    (blocks : List HugeBlock) (address : Nat) :
    countTo (blocks.map f) address = countTo blocks address := by
  unfold countTo
  rw [List.length_map, search_map same]

namespace Heap

/-- Two heaps that differ in their marks alone. -/
structure SameButMarks (h h' : Heap) : Prop where
  slots : h.table.SameSlots h'.table
  mapped : ∀ r, (h'.table.region r).marks.isSome = (h.table.region r).marks.isSome
  blocks : h'.huge.blocks.map HugeBlock.unmarked = h.huge.blocks.map HugeBlock.unmarked
  huge : { h'.huge with blocks := [] } = { h.huge with blocks := [] }

namespace SameButMarks

variable {A : Arena} {h h' h'' : Heap}

theorem refl (h : Heap) : h.SameButMarks h := ⟨.refl _, fun _ => rfl, rfl, rfl⟩

theorem trans (first : h.SameButMarks h') (second : h'.SameButMarks h'') : h.SameButMarks h'' :=
  { slots := first.slots.trans second.slots
    mapped := fun r => (second.mapped r).trans (first.mapped r)
    blocks := second.blocks.trans first.blocks
    huge := second.huge.trans first.huge }

theorem countTo (same : h.SameButMarks h') (value : Nat) :
    Huge.countTo h'.huge.blocks value = Huge.countTo h.huge.blocks value := by
  have count (blocks : List HugeBlock) :
      Huge.countTo (blocks.map HugeBlock.unmarked) value = Huge.countTo blocks value :=
    Huge.countTo_map (f := HugeBlock.unmarked) (fun _ => rfl) blocks value
  rw [← count h'.huge.blocks, same.blocks, count]

theorem block (same : h.SameButMarks h') (index : Nat) :
    (h'.huge.blocks[index]?).map HugeBlock.unmarked =
      (h.huge.blocks[index]?).map HugeBlock.unmarked := by
  rw [← List.getElem?_map, ← List.getElem?_map, same.blocks]

theorem target (same : h.SameButMarks h') (value : Nat) :
    h'.target A value = h.target A value := by
  have fields := same.huge
  simp only [Huge.mk.injEq, true_and] at fields
  unfold Heap.target
  rw [same.slots.slotOf]
  simp only
  generalize h.table.slotOf A value = x
  rw [same.mapped, same.slots.deadHead, same.slots.word, same.countTo, fields.2.2.1]
  unfold Huge.maybeHuge
  rw [fields.1, fields.2.1]
  cases Huge.countTo h.huge.blocks value with
  | zero => rfl
  | succ index =>
      have block := same.block index
      simp only
      cases found : h.huge.blocks[index]? with
      | none =>
          rw [found] at block
          rw [Option.map_eq_none_iff.mp block]
      | some b =>
          rw [found] at block
          obtain ⟨b', found', eq⟩ := Option.map_eq_some_iff.mp block
          rw [found']
          unfold HugeBlock.unmarked at eq
          simp only [HugeBlock.mk.injEq] at eq
          simp only [eq]

end SameButMarks

variable {A : Arena} {h : Heap}

theorem sameButMarks_setMark (h : Heap) (t : Option Target) : h.SameButMarks (h.setMark t) := by
  cases t with
  | none => exact .refl h
  | some t =>
      cases t with
      | slot x =>
          refine ⟨Table.sameSlots_setMarks _ _ _, fun r => ?_, rfl, rfl⟩
          by_cases same : r = x.region
          · subst same
            simp [setMark, Table.setRegion, Region.mark]
          · simp [setMark, Table.setRegion, same]
      | huge index =>
          refine ⟨.refl _, fun _ => rfl, ?_, rfl⟩
          refine List.ext_getElem? fun i => ?_
          simp only [setMark, List.getElem?_map, List.getElem?_modify]
          cases h.huge.blocks[i]? with
          | none => rfl
          | some block =>
              simp only [Option.map_some]
              split_ifs <;> rfl

theorem sameButMarks_markWords (A : Arena) (h : Heap) (words : List Nat) :
    h.SameButMarks (h.markWords A words) := by
  unfold markWords
  induction words generalizing h with
  | nil => exact .refl h
  | cons value words inductionHypothesis =>
      rw [List.foldl_cons]
      refine .trans ?_ (inductionHypothesis _)
      rw [markAddress_eq]
      exact sameButMarks_setMark h _

/-! ## Marked slots and blocks -/

def SlotMarked (h : Heap) (x : Slot) : Prop :=
  ∃ marks, (h.table.region x.region).marks = some marks ∧ marks x.index = true

def HugeMarked (h : Heap) (index : Nat) : Prop :=
  ∃ block, h.huge.blocks[index]? = some block ∧ block.marked = true

/-- A target that `target` may name: its region's marks are mapped, its block
is in the table. -/
theorem target_slot {value : Nat} {x : Slot} (hit : h.target A value = some (.slot x)) :
    A.inArena value = true ∧ h.table.slotOf A value = x ∧
      (h.table.region x.region).marks.isSome = true ∧ (h.table.region x.region).deadHead ≠ 0 ∧
      (h.table.word x).state = .dead := by
  unfold target at hit
  by_cases inside : A.inArena value = true
  · rw [if_pos inside] at hit
    simp only at hit
    split_ifs at hit with meets
    obtain rfl := Target.slot.inj (Option.some.inj hit)
    exact ⟨inside, rfl, meets⟩
  · rw [if_neg inside] at hit
    split_ifs at hit
    split at hit
    · exact absurd hit (by simp)
    · split at hit
      · exact absurd hit (by simp)
      · split_ifs at hit
        exact absurd hit (by simp)

theorem target_huge {value index : Nat} (hit : h.target A value = some (.huge index)) :
    ¬ A.inArena value = true ∧ h.huge.deadCount ≠ 0 ∧ h.huge.maybeHuge value = true ∧
      Huge.countTo h.huge.blocks value = index + 1 ∧
      ∃ block, h.huge.blocks[index]? = some block ∧ block.dead ≠ 0 ∧
        value < block.map + block.mapBytes := by
  unfold target at hit
  by_cases inside : A.inArena value = true
  · rw [if_pos inside] at hit
    simp only at hit
    split_ifs at hit
    exact absurd hit (by simp)
  · rw [if_neg inside] at hit
    split_ifs at hit with some
    split at hit
    · exact absurd hit (by simp)
    · rename_i i count
      split at hit
      · exact absurd hit (by simp)
      · rename_i block found
        split_ifs at hit with meets
        obtain rfl := Target.huge.inj (Option.some.inj hit)
        exact ⟨inside, some.1, some.2, count, block, found, meets⟩

theorem slotMarked_markAddress (A : Arena) (h : Heap) (value : Nat) (x : Slot) :
    (h.markAddress A value).SlotMarked x ↔
      h.SlotMarked x ∨ h.target A value = some (.slot x) := by
  rw [markAddress_eq]
  cases hit : h.target A value with
  | none => simp [setMark]
  | some t =>
      cases t with
      | huge index => simp [setMark, SlotMarked]
      | slot y =>
          obtain ⟨-, -, mapped, -, -⟩ := target_slot hit
          obtain ⟨marks, mapped⟩ := Option.isSome_iff_exists.mp mapped
          simp only [setMark, SlotMarked, Table.setRegion, Option.some.injEq, Target.slot.injEq]
          by_cases same : x.region = y.region
          · have eq : y = x ↔ x.index = y.index := by
              obtain ⟨r, i⟩ := x
              obtain ⟨r', i'⟩ := y
              simp only [Slot.mk.injEq] at *
              omega
            rw [same, Function.update_self, eq]
            simp only [Region.mark, mapped, Option.map_some, Option.some.injEq, exists_eq_left',
              Function.update_apply]
            split_ifs with here <;> simp [here]
          · have ne : y ≠ x := fun eq => same (by rw [eq])
            simp [Function.update_of_ne same, ne]

theorem hugeMarked_markAddress (A : Arena) (h : Heap) (value index : Nat) :
    (h.markAddress A value).HugeMarked index ↔
      h.HugeMarked index ∨ h.target A value = some (.huge index) := by
  rw [markAddress_eq]
  cases hit : h.target A value with
  | none => simp [setMark]
  | some t =>
      cases t with
      | slot y => simp [setMark, HugeMarked]
      | huge i =>
          obtain ⟨-, -, -, -, block, found, -⟩ := target_huge hit
          simp only [setMark, HugeMarked, List.getElem?_modify, Option.some.injEq,
            Target.huge.injEq]
          by_cases same : i = index
          · subst same
            simp [found]
          · cases h.huge.blocks[index]? <;> simp [same]

/-- A slot is marked after a list of words if it was, or if one of them points
into it. -/
theorem slotMarked_markWords (A : Arena) (h : Heap) (words : List Nat) (x : Slot) :
    (h.markWords A words).SlotMarked x ↔
      h.SlotMarked x ∨ ∃ value ∈ words, h.target A value = some (.slot x) := by
  unfold markWords
  induction words generalizing h with
  | nil => simp
  | cons value words inductionHypothesis =>
      have same : h.SameButMarks (h.markAddress A value) := by
        rw [markAddress_eq]
        exact sameButMarks_setMark h _
      rw [List.foldl_cons, inductionHypothesis, slotMarked_markAddress]
      simp only [same.target, List.mem_cons, exists_eq_or_imp, or_assoc]

theorem hugeMarked_markWords (A : Arena) (h : Heap) (words : List Nat) (index : Nat) :
    (h.markWords A words).HugeMarked index ↔
      h.HugeMarked index ∨ ∃ value ∈ words, h.target A value = some (.huge index) := by
  unfold markWords
  induction words generalizing h with
  | nil => simp
  | cons value words inductionHypothesis =>
      have same : h.SameButMarks (h.markAddress A value) := by
        rw [markAddress_eq]
        exact sameButMarks_setMark h _
      rw [List.foldl_cons, inductionHypothesis, hugeMarked_markAddress]
      simp only [same.target, List.mem_cons, exists_eq_or_imp, or_assoc]

/-! ## A sweep's marks -/

/-- The heap with the marks mapped. -/
def prepared (h : Heap) (answer : WorldAnswer) : Heap := (h.prepareMarks answer.grantMarks).2

/-- The heap when a sweep has marked what it scans. -/
def markedBy (A : Arena) (h : Heap) (answer : WorldAnswer) : Heap :=
  (h.prepared answer).mark A answer

theorem markedBy_sameButMarks (A : Arena) (h : Heap) (answer : WorldAnswer) :
    (h.prepared answer).SameButMarks (h.markedBy A answer) := by
  obtain ⟨words, eq⟩ := (h.prepared answer).markedTo_mark A answer
  unfold markedBy
  rw [eq]
  exact sameButMarks_markWords A _ words

/-- The sweep stopped the world and could map the marks. -/
def Marks (h : Heap) (answer : WorldAnswer) : Prop :=
  answer.stopped = true ∧ (h.prepareMarks answer.grantMarks).1 = true

instance (h : Heap) (answer : WorldAnswer) : Decidable (h.Marks answer) :=
  inferInstanceAs (Decidable (_ ∧ _))

theorem sweepWorld_of_marks {answer : WorldAnswer} (marks : h.Marks answer) :
    h.sweepWorld A answer =
      (true, (h.markedBy A answer).recycle A (answer.scanned && !answer.changed)) := by
  unfold sweepWorld
  rw [if_pos marks.1]
  dsimp only
  rw [if_pos marks.2]
  rfl

theorem sweepWorld_of_not_marks {answer : WorldAnswer} (none : ¬ h.Marks answer) :
    (h.sweepWorld A answer).1 = false ∧
      ((h.sweepWorld A answer).2 = h ∨ (h.sweepWorld A answer).2 = h.prepared answer) := by
  unfold sweepWorld
  by_cases stopped : answer.stopped = true
  · rw [if_pos stopped]
    dsimp only
    rw [if_neg fun mapped => none ⟨stopped, mapped⟩]
    exact ⟨rfl, .inr rfl⟩
  · rw [if_neg stopped]
    exact ⟨rfl, .inl rfl⟩

theorem prepared_sameSlots (h : Heap) (answer : WorldAnswer) :
    h.table.SameSlots (h.prepared answer).table :=
  TableOk.sameSlots_prepareFrom _ _ _ _

/-- The slots after marking are those before it. -/
theorem markedBy_sameSlots (A : Arena) (h : Heap) (answer : WorldAnswer) :
    h.table.SameSlots (h.markedBy A answer).table :=
  (prepared_sameSlots h answer).trans (markedBy_sameButMarks A h answer).slots

/-- Mapping the marks leaves a region's as they are, or sets none of them. -/
theorem marks_prepareFrom (grant : Nat → Bool) (left region : Nat) (t : Table) (r : Nat) :
    ((prepareFrom grant left region t).2.region r).marks = (t.region r).marks ∨
      ((prepareFrom grant left region t).2.region r).marks = some fun _ => false := by
  induction left generalizing region t with
  | zero => exact .inl rfl
  | succ left inductionHypothesis =>
      unfold prepareFrom
      dsimp only
      split_ifs
      · exact inductionHypothesis (region + 1) t
      · rcases inductionHypothesis (region + 1)
          (t.setRegion region { t.region region with marks := some fun _ => false }) with same | new
        · rw [same]
          unfold Table.setRegion
          dsimp only
          by_cases here : r = region
          · subst here
            rw [Function.update_self]
            exact .inr rfl
          · rw [Function.update_of_ne here]
            exact .inl rfl
        · exact .inr new
      · exact .inl rfl

/-- The marks are mapped of every region whose quarantine holds slots. -/
theorem mapped_prepareFrom {grant : Nat → Bool} {left region : Nat} {t : Table}
    (ok : (prepareFrom grant left region t).1 = true) {r : Nat} (above : region ≤ r)
    (below : r < region + left) (queued : (t.region r).deadHead ≠ 0) :
    ((prepareFrom grant left region t).2.region r).marks.isSome = true := by
  induction left generalizing region t with
  | zero => exact absurd below (Nat.not_lt.mpr above)
  | succ left inductionHypothesis =>
      unfold prepareFrom at ok ⊢
      dsimp only at ok ⊢
      split_ifs at ok ⊢ with passed
      · by_cases here : r = region
        · subst here
          have mapped := passed.resolve_left queued
          rcases marks_prepareFrom grant left (r + 1) t r with same | new
          · rw [same]
            exact mapped
          · rw [new]
            rfl
        · exact inductionHypothesis ok (by omega) (by omega) queued
      · by_cases here : r = region
        · subst here
          rcases marks_prepareFrom grant left (r + 1)
            (t.setRegion r { t.region r with marks := some fun _ => false }) r with same | new
          · rw [same]
            unfold Table.setRegion
            dsimp only
            rw [Function.update_self]
            rfl
          · rw [new]
            rfl
        · refine inductionHypothesis ok (by omega) (by omega) ?_
          unfold Table.setRegion
          dsimp only
          rw [Function.update_of_ne here]
          exact queued

end Heap

end WeaveC.Alloc
