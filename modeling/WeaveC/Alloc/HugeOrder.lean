import WeaveC.Alloc.Sound

/-!
# The huge table's order

The table lists the huge blocks in the order of their mappings, between its
bounds, with a count of the released ones.  So the search by halves finds the
block whose mapping holds an address, at its start or inside.
-/

namespace WeaveC.Alloc

open WeaveC.Library

variable {T : Type} {A : Arena} {h h' : Heap} {th th' : Thread} {s s' : State T} {e : Event T}

namespace HugeBlock

/-- The first mapping ends before the second starts. -/
def Before (b c : HugeBlock) : Prop := b.map + b.mapBytes ≤ c.map

/-- An address inside the block's mapping. -/
def Maps (b : HugeBlock) (address : Nat) : Prop :=
  b.map ≤ address ∧ address < b.map + b.mapBytes

/-- Whether the block has been released. -/
def released (b : HugeBlock) : Bool := b.dead ≠ 0

end HugeBlock

/-- What every step keeps of the huge table. -/
structure Huge.Ordered (A : Arena) (g : Huge) : Prop where
  sorted : g.blocks.Pairwise HugeBlock.Before
  bounds : ∀ b ∈ g.blocks, g.low ≤ b.map ∧ b.map + b.mapBytes ≤ g.high
  mapped : ∀ b ∈ g.blocks, 0 < b.mapBytes
  outside : ∀ b ∈ g.blocks, b.map + b.mapBytes ≤ A.base - 16 ∨ A.base + A.bytes ≤ b.map
  dead : g.deadCount = g.blocks.countP HugeBlock.released

namespace Huge.Ordered

variable {g : Huge} {b : HugeBlock} {i address : Nat}

/-! ## The search -/

theorem before (ordered : g.Ordered A) {j : Nat} {c : HugeBlock} (listed : g.blocks[i]? = some b)
    (listed' : g.blocks[j]? = some c) (less : i < j) : b.Before c := by
  obtain ⟨inside, rfl⟩ := List.getElem?_eq_some_iff.mp listed
  obtain ⟨inside', rfl⟩ := List.getElem?_eq_some_iff.mp listed'
  exact List.pairwise_iff_getElem.mp ordered.sorted i j inside inside' less

/-- Mappings that start at one address are one block's. -/
theorem unique (ordered : g.Ordered A) {c : HugeBlock} (mem : b ∈ g.blocks) (mem' : c ∈ g.blocks)
    (same : b.map = c.map) : b = c := by
  obtain ⟨i, listed⟩ := List.mem_iff_getElem?.mp mem
  obtain ⟨j, listed'⟩ := List.mem_iff_getElem?.mp mem'
  have some := ordered.mapped b mem
  have some' := ordered.mapped c mem'
  rcases Nat.lt_trichotomy i j with less | rfl | more
  · have before := ordered.before listed listed' less
    unfold HugeBlock.Before at before
    omega
  · exact Option.some.inj (listed.symm.trans listed')
  · have before := ordered.before listed' listed more
    unfold HugeBlock.Before at before
    omega

theorem below_iff (listed : g.blocks[i]? = some b) :
    below g.blocks address i = true ↔ b.map ≤ address := by
  unfold below
  rw [listed]
  exact decide_eq_true_iff

/-- The blocks that start at an address or below are the first ones. -/
theorem below_down (ordered : g.Ordered A) (i j : Nat) (order : i ≤ j)
    (passes : below g.blocks address j = true) : below g.blocks address i = true := by
  cases listed : g.blocks[j]? with
  | none =>
      unfold below at passes
      rw [listed] at passes
      cases passes
  | some c =>
      have start := (below_iff listed).mp passes
      rcases Nat.lt_or_eq_of_le order with less | rfl
      · obtain ⟨inside, -⟩ := List.getElem?_eq_some_iff.mp listed
        have listed' := List.getElem?_eq_getElem (less.trans inside)
        have before := ordered.before listed' listed less
        unfold HugeBlock.Before at before
        exact (below_iff listed').mpr (by omega)
      · exact passes

theorem lt_countTo_iff (ordered : g.Ordered A) (listed : g.blocks[i]? = some b) :
    i < countTo g.blocks address ↔ b.map ≤ address := by
  obtain ⟨inside, -⟩ := List.getElem?_eq_some_iff.mp listed
  obtain ⟨passed, failed⟩ := @bisect_spec _ ordered.below_down g.blocks.length 0 g.blocks.length
    (Nat.sub_le _ _)
  rw [countTo_eq, ← below_iff listed]
  constructor
  · exact passed i (Nat.zero_le i)
  · intro passes
    by_contra above
    rw [failed i (Nat.not_lt.mp above) inside] at passes
    cases passes

/-- The search ends behind the block whose mapping holds the address. -/
theorem countTo_of_maps (ordered : g.Ordered A) (listed : g.blocks[i]? = some b)
    (maps : b.Maps address) : countTo g.blocks address = i + 1 := by
  have reached := (ordered.lt_countTo_iff listed).mpr maps.1
  by_contra other
  have further : i + 1 < countTo g.blocks address := by omega
  have listed' := List.getElem?_eq_getElem (further.trans_le (countTo_le g.blocks address))
  have start := (ordered.lt_countTo_iff listed').mp further
  have before := ordered.before listed listed' (Nat.lt_succ_self i)
  have past := maps.2
  unfold HugeBlock.Before at before
  omega

theorem maps_of_countTo (ordered : g.Ordered A) (listed : g.blocks[i]? = some b)
    (count : countTo g.blocks address = i + 1) (inside : address < b.map + b.mapBytes) :
    b.Maps address :=
  ⟨(ordered.lt_countTo_iff listed).mp (count ▸ Nat.lt_succ_self i), inside⟩

theorem maybeHuge (ordered : g.Ordered A) (mem : b ∈ g.blocks) (maps : b.Maps address) :
    g.maybeHuge address = true := by
  obtain ⟨low, high⟩ := ordered.bounds b mem
  obtain ⟨first, past⟩ := maps
  unfold Huge.maybeHuge
  rw [Bool.and_eq_true, decide_eq_true_iff, decide_eq_true_iff]
  exact ⟨low.trans first, past.trans_le high⟩

/-- The count is not zero while a released block is listed. -/
theorem deadCount_ne_zero (ordered : g.Ordered A) (mem : b ∈ g.blocks) (dead : b.dead ≠ 0) :
    g.deadCount ≠ 0 := by
  rw [ordered.dead]
  exact (List.countP_pos_iff.mpr ⟨b, mem, decide_eq_true dead⟩).ne'

end Huge.Ordered

/-! ## Every step -/

theorem hugeRequest_mapped {size alignment : Nat} {request : Heap.HugeRequest}
    (asked : h.hugeRequest A size alignment = some request) : 0 < request.mapBytes := by
  have pages := A.pages
  obtain ⟨-, -, mapped⟩ := hugeRequest_eq asked
  omega

namespace Huge.Ordered

/-- A new block goes to the place the search ends at. -/
theorem inserted {size alignment map : Nat} {request : Heap.HugeRequest} (ordered : h.huge.Ordered A)
    (asked : h.hugeRequest A size alignment = some request)
    (unmapped : h.Unmapped A map request.mapBytes) :
    (h.hugeInsert A size request map).huge.Ordered A := by
  have some := hugeRequest_mapped asked
  have place := countTo_le h.huge.blocks map
  have apart := unmapped.2.2.2.2
  have perm := List.perm_insertIdx (newBlock size request map) h.huge.blocks place
  have members {P : HugeBlock → Prop} (new : P (newBlock size request map))
      (old : ∀ b ∈ h.huge.blocks, P b) (c : HugeBlock)
      (mem : c ∈ (h.hugeInsert A size request map).huge.blocks) : P c := by
    rcases List.mem_cons.mp (perm.mem_iff.mp mem) with rfl | mem
    · exact new
    · exact old c mem
  refine ⟨pairwise_insertIdx ordered.sorted ?_ ?_, members ?_ fun c mem => ?_,
    members some ordered.mapped, members unmapped.2.2.2.1 ordered.outside, ?_⟩
  · intro j b listed below
    have start := (ordered.lt_countTo_iff listed).mp below
    have aside := apart b (List.mem_of_getElem? listed)
    change b.map + b.mapBytes ≤ map
    omega
  · intro j b listed above
    have start := (not_congr (ordered.lt_countTo_iff listed)).mp (Nat.not_lt.mpr above)
    have aside := apart b (List.mem_of_getElem? listed)
    change map + request.mapBytes ≤ b.map
    omega
  · change (if map < h.huge.low then map else h.huge.low) ≤ map ∧ map + request.mapBytes ≤
      if h.huge.high < map + request.mapBytes then map + request.mapBytes else h.huge.high
    constructor <;> split <;> omega
  · change (if map < h.huge.low then map else h.huge.low) ≤ c.map ∧ c.map + c.mapBytes ≤
      if h.huge.high < map + request.mapBytes then map + request.mapBytes else h.huge.high
    obtain ⟨low, high⟩ := ordered.bounds c mem
    constructor <;> split <;> omega
  · have alive : List.countP HugeBlock.released (newBlock size request map :: h.huge.blocks) =
        List.countP HugeBlock.released h.huge.blocks :=
      List.countP_cons_of_neg Bool.false_ne_true
    exact ordered.dead.trans (alive.symm.trans (perm.countP_eq _).symm)

/-- Only where the blocks lie matters to their order. -/
theorem sorted_congr {blocks blocks' : List HugeBlock} (sorted : blocks.Pairwise HugeBlock.Before)
    (same : blocks'.map HugeBlock.extent = blocks.map HugeBlock.extent) :
    blocks'.Pairwise HugeBlock.Before := by
  have before : (blocks.map HugeBlock.extent).Pairwise HugeBlock.Before :=
    List.pairwise_map.mpr sorted
  rw [← same] at before
  exact (List.pairwise_map (f := HugeBlock.extent)).mp before

theorem freed {p : Nat} (ordered : h.huge.Ordered A) (found : h.hugeFree p = some h') :
    h'.huge.Ordered A := by
  obtain ⟨i, block, listed, live, -, rfl⟩ := hugeFree_heap found
  obtain ⟨inside, here⟩ := List.getElem?_eq_some_iff.mp listed
  have members {P : HugeBlock → Prop} (same : ∀ b : HugeBlock, ∀ dead, P b → P { b with dead })
      (old : ∀ b ∈ h.huge.blocks, P b) (c : HugeBlock)
      (mem : c ∈ h.huge.blocks.set i { block with dead := h.huge.releases + 1 }) : P c := by
    rcases List.mem_or_eq_of_mem_set mem with mem | rfl
    · exact old c mem
    · exact same block _ (old block (List.mem_of_getElem? listed))
  refine ⟨sorted_congr ordered.sorted (extent_set listed rfl),
    members (fun _ _ => id) ordered.bounds, members (fun _ _ => id) ordered.mapped,
    members (fun _ _ => id) ordered.outside, ?_⟩
  · have before : HugeBlock.released h.huge.blocks[i] = false := by
      rw [here]
      exact decide_eq_false (not_not.mpr live)
    change h.huge.deadCount + 1 = List.countP _ (List.set _ _ _)
    rw [List.countP_set inside, before, ordered.dead]
    rfl

/-- Marks do not matter to the order. -/
theorem marked (ordered : h.huge.Ordered A) (same : h.SameButMarks h') : h'.huge.Ordered A := by
  have fields := same.huge
  simp only [Huge.mk.injEq, true_and] at fields
  obtain ⟨low, high, dead, -⟩ := fields
  have members {P : Nat → Nat → Prop} (old : ∀ b ∈ h.huge.blocks, P b.map b.mapBytes)
      (c : HugeBlock) (mem : c ∈ h'.huge.blocks) : P c.map c.mapBytes := by
    obtain ⟨b, mem', eq⟩ := exists_same mem same.blocks.symm
    obtain ⟨-, -, map, mapBytes, -⟩ := HugeBlock.mk.inj eq
    exact map ▸ mapBytes ▸ old b mem'
  refine ⟨sorted_congr ordered.sorted (extent_of_unmarked same.blocks), ?_,
    members (P := fun _ bytes => 0 < bytes) ordered.mapped,
    members (P := fun map bytes => map + bytes ≤ A.base - 16 ∨ A.base + A.bytes ≤ map)
      ordered.outside, ?_⟩
  · rw [low, high]
    exact members (P := fun map bytes => h.huge.low ≤ map ∧ map + bytes ≤ h.huge.high)
      ordered.bounds
  · have count (blocks : List HugeBlock) : (blocks.map HugeBlock.unmarked).countP
        HugeBlock.released = blocks.countP HugeBlock.released := List.countP_map
    rw [dead, ordered.dead, ← count h'.huge.blocks, same.blocks, count]

/-- The blocks that go are released ones. -/
theorem recycled (ordered : h.huge.Ordered A) (recycle : Bool) :
    (h.recycleHuge recycle).huge.Ordered A := by
  have kept : (h.huge.blocks.filter (Heap.keepsHuge recycle)).Sublist h.huge.blocks :=
    List.filter_sublist
  have members {P : HugeBlock → Prop} (same : ∀ b : HugeBlock, P b → P b.unmarked)
      (old : ∀ b ∈ h.huge.blocks, P b) (c : HugeBlock)
      (mem : c ∈ (h.recycleHuge recycle).huge.blocks) : P c := by
    obtain ⟨b, mem', rfl⟩ := List.mem_map.mp mem
    exact same b (old b (List.mem_of_mem_filter mem'))
  refine ⟨sorted_congr (ordered.sorted.sublist kept) ?_, members (fun _ => id) ordered.bounds,
    members (fun _ => id) ordered.mapped, members (fun _ => id) ordered.outside, ?_⟩
  · change ((h.huge.blocks.filter (Heap.keepsHuge recycle)).map HugeBlock.unmarked).map _ = _
    rw [List.map_map]
    rfl
  · have gone : (h.huge.blocks.filter fun b => !Heap.keepsHuge recycle b).countP
        HugeBlock.released = (h.huge.blocks.filter fun b => !Heap.keepsHuge recycle b).length := by
      refine List.countP_eq_length.mpr fun b mem => ?_
      have leaves := List.of_mem_filter mem
      unfold Heap.keepsHuge at leaves
      refine decide_eq_true fun live => ?_
      rw [live] at leaves
      cases leaves
    have parts := List.countP_eq_countP_filter_add h.huge.blocks HugeBlock.released
      (Heap.keepsHuge recycle)
    change h.huge.deadCount - List.length _ = List.countP _ (List.map _ _)
    rw [List.countP_map]
    rw [gone] at parts
    change _ = List.countP HugeBlock.released _
    rw [ordered.dead, parts, Nat.add_sub_cancel]

theorem sweepWorld (ordered : h.huge.Ordered A) (answer : Heap.WorldAnswer) :
    (h.sweepWorld A answer).2.huge.Ordered A := by
  by_cases marking : h.Marks answer
  · rw [Heap.sweepWorld_of_marks marking]
    have same := Heap.markedBy_sameButMarks A h answer
    exact (marked (h := h.prepared answer) ordered same).recycled _
  · rcases (Heap.sweepWorld_of_not_marks marking).2 with same | same
    · rw [same]
      exact ordered
    · rw [same]
      exact ordered

theorem step (ordered : s.heap.huge.Ordered A) (taken : s.stepOf A e = some (h', th')) :
    h'.huge.Ordered A := by
  cases stepOf_effect taken with
  | calm _ huge _ _ => exact huge ▸ ordered
  | returned _ _ eq | stored _ eq | popped _ eq | made _ eq | resized _ eq | released _ eq =>
      exact eq ▸ ordered
  | inserted _ asked _ _ unmapped eq => exact eq ▸ ordered.inserted asked unmapped
  | freed _ found => exact ordered.freed found
  | swept point _ _ =>
      rcases stepOf_world taken point with ⟨-, rfl⟩ | ⟨-, rfl⟩
      · exact ordered.sweepWorld _
      · exact ordered

end Huge.Ordered

theorem ordered_initial {byte : Nat → UInt8} :
    (State.initial A byte : State T).heap.huge.Ordered A :=
  ⟨.nil, fun _ mem => absurd mem List.not_mem_nil, fun _ mem => absurd mem List.not_mem_nil,
    fun _ mem => absurd mem List.not_mem_nil, rfl⟩

theorem ordered_run [DecidableEq T] {byte : Nat → UInt8} {allowed : State T → Event T → Prop}
    (run : Run (State.step A) allowed (.initial A byte) s) : s.heap.huge.Ordered A := by
  refine run.invariant (I := fun s => s.heap.huge.Ordered A) ordered_initial ?_
  intro s e s' ordered _ taken
  obtain ⟨h, th, found, rfl⟩ := State.step_eq_some taken
  exact ordered.step found

end WeaveC.Alloc
