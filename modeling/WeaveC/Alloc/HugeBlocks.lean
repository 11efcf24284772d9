import WeaveC.Alloc.Stages
import WeaveC.Alloc.Written
import WeaveC.Library.Bisection
import Mathlib.Data.List.Pairwise

/-!
# The huge blocks' mappings

Every huge block lies in a mapping of its own, in whole granules and with a page
after it; the mappings are apart from one another and from the arena.
-/

namespace WeaveC.Alloc

open WeaveC.Runtime WeaveC.Library

variable {A : Arena}

/-- A huge block's bytes, in whole pages. -/
def pageBytes (A : Arena) (size : Nat) : Nat :=
  if (size + A.page - 1) / A.page * A.page = 0 then A.page
  else (size + A.page - 1) / A.page * A.page

/-- The bytes of the granules an object covers. -/
def usedBytes (size : Nat) : Nat := (size + 15) / 16 * 16

namespace HugeBlock

/-- A block in its mapping. -/
structure Ok (A : Arena) (b : HugeBlock) : Prop where
  granule : 16 ∣ b.base
  start : 16 ∣ b.map
  whole : 16 ∣ b.mapBytes
  inside : b.map ≤ b.base
  room : b.base + pageBytes A b.size + A.page ≤ b.map + b.mapBytes
  window : b.map + b.mapBytes < 2 ^ A.bits
  outside : b.map + b.mapBytes ≤ A.base - 16 ∨ A.base + A.bytes ≤ b.map

/-- The mappings have no byte in common. -/
def Apart (b c : HugeBlock) : Prop :=
  b.map + b.mapBytes ≤ c.map ∨ c.map + c.mapBytes ≤ b.map

theorem Apart.symm {b c : HugeBlock} (apart : b.Apart c) : c.Apart b := Or.symm apart

/-- Where a block lies, and how large it is. -/
def extent (b : HugeBlock) : HugeBlock := { b with dead := 0, marked := false }

end HugeBlock

/-- Lists that agree in what `f` leaves of their blocks. -/
theorem exists_same {f : HugeBlock → HugeBlock} {blocks blocks' : List HugeBlock} {b : HugeBlock}
    (mem : b ∈ blocks) (same : blocks'.map f = blocks.map f) : ∃ c ∈ blocks', f c = f b := by
  have listed : f b ∈ blocks'.map f := same ▸ List.mem_map_of_mem mem
  exact List.mem_map.mp listed

structure HugeOk (A : Arena) (blocks : List HugeBlock) : Prop where
  block : ∀ b ∈ blocks, b.Ok A
  apart : blocks.Pairwise HugeBlock.Apart

namespace HugeOk

variable {blocks blocks' : List HugeBlock}

/-- Only where the blocks lie matters. -/
theorem congr (ok : HugeOk A blocks)
    (same : blocks'.map HugeBlock.extent = blocks.map HugeBlock.extent) : HugeOk A blocks' := by
  constructor
  · intro b mem
    obtain ⟨c, mem', eq⟩ := exists_same mem same.symm
    obtain ⟨granule, start, whole, inside, room, window, outside⟩ := ok.block c mem'
    unfold HugeBlock.extent at eq
    obtain ⟨base, size, map, mapBytes, -⟩ := HugeBlock.mk.inj eq
    rw [base] at granule inside room
    rw [map] at start inside room window outside
    rw [mapBytes] at whole room window outside
    rw [size] at room
    exact ⟨granule, start, whole, inside, room, window, outside⟩
  · have apart : (blocks.map HugeBlock.extent).Pairwise HugeBlock.Apart :=
      List.pairwise_map.mpr ok.apart
    rw [← same] at apart
    exact (List.pairwise_map (f := HugeBlock.extent)).mp apart

theorem sublist (ok : HugeOk A blocks) (fewer : blocks'.Sublist blocks) : HugeOk A blocks' :=
  ⟨fun b mem => ok.block b (fewer.subset mem), ok.apart.sublist fewer⟩

/-- Two blocks of the table, or one. -/
theorem apart_of_mem (ok : HugeOk A blocks) {b c : HugeBlock} (mem : b ∈ blocks)
    (mem' : c ∈ blocks) : b = c ∨ b.Apart c := by
  by_cases same : b = c
  · exact .inl same
  · have symm : Std.Symm HugeBlock.Apart := ⟨fun _ _ => HugeBlock.Apart.symm⟩
    exact .inr (ok.apart.forall mem mem' same)

theorem insert (ok : HugeOk A blocks) {b : HugeBlock} (fits : b.Ok A)
    (apart : ∀ c ∈ blocks, b.Apart c) (i : Nat) : HugeOk A (blocks.insertIdx i b) := by
  by_cases inside : i ≤ blocks.length
  · have perm := List.perm_insertIdx b blocks inside
    constructor
    · intro c mem
      cases (List.mem_cons.mp (perm.mem_iff.mp mem)) with
      | inl same => exact same ▸ fits
      | inr old => exact ok.block c old
    · exact (perm.pairwise_iff HugeBlock.Apart.symm).mpr (List.pairwise_cons.mpr ⟨apart, ok.apart⟩)
  · rw [List.insertIdx_of_length_lt (Nat.not_le.mp inside)]
    exact ok

end HugeOk

/-! ## Sums -/

theorem used_le_pageBytes (pages : 16 ∣ A.page) (size : Nat) :
    usedBytes size ≤ pageBytes A size ∧ 16 ∣ pageBytes A size ∧ 0 < pageBytes A size := by
  have positive := A.pages
  have whole : size ≤ (size + A.page - 1) / A.page * A.page := by
    have parts := Nat.div_add_mod' (size + A.page - 1) A.page
    have rest := Nat.mod_lt (size + A.page - 1) positive
    omega
  have granules : 16 ∣ (size + A.page - 1) / A.page * A.page := pages.mul_left _
  unfold usedBytes pageBytes
  split
  · exact ⟨by omega, pages, positive⟩
  · exact ⟨by omega, granules, by omega⟩

theorem Accepted.granules {alignment : Nat} (accepted : Accepted alignment)
    (above : 16 ≤ alignment) : 16 ∣ alignment := by
  rcases accepted with small | power
  · exact ⟨1, by omega⟩
  · obtain ⟨n, rfl⟩ := (Nat.and_sub_one_eq_zero_iff_isPowerOfTwo (by omega)).mp power
    have least : 4 ≤ n := by
      by_contra less
      have : 2 ^ n ≤ 2 ^ 3 := Nat.pow_le_pow_right (by decide) (by omega)
      omega
    exact Nat.pow_dvd_pow 2 least

/-! ## A new block -/

/-- Where `hugeAlloc` puts the block in the mapping. -/
def hugeBase (request : Heap.HugeRequest) (map : Nat) : Nat :=
  (map + request.alignment - 1) / request.alignment * request.alignment

section Insert

variable {h : Heap} {size alignment map : Nat} {request : Heap.HugeRequest}

theorem hugeRequest_eq (asked : h.hugeRequest A size alignment = some request) :
    request.alignment = max A.page alignment ∧ request.bytes = pageBytes A size ∧
      request.mapBytes = pageBytes A size + A.page +
        if A.page < alignment then alignment else 0 := by
  have larger : (if alignment < A.page then A.page else alignment) = max A.page alignment := by
    split <;> omega
  unfold Heap.hugeRequest at asked
  dsimp only at asked
  rw [larger] at asked
  split at asked
  · cases asked
  · obtain rfl := Option.some.inj asked
    have same : (A.page < max A.page alignment) = (A.page < alignment) := by
      rw [lt_max_iff, or_iff_right (Nat.lt_irrefl _)]
    refine ⟨rfl, rfl, ?_⟩
    change pageBytes A size + A.page + (if _ then max A.page alignment else 0) = _
    simp only [same]
    split
    · rename_i more
      rw [Nat.max_eq_right (Nat.le_of_lt more)]
    · rfl

theorem granules_mapBytes (pages : 16 ∣ A.page) (accepted : Accepted alignment)
    (asked : h.hugeRequest A size alignment = some request) : 16 ∣ request.mapBytes := by
  obtain ⟨-, -, mapped⟩ := hugeRequest_eq asked
  have bytes := (used_le_pageBytes pages size).2.1
  have least : 16 ≤ A.page := Nat.le_of_dvd A.pages pages
  rw [mapped]
  split
  · rename_i more
    exact Nat.dvd_add (Nat.dvd_add bytes pages) (accepted.granules (least.trans more.le))
  · rw [Nat.add_zero]
    exact Nat.dvd_add bytes pages

/-- The block lies in the mapping, in whole granules and with a page after
it. -/
theorem hugeBase_spec (pages : 16 ∣ A.page) (accepted : Accepted alignment)
    (asked : h.hugeRequest A size alignment = some request) (aligned : A.page ∣ map) :
    request.alignment ∣ hugeBase request map ∧ 16 ∣ hugeBase request map ∧
      map ≤ hugeBase request map ∧
        hugeBase request map + pageBytes A size + A.page ≤ map + request.mapBytes := by
  obtain ⟨alignments, -, mapped⟩ := hugeRequest_eq asked
  have positive := A.pages
  have least : 16 ≤ A.page := Nat.le_of_dvd positive pages
  have granules : 16 ∣ request.alignment := by
    rw [alignments]
    rcases Nat.le_total alignment A.page with less | more
    · rw [Nat.max_eq_left less]
      exact pages
    · rw [Nat.max_eq_right more]
      exact accepted.granules (least.trans more)
  have some : 0 < request.alignment := by
    rw [alignments]
    exact positive.trans_le (Nat.le_max_left _ _)
  have multiple : request.alignment ∣ hugeBase request map := Nat.dvd_mul_left _ _
  have parts := Nat.div_add_mod' (map + request.alignment - 1) request.alignment
  have rest := Nat.mod_lt (map + request.alignment - 1) some
  have start : hugeBase request map =
      (map + request.alignment - 1) / request.alignment * request.alignment := rfl
  refine ⟨multiple, granules.trans multiple, by omega, ?_⟩
  rw [mapped]
  split
  · rename_i more
    rw [Nat.max_eq_right (Nat.le_of_lt more)] at alignments
    omega
  · rename_i less
    rw [Nat.max_eq_left (Nat.not_lt.mp less)] at alignments
    have whole : hugeBase request map = map := by
      obtain ⟨n, rfl⟩ := aligned
      rw [start, alignments]
      have quotient : (A.page * n + A.page - 1) / A.page = n := by
        refine (Nat.div_eq_iff positive).mpr ⟨?_, ?_⟩
        · rw [Nat.mul_comm]
          omega
        · rw [Nat.mul_comm]
      rw [quotient, Nat.mul_comm]
    omega

/-- Whether the block at an index starts at the address or below. -/
def Huge.below (blocks : List HugeBlock) (address i : Nat) : Bool :=
  (blocks[i]?).any fun block => decide (block.map ≤ address)

theorem Huge.countTo_eq (blocks : List HugeBlock) (address : Nat) :
    countTo blocks address = bisect (below blocks address) blocks.length 0 blocks.length := by
  have halves {fuel low high : Nat} (inside : high ≤ blocks.length) :
      search blocks address fuel low high = bisect (below blocks address) fuel low high := by
    induction fuel generalizing low high with
    | zero => rfl
    | succ fuel inductionHypothesis =>
        unfold search bisect
        dsimp only
        by_cases more : low < high
        · rw [if_pos more, if_pos more]
          have listed : low + (high - low) / 2 < blocks.length := by omega
          unfold below at inductionHypothesis ⊢
          rw [List.getElem?_eq_getElem listed]
          simp only [Option.any_some, decide_eq_true_eq]
          rw [inductionHypothesis inside, inductionHypothesis (Nat.le_of_lt listed)]
        · rw [if_neg more, if_neg more]
  exact halves (Nat.le_refl _)

/-- The place a new block takes is one of the table's. -/
theorem countTo_le (blocks : List HugeBlock) (address : Nat) :
    Huge.countTo blocks address ≤ blocks.length := by
  rw [Huge.countTo_eq]
  exact bisect_le (Nat.zero_le _)

/-- The new block's entry. -/
def newBlock (size : Nat) (request : Heap.HugeRequest) (map : Nat) : HugeBlock :=
  ⟨hugeBase request map, size, map, request.mapBytes, 0, false⟩

theorem newBlock_ok (pages : 16 ∣ A.page) (accepted : Accepted alignment)
    (asked : h.hugeRequest A size alignment = some request)
    (unmapped : h.Unmapped A map request.mapBytes) :
    (newBlock size request map).Ok A ∧
      ∀ block ∈ h.huge.blocks, (newBlock size request map).Apart block := by
  obtain ⟨aligned, -, window, outside, apart⟩ := unmapped
  obtain ⟨-, granule, inside, room⟩ := hugeBase_spec pages accepted asked aligned
  have whole := granules_mapBytes pages accepted asked
  exact ⟨⟨granule, pages.trans aligned, whole, inside, room, window, outside⟩, apart⟩

end Insert

/-! ## A released block -/

theorem hugeFree_eq {h h' : Heap} {p : Nat} (found : h.hugeFree p = some h') :
    ∃ i block dead, h.huge.blocks[i]? = some block ∧ block.dead = 0 ∧ block.base = p ∧ dead ≠ 0 ∧
      h'.huge.blocks = h.huge.blocks.set i { block with dead := dead } ∧
        h'.shadow = Heap.hugeShadowDead h.shadow block ∧ h'.table = h.table := by
  obtain ⟨i, block, listed, live, base, rfl⟩ := hugeFree_heap found
  exact ⟨i, block, _, listed, live, base, Nat.succ_ne_zero _, rfl, rfl, rfl⟩

theorem extent_set {blocks : List HugeBlock} {i : Nat} {block block' : HugeBlock}
    (listed : blocks[i]? = some block) (same : block'.extent = block.extent) :
    (blocks.set i block').map HugeBlock.extent = blocks.map HugeBlock.extent := by
  refine List.ext_getElem? fun j => ?_
  rw [List.getElem?_map, List.getElem?_map, List.getElem?_set]
  split
  · rename_i here
    subst here
    split
    · rw [listed]
      exact congrArg some same
    · rename_i beyond
      rw [List.getElem?_eq_none (Nat.not_lt.mp beyond)]
  · rfl

theorem sameWindow_hugeShadowDead (shadow : Shadow) (block : HugeBlock) :
    Shadow.SameWindow shadow (Heap.hugeShadowDead shadow block) := by
  unfold Heap.hugeShadowDead
  split
  · exact ((Shadow.sameWindow_dead _ _ _).trans (Shadow.sameWindow_clear _ _ _)).trans
      (Shadow.sameWindow_dead _ _ _)
  · exact Shadow.sameWindow_dead _ _ _

/-- The shadow after the recycled blocks' has been cleared. -/
def clears (shadow : Shadow) (gone : List HugeBlock) : Shadow :=
  gone.foldl (fun shadow block => shadow.clear block.base (block.base + block.size + 16)) shadow

theorem sameWindow_clears (shadow : Shadow) (gone : List HugeBlock) :
    Shadow.SameWindow shadow (clears shadow gone) := by
  unfold clears
  induction gone generalizing shadow with
  | nil => exact .refl shadow
  | cons block gone ih => exact (Shadow.sameWindow_clear _ _ _).trans (ih _)

/-! ## Every step -/

theorem extent_of_unmarked {blocks blocks' : List HugeBlock}
    (same : blocks'.map HugeBlock.unmarked = blocks.map HugeBlock.unmarked) :
    blocks'.map HugeBlock.extent = blocks.map HugeBlock.extent := by
  have both (l : List HugeBlock) :
      (l.map HugeBlock.unmarked).map HugeBlock.extent = l.map HugeBlock.extent := by
    rw [List.map_map]
    rfl
  rw [← both blocks', same, both]

theorem HugeOk.effect {h h' : Heap} {th : Thread} {a : Answer} (pages : 16 ∣ A.page)
    (ok : HugeOk A h.huge.blocks)
    (accepted : ∀ alignment, th.point.stage = .asking alignment → Accepted alignment)
    (effect : Effect A h h' th a) : HugeOk A h'.huge.blocks := by
  cases effect with
  | calm _ huge _ _ => exact huge ▸ ok
  | returned _ _ eq => exact eq ▸ ok
  | stored _ eq => exact eq ▸ ok
  | popped _ eq => exact eq ▸ ok
  | made _ eq => exact eq ▸ ok
  | resized _ eq => exact eq ▸ ok
  | released _ eq => exact eq ▸ ok
  | inserted point asked _ _ unmapped eq =>
      obtain ⟨fits, apart⟩ := newBlock_ok pages (accepted _ (point ▸ rfl)) asked unmapped
      rw [eq]
      exact ok.insert fits apart _
  | freed _ found =>
      obtain ⟨i, block, dead, listed, -, -, -, blocks, -⟩ := hugeFree_eq found
      rw [blocks]
      exact ok.congr (extent_set listed rfl)
  | swept _ huge _ =>
      obtain ⟨marked, keep, same, -, left, -⟩ := huge.dropped
      have before : HugeOk A marked := ok.congr (extent_of_unmarked same)
      exact (before.sublist List.filter_sublist).congr (extent_of_unmarked left)

end WeaveC.Alloc
