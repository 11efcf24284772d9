import WeaveC.Alloc.Sound
import WeaveC.Runtime.Decided

/-!
# The shadow of huge blocks

What an allocation, a release and a sweep write for a huge block, and what of it
is left at each point of the block's life.
-/

namespace WeaveC.Alloc

open WeaveC.Runtime WeaveC.Library

variable {T : Type} {A : Arena} {ctx : Context} {h h' : Heap} {shadow shadow' : Shadow}

/-! ## What a value says -/

theorem addressable_of_zero {a : Nat} (window : A.Window shadow) (inside : a < 2 ^ A.bits)
    (value : shadow.byte (a / 16) = ShadowValue.addressable) : Addressable ctx shadow a := by
  have fresh : shadow.byte (a / 16) ≠ ShadowValue.returned := by
    rw [value]
    decide
  rw [addressable_iff window.ready (window.bits ▸ inside) fresh, value]
  exact .inl (by decide)

theorem addressable_of_rest {a k : Nat} (window : A.Window shadow) (inside : a < 2 ^ A.bits)
    (short : k < 16) (value : shadow.byte (a / 16) = shadowPartialOf 0 k) :
    Addressable ctx shadow a ↔ a % 16 < k := by
  obtain ⟨notFull, notPoison, bytes, fresh⟩ := partialOf_zero short
  rw [addressable_iff window.ready (window.bits ▸ inside) (value ▸ fresh), value, bytes]
  constructor
  · rintro (full | ⟨-, before⟩)
    · exact absurd full notFull
    · exact before
  · intro before
    exact .inr ⟨notPoison, before⟩

/-- Poison that no check settles. -/
def Barred (v : UInt8) : Prop := shadowPoison v ∧ v ≠ ShadowValue.returned

theorem Barred.not_addressable {a : Nat} (window : A.Window shadow) (inside : a < 2 ^ A.bits)
    (barred : Barred (shadow.byte (a / 16))) : ¬ Addressable ctx shadow a := by
  obtain ⟨poison, fresh⟩ := barred
  rw [addressable_iff window.ready (window.bits ▸ inside) fresh]
  rintro (full | ⟨notPoison, -⟩)
  · unfold shadowFull at full
    unfold shadowPoison at poison
    omega
  · exact notPoison poison

theorem not_addressable_of_heap {a : Nat} (window : A.Window shadow) (inside : a < 2 ^ A.bits)
    (value : shadow.byte (a / 16) = ShadowValue.heapTail ∨
      shadow.byte (a / 16) = ShadowValue.heapFreed) : ¬ Addressable ctx shadow a := by
  refine Barred.not_addressable window inside ?_
  rcases value with tail | freed
  · rw [tail]
    exact ⟨by decide, by decide⟩
  · rw [freed]
    exact ⟨by decide, by decide⟩

/-! ## What is written -/

namespace HugeBlock

variable {b c : HugeBlock}

/-- A granule of the block's mapping. -/
def Holds (b : HugeBlock) (j : Nat) : Prop := b.map ≤ 16 * j ∧ 16 * j + 16 ≤ b.map + b.mapBytes

theorem Apart.holds (apart : b.Apart c) {j : Nat} (holds : b.Holds j) : ¬ c.Holds j := by
  unfold Apart at apart
  unfold Holds at holds ⊢
  omega

theorem Ok.holds_outside (ok : b.Ok A) {j : Nat} (holds : b.Holds j) : A.Outside j := by
  have outside := ok.outside
  unfold Holds at holds
  unfold Arena.Outside
  omega

/-- The granules from the block's base to the end of the page behind it. -/
theorem Ok.holds (ok : b.Ok A) (pages : 16 ∣ A.page) {j : Nat} (first : b.base / 16 ≤ j)
    (last : j < (b.base + pageBytes A b.size + A.page) / 16) : b.Holds j := by
  obtain ⟨granule, -, -, inside, room, -, -⟩ := ok
  have whole := (used_le_pageBytes pages b.size).2.1
  unfold Holds
  omega

end HugeBlock

/-- The new block's entry says which shadow it was given. -/
theorem hugeInsert_shadow {size alignment map : Nat} {request : Heap.HugeRequest}
    (asked : h.hugeRequest A size alignment = some request) :
    (h.hugeInsert A size request map).shadow =
      h.shadow.live A.page (newBlock size request map).base (newBlock size request map).size
        (pageBytes A (newBlock size request map).size) 0 := by
  change h.shadow.live A.page (hugeBase request map) size request.bytes 0 = _
  rw [(hugeRequest_eq asked).2.1]
  rfl

section New

variable {b : HugeBlock}

/-- The shadow of a new block: its object, and the rest of its pages. -/
theorem newBlock_byte (pages : 16 ∣ A.page) (window : A.Window shadow) (ok : b.Ok A) (j : Nat) :
    (shadow.live A.page b.base b.size (pageBytes A b.size) 0).byte j =
      if (b.size + 15) / 16 * 16 < pageBytes A b.size ∧ b.base / 16 + (b.size + 15) / 16 ≤ j ∧
          j < b.base / 16 + (b.size + 15) / 16 +
            (min (pageBytes A b.size - (b.size + 15) / 16 * 16) Shadow.tailLimit + 15) / 16 then
        ShadowValue.heapTail
      else if b.base / 16 ≤ j then
        (Shadow.objectByte A.page b.size ShadowValue.heapTail 0 (j - b.base / 16)).getD
          (shadow.byte j)
      else shadow.byte j := by
  have used := (used_le_pageBytes pages b.size).1
  unfold usedBytes at used
  refine Shadow.live_byte window.ready A.pages (Nat.mod_eq_zero_of_dvd ok.granule) ?_ 0 j
  intro x above below
  have room := ok.room
  have last := ok.window
  exact window.inWindow (by omega)

theorem newBlock_frame (pages : 16 ∣ A.page) (window : A.Window shadow) (ok : b.Ok A) {j : Nat}
    (out : j < b.base / 16 ∨ b.base / 16 + pageBytes A b.size / 16 ≤ j) :
    (shadow.live A.page b.base b.size (pageBytes A b.size) 0).byte j = shadow.byte j := by
  obtain ⟨used, whole, some⟩ := used_le_pageBytes pages b.size
  unfold usedBytes at used
  rw [newBlock_byte pages window ok, if_neg (by omega)]
  split
  · rw [Shadow.objectByte_none (by omega) (by omega)]
    rfl
  · rfl

/-- An object without a color. -/
theorem objectByte_plain (page size g : Nat) (tail : UInt8) :
    Shadow.objectByte page size tail 0 g =
      if g < size / 16 then some 0
      else if g = size / 16 ∧ size % 16 ≠ 0 then some (shadowPartialOf 0 (size % 16))
      else if g = 0 ∧ size = 0 then some tail else none := by
  unfold Shadow.objectByte
  rw [ite_self]
  rfl

/-- The granules of a new block's object. -/
theorem newBlock_object (pages : 16 ∣ A.page) (window : A.Window shadow) (ok : b.Ok A) {g : Nat}
    (below : g < (b.size + 15) / 16) :
    (shadow.live A.page b.base b.size (pageBytes A b.size) 0).byte (b.base / 16 + g) =
      if g < b.size / 16 then 0 else shadowPartialOf 0 (b.size % 16) := by
  rw [newBlock_byte pages window ok, if_neg (by omega), if_pos (by omega), objectByte_plain,
    Nat.add_sub_cancel_left]
  split
  · rfl
  · rw [if_pos (by omega)]
    rfl

end New

/-- The shadow of a released block. -/
theorem hugeShadowDead_byte (window : A.Window shadow) {b : HugeBlock} (ok : b.Ok A)
    (pages : 16 ∣ A.page) (j : Nat) :
    (Heap.hugeShadowDead shadow b).byte j =
      if 2 * Shadow.tailLimit < b.size then
        if b.base / 16 ≤ j ∧ j < b.base / 16 + 4096 ∨
            (b.base + b.size) / 16 - 4096 ≤ j ∧ j < (b.base + b.size) / 16 then
          ShadowValue.heapFreed
        else if b.base / 16 ≤ j ∧ j < (b.base + b.size) / 16 then 0
        else shadow.byte j
      else if b.base / 16 ≤ j ∧ j < b.base / 16 + (b.size + 15) / 16 then ShadowValue.heapFreed
      else shadow.byte j := by
  obtain ⟨granule, -, -, inside, room, below, -⟩ := ok
  have used := (used_le_pageBytes pages b.size).1
  unfold usedBytes at used
  have here (x : Nat) (last : x ≤ b.base + b.size) : shadow.InWindow x :=
    window.inWindow (by omega)
  unfold Heap.hugeShadowDead
  by_cases large : 2 * Shadow.tailLimit < b.size
  · have first := Shadow.sameWindow_dead shadow b.base Shadow.tailLimit
    have second := first.trans (Shadow.sameWindow_clear _ (b.base + Shadow.tailLimit)
      (b.base + b.size - Shadow.tailLimit))
    rw [if_pos large, if_pos large]
    unfold Shadow.tailLimit at *
    unfold Shadow.dead at *
    rw [Shadow.set_byte (second.ready window.ready) ((second.inWindow _).mpr (here _ (by omega))),
      Shadow.clear_byte (first.ready window.ready) (by omega)
        ((first.inWindow _).mpr (here _ (by omega))) ((first.inWindow _).mpr (here _ (by omega))),
      Shadow.set_byte window.ready (here _ (by omega))]
    have last : (b.base + b.size - 64 * 1024) / 16 = (b.base + b.size) / 16 - 4096 := by omega
    have middle : (b.base + 64 * 1024) / 16 = b.base / 16 + 4096 := by omega
    rw [last, middle]
    split_ifs <;> first | rfl | omega
  · rw [if_neg large, if_neg large]
    exact Shadow.set_byte window.ready (here _ (by omega)) _ _ j

theorem hugeShadowDead_frame (window : A.Window shadow) {b : HugeBlock} (ok : b.Ok A)
    (pages : 16 ∣ A.page) {j : Nat}
    (out : j < b.base / 16 ∨ b.base / 16 + (b.size + 15) / 16 ≤ j) :
    (Heap.hugeShadowDead shadow b).byte j = shadow.byte j := by
  have granule := ok.granule
  rw [hugeShadowDead_byte window ok pages]
  unfold Shadow.tailLimit
  split_ifs <;> first | rfl | omega

/-- Whether a sweep that recycles the block clears the granule. -/
def HugeBlock.Cleared (b : HugeBlock) (j : Nat) : Prop :=
  b.base / 16 ≤ j ∧ j < b.base / 16 + (b.size + 31) / 16

theorem HugeBlock.Cleared.holds {b : HugeBlock} {j : Nat} (cleared : b.Cleared j) (ok : b.Ok A)
    (pages : 16 ∣ A.page) : b.Holds j := by
  obtain ⟨used, whole, -⟩ := used_le_pageBytes pages b.size
  have least : 16 ≤ A.page := Nat.le_of_dvd A.pages pages
  have granule := ok.granule
  unfold usedBytes at used
  exact ok.holds pages cleared.1 (by have := cleared.2; omega)

open Classical in
theorem clears_byte (pages : 16 ∣ A.page) (window : A.Window shadow) {gone : List HugeBlock}
    (ok : ∀ b ∈ gone, b.Ok A) (j : Nat) :
    (clears shadow gone).byte j = if ∃ b ∈ gone, b.Cleared j then 0 else shadow.byte j := by
  induction gone generalizing shadow with
  | nil =>
      have none : ¬ ∃ b ∈ ([] : List HugeBlock), b.Cleared j := by
        rintro ⟨b, mem, -⟩
        cases mem
      rw [if_neg none]
      rfl
  | cons b gone ih =>
      have same := Shadow.sameWindow_clear shadow b.base (b.base + b.size + 16)
      have first := ok b (List.mem_cons_self ..)
      obtain ⟨granule, -, -, inside, room, below, -⟩ := first
      have used := (used_le_pageBytes pages b.size).1
      have least : 16 ≤ A.page := Nat.le_of_dvd A.pages pages
      unfold usedBytes at used
      have here (x : Nat) (last : x ≤ b.base + b.size + 15) : shadow.InWindow x :=
        window.inWindow (by omega)
      have one : (shadow.clear b.base (b.base + b.size + 16)).byte j =
          if b.Cleared j then 0 else shadow.byte j := by
        rw [Shadow.clear_byte window.ready (by omega) (here _ (by omega)) (here _ (by omega))]
        have range : b.base / 16 ≤ j ∧ j < (b.base + b.size + 16 + 15) / 16 ↔ b.Cleared j := by
          unfold HugeBlock.Cleared
          omega
        simp only [range]
      change (clears (shadow.clear b.base (b.base + b.size + 16)) gone).byte j = _
      rw [ih (window.mono same) fun c mem => ok c (List.mem_cons_of_mem b mem), one]
      simp only [List.mem_cons, exists_eq_or_imp]
      by_cases later : ∃ c ∈ gone, c.Cleared j
      · rw [if_pos later, if_pos (.inr later)]
      · rw [if_neg later]
        simp only [later, or_false]

/-! ## The blocks after a step -/

/-- What a step does for a block of the table after it: it leaves the block and
its mapping's shadow alone, makes it, or releases it. -/
inductive BlockStep (A : Arena) (h h' : Heap) (b : HugeBlock) : Prop where
  | kept {c : HugeBlock} (mem : c ∈ h.huge.blocks) (same : b.unmarked = c.unmarked)
      (byte : ∀ j, c.Holds j → h'.shadow.byte j = h.shadow.byte j)
  | made (live : b.dead = 0) (ok : b.Ok A)
      (shadow : h'.shadow = h.shadow.live A.page b.base b.size (pageBytes A b.size) 0)
  | freed {c : HugeBlock} {dead : Nat} (mem : c ∈ h.huge.blocks) (live : c.dead = 0)
      (gone : dead ≠ 0) (same : b = { c with dead := dead })
      (shadow : h'.shadow = Heap.hugeShadowDead h.shadow c)

section Step

variable {th : Thread} {a : Answer}

theorem newBlock_outside (pages : 16 ∣ A.page) (window : A.Window shadow) {b c : HugeBlock}
    (ok : b.Ok A) (apart : b.Apart c) {j : Nat} (holds : c.Holds j) :
    (shadow.live A.page b.base b.size (pageBytes A b.size) 0).byte j = shadow.byte j := by
  refine newBlock_frame pages window ok ?_
  by_contra inside
  have granule := ok.granule
  refine apart.symm.holds holds (ok.holds pages (by omega) ?_)
  have whole := (used_le_pageBytes pages b.size).2.1
  omega

theorem hugeShadowDead_outside (pages : 16 ∣ A.page) (window : A.Window shadow) {b c : HugeBlock}
    (ok : b.Ok A) (apart : b.Apart c) {j : Nat} (holds : c.Holds j) :
    (Heap.hugeShadowDead shadow b).byte j = shadow.byte j := by
  refine hugeShadowDead_frame window ok pages ?_
  by_contra inside
  have granule := ok.granule
  refine apart.symm.holds holds (ok.holds pages (by omega) ?_)
  have used := (used_le_pageBytes pages b.size).1
  unfold usedBytes at used
  omega

/-- The blocks a sweep found, and the ones it dropped. -/
theorem SweptHuge.split (huge : SweptHuge h h') (ok : HugeOk A h.huge.blocks) :
    ∃ (marked : List HugeBlock) (keep : HugeBlock → Bool), HugeOk A marked ∧
      marked.map HugeBlock.unmarked = h.huge.blocks.map HugeBlock.unmarked ∧
      h'.huge.blocks.map HugeBlock.unmarked = (marked.filter keep).map HugeBlock.unmarked ∧
      h'.shadow = clears h.shadow (marked.filter fun block => !keep block) := by
  obtain ⟨marked, keep, same, -, left, shadow⟩ := huge.dropped
  exact ⟨marked, keep, ok.congr (extent_of_unmarked same), same, left, shadow⟩

theorem HugeEffect.block (pages : 16 ∣ A.page) (ok : HugeOk A h.huge.blocks)
    (window : A.Window h.shadow) (effect : HugeEffect A h h' th a) {b : HugeBlock}
    (mem : b ∈ h'.huge.blocks) : BlockStep A h h' b := by
  cases effect with
  | still blocks same =>
      rw [blocks] at mem
      exact .kept mem rfl fun j holds => same j ((ok.block b mem).holds_outside holds)
  | @inserted size alignment purpose request map point accepted asked mapped table unmapped eq =>
      obtain ⟨fits, apart⟩ := newBlock_ok pages accepted asked unmapped
      have shadow := (congrArg Heap.shadow eq).trans (hugeInsert_shadow asked)
      rw [eq] at mem
      rcases List.eq_or_mem_of_mem_insertIdx mem with new | old
      · subst new
        exact .made rfl fits shadow
      · refine .kept old rfl fun j holds => ?_
        rw [shadow]
        exact newBlock_outside pages window fits (apart b old) holds
  | freed found =>
      obtain ⟨i, block, dead, listed, live, -, gone, blocks, shadow, -⟩ := hugeFree_eq found
      rw [blocks] at mem
      obtain ⟨k, bound, here⟩ := List.getElem_of_mem mem
      obtain ⟨inside, there⟩ := List.getElem?_eq_some_iff.mp listed
      have member : block ∈ h.huge.blocks := there ▸ List.getElem_mem inside
      rw [List.getElem_set] at here
      split at here
      · exact .freed member live gone here.symm shadow
      · rename_i other
        rw [List.length_set] at bound
        have old : b ∈ h.huge.blocks := here ▸ List.getElem_mem bound
        refine .kept old rfl fun j holds => ?_
        have apart : block.Apart b := by
          rw [← there, ← here]
          rcases Nat.lt_or_gt_of_ne other with before | after
          · exact List.pairwise_iff_getElem.mp ok.apart _ _ inside bound before
          · exact (List.pairwise_iff_getElem.mp ok.apart _ _ bound inside after).symm
        rw [shadow]
        exact hugeShadowDead_outside pages window (ok.block block member) apart holds
  | swept huge =>
      obtain ⟨marked, keep, found, same, left, shadow⟩ := huge.split ok
      obtain ⟨m, listed, eq⟩ := exists_same mem left.symm
      obtain ⟨listed, stays⟩ := List.mem_filter.mp listed
      obtain ⟨c, old, eq'⟩ := exists_same listed same.symm
      refine .kept old (eq.symm.trans eq'.symm) fun j holds => ?_
      have holds' : m.Holds j := by
        have extent : c.map = m.map ∧ c.mapBytes = m.mapBytes := by
          obtain ⟨-, -, map, mapBytes, -⟩ := HugeBlock.mk.inj eq'
          exact ⟨map, mapBytes⟩
        unfold HugeBlock.Holds at holds ⊢
        rw [← extent.1, ← extent.2]
        exact holds
      have dropped : ∀ g ∈ marked.filter fun block => !keep block, g.Ok A := fun g mem =>
        found.block g (List.mem_of_mem_filter mem)
      rw [shadow, clears_byte pages window dropped, if_neg]
      rintro ⟨g, gone, cleared⟩
      have goneKeep := (List.mem_filter.mp gone).2
      rcases found.apart_of_mem (List.mem_of_mem_filter gone) listed with one | apart
      · rw [one, stays] at goneKeep
        cases goneKeep
      · exact apart.holds (cleared.holds (dropped g gone) pages) holds'

end Step

end WeaveC.Alloc
