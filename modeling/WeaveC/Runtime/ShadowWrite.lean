import WeaveC.Runtime.Shadow
import Mathlib.Tactic.Ring

/-!
# Writing the shadow

What the allocator does to the shadow: runs of one value, an object's
granules with a partial last one, and memory made addressable again.
-/

namespace WeaveC.Runtime

namespace Shadow

/-! ## Runs -/

/-- `n` shadow bytes of one value, as a single store or `memset` writes them. -/
def memset (s : Shadow) (i : Nat) (v : UInt8) (n : Nat) : Shadow :=
  { s with byte := fun j => if i ≤ j ∧ j < i + n then v else s.byte j }

@[simp] theorem memset_bits (s : Shadow) (i : Nat) (v : UInt8) (n : Nat) :
    (s.memset i v n).bits = s.bits := rfl

@[simp] theorem memset_mask (s : Shadow) (i : Nat) (v : UInt8) (n : Nat) :
    (s.memset i v n).mask = s.mask := rfl

@[simp] theorem memset_byte (s : Shadow) (i : Nat) (v : UInt8) (n j : Nat) :
    (s.memset i v n).byte j = if i ≤ j ∧ j < i + n then v else s.byte j := rfl

/-- `fill`: short runs are written with two overlapping words, or three
overlapping bytes. -/
def fill (s : Shadow) (i : Nat) (v : UInt8) (n : Nat) : Shadow :=
  if 16 < n then s.memset i v n
  else if 8 ≤ n then (s.memset i v 8).memset (i + n - 8) v 8
  else if 4 ≤ n then (s.memset i v 4).memset (i + n - 4) v 4
  else if n ≠ 0 then ((s.put i v).put (i + n - 1) v).put (i + n / 2) v
  else s

theorem fill_eq (s : Shadow) (i : Nat) (v : UInt8) (n : Nat) : s.fill i v n = s.memset i v n := by
  have bytes (a b : Shadow) (bits : a.bits = b.bits) (mask : a.mask = b.mask)
      (byte : ∀ j, a.byte j = b.byte j) : a = b := by
    cases a
    cases b
    obtain rfl := bits
    obtain rfl := mask
    obtain rfl := funext byte
    rfl
  unfold fill
  split_ifs with long eight four some
  · rfl
  · refine bytes _ _ rfl rfl fun j => ?_
    simp only [memset_byte]
    split_ifs <;> first | rfl | omega
  · refine bytes _ _ rfl rfl fun j => ?_
    simp only [memset_byte]
    split_ifs <;> first | rfl | omega
  · refine bytes _ _ rfl rfl fun j => ?_
    simp only [memset_byte, put_byte]
    split_ifs <;> first | rfl | omega
  · refine bytes _ _ rfl rfl fun j => ?_
    simp only [memset_byte]
    split_ifs <;> first | rfl | omega

/-! ## The allocator's entry points -/

/-- `weavecRtShadowSet`. -/
def set (s : Shadow) (base size : Nat) (v : UInt8) : Shadow :=
  if ¬ s.Ready ∨ size = 0 ∨ ¬ s.InWindow base then s
  else s.fill (s.index base) v ((size + 15) >>> 4)

/-- `weavecRtShadowClear`.  A long run's whole pages are mapped afresh rather
than written; a fresh page reads 0 too. -/
def clear (s : Shadow) (low high : Nat) : Shadow :=
  if ¬ s.Ready ∨ high ≤ low ∨ ¬ s.InWindow low ∨ ¬ s.InWindow (high - 1) then s
  else s.memset (s.index low) ShadowValue.addressable (((high + 15) >>> 4) - (low >>> 4))

/-- The whole granules of an object: a huge one's are mapped afresh, without a
color. -/
def wholeGranules (s : Shadow) (page base whole : Nat) (color : UInt8) : Shadow :=
  if 4 * page ≤ whole then s.clear base (base + whole <<< 4)
  else if whole ≠ 0 then s.fill (s.index base) color whole
  else s

/-- `weavecRtShadowObject`. -/
def object (s : Shadow) (page base size : Nat) (tail color : UInt8) : Shadow :=
  let whole := size >>> 4
  let rest := size % 16
  if ¬ s.Ready ∨ ¬ s.InWindow base then s
  else
    let color := if 4 * page ≤ whole then 0 else color
    let s := s.wholeGranules page base whole color
    if rest ≠ 0 then s.put (s.index (base + whole <<< 4)) (shadowPartialOf color.toNat rest)
    else if size = 0 then s.put (s.index base) tail
    else s

/-- The most of a slot's tail, and of slots not handed out yet, that is
poisoned. -/
def tailLimit : Nat := 64 * 1024

/-- `shadowLive`: an object at the start of a slot. -/
def live (s : Shadow) (page base size slot : Nat) (color : UInt8) : Shadow :=
  let used := (size + 15) / 16 * 16
  let s := s.object page base size ShadowValue.heapTail color
  if used < slot then s.set (base + used) (min (slot - used) tailLimit) ShadowValue.heapTail
  else s

/-- `shadowDead`: a released slot. -/
def dead (s : Shadow) (base slot : Nat) : Shadow :=
  s.set base slot ShadowValue.heapFreed

/-! ## What they write -/

/-- Two shadows of one window. -/
structure SameWindow (s s' : Shadow) : Prop where
  bits : s'.bits = s.bits
  mask : s'.mask = s.mask

namespace SameWindow

theorem refl (s : Shadow) : SameWindow s s := ⟨rfl, rfl⟩

theorem trans {s s' s'' : Shadow} (first : SameWindow s s') (second : SameWindow s' s'') :
    SameWindow s s'' :=
  ⟨second.bits.trans first.bits, second.mask.trans first.mask⟩

theorem ready {s s' : Shadow} (same : SameWindow s s') (ready : s.Ready) : s'.Ready := by
  rw [Ready, same.mask]
  exact ready

theorem inWindow {s s' : Shadow} (same : SameWindow s s') (address : Nat) :
    s'.InWindow address ↔ s.InWindow address := by
  rw [InWindow, InWindow, same.bits]

end SameWindow

theorem sameWindow_set (s : Shadow) (base size : Nat) (v : UInt8) :
    SameWindow s (s.set base size v) := by
  unfold set
  split_ifs
  · exact .refl s
  · rw [fill_eq]
    exact ⟨rfl, rfl⟩

theorem sameWindow_clear (s : Shadow) (low high : Nat) : SameWindow s (s.clear low high) := by
  unfold clear
  split_ifs
  · exact .refl s
  · exact ⟨rfl, rfl⟩

theorem sameWindow_wholeGranules (s : Shadow) (page base whole : Nat) (color : UInt8) :
    SameWindow s (s.wholeGranules page base whole color) := by
  unfold wholeGranules
  split_ifs
  · exact sameWindow_clear s _ _
  · rw [fill_eq]
    exact ⟨rfl, rfl⟩
  · exact .refl s

theorem sameWindow_object (s : Shadow) (page base size : Nat) (tail color : UInt8) :
    SameWindow s (s.object page base size tail color) := by
  unfold object
  simp only
  split_ifs
  · exact .refl s
  all_goals exact (sameWindow_wholeGranules s _ _ _ _).trans ⟨rfl, rfl⟩

theorem sameWindow_live (s : Shadow) (page base size slot : Nat) (color : UInt8) :
    SameWindow s (s.live page base size slot color) := by
  unfold live
  simp only
  split_ifs
  · exact (sameWindow_object s page base size _ color).trans (sameWindow_set _ _ _ _)
  · exact sameWindow_object s page base size _ color

theorem sameWindow_dead (s : Shadow) (base slot : Nat) : SameWindow s (s.dead base slot) :=
  sameWindow_set s base slot _

/-- A whole granule's index is its number, inside the window. -/
theorem index_eq {s : Shadow} (ready : s.Ready) {address : Nat} (inside : s.InWindow address) :
    s.index address = address / 16 :=
  index_eq_div ready ((inWindow_iff ready address).mp inside)

theorem set_byte {s : Shadow} (ready : s.Ready) {base : Nat} (inside : s.InWindow base)
    (size : Nat) (v : UInt8) (j : Nat) :
    (s.set base size v).byte j =
      if base / 16 ≤ j ∧ j < base / 16 + (size + 15) / 16 then v else s.byte j := by
  have granules : (size + 15) >>> 4 = (size + 15) / 16 := Nat.shiftRight_eq_div_pow _ 4
  unfold set
  split_ifs with skipped within within
  · rcases skipped with notReady | empty | outside
    · exact absurd ready notReady
    · omega
    · exact absurd inside outside
  · rfl
  · rw [fill_eq, memset_byte, granules, index_eq ready inside, if_pos within]
  · rw [fill_eq, memset_byte, granules, index_eq ready inside, if_neg within]

theorem clear_byte {s : Shadow} (ready : s.Ready) {low high : Nat} (some : low < high)
    (inside : s.InWindow low) (inside' : s.InWindow (high - 1)) (j : Nat) :
    (s.clear low high).byte j =
      if low / 16 ≤ j ∧ j < (high + 15) / 16 then 0 else s.byte j := by
  have granules : (high + 15) >>> 4 - low >>> 4 = (high + 15) / 16 - low / 16 := by
    rw [Nat.shiftRight_eq_div_pow, Nat.shiftRight_eq_div_pow]
  have skipped : ¬ (¬ s.Ready ∨ high ≤ low ∨ ¬ s.InWindow low ∨ ¬ s.InWindow (high - 1)) := by
    rintro (notReady | empty | outside | outside)
    · exact notReady ready
    · omega
    · exact outside inside
    · exact outside inside'
  rw [clear, if_neg skipped, memset_byte, granules, index_eq ready inside]
  split_ifs <;> first | rfl | omega

theorem wholeGranules_byte {s : Shadow} (ready : s.Ready) {page base whole : Nat}
    (pages : 0 < page) (aligned : base % 16 = 0)
    (inside : ∀ b, base ≤ b → b ≤ base + whole * 16 → s.InWindow b) (color : UInt8) (j : Nat) :
    (s.wholeGranules page base whole color).byte j =
      if base / 16 ≤ j ∧ j < base / 16 + whole then if 4 * page ≤ whole then 0 else color
      else s.byte j := by
  have here := inside base (Nat.le_refl _) (by omega)
  have shifted : whole <<< 4 = whole * 16 := Nat.shiftLeft_eq _ 4
  unfold wholeGranules
  rw [shifted]
  split_ifs with huge within within within
  · rw [clear_byte ready (by omega) here (inside _ (by omega) (by omega)), if_pos (by omega)]
  · rw [clear_byte ready (by omega) here (inside _ (by omega) (by omega)), if_neg (by omega)]
  · rw [fill_eq, memset_byte, index_eq ready here, if_pos within]
  · rw [fill_eq, memset_byte, index_eq ready here, if_neg within]
  · omega
  · rfl

/-- What an object of `size` bytes gives its `g`-th granule, none past its
last. -/
def objectByte (page size : Nat) (tail color : UInt8) (g : Nat) : Option UInt8 :=
  let color := if 4 * page ≤ size / 16 then 0 else color
  if g < size / 16 then some color
  else if g = size / 16 ∧ size % 16 ≠ 0 then some (shadowPartialOf color.toNat (size % 16))
  else if g = 0 ∧ size = 0 then some tail
  else none

theorem object_byte {s : Shadow} (ready : s.Ready) {page base size : Nat} (pages : 0 < page)
    (aligned : base % 16 = 0)
    (inside : ∀ b, base ≤ b → b ≤ base + size → s.InWindow b) (tail color : UInt8) (j : Nat) :
    (s.object page base size tail color).byte j =
      if base / 16 ≤ j then (objectByte page size tail color (j - base / 16)).getD (s.byte j)
      else s.byte j := by
  have here := inside base (Nat.le_refl _) (by omega)
  have last := inside (base + size / 16 * 16) (by omega) (by omega)
  have shifted : size >>> 4 = size / 16 := Nat.shiftRight_eq_div_pow _ 4
  have same (color : UInt8) := sameWindow_wholeGranules s page base (size / 16) color
  have whole (color : UInt8) :=
    wholeGranules_byte ready pages aligned
      (fun b above (below : b ≤ base + size / 16 * 16) => inside b above (by omega)) color
  have end' (color : UInt8) :
      (s.wholeGranules page base (size / 16) color).index (base + size / 16 * 16) =
        base / 16 + size / 16 := by
    rw [index_eq ((same color).ready ready) (((same color).inWindow _).mpr last)]
    omega
  have start (color : UInt8) :
      (s.wholeGranules page base (size / 16) color).index base = base / 16 :=
    index_eq ((same color).ready ready) (((same color).inWindow _).mpr here)
  have live : ¬ (¬ s.Ready ∨ ¬ s.InWindow base) := by
    rintro (notReady | outside)
    · exact notReady ready
    · exact outside here
  unfold object objectByte
  simp only [shifted, Nat.shiftLeft_eq, Nat.reducePow, if_neg live]
  have settle : (if 4 * page ≤ size / 16 then 0 else if 4 * page ≤ size / 16 then 0 else color) =
      if 4 * page ≤ size / 16 then 0 else color := by split_ifs <;> rfl
  generalize colored : (if 4 * page ≤ size / 16 then 0 else color) = color' at settle ⊢
  have byte := whole color' j
  rw [settle] at byte
  clear whole same inside last
  rcases Nat.lt_or_ge j (base / 16) with before | after
  · -- in front of the object nothing is written
    rw [if_neg (by omega)] at byte
    rw [if_neg (Nat.not_le.mpr before)]
    split_ifs
    · rw [put_byte, end', byte, if_neg (by omega)]
    · rw [put_byte, start, byte, if_neg (by omega)]
    · exact byte
  · obtain ⟨g, rfl⟩ := Nat.exists_eq_add_of_le after
    rw [if_pos after, Nat.add_sub_cancel_left]
    simp only [after, true_and, Nat.add_lt_add_iff_left] at byte
    by_cases rest : size % 16 ≠ 0
    · simp only [if_pos rest, put_byte, end', byte, Nat.add_left_cancel_iff]
      split_ifs <;> first | rfl | omega
    · rw [if_neg rest]
      by_cases empty : size = 0
      · simp only [if_pos empty, put_byte, start, byte, Nat.add_eq_left]
        split_ifs <;> first | rfl | omega
      · rw [if_neg empty, byte]
        split_ifs <;> first | rfl | omega

theorem live_byte {s : Shadow} (ready : s.Ready) {page base size slot : Nat} (pages : 0 < page)
    (aligned : base % 16 = 0)
    (inside : ∀ b, base ≤ b → b ≤ base + max size slot → s.InWindow b) (color : UInt8) (j : Nat) :
    (s.live page base size slot color).byte j =
      if (size + 15) / 16 * 16 < slot ∧ base / 16 + (size + 15) / 16 ≤ j ∧
          j < base / 16 + (size + 15) / 16 +
            (min (slot - (size + 15) / 16 * 16) tailLimit + 15) / 16 then ShadowValue.heapTail
      else if base / 16 ≤ j then
        (objectByte page size ShadowValue.heapTail color (j - base / 16)).getD (s.byte j)
      else s.byte j := by
  have within : ∀ b, base ≤ b → b ≤ base + size → s.InWindow b := by
    intro b above below
    exact inside b above (by omega)
  have object := object_byte ready pages aligned within ShadowValue.heapTail color j
  have same := sameWindow_object s page base size ShadowValue.heapTail color
  unfold live
  dsimp only
  by_cases more : (size + 15) / 16 * 16 < slot
  · have last := (same.inWindow _).mpr (inside (base + (size + 15) / 16 * 16) (by omega) (by omega))
    have start : (base + (size + 15) / 16 * 16) / 16 = base / 16 + (size + 15) / 16 := by omega
    rw [if_pos more, set_byte (same.ready ready) last, object, start]
    simp only [more, true_and]
  · rw [if_neg more, object]
    simp only [more, false_and, if_false]

theorem objectByte_none {page size g : Nat} {tail color : UInt8} (beyond : (size + 15) / 16 ≤ g)
    (some : 0 < g ∨ 0 < size) : objectByte page size tail color g = none := by
  unfold objectByte
  dsimp only
  rw [if_neg (by omega), if_neg (by omega), if_neg (by omega)]

/-- Outside its slot a live object changes nothing. -/
theorem live_frame {s : Shadow} (ready : s.Ready) {page base size slot : Nat} (pages : 0 < page)
    (aligned : base % 16 = 0) (granules : 16 ∣ slot) (fits : size < slot)
    (inside : ∀ b, base ≤ b → b ≤ base + slot → s.InWindow b) (color : UInt8) {j : Nat}
    (out : j < base / 16 ∨ base / 16 + slot / 16 ≤ j) :
    (s.live page base size slot color).byte j = s.byte j := by
  have inside' : ∀ b, base ≤ b → b ≤ base + max size slot → s.InWindow b := by
    intro b above below
    rw [Nat.max_eq_right (Nat.le_of_lt fits)] at below
    exact inside b above below
  rw [live_byte ready pages aligned inside', if_neg (by omega)]
  split
  · rw [objectByte_none (by omega) (by omega)]
    rfl
  · rfl

end Shadow

end WeaveC.Runtime
