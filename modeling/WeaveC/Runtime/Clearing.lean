import WeaveC.Runtime.ShadowWrite

/-!
# The shadow in memory

`fill` writes short runs of shadow bytes with words or bytes that overlap, and
`weavecRtShadowClear` maps the whole pages of a long run afresh and writes its two
edges, or all of it when the system refuses.  Here they act on the bytes of
memory, stores and pages; what they do to the shadow is `Shadow.fill` and
`Shadow.clear`.
-/

namespace WeaveC.Runtime

open WeaveC.Library

/-- Where the reserved shadow lies.  Its mapping has whole pages, and 64 bytes
more than the shadow, within the 64-bit addresses. -/
structure ShadowMap where
  bits : Nat
  window : 39 ≤ bits ∧ bits ≤ 56
  base : Nat
  pageShift : Nat
  room : base + 1 <<< (bits - 4) + 1 <<< pageShift ≤ 0x10000000000000000

namespace ShadowMap

/-! ## The code -/

/-- The stores of `memset`. -/
def memset (i : Nat) (v : UInt8) (n : Nat) : List (Nat × UInt8) :=
  (List.range n).map fun k => (i + k, v)

/-- `fill`. -/
def fill (i : Nat) (value : UInt8) (n : Nat) : List (Nat × UInt8) :=
  if 16 < n then memset i value n
  else if 8 ≤ n then
    let pattern : UInt64 := 0x0101010101010101 * value.toUInt64
    storeLE i pattern.toNat 8 ++ storeLE (i + n - 8) pattern.toNat 8
  else if 4 ≤ n then
    let pattern : UInt32 := 0x01010101 * value.toUInt32
    storeLE i pattern.toNat 4 ++ storeLE (i + n - 4) pattern.toNat 4
  else if n ≠ 0 then [(i, value), (i + n - 1, value), (i + n / 2, value)]
  else []

variable (M : ShadowMap)

def pageBytes : Nat := 1 <<< M.pageShift

def InWindow (address : Nat) : Prop := address >>> M.bits = 0

instance (address : Nat) : Decidable (M.InWindow address) := inferInstanceAs (Decidable (_ = _))

/-- `weavecRtShadowOf`. -/
def shadowOf (address : Nat) : Nat := M.base + ((address >>> 4) &&& ((1 <<< (M.bits - 4)) - 1))

/-- `address & ~(pageBytes - 1)`, in 64 bits. -/
def pageOf (address : Nat) : Nat :=
  address % 0x10000000000000000 &&& (0x10000000000000000 - M.pageBytes)

/-- Fresh pages in place of `[first, last)`: they read 0. -/
def mapped (memory : Nat → UInt8) (first last : Nat) : Nat → UInt8 :=
  fun a => if first ≤ a ∧ a < last then 0 else memory a

/-- `weavecRtShadowClear`; `remap` says whether the system maps a number of bytes
afresh at an address. -/
def clear (remap : Nat → Nat → Bool) (memory : Nat → UInt8) (low high : Nat) : Nat → UInt8 :=
  if high ≤ low ∨ ¬M.InWindow low ∨ ¬M.InWindow (high - 1) then memory
  else
    let start := M.shadowOf low
    let bytes := ((high + 15) >>> 4) - (low >>> 4)
    let first := M.pageOf (start + M.pageBytes - 1)
    let last := M.pageOf (start + bytes)
    if bytes < 4 * M.pageBytes ∨ last ≤ first ∨ remap first (last - first) = false then
      written memory (memset start ShadowValue.addressable bytes)
    else
      written (written (mapped memory first last)
        (memset start ShadowValue.addressable (first - start)))
        (memset last ShadowValue.addressable (start + bytes - last))

/-! ## Filling -/

theorem mem_memset {i n : Nat} {v : UInt8} {store : Nat × UInt8} :
    store ∈ memset i v n ↔ (i ≤ store.1 ∧ store.1 < i + n) ∧ store.2 = v := by
  obtain ⟨a, b⟩ := store
  simp only [memset, List.mem_map, List.mem_range, Prod.mk.injEq]
  constructor
  · rintro ⟨k, below, rfl, rfl⟩
    exact ⟨⟨Nat.le_add_right i k, Nat.add_lt_add_left below i⟩, rfl⟩
  · rintro ⟨⟨above, below⟩, rfl⟩
    refine ⟨a - i, ?_, ?_, rfl⟩
    · omega
    · omega

theorem written_memset (memory : Nat → UInt8) (i : Nat) (v : UInt8) (n a : Nat) :
    written memory (memset i v n) a = if i ≤ a ∧ a < i + n then v else memory a := by
  split_ifs with inside
  · exact written_of_mem (fun store mem => (mem_memset.mp mem).2)
      ⟨(a, v), mem_memset.mpr ⟨inside, rfl⟩, rfl⟩
  · refine written_of_forall_ne fun store mem same => inside ?_
    exact same ▸ (mem_memset.mp mem).1

/-- A word of one byte repeated, stored. -/
theorem storeLE_ones (i : Nat) (v : UInt8) (n : Nat) :
    storeLE i (ones n * v.toNat) n = memset i v n := by
  refine List.map_congr_left fun k mem => ?_
  rw [ones_mul_byte v (List.mem_range.mp mem)]

theorem pattern_eight (v : UInt8) :
    (0x0101010101010101 * v.toUInt64).toNat = ones 8 * v.toNat := by
  have byte := v.toNat_lt
  have literal : (0x0101010101010101 : UInt64).toNat = 0x0101010101010101 := rfl
  rw [UInt64.toNat_mul, UInt8.toNat_toUInt64, ones_eight, literal]
  exact Nat.mod_eq_of_lt (by omega)

theorem pattern_four (v : UInt8) : (0x01010101 * v.toUInt32).toNat = ones 4 * v.toNat := by
  have byte := v.toNat_lt
  have literal : (0x01010101 : UInt32).toNat = ones 4 := rfl
  have short : ones 4 = 0x01010101 := rfl
  rw [UInt32.toNat_mul, UInt8.toNat_toUInt32, literal, short]
  exact Nat.mod_eq_of_lt (by omega)

/-- The bytes that `fill` writes are the `n` of its run, each with the value. -/
theorem mem_fill {i n : Nat} {v : UInt8} {store : Nat × UInt8} :
    store ∈ fill i v n ↔ (i ≤ store.1 ∧ store.1 < i + n) ∧ store.2 = v := by
  unfold fill
  dsimp only
  rw [pattern_eight, pattern_four, storeLE_ones, storeLE_ones, storeLE_ones, storeLE_ones]
  split_ifs with long eight four some
  · exact mem_memset
  · rw [List.mem_append, mem_memset, mem_memset, ← or_and_right]
    refine and_congr_left' ?_
    omega
  · rw [List.mem_append, mem_memset, mem_memset, ← or_and_right]
    refine and_congr_left' ?_
    omega
  · obtain ⟨a, b⟩ := store
    simp only [List.mem_cons, Prod.mk.injEq, List.not_mem_nil, or_false, ← or_and_right]
    refine and_congr_left' ?_
    omega
  · refine iff_of_false List.not_mem_nil ?_
    omega

theorem written_fill (memory : Nat → UInt8) (i : Nat) (v : UInt8) (n a : Nat) :
    written memory (fill i v n) a = if i ≤ a ∧ a < i + n then v else memory a := by
  split_ifs with inside
  · exact written_of_mem (fun store mem => (mem_fill.mp mem).2)
      ⟨(a, v), mem_fill.mpr ⟨inside, rfl⟩, rfl⟩
  · refine written_of_forall_ne fun store mem same => inside ?_
    exact same ▸ (mem_fill.mp mem).1

/-! ## Clearing -/

section Clear

variable {M : ShadowMap} {memory : Nat → UInt8} {remap : Nat → Nat → Bool} {low high : Nat}

theorem pageBytes_eq (M : ShadowMap) : M.pageBytes = 2 ^ M.pageShift := Nat.one_shiftLeft _

theorem pageBytes_pos (M : ShadowMap) : 0 < M.pageBytes := by
  rw [pageBytes_eq]
  exact Nat.two_pow_pos _

/-- The shadow and one page behind it fit into the 64-bit addresses. -/
theorem end_le (M : ShadowMap) : M.base + 2 ^ (M.bits - 4) + M.pageBytes ≤ 2 ^ 64 := by
  have room := M.room
  rw [Nat.one_shiftLeft] at room
  exact room

theorem pageOf_eq {address : Nat} (word : address < 2 ^ 64) :
    M.pageOf address = address / M.pageBytes * M.pageBytes := by
  have small : M.pageShift ≤ 64 := by
    refine Nat.le_of_not_lt fun large => ?_
    have more := Nat.pow_lt_pow_right (show 1 < 2 by decide) large
    have some := Nat.two_pow_pos (M.bits - 4)
    have fits := M.end_le
    rw [pageBytes_eq] at fits
    omega
  have wide : address < 0x10000000000000000 := word
  unfold pageOf
  rw [Nat.mod_eq_of_lt wide, pageBytes_eq]
  exact and_two_pow_mask word small

theorem inWindow_iff (address : Nat) : M.InWindow address ↔ address < 2 ^ M.bits := by
  unfold InWindow
  rw [Nat.shiftRight_eq_div_pow, Nat.div_eq_zero_iff]
  exact or_iff_right (Nat.two_pow_pos _).ne'

theorem two_pow_bits (M : ShadowMap) : 2 ^ M.bits = 16 * 2 ^ (M.bits - 4) := by
  have split : M.bits = 4 + (M.bits - 4) := by
    have := M.window
    omega
  calc 2 ^ M.bits = 2 ^ (4 + (M.bits - 4)) := by rw [← split]
    _ = 16 * 2 ^ (M.bits - 4) := by rw [Nat.pow_add]

theorem shadowOf_eq {address : Nat} (inside : address < 2 ^ M.bits) :
    M.shadowOf address = M.base + address / 16 := by
  have bits := M.two_pow_bits
  unfold shadowOf
  rw [Nat.one_shiftLeft, Nat.and_two_pow_sub_one_eq_mod, Nat.shiftRight_eq_div_pow,
    Nat.mod_eq_of_lt (by omega)]

/-- The pages lie within the run. -/
theorem pages_inside {start bytes : Nat} (room : start + bytes + M.pageBytes ≤ 2 ^ 64)
    (some : 0 < bytes) :
    start ≤ M.pageOf (start + M.pageBytes - 1) ∧ M.pageOf (start + bytes) ≤ start + bytes := by
  have pos := M.pageBytes_pos
  rw [pageOf_eq (show start + M.pageBytes - 1 < 2 ^ 64 by omega),
    pageOf_eq (show start + bytes < 2 ^ 64 by omega)]
  constructor
  · have up := Nat.div_add_mod (start + M.pageBytes - 1) M.pageBytes
    have rest := Nat.mod_lt (start + M.pageBytes - 1) pos
    rw [Nat.mul_comm] at up
    omega
  · exact Nat.div_mul_le_self _ _

/-- Cleared by stores or by pages, the bytes of the run are 0 and no others change. -/
theorem clear_eq (some : low < high) (inside : high ≤ 2 ^ M.bits) (a : Nat) :
    M.clear remap memory low high a =
      if M.base + low / 16 ≤ a ∧ a < M.base + (high + 15) / 16 then 0 else memory a := by
  have bits := M.two_pow_bits
  have fits := M.end_le
  have here : ¬(high ≤ low ∨ ¬M.InWindow low ∨ ¬M.InWindow (high - 1)) := by
    rw [inWindow_iff, inWindow_iff]
    omega
  have bytes : ((high + 15) >>> 4) - (low >>> 4) = (high + 15) / 16 - low / 16 := by
    rw [Nat.shiftRight_eq_div_pow, Nat.shiftRight_eq_div_pow]
  have pages : M.base + low / 16 ≤ M.pageOf (M.base + low / 16 + M.pageBytes - 1) ∧
      M.pageOf (M.base + low / 16 + ((high + 15) / 16 - low / 16)) ≤
        M.base + low / 16 + ((high + 15) / 16 - low / 16) :=
    pages_inside (by omega) (by omega)
  have zero : ShadowValue.addressable = 0 := rfl
  unfold clear
  rw [if_neg here, shadowOf_eq (show low < 2 ^ M.bits by omega), bytes, zero]
  generalize M.pageOf (M.base + low / 16 + M.pageBytes - 1) = first at pages ⊢
  generalize M.pageOf (M.base + low / 16 + ((high + 15) / 16 - low / 16)) = last at pages ⊢
  split_ifs with short run run
  · rw [written_memset, if_pos (by omega)]
  · rw [written_memset, if_neg (by omega)]
  · rw [written_memset, written_memset]
    unfold mapped
    split_ifs <;> first | rfl | omega
  · rw [written_memset, written_memset]
    unfold mapped
    split_ifs <;> first | rfl | omega

end Clear

/-- A range of window addresses is cleared granule by granule, whole pages mapped
afresh or not, and nothing else changes; and `fill` writes its run, every byte
with its value. -/
theorem clear_fill_exact (M : ShadowMap) (remap : Nat → Nat → Bool) (memory : Nat → UInt8)
    {low high : Nat} (window : ∀ a, low ≤ a → a < high → a < 2 ^ M.bits) :
    (∀ a, M.clear remap memory low high a =
      if low < high ∧ M.base + low / 16 ≤ a ∧ a < M.base + (high + 15) / 16 then 0
      else memory a) ∧
      ∀ i v n, (∀ a, (∃ b, (a, b) ∈ fill i v n) ↔ i ≤ a ∧ a < i + n) ∧
        ∀ store ∈ fill i v n, store.2 = v := by
  refine ⟨fun a => ?_, fun i v n => ⟨fun a => ⟨?_, fun inside => ?_⟩, fun store mem => ?_⟩⟩
  · by_cases some : low < high
    · have last := window (high - 1) (by omega) (by omega)
      refine (clear_eq some (by omega) a).trans (if_congr ?_ rfl rfl)
      exact (and_iff_right some).symm
    · rw [if_neg fun inside => some inside.1]
      unfold clear
      rw [if_pos (.inl (Nat.le_of_not_lt some))]
  · rintro ⟨b, mem⟩
    exact (mem_fill.mp mem).1
  · exact ⟨v, mem_fill.mpr ⟨inside, rfl⟩⟩
  · exact (mem_fill.mp mem).2

theorem sample_window : 39 ≤ 47 ∧ 47 ≤ 56 := by decide

theorem sample_room : 0x100000000008 + 1 <<< (47 - 4) + 1 <<< 12 ≤ 0x10000000000000000 := by decide

def sampleMap : ShadowMap where
  bits := 47
  window := sample_window
  base := 0x100000000008
  pageShift := 12
  room := sample_room

/-- Of 300801 bytes of shadow that start and end inside a page the first and the
last are cleared, and those beside them are not. -/
theorem clear_fill_sample :
    let cleared := sampleMap.clear (fun _ _ => true) (fun _ => 0xFD) 0x1008 0x498008
    cleared 0x100000000107 = 0xFD ∧ cleared 0x100000000108 = 0 ∧ cleared 0x100000049808 = 0 ∧
      cleared 0x100000049809 = 0xFD := by
  have inside (a : Nat) (_ : 0x1008 ≤ a) (below : a < 0x498008) : a < 2 ^ sampleMap.bits := by
    have wide : 2 ^ sampleMap.bits = 0x800000000000 := rfl
    omega
  intro cleared
  have exact := (clear_fill_exact sampleMap (fun _ _ => true) (fun _ => 0xFD) inside).1
  refine ⟨(exact _).trans (if_neg ?_), (exact _).trans (if_pos ?_), (exact _).trans (if_pos ?_),
    (exact _).trans (if_neg ?_)⟩
  all_goals decide

/-! ## The shadow's view -/

section View

variable (M : ShadowMap) (memory : Nat → UInt8)

theorem view_wf : (1 <<< (M.bits - 4)) - 1 = 0 ∧ M.bits = 64 ∨
    (1 <<< (M.bits - 4)) - 1 = 2 ^ (M.bits - 4) - 1 ∧ 39 ≤ M.bits ∧ M.bits ≤ 56 :=
  .inr ⟨by rw [Nat.one_shiftLeft], M.window⟩

/-- The shadow that lies in a memory. -/
def view : Shadow where
  bits := M.bits
  mask := (1 <<< (M.bits - 4)) - 1
  byte i := memory (M.base + i)
  wf := M.view_wf

theorem view_ready : (M.view memory).Ready := by
  change (1 <<< (M.bits - 4)) - 1 ≠ 0
  rw [Nat.one_shiftLeft]
  have window := M.window
  have more := Nat.pow_lt_pow_right (show 1 < 2 by decide) (show 0 < M.bits - 4 by omega)
  omega

theorem view_inWindow (address : Nat) :
    (M.view memory).InWindow address ↔ address < 2 ^ M.bits :=
  Shadow.inWindow_iff (M.view_ready memory) address

theorem view_eq {memory : Nat → UInt8} {s : Shadow} (bits : s.bits = M.bits)
    (mask : s.mask = (1 <<< (M.bits - 4)) - 1) (byte : ∀ i, memory (M.base + i) = s.byte i) :
    M.view memory = s := by
  cases s
  obtain rfl := bits
  obtain rfl := mask
  obtain rfl := funext byte
  rfl

/-- What `weavecRtShadowClear` does to memory is what it does to the shadow. -/
theorem view_clear (remap : Nat → Nat → Bool) (low high : Nat) :
    M.view (M.clear remap memory low high) = (M.view memory).clear low high := by
  have same := Shadow.sameWindow_clear (M.view memory) low high
  refine M.view_eq same.bits same.mask fun i => ?_
  by_cases inside : low < high ∧ low < 2 ^ M.bits ∧ high - 1 < 2 ^ M.bits
  · obtain ⟨some, first, last⟩ := inside
    rw [clear_eq some (by omega), Shadow.clear_byte (M.view_ready memory) some
      ((M.view_inWindow memory low).mpr first) ((M.view_inWindow memory _).mpr last)]
    refine if_congr ?_ rfl rfl
    omega
  · have skipped : high ≤ low ∨ ¬low < 2 ^ M.bits ∨ ¬high - 1 < 2 ^ M.bits := by omega
    have here : high ≤ low ∨ ¬M.InWindow low ∨ ¬M.InWindow (high - 1) := by
      rw [inWindow_iff, inWindow_iff]
      exact skipped
    have there : high ≤ low ∨ ¬(M.view memory).InWindow low ∨
        ¬(M.view memory).InWindow (high - 1) := by
      rw [view_inWindow, view_inWindow]
      exact skipped
    rw [clear, Shadow.clear, if_pos here, if_pos (.inr there)]
    rfl

/-- And so for `fill`. -/
theorem view_fill (i : Nat) (v : UInt8) (n : Nat) :
    M.view (written memory (fill (M.base + i) v n)) = (M.view memory).fill i v n := by
  rw [Shadow.fill_eq]
  refine M.view_eq rfl rfl fun j => ?_
  rw [written_fill, Shadow.memset_byte]
  refine if_congr ?_ rfl rfl
  omega

end View

end ShadowMap

end WeaveC.Runtime
