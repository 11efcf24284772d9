import WeaveC.Runtime.Color
import WeaveC.Runtime.Decided
import WeaveC.Runtime.ShadowWrite
import Mathlib.Data.List.Pairwise

/-!
# Registered globals

A unit registers its globals before its constructors run and unregisters them
when it is unloaded.  The shadow of a registered global says where the object
ends, and gives it a color that differs from its neighbours'.
-/

namespace WeaveC.Runtime

open WeaveC.Library

/-- `__weavec_rt_global`. -/
structure Global where
  address : Nat
  size : Nat
  padded : Nat
  deriving DecidableEq, Repr

/-- One turn of the loop of `__weavec_rt_globals_register`, with the count of
colors given out. -/
def register (page : Nat) (s : Shadow) (globalColors : Nat) (g : Global) : Shadow × Nat :=
  let used := (g.size + 15) % 0x10000000000000000 / 16 * 16
  if g.address % 16 ≠ 0 ∨ g.padded < used then (s, globalColors)
  else
    let s := s.object page g.address g.size ShadowValue.global (color globalColors)
    (if used < g.padded then s.set (g.address + used) (g.padded - used) ShadowValue.global else s,
      (globalColors + 1) % 0x10000000000000000)

/-- `__weavec_rt_globals_register`. -/
def globalsRegister (page : Nat) : Shadow → Nat → List Global → Shadow × Nat
  | s, globalColors, [] => (s, globalColors)
  | s, globalColors, g :: globals =>
      let (s, globalColors) := register page s globalColors g
      globalsRegister page s globalColors globals

/-- `__weavec_rt_globals_unregister`. -/
def globalsUnregister (s : Shadow) (globals : List Global) : Shadow :=
  globals.foldl
    (fun s g => s.clear g.address ((g.address + g.padded) % 0x10000000000000000)) s

namespace Global

/-- The global and its redzone are whole granules of the window, and the redzone
is at least one. -/
structure Placed (bits : Nat) (g : Global) : Prop where
  granule : g.address % 16 = 0
  whole : g.padded % 16 = 0
  room : (g.size + 15) / 16 * 16 < g.padded
  window : g.address + g.padded ≤ 2 ^ bits

/-- Granule `j` is the global's or its redzone's. -/
def Covers (g : Global) (j : Nat) : Prop :=
  g.address / 16 ≤ j ∧ j < (g.address + g.padded) / 16

/-- The globals and their redzones have no byte in common. -/
def Apart (g g' : Global) : Prop :=
  g.address + g.padded ≤ g'.address ∨ g'.address + g'.padded ≤ g.address

theorem Apart.symm {g g' : Global} (apart : g.Apart g') : g'.Apart g := Or.symm apart

theorem Apart.not_covers {g g' : Global} {bits j : Nat} (apart : g.Apart g')
    (placed : g.Placed bits) (placed' : g'.Placed bits) (covers : g.Covers j) : ¬ g'.Covers j := by
  obtain ⟨granule, whole, -, -⟩ := placed
  obtain ⟨granule', whole', -, -⟩ := placed'
  obtain ⟨low, high⟩ := covers
  rintro ⟨low', high'⟩
  rcases apart with before | after <;> omega

/-- The shadow of the `rel`-th granule of a global with color `n`. -/
def byteAt (page n : Nat) (g : Global) (rel : Nat) : UInt8 :=
  (Shadow.objectByte page g.size ShadowValue.global (color n) rel).getD ShadowValue.global

/-- The color its granules show: none where the shadow of a large object is
mapped afresh. -/
def tint (page n : Nat) (g : Global) : UInt8 := if 4 * page ≤ g.size / 16 then 0 else color n

end Global

/-! ## What registration writes -/

section Register

variable {page n : Nat} {s : Shadow} {g : Global}

theorem register_eq (placed : g.Placed s.bits) (narrow : s.bits ≤ 56) :
    register page s n g =
      ((s.object page g.address g.size ShadowValue.global (color n)).set
          (g.address + (g.size + 15) / 16 * 16) (g.padded - (g.size + 15) / 16 * 16)
          ShadowValue.global,
        (n + 1) % 0x10000000000000000) := by
  have small : 2 ^ s.bits ≤ 2 ^ 56 := Nat.pow_le_pow_right (by decide) narrow
  obtain ⟨granule, -, room, window⟩ := placed
  have used : (g.size + 15) % 0x10000000000000000 / 16 * 16 = (g.size + 15) / 16 * 16 := by omega
  unfold register
  rw [used]
  dsimp only
  rw [if_neg (by omega), if_pos room]

theorem sameWindow_register (placed : g.Placed s.bits) (narrow : s.bits ≤ 56) :
    Shadow.SameWindow s (register page s n g).1 := by
  rw [register_eq placed narrow]
  exact (Shadow.sameWindow_object s _ _ _ _ _).trans (Shadow.sameWindow_set _ _ _ _)

/-- A registered global's granules, and no others. -/
theorem register_byte (ready : s.Ready) (pages : 0 < page) (placed : g.Placed s.bits) (j : Nat) :
    (register page s n g).1.byte j =
      if g.address / 16 ≤ j ∧ j < (g.address + g.padded) / 16 then
        g.byteAt page n (j - g.address / 16)
      else s.byte j := by
  have narrow := ready.bounds.2.2
  have same := Shadow.sameWindow_object s page g.address g.size ShadowValue.global (color n)
  rw [register_eq placed narrow]
  obtain ⟨granule, whole, room, window⟩ := placed
  have within : ∀ b, b < g.address + g.padded → s.InWindow b :=
    fun b below => (Shadow.inWindow_iff ready b).mpr (by omega)
  rw [Shadow.set_byte (same.ready ready) ((same.inWindow _).mpr (within _ (by omega))),
    Shadow.object_byte ready pages granule (fun b _ below => within b (by omega))]
  have start : (g.address + (g.size + 15) / 16 * 16) / 16 =
      g.address / 16 + (g.size + 15) / 16 := by omega
  have count : (g.padded - (g.size + 15) / 16 * 16 + 15) / 16 =
      g.padded / 16 - (g.size + 15) / 16 := by omega
  have stop : (g.address + g.padded) / 16 = g.address / 16 + g.padded / 16 := by omega
  rw [start, count, stop]
  unfold Global.byteAt
  by_cases redzone : g.address / 16 + (g.size + 15) / 16 ≤ j ∧
      j < g.address / 16 + (g.size + 15) / 16 + (g.padded / 16 - (g.size + 15) / 16)
  · rw [if_pos redzone, if_pos (by omega)]
    by_cases empty : 0 < j - g.address / 16 ∨ 0 < g.size
    · rw [Shadow.objectByte_none (by omega) empty]
      rfl
    · unfold Shadow.objectByte
      dsimp only
      rw [if_neg (by omega), if_neg (by omega), if_pos (by omega)]
      rfl
  · rw [if_neg redzone]
    by_cases own : g.address / 16 ≤ j
    · rw [if_pos own]
      by_cases covered : j < g.address / 16 + g.padded / 16
      · rw [if_pos ⟨own, covered⟩]
        have object : j - g.address / 16 < (g.size + 15) / 16 := by omega
        unfold Shadow.objectByte
        dsimp only
        split_ifs <;> first | rfl | omega
      · rw [if_neg (by omega), Shadow.objectByte_none (by omega) (by omega)]
        rfl
    · rw [if_neg own, if_neg (by omega)]

/-- The colors are given out in the order of the table. -/
structure Registered (page n : Nat) (s s' : Shadow) (n' : Nat) (globals : List Global) : Prop where
  window : Shadow.SameWindow s s'
  count : n' = (n + globals.length) % 0x10000000000000000
  shows : ∀ (i : Nat) (g : Global), globals[i]? = some g → ∀ rel < g.padded / 16,
    s'.byte (g.address / 16 + rel) = g.byteAt page ((n + i) % 0x10000000000000000) rel
  others : ∀ j, (∀ g ∈ globals, ¬ g.Covers j) → s'.byte j = s.byte j

theorem globalsRegister_registered {globals : List Global} (ready : s.Ready) (pages : 0 < page)
    (bound : n < 0x10000000000000000) (placed : ∀ g ∈ globals, g.Placed s.bits)
    (apart : globals.Pairwise Global.Apart) :
    Registered page n s (globalsRegister page s n globals).1 (globalsRegister page s n globals).2
      globals := by
  induction globals generalizing s n with
  | nil =>
      exact ⟨.refl s, (Nat.mod_eq_of_lt bound).symm, by simp, fun _ _ => rfl⟩
  | cons g globals inductionHypothesis =>
      obtain ⟨first, rest⟩ := List.pairwise_cons.mp apart
      have here := placed g List.mem_cons_self
      have narrow := ready.bounds.2.2
      have same : Shadow.SameWindow s (register page s n g).1 := sameWindow_register here narrow
      have byte := register_byte (n := n) ready pages here
      have next : (register page s n g).2 = (n + 1) % 0x10000000000000000 := by
        rw [register_eq here narrow]
      unfold globalsRegister
      dsimp only
      rw [next]
      have others := inductionHypothesis (n := (n + 1) % 0x10000000000000000)
        (same.ready ready) (Nat.mod_lt _ (by decide))
        (fun g' mem => by
          rw [same.bits]
          exact placed g' (List.mem_cons_of_mem _ mem)) rest
      refine ⟨same.trans others.window, ?_, fun i g' found rel below => ?_, fun j out => ?_⟩
      · rw [others.count, List.length_cons]
        omega
      · cases i with
        | zero =>
            obtain rfl := Option.some.inj found
            have whole := here.whole
            have granule := here.granule
            have covers : g.Covers (g.address / 16 + rel) := ⟨by omega, by omega⟩
            have kept := others.others _ fun g' mem =>
              (first g' mem).not_covers here (placed g' (List.mem_cons_of_mem _ mem)) covers
            have written := (byte (g.address / 16 + rel)).trans (if_pos covers)
            rw [kept, written, Nat.add_sub_cancel_left, Nat.add_zero, Nat.mod_eq_of_lt bound]
        | succ i =>
            rw [List.getElem?_cons_succ] at found
            rw [others.shows i g' found rel below]
            congr 1
            omega
      · have kept := others.others j fun g' mem => out g' (List.mem_cons_of_mem _ mem)
        exact kept.trans ((byte j).trans (if_neg (out g List.mem_cons_self)))

end Register

/-! ## What unregistration writes -/

section Unregister

variable {s : Shadow}

/-- The granules of the globals are addressable again, and no other changes. -/
structure Unregistered (s s' : Shadow) (globals : List Global) : Prop where
  window : Shadow.SameWindow s s'
  clears : ∀ g ∈ globals, ∀ j, g.Covers j → s'.byte j = ShadowValue.addressable
  others : ∀ j, (∀ g ∈ globals, ¬ g.Covers j) → s'.byte j = s.byte j

theorem globalsUnregister_unregistered {globals : List Global} (ready : s.Ready)
    (placed : ∀ g ∈ globals, g.Placed s.bits) :
    Unregistered s (globalsUnregister s globals) globals := by
  induction globals generalizing s with
  | nil => exact ⟨.refl s, by simp, fun _ _ => rfl⟩
  | cons g globals inductionHypothesis =>
      obtain ⟨granule, whole, room, window⟩ := placed g List.mem_cons_self
      have small : 2 ^ s.bits ≤ 2 ^ 56 := Nat.pow_le_pow_right (by decide) ready.bounds.2.2
      have stop : (g.address + g.padded) % 0x10000000000000000 = g.address + g.padded :=
        Nat.mod_eq_of_lt (by omega)
      have same := Shadow.sameWindow_clear s g.address (g.address + g.padded)
      have byte := @Shadow.clear_byte s ready g.address (g.address + g.padded) (by omega)
        ((Shadow.inWindow_iff ready _).mpr (by omega))
        ((Shadow.inWindow_iff ready _).mpr (by omega))
      have end' : (g.address + g.padded + 15) / 16 = (g.address + g.padded) / 16 := by omega
      rw [end'] at byte
      have rest := inductionHypothesis (same.ready ready) fun g' mem => by
        rw [same.bits]
        exact placed g' (List.mem_cons_of_mem _ mem)
      unfold globalsUnregister at rest ⊢
      rw [List.foldl_cons, stop]
      refine ⟨same.trans rest.window, fun g' mem j covers => ?_, fun j out => ?_⟩
      · by_cases again : ∃ g'' ∈ globals, g''.Covers j
        · obtain ⟨g'', mem', covers'⟩ := again
          exact rest.clears g'' mem' j covers'
        · rw [rest.others j fun g'' mem' covers' => again ⟨g'', mem', covers'⟩, byte]
          rcases List.mem_cons.mp mem with rfl | mem
          · exact if_pos covers
          · exact absurd ⟨g', mem, covers⟩ again
      · rw [rest.others j fun g' mem => out g' (List.mem_cons_of_mem _ mem), byte]
        exact if_neg (out g List.mem_cons_self)

end Unregister

/-! ## What the checks see -/

theorem isColor_zero : IsColor 0 := by
  constructor <;> decide

namespace Global

variable {page n rel : Nat} {g : Global}

theorem isColor_tint : IsColor (g.tint page n) := by
  unfold tint
  split_ifs
  · exact isColor_zero
  · exact isColor_color n

theorem byteAt_whole (below : rel < g.size / 16) : g.byteAt page n rel = g.tint page n := by
  unfold byteAt Shadow.objectByte
  dsimp only
  rw [if_pos below]
  rfl

theorem byteAt_end (last : rel = g.size / 16) (rest : g.size % 16 ≠ 0) :
    g.byteAt page n rel = shadowPartialOf (g.tint page n).toNat (g.size % 16) := by
  unfold byteAt Shadow.objectByte
  dsimp only
  rw [if_neg (by omega), if_pos ⟨last, rest⟩]
  rfl

theorem byteAt_redzone (beyond : (g.size + 15) / 16 ≤ rel) :
    g.byteAt page n rel = ShadowValue.global := by
  unfold byteAt Shadow.objectByte
  dsimp only
  rw [if_neg (by omega), if_neg (by omega)]
  split_ifs <;> rfl

theorem byteAt_ne_returned : g.byteAt page n rel ≠ ShadowValue.returned := by
  intro returned
  by_cases own : rel < g.size / 16
  · rw [byteAt_whole own] at returned
    have full := (@isColor_tint page n g).1
    rw [returned] at full
    exact absurd full (by decide)
  · by_cases last : rel = g.size / 16 ∧ g.size % 16 ≠ 0
    · obtain ⟨-, notPoison, -⟩ := shadowPartialOf_value
        (@isColor_tint page n g).2 (show g.size % 16 < 16 by omega)
      rw [← byteAt_end last.1 last.2, returned] at notPoison
      exact notPoison (by decide)
    · rw [byteAt_redzone (by omega)] at returned
      exact absurd returned (by decide)

/-- The bytes of a global and of its redzone, as its shadow has them. -/
theorem addressable_iff_of_shows {ctx : Context} {s : Shadow} (ready : s.Ready)
    (placed : g.Placed s.bits)
    (shows : ∀ rel < g.padded / 16, s.byte (g.address / 16 + rel) = g.byteAt page n rel) {b : Nat}
    (low : g.address ≤ b) (high : b < g.address + g.padded) :
    Addressable ctx s b ↔ b < g.address + g.size := by
  obtain ⟨granule, whole, room, window⟩ := placed
  have value := shows (b / 16 - g.address / 16) (by omega)
  rw [show g.address / 16 + (b / 16 - g.address / 16) = b / 16 by omega] at value
  have reads := @addressable_iff ctx s b ready (by omega)
    (by rw [value]; exact byteAt_ne_returned)
  by_cases own : b / 16 - g.address / 16 < g.size / 16
  · rw [reads, value, byteAt_whole own]
    exact iff_of_true (.inl isColor_tint.1) (by omega)
  · by_cases last : b / 16 - g.address / 16 = g.size / 16 ∧ g.size % 16 ≠ 0
    · obtain ⟨notFull, notPoison, bytes⟩ := shadowPartialOf_value
        (@isColor_tint page n g).2 (show g.size % 16 < 16 by omega)
      rw [reads, value, byteAt_end last.1 last.2, bytes]
      constructor
      · rintro (full | ⟨-, more⟩)
        · exact absurd full notFull
        · omega
      · intro inside
        exact .inr ⟨notPoison, by omega⟩
    · rw [byteAt_redzone (by omega)] at value
      rw [reads, value]
      constructor
      · rintro (full | ⟨notPoison, -⟩)
        · exact absurd full (by decide)
        · exact absurd (by decide) notPoison
      · omega

/-- The checks agree on every range that begins in a global or its redzone. -/
theorem range_passes_of_shows {ctx : Context} {s : Shadow} (ready : s.Ready)
    (placed : g.Placed s.bits)
    (shows : ∀ rel < g.padded / 16, s.byte (g.address / 16 + rel) = g.byteAt page n rel)
    {address count : Nat} (low : g.address ≤ address) (high : address < g.address + g.padded)
    (nonempty : 0 < count) :
    (range ctx s address count).passes = true ↔ address + count ≤ g.address + g.size := by
  have window := placed.window
  have room := placed.room
  have inside : s.InWindow address := (Shadow.inWindow_iff ready _).mpr (by omega)
  have bytes {b : Nat} (from' : g.address ≤ b) (upTo : b < g.address + g.padded) :
      Addressable ctx s b ↔ b < g.address + g.size :=
    addressable_iff_of_shows ready placed shows from' upTo
  rw [range_passes, reached_of_inWindow ctx inside]
  constructor
  · intro none
    by_contra beyond
    have least : max address (g.address + g.size) ∈ unaddressable ctx s address count :=
      ⟨ready, by omega, by omega, (Shadow.inWindow_iff ready _).mpr (by omega),
        fun addressable => by
          have := (bytes (by omega) (by omega)).mp addressable
          omega⟩
    rw [none] at least
    exact least
  · intro within
    exact unaddressable_empty fun _ b from' upTo _ => (bytes (by omega) (by omega)).mpr (by omega)

/-- Poison follows an object at once. -/
theorem kindOf_of_shows {s s' : Shadow} {ctx : Context} (ready : s.Ready)
    (placed : g.Placed s.bits) (same : Settles ctx s s')
    (shows : ∀ rel < g.padded / 16, s.byte (g.address / 16 + rel) = g.byteAt page n rel) {b : Nat}
    (low : g.address + g.size ≤ b) (high : b < g.address + g.padded) :
    kindOf s' (settled ctx s (b / 16 * 16)) (b / 16 * 16) = .globalBufferOverflow := by
  obtain ⟨granule, whole, room, window⟩ := placed
  have redzone {j : Nat} (from' : (g.size + 15) / 16 ≤ j) (upTo : j < g.padded / 16) :
      s.byte (g.address / 16 + j) = ShadowValue.global := by
    rw [shows j upTo, byteAt_redzone from']
  have here := shows (b / 16 - g.address / 16) (by omega)
  rw [show g.address / 16 + (b / 16 - g.address / 16) = b / 16 by omega] at here
  by_cases last : b / 16 - g.address / 16 = g.size / 16 ∧ g.size % 16 ≠ 0
  · -- the value is a partial granule's: the one after it says whose
    obtain ⟨-, notPoison, -⟩ := shadowPartialOf_value
      (@isColor_tint page n g).2 (show g.size % 16 < 16 by omega)
    have partly := @byteAt_end page n _ g last.1 last.2
    rw [partly] at here
    have after := redzone (j := g.size / 16 + 1) (by omega) (by omega)
    have next : s.of (b / 16 * 16 + 16) = ShadowValue.global := by
      rw [Shadow.of, Shadow.index_eq_div ready (by omega), ← after]
      congr 1
      omega
    have kept : s'.of (b / 16 * 16 + 16) = ShadowValue.global := by
      rw [same.of_kept (by rw [next]; decide), next]
    have value : settled ctx s (b / 16 * 16) = s.byte (b / 16) := by
      rw [settled_eq, of_granule ready (by omega), if_neg]
      rintro ⟨returned, -⟩
      rw [here, ← partly] at returned
      exact byteAt_ne_returned returned
    rw [value, here]
    unfold kindOf
    rw [if_neg notPoison]
    unfold poisonAfter
    dsimp only
    rw [if_neg (not_not.mpr ((Shadow.inWindow_iff (same.ready ready) _).mpr
      (by rw [same.bits]; omega))), kept]
    rfl
  · rw [byteAt_redzone (by omega)] at here
    have value : settled ctx s (b / 16 * 16) = ShadowValue.global := by
      rw [settled_eq, of_granule ready (by omega), here]
      rfl
    rw [value]
    rfl

/-- A range that begins in a global and ends beyond it is reported as what it
is, where the allocator owns nothing of the global. -/
theorem range_of_shows {ctx : Context} {s : Shadow} (ready : s.Ready)
    (placed : g.Placed s.bits)
    (shows : ∀ rel < g.padded / 16, s.byte (g.address / 16 + rel) = g.byteAt page n rel)
    (static : ∀ b, g.address ≤ b → b < g.address + g.padded → (ctx.heapObjectAt b).found = false)
    {address count : Nat} (low : g.address ≤ address) (high : address < g.address + g.padded)
    (beyond : g.address + g.size < address + count) (nonempty : 0 < count) :
    range ctx s address count = .error ⟨.globalBufferOverflow, address, count⟩ := by
  have window := placed.window
  have room := placed.room
  have inside : s.InWindow address := (Shadow.inWindow_iff ready _).mpr (by omega)
  have bytes {b : Nat} (from' : g.address ≤ b) (upTo : b < g.address + g.padded) :
      Addressable ctx s b ↔ b < g.address + g.size :=
    addressable_iff_of_shows ready placed shows from' upTo
  have fails : ¬ (range ctx s address count).passes = true :=
    (range_passes_of_shows ready placed shows low high nonempty).not.mpr (by omega)
  obtain ⟨same, answer⟩ := firstUnaddressable_spec ctx s address count
  rw [reached_of_inWindow ctx inside] at answer
  unfold range at fails ⊢
  split_ifs at fails ⊢ with fast
  · exact absurd rfl fails
  · generalize firstUnaddressable ctx s address count = r at same answer fails ⊢
    rcases r with ⟨_ | ⟨bad, v⟩, s'⟩
    · exact absurd rfl fails
    · obtain ⟨⟨⟨-, from', upTo, -, outside⟩, least⟩, rfl⟩ := answer
      have first : max address (g.address + g.size) ∈ unaddressable ctx s address count :=
        ⟨ready, by omega, by omega, (Shadow.inWindow_iff ready _).mpr (by omega),
          fun addressable => by
            have := (bytes (by omega) (by omega)).mp addressable
            omega⟩
      have atMost := least first
      have atLeast : g.address + g.size ≤ bad := by
        by_contra below
        exact outside ((bytes (by omega) (by omega)).mpr (by omega))
      have kind := kindOf_of_shows ready placed same shows atLeast (by omega)
      dsimp only
      unfold failAt
      rw [static bad (by omega) (by omega)]
      dsimp only
      rw [if_neg (by simp), kind]

end Global

theorem range_settles {ctx : Context} {s s' : Shadow} {address count : Nat}
    (passed : range ctx s address count = .ok s') : Settles ctx s s' := by
  have same := (firstUnaddressable_spec ctx s address count).1
  unfold range at passed
  split_ifs at passed with fast
  · cases passed
    exact .refl ctx s
  · generalize firstUnaddressable ctx s address count = r at same passed
    rcases r with ⟨_ | ⟨bad, v⟩, s₁⟩
    · cases passed
      exact same
    · simp at passed

end WeaveC.Runtime
