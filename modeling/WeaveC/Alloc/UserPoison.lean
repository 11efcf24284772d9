import WeaveC.Alloc.HugeShadow
import WeaveC.Runtime.Decided
import Mathlib.Data.List.Induction

/-!
# Poison of the program

What the program poisons through AddressSanitizer's interface: whole granules
inside a range become poison, and a range is unpoisoned up to its last byte.
-/

namespace WeaveC.Alloc

open WeaveC.Runtime WeaveC.Library

variable {A : Arena} {t : Table} {ctx : Context} {s s' : Shadow}

/-! ## The interface -/

/-- `weavecRtColorOfHeap`, of an address. -/
def colorAt (A : Arena) (t : Table) (address : Nat) : UInt8 :=
  if A.inArena address then Heap.colorOfHeap (t.slotOf A address) else 0

/-- `__asan_poison_memory_region`: the whole granules inside the range. -/
def poisonRegion (s : Shadow) (address size : Nat) : Shadow :=
  let low := (address + 15) / 16 * 16
  let high := (address + size) / 16 * 16
  if low < high then s.set low (high - low) ShadowValue.user else s

/-- `__asan_unpoison_memory_region`: the range, its partial last granule as the
first bytes of that granule. -/
def unpoisonRegion (A : Arena) (t : Table) (s : Shadow) (start size : Nat) : Shadow :=
  let low := start / 16 * 16
  let stop := start + size
  let color := colorAt A t start
  if size = 0 ∨ ¬ s.Ready ∨ ¬ s.InWindow start then s
  else
    let s :=
      if low < stop / 16 * 16 then s.memset (s.index low) color ((stop / 16 * 16 - low) >>> 4)
      else s
    let last := s.of stop
    if stop % 16 ≠ 0 ∧
        (shadowPoison last ∨ ¬ shadowFull last ∧ shadowBytes last < stop % 16) then
      s.put (s.index stop) (shadowPartialOf color.toNat (stop % 16))
    else s

/-- A call of the interface. -/
inductive UserCall where
  | poison (address size : Nat)
  | unpoison (address size : Nat)
  deriving DecidableEq

namespace UserCall

def run (A : Arena) (t : Table) (s : Shadow) : UserCall → Shadow
  | poison address size => poisonRegion s address size
  | unpoison address size => unpoisonRegion A t s address size

/-- The call's range lies inside the object. -/
def Inside (base size : Nat) : UserCall → Prop
  | poison address n | unpoison address n => base ≤ address ∧ address + n ≤ base + size

/-- The granule lies wholly in a range that one of the calls poisons. -/
def Poisons (calls : List UserCall) (j : Nat) : Prop :=
  ∃ address n, poison address n ∈ calls ∧ address ≤ j * 16 ∧ j * 16 + 16 ≤ address + n

/-- The calls, one after another. -/
def runAll (A : Arena) (t : Table) (s : Shadow) (calls : List UserCall) : Shadow :=
  calls.foldl (run A t) s

end UserCall

/-- A live object's bytes and no others of its granules are addressable. -/
structure Exposed (s : Shadow) (base size : Nat) : Prop where
  ready : s.Ready
  granule : 16 ∣ base
  room : base + (size + 15) / 16 * 16 ≤ 2 ^ s.bits
  whole : ∀ j, base / 16 ≤ j → j < base / 16 + size / 16 → shadowFull (s.byte j)
  rest : size % 16 ≠ 0 → ¬ shadowPoison (s.byte (base / 16 + size / 16)) ∧
    ¬ shadowFull (s.byte (base / 16 + size / 16)) ∧
      shadowBytes (s.byte (base / 16 + size / 16)) = size % 16

/-! ## What the calls write -/

theorem colorAt_isColor (A : Arena) (t : Table) (address : Nat) : IsColor (colorAt A t address) := by
  unfold colorAt
  split
  · exact isColor_color _
  · exact ⟨by decide, by decide⟩

theorem colorAt_full (A : Arena) (t : Table) (address : Nat) : shadowFull (colorAt A t address) :=
  (colorAt_isColor A t address).1

theorem poisonRegion_byte (ready : s.Ready) {address size : Nat}
    (room : address + size ≤ 2 ^ s.bits) (j : Nat) :
    (poisonRegion s address size).byte j =
      if address ≤ j * 16 ∧ j * 16 + 16 ≤ address + size then ShadowValue.user else s.byte j := by
  unfold poisonRegion
  dsimp only
  by_cases some : (address + 15) / 16 * 16 < (address + size) / 16 * 16
  · have inside : s.InWindow ((address + 15) / 16 * 16) :=
      (Shadow.inWindow_iff ready _).mpr (by omega)
    rw [if_pos some, Shadow.set_byte ready inside]
    refine if_congr ?_ rfl rfl
    omega
  · rw [if_neg some, if_neg (by omega)]

theorem unpoisonRegion_byte (ready : s.Ready) {start size : Nat} (some : size ≠ 0)
    (room : start + size ≤ 2 ^ s.bits) (j : Nat) :
    (unpoisonRegion A t s start size).byte j =
      if start / 16 ≤ j ∧ j < (start + size) / 16 then colorAt A t start
      else if j = (start + size) / 16 ∧ (start + size) % 16 ≠ 0 ∧
          (shadowPoison (s.byte j) ∨ ¬ shadowFull (s.byte j) ∧
            shadowBytes (s.byte j) < (start + size) % 16) then
        shadowPartialOf (colorAt A t start).toNat ((start + size) % 16)
      else s.byte j := by
  have inside : s.InWindow start := (Shadow.inWindow_iff ready _).mpr (by omega)
  have aligned : s.index (start / 16 * 16) = start / 16 := by
    rw [Shadow.index_eq_div ready (by omega)]
    omega
  have count : ((start + size) / 16 * 16 - start / 16 * 16) >>> 4 =
      (start + size) / 16 - start / 16 := by
    rw [Nat.shiftRight_eq_div_pow]
    omega
  have skipped : ¬ (size = 0 ∨ ¬ s.Ready ∨ ¬ s.InWindow start) := by
    rintro (empty | notReady | outside)
    · exact some empty
    · exact notReady ready
    · exact outside inside
  unfold unpoisonRegion
  dsimp only
  rw [if_neg skipped, count, aligned]
  -- the granules up to the last, in one run
  obtain ⟨s₁, whole, bits, mask, run⟩ : ∃ s₁ : Shadow,
      s₁ = (if start / 16 * 16 < (start + size) / 16 * 16 then
        s.memset (start / 16) (colorAt A t start) ((start + size) / 16 - start / 16) else s) ∧
      s₁.bits = s.bits ∧ s₁.mask = s.mask ∧
      ∀ i, s₁.byte i =
        if start / 16 ≤ i ∧ i < (start + size) / 16 then colorAt A t start else s.byte i := by
    refine ⟨_, rfl, ?_, ?_, fun i => ?_⟩
    · split <;> rfl
    · split <;> rfl
    · split
      · rw [Shadow.memset_byte]
        refine if_congr ?_ rfl rfl
        omega
      · rw [if_neg (by omega)]
  rw [← whole]
  have ready₁ : s₁.Ready := by
    rw [Shadow.Ready, mask]
    exact ready
  by_cases partly : (start + size) % 16 ≠ 0
  · have index : s₁.index (start + size) = (start + size) / 16 :=
      Shadow.index_eq_div ready₁ (by
        have multiple := Shadow.two_pow_bits ready
        rw [bits]
        omega)
    have last : s₁.of (start + size) = s.byte ((start + size) / 16) := by
      unfold Shadow.of
      rw [index, run, if_neg (by omega)]
    rw [last, index]
    by_cases raised : shadowPoison (s.byte ((start + size) / 16)) ∨
        ¬ shadowFull (s.byte ((start + size) / 16)) ∧
          shadowBytes (s.byte ((start + size) / 16)) < (start + size) % 16
    · rw [if_pos ⟨partly, raised⟩, Shadow.put_byte, run]
      by_cases here : j = (start + size) / 16
      · subst here
        rw [if_pos rfl, if_neg (by omega), if_pos ⟨rfl, partly, raised⟩]
      · rw [if_neg here]
        refine if_congr Iff.rfl rfl ?_
        rw [if_neg fun both => here both.1]
    · rw [if_neg fun both => raised both.2, run]
      refine if_congr Iff.rfl rfl ?_
      rw [if_neg]
      rintro ⟨rfl, -, raised'⟩
      exact raised raised'
  · rw [if_neg fun both => partly both.1, run]
    refine if_congr Iff.rfl rfl ?_
    rw [if_neg fun both => partly both.2.1]

/-- What `shadowLive` writes is a live object. -/
theorem exposed_live (ready : s.Ready) {page base size slot : Nat} (pages : 0 < page)
    (granule : 16 ∣ base) (slots : 16 ∣ slot) (room : base + max size slot < 2 ^ s.bits)
    {color : UInt8} (colored : IsColor color) :
    Exposed (s.live page base size slot color) base size := by
  have same := Shadow.sameWindow_live s page base size slot color
  have inside : ∀ b, base ≤ b → b ≤ base + max size slot → s.InWindow b := fun b above below =>
    (Shadow.inWindow_iff ready b).mpr (by omega)
  have byte (g : Nat) (own : g < (size + 15) / 16) :
      (s.live page base size slot color).byte (base / 16 + g) =
        (Shadow.objectByte page size ShadowValue.heapTail color g).getD
          (s.byte (base / 16 + g)) := by
    rw [Shadow.live_byte ready pages (Nat.mod_eq_zero_of_dvd granule) inside, if_neg (by omega),
      if_pos (by omega), Nat.add_sub_cancel_left]
  -- the color of a huge object is 0
  obtain ⟨own, plain, owned⟩ : ∃ own : UInt8,
      own = (if 4 * page ≤ size / 16 then 0 else color) ∧ IsColor own := by
    refine ⟨_, rfl, ?_⟩
    split
    · exact ⟨by decide, by decide⟩
    · exact colored
  refine ⟨same.ready ready, granule, ?_, fun j first last => ?_, fun partly => ?_⟩
  · rw [same.bits]
    have multiple := Shadow.two_pow_bits ready
    omega
  · have here := byte (j - base / 16) (by omega)
    unfold Shadow.objectByte at here
    dsimp only at here
    rw [← plain, if_pos (by omega), Nat.add_sub_cancel' first] at here
    rw [here]
    exact owned.1
  · have here := byte (size / 16) (by omega)
    unfold Shadow.objectByte at here
    dsimp only at here
    rw [← plain, if_neg (by omega), if_pos ⟨rfl, partly⟩] at here
    obtain ⟨notFull, notPoison, bytes⟩ :=
      shadowPartialOf_value owned.2 (show size % 16 < 16 by omega)
    rw [here]
    exact ⟨notPoison, notFull, bytes⟩

/-! ## Sequences of calls -/

/-- What calls inside the object leave of a shadow: every granule but the
object's whole ones, and those whole unless a call poisoned them. -/
structure Touched (s s' : Shadow) (base size : Nat) (calls : List UserCall) : Prop where
  window : Shadow.SameWindow s s'
  other : ∀ j, ¬ (base / 16 ≤ j ∧ j < base / 16 + size / 16) → s'.byte j = s.byte j
  whole : ∀ j, base / 16 ≤ j → j < base / 16 + size / 16 →
    shadowFull (s'.byte j) ∨ UserCall.Poisons calls j

section Touched

variable {base size : Nat} {calls : List UserCall}

theorem UserCall.Poisons.mono {calls' : List UserCall} {j : Nat} (poisons : Poisons calls j)
    (more : ∀ call ∈ calls, call ∈ calls') : Poisons calls' j := by
  obtain ⟨address, n, mem, first, last⟩ := poisons
  exact ⟨address, n, more _ mem, first, last⟩

theorem UserCall.sameWindow_run (A : Arena) (t : Table) (s : Shadow) (call : UserCall) :
    Shadow.SameWindow s (call.run A t s) := by
  cases call with
  | poison address n =>
      unfold run poisonRegion
      dsimp only
      split
      · exact Shadow.sameWindow_set _ _ _ _
      · exact .refl s
  | unpoison address n =>
      unfold run unpoisonRegion
      dsimp only
      repeat' split
      all_goals exact ⟨rfl, rfl⟩

theorem Touched.poison (A : Arena) (t : Table) (touched : Touched s s' base size calls) (exposed : Exposed s base size)
    {address n : Nat} (inside : (UserCall.poison address n).Inside base size) :
    Touched s (poisonRegion s' address n) base size (calls ++ [.poison address n]) := by
  obtain ⟨low, high⟩ := inside
  have granule := exposed.granule
  have room := exposed.room
  have within : address + n ≤ 2 ^ s'.bits := by
    rw [touched.window.bits]
    omega
  have byte := poisonRegion_byte (touched.window.ready exposed.ready) within
  refine ⟨touched.window.trans (UserCall.sameWindow_run A t s' (.poison address n)), ?_, ?_⟩
  · intro j out
    rw [byte, if_neg (by omega)]
    exact touched.other j out
  · intro j first last
    rw [byte]
    by_cases covered : address ≤ j * 16 ∧ j * 16 + 16 ≤ address + n
    · exact .inr ⟨address, n, List.mem_append_right _ (List.mem_singleton_self _), covered⟩
    · rw [if_neg covered]
      exact (touched.whole j first last).imp_right fun poisons =>
        poisons.mono fun call mem => List.mem_append_left _ mem

theorem Touched.unpoison (A : Arena) (t : Table) (touched : Touched s s' base size calls)
    (exposed : Exposed s base size) {start n : Nat}
    (inside : (UserCall.unpoison start n).Inside base size) :
    Touched s (unpoisonRegion A t s' start n) base size (calls ++ [.unpoison start n]) := by
  obtain ⟨low, high⟩ := inside
  have granule := exposed.granule
  have room := exposed.room
  have window := touched.window.trans (UserCall.sameWindow_run A t s' (.unpoison start n))
  have more {j : Nat} (poisons : UserCall.Poisons calls j) :
      UserCall.Poisons (calls ++ [.unpoison start n]) j :=
    poisons.mono fun call mem => List.mem_append_left _ mem
  by_cases none : n = 0
  · have same : unpoisonRegion A t s' start n = s' := by
      unfold unpoisonRegion
      exact if_pos (.inl none)
    rw [same]
    exact ⟨touched.window, touched.other, fun j first last =>
      (touched.whole j first last).imp_right more⟩
  have within : start + n ≤ 2 ^ s'.bits := by
    rw [touched.window.bits]
    omega
  have byte := @unpoisonRegion_byte A t s' (touched.window.ready exposed.ready) start n none within
  refine ⟨window, fun j out => ?_, fun j first last => ?_⟩
  · rw [byte, if_neg (by omega)]
    by_cases here : j = (start + n) / 16 ∧ (start + n) % 16 ≠ 0
    · -- the object's own partial granule has at least as many bytes
      obtain ⟨rfl, partly⟩ := here
      have own : (start + n) / 16 = base / 16 + size / 16 := by omega
      have rest := exposed.rest (by omega)
      have value := touched.other _ out
      rw [own] at out value ⊢
      rw [if_neg, value]
      rintro ⟨-, -, poison | ⟨-, fewer⟩⟩
      · rw [value] at poison
        exact rest.1 poison
      · rw [value, rest.2.2] at fewer
        omega
    · rw [if_neg fun both => here ⟨both.1, both.2.1⟩]
      exact touched.other j out
  · rw [byte]
    by_cases covered : start / 16 ≤ j ∧ j < (start + n) / 16
    · rw [if_pos covered]
      exact .inl (colorAt_full A t start)
    · rw [if_neg covered]
      rcases touched.whole j first last with full | poisons
      · rw [if_neg]
        · exact .inl full
        · rintro ⟨-, -, poison | ⟨partly, -⟩⟩
          · unfold shadowPoison at poison
            omega
          · exact partly full
      · exact .inr (more poisons)

theorem touched_runAll (A : Arena) (t : Table) (exposed : Exposed s base size)
    (inside : ∀ call ∈ calls, call.Inside base size) :
    Touched s (UserCall.runAll A t s calls) base size calls := by
  induction calls using List.reverseRecOn with
  | nil =>
      exact ⟨.refl s, fun j _ => rfl, fun j first last => .inl (exposed.whole j first last)⟩
  | append_singleton calls call inductionHypothesis =>
      have before := inductionHypothesis fun call mem => inside call (List.mem_append_left _ mem)
      have here := inside call (List.mem_append_right _ (List.mem_singleton_self _))
      unfold UserCall.runAll at before ⊢
      rw [List.foldl_append]
      cases call with
      | poison address n => exact before.poison A t exposed here
      | unpoison start n => exact before.unpoison A t exposed here

end Touched

/-! ## What is addressable -/

section Addressable

variable {base size : Nat} {calls : List UserCall} {b : Nat}

theorem Touched.same_addressable (touched : Touched s s' base size calls)
    (exposed : Exposed s base size) (user : b < 2 ^ s.bits)
    (out : ¬ (base / 16 ≤ b / 16 ∧ b / 16 < base / 16 + size / 16)) :
    Addressable ctx s' b ↔ Addressable ctx s b := by
  refine addressable_congr exposed.ready (touched.window.ready exposed.ready) user ?_
    (touched.other _ out)
  rw [touched.window.bits]
  exact user

/-- The last granule's bytes behind the object are no one's. -/
theorem Exposed.rest_addressable (exposed : Exposed s base size) (user : b < 2 ^ s.bits)
    (here : b / 16 = base / 16 + size / 16) (partly : size % 16 ≠ 0) :
    Addressable ctx s b ↔ b < base + size := by
  obtain ⟨clear, partial', count⟩ := exposed.rest partly
  have granule := exposed.granule
  rw [← here] at clear partial' count
  have fresh : s.byte (b / 16) ≠ ShadowValue.returned := by
    intro returned
    rw [returned] at clear
    exact clear (by decide)
  rw [addressable_iff exposed.ready user fresh, or_iff_right partial', and_iff_right clear, count]
  omega

/-- Where every whole granule is whole again, exactly the object's bytes are
addressable. -/
theorem Touched.object_addressable (touched : Touched s s' base size calls)
    (exposed : Exposed s base size)
    (whole : ∀ j, base / 16 ≤ j → j < base / 16 + size / 16 → shadowFull (s'.byte j))
    (first : base ≤ b) (last : b < base + (size + 15) / 16 * 16) :
    Addressable ctx s' b ↔ b < base + size := by
  have granule := exposed.granule
  have room := exposed.room
  by_cases own : b / 16 < base / 16 + size / 16
  · have full := whole (b / 16) (by omega) own
    have fresh : s'.byte (b / 16) ≠ ShadowValue.returned := by
      intro returned
      rw [returned] at full
      exact absurd full (by decide)
    have user : b < 2 ^ s'.bits := by
      rw [touched.window.bits]
      omega
    rw [addressable_iff (touched.window.ready exposed.ready) user fresh]
    exact iff_of_true (.inl full) (by omega)
  · rw [touched.same_addressable exposed (by omega) (by omega)]
    exact exposed.rest_addressable (by omega) (by omega) (by omega)

/-- A whole granule stays whole, and one that was poisoned becomes so. -/
theorem Touched.unpoison_full (A : Arena) (t : Table) (touched : Touched s s' base size calls)
    (exposed : Exposed s base size) {start n j : Nat}
    (inside : (UserCall.unpoison start n).Inside base size)
    (contains : ∀ address k, UserCall.poison address k ∈ calls → ∀ b, address ≤ b →
      b < address + k → start ≤ b ∧ b < start + n)
    (first : base / 16 ≤ j) (last : j < base / 16 + size / 16) :
    shadowFull ((unpoisonRegion A t s' start n).byte j) := by
  obtain ⟨low, high⟩ := inside
  have room := exposed.room
  have poisoned (poisons : UserCall.Poisons calls j) :
      start / 16 ≤ j ∧ j < (start + n) / 16 := by
    obtain ⟨address, k, mem, front, back⟩ := poisons
    have least := contains address k mem (j * 16) (by omega) (by omega)
    have greatest := contains address k mem (j * 16 + 15) (by omega) (by omega)
    omega
  by_cases none : n = 0
  · have same : unpoisonRegion A t s' start n = s' := by
      unfold unpoisonRegion
      exact if_pos (.inl none)
    rw [same]
    refine (touched.whole j first last).resolve_right fun poisons => ?_
    have covered := poisoned poisons
    omega
  · have within : start + n ≤ 2 ^ s'.bits := by
      rw [touched.window.bits]
      omega
    rw [unpoisonRegion_byte (touched.window.ready exposed.ready) none within]
    by_cases covered : start / 16 ≤ j ∧ j < (start + n) / 16
    · rw [if_pos covered]
      exact colorAt_full A t start
    · have full := (touched.whole j first last).resolve_right fun poisons =>
        covered (poisoned poisons)
      rw [if_neg covered, if_neg]
      · exact full
      · rintro ⟨-, -, poison | ⟨partly, -⟩⟩
        · unfold shadowPoison at poison
          omega
        · exact partly full

/-- Poisoning and unpoisoning ranges of a live object exposes no byte outside
it; a poisoned range's whole granules are unaddressable; and unpoisoning a range
that contains every poisoned one leaves exactly the object's bytes
addressable. -/
theorem user_poison_safe (ctx : Context) (A : Arena) (t : Table) (s : Shadow) (base size : Nat)
    (exposed : Exposed s base size) (calls : List UserCall)
    (inside : ∀ call ∈ calls, call.Inside base size) :
    (∀ b < 2 ^ s.bits, ¬ (base ≤ b ∧ b < base + size) →
      Addressable ctx (UserCall.runAll A t s calls) b → Addressable ctx s b) ∧
    (∀ address n, (UserCall.poison address n).Inside base size →
      ∀ j, address ≤ j * 16 → j * 16 + 16 ≤ address + n → ∀ b, b / 16 = j →
        ¬ Addressable ctx (UserCall.runAll A t s (calls ++ [.poison address n])) b) ∧
    (∀ start n, (UserCall.unpoison start n).Inside base size →
      (∀ address k, UserCall.poison address k ∈ calls → ∀ b, address ≤ b → b < address + k →
        start ≤ b ∧ b < start + n) →
      (∀ b, base ≤ b → b < base + (size + 15) / 16 * 16 →
        (Addressable ctx (UserCall.runAll A t s (calls ++ [.unpoison start n])) b ↔
          b < base + size)) ∧
      ∀ b < 2 ^ s.bits, ¬ (base ≤ b ∧ b < base + (size + 15) / 16 * 16) →
        (Addressable ctx (UserCall.runAll A t s (calls ++ [.unpoison start n])) b ↔
          Addressable ctx s b)) := by
  have granule := exposed.granule
  have room := exposed.room
  have touched := touched_runAll A t exposed inside
  refine ⟨fun b user out exposed' => ?_, fun address n within j first last b here => ?_,
    fun start n within contains => ?_⟩
  · by_cases partly : b / 16 = base / 16 + size / 16 ∧ size % 16 ≠ 0
    · rw [touched.same_addressable exposed user (by omega)] at exposed'
      exact exposed'
    · exact (touched.same_addressable exposed user (by omega)).mp exposed'
  · obtain ⟨low, high⟩ := within
    have bits := touched.window.bits
    have ready := touched.window.ready exposed.ready
    have after := touched.poison A t exposed ⟨low, high⟩
    have byte := @poisonRegion_byte _ ready address n (by rw [bits]; omega) (b / 16)
    rw [if_pos (by omega)] at byte
    unfold UserCall.runAll at byte after ⊢
    rw [List.foldl_append]
    change ¬ Addressable ctx (poisonRegion _ address n) b
    rw [addressable_iff (after.window.ready exposed.ready) (by rw [after.window.bits]; omega)
      (by rw [byte]; decide), byte]
    rintro (full | ⟨clear, -⟩)
    · exact absurd full (by decide)
    · exact absurd clear (by decide)
  · have after := touched.unpoison A t exposed within
    obtain ⟨low, high⟩ := within
    have whole : ∀ j, base / 16 ≤ j → j < base / 16 + size / 16 →
        shadowFull ((unpoisonRegion A t (UserCall.runAll A t s calls) start n).byte j) :=
      fun j first last => touched.unpoison_full A t exposed ⟨low, high⟩ contains first last
    unfold UserCall.runAll at after whole ⊢
    rw [List.foldl_append]
    exact ⟨fun b first last => after.object_addressable exposed whole first last,
      fun b user out => after.same_addressable exposed user (by omega)⟩

/-- An object of 100 bytes in a slot of 112. -/
def somewhere : Shadow := Shadow.clean.live 4096 0x80000000 100 112 (color 7)

theorem exposed_somewhere : Exposed somewhere 0x80000000 100 :=
  exposed_live (by decide) (by decide) (by decide) (by decide) (by decide) (isColor_color 7)

/-- Its first 50 bytes poisoned, and then all of it unpoisoned. -/
theorem user_poison_safe_somewhere :
    ¬ Addressable .bare (UserCall.runAll .sample (.initial .sample) somewhere
        [.poison 0x80000000 50]) 0x80000020 ∧
      Addressable .bare (UserCall.runAll .sample (.initial .sample) somewhere
        [.poison 0x80000000 50, .unpoison 0x80000000 100]) 0x80000020 := by
  have safe (calls : List UserCall) (inside : ∀ call ∈ calls, call.Inside 0x80000000 100) :=
    user_poison_safe .bare .sample (.initial .sample) somewhere 0x80000000 100 exposed_somewhere
      calls inside
  constructor
  · have poisoned := (safe [] (List.forall_mem_nil _)).2.1 0x80000000 50 ⟨by decide, by decide⟩
    exact poisoned (0x80000020 / 16) (by decide) (by decide) 0x80000020 rfl
  · have inside : ∀ call ∈ [UserCall.poison 0x80000000 50], call.Inside 0x80000000 100 := by
      intro call mem
      rw [List.mem_singleton.mp mem]
      exact ⟨by decide, by decide⟩
    have contains : ∀ address k, UserCall.poison address k ∈ [UserCall.poison 0x80000000 50] →
        ∀ b, address ≤ b → b < address + k → 0x80000000 ≤ b ∧ b < 0x80000000 + 100 := by
      intro address k mem b first last
      cases List.mem_singleton.mp mem
      omega
    have unpoisoned := (safe _ inside).2.2 0x80000000 100 ⟨by decide, by decide⟩ contains
    exact (unpoisoned.1 0x80000020 (by decide) (by decide)).mpr (by decide)

end Addressable

end WeaveC.Alloc
