import WeaveC.Alloc.Moves
import Mathlib.Tactic.Ring

/-!
# What a region's growth writes

A region's slots are committed in chunks, and a chunk's granules are poisoned
when its first slot is handed out.  A refused commit of the slot words leaves a
chunk committed that nothing poisons.
-/

namespace WeaveC.Alloc

open WeaveC.Runtime

variable {A : Arena} {region : Nat} {R R' R'' : Region} {s s' s'' : Shadow}

/-! ## Where a region lies -/

namespace Arena

theorem regionBytes_eq (A : Arena) : A.regionBytes = 2 ^ A.shift := by
  unfold regionBytes
  rw [Nat.shiftLeft_eq, Nat.one_mul]

theorem regionStart_eq (A : Arena) (region : Nat) :
    A.regionStart region = A.base + region * A.regionBytes := by
  unfold regionStart
  rw [Nat.shiftLeft_eq, regionBytes_eq]

theorem bytes_eq (A : Arena) : A.bytes = RegionCount * A.regionBytes := by
  unfold bytes
  rw [Nat.shiftLeft_eq, regionBytes_eq]

theorem granules (A : Arena) : 16 ∣ A.base ∧ 16 ∣ A.regionBytes ∧ 64 * 1024 ≤ A.regionBytes := by
  rw [regionBytes_eq]
  have divides : 16 ∣ 2 ^ A.shift := by
    rcases A.width with width | width <;> rw [width] <;> decide
  refine ⟨divides.trans A.aligned, divides, ?_⟩
  rcases A.width with width | width <;> rw [width] <;> decide

/-- A region lies in the arena, and the arena in the window. -/
theorem region_inside (A : Arena) (below : region < RegionCount) :
    16 ≤ A.regionStart region ∧ 16 ∣ A.regionStart region ∧
      A.base ≤ A.regionStart region ∧
        A.regionStart region + A.regionBytes ≤ A.base + A.bytes ∧ A.base + A.bytes < 2 ^ A.bits := by
  obtain ⟨base, bytes, -⟩ := A.granules
  have room : region * A.regionBytes + A.regionBytes ≤ RegionCount * A.regionBytes :=
    calc region * A.regionBytes + A.regionBytes = (region + 1) * A.regionBytes := by ring
      _ ≤ RegionCount * A.regionBytes := Nat.mul_le_mul_right _ below
  have inside := A.inside
  rw [← regionBytes_eq] at inside
  have above := A.above
  have whole : 16 ∣ region * A.regionBytes := bytes.mul_left region
  rw [regionStart_eq, bytes_eq]
  exact ⟨by omega, Nat.dvd_add base whole, by omega, by omega, inside⟩

end Arena

/-! ## One slot -/

/-- What a region's committed memory keeps to. -/
structure Region.Bounded (A : Arena) (R : Region) : Prop where
  whole : R.entry.capacity * R.entry.size ≤ A.regionBytes
  committed : R.committed ≤ A.regionBytes
  chunks : DataChunk ∣ R.committed

theorem Region.Bounded.grow (bounded : R.Bounded A) {grant : Nat → Bool} {committed : Nat}
    (room : R.bump < R.entry.capacity)
    (data : commit A grant (A.regionStart region) R.committed ((R.bump + 1) * R.entry.size)
      DataChunk A.regionBytes = some committed) :
    R.committed ≤ committed ∧ committed ≤ A.regionBytes ∧ DataChunk ∣ committed := by
  have grown := commit_spec data bounded.chunks (arena_committed A) bounded.committed
    ((Nat.mul_le_mul_right _ room).trans bounded.whole)
  exact ⟨grown.1, grown.2.2.1, grown.2.2.2⟩

/-- A slot that a refused commit of the slot words keeps back, after one of its
bytes that made more memory accessible. -/
def TornSlot (A : Arena) (grant : Nat → Bool) (region : Nat) (R : Region) : Prop :=
  R.freeHead = 0 ∧ R.bump < R.entry.capacity ∧
    (∃ committed ∈ commit A grant (A.regionStart region) R.committed ((R.bump + 1) * R.entry.size)
      DataChunk A.regionBytes, committed ≠ R.committed) ∧
    commit A grant (A.wordStart region) R.metaCommitted ((R.bump + 1) * 4) MetaChunk
      (A.regionBytes >>> 2) = none

instance (A : Arena) (grant : Nat → Bool) (region : Nat) (R : Region) :
    Decidable (TornSlot A grant region R) :=
  inferInstanceAs (Decidable (_ ∧ _ ∧ (∃ _ ∈ _, _) ∧ _))

/-- What a region's growth leaves alone: its words, and the shadow but for the
granules it made accessible and the one before the region. -/
structure Grown (A : Arena) (region : Nat) (R R' : Region) (s s' : Shadow) : Prop where
  entry : R'.entry = R.entry
  words : R'.words = R.words
  bounded : R'.Bounded A
  more : R.committed ≤ R'.committed
  window : Shadow.SameWindow s s'
  frame : ∀ j, s'.byte j = s.byte j ∨ s'.byte j = ShadowValue.heapTail ∧
    ((A.regionStart region + R.committed) / 16 ≤ j ∧
        j < (A.regionStart region + R'.committed) / 16 ∨
      j + 1 = A.regionStart region / 16)

/-- The granules made accessible are poison, and so is the one before a region
that had none. -/
structure Poisoned (A : Arena) (region : Nat) (R R' : Region) (s' : Shadow) : Prop where
  fresh : R.entry.size ≤ Shadow.tailLimit → ∀ j, (A.regionStart region + R.committed) / 16 ≤ j →
    j < (A.regionStart region + R'.committed) / 16 → s'.byte j = ShadowValue.heapTail
  first : R.committed = 0 → 0 < R'.committed → ∀ j, j + 1 = A.regionStart region / 16 →
    s'.byte j = ShadowValue.heapTail

theorem Grown.refl (bounded : R.Bounded A) : Grown A region R R s s :=
  ⟨rfl, rfl, bounded, Nat.le_refl _, .refl s, fun _ => .inl rfl⟩

theorem Grown.trans (first : Grown A region R R' s s') (second : Grown A region R' R'' s' s'') :
    Grown A region R R'' s s'' := by
  refine
    { entry := second.entry.trans first.entry
      words := second.words.trans first.words
      bounded := second.bounded
      more := first.more.trans second.more
      window := first.window.trans second.window
      frame := fun j => ?_ }
  have more := first.more
  have more' := second.more
  rcases second.frame j with same | ⟨tail, there⟩
  · rcases first.frame j with same' | ⟨tail, there⟩
    · exact .inl (same.trans same')
    · exact .inr ⟨same.trans tail, by omega⟩
  · exact .inr ⟨tail, by omega⟩

theorem Poisoned.refl : Poisoned A region R R s := by
  constructor
  · intro _ j above below
    exact absurd below (Nat.not_lt.mpr above)
  · intro none some
    exact absurd none (Nat.ne_of_gt some)

theorem Poisoned.trans (first : Poisoned A region R R' s')
    (grown : Grown A region R R' s s') (grown' : Grown A region R' R'' s' s'')
    (second : Poisoned A region R' R'' s'') : Poisoned A region R R'' s'' := by
  constructor
  · intro small j above below
    by_cases later : (A.regionStart region + R'.committed) / 16 ≤ j
    · exact second.fresh (grown.entry ▸ small) j later below
    · have tail := first.fresh small j above (Nat.not_le.mp later)
      rcases grown'.frame j with same | ⟨tail', -⟩
      · exact same.trans tail
      · exact tail'
  · intro none some j before
    by_cases still : R'.committed = 0
    · exact second.first still some j before
    · have tail := first.first none (Nat.pos_of_ne_zero still) j before
      rcases grown'.frame j with same | ⟨tail', -⟩
      · exact same.trans tail
      · exact tail'

/-! ## The shadow of a chunk -/

/-- The window a shadow must have for the arena. -/
structure Arena.Window (A : Arena) (s : Shadow) : Prop where
  bits : s.bits = A.bits
  ready : s.Ready

theorem Arena.Window.mono (window : A.Window s) (same : Shadow.SameWindow s s') : A.Window s' :=
  ⟨same.bits.trans window.bits, same.ready window.ready⟩

theorem Arena.Window.inWindow (window : A.Window s) {b : Nat} (below : b < 2 ^ A.bits) :
    s.InWindow b := by
  rw [Shadow.inWindow_iff window.ready, window.bits]
  exact below

/-- A chunk's granules, of a class of large slots the first 64 KiB. -/
theorem fresh_byte (window : A.Window s) (below : region < RegionCount) (n : Nat)
    {before committed : Nat} (inside : committed ≤ A.regionBytes) (j : Nat) :
    (if before < committed then s.set (A.regionStart region + before) n ShadowValue.heapTail
      else s).byte j =
      if before < committed ∧ (A.regionStart region + before) / 16 ≤ j ∧
          j < (A.regionStart region + before) / 16 + (n + 15) / 16 then ShadowValue.heapTail
      else s.byte j := by
  obtain ⟨-, -, -, room, fits⟩ := A.region_inside below
  by_cases grown : before < committed
  · have here : s.InWindow (A.regionStart region + before) := window.inWindow (by omega)
    rw [if_pos grown, Shadow.set_byte window.ready here]
    simp only [grown, true_and]
  · rw [if_neg grown, if_neg fun both => grown both.1]

theorem sameWindow_fresh (A : Arena) (region n before committed : Nat) (s : Shadow) :
    Shadow.SameWindow s
      (if before < committed then s.set (A.regionStart region + before) n ShadowValue.heapTail
        else s) := by
  split
  · exact Shadow.sameWindow_set _ _ _ _
  · exact .refl s

theorem sameWindow_poisonFresh (A : Arena) (region : Nat) (entry : Class) (before committed : Nat)
    (s : Shadow) : Shadow.SameWindow s (poisonFresh A region entry before committed s) := by
  have first := sameWindow_fresh A region
    (if entry.size ≤ Shadow.tailLimit then committed - before else Shadow.tailLimit) before
    committed s
  unfold poisonFresh
  dsimp only
  split
  · exact first.trans (Shadow.sameWindow_set _ _ _ _)
  · exact first

/-- How much of a chunk is poisoned. -/
def freshBytes (entry : Class) (before committed : Nat) : Nat :=
  if entry.size ≤ Shadow.tailLimit then committed - before else Shadow.tailLimit

/-- A chunk's granules and, when it is the region's first, the one before the
region. -/
theorem poisonFresh_byte (window : A.Window s) (below : region < RegionCount) (entry : Class)
    {before committed : Nat} (inside : committed ≤ A.regionBytes) (j : Nat) :
    (poisonFresh A region entry before committed s).byte j =
      if before = 0 ∧ j + 1 = A.regionStart region / 16 then ShadowValue.heapTail
      else if before < committed ∧ (A.regionStart region + before) / 16 ≤ j ∧
          j < (A.regionStart region + before) / 16 + (freshBytes entry before committed + 15) / 16
        then ShadowValue.heapTail
      else s.byte j := by
  obtain ⟨above, granule, -, room, fits⟩ := A.region_inside below
  have byte := @fresh_byte A region s window below (freshBytes entry before committed) before
    committed inside j
  have same := sameWindow_fresh A region (freshBytes entry before committed) before committed s
  change (if before = 0 then
      (if before < committed then s.set (A.regionStart region + before)
        (freshBytes entry before committed) ShadowValue.heapTail else s).set _ 16 _
    else if before < committed then s.set (A.regionStart region + before)
        (freshBytes entry before committed) ShadowValue.heapTail else s).byte j = _
  by_cases first : before = 0
  · have here : s.InWindow (A.regionStart region - 16) := window.inWindow (by omega)
    rw [if_pos first, Shadow.set_byte (same.ready window.ready) ((same.inWindow _).mpr here), byte]
    have place : (A.regionStart region - 16) / 16 ≤ j ∧
        j < (A.regionStart region - 16) / 16 + (16 + 15) / 16 ↔
          before = 0 ∧ j + 1 = A.regionStart region / 16 := by omega
    simp only [place]
  · have other : ¬ (before = 0 ∧ j + 1 = A.regionStart region / 16) := fun both => first both.1
    rw [if_neg first, byte, if_neg other]

/-- What `popSlot` leaves alone. -/
theorem popSlot_grown (window : A.Window s) (below : region < RegionCount) (bounded : R.Bounded A)
    (grant : Nat → Bool) :
    Grown A region R (popSlot A grant region R s).2.1 s (popSlot A grant region R s).2.2 := by
  have pops := popSlot_pops A grant region R s
  generalize popSlot A grant region R s = result at pops ⊢
  cases pops with
  | listed listed =>
      exact ⟨rfl, rfl, ⟨bounded.whole, bounded.committed, bounded.chunks⟩, Nat.le_refl _, .refl s,
        fun _ => .inl rfl⟩
  | nothing grant committed cause =>
      have kept : R.committed ≤ committed ∧ committed ≤ A.regionBytes ∧ DataChunk ∣ committed := by
        rcases cause with rfl | ⟨room, data⟩
        · exact ⟨Nat.le_refl _, bounded.committed, bounded.chunks⟩
        · exact bounded.grow room data
      exact ⟨rfl, rfl, ⟨bounded.whole, kept.2.1, kept.2.2⟩, kept.1, .refl s, fun _ => .inl rfl⟩
  | fresh grant committed metaCommitted room data =>
      obtain ⟨more, short, chunks⟩ := bounded.grow room data
      obtain ⟨-, granule, -, -, -⟩ := A.region_inside below
      refine ⟨rfl, rfl, ⟨bounded.whole, short, chunks⟩, more, sameWindow_poisonFresh _ _ _ _ _ _,
        fun j => ?_⟩
      -- a chunk is longer than the 64 KiB of a large slot's
      have chunk : R.committed < committed →
          freshBytes R.entry R.committed committed ≤ committed - R.committed := by
        intro grown
        have least := Nat.le_of_dvd (by omega) (Nat.dvd_sub chunks bounded.chunks)
        unfold DataChunk at least
        unfold freshBytes Shadow.tailLimit
        split <;> omega
      have whole : 16 ∣ committed := (show 16 ∣ DataChunk by decide).trans chunks
      have whole' : 16 ∣ R.committed := (show 16 ∣ DataChunk by decide).trans bounded.chunks
      have byte := @poisonFresh_byte A region s window below R.entry R.committed committed short j
      change (poisonFresh A region R.entry R.committed committed s).byte j = s.byte j ∨
        (poisonFresh A region R.entry R.committed committed s).byte j = _ ∧
          (_ ∧ j < (A.regionStart region + committed) / 16 ∨ _)
      rw [byte]
      split_ifs with first here
      · exact .inr ⟨rfl, .inr first.2⟩
      · have bound := chunk here.1
        exact .inr ⟨rfl, .inl ⟨here.2.1, by omega⟩⟩
      · exact .inl rfl

/-- Unless a commit of the slot words was refused after one of the slot's bytes,
what `popSlot` made accessible is poison. -/
theorem popSlot_poisoned (window : A.Window s) (below : region < RegionCount)
    (bounded : R.Bounded A) {grant : Nat → Bool} (whole : ¬ TornSlot A grant region R) :
    Poisoned A region R (popSlot A grant region R s).2.1 (popSlot A grant region R s).2.2 := by
  obtain ⟨-, granule, -, -, -⟩ := A.region_inside below
  unfold popSlot
  by_cases listed : R.freeHead ≠ 0
  · rw [if_pos listed]
    exact ⟨fun _ j above under => absurd under (Nat.not_lt.mpr above),
      fun none some => absurd none (Nat.ne_of_gt some)⟩
  · rw [if_neg listed]
    dsimp only
    by_cases full : R.entry.capacity ≤ R.bump
    · rw [if_pos full]
      exact .refl
    · rw [if_neg full]
      have room : R.bump < R.entry.capacity := Nat.not_le.mp full
      cases data : commit A grant (A.regionStart region) R.committed
          ((R.bump + 1) * R.entry.size) DataChunk A.regionBytes with
      | none => exact .refl
      | some committed =>
          obtain ⟨more, short, chunks⟩ := bounded.grow room data
          dsimp only
          cases words : commit A grant (A.wordStart region) R.metaCommitted ((R.bump + 1) * 4)
              MetaChunk (A.regionBytes >>> 2) with
          | none =>
              have same : committed = R.committed := by
                by_contra grown
                exact whole ⟨not_not.mp listed, room, ⟨committed, data, grown⟩, words⟩
              subst same
              exact .refl
          | some metaCommitted =>
              have byte := @poisonFresh_byte A region s window below R.entry R.committed committed
                short
              have chunk : 16 ∣ committed := (show 16 ∣ DataChunk by decide).trans chunks
              have chunk' : 16 ∣ R.committed :=
                (show 16 ∣ DataChunk by decide).trans bounded.chunks
              constructor
              · intro small j above under
                change j < (A.regionStart region + committed) / 16 at under
                have all : freshBytes R.entry R.committed committed = committed - R.committed :=
                  if_pos small
                change (poisonFresh A region R.entry R.committed committed s).byte j = _
                rw [byte, all]
                split_ifs with first here
                · rfl
                · rfl
                · exact absurd ⟨by omega, above, by omega⟩ here
              · intro none some j before
                change (poisonFresh A region R.entry R.committed committed s).byte j = _
                rw [byte, if_pos ⟨none, before⟩]

/-- A failed `popSlot` leaves the region as it was, so that a later one poisons
what it makes accessible, unless it was torn. -/
theorem popSlot_failed_iff {grant : Nat → Bool} (failed : (popSlot A grant region R s).1 = none) :
    (popSlot A grant region R s).2 = (R, s) ↔ ¬ TornSlot A grant region R := by
  unfold popSlot at failed ⊢
  by_cases listed : R.freeHead ≠ 0
  · rw [if_pos listed] at failed
    cases failed
  · rw [if_neg listed] at failed ⊢
    dsimp only at failed ⊢
    by_cases full : R.entry.capacity ≤ R.bump
    · rw [if_pos full]
      exact iff_of_true rfl fun torn => absurd full (Nat.not_le.mpr torn.2.1)
    · rw [if_neg full] at failed ⊢
      cases data : commit A grant (A.regionStart region) R.committed
          ((R.bump + 1) * R.entry.size) DataChunk A.regionBytes with
      | none =>
          refine iff_of_true rfl fun torn => ?_
          obtain ⟨committed, mem, -⟩ := torn.2.2.1
          rw [data] at mem
          cases mem
      | some committed =>
          rw [data] at failed
          dsimp only at failed ⊢
          cases words : commit A grant (A.wordStart region) R.metaCommitted ((R.bump + 1) * 4)
              MetaChunk (A.regionBytes >>> 2) with
          | none =>
              constructor
              · intro same torn
                obtain ⟨committed', mem, grown⟩ := torn.2.2.1
                rw [data] at mem
                obtain rfl := Option.some.inj mem
                exact grown (congrArg Region.committed (Prod.mk.inj same).1)
              · intro whole
                have same : committed = R.committed := by
                  by_contra grown
                  exact whole
                    ⟨not_not.mp listed, Nat.not_le.mp full, ⟨committed, data, grown⟩, words⟩
                rw [same]
          | some metaCommitted =>
              rw [words] at failed
              cases failed

/-! ## Several slots -/

/-- The last slot of a loop of `popSlot` is torn. -/
def Torn (A : Arena) (grant : Nat → Bool) (region : Nat) : Nat → Region → Shadow → Prop
  | 0, _, _ => False
  | want + 1, R, s =>
      TornSlot A grant region R ∨
        (popSlot A grant region R s).1.isSome = true ∧
          Torn A grant region want (popSlot A grant region R s).2.1
            (popSlot A grant region R s).2.2

/-- Whether the loop of `popSlot` tears is computed. -/
instance decidableTorn (A : Arena) (grant : Nat → Bool) (region : Nat) :
    (want : Nat) → (R : Region) → (s : Shadow) → Decidable (Torn A grant region want R s)
  | 0, _, _ => inferInstanceAs (Decidable False)
  | want + 1, R, s =>
      have := decidableTorn A grant region want (popSlot A grant region R s).2.1
        (popSlot A grant region R s).2.2
      inferInstanceAs (Decidable (_ ∨ _ ∧ _))

theorem popRegion_succ (A : Arena) (grant : Nat → Bool) (region want : Nat) (R : Region)
    (s : Shadow) :
    (popRegion A grant region (want + 1) R s).2 =
      if (popSlot A grant region R s).1.isSome = true then
        (popRegion A grant region want (popSlot A grant region R s).2.1
          (popSlot A grant region R s).2.2).2
      else (popSlot A grant region R s).2 := by
  conv_lhs => unfold popRegion
  rcases popSlot A grant region R s with ⟨_ | e, R', s'⟩ <;> rfl

theorem popRegion_grown (window : A.Window s) (below : region < RegionCount) (bounded : R.Bounded A)
    (grant : Nat → Bool) (want : Nat) :
    Grown A region R (popRegion A grant region want R s).2.1 s
      (popRegion A grant region want R s).2.2 := by
  induction want generalizing R s with
  | zero => exact .refl bounded
  | succ want ih =>
      have first := popSlot_grown window below bounded grant
      rw [popRegion_succ]
      split
      · exact first.trans (ih (window.mono first.window) first.bounded)
      · exact first

theorem popRegion_poisoned (window : A.Window s) (below : region < RegionCount)
    (bounded : R.Bounded A) {grant : Nat → Bool} {want : Nat}
    (whole : ¬ Torn A grant region want R s) :
    Poisoned A region R (popRegion A grant region want R s).2.1
      (popRegion A grant region want R s).2.2 := by
  induction want generalizing R s with
  | zero => exact .refl
  | succ want ih =>
      obtain ⟨here, rest⟩ := not_or.mp whole
      have first := popSlot_grown window below bounded grant
      have poison := popSlot_poisoned window below bounded here
      rw [popRegion_succ]
      split
      · rename_i more
        have next := window.mono first.window
        exact poison.trans first (popRegion_grown next below first.bounded grant want)
          (ih next first.bounded fun torn => rest ⟨more, torn⟩)
      · exact poison

end WeaveC.Alloc
