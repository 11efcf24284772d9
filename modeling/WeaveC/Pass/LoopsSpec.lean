import WeaveC.Pass.Loops
import WeaveC.Pass.InlineSpec
import Mathlib.Data.Set.Basic

/-!
# The ranges of a loop cover its iterations

With no bound past 64 bits the hull of a range holds the bytes of every
iteration, so they pass where the hull does, except where the top byte of a
tagged address changes on the way.
-/

namespace WeaveC.Pass.Loops

open WeaveC.Library WeaveC.Runtime

theorem Bounds.test_fst (bounds : Bounds) (baseNotNull : Bool) (called : Bool × Shadow) :
    (bounds.test baseNotNull called).1 = true ↔
      bounds.overflow = false ∧ called.1 = true ∧ baseNotNull = true := by
  simp only [Bounds.test, Bool.and_eq_true, Bool.not_eq_true', and_assoc]

theorem Bounds.test_snd (bounds : Bounds) (baseNotNull : Bool) (called : Bool × Shadow) :
    (bounds.test baseNotNull called).2 = called.2 :=
  rfl

namespace Ranged

variable (range : Ranged) (entry : Env) (trips : BitVec 64)

/-! ## The hull of a range -/

/-- The bytes a range moves by in an iteration, and over the trip. -/
def magnitude : Nat := range.step.toInt.natAbs

def moved : Nat := trips.toNat * range.magnitude

def low : Nat :=
  if range.step.toInt < 0 then (range.start entry).toNat - range.moved trips
  else (range.start entry).toNat

def width : Nat := range.moved trips + (range.bytes entry).toNat

/-- The hull does not leave 64 bits. -/
def Fits : Prop :=
  if range.step.toInt < 0 then
    range.moved trips ≤ (range.start entry).toNat ∧
      (range.start entry).toNat + (range.bytes entry).toNat < 2 ^ 64
  else (range.start entry).toNat + range.width entry trips < 2 ^ 64

variable {range entry trips}

theorem slt_zero (step : BitVec 64) : step.slt 0#64 = decide (step.toInt < 0) := by
  rw [BitVec.slt_eq_decide]
  rfl

theorem magnitude_eq (step : BitVec 64) :
    (if step.slt 0#64 then 0#64 - step else step).toNat = step.toInt.natAbs := by
  have signed := BitVec.toInt_eq_toNat_cond step
  have bound := step.isLt
  rw [slt_zero]
  split_ifs at signed with small
  · rw [if_neg (by simp; omega)]
    omega
  · rw [if_pos (by simp; omega), BitVec.toNat_sub]
    have zero : (0#64).toNat = 0 := rfl
    omega

theorem product_eq (range : Ranged) (trips : BitVec 64) :
    trips.toNat * (if range.step.slt 0#64 then 0#64 - range.step else range.step).toNat =
      range.moved trips := by
  rw [magnitude_eq]
  rfl

theorem moved_zero {range : Ranged} (trips : BitVec 64) (still : range.step = 0#64) :
    range.moved trips = 0 := by
  unfold moved magnitude
  rw [still]
  exact Nat.mul_zero _

theorem moving_of_neg {range : Ranged} (down : range.step.toInt < 0) : range.step ≠ 0#64 := by
  intro zero
  rw [zero] at down
  exact absurd down (by decide)

/-- The three ways a range moves, by the tests the arithmetic makes. -/
theorem moves_cases (range : Ranged) (trips : BitVec 64) :
    (range.step.toInt < 0 ∧ range.step.slt 0#64 = true ∧ decide (range.step ≠ 0#64) = true) ∨
      (¬ range.step.toInt < 0 ∧ range.step.slt 0#64 = false ∧
        (decide (range.step ≠ 0#64) = true ∨
          decide (range.step ≠ 0#64) = false ∧ range.moved trips = 0)) := by
  rw [slt_zero]
  by_cases down : range.step.toInt < 0
  · exact .inl ⟨down, decide_eq_true down, decide_eq_true (moving_of_neg down)⟩
  · refine .inr ⟨down, decide_eq_false down, ?_⟩
    by_cases still : range.step = 0#64
    · exact .inr ⟨decide_eq_false (not_not.mpr still), moved_zero trips still⟩
    · exact .inl (decide_eq_true still)

theorem bounds_of_fits (fits : range.Fits entry trips) :
    (range.bounds entry trips).overflow = false ∧
      (range.bounds entry trips).low = range.low entry trips ∧
      ((range.bounds entry trips).high + 2 ^ 64 - (range.bounds entry trips).low) % 2 ^ 64 =
        range.width entry trips := by
  have start := (range.start entry).isLt
  have wide := (range.bytes entry).isLt
  unfold bounds
  simp only [product_eq]
  unfold Fits width at fits
  unfold low width
  rcases moves_cases range trips with ⟨down, signed, moves⟩ | ⟨up, signed, moves | ⟨still, zero⟩⟩
  · rw [if_pos down] at fits
    rw [if_pos down, signed, moves]
    generalize range.moved trips = moved at *
    simp only [Bool.not_true, Bool.and_false, Bool.false_eq_true, if_false, Bool.true_and, if_true,
      Bool.or_eq_false_iff, decide_eq_false_iff_not, Bool.false_and, Bool.or_false]
    omega
  · rw [if_neg up] at fits
    rw [if_neg up, signed, moves]
    generalize range.moved trips = moved at *
    simp only [Bool.not_false, Bool.and_false, Bool.false_eq_true, if_false, Bool.true_and, if_true,
      Bool.or_eq_false_iff, decide_eq_false_iff_not, Bool.false_and, Bool.or_false, Bool.and_true,
      true_and]
    omega
  · rw [if_neg up] at fits
    rw [if_neg up, signed, still, zero]
    simp only [Bool.false_and, Bool.false_eq_true, if_false, decide_eq_false_iff_not, Bool.or_false,
      Bool.false_or, true_and]
    omega

theorem bounds_of_not_fits (leaves : ¬ range.Fits entry trips) :
    (range.bounds entry trips).overflow = true := by
  have start := (range.start entry).isLt
  unfold bounds
  simp only [product_eq]
  unfold Fits width at leaves
  rcases moves_cases range trips with ⟨down, signed, moves⟩ | ⟨up, signed, moves | ⟨still, zero⟩⟩
  · rw [if_pos down] at leaves
    rw [signed, moves]
    generalize range.moved trips = moved at *
    simp only [Bool.not_true, Bool.and_false, Bool.false_eq_true, if_false, Bool.true_and,
      Bool.or_eq_true, decide_eq_true_eq, Bool.false_and, Bool.or_false]
    omega
  · rw [if_neg up] at leaves
    rw [signed, moves]
    generalize range.moved trips = moved at *
    simp only [Bool.not_false, Bool.and_false, if_true, Bool.true_and, Bool.or_eq_true,
      decide_eq_true_eq, Bool.false_and, Bool.or_false, Bool.and_true]
    omega
  · rw [if_neg up] at leaves
    rw [signed, still]
    simp only [Bool.false_and, Bool.false_eq_true, if_false, decide_eq_true_eq, Bool.or_false,
      Bool.false_or]
    omega

/-- The test of one range is that of its hull. -/
theorem rangeTest_iff (ctx : Context) (s : Shadow) :
    (rangeTest ctx entry trips s range).1 = true ↔
      range.Fits entry trips ∧ range.baseNotNull entry = true ∧
        unaddressable ctx s (reached ctx s (range.low entry trips)) (range.width entry trips) =
          ∅ := by
  unfold rangeTest
  simp only [Bounds.test_fst, rangeOk_iff]
  by_cases fits : range.Fits entry trips
  · obtain ⟨none, low, width⟩ := bounds_of_fits fits
    rw [none, width, low]
    simp only [fits, true_and]
    exact and_comm
  · rw [bounds_of_not_fits fits]
    simp [fits]

theorem rangeTest_settles (ctx : Context) (s : Shadow) :
    Settles ctx s (rangeTest ctx entry trips s range).2 := by
  unfold rangeTest
  rw [Bounds.test_snd]
  exact rangeOk_settles ctx s _ _

end Ranged

/-- The tests of all the ranges, each in the shadow it finds. -/
theorem rangesAddressable_iff (ctx : Context) (entry : Env) (trips : BitVec 64)
    (ranges : List Ranged) (s : Shadow) :
    (rangesAddressable ctx entry trips s ranges).1 = true ↔
      ∀ range ∈ ranges, range.Fits entry trips ∧ range.baseNotNull entry = true ∧
        unaddressable ctx s (reached ctx s (range.low entry trips)) (range.width entry trips) =
          ∅ := by
  induction ranges generalizing s with
  | nil => simp [rangesAddressable]
  | cons range ranges ih =>
    have same : Settles ctx s (rangeTest ctx entry trips s range).2 :=
      range.rangeTest_settles ctx s
    rw [rangesAddressable]
    dsimp only
    rw [Bool.and_eq_true, range.rangeTest_iff, ih, List.forall_mem_cons]
    simp only [same.unaddressable_reached]

/-! ## The iterations -/

/-- A run of a versioned loop: the environment before it, and that of each
iteration, of which what `ScalarEvolution` says is right. -/
structure Trip (evolution : ScalarEvolution) where
  entry : Env
  taken : BitVec 64
  iteration : Nat → Env
  markers : List Marker
  /-- The iterations that come to a guard. -/
  comesTo : Marker → Nat → Prop
  loopInvariant : ∀ v, evolution.isLoopInvariant v = true →
    ∀ k ≤ taken.toNat, iteration k v = entry v
  invariant : ∀ v value, evolution.getSCEV v = .invariant value →
    ∀ k ≤ taken.toNat, iteration k v = value entry
  recurrence : ∀ v start step, evolution.getSCEV v = .recurrence start (some step) true true →
    ∀ k ≤ taken.toNat, iteration k v = start entry + BitVec.ofNat 64 k * step

namespace Trip

variable {evolution : ScalarEvolution} (trip : Trip evolution)

/-- The guards the versioned loop is without. -/
def ranges : List Ranged := trip.markers.filterMap (rangeOf evolution)

end Trip

/-- What `rangeOf` finds of a marker. -/
theorem rangeOf_cases {evolution : ScalarEvolution} {marker : Marker} {range : Ranged}
    (found : rangeOf evolution marker = some range) :
    range.marker = marker ∧ range.nullBase = marker.tested ∧
      (∀ base, marker.tested = some base → evolution.isLoopInvariant base = true) ∧
      evolution.getSCEV marker.bytes = .invariant range.bytes ∧
      (evolution.getSCEV marker.pointer = .invariant range.start ∧ range.step = 0#64 ∨
        evolution.getSCEV marker.pointer = .recurrence range.start (some range.step) true true) := by
  unfold rangeOf at found
  split at found
  · cases found
  split at found
  · cases found
  · rename_i notVarying
    have fixed : ∀ base, marker.tested = some base → evolution.isLoopInvariant base = true := by
      intro base tested
      rw [tested] at notVarying
      simpa using notVarying
    split at found
    · rename_i bytes width
      split at found
      · rename_i start pointer
        cases found
        exact ⟨rfl, rfl, fixed, width, .inl ⟨pointer, rfl⟩⟩
      · rename_i start step pointer
        split at found
        · cases found
          exact ⟨rfl, rfl, fixed, width, .inr pointer⟩
        · cases found
      · cases found
    · cases found

theorem Marker.guard_passes (ctx : Context) (env : Env) (s : Shadow) (marker : Marker) :
    (marker.guard ctx env s).passes = true ↔
      (∀ base, marker.tested = some base → env base ≠ 0#64) ∧
        unaddressable ctx s (reached ctx s (env marker.pointer).toNat) (env marker.bytes).toNat =
          ∅ := by
  unfold guard
  dsimp only
  split_ifs with null ranged
  · have notNull := nullTest_eq_false.not.mp (Bool.not_eq_false _ ▸ null)
    exact iff_of_false (by simp) fun both => notNull both.1
  · rw [range_passes, and_iff_right (nullTest_eq_false.mp (Bool.eq_false_iff.mpr null))]
  · rw [guardSlow_passes, and_iff_right (nullTest_eq_false.mp (Bool.eq_false_iff.mpr null))]

/-- The code emitted for a guard passes where the guard does, whatever its
alignment. -/
theorem Marker.emitGuard_passes {ctx : Context} {env : Env} {s : Shadow} {marker : Marker}
    (ready : s.Ready) (access : marker.kind = .guard) (passes : (marker.guard ctx env s).passes = true)
    (little : Bool) (alignment : Align) :
    (emitGuard ctx env s little marker.pointer (env marker.bytes).toNat alignment marker.nullBase []
      none).passes = true := by
  rw [guard_passes, ← guardSlow_passes, tested, if_pos access, ← nullTest_eq_false] at passes
  obtain ⟨notNull, slow⟩ := passes
  by_cases nonempty : (env marker.bytes).toNat = 0
  · rw [emitGuard, if_pos nonempty]
    rfl
  by_cases one : OneGranule (env marker.bytes).toNat alignment
  · rw [emitGuard_oneGranule one, emitOneGranule]
    dsimp only
    rw [notNull]
    split
    · rfl
    · rw [if_neg Bool.false_ne_true]
      split
      · exact slow
      · rfl
  · exact (emitGuard_plain ready nonempty one).mpr ⟨fun _ => notNull, slow⟩

namespace Trip

variable {evolution : ScalarEvolution} (trip : Trip evolution) (ctx : Context)

/-- An iteration that would come to a guard that was removed. -/
structure Removed (range : Ranged) (k : Nat) : Prop where
  ranged : range ∈ trip.ranges
  iterates : k ≤ trip.taken.toNat
  comes : trip.comesTo range.marker k

/-- Where the test is true, every removed guard would have passed. -/
def Sound : Prop :=
  ∀ s, (versioned ctx trip.entry trip.taken s trip.ranges).1 = true →
    ∀ s', Settles ctx (versioned ctx trip.entry trip.taken s trip.ranges).2 s' →
      ∀ range k, trip.Removed range k →
        (range.marker.guard ctx (trip.iteration k) s').passes = true

/-- What the test asks but of the shadow. -/
def Tested : Prop :=
  MinTrip - 1 ≤ trip.taken.toNat ∧
    ∀ range ∈ trip.ranges,
      range.Fits trip.entry trip.taken ∧ range.baseNotNull trip.entry = true

/-- The bytes of the guard in an iteration that the hardware reaches. -/
def Reaches (range : Ranged) (k b : Nat) : Prop :=
  Decides ctx (trip.iteration k range.marker.pointer).toNat
    (trip.iteration k range.marker.bytes).toNat b

/-- The bytes that are addressable when the hull of the range is: its own, and
those before it in its first granule. -/
def Covers (range : Ranged) (b : Nat) : Prop :=
  let low := hardware ctx (range.low trip.entry trip.taken)
  let width := range.width trip.entry trip.taken
  0 < width ∧ low / 16 * 16 ≤ b ∧ b < low + width

/-- When the test can be true, the hulls cover what the guards reach. -/
def Covered : Prop :=
  trip.Tested → ∀ range k, trip.Removed range k → ∀ b < 2 ^ 56, trip.Reaches ctx range k b →
    ∃ hull ∈ trip.ranges, trip.Covers ctx hull b

variable {trip ctx}

theorem versioned_iff (s : Shadow) :
    (versioned ctx trip.entry trip.taken s trip.ranges).1 = true ↔
      trip.Tested ∧ ∀ range ∈ trip.ranges,
        unaddressable ctx s (reached ctx s (range.low trip.entry trip.taken))
          (range.width trip.entry trip.taken) = ∅ := by
  unfold versioned Tested
  split
  · exact iff_of_false Bool.false_ne_true fun both => by omega
  · rw [rangesAddressable_iff]
    constructor
    · intro all
      refine ⟨⟨by omega, ?_⟩, ?_⟩
      · intro range mem
        exact ⟨(all range mem).1, (all range mem).2.1⟩
      · intro range mem
        exact (all range mem).2.2
    · rintro ⟨⟨-, each⟩, hulls⟩ range mem
      exact ⟨(each range mem).1, (each range mem).2, hulls range mem⟩

theorem versioned_settles (s : Shadow) :
    Settles ctx s (versioned ctx trip.entry trip.taken s trip.ranges).2 := by
  unfold versioned
  split
  · exact Settles.refl ctx s
  · generalize trip.ranges = ranges
    induction ranges generalizing s with
    | nil => exact Settles.refl ctx s
    | cons range ranges ih =>
      rw [rangesAddressable]
      exact (range.rangeTest_settles ctx s).trans (ih _)

/-- The base of a removed guard, which is the same in every iteration. -/
theorem Removed.notNull {range : Ranged} {k : Nat} (removed : trip.Removed range k)
    (notNull : range.baseNotNull trip.entry = true) :
    ∀ base, range.marker.tested = some base → trip.iteration k base ≠ 0#64 := by
  obtain ⟨marker, -, found⟩ := List.mem_filterMap.mp removed.ranged
  obtain ⟨rfl, null, fixed, -⟩ := rangeOf_cases found
  intro base tested
  rw [trip.loopInvariant base (fixed base tested) k removed.iterates]
  rw [Ranged.baseNotNull, null, tested] at notNull
  exact of_decide_eq_true notNull

/-- A hull that is addressable makes what it covers so. -/
theorem Covers.addressable {s : Shadow} (ready : s.Ready) {hull : Ranged} {b : Nat}
    (covers : trip.Covers ctx hull b) (inside : b < 2 ^ s.bits)
    (empty : unaddressable ctx s (reached ctx s (hull.low trip.entry trip.taken))
      (hull.width trip.entry trip.taken) = ∅) :
    Addressable ctx s b := by
  have all := (unaddressable_reached_empty ready).mp empty
  obtain ⟨wide, above, below⟩ := covers
  unfold Decides at all
  have granule := Shadow.two_pow_bits ready
  generalize hardware ctx (hull.low trip.entry trip.taken) = low at *
  by_cases inHull : low ≤ b
  · exact all b ⟨inHull, below⟩ inside
  · have first : Addressable ctx s low := all low ⟨Nat.le_refl _, by omega⟩ (by omega)
    exact first.before (by omega) (by omega)

theorem sound_of_covered (covered : trip.Covered ctx) : trip.Sound ctx := by
  intro s true' s' same range k removed
  obtain ⟨tested, hulls⟩ := (versioned_iff s).mp true'
  have settles := (versioned_settles s).trans same
  rw [Marker.guard_passes]
  refine ⟨removed.notNull (tested.2 range removed.ranged).2, ?_⟩
  rw [settles.unaddressable_reached]
  by_cases ready : s.Ready
  · rw [unaddressable_reached_empty ready]
    intro b reaches inside
    have narrow : 2 ^ s.bits ≤ 2 ^ 56 := Nat.pow_le_pow_right (by decide) ready.bounds.2.2
    obtain ⟨hull, mem, covers⟩ := covered tested range k removed b (by omega) reaches
    exact covers.addressable ready inside (hulls hull mem)
  · exact unaddressable_empty fun isReady => absurd isReady ready

/-- Where no hull covers a byte, the test is true with that byte poisoned. -/
theorem stopsAt_versioned {b : Nat} (tested : trip.Tested)
    (apart : ¬ ∃ hull ∈ trip.ranges, trip.Covers ctx hull b) :
    (versioned ctx trip.entry trip.taken (stopsAt b) trip.ranges).1 = true := by
  refine (versioned_iff _).mpr ⟨tested, fun hull mem => ?_⟩
  rw [unaddressable_reached_empty (stopsAt_ready b)]
  intro c decides inside
  rw [stopsAt_addressable ctx inside]
  rintro ⟨granule, after⟩
  refine apart ⟨hull, mem, ?_⟩
  unfold Decides at decides
  unfold Covers
  dsimp only
  omega

theorem covered_of_sound (sound : trip.Sound ctx) : trip.Covered ctx := by
  intro tested range k removed b inside reaches
  by_contra apart
  have passes := sound (stopsAt b) (stopsAt_versioned tested apart) _ (Settles.refl _ _) range k
    removed
  rw [Marker.guard_passes, (versioned_settles _).unaddressable_reached,
    unaddressable_reached_empty (stopsAt_ready b)] at passes
  exact (stopsAt_addressable ctx inside).mp (passes.2 b reaches inside) ⟨rfl, Nat.le_refl _⟩

/-- The address of an iteration, the bounds of the trip being in 64 bits. -/
theorem iteration_toNat (start step : BitVec 64) (k : Nat)
    (low : 0 ≤ (start.toNat : Int) + k * step.toInt)
    (high : (start.toNat : Int) + k * step.toInt < 2 ^ 64) :
    ((start + BitVec.ofNat 64 k * step).toNat : Int) = start.toNat + k * step.toInt := by
  have address : start + BitVec.ofNat 64 k * step =
      BitVec.ofInt 64 ((start.toNat : Int) + k * step.toInt) := by
    rw [BitVec.ofInt_add, BitVec.ofInt_mul, BitVec.ofInt_natCast, BitVec.ofInt_natCast,
      BitVec.ofInt_toInt, BitVec.ofNat_toNat, BitVec.setWidth_eq]
  rw [address, BitVec.toNat_ofInt, Int.emod_eq_of_lt low (by exact_mod_cast high)]
  exact Int.toNat_of_nonneg low

/-- An iteration moves by no more than the trip. -/
theorem moved_le (range : Ranged) {trips : BitVec 64} {k : Nat} (iterates : k ≤ trips.toNat) :
    (range.step.toInt < 0 → -(range.moved trips : Int) ≤ k * range.step.toInt ∧
      (k : Int) * range.step.toInt ≤ 0) ∧
    (¬ range.step.toInt < 0 → 0 ≤ (k : Int) * range.step.toInt ∧
      (k : Int) * range.step.toInt ≤ range.moved trips) := by
  have most : k * range.magnitude ≤ range.moved trips := Nat.mul_le_mul_right _ iterates
  unfold Ranged.magnitude at most
  constructor
  · intro down
    have size : (range.step.toInt.natAbs : Int) = -range.step.toInt := by omega
    have cast : ((k * range.step.toInt.natAbs : Nat) : Int) = -(k * range.step.toInt) := by
      rw [Nat.cast_mul, size, mul_neg]
    omega
  · intro up
    have size : (range.step.toInt.natAbs : Int) = range.step.toInt := by omega
    have cast : ((k * range.step.toInt.natAbs : Nat) : Int) = k * range.step.toInt := by
      rw [Nat.cast_mul, size]
    omega

/-- The bytes of every iteration are in the hull. -/
theorem Removed.inHull {range : Ranged} {k : Nat} (removed : trip.Removed range k)
    (fits : range.Fits trip.entry trip.taken) :
    range.low trip.entry trip.taken ≤ (trip.iteration k range.marker.pointer).toNat ∧
      (trip.iteration k range.marker.pointer).toNat +
          (trip.iteration k range.marker.bytes).toNat ≤
        range.low trip.entry trip.taken + range.width trip.entry trip.taken := by
  obtain ⟨marker, -, found⟩ := List.mem_filterMap.mp removed.ranged
  obtain ⟨rfl, -, -, bytes, pointer⟩ := rangeOf_cases found
  rw [trip.invariant _ _ bytes k removed.iterates]
  have start := (range.start trip.entry).isLt
  have moves := moved_le range removed.iterates
  unfold Ranged.Fits Ranged.width at fits
  unfold Ranged.low Ranged.width
  rcases pointer with ⟨fixed, still⟩ | moving
  · rw [trip.invariant _ _ fixed k removed.iterates]
    have zero := Ranged.moved_zero trip.taken still
    split <;> omega
  · rw [trip.recurrence _ _ _ moving k removed.iterates]
    have address := iteration_toNat (range.start trip.entry) range.step k
    split_ifs at fits ⊢ with down
    · have at' := moves.1 down
      have exact' := address (by omega) (by omega)
      omega
    · have at' := moves.2 down
      have exact' := address (by omega) (by omega)
      omega

variable (trip ctx) in
/-- No hull crosses a multiple of `2 ^ 56`, or the hardware reads the top byte. -/
def OneTop : Prop :=
  ctx.aarch64 = true → ∀ range ∈ trip.ranges,
    range.low trip.entry trip.taken % 2 ^ 56 + range.width trip.entry trip.taken ≤ 2 ^ 56

theorem covered_of_oneTop (top : trip.OneTop ctx) : trip.Covered ctx := by
  intro tested range k removed b inside reaches
  refine ⟨range, removed.ranged, ?_⟩
  obtain ⟨above, below⟩ := removed.inHull (tested.2 range removed.ranged).1
  unfold Reaches Decides hardware at reaches
  unfold Covers hardware
  dsimp only
  by_cases arm : ctx.aarch64 = true
  · have stays := top arm range removed.ranged
    rw [if_pos arm] at reaches ⊢
    omega
  · rw [if_neg arm] at reaches ⊢
    omega

/-! A store of 8 bytes that moves down by 16, but with the next top byte. -/

def farStep : BitVec 64 := 0xFFFFFFFFFFFFF0#64

def farEvolution : ScalarEvolution where
  getSCEV
    | 1 => .recurrence (fun env => env 1) (some farStep) true true
    | 2 => .invariant fun env => env 2
    | _ => .other
  isLoopInvariant _ := false

def farMarker : Marker := ⟨.guard, 1, 2, false, none⟩

def farEntry : Env
  | 1 => 0x1000#64
  | _ => 8#64

def farIteration (k : Nat) : Env
  | 1 => farEntry 1 + BitVec.ofNat 64 k * farStep
  | v => farEntry v

def farTrip : Trip farEvolution where
  entry := farEntry
  taken := 15#64
  iteration := farIteration
  markers := [farMarker]
  comesTo _ _ := True
  loopInvariant := by
    intro v fixed
    cases fixed
  invariant := by
    intro v value known k _
    unfold farEvolution at known
    dsimp only at known
    split at known
    · cases known
    · cases known
      rw [farIteration]
      decide
    · cases known
  recurrence := by
    intro v start step known k _
    unfold farEvolution at known
    dsimp only at known
    split at known
    · cases known
      rw [farIteration]
    · cases known
    · cases known

def farRange : Ranged := ⟨farMarker, fun env => env 1, farStep, fun env => env 2, none⟩

def arm : Context := { quiet with aarch64 := true }

theorem farTrip_ranges : farTrip.ranges = [farRange] := rfl

end Trip

end WeaveC.Pass.Loops
