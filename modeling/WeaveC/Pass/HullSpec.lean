import WeaveC.Pass.InlineSpec
import WeaveC.Runtime.Decided

/-!
# The guard of a hull

The code emitted for a guard of alignment 1 tests the granules of its bytes at
the address the shadow gives them, whatever window the address is of, and calls
its slow path where the tests fail.
-/

namespace WeaveC.Pass

open WeaveC.Library WeaveC.Runtime

variable {ctx : Context} {env : Env} {s : Shadow}

/-! ## The tests of the emitted code -/

/-- Two whole granules from the first one's byte on. -/
def PairWhole (s : Shadow) (address : Nat) : Prop :=
  ∀ j < 2, shadowFull (s.byte (s.index address + j))

/-- The exact test of at most two granules. -/
def TwoEnd (s : Shadow) (address width : Nat) : Prop :=
  let last := (address + (width - 1)) % 2 ^ 64
  ¬ (address / 16 ≠ last / 16 ∧ negative (s.of address)) ∧ EndsIn (s.of last) (last % 16)

/-- Whether the emitted tests of a hull let a run through. -/
def Quick (s : Shadow) (little : Bool) (address width : Nat) : Prop :=
  if width ≤ 16 then little = true ∧ width ≠ 1 ∧ PairWhole s address ∨ TwoEnd s address width
  else ChunkEnd s address width

open Classical in
/-- A form whose tests let a run through where `ok` holds. -/
theorem form_eq {fast null : Bool} {exact ok : Prop} [Decidable exact] {slow : Outcome}
    {r : Report} (tests : ok ↔ fast = false ∨ ¬ exact) :
    (if ¬ (fast || null) = true then Except.ok s else if null = true then .error r
      else if exact then slow else .ok s) =
      if null = true then .error r else if ok then .ok s else slow := by
  cases null with
  | true => simp
  | false =>
    cases fast with
    | false => simp [tests]
    | true =>
      by_cases bad : exact
      · simp [bad, tests]
      · simp [bad, tests]

theorem oneGranule_of_one {width : Nat} (one : OneGranule width ⟨0⟩) : width = 1 := by
  obtain ⟨-, nonempty, -, aligned⟩ := one
  have value : Align.value ⟨0⟩ = 1 := rfl
  omega

open Classical in
theorem emitOneGranule_hull {address : Nat} (small : address < 2 ^ 64) (nullBase : Option Value)
    (members : List Member) (little : Bool) :
    emitOneGranule ctx env s address 1 nullBase members none =
      if nullTest env nullBase = true then .error ⟨.nullDereference, address, 0⟩
      else if Quick s little address 1 then .ok s
      else slowGuard ctx env s address 1 members := by
  have low : address &&& 15 = address % 16 := Nat.and_two_pow_sub_one_eq_mod address 4
  have last : (address % 16 + (1 - 1)) % 2 ^ 8 = address % 16 := by omega
  unfold emitOneGranule
  simp only [low, last, nullInCheck, Bool.not_false, Bool.and_true]
  apply form_eq
  unfold Quick TwoEnd EndsIn
  have same : (address + (1 - 1)) % 2 ^ 64 = address := by omega
  rw [if_pos (by omega)]
  simp only [same, ne_eq, not_true_eq_false, false_and, not_false_eq_true, true_and, and_false,
    false_or, decide_eq_false_iff_not, not_and_or]

open Classical in
theorem emitTwoGranules_hull {address width : Nat} (little : Bool) (short : width ≤ 16)
    (wide : width ≠ 1) (null : Bool) (members : List Member) :
    emitTwoGranules ctx env s little address width null members =
      if null = true then .error ⟨.nullDereference, address, 0⟩
      else if Quick s little address width then .ok s
      else slowGuard ctx env s address width members := by
  have low (x : Nat) : x &&& 15 = x % 16 := Nat.and_two_pow_sub_one_eq_mod x 4
  unfold emitTwoGranules
  simp only [low, crosses_iff]
  apply form_eq
  unfold Quick
  rw [if_pos short]
  have exactly : TwoEnd s address width ↔ ¬ (address / 16 ≠ (address + (width - 1)) % 2 ^ 64 / 16 ∧
      negative (s.of address) ∨ negative (s.of ((address + (width - 1)) % 2 ^ 64)) ∧
        endsPast (s.of ((address + (width - 1)) % 2 ^ 64))
          ((address + (width - 1)) % 2 ^ 64 % 16)) :=
    not_or.symm
  rw [exactly]
  cases little with
  | true =>
    have pair := loadLE_and_signBits s.byte (s.index address) 2 2
    simp only [true_and, ne_eq, wide, not_false_eq_true, if_true, decide_eq_false_iff_not, not_not]
    refine or_congr_left ?_
    rw [← signBits_two, pair]
    unfold PairWhole
    exact ⟨fun all j below _ => all j below, fun all j below => all j below below⟩
  | false =>
    simp only [Bool.false_eq_true, false_and, false_or, if_false, decide_eq_false_iff_not]
    refine ⟨.inr, ?_⟩
    rintro (whole | exact)
    · obtain ⟨first, last⟩ := full_of_or whole
      rintro (⟨-, sign⟩ | ⟨sign, -⟩)
      · exact not_negative.mpr first sign
      · exact not_negative.mpr last sign
    · exact exact

open Classical in
theorem chunkCheck_hull {address width : Nat} (long : 16 < width) (short : width ≤ 113)
    (little : Bool) (nullBase : Option Value) (members : List Member) :
    chunkCheck s address width true (nullReport env address nullBase)
        (slowGuard ctx env s address width members) =
      if nullTest env nullBase = true then .error ⟨.nullDereference, address, 0⟩
      else if Quick s little address width then .ok s
      else slowGuard ctx env s address width members := by
  have quick : Quick s little address width ↔ ChunkEnd s address width := by
    rw [Quick, if_neg (by omega)]
  rw [chunkCheck_eq (by omega) short, nullReport]
  simp only [quick]
  cases nullTest env nullBase with
  | true => rfl
  | false => rfl

open Classical in
/-- The code emitted for a hull whose guard is inline. -/
theorem emitGuard_hull {little : Bool} {pointer : Value} {width : Nat} {nullBase : Option Value}
    {members : List Member} (tested : NullTested little width) :
    emitGuard ctx env s little pointer width ⟨0⟩ nullBase members none =
      if nullTest env nullBase = true then .error ⟨.nullDereference, (env pointer).toNat, 0⟩
      else if Quick s little (env pointer).toNat width then .ok s
      else slowGuard ctx env s (env pointer).toNat width members := by
  obtain ⟨nonempty, short, order⟩ := tested
  have inlined : ¬ (113 < width ∨ little = false ∧ 16 < width) := by
    rcases order with rfl | small
    · simp only [Bool.true_eq_false, false_and, or_false]
      omega
    · omega
  simp only [emitGuard, if_neg nonempty, bind, Except.bind, if_neg inlined]
  by_cases one : OneGranule width ⟨0⟩
  · cases oneGranule_of_one one
    rw [if_pos one]
    exact emitOneGranule_hull (env pointer).isLt nullBase members little
  · rw [if_neg one]
    have wide : width ≠ 1 := by
      rintro rfl
      exact one (by decide)
    split
    · exact emitTwoGranules_hull little (by assumption) wide _ members
    · exact chunkCheck_hull (by omega) short little nullBase members

/-! ## The bytes a hull covers -/

/-- The bytes the tests of a hull say something of, with those before them in
the first granule.  The last granule of a pair is found by its own address,
which may be that of the window's start. -/
def HullCovers (little : Bool) (address width b : Nat) : Prop :=
  let first := address % 2 ^ 56
  width ≠ 0 ∧ (first / 16 * 16 ≤ b ∧ b < first + width ∨
    little = false ∧ width ≤ 16 ∧ b + 2 ^ 56 < first + width)

theorem index_after (ready : s.Ready) (address d : Nat) :
    s.index ((address + d) % 2 ^ 64) = (address % 2 ^ 56 + d) / 16 % 2 ^ (s.bits - 4) := by
  have bounds := ready.bounds
  have fits : 2 ^ (s.bits - 4) ∣ 2 ^ 52 := Nat.pow_dvd_pow 2 (by omega)
  rw [Shadow.index_eq_mod ready]
  generalize 2 ^ (s.bits - 4) = granules at *
  calc (address + d) % 2 ^ 64 / 16 % granules
      = (address + d) % 2 ^ 64 / 16 % 2 ^ 52 % granules := (Nat.mod_mod_of_dvd _ fits).symm
    _ = (address % 2 ^ 56 + d) / 16 % 2 ^ 52 % granules := by
        congr 1
        omega
    _ = (address % 2 ^ 56 + d) / 16 % granules := Nat.mod_mod_of_dvd _ fits

theorem index_first (ready : s.Ready) (address : Nat) :
    s.index address = address % 2 ^ 56 / 16 % 2 ^ (s.bits - 4) := by
  have bounds := ready.bounds
  have fits : 2 ^ (s.bits - 4) ∣ 2 ^ 52 := Nat.pow_dvd_pow 2 (by omega)
  rw [Shadow.index_eq_mod ready]
  generalize 2 ^ (s.bits - 4) = granules at *
  calc address / 16 % granules = address / 16 % 2 ^ 52 % granules :=
        (Nat.mod_mod_of_dvd _ fits).symm
    _ = address % 2 ^ 56 / 16 % granules := by
        congr 1
        omega

theorem index_hardware (ctx : Context) (ready : s.Ready) (address : Nat) :
    s.index (hardware ctx address) = s.index address := by
  have same : hardware ctx address % 2 ^ 56 = address % 2 ^ 56 := hardware_mod ctx address
  rw [index_first ready, index_first ready, same]

theorem addressable_of_whole (ready : s.Ready) {b : Nat} (inside : b < 2 ^ s.bits)
    (whole : shadowFull (s.byte (b / 16))) : Addressable ctx s b := by
  have byte : s.of (b / 16 * 16) = s.byte (b / 16) := by
    rw [Shadow.of, Shadow.index_eq_div ready (by omega), Nat.mul_div_cancel _ (by decide)]
  refine addressable_of_full ?_
  rw [settled_of_full]
  · rw [byte]
    exact whole
  · rw [byte]
    exact whole

theorem addressable_of_end (ready : s.Ready) {b last : Nat} (inside : b < 2 ^ s.bits)
    (ends : EndsIn (s.byte (b / 16)) last) (before : b % 16 ≤ last) : Addressable ctx s b := by
  have byte : s.of (b / 16 * 16) = s.byte (b / 16) := by
    rw [Shadow.of, Shadow.index_eq_div ready (by omega), Nat.mul_div_cancel _ (by decide)]
  have kept := not_returned ends
  rcases holds_last ends with whole | ⟨notPoison, some⟩
  · exact addressable_of_whole ready inside whole
  · have same : settled ctx s (b / 16 * 16) = s.byte (b / 16) := by
      rw [settled_eq, byte, if_neg fun both => kept both.1]
    unfold Addressable
    rw [same]
    exact .inr ⟨notPoison, by omega⟩

theorem twoEnd_covers (ready : s.Ready) {little : Bool} {address width b : Nat}
    (short : width ≤ 16) (ends : TwoEnd s address width)
    (covers : HullCovers little address width b) (inside : b < 2 ^ s.bits) :
    Addressable ctx s b := by
  have bounds := ready.bounds
  have granule := Shadow.two_pow_bits ready
  have first := index_first ready address
  have second := index_after ready address (width - 1)
  have fits : 2 ^ (s.bits - 4) ∣ 2 ^ 52 := Nat.pow_dvd_pow 2 (by omega)
  obtain ⟨nonempty, covers⟩ := covers
  obtain ⟨crosses, tail⟩ := ends
  rw [Shadow.of] at crosses tail
  by_cases wrapped : b + 2 ^ 56 < address % 2 ^ 56 + width
  · -- the last granule is the window's first
    have start : (address % 2 ^ 56 + (width - 1)) / 16 = 2 ^ 52 := by omega
    rw [start, Nat.mod_eq_zero_of_dvd fits] at second
    rw [second] at tail
    have zero : b / 16 = 0 := by omega
    rw [← zero] at tail
    exact addressable_of_end ready inside tail (by omega)
  · have within : address % 2 ^ 56 / 16 * 16 ≤ b ∧ b < address % 2 ^ 56 + width := by
      rcases covers with here | ⟨-, -, far⟩
      · exact here
      · exact absurd far wrapped
    by_cases same : b / 16 = address % 2 ^ 56 / 16
    · rw [Nat.mod_eq_of_lt (by omega), ← same] at first
      by_cases split : address / 16 = (address + (width - 1)) % 2 ^ 64 / 16
      · have equal : (address % 2 ^ 56 + (width - 1)) / 16 = b / 16 := by omega
        rw [second, equal, Nat.mod_eq_of_lt (show b / 16 < 2 ^ (s.bits - 4) by omega)] at tail
        exact addressable_of_end ready inside tail (by omega)
      · refine addressable_of_whole ready inside (not_negative.mp fun sign => ?_)
        rw [← first] at sign
        exact crosses ⟨split, sign⟩
    · have equal : (address % 2 ^ 56 + (width - 1)) / 16 = b / 16 := by omega
      rw [second, equal, Nat.mod_eq_of_lt (show b / 16 < 2 ^ (s.bits - 4) by omega)] at tail
      exact addressable_of_end ready inside tail (by omega)

theorem chunkEnd_covers (ready : s.Ready) {little : Bool} {address width b : Nat}
    (long : 16 < width) (ends : ChunkEnd s address width)
    (covers : HullCovers little address width b) (inside : b < 2 ^ s.bits) :
    Addressable ctx s b := by
  have granule := Shadow.two_pow_bits ready
  have first := index_first ready address
  obtain ⟨-, here | ⟨-, short, -⟩⟩ := covers
  · rw [Nat.mod_eq_of_lt (by omega)] at first
    obtain ⟨whole, tail⟩ := ends
    rw [first] at whole tail
    obtain ⟨j, equal⟩ : ∃ j, b / 16 = address % 2 ^ 56 / 16 + j :=
      ⟨b / 16 - address % 2 ^ 56 / 16, by omega⟩
    by_cases last : j < (address % 16 + width - 1) / 16
    · refine addressable_of_whole ready inside ?_
      rw [equal]
      exact whole j last
    · have ending : j = (address % 16 + width - 1) / 16 := by omega
      rw [← ending, ← equal] at tail
      exact addressable_of_end ready inside tail (by omega)
  · omega

/-- Where the tests let a run through, the bytes of the hull are addressable. -/
theorem Quick.covers (ready : s.Ready) {little : Bool} {address width b : Nat}
    (quick : Quick s little address width) (covers : HullCovers little address width b)
    (inside : b < 2 ^ s.bits) : Addressable ctx s b := by
  unfold Quick at quick
  split at quick
  · rename_i short
    rcases quick with ⟨rfl, -, whole⟩ | ends
    · have granule := Shadow.two_pow_bits ready
      have first := index_first ready address
      obtain ⟨-, here | ⟨big, -, -⟩⟩ := covers
      · rw [Nat.mod_eq_of_lt (by omega)] at first
        refine addressable_of_whole ready inside ?_
        have found := whole (b / 16 - address % 2 ^ 56 / 16) (by omega)
        rwa [first, Nat.add_sub_cancel' (by omega)] at found
      · cases big
    · exact twoEnd_covers ready short ends covers inside
  · exact chunkEnd_covers ready (by omega) quick covers inside

/-! ## A shadow for one byte -/

theorem stopsAt_whole {b i : Nat} (apart : i ≠ b / 16) : shadowFull ((stopsAt b).byte i) := by
  show shadowFull (if i = b / 16 then _ else _)
  rw [if_neg apart]
  decide

theorem stopsAt_end {b last : Nat} (before : last < b % 16) :
    EndsIn ((stopsAt b).byte (b / 16)) last := by
  have value : (stopsAt b).byte (b / 16) = shadowPartialOf 0 (b % 16) := by
    show (if b / 16 = b / 16 then if b % 16 = 0 then _ else _ else _) = _
    rw [if_pos rfl, if_neg (by omega)]
  obtain ⟨-, notPoison, bytes, -⟩ :=
    partialOf_zero (show b % 16 < 16 by omega)
  rw [value]
  rintro ⟨-, poison | short⟩
  · exact notPoison poison
  · rw [← shadowBytes, bytes] at short
    omega

/-- A granule of an access that ends before `b`. -/
theorem stopsAt_ends {b i last : Nat} (before : i = b / 16 → last < b % 16) :
    EndsIn ((stopsAt b).byte i) last := by
  by_cases here : i = b / 16
  · subst here
    exact stopsAt_end (before rfl)
  · exact fun both => not_negative.mpr (stopsAt_whole here) both.1

theorem quick_stopsAt {little : Bool} {address width b : Nat} (small : address < 2 ^ 64)
    (nonempty : width ≠ 0) (inside : b < 2 ^ 56) (apart : ¬ HullCovers little address width b) :
    Quick (stopsAt b) little address width := by
  have ready := stopsAt_ready b
  have granules : (stopsAt b).bits - 4 = 52 := rfl
  have first := index_first ready address
  have second := index_after ready address (width - 1)
  rw [granules] at first second
  unfold HullCovers at apart
  dsimp only at apart
  unfold Quick
  split
  · rename_i short
    by_cases wraps : address % 2 ^ 56 + (width - 1) < 2 ^ 56
    · right
      refine ⟨fun both => ?_, ?_⟩
      · rw [Shadow.of, first] at both
        exact not_negative.mpr (stopsAt_whole (by omega)) both.2
      · rw [Shadow.of, second]
        exact stopsAt_ends (by omega)
    · cases little with
      | true =>
        refine .inl ⟨rfl, by omega, fun j below => ?_⟩
        rw [first]
        exact stopsAt_whole (by omega)
      | false =>
        have notFar : ¬ b + 2 ^ 56 < address % 2 ^ 56 + width :=
          fun far => apart ⟨nonempty, .inr ⟨rfl, short, far⟩⟩
        right
        refine ⟨fun both => ?_, ?_⟩
        · rw [Shadow.of, first] at both
          exact not_negative.mpr (stopsAt_whole (by omega)) both.2
        · rw [Shadow.of, second]
          exact stopsAt_ends (by omega)
  · refine ⟨fun j below => ?_, ?_⟩
    · rw [first]
      exact stopsAt_whole (by omega)
    · rw [first]
      exact stopsAt_ends (by omega)

/-! ## A guard on its own -/

theorem form_error {fast null : Bool} {exact : Prop} [Decidable exact] {slow : Outcome}
    {r r' : Report}
    (stopped : (if ¬ (fast || null) = true then Except.ok s else if null = true then .error r
      else if exact then slow else .ok s) = .error r') :
    null = true ∧ r = r' ∨ null = false ∧ slow = .error r' := by
  cases null with
  | true =>
    simp only [Bool.or_true, not_true_eq_false, if_false, if_true, Except.error.injEq] at stopped
    exact .inl ⟨rfl, stopped⟩
  | false =>
    refine .inr ⟨rfl, ?_⟩
    split at stopped
    · cases stopped
    · rw [if_neg Bool.false_ne_true] at stopped
      split at stopped
      · exact stopped
      · cases stopped

theorem range_error {address n : Nat} {r : Report} (stopped : range ctx s address n = .error r) :
    guardSlow ctx s address n = .error r := by
  unfold range at stopped
  split at stopped
  · cases stopped
  · unfold guardSlow
    generalize firstUnaddressable ctx s address n = found at *
    rcases found with ⟨_ | ⟨bad, v⟩, s'⟩
    · cases stopped
    · exact stopped

theorem emitGuard_null {little : Bool} {pointer : Value} {width : Nat} {alignment : Align}
    {nullBase : Option Value} {members : List Member} (tested : NullTested little width)
    (null : nullTest env nullBase = true) :
    emitGuard ctx env s little pointer width alignment nullBase members none =
      .error ⟨.nullDereference, (env pointer).toNat, 0⟩ := by
  obtain ⟨nonempty, short, order⟩ := tested
  have inlined : ¬ (113 < width ∨ little = false ∧ 16 < width) := by
    rcases order with rfl | small
    · simp only [Bool.true_eq_false, false_and, or_false]
      omega
    · omega
  simp only [emitGuard, if_neg nonempty, bind, Except.bind, if_neg inlined, null]
  split
  · unfold emitOneGranule
    simp only [null, nullInCheck, Bool.not_false, Bool.and_true, Bool.or_true, not_true_eq_false,
      if_false, if_true]
  · split
    · unfold emitTwoGranules
      simp only [Bool.or_true, not_true_eq_false, if_false, if_true]
    · rw [chunkCheck_eq nonempty short, nullReport, if_pos null]

/-- What the code emitted for one guard reports is its null test's or its check's. -/
theorem emitGuard_error {little : Bool} {pointer : Value} {width : Nat} {alignment : Align}
    {nullBase : Option Value} {r : Report}
    (stopped : emitGuard ctx env s little pointer width alignment nullBase [] none = .error r) :
    NullTested little width ∧ nullTest env nullBase = true ∧
        r = ⟨.nullDereference, (env pointer).toNat, 0⟩ ∨
      (NullTested little width → nullTest env nullBase = false) ∧
        guardSlow ctx s (env pointer).toNat width = .error r := by
  unfold emitGuard at stopped
  dsimp only at stopped
  split at stopped
  · cases stopped
  · rename_i nonempty
    simp only [bind, Except.bind, if_true] at stopped
    split at stopped
    · rename_i long
      refine .inr ⟨fun tested => ?_, range_error stopped⟩
      obtain ⟨-, short, order⟩ := tested
      rcases long with far | ⟨big, far⟩
      · omega
      · rcases order with little' | short'
        · rw [big] at little'
          cases little'
        · omega
    · rename_i inlined
      have tested : NullTested little width := by
        refine ⟨nonempty, by omega, ?_⟩
        cases little with
        | true => exact .inl rfl
        | false => exact .inr (Nat.le_of_not_lt fun far => inlined (.inr ⟨rfl, far⟩))
      have either : nullTest env nullBase = true ∧
            (⟨.nullDereference, (env pointer).toNat, 0⟩ : Report) = r ∨
          nullTest env nullBase = false ∧ guardSlow ctx s (env pointer).toNat width = .error r := by
        split at stopped
        · unfold emitOneGranule at stopped
          simp only [nullInCheck, Bool.not_false, Bool.and_true, slowGuard_nil] at stopped
          exact form_error stopped
        · split at stopped
          · exact form_error stopped
          · rw [chunkCheck_eq nonempty (by omega), nullReport, slowGuard_nil] at stopped
            cases null : nullTest env nullBase with
            | true =>
                rw [if_pos null] at stopped
                cases stopped
                exact .inl ⟨rfl, rfl⟩
            | false =>
                rw [if_neg (by rw [null]; exact Bool.false_ne_true)] at stopped
                dsimp only at stopped
                split at stopped
                · cases stopped
                · exact .inr ⟨rfl, stopped⟩
      rcases either with ⟨null, same⟩ | ⟨notNull, slow⟩
      · exact .inl ⟨tested, null, same.symm⟩
      · exact .inr ⟨fun _ => notNull, slow⟩

/-- The bytes that are addressable where a guard on its own passes: its own,
those before them in the first granule, and of the one-granule form no others
than the first granule's. -/
def OwnCovers (ctx : Context) (address width : Nat) (alignment : Align) (b : Nat) : Prop :=
  let first := hardware ctx address
  first / 16 * 16 ≤ b ∧ b < first + width ∧ width ≠ 0 ∧
    (OneGranule width alignment → b / 16 = first / 16)

theorem addressable_of_hull (ready : s.Ready) {address width b : Nat}
    (passes : (guardSlow ctx s address width).passes = true)
    (low : hardware ctx address / 16 * 16 ≤ b) (high : b < hardware ctx address + width)
    (nonempty : width ≠ 0) (inside : b < 2 ^ s.bits) : Addressable ctx s b := by
  have granule := Shadow.two_pow_bits ready
  rw [guardSlow_passes, unaddressable_reached_empty ready] at passes
  by_cases after : hardware ctx address ≤ b
  · exact passes b ⟨after, high⟩ inside
  · have first := passes _ ⟨Nat.le_refl _, by omega⟩ (by omega)
    exact first.before (by omega) (by omega)

theorem emitGuard_covers (ready : s.Ready) {little : Bool} {pointer : Value} {width : Nat}
    {alignment : Align} {nullBase : Option Value} {b : Nat}
    (passes : (emitGuard ctx env s little pointer width alignment nullBase [] none).passes = true)
    (covers : OwnCovers ctx (env pointer).toNat width alignment b) (inside : b < 2 ^ s.bits) :
    Addressable ctx s b := by
  obtain ⟨low, high, nonempty, one'⟩ := covers
  by_cases one : OneGranule width alignment
  · rw [emitGuard_oneGranule one] at passes
    rcases emitOneGranule_ok passes with slow | ends
    · exact addressable_of_hull ready slow low high nonempty inside
    · have granule := Shadow.two_pow_bits ready
      have offset := hardware_mod ctx (env pointer).toNat
      have same := one' one
      have first : s.index (env pointer).toNat = b / 16 := by
        rw [← index_hardware ctx ready, Shadow.index_eq_div ready (by omega), same]
      have short := one.1
      rw [Shadow.of, first] at ends
      exact addressable_of_end ready inside ends (by omega)
  · exact addressable_of_hull ready ((emitGuard_plain ready nonempty one).mp passes).2 low high
      nonempty inside

theorem emitGuard_stopsAt {little : Bool} {pointer : Value} {width : Nat} {alignment : Align}
    {nullBase : Option Value} {b : Nat}
    (notNull : NullTested little width → nullTest env nullBase = false)
    (apart : ¬ OwnCovers ctx (env pointer).toNat width alignment b) :
    (emitGuard ctx env (stopsAt b) little pointer width alignment nullBase [] none).passes =
      true := by
  have ready := stopsAt_ready b
  by_cases nonempty : width = 0
  · rw [emitGuard, if_pos nonempty]
    rfl
  by_cases slow : (guardSlow ctx (stopsAt b) (env pointer).toNat width).passes = true
  · cases result : emitGuard ctx env (stopsAt b) little pointer width alignment nullBase [] none with
    | ok s' => rfl
    | error r =>
      rcases emitGuard_error result with ⟨tested, null, -⟩ | ⟨-, stopped⟩
      · rw [notNull tested] at null
        cases null
      · rw [stopped] at slow
        cases slow
  · -- only the one-granule form does not see the byte
    rw [guardSlow_passes, unaddressable_reached_empty ready] at slow
    push Not at slow
    obtain ⟨c, ⟨above, below⟩, inside', bad⟩ := slow
    rw [stopsAt_addressable ctx inside', not_not] at bad
    by_cases one : OneGranule width alignment
    · have elsewhere : b / 16 ≠ hardware ctx (env pointer).toNat / 16 := by
        intro same
        exact apart ⟨by omega, by omega, nonempty, fun _ => same⟩
      have tested : NullTested little width :=
        ⟨nonempty, by have := one.1; omega, .inr one.1⟩
      have whole : ¬ negative ((stopsAt b).of (env pointer).toNat) := by
        have within : hardware ctx (env pointer).toNat < 2 ^ (stopsAt b).bits := by omega
        rw [Shadow.of, ← index_hardware ctx ready, Shadow.index_eq_div ready within]
        exact not_negative.mpr (stopsAt_whole elsewhere.symm)
      rw [emitGuard_oneGranule one, emitOneGranule, notNull tested]
      simp [whole, nullInCheck]
    · exact absurd ⟨by omega, by omega, nonempty, fun one' => absurd one' one⟩ apart

end WeaveC.Pass
