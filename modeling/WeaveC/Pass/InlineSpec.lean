import WeaveC.Pass.Inline
import WeaveC.Runtime.GuardSpec
import Mathlib.Tactic.IntervalCases
import Mathlib.Tactic.Tauto

/-!
# Inline guards agree with the runtime

Each form lets an access through only when its bytes are addressable, and
otherwise calls the runtime, which decides.
-/

namespace WeaveC.Pass

open WeaveC.Library WeaveC.Runtime

variable {ctx : Context} {env : Env} {s : Shadow}

/-! ## Bytes -/

theorem not_negative {v : UInt8} : ¬ negative v ↔ shadowFull v :=
  Nat.not_le

/-- What neither test of a byte rejects holds the last byte of the access. -/
theorem holds_last {v : UInt8} {last : Nat} (ok : ¬ (negative v ∧ endsPast v last)) :
    shadowFull v ∨ ¬ shadowPoison v ∧ last < shadowBytes v := by
  rcases not_and_or.mp ok with whole | ends
  · exact .inl (not_negative.mp whole)
  · obtain ⟨notPoison, some⟩ := not_or.mp ends
    exact .inr ⟨notPoison, Nat.lt_of_not_le some⟩

theorem full_of_or {v w : UInt8} (whole : ¬ negative (v ||| w)) : shadowFull v ∧ shadowFull w := by
  have left : v.toNat ≤ (v ||| w).toNat := by
    rw [UInt8.toNat_or]
    exact Nat.left_le_or
  have right : w.toNat ≤ (v ||| w).toNat := by
    rw [UInt8.toNat_or]
    exact Nat.right_le_or
  omega

theorem classOf_eq (v : UInt8) : classOf v = shadowClass v := by
  unfold classOf shadowClass
  split_ifs <;> omega

/-- Bytes the emitted test does not tell apart are of one color. -/
theorem sameColor_of_not_differs {v w : UInt8} (same : ¬ differs v w) : sameColor v w := by
  obtain ⟨whole, classes⟩ := not_or.mp same
  rw [classOf_eq, classOf_eq, not_ne_iff] at classes
  by_cases equal : v = w
  · exact .inl equal
  · refine .inr ⟨?_, classes⟩
    by_contra both
    rw [not_or, not_not, not_not] at both
    exact whole ⟨⟨not_negative.mpr both.1, not_negative.mpr both.2⟩, equal⟩

theorem RootCheck.shadow_eq {root : RootCheck} {v : UInt8} :
    v.toNat = root.shadow ↔ v = root.byte ∧ shadowFull v := by
  have bound := v.toNat_lt
  have bound' := root.byte.toNat_lt
  unfold RootCheck.shadow
  constructor
  · intro equal
    split_ifs at equal with whole
    · exact ⟨UInt8.toNat_inj.mp equal, by omega⟩
    · omega
  · rintro ⟨rfl, full⟩
    rw [if_pos full]

/-! ## The forms without a root -/

/-- A form's shape: a fast test, the null test, an exact test, a slow path. -/
theorem form_passes {fast null : Bool} {exact : Prop} [Decidable exact] {slow : Outcome}
    {r : Report} (quick : fast = false → slow.passes = true)
    (exactly : ¬ exact → slow.passes = true) :
    Outcome.passes (if ¬ (fast || null) = true then .ok s else if null = true then .error r
      else if exact then slow else .ok s) = true ↔ null = false ∧ slow.passes = true := by
  cases null with
  | true => simp
  | false =>
    cases fast with
    | false => simpa using quick rfl
    | true =>
      by_cases bad : exact
      · simp [bad]
      · simpa [bad] using exactly bad

theorem slowGuard_nil (ctx : Context) (env : Env) (s : Shadow) (address width : Nat) :
    slowGuard ctx env s address width [] = guardSlow ctx s address width := rfl

theorem guard_of_granules (ctx : Context) {address width : Nat}
    (whole : ∀ j, j < (address % 16 + width - 1) / 16 →
      shadowFull (s.byte (s.index address + j)))
    (tail : s.Ready → reached ctx s address + width - 1 < 2 ^ s.bits →
      let v := s.byte (s.index address + (address % 16 + width - 1) / 16)
      shadowFull v ∨ ¬ shadowPoison v ∧ (address % 16 + width - 1) % 16 < shadowBytes v) :
    (guardSlow ctx s address width).passes = true :=
  (guardSlow_passes ctx s address width).mpr (granules_sound ctx whole tail)

theorem crosses_iff {address lastAddress : Nat} :
    (address ^^^ lastAddress) >>> 4 ≠ 0 ↔ address / 16 ≠ lastAddress / 16 := by
  rw [Nat.shiftRight_xor_distrib, Nat.shiftRight_eq_div_pow, Nat.shiftRight_eq_div_pow, ne_eq,
    Nat.xor_eq_zero_iff]

/-- The shadow byte of the last byte is found from the first one's, when it is
in the window. -/
theorem last_index (ctx : Context) (ready : s.Ready) (address width : Nat)
    (within : reached ctx s address + width - 1 < 2 ^ s.bits) (nonempty : width ≠ 0) :
    s.index ((address + (width - 1)) % 2 ^ 64) =
      s.index address + (address % 16 + width - 1) / 16 := by
  obtain ⟨found, offset, -⟩ := reached_alias ctx ready address
  have bounds := ready.bounds
  have twice := Shadow.two_pow_bits ready
  have fits : 2 ^ (s.bits - 4) ∣ 2 ^ 60 := Nat.pow_dvd_pow 2 (by omega)
  rw [Shadow.index_eq_mod ready, Shadow.index_eq_mod ready] at found
  rw [Shadow.index_eq_mod ready, Shadow.index_eq_mod ready, ← found]
  generalize reached ctx s address = start at *
  generalize 2 ^ (s.bits - 4) = granules at *
  calc (address + (width - 1)) % 2 ^ 64 / 16 % granules
      = (address + (width - 1)) / 16 % 2 ^ 60 % granules := by
        congr 1
        omega
    _ = (address / 16 + (address % 16 + width - 1) / 16) % granules := by
        rw [Nat.mod_mod_of_dvd _ fits]
        congr 1
        omega
    _ = (start / 16 % granules + (address % 16 + width - 1) / 16) % granules := by
        rw [found, Nat.mod_add_mod]
    _ = start / 16 % granules + (address % 16 + width - 1) / 16 := by
        rw [Nat.mod_eq_of_lt (show start / 16 < granules by omega)]
        exact Nat.mod_eq_of_lt (by omega)

theorem emitTwoGranules_passes (ready : s.Ready) {little : Bool} {address width : Nat}
    (nonempty : width ≠ 0) (short : width ≤ 16) (null : Bool) :
    (emitTwoGranules ctx env s little address width null []).passes = true ↔
      null = false ∧ (guardSlow ctx s address width).passes = true := by
  have last := fun within => last_index ctx ready address width within nonempty
  unfold emitTwoGranules
  simp only [slowGuard_nil]
  refine form_passes (fun fast => ?_) (fun exact => ?_)
  · cases little with
    | true =>
      have clear : loadLE s.byte (s.index address) 2 &&& 0x8080 = 0 := by simpa using fast
      have whole := (loadLE_and_signBits s.byte (s.index address) 2 2).mp clear
      refine guard_of_granules ctx (fun j below => whole j (by omega) (by omega)) fun _ _ => ?_
      exact .inl (whole _ (by omega) (by omega))
    | false =>
      have clear : ¬ negative (s.of address ||| s.of ((address + (width - 1)) % 2 ^ 64)) := by
        simpa only [Bool.false_eq_true, if_false, decide_eq_false_iff_not] using fast
      have whole := full_of_or clear
      refine guard_of_granules ctx (fun j below => ?_) fun _ within => ?_
      · rw [show j = 0 by omega]
        exact whole.1
      · rw [Shadow.of, Shadow.of, last within] at whole
        exact .inl whole.2
  · obtain ⟨first, ends⟩ := not_or.mp exact
    refine guard_of_granules ctx (fun j below => ?_) fun _ within => ?_
    · rw [show j = 0 by omega]
      have crosses : address / 16 ≠ (address + (width - 1)) % 2 ^ 64 / 16 := by omega
      exact not_negative.mp fun sign => first ⟨crosses_iff.mpr crosses, sign⟩
    · have lastByte : (address + (width - 1)) % 2 ^ 64 &&& 15 = (address % 16 + width - 1) % 16 := by
        rw [show 15 = 2 ^ 4 - 1 from rfl, Nat.and_two_pow_sub_one_eq_mod]
        omega
      have tail := holds_last ends
      rwa [lastByte, Shadow.of, last within] at tail

theorem chunkFast_whole {address width : Nat}
    (clear : chunkFast s address width = false) {j : Nat} (below : j < 8)
    (reach : j ≤ (address % 16 + width - 1) / 16) :
    shadowFull (s.byte (s.index address + j)) := by
  unfold chunkFast at clear
  dsimp only at clear
  split_ifs at clear with small wide
  · have mask : 0x8080808080808080 % 2 ^ (8 * ((15 + width + 15) / 16)) =
        signBits ((15 + width + 15) / 16) := by
      obtain one | two : (15 + width + 15) / 16 = 1 ∨ (15 + width + 15) / 16 = 2 := by omega
      · rw [one]
        rfl
      · rw [two]
        rfl
    rw [mask, decide_eq_false_iff_not, not_ne_iff, loadLE_and_signBits] at clear
    exact clear j (by omega) (by omega)
  · rw [decide_eq_false_iff_not, not_ne_iff, ← Nat.and_assoc, ← signBits_eight] at clear
    exact (loadLE_low_and_signBits s.byte (s.index address) (k := 8) (by omega)).mp clear j below
  · rw [decide_eq_false_iff_not, not_ne_iff, ← Nat.and_assoc, ← signBits_eight, Nat.shiftLeft_eq,
      Nat.one_mul, loadLE_low_and_signBits s.byte (s.index address) (by omega)] at clear
    exact clear j (by omega)

/-- The test of the last granule of an access. -/
abbrev EndsIn (v : UInt8) (last : Nat) : Prop := ¬ (negative v ∧ endsPast v last)

/-- The exact test of a chunk. -/
def ChunkEnd (s : Shadow) (address width : Nat) : Prop :=
  let last := address % 16 + width - 1
  (∀ j < last / 16, shadowFull (s.byte (s.index address + j))) ∧
    EndsIn (s.byte (s.index address + last / 16)) (last % 16)

/-- Granules that are all whole pass the exact test, whatever the last byte. -/
theorem ChunkEnd.of_fast {address width : Nat} (short : width ≤ 113)
    (clear : chunkFast s address width = false) : ChunkEnd s address width := by
  have whole : ∀ j ≤ (address % 16 + width - 1) / 16, shadowFull (s.byte (s.index address + j)) :=
    fun j below => chunkFast_whole clear (by omega) below
  constructor
  · intro j below
    exact whole j (Nat.le_of_lt below)
  · rintro ⟨sign, -⟩
    exact not_negative.mpr (whole _ (Nat.le_refl _)) sign

open Classical in
/-- The chunk form lets an access through when its exact test does, and leaves
the rest to the slow call. -/
theorem chunkCheck_eq {ε : Type} {address width : Nat} (nonempty : width ≠ 0)
    (short : width ≤ 113) (constant : Bool) (null : Option ε) (slow : Except ε Shadow) :
    chunkCheck s address width constant null slow =
      match null with
      | some report => .error report
      | none => if ChunkEnd s address width then .ok s else slow := by
  have low (x : Nat) : x &&& 15 = x % 16 := Nat.and_two_pow_sub_one_eq_mod x 4
  have lastOffset : (address % 16 + (width + 2 ^ 64 - 1)) % 2 ^ 64 = address % 16 + width - 1 := by
    omega
  have granules : ((address % 16 + width - 1) >>> 4) <<< 3 = (address % 16 + width - 1) / 16 * 8 := by
    rw [Nat.shiftRight_eq_div_pow, Nat.shiftLeft_eq]
  obtain ⟨test, value⟩ :=
    chunk_test s (s.index address) (k := (address % 16 + width - 1) / 16) (by omega)
  unfold chunkCheck
  split
  · rename_i fast
    obtain ⟨-, -, -, clear⟩ := fast
    cases null with
    | some report =>
        rw [Option.isSome_some, Bool.or_true] at clear
        exact absurd rfl clear
    | none =>
        rw [Option.isSome_none, Bool.or_false, Bool.not_eq_true] at clear
        exact (if_pos (.of_fast short clear)).symm
  · simp only [low, lastOffset, granules, value, ne_eq, test]
    cases null with
    | some report =>
        rw [Option.isSome_some, Bool.or_true]
        rfl
    | none =>
        rw [Option.isSome_none, Bool.or_false]
        split
        · rename_i quick
          rw [Bool.not_eq_true, Bool.or_eq_false_iff, decide_eq_false_iff_not,
            decide_eq_false_iff_not, not_not] at quick
          exact (if_pos ⟨quick.1, fun both => quick.2 both.1⟩).symm
        · dsimp only
          split
          · rename_i bad
            refine (if_neg fun whole => ?_).symm
            rcases bad with mixed | past
            · exact mixed whole.1
            · exact whole.2 past
          · rename_i good
            rw [not_or, not_not] at good
            exact (if_pos good).symm

theorem guard_of_chunk (ctx : Context) {address width : Nat} (whole : ChunkEnd s address width) :
    unaddressable ctx s (reached ctx s address) width = ∅ :=
  granules_sound ctx whole.1 fun _ _ => holds_last whole.2

theorem chunkCheck_passes {address width : Nat} (nonempty : width ≠ 0) (short : width ≤ 113)
    (constant : Bool) (null : Option Report) :
    Outcome.passes (chunkCheck s address width constant null
      (slowGuard ctx env s address width [])) = true ↔
      null = none ∧ (guardSlow ctx s address width).passes = true := by
  rw [chunkCheck_eq nonempty short, slowGuard_nil]
  cases null with
  | some report => exact iff_of_false Bool.false_ne_true fun both => Option.some_ne_none _ both.1
  | none =>
      dsimp only
      rw [and_iff_right rfl]
      split
      · rename_i whole
        exact iff_of_true rfl ((guardSlow_passes ctx s address width).mpr (guard_of_chunk ctx whole))
      · rfl

theorem nullReport_eq_none {address : Nat} {nullBase : Option Value} :
    nullReport env address nullBase = none ↔ nullTest env nullBase = false := by
  unfold nullReport
  cases nullTest env nullBase with
  | true => exact iff_of_false (Option.some_ne_none _) (Ne.symm Bool.false_ne_true)
  | false => exact iff_of_true rfl rfl

/-! ## The one-granule form -/

theorem guardJumpSlow_passes (ctx : Context) (s : Shadow) (address width root : Nat)
    (byte : UInt8) :
    (guardJumpSlow ctx s address width root byte).passes = true ↔
      ∃ s', guardSlow ctx s address width = .ok s' ∧
        (jumpSlow ctx s' address width root byte).passes = true := by
  rw [guardJumpSlow]
  cases guardSlow ctx s address width with
  | error r => simp [bind, Except.bind]
  | ok s' => simp [bind, Except.bind]

/-- An access in one granule whose byte the emitted tests accept. -/
theorem guard_of_byte (ctx : Context) {address width : Nat} (nonempty : width ≠ 0)
    (fits : address % 16 + width ≤ 16)
    (ok : ¬ (negative (s.of address) ∧ endsPast (s.of address) (address % 16 + (width - 1)))) :
    (guardSlow ctx s address width).passes = true := by
  have only : (address % 16 + width - 1) / 16 = 0 := by omega
  refine guard_of_granules ctx (fun j below => by omega) fun _ _ => ?_
  rw [only, show (address % 16 + width - 1) % 16 = address % 16 + (width - 1) by omega]
  exact holds_last ok

theorem ok_of_passes {outcome : Outcome} (passed : outcome.passes = true) :
    ∃ s', outcome = .ok s' := by
  cases outcome with
  | error r => simp at passed
  | ok s' => exact ⟨s', rfl⟩

/-- Where the byte is no returned frame's, the guard leaves the color check
what it found. -/
theorem guardJumpSlow_of_kept {address width root : Nat} {byte : UInt8}
    (kept : s.of address ≠ ShadowValue.returned)
    (passed : (guardSlow ctx s address width).passes = true) :
    (guardJumpSlow ctx s address width root byte).passes = true ↔
      (jumpSlow ctx s address width root byte).passes = true := by
  obtain ⟨s', found⟩ := ok_of_passes passed
  have same := guardSlow_settles found
  simp only [guardJumpSlow_passes, found, Except.ok.injEq, exists_eq_left', jumpSlow_passes]
  rw [jumpKind_congr same.bits same.mask (same.of_kept kept)]

/-- Where the guard passes without a call and the bytes are of one color, so
does the color check. -/
theorem guardJumpSlow_of_sameColor {address width : Nat} (root : Nat) {byte : UInt8}
    (kept : s.of address ≠ ShadowValue.returned)
    (passed : (guardSlow ctx s address width).passes = true)
    (same : sameColor (s.of address) byte) :
    (guardJumpSlow ctx s address width root byte).passes = true := by
  rw [guardJumpSlow_of_kept kept passed, jumpSlow_passes, jumpKind_of_sameColor same]
  exact .inr rfl

theorem not_returned {v : UInt8} {last : Nat} (ok : ¬ (negative v ∧ endsPast v last)) :
    v ≠ ShadowValue.returned := by
  rintro rfl
  exact ok ⟨by decide, .inl (by decide)⟩

theorem coldCall_passes (ctx : Context) (s : Shadow) {address width : Nat} (root : Nat)
    (byte : UInt8) (nonempty : width ≠ 0)
    (fits : address % 16 + width ≤ 16) :
    Outcome.passes (if negative (s.of address) ∧
        endsPast (s.of address) (address % 16 + (width - 1)) ∨ differs (s.of address) byte then
      guardJumpSlow ctx s address width root byte else .ok s) = true ↔
        (guardJumpSlow ctx s address width root byte).passes = true := by
  split_ifs with call
  · rfl
  · obtain ⟨ok, same⟩ := not_or.mp call
    exact iff_of_true rfl (guardJumpSlow_of_sameColor root (not_returned ok)
      (guard_of_byte ctx nonempty fits ok) (sameColor_of_not_differs same))

/-- In verify mode the guard and the color check are two calls. -/
theorem twoCalls_passes (ctx : Context) (s : Shadow) {address width : Nat} (root : Nat)
    (byte : UInt8) (nonempty : width ≠ 0)
    (fits : address % 16 + width ≤ 16) :
    Outcome.passes (do
      let s' ← if negative (s.of address) ∧
          endsPast (s.of address) (address % 16 + (width - 1)) then
        guardSlow ctx s address width else .ok s
      if s.of address ≠ byte then jumpSlow ctx s' address width root byte else .ok s') = true ↔
        (guardJumpSlow ctx s address width root byte).passes = true := by
  by_cases bad : negative (s.of address) ∧ endsPast (s.of address) (address % 16 + (width - 1))
  · rw [if_pos bad, guardJumpSlow_passes]
    cases found : guardSlow ctx s address width with
    | error r => simp [bind, Except.bind]
    | ok s' =>
      by_cases other : s.of address = byte
      · refine iff_of_true (by simp [bind, Except.bind, other]) ⟨s', rfl, ?_⟩
        rw [jumpSlow_passes]
        by_cases returned : s.of address = ShadowValue.returned
        · refine .inr (jumpKind_of_poison (.inr ?_) root)
          rw [← other, returned]
          decide
        · refine .inr (jumpKind_of_sameColor (.inl ?_) root)
          rw [(guardSlow_settles found).of_kept returned, other]
      · simp [bind, Except.bind, other]
  · have kept := not_returned bad
    have passed := guard_of_byte ctx nonempty fits bad
    rw [if_neg bad, guardJumpSlow_of_kept kept passed]
    by_cases other : s.of address = byte
    · refine iff_of_true (by simp [bind, Except.bind, other]) ?_
      rw [jumpSlow_passes, jumpKind_of_sameColor (.inl other)]
      exact .inr rfl
    · simp [bind, Except.bind, other]

theorem emitOneGranule_passes {address width : Nat} (nonempty : width ≠ 0)
    (fits : address % 16 + width ≤ 16) (nullBase : Option Value) (root : Option RootCheck)
    (nullPoison : ∀ r, root = some r → env r.root = 0#64 → shadowPoison r.byte) :
    (emitOneGranule ctx env s address width nullBase [] root).passes = true ↔
      nullTest env nullBase = false ∧
        match root with
        | none => (guardSlow ctx s address width).passes = true
        | some r =>
            (guardJumpSlow ctx s address width (env r.root).toNat r.byte).passes = true := by
  have low : address &&& 15 = address % 16 := Nat.and_two_pow_sub_one_eq_mod address 4
  have last : (address % 16 + (width - 1)) % 2 ^ 8 = address % 16 + (width - 1) := by omega
  have fine := guard_of_byte (s := s) ctx nonempty fits
  unfold emitOneGranule
  simp only [slowGuard_nil, low, last]
  cases root with
  | none =>
    simp only [nullInCheck, Bool.not_false, Bool.and_true]
    refine form_passes (fun fast => ?_) (fun exact => ?_)
    · exact fine fun both => of_decide_eq_false fast both.1
    · exact fine fun both => exact both.2
  | some r =>
    -- the check block, whichever calls it makes
    have check := coldCall_passes ctx s (env r.root).toNat r.byte nonempty fits
    have check' := twoCalls_passes ctx s (env r.root).toNat r.byte nonempty fits
    by_cases equal : (s.of address).toNat = r.shadow
    · obtain ⟨same, full⟩ := RootCheck.shadow_eq.mp equal
      have whole : ¬ (negative (s.of address) ∧
          endsPast (s.of address) (address % 16 + (width - 1))) :=
        fun both => not_negative.mpr full both.1
      have jump := guardJumpSlow_of_sameColor (env r.root).toNat (not_returned whole)
        (fine whole) (.inl same)
      cases nullBase with
      | none => simpa [nullTest, equal] using jump
      | some base =>
        by_cases null : env base = 0#64
        · have apart : r.root ≠ base := by
            rintro rfl
            have poison := nullPoison r rfl null
            rw [← same] at poison
            omega
          simp [nullTest, nullInCheck, null, apart]
        · simpa [nullTest, equal, null] using jump
    · rw [if_neg (by simp [equal])]
      cases nullTest env nullBase with
      | true => simp
      | false =>
        by_cases cold : r.monitor = false
        · simpa [cold] using check
        · simpa [cold] using check'

/-! ## A guard -/

theorem OneGranule.power {width : Nat} {alignment : Align} (one : OneGranule width alignment) :
    ∃ k < 5, width = 2 ^ k := by
  obtain ⟨small, nonempty, power, -⟩ := one
  have powers : ∀ w < 17, w ≠ 0 → w &&& (w - 1) = 0 → ∃ k < 5, w = 2 ^ k := by decide
  exact powers width (by omega) nonempty power

/-- An aligned access of the one-granule form stays in its granule. -/
theorem OneGranule.fits {width : Nat} {alignment : Align} (one : OneGranule width alignment)
    {address : Nat} (aligned : address % alignment.value = 0) : address % 16 + width ≤ 16 := by
  obtain ⟨k, small, rfl⟩ := one.power
  have order : k ≤ alignment.shift := (Nat.pow_le_pow_iff_right (by decide)).mp one.2.2.2
  have multiple : 2 ^ k ∣ address :=
    (Nat.pow_dvd_pow 2 order).trans (Nat.dvd_of_mod_eq_zero aligned)
  have offset := Nat.mod_eq_zero_of_dvd multiple
  interval_cases k <;> omega

/-- The guard makes its null test. -/
def NullTested (little : Bool) (width : Nat) : Prop :=
  width ≠ 0 ∧ width ≤ 113 ∧ (little = true ∨ width ≤ 16)

instance (little : Bool) (width : Nat) : Decidable (NullTested little width) :=
  inferInstanceAs (Decidable (_ ∧ _))

theorem nullTest_eq_false {nullBase : Option Value} :
    nullTest env nullBase = false ↔ ∀ base, nullBase = some base → env base ≠ 0#64 := by
  cases nullBase <;> simp [nullTest]

theorem colorCheck_passes {address width : Nat} {root : RootCheck} :
    (colorCheck ctx env s address width root).passes = true ↔
      (jumpSlow ctx s address width (env root.root).toNat root.byte).passes = true := by
  unfold colorCheck
  dsimp only
  split_ifs with other
  · rfl
  · refine iff_of_true rfl ?_
    rw [jumpSlow_passes]
    refine .inr (jumpKind_of_sameColor (.inl ?_) _)
    by_contra apart
    exact other ⟨fun equal => apart (RootCheck.shadow_eq.mp equal).1, apart⟩

theorem colorCheck_ok {s' : Shadow} {address width : Nat} {root : RootCheck}
    (passed : colorCheck ctx env s address width root = .ok s') : s' = s := by
  unfold colorCheck at passed
  dsimp only at passed
  split_ifs at passed
  · exact jumpSlow_ok passed
  · exact (Except.ok.inj passed).symm

/-- The guard after its color check. -/
theorem emitGuard_eq {little : Bool} {pointer : Value} {width : Nat} {alignment : Align}
    {nullBase : Option Value} {root : Option RootCheck} (nonempty : width ≠ 0)
    (apart : ¬ OneGranule width alignment) :
    (emitGuard ctx env s little pointer width alignment nullBase [] root).passes = true ↔
      (∀ r, root = some r →
        (jumpSlow ctx s (env pointer).toNat width (env r.root).toNat r.byte).passes = true) ∧
        (emitGuard ctx env s little pointer width alignment nullBase [] none).passes = true := by
  cases root with
  | none => simp
  | some r =>
    rw [emitGuard, emitGuard]
    simp only [if_neg nonempty, if_neg apart, Option.some.injEq, forall_eq', ← colorCheck_passes]
    cases found : colorCheck ctx env s (env pointer).toNat width r with
    | error report => simp [bind, Except.bind]
    | ok s' => simp [bind, Except.bind, colorCheck_ok found]

theorem emitGuard_plain (ready : s.Ready) {little : Bool} {pointer : Value} {width : Nat}
    {alignment : Align} {nullBase : Option Value} (nonempty : width ≠ 0)
    (apart : ¬ OneGranule width alignment) :
    (emitGuard ctx env s little pointer width alignment nullBase [] none).passes = true ↔
      (NullTested little width → nullTest env nullBase = false) ∧
        (guardSlow ctx s (env pointer).toNat width).passes = true := by
  simp only [emitGuard, if_neg nonempty, if_neg apart, bind, Except.bind, if_true]
  split_ifs with long short
  · rw [range_passes, guardSlow_passes]
    have untested : ¬ NullTested little width := fun tested => by
      rcases long with wide | ⟨big, wide⟩
      · exact absurd tested.2.1 (by omega)
      · exact tested.2.2.elim (by simp [big]) (by omega)
    exact ⟨fun passed => ⟨fun tested => absurd tested untested, passed⟩, fun both => both.2⟩
  all_goals
    obtain ⟨notWide, narrow⟩ := not_or.mp long
    have tested : NullTested little width := by
      refine ⟨nonempty, by omega, ?_⟩
      cases little with
      | true => exact .inl rfl
      | false => exact .inr (Nat.le_of_not_lt fun wide => narrow ⟨rfl, wide⟩)
    rw [forall_prop_of_true tested]
  · exact emitTwoGranules_passes ready nonempty short _
  · rw [← @nullReport_eq_none env (env pointer).toNat]
    exact chunkCheck_passes nonempty (by omega) true _

theorem emitGuard_oneGranule {little : Bool} {pointer : Value} {width : Nat} {alignment : Align}
    {nullBase : Option Value} {root : Option RootCheck} (one : OneGranule width alignment) :
    emitGuard ctx env s little pointer width alignment nullBase [] root =
      emitOneGranule ctx env s (env pointer).toNat width nullBase [] root := by
  have short := one.1
  have long : ¬ (113 < width ∨ little = false ∧ 16 < width) := by omega
  rw [emitGuard]
  cases root <;> simp only [if_neg one.2.1, if_pos one, if_neg long, bind, Except.bind]

/-- The shadow a call leaves where it passes. -/
def shadowLeft (s : Shadow) : Outcome → Shadow
  | .ok s' => s'
  | .error _ => s

theorem guardJumpSlow_eq (ctx : Context) (s : Shadow) (address width root : Nat) (byte : UInt8) :
    (guardJumpSlow ctx s address width root byte).passes = true ↔
      (guardSlow ctx s address width).passes = true ∧
        (jumpSlow ctx (shadowLeft s (guardSlow ctx s address width)) address width root
          byte).passes = true := by
  rw [guardJumpSlow_passes]
  cases guardSlow ctx s address width with
  | error r => simp
  | ok s' => simp [shadowLeft]

/-- The shadow the color check of a form reads. -/
def colorShadow (ctx : Context) (s : Shadow) (address width : Nat) (alignment : Align) : Shadow :=
  if OneGranule width alignment then shadowLeft s (guardSlow ctx s address width) else s

theorem emitGuard_passes (ready : s.Ready) {little : Bool} {pointer : Value} {width : Nat}
    {alignment : Align} {nullBase : Option Value} {root : Option RootCheck}
    (aligned : (env pointer).toNat % alignment.value = 0)
    (nullPoison : ∀ r, root = some r → env r.root = 0#64 → shadowPoison r.byte) :
    (emitGuard ctx env s little pointer width alignment nullBase [] root).passes = true ↔
      (∀ base, nullBase = some base → NullTested little width → env base ≠ 0#64) ∧
        (guardSlow ctx s (env pointer).toNat width).passes = true ∧
        ∀ r, root = some r →
          (jumpSlow ctx (colorShadow ctx s (env pointer).toNat width alignment)
            (env pointer).toNat width (env r.root).toNat r.byte).passes = true := by
  have nulls : (∀ base, nullBase = some base → NullTested little width → env base ≠ 0#64) ↔
      (NullTested little width → nullTest env nullBase = false) := by
    rw [nullTest_eq_false]
    exact ⟨fun all tested base found => all base found tested,
      fun all base found tested => all tested base found⟩
  rw [nulls]
  by_cases empty : width = 0
  · have untested : ¬ NullTested little width := fun tested => tested.1 empty
    have guarded : (guardSlow ctx s (env pointer).toNat width).passes = true :=
      (guardSlow_passes ctx s _ width).mpr (unaddressable_empty fun _ b low high => by omega)
    refine iff_of_true (by simp [emitGuard, empty]) ⟨fun tested => absurd tested untested,
      guarded, fun r _ => ?_⟩
    rw [jumpSlow_passes]
    exact .inl empty
  by_cases one : OneGranule width alignment
  · have tested : NullTested little width := by
      have short := one.1
      exact ⟨empty, by omega, .inr short⟩
    rw [emitGuard_oneGranule one, emitOneGranule_passes empty (one.fits aligned) nullBase root
      nullPoison, forall_prop_of_true tested, colorShadow, if_pos one]
    cases root with
    | none => simp
    | some r => simp only [guardJumpSlow_eq, Option.some.injEq, forall_eq']
  · rw [emitGuard_eq empty one, emitGuard_plain ready empty one, colorShadow, if_neg one]
    tauto

theorem emitRange_passes (ctx : Context) (env : Env) (s : Shadow) (little : Bool)
    (pointer : Value) (length : BitVec 64) (constant : Bool) :
    (emitRange ctx env s little pointer length constant).passes = true ↔
      (range ctx s (env pointer).toNat length.toNat).passes = true := by
  have bound := length.isLt
  unfold emitRange
  dsimp only
  split_ifs with big small
  · rfl
  · rw [chunkCheck_passes (by omega) (by omega), range_passes, guardSlow_passes]
    exact and_iff_right rfl
  · rfl

/-- A guard lets an access through if and only if its null test, the
runtime's full check and the runtime's color check do; a range guard, if and
only if the runtime's range check does.  The one-granule form's color check
reads the shadow as the full check leaves it, the others' as it was. -/
theorem inline_agrees (ctx : Context) (env : Env) (s : Shadow) (ready : s.Ready) (little : Bool)
    (pointer : Value) (width : Nat) (alignment : Align) (nullBase : Option Value)
    (root : Option RootCheck) (aligned : (env pointer).toNat % alignment.value = 0)
    (nullPoison : ∀ r, root = some r → env r.root = 0#64 → shadowPoison r.byte)
    (length : BitVec 64) (constant : Bool) :
    ((emitGuard ctx env s little pointer width alignment nullBase [] root).passes = true ↔
      (∀ base, nullBase = some base → NullTested little width → env base ≠ 0#64) ∧
        (guardSlow ctx s (env pointer).toNat width).passes = true ∧
        ∀ r, root = some r →
          (jumpSlow ctx (colorShadow ctx s (env pointer).toNat width alignment)
            (env pointer).toNat width (env r.root).toNat r.byte).passes = true) ∧
      ((emitRange ctx env s little pointer length constant).passes = true ↔
        (range ctx s (env pointer).toNat length.toNat).passes = true) :=
  ⟨emitGuard_passes ready aligned nullPoison, emitRange_passes ctx env s little pointer length
    constant⟩

/-! ## A stale granule -/

/-- A context with no stack and no heap. -/
def quiet : Context :=
  ⟨0, 0, 0, false, fun _ => ⟨false, false, 0, 0⟩, false⟩

/-- A shadow that says all memory is whole and uncolored. -/
def blank : Shadow where
  bits := 47
  mask := 2 ^ 43 - 1
  byte := fun _ => ShadowValue.addressable
  wf := .inr ⟨rfl, by decide, by decide⟩

/-- A shadow of the given bytes over the same window. -/
def withBytes (s : Shadow) (byte : Nat → UInt8) : Shadow :=
  { s with byte := byte }

/-- A granule a returned frame left, and an object of color 1. -/
def staleAndColored (i : Nat) : UInt8 :=
  if i = 0x100 then ShadowValue.returned else if i = 0x200 then 1 else ShadowValue.addressable

def staleEnv (v : Value) : BitVec 64 := if v = 1 then 0x2000#64 else 0x1000#64

/-- The color check reads the stale granule as the full check left it. -/
theorem inline_agrees_stale :
    (emitGuard quiet staleEnv (withBytes blank staleAndColored) true 0 8 ⟨3⟩ none []
      (some ⟨1, 1, false⟩)).passes = true ↔
    (guardSlow quiet (withBytes blank staleAndColored) 0x1000 8).passes = true ∧
      (jumpSlow quiet (shadowLeft (withBytes blank staleAndColored)
        (guardSlow quiet (withBytes blank staleAndColored) 0x1000 8))
        0x1000 8 0x2000 1).passes = true := by
  have agrees := (inline_agrees quiet staleEnv (withBytes blank staleAndColored) (by decide) true
    0 8 ⟨3⟩ none (some ⟨1, 1, false⟩) (by decide) (by simp; decide) 0#64 true).1
  rw [colorShadow, if_pos (by decide)] at agrees
  rw [agrees]
  exact ⟨fun all => ⟨all.2.1, all.2.2 _ rfl⟩, fun all => ⟨by simp, all.1, fun | _, rfl => all.2⟩⟩

/-- The stale granule passes the full check, the color check before it, and
fails the color check after it. -/
theorem stale_granule :
    (guardSlow quiet (withBytes blank staleAndColored) 0x1000 8).passes = true ∧
      (jumpSlow quiet (withBytes blank staleAndColored) 0x1000 8 0x2000 1).passes = true ∧
      (jumpSlow quiet (shadowLeft (withBytes blank staleAndColored)
        (guardSlow quiet (withBytes blank staleAndColored) 0x1000 8))
        0x1000 8 0x2000 1).passes = false := by
  have ready : (withBytes blank staleAndColored).Ready := by decide
  have start : reached quiet (withBytes blank staleAndColored) 0x1000 = 0x1000 := by decide
  have guarded : (guardSlow quiet (withBytes blank staleAndColored) 0x1000 8).passes = true := by
    refine (guardSlow_passes _ _ _ _).mpr (unaddressable_empty fun _ b low high _ => .inl ?_)
    rw [start] at low high
    rw [show b / 16 * 16 = 0x1000 by omega]
    decide
  obtain ⟨s', found⟩ := ok_of_passes guarded
  have same := guardSlow_settles found
  have cleared : s'.of 0x1000 = ShadowValue.addressable := by
    rw [guardSlow_settled ready found (by decide) (by rw [start]) (by rw [start]; decide)
      (by decide) (by decide)]
    decide
  refine ⟨guarded, by decide, Bool.eq_false_iff.mpr ?_⟩
  rw [ne_eq, jumpSlow_passes, found, shadowLeft, jumpKind_congr (s := blank) same.bits same.mask
    cleared]
  decide

/-- No one shadow serves every form's color check: read before the full
check, the one-granule form disagrees with it; read after, the others do. -/
theorem inline_disagrees :
    (¬ ∀ (ctx : Context) (env : Env) (s : Shadow), s.Ready →
      ∀ (little : Bool) (pointer : Value) (width : Nat) (alignment : Align)
        (nullBase : Option Value) (root : Option RootCheck),
      (env pointer).toNat % alignment.value = 0 →
      (∀ r, root = some r → r.byte = s.of (env r.root).toNat ∧ env r.root ≠ 0#64) →
      ((emitGuard ctx env s little pointer width alignment nullBase [] root).passes = true ↔
        (∀ base, nullBase = some base → NullTested little width → env base ≠ 0#64) ∧
          (guardSlow ctx s (env pointer).toNat width).passes = true ∧
          ∀ r, root = some r → (jumpSlow ctx s (env pointer).toNat width (env r.root).toNat
            r.byte).passes = true)) ∧
    ¬ ∀ (ctx : Context) (env : Env) (s : Shadow), s.Ready →
      ∀ (little : Bool) (pointer : Value) (width : Nat) (alignment : Align)
        (nullBase : Option Value) (root : Option RootCheck),
      (env pointer).toNat % alignment.value = 0 →
      (∀ r, root = some r → r.byte = s.of (env r.root).toNat ∧ env r.root ≠ 0#64) →
      ((emitGuard ctx env s little pointer width alignment nullBase [] root).passes = true ↔
        (∀ base, nullBase = some base → NullTested little width → env base ≠ 0#64) ∧
          (guardSlow ctx s (env pointer).toNat width).passes = true ∧
          ∀ r, root = some r → (jumpSlow ctx (shadowLeft s (guardSlow ctx s (env pointer).toNat
            width)) (env pointer).toNat width (env r.root).toNat r.byte).passes = true) := by
  obtain ⟨guarded, before, after⟩ := stale_granule
  have ready : (withBytes blank staleAndColored).Ready := by decide
  constructor
  · intro claim
    have passed := (claim quiet staleEnv (withBytes blank staleAndColored) ready true 0 8 ⟨3⟩ none
      (some ⟨1, 1, false⟩) (by decide) (by simp; decide)).mpr
      ⟨by simp, guarded, fun | _, rfl => before⟩
    rw [emitGuard_passes ready (by decide) (by simp; decide), colorShadow, if_pos (by decide)]
      at passed
    exact absurd (passed.2.2 _ rfl) (Bool.eq_false_iff.mp after)
  · intro claim
    have both := (claim quiet staleEnv (withBytes blank staleAndColored) ready true 0 8 ⟨0⟩ none
      (some ⟨1, 1, false⟩) (by decide) (by simp; decide)).mp (by
        rw [emitGuard_passes ready (by decide) (by simp; decide), colorShadow,
          if_neg (by decide)]
        exact ⟨by simp, guarded, fun | _, rfl => before⟩)
    exact absurd (both.2.2 _ rfl) (Bool.eq_false_iff.mp after)

/-! ## Misaligned accesses -/

/-- What the one-granule form decides by itself is its one byte. -/
theorem emitOneGranule_ok {address width : Nat} {nullBase : Option Value}
    {root : Option RootCheck}
    (passed : (emitOneGranule ctx env s address width nullBase [] root).passes = true) :
    (guardSlow ctx s address width).passes = true ∨
      ¬ (negative (s.of address) ∧
        endsPast (s.of address) ((address % 16 + (width - 1)) % 2 ^ 8)) := by
  have low : address &&& 15 = address % 16 := Nat.and_two_pow_sub_one_eq_mod address 4
  by_contra neither
  obtain ⟨stops, bad⟩ := not_or.mp neither
  rw [not_not] at bad
  unfold emitOneGranule at passed
  simp only [slowGuard_nil, low] at passed
  cases root with
  | none =>
    simp only [nullInCheck, Bool.not_false, Bool.and_true] at passed
    refine stops ((form_passes (fun fast => ?_) (fun exact => ?_)).mp passed).2
    · exact absurd bad.1 (of_decide_eq_false fast)
    · exact absurd bad.2 exact
  | some r =>
    have apart : (s.of address).toNat ≠ r.shadow := fun equal =>
      not_negative.mpr (RootCheck.shadow_eq.mp equal).2 bad.1
    dsimp only at passed
    rw [if_neg (by simp [apart])] at passed
    split at passed
    · simp at passed
    split at passed
    · rw [if_pos (.inl bad), guardJumpSlow_eq] at passed
      exact stops passed.1
    · cases found : guardSlow ctx s address width with
      | error report => simp [found, bind, Except.bind] at passed
      | ok s' => simp [found] at stops

/-- A misaligned access of the one-granule form is let through on its first
granule's byte alone. -/
theorem emitOneGranule_sound {address width : Nat} {nullBase : Option Value}
    {root : Option RootCheck} (ready : s.Ready) (nonempty : width ≠ 0) (short : width ≤ 16)
    (fits : address % 16 + width ≤ 16 ∨ ¬ s.InWindow (reached ctx s address + width - 1))
    (passed : (emitOneGranule ctx env s address width nullBase [] root).passes = true) :
    (guardSlow ctx s address width).passes = true := by
  rcases emitOneGranule_ok passed with exact | byte
  · exact exact
  · rw [show (address % 16 + (width - 1)) % 2 ^ 8 = address % 16 + (width - 1) by omega] at byte
    by_cases inner : address % 16 + width ≤ 16
    · exact guard_of_byte ctx nonempty inner byte
    · have outside := fits.resolve_left inner
      rw [Shadow.inWindow_iff ready] at outside
      refine guard_of_granules ctx (fun j below => ?_) fun _ within => absurd within outside
      rw [show j = 0 by omega]
      refine not_negative.mp fun sign => byte ⟨sign, .inr ?_⟩
      rw [show 15 = 2 ^ 4 - 1 from rfl, Nat.and_two_pow_sub_one_eq_mod]
      omega

/-- One whole granule in poison. -/
def oneWhole (i : Nat) : Nat → UInt8 :=
  fun j => if j = i then ShadowValue.addressable else ShadowValue.heapTail

theorem oneWhole_unaddressable (ctx : Context) (ready : s.Ready) {i b : Nat}
    (inside : b < 2 ^ s.bits) (apart : b / 16 ≠ i) :
    ¬ Addressable ctx (withBytes s (oneWhole i)) b := by
  have value : (withBytes s (oneWhole i)).of (b / 16 * 16) = ShadowValue.heapTail := by
    refine if_neg ?_
    change s.index (b / 16 * 16) ≠ i
    rw [Shadow.index_eq_div ready (by omega)]
    omega
  rw [Addressable, settled_eq, value, if_neg fun both => absurd both.1 (by decide)]
  exact fun either => either.elim (by decide) fun both => both.1 (by decide)

/-- Whatever the shadow holds, the guard lets through only accesses whose
every byte is addressable: exactly when the one-granule form is not used
across the end of a granule. -/
theorem emitGuard_addressable_iff (ctx : Context) (env : Env) (s : Shadow)
    (little : Bool) (pointer : Value) (width : Nat) (alignment : Align) :
    (∀ byte nullBase root,
      (emitGuard ctx env (withBytes s byte) little pointer width alignment nullBase []
        root).passes = true →
      unaddressable ctx (withBytes s byte) (reached ctx s (env pointer).toNat) width = ∅) ↔
    (s.Ready → OneGranule width alignment → (env pointer).toNat % 16 + width ≤ 16 ∨
      ¬ s.InWindow (reached ctx s (env pointer).toNat + width - 1)) := by
  constructor
  · intro sound ready one
    by_contra crosses
    obtain ⟨crossing, inside⟩ := not_or.mp crosses
    rw [not_not, Shadow.inWindow_iff ready] at inside
    obtain ⟨found, offset, -⟩ := reached_alias ctx ready (env pointer).toNat
    have short := one.1
    have nonempty := one.2.1
    have empty := sound (oneWhole (s.index (env pointer).toNat)) none none
    rw [emitGuard_oneGranule one] at empty
    specialize empty (by
      simp [emitOneGranule, nullTest, withBytes, Shadow.of, Shadow.index, oneWhole,
        ShadowValue.addressable])
    rw [← found] at empty
    generalize reached ctx s (env pointer).toNat = start at *
    rw [Shadow.index_eq_div ready (by omega)] at empty
    -- the granule after the first is poison
    have within : start / 16 * 16 + 16 < 2 ^ s.bits := by omega
    have bad := oneWhole_unaddressable ctx ready within
      (show (start / 16 * 16 + 16) / 16 ≠ start / 16 by omega)
    refine Set.eq_empty_iff_forall_notMem.mp empty (start / 16 * 16 + 16) ?_
    have ready' : (withBytes s (oneWhole (start / 16))).Ready := ready
    exact (mem_unaddressable ready').mpr ⟨by omega, by omega, within, bad⟩
  · intro fits byte nullBase root passed
    by_cases ready : s.Ready
    swap
    · exact unaddressable_empty fun reserved => absurd reserved ready
    have ready' : (withBytes s byte).Ready := ready
    change unaddressable ctx (withBytes s byte) (reached ctx (withBytes s byte) _) width = ∅
    rw [← guardSlow_passes]
    by_cases empty : width = 0
    · exact (guardSlow_passes ctx _ _ width).mpr
        (unaddressable_empty fun _ b low high => by omega)
    by_cases one : OneGranule width alignment
    · rw [emitGuard_oneGranule one] at passed
      exact emitOneGranule_sound ready' empty one.1 (fits ready one) passed
    · rw [emitGuard_eq empty one, emitGuard_plain ready' empty one] at passed
      exact passed.2.2

/-- Eight bytes at an address of alignment 4, across two granules, through a
marker of alignment 8: the second granule is never read. -/
theorem emitGuard_misaligned :
    ¬ ∀ (ctx : Context) (env : Env) (s : Shadow) (little : Bool) (pointer : Value) (width : Nat)
        (alignment : Align) (nullBase : Option Value) (root : Option RootCheck),
      (emitGuard ctx env s little pointer width alignment nullBase [] root).passes = true →
        unaddressable ctx s (reached ctx s (env pointer).toNat) width = ∅ := by
  intro claim
  have empty := claim quiet (fun _ => 0x100C#64) (withBytes blank (oneWhole 0x100)) true 0 8 ⟨3⟩
    none none (by decide)
  refine Set.eq_empty_iff_forall_notMem.mp empty 0x1010 ?_
  have ready : (withBytes blank (oneWhole 0x100)).Ready := by decide
  exact (mem_unaddressable ready).mpr ⟨by decide, by decide, by decide, by decide⟩

end WeaveC.Pass
