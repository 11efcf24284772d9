import WeaveC.Calls.Term

/-!
# The two evaluators of a term

The emitted code stops a difference at zero and a string inside `min(t, e)` at
`t`; the table's evaluator does neither.  They agree where no operand of a sum
or a product is negative, and where no string is cut short under a difference
or a quotient.
-/

namespace WeaveC.Calls

namespace LibTerm

/-! ## Checked arithmetic -/

theorem checkedAdd_eq {l r v : Int} (known : checkedAdd l r = some v) :
    v = l + r ∧ (l ≤ Int64.max → 0 ≤ r → v ≤ Int64.max) := by
  unfold checkedAdd at known
  split at known
  · cases known
  · rename_i fits
    cases known
    refine ⟨rfl, fun _ _ => ?_⟩
    omega

theorem checkedMultiply_eq {l r v : Int} (known : checkedMultiply l r = some v)
    (positive : 0 ≤ l) (positive' : 0 ≤ r) : v = l * r ∧ v ≤ Int64.max := by
  have largest : (0 : Int) ≤ Int64.max := by decide
  unfold checkedMultiply at known
  by_cases zero : l = 0 ∨ r = 0
  · rw [if_pos zero] at known
    cases known
    refine ⟨?_, largest⟩
    rcases zero with rfl | rfl
    · rw [Int.zero_mul]
    · rw [Int.mul_zero]
  · have some_left : 0 < l := by omega
    have some_right : 0 < r := by omega
    simp only [if_neg zero, if_pos some_left, if_pos some_right, decide_eq_true_eq] at known
    by_cases overflows : Int64.max.tdiv r < l
    · rw [if_pos overflows] at known
      cases known
    · rw [if_neg overflows] at known
      cases known
      refine ⟨rfl, ?_⟩
      rw [Int.tdiv_eq_ediv_of_nonneg largest, Int.not_lt] at overflows
      exact (Int.le_ediv_iff_mul_le some_right).mp overflows

/-- A quotient that is not negative is of a value that is not. -/
theorem quotient_eq {l d v : Int} (divisor : 0 < d) (positive : 0 ≤ v)
    (rounded : v = if 0 ≤ l then l.tdiv d else -((-l + d - 1).tdiv d)) : 0 ≤ l ∧ v = l / d := by
  by_cases sign : 0 ≤ l
  · rw [if_pos sign, Int.tdiv_eq_ediv_of_nonneg sign] at rounded
    exact ⟨sign, rounded⟩
  · rw [if_neg sign, Int.tdiv_eq_ediv_of_nonneg (by omega)] at rounded
    have some_below : 1 ≤ (-l + d - 1) / d :=
      (Int.le_ediv_iff_mul_le divisor).mpr (by omega)
    omega

/-! ## What the language means -/

/-- A term's documented value on naturals: a `strlen` under `min(t, e)` is
bounded by `t`. -/
def meaning (values : Values) (bound : Nat) : LibTerm → Nat
  | constant value => value.toNat
  | argument arg => ((values.argument arg).getD 0).toNat
  | stringLength arg => Nat.min ((values.stringLength arg).getD 0).toNat bound
  | product left right => left.meaning values bound * right.meaning values bound
  | sum left right => left.meaning values bound + right.meaning values bound
  | difference left value => left.meaning values bound - value.toNat
  | min left right =>
      Nat.min (left.meaning values bound) (right.meaning values (left.meaning values bound))
  | quotient left value => left.meaning values bound / value.toNat

/-- The term has no negative value. -/
def NonNegative (values : Values) (term : LibTerm) : Prop :=
  ∀ v, term.evaluate values = some v → 0 ≤ v

/-- No operand of a sum or a product is negative. -/
def NoNegativeOperand (values : Values) : LibTerm → Prop
  | constant _ | argument _ | stringLength _ => True
  | product left right | sum left right =>
      (left.NonNegative values ∧ right.NonNegative values) ∧
        left.NoNegativeOperand values ∧ right.NoNegativeOperand values
  | difference left _ | quotient left _ => left.NoNegativeOperand values
  | min left right => left.NoNegativeOperand values ∧ right.NoNegativeOperand values

/-- No string under a difference or a quotient (`inside` one) is longer than
the `min` around it lets it be read. -/
def NotCut (values : Values) : Nat → Bool → LibTerm → Prop
  | _, _, constant _ | _, _, argument _ => True
  | bound, inside, stringLength arg =>
      inside = true → ∀ n, values.stringLength arg = some n → n ≤ bound
  | bound, inside, product left right | bound, inside, sum left right =>
      left.NotCut values bound inside ∧ right.NotCut values bound inside
  | bound, _, difference left _ | bound, _, quotient left _ => left.NotCut values bound true
  | bound, inside, min left right =>
      left.NotCut values bound inside ∧
        right.NotCut values (left.meaning values bound) false

end LibTerm

/-! ## Bounded values -/

theorem min_add {t x y x' y' : Nat} (left : min t x = min t x') (right : min t y = min t y') :
    min t (x + y) = min t (x' + y') := by
  omega

theorem min_mul {t x y x' y' : Nat} (left : min t x = min t x') (right : min t y = min t y') :
    min t (x * y) = min t (x' * y') := by
  by_cases zero : t = 0
  · rw [zero, Nat.zero_min, Nat.zero_min]
  by_cases same : x = x' ∧ y = y'
  · rw [same.1, same.2]
  -- an operand that changes is at least `t` on both sides, and the other is not 0 on one side only
  by_cases none : x = 0 ∨ y = 0
  · have none' : x' = 0 ∨ y' = 0 := by omega
    have product : x * y = 0 := Nat.mul_eq_zero.mpr none
    have product' : x' * y' = 0 := Nat.mul_eq_zero.mpr none'
    rw [product, product']
  · have large : t ≤ x * y := by
      rcases Nat.lt_or_ge x t with small | large
      · exact Nat.le_trans (show t ≤ y by omega) (Nat.le_mul_of_pos_left y (by omega))
      · exact Nat.le_trans large (Nat.le_mul_of_pos_right x (by omega))
    have large' : t ≤ x' * y' := by
      rcases Nat.lt_or_ge x' t with small | large
      · exact Nat.le_trans (show t ≤ y' by omega) (Nat.le_mul_of_pos_left y' (by omega))
      · exact Nat.le_trans large (Nat.le_mul_of_pos_right x' (by omega))
    rw [Nat.min_eq_left large, Nat.min_eq_left large']

theorem saturated_eq {n : Nat} (fits : (n : Int) ≤ Int64.max) : saturated n = n := by
  unfold saturated
  rw [if_neg]
  unfold Int64.max UInt64.max at *
  omega

/-! ## Agreement -/

/-- The call's arguments have the values, 64-bit numbers that are not negative. -/
structure Assigned (values : LibTerm.Values) (call : LibraryCall) : Prop where
  argument : ∀ i n, values.argument i = some n → 0 ≤ n ∧ n ≤ Int64.max ∧
    ∀ width value constant, call.argument i = some (.integer width value constant) →
      ((value.signExtend 64).toNat : Int) = n
  stringLength : ∀ i n, values.stringLength i = some n → 0 ≤ n ∧ n ≤ Int64.max ∧
    ∀ literal length, call.argument i = some (.pointer literal length) → (length : Int) = n

def boundValue : Option Operand → Nat
  | none => UInt64.max
  | some bound => bound.value

/-- What is emitted (`w`) lies between the documented value and the table's
(`v`), which it is up to the bound, and is under a difference or a quotient. -/
structure Agrees (bound meaning : Nat) (inside : Bool) (v : Int) (w : Nat) : Prop where
  fits : v ≤ Int64.max
  low : meaning ≤ w
  high : (w : Int) ≤ v
  upTo : min bound w = min bound v.toNat
  exact' : inside = true → (w : Int) = v

theorem Agrees.of_eq {bound meaning w : Nat} {inside : Bool} {v : Int} (fits : v ≤ Int64.max)
    (low : meaning ≤ w) (same : (w : Int) = v) : Agrees bound meaning inside v w where
  fits := fits
  low := low
  high := Int.le_of_eq same
  upTo := by rw [← same, Int.toNat_natCast]
  exact' _ := same

/-- The right operand of a `min` is bounded by what the left one gave. -/
theorem Agrees.least {bound left right wl wr : Nat} {inside : Bool} {l r : Int}
    (agreesl : Agrees bound left inside l wl) (agreesr : Agrees wl right false r wr)
    (positivel : 0 ≤ l) (positiver : 0 ≤ r) :
    Agrees bound (min left right) inside (if r < l then r else l) (min wl wr) := by
  have value : (if r < l then r else l) = ((min l.toNat r.toNat : Nat) : Int) := by
    split_ifs <;> omega
  have cut : min wl wr = min wl r.toNat := agreesr.upTo
  have fits := agreesl.fits
  have high : wl ≤ l.toNat := Int.le_toNat positivel |>.mpr agreesl.high
  rw [value, cut]
  exact
    { fits := by omega
      low := cut ▸ Nat.le_min.mpr ⟨Nat.le_trans (Nat.min_le_left _ _) agreesl.low,
        Nat.le_trans (Nat.min_le_right _ _) agreesr.low⟩
      high := Int.ofNat_le.mpr (Nat.le_min.mpr ⟨Nat.le_trans (Nat.min_le_left _ _) high,
        Nat.min_le_right _ _⟩)
      upTo := by rw [Int.toNat_natCast, ← Nat.min_assoc, agreesl.upTo, Nat.min_assoc]
      exact' := by
        intro under
        have same : wl = l.toNat := by
          rw [← agreesl.exact' under, Int.toNat_natCast]
        rw [same] }

theorem stringLength_cases (call : LibraryCall) (literal : Bool) (length : Nat)
    (bound : Option Operand) (short : length ≤ UInt64.max) :
    (call.stringLength literal length bound).value = length ∨
      (call.stringLength literal length bound).value = min length (boundValue bound) := by
  unfold LibraryCall.stringLength boundValue
  split
  · split
    · split
      · exact .inr rfl
      · exact .inl rfl
    · exact .inl rfl
  · split
    · exact .inr rfl
    · exact .inl (Nat.min_eq_left short)

section

variable {values : LibTerm.Values} {call : LibraryCall}

theorem stringLength_agrees (assigned : Assigned values call) {arg : Nat} {n : Int}
    {literal : Bool} {length b : Nat} {bound : Option Operand} {inside : Bool}
    (within : b ≤ boundValue bound) (known : values.stringLength arg = some n)
    (given : call.argument arg = some (.pointer literal length))
    (notCut : inside = true → n ≤ b) :
    Agrees (boundValue bound) (min n.toNat b) inside n
      (call.stringLength literal length bound).value := by
  obtain ⟨positive, fits, lengths⟩ := assigned.stringLength arg n known
  have same := lengths literal length given
  have short : length ≤ UInt64.max := by
    unfold Int64.max UInt64.max at *
    omega
  rcases stringLength_cases call literal length bound short with whole | cut
  · rw [whole]
    exact .of_eq fits (by omega) same
  · rw [cut]
    exact
      { fits
        low := by omega
        high := by omega
        upTo := by omega
        exact' := by
          intro under
          have reaches := notCut under
          omega }

/-- The invariant of the two evaluations, one case a constructor. -/
theorem evaluate_agrees (assigned : Assigned values call) (term : LibTerm) (valid : term.Valid)
    (clean : term.NoNegativeOperand values) {b : Nat} {bound : Option Operand} {inside : Bool}
    (within : b ≤ boundValue bound) (notCut : term.NotCut values b inside) {v : Int} {w : Operand}
    (known : term.evaluate values = some v) (positive : 0 ≤ v)
    (emitted : call.evaluate bound term = some w) :
    Agrees (boundValue bound) (term.meaning values b) inside v w.value := by
  induction term generalizing b bound inside v w with
  | constant value =>
      cases known
      cases emitted
      refine .of_eq valid.2 ?_ ?_
      · have positive' := valid.1
        unfold LibTerm.meaning
        dsimp only
        omega
      · dsimp only
        omega
  | argument arg =>
      unfold LibTerm.evaluate at known
      obtain ⟨-, fits, same⟩ := assigned.argument arg v known
      simp only [LibraryCall.evaluate] at emitted
      split at emitted
      · rename_i width value constant given
        cases emitted
        have equal := same width value constant given
        refine .of_eq fits ?_ equal
        simp only [LibTerm.meaning, known, Option.getD_some]
        omega
      · cases emitted
  | stringLength arg =>
      unfold LibTerm.evaluate at known
      simp only [LibraryCall.evaluate] at emitted
      split at emitted
      · rename_i literal length given
        cases emitted
        simp only [LibTerm.meaning, known, Option.getD_some]
        exact stringLength_agrees assigned within known given fun under => notCut under v known
      · cases emitted
  | product left right ihl ihr =>
      simp only [LibTerm.evaluate] at known
      simp only [LibraryCall.evaluate] at emitted
      split at known
      · rename_i l r knownl knownr
        split at emitted
        · rename_i wl wr emittedl emittedr
          cases emitted
          have positivel := clean.1.1 l knownl
          have positiver := clean.1.2 r knownr
          have agreesl := ihl valid.1 clean.2.1 within notCut.1 knownl positivel emittedl
          have agreesr := ihr valid.2 clean.2.2 within notCut.2 knownr positiver emittedr
          obtain ⟨rfl, fits⟩ := LibTerm.checkedMultiply_eq known positivel positiver
          obtain ⟨x, rfl⟩ := Int.eq_ofNat_of_zero_le positivel
          obtain ⟨y, rfl⟩ := Int.eq_ofNat_of_zero_le positiver
          have highl := agreesl.high
          have highr := agreesr.high
          have below : wl.value * wr.value ≤ x * y := Nat.mul_le_mul (by omega) (by omega)
          have whole : saturated (wl.value * wr.value) = wl.value * wr.value := by
            refine saturated_eq (Int.le_trans ?_ fits)
            exact_mod_cast below
          dsimp only
          rw [whole]
          exact
            { fits
              low := Nat.mul_le_mul agreesl.low agreesr.low
              high := by exact_mod_cast below
              upTo := by
                have product := min_mul agreesl.upTo agreesr.upTo
                rw [Int.toNat_natCast, Int.toNat_natCast] at product
                rw [product]
                rfl
              exact' := by
                intro under
                rw [Int.natCast_mul, agreesl.exact' under, agreesr.exact' under] }
        · cases emitted
      · cases known
  | sum left right ihl ihr =>
      simp only [LibTerm.evaluate] at known
      simp only [LibraryCall.evaluate] at emitted
      split at known
      · rename_i l r knownl knownr
        split at emitted
        · rename_i wl wr emittedl emittedr
          cases emitted
          have positivel := clean.1.1 l knownl
          have positiver := clean.1.2 r knownr
          have agreesl := ihl valid.1 clean.2.1 within notCut.1 knownl positivel emittedl
          have agreesr := ihr valid.2 clean.2.2 within notCut.2 knownr positiver emittedr
          obtain ⟨rfl, fits⟩ := LibTerm.checkedAdd_eq known
          specialize fits agreesl.fits positiver
          have highl := agreesl.high
          have highr := agreesr.high
          have whole : saturated (wl.value + wr.value) = wl.value + wr.value :=
            saturated_eq (by omega)
          dsimp only
          rw [whole]
          exact
            { fits
              low := Nat.add_le_add agreesl.low agreesr.low
              high := by omega
              upTo := by
                have sum := min_add agreesl.upTo agreesr.upTo
                rw [sum, Int.toNat_add positivel positiver]
              exact' := by
                intro under
                have exactl := agreesl.exact' under
                have exactr := agreesr.exact' under
                omega }
        · cases emitted
      · cases known
  | difference left value ih =>
      simp only [LibTerm.evaluate] at known
      simp only [LibraryCall.evaluate] at emitted
      split at known
      · cases known
      · rename_i l knownl
        split at known
        · cases known
        · split at emitted
          · cases emitted
          · rename_i wl emittedl
            cases emitted
            obtain ⟨rfl, -⟩ := LibTerm.checkedAdd_eq known
            have subtrahend := valid.2.1
            have agrees := ih valid.1 clean within notCut knownl (by omega) emittedl
            have same := agrees.exact' rfl
            have fits := agrees.fits
            have low := agrees.low
            refine .of_eq (by omega) ?_ ?_
            · unfold LibTerm.meaning
              dsimp only
              split <;> omega
            · dsimp only
              split <;> omega
  | min left right ihl ihr =>
      simp only [LibTerm.evaluate] at known
      simp only [LibraryCall.evaluate] at emitted
      split at known
      · rename_i l r knownl knownr
        split at emitted
        · cases emitted
        · rename_i wl emittedl
          split at emitted
          · cases emitted
          · rename_i wr emittedr
            cases emitted
            obtain rfl : (if r < l then r else l) = v := Option.some.inj known
            have positivel : 0 ≤ l := by
              split at positive <;> omega
            have positiver : 0 ≤ r := by
              split at positive <;> omega
            have agreesl := ihl valid.1 clean.1 within notCut.1 knownl positivel emittedl
            have bounded : left.meaning values b ≤ boundValue (some wl) := agreesl.low
            have agreesr := ihr valid.2 clean.2 bounded notCut.2 knownr positiver emittedr
            unfold LibTerm.meaning
            exact agreesl.least agreesr positivel positiver
      · cases known
  | quotient left value ih =>
      simp only [LibTerm.evaluate] at known
      simp only [LibraryCall.evaluate] at emitted
      split at known
      · cases known
      · rename_i l knownl
        split at known
        · cases known
        · rename_i divisor
          split at emitted
          · cases emitted
          · rename_i wl emittedl
            rw [if_neg divisor] at emitted
            cases emitted
            obtain ⟨positivel, floor⟩ := LibTerm.quotient_eq (Int.not_le.mp divisor) positive
              (Option.some.inj known).symm
            have agrees := ih valid.1 clean within notCut knownl positivel emittedl
            have same := agrees.exact' rfl
            obtain ⟨d, rfl⟩ := Int.eq_ofNat_of_zero_le (Int.le_of_lt (Int.not_le.mp divisor))
            have value : ((wl.value / d : Nat) : Int) = v := by
              rw [floor, ← same]
              exact Int.natCast_ediv wl.value d
            refine .of_eq ?_ ?_ value
            · have fits := agrees.fits
              have less : l / (d : Int) ≤ l := Int.ediv_le_self (d : Int) positivel
              omega
            · exact Nat.div_le_div_right agrees.low

/-- Where the table's evaluator has a value that is not negative, the emitted
code computes it, unless a negative difference enters a sum or a product or a
string is cut short under a difference or a quotient. -/
theorem evaluators_agree (assigned : Assigned values call) (term : LibTerm) (valid : term.Valid)
    (clean : term.NoNegativeOperand values) (notCut : term.NotCut values UInt64.max false)
    {v : Int} {w : Operand} (known : term.evaluate values = some v) (positive : 0 ≤ v)
    (emitted : call.evaluate none term = some w) : (w.value : Int) = v := by
  have whole : UInt64.max ≤ boundValue none := Nat.le_refl _
  have agrees := evaluate_agrees assigned term valid clean whole notCut known positive emitted
  have fits := agrees.fits
  have high := agrees.high
  have upTo := agrees.upTo
  have largest : (Int64.max : Int) = 0x7FFFFFFFFFFFFFFF := rfl
  have limit : boundValue none = 0xFFFFFFFFFFFFFFFF := rfl
  omega

end

/-! What `strncpy` reads, of a string of 20 characters with a size of 5. -/

def copyCall : LibraryCall where
  argument
    | 0 => some (.integer 64 5#64 false)
    | 1 => some (.pointer false 20)
    | _ => none
  wide := false
  folds := false

def copyValues : LibTerm.Values where
  argument i := if i = 0 then some 5 else none
  stringLength i := if i = 1 then some 20 else none

theorem copyValues_assigned : Assigned copyValues copyCall where
  argument i n known := by
    unfold copyValues at known
    dsimp only at known
    split at known
    · rename_i first
      cases known
      refine ⟨by decide, by decide, ?_⟩
      rintro width value constant given
      cases first
      cases given
      rfl
    · cases known
  stringLength i n known := by
    unfold copyValues at known
    dsimp only at known
    split at known
    · rename_i second
      cases known
      refine ⟨by decide, by decide, ?_⟩
      rintro literal length given
      cases second
      cases given
      rfl
    · cases known

/-- `min(a0,strlen(a1)+1)`. -/
def copied : LibTerm := .min (.argument 0) (.sum (.stringLength 1) (.constant 1))

theorem evaluators_agree_copied : copied.evaluate copyValues = some 5 ∧
    ∃ w, copyCall.evaluate none copied = some w ∧ (w.value : Int) = 5 := by
  obtain ⟨w, emitted⟩ : ∃ w, copyCall.evaluate none copied = some w :=
    Option.isSome_iff_exists.mp (by decide)
  refine ⟨rfl, w, emitted,
    evaluators_agree copyValues_assigned copied ?_ ?_ ?_ rfl (by decide) emitted⟩
  · simp [copied, LibTerm.Valid, Int64.max]
  · refine ⟨trivial, ⟨?_, ?_⟩, trivial, trivial⟩
    · rintro v known
      cases known
      decide
    · rintro v known
      cases known
      decide
  · exact ⟨trivial, nofun, trivial⟩

/-- `a0-9+a0` is 1 to the table and 5 to the code; `min(a0,strlen(a1)/2)` is 5
and 2. -/
theorem evaluators_differ :
    (¬ ∀ (values : LibTerm.Values) (call : LibraryCall), Assigned values call →
      ∀ (term : LibTerm), term.Valid → ∀ v, term.evaluate values = some v → 0 ≤ v →
        ∀ w, call.evaluate none term = some w → (w.value : Int) = v) ∧
      (LibTerm.min (.argument 0) (.quotient (.stringLength 1) 2)).evaluate copyValues = some 5 ∧
      copyCall.evaluate none (.min (.argument 0) (.quotient (.stringLength 1) 2)) =
        some ⟨2, false⟩ := by
  refine ⟨fun agree => ?_, rfl, rfl⟩
  have differ := agree copyValues copyCall copyValues_assigned
    (.sum (.difference (.argument 0) 9) (.argument 0)) (by simp [LibTerm.Valid, Int64.max]) 1 rfl
    (by decide) ⟨5, false⟩ rfl
  simp at differ

end WeaveC.Calls
