import WeaveC.Calls.TermSpec

/-!
# Exact values of terms

The table's evaluator in signed 64-bit arithmetic, where a result that does not
fit is undefined, against the exact value of a term.  They agree as long as no
quotient's negative dividend lies so low that rounding it up overflows.
-/

namespace WeaveC.Calls

/-- The value fits a signed 64-bit integer. -/
def Int64.Fits (v : Int) : Prop := Int64.min ≤ v ∧ v ≤ Int64.max

instance (v : Int) : Decidable (Int64.Fits v) := inferInstanceAs (Decidable (_ ∧ _))

namespace LibTerm

/-! ## The evaluator in signed arithmetic -/

/-- An operation's result; none is an overflow. -/
def signed (exact : Int) : Option Int := if Int64.Fits exact then some exact else none

def signedDiv (left right : Int) : Option Int :=
  if right = 0 then none else signed (left.tdiv right)

/-- `checkedAdd`: none is an overflow, `some none` no value. -/
def checkedAdd64 (left right : Int) : Option (Option Int) := do
  let overflows ←
    if 0 < right then (signed (Int64.max - right)).map fun m => decide (m < left)
    else if right < 0 then (signed (Int64.min - right)).map fun m => decide (left < m)
    else some false
  if overflows then some none else (signed (left + right)).map some

/-- `checkedMultiply`. -/
def checkedMultiply64 (left right : Int) : Option (Option Int) :=
  if left = 0 ∨ right = 0 then some (some 0)
  else do
    let overflows ←
      if 0 < left then
        if 0 < right then (signedDiv Int64.max right).map fun m => decide (m < left)
        else (signedDiv Int64.min left).map fun m => decide (right < m)
      else if 0 < right then (signedDiv Int64.min right).map fun m => decide (left < m)
      else (signedDiv Int64.max right).map fun m => decide (left < m)
    if overflows then some none else (signed (left * right)).map some

/-- A quotient rounded down. -/
def roundedDown (left value : Int) : Option Int :=
  if 0 ≤ left then signedDiv left value
  else do
    let negated ← signed (-left)
    let raised ← signed (negated + value)
    let dividend ← signed (raised - 1)
    let quotient ← signedDiv dividend value
    signed (-quotient)

/-- `LibTerm::evaluate`: none when an operation overflows, `some none` when
there is no value. -/
def evaluate64 (values : Values) : LibTerm → Option (Option Int)
  | constant value => some (some value)
  | argument arg => some (values.argument arg)
  | stringLength arg => some (values.stringLength arg)
  | difference left value => do
      match ← left.evaluate64 values with
      | none => some none
      | some l =>
          if value = Int64.min then some none
          else checkedAdd64 l (← signed (-value))
  | quotient left value => do
      match ← left.evaluate64 values with
      | none => some none
      | some l => if value ≤ 0 then some none else (roundedDown l value).map some
  | product left right => do
      match ← left.evaluate64 values, ← right.evaluate64 values with
      | some l, some r => checkedMultiply64 l r
      | _, _ => some none
  | sum left right => do
      match ← left.evaluate64 values, ← right.evaluate64 values with
      | some l, some r => checkedAdd64 l r
      | _, _ => some none
  | min left right => do
      match ← left.evaluate64 values, ← right.evaluate64 values with
      | some l, some r => some (some (if r < l then r else l))
      | _, _ => some none

/-! ## Checked operations -/

theorem fits_iff {v : Int} :
    Int64.Fits v ↔ -0x8000000000000000 ≤ v ∧ v ≤ 0x7FFFFFFFFFFFFFFF := Iff.rfl

theorem signed_of_fits {v : Int} (fits : Int64.Fits v) : signed v = some v := if_pos fits

theorem signed_eq_some {e v : Int} : signed e = some v ↔ Int64.Fits e ∧ e = v := by
  unfold signed
  split <;> simp_all

theorem checkedAdd_eq_signed {l r : Int} (left : Int64.Fits l) (right : Int64.Fits r) :
    checkedAdd l r = signed (l + r) := by
  rw [fits_iff] at left right
  unfold checkedAdd signed
  by_cases fits : Int64.Fits (l + r)
  · rw [if_pos fits, if_neg]
    rw [fits_iff] at fits
    unfold Int64.max Int64.min
    omega
  · rw [if_neg fits, if_pos]
    rw [fits_iff] at fits
    unfold Int64.max Int64.min
    omega

theorem checkedAdd64_eq {l r : Int} (left : Int64.Fits l) (right : Int64.Fits r) :
    checkedAdd64 l r = some (checkedAdd l r) := by
  have sum := checkedAdd_eq_signed left right
  rw [fits_iff] at left right
  have added (stays : Int64.Fits (l + r)) : signed (l + r) = some (l + r) := signed_of_fits stays
  unfold checkedAdd at sum ⊢
  unfold checkedAdd64
  rcases Int.lt_trichotomy r 0 with negative | rfl | positive
  · have fits : Int64.Fits (Int64.min - r) := by
      rw [fits_iff]
      unfold Int64.min
      omega
    rw [if_neg (by omega : ¬ 0 < r), if_pos negative, signed_of_fits fits]
    by_cases below : l < Int64.min - r
    · rw [if_pos (.inr ⟨negative, below⟩)]
      simp [below]
    · rw [if_neg (by omega)] at sum ⊢
      simp [below, ← sum]
  · rw [if_neg (by omega)] at sum ⊢
    simp only [Int.lt_irrefl, if_false, ← sum]
    rfl
  · have fits : Int64.Fits (Int64.max - r) := by
      rw [fits_iff]
      unfold Int64.max
      omega
    rw [if_pos positive, signed_of_fits fits]
    by_cases above : Int64.max - r < l
    · rw [if_pos (.inl ⟨positive, above⟩)]
      simp [above]
    · rw [if_neg (by omega)] at sum ⊢
      simp [above, ← sum]

theorem tdiv_lt_iff {m a b : Int} (positive : 0 ≤ m) (divisor : 0 < b) :
    m.tdiv b < a ↔ m < a * b := by
  rw [Int.tdiv_eq_ediv_of_nonneg positive]
  exact Int.ediv_lt_iff_lt_mul divisor

theorem guarded_eq {flag : Bool} {e : Int} (eq : (if flag then none else some e) = signed e) :
    (if flag then some none else (signed e).map some) =
      some (if flag then none else some e) := by
  cases flag with
  | true => rfl
  | false =>
      rw [← eq]
      rfl

/-- The four tests of `checkedMultiply` say that the product leaves the range. -/
theorem max_tdiv_lt_iff {l r : Int} (right : 0 < r) :
    Int64.max.tdiv r < l ↔ Int64.max < l * r := tdiv_lt_iff (by decide) right

theorem lt_min_tdiv_iff {l r : Int} (left : 0 < l) :
    r < Int64.min.tdiv l ↔ l * r < Int64.min := by
  have opposite : Int64.min.tdiv l = -((-Int64.min).tdiv l) := by
    rw [Int.neg_tdiv, Int.neg_neg]
  have limit := tdiv_lt_iff (a := -r) (by decide : 0 ≤ -Int64.min) left
  rw [Int.neg_mul, Int.mul_comm] at limit
  rw [opposite]
  omega

theorem lt_max_tdiv_iff {l r : Int} (right : r < 0) :
    l < Int64.max.tdiv r ↔ Int64.max < l * r := by
  have opposite : Int64.max.tdiv r = -(Int64.max.tdiv (-r)) := by
    rw [Int.tdiv_neg, Int.neg_neg]
  have limit := tdiv_lt_iff (a := -l) (by decide : 0 ≤ Int64.max) (by omega : 0 < -r)
  rw [Int.neg_mul_neg] at limit
  rw [opposite]
  omega

theorem signedDiv_max {r : Int} (some : r ≠ 0) :
    signedDiv Int64.max r = .some (Int64.max.tdiv r) := by
  unfold signedDiv
  rw [if_neg some]
  refine signed_of_fits ?_
  have below := Int.natAbs_tdiv_le_natAbs Int64.max r
  rw [fits_iff]
  unfold Int64.max at below ⊢
  omega

theorem signedDiv_min {r : Int} (positive : 0 < r) :
    signedDiv Int64.min r = some (Int64.min.tdiv r) := by
  unfold signedDiv
  rw [if_neg (by omega)]
  refine signed_of_fits ?_
  have below := Int.natAbs_tdiv_le_natAbs Int64.min r
  have sign : Int64.min.tdiv r ≤ 0 := by
    have opposite : Int64.min.tdiv r = -((-Int64.min).tdiv r) := by
      rw [Int.neg_tdiv, Int.neg_neg]
    have positive := Int.tdiv_nonneg (by decide : 0 ≤ -Int64.min) (by omega : 0 ≤ r)
    omega
  rw [fits_iff]
  unfold Int64.min at below sign ⊢
  omega

theorem checkedMultiply_eq_signed (l r : Int) : checkedMultiply l r = signed (l * r) := by
  unfold checkedMultiply
  by_cases zero : l = 0 ∨ r = 0
  · rw [if_pos zero, Int.mul_eq_zero.mpr zero]
    rfl
  · rw [if_neg zero]
    dsimp only
    have outside (test : Prop) [Decidable test] (leaves : test ↔ ¬ Int64.Fits (l * r)) :
        (if decide test = true then none else some (l * r)) = signed (l * r) := by
      unfold signed
      by_cases fits : Int64.Fits (l * r)
      · rw [if_pos fits, if_neg (by simpa using fun holds => leaves.mp holds fits)]
      · rw [if_neg fits, if_pos (by simpa using leaves.mpr fits)]
    have smallest : Int64.min < 0 := by decide
    have largest : 0 < Int64.max := by decide
    unfold Int64.Fits at outside
    by_cases left : 0 < l <;> by_cases right : 0 < r
    · have sign := Int.mul_pos left right
      simp only [if_pos left, if_pos right]
      exact outside _ (by rw [max_tdiv_lt_iff right]; omega)
    · have sign := Int.mul_neg_of_pos_of_neg left (by omega : r < 0)
      simp only [if_pos left, if_neg right]
      exact outside _ (by rw [lt_min_tdiv_iff left]; omega)
    · have sign := Int.mul_neg_of_neg_of_pos (by omega : l < 0) right
      simp only [if_neg left, if_pos right]
      exact outside _ (by rw [lt_min_tdiv_iff right, Int.mul_comm]; omega)
    · have sign := Int.mul_pos_of_neg_of_neg (by omega : l < 0) (by omega : r < 0)
      simp only [if_neg left, if_neg right]
      exact outside _ (by rw [lt_max_tdiv_iff (by omega)]; omega)

theorem checkedMultiply64_eq (l r : Int) :
    checkedMultiply64 l r = some (checkedMultiply l r) := by
  have product := checkedMultiply_eq_signed l r
  unfold checkedMultiply at product ⊢
  unfold checkedMultiply64
  by_cases zero : l = 0 ∨ r = 0
  · rw [if_pos zero, if_pos zero]
  · rw [if_neg zero] at product ⊢
    rw [if_neg zero]
    dsimp only at product ⊢
    by_cases left : 0 < l <;> by_cases right : 0 < r
    · rw [if_pos left, if_pos right] at product ⊢
      rw [if_pos left, if_pos right, signedDiv_max (by omega)]
      exact guarded_eq product
    · rw [if_pos left, if_neg right] at product ⊢
      rw [if_pos left, if_neg right, signedDiv_min left]
      exact guarded_eq product
    · rw [if_neg left, if_pos right] at product ⊢
      rw [if_neg left, if_pos right, signedDiv_min right]
      exact guarded_eq product
    · rw [if_neg left, if_neg right] at product ⊢
      rw [if_neg left, if_neg right, signedDiv_max (by omega)]
      exact guarded_eq product

theorem ediv_raised (l : Int) {v : Int} (divisor : 0 < v) : (-l + v - 1) / v = -(l / v) := by
  have below := Int.mul_ediv_self_le (x := l) (k := v) (by omega)
  have above := Int.lt_mul_ediv_self_add (x := l) divisor
  refine Int.le_antisymm ?_ ((Int.le_ediv_iff_mul_le divisor).mpr ?_)
  · refine Int.le_of_lt_add_one ((Int.ediv_lt_iff_lt_mul divisor).mpr ?_)
    rw [Int.add_mul, Int.neg_mul, Int.mul_comm _ v]
    omega
  · rw [Int.neg_mul, Int.mul_comm _ v]
    omega

/-- A quotient by a positive number overflows exactly when a negative dividend
is too low to be rounded. -/
theorem roundedDown_eq {l v : Int} (left : Int64.Fits l) (divisor : 0 < v)
    (right : v ≤ Int64.max) :
    roundedDown l v = if l < 0 → v - l ≤ Int64.max then some (l / v) else none := by
  rw [fits_iff] at left
  unfold Int64.max at right
  unfold roundedDown
  by_cases sign : 0 ≤ l
  · have below := Int.ediv_le_self v sign
    have positive := Int.ediv_nonneg sign (by omega : 0 ≤ v)
    rw [if_pos sign, if_pos (fun negative => absurd sign (by omega))]
    unfold signedDiv
    rw [if_neg (by omega), Int.tdiv_eq_ediv_of_nonneg sign]
    exact signed_of_fits (fits_iff.mpr (by omega))
  · rw [if_neg sign]
    by_cases room : v - l ≤ Int64.max
    · rw [if_pos fun _ => room]
      unfold Int64.max at room
      have positive : 0 ≤ -l + v - 1 := by omega
      have rounded := ediv_raised l divisor
      have below := Int.ediv_le_self v positive
      have quotient := Int.ediv_nonneg positive (by omega : 0 ≤ v)
      rw [signed_of_fits (fits_iff.mpr (by omega))]
      change (signed (-l + v)).bind _ = _
      rw [signed_of_fits (fits_iff.mpr (by omega))]
      change (signed (-l + v - 1)).bind _ = _
      rw [signed_of_fits (fits_iff.mpr (by omega))]
      change (signedDiv (-l + v - 1) v).bind _ = _
      unfold signedDiv
      rw [if_neg (by omega), Int.tdiv_eq_ediv_of_nonneg positive,
        signed_of_fits (fits_iff.mpr (by omega))]
      change signed (-((-l + v - 1) / v)) = _
      rw [signed_of_fits (fits_iff.mpr (by omega)), rounded, Int.neg_neg]
    · rw [if_neg fun all => room (all (by omega))]
      unfold Int64.max at room
      by_cases lowest : Int64.Fits (-l)
      · rw [signed_of_fits lowest]
        change (signed (-l + v)).bind _ = _
        rw [signed, if_neg (by rw [fits_iff]; omega)]
        rfl
      · rw [signed, if_neg lowest]
        rfl

/-! ## The exact value -/

/-- A term as its types make it: its numbers are signed 64-bit integers. -/
def Typed : LibTerm → Prop
  | constant value => Int64.Fits value
  | argument _ | stringLength _ => True
  | product left right | sum left right | min left right => left.Typed ∧ right.Typed
  | difference left value | quotient left value => left.Typed ∧ Int64.Fits value

structure Values.Typed (values : Values) : Prop where
  argument : ∀ arg v, values.argument arg = some v → Int64.Fits v
  stringLength : ∀ arg v, values.stringLength arg = some v → Int64.Fits v

/-- The mathematical value: no limits, quotients rounded down. -/
def exact (values : Values) : LibTerm → Option Int
  | constant value => some value
  | argument arg => values.argument arg
  | stringLength arg => values.stringLength arg
  | difference left value => (left.exact values).map fun l => l - value
  | quotient left value => if 0 < value then (left.exact values).map fun l => l / value else none
  | product left right =>
      (left.exact values).bind fun l => (right.exact values).map fun r => l * r
  | sum left right =>
      (left.exact values).bind fun l => (right.exact values).map fun r => l + r
  | min left right =>
      (left.exact values).bind fun l => (right.exact values).map fun r => Min.min l r

def subterms : LibTerm → List LibTerm
  | constant value => [constant value]
  | argument arg => [argument arg]
  | stringLength arg => [stringLength arg]
  | difference left value => difference left value :: left.subterms
  | quotient left value => quotient left value :: left.subterms
  | product left right => product left right :: (left.subterms ++ right.subterms)
  | sum left right => sum left right :: (left.subterms ++ right.subterms)
  | min left right => min left right :: (left.subterms ++ right.subterms)

/-- A leaf that is unknown, a subtracted constant with no negation and a divisor
that is not positive. -/
def Blocked (values : Values) : LibTerm → Prop
  | argument arg => values.argument arg = none
  | stringLength arg => values.stringLength arg = none
  | difference _ value => ¬ Int64.Fits (-value)
  | quotient _ value => value ≤ 0
  | _ => False

/-- Why a term has no value: it is blocked, or its exact value does not fit. -/
def Obstacle (values : Values) (term : LibTerm) : Prop :=
  term.Blocked values ∨ ∃ e, term.exact values = some e ∧ ¬ Int64.Fits e

def Clear (values : Values) (term : LibTerm) : Prop :=
  ∀ s ∈ term.subterms, ¬ s.Obstacle values

theorem mem_subterms_self (term : LibTerm) : term ∈ term.subterms := by
  cases term <;> exact List.mem_cons_self

/-- What the evaluator says of a term: its exact value where nothing is in the
way, and else none. -/
structure Settled (values : Values) (term : LibTerm) : Prop where
  value : ∀ v, term.evaluate values = some v →
    Int64.Fits v ∧ term.exact values = some v ∧ term.Clear values
  unknown : term.evaluate values = none → ∃ s ∈ term.subterms, s.Obstacle values

section Settled

variable {values : Values} {term left right : LibTerm}

theorem Settled.leaf (listed : term.subterms = [term])
    (evaluated : term.evaluate values = term.exact values)
    (fits : ∀ v, term.exact values = some v → Int64.Fits v)
    (blocked : term.Blocked values ↔ term.exact values = none) : term.Settled values := by
  constructor
  · intro v known
    rw [evaluated] at known
    refine ⟨fits v known, known, fun s mem => ?_⟩
    rw [listed, List.mem_singleton] at mem
    subst mem
    rintro (none | ⟨e, exact, outside⟩)
    · rw [blocked.mp none] at known
      cases known
    · exact outside (fits e exact)
  · intro none
    rw [evaluated] at none
    exact ⟨term, mem_subterms_self term, .inl (blocked.mpr none)⟩

/-- A term whose value its operands' values give, as long as it fits. -/
theorem Settled.binary {f : Int → Int → Int} (listed :
      ∀ s, s ∈ term.subterms ↔ s = term ∨ s ∈ left.subterms ∨ s ∈ right.subterms)
    (evaluated : ∀ l r, left.evaluate values = some l → right.evaluate values = some r →
      Int64.Fits l → Int64.Fits r → term.evaluate values = signed (f l r))
    (strict : left.evaluate values = none ∨ right.evaluate values = none →
      term.evaluate values = none)
    (exact : term.exact values =
      (left.exact values).bind fun l => (right.exact values).map fun r => f l r)
    (free : ¬ term.Blocked values) (first : left.Settled values) (second : right.Settled values) :
    term.Settled values := by
  cases known : left.evaluate values with
  | none =>
      obtain ⟨s, mem, obstacle⟩ := first.unknown known
      constructor
      · intro v some
        rw [strict (.inl known)] at some
        cases some
      · intro _
        exact ⟨s, (listed s).mpr (.inr (.inl mem)), obstacle⟩
  | some l =>
      cases known' : right.evaluate values with
      | none =>
          obtain ⟨s, mem, obstacle⟩ := second.unknown known'
          constructor
          · intro v some
            rw [strict (.inr known')] at some
            cases some
          · intro _
            exact ⟨s, (listed s).mpr (.inr (.inr mem)), obstacle⟩
      | some r =>
          obtain ⟨fits, exact_left, clear⟩ := first.value l known
          obtain ⟨fits', exact_right, clear'⟩ := second.value r known'
          rw [exact_left, exact_right] at exact
          have here := evaluated l r known known' fits fits'
          constructor
          · intro v some
            rw [here] at some
            obtain ⟨stays, rfl⟩ := signed_eq_some.mp some
            refine ⟨stays, exact, fun s mem => ?_⟩
            rcases (listed s).mp mem with rfl | mem | mem
            · rintro (blocked | ⟨e, same, outside⟩)
              · exact free blocked
              · rw [exact] at same
                cases same
                exact outside stays
            · exact clear s mem
            · exact clear' s mem
          · intro none
            refine ⟨term, (listed term).mpr (.inl rfl), .inr ⟨f l r, exact, fun stays => ?_⟩⟩
            rw [here, signed_of_fits stays] at none
            cases none

/-- The same for one operand. -/
theorem Settled.unary {f : Int → Int} (listed :
      ∀ s, s ∈ term.subterms ↔ s = term ∨ s ∈ left.subterms)
    (blocked : term.Blocked values → term.evaluate values = none)
    (evaluated : ¬ term.Blocked values → ∀ l, left.evaluate values = some l → Int64.Fits l →
      term.evaluate values = signed (f l))
    (strict : left.evaluate values = none → term.evaluate values = none)
    (exact : ¬ term.Blocked values → term.exact values = (left.exact values).map f)
    (operand : left.Settled values) : term.Settled values := by
  cases known : left.evaluate values with
  | none =>
      obtain ⟨s, mem, obstacle⟩ := operand.unknown known
      constructor
      · intro v some
        rw [strict known] at some
        cases some
      · intro _
        exact ⟨s, (listed s).mpr (.inr mem), obstacle⟩
  | some l =>
      obtain ⟨fits, exact_left, clear⟩ := operand.value l known
      by_cases free : term.Blocked values
      · constructor
        · intro v some
          rw [blocked free] at some
          cases some
        · intro _
          exact ⟨term, (listed term).mpr (.inl rfl), .inl free⟩
      · have here := evaluated free l known fits
        have value := exact free
        rw [exact_left] at value
        constructor
        · intro v some
          rw [here] at some
          obtain ⟨stays, rfl⟩ := signed_eq_some.mp some
          refine ⟨stays, value, fun s mem => ?_⟩
          rcases (listed s).mp mem with rfl | mem
          · rintro (blocked | ⟨e, same, outside⟩)
            · exact free blocked
            · rw [value] at same
              cases same
              exact outside stays
          · exact clear s mem
        · intro none
          refine ⟨term, (listed term).mpr (.inl rfl), .inr ⟨f l, value, fun stays => ?_⟩⟩
          rw [here, signed_of_fits stays] at none
          cases none

end Settled

theorem fits_ediv {l v : Int} (left : Int64.Fits l) (divisor : 0 < v) : Int64.Fits (l / v) := by
  rw [fits_iff] at left ⊢
  by_cases sign : 0 ≤ l
  · have below := Int.ediv_le_self v sign
    have positive := Int.ediv_nonneg sign (by omega : 0 ≤ v)
    omega
  · have negative : l / v < 0 := (Int.ediv_lt_iff_lt_mul divisor).mpr (by omega)
    have above : l ≤ l / v := by
      refine (Int.le_ediv_iff_mul_le divisor).mpr ?_
      have scaled := Int.mul_le_mul_of_nonpos_left (by omega : l ≤ 0) (by omega : 1 ≤ v)
      omega
    omega

/-- The rounding of the source is the floor. -/
theorem rounded_eq (l : Int) {v : Int} (divisor : 0 < v) :
    (if 0 ≤ l then l.tdiv v else -((-l + v - 1).tdiv v)) = l / v := by
  by_cases sign : 0 ≤ l
  · rw [if_pos sign, Int.tdiv_eq_ediv_of_nonneg sign]
  · rw [if_neg sign, Int.tdiv_eq_ediv_of_nonneg (by omega), ediv_raised l divisor, Int.neg_neg]

section Evaluation

variable {values : Values}

/-- The evaluator of exact integers says what a term's exact value is. -/
theorem settled (known : values.Typed) (term : LibTerm) (typed : term.Typed) :
    term.Settled values := by
  induction term with
  | constant value =>
      refine .leaf rfl rfl ?_ ⟨False.elim, fun none => ?_⟩
      · intro v same
        cases same
        exact typed
      · cases none
  | argument arg => exact .leaf rfl rfl (known.argument arg) Iff.rfl
  | stringLength arg => exact .leaf rfl rfl (known.stringLength arg) Iff.rfl
  | product left right first second =>
      refine .binary (f := fun l r => l * r) ?_ ?_ ?_ rfl id (first typed.1) (second typed.2)
      · intro s
        simp [subterms]
      · intro l r some_left some_right _ _
        simp only [evaluate, some_left, some_right]
        exact checkedMultiply_eq_signed l r
      · rintro (none | none)
        · simp only [evaluate, none]
        · cases some_left : left.evaluate values <;> simp only [evaluate, none, some_left]
  | sum left right first second =>
      refine .binary (f := fun l r => l + r) ?_ ?_ ?_ rfl id (first typed.1) (second typed.2)
      · intro s
        simp [subterms]
      · intro l r some_left some_right fits fits'
        simp only [evaluate, some_left, some_right]
        exact checkedAdd_eq_signed fits fits'
      · rintro (none | none)
        · simp only [evaluate, none]
        · cases some_left : left.evaluate values <;> simp only [evaluate, none, some_left]
  | min left right first second =>
      refine .binary (f := fun l r => Min.min l r) ?_ ?_ ?_ rfl id (first typed.1)
        (second typed.2)
      · intro s
        simp [subterms]
      · intro l r some_left some_right fits fits'
        simp only [evaluate, some_left, some_right]
        have smaller : (if r < l then r else l) = Min.min l r := by
          split <;> omega
        rw [smaller, signed_of_fits]
        rw [fits_iff] at fits fits' ⊢
        omega
      · rintro (none | none)
        · simp only [evaluate, none]
        · cases some_left : left.evaluate values <;> simp only [evaluate, none, some_left]
  | difference left value operand =>
      refine .unary (f := fun l => l - value) ?_ ?_ ?_ ?_ (fun _ => rfl) (operand typed.1)
      · intro s
        simp [subterms]
      · intro blocked
        have lowest : value = Int64.min := by
          have fits := typed.2
          change ¬ Int64.Fits (-value) at blocked
          rw [fits_iff] at blocked fits
          unfold Int64.min
          omega
        cases some_left : left.evaluate values <;> simp only [evaluate, some_left, if_pos lowest]
      · intro free l some_left fits
        have fits' : Int64.Fits (-value) := Decidable.not_not.mp free
        have above : value ≠ Int64.min := by
          rintro rfl
          exact absurd fits' (by decide)
        simp only [evaluate, some_left, if_neg above]
        exact checkedAdd_eq_signed fits fits'
      · intro none
        simp only [evaluate, none]
  | quotient left value operand =>
      refine .unary (f := fun l => l / value) ?_ ?_ ?_ ?_ ?_ (operand typed.1)
      · intro s
        simp [subterms]
      · intro blocked
        have divisor : value ≤ 0 := blocked
        cases some_left : left.evaluate values <;> simp only [evaluate, some_left, if_pos divisor]
      · intro free l some_left fits
        have divisor : ¬ value ≤ 0 := free
        simp only [evaluate, some_left, if_neg divisor]
        rw [rounded_eq l (by omega), signed_of_fits (fits_ediv fits (by omega))]
      · intro none
        simp only [evaluate, none]
      · intro free
        have divisor : ¬ value ≤ 0 := free
        exact if_pos (by omega)

/-! ## The evaluator in signed arithmetic -/

/-- No quotient's dividend is negative and so low that the divisor added to its
absolute value does not fit. -/
def RoomToRound (values : Values) (term : LibTerm) : Prop :=
  ∀ left value, quotient left value ∈ term.subterms → 0 < value → left.Clear values →
    ∀ l, left.exact values = some l → l < 0 → value - l ≤ Int64.max

theorem RoomToRound.mono {term part : LibTerm} (room : term.RoomToRound values)
    (listed : ∀ s ∈ part.subterms, s ∈ term.subterms) : part.RoomToRound values :=
  fun left value mem => room left value (listed _ mem)

/-- With room to round, the evaluator's signed arithmetic is exact. -/
theorem evaluate64_of_room (known : values.Typed) (term : LibTerm) (typed : term.Typed)
    (room : term.RoomToRound values) :
    term.evaluate64 values = some (term.evaluate values) := by
  induction term with
  | constant value => rfl
  | argument arg => rfl
  | stringLength arg => rfl
  | product left right first second =>
      have first := first typed.1 (room.mono fun s mem => by simp [subterms, mem])
      have second := second typed.2 (room.mono fun s mem => by simp [subterms, mem])
      unfold evaluate64 evaluate
      rw [first, second]
      cases left.evaluate values with
      | none => rfl
      | some l =>
          cases right.evaluate values with
          | none => rfl
          | some r => exact checkedMultiply64_eq l r
  | sum left right first second =>
      have first := first typed.1 (room.mono fun s mem => by simp [subterms, mem])
      have second := second typed.2 (room.mono fun s mem => by simp [subterms, mem])
      have fits := (settled known left typed.1).value
      have fits' := (settled known right typed.2).value
      unfold evaluate64 evaluate
      rw [first, second]
      cases some_left : left.evaluate values with
      | none => rfl
      | some l =>
          cases some_right : right.evaluate values with
          | none => rfl
          | some r => exact checkedAdd64_eq (fits l some_left).1 (fits' r some_right).1
  | min left right first second =>
      have first := first typed.1 (room.mono fun s mem => by simp [subterms, mem])
      have second := second typed.2 (room.mono fun s mem => by simp [subterms, mem])
      unfold evaluate64 evaluate
      rw [first, second]
      cases left.evaluate values <;> cases right.evaluate values <;> rfl
  | difference left value operand =>
      have operand := operand typed.1 (room.mono fun s mem => by simp [subterms, mem])
      have fits := (settled known left typed.1).value
      unfold evaluate64 evaluate
      rw [operand]
      cases some_left : left.evaluate values with
      | none => rfl
      | some l =>
          change (if value = Int64.min then _ else _) = some (if value = Int64.min then _ else _)
          by_cases lowest : value = Int64.min
          · rw [if_pos lowest, if_pos lowest]
          · have negation : Int64.Fits (-value) := by
              have fits' := typed.2
              unfold Int64.min at lowest
              rw [fits_iff] at fits' ⊢
              omega
            rw [if_neg lowest, if_neg lowest, signed_of_fits negation]
            exact checkedAdd64_eq (fits l some_left).1 negation
  | quotient left value operand =>
      have operand := operand typed.1 (room.mono fun s mem => by simp [subterms, mem])
      have fits := (settled known left typed.1).value
      unfold evaluate64 evaluate
      rw [operand]
      cases some_left : left.evaluate values with
      | none => rfl
      | some l =>
          obtain ⟨fits, exact, clear⟩ := fits l some_left
          change (if value ≤ 0 then _ else _) = some (if value ≤ 0 then _ else _)
          by_cases divisor : value ≤ 0
          · rw [if_pos divisor, if_pos divisor]
          · have positive : 0 < value := by omega
            have enough := room left value (mem_subterms_self _) positive clear l exact
            rw [if_neg divisor, if_neg divisor, roundedDown_eq fits positive typed.2.2,
              if_pos enough, rounded_eq l positive]
            rfl

/-- Where no operation overflows there was room to round. -/
theorem room_of_evaluate64 (known : values.Typed) (term : LibTerm) (typed : term.Typed)
    {r : Option Int} (evaluated : term.evaluate64 values = some r) :
    term.RoomToRound values := by
  induction term generalizing r with
  | constant value =>
      intro left value mem
      simp [subterms] at mem
  | argument arg =>
      intro left value mem
      simp [subterms] at mem
  | stringLength arg =>
      intro left value mem
      simp [subterms] at mem
  | product left right first second | sum left right first second | min left right first second =>
      unfold evaluate64 at evaluated
      obtain ⟨l, some_left, evaluated⟩ := Option.bind_eq_some_iff.mp evaluated
      obtain ⟨r, some_right, evaluated⟩ := Option.bind_eq_some_iff.mp evaluated
      intro dividend value mem
      simp only [subterms, List.mem_cons, List.mem_append, reduceCtorEq, false_or] at mem
      rcases mem with mem | mem
      · exact first typed.1 some_left dividend value mem
      · exact second typed.2 some_right dividend value mem
  | difference left value operand =>
      unfold evaluate64 at evaluated
      obtain ⟨l, some_left, evaluated⟩ := Option.bind_eq_some_iff.mp evaluated
      intro dividend value mem
      simp only [subterms, List.mem_cons, reduceCtorEq, false_or] at mem
      exact operand typed.1 some_left dividend value mem
  | quotient left value operand =>
      unfold evaluate64 at evaluated
      obtain ⟨l, some_left, evaluated⟩ := Option.bind_eq_some_iff.mp evaluated
      have room := operand typed.1 some_left
      intro dividend divisor mem positive clear v exact negative
      simp only [subterms, List.mem_cons, quotient.injEq] at mem
      rcases mem with ⟨rfl, rfl⟩ | mem
      · rw [evaluate64_of_room known dividend typed.1 room] at some_left
        cases value : dividend.evaluate values with
        | none =>
            obtain ⟨s, mem, obstacle⟩ := (settled known dividend typed.1).unknown value
            exact absurd obstacle (clear s mem)
        | some w =>
            obtain ⟨fits, same, -⟩ := (settled known dividend typed.1).value w value
            rw [exact] at same
            cases same
            rw [value] at some_left
            cases some_left
            change (if divisor ≤ 0 then _ else _) = _ at evaluated
            rw [if_neg (by omega), roundedDown_eq fits positive typed.2.2] at evaluated
            by_contra low
            rw [if_neg fun all => low (all negative)] at evaluated
            cases evaluated
      · exact room dividend divisor mem positive clear v exact negative

/-- The evaluator's answer on a term: no operation overflows, a value is the
exact one, and there is none only for a reason. -/
def EvaluatedExactly (values : Values) (term : LibTerm) : Prop :=
  ∃ r, term.evaluate64 values = some r ∧ (∀ v, r = some v → term.exact values = some v) ∧
    (r = none → ∃ s ∈ term.subterms, s.Obstacle values)

/-- The evaluator is exact exactly when there is room to round every
quotient. -/
theorem evaluate_exact_iff (known : values.Typed) (term : LibTerm) (typed : term.Typed) :
    term.EvaluatedExactly values ↔ term.RoomToRound values := by
  constructor
  · rintro ⟨r, evaluated, -⟩
    exact room_of_evaluate64 known term typed evaluated
  · intro room
    have answer := settled known term typed
    exact ⟨_, evaluate64_of_room known term typed room, fun v some => (answer.value v some).2.1,
      answer.unknown⟩

end Evaluation

/-- One argument, known to be `v`. -/
def argumentIs (v : Int) : Values := ⟨fun _ => some v, fun _ => none⟩

theorem argumentIs_typed {v : Int} (fits : Int64.Fits v) : (argumentIs v).Typed := by
  constructor
  · intro arg w same
    cases same
    exact fits
  · intro arg w same
    cases same

theorem evaluate_exact_rounded :
    (quotient (argument 0) 8).EvaluatedExactly (argumentIs (-9)) := by
  have typed : (quotient (argument 0) 8).Typed := ⟨trivial, by decide⟩
  refine (evaluate_exact_iff (argumentIs_typed (by decide)) _ typed).mpr ?_
  intro left value mem positive clear l exact negative
  simp only [subterms, List.mem_cons, quotient.injEq, reduceCtorEq, List.not_mem_nil,
    or_false] at mem
  obtain ⟨rfl, rfl⟩ := mem
  cases exact
  decide

/-- The lowest dividend has no negation. -/
theorem evaluate_lowest :
    ¬ (quotient (argument 0) 1).EvaluatedExactly (argumentIs Int64.min) := by
  rintro ⟨r, evaluated, -⟩
  have overflow : (quotient (argument 0) 1).evaluate64 (argumentIs Int64.min) = none := by decide
  rw [overflow] at evaluated
  cases evaluated

end LibTerm

end WeaveC.Calls
