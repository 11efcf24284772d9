import WeaveC.Calls.Spelling
import Mathlib.Data.Nat.Basic
import Mathlib.Tactic.Common

/-!
# Reading a term's spelling

What the reader makes of the text a term prints.  The text of a quotient that is
a product's right operand is not bracketed, so it is read as part of the product
before it; every other term is read back as it was.
-/

namespace WeaveC.Calls

namespace TermReader

/-! ## Numbers -/

/-- The text goes on with something a number ends at, that is no space. -/
def Ends (text : List Char) : Prop :=
  ∀ c rest, text = c :: rest → c.isDigit = false ∧ c ≠ ' '

theorem ends_cons {c : Char} {rest : List Char} (digit : c.isDigit = false) (space : c ≠ ' ') :
    Ends (c :: rest) := by
  rintro c' rest' same
  cases same
  exact ⟨digit, space⟩

theorem skipSpace_cons {c : Char} {rest : List Char} (space : c ≠ ' ') :
    skipSpace (c :: rest) = c :: rest :=
  List.dropWhile_cons_of_neg (by simpa using space)

theorem skipSpace_ends {text : List Char} (ends : Ends text) : skipSpace text = text := by
  cases text with
  | nil => rfl
  | cons c rest => exact skipSpace_cons (ends c rest rfl).2

theorem isDigit_ne_space {c : Char} (digit : c.isDigit = true) : c ≠ ' ' := by
  rintro rfl
  exact absurd digit (by decide)

theorem le_ofDigitChars (text : List Char) (value : Nat) :
    value ≤ Nat.ofDigitChars 10 text value := by
  induction text generalizing value with
  | nil => rw [Nat.ofDigitChars_nil]
  | cons c rest inductionHypothesis =>
      rw [Nat.ofDigitChars_cons]
      have step := inductionHypothesis (10 * value + (c.toNat - '0'.toNat))
      omega

theorem digits_append {text rest : List Char} {value : Nat} (ends : Ends rest)
    (all : ∀ c ∈ text, c.isDigit = true)
    (fits : Nat.ofDigitChars 10 text value ≤ 0x7FFFFFFFFFFFFFFF) :
    digits value (text ++ rest) = some (Nat.ofDigitChars 10 text value, rest) := by
  induction text generalizing value with
  | nil =>
      rw [Nat.ofDigitChars_nil]
      cases rest with
      | nil => rfl
      | cons c rest =>
          change digits value (c :: rest) = _
          rw [digits, if_neg]
          rw [(ends c rest rfl).1]
          exact Bool.false_ne_true
  | cons c text inductionHypothesis =>
      rw [Nat.ofDigitChars_cons] at fits ⊢
      have next := inductionHypothesis (fun c mem => all c (List.mem_cons_of_mem _ mem)) fits
      have below := le_ofDigitChars text (10 * value + (c.toNat - '0'.toNat))
      change digits value (c :: (text ++ rest)) = _
      rw [digits, if_pos (all c List.mem_cons_self)]
      dsimp only
      rw [if_neg (by omega), Nat.mul_comm value 10]
      exact next

theorem digits_toDigits {n : Nat} {rest : List Char} (ends : Ends rest)
    (fits : n ≤ 0x7FFFFFFFFFFFFFFF) : digits 0 (Nat.toDigits 10 n ++ rest) = some (n, rest) := by
  have value := Nat.ofDigitChars_ten_toDigits (n := n)
  rw [digits_append ends (fun c mem => Nat.isDigit_of_mem_toDigits (by decide) (by decide) mem)
    (by rw [value]; exact fits), value]

/-- A number's text begins with a digit. -/
theorem toDigits_eq_cons (n : Nat) :
    ∃ c text, Nat.toDigits 10 n = c :: text ∧ c.isDigit = true := by
  cases text : Nat.toDigits 10 n with
  | nil => exact absurd text Nat.toDigits_ne_nil
  | cons c rest =>
      refine ⟨c, rest, rfl, Nat.isDigit_of_mem_toDigits (b := 10) (n := n) (by decide) (by decide) ?_⟩
      rw [text]
      exact List.mem_cons_self

theorem number_toDigits {n : Nat} {rest : List Char} (ends : Ends rest)
    (fits : n ≤ 0x7FFFFFFFFFFFFFFF) : number (Nat.toDigits 10 n ++ rest) = some (n, rest) := by
  have read := digits_toDigits ends fits
  obtain ⟨c, text, eq, digit⟩ := toDigits_eq_cons n
  rw [eq] at read ⊢
  change digits 0 (c :: (text ++ rest)) = _ at read
  change number (c :: (text ++ rest)) = _
  unfold number
  rw [skipSpace_cons (isDigit_ne_space digit)]
  dsimp only
  rw [if_pos digit, read]

theorem argumentIndex_toDigits {n : Nat} {rest : List Char} (ends : Ends rest) (small : n ≤ 255) :
    argumentIndex ('a' :: (Nat.toDigits 10 n ++ rest)) = some (n, rest) := by
  have read := number_toDigits ends (by omega : n ≤ 0x7FFFFFFFFFFFFFFF)
  conv_lhs => whnf
  rw [read]
  exact if_neg (by omega)

/-! ## Steps of the reader -/

/-- With enough steps the reader gives `result`. -/
def Reads (read : Nat → Reading) (result : LibTerm × List Char) : Prop :=
  ∃ least, ∀ fuel, least ≤ fuel → read fuel = .ok result

variable {text rest : List Char} {left right : LibTerm} {result : LibTerm × List Char}

/-- A read that takes one step and then reads on with the rest of its fuel. -/
theorem Reads.step {read next : Nat → Reading} (reads : Reads next result)
    (step : ∃ least, ∀ fuel, least ≤ fuel → read (fuel + 1) = next fuel) : Reads read result := by
  obtain ⟨least, answer⟩ := reads
  obtain ⟨least', step⟩ := step
  refine ⟨max least least' + 1, fun fuel enough => ?_⟩
  cases fuel with
  | zero => omega
  | succ fuel =>
      rw [step fuel (by omega)]
      exact answer fuel (by omega)

theorem reads_ok {read : Nat → Reading} (least : Nat)
    (step : ∀ fuel, least ≤ fuel → read (fuel + 1) = .ok result) : Reads read result := by
  refine ⟨least + 1, fun fuel enough => ?_⟩
  cases fuel with
  | zero => omega
  | succ fuel => exact step fuel (by omega)

theorem reads_sum (first : Reads (product · text) (left, rest))
    (reads : Reads (sumRest · left rest) result) : Reads (sum · text) result := by
  obtain ⟨least, answer⟩ := first
  refine reads.step ⟨least, fun fuel enough => ?_⟩
  have here : product fuel text = .ok (left, rest) := answer fuel enough
  change sum (fuel + 1) text = _
  rw [sum, here]

theorem reads_sumRest_plus (next : Reads (product · text) (right, rest))
    (reads : Reads (sumRest · (.sum left right) rest) result) :
    Reads (sumRest · left ('+' :: text)) result := by
  obtain ⟨least, answer⟩ := next
  refine reads.step ⟨least, fun fuel enough => ?_⟩
  have here : product fuel text = .ok (right, rest) := answer fuel enough
  conv_lhs => whnf
  rw [here]

theorem reads_sumRest_minus {n : Nat} (ends : Ends rest) (fits : n ≤ 0x7FFFFFFFFFFFFFFF)
    (reads : Reads (sumRest · (.difference left n) rest) result) :
    Reads (sumRest · left ('-' :: (Nat.toDigits 10 n ++ rest))) result := by
  refine reads.step ⟨0, fun fuel _ => ?_⟩
  conv_lhs => whnf
  rw [number_toDigits ends fits]

theorem reads_product (first : Reads (atom · text) (left, rest))
    (reads : Reads (productRest · left rest) result) : Reads (product · text) result := by
  obtain ⟨least, answer⟩ := first
  refine reads.step ⟨least, fun fuel enough => ?_⟩
  have here : atom fuel text = .ok (left, rest) := answer fuel enough
  change product (fuel + 1) text = _
  rw [product, here]

theorem reads_productRest_times (next : Reads (atom · text) (right, rest))
    (reads : Reads (productRest · (.product left right) rest) result) :
    Reads (productRest · left ('*' :: text)) result := by
  obtain ⟨least, answer⟩ := next
  refine reads.step ⟨least, fun fuel enough => ?_⟩
  have here : atom fuel text = .ok (right, rest) := answer fuel enough
  conv_lhs => whnf
  rw [here]

theorem reads_productRest_divide {n : Nat} (ends : Ends rest) (positive : n ≠ 0)
    (fits : n ≤ 0x7FFFFFFFFFFFFFFF)
    (reads : Reads (productRest · (.quotient left n) rest) result) :
    Reads (productRest · left ('/' :: (Nat.toDigits 10 n ++ rest))) result := by
  refine reads.step ⟨0, fun fuel _ => ?_⟩
  conv_lhs => whnf
  rw [number_toDigits ends fits]
  exact if_neg positive

/-- The loops stop at a character that is none of their operators. -/
theorem reads_sumRest_stop (ends : Ends rest)
    (stops : ∀ c tail, rest = c :: tail → c ≠ '+' ∧ c ≠ '-') :
    Reads (sumRest · left rest) (left, rest) := by
  refine reads_ok 0 fun fuel _ => ?_
  rw [sumRest, skipSpace_ends ends]
  split
  · exact absurd rfl (stops _ _ rfl).1
  · exact absurd rfl (stops _ _ rfl).2
  · rfl

theorem reads_productRest_stop (ends : Ends rest)
    (stops : ∀ c tail, rest = c :: tail → c ≠ '*' ∧ c ≠ '/') :
    Reads (productRest · left rest) (left, rest) := by
  refine reads_ok 0 fun fuel _ => ?_
  rw [productRest, skipSpace_ends ends]
  split
  · exact absurd rfl (stops _ _ rfl).1
  · exact absurd rfl (stops _ _ rfl).2
  · rfl

/-! ## Atoms -/

theorem reads_atom_parentheses (inner : Reads (sum · text) (left, ')' :: rest)) :
    Reads (atom · ('(' :: text)) (left, rest) := by
  obtain ⟨least, answer⟩ := inner
  refine reads_ok least fun fuel enough => ?_
  have here : sum fuel text = .ok (left, ')' :: rest) := answer fuel enough
  conv_lhs => whnf
  rw [here]
  rfl

theorem reads_atom_constant {n : Nat} (ends : Ends rest) (fits : n ≤ 0x7FFFFFFFFFFFFFFF) :
    Reads (atom · (Nat.toDigits 10 n ++ rest)) (.constant n, rest) := by
  refine reads_ok 0 fun fuel _ => ?_
  have read := digits_toDigits ends fits
  obtain ⟨c, text, eq, digit⟩ := toDigits_eq_cons n
  rw [eq] at read ⊢
  change digits 0 (c :: (text ++ rest)) = _ at read
  change atom (fuel + 1) (c :: (text ++ rest)) = _
  have not_token {c' : Char} (other : c'.isDigit = false) : c ≠ c' := by
    rintro rfl
    rw [other] at digit
    cases digit
  rw [atom, skipSpace_cons (isDigit_ne_space digit)]
  split
  · rename_i none
    cases none
  · rename_i same
    exact absurd (List.cons.inj same).1 (not_token rfl)
  · rename_i same
    exact absurd (List.cons.inj same).1 (not_token rfl)
  · rename_i same
    exact absurd (List.cons.inj same).1 (not_token rfl)
  · rename_i same
    cases same
    rw [if_pos digit, read]

theorem reads_atom_argument {n : Nat} (ends : Ends rest) (small : n ≤ 255) :
    Reads (atom · ('a' :: (Nat.toDigits 10 n ++ rest))) (.argument n, rest) := by
  refine reads_ok 0 fun fuel _ => ?_
  have read := argumentIndex_toDigits ends small
  obtain ⟨c, text, eq, digit⟩ := toDigits_eq_cons n
  rw [eq] at read ⊢
  change argumentIndex ('a' :: c :: (text ++ rest)) = _ at read
  have letter : Char.isDigit 'a' = false := by decide
  have name : skipSpace ('a' :: c :: (text ++ rest)) = 'a' :: c :: (text ++ rest) := rfl
  change atom (fuel + 1) ('a' :: c :: (text ++ rest)) = _
  rw [atom, name]
  split
  · rename_i same
    cases same
  · rename_i same
    exact absurd (List.cons.inj same).1 (by decide)
  · rename_i same
    exact absurd (List.cons.inj same).1 (by decide)
  · rename_i same
    exact absurd (List.cons.inj same).1 (by decide)
  · rename_i same
    cases same
    rw [if_neg (Bool.eq_false_iff.mp letter), if_pos ⟨rfl, digit⟩, read]

theorem reads_atom_stringLength {n : Nat} (small : n ≤ 255) :
    Reads (atom · ('s' :: 't' :: 'r' :: 'l' :: 'e' :: 'n' :: '(' :: 'a' ::
      (Nat.toDigits 10 n ++ ')' :: rest))) (.stringLength n, rest) := by
  refine reads_ok 0 fun fuel _ => ?_
  have ends : Ends (')' :: rest) := ends_cons (by decide) (by decide)
  have read := argumentIndex_toDigits ends small
  conv_lhs => whnf
  rw [read]
  rfl

theorem reads_atom_min {second : List Char} (first : Reads (sum · text) (left, ',' :: second))
    (next : Reads (sum · second) (right, ')' :: rest)) :
    Reads (atom · ('m' :: 'i' :: 'n' :: '(' :: text)) (.min left right, rest) := by
  obtain ⟨least, answer⟩ := first
  obtain ⟨least', answer'⟩ := next
  refine reads_ok (max least least') fun fuel enough => ?_
  have here : sum fuel text = .ok (left, ',' :: second) := answer fuel (by omega)
  have here' : sum fuel second = .ok (right, ')' :: rest) := answer' fuel (by omega)
  conv_lhs => whnf
  rw [here]
  conv_lhs => whnf
  rw [here']
  rfl

/-! ## What the reader takes -/

theorem skipSpace_length (text : List Char) : (skipSpace text).length ≤ text.length :=
  (List.dropWhile_sublist _).length_le

theorem accept_length {token : Char} (taken : accept token text = some rest) :
    rest.length < text.length := by
  have shorter := skipSpace_length text
  unfold accept at taken
  split at taken
  · rename_i c tail skipped
    rw [skipped] at shorter
    split at taken
    · cases taken
      exact shorter
    · cases taken
  · cases taken

theorem digit_le {c : Char} (digit : c.isDigit = true) : c.toNat - '0'.toNat ≤ 9 := by
  unfold Char.isDigit at digit
  simp only [ge_iff_le, Bool.and_eq_true, decide_eq_true_eq] at digit
  have below : c.toNat ≤ '9'.toNat := UInt32.le_iff_toNat_le.mp digit.2
  have nine : '9'.toNat = '0'.toNat + 9 := rfl
  omega

theorem digits_taken {value n : Nat} (fits : value ≤ 0x7FFFFFFFFFFFFFFF)
    (taken : digits value text = some (n, rest)) :
    rest.length ≤ text.length ∧ n ≤ 0x7FFFFFFFFFFFFFFF := by
  induction text generalizing value with
  | nil =>
      cases taken
      exact ⟨Nat.le_refl _, fits⟩
  | cons c tail inductionHypothesis =>
      rw [digits] at taken
      dsimp only at taken
      split at taken
      · rename_i digit
        have digit := digit_le digit
        split at taken
        · cases taken
        · rename_i small
          obtain ⟨shorter, bounded⟩ := inductionHypothesis (by omega) taken
          exact ⟨Nat.le_succ_of_le shorter, bounded⟩
      · cases taken
        exact ⟨Nat.le_refl _, fits⟩

theorem digits_shorter {c : Char} {n : Nat} (digit : c.isDigit = true)
    (taken : digits 0 (c :: text) = some (n, rest)) :
    rest.length < (c :: text).length ∧ n ≤ 0x7FFFFFFFFFFFFFFF := by
  rw [digits, if_pos digit] at taken
  dsimp only at taken
  split at taken
  · cases taken
  · have small := digit_le digit
    obtain ⟨shorter, bounded⟩ := digits_taken (by omega) taken
    exact ⟨Nat.lt_succ_of_le shorter, bounded⟩

theorem number_taken {n : Nat} (taken : number text = some (n, rest)) :
    rest.length < text.length ∧ n ≤ 0x7FFFFFFFFFFFFFFF := by
  have shorter := skipSpace_length text
  unfold number at taken
  split at taken
  · cases taken
  · rename_i c tail skipped
    rw [skipped] at shorter
    split at taken
    · rename_i digit
      obtain ⟨shorter', bounded⟩ := digits_shorter digit taken
      exact ⟨Nat.lt_of_lt_of_le shorter' shorter, bounded⟩
    · cases taken

theorem argumentIndex_taken {n : Nat} (taken : argumentIndex text = some (n, rest)) :
    rest.length < text.length ∧ n ≤ 255 := by
  have shorter := skipSpace_length text
  unfold argumentIndex at taken
  split at taken
  · rename_i tail skipped
    rw [skipped] at shorter
    split at taken
    · rename_i index rest' read
      have shorter' := (number_taken read).1
      split at taken
      · cases taken
      · cases taken
        rw [List.length_cons] at shorter
        omega
    · cases taken
  · cases taken

/-- What a read with some fuel took: a term the language spells, from the front
of the text. -/
structure Taken (fuel : Nat) : Prop where
  sum : ∀ text term rest, TermReader.sum fuel text = .ok (term, rest) →
    rest.length < text.length ∧ term.Valid
  sumRest : ∀ left text term rest, left.Valid →
    TermReader.sumRest fuel left text = .ok (term, rest) →
      rest.length ≤ text.length ∧ term.Valid
  product : ∀ text term rest, TermReader.product fuel text = .ok (term, rest) →
    rest.length < text.length ∧ term.Valid
  productRest : ∀ left text term rest, left.Valid →
    TermReader.productRest fuel left text = .ok (term, rest) →
      rest.length ≤ text.length ∧ term.Valid
  atom : ∀ text term rest, TermReader.atom fuel text = .ok (term, rest) →
    rest.length < text.length ∧ term.Valid

theorem taken_zero : Taken 0 := by
  constructor
  · intro text term rest read
    cases read
  · intro left text term rest _ read
    cases read
  · intro text term rest read
    cases read
  · intro left text term rest _ read
    cases read
  · intro text term rest read
    cases read

section Step

variable {fuel : Nat} {term : LibTerm}

theorem Taken.sumRest_succ (earlier : Taken fuel) (valid : left.Valid)
    (read : TermReader.sumRest (fuel + 1) left text = .ok (term, rest)) :
    rest.length ≤ text.length ∧ term.Valid := by
  have skipped := skipSpace_length text
  rw [TermReader.sumRest] at read
  split at read
  · rename_i tail space
    rw [space, List.length_cons] at skipped
    split at read
    · rename_i right behind next
      obtain ⟨shorter, valid'⟩ := earlier.product _ _ _ next
      have valid' : (LibTerm.sum left right).Valid := ⟨valid, valid'⟩
      obtain ⟨shorter', valid'⟩ := earlier.sumRest _ _ _ _ valid' read
      exact ⟨by omega, valid'⟩
    · cases read
  · rename_i tail space
    rw [space, List.length_cons] at skipped
    split at read
    · rename_i right behind next
      obtain ⟨shorter, fits⟩ := number_taken next
      have valid' : (LibTerm.difference left right).Valid := by
        refine ⟨valid, by omega, ?_⟩
        unfold Int64.max
        omega
      obtain ⟨shorter', valid'⟩ := earlier.sumRest _ _ _ _ valid' read
      exact ⟨by omega, valid'⟩
    · cases read
  · cases read
    exact ⟨skipped, valid⟩

theorem Taken.productRest_succ (earlier : Taken fuel) (valid : left.Valid)
    (read : TermReader.productRest (fuel + 1) left text = .ok (term, rest)) :
    rest.length ≤ text.length ∧ term.Valid := by
  have skipped := skipSpace_length text
  rw [TermReader.productRest] at read
  split at read
  · rename_i tail space
    rw [space, List.length_cons] at skipped
    split at read
    · rename_i right behind next
      obtain ⟨shorter, valid'⟩ := earlier.atom _ _ _ next
      have valid' : (LibTerm.product left right).Valid := ⟨valid, valid'⟩
      obtain ⟨shorter', valid'⟩ := earlier.productRest _ _ _ _ valid' read
      exact ⟨by omega, valid'⟩
    · cases read
  · rename_i tail space
    rw [space, List.length_cons] at skipped
    split at read
    · rename_i right behind next
      obtain ⟨shorter, fits⟩ := number_taken next
      split at read
      · cases read
      · rename_i positive
        have valid' : (LibTerm.quotient left right).Valid := by
          refine ⟨valid, by omega, ?_⟩
          unfold Int64.max
          omega
        obtain ⟨shorter', valid'⟩ := earlier.productRest _ _ _ _ valid' read
        exact ⟨by omega, valid'⟩
    · cases read
  · cases read
    exact ⟨skipped, valid⟩

theorem Taken.atom_succ (earlier : Taken fuel)
    (read : TermReader.atom (fuel + 1) text = .ok (term, rest)) :
    rest.length < text.length ∧ term.Valid := by
  have skipped := skipSpace_length text
  rw [TermReader.atom] at read
  split at read
  · cases read
  · rename_i tail space
    rw [space, List.length_cons] at skipped
    split at read
    · rename_i inner behind first
      obtain ⟨shorter, valid⟩ := earlier.sum _ _ _ first
      split at read
      · rename_i closed
        cases read
        have shorter' := accept_length closed
        exact ⟨by omega, valid⟩
      · cases read
    · cases read
  · rename_i tail space
    rw [space] at skipped
    simp only [List.length_cons] at skipped
    split at read
    · rename_i index behind first
      obtain ⟨shorter, small⟩ := argumentIndex_taken first
      split at read
      · rename_i closed
        cases read
        have shorter' := accept_length closed
        exact ⟨by omega, small⟩
      · cases read
    · cases read
  · rename_i tail space
    rw [space] at skipped
    simp only [List.length_cons] at skipped
    split at read
    · rename_i left behind first
      obtain ⟨shorter, valid⟩ := earlier.sum _ _ _ first
      split at read
      · rename_i second comma
        have shorter' := accept_length comma
        split at read
        · rename_i right behind' next
          obtain ⟨shorter'', valid'⟩ := earlier.sum _ _ _ next
          split at read
          · rename_i closed
            cases read
            have last := accept_length closed
            exact ⟨by omega, valid, valid'⟩
          · cases read
        · cases read
      · cases read
    · cases read
  · rename_i c tail _ _ _ space
    rw [space] at skipped
    split at read
    · rename_i digit
      split at read
      · rename_i value behind first
        cases read
        obtain ⟨shorter, fits⟩ := digits_shorter digit first
        refine ⟨by omega, by omega, ?_⟩
        unfold Int64.max
        omega
      · cases read
    · split at read
      · split at read
        · rename_i index behind first
          cases read
          obtain ⟨shorter, small⟩ := argumentIndex_taken first
          exact ⟨by omega, small⟩
        · cases read
      · cases read

theorem taken (fuel : Nat) : Taken fuel := by
  induction fuel with
  | zero => exact taken_zero
  | succ fuel earlier =>
      constructor
      · intro text term rest read
        rw [TermReader.sum] at read
        split at read
        · rename_i left behind first
          obtain ⟨shorter, valid⟩ := earlier.product _ _ _ first
          obtain ⟨shorter', valid'⟩ := earlier.sumRest _ _ _ _ valid read
          exact ⟨Nat.lt_of_le_of_lt shorter' shorter, valid'⟩
        · cases read
      · intro left text term rest valid read
        exact earlier.sumRest_succ valid read
      · intro text term rest read
        rw [TermReader.product] at read
        split at read
        · rename_i left behind first
          obtain ⟨shorter, valid⟩ := earlier.atom _ _ _ first
          obtain ⟨shorter', valid'⟩ := earlier.productRest _ _ _ _ valid read
          exact ⟨Nat.lt_of_le_of_lt shorter' shorter, valid'⟩
        · cases read
      · intro left text term rest valid read
        exact earlier.productRest_succ valid read
      · intro text term rest read
        exact earlier.atom_succ read

end Step

/-! ## Enough steps -/

/-- With enough fuel for the text a read ends, and more fuel changes nothing. -/
structure Stable (fuel : Nat) : Prop where
  sum : ∀ more text, fuel ≤ more → 3 * text.length + 3 ≤ fuel →
    TermReader.sum more text = TermReader.sum fuel text ∧
      TermReader.sum fuel text ≠ .error .tired
  sumRest : ∀ more left text, fuel ≤ more → 3 * text.length + 2 ≤ fuel →
    TermReader.sumRest more left text = TermReader.sumRest fuel left text ∧
      TermReader.sumRest fuel left text ≠ .error .tired
  product : ∀ more text, fuel ≤ more → 3 * text.length + 2 ≤ fuel →
    TermReader.product more text = TermReader.product fuel text ∧
      TermReader.product fuel text ≠ .error .tired
  productRest : ∀ more left text, fuel ≤ more → 3 * text.length + 1 ≤ fuel →
    TermReader.productRest more left text = TermReader.productRest fuel left text ∧
      TermReader.productRest fuel left text ≠ .error .tired
  atom : ∀ more text, fuel ≤ more → 3 * text.length + 1 ≤ fuel →
    TermReader.atom more text = TermReader.atom fuel text ∧
      TermReader.atom fuel text ≠ .error .tired

theorem fail_ne_tired {message : String} : fail message ≠ .error .tired := by
  intro same
  cases same

section Step

variable {fuel more : Nat}

theorem Stable.sumRest_succ (earlier : Stable fuel) (le : fuel ≤ more)
    (room : 3 * text.length + 2 ≤ fuel + 1) :
    TermReader.sumRest (more + 1) left text = TermReader.sumRest (fuel + 1) left text ∧
      TermReader.sumRest (fuel + 1) left text ≠ .error .tired := by
  have skipped := skipSpace_length text
  rw [TermReader.sumRest, TermReader.sumRest]
  split
  · rename_i tail space
    rw [space, List.length_cons] at skipped
    obtain ⟨same, ends⟩ := earlier.product more tail le (by omega)
    rw [same]
    split
    · rename_i right behind next
      have shorter := ((taken fuel).product _ _ _ next).1
      exact earlier.sumRest more _ behind le (by omega)
    · rename_i why stopped
      refine ⟨rfl, fun tired => ends ?_⟩
      rw [stopped, tired]
  · rename_i tail space
    rw [space, List.length_cons] at skipped
    split
    · rename_i right behind next
      have shorter := (number_taken next).1
      exact earlier.sumRest more _ behind le (by omega)
    · exact ⟨rfl, fail_ne_tired⟩
  · refine ⟨rfl, fun same => ?_⟩
    cases same

theorem Stable.productRest_succ (earlier : Stable fuel) (le : fuel ≤ more)
    (room : 3 * text.length + 1 ≤ fuel + 1) :
    TermReader.productRest (more + 1) left text = TermReader.productRest (fuel + 1) left text ∧
      TermReader.productRest (fuel + 1) left text ≠ .error .tired := by
  have skipped := skipSpace_length text
  rw [TermReader.productRest, TermReader.productRest]
  split
  · rename_i tail space
    rw [space, List.length_cons] at skipped
    obtain ⟨same, ends⟩ := earlier.atom more tail le (by omega)
    rw [same]
    split
    · rename_i right behind next
      have shorter := ((taken fuel).atom _ _ _ next).1
      exact earlier.productRest more _ behind le (by omega)
    · rename_i why stopped
      refine ⟨rfl, fun tired => ends ?_⟩
      rw [stopped, tired]
  · rename_i tail space
    rw [space, List.length_cons] at skipped
    split
    · rename_i right behind next
      have shorter := (number_taken next).1
      split
      · exact ⟨rfl, fail_ne_tired⟩
      · exact earlier.productRest more _ behind le (by omega)
    · exact ⟨rfl, fail_ne_tired⟩
  · refine ⟨rfl, fun same => ?_⟩
    cases same

theorem Stable.atom_succ (earlier : Stable fuel) (le : fuel ≤ more)
    (room : 3 * text.length + 1 ≤ fuel + 1) :
    TermReader.atom (more + 1) text = TermReader.atom (fuel + 1) text ∧
      TermReader.atom (fuel + 1) text ≠ .error .tired := by
  have skipped := skipSpace_length text
  rw [TermReader.atom, TermReader.atom]
  split
  · exact ⟨rfl, fail_ne_tired⟩
  · rename_i tail space
    rw [space, List.length_cons] at skipped
    obtain ⟨same, ends⟩ := earlier.sum more tail le (by omega)
    rw [same]
    refine ⟨rfl, ?_⟩
    split
    · split
      · intro same
        cases same
      · exact fail_ne_tired
    · rename_i why stopped
      intro tired
      exact ends (by rw [stopped, tired])
  · refine ⟨rfl, ?_⟩
    split
    · split
      · intro same
        cases same
      · exact fail_ne_tired
    · exact fail_ne_tired
  · rename_i tail space
    rw [space] at skipped
    simp only [List.length_cons] at skipped
    obtain ⟨same, ends⟩ := earlier.sum more tail le (by omega)
    rw [same]
    split
    · rename_i left behind first
      have shorter := ((taken fuel).sum _ _ _ first).1
      split
      · rename_i second comma
        have shorter' := accept_length comma
        obtain ⟨same', ends'⟩ := earlier.sum more second le (by omega)
        rw [same']
        refine ⟨rfl, ?_⟩
        split
        · split
          · intro same
            cases same
          · exact fail_ne_tired
        · rename_i why stopped
          intro tired
          exact ends' (by rw [stopped, tired])
      · exact ⟨rfl, fail_ne_tired⟩
    · rename_i why stopped
      refine ⟨rfl, fun tired => ends ?_⟩
      rw [stopped, tired]
  · refine ⟨rfl, ?_⟩
    split
    · split
      · intro same
        cases same
      · exact fail_ne_tired
    · split
      · split
        · intro same
          cases same
        · exact fail_ne_tired
      · exact fail_ne_tired

theorem stable (fuel : Nat) : Stable fuel := by
  induction fuel with
  | zero =>
      constructor
      · intro more text _ room
        omega
      · intro more left text _ room
        omega
      · intro more text _ room
        omega
      · intro more left text _ room
        omega
      · intro more text _ room
        omega
  | succ fuel earlier =>
      constructor
      · intro more text le room
        obtain ⟨more, rfl⟩ := Nat.exists_eq_add_of_le' (by omega : 1 ≤ more)
        have le : fuel ≤ more := by omega
        obtain ⟨same, ends⟩ := earlier.product more text le (by omega)
        rw [TermReader.sum, TermReader.sum, same]
        split
        · rename_i left behind first
          have shorter := ((taken fuel).product _ _ _ first).1
          exact earlier.sumRest more _ behind le (by omega)
        · rename_i why stopped
          refine ⟨rfl, fun tired => ends ?_⟩
          rw [stopped, tired]
      · intro more left text le room
        obtain ⟨more, rfl⟩ := Nat.exists_eq_add_of_le' (by omega : 1 ≤ more)
        exact earlier.sumRest_succ (by omega) room
      · intro more text le room
        obtain ⟨more, rfl⟩ := Nat.exists_eq_add_of_le' (by omega : 1 ≤ more)
        have le : fuel ≤ more := by omega
        obtain ⟨same, ends⟩ := earlier.atom more text le (by omega)
        rw [TermReader.product, TermReader.product, same]
        split
        · rename_i left behind first
          have shorter := ((taken fuel).atom _ _ _ first).1
          exact earlier.productRest more _ behind le (by omega)
        · rename_i why stopped
          refine ⟨rfl, fun tired => ends ?_⟩
          rw [stopped, tired]
      · intro more left text le room
        obtain ⟨more, rfl⟩ := Nat.exists_eq_add_of_le' (by omega : 1 ≤ more)
        exact earlier.productRest_succ (by omega) room
      · intro more text le room
        obtain ⟨more, rfl⟩ := Nat.exists_eq_add_of_le' (by omega : 1 ≤ more)
        exact earlier.atom_succ (by omega) room

end Step

/-- A whole text's reading. -/
theorem Reads.sum_enough (reads : Reads (sum · text) result) :
    sum (enough text.length) text = .ok result := by
  obtain ⟨least, answer⟩ := reads
  have same := ((stable (enough text.length)).sum (max (enough text.length) least) text
    (Nat.le_max_left _ _) (Nat.le_refl _)).1
  rw [← same]
  exact answer _ (Nat.le_max_right _ _)

end TermReader

/-! ## What is read back -/

namespace LibTerm

def isQuotient : LibTerm → Bool
  | quotient _ _ => true
  | _ => false

/-- What the reader makes of a term's text where `first` is what becomes of its
first factor: a quotient that is a product's right operand goes on with the
product. -/
def rereadWith (first : LibTerm → LibTerm) : LibTerm → LibTerm
  | constant value => first (constant value)
  | argument arg => first (argument arg)
  | stringLength arg => first (stringLength arg)
  | sum left right => first (sum (left.rereadWith id) (right.rereadWith id))
  | difference left value => first (difference (left.rereadWith id) value)
  | min left right => first (min (left.rereadWith id) (right.rereadWith id))
  | quotient left value => quotient (left.rereadWith first) value
  | product left right =>
      if right.isQuotient then right.rereadWith (product (left.rereadWith first))
      else product (left.rereadWith first) (right.rereadWith id)

/-- What the reader makes of a term's text. -/
def reread (term : LibTerm) : LibTerm := term.rereadWith id

/-- No product's right operand is a quotient. -/
def Bracketed : LibTerm → Prop
  | constant _ | argument _ | stringLength _ => True
  | product left right => right.isQuotient = false ∧ left.Bracketed ∧ right.Bracketed
  | sum left right | min left right => left.Bracketed ∧ right.Bracketed
  | difference left _ | quotient left _ => left.Bracketed

theorem reread_eq_iff (term : LibTerm) : term.reread = term ↔ term.Bracketed := by
  unfold reread
  induction term with
  | constant value => exact iff_of_true rfl trivial
  | argument arg => exact iff_of_true rfl trivial
  | stringLength arg => exact iff_of_true rfl trivial
  | sum left right first second =>
      change LibTerm.sum _ _ = LibTerm.sum _ _ ↔ _
      rw [LibTerm.sum.injEq, first, second]
      exact Iff.rfl
  | difference left value operand =>
      change LibTerm.difference _ _ = LibTerm.difference _ _ ↔ _
      rw [LibTerm.difference.injEq, operand]
      exact and_iff_left rfl
  | min left right first second =>
      change LibTerm.min _ _ = LibTerm.min _ _ ↔ _
      rw [LibTerm.min.injEq, first, second]
      exact Iff.rfl
  | quotient left value operand =>
      change LibTerm.quotient _ _ = LibTerm.quotient _ _ ↔ _
      rw [LibTerm.quotient.injEq, operand]
      exact and_iff_left rfl
  | product left right first second =>
      rw [rereadWith]
      unfold Bracketed
      cases grafted : right.isQuotient with
      | false =>
          rw [if_neg Bool.false_ne_true, LibTerm.product.injEq, first, second]
          exact (and_iff_right rfl).symm
      | true =>
          rw [if_pos rfl]
          cases right with
          | quotient dividend value =>
              refine iff_of_false (fun same => ?_) fun bracketed => Bool.noConfusion bracketed.1
              rw [rereadWith] at same
              cases same
          | _ => cases grafted

/-! ## Reading it back -/

open TermReader

/-- A term's text as a factor of a product. -/
def factor (term : LibTerm) : List Char := parenthesised term.str term.isAdditive

/-- The text goes on with nothing that a product goes on with. -/
def Follows (rest : List Char) : Prop :=
  Ends rest ∧ ∀ c tail, rest = c :: tail → c ≠ '*' ∧ c ≠ '/'

theorem follows_cons {c : Char} {rest : List Char} (digit : c.isDigit = false) (space : c ≠ ' ')
    (times : c ≠ '*') (divide : c ≠ '/') : Follows (c :: rest) := by
  refine ⟨ends_cons digit space, ?_⟩
  rintro c' rest' same
  cases same
  exact ⟨times, divide⟩

/-- What reading a term's text does at the start of a product, within one and at
the start of a sum. -/
structure Readable (term : LibTerm) : Prop where
  start : ∀ rest result, Ends rest → Reads (productRest · (term.rereadWith id) rest) result →
    Reads (TermReader.product · (term.factor ++ rest)) result
  chain : ∀ acc rest result, Ends rest →
    Reads (productRest · (term.rereadWith (product acc)) rest) result →
      Reads (productRest · acc ('*' :: (term.factor ++ rest))) result
  whole : ∀ rest result, Follows rest → Reads (sumRest · term.reread rest) result →
    Reads (TermReader.sum · (term.str ++ rest)) result

section Readable

variable {term left right : LibTerm} {rest : List Char} {result : LibTerm × List Char}

/-- A product that nothing follows. -/
theorem Readable.reads_product (readable : term.Readable) (follows : Follows rest) :
    Reads (TermReader.product · (term.factor ++ rest)) (term.reread, rest) :=
  readable.start rest _ follows.1 (reads_productRest_stop follows.1 follows.2)

/-- A sum before a closing character. -/
theorem Readable.reads_sum {c : Char} (readable : term.Readable) (follows : Follows (c :: rest))
    (plus : c ≠ '+') (minus : c ≠ '-') :
    Reads (TermReader.sum · (term.str ++ c :: rest)) (term.reread, c :: rest) := by
  refine readable.whole _ _ follows (reads_sumRest_stop follows.1 ?_)
  rintro c' rest' same
  cases same
  exact ⟨plus, minus⟩

theorem Readable.reads_parentheses (readable : term.Readable) :
    Reads (atom · (parenthesised term.str true ++ rest)) (term.reread, rest) := by
  have text : parenthesised term.str true ++ rest = '(' :: (term.str ++ ')' :: rest) := by
    simp [parenthesised]
  rw [text]
  exact reads_atom_parentheses
    (readable.reads_sum (follows_cons (by decide) (by decide) (by decide) (by decide))
      (by decide) (by decide))

theorem factor_of_not_additive (additive : term.isAdditive = false) : term.factor = term.str := by
  unfold factor parenthesised
  rw [additive, if_neg Bool.false_ne_true]

/-- A term that is no sum is read as a product. -/
theorem Readable.of_product (additive : term.isAdditive = false)
    (start : ∀ rest result, Ends rest → Reads (productRest · (term.rereadWith id) rest) result →
      Reads (TermReader.product · (term.factor ++ rest)) result)
    (chain : ∀ acc rest result, Ends rest →
      Reads (productRest · (term.rereadWith (product acc)) rest) result →
        Reads (productRest · acc ('*' :: (term.factor ++ rest))) result) : term.Readable where
  start := start
  chain := chain
  whole rest result follows reads := by
    rw [← factor_of_not_additive additive]
    exact TermReader.reads_sum
      (start rest _ follows.1 (reads_productRest_stop follows.1 follows.2)) reads

theorem reads_start_of_atom (same : ∀ first, term.rereadWith first = first term.reread)
    (atom : ∀ rest, Ends rest → Reads (atom · (term.factor ++ rest)) (term.reread, rest))
    (ends : Ends rest) (reads : Reads (productRest · (term.rereadWith id) rest) result) :
    Reads (TermReader.product · (term.factor ++ rest)) result := by
  rw [same] at reads
  exact TermReader.reads_product (atom rest ends) reads

theorem reads_chain_of_atom {acc : LibTerm}
    (same : ∀ first, term.rereadWith first = first term.reread)
    (atom : ∀ rest, Ends rest → Reads (atom · (term.factor ++ rest)) (term.reread, rest))
    (ends : Ends rest) (reads : Reads (productRest · (term.rereadWith (product acc)) rest) result) :
    Reads (productRest · acc ('*' :: (term.factor ++ rest))) result := by
  rw [same] at reads
  exact reads_productRest_times (atom rest ends) reads

/-- A term whose text is one atom. -/
theorem Readable.of_atom (additive : term.isAdditive = false)
    (same : ∀ first, term.rereadWith first = first term.reread)
    (atom : ∀ rest, Ends rest → Reads (atom · (term.str ++ rest)) (term.reread, rest)) :
    term.Readable := by
  have atom' : ∀ rest, Ends rest →
      Reads (TermReader.atom · (term.factor ++ rest)) (term.reread, rest) := by
    rw [factor_of_not_additive additive]
    exact atom
  exact .of_product additive (fun rest result => reads_start_of_atom same atom')
    fun acc rest result => reads_chain_of_atom same atom'

/-- A sum, which is bracketed in a product. -/
theorem Readable.of_sum (additive : term.isAdditive = true)
    (same : ∀ first, term.rereadWith first = first term.reread)
    (whole : ∀ rest result, Follows rest → Reads (sumRest · term.reread rest) result →
      Reads (TermReader.sum · (term.str ++ rest)) result) : term.Readable := by
  have atom : ∀ rest, Ends rest →
      Reads (TermReader.atom · (term.factor ++ rest)) (term.reread, rest) := by
    intro rest ends
    have text : term.factor ++ rest = '(' :: (term.str ++ ')' :: rest) := by
      simp [factor, parenthesised, additive]
    rw [text]
    refine reads_atom_parentheses (whole _ _ (follows_cons (by decide) (by decide) (by decide)
      (by decide)) (reads_sumRest_stop (ends_cons (by decide) (by decide)) ?_))
    rintro c rest' same
    cases same
    exact ⟨by decide, by decide⟩
  exact ⟨fun rest result => reads_start_of_atom same atom,
    fun acc rest result => reads_chain_of_atom same atom, whole⟩

end Readable

theorem decimal_ofNat (n : Nat) : decimal (n : Int) = Nat.toDigits 10 n := rfl

/-- A term that the language spells is read back as `reread` says. -/
theorem readable (term : LibTerm) (valid : term.Valid) : term.Readable := by
  induction term with
  | constant value =>
      obtain ⟨n, rfl⟩ := Int.eq_ofNat_of_zero_le valid.1
      have fits := valid.2
      unfold Int64.max at fits
      refine .of_atom rfl (fun _ => rfl) fun rest ends => ?_
      exact reads_atom_constant ends (by omega)
  | argument arg =>
      refine .of_atom rfl (fun _ => rfl) fun rest ends => ?_
      exact reads_atom_argument ends valid
  | stringLength arg =>
      refine .of_atom rfl (fun _ => rfl) fun rest ends => ?_
      have text : (stringLength arg).str ++ rest = 's' :: 't' :: 'r' :: 'l' :: 'e' :: 'n' :: '(' ::
          'a' :: (Nat.toDigits 10 arg ++ ')' :: rest) := by
        simp [str]
      rw [text]
      exact reads_atom_stringLength valid
  | sum left right first second =>
      have first := first valid.1
      have second := second valid.2
      refine .of_sum rfl (fun _ => rfl) fun rest result follows reads => ?_
      have text : (sum left right).str ++ rest = left.str ++ '+' :: (right.factor ++ rest) := by
        simp [str, factor]
      rw [text]
      refine first.whole _ _ (follows_cons (by decide) (by decide) (by decide) (by decide)) ?_
      exact reads_sumRest_plus (second.reads_product follows) reads
  | difference left value operand =>
      obtain ⟨n, rfl⟩ := Int.eq_ofNat_of_zero_le valid.2.1
      have fits := valid.2.2
      unfold Int64.max at fits
      refine .of_sum rfl (fun _ => rfl) fun rest result follows reads => ?_
      have text : (difference left n).str ++ rest =
          left.str ++ '-' :: (Nat.toDigits 10 n ++ rest) := by
        simp [str, decimal_ofNat]
      rw [text]
      refine (operand valid.1).whole _ _
        (follows_cons (by decide) (by decide) (by decide) (by decide)) ?_
      exact reads_sumRest_minus follows.1 (by omega) reads
  | min left right first second =>
      have first := first valid.1
      have second := second valid.2
      refine .of_atom rfl (fun _ => rfl) fun rest ends => ?_
      have text : (min left right).str ++ rest =
          'm' :: 'i' :: 'n' :: '(' :: (left.str ++ ',' :: (right.str ++ ')' :: rest)) := by
        simp [str]
      rw [text]
      exact reads_atom_min
        (first.reads_sum (follows_cons (by decide) (by decide) (by decide) (by decide))
          (by decide) (by decide))
        (second.reads_sum (follows_cons (by decide) (by decide) (by decide) (by decide))
          (by decide) (by decide))
  | quotient left value operand =>
      have operand := operand valid.1
      have positive := valid.2.1
      obtain ⟨n, rfl⟩ := Int.eq_ofNat_of_zero_le (Int.le_of_lt positive)
      have fits := valid.2.2
      unfold Int64.max at fits
      have text (rest : List Char) : (quotient left n).factor ++ rest =
          left.factor ++ '/' :: (Nat.toDigits 10 n ++ rest) := by
        simp [str, factor, parenthesised, isAdditive, decimal_ofNat]
      have slash {rest : List Char} : Ends ('/' :: rest) := ends_cons (by decide) (by decide)
      refine .of_product rfl (fun rest result ends reads => ?_) fun acc rest result ends reads => ?_
      · rw [text]
        exact operand.start _ _ slash
          (reads_productRest_divide ends (by omega) (by omega) reads)
      · rw [text]
        exact operand.chain acc _ _ slash
          (reads_productRest_divide ends (by omega) (by omega) reads)
  | product left right first second =>
      have first := first valid.1
      have second := second valid.2
      have star {rest : List Char} : Ends ('*' :: rest) := ends_cons (by decide) (by decide)
      -- the right operand, behind what was read before it
      have operand (before : LibTerm) (rest : List Char) (result : LibTerm × List Char)
          (ends : Ends rest)
          (reads : Reads (productRest · (if right.isQuotient
            then right.rereadWith (product before) else product before right.reread) rest) result) :
          Reads (productRest · before ('*' ::
            (parenthesised right.str (right.isAdditive || right.isProduct) ++ rest))) result := by
        cases grafted : right.isQuotient with
        | true =>
            rw [if_pos grafted] at reads
            have text : parenthesised right.str (right.isAdditive || right.isProduct) =
                right.factor := by
              cases right with
              | quotient dividend value => rfl
              | _ => cases grafted
            rw [text]
            exact second.chain before rest result ends reads
        | false =>
            rw [if_neg (by rw [grafted]; exact Bool.false_ne_true)] at reads
            cases bracketed : right.isProduct with
            | true =>
                rw [Bool.or_true]
                exact reads_productRest_times second.reads_parentheses reads
            | false =>
                rw [Bool.or_false]
                have alone : right.rereadWith (product before) = product before right.reread := by
                  cases right with
                  | product => cases bracketed
                  | quotient => cases grafted
                  | _ => rfl
                rw [← alone] at reads
                exact second.chain before rest result ends reads
      have text (rest : List Char) : (product left right).factor ++ rest = left.factor ++ '*' ::
          (parenthesised right.str (right.isAdditive || right.isProduct) ++ rest) := by
        simp [str, factor, parenthesised, isAdditive]
      refine .of_product rfl (fun rest result ends reads => ?_) fun acc rest result ends reads => ?_
      · rw [text]
        rw [rereadWith] at reads
        exact first.start _ _ star (operand _ rest result ends reads)
      · rw [text]
        rw [rereadWith] at reads
        exact first.chain acc _ _ star (operand _ rest result ends reads)

theorem parse_eq_ok {text : List Char} {term : LibTerm} (accepted : parse text = .ok term) :
    term.Valid := by
  unfold parse at accepted
  split at accepted
  · rename_i first rest read
    split at accepted
    · cases accepted
      exact ((taken _).sum _ _ _ read).2
    · cases accepted
  · cases accepted
  · cases accepted

/-- The text of a term that the language spells is read back as `reread`
says. -/
theorem parse_str (term : LibTerm) (valid : term.Valid) : parse term.str = .ok term.reread := by
  have ends : Follows [] := by
    refine ⟨?_, ?_⟩
    · intro c rest same
      cases same
    · intro c rest same
      cases same
  have reads := (readable term valid).whole [] _ ends (reads_sumRest_stop ends.1 fun c rest same => by
    cases same)
  rw [List.append_nil] at reads
  unfold parse
  rw [reads.sum_enough]
  rfl

/-- A term that was read is read back from its own text exactly when no
product's right operand is a quotient. -/
theorem parse_str_iff {text : List Char} {term : LibTerm} (accepted : parse text = .ok term) :
    parse term.str = .ok term ↔ term.Bracketed := by
  rw [parse_str term (parse_eq_ok accepted), Except.ok.injEq]
  exact reread_eq_iff term

def bracketedText : List Char :=
  ['m', 'i', 'n', '(', 'a', '0', ',', ' ', 'a', '1', '*', '(', 'a', '2', '+', '1', ')', ')', '/', '4']

theorem parse_str_bracketed : ∃ term,
    parse bracketedText = .ok term ∧ parse term.str = .ok term := by
  have accepted : parse bracketedText = .ok (quotient (min (argument 0)
      (product (argument 1) (sum (argument 2) (constant 1)))) 4) := by rfl
  refine ⟨_, accepted, (parse_str_iff accepted).mpr ?_⟩
  exact ⟨trivial, rfl, trivial, trivial, trivial⟩

/-- `a0*(a1/2)` prints as `a0*a1/2`. -/
theorem parse_str_quotient : ∃ term,
    parse ['a', '0', '*', '(', 'a', '1', '/', '2', ')'] = .ok term ∧
      parse term.str = .ok (quotient (product (argument 0) (argument 1)) 2) ∧
        parse term.str ≠ .ok term := by
  refine ⟨product (argument 0) (quotient (argument 1) 2), rfl, rfl, fun same => ?_⟩
  have other : parse (product (argument 0) (quotient (argument 1) 2)).str =
      .ok (quotient (product (argument 0) (argument 1)) 2) := rfl
  rw [other] at same
  cases same

end LibTerm

end WeaveC.Calls
