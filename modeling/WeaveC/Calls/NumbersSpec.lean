import WeaveC.Calls.Numbers
import WeaveC.Calls.FormatSpec

/-!
# What the number parsers check

Each grammar is what a scanner accepts, state by state.  The bytes a wrapper
checks hold every byte its call has to read exactly when the scan of the text
does not stop in the middle of something.
-/

namespace WeaveC.Calls.Numbers

open WeaveC.Runtime WeaveC.Library WeaveC.Calls.Format

/-! ## White space and a sign -/

/-- The length of the sign at the start of a text. -/
def signLength : List Char → Nat
  | [] => 0
  | c :: _ => if isSign c then 1 else 0

theorem skipped_eq (text : List Char) :
    skipped text = spaces text + signLength (text.drop (spaces text)) := by
  induction text with
  | nil => rfl
  | cons c text inductionHypothesis =>
      unfold skipped spaces
      by_cases space : isSpace c = true
      · rw [if_pos space, List.takeWhile_cons_of_pos space, List.length_cons, List.drop_succ_cons,
          inductionHypothesis, Nat.add_right_comm]
        rfl
      · rw [if_neg space, List.takeWhile_cons_of_neg space, List.length_nil, List.drop_zero,
          Nat.zero_add]
        rfl

/-! ## A scanner of signed texts -/

/-- A scanner that reads a sign from its first state only. -/
structure Signs {σ : Type} (m : Scanner σ Char) (start signed : σ) : Prop where
  live : ∀ s, ∃ text, m.Accepts s text
  first : m.accepting start = false
  second : m.accepting signed = false
  sign : ∀ c s, isSign c = true → m.step start c = some s → s = signed
  enters_start : ∀ s c, m.step s c ≠ some start
  enters_signed : ∀ s c, m.step s c = some signed → s = start ∧ isSign c = true

namespace Signs

variable {σ : Type} {m : Scanner σ Char} {start signed : σ} (signs : Signs m start signed)

include signs

theorem ne_start {s s' : σ} {c : Char} (moved : m.step s c = some s') : s' ≠ start := by
  rintro rfl
  exact signs.enters_start s c moved

theorem walk_start {text : List Char} (stays : (m.walk start text).2 = start) :
    (m.walk start text).1 = 0 := by
  by_contra moves
  obtain ⟨s, c, -, last⟩ := Scanner.exists_last moves
  exact signs.ne_start last stays

/-- The scan that stops behind the sign has read nothing else. -/
theorem walk_signed {text : List Char} (stays : (m.walk start text).2 = signed)
    (other : signed ≠ start) :
    (m.walk start text).1 = 1 ∧ signLength text = 1 := by
  cases text with
  | nil => exact absurd stays.symm other
  | cons c text =>
      cases moved : m.step start c with
      | none =>
          rw [Scanner.walk_stuck moved] at stays
          exact absurd stays.symm other
      | some s =>
          rw [Scanner.walk_cons moved] at stays ⊢
          have only : (m.walk s text).1 = 0 := by
            by_contra moves
            obtain ⟨s', d, before, last⟩ := Scanner.exists_last moves
            rw [stays] at last
            have here := (signs.enters_signed s' d last).1
            rcases before with rfl | ⟨s'', e, led⟩
            · exact signs.ne_start moved here
            · exact signs.ne_start led here
          rw [Scanner.walk_stays only] at stays
          rw [only]
          rw [stays] at moved
          refine ⟨rfl, ?_⟩
          unfold signLength
          exact if_pos (signs.enters_signed start c moved).2

/-- A scan that goes on behind the sign reads more than the sign. -/
theorem signLength_lt {text : List Char} (moves : (m.walk start text).2 ≠ start)
    (goes : (m.walk start text).2 ≠ signed) : signLength text < (m.walk start text).1 := by
  cases text with
  | nil => exact absurd rfl moves
  | cons c text =>
      cases moved : m.step start c with
      | none =>
          rw [Scanner.walk_stuck moved] at moves
          exact absurd rfl moves
      | some s =>
          rw [Scanner.walk_cons moved] at goes ⊢
          rw [signLength]
          by_cases sign : isSign c = true
          · have here := signs.sign c s sign moved
            rw [if_pos sign]
            have more : (m.walk s text).1 ≠ 0 := by
              intro none
              rw [Scanner.walk_stays none] at goes
              exact goes here
            dsimp only
            omega
          · rw [if_neg sign]
            exact Nat.succ_pos _

theorem hasToRead_iff {text : List Char} {k : Nat} (inside : k ≤ text.length) :
    HasToRead (m.Accepts start) text k ↔
      k ≤ spaces text + (m.walk start (text.drop (spaces text))).1 := by
  unfold HasToRead
  by_cases space : k ≤ spaces text
  · exact iff_of_true (.inl space) (by omega)
  · rw [or_iff_right space, and_iff_right inside, Scanner.extends_take_iff signs.live _ _
      (by rw [List.length_drop]; omega)]
    omega

theorem accepted_of_take {text : List Char} {n : Nat} (inside : n ≤ text.length)
    (accepted : m.Accepts start (text.take n)) : 0 < n ∧ n ≤ (m.walk start text).1 := by
  refine ⟨Nat.pos_of_ne_zero ?_, Scanner.le_walk_of_accepts inside accepted signs.live⟩
  rintro rfl
  have empty : m.accepting start = true := accepted
  rw [signs.first] at empty
  cases empty

/-- Where the scan stops in an accepting state, the call converts all it read. -/
theorem stop_eq {text : List Char} {stop : Nat}
    (converts : Converts (m.Accepts start) text stop)
    (accepts : m.accepting (m.walk start (text.drop (spaces text))).2 = true) :
    stop = spaces text + (m.walk start (text.drop (spaces text))).1 ∧ stop ≠ 0 := by
  have inside := Scanner.walk_le (m := m) start (text.drop (spaces text))
  have accepted := (Scanner.accepts_walk_iff start _).mpr accepts
  have some := (signs.accepted_of_take inside accepted).1
  rcases converts with ⟨n, below, own, longest, rfl⟩ | ⟨none, -⟩
  · have least := (signs.accepted_of_take below own).2
    have same : n = (m.walk start (text.drop (spaces text))).1 := by
      by_contra other
      exact longest _ (by omega) inside accepted
    omega
  · exact absurd accepted (none _)

/-- Where it stops in another state, the call converts less, or nothing. -/
theorem stop_lt {text : List Char} {stop : Nat}
    (converts : Converts (m.Accepts start) text stop)
    (rejects : m.accepting (m.walk start (text.drop (spaces text))).2 = false) :
    stop = 0 ∨ spaces text < stop ∧
      stop < spaces text + (m.walk start (text.drop (spaces text))).1 := by
  rcases converts with ⟨n, below, own, -, rfl⟩ | ⟨-, rfl⟩
  · obtain ⟨some, least⟩ := signs.accepted_of_take below own
    refine .inr ⟨by omega, Nat.add_lt_add_left (Nat.lt_of_le_of_ne least ?_) _⟩
    rintro rfl
    rw [Scanner.accepts_walk_iff, rejects] at own
    cases own
  · exact .inl rfl

theorem covers_iff {text : List Char} {stop : Nat} (other : signed ≠ start)
    (converts : Converts (m.Accepts start) text stop) :
    (∀ k, HasToRead (m.Accepts start) text k → k < readBytes text stop) ↔
      ¬ (m.accepting (m.walk start (text.drop (spaces text))).2 = false ∧
        (m.walk start (text.drop (spaces text))).2 ≠ start ∧
          (m.walk start (text.drop (spaces text))).2 ≠ signed) := by
  have inside := Scanner.walk_le (m := m) start (text.drop (spaces text))
  have front : spaces text ≤ text.length := (List.takeWhile_sublist _).length_le
  have reads {k : Nat} (read : HasToRead (m.Accepts start) text k) :
      k ≤ spaces text + (m.walk start (text.drop (spaces text))).1 := by
    refine (signs.hasToRead_iff ?_).mp read
    rcases read with space | ⟨within, -⟩
    · exact space.trans front
    · exact within
  rw [List.length_drop] at inside
  constructor
  · rintro covers ⟨rejects, moves, goes⟩
    -- the byte the scan stops at is not among those checked
    have last := covers _ ((signs.hasToRead_iff (by omega)).mpr (Nat.le_refl
      (spaces text + (m.walk start (text.drop (spaces text))).1)))
    have sign := signs.signLength_lt moves goes
    have skips := skipped_eq text
    unfold readBytes at last
    rcases signs.stop_lt converts rejects with none | less
    · rw [if_neg (fun some => some none)] at last
      omega
    · split at last <;> omega
  · intro finished k read
    have bound := reads read
    unfold readBytes
    by_cases accepts : m.accepting (m.walk start (text.drop (spaces text))).2 = true
    · obtain ⟨stops, some⟩ := signs.stop_eq converts accepts
      rw [if_pos some]
      omega
    · have rejects := Bool.eq_false_of_not_eq_true accepts
      have skips := skipped_eq text
      have few : (m.walk start (text.drop (spaces text))).1 ≤
          signLength (text.drop (spaces text)) := by
        by_cases first : (m.walk start (text.drop (spaces text))).2 = start
        · rw [signs.walk_start first]
          exact Nat.zero_le _
        · by_cases second : (m.walk start (text.drop (spaces text))).2 = signed
          · obtain ⟨one, sign⟩ := signs.walk_signed second other
            omega
          · exact absurd ⟨rejects, first, second⟩ finished
      have one : signLength (text.drop (spaces text)) ≤ 1 := by
        unfold signLength
        split
        · exact Nat.zero_le 1
        · split <;> omega
      rcases signs.stop_lt converts rejects with none | ⟨more, less⟩
      · rw [if_neg (fun some => some none)]
        omega
      · omega

end Signs

/-! ## The pieces of the grammars, by their first character -/

theorem digits_nil (radix : Nat) : ¬ Digits radix [] := fun digits => digits.1 rfl

theorem digits_cons (radix : Nat) (c : Char) (text : List Char) :
    Digits radix (c :: text) ↔
      isDigit radix c = true ∧ ∀ d ∈ text, isDigit radix d = true := by
  unfold Digits
  rw [List.forall_mem_cons]
  exact and_iff_right (List.cons_ne_nil c text)

theorem before_nil (kind : Char → Bool) (language : List Char → Prop) :
    Before kind language [] ↔ language [] := by
  constructor
  · rintro ⟨first, rest, same, -, tail⟩
    obtain ⟨-, rfl⟩ := List.nil_eq_append_iff.mp same
    exact tail
  · intro tail
    exact ⟨[], [], rfl, List.forall_mem_nil _, tail⟩

theorem before_cons (kind : Char → Bool) (language : List Char → Prop) (c : Char)
    (text : List Char) :
    Before kind language (c :: text) ↔
      kind c = true ∧ Before kind language text ∨ language (c :: text) := by
  constructor
  · rintro ⟨first, rest, same, all, tail⟩
    cases first with
    | nil =>
        rw [List.nil_append] at same
        exact .inr (same ▸ tail)
    | cons d first =>
        cases same
        obtain ⟨here, more⟩ := List.forall_mem_cons.mp all
        exact .inl ⟨here, first, rest, rfl, more, tail⟩
  · rintro (⟨here, first, rest, rfl, all, tail⟩ | tail)
    · exact ⟨c :: first, rest, rfl, List.forall_mem_cons.mpr ⟨here, all⟩, tail⟩
    · exact ⟨[], c :: text, rfl, List.forall_mem_nil _, tail⟩

theorem signed_nil (body : List Char → Prop) : Signed body [] ↔ body [] := by
  refine or_iff_left ?_
  rintro ⟨c, rest, same, -⟩
  cases same

theorem signed_cons (body : List Char → Prop) (c : Char) (text : List Char) :
    Signed body (c :: text) ↔ isSign c = true ∧ body text ∨ body (c :: text) := by
  refine or_comm.trans (or_congr ?_ Iff.rfl)
  constructor
  · rintro ⟨d, rest, same, sign, tail⟩
    cases same
    exact ⟨sign, tail⟩
  · rintro ⟨sign, tail⟩
    exact ⟨c, text, rfl, sign, tail⟩

theorem marked_nil (body : List Char → Prop) : ¬ Marked body [] := by
  rintro ⟨x, rest, same, -⟩
  cases same

/-- What stands behind the 0 of `0x`. -/
def Mark (body : List Char → Prop) (text : List Char) : Prop :=
  ∃ x rest, text = x :: rest ∧ isHexMark x = true ∧ body rest

theorem mark_cons (body : List Char → Prop) (c : Char) (text : List Char) :
    Mark body (c :: text) ↔ isHexMark c = true ∧ body text := by
  constructor
  · rintro ⟨x, rest, same, mark, tail⟩
    cases same
    exact ⟨mark, tail⟩
  · rintro ⟨mark, tail⟩
    exact ⟨c, text, rfl, mark, tail⟩

theorem marked_cons (body : List Char → Prop) (c : Char) (text : List Char) :
    Marked body (c :: text) ↔ c = '0' ∧ Mark body text := by
  constructor
  · rintro ⟨x, rest, same, mark, tail⟩
    cases same
    exact ⟨rfl, x, rest, rfl, mark, tail⟩
  · rintro ⟨rfl, x, rest, rfl, mark, tail⟩
    exact ⟨x, rest, rfl, mark, tail⟩

/-- A sign is no digit, in any radix, and a mark is none below 16. -/
theorem isDigit_of_sign {c : Char} (sign : isSign c = true) (radix : Nat) :
    isDigit radix c = false := by
  unfold isSign at sign
  rw [Bool.or_eq_true, beq_iff_eq, beq_iff_eq] at sign
  have none : digitValue '+' = none ∧ digitValue '-' = none := by decide
  unfold isDigit
  rcases sign with rfl | rfl
  · rw [none.1]
  · rw [none.2]

theorem isDigit_of_mark {c : Char} (mark : isHexMark c = true) {radix : Nat} (small : radix ≤ 16) :
    isDigit radix c = false := by
  unfold isHexMark at mark
  rw [Bool.or_eq_true, beq_iff_eq, beq_iff_eq] at mark
  have value : digitValue 'x' = some 33 ∧ digitValue 'X' = some 33 := by decide
  have large : decide (33 < radix) = false := decide_eq_false (by omega)
  unfold isDigit
  rcases mark with rfl | rfl
  · rw [value.1]
    exact large
  · rw [value.2]
    exact large

theorem ne_zero_of_sign {c : Char} (sign : isSign c = true) : c ≠ '0' := by
  rintro rfl
  exact absurd sign (by decide)

/-! ## Integers -/

namespace IntegerState

variable (base : Int)

/-- What each state accepts. -/
def Language : IntegerState → List Char → Prop
  | start => Signed (IntegerBody base)
  | signed => IntegerBody base
  | zero => fun text =>
      (∀ c ∈ text, isDigit (if base = 0 then 8 else 16) c = true) ∨ Mark (Digits 16) text
  | hexMark => Digits 16
  | digits radix => fun text => ∀ c ∈ text, isDigit radix c = true

theorem body_nil : ¬ IntegerBody base [] := by
  unfold IntegerBody
  split
  · rintro (⟨d, rest, same, -⟩ | ⟨rest, same, -⟩ | marked)
    · cases same
    · cases same
    · exact marked_nil _ marked
  · rintro ⟨-, digits | ⟨-, marked⟩⟩
    · exact digits_nil _ digits
    · exact marked_nil _ marked

theorem valid_of_body {text : List Char} (body : IntegerBody base text) : ValidBase base := by
  unfold IntegerBody at body
  split at body
  · rename_i zero
    exact .inl zero
  · exact body.1

theorem body_cons (valid : ValidBase base) (c : Char) (text : List Char) :
    IntegerBody base (c :: text) ↔ ∃ s, first base c = some s ∧ Language base s text := by
  unfold first IntegerBody
  by_cases constant : base = 0
  · subst constant
    rw [if_pos rfl, marked_cons]
    by_cases zero : c = '0'
    · subst zero
      simp [Language]
    · by_cases digit : isDigit 10 c = true
      · simp [zero, digit, Language]
      · simp [zero, digit]
  · rw [if_neg constant, and_iff_right valid, digits_cons, marked_cons]
    by_cases zero : c = '0' ∧ base = 16
    · obtain ⟨rfl, rfl⟩ := zero
      have digit : isDigit 16 '0' = true := by decide
      simp [Language, digit]
    · have marked : ¬ (base = 16 ∧ c = '0' ∧ Mark (Digits 16) text) := fun all =>
        zero ⟨all.2.1, all.1⟩
      by_cases digit : isDigit base.toNat c = true
      · simp [constant, zero, marked, digit, Language]
      · simp [constant, zero, marked, digit]

theorem first_of_sign {c : Char} (sign : isSign c = true) : first base c = none := by
  unfold first
  rw [if_neg fun both => ne_zero_of_sign sign both.1, isDigit_of_sign sign, isDigit_of_sign sign]
  simp

theorem language_nil (s : IntegerState) : Language base s [] ↔ s.accepting = true := by
  cases s with
  | start => exact iff_of_false (fun body => body_nil base ((signed_nil _).mp body)) (by decide)
  | signed => exact iff_of_false (body_nil base) (by decide)
  | zero => exact iff_of_true (.inl (List.forall_mem_nil _)) rfl
  | hexMark => exact iff_of_false (digits_nil 16) (by decide)
  | digits radix => exact iff_of_true (List.forall_mem_nil _) rfl

theorem language_cons (s : IntegerState) (c : Char) (text : List Char) :
    Language base s (c :: text) ↔ ∃ s', step base s c = some s' ∧ Language base s' text := by
  cases s with
  | start =>
      change Signed (IntegerBody base) (c :: text) ↔ _
      rw [signed_cons]
      rw [step]
      by_cases valid : ValidBase base
      · rw [if_neg (not_not.mpr valid), body_cons base valid]
        by_cases sign : isSign c = true
        · simp [first_of_sign base sign, sign, Language]
        · simp [sign]
      · rw [if_pos valid]
        refine iff_of_false ?_ (by simp)
        rintro (⟨-, body⟩ | body)
        · exact valid (valid_of_body base body)
        · exact valid (valid_of_body base body)
  | signed =>
      change IntegerBody base (c :: text) ↔ _
      rw [step]
      by_cases valid : ValidBase base
      · rw [if_pos valid, body_cons base valid]
      · rw [if_neg valid]
        exact iff_of_false (fun body => valid (valid_of_body base body)) (by simp)
  | zero =>
      change (_ ∨ Mark (Digits 16) (c :: text)) ↔ _
      rw [List.forall_mem_cons, mark_cons]
      rw [step]
      have small : (if base = 0 then 8 else 16) ≤ 16 := by split <;> decide
      generalize (if base = 0 then 8 else 16) = radix at small ⊢
      by_cases mark : isHexMark c = true
      · simp [mark, isDigit_of_mark mark small, Language]
      · by_cases digit : isDigit radix c = true
        · simp [mark, digit, Language]
        · simp [mark, digit]
  | hexMark =>
      change Digits 16 (c :: text) ↔ _
      rw [digits_cons]
      rw [step]
      by_cases digit : isDigit 16 c = true
      · simp [digit, Language]
      · simp [digit]
  | digits radix =>
      change (∀ d ∈ c :: text, isDigit radix d = true) ↔ _
      rw [List.forall_mem_cons]
      rw [step]
      by_cases digit : isDigit radix c = true
      · simp [digit, Language]
      · simp [digit]

end IntegerState

theorem integer_accepts_iff (base : Int) (s : IntegerState) (text : List Char) :
    (integerScanner base).Accepts s text ↔ s.Language base text :=
  Scanner.accepts_iff (IntegerState.language_nil base) (IntegerState.language_cons base) s text

theorem integer_signs {base : Int} (valid : ValidBase base) :
    Signs (integerScanner base) .start .signed where
  live s := by
    have zero : IntegerBody base ['0'] := by
      unfold IntegerBody
      split
      · exact .inr (.inl ⟨[], rfl, List.forall_mem_nil _⟩)
      · rename_i some
        refine ⟨valid, .inl ((digits_cons _ _ _).mpr ⟨?_, List.forall_mem_nil _⟩)⟩
        have value : digitValue '0' = Option.some 0 := by decide
        unfold isDigit
        rw [value]
        refine decide_eq_true ?_
        rcases valid with none | ⟨least, -⟩
        · exact absurd none some
        · omega
    simp only [integer_accepts_iff]
    cases s with
    | start => exact ⟨['0'], .inl zero⟩
    | signed => exact ⟨['0'], zero⟩
    | zero => exact ⟨[], .inl (List.forall_mem_nil _)⟩
    | hexMark => exact ⟨['0'], (digits_cons _ _ _).mpr ⟨by decide, List.forall_mem_nil _⟩⟩
    | digits radix => exact ⟨[], List.forall_mem_nil _⟩
  first := rfl
  second := rfl
  sign c s sign moved := by
    change IntegerState.step base .start c = some s at moved
    rw [IntegerState.step, if_neg (not_not.mpr valid), if_pos sign] at moved
    exact (Option.some.inj moved).symm
  enters_start s c moved := by
    change IntegerState.step base s c = some .start at moved
    cases s <;> rw [IntegerState.step] at moved <;> try unfold IntegerState.first at moved
    all_goals split_ifs at moved <;> cases moved
  enters_signed s c moved := by
    change IntegerState.step base s c = some .signed at moved
    cases s <;> rw [IntegerState.step] at moved <;> try unfold IntegerState.first at moved
    all_goals split_ifs at moved <;> cases moved
    rename_i sign
    exact ⟨rfl, sign⟩

/-! ## Floating-point numbers -/

theorem ne_dot_of_isDigit {radix : Nat} {c : Char} (digit : isDigit radix c = true) : c ≠ '.' := by
  rintro rfl
  have none : digitValue '.' = none := by decide
  unfold isDigit at digit
  rw [none] at digit
  cases digit

namespace Radix

variable (radix : Radix)

theorem of_exponentMark {c : Char} (mark : radix.isExponentMark c = true) :
    isDigit radix.base c = false ∧ c ≠ '.' := by
  cases radix with
  | ten =>
      unfold isExponentMark at mark
      rw [Bool.or_eq_true, beq_iff_eq, beq_iff_eq] at mark
      rcases mark with rfl | rfl <;> decide
  | sixteen =>
      unfold isExponentMark at mark
      rw [Bool.or_eq_true, beq_iff_eq, beq_iff_eq] at mark
      rcases mark with rfl | rfl <;> decide

theorem not_mark_of_isDigit {c : Char} (digit : isDigit radix.base c = true) :
    ¬ radix.isExponentMark c = true := by
  intro mark
  rw [(radix.of_exponentMark mark).1] at digit
  cases digit

theorem exponent_cons (c : Char) (text : List Char) :
    Exponent radix (c :: text) ↔ radix.isExponentMark c = true ∧ Signed (Digits 10) text := by
  constructor
  · rintro (same | ⟨e, rest, same, mark, tail⟩)
    · cases same
    · cases same
      exact ⟨mark, tail⟩
  · rintro ⟨mark, tail⟩
    exact .inr ⟨c, text, rfl, mark, tail⟩

theorem fraction_cons (c : Char) (text : List Char) :
    Fraction radix (c :: text) ↔
      isDigit radix.base c = true ∧ Fraction radix text ∨
        radix.isExponentMark c = true ∧ Signed (Digits 10) text := by
  unfold Fraction
  rw [before_cons, exponent_cons]

theorem whole_cons (c : Char) (text : List Char) :
    Whole radix (c :: text) ↔
      isDigit radix.base c = true ∧ Whole radix text ∨
        radix.isExponentMark c = true ∧ Signed (Digits 10) text ∨
          c = '.' ∧ Fraction radix text := by
  unfold Whole
  rw [before_cons, exponent_cons]
  refine or_congr Iff.rfl (or_congr Iff.rfl ?_)
  constructor
  · rintro ⟨rest, same, tail⟩
    cases same
    exact ⟨rfl, tail⟩
  · rintro ⟨rfl, tail⟩
    exact ⟨text, rfl, tail⟩

theorem pointed_cons (c : Char) (text : List Char) :
    Pointed radix (c :: text) ↔ isDigit radix.base c = true ∧ Fraction radix text := by
  constructor
  · rintro ⟨d, rest, same, digit, tail⟩
    cases same
    exact ⟨digit, tail⟩
  · rintro ⟨digit, tail⟩
    exact ⟨c, text, rfl, digit, tail⟩

theorem real_cons (c : Char) (text : List Char) :
    Real radix (c :: text) ↔
      isDigit radix.base c = true ∧ Whole radix text ∨ c = '.' ∧ Pointed radix text := by
  constructor
  · rintro ⟨d, rest, same, tail⟩
    cases same
    exact tail
  · intro tail
    exact ⟨c, text, rfl, tail⟩

end Radix

theorem infinityFrom_cons (k : Nat) (c : Char) (text : List Char) :
    InfinityFrom k (c :: text) ↔
      infinity[k]? = some c.toLower ∧ InfinityFrom (k + 1) text := by
  unfold InfinityFrom
  by_cases below : k < 8
  · interval_cases k <;> simp [infinity, lower, eq_comm, and_or_left]
  · have none : infinity[k]? = none := List.getElem?_eq_none (by change 8 ≤ k; omega)
    have empty : infinity.drop k = [] := List.drop_eq_nil_of_le (by change 8 ≤ k; omega)
    rw [none, empty]
    simp [lower]
    omega

theorem nanFrom_cons (k : Nat) (c : Char) (text : List Char) :
    NanFrom k (c :: text) ↔
      nan[k]? = some c.toLower ∧ NanFrom (k + 1) text ∨ 3 ≤ k ∧ c = '(' ∧ NanName text := by
  unfold NanFrom
  by_cases below : k < nan.length
  · have next : nan.drop k = nan[k] :: nan.drop (k + 1) := List.drop_eq_getElem_cons below
    rw [next, List.getElem?_eq_getElem below, Option.some_inj]
    constructor
    · rintro (letters | ⟨letters, rest, same, word, name⟩)
      · obtain ⟨here, more⟩ := List.cons_eq_cons.mp letters
        exact .inl ⟨here.symm, .inl more⟩
      · cases letters with
        | nil => cases word
        | cons d letters =>
            cases same
            obtain ⟨here, more⟩ := List.cons_eq_cons.mp word
            exact .inl ⟨here.symm, .inr ⟨letters, rest, rfl, more, name⟩⟩
    · rintro (⟨here, more | ⟨letters, rest, rfl, more, name⟩⟩ | ⟨past, -⟩)
      · exact .inl (List.cons_eq_cons.mpr ⟨here.symm, more⟩)
      · exact .inr ⟨c :: letters, rest, rfl, List.cons_eq_cons.mpr ⟨here.symm, more⟩, name⟩
      · exact absurd below (Nat.not_lt.mpr past)
  · have past : nan.length ≤ k := Nat.not_lt.mp below
    rw [List.getElem?_eq_none past, List.drop_eq_nil_of_le past]
    constructor
    · rintro (letters | ⟨letters, rest, same, word, name⟩)
      · cases letters
      · cases letters with
        | nil =>
            cases same
            exact .inr ⟨past, rfl, name⟩
        | cons d letters => cases word
    · rintro (⟨here, -⟩ | ⟨-, rfl, name⟩)
      · cases here
      · exact .inr ⟨[], text, rfl, rfl, name⟩

theorem char_le_iff (c d : Char) : c ≤ d ↔ c.toNat ≤ d.toNat := Iff.rfl

/-- A decimal digit is no letter. -/
theorem toLower_of_isDigit {c : Char} (digit : isDigit 10 c = true) :
    c.toLower = c ∧ c.toNat ≤ 57 := by
  unfold isDigit digitValue at digit
  simp only [char_le_iff] at digit
  split at digit
  · rename_i value found
    have below := of_decide_eq_true digit
    split_ifs at found with decimal small large
    · have high : c.toNat ≤ 57 := decimal.2
      refine ⟨?_, high⟩
      unfold Char.toLower
      rw [dif_neg]
      rintro ⟨least, -⟩
      have above : 65 ≤ c.toNat := least
      omega
    · have least : 97 ≤ c.toNat := small.1
      have same := Option.some.inj found
      omega
    · have least : 65 ≤ c.toNat := large.1
      have same := Option.some.inj found
      omega
  · cases digit

theorem toLower_ne_of_isDigit {c letter : Char} (digit : isDigit 10 c = true)
    (above : 57 < letter.toNat) : c.toLower ≠ letter := by
  obtain ⟨same, below⟩ := toLower_of_isDigit digit
  rw [same]
  rintro rfl
  omega

namespace FloatState

/-- What each state accepts. -/
def Language : FloatState → List Char → Prop
  | start => Signed FloatBody
  | signed => FloatBody
  | zero => fun text => Whole .ten text ∨ Mark (Real .sixteen) text
  | hexMark => Real .sixteen
  | digits radix => Whole radix
  | point radix => Pointed radix
  | fraction radix => Fraction radix
  | exponentMark => Signed (Digits 10)
  | exponentSign => Digits 10
  | exponent => fun text => ∀ c ∈ text, isDigit 10 c = true
  | infinity k => InfinityFrom k
  | nan k => NanFrom k
  | nanName => NanName
  | nanEnd => fun text => text = []

theorem body_cons (c : Char) (text : List Char) :
    FloatBody (c :: text) ↔ ∃ s, first c = some s ∧ Language s text := by
  unfold FloatBody first
  rw [Radix.real_cons, marked_cons, infinityFrom_cons, nanFrom_cons]
  have words : Numbers.infinity[0]? = some 'i' ∧ Numbers.nan[0]? = some 'n' ∧ ¬ 3 ≤ 0 := by decide
  rw [words.1, words.2.1, Option.some_inj, Option.some_inj, eq_comm (a := 'i'), eq_comm (a := 'n')]
  by_cases zero : c = '0'
  · subst zero
    have digit : isDigit Radix.ten.base '0' = true := by decide
    have plain : '0' ≠ '.' ∧ Char.toLower '0' ≠ 'i' ∧ Char.toLower '0' ≠ 'n' := by decide
    simp [digit, plain, Language]
  · by_cases digit : isDigit 10 c = true
    · have digit' : isDigit Radix.ten.base c = true := digit
      have i := @toLower_ne_of_isDigit c 'i' digit (by decide)
      have n := @toLower_ne_of_isDigit c 'n' digit (by decide)
      have dot : c ≠ '.' := ne_dot_of_isDigit digit
      simp [zero, digit, digit', i, n, dot, Language]
    · have digit' : ¬ isDigit Radix.ten.base c = true := digit
      by_cases dot : c = '.'
      · subst dot
        simp [zero, digit, digit', Language]
      · by_cases i : c.toLower = 'i'
        · simp [zero, digit, digit', dot, i, Language]
        · by_cases n : c.toLower = 'n'
          · simp [zero, digit, digit', dot, n, Language]
          · simp [zero, digit, digit', dot, i, n]

theorem real_nil (radix : Radix) : ¬ Real radix [] := by
  rintro ⟨c, rest, same, -⟩
  cases same

theorem infinityFrom_nil (k : Nat) : InfinityFrom k [] ↔ k = 3 ∨ 8 ≤ k := by
  unfold InfinityFrom
  have short : (Numbers.infinity.take 3).drop k = [] ↔ 3 ≤ k := List.drop_eq_nil_iff
  have long : Numbers.infinity.drop k = [] ↔ 8 ≤ k := List.drop_eq_nil_iff
  change (k ≤ 3 ∧ [] = (Numbers.infinity.take 3).drop k ∨ [] = Numbers.infinity.drop k) ↔ _
  rw [eq_comm, short, eq_comm, long]
  omega

theorem nanFrom_nil (k : Nat) : NanFrom k [] ↔ 3 ≤ k := by
  have past : Numbers.nan.drop k = [] ↔ 3 ≤ k := List.drop_eq_nil_iff
  rw [← past]
  constructor
  · rintro (letters | ⟨letters, rest, same, -⟩)
    · exact letters.symm
    · exact absurd same.symm (List.append_ne_nil_of_right_ne_nil letters (List.cons_ne_nil _ _))
  · intro letters
    exact .inl letters.symm

theorem exponent_nil (radix : Radix) : Exponent radix [] := .inl rfl

theorem fraction_nil (radix : Radix) : Fraction radix [] :=
  (before_nil _ _).mpr (exponent_nil radix)

theorem whole_nil (radix : Radix) : Whole radix [] :=
  (before_nil _ _).mpr (.inl (exponent_nil radix))

theorem body_nil : ¬ FloatBody [] := by
  rintro (real | marked | word | word)
  · exact real_nil _ real
  · exact marked_nil _ marked
  · exact absurd ((infinityFrom_nil 0).mp word) (by decide)
  · exact absurd ((nanFrom_nil 0).mp word) (by decide)

theorem language_nil (s : FloatState) : Language s [] ↔ s.accepting = true := by
  cases s with
  | start => exact iff_of_false (fun body => body_nil ((signed_nil _).mp body)) (by decide)
  | signed => exact iff_of_false body_nil (by decide)
  | zero => exact iff_of_true (.inl (whole_nil _)) rfl
  | hexMark => exact iff_of_false (real_nil _) (by decide)
  | digits radix => exact iff_of_true (whole_nil radix) rfl
  | point radix =>
      refine iff_of_false ?_ Bool.false_ne_true
      rintro ⟨d, rest, same, -⟩
      cases same
  | fraction radix => exact iff_of_true (fraction_nil radix) rfl
  | exponentMark => exact iff_of_false (fun text => digits_nil _ ((signed_nil _).mp text)) (by decide)
  | exponentSign => exact iff_of_false (digits_nil _) (by decide)
  | exponent => exact iff_of_true (List.forall_mem_nil _) rfl
  | infinity k => exact (infinityFrom_nil k).trans (decide_eq_true_iff).symm
  | nan k => exact (nanFrom_nil k).trans (decide_eq_true_iff).symm
  | nanName =>
      refine iff_of_false (fun name => ?_) (by decide)
      cases (before_nil _ _).mp name
  | nanEnd => exact iff_of_true rfl rfl

theorem first_of_sign {c : Char} (sign : isSign c = true) : first c = none := by
  unfold isSign at sign
  rw [Bool.or_eq_true, beq_iff_eq, beq_iff_eq] at sign
  rcases sign with rfl | rfl <;> decide

theorem afterDigit_of_mark {c : Char} (mark : isHexMark c = true) : afterDigit .ten c = none := by
  unfold isHexMark at mark
  rw [Bool.or_eq_true, beq_iff_eq, beq_iff_eq] at mark
  rcases mark with rfl | rfl <;> decide

theorem afterDigit_iff (radix : Radix) (c : Char) (text : List Char) :
    Whole radix (c :: text) ↔ ∃ s, afterDigit radix c = some s ∧ Language s text := by
  rw [Radix.whole_cons]
  unfold afterDigit
  by_cases digit : isDigit radix.base c = true
  · have dot : c ≠ '.' := ne_dot_of_isDigit digit
    have mark : ¬ radix.isExponentMark c = true := radix.not_mark_of_isDigit digit
    simp [digit, dot, mark, Language]
  · by_cases dot : c = '.'
    · have mark : ¬ radix.isExponentMark c = true := fun mark => (radix.of_exponentMark mark).2 dot
      subst dot
      simp [digit, mark, Language]
    · by_cases mark : radix.isExponentMark c = true
      · simp [digit, dot, mark, Language]
      · simp [digit, dot, mark]

theorem language_cons (s : FloatState) (c : Char) (text : List Char) :
    Language s (c :: text) ↔ ∃ s', step s c = some s' ∧ Language s' text := by
  cases s with
  | start =>
      change Signed FloatBody (c :: text) ↔ _
      rw [signed_cons, body_cons, step]
      by_cases sign : isSign c = true
      · simp [first_of_sign sign, sign, Language]
      · simp [sign]
  | signed =>
      change FloatBody (c :: text) ↔ _
      rw [body_cons, step]
  | zero =>
      change (_ ∨ Mark (Real .sixteen) (c :: text)) ↔ _
      rw [afterDigit_iff, mark_cons, step]
      by_cases mark : isHexMark c = true
      · simp [afterDigit_of_mark mark, mark, Language]
      · simp [mark]
  | hexMark =>
      change Real .sixteen (c :: text) ↔ _
      rw [Radix.real_cons, step]
      change isDigit 16 c = true ∧ _ ∨ _ ↔ _
      by_cases digit : isDigit 16 c = true
      · have dot : c ≠ '.' := ne_dot_of_isDigit digit
        simp [digit, dot, Language]
      · by_cases dot : c = '.'
        · subst dot
          simp [digit, Language]
        · simp [digit, dot]
  | digits radix =>
      change Whole radix (c :: text) ↔ _
      rw [afterDigit_iff, step]
  | point radix =>
      change Pointed radix (c :: text) ↔ _
      rw [Radix.pointed_cons, step]
      by_cases digit : isDigit radix.base c = true
      · simp [digit, Language]
      · simp [digit]
  | fraction radix =>
      change Fraction radix (c :: text) ↔ _
      rw [Radix.fraction_cons, step]
      by_cases digit : isDigit radix.base c = true
      · have mark : ¬ radix.isExponentMark c = true := radix.not_mark_of_isDigit digit
        simp [digit, mark, Language]
      · by_cases mark : radix.isExponentMark c = true
        · simp [digit, mark, Language]
        · simp [digit, mark]
  | exponentMark =>
      change Signed (Digits 10) (c :: text) ↔ _
      rw [signed_cons, digits_cons, step]
      by_cases sign : isSign c = true
      · simp [sign, isDigit_of_sign sign, Language]
      · by_cases digit : isDigit 10 c = true
        · simp [sign, digit, Language]
        · simp [sign, digit]
  | exponentSign =>
      change Digits 10 (c :: text) ↔ _
      rw [digits_cons, step]
      by_cases digit : isDigit 10 c = true
      · simp [digit, Language]
      · simp [digit]
  | exponent =>
      change (∀ d ∈ c :: text, isDigit 10 d = true) ↔ _
      rw [List.forall_mem_cons, step]
      by_cases digit : isDigit 10 c = true
      · simp [digit, Language]
      · simp [digit]
  | infinity k =>
      change InfinityFrom k (c :: text) ↔ _
      rw [infinityFrom_cons, step]
      by_cases letter : Numbers.infinity[k]? = some c.toLower
      · simp [letter, Language]
      · simp [letter]
  | nan k =>
      change NanFrom k (c :: text) ↔ _
      rw [nanFrom_cons, step]
      by_cases letter : Numbers.nan[k]? = some c.toLower
      · have within : ¬ 3 ≤ k := by
          obtain ⟨below, -⟩ := List.getElem?_eq_some_iff.mp letter
          exact Nat.not_le.mpr below
        simp [letter, within, Language]
      · by_cases opens : 3 ≤ k ∧ c = '('
        · obtain ⟨past, rfl⟩ := opens
          have none : Numbers.nan[k]? = none := List.getElem?_eq_none past
          simp [none, past, Language]
        · have closed : ¬ (3 ≤ k ∧ c = '(' ∧ NanName text) := fun all => opens ⟨all.1, all.2.1⟩
          simp [letter, opens, closed]
  | nanName =>
      change NanName (c :: text) ↔ _
      unfold NanName
      rw [before_cons, step]
      by_cases name : isNameChar c = true
      · have bracket : c ≠ ')' := by
          rintro rfl
          exact absurd name (by decide)
        simp [name, bracket, Language, NanName]
      · simp [name, Language]
  | nanEnd =>
      rw [step]
      exact iff_of_false (List.cons_ne_nil c text) (by simp)

end FloatState

theorem float_accepts_iff (s : FloatState) (text : List Char) :
    floatScanner.Accepts s text ↔ s.Language text :=
  Scanner.accepts_iff FloatState.language_nil FloatState.language_cons s text

theorem lower_drop_infinity (k : Nat) : lower (infinity.drop k) = infinity.drop k := by
  have same : infinity.map Char.toLower = infinity := by decide
  unfold lower
  rw [List.map_drop, same]

theorem lower_drop_nan (k : Nat) : lower (nan.drop k) = nan.drop k := by
  have same : nan.map Char.toLower = nan := by decide
  unfold lower
  rw [List.map_drop, same]

theorem float_signs : Signs floatScanner .start .signed where
  live s := by
    have digit (radix : Radix) : isDigit radix.base '0' = true := by cases radix <;> decide
    have digits : Digits 10 ['0'] := (digits_cons _ _ _).mpr ⟨by decide, List.forall_mem_nil _⟩
    have real (radix : Radix) : Real radix ['0'] :=
      (radix.real_cons _ _).mpr (.inl ⟨digit radix, FloatState.whole_nil radix⟩)
    simp only [float_accepts_iff]
    cases s with
    | start => exact ⟨['0'], .inl (.inl (real .ten))⟩
    | signed => exact ⟨['0'], .inl (real .ten)⟩
    | zero => exact ⟨[], .inl (FloatState.whole_nil _)⟩
    | hexMark => exact ⟨['0'], real .sixteen⟩
    | digits radix => exact ⟨[], FloatState.whole_nil radix⟩
    | point radix =>
        exact ⟨['0'], (radix.pointed_cons _ _).mpr ⟨digit radix, FloatState.fraction_nil radix⟩⟩
    | fraction radix => exact ⟨[], FloatState.fraction_nil radix⟩
    | exponentMark => exact ⟨['0'], .inl digits⟩
    | exponentSign => exact ⟨['0'], digits⟩
    | exponent => exact ⟨[], List.forall_mem_nil _⟩
    | infinity k => exact ⟨infinity.drop k, .inr (lower_drop_infinity k)⟩
    | nan k => exact ⟨nan.drop k, .inl (lower_drop_nan k)⟩
    | nanName => exact ⟨[')'], [], [')'], rfl, List.forall_mem_nil _, rfl⟩
    | nanEnd => exact ⟨[], rfl⟩
  first := rfl
  second := rfl
  sign c s sign moved := by
    change FloatState.step .start c = some s at moved
    rw [FloatState.step, if_pos sign] at moved
    exact (Option.some.inj moved).symm
  enters_start s c moved := by
    change FloatState.step s c = some .start at moved
    cases s <;> rw [FloatState.step] at moved <;> try unfold FloatState.first at moved
    all_goals try unfold FloatState.afterDigit at moved
    all_goals try split_ifs at moved
    all_goals cases moved
  enters_signed s c moved := by
    change FloatState.step s c = some .signed at moved
    cases s <;> rw [FloatState.step] at moved <;> try unfold FloatState.first at moved
    all_goals try unfold FloatState.afterDigit at moved
    all_goals try split_ifs at moved
    all_goals cases moved
    rename_i sign
    exact ⟨rfl, sign⟩

/-! ## The checks -/

/-- The checked bytes hold every byte that has to be read exactly when the scan
of the text finishes what it began. -/
theorem checked_iff (p : Parser) {text : List Char} {stop : Nat}
    (converts : Converts p.Subject text stop) :
    (∀ k, HasToRead p.Subject text k → k < readBytes text stop) ↔ ¬ Unfinished text p := by
  cases p with
  | integer base =>
      by_cases valid : ValidBase base
      · have same : Signed (IntegerBody base) = (integerScanner base).Accepts .start :=
          funext fun text => propext (integer_accepts_iff base .start text).symm
        change Converts (Signed (IntegerBody base)) text stop at converts
        change (∀ k, HasToRead (Signed (IntegerBody base)) text k → _) ↔ _
        rw [same] at converts ⊢
        exact (integer_signs valid).covers_iff (by decide) converts
      · -- no text is converted, and the scan does not move
        have nothing (text : List Char) : ¬ Signed (IntegerBody base) text := by
          rintro (body | ⟨c, rest, -, -, body⟩)
          · exact valid (IntegerState.valid_of_body base body)
          · exact valid (IntegerState.valid_of_body base body)
        have stays : ((integerScanner base).walk .start (text.drop (spaces text))).2 = .start := by
          cases text.drop (spaces text) with
          | nil => rfl
          | cons c rest =>
              have stuck : (integerScanner base).step .start c = none := if_pos valid
              rw [Scanner.walk_stuck stuck]
        refine iff_of_true (fun k read => ?_) fun unfinished => unfinished.2.1 stays
        have none : stop = 0 := by
          rcases converts with ⟨n, -, body, -⟩ | ⟨-, none⟩
          · exact absurd body (nothing _)
          · exact none
        have space : k ≤ spaces text := by
          rcases read with space | ⟨-, rest, body⟩
          · exact space
          · exact absurd body (nothing _)
        have skips := skipped_eq text
        unfold readBytes
        rw [if_neg (fun some => some none)]
        omega
  | float =>
      have same : Signed FloatBody = floatScanner.Accepts .start :=
        funext fun text => propext (float_accepts_iff .start text).symm
      change Converts (Signed FloatBody) text stop at converts
      change (∀ k, HasToRead (Signed FloatBody) text k → _) ↔ _
      rw [same] at converts ⊢
      exact float_signs.covers_iff (by decide) converts

theorem parser_passes {ctx : Context} {shadow shadow' : Shadow} {text : List Char}
    {s stop out : Nat} (passes : parser ctx shadow text s stop out = .ok shadow') :
    ∀ k < readBytes text stop, ¬ Bad ctx shadow s k := by
  unfold parser parsed at passes
  have spec := checkRange_spec ctx shadow s (readBytes text stop)
  cases null : readsNull s 1 with
  | error failure =>
      rw [null] at passes
      cases passes
  | ok _ =>
      rw [null] at passes
      cases checked : checkRange ctx shadow s (readBytes text stop) with
      | error failure =>
          change (checkRange ctx shadow s (readBytes text stop) >>= _) = _ at passes
          rw [checked] at passes
          cases passes
      | ok shadow₁ =>
          rw [checked] at spec
          exact (unaddressable_reached_none ctx shadow s _).mp spec.2

theorem integer_zero : (Parser.integer 16).Subject ['0'] :=
  (integer_accepts_iff 16 .start ['0']).mp ⟨.zero, rfl, rfl⟩

theorem integer_seventeen : (Parser.integer 10).Subject ['-', '1', '7'] :=
  (integer_accepts_iff 10 .start ['-', '1', '7']).mp ⟨_, rfl, _, rfl, _, rfl, rfl⟩

end WeaveC.Calls.Numbers
