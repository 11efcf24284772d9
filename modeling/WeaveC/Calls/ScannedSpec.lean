import WeaveC.Calls.Scanned
import WeaveC.Calls.Copies

/-!
# Scans and the bytes they store

The directives of a scan's format and the text that spells them, what a
conforming scan stores as it carries them out one after another, and what of it
`checkScanned` checks.  A width that it cannot read ends its walk or leaves one
byte of a field, and a text is as long as what stands at its destination says.
-/

namespace WeaveC.Calls.Scanned

open WeaveC.Library WeaveC.Runtime WeaveC.Calls.Format WeaveC.Calls.Copies

/-! ## Directives -/

/-- A scan set after its `[`; a `]` is a member of it only when it comes first. -/
structure ScanSet where
  negated : Bool
  bracket : Bool
  members : List Char
  closes : ']' ∉ members
  nonempty : bracket = false → members ≠ []
  positive : negated = false → bracket = false → members.head? ≠ some '^'

namespace ScanSet

def text (s : ScanSet) : List Char :=
  (if s.negated then ['^'] else []) ++
    ((if s.bracket then [']'] else []) ++ (s.members ++ [']']))

end ScanSet

inductive Specifier where
  | letter (letter : Letter)
  | set (set : ScanSet)

namespace Specifier

def char : Specifier → Char
  | letter l => l.char
  | set _ => '['

def text : Specifier → List Char
  | letter l => [l.char]
  | set s => '[' :: s.text

/-- The modifiers a conversion has a meaning with. -/
def Takes : Specifier → Modifier → Prop
  | letter l, modifier => l.Takes modifier
  | set _, modifier => modifier = .none ∨ modifier = .long

/-- A string, or a set. -/
def IsText : Specifier → Prop
  | letter .string | set _ => True
  | _ => False

/-- Characters, strings and sets. -/
def IsCharacters : Specifier → Prop
  | letter .character | letter .string | set _ => True
  | _ => False

/-- Whether a conversion of it counts when it is assigned. -/
def counts : Specifier → Bool
  | letter .target => false
  | _ => true

end Specifier

/-- A conversion; a width of no digits is none. -/
structure Conversion where
  suppressed : Bool
  width : Digits
  modifier : Modifier
  specifier : Specifier
  takes : specifier.Takes modifier

namespace Conversion

/-- A conversion as it is spelled after its `%`. -/
def text (c : Conversion) : List Char :=
  (if c.suppressed then ['*'] else []) ++ (c.width.text ++ (c.modifier.text ++ c.specifier.text))

/-- Wide characters, strings and sets, which `checkScanned` leaves out. -/
def Wide (c : Conversion) : Prop := c.specifier.IsCharacters ∧ c.modifier = .long

end Conversion

inductive Piece where
  | literal (c : Char) (plain : c ≠ '%')
  | percent
  | conversion (c : Conversion)

namespace Piece

def text : Piece → List Char
  | literal c _ => [c]
  | percent => ['%', '%']
  | conversion c => '%' :: c.text

/-- The width of a conversion is read to its end. -/
def Followed : Piece → Prop
  | conversion c => c.width.Followed
  | _ => True

/-- The arguments it takes: one, or none. -/
def arguments : Piece → Nat
  | conversion c => if c.suppressed then 0 else 1
  | _ => 0

/-- What it adds to the count of assigned conversions. -/
def counts : Piece → Nat
  | conversion c => if c.suppressed then 0 else if c.specifier.counts then 1 else 0
  | _ => 0

end Piece

def text (pieces : List Piece) : List Char := pieces.flatMap Piece.text

/-! ## What a conforming scan stores -/

/-- A directive that was carried out, and the length of the text that a string
or a set of it matched, which lies in memory with its terminator. -/
structure Done where
  piece : Piece
  length : Nat
  short : length < 0xFFFFFFFFFFFFFFFF

/-- The bytes a conversion stores: its object's, as many as its field is wide,
or a text and its terminator. -/
def Conversion.stored (c : Conversion) (length : Nat) : Nat :=
  match c.specifier with
  | .letter (.integer _) | .letter .target => c.modifier.bytes
  | .letter (.floating _) =>
      match c.modifier with
      | .longDouble => 16
      | .long => 8
      | _ => 4
  | .letter .character => if c.width.value = 0 then 1 else c.width.value
  | .letter .string | .set _ => length + 1
  | .letter .pointer => 8

/-- The arguments the directives take. -/
def argumentsOf : List Done → Nat
  | [] => 0
  | d :: done => d.piece.arguments + argumentsOf done

/-- The conversions that were assigned. -/
def assignedOf : List Done → Nat
  | [] => 0
  | d :: done => d.piece.counts + assignedOf done

/-- What a scan returns: the conversions it assigned, or `EOF` where the input
ended before the first of them. -/
def Returns (done : List Done) (assigned : Int) : Prop :=
  assigned = assignedOf done ∨ (assignedOf done = 0 ∧ assigned = -1)

/-- The conversion after the first directives stored to the argument it takes. -/
structure Stores (done : List Done) (arguments : List Nat) (first : List Done) (c : Conversion)
    (length target : Nat) : Prop where
  split : ∃ short rest, done = first ++ ⟨.conversion c, length, short⟩ :: rest
  unsuppressed : c.suppressed = false
  narrow : ¬ c.Wide
  argument : arguments[argumentsOf first]? = some target
  nonnull : target ≠ 0

/-! ## One conversion read -/

/-- How `checkScanned` numbers a modifier. -/
def sizeOf (m : Modifier) : Int :=
  match m with
  | .intmax | .size | .ptrdiff => 3
  | m => m.code

theorem size_text (m : Modifier) {c : Char} (plain : c ∉ ['h', 'l', 'j', 'z', 't', 'L'])
    (rest : List Char) : size (m.text ++ c :: rest) = (sizeOf m, c :: rest) := by
  simp only [List.mem_cons, List.not_mem_nil, or_false, not_or] at plain
  obtain ⟨h, long, j, z, t, L⟩ := plain
  cases m with
  | char | longLong | intmax | size | ptrdiff | longDouble => rfl
  | none =>
      change size (c :: rest) = (0, c :: rest)
      simp only [size, h, long, j, z, t, L, List.cons.injEq, false_and, implies_true, imp_self]
  | short =>
      change size ('h' :: c :: rest) = (-2, c :: rest)
      simp [size, h]
  | long =>
      change size ('l' :: c :: rest) = (1, c :: rest)
      simp [size, long]

theorem dropWhile_members {members : List Char} (closes : ']' ∉ members) (rest : List Char) :
    (members ++ ']' :: rest).dropWhile (· ≠ ']') = ']' :: rest := by
  rw [List.dropWhile_append_of_pos]
  · exact List.dropWhile_cons_of_neg (by decide)
  · intro c mem
    refine decide_eq_true fun same => ?_
    rw [same] at mem
    exact closes mem

theorem skip_self (c : Char) (rest : List Char) : skip c (c :: rest) = rest := if_pos rfl

theorem skip_other {c : Char} {format : List Char} (other : format.head? ≠ some c) :
    skip c format = format := by
  cases format with
  | nil => rfl
  | cons first rest => exact if_neg fun same : first = c => other (congrArg some same)

theorem afterSet_text (s : ScanSet) (rest : List Char) : afterSet (s.text ++ rest) = some rest := by
  have skipped : skip ']' (skip '^' (s.text ++ rest)) = s.members ++ ']' :: rest := by
    -- what starts the set once its negation is skipped
    have first : skip ']' ((if s.bracket then [']'] else []) ++ (s.members ++ ']' :: rest)) =
        s.members ++ ']' :: rest := by
      cases bracket : s.bracket with
      | true => exact skip_self ..
      | false =>
          refine skip_other fun same => s.closes ?_
          cases members : s.members with
          | nil => exact absurd members (s.nonempty bracket)
          | cons c members =>
              rw [members] at same
              cases same
              exact List.mem_cons_self
    have spelled : s.text ++ rest = (if s.negated then ['^'] else []) ++
        ((if s.bracket then [']'] else []) ++ (s.members ++ ']' :: rest)) := by
      simp only [ScanSet.text, List.append_assoc, List.singleton_append]
    have second : skip '^' (s.text ++ rest) =
        (if s.bracket then [']'] else []) ++ (s.members ++ ']' :: rest) := by
      rw [spelled]
      cases negated : s.negated with
      | true => exact skip_self ..
      | false =>
          refine skip_other fun same => ?_
          cases bracket : s.bracket with
          | true =>
              rw [bracket] at same
              cases same
          | false =>
              rw [bracket] at same
              cases members : s.members with
              | nil => exact s.nonempty bracket members
              | cons c members' =>
                  rw [members] at same
                  cases same
                  exact s.positive negated bracket (by rw [members]; rfl)
    rw [second, first]
  unfold afterSet
  rw [skipped, dropWhile_members s.closes]


theorem scan_marks_plain : ∀ c ∈ '[' :: marks, c.isDigit = false ∧ c ≠ '$' ∧ c ≠ '*' ∧ c ≠ '%' := by
  intro c mem
  rcases List.mem_cons.mp mem with rfl | mem
  · decide
  · obtain ⟨digit, dollar, star, -, percent⟩ := marks_plain c (List.mem_cons_of_mem _ mem)
    exact ⟨digit, dollar, star, percent⟩

theorem Specifier.text_eq (s : Specifier) (rest : List Char) :
    ∃ tail, s.text ++ rest = s.char :: tail ∧
      (s.char = '[' → afterSet tail = some rest) ∧ (s.char ≠ '[' → tail = rest) := by
  cases s with
  | letter l =>
      refine ⟨rest, rfl, fun same => ?_, fun _ => rfl⟩
      have mem : l.char ∈ marks := l.char_mem_marks
      change l.char = '[' at same
      rw [same] at mem
      exact absurd mem (by decide)
  | set s => exact ⟨s.text ++ rest, rfl, fun _ => afterSet_text s rest, fun other => absurd rfl other⟩

theorem Specifier.char_mem (s : Specifier) : s.char ∈ '[' :: marks := by
  cases s with
  | letter l => exact List.mem_cons_of_mem _ l.char_mem_marks
  | set s => exact List.mem_cons_self

theorem Specifier.char_mem_conversions (s : Specifier) : s.char ∈ conversions := by
  cases s with
  | letter l =>
      cases l with
      | integer which => revert which; decide
      | floating which => revert which; decide
      | character | pointer | string | target => decide
  | set s =>
      change '[' ∈ conversions
      decide

theorem Specifier.char_noModifier (s : Specifier) : s.char ∉ ['h', 'l', 'j', 'z', 't', 'L'] := by
  cases s with
  | letter l => exact l.char_noModifier
  | set s =>
      change '[' ∉ _
      decide

theorem starts_modifier (m : Modifier) (s : Specifier) (tail : List Char) :
    Starts ('[' :: marks) (m.text ++ (s.char :: tail)) := by
  cases m with
  | none => exact ⟨_, _, rfl, s.char_mem⟩
  | char | short | long | longLong | intmax | size | ptrdiff | longDouble =>
      exact ⟨_, _, rfl, by decide⟩

namespace Conversion

/-- What `checkScanned` keeps of it. -/
def directive (c : Conversion) : Directive :=
  ⟨c.suppressed, c.width.read, sizeOf c.modifier, c.specifier.char⟩

theorem star_text (c : Conversion) (rest : List Char) :
    star (c.text ++ rest) =
      (c.suppressed, c.width.text ++ (c.modifier.text ++ (c.specifier.text ++ rest))) := by
  have spelled : c.text ++ rest = (if c.suppressed then ['*'] else []) ++
      (c.width.text ++ (c.modifier.text ++ (c.specifier.text ++ rest))) := by
    simp only [text, List.append_assoc]
  rw [spelled]
  cases suppressed : c.suppressed with
  | true => rfl
  | false =>
      obtain ⟨tail, same, -⟩ := c.specifier.text_eq rest
      have starts := starts_modifier c.modifier c.specifier tail
      rw [same]
      change star (c.width.text ++ (c.modifier.text ++ c.specifier.char :: tail)) = _
      unfold star
      split
      · rename_i starred
        refine absurd starred (Scan.digits_ne_cons starts rfl fun mem => ?_)
        exact (scan_marks_plain '*' mem).2.2.1 rfl
      · rfl

/-- A conversion whose width is read to its end is read as it is spelled. -/
theorem directive_text (c : Conversion) (rest : List Char) (followed : c.width.Followed) :
    Scanned.directive (c.text ++ rest) = some (c.directive, rest) := by
  obtain ⟨tail, same, set, other⟩ := c.specifier.text_eq rest
  have starts := starts_modifier c.modifier c.specifier tail
  have ends : NoDigit (c.modifier.text ++ c.specifier.char :: tail) := by
    obtain ⟨first, tail', eq, mem⟩ := starts
    rw [eq]
    intro c' tail'' eq'
    cases eq'
    exact (scan_marks_plain first mem).1
  have number := readNumber_text ends followed
  unfold Scanned.directive
  rw [star_text, same]
  dsimp only
  rw [number]
  split
  · rename_i dollar
    obtain ⟨first, tail', eq, mem⟩ := starts
    rw [eq] at dollar
    cases dollar
    exact absurd rfl (scan_marks_plain '$' mem).2.1
  · rename_i width format _ eq
    cases eq
    rw [size_text c.modifier c.specifier.char_noModifier]
    dsimp only
    by_cases opens : c.specifier.char = '['
    · rw [if_pos opens, set opens]
      rfl
    · rw [if_neg opens, if_pos c.specifier.char_mem_conversions, other opens]
      rfl

theorem digitChar_unknown : ∀ digit : Fin 10, Nat.digitChar digit ≠ '$' ∧
    Nat.digitChar digit ∉ ['h', 'l', 'j', 'z', 't', 'L'] ∧ Nat.digitChar digit ≠ '[' ∧
      Nat.digitChar digit ∉ conversions := by
  decide

/-- A width that is cut leaves a digit for the conversion. -/
theorem directive_cut (c : Conversion) (rest : List Char) (cut : ¬ c.width.Followed) :
    Scanned.directive (c.text ++ rest) = none := by
  obtain ⟨digit, tail, number⟩ :=
    readNumber_cut (c.modifier.text ++ (c.specifier.text ++ rest)) cut
  obtain ⟨dollar, noModifier, noSet, unknown⟩ := digitChar_unknown digit
  generalize Nat.digitChar digit = mark at *
  unfold Scanned.directive
  rw [star_text]
  dsimp only
  rw [number]
  split
  · rename_i same
    cases same
    exact absurd rfl dollar
  · rename_i same
    cases same
    have sized := size_text .none noModifier tail
    change size (mark :: tail) = (_, mark :: tail) at sized
    rw [sized]
    dsimp only
    rw [if_neg noSet, if_neg unknown]

end Conversion

/-! ## The range of one conversion -/

theorem strnlen_ge_iff {memory : Memory} {s n max : Nat} (below : n ≤ max) :
    n ≤ strnlen memory s max ↔ ∀ k < n, memory (s + k) ≠ 0 := by
  obtain ⟨before, stops⟩ := strnlen_spec memory s max
  constructor
  · intro long k less
    exact before k (Nat.lt_of_lt_of_le less long)
  · intro nonzero
    refine Nat.le_of_not_lt fun short => nonzero _ short (stops ?_)
    exact Nat.lt_of_lt_of_le short below

namespace Directive

variable {d : Directive} (memory : Memory) (target : Nat)

theorem bytes_text (text : d.conversion = 's' ∨ d.conversion = '[') (narrow : d.size ≠ 1)
    (nonnull : target ≠ 0) :
    d.bytes memory target = strnlen memory target 0xFFFFFFFFFFFFFFFF + 1 := by
  unfold bytes
  rw [if_pos text, if_pos ⟨narrow, nonnull⟩]

theorem bytes_character (character : d.conversion = 'c') (narrow : d.size ≠ 1) :
    d.bytes memory target = if 0 < d.width then d.width.toNat else 1 := by
  unfold bytes
  rw [character, if_neg (by decide), if_pos rfl, if_pos narrow]

theorem bytes_floating (floating : d.conversion ∈ ['a', 'e', 'E', 'f', 'F', 'g', 'G', 'A']) :
    d.bytes memory target = if d.size = 6 then 16 else if d.size = 1 then 8 else 4 := by
  have all : ['a', 'e', 'E', 'f', 'F', 'g', 'G', 'A'].all
      (fun c => decide (¬ (c = 's' ∨ c = '[') ∧ c ≠ 'c')) = true := by
    decide
  obtain ⟨text, character⟩ := of_decide_eq_true (List.all_eq_true.mp all d.conversion floating)
  unfold bytes
  rw [if_neg text, if_neg character, if_pos floating]

theorem bytes_pointer (pointer : d.conversion = 'p') : d.bytes memory target = 8 := by
  unfold bytes
  rw [pointer, if_neg (by decide), if_neg (by decide), if_neg (by decide), if_pos rfl]

theorem bytes_integer (integer : d.conversion ∈ ['d', 'i', 'o', 'u', 'x', 'X', 'n']) :
    d.bytes memory target = bytesOf d.size := by
  have all : ['d', 'i', 'o', 'u', 'x', 'X', 'n'].all (fun c => decide (¬ (c = 's' ∨ c = '[') ∧
      c ≠ 'c' ∧ c ∉ ['a', 'e', 'E', 'f', 'F', 'g', 'G', 'A'] ∧ c ≠ 'p')) = true := by
    decide
  obtain ⟨text, character, floating, pointer⟩ :=
    of_decide_eq_true (List.all_eq_true.mp all d.conversion integer)
  unfold bytes
  rw [if_neg text, if_neg character, if_neg floating, if_neg pointer]

end Directive

theorem integer_char_mem : ∀ which : Fin 6,
    (Letter.integer which).char ∈ ['d', 'i', 'o', 'u', 'x', 'X', 'n'] := by
  decide

theorem floating_char_mem : ∀ which : Fin 8,
    (Letter.floating which).char ∈ ['a', 'e', 'E', 'f', 'F', 'g', 'G', 'A'] := by
  decide

theorem bytesOf_sizeOf (m : Modifier) : bytesOf (sizeOf m) = m.bytes := by
  cases m <;> rfl

/-- The bytes of a field as its width is read. -/
theorem field_le_iff (width : Digits) :
    (if width.value = 0 then 1 else width.value) ≤
        (if 0 < width.read then width.read.toNat else 1) ↔ width.value ≤ 100000 := by
  unfold Digits.read
  by_cases empty : width = []
  · rw [empty]
    decide
  · rw [if_neg empty]
    by_cases small : width.value ≤ 100000
    · rw [if_pos small]
      refine iff_of_true ?_ small
      split <;> split <;> omega
    · rw [if_neg small]
      refine iff_of_false ?_ small
      rw [if_neg (by decide : ¬ (0 : Int) < -1)]
      split <;> omega

/-- What `checkScanned` checks of a conversion that it comes to holds what was
stored when its field is at most 100000 wide, and a text still stands. -/
theorem Conversion.stored_le_iff (c : Conversion) (memory : Memory) {length target : Nat}
    (narrow : ¬ c.Wide) (nonnull : target ≠ 0) (short : length < 0xFFFFFFFFFFFFFFFF) :
    c.stored length ≤ c.directive.bytes memory target ↔
      (c.specifier = .letter .character → c.width.value ≤ 100000) ∧
        (c.specifier.IsText → ∀ k < length, memory (target + k) ≠ 0) := by
  obtain ⟨suppressed, width, modifier, specifier, takes⟩ := c
  have text (conversion : Char) (isText : conversion = 's' ∨ conversion = '[')
      (notLong : sizeOf modifier ≠ 1) :
      length + 1 ≤ Directive.bytes ⟨suppressed, width.read, sizeOf modifier, conversion⟩ memory target ↔
        ∀ k < length, memory (target + k) ≠ 0 := by
    rw [Directive.bytes_text memory target isText notLong nonnull, Nat.add_le_add_iff_right,
      strnlen_ge_iff (Nat.le_of_lt short)]
  have notLong (characters : specifier.IsCharacters) (plain : modifier = .none ∨ modifier = .long) :
      sizeOf modifier ≠ 1 := by
    rcases plain with rfl | rfl
    · decide
    · exact absurd ⟨characters, rfl⟩ narrow
  cases specifier with
  | set s =>
      refine (text '[' (.inr rfl) (notLong trivial takes)).trans ?_
      exact ⟨fun stands => ⟨nofun, fun _ => stands⟩, fun both => both.2 trivial⟩
  | letter l =>
      cases l with
      | string =>
          refine (text 's' (.inl rfl) (notLong trivial takes)).trans ?_
          exact ⟨fun stands => ⟨nofun, fun _ => stands⟩, fun both => both.2 trivial⟩
      | character =>
          have bytes := Directive.bytes_character
            (d := ⟨suppressed, width.read, sizeOf modifier, 'c'⟩) memory target rfl
            (notLong trivial takes)
          change (if width.value = 0 then 1 else width.value) ≤ Directive.bytes
            ⟨suppressed, width.read, sizeOf modifier, 'c'⟩ memory target ↔ _
          rw [bytes, field_le_iff]
          exact ⟨fun small => ⟨fun _ => small, False.elim⟩, fun both => both.1 rfl⟩
      | integer which =>
          refine iff_of_true ?_ ⟨nofun, False.elim⟩
          change modifier.bytes ≤ _
          rw [Directive.bytes_integer memory target (integer_char_mem which)]
          exact Nat.le_of_eq (bytesOf_sizeOf modifier).symm
      | floating which =>
          refine iff_of_true ?_ ⟨nofun, False.elim⟩
          rw [Directive.bytes_floating memory target (floating_char_mem which)]
          rcases takes with rfl | rfl | rfl <;> exact Nat.le_refl _
      | pointer =>
          refine iff_of_true ?_ ⟨nofun, False.elim⟩
          exact Nat.le_of_eq (Directive.bytes_pointer memory target rfl).symm
      | target =>
          refine iff_of_true ?_ ⟨nofun, False.elim⟩
          change modifier.bytes ≤ _
          rw [Directive.bytes_integer memory target (List.mem_of_elem_eq_true rfl)]
          exact Nat.le_of_eq (bytesOf_sizeOf modifier).symm

theorem Conversion.stored_pos (c : Conversion) (length : Nat) : 0 < c.stored length := by
  obtain ⟨suppressed, width, modifier, specifier, takes⟩ := c
  cases specifier with
  | set s => exact Nat.succ_pos length
  | letter l =>
      cases l with
      | string => exact Nat.succ_pos length
      | integer which | target | floating which => cases modifier <;> exact Nat.succ_pos _
      | pointer => exact Nat.succ_pos _
      | character =>
          change 0 < if width.value = 0 then 1 else width.value
          split <;> omega

/-! ## The walk over the format -/

theorem argumentsOf_append (first rest : List Done) :
    argumentsOf (first ++ rest) = argumentsOf first + argumentsOf rest := by
  induction first with
  | nil => exact (Nat.zero_add _).symm
  | cons d first inductionHypothesis =>
      change d.piece.arguments + argumentsOf (first ++ rest) =
        d.piece.arguments + argumentsOf first + argumentsOf rest
      rw [inductionHypothesis, Nat.add_assoc]

theorem assignedOf_append (first rest : List Done) :
    assignedOf (first ++ rest) = assignedOf first + assignedOf rest := by
  induction first with
  | nil => exact (Nat.zero_add _).symm
  | cons d first inductionHypothesis =>
      change d.piece.counts + assignedOf (first ++ rest) =
        d.piece.counts + assignedOf first + assignedOf rest
      rw [inductionHypothesis, Nat.add_assoc]

theorem Specifier.char_eq_n (s : Specifier) : s.char = 'n' ↔ s.counts = false := by
  have letters : (∀ which : Fin 6, (Letter.integer which).char ≠ 'n') ∧
      ∀ which : Fin 8, (Letter.floating which).char ≠ 'n' := by
    decide
  cases s with
  | set s => exact iff_of_false (fun same : '[' = 'n' => absurd same (by decide)) Bool.noConfusion
  | letter l =>
      cases l with
      | integer which => exact iff_of_false (letters.1 which) Bool.noConfusion
      | floating which => exact iff_of_false (letters.2 which) Bool.noConfusion
      | target => exact iff_of_true rfl rfl
      | character | string | pointer => exact iff_of_false (by decide) (by decide)

/-- A conversion does not start as `%%` does. -/
theorem Conversion.text_percent (c : Conversion) (rest tail : List Char) :
    c.text ++ rest ≠ '%' :: tail := by
  intro same
  have starred := c.star_text rest
  rw [same] at starred
  obtain ⟨tail', spelled, -⟩ := c.specifier.text_eq rest
  have starts := starts_modifier c.modifier c.specifier tail'
  rw [spelled] at starred
  refine Scan.digits_ne_cons starts rfl (fun mem => ?_) (Prod.mk.inj starred).2.symm
  exact (scan_marks_plain '%' mem).2.2.2 rfl

section Walk

variable (memory : Memory) (assigned : Int) (index : Nat) (arguments : List Nat)

theorem ranges_literal {c : Char} (plain : c ≠ '%') (rest : List Char) :
    ranges memory assigned index arguments (c :: rest) =
      ranges memory assigned index arguments rest := by
  rw [ranges]
  · exact fun _ same _ => plain same
  · exact fun same => plain same

theorem ranges_percent (rest : List Char) :
    ranges memory assigned index arguments ('%' :: '%' :: rest) =
      ranges memory assigned index arguments rest := by
  rw [ranges]

/-- One conversion whose width is read to its end. -/
theorem ranges_conversion (c : Conversion) (rest : List Char) (followed : c.width.Followed) :
    ranges memory assigned index arguments ('%' :: (c.text ++ rest)) =
      if c.suppressed then ranges memory assigned index arguments rest
      else
        match arguments with
        | [] => []
        | target :: arguments =>
            if assigned < index + (Piece.conversion c).counts then []
            else ⟨target, c.directive.bytes memory target⟩ ::
              ranges memory assigned (index + (Piece.conversion c).counts) arguments rest := by
  rw [ranges]
  · split
    · rename_i stopped
      rw [c.directive_text rest followed] at stopped
      cases stopped
    · rename_i went
      rw [c.directive_text rest followed] at went
      cases went
      change (if c.suppressed then _ else _) = _
      by_cases suppressed : c.suppressed = true
      · rw [if_pos suppressed, if_pos suppressed]
      · rw [if_neg suppressed, if_neg suppressed]
        have counts : (Piece.conversion c).counts = if c.specifier.counts then 1 else 0 :=
          if_neg suppressed
        cases arguments with
        | nil => rfl
        | cons target arguments =>
            change (if c.specifier.char = 'n' then _ else _) = _
            by_cases reached : c.specifier.char = 'n'
            · have none := c.specifier.char_eq_n.mp reached
              rw [if_pos reached, counts, none]
              rfl
            · have one := mt c.specifier.char_eq_n.mpr reached
              rw [if_neg reached, counts, Bool.not_eq_false _ |>.mp one, if_pos rfl]
              dsimp only
              have same : assigned ≤ index ↔ assigned < index + (1 : Nat) := by omega
              by_cases stops : assigned ≤ index
              · rw [if_pos stops, if_pos (same.mp stops)]
              · rw [if_neg stops, if_neg (mt same.mpr stops)]
  · exact c.text_percent rest

theorem ranges_cut (c : Conversion) (rest : List Char) (cut : ¬ c.width.Followed) :
    ranges memory assigned index arguments ('%' :: (c.text ++ rest)) = [] := by
  rw [ranges]
  · split
    · rfl
    · rename_i went
      rw [c.directive_cut rest cut] at went
      cases went
  · exact c.text_percent rest

/-- One directive whose width is read to its end and that was assigned. -/
theorem ranges_piece (piece : Piece) (rest : List Char) (followed : piece.Followed)
    (counted : (index + piece.counts : Int) ≤ assigned)
    (enough : piece.arguments ≤ arguments.length) :
    ∃ before : List RangeCheck, before.length = piece.arguments ∧
      ranges memory assigned index arguments (piece.text ++ rest) =
        before ++ ranges memory assigned (index + piece.counts)
          (arguments.drop piece.arguments) rest := by
  cases piece with
  | literal c plain => exact ⟨[], rfl, ranges_literal memory assigned index arguments plain rest⟩
  | percent => exact ⟨[], rfl, ranges_percent memory assigned index arguments rest⟩
  | conversion c =>
      change ∃ before : List RangeCheck, _ ∧
        ranges memory assigned index arguments ('%' :: (c.text ++ rest)) = _
      rw [ranges_conversion memory assigned index arguments c rest followed]
      have takes : (Piece.conversion c).arguments = if c.suppressed then 0 else 1 := rfl
      by_cases suppressed : c.suppressed = true
      · have none : (Piece.conversion c).counts = 0 := if_pos suppressed
        rw [if_pos suppressed] at takes
        rw [takes, none, if_pos suppressed]
        exact ⟨[], rfl, rfl⟩
      · rw [if_neg suppressed] at takes
        rw [takes] at enough ⊢
        rw [if_neg suppressed]
        cases arguments with
        | nil => exact absurd enough (Nat.not_succ_le_zero 0)
        | cons target arguments =>
            dsimp only
            rw [if_neg (Int.not_lt.mpr counted)]
            exact ⟨[_], rfl, rfl⟩

theorem text_cons (d : Done) (first : List Done) (rest : List Char) :
    text ((d :: first).map Done.piece) ++ rest =
      d.piece.text ++ (text (first.map Done.piece) ++ rest) :=
  List.append_assoc ..

/-- The walk over directives that are followed and were assigned. -/
theorem ranges_done (first : List Done) (rest : List Char)
    (followed : ∀ d ∈ first, d.piece.Followed) (counted : (index + assignedOf first : Int) ≤ assigned)
    (enough : argumentsOf first ≤ arguments.length) :
    ∃ before : List RangeCheck, before.length = argumentsOf first ∧
      ranges memory assigned index arguments (text (first.map Done.piece) ++ rest) =
        before ++ ranges memory assigned (index + assignedOf first)
          (arguments.drop (argumentsOf first)) rest := by
  induction first generalizing index arguments with
  | nil => exact ⟨[], rfl, rfl⟩
  | cons d first inductionHypothesis =>
      change (index + (d.piece.counts + assignedOf first : Nat) : Int) ≤ assigned at counted
      change d.piece.arguments + argumentsOf first ≤ arguments.length at enough
      obtain ⟨own, count, walked⟩ := ranges_piece memory assigned index arguments d.piece
        (text (first.map Done.piece) ++ rest) (followed d List.mem_cons_self) (by omega) (by omega)
      obtain ⟨later, count', walked'⟩ := inductionHypothesis (index + d.piece.counts)
        (arguments.drop d.piece.arguments) (fun d mem => followed d (List.mem_cons_of_mem _ mem))
        (by omega) (by rw [List.length_drop]; omega)
      refine ⟨own ++ later, by rw [List.length_append, count, count']; rfl, ?_⟩
      rw [text_cons, walked, walked', List.drop_drop, List.append_assoc, Nat.add_assoc]
      rfl

/-- A directive adds the range of at most the argument it takes. -/
theorem ranges_length_piece (piece : Piece) (rest : List Char) :
    ∃ index' arguments', (ranges memory assigned index arguments (piece.text ++ rest)).length ≤
      piece.arguments + (ranges memory assigned index' arguments' rest).length := by
  cases piece with
  | literal c plain =>
      refine ⟨index, arguments, Nat.le_of_eq ?_⟩
      change (ranges memory assigned index arguments (c :: rest)).length = 0 + _
      rw [ranges_literal memory assigned index arguments plain, Nat.zero_add]
  | percent =>
      refine ⟨index, arguments, Nat.le_of_eq ?_⟩
      change (ranges memory assigned index arguments ('%' :: '%' :: rest)).length = 0 + _
      rw [ranges_percent, Nat.zero_add]
  | conversion c =>
      change ∃ index' arguments',
        (ranges memory assigned index arguments ('%' :: (c.text ++ rest))).length ≤
          (if c.suppressed then 0 else 1) + _
      by_cases followed : c.width.Followed
      · rw [ranges_conversion memory assigned index arguments c rest followed]
        by_cases suppressed : c.suppressed = true
        · rw [if_pos suppressed, if_pos suppressed]
          exact ⟨index, arguments, Nat.le_of_eq (Nat.zero_add _).symm⟩
        · rw [if_neg suppressed, if_neg suppressed]
          cases arguments with
          | nil => exact ⟨0, [], Nat.zero_le _⟩
          | cons target arguments =>
              dsimp only
              split
              · exact ⟨0, [], Nat.zero_le _⟩
              · exact ⟨_, arguments, Nat.le_of_eq (Nat.add_comm ..)⟩
      · rw [ranges_cut memory assigned index arguments c rest followed]
        exact ⟨0, [], Nat.zero_le _⟩

/-- The walk ends at a width that is cut. -/
theorem ranges_length (first : List Done) {piece : Piece} (rest : List Char)
    (cut : ¬ piece.Followed) :
    (ranges memory assigned index arguments
      (text (first.map Done.piece) ++ (piece.text ++ rest))).length ≤ argumentsOf first := by
  induction first generalizing index arguments with
  | nil =>
      cases piece with
      | literal | percent => exact absurd trivial cut
      | conversion c =>
          change (ranges memory assigned index arguments ('%' :: (c.text ++ rest))).length ≤ 0
          rw [ranges_cut memory assigned index arguments c rest cut]
          exact Nat.le_refl 0
  | cons e first inductionHypothesis =>
      obtain ⟨index', arguments', own⟩ := ranges_length_piece memory assigned index arguments
        e.piece (text (first.map Done.piece) ++ (piece.text ++ rest))
      have later := inductionHypothesis index' arguments'
      rw [text_cons]
      change _ ≤ e.piece.arguments + argumentsOf first
      omega

/-- The range of a conversion that the walk comes to. -/
theorem ranges_at {first : List Done} {c : Conversion} {target : Nat} (rest : List Char)
    (followed : ∀ d ∈ first, d.piece.Followed) (own : c.width.Followed)
    (counted : (assignedOf first + (Piece.conversion c).counts : Int) ≤ assigned)
    (unsuppressed : c.suppressed = false) (argument : arguments[argumentsOf first]? = some target) :
    (ranges memory assigned 0 arguments
        (text (first.map Done.piece) ++ ('%' :: (c.text ++ rest))))[argumentsOf first]? =
      some ⟨target, c.directive.bytes memory target⟩ := by
  obtain ⟨below, same⟩ := List.getElem?_eq_some_iff.mp argument
  obtain ⟨before, count, walked⟩ := ranges_done memory assigned 0 arguments first
    ('%' :: (c.text ++ rest)) followed (by omega) (Nat.le_of_lt below)
  have taken : arguments.drop (argumentsOf first) =
      target :: arguments.drop (argumentsOf first + 1) := by
    rw [List.drop_eq_getElem_cons below, same]
  rw [walked, List.getElem?_append_right (Nat.le_of_eq count), count, Nat.sub_self,
    ranges_conversion memory assigned _ _ c rest own, taken,
    if_neg (Bool.eq_false_iff.mp unsuppressed)]
  dsimp only
  rw [if_neg (by omega)]
  rfl

/-- After the end of the input nothing is checked. -/
theorem ranges_eof (pieces : List Piece) (eof : assigned < 0) :
    ranges memory assigned index arguments (text pieces) = [] := by
  induction pieces generalizing index arguments with
  | nil =>
      change ranges memory assigned index arguments [] = []
      rw [ranges]
  | cons piece pieces inductionHypothesis =>
      cases piece with
      | literal c plain =>
          change ranges memory assigned index arguments (c :: text pieces) = []
          rw [ranges_literal memory assigned index arguments plain]
          exact inductionHypothesis index arguments
      | percent =>
          change ranges memory assigned index arguments ('%' :: '%' :: text pieces) = []
          rw [ranges_percent]
          exact inductionHypothesis index arguments
      | conversion c =>
          change ranges memory assigned index arguments ('%' :: (c.text ++ text pieces)) = []
          by_cases followed : c.width.Followed
          · rw [ranges_conversion memory assigned index arguments c _ followed]
            split
            · exact inductionHypothesis index arguments
            · split
              · rfl
              · rw [if_pos (by omega)]
          · exact ranges_cut memory assigned index arguments c _ followed

end Walk

/-! ## What is checked of what is stored -/

/-- What has to hold for the bytes a conversion stored to be checked: the scan
did not return `EOF`, no width up to it is cut, a field is at most 100000 wide,
and a text still stands, without a zero byte of its own. -/
structure Measured (memory : Memory) (assigned : Int) (first : List Done) (c : Conversion)
    (length target : Nat) : Prop where
  counted : 0 ≤ assigned
  followed : ∀ d ∈ first, d.piece.Followed
  own : c.width.Followed
  field : c.specifier = .letter .character → c.width.value ≤ 100000
  text : c.specifier.IsText → ∀ k < length, memory (target + k) ≠ 0

section Stores

variable {memory : Memory} {done first : List Done} {arguments : List Nat} {assigned : Int}
  {c : Conversion} {length target : Nat}

theorem Stores.spelled (stores : Stores done arguments first c length target) (rest : List Piece) :
    ∃ tail, text (done.map Done.piece ++ rest) =
      text (first.map Done.piece) ++ ('%' :: (c.text ++ tail)) := by
  obtain ⟨short, later, split⟩ := stores.split
  refine ⟨text (later.map Done.piece ++ rest), ?_⟩
  rw [split]
  simp only [text, List.map_append, List.map_cons, List.flatMap_append, List.flatMap_cons,
    List.append_assoc, Piece.text, List.cons_append]

theorem Stores.counted (stores : Stores done arguments first c length target)
    (returns : Returns done assigned) (notEof : 0 ≤ assigned) :
    (assignedOf first + (Piece.conversion c).counts : Int) ≤ assigned := by
  obtain ⟨short, later, split⟩ := stores.split
  have total : assignedOf done =
      assignedOf first + ((Piece.conversion c).counts + assignedOf later) := by
    rw [split, assignedOf_append]
    rfl
  rcases returns with same | ⟨-, eof⟩ <;> omega

theorem Stores.short (stores : Stores done arguments first c length target) :
    length < 0xFFFFFFFFFFFFFFFF := by
  obtain ⟨short, -⟩ := stores.split
  exact short

/-- The bytes of one conversion are in the range of its argument when it is measured. -/
theorem Stores.covered_iff (stores : Stores done arguments first c length target)
    (returns : Returns done assigned) (rest : List Piece) :
    (∀ k < c.stored length, ∃ range : RangeCheck,
        (ranges memory assigned 0 arguments
          (text (done.map Done.piece ++ rest)))[argumentsOf first]? = some range ∧
            range.address ≤ target + k ∧ target + k < range.address + range.bytes) ↔
      Measured memory assigned first c length target := by
  obtain ⟨tail, spelled⟩ := stores.spelled rest
  have fits := c.stored_le_iff memory stores.narrow stores.nonnull stores.short
  rw [spelled]
  constructor
  · intro covered
    have pos := c.stored_pos length
    have counted : 0 ≤ assigned := by
      refine Int.not_lt.mp fun eof => ?_
      obtain ⟨range, found, -⟩ := covered 0 pos
      rw [← spelled, ranges_eof memory assigned 0 arguments _ eof] at found
      cases found
    have followed : ∀ d ∈ first, d.piece.Followed := by
      intro d mem
      refine Classical.byContradiction fun cut => ?_
      obtain ⟨before, after, rfl⟩ := List.append_of_mem mem
      have few := ranges_length memory assigned 0 arguments before
        (text (after.map Done.piece) ++ ('%' :: (c.text ++ tail))) cut
      obtain ⟨range, found, -⟩ := covered 0 pos
      have below := (List.getElem?_eq_some_iff.mp found).1
      rw [List.map_append, text, List.flatMap_append, List.append_assoc] at below
      change _ < (ranges memory assigned 0 arguments (text (before.map Done.piece) ++
        (text ((d :: after).map Done.piece) ++ _))).length at below
      rw [text_cons, argumentsOf_append] at below
      omega
    have own : c.width.Followed := by
      refine Classical.byContradiction fun cut => ?_
      have few := ranges_length memory assigned 0 arguments first tail
        (show ¬ (Piece.conversion c).Followed from cut)
      obtain ⟨range, found, -⟩ := covered 0 pos
      have below := (List.getElem?_eq_some_iff.mp found).1
      change _ < (ranges memory assigned 0 arguments (text (first.map Done.piece) ++
        ((Piece.conversion c).text ++ tail))).length at below
      omega
    have at' := ranges_at memory assigned arguments tail followed own
      (stores.counted returns counted) stores.unsuppressed stores.argument
    have long : c.stored length ≤ c.directive.bytes memory target := by
      obtain ⟨range, found, -, below⟩ := covered (c.stored length - 1) (by omega)
      rw [at'] at found
      cases found
      dsimp only at below
      omega
    obtain ⟨field, text⟩ := fits.mp long
    exact ⟨counted, followed, own, field, text⟩
  · rintro ⟨counted, followed, own, field, text⟩ k less
    have long := fits.mpr ⟨field, text⟩
    refine ⟨_, ranges_at memory assigned arguments tail followed own
      (stores.counted returns counted) stores.unsuppressed stores.argument, ?_⟩
    dsimp only
    omega

/-- After a check that passes, what a measured conversion stored is addressable. -/
theorem Stores.addressable (stores : Stores done arguments first c length target)
    (returns : Returns done assigned) (rest : List Piece)
    (measured : Measured memory assigned first c length target) {ctx : Context}
    {shadow shadow' : Shadow}
    (passed : checkScanned ctx shadow memory (some (text (done.map Done.piece ++ rest))) arguments
      assigned = .ok shadow') : ¬ SomeBad ctx shadow target (c.stored length) := by
  have checks := Checks.foldlM (fun shadow (range : RangeCheck) =>
      SomeBad ctx shadow range.address range.bytes) (Settles ctx) (.refl ctx) (fun _ _ _ => .trans)
    (fun _ _ range same => Settles.someBad same range.address range.bytes)
    (fun shadow range => checkRange_checks ctx shadow range.address range.bytes)
    (ranges memory assigned 0 arguments (text (done.map Done.piece ++ rest))) shadow
  have none := checks.returns_iff.mp ⟨shadow', passed⟩
  obtain ⟨tail, spelled⟩ := stores.spelled rest
  have found := ranges_at memory assigned arguments tail measured.followed measured.own
    (stores.counted returns measured.counted) stores.unsuppressed stores.argument
  have long := (c.stored_le_iff memory stores.narrow stores.nonnull stores.short).mpr
    ⟨measured.field, measured.text⟩
  rintro ⟨k, less, bad⟩
  rw [spelled] at none
  exact none ⟨_, List.mem_of_getElem? found, k, Nat.lt_of_lt_of_le less long, bad⟩

end Stores

/-- Every byte the conversions of a scan stored is in the range that is checked
of the argument, exactly when each of them is measured. -/
theorem scanned_checked_iff (memory : Memory) (done : List Done) (rest : List Piece)
    (arguments : List Nat) (assigned : Int) (returns : Returns done assigned) :
    (∀ first c length target, Stores done arguments first c length target →
      ∀ k < c.stored length, ∃ range : RangeCheck,
        (ranges memory assigned 0 arguments
          (text (done.map Done.piece ++ rest)))[argumentsOf first]? = some range ∧
            range.address ≤ target + k ∧ target + k < range.address + range.bytes) ↔
      ∀ first c length target, Stores done arguments first c length target →
        Measured memory assigned first c length target := by
  constructor
  · intro covered first c length target stores
    exact (stores.covered_iff returns rest).mp (covered first c length target stores)
  · intro measured first c length target stores
    exact (stores.covered_iff returns rest).mpr (measured first c length target stores)

theorem string_takes : (Specifier.letter .string).Takes .none := .inl rfl

theorem character_takes : (Specifier.letter .character).Takes .none := .inl rfl

theorem pointer_takes : (Specifier.letter .pointer).Takes .none := rfl

theorem three_short : 3 < 0xFFFFFFFFFFFFFFFF := by decide

/-- `%9s`. -/
def nameField : Conversion := ⟨false, [Fin.last 9], .none, .letter .string, string_takes⟩

/-- `%p`. -/
def addressField : Conversion := ⟨false, [], .none, .letter .pointer, pointer_takes⟩

/-- `%9s%p` where both were assigned, the first with a text of three bytes. -/
def nameAndAddress : List Done :=
  [⟨.conversion nameField, 3, three_short⟩, ⟨.conversion addressField, 3, three_short⟩]

/-- Both of its conversions are measured. -/
theorem nameAndAddress_measured {first : List Done} {c : Conversion} {length target : Nat}
    (stores : Stores nameAndAddress [0x1000, 0x2000] first c length target) :
    Measured abc 2 first c length target := by
  obtain ⟨short, rest, split⟩ := stores.split
  have argument := stores.argument
  cases first with
  | nil =>
      cases split
      obtain rfl : 0x1000 = target := Option.some.inj argument
      exact ⟨by decide, nofun, by decide, nofun, fun _ => by decide⟩
  | cons d first =>
      cases first with
      | nil =>
          cases split
          refine ⟨by decide, ?_, by decide, nofun, fun text => nomatch text⟩
          intro d mem
          cases List.mem_singleton.mp mem
          change nameField.width.Followed
          decide
      | cons d' first =>
          have count := congrArg List.length split
          simp [nameAndAddress] at count

theorem scanned_checked_name :
    Stores nameAndAddress [0x1000, 0x2000] [] nameField 3 0x1000 ∧
      ∀ first c length target, Stores nameAndAddress [0x1000, 0x2000] first c length target →
        ∀ k < c.stored length, ∃ range : RangeCheck,
          (ranges abc 2 0 [0x1000, 0x2000]
            (text (nameAndAddress.map Done.piece ++ [])))[argumentsOf first]? = some range ∧
              range.address ≤ target + k ∧ target + k < range.address + range.bytes :=
  ⟨⟨⟨three_short, _, rfl⟩, rfl, fun wide => Modifier.noConfusion wide.2, rfl, by decide⟩,
    (scanned_checked_iff abc nameAndAddress [] [0x1000, 0x2000] 2 (.inl rfl)).mpr
      fun _ _ _ _ => nameAndAddress_measured⟩

/-- `%999999c`. -/
def wideField : Conversion :=
  ⟨false, List.replicate 6 (Fin.last 9), .none, .letter .character, character_takes⟩

theorem ranges_wideField : ranges abc 1 0 [0x1000] (text [.conversion wideField]) = [⟨0x1000, 1⟩] := by
  change ranges abc 1 0 [0x1000] ('%' :: (wideField.text ++ [])) = _
  rw [ranges_conversion _ _ _ _ wideField [] (by decide)]
  change ⟨0x1000, wideField.directive.bytes abc 0x1000⟩ :: ranges abc 1 1 [] [] = _
  rw [ranges, Directive.bytes_character _ _ rfl (by decide)]
  rfl

/-- The limit of the number reader leaves one byte of the field. -/
theorem scanned_field_unchecked : ¬ ∀ (memory : Memory) (done : List Done) (rest : List Piece)
    (arguments : List Nat) (assigned : Int), Returns done assigned →
      ∀ first c length target, Stores done arguments first c length target →
        ∀ k < c.stored length, ∃ range ∈ ranges memory assigned 0 arguments
          (text (done.map Done.piece ++ rest)),
            range.address ≤ target + k ∧ target + k < range.address + range.bytes := by
  intro claim
  have stores : Stores [⟨.conversion wideField, 3, three_short⟩] [0x1000] [] wideField 3 0x1000 :=
    ⟨⟨three_short, [], rfl⟩, rfl, fun wide => Modifier.noConfusion wide.2, rfl, by decide⟩
  obtain ⟨range, mem, -, below⟩ :=
    claim abc _ [] [0x1000] 1 (.inl rfl) [] wideField 3 0x1000 stores 1 (by decide)
  change range ∈ ranges abc 1 0 [0x1000] (text [.conversion wideField]) at mem
  rw [ranges_wideField] at mem
  obtain rfl := List.mem_singleton.mp mem
  exact absurd below (by decide)

end WeaveC.Calls.Scanned
