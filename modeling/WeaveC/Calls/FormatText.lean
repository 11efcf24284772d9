import WeaveC.Calls.Format

/-!
# Formats and what they read

The conversions of a format, the text that spells them, and the arguments a
conforming function reads for them, in order.  The scan of a format whose
conversions it follows records those readings.
-/

namespace WeaveC.Calls.Format

/-! ## Numbers -/

abbrev Digits := List (Fin 10)

namespace Digits

def text (digits : Digits) : List Char := digits.map fun digit : Fin 10 => Nat.digitChar digit

def valueFrom (value : Nat) (digits : Digits) : Nat :=
  digits.foldl (fun value (digit : Fin 10) => value * 10 + digit) value

def value (digits : Digits) : Nat := valueFrom 0 digits

/-- All the digits are read: no digit follows the one that takes the number
past 100000. -/
def Followed (digits : Digits) : Prop := value digits.dropLast ≤ 100000

instance (digits : Digits) : Decidable (Followed digits) := inferInstanceAs (Decidable (_ ≤ _))

theorem le_valueFrom (value : Nat) (digits : Digits) : value ≤ valueFrom value digits := by
  induction digits generalizing value with
  | nil => exact Nat.le_refl _
  | cons digit digits inductionHypothesis =>
      have step := inductionHypothesis (value * 10 + digit)
      change value ≤ valueFrom (value * 10 + digit) digits
      omega

theorem digitChar_isDigit (digit : Fin 10) : (Nat.digitChar digit).isDigit = true := by
  revert digit
  decide

theorem digitChar_notFlag : ∀ digit : Fin 10, digit ≠ 0 → isFlag (Nat.digitChar digit) = false := by
  decide

theorem digitOf_digitChar (digit : Fin 10) : digitOf (Nat.digitChar digit) = (digit : Nat) := by
  revert digit
  decide

end Digits

/-- What follows a number does not go on with a digit. -/
def NoDigit (rest : List Char) : Prop := ∀ c tail, rest = c :: tail → c.isDigit = false

theorem readDigits_noDigit {value : Int} {rest : List Char} (ends : NoDigit rest) :
    readDigits value rest = (value, rest) := by
  cases rest with
  | nil => rfl
  | cons c tail =>
      rw [readDigits, if_neg]
      rw [ends c tail rfl]
      exact Bool.false_ne_true

theorem readDigits_digit (value : Int) (digit : Fin 10) (rest : List Char) :
    readDigits value (Nat.digitChar digit :: rest) =
      let next := (if value < 0 then 0 else value * 10) + (digit : Nat)
      if 100000 < next then (-1, rest) else readDigits next rest := by
  rw [readDigits, if_pos (Digits.digitChar_isDigit digit), Digits.digitOf_digitChar]

theorem readDigits_text {value : Nat} {digits : Digits} {rest : List Char} (ends : NoDigit rest)
    (small : value ≤ 100000) (followed : Digits.valueFrom value digits.dropLast ≤ 100000) :
    readDigits value (digits.text ++ rest) =
      (if Digits.valueFrom value digits ≤ 100000 then (Digits.valueFrom value digits : Int) else -1,
        rest) := by
  induction digits generalizing value with
  | nil =>
      change readDigits value rest = (if value ≤ 100000 then (value : Int) else -1, rest)
      rw [readDigits_noDigit ends, if_pos small]
  | cons digit digits inductionHypothesis =>
      change readDigits value (Nat.digitChar digit :: (Digits.text digits ++ rest)) = _
      have notNegative : ¬ (value : Int) < 0 := by omega
      rw [readDigits_digit, if_neg notNegative]
      change (if 100000 < (value * 10 + (digit : Nat) : Int) then (-1, _) else readDigits _ _) =
        (if Digits.valueFrom (value * 10 + digit) digits ≤ 100000 then
          (Digits.valueFrom (value * 10 + digit) digits : Int) else -1, rest)
      have more := Digits.le_valueFrom (value * 10 + digit) digits
      by_cases over' : 100000 < value * 10 + digit.val
      · -- the number is cut here, so this is its last digit
        have last : digits = [] := by
          cases digits with
          | nil => rfl
          | cons next digits =>
              have before := Digits.le_valueFrom (value * 10 + digit) (next :: digits).dropLast
              change Digits.valueFrom (value * 10 + digit) (next :: digits).dropLast ≤ 100000
                at followed
              omega
        rw [if_pos (by omega), if_neg (by omega), last]
        rfl
      · rw [if_neg (by omega)]
        have before : Digits.valueFrom (value * 10 + digit) digits.dropLast ≤ 100000 := by
          cases digits with
          | nil =>
              change value * 10 + digit.val ≤ 100000
              omega
          | cons next digits => exact followed
        have step := inductionHypothesis (Nat.le_of_not_lt over') before
        push_cast at step
        exact step

/-- What the scan makes of a number: -1 when there is none or it is cut. -/
def Digits.read (digits : Digits) : Int :=
  if digits = [] then -1 else if digits.value ≤ 100000 then digits.value else -1

theorem readNumber_text {digits : Digits} {rest : List Char} (ends : NoDigit rest)
    (followed : digits.Followed) : readNumber (digits.text ++ rest) = (digits.read, rest) := by
  cases digits with
  | nil => exact readDigits_noDigit ends
  | cons digit digits =>
      -- the first digit starts from no number, which is as from 0
      have same : readNumber (Digits.text (digit :: digits) ++ rest) =
          readDigits ((0 : Nat) : Int) (Digits.text (digit :: digits) ++ rest) := by
        change readDigits (-1) (Nat.digitChar digit :: (Digits.text digits ++ rest)) =
          readDigits 0 (Nat.digitChar digit :: (Digits.text digits ++ rest))
        rw [readDigits_digit, readDigits_digit]
        rfl
      rw [same, readDigits_text ends (Nat.zero_le _) followed]
      rfl

theorem readDigits_cut {value : Nat} {digits : Digits} (rest : List Char) (small : value ≤ 100000)
    (cut : 100000 < Digits.valueFrom value digits.dropLast) :
    ∃ (digit : Fin 10) (tail : List Char),
      readDigits value (digits.text ++ rest) = (-1, Nat.digitChar digit :: tail) := by
  induction digits generalizing value with
  | nil => exact absurd cut (Nat.not_lt_of_le small)
  | cons digit digits inductionHypothesis =>
      cases digits with
      | nil => exact absurd cut (Nat.not_lt_of_le small)
      | cons next digits =>
          have notNegative : ¬ (value : Int) < 0 := by omega
          change ∃ (d : Fin 10) (tail : List Char),
            readDigits value (Nat.digitChar digit :: (Digits.text (next :: digits) ++ rest)) =
              (-1, Nat.digitChar d :: tail)
          rw [readDigits_digit, if_neg notNegative]
          change ∃ (d : Fin 10) (tail : List Char),
            (if 100000 < (value * 10 + (digit : Nat) : Int) then
              (-1, Nat.digitChar next :: (Digits.text digits ++ rest))
            else readDigits _ _) = (-1, Nat.digitChar d :: tail)
          by_cases here : 100000 < value * 10 + digit.val
          · rw [if_pos (by omega)]
            exact ⟨next, _, rfl⟩
          · rw [if_neg (by omega)]
            have later := inductionHypothesis (Nat.le_of_not_lt here) cut
            push_cast at later
            exact later

/-- A number that goes on past the one that is too large is cut before a digit. -/
theorem readNumber_cut {digits : Digits} (rest : List Char) (cut : ¬ digits.Followed) :
    ∃ (digit : Fin 10) (tail : List Char),
      readNumber (digits.text ++ rest) = (-1, Nat.digitChar digit :: tail) := by
  cases digits with
  | nil => exact absurd (by decide) cut
  | cons digit digits =>
      have same : readNumber (Digits.text (digit :: digits) ++ rest) =
          readDigits ((0 : Nat) : Int) (Digits.text (digit :: digits) ++ rest) := by
        change readDigits (-1) (Nat.digitChar digit :: (Digits.text digits ++ rest)) =
          readDigits 0 (Nat.digitChar digit :: (Digits.text digits ++ rest))
        rw [readDigits_digit, readDigits_digit]
        rfl
      rw [same]
      exact readDigits_cut rest (Nat.zero_le _) (Nat.lt_of_not_le cut)

theorem Digits.valueFrom_append (value : Nat) (digits : Digits) (digit : Fin 10) :
    valueFrom value (digits ++ [digit]) = valueFrom value digits * 10 + digit := by
  unfold valueFrom
  rw [List.foldl_append]
  rfl

/-- A number that is small as a whole is read as it is. -/
theorem Digits.read_of_small {digits : Digits} (some : 1 ≤ digits.value) (small : digits.value ≤ 64) :
    digits.Followed ∧ digits.read = digits.value := by
  have nonempty : digits ≠ [] := by
    rintro rfl
    exact absurd some (by decide)
  have fewer : value digits.dropLast ≤ digits.value := by
    obtain ⟨first, last, rfl⟩ := List.eq_nil_or_concat digits |>.resolve_left nonempty
    rw [List.concat_eq_append, List.dropLast_concat, value, value, valueFrom_append]
    omega
  refine ⟨?_, ?_⟩
  · unfold Followed
    omega
  · rw [read, if_neg nonempty, if_pos (by omega)]

/-! ## Conversions -/

/-- A width, or what follows the dot of a precision: digits, `*` or `*m$`. -/
inductive Amount where
  | absent
  | number (digits : Digits)
  | next
  | argument (digits : Digits)
  deriving DecidableEq

namespace Amount

def text : Amount → List Char
  | absent => []
  | number digits => digits.text
  | next => ['*']
  | argument digits => '*' :: (digits.text ++ ['$'])

/-- A precision, with its dot. -/
def dotted : Amount → List Char
  | absent => []
  | amount => '.' :: amount.text

/-- The argument an amount is held by, and the next one in sequence after it. -/
def index (next : Nat) : Amount → Option Nat × Nat
  | .next => (some next, next + 1)
  | argument digits => (some digits.value, next)
  | _ => (none, next)

/-- The digits of a numeric amount are all read. -/
def Followed : Amount → Prop
  | number digits => digits.Followed
  | _ => True

instance : (a : Amount) → Decidable a.Followed
  | number digits => inferInstanceAs (Decidable digits.Followed)
  | absent | .next | argument _ => .isTrue trivial

end Amount

namespace Modifier

def text : Modifier → List Char
  | none => []
  | char => ['h', 'h']
  | short => ['h']
  | long => ['l']
  | longLong => ['l', 'l']
  | intmax => ['j']
  | size => ['z']
  | ptrdiff => ['t']
  | longDouble => ['L']

/-- How the scan numbers it. -/
def code : Modifier → Int
  | none => 0
  | char => -1
  | short => -2
  | long => 1
  | longLong => 2
  | intmax => 3
  | size => 4
  | ptrdiff => 5
  | longDouble => 6

/-- The bytes of the integer type it names. -/
def bytes : Modifier → Nat
  | none => 4
  | char => 1
  | short => 2
  | _ => 8

end Modifier

/-- The conversions: of integers (`d i o u x X`), of floating numbers
(`e E f F g G a A`), and the others. -/
inductive Letter where
  | integer (which : Fin 6)
  | character
  | floating (which : Fin 8)
  | pointer
  | string
  | target
  deriving DecidableEq

namespace Letter

def char : Letter → Char
  | integer which => ['d', 'i', 'o', 'u', 'x', 'X'].get which
  | character => 'c'
  | floating which => ['e', 'E', 'f', 'F', 'g', 'G', 'a', 'A'].get which
  | pointer => 'p'
  | string => 's'
  | target => 'n'

/-- The modifiers a conversion has a meaning with. -/
def Takes : Letter → Modifier → Prop
  | integer _, modifier | target, modifier => modifier ≠ .longDouble
  | floating _, modifier => modifier = .none ∨ modifier = .long ∨ modifier = .longDouble
  | character, modifier | string, modifier => modifier = .none ∨ modifier = .long
  | pointer, modifier => modifier = .none

/-- The type of the argument it reads. -/
def type : Letter → Modifier → ArgumentType
  | integer _, modifier =>
      if modifier = .none ∨ modifier = .char ∨ modifier = .short then .int else .long
  | character, _ => .int
  | floating _, modifier => if modifier = .longDouble then .longDouble else .double
  | pointer, _ => .pointer .byte
  | string, modifier => .pointer (if modifier = .long then .wide else .byte)
  | target, modifier => .pointer (.number modifier)

end Letter

structure Conversion where
  position : Option Digits
  flags : List Char
  width : Amount
  precision : Amount
  modifier : Modifier
  letter : Letter
  flags_ok : ∀ c ∈ flags, isFlag c = true
  /-- A width has digits, and the first is no flag. -/
  width_ok : ∀ digits, width = .number digits → ∃ first rest, digits = first :: rest ∧ first ≠ 0
  takes : letter.Takes modifier

namespace Conversion

def positionText (c : Conversion) : List Char :=
  match c.position with
  | none => []
  | some digits => digits.text ++ ['$']

/-- A conversion as it is spelled after its `%`. -/
def text (c : Conversion) : List Char :=
  c.positionText ++ (c.flags ++ (c.width.text ++ (c.precision.dotted ++
    (c.modifier.text ++ [c.letter.char]))))

def Followed (c : Conversion) : Prop := c.width.Followed ∧ c.precision.Followed

instance (c : Conversion) : Decidable c.Followed := inferInstanceAs (Decidable (_ ∧ _))

end Conversion

inductive Piece where
  | literal (c : Char) (plain : c ≠ '%')
  | percent
  | conversion (c : Conversion)

def Piece.text : Piece → List Char
  | literal c _ => [c]
  | percent => ['%', '%']
  | conversion c => '%' :: c.text

def text (pieces : List Piece) : List Char := pieces.flatMap Piece.text

/-! ## Readings -/

/-- A precision with its number known, or the argument that holds it. -/
inductive Precision where
  | absent
  | number (value : Nat)
  | argument (index : Nat)
  deriving DecidableEq

/-- How the scan keeps a precision: a number it cut is 0. -/
def Precision.kept : Precision → Int × Nat
  | absent => (-1, 0)
  | number value => (if value ≤ 100000 then value else 0, 0)
  | argument index => (-1, index)

inductive Role where
  /-- The number of a star. -/
  | amount
  | convert (letter : Letter) (modifier : Modifier) (precision : Precision)
  deriving DecidableEq

/-- One argument as one place of the format reads it; the index counts from 1. -/
structure Reading where
  index : Nat
  role : Role
  deriving DecidableEq

def Reading.type (r : Reading) : ArgumentType :=
  match r.role with
  | .amount => .int
  | .convert letter modifier _ => letter.type modifier

def Amount.precision (next : Nat) : Amount → Precision
  | absent => .absent
  | number digits => .number digits.value
  | .next => .argument next
  | argument digits => .argument digits.value

namespace Conversion

/-- The argument of the conversion itself, and the next one in sequence. -/
def index (c : Conversion) (next : Nat) : Nat × Nat :=
  match c.position with
  | some digits => (digits.value, next)
  | none => (next, next + 1)

/-- What a conversion reads: the arguments of its stars, then its own. -/
def readings (c : Conversion) (next : Nat) : List Reading × Nat :=
  let width := c.width.index next
  let precision := c.precision.index width.2
  let own := c.index precision.2
  (width.1.toList.map (fun index => ⟨index, .amount⟩) ++
    (precision.1.toList.map (fun index => ⟨index, .amount⟩) ++
      [⟨own.1, .convert c.letter c.modifier (c.precision.precision width.2)⟩]), own.2)

end Conversion

def readingsFrom (next : Nat) : List Piece → List Reading
  | [] => []
  | .conversion c :: pieces =>
      (c.readings next).1 ++ readingsFrom (c.readings next).2 pieces
  | _ :: pieces => readingsFrom next pieces

/-- What a format reads. -/
def readings (pieces : List Piece) : List Reading := readingsFrom 1 pieces

/-- A format of at most 64 arguments. -/
def Known (pieces : List Piece) : Prop :=
  ∀ r ∈ readings pieces, 1 ≤ r.index ∧ r.index ≤ formatArguments

/-- The readings that the scan notes: it stops at a number it cuts, with what
comes before it. -/
def followedFrom (next : Nat) : List Piece → List Reading
  | [] => []
  | .conversion c :: pieces =>
      if c.Followed then (c.readings next).1 ++ followedFrom (c.readings next).2 pieces
      else (c.width.index next).1.toList.map fun index => ⟨index, .amount⟩
  | _ :: pieces => followedFrom next pieces

def followed (pieces : List Piece) : List Reading := followedFrom 1 pieces

theorem followedFrom_subset {pieces : List Piece} {next : Nat} :
    ∀ r ∈ followedFrom next pieces, r ∈ readingsFrom next pieces := by
  induction pieces generalizing next with
  | nil => exact nofun
  | cons piece pieces inductionHypothesis =>
      intro r mem
      cases piece with
      | literal c plain => exact inductionHypothesis r mem
      | percent => exact inductionHypothesis r mem
      | conversion c =>
          unfold followedFrom at mem
          split at mem
          · rcases List.mem_append.mp mem with own | later
            · exact List.mem_append_left _ own
            · exact List.mem_append_right _ (inductionHypothesis r later)
          · exact List.mem_append_left _ (List.mem_append_left _ mem)

/-! ## The scan of a conversion -/

/-- What may follow a width, and what may follow a precision. -/
def marks : List Char :=
  ['h', 'l', 'j', 'z', 't', 'L', 'd', 'i', 'o', 'u', 'x', 'X', 'c', 'e', 'E', 'f', 'F', 'g', 'G',
    'a', 'A', 'p', 's', 'n']

def Starts (cs : List Char) (format : List Char) : Prop := ∃ c tail, format = c :: tail ∧ c ∈ cs

theorem marks_plain : ∀ c ∈ '.' :: marks,
    c.isDigit = false ∧ c ≠ '$' ∧ c ≠ '*' ∧ isFlag c = false ∧ c ≠ '%' := by
  have all : ('.' :: marks).all (fun c => decide (c.isDigit = false ∧ c ≠ '$' ∧ c ≠ '*' ∧
      isFlag c = false ∧ c ≠ '%')) = true := by decide
  exact fun c mem => of_decide_eq_true (List.all_eq_true.mp all c mem)

theorem Starts.noDigit {format : List Char} (starts : Starts ('.' :: marks) format) :
    NoDigit format := by
  obtain ⟨c, tail, rfl, mem⟩ := starts
  intro c' tail' same
  cases same
  exact (marks_plain c mem).1

theorem Letter.char_mem_marks (l : Letter) : l.char ∈ marks := by
  cases l with
  | integer which => revert which; decide
  | floating which => revert which; decide
  | character | pointer | string | target => decide

theorem starts_modifier (m : Modifier) (l : Letter) (rest : List Char) :
    Starts marks (m.text ++ (l.char :: rest)) := by
  cases m with
  | none => exact ⟨_, _, rfl, l.char_mem_marks⟩
  | char | short | long | longLong | intmax | size | ptrdiff | longDouble =>
      exact ⟨_, _, rfl, by decide⟩

theorem Starts.mono {cs cs' format : List Char} (starts : Starts cs format)
    (more : ∀ c ∈ cs, c ∈ cs') : Starts cs' format := by
  obtain ⟨c, tail, same, mem⟩ := starts
  exact ⟨c, tail, same, more c mem⟩

theorem starts_precision {format : List Char} (a : Amount) (starts : Starts marks format) :
    Starts ('.' :: marks) (a.dotted ++ format) := by
  cases a with
  | absent => exact starts.mono fun c mem => List.mem_cons_of_mem _ mem
  | number digits | next | argument digits => exact ⟨'.', _, rfl, List.mem_cons_self⟩

namespace Scan

/-- Argument `index` read as `kind`. -/
def named (s : Scan) (index : Nat) (kind : ArgumentKind) : Scan :=
  let old := s.uses (index - 1)
  { s with
    uses := Function.update s.uses (index - 1)
      { old with kind := if old.kind = .none then kind else old.kind }
    count := if s.count < index then index else s.count }

theorem use_eq (s : Scan) {index : Nat} (kind : ArgumentKind)
    (bounds : 1 ≤ index ∧ index ≤ formatArguments) : s.use index kind = some (s.named index kind) :=
  if_neg (by omega)

/-- The argument of a star read, and the sequence where it goes on. -/
def amount (s : Scan) (index : Option Nat × Nat) : Scan :=
  let s : Scan := { s with next := index.2 }
  match index.1 with
  | none => s
  | some index => s.named index .int

theorem star_next (s : Scan) {rest : List Char} (starts : Starts ('.' :: marks) rest) :
    s.star rest = (s.next, { s with next := s.next + 1 }, rest) := by
  have number : readNumber rest = (-1, rest) := readDigits_noDigit starts.noDigit
  obtain ⟨c, tail, rfl, mem⟩ := starts
  have notDollar := (marks_plain c mem).2.1
  unfold star
  rw [number]
  split
  · rename_i same
    cases same
    exact absurd rfl notDollar
  · rename_i same
    cases same
    rfl

theorem star_argument (s : Scan) {digits : Digits} (rest : List Char) (some : 1 ≤ digits.value)
    (small : digits.value ≤ 64) :
    s.star (digits.text ++ '$' :: rest) = (digits.value, s, rest) := by
  obtain ⟨followed, read⟩ := digits.read_of_small some small
  have ends : NoDigit ('$' :: rest) := by
    intro c tail same
    cases same
    rfl
  unfold star
  rw [readNumber_text ends followed, read]
  change (if (0 : Int) < digits.value then (_, s, rest) else _) = _
  rw [if_pos (by omega), Int.toNat_natCast]

/-- A character that is no digit and does not start what follows a number. -/
theorem digits_ne_cons {digits : Digits} {rest tail cs : List Char} {c : Char}
    (starts : Starts cs rest) (noDigit : c.isDigit = false) (none : c ∉ cs) :
    digits.text ++ rest ≠ c :: tail := by
  intro same
  cases digits with
  | nil =>
      obtain ⟨c', tail', rfl, mem⟩ := starts
      cases same
      exact none mem
  | cons first digits =>
      have start : Nat.digitChar first = c := (List.cons.inj same).1
      have digit := Digits.digitChar_isDigit first
      rw [start, noDigit] at digit
      cases digit

/-- Neither a digit nor what may follow a number is a star. -/
theorem digits_noStar {digits : Digits} {rest tail : List Char}
    (starts : Starts ('.' :: marks) rest) : digits.text ++ rest ≠ '*' :: tail :=
  digits_ne_cons starts rfl fun mem => (marks_plain '*' mem).2.2.1 rfl

theorem width_star (s : Scan) (rest : List Char) :
    s.width ('*' :: rest) =
      let (width, s, rest) := s.star rest
      match s.use width .int with
      | none => (s, none)
      | some s => (s, some rest) := rfl

theorem width_text (s : Scan) {a : Amount} {rest : List Char} (starts : Starts ('.' :: marks) rest)
    (followed : a.Followed) (isWidth : ∀ digits, a = .number digits → digits ≠ [])
    (bounds : ∀ i ∈ (a.index s.next).1, 1 ≤ i ∧ i ≤ formatArguments) :
    s.width (a.text ++ rest) = (s.amount (a.index s.next), some rest) := by
  cases a with
  | absent =>
      have number : readNumber rest = (-1, rest) := readDigits_noDigit starts.noDigit
      obtain ⟨c, tail, rfl, mem⟩ := starts
      have notStar := (marks_plain c mem).2.2.1
      change s.width (c :: tail) = (s, some (c :: tail))
      unfold width
      split
      · rename_i same
        cases same
        exact absurd rfl notStar
      · rw [number]
  | number digits =>
      cases digits with
      | nil => exact absurd rfl (isWidth [] rfl)
      | cons first digits =>
          have number := readNumber_text starts.noDigit followed
          change s.width (Digits.text (first :: digits) ++ rest) = (s, some rest)
          unfold width
          split
          · rename_i same
            exact absurd same (digits_noStar starts)
          · rw [number]
  | next =>
      have bound := bounds s.next rfl
      change s.width ('*' :: rest) = (({ s with next := s.next + 1 } : Scan).named s.next .int, some rest)
      rw [width_star, star_next s starts]
      dsimp only
      rw [use_eq _ _ bound]
  | argument digits =>
      have bound := bounds digits.value rfl
      change s.width ('*' :: (digits.text ++ ['$'] ++ rest)) = (s.named digits.value .int, some rest)
      rw [List.append_assoc, List.singleton_append, width_star,
        star_argument s rest bound.1 bound.2]
      dsimp only
      rw [use_eq _ _ bound]

theorem kept_number (digits : Digits) :
    (Precision.number digits.value).kept = (if digits.read < 0 then 0 else digits.read, 0) := by
  change ((if digits.value ≤ 100000 then (digits.value : Int) else 0), 0) = _
  unfold Digits.read
  congr 1
  by_cases empty : digits = []
  · rw [if_pos empty, empty]
    rfl
  · rw [if_neg empty]
    split <;> omega

theorem precision_star (s : Scan) (rest : List Char) :
    s.precision ('.' :: '*' :: rest) =
      let (argument, s, rest) := s.star rest
      match s.use argument .int with
      | none => (s, none)
      | some s => (s, some (-1, argument, rest)) := rfl

theorem precision_text (s : Scan) {a : Amount} {rest : List Char} (starts : Starts marks rest)
    (followed : a.Followed) (bounds : ∀ i ∈ (a.index s.next).1, 1 ≤ i ∧ i ≤ formatArguments) :
    s.precision (a.dotted ++ rest) =
      (s.amount (a.index s.next),
        some ((a.precision s.next).kept.1, (a.precision s.next).kept.2, rest)) := by
  have starts' : Starts ('.' :: marks) rest :=
    starts.mono fun c mem => List.mem_cons_of_mem _ mem
  cases a with
  | absent =>
      obtain ⟨c, tail, rfl, mem⟩ := starts
      change s.precision (c :: tail) = (s, some (-1, 0, c :: tail))
      unfold precision
      split
      · rename_i same
        cases same
        exact absurd mem (by decide)
      · rename_i same
        cases same
        exact absurd mem (by decide)
      · rfl
  | number digits =>
      have number := readNumber_text starts'.noDigit followed
      change s.precision ('.' :: (digits.text ++ rest)) = (s, some (_, _, rest))
      rw [show (Amount.number digits).precision s.next = .number digits.value from rfl, kept_number]
      unfold precision
      split
      · rename_i same
        exact absurd (List.cons.inj same).2 (digits_noStar starts')
      · rename_i same
        cases same
        rw [number]
      · rename_i notDot
        exact absurd rfl (notDot _)
  | next =>
      have bound := bounds s.next rfl
      change s.precision ('.' :: '*' :: rest) =
        (({ s with next := s.next + 1 } : Scan).named s.next .int, some (-1, s.next, rest))
      rw [precision_star, star_next s starts']
      dsimp only
      rw [use_eq _ _ bound]
  | argument digits =>
      have bound := bounds digits.value rfl
      change s.precision ('.' :: '*' :: (digits.text ++ ['$'] ++ rest)) =
        (s.named digits.value .int, some (-1, digits.value, rest))
      rw [List.append_assoc, List.singleton_append, precision_star,
        star_argument s rest bound.1 bound.2]
      dsimp only
      rw [use_eq _ _ bound]

end Scan

theorem Letter.char_noModifier (l : Letter) : l.char ∉ ['h', 'l', 'j', 'z', 't', 'L'] := by
  cases l with
  | integer which => revert which; decide
  | floating which => revert which; decide
  | character | pointer | string | target => decide

theorem size_text (m : Modifier) (l : Letter) (rest : List Char) :
    size (m.text ++ l.char :: rest) = (m.code, l.char :: rest) := by
  have letter := l.char_noModifier
  generalize l.char = c at letter
  simp only [List.mem_cons, List.not_mem_nil, or_false, not_or] at letter
  obtain ⟨h, long, j, z, t, L⟩ := letter
  cases m with
  | char | longLong | intmax | size | ptrdiff | longDouble => rfl
  | none =>
      change size (c :: rest) = (0, c :: rest)
      simp only [size, h, long, j, z, t, L, List.cons.injEq, false_and, implies_true,
        imp_self]
  | short =>
      change size ('h' :: c :: rest) = (-2, c :: rest)
      simp [size, h]
  | long =>
      change size ('l' :: c :: rest) = (1, c :: rest)
      simp [size, long]

theorem readDigits_split {value read : Int} {format rest : List Char} {c : Char}
    (found : readDigits value format = (read, c :: rest)) :
    ∃ digits, format = digits ++ c :: rest ∧ ∀ d ∈ digits, d.isDigit = true := by
  induction format generalizing value with
  | nil => cases found
  | cons d format inductionHypothesis =>
      unfold readDigits at found
      by_cases digit : d.isDigit = true
      · have here : ∀ e ∈ [d], e.isDigit = true := by
          intro e mem
          rw [List.mem_singleton.mp mem]
          exact digit
        rw [if_pos digit] at found
        dsimp only at found
        generalize (if value < 0 then 0 else value * 10) + digitOf d = next at found
        split at found
        · cases found
          exact ⟨[d], rfl, here⟩
        · obtain ⟨digits, rfl, all⟩ := inductionHypothesis found
          refine ⟨d :: digits, rfl, fun e mem => ?_⟩
          rcases List.mem_cons.mp mem with rfl | old
          · exact digit
          · exact all e old
      · rw [if_neg digit] at found
        cases found
        exact ⟨[], rfl, fun _ mem => absurd mem List.not_mem_nil⟩

theorem position_none {format : List Char}
    (other : format.find? (fun c => !c.isDigit) ≠ some '$') : position format = (0, format) := by
  unfold position
  split
  · rename_i found
    obtain ⟨digits, rfl, all⟩ := readDigits_split found
    refine absurd ?_ other
    rw [List.find?_append, List.find?_eq_none.mpr]
    · rfl
    · intro d mem
      rw [all d mem]
      exact Bool.false_ne_true
  · rfl

theorem position_some {digits : Digits} (tail : List Char) (some : 1 ≤ digits.value)
    (small : digits.value ≤ 64) : position (digits.text ++ '$' :: tail) = (digits.value, tail) := by
  obtain ⟨followed, read⟩ := digits.read_of_small some small
  have ends : NoDigit ('$' :: tail) := by
    intro c tail same
    cases same
    rfl
  unfold position
  rw [readNumber_text ends followed, read]
  change (if (0 : Int) < digits.value then (_, tail) else _) = _
  rw [if_pos (by omega), Int.toNat_natCast]

/-- The first byte that is no digit is a flag, a star or what starts the rest. -/
theorem find?_flags {flags : List Char} {a : Amount} {tail : List Char}
    (isFlags : ∀ c ∈ flags, isFlag c = true) (starts : Starts ('.' :: marks) tail) :
    (flags ++ (a.text ++ tail)).find? (fun c => !c.isDigit) ≠ some '$' := by
  intro dollar
  rw [List.find?_append, Option.or_eq_some_iff] at dollar
  rcases dollar with inFlags | ⟨-, dollar⟩
  · exact absurd (isFlags '$' (List.mem_of_find?_eq_some inFlags)) (by decide)
  have atTail : tail.find? (fun c => !c.isDigit) ≠ some '$' := by
    obtain ⟨c, tail, rfl, mem⟩ := starts
    obtain ⟨notDigit, notDollar, -⟩ := marks_plain c mem
    rw [List.find?_cons_of_pos (by rw [notDigit]; rfl)]
    exact fun same => notDollar (Option.some.inj same)
  cases a with
  | absent => exact atTail dollar
  | number digits =>
      rw [List.find?_append, Option.or_eq_some_iff] at dollar
      rcases dollar with inDigits | ⟨-, dollar⟩
      · obtain ⟨digit, -, same⟩ := List.mem_map.mp (List.mem_of_find?_eq_some inDigits)
        have isDigit := Digits.digitChar_isDigit digit
        rw [same] at isDigit
        exact absurd isDigit (by decide)
      · exact atTail dollar
  | next => cases dollar
  | argument digits => cases dollar

/-- The flags end where the width starts. -/
theorem dropWhile_flags {flags : List Char} {a : Amount} {tail : List Char}
    (isFlags : ∀ c ∈ flags, isFlag c = true)
    (isWidth : ∀ digits, a = .number digits → ∃ first rest, digits = first :: rest ∧ first ≠ 0)
    (starts : Starts ('.' :: marks) tail) :
    (flags ++ (a.text ++ tail)).dropWhile isFlag = a.text ++ tail := by
  have notFlag : ∀ c cs, a.text ++ tail = c :: cs → isFlag c = false := by
    intro c cs same
    cases a with
    | absent =>
        obtain ⟨c', tail, rfl, mem⟩ := starts
        cases same
        exact (marks_plain c mem).2.2.2.1
    | number digits =>
        obtain ⟨first, rest, rfl, nonzero⟩ := isWidth digits rfl
        have head : Nat.digitChar first = c := (List.cons.inj same).1
        rw [← head]
        exact Digits.digitChar_notFlag first nonzero
    | next | argument digits =>
        cases same
        decide
  rw [List.dropWhile_append_of_pos isFlags]
  generalize a.text ++ tail = format at notFlag
  cases format with
  | nil => rfl
  | cons c cs =>
      refine List.dropWhile_cons_of_neg ?_
      rw [notFlag c cs rfl]
      exact Bool.false_ne_true

namespace Scan

/-- A reading noted. -/
def record (s : Scan) (r : Reading) : Scan :=
  match r.role with
  | .amount => s.named r.index .int
  | .convert letter modifier precision =>
      let s := s.named r.index (kindOf modifier.code letter.char)
      let new : FormatUse := ⟨(s.uses (r.index - 1)).kind, precision.kept.1, precision.kept.2,
        bytesOf modifier.code⟩
      { s with uses := Function.update s.uses (r.index - 1) new }

theorem record_next (s : Scan) (next : Nat) (r : Reading) :
    ({ s with next := next } : Scan).record r = { s.record r with next := next } := by
  unfold record
  split <;> rfl

theorem records_next (s : Scan) (next : Nat) (rs : List Reading) :
    rs.foldl record { s with next := next } = { rs.foldl record s with next := next } := by
  induction rs generalizing s with
  | nil => rfl
  | cons r rs inductionHypothesis =>
      rw [List.foldl_cons, List.foldl_cons, record_next, inductionHypothesis]

theorem amount_eq (s : Scan) (index : Option Nat × Nat) :
    s.amount index =
      { (index.1.toList.map fun index => Reading.mk index .amount).foldl record s with
        next := index.2 } := by
  obtain ⟨_ | index, next⟩ := index <;> rfl

end Scan

theorem kindOf_ne_none (m : Modifier) (l : Letter) : kindOf m.code l.char ≠ .none := by
  cases l with
  | integer which => revert which; cases m <;> decide
  | floating which => revert which; cases m <;> decide
  | character | pointer | string | target => cases m <;> decide

namespace Scan

theorem position_text {c : Conversion} {rest : List Char}
    (bounds : ∀ digits, c.position = some digits → 1 ≤ digits.value ∧ digits.value ≤ 64) :
    position (c.text ++ rest) = (c.position.elim 0 Digits.value,
      c.flags ++ (c.width.text ++ (c.precision.dotted ++ (c.modifier.text ++
        (c.letter.char :: rest))))) := by
  have starts := starts_precision c.precision (starts_modifier c.modifier c.letter rest)
  have spelled : c.text ++ rest = c.positionText ++ (c.flags ++ (c.width.text ++
      (c.precision.dotted ++ (c.modifier.text ++ (c.letter.char :: rest))))) := by
    simp only [Conversion.text, List.append_assoc, List.singleton_append]
  rw [spelled]
  unfold Conversion.positionText
  cases position : c.position with
  | none => exact position_none (find?_flags c.flags_ok starts)
  | some digits =>
      obtain ⟨low, high⟩ := bounds digits position
      rw [List.append_assoc, List.singleton_append]
      exact position_some _ low high

theorem convert_text (s : Scan) {c : Conversion} (precision : Precision)
    (bounds : 1 ≤ (c.index s.next).1 ∧ (c.index s.next).1 ≤ formatArguments) :
    s.convert (c.position.elim 0 Digits.value) (kindOf c.modifier.code c.letter.char)
        precision.kept.1 precision.kept.2 (bytesOf c.modifier.code) =
      ({ s.record ⟨(c.index s.next).1, .convert c.letter c.modifier precision⟩ with
        next := (c.index s.next).2 }, some ()) := by
  unfold Conversion.index at *
  cases position : c.position with
  | none =>
      rw [position] at bounds
      change (match ({ s with next := s.next + 1 } : Scan).use s.next _ with
        | none => _ | some s => _) = _
      rw [use_eq _ _ bounds]
      rfl
  | some digits =>
      rw [position] at bounds
      have nonzero : digits.value ≠ 0 := by
        have low := bounds.1
        change 1 ≤ digits.value at low
        omega
      unfold convert
      rw [Option.elim_some, if_neg nonzero]
      dsimp only
      rw [use_eq _ _ bounds]
      rfl

theorem conversion_text {s : Scan} {c : Conversion} (rest : List Char) (followed : c.Followed)
    (bounds : ∀ r ∈ (c.readings s.next).1, 1 ≤ r.index ∧ r.index ≤ formatArguments) :
    s.conversion (c.text ++ rest) =
      ({ (c.readings s.next).1.foldl record s with next := (c.readings s.next).2 }, some rest) := by
  have starts := starts_modifier c.modifier c.letter rest
  have starts' := starts_precision c.precision starts
  -- the arguments of the stars and the conversion's own
  have own := bounds ⟨_, .convert c.letter c.modifier _⟩
    (List.mem_append_right _ (List.mem_append_right _ (List.mem_singleton_self _)))
  have positioned : ∀ digits, c.position = some digits → 1 ≤ digits.value ∧ digits.value ≤ 64 := by
    intro digits position
    unfold Conversion.index at own
    rw [position] at own
    exact own
  have isWidth : ∀ digits, c.width = .number digits → digits ≠ [] := by
    intro digits same
    obtain ⟨first, tail, rfl, -⟩ := c.width_ok digits same
    exact List.cons_ne_nil _ _
  have widthBounds : ∀ i ∈ (c.width.index s.next).1, 1 ≤ i ∧ i ≤ formatArguments := by
    intro i mem
    exact bounds ⟨i, .amount⟩ (List.mem_append_left _ (List.mem_map.mpr
      ⟨i, Option.mem_toList.mpr mem, rfl⟩))
  have precisionBounds : ∀ i ∈ (c.precision.index (c.width.index s.next).2).1,
      1 ≤ i ∧ i ≤ formatArguments := by
    intro i mem
    exact bounds ⟨i, .amount⟩ (List.mem_append_right _ (List.mem_append_left _ (List.mem_map.mpr
      ⟨i, Option.mem_toList.mpr mem, rfl⟩)))
  have next₁ : (s.amount (c.width.index s.next)).next = (c.width.index s.next).2 := by
    rw [amount_eq]
  unfold conversion
  rw [position_text positioned]
  dsimp only
  rw [dropWhile_flags c.flags_ok c.width_ok starts', width_text s starts' followed.1 isWidth widthBounds]
  dsimp only
  rw [precision_text _ starts followed.2 (by rw [next₁]; exact precisionBounds)]
  dsimp only
  rw [size_text]
  dsimp only
  rw [if_neg (kindOf_ne_none _ _)]
  have next₂ : ((s.amount (c.width.index s.next)).amount
      (c.precision.index (s.amount (c.width.index s.next)).next)).next =
        (c.precision.index (c.width.index s.next).2).2 := by
    rw [amount_eq, next₁]
  rw [convert_text _ _ (by rw [next₂]; exact own), next₂, next₁]
  dsimp only
  rw [amount_eq, amount_eq, records_next]
  dsimp only
  rw [record_next]
  unfold Conversion.readings
  dsimp only
  rw [List.foldl_append, List.foldl_append]
  rfl

end Scan

/-! ## Where the scan stops -/

theorem digitChar_plain : ∀ digit : Fin 10, Nat.digitChar digit ≠ '.' ∧
    Nat.digitChar digit ∉ ['h', 'l', 'j', 'z', 't', 'L'] ∧
      kindOf 0 (Nat.digitChar digit) = .none := by
  decide

theorem size_plain {c : Char} (plain : c ∉ ['h', 'l', 'j', 'z', 't', 'L']) (rest : List Char) :
    size (c :: rest) = (0, c :: rest) := by
  simp only [List.mem_cons, List.not_mem_nil, or_false, not_or] at plain
  obtain ⟨h, long, j, z, t, L⟩ := plain
  simp only [size, h, long, j, z, t, L, List.cons.injEq, false_and, implies_true, imp_self]

namespace Scan

theorem precision_plain (s : Scan) {c : Char} (plain : c ≠ '.') (rest : List Char) :
    s.precision (c :: rest) = (s, some (-1, 0, c :: rest)) := by
  unfold precision
  split
  · rename_i same
    exact absurd (List.cons.inj same).1 plain
  · rename_i same
    exact absurd (List.cons.inj same).1 plain
  · rfl

/-- A conversion with a number that is cut stops the scan after the star of its width. -/
theorem conversion_stop {s : Scan} {c : Conversion} (rest : List Char) (cut : ¬ c.Followed)
    (bounds : ∀ r ∈ (c.readings s.next).1, 1 ≤ r.index ∧ r.index ≤ formatArguments) :
    s.conversion (c.text ++ rest) = (s.amount (c.width.index s.next), none) := by
  have starts := starts_modifier c.modifier c.letter rest
  have starts' := starts_precision c.precision starts
  have own := bounds ⟨_, .convert c.letter c.modifier _⟩
    (List.mem_append_right _ (List.mem_append_right _ (List.mem_singleton_self _)))
  have positioned : ∀ digits, c.position = some digits → 1 ≤ digits.value ∧ digits.value ≤ 64 := by
    intro digits position
    unfold Conversion.index at own
    rw [position] at own
    exact own
  have widthBounds : ∀ i ∈ (c.width.index s.next).1, 1 ≤ i ∧ i ≤ formatArguments := by
    intro i mem
    exact bounds ⟨i, .amount⟩ (List.mem_append_left _ (List.mem_map.mpr
      ⟨i, Option.mem_toList.mpr mem, rfl⟩))
  unfold conversion
  rw [position_text positioned]
  dsimp only
  rw [dropWhile_flags c.flags_ok c.width_ok starts']
  by_cases whole : c.width.Followed
  · -- the precision is cut
    have isWidth : ∀ digits, c.width = .number digits → digits ≠ [] := by
      intro digits same
      obtain ⟨first, tail, rfl, -⟩ := c.width_ok digits same
      exact List.cons_ne_nil _ _
    rw [width_text s starts' whole isWidth widthBounds]
    have cut' : ¬ c.precision.Followed := fun precision => cut ⟨whole, precision⟩
    cases precision : c.precision with
    | absent | next | argument digits =>
        rw [precision] at cut'
        exact absurd trivial cut'
    | number digits =>
        rw [precision] at cut'
        obtain ⟨digit, tail, number⟩ :=
          readNumber_cut (c.modifier.text ++ c.letter.char :: rest) cut'
        obtain ⟨-, noModifier, noKind⟩ := digitChar_plain digit
        dsimp only
        have stopped : (s.amount (c.width.index s.next)).precision
            ((Amount.number digits).dotted ++ (c.modifier.text ++ c.letter.char :: rest)) =
              (s.amount (c.width.index s.next), some (0, 0, Nat.digitChar digit :: tail)) := by
          change Scan.precision _ ('.' :: (digits.text ++ (c.modifier.text ++ c.letter.char :: rest))) = _
          unfold Scan.precision
          split
          · rename_i same
            refine absurd (List.cons.inj same).2 (digits_noStar ?_)
            exact starts.mono fun c mem => List.mem_cons_of_mem _ mem
          · rename_i same
            cases same
            rw [number]
            rfl
          · rename_i notDot
            exact absurd rfl (notDot _)
        rw [stopped]
        dsimp only
        rw [size_plain noModifier]
        dsimp only
        rw [if_pos noKind]
  · cases width : c.width with
    | absent | next | argument digits =>
        rw [width] at whole
        exact absurd trivial whole
    | number digits =>
        rw [width] at whole
        obtain ⟨digit, tail, number⟩ :=
          readNumber_cut (c.precision.dotted ++ (c.modifier.text ++ c.letter.char :: rest)) whole
        obtain ⟨noDot, noModifier, noKind⟩ := digitChar_plain digit
        have stopped : s.width ((Amount.number digits).text ++ (c.precision.dotted ++
            (c.modifier.text ++ c.letter.char :: rest))) = (s, some (Nat.digitChar digit :: tail)) := by
          change s.width (digits.text ++ _) = _
          unfold Scan.width
          split
          · rename_i same
            exact absurd same (digits_noStar starts')
          · rw [number]
        rw [stopped]
        dsimp only
        rw [precision_plain s noDot]
        dsimp only
        rw [size_plain noModifier]
        dsimp only
        rw [if_pos noKind]
        rfl

end Scan

/-! ## The scan of a format -/

theorem Digits.text_percent (digits : Digits) : '%' ∉ digits.text := by
  intro mem
  obtain ⟨digit, -, same⟩ := List.mem_map.mp mem
  have isDigit := digitChar_isDigit digit
  rw [same] at isDigit
  exact absurd isDigit (by decide)

theorem Amount.text_percent (a : Amount) : '%' ∉ a.text := by
  cases a with
  | absent => exact List.not_mem_nil
  | number digits => exact digits.text_percent
  | next => decide
  | argument digits =>
      intro mem
      rcases List.mem_cons.mp mem with star | mem
      · exact absurd star (by decide)
      · rcases List.mem_append.mp mem with inDigits | dollar
        · exact digits.text_percent inDigits
        · exact absurd dollar (by decide)

theorem Amount.dotted_percent (a : Amount) : '%' ∉ a.dotted := by
  cases a with
  | absent => exact List.not_mem_nil
  | number digits | next | argument digits =>
      intro mem
      rcases List.mem_cons.mp mem with dot | mem
      · exact absurd dot (by decide)
      · exact Amount.text_percent _ mem

/-- A conversion does not start as `%%` does. -/
theorem Conversion.text_percent (c : Conversion) (rest tail : List Char) :
    c.text ++ rest ≠ '%' :: tail := by
  intro same
  have percent : '%' ∈ c.text := by
    cases spelled : c.text with
    | nil =>
        have none := congrArg List.length spelled
        simp only [text, List.length_append, List.length_singleton, List.length_nil] at none
        omega
    | cons head tail' =>
        rw [spelled] at same
        rw [(List.cons.inj same).1]
        exact List.mem_cons_self
  unfold text positionText at percent
  rcases List.mem_append.mp percent with position | percent
  · cases positioned : c.position with
    | none =>
        rw [positioned] at position
        cases position
    | some digits =>
        rw [positioned] at position
        rcases List.mem_append.mp position with inDigits | dollar
        · exact digits.text_percent inDigits
        · exact absurd dollar (by decide)
  rcases List.mem_append.mp percent with flag | percent
  · exact absurd (c.flags_ok '%' flag) (by decide)
  rcases List.mem_append.mp percent with width | percent
  · exact c.width.text_percent width
  rcases List.mem_append.mp percent with precision | percent
  · exact c.precision.dotted_percent precision
  rcases List.mem_append.mp percent with modifier | letter
  · revert modifier
    cases c.modifier <;> decide
  · have mark := c.letter.char_mem_marks
    rw [← List.mem_singleton.mp letter] at mark
    exact absurd mark (by decide)

theorem scanFormat_literal (s : Scan) {c : Char} (plain : c ≠ '%') (rest : List Char) :
    scanFormat s (c :: rest) = scanFormat s rest := by
  rw [scanFormat]
  · exact fun _ same _ => plain same
  · exact fun same => plain same

theorem scanFormat_conversion {s s' : Scan} {format rest : List Char}
    (notPercent : ∀ tail, format ≠ '%' :: tail)
    (found : s.conversion format = (s', some rest)) :
    scanFormat s ('%' :: format) = scanFormat s' rest := by
  rw [scanFormat]
  · split
    · rename_i stopped
      rw [found] at stopped
      cases stopped
    · rename_i went
      rw [found] at went
      cases went
      rfl
  · exact notPercent

theorem scanFormat_stop {s s' : Scan} {format : List Char}
    (notPercent : ∀ tail, format ≠ '%' :: tail) (found : s.conversion format = (s', none)) :
    scanFormat s ('%' :: format) = s' := by
  rw [scanFormat]
  · split
    · rename_i stopped
      rw [found] at stopped
      cases stopped
      rfl
    · rename_i went
      rw [found] at went
      cases went
  · exact notPercent

theorem scanFormat_text {s : Scan} {pieces : List Piece}
    (bounds : ∀ r ∈ readingsFrom s.next pieces, 1 ≤ r.index ∧ r.index ≤ formatArguments) :
    ∃ next, scanFormat s (text pieces) =
      { (followedFrom s.next pieces).foldl Scan.record s with next := next } := by
  induction pieces generalizing s with
  | nil =>
      refine ⟨s.next, ?_⟩
      change scanFormat s [] = _
      rw [scanFormat]
      rfl
  | cons piece pieces inductionHypothesis =>
      cases piece with
      | literal c plain =>
          obtain ⟨next, scanned⟩ := inductionHypothesis bounds
          refine ⟨next, ?_⟩
          change scanFormat s (c :: text pieces) = _
          rw [scanFormat_literal s plain]
          exact scanned
      | percent =>
          obtain ⟨next, scanned⟩ := inductionHypothesis bounds
          refine ⟨next, ?_⟩
          change scanFormat s ('%' :: '%' :: text pieces) = _
          rw [scanFormat]
          exact scanned
      | conversion c =>
          have own : ∀ r ∈ (c.readings s.next).1, 1 ≤ r.index ∧ r.index ≤ formatArguments :=
            fun r mem => bounds r (List.mem_append_left _ mem)
          change ∃ next, scanFormat s ('%' :: (c.text ++ text pieces)) =
            { (if c.Followed then (c.readings s.next).1 ++ followedFrom (c.readings s.next).2 pieces
              else (c.width.index s.next).1.toList.map fun index => ⟨index, .amount⟩).foldl
                Scan.record s with next := next }
          by_cases whole : c.Followed
          · have first := Scan.conversion_text (text pieces) whole own
            obtain ⟨next, scanned⟩ := inductionHypothesis (s := { (c.readings s.next).1.foldl
              Scan.record s with next := (c.readings s.next).2 })
              fun r mem => bounds r (List.mem_append_right _ mem)
            refine ⟨next, ?_⟩
            rw [scanFormat_conversion (c.text_percent _) first, scanned, if_pos whole]
            dsimp only
            rw [Scan.records_next, List.foldl_append]
          · refine ⟨(c.width.index s.next).2, ?_⟩
            rw [scanFormat_stop (c.text_percent _) (Scan.conversion_stop (text pieces) whole own),
              if_neg whole, Scan.amount_eq]

end WeaveC.Calls.Format
