import WeaveC.Calls.Format
import WeaveC.Library.Scanner

/-!
# Number parsers

A wrapper of `strtol` or `strtod` makes the call and then checks the bytes that
the call read, as far as the end it returned says.  The texts a parser converts
are given by grammars of their own; a text is the list of the bytes in memory
before the terminating zero, wherever that stands.
-/

namespace WeaveC.Calls.Numbers

open WeaveC.Runtime WeaveC.Library WeaveC.Calls.Format

/-! ## The wrapper -/

def isSpace (c : Char) : Bool := c == ' ' || decide (9 ≤ c.toNat ∧ c.toNat ≤ 13)

def isSign (c : Char) : Bool := c == '+' || c == '-'

/-- The white space and the sign at the start of a text. -/
def skipped : List Char → Nat
  | [] => 0
  | c :: text => if isSpace c then skipped text + 1 else if isSign c then 1 else 0

/-- How many bytes `parsed` takes to be read, `stop` bytes converted. -/
def readBytes (text : List Char) (stop : Nat) : Nat :=
  if stop ≠ 0 then stop + 1 else skipped text + 1

def parsed (ctx : Context) (shadow : Shadow) (text : List Char) (s stop out : Nat) :
    Except Failure Shadow := do
  let shadow ← checkRange ctx shadow s (readBytes text stop)
  if out ≠ 0 then checkRange ctx shadow out 8 else return shadow

def readsNull (s n : Nat) : Except Failure Unit :=
  if s = 0 ∧ n ≠ 0 then .error (.range ⟨.nullDereference, 0, n⟩) else .ok ()

/-- A wrapper around a call that converts the first `stop` bytes at `s`. -/
def parser (ctx : Context) (shadow : Shadow) (text : List Char) (s stop out : Nat) :
    Except Failure Shadow := do
  readsNull s 1
  parsed ctx shadow text s stop out

/-! ## What is converted -/

def digitValue (c : Char) : Option Nat :=
  if '0' ≤ c ∧ c ≤ '9' then some (c.toNat - 48)
  else if 'a' ≤ c ∧ c ≤ 'z' then some (c.toNat - 87)
  else if 'A' ≤ c ∧ c ≤ 'Z' then some (c.toNat - 55)
  else none

def isDigit (radix : Nat) (c : Char) : Bool :=
  match digitValue c with
  | some value => decide (value < radix)
  | none => false

/-- The mark of a hexadecimal number, behind its 0. -/
def isHexMark (c : Char) : Bool := c == 'x' || c == 'X'

def isNameChar (c : Char) : Bool := (digitValue c).isSome || c == '_'

/-- Some symbols of a kind, and then a text of a language. -/
def Before (kind : Char → Bool) (language : List Char → Prop) (text : List Char) : Prop :=
  ∃ first rest, text = first ++ rest ∧ (∀ c ∈ first, kind c = true) ∧ language rest

def Digits (radix : Nat) (text : List Char) : Prop :=
  text ≠ [] ∧ ∀ c ∈ text, isDigit radix c = true

/-- With or without a sign. -/
def Signed (body : List Char → Prop) (text : List Char) : Prop :=
  body text ∨ ∃ c rest, text = c :: rest ∧ isSign c = true ∧ body rest

/-- `0x` and a text. -/
def Marked (body : List Char → Prop) (text : List Char) : Prop :=
  ∃ x rest, text = '0' :: x :: rest ∧ isHexMark x = true ∧ body rest

def ValidBase (base : Int) : Prop := base = 0 ∨ 2 ≤ base ∧ base ≤ 36

instance (base : Int) : Decidable (ValidBase base) := inferInstanceAs (Decidable (_ ∨ _))

/-- What `strtol` converts behind the sign; in base 0 as an integer constant. -/
def IntegerBody (base : Int) (text : List Char) : Prop :=
  if base = 0 then
    (∃ d rest, text = d :: rest ∧ d ≠ '0' ∧ isDigit 10 d = true ∧ ∀ c ∈ rest, isDigit 10 c = true) ∨
      (∃ rest, text = '0' :: rest ∧ ∀ c ∈ rest, isDigit 8 c = true) ∨ Marked (Digits 16) text
  else ValidBase base ∧ (Digits base.toNat text ∨ base = 16 ∧ Marked (Digits 16) text)

/-- A floating-point number is decimal or hexadecimal. -/
inductive Radix where
  | ten
  | sixteen
  deriving DecidableEq

namespace Radix

def base : Radix → Nat
  | ten => 10
  | sixteen => 16

/-- Whether a character begins an exponent. -/
def isExponentMark : Radix → Char → Bool
  | ten, c => c == 'e' || c == 'E'
  | sixteen, c => c == 'p' || c == 'P'

end Radix

section

variable (radix : Radix)

def Exponent (text : List Char) : Prop :=
  text = [] ∨ ∃ e rest, text = e :: rest ∧ radix.isExponentMark e = true ∧ Signed (Digits 10) rest

/-- What may follow the point. -/
def Fraction : List Char → Prop := Before (isDigit radix.base) (Exponent radix)

/-- What may follow a digit before the point. -/
def Whole : List Char → Prop :=
  Before (isDigit radix.base) fun text =>
    Exponent radix text ∨ ∃ rest, text = '.' :: rest ∧ Fraction radix rest

/-- What has to follow a point without digits before it. -/
def Pointed (text : List Char) : Prop :=
  ∃ d rest, text = d :: rest ∧ isDigit radix.base d = true ∧ Fraction radix rest

def Real (text : List Char) : Prop :=
  ∃ c rest, text = c :: rest ∧
    (isDigit radix.base c = true ∧ Whole radix rest ∨ c = '.' ∧ Pointed radix rest)

end

def lower (text : List Char) : List Char := text.map Char.toLower

def infinity : List Char := ['i', 'n', 'f', 'i', 'n', 'i', 't', 'y']

def nan : List Char := ['n', 'a', 'n']

/-- The letters of `inf` or `infinity` from the `k`-th on. -/
def InfinityFrom (k : Nat) (text : List Char) : Prop :=
  k ≤ 3 ∧ lower text = (infinity.take 3).drop k ∨ lower text = infinity.drop k

/-- What stands in the brackets behind `nan`, and the bracket that closes it. -/
def NanName : List Char → Prop := Before isNameChar fun text => text = [')']

def NanFrom (k : Nat) (text : List Char) : Prop :=
  lower text = nan.drop k ∨
    ∃ letters rest, text = letters ++ '(' :: rest ∧ lower letters = nan.drop k ∧ NanName rest

/-- What `strtod` converts behind the sign. -/
def FloatBody (text : List Char) : Prop :=
  Real .ten text ∨ Marked (Real .sixteen) text ∨ InfinityFrom 0 text ∨ NanFrom 0 text

/-- The family that a wrapper's call belongs to. -/
inductive Parser where
  | integer (base : Int)
  | float

/-- The expected form of a text without white space before it. -/
def Parser.Subject : Parser → List Char → Prop
  | integer base => Signed (IntegerBody base)
  | float => Signed FloatBody

def spaces (text : List Char) : Nat := (text.takeWhile isSpace).length

/-- The call converts the longest text of the expected form behind the white
space, and returns its start when there is none. -/
def Converts (language : List Char → Prop) (text : List Char) (stop : Nat) : Prop :=
  let body := text.drop (spaces text)
  (∃ n, n ≤ body.length ∧ language (body.take n) ∧
      (∀ k, n < k → k ≤ body.length → ¬ language (body.take k)) ∧ stop = spaces text + n) ∨
    (∀ n, ¬ language (body.take n)) ∧ stop = 0

/-- Byte `k` has to be read to see where the number ends: all before it may begin
one. -/
def HasToRead (language : List Char → Prop) (text : List Char) (k : Nat) : Prop :=
  k ≤ spaces text ∨
    k ≤ text.length ∧ Scanner.Extends language ((text.drop (spaces text)).take (k - spaces text))

/-! ## Scanning -/

inductive IntegerState where
  | start
  | signed
  | zero
  | hexMark
  | digits (radix : Nat)
  deriving DecidableEq

namespace IntegerState

variable (base : Int)

def first (c : Char) : Option IntegerState :=
  if c = '0' ∧ (base = 0 ∨ base = 16) then some zero
  else if base = 0 then if isDigit 10 c then some (digits 10) else none
  else if isDigit base.toNat c then some (digits base.toNat) else none

def step : IntegerState → Char → Option IntegerState
  | start, c => if ¬ ValidBase base then none else if isSign c then some signed else first base c
  | signed, c => if ValidBase base then first base c else none
  | zero, c =>
      if isHexMark c then some hexMark
      else if isDigit (if base = 0 then 8 else 16) c then
        some (digits (if base = 0 then 8 else 16))
      else none
  | hexMark, c => if isDigit 16 c then some (digits 16) else none
  | digits radix, c => if isDigit radix c then some (digits radix) else none

def accepting : IntegerState → Bool
  | zero => true
  | digits _ => true
  | _ => false

end IntegerState

inductive FloatState where
  | start
  | signed
  | zero
  | hexMark
  | digits (radix : Radix)
  | point (radix : Radix)
  | fraction (radix : Radix)
  | exponentMark
  | exponentSign
  | exponent
  | infinity (letters : Nat)
  | nan (letters : Nat)
  | nanName
  | nanEnd
  deriving DecidableEq

namespace FloatState

def first (c : Char) : Option FloatState :=
  if c = '0' then some zero
  else if isDigit 10 c then some (digits .ten)
  else if c = '.' then some (point .ten)
  else if c.toLower = 'i' then some (infinity 1)
  else if c.toLower = 'n' then some (nan 1)
  else none

def afterDigit (radix : Radix) (c : Char) : Option FloatState :=
  if isDigit radix.base c then some (digits radix)
  else if c = '.' then some (fraction radix)
  else if radix.isExponentMark c then some exponentMark
  else none

def step : FloatState → Char → Option FloatState
  | start, c => if isSign c then some signed else first c
  | signed, c => first c
  | zero, c => if isHexMark c then some hexMark else afterDigit .ten c
  | hexMark, c =>
      if isDigit 16 c then some (digits .sixteen)
      else if c = '.' then some (point .sixteen) else none
  | digits radix, c => afterDigit radix c
  | point radix, c => if isDigit radix.base c then some (fraction radix) else none
  | fraction radix, c =>
      if isDigit radix.base c then some (fraction radix)
      else if radix.isExponentMark c then some exponentMark else none
  | exponentMark, c =>
      if isSign c then some exponentSign else if isDigit 10 c then some exponent else none
  | exponentSign, c => if isDigit 10 c then some exponent else none
  | exponent, c => if isDigit 10 c then some exponent else none
  | infinity k, c => if Numbers.infinity[k]? = some c.toLower then some (infinity (k + 1)) else none
  | nan k, c =>
      if Numbers.nan[k]? = some c.toLower then some (nan (k + 1))
      else if 3 ≤ k ∧ c = '(' then some nanName else none
  | nanName, c =>
      if isNameChar c then some nanName else if c = ')' then some nanEnd else none
  | nanEnd, _ => none

def accepting : FloatState → Bool
  | zero => true
  | digits _ => true
  | fraction _ => true
  | exponent => true
  | infinity k => decide (k = 3 ∨ 8 ≤ k)
  | nan k => decide (3 ≤ k)
  | nanEnd => true
  | _ => false

end FloatState

def integerScanner (base : Int) : Scanner IntegerState Char :=
  ⟨IntegerState.step base, IntegerState.accepting⟩

def floatScanner : Scanner FloatState Char := ⟨FloatState.step, FloatState.accepting⟩

/-- Behind the white space and the sign the text stops within `0x`, a point or an
exponent without digits, a word or a name in brackets. -/
def Unfinished (text : List Char) : Parser → Prop
  | .integer base =>
      let last := ((integerScanner base).walk .start (text.drop (spaces text))).2
      last.accepting = false ∧ last ≠ .start ∧ last ≠ .signed
  | .float =>
      let last := (floatScanner.walk .start (text.drop (spaces text))).2
      last.accepting = false ∧ last ≠ .start ∧ last ≠ .signed

end WeaveC.Calls.Numbers
