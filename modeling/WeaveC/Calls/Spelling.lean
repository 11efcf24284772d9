import WeaveC.Calls.Term

/-!
# The spelling of a term

A term's canonical text, and the reader of terms: `*` and `/` bind tighter than
`+` and `-`, and all associate to the left.
-/

namespace WeaveC.Calls

/-- `std::to_string`. -/
def decimal : Int → List Char
  | .ofNat n => Nat.toDigits 10 n
  | .negSucc n => '-' :: Nat.toDigits 10 (n + 1)

namespace LibTerm

def isAdditive : LibTerm → Bool
  | sum _ _ | difference _ _ => true
  | _ => false

def isProduct : LibTerm → Bool
  | product _ _ => true
  | _ => false

/-- `parenthesised`, of a term's text. -/
def parenthesised (text : List Char) (needed : Bool) : List Char :=
  if needed then '(' :: (text ++ [')']) else text

/-- `LibTerm::str`. -/
def str : LibTerm → List Char
  | constant value => decimal value
  | argument arg => 'a' :: Nat.toDigits 10 arg
  | stringLength arg =>
      ['s', 't', 'r', 'l', 'e', 'n', '(', 'a'] ++ Nat.toDigits 10 arg ++ [')']
  | product left right =>
      parenthesised left.str left.isAdditive ++ '*' ::
        parenthesised right.str (right.isAdditive || right.isProduct)
  | sum left right => left.str ++ '+' :: parenthesised right.str right.isAdditive
  | difference left value => left.str ++ '-' :: decimal value
  | min left right =>
      ['m', 'i', 'n', '('] ++ left.str ++ ',' :: (right.str ++ [')'])
  | quotient left value => parenthesised left.str left.isAdditive ++ '/' :: decimal value

end LibTerm

/-! ## The reader -/

namespace TermReader

/-- Why a reader stops: it has run for too long, which it never does, or the
text is no term. -/
inductive Stopped where
  | tired
  | failed (message : String)
  deriving DecidableEq

/-- A term and the text behind it. -/
abbrev Reading := Except Stopped (LibTerm × List Char)

def fail (message : String) : Reading := .error (.failed message)

def skipSpace (text : List Char) : List Char := text.dropWhile (· == ' ')

/-- The digits of a number behind `value`, and the text behind them; none past
the largest signed 64-bit integer. -/
def digits (value : Nat) : List Char → Option (Nat × List Char)
  | [] => some (value, [])
  | c :: rest =>
      if c.isDigit then
        let digit := c.toNat - '0'.toNat
        if (0x7FFFFFFFFFFFFFFF - digit) / 10 < value then none else digits (value * 10 + digit) rest
      else some (value, c :: rest)

def number (text : List Char) : Option (Nat × List Char) :=
  match skipSpace text with
  | [] => none
  | c :: rest => if c.isDigit then digits 0 (c :: rest) else none

/-- `argumentIndex`: an `a` and a number of at most 255. -/
def argumentIndex (text : List Char) : Option (Nat × List Char) :=
  match skipSpace text with
  | 'a' :: rest =>
      match number rest with
      | some (index, rest) => if 255 < index then none else some (index, rest)
      | none => none
  | _ => none

/-- `accept`, of a token of one character. -/
def accept (token : Char) (text : List Char) : Option (List Char) :=
  match skipSpace text with
  | c :: rest => if c = token then some rest else none
  | [] => none

mutual

def sum : Nat → List Char → Reading
  | 0, _ => .error .tired
  | fuel + 1, text =>
      match product fuel text with
      | .ok (left, rest) => sumRest fuel left rest
      | .error why => .error why

/-- The loop of `sum`. -/
def sumRest : Nat → LibTerm → List Char → Reading
  | 0, _, _ => .error .tired
  | fuel + 1, left, text =>
      match skipSpace text with
      | '+' :: rest =>
          match product fuel rest with
          | .ok (right, rest) => sumRest fuel (.sum left right) rest
          | .error why => .error why
      | '-' :: rest =>
          match number rest with
          | some (right, rest) => sumRest fuel (.difference left right) rest
          | none => fail "expected an integer after '-' in a term"
      | rest => .ok (left, rest)

def product : Nat → List Char → Reading
  | 0, _ => .error .tired
  | fuel + 1, text =>
      match atom fuel text with
      | .ok (left, rest) => productRest fuel left rest
      | .error why => .error why

/-- The loop of `product`. -/
def productRest : Nat → LibTerm → List Char → Reading
  | 0, _, _ => .error .tired
  | fuel + 1, left, text =>
      match skipSpace text with
      | '*' :: rest =>
          match atom fuel rest with
          | .ok (right, rest) => productRest fuel (.product left right) rest
          | .error why => .error why
      | '/' :: rest =>
          match number rest with
          | some (right, rest) =>
              if right = 0 then fail "expected a positive integer after '/' in a term"
              else productRest fuel (.quotient left right) rest
          | none => fail "expected a positive integer after '/' in a term"
      | rest => .ok (left, rest)

def atom : Nat → List Char → Reading
  | 0, _ => .error .tired
  | fuel + 1, text =>
      match skipSpace text with
      | [] => fail "expected a term"
      | '(' :: rest =>
          match sum fuel rest with
          | .ok (inner, rest) =>
              match accept ')' rest with
              | some rest => .ok (inner, rest)
              | none => fail "expected ')' in a term"
          | .error why => .error why
      | 's' :: 't' :: 'r' :: 'l' :: 'e' :: 'n' :: '(' :: rest =>
          match argumentIndex rest with
          | some (index, rest) =>
              match accept ')' rest with
              | some rest => .ok (.stringLength index, rest)
              | none => fail "expected 'strlen(aN)'"
          | none => fail "expected 'strlen(aN)'"
      | 'm' :: 'i' :: 'n' :: '(' :: rest =>
          match sum fuel rest with
          | .ok (left, rest) =>
              match accept ',' rest with
              | some rest =>
                  match sum fuel rest with
                  | .ok (right, rest) =>
                      match accept ')' rest with
                      | some rest => .ok (.min left right, rest)
                      | none => fail "expected ')' after 'min(…'"
                  | .error why => .error why
              | none => fail "expected ',' in 'min(…)'"
          | .error why => .error why
      | c :: rest =>
          if c.isDigit then
            match digits 0 (c :: rest) with
            | some (value, rest) => .ok (.constant value, rest)
            | none => fail "integer out of range in a term"
          else if c = 'a' ∧ rest.head?.any Char.isDigit then
            match argumentIndex (c :: rest) with
            | some (index, rest) => .ok (.argument index, rest)
            | none => fail "argument index out of range in a term"
          else fail "expected a term"

end

/-- More steps than reading a text of `length` characters takes. -/
def enough (length : Nat) : Nat := 3 * length + 3

end TermReader

/-- `LibTerm::parse`: a term, or the error's text. -/
def LibTerm.parse (text : List Char) : Except String LibTerm :=
  match TermReader.sum (TermReader.enough text.length) text with
  | .ok (term, rest) =>
      match TermReader.skipSpace rest with
      | [] => .ok term
      | rest => .error ("unexpected '" ++ String.ofList rest ++ "' after a term")
  | .error (.failed message) => .error message
  | .error .tired => .error "expected a term"

end WeaveC.Calls
