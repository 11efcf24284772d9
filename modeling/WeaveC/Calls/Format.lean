import WeaveC.Runtime.Strings
import Mathlib.Logic.Function.Basic

/-!
# What a format's arguments name

`checkFormat` reads a format, notes how each argument is read, walks the
arguments in order, and checks each string up to its precision and each target
before the call touches them.  A format is the list of its bytes before the
terminating zero.
-/

namespace WeaveC.Calls.Format

open WeaveC.Runtime

/-- How a format reads one argument. -/
inductive ArgumentKind where
  | none
  | int
  | long
  | longLong
  | double
  | longDouble
  | pointer
  | string
  | target
  deriving DecidableEq

def formatArguments : Nat := 64

structure FormatUse where
  kind : ArgumentKind
  /-- A string's precision: -1 none, else its value, or the argument that
  holds it (`precisionArgument`). -/
  precision : Int
  precisionArgument : Nat
  /-- A target's bytes. -/
  bytes : Nat

/-! ## Numbers -/

def digitOf (c : Char) : Int := c.toNat - '0'.toNat

/-- The digits left to read, after those that make `value`. -/
def readDigits (value : Int) : List Char → Int × List Char
  | [] => (value, [])
  | c :: rest =>
      if c.isDigit then
        let value := (if value < 0 then 0 else value * 10) + digitOf c
        if 100000 < value then (-1, rest) else readDigits value rest
      else (value, c :: rest)

/-- Reads a decimal number; -1 when there is none. -/
def readNumber (format : List Char) : Int × List Char := readDigits (-1) format

/-! ## One conversion -/

/-- What the scan keeps: how each argument is read, the arguments named so far
and the next one in sequence. -/
structure Scan where
  uses : Nat → FormatUse
  count : Nat
  next : Nat

/-- The state before the first byte: `memset`. -/
def Scan.start : Scan := ⟨fun _ => ⟨.none, 0, 0, 0⟩, 0, 1⟩

/-- Records that argument `index`, counted from 1, is read as `kind`. -/
def Scan.use (s : Scan) (index : Nat) (kind : ArgumentKind) : Option Scan :=
  if index < 1 ∨ formatArguments < index then none
  else
    let old := s.uses (index - 1)
    some { s with
      uses := Function.update s.uses (index - 1)
        { old with kind := if old.kind = .none then kind else old.kind }
      count := if s.count < index then index else s.count }

/-- The argument that a star names, after the star: its own, or the next. -/
def Scan.star (s : Scan) (format : List Char) : Nat × Scan × List Char :=
  match readNumber format with
  | (argument, '$' :: rest) =>
      if 0 < argument then (argument.toNat, s, rest)
      else (s.next, { s with next := s.next + 1 }, '$' :: rest)
  | (_, rest) => (s.next, { s with next := s.next + 1 }, rest)

/-- The position of a conversion, 0 when it has none. -/
def position (format : List Char) : Nat × List Char :=
  match readNumber format with
  | (position, '$' :: rest) => if 0 < position then (position.toNat, rest) else (0, format)
  | _ => (0, format)

def isFlag (c : Char) : Bool := c ∈ ['-', '+', ' ', '#', '0', '\'']

/-- A scan that goes on with what is left of the format, or stops. -/
abbrev Step (α : Type) := Scan × Option α

def Scan.width (s : Scan) : List Char → Step (List Char)
  | '*' :: rest =>
      let (width, s, rest) := s.star rest
      match s.use width .int with
      | none => (s, none)
      | some s => (s, some rest)
  | format => (s, some (readNumber format).2)

/-- The precision and the argument that holds it. -/
def Scan.precision (s : Scan) : List Char → Step (Int × Nat × List Char)
  | '.' :: '*' :: rest =>
      let (argument, s, rest) := s.star rest
      match s.use argument .int with
      | none => (s, none)
      | some s => (s, some (-1, argument, rest))
  | '.' :: rest =>
      let (precision, rest) := readNumber rest
      (s, some (if precision < 0 then 0 else precision, 0, rest))
  | format => (s, some (-1, 0, format))

/-- 0 int, 1 long, 2 long long, 3 intmax, 4 size, 5 ptrdiff, 6 long double,
-1 char, -2 short. -/
def size : List Char → Int × List Char
  | 'h' :: 'h' :: rest => (-1, rest)
  | 'h' :: rest => (-2, rest)
  | 'l' :: 'l' :: rest => (2, rest)
  | 'l' :: rest => (1, rest)
  | 'j' :: rest => (3, rest)
  | 'z' :: rest => (4, rest)
  | 't' :: rest => (5, rest)
  | 'L' :: rest => (6, rest)
  | format => (0, format)

def kindOf (size : Int) (c : Char) : ArgumentKind :=
  if c ∈ ['d', 'i', 'o', 'u', 'x', 'X', 'c'] then
    if size = 2 then .longLong else if 1 ≤ size then .long else .int
  else if c ∈ ['e', 'E', 'f', 'F', 'g', 'G', 'a', 'A'] then
    if size = 6 then .longDouble else .double
  else if c = 'p' then .pointer
  -- a wide string is not scanned
  else if c = 's' then if size = 1 then .pointer else .string
  else if c = 'n' then .target
  else .none

def bytesOf (size : Int) : Nat :=
  if size = -1 then 1 else if size = -2 then 2 else if size = 0 then 4 else 8

/-- The argument the conversion reads, its extents with it. -/
def Scan.convert (s : Scan) (position : Nat) (kind : ArgumentKind) (precision : Int)
    (precisionArgument bytes : Nat) : Step Unit :=
  let (position, s) := if position = 0 then (s.next, { s with next := s.next + 1 }) else (position, s)
  match s.use position kind with
  | none => (s, none)
  | some s =>
      let old := s.uses (position - 1)
      let new : FormatUse := ⟨old.kind, precision, precisionArgument, bytes⟩
      ({ s with uses := Function.update s.uses (position - 1) new }, some ())

/-- The conversion after its `%`. -/
def Scan.conversion (s : Scan) (format : List Char) : Step (List Char) :=
  let (position, format) := position format
  match s.width (format.dropWhile isFlag) with
  | (s, none) => (s, none)
  | (s, some format) =>
      match s.precision format with
      | (s, none) => (s, none)
      | (s, some (precision, precisionArgument, format)) =>
          match size format with
          | (_, []) => (s, none)
          | (size, c :: rest) =>
              if kindOf size c = .none then (s, none)
              else
                match s.convert position (kindOf size c) precision precisionArgument
                    (bytesOf size) with
                | (s, none) => (s, none)
                | (s, some ()) => (s, some rest)

/-! ## The whole format -/

theorem readDigits_length (value : Int) (format : List Char) :
    (readDigits value format).2.length ≤ format.length := by
  induction format generalizing value with
  | nil => exact Nat.le_refl _
  | cons c rest inductionHypothesis =>
      unfold readDigits
      by_cases digit : c.isDigit = true
      · rw [if_pos digit]
        dsimp only
        generalize (if value < 0 then 0 else value * 10) + digitOf c = next
        split
        · exact Nat.le_succ _
        · exact Nat.le_succ_of_le (inductionHypothesis next)
      · rw [if_neg digit]

theorem Scan.star_length (s : Scan) (format : List Char) :
    (s.star format).2.2.length ≤ format.length := by
  have number := readDigits_length (-1) format
  unfold star readNumber
  split
  · rename_i found
    rw [found, List.length_cons] at number
    split
    · exact Nat.le_of_succ_le number
    · exact number
  · rename_i found
    rw [found] at number
    exact number

theorem position_length (format : List Char) : (position format).2.length ≤ format.length := by
  have number := readDigits_length (-1) format
  unfold position readNumber
  split
  · rename_i found
    rw [found, List.length_cons] at number
    split
    · exact Nat.le_of_succ_le number
    · exact Nat.le_refl _
  · exact Nat.le_refl _

theorem size_length (format : List Char) : (size format).2.length ≤ format.length := by
  unfold size
  split <;> simp only [List.length_cons] <;> omega

theorem Scan.width_length {s s' : Scan} {format rest : List Char}
    (found : s.width format = (s', some rest)) : rest.length ≤ format.length := by
  unfold width at found
  split at found
  · rename_i tail
    have star := s.star_length tail
    dsimp only at found
    split at found
    · cases found
    · cases found
      exact Nat.le_succ_of_le star
  · cases found
    exact readDigits_length (-1) _

theorem Scan.precision_length {s s' : Scan} {format rest : List Char} {precision : Int}
    {argument : Nat} (found : s.precision format = (s', some (precision, argument, rest))) :
    rest.length ≤ format.length := by
  unfold Scan.precision at found
  split at found
  · rename_i tail
    have star := s.star_length tail
    dsimp only at found
    split at found
    · cases found
    · cases found
      exact Nat.le_succ_of_le (Nat.le_succ_of_le star)
  · cases found
    exact Nat.le_succ_of_le (readDigits_length (-1) _)
  · cases found
    exact Nat.le_refl _

theorem Scan.conversion_length {s s' : Scan} {format rest : List Char}
    (found : s.conversion format = (s', some rest)) : rest.length < format.length := by
  unfold conversion at found
  have start := position_length format
  generalize Format.position format = positioned at *
  obtain ⟨position, format₁⟩ := positioned
  dsimp only at *
  have flags : (format₁.dropWhile isFlag).length ≤ format₁.length :=
    (List.dropWhile_sublist _).length_le
  generalize format₁.dropWhile isFlag = format₂ at *
  generalize widthed : s.width format₂ = w at *
  obtain ⟨s₁, _ | format₃⟩ := w
  · cases found
  have width := width_length widthed
  dsimp only at found
  generalize precise : s₁.precision format₃ = p at *
  obtain ⟨s₂, _ | ⟨precision, argument, format₄⟩⟩ := p
  · cases found
  have afterPrecision := precision_length precise
  dsimp only at found
  have sized := size_length format₄
  generalize size format₄ = z at *
  obtain ⟨size, _ | ⟨c, format₅⟩⟩ := z
  · cases found
  dsimp only at found sized
  rw [List.length_cons] at sized
  split at found
  · cases found
  · split at found
    · cases found
    · cases found
      omega

/-- The loop over the bytes of the format: it ends with the format, or at a
conversion it does not follow. -/
def scanFormat (s : Scan) : List Char → Scan
  | [] => s
  | '%' :: '%' :: rest => scanFormat s rest
  | '%' :: rest =>
      match _found : s.conversion rest with
      | (s, none) => s
      | (s, some rest) => scanFormat s rest
  | _ :: rest => scanFormat s rest
  termination_by format => format.length
  decreasing_by
    · simp only [List.length_cons]
      omega
    · have := Scan.conversion_length _found
      simp only [List.length_cons]
      omega
    · simp only [List.length_cons]
      omega

/-! ## The arguments -/

/-- A length modifier. -/
inductive Modifier where
  | none
  | char
  | short
  | long
  | longLong
  | intmax
  | size
  | ptrdiff
  | longDouble
  deriving DecidableEq

/-- What a pointer argument points to: bytes (a string or any object), wide
characters, or the number a target of a modifier is. -/
inductive Pointee where
  | byte
  | wide
  | number (modifier : Modifier)
  deriving DecidableEq

inductive ArgumentType where
  | int
  | long
  | double
  | longDouble
  | pointer (pointee : Pointee)
  deriving DecidableEq

/-- A variadic argument; what a floating one holds is never looked at. -/
inductive Argument where
  | int (value : BitVec 32)
  | long (value : BitVec 64)
  | double
  | longDouble
  | pointer (pointee : Pointee) (value : BitVec 64)
  deriving DecidableEq

def Argument.type : Argument → ArgumentType
  | .int _ => .int
  | .long _ => .long
  | .double => .double
  | .longDouble => .longDouble
  | .pointer pointee _ => .pointer pointee

/-- `va_arg`, as the `intptr_t` it is kept in; nothing is kept of a floating
argument, and what one of another type reads as is left open (0 here). -/
def vaArg : ArgumentKind → Argument → BitVec 64
  | .int, .int value => value.signExtend 64
  -- the slot of a promoted integer
  | .long, .int value | .longLong, .int value => value.signExtend 64
  | .long, .long value => value
  | .longLong, .long value => value
  | .pointer, .pointer _ value => value
  | .string, .pointer _ value => value
  | .target, .pointer _ value => value
  | _, _ => 0#64

/-- The arguments walked: up to the first one the format does not say how to read. -/
def walked (uses : Nat → FormatUse) (count : Nat) : Nat :=
  ((List.range count).find? fun i => (uses i).kind = .none).getD count

def valueAt (uses : Nat → FormatUse) (arguments : List Argument) (i : Nat) : BitVec 64 :=
  match arguments[i]? with
  | some argument => vaArg (uses i).kind argument
  | none => 0#64

/-- A check fails as a string's scan or as a range does. -/
inductive Failure where
  | string (report : StringReport)
  | range (report : Report)

def checkRange (ctx : Context) (shadow : Shadow) (address n : Nat) : Except Failure Shadow :=
  if n = 0 then .ok shadow
  else if quickOk shadow address n then .ok shadow
  else
    match range ctx shadow address n with
    | .ok shadow => .ok shadow
    | .error report => .error (.range report)

/-- The precision of a string: its own, or what the argument that holds it says. -/
def precisionOf (uses : Nat → FormatUse) (count : Nat) (values : Nat → BitVec 64) (i : Nat) : Int :=
  if 0 < (uses i).precisionArgument then
    if (uses i).precisionArgument ≤ count then
      ((values ((uses i).precisionArgument - 1)).setWidth 32).toInt
    else -1
  else (uses i).precision

def checkArgument (ctx : Context) (memory : Memory) (uses : Nat → FormatUse) (count : Nat)
    (values : Nat → BitVec 64) (shadow : Shadow) (i : Nat) : Except Failure Shadow :=
  match (uses i).kind with
  | .string =>
      let precision := precisionOf uses count values i
      let max := if precision < 0 then 0xFFFFFFFFFFFFFFFF else precision.toNat
      match strlen ctx shadow memory (values i).toNat max true with
      | .ok (_, shadow) => .ok shadow
      | .error report => .error (.string report)
  | .target => checkRange ctx shadow (values i).toNat (uses i).bytes
  | _ => .ok shadow

def checkFormat (ctx : Context) (shadow : Shadow) (memory : Memory) (format : Option (List Char))
    (arguments : List Argument) : Except Failure Shadow :=
  match format with
  | none => .ok shadow
  | some format =>
      let scan := scanFormat .start format
      let count := walked scan.uses scan.count
      (List.range count).foldlM
        (checkArgument ctx memory scan.uses count (valueAt scan.uses arguments)) shadow

end WeaveC.Calls.Format
