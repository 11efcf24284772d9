import WeaveC.Calls.Spelling
import WeaveC.Library.Parsing
import Mathlib.Data.List.DropRight

/-!
# The library table

The reader of `LibrarySpec.txt`: comments and continuations are removed first,
each logical line is an entry that is read by recursive descent and validated on
its own, and the aliases are indexed last.
-/

namespace WeaveC.Calls

open WeaveC.Library

/-! ## Entries -/

/-- `LibDisjoint`. -/
structure LibDisjoint where
  first : Nat
  second : Nat
  length : LibTerm
  deriving DecidableEq

/-- `LibWrapper`. -/
structure LibWrapper where
  name : List Char
  deriving DecidableEq

inductive LibFormat.Kind where
  | printf
  | scanf
  deriving DecidableEq

/-- `LibFormat`. -/
structure LibFormat where
  kind : LibFormat.Kind
  format : Nat
  first : Nat
  vaList : Bool
  deriving DecidableEq

namespace LibraryParam

inductive ParamType where
  | int
  | pointer
  | function
  | other
  deriving DecidableEq

inductive Access where
  | none
  | read
  | write
  | readWrite
  deriving DecidableEq

inductive Null where
  | forbidden
  | allowed
  | allowedIfZero
  deriving DecidableEq

inductive Effect where
  | borrow
  | release
  | realloc
  deriving DecidableEq

end LibraryParam

/-- `LibraryParam`, one parameter of a row. -/
structure LibraryParam where
  type : LibraryParam.ParamType := .int
  access : LibraryParam.Access := .none
  bytes : Option LibTerm := none
  count : Option LibTerm := none
  string : Bool := false
  scan : Option LibTerm := none
  null : LibraryParam.Null := .forbidden
  zeroTerm : Option LibTerm := none
  effect : LibraryParam.Effect := .borrow
  deriving DecidableEq

/-- `LibraryChk`, a fortified alias: for each of its arguments the row's, or -1. -/
structure LibraryChk where
  name : List Char
  argumentOf : List Int := []
  sizeArgument : Int := -1
  deriving DecidableEq

inductive LibraryEntry.Result where
  | void
  | int
  | pointer
  deriving DecidableEq

/-- `LibraryEntry`, one row of the table. -/
structure LibraryEntry where
  name : List Char
  chk : List LibraryChk := []
  params : List LibraryParam := []
  variadic : Bool := false
  result : LibraryEntry.Result := .void
  value : Option LibTerm := none
  disjoint : List LibDisjoint := []
  wide : Bool := false
  format : Option LibFormat := none
  wrapper : Option LibWrapper := none
  deriving DecidableEq

/-- `LibrarySpec`.  The names and the aliases stand in the order they were
entered in. -/
structure LibrarySpec where
  rows : List LibraryEntry := []
  byName : List (List Char × Nat) := []
  byAlias : List (List Char × Nat × Nat) := []
  deriving DecidableEq

/-! ## Lines -/

/-- A physical line without its comment and the blanks before that. -/
def uncommented (physical : List Char) : List Char :=
  (physical.takeWhile (· ≠ '#')).rdropWhile fun c => c = ' ' ∨ c = '\t' ∨ c = '\r'

/-- The logical lines behind `current`, which has been joined so far. -/
def joinLines (current : List Char) : List (List Char) → List (List Char)
  | [] => if current = [] then [] else [current]
  | physical :: more =>
      let text := uncommented physical
      let blank := fun c => if c = '\t' then ' ' else c
      if text.getLast? = some '\\' then
        joinLines (current ++ text.dropLast.map blank ++ [' ']) more
      else (current ++ text.map blank) :: joinLines [] more

def logicalLines (text : List Char) : List (List Char) := joinLines [] (text.splitOn '\n')

def isIdentifierStart (c : Char) : Bool := c.isAlpha || c == '_'

def isIdentifierChar (c : Char) : Bool := isIdentifierStart c || c.isDigit

def isIdentifier (text : List Char) : Bool :=
  text.head?.any isIdentifierStart && text.all isIdentifierChar

/-! ## The parser -/

namespace LibrarySpecParser

abbrev Parse := Reader Char String

def fail {α : Type} (why : String) : Parse α := Reader.fail why

def quoted (text : List Char) : String := "'" ++ String.ofList text ++ "'"

def atEnd : Parse Bool := fun text =>
  let rest := TermReader.skipSpace text
  .ok (rest.isEmpty, rest)

def accept (token : List Char) : Parse Bool := fun text =>
  let rest := TermReader.skipSpace text
  if token.isPrefixOf rest then .ok (true, rest.drop token.length) else .ok (false, rest)

/-- Whether the text goes on with a character, which is not taken. -/
def ahead (c : Char) : Parse Bool := fun text =>
  let rest := TermReader.skipSpace text
  .ok (rest.head? == some c, rest)

def expect (c : Char) (context : String) : Parse Unit := do
  if ← accept [c] then pure () else fail ("expected " ++ quoted [c] ++ " " ++ context)

/-- A keyword or flag. -/
def word : Parse (List Char) := fun text =>
  let rest := TermReader.skipSpace text
  let found := rest.takeWhile fun c => isIdentifierChar c || c == '-'
  .ok (found, rest.drop found.length)

def name (what : String) : Parse (List Char) := do
  let text ← word
  if isIdentifier text then pure text
  else fail ("expected " ++ what ++ if text = [] then "" else ", found " ++ quoted text)

/-- The digits of an index behind `value`, up to the first that makes it 1000. -/
def indexDigits (value : Nat) : List Char → Nat × List Char
  | [] => (value, [])
  | c :: rest =>
      if c.isDigit ∧ value < 1000 then indexDigits (value * 10 + (c.toNat - '0'.toNat)) rest
      else (value, c :: rest)

def index (what : String) : Parse Nat := fun text =>
  let rest := TermReader.skipSpace text
  let read := indexDigits 0 rest
  if read.2.length = rest.length then .error (.failed ("expected " ++ what))
  else if 255 < read.1 then .error (.failed (what ++ " out of range"))
  else .ok read

def term (context : String) : Parse LibTerm := fun text =>
  match TermReader.sum (TermReader.enough text.length) text with
  | .ok read => .ok read
  | .error .tired => .error .tired
  | .error (.failed why) => .error (.failed (why ++ " in '" ++ context ++ "(…)'"))

def parenthesisedTerm (flag : String) : Parse LibTerm := do
  expect '(' ("after '" ++ flag ++ "'")
  let result ← term flag
  expect ')' ("after the term of '" ++ flag ++ "'")
  pure result

/-! ### Parameters -/

def accessOf (head : List Char) : Option LibraryParam.Access :=
  if head = "r".toList then some .read
  else if head = "w".toList then some .write
  else if head = "rw".toList then some .readWrite
  else if head = "none".toList then some .none
  else none

def parseFlag (param : LibraryParam) (flag : List Char) : Parse LibraryParam := do
  if flag = "bytes".toList then
    let value ← parenthesisedTerm "bytes"
    pure { param with bytes := some value }
  else if flag = "count".toList then
    let value ← parenthesisedTerm "count"
    pure { param with count := some value }
  else if flag = "str".toList then pure { param with string := true }
  else if flag = "scan".toList then
    if ← ahead '(' then
      let value ← parenthesisedTerm "scan"
      pure { param with scan := some value }
    else pure { param with scan := some (.constant 1) }
  else if flag = "null-ok".toList then pure { param with null := .allowed }
  else if flag = "null-if-zero".toList then
    let value ← parenthesisedTerm "null-if-zero"
    pure { param with null := .allowedIfZero, zeroTerm := some value }
  else if flag = "release".toList then pure { param with effect := .release }
  else if flag = "realloc".toList then pure { param with effect := .realloc }
  else fail ("unknown parameter flag " ++ quoted flag)

/-- A round of the loop over a parameter's flags, with those seen before. -/
def flagRound (state : LibraryParam × List (List Char)) :
    Parse (LibraryParam × List (List Char) ⊕ LibraryParam × List (List Char)) := do
  if ← accept [':'] then
    let flag ← word
    if flag ∈ state.2 then fail ("duplicate flag " ++ quoted flag)
    else
      let param ← parseFlag state.1 flag
      pure (.inl (param, flag :: state.2))
  else pure (.inr state)

def parseParam : Parse LibraryParam := do
  let head ← word
  if head = "int".toList then pure { type := .int }
  else if head = "other".toList then pure { type := .other }
  else if head = "fn".toList then pure { type := .function }
  else
    match accessOf head with
    | none => fail ("expected a parameter, found " ++ quoted head)
    | some access =>
        let (param, seen) ← Reader.loop flagRound ({ type := .pointer, access := access }, [])
        if "null-ok".toList ∈ seen ∧ "null-if-zero".toList ∈ seen then
          fail "'null-ok' and 'null-if-zero' exclude each other"
        else if param.bytes.isSome ∧ param.count.isSome then
          fail "'bytes' and 'count' exclude each other"
        else if param.string ∧ param.access ≠ .read ∧ param.access ≠ .readWrite then
          fail "'str' needs 'r' or 'rw'"
        else if param.scan.isSome ∧ param.access ≠ .read then fail "'scan' needs 'r'"
        else pure param

/-! ### Results and clauses -/

def parseResult (entry : LibraryEntry) : Parse LibraryEntry := do
  let kind ← word
  if kind = "void".toList then pure { entry with result := .void }
  else if kind = "ptr".toList then pure { entry with result := .pointer }
  else if kind = "int".toList then
    if ← accept [':'] then
      let value ← word
      if value ≠ "value".toList then fail "expected 'value(…)' after 'int:'"
      else
        let value ← parenthesisedTerm "value"
        pure { entry with result := .int, value := some value }
    else pure { entry with result := .int }
  else fail ("expected 'void', 'int' or 'ptr', found " ++ quoted kind)

def parseDisjoint (entry : LibraryEntry) : Parse LibraryEntry := do
  expect '(' "after 'disjoint'"
  let first ← index "an argument index"
  expect ',' "in 'disjoint'"
  let second ← index "an argument index"
  expect ',' "in 'disjoint'"
  let length ← term "disjoint"
  expect ')' "after 'disjoint(…'"
  pure { entry with disjoint := entry.disjoint ++ [⟨first, second, length⟩] }

def parseFormat (entry : LibraryEntry) (kind : LibFormat.Kind) (clause : String) :
    Parse LibraryEntry := do
  if entry.format.isSome then fail "a row has at most one format clause"
  else
    expect '(' ("after '" ++ clause ++ "'")
    let format ← index "the format's index"
    expect ',' ("in '" ++ clause ++ "'")
    let first ← index "the first argument's index"
    expect ')' ("after '" ++ clause ++ "(…'")
    pure { entry with format := some ⟨kind, format, first, !entry.variadic⟩ }

def parseWrapper (entry : LibraryEntry) : Parse LibraryEntry := do
  if entry.wrapper.isSome then fail "duplicate clause 'wrapper'"
  else
    expect '(' "after 'wrapper'"
    let wrapped ← name "a wrapper name"
    expect ')' "after the wrapper name"
    pure { entry with wrapper := some ⟨wrapped⟩ }

/-- One argument of an alias. -/
def parseArgument (chk : LibraryChk) : Parse LibraryChk := do
  if ← accept "size".toList then
    if 0 ≤ chk.sizeArgument then fail "an alias has at most one 'size' argument"
    else
      pure { chk with sizeArgument := chk.argumentOf.length, argumentOf := chk.argumentOf ++ [-1] }
  else if ← accept ['_'] then pure { chk with argumentOf := chk.argumentOf ++ [-1] }
  else
    let row ← index "a row argument index, '_' or 'size'"
    if 127 < row then fail "alias argument index out of range"
    else pure { chk with argumentOf := chk.argumentOf ++ [(row : Int)] }

def argumentRound (chk : LibraryChk) : Parse (LibraryChk ⊕ LibraryChk) := do
  let chk ← parseArgument chk
  if ← accept [','] then pure (.inl chk) else pure (.inr chk)

def parseChk (entry : LibraryEntry) : Parse LibraryEntry := do
  expect '(' "after 'chk'"
  let aliasName ← name "an alias name"
  expect ':' "after the alias name"
  let chk ← Reader.loop argumentRound { name := aliasName }
  expect ')' "after the alias's arguments"
  pure { entry with chk := entry.chk ++ [chk] }

def parseClause (entry : LibraryEntry) (clause : List Char) : Parse LibraryEntry := do
  if clause = "wide".toList then
    if entry.wide then fail "duplicate clause 'wide'" else pure { entry with wide := true }
  else if clause = "disjoint".toList then parseDisjoint entry
  else if clause = "printf".toList then parseFormat entry .printf "printf"
  else if clause = "scanf".toList then parseFormat entry .scanf "scanf"
  else if clause = "wrapper".toList then parseWrapper entry
  else if clause = "chk".toList then parseChk entry
  else fail ("unknown clause " ++ quoted clause)

/-! ### Validation -/

def refuse (bad : Prop) [Decidable bad] (why : String) : Except String Unit :=
  if bad then .error why else .ok ()

def validateArg (entry : LibraryEntry) (context : String) (arg : Nat) : Except String Unit :=
  refuse (entry.params.length ≤ arg)
    ("argument a" ++ toString arg ++ " of " ++ context ++ " is past the row's parameters")

def validateTerm (entry : LibraryEntry) (context : String) : LibTerm → Except String Unit
  | .constant _ => .ok ()
  | .argument arg => validateArg entry context arg
  | .stringLength arg => do
      validateArg entry context arg
      refuse (entry.params[arg]?.all (·.type ≠ .pointer))
        ("strlen(a" ++ toString arg ++ ") of " ++ context ++ " names a non-pointer")
  | .product left right | .sum left right | .min left right => do
      validateTerm entry context left
      validateTerm entry context right
  | .difference left _ | .quotient left _ => validateTerm entry context left

def validateSome (entry : LibraryEntry) (context : String) : Option LibTerm → Except String Unit
  | some value => validateTerm entry context value
  | none => .ok ()

def validateParam (entry : LibraryEntry) (param : LibraryParam × Nat) : Except String Unit := do
  let context := "parameter " ++ toString param.2
  validateSome entry context param.1.bytes
  validateSome entry context param.1.count
  validateSome entry context param.1.zeroTerm
  validateSome entry context param.1.scan
  refuse (param.1.count.isSome ∧ !entry.wide) "'count' needs a wide row"

def validateDisjoint (entry : LibraryEntry) (disjoint : LibDisjoint) : Except String Unit := do
  refuse (entry.params.length ≤ disjoint.first ∨ entry.params.length ≤ disjoint.second)
    "'disjoint' names an argument past the row's parameters"
  validateTerm entry "'disjoint'" disjoint.length

def validateFormat (entry : LibraryEntry) (format : LibFormat) : Except String Unit :=
  refuse (entry.params.length ≤ format.format ∨
      !entry.variadic ∧ entry.params.length ≤ format.first)
    "the format clause names an argument past the parameters"

def validateChk (entry : LibraryEntry) (chk : LibraryChk) : Except String Unit :=
  refuse (∃ row ∈ chk.argumentOf, 0 ≤ row ∧ !entry.variadic ∧ (entry.params.length : Int) ≤ row)
    ("alias " ++ quoted chk.name ++ " names an argument past the row's parameters")

def validateEntry (entry : LibraryEntry) : Except String Unit := do
  entry.params.zipIdx.forM (validateParam entry)
  validateSome entry "the result" entry.value
  entry.disjoint.forM (validateDisjoint entry)
  entry.format.forM (validateFormat entry)
  refuse (entry.params.any (·.scan.isSome) ∧ entry.result = .void) "'scan' needs a result"
  refuse (entry.params.any (·.scan.isSome) ∧ entry.wrapper.isSome) "'scan' excludes 'wrapper'"
  -- a row that redirects to another's wrapper would check that row's arguments
  entry.wrapper.forM fun wrapper =>
    refuse (wrapper.name ≠ entry.name) ("'wrapper(" ++ String.ofList wrapper.name ++
      ")' must name the row")
  entry.chk.forM (validateChk entry)

/-! ### Entries and the table -/

/-- A round of the loop over the parameters, which an ellipsis ends. -/
def paramRound (entry : LibraryEntry) : Parse (LibraryEntry ⊕ LibraryEntry) := do
  if ← accept "...".toList then pure (.inr { entry with variadic := true })
  else
    let param ← parseParam
    let entry := { entry with params := entry.params ++ [param] }
    if ← accept [','] then pure (.inl entry) else pure (.inr entry)

def parseParams (entry : LibraryEntry) : Parse LibraryEntry := do
  if ← accept [')'] then pure entry
  else
    let entry ← Reader.loop paramRound entry
    expect ')' "after the parameters"
    pure entry

def clauseRound (entry : LibraryEntry) : Parse (LibraryEntry ⊕ LibraryEntry) := do
  if ← accept [';'] then pure (.inr entry)
  else if ← atEnd then fail "expected ';' at the end of the entry"
  else
    let clause ← word
    if clause = [] then fail "expected a clause or ';'"
    else
      let entry ← parseClause entry clause
      pure (.inl entry)

/-- The entry behind its name. -/
def parseRest (entry : LibraryEntry) : Parse LibraryEntry := do
  expect '(' "after the function name"
  let entry ← parseParams entry
  if ← accept "->".toList then
    let entry ← parseResult entry
    let entry ← Reader.loop clauseRound entry
    if ← atEnd then
      match validateEntry entry with
      | .ok () => pure entry
      | .error why => fail why
    else fail "unexpected text after ';'"
  else fail "expected '->' after the parameters"

def parseEntry : Parse LibraryEntry := do
  let rowName ← name "a function name"
  Reader.explain (fun why => quoted rowName ++ ": " ++ why) (parseRest { name := rowName })

/-- The table with one more row. -/
def add (spec : LibrarySpec) (entry : LibraryEntry) : LibrarySpec :=
  { spec with
    rows := spec.rows ++ [entry]
    byName := spec.byName ++ [(entry.name, spec.rows.length)] }

def parseLine (spec : LibrarySpec) (line : List Char) : Except (Failure String) LibrarySpec :=
  match TermReader.skipSpace line with
  | [] => .ok spec
  | c :: text =>
      match parseEntry (c :: text) with
      | .ok (entry, _) => .ok (add spec entry)
      | .error why => .error why

/-- One alias: its row's name and its own, and where it stands. -/
structure Place where
  rowName : List Char
  name : List Char
  row : Nat
  chk : Nat
  deriving DecidableEq

/-- The aliases of the rows, in file order. -/
def places (rows : List LibraryEntry) : List Place :=
  rows.zipIdx.flatMap fun (entry, row) =>
    entry.chk.zipIdx.map fun (chk, i) => ⟨entry.name, chk.name, row, i⟩

def indexAlias (spec : LibrarySpec) (place : Place) : Except (Failure String) LibrarySpec :=
  if place.name ∈ spec.byName.map Prod.fst ∨ place.name ∈ spec.byAlias.map Prod.fst then
    .error (.failed (quoted place.rowName ++ ": alias " ++ quoted place.name ++
      " is already a row or an alias"))
  else .ok { spec with byAlias := spec.byAlias ++ [(place.name, place.row, place.chk)] }

end LibrarySpecParser

namespace LibrarySpec

open LibrarySpecParser

/-- `LibrarySpec::parse`. -/
def parse (text : List Char) : Except (Failure String) LibrarySpec := do
  let spec ← (logicalLines text).foldlM parseLine {}
  (places spec.rows).foldlM indexAlias spec

end LibrarySpec

/-! ## Matches -/

/-- `LibraryMatch`: the row, and in `chk` the alias it was reached through. -/
structure LibraryMatch where
  entry : LibraryEntry
  chk : Option LibraryChk
  deriving DecidableEq

namespace LibraryMatch

/-- The last entry of an alias's list, where the arguments behind the list go on
from it. -/
def continued (m : LibraryMatch) (chk : LibraryChk) : Option Int :=
  match chk.argumentOf.getLast? with
  | some last => if m.entry.variadic ∧ 0 ≤ last then some last else none
  | none => none

def rowArgument (m : LibraryMatch) (callArgument : Nat) : Int :=
  match m.chk with
  | none => callArgument
  | some chk =>
      match chk.argumentOf[callArgument]? with
      | some row => row
      | none =>
          match m.continued chk with
          | some last => last + (callArgument - chk.argumentOf.length) + 1
          | none => -1

def callArgument (m : LibraryMatch) (rowArg : Nat) : Int :=
  match m.chk with
  | none => rowArg
  | some chk =>
      match chk.argumentOf.findIdx? (· = (rowArg : Int)) with
      | some i => i
      | none =>
          match m.continued chk with
          | some last =>
              if (rowArg : Int) ≤ last then -1 else chk.argumentOf.length - 1 + (rowArg - last)
          | none => -1

end LibraryMatch

/-! ## Lookup -/

def fits (entry : LibraryEntry) (arguments : Nat) : Bool :=
  if entry.variadic then entry.params.length ≤ arguments else arguments = entry.params.length

namespace LibrarySpec

/-- The rows of a name, which the multimap keeps in the order of entry. -/
def equalRange (spec : LibrarySpec) (name : List Char) : List LibraryEntry :=
  (spec.byName.filter (·.1 = name)).filterMap fun found => spec.rows[found.2]?

def builtin : List Char := "__builtin_".toList

/-- One round of `lookup`'s loop. -/
def resolve (spec : LibrarySpec) (name : List Char) (arguments : Option Nat) :
    Option LibraryMatch :=
  match spec.byAlias.find? (·.1 = name) with
  | some (_, row, i) =>
      spec.rows[row]?.bind fun entry => entry.chk[i]?.map fun chk => ⟨entry, some chk⟩
  | none =>
      let range := spec.equalRange name
      let fitting := arguments.bind fun n => range.find? (fits · n)
      (fitting.or range.head?).map fun entry => ⟨entry, none⟩

def lookup (spec : LibrarySpec) (callee : List Char) (arguments : Option Nat) :
    Option LibraryMatch :=
  match spec.resolve callee arguments with
  | some found => some found
  | none =>
      if builtin.isPrefixOf callee then spec.resolve (callee.drop builtin.length) arguments
      else none

end LibrarySpec

end WeaveC.Calls
