import WeaveC.Library.Matching
import WeaveC.Runtime.Lines
import Mathlib.Data.List.TakeDrop

/-!
# Reading reports back

The case runner reads the runtime's lines with two regular expressions, one
line at a time.  A report whose location fits its line is read as what the
runtime was given; a second line or a fault's is never taken for a report.
-/

namespace WeaveC.Runtime

open WeaveC.Library

/-! ## The reader -/

/-- What `Path.resolve` comes to: a path, the error `resolve` catches, or one
it does not, as of a path with a null character. -/
inductive Resolved where
  | path (text : List Char)
  | osError
  | raised
  deriving DecidableEq, Repr

/-- What the reader's language does with text that is not ASCII (bytes that
are no text are replaced, and `\d` knows more digits), and with paths, each as
its text. -/
structure PythonText where
  decode : List UInt8 → List Char
  /-- A decimal digit's value. -/
  digit : Char → Option Nat
  path : List Char → List Char
  isAbsolute : List Char → Bool
  /-- `/`. -/
  join : List Char → List Char → List Char
  pathResolve : List Char → Resolved
  decode_nil : decode [] = []
  decode_ascii : ∀ (text : List UInt8) (byte : UInt8) (rest : List UInt8), byte < 128 →
    decode (text ++ byte :: rest) = decode text ++ Char.ofNat byte.toNat :: decode rest
  digit_ascii : ∀ c : Char, c.toNat < 128 →
    digit c = if c.isDigit then some (c.toNat - 48) else none

/-- Where `splitlines` ends a line. -/
def lineBreak (c : Char) : Bool :=
  [0x0a, 0x0b, 0x0c, 0x0d, 0x1c, 0x1d, 0x1e, 0x85, 0x2028, 0x2029].contains c.toNat

/-- `splitlines`, with the line read so far and whether a return ended the one
before it. -/
def splitlines (line : List Char) (ret : Bool) : List Char → List (List Char)
  | [] => if line = [] then [] else [line]
  | c :: rest =>
      -- a return and a newline end one line
      if ret && c.toNat == 10 then splitlines [] false rest
      else if lineBreak c then line :: splitlines [] (c.toNat == 13) rest
      else splitlines (line ++ [c]) false rest

/-- A `Report`. -/
structure ReadReport where
  kind : List Char
  file : Option (List Char)
  line : Nat
  column : Nat
  proven : Bool
  deriving DecidableEq, Repr

/-- `[a-z-]`. -/
def kindChar (c : Char) : Bool := c == '-' || (97 ≤ c.toNat && c.toNat ≤ 122)

/-- `[0-9a-f]`. -/
def hexChar (c : Char) : Bool :=
  (48 ≤ c.toNat && c.toNat ≤ 57) || (97 ≤ c.toNat && c.toNat ≤ 102)

/-- The digits `int` reads at most. -/
def maxStrDigits : Nat := 4300

/-- `.`. -/
def dotChar (c : Char) : Bool := c != '\n'

namespace PythonText

variable (P : PythonText)

def isDigit (c : Char) : Bool := (P.digit c).isSome

/-- `int` of a run of digits, which raises at a long one. -/
def number (run : List Char) : Option Nat :=
  if maxStrDigits < run.length then none
  else some (run.foldl (fun n c => 10 * n + (P.digit c).getD 0) 0)

/-- `resolve`, where it does not raise. -/
def resolve (cwd : Option (List Char)) (file : List Char) : Option (List Char) :=
  let path := P.path file
  let path :=
    match cwd with
    | some cwd => if P.isAbsolute path then path else P.join cwd path
    | none => path
  match P.pathResolve path with
  | .path path => some path
  | .osError => some path
  | .raised => none

open Pattern in
/-- `:(\d+):(\d+)`. -/
def located : Pattern Char (List Char × List Char) :=
  bind (lit ":".toList) fun _ => bind (many1 P.isDigit) fun line =>
    bind (lit ":".toList) fun _ => map (fun column => (line, column)) (many1 P.isDigit)

open Pattern in
/-- `(?:(.+?):(\d+):(\d+)|<unknown>)`. -/
def place : Pattern Char (Option (List Char × List Char × List Char)) :=
  orElse (bind (few1 dotChar) fun file => map (fun location => some (file, location)) P.located)
    (map (fun _ => none) (lit "<unknown>".toList))

open Pattern in
/-- `_REPORT`. -/
def reportPattern :
    Pattern Char (Option Unit × List Char × Option (List Char × List Char × List Char)) :=
  bind (lit "weavec: ".toList) fun _ => bind (maybe (lit "weavec.proven: ".toList)) fun proven =>
    bind (many1 kindChar) fun kind => bind (lit " at ".toList) fun _ =>
      bind P.place fun place => map (fun _ => (proven, kind, place)) (lit ": ".toList)

end PythonText

open Pattern in
/-- `_FATAL`, up to the text behind the address, which it takes whatever it is. -/
def fatalPattern : Pattern Char (List Char) :=
  bind (lit "weavec: ".toList) fun _ => bind (lit "invalid release".toList) fun _ =>
    bind (lit " of 0x".toList) fun _ => bind (many1 hexChar) fun address =>
      map (fun _ => address) (lit ": ".toList)

namespace PythonText

variable (P : PythonText) (cwd : Option (List Char))

/-- One turn of the loop of `parse_reports`: what it appends, unless it raises. -/
def readLine (line : List Char) : Option (List ReadReport) :=
  match P.reportPattern.first line with
  | some (proven, kind, some (file, number, column)) => do
      let file ← P.resolve cwd file
      let number ← P.number number
      let column ← P.number column
      return [⟨kind, some file, number, column, proven.isSome⟩]
  | some (proven, kind, none) => some [⟨kind, none, 0, 0, proven.isSome⟩]
  | none =>
      if (fatalPattern.first line).isSome then
        some [⟨"invalid-release".toList, none, 0, 0, false⟩]
      else some []

/-- `parse_reports`, unless it raises. -/
def parseReports (output : List UInt8) : Option (List ReadReport) := do
  let reports ← (splitlines [] false (P.decode output)).mapM (P.readLine cwd)
  return reports.flatten

end PythonText

/-! ## Bytes of the runtime's own -/

/-- A printable ASCII byte. -/
def Printable (byte : UInt8) : Prop := 32 ≤ byte.toNat ∧ byte.toNat < 127

instance (byte : UInt8) : Decidable (Printable byte) := inferInstanceAs (Decidable (_ ∧ _))

/-- Such bytes as text. -/
def chars (text : List UInt8) : List Char := text.map fun byte => Char.ofNat byte.toNat

@[simp] theorem chars_append (text rest : List UInt8) :
    chars (text ++ rest) = chars text ++ chars rest := List.map_append

theorem Printable.lt {byte : UInt8} (printable : Printable byte) : byte < 128 := by
  have below := printable.2
  exact UInt8.lt_iff_toNat_lt.mpr (Nat.lt_of_lt_of_le below (by decide))

theorem toNat_char (byte : UInt8) : (Char.ofNat byte.toNat).toNat = byte.toNat := by
  have small := byte.toNat_lt
  have valid : byte.toNat.isValidChar := by
    unfold Nat.isValidChar
    omega
  unfold Char.ofNat
  rw [dif_pos valid]
  unfold Char.toNat Char.ofNatAux
  simp

theorem Printable.clear {byte : UInt8} (printable : Printable byte) :
    lineBreak (Char.ofNat byte.toNat) = false := by
  have all : ∀ n < 127, 32 ≤ n →
      [0x0a, 0x0b, 0x0c, 0x0d, 0x1c, 0x1d, 0x1e, 0x85, 0x2028, 0x2029].contains n = false := by
    decide
  unfold lineBreak
  rw [toNat_char]
  exact all _ printable.2 printable.1

namespace PythonText

variable (P : PythonText)

/-- ASCII text is read as it stands, whatever stands before and behind it. -/
theorem decode_chars {text rest : List UInt8} (ascii : ∀ byte ∈ text, byte < 128) :
    P.decode (text ++ rest) = chars text ++ P.decode rest := by
  induction text with
  | nil => rfl
  | cons byte text inductionHypothesis =>
      have first := P.decode_ascii [] byte (text ++ rest) (ascii byte List.mem_cons_self)
      rw [List.nil_append, P.decode_nil, List.nil_append] at first
      rw [List.cons_append, first,
        inductionHypothesis fun b mem => ascii b (List.mem_cons_of_mem _ mem)]
      rfl

theorem decode_append {file text rest : List UInt8} (nonempty : text ≠ [])
    (ascii : ∀ byte ∈ text, byte < 128) :
    P.decode (file ++ (text ++ rest)) = P.decode file ++ (chars text ++ P.decode rest) := by
  cases text with
  | nil => exact absurd rfl nonempty
  | cons byte text =>
      rw [List.cons_append, P.decode_ascii file byte (text ++ rest) (ascii byte List.mem_cons_self),
        P.decode_chars fun b mem => ascii b (List.mem_cons_of_mem _ mem)]
      rfl

end PythonText

/-! ## Lines one after another -/

theorem splitlines_cons (line : List Char) (ret : Bool) (c : Char) (rest : List Char) :
    splitlines line ret (c :: rest) =
      if ret && c.toNat == 10 then splitlines [] false rest
      else if lineBreak c then line :: splitlines [] (c.toNat == 13) rest
      else splitlines (line ++ [c]) false rest := rfl

theorem splitlines_line {text : List Char} (clear : ∀ c ∈ text, lineBreak c = false)
    (line rest : List Char) (ret : Bool) (start : ret = true → text ≠ []) :
    splitlines line ret (text ++ '\n' :: rest) = (line ++ text) :: splitlines [] false rest := by
  induction text generalizing line ret with
  | nil =>
      have fresh : ret = false := by
        cases ret with
        | false => rfl
        | true => exact absurd rfl (start rfl)
      subst fresh
      rw [List.nil_append, List.append_nil]
      rfl
  | cons c text inductionHypothesis =>
      have plain := clear c List.mem_cons_self
      have other : (c.toNat == 10) = false := by
        by_contra same
        have newline : c.toNat = 10 := by simpa using same
        unfold lineBreak at plain
        rw [newline] at plain
        exact absurd plain (by decide)
      rw [List.cons_append, splitlines_cons, other, Bool.and_false, if_neg Bool.false_ne_true,
        plain, if_neg Bool.false_ne_true,
        inductionHypothesis (fun d mem => clear d (List.mem_cons_of_mem _ mem)) _ _ (by simp)]
      simp

/-- A text that ends with a newline is split apart from what follows. -/
theorem splitlines_append (text line rest : List Char) (ret : Bool) :
    splitlines line ret (text ++ '\n' :: rest) =
      splitlines line ret (text ++ ['\n']) ++ splitlines [] false rest := by
  induction text generalizing line ret with
  | nil =>
      rw [List.nil_append, List.nil_append]
      cases ret <;> rfl
  | cons c text inductionHypothesis =>
      rw [List.cons_append, List.cons_append, splitlines_cons, splitlines_cons]
      split_ifs
      · exact inductionHypothesis _ _
      · rw [inductionHypothesis, List.cons_append]
      · exact inductionHypothesis _ _

theorem PythonText.parseReports_append (P : PythonText) (cwd : Option (List Char))
    (text rest : List UInt8) :
    P.parseReports cwd (text ++ 10 :: rest) = do
      let reports ← P.parseReports cwd (text ++ [10])
      let more ← P.parseReports cwd rest
      return reports ++ more := by
  unfold parseReports
  rw [P.decode_ascii text 10 rest (by decide), P.decode_ascii text 10 [] (by decide), P.decode_nil,
    show Char.ofNat (10 : UInt8).toNat = '\n' from rfl, splitlines_append, List.mapM_append]
  simp [Option.bind_assoc]

/-! ## Numbers -/

theorem printable_digitByte {d : Nat} (small : d < 16) : Printable (digitByte d) := by
  have all : ∀ d < 16, Printable (digitByte d) := by decide
  exact all d small

theorem printable_numeral {value base : Nat} (positive : 0 < base) (small : base ≤ 16) :
    ∀ byte ∈ numeral value base, Printable byte := by
  intro byte mem
  obtain ⟨d, digit, rfl⟩ := List.mem_map.mp mem
  have below := digits_lt positive (List.mem_reverse.mp digit)
  exact printable_digitByte (by omega)

namespace PythonText

variable (P : PythonText)

/-- A digit the runtime writes. -/
theorem digit_digitByte {d : Nat} (small : d < 10) :
    P.digit (Char.ofNat (digitByte d).toNat) = some d := by
  have all : ∀ d < 10, (digitByte d).toNat < 128 ∧ (digitByte d).toNat - 48 = d ∧
      (Char.ofNat (digitByte d).toNat).isDigit = true := by
    decide
  obtain ⟨ascii, value, digit⟩ := all d small
  rw [P.digit_ascii _ (by rw [toNat_char]; exact ascii), if_pos digit, toNat_char, value]

theorem isDigit_numeral (value : Nat) : ∀ c ∈ chars (numeral value 10), P.isDigit c = true := by
  intro c mem
  obtain ⟨byte, own, rfl⟩ := List.mem_map.mp mem
  obtain ⟨d, digit, rfl⟩ := List.mem_map.mp own
  unfold isDigit
  rw [P.digit_digitByte (digits_lt (by decide) (List.mem_reverse.mp digit))]
  rfl

theorem number_numeral {value : Nat} (fits : value < 10 ^ 24) :
    P.number (chars (numeral value 10)) = some value := by
  have same (l : List Nat) (small : ∀ d ∈ l, d < 10) :
      (chars (l.reverse.map digitByte)).foldl (fun n c => 10 * n + (P.digit c).getD 0) 0 =
        l.foldr (fun d n => 10 * n + d) 0 := by
    induction l with
    | nil => rfl
    | cons d l inductionHypothesis =>
        rw [List.foldr_cons,
          ← inductionHypothesis fun e mem => small e (List.mem_cons_of_mem _ mem),
          List.reverse_cons, List.map_append, chars_append, List.foldl_append]
        simp [chars, P.digit_digitByte (small d List.mem_cons_self)]
  have short : ¬ maxStrDigits < (chars (numeral value 10)).length := by
    unfold chars
    rw [List.length_map]
    exact Nat.not_lt.mpr ((numeral_length value 10).trans (by decide))
  unfold number
  rw [if_neg short]
  unfold numeral
  rw [same _ fun d mem => digits_lt (by decide) mem]
  exact congrArg some (digits_value fits)

theorem not_isDigit {c : Char} (ascii : c.toNat < 128) (other : c.isDigit = false) :
    P.isDigit c = false := by
  unfold isDigit
  rw [P.digit_ascii c ascii, other]
  rfl

theorem not_isDigit_colon : P.isDigit ':' = false := P.not_isDigit (by decide) (by decide)

theorem not_isDigit_space : P.isDigit ' ' = false := P.not_isDigit (by decide) (by decide)

/-! ## Locations -/

/-- The text begins as a location's line and column, with what follows them. -/
def Location (text : List Char) : Prop :=
  ∃ line column rest, line ≠ [] ∧ (∀ c ∈ line, P.isDigit c = true) ∧ column ≠ [] ∧
    (∀ c ∈ column, P.isDigit c = true) ∧
      text = ':' :: (line ++ ':' :: (column ++ ':' :: ' ' :: rest))

theorem colon_not_mem {run : List Char} (all : ∀ c ∈ run, P.isDigit c = true) : ':' ∉ run := by
  intro mem
  have digit := all _ mem
  rw [P.not_isDigit_colon] at digit
  cases digit

/-- A location is found in a text before another only if it was there. -/
theorem Location.of_append {text line column more : List Char} (nonempty : text ≠ [])
    (some : line ≠ []) (digits : ∀ c ∈ line, P.isDigit c = true) (some' : column ≠ [])
    (digits' : ∀ c ∈ column, P.isDigit c = true)
    (found : P.Location (text ++ ':' :: (line ++ ':' :: (column ++ ':' :: ' ' :: more)))) :
    P.Location text := by
  obtain ⟨l, c, rest, some₁, digits₁, some₂, digits₂, eq⟩ := found
  have space {run rest' rest'' : List Char} (filled : run ≠ [])
      (all : ∀ c ∈ run, P.isDigit c = true) : ' ' :: rest' ≠ run ++ rest'' := by
    intro same
    cases run with
    | nil => exact filled rfl
    | cons d run =>
        obtain ⟨rfl, -⟩ := List.cons.inj same
        have digit := all _ List.mem_cons_self
        rw [P.not_isDigit_space] at digit
        cases digit
  cases text with
  | nil => exact absurd rfl nonempty
  | cons first text =>
      rw [List.cons_append] at eq
      obtain ⟨rfl, tail⟩ := List.cons.inj eq
      rcases split_at_mark (P.colon_not_mem digits₁) tail.symm with ⟨rfl, next⟩ | ⟨t, rfl, next⟩
      · -- the two numbers found would be the text's end and the line
        rcases split_at_mark (P.colon_not_mem digits₂) next with ⟨rfl, last⟩ | ⟨t, rfl, last⟩
        · exact absurd last (space some' digits')
        · exact absurd (List.mem_append_right _ List.mem_cons_self) (P.colon_not_mem digits)
      · rcases split_at_mark (P.colon_not_mem digits₂) next with ⟨rfl, last⟩ | ⟨t', rfl, last⟩
        · exact absurd last (space some digits)
        · cases t' with
          | nil =>
              obtain ⟨clash, -⟩ := List.cons.inj last
              exact absurd clash (by decide)
          | cons d t' =>
              obtain ⟨rfl, -⟩ := List.cons.inj last
              exact ⟨l, c, t', some₁, digits₁, some₂, digits₂, rfl⟩

/-! ## What the pattern matches -/

section Matches

open Pattern

variable {P} {α β : Type}

theorem bind_located {line column more : List Char} (some : line ≠ [])
    (digits : ∀ c ∈ line, P.isDigit c = true) (some' : column ≠ [])
    (digits' : ∀ c ∈ column, P.isDigit c = true)
    {k : List Char × List Char → Pattern Char β}
    (next : ∀ found c text, P.isDigit c = true → k found (c :: text) = []) :
    bind P.located k (':' :: (line ++ ':' :: (column ++ ':' :: more))) =
      k (line, column) (':' :: more) := by
  have colon {c : Char} (digit : P.isDigit c = true) : ':' ≠ c := by
    rintro rfl
    rw [P.not_isDigit_colon] at digit
    cases digit
  have stop (text : List Char) : ∀ c ∈ (':' :: text).head?, P.isDigit c = false := by
    intro c mem
    obtain rfl := Option.some.inj mem
    exact P.not_isDigit_colon
  unfold located
  rw [bind_assoc]
  refine (bind_lit_single ':' _ _).trans ?_
  rw [bind_assoc, bind_many1 some digits (stop _) fun w c text digit => by
    rw [bind_assoc]
    exact bind_of_nil (lit_of_ne (colon digit) _ _) _]
  rw [bind_assoc]
  refine (bind_lit_single ':' _ _).trans ?_
  rw [bind_map]
  exact bind_many1 some' digits' (stop _) fun w c text digit => next _ _ _ digit

/-- Where there is no location, none is found. -/
theorem bind_located_of_not {text : List Char} (not : ¬ P.Location text)
    (f : List Char × List Char → Unit → β) :
    bind P.located (fun found => map (f found) (lit ": ".toList)) text = [] := by
  refine List.eq_nil_iff_forall_not_mem.mpr fun m mem => not ?_
  obtain ⟨⟨line, column⟩, behind, located, last⟩ := mem_bind mem
  obtain ⟨_, closes, _⟩ := mem_map last
  obtain ⟨_, t₁, opens, located⟩ := mem_bind located
  obtain ⟨line', t₂, lineRun, located⟩ := mem_bind located
  obtain ⟨_, t₃, parts, located⟩ := mem_bind located
  obtain ⟨column', columnRun, same⟩ := mem_map located
  obtain ⟨rfl, rfl⟩ := Prod.mk.inj same
  obtain ⟨rfl, some, digits⟩ := mem_many1 lineRun
  obtain ⟨rfl, some', digits'⟩ := mem_many1 columnRun
  refine ⟨line', column', m.2, some, digits, some', digits', ?_⟩
  rw [mem_lit opens, mem_lit parts, mem_lit closes]
  rfl

/-- A file name that the pattern takes whole: no text that looks like a
location stands in it behind its first character. -/
def FileName (P : PythonText) (file : List Char) : Prop :=
  file ≠ [] ∧ (∀ c ∈ file, lineBreak c = false) ∧
    ∀ start rest, start ≠ [] → rest ≠ [] → file = start ++ rest → ¬ P.Location rest

theorem dotChar_of_clear {c : Char} (clear : lineBreak c = false) : dotChar c = true := by
  unfold dotChar
  rw [bne_iff_ne]
  rintro rfl
  exact absurd clear (by decide)

theorem bind_place_some {file line column more : List Char} (named : FileName P file)
    (some : line ≠ []) (digits : ∀ c ∈ line, P.isDigit c = true) (some' : column ≠ [])
    (digits' : ∀ c ∈ column, P.isDigit c = true)
    (f : Option (List Char × List Char × List Char) → Unit → β) :
    ∃ others, bind P.place (fun place => map (f place) (lit ": ".toList))
        (file ++ ':' :: (line ++ ':' :: (column ++ ':' :: ' ' :: more))) =
      (f (.some (file, line, column)) (), more) :: others := by
  obtain ⟨nonempty, clear, whole⟩ := named
  unfold place
  rw [bind_orElse, bind_assoc]
  obtain ⟨others, found⟩ := @bind_few1 Char β dotChar file
    (':' :: (line ++ ':' :: (column ++ ':' :: ' ' :: more)))
    (fun file => bind (map (fun location => Option.some (file, location)) P.located)
      fun place => map (f place) (lit ": ".toList))
    nonempty (fun c mem => dotChar_of_clear (clear c mem))
    (fun w t filled filled' split => by
      rw [bind_map]
      exact bind_located_of_not (fun location => whole w t filled filled' split
        (location.of_append P filled' some digits some' digits')) _)
  unfold orElse
  rw [found, bind_map, bind_located some digits some' digits' fun found c text digit => by
    unfold map
    rw [show ": ".toList = ':' :: [' '] from rfl, lit_of_ne]
    · rfl
    · rintro rfl
      rw [P.not_isDigit_colon] at digit
      cases digit]
  unfold map
  rw [show (':' :: ' ' :: more) = ": ".toList ++ more from rfl, lit_append]
  exact ⟨_, rfl⟩

/-- A location has two colons behind its file's name: a text with one has no
location. -/
theorem bind_place_of_count {text : List Char} (single : text.count ':' ≤ 1)
    (f : Option (List Char × List Char × List Char) → Unit → β) :
    bind P.place (fun place => map (f place) (lit ": ".toList)) text =
      bind (lit "<unknown>".toList) (fun _ => map (f none) (lit ": ".toList)) text := by
  have nowhere : bind (bind (few1 dotChar) fun file =>
      map (fun location => Option.some (file, location)) P.located)
        (fun place => map (f place) (lit ": ".toList)) text = [] := by
    refine List.eq_nil_iff_forall_not_mem.mpr fun m mem => ?_
    rw [bind_assoc] at mem
    obtain ⟨file, t, taken, located⟩ := mem_bind mem
    rw [bind_map] at located
    by_cases location : P.Location t
    · obtain ⟨line, column, rest, -, -, -, -, rfl⟩ := location
      have split := congrArg (List.count ':') (mem_few1 taken).1
      simp only [List.count_append, List.count_cons_self] at split
      omega
    · rw [bind_located_of_not location] at located
      cases located
  unfold place
  rw [bind_orElse]
  unfold orElse
  rw [nowhere, List.nil_append, bind_map]

theorem bind_place_none {more : List Char} (single : ':' ∉ more)
    (f : Option (List Char × List Char × List Char) → Unit → β) :
    bind P.place (fun place => map (f place) (lit ": ".toList))
      ("<unknown>: ".toList ++ more) = [(f none (), more)] := by
  have count : ("<unknown>: ".toList ++ more).count ':' ≤ 1 := by
    rw [List.count_append, List.count_eq_zero.mpr single]
    decide
  rw [bind_place_of_count count]
  refine (bind_lit "<unknown>".toList (": ".toList ++ more) _).trans ?_
  unfold map
  rw [lit_append]
  rfl

/-- A kind, and what stands in front of a place. -/
theorem bind_kind {kind text : List Char} (filled : kind ≠ [])
    (letters : ∀ c ∈ kind, kindChar c = true) (k : List Char → Pattern Char β) :
    bind (many1 kindChar) (fun kind => bind (lit " at ".toList) fun _ => k kind)
      (kind ++ (" at ".toList ++ text)) = k kind text := by
  have space : kindChar ' ' = false := by decide
  rw [bind_many1 filled letters]
  · rw [bind_lit]
  · intro c mem
    obtain rfl := Option.some.inj mem
    exact space
  · intro w c text letter
    rw [show " at ".toList = ' ' :: ['a', 't', ' '] from rfl]
    refine bind_of_nil (lit_of_ne ?_ _ _) _
    rintro rfl
    rw [space] at letter
    cases letter

/-- No kind begins as the mark in front of it does. -/
theorem lit_mark_of_kind {kind : List Char} (filled : kind ≠ []) (start : kind.head? ≠ some 'w')
    (text : List Char) : lit "weavec.proven: ".toList (kind ++ text) = [] := by
  cases kind with
  | nil => exact absurd rfl filled
  | cons c kind =>
      rw [show "weavec.proven: ".toList = 'w' :: "eavec.proven: ".toList from rfl]
      refine lit_of_ne ?_ _ _
      rintro rfl
      exact start rfl

/-- The text in front of a place is matched as it was written. -/
theorem reportPattern_first {kind text : List Char} {proven : Bool} (filled : kind ≠ [])
    (letters : ∀ c ∈ kind, kindChar c = true) (start : kind.head? ≠ some 'w')
    {found : Option (List Char × List Char × List Char)} {more : List Char}
    (placed : ∀ f : Option (List Char × List Char × List Char) → Unit →
        Option Unit × List Char × Option (List Char × List Char × List Char),
      ∃ others, bind P.place (fun place => map (f place) (lit ": ".toList)) text =
        (f found (), more) :: others) :
    P.reportPattern.first ("weavec: ".toList ++
        ((if proven then "weavec.proven: ".toList else []) ++
          (kind ++ (" at ".toList ++ text)))) =
      some (if proven then some () else none, kind, found) := by
  have kinds (mark : Option Unit) : ∃ others,
      bind (many1 kindChar) (fun kind => bind (lit " at ".toList) fun _ =>
        bind P.place fun place => map (fun _ => (mark, kind, place)) (lit ": ".toList))
          (kind ++ (" at ".toList ++ text)) = ((mark, kind, found), more) :: others := by
    rw [bind_kind filled letters]
    exact placed fun place _ => (mark, kind, place)
  unfold reportPattern
  cases proven with
  | true =>
      obtain ⟨others, matched⟩ := kinds (some ())
      rw [if_pos rfl, if_pos rfl]
      apply first_of_eq
      rw [bind_lit, bind_maybe, bind_lit, matched]
      rfl
  | false =>
      obtain ⟨others, matched⟩ := kinds none
      rw [if_neg (by decide), if_neg (by decide), List.nil_append]
      apply first_of_eq
      rw [bind_lit, bind_maybe, bind_of_nil (lit_mark_of_kind filled start _), List.nil_append,
        matched]

end Matches

end PythonText

/-! ## The runtime's lines -/

/-- A byte of the runtime's own that is no colon. -/
def Mute (byte : UInt8) : Prop := Printable byte ∧ byte ≠ 58

instance (byte : UInt8) : Decidable (Mute byte) := inferInstanceAs (Decidable (_ ∧ _))

theorem mute_numeral {value base : Nat} (positive : 0 < base) (small : base ≤ 16) :
    ∀ byte ∈ numeral value base, Mute byte := by
  intro byte mem
  have all : ∀ d < 16, Mute (digitByte d) := by decide
  obtain ⟨d, digit, rfl⟩ := List.mem_map.mp mem
  have below := digits_lt positive (List.mem_reverse.mp digit)
  exact all d (by omega)

theorem chars_ascii {text : String} (small : text.toList.all (·.toNat < 128) = true) :
    chars (ascii text) = text.toList := by
  unfold chars ascii
  rw [List.map_map]
  refine (List.map_congr_left fun c mem => ?_).trans (List.map_id _)
  have value : (UInt8.ofNat c.toNat).toNat = c.toNat := by
    rw [UInt8.toNat_ofNat']
    have ascii := of_decide_eq_true (List.all_eq_true.mp small c mem)
    exact Nat.mod_eq_of_lt (Nat.lt_trans ascii (by decide))
  dsimp only [Function.comp_apply]
  rw [value, Char.ofNat_toNat]
  rfl

/-- The bytes of a text, tested one by one. -/
theorem forall_ascii {text : String} {p : UInt8 → Prop} [DecidablePred p]
    (all : (ascii text).all (p ·) = true) : ∀ byte ∈ ascii text, p byte :=
  fun byte mem => of_decide_eq_true (List.all_eq_true.mp all byte mem)

/-- Pieces of a list that meet a condition. -/
theorem forall_mem_append_of {α : Type} {p : α → Prop} {xs ys : List α} (left : ∀ x ∈ xs, p x)
    (right : ∀ x ∈ ys, p x) : ∀ x ∈ xs ++ ys, p x := by
  intro x mem
  exact (List.mem_append.mp mem).elim (left x) (right x)

/-- What stands behind a report's location has no colon. -/
theorem mute_reportTail (kind : String) (address width : Nat) (site : Option Site) :
    ∀ byte ∈ reportTail kind address width site, Mute byte := by
  have decimal (value : Nat) := @mute_numeral value 10 (by decide) (by decide)
  have hex (value : Nat) := @mute_numeral value 16 (by decide) (by decide)
  unfold reportTail
  split_ifs
  · exact forall_mem_append_of (forall_ascii (by decide))
      (forall_mem_append_of (forall_ascii (by decide)) (decimal _))
  · exact forall_mem_append_of (forall_ascii (by decide)) (decimal _)
  · exact forall_mem_append_of (forall_ascii (by decide))
      (forall_mem_append_of (forall_ascii (by decide)) (hex _))
  all_goals
    exact forall_mem_append_of (forall_ascii (by decide))
      (forall_mem_append_of (forall_ascii (by decide))
      (forall_mem_append_of (decimal _) (forall_mem_append_of (forall_ascii (by decide))
        (forall_mem_append_of (forall_ascii (by decide)) (hex _)))))

/-- What a kind's name is made of. -/
theorem kinds_spec : ∀ kind ∈ kinds, (∀ byte ∈ ascii kind, Mute byte) ∧
    chars (ascii kind) = kind.toList ∧ (ascii kind).length ≤ 29 ∧ kind.toList ≠ [] ∧
      (∀ c ∈ kind.toList, kindChar c = true) ∧ kind.toList.head? ≠ some 'w' := by
  have all : ∀ kind ∈ kinds, (ascii kind).all (Mute ·) = true ∧
      chars (ascii kind) = kind.toList ∧ (ascii kind).length ≤ 29 ∧ kind.toList ≠ [] ∧
        kind.toList.all kindChar = true ∧ kind.toList.head? ≠ some 'w' := by
    decide +kernel
  intro kind known
  obtain ⟨mute, same, short, filled, letters, start⟩ := all kind known
  exact ⟨forall_ascii mute, same, short, filled, List.all_eq_true.mp letters, start⟩

namespace Emission

variable (P : PythonText) (cwd : Option (List Char))

/-- What the case runner should read of a line. -/
def read : Emission → Option ReadReport
  | .report kind _ _ site =>
      match Site.nameOf site with
      | some file => (P.resolve cwd (P.decode file)).map fun path =>
          ⟨kind.toList, some path, Site.lineOf site, Site.columnOf site, Site.proven site⟩
      | none => some ⟨kind.toList, none, 0, 0, Site.proven site⟩
  | .fatal _ _ => some ⟨"invalid-release".toList, none, 0, 0, false⟩
  | _ => none

/-- The line is one of the runtime's; a report's file has a name that can be
told from the line and column behind it, they fit the line, and the name
resolves to a path. -/
def Readable : Emission → Prop
  | .report kind _ _ site =>
      kind ∈ kinds ∧ ∀ file, Site.nameOf site = some file →
        P.FileName (P.decode file) ∧ (reportHead kind site).length ≤ 1023 ∧
          (P.resolve cwd (P.decode file)).isSome
  | .range _ _ _ noun => noun ∈ nouns
  | .fatal _ why => why ∈ whys
  | _ => True

end Emission

namespace PythonText

variable {P : PythonText} {cwd : Option (List Char)}

/-- One whole line, and what is read of it. -/
theorem parseReports_line {text : List UInt8} (clear : ∀ c ∈ P.decode text, lineBreak c = false) :
    P.parseReports cwd (text ++ [10]) = P.readLine cwd (P.decode text) := by
  unfold parseReports
  rw [P.decode_ascii text 10 [] (by decide), P.decode_nil]
  have one := splitlines_line clear [] [] false (by simp)
  rw [List.nil_append] at one
  refine (congrArg (fun lines => lines.mapM (P.readLine cwd) >>= fun reports =>
    pure reports.flatten) one).trans ?_
  change [P.decode text].mapM (P.readLine cwd) >>= _ = _
  rw [List.mapM_cons, List.mapM_nil]
  cases P.readLine cwd (P.decode text) with
  | none => rfl
  | some reports => exact congrArg some (List.append_nil reports)

theorem clear_chars {text : List UInt8} (printable : ∀ byte ∈ text, Printable byte) :
    ∀ c ∈ chars text, lineBreak c = false := by
  intro c mem
  obtain ⟨byte, own, rfl⟩ := List.mem_map.mp mem
  exact (printable byte own).clear

theorem decode_printable {text : List UInt8} (printable : ∀ byte ∈ text, Printable byte) :
    P.decode text = chars text := by
  have same := @P.decode_chars text [] fun byte mem => (printable byte mem).lt
  rw [P.decode_nil, List.append_nil, List.append_nil] at same
  exact same

theorem colon_not_mem_chars {text : List UInt8} (mute : ∀ byte ∈ text, Mute byte) :
    ':' ∉ chars text := by
  intro mem
  obtain ⟨byte, own, same⟩ := List.mem_map.mp mem
  have value := congrArg Char.toNat same
  rw [toNat_char] at value
  exact (mute byte own).2 (UInt8.toNat_inj.mp value)

/-! ## Each line is read as it was meant -/

/-- The texts in front of a report's place. -/
theorem chars_lead (kind : String) (known : kind ∈ kinds) (proven : Bool) (text : List Char) :
    chars (ascii "weavec: ") ++ (chars (if proven then ascii "weavec.proven: " else []) ++
        (chars (ascii kind) ++ (chars (ascii " at ") ++ text))) =
      "weavec: ".toList ++ ((if proven then "weavec.proven: ".toList else []) ++
        (kind.toList ++ (" at ".toList ++ text))) := by
  rw [(kinds_spec kind known).2.1, chars_ascii (by decide), chars_ascii (by decide)]
  cases proven with
  | true => rw [if_pos rfl, if_pos rfl, chars_ascii (by decide)]
  | false => rfl

theorem readLine_named {kind : String} (known : kind ∈ kinds) {proven : Bool}
    {file path : List Char} (named : P.FileName file) (resolved : P.resolve cwd file = some path)
    {line column : Nat} (small : line < 10 ^ 24) (small' : column < 10 ^ 24) (more : List Char) :
    P.readLine cwd ("weavec: ".toList ++ ((if proven then "weavec.proven: ".toList else []) ++
        (kind.toList ++ (" at ".toList ++ (file ++ ':' :: (chars (numeral line 10) ++
          ':' :: (chars (numeral column 10) ++ ':' :: ' ' :: more))))))) =
      some [⟨kind.toList, some path, line, column, proven⟩] := by
  obtain ⟨-, -, -, filled, letters, start⟩ := kinds_spec kind known
  have written (value : Nat) : chars (numeral value 10) ≠ [] := by
    simpa [chars] using numeral_ne_nil value 10
  have matched := @reportPattern_first P _ _ proven filled letters start _ more fun f =>
    bind_place_some named (written line) (P.isDigit_numeral line) (written column)
      (P.isDigit_numeral column) f
  unfold readLine
  rw [matched]
  dsimp only
  rw [resolved, P.number_numeral small, P.number_numeral small']
  cases proven <;> rfl

theorem readLine_nameless {kind : String} (known : kind ∈ kinds) {proven : Bool}
    {more : List Char} (single : ':' ∉ more) :
    P.readLine cwd ("weavec: ".toList ++ ((if proven then "weavec.proven: ".toList else []) ++
        (kind.toList ++ (" at ".toList ++ ("<unknown>: ".toList ++ more))))) =
      some [⟨kind.toList, none, 0, 0, proven⟩] := by
  obtain ⟨-, -, -, filled, letters, start⟩ := kinds_spec kind known
  have matched := @reportPattern_first P _ _ proven filled letters start _ more fun f =>
    ⟨[], bind_place_none single f⟩
  unfold readLine
  rw [matched]
  cases proven <;> rfl

/-- A report whose location fits its line. -/
theorem reportLine_cut {kind : String} {address width : Nat} {site : Option Site}
    (fits : (reportHead kind site).length ≤ 1023) :
    ∃ rest, (∀ byte ∈ rest, Mute byte) ∧
      (Emission.report kind address width site).text = (reportHead kind site ++ rest) ++ [10] := by
  refine ⟨(reportTail kind address width site).take (1023 - (reportHead kind site).length),
    fun byte mem => mute_reportTail kind address width site byte (List.mem_of_mem_take mem), ?_⟩
  rw [Emission.text_eq]
  change (reportHead kind site ++ reportTail kind address width site).take 1023 ++ [10] = _
  rw [List.take_append, List.take_of_length_le fits]

theorem printable_kind {kind : String} (known : kind ∈ kinds) :
    ∀ byte ∈ ascii kind, Printable byte :=
  fun byte mem => ((kinds_spec kind known).1 byte mem).1

theorem printable_mark (proven : Bool) :
    ∀ byte ∈ if proven then ascii "weavec.proven: " else [], Printable byte := by
  cases proven with
  | true => exact forall_ascii (by decide)
  | false => simp

theorem parseReports_named {kind : String} {address width : Nat} {site : Option Site}
    {file : CString} {path : List Char} (known : kind ∈ kinds)
    (name : Site.nameOf site = some file) (named : P.FileName (P.decode file))
    (resolved : P.resolve cwd (P.decode file) = some path)
    (fits : (reportHead kind site).length ≤ 1023) :
    P.parseReports cwd (Emission.report kind address width site).text =
      some [⟨kind.toList, some path, Site.lineOf site, Site.columnOf site, Site.proven site⟩] := by
  obtain ⟨rest, mute, text⟩ := @reportLine_cut kind address width site fits
  have lead : ∀ byte ∈ ascii "weavec: " ++
      ((if Site.proven site then ascii "weavec.proven: " else []) ++
        (ascii kind ++ ascii " at ")), Printable byte :=
    forall_mem_append_of (forall_ascii (by decide)) (forall_mem_append_of (printable_mark _)
      (forall_mem_append_of (printable_kind known) (forall_ascii (by decide))))
  have behind : ∀ byte ∈ ascii ":" ++ (numeral (Site.lineOf site) 10 ++ (ascii ":" ++
      (numeral (Site.columnOf site) 10 ++ (ascii ": " ++ rest)))), Printable byte :=
    forall_mem_append_of (forall_ascii (by decide))
      (forall_mem_append_of (printable_numeral (by decide) (by decide))
        (forall_mem_append_of (forall_ascii (by decide))
          (forall_mem_append_of (printable_numeral (by decide) (by decide))
            (forall_mem_append_of (forall_ascii (by decide)) fun byte mem => (mute byte mem).1))))
  have parts : reportHead kind site ++ rest =
      (ascii "weavec: " ++ ((if Site.proven site then ascii "weavec.proven: " else []) ++
        (ascii kind ++ ascii " at "))) ++ (file ++ ((ascii ":" ++ (numeral (Site.lineOf site) 10 ++
          (ascii ":" ++ (numeral (Site.columnOf site) 10 ++ (ascii ": " ++ rest))))) ++ [])) := by
    unfold reportHead
    rw [name]
    simp only [List.append_assoc, List.append_nil]
  have decoded : P.decode (reportHead kind site ++ rest) =
      chars (ascii "weavec: ") ++
        (chars (if Site.proven site then ascii "weavec.proven: " else []) ++
        (chars (ascii kind) ++ (chars (ascii " at ") ++ (P.decode file ++
          ':' :: (chars (numeral (Site.lineOf site) 10) ++ ':' ::
            (chars (numeral (Site.columnOf site) 10) ++ ':' :: ' ' :: chars rest)))))) := by
    rw [parts, P.decode_chars fun byte mem => (lead byte mem).lt,
      P.decode_append (by simp [ascii]) fun byte mem => (behind byte mem).lt, P.decode_nil]
    simp only [chars_append, List.append_assoc, List.append_nil]
    rfl
  have clear : ∀ c ∈ P.decode (reportHead kind site ++ rest), lineBreak c = false := by
    rw [parts, P.decode_chars fun byte mem => (lead byte mem).lt,
      P.decode_append (by simp [ascii]) fun byte mem => (behind byte mem).lt, P.decode_nil,
      List.append_nil]
    exact forall_mem_append_of (clear_chars lead)
      (forall_mem_append_of named.2.1 (clear_chars behind))
  have small : Site.lineOf site < 10 ^ 24 ∧ Site.columnOf site < 10 ^ 24 := by
    cases site with
    | none => exact ⟨by decide, by decide⟩
    | some site =>
        exact ⟨site.line.toNat_lt.trans (by decide), site.column.toNat_lt.trans (by decide)⟩
  rw [text, parseReports_line clear, decoded, chars_lead kind known,
    readLine_named known named resolved small.1 small.2]

theorem parseReports_nameless {kind : String} {address width : Nat} {site : Option Site}
    (known : kind ∈ kinds) (name : Site.nameOf site = none) :
    P.parseReports cwd (Emission.report kind address width site).text =
      some [⟨kind.toList, none, 0, 0, Site.proven site⟩] := by
  have head : reportHead kind site = ascii "weavec: " ++
      ((if Site.proven site then ascii "weavec.proven: " else []) ++ (ascii kind ++ (ascii " at " ++
        (ascii "<unknown>" ++ ascii ": ")))) := by
    unfold reportHead
    rw [name]
  have fits : (reportHead kind site).length ≤ 1023 := by
    have short := (kinds_spec kind known).2.2.1
    have texts : (ascii "weavec: ").length = 8 ∧ (ascii " at ").length = 4 ∧
        (ascii "<unknown>").length = 9 ∧ (ascii ": ").length = 2 := by decide
    have mark : (if Site.proven site then ascii "weavec.proven: " else []).length ≤ 15 := by
      cases Site.proven site <;> decide
    rw [head]
    simp only [List.length_append]
    omega
  obtain ⟨rest, mute, text⟩ := @reportLine_cut kind address width site fits
  have printable : ∀ byte ∈ reportHead kind site ++ rest, Printable byte := by
    rw [head]
    exact forall_mem_append_of (forall_mem_append_of (forall_ascii (by decide))
      (forall_mem_append_of (printable_mark _) (forall_mem_append_of (printable_kind known)
        (forall_mem_append_of (forall_ascii (by decide))
          (forall_mem_append_of (forall_ascii (by decide))
            (forall_ascii (by decide))))))) fun byte mem => (mute byte mem).1
  have decoded : P.decode (reportHead kind site ++ rest) =
      chars (ascii "weavec: ") ++
        (chars (if Site.proven site then ascii "weavec.proven: " else []) ++
          (chars (ascii kind) ++ (chars (ascii " at ") ++
            ("<unknown>: ".toList ++ chars rest)))) := by
    have place : chars (ascii "<unknown>") ++ chars (ascii ": ") = "<unknown>: ".toList := by
      rw [chars_ascii (by decide), chars_ascii (by decide)]
      decide
    rw [decode_printable printable, head, ← place]
    simp only [chars_append, List.append_assoc]
  rw [text, parseReports_line (by rw [decode_printable printable]; exact clear_chars printable),
    decoded, chars_lead kind known, readLine_nameless known (colon_not_mem_chars mute)]

/-! ## Second lines, invalid releases and faults -/

open Pattern in
/-- A line that goes on with a number is no report. -/
theorem readLine_number (rest : List Char) :
    P.readLine cwd ("weavec: ".toList ++ '0' :: rest) = some [] := by
  have report : P.reportPattern.first ("weavec: ".toList ++ '0' :: rest) = none := by
    refine first_of_nil ?_
    have unmarked : lit "weavec.proven: ".toList ('0' :: rest) = [] := by
      rw [show "weavec.proven: ".toList = 'w' :: "eavec.proven: ".toList from rfl]
      exact lit_of_ne (by decide) _ _
    have unnamed : many1 kindChar ('0' :: rest) = [] := many1_of_stop fun c mem => by
      obtain rfl := Option.some.inj mem
      decide
    unfold reportPattern
    rw [bind_lit, bind_maybe, bind_of_nil unmarked, bind_of_nil unnamed]
    rfl
  have fatal : fatalPattern.first ("weavec: ".toList ++ '0' :: rest) = none := by
    refine first_of_nil ?_
    unfold fatalPattern
    rw [bind_lit, show "invalid release".toList = 'i' :: "nvalid release".toList from rfl]
    exact bind_of_nil (lit_of_ne (by decide) _ _) _
  unfold readLine
  rw [report, fatal]
  rfl

theorem parseReports_number {rest : List UInt8} (printable : ∀ byte ∈ rest, Printable byte) :
    P.parseReports cwd ((ascii "weavec: " ++ (ascii "0x" ++ rest)) ++ [10]) = some [] := by
  have all : ∀ byte ∈ ascii "weavec: " ++ (ascii "0x" ++ rest), Printable byte :=
    forall_mem_append_of (forall_ascii (by decide))
      (forall_mem_append_of (forall_ascii (by decide)) printable)
  have decoded : P.decode (ascii "weavec: " ++ (ascii "0x" ++ rest)) =
      "weavec: ".toList ++ '0' :: ('x' :: chars rest) := by
    rw [decode_printable all, chars_append, chars_append, chars_ascii (by decide)]
    rfl
  rw [parseReports_line (by rw [decode_printable all]; exact clear_chars all), decoded,
    readLine_number]

open Pattern in
theorem readLine_fatal (p : Nat) (rest : List Char) :
    P.readLine cwd ("weavec: ".toList ++ ("invalid release".toList ++ (" of 0x".toList ++
        (chars (numeral p 16) ++ (": ".toList ++ rest))))) =
      some [⟨"invalid-release".toList, none, 0, 0, false⟩] := by
  generalize behind : " of 0x".toList ++ (chars (numeral p 16) ++ (": ".toList ++ rest)) = more
  have report :
      P.reportPattern.first ("weavec: ".toList ++ ("invalid release".toList ++ more)) = none := by
    refine first_of_nil ?_
    have unmarked : lit "weavec.proven: ".toList ("invalid release".toList ++ more) = [] := by
      rw [show "weavec.proven: ".toList = 'w' :: "eavec.proven: ".toList from rfl,
        show "invalid release".toList = 'i' :: "nvalid release".toList from rfl, List.cons_append]
      exact lit_of_ne (by decide) _ _
    unfold reportPattern
    rw [bind_lit, bind_maybe, bind_of_nil unmarked, List.nil_append,
      show "invalid release".toList ++ more =
        "invalid".toList ++ (' ' :: 'r' :: ("elease".toList ++ more)) from rfl,
      bind_many1 (by decide) (List.all_eq_true.mp (by decide))]
    · refine bind_of_nil ?_ _
      unfold lit
      rw [show " at ".toList = [' ', 'a', 't', ' '] from rfl, if_neg]
      intro start
      exact absurd (List.cons_prefix_cons.mp (List.cons_prefix_cons.mp start).2).1 (by decide)
    · intro c mem
      obtain rfl := Option.some.inj mem
      decide
    · intro w c text letter
      rw [show " at ".toList = ' ' :: ['a', 't', ' '] from rfl]
      refine bind_of_nil (lit_of_ne ?_ _ _) _
      rintro rfl
      exact absurd letter (by decide)
  have digits : ∀ c ∈ chars (numeral p 16), hexChar c = true := by
    intro c mem
    obtain ⟨byte, own, rfl⟩ := List.mem_map.mp mem
    obtain ⟨d, digit, rfl⟩ := List.mem_map.mp own
    have all : ∀ d < 16, hexChar (Char.ofNat (digitByte d).toNat) = true := by decide
    exact all d (digits_lt (by decide) (List.mem_reverse.mp digit))
  have fatal : fatalPattern.first ("weavec: ".toList ++ ("invalid release".toList ++ more)) =
      some (chars (numeral p 16)) := by
    apply first_of_eq
    unfold fatalPattern
    rw [bind_lit, bind_lit, ← behind, bind_lit, bind_many1 _ digits]
    · unfold map
      rw [lit_append]
      rfl
    · intro c mem
      obtain rfl := Option.some.inj mem
      decide
    · intro w c text letter
      unfold map
      rw [show ": ".toList = ':' :: [' '] from rfl, lit_of_ne]
      · rfl
      · rintro rfl
        exact absurd letter (by decide)
    · simpa [chars] using numeral_ne_nil p 16
  unfold readLine
  rw [report, fatal]
  rfl

theorem parseReports_fatal {p : Nat} {why : String} (known : why ∈ whys) :
    P.parseReports cwd (Emission.fatal p why).text =
      some [⟨"invalid-release".toList, none, 0, 0, false⟩] := by
  have printable : ∀ byte ∈ ascii why, Printable byte := by
    have all : ∀ why ∈ whys, (ascii why).all (Printable ·) = true := by decide
    exact forall_ascii (all why known)
  have all : ∀ byte ∈ (Emission.fatal p why).body, Printable byte :=
    forall_mem_append_of (forall_ascii (by decide))
      (forall_mem_append_of (forall_ascii (by decide))
      (forall_mem_append_of (forall_ascii (by decide))
      (forall_mem_append_of (forall_ascii (by decide))
        (forall_mem_append_of (printable_numeral (by decide) (by decide))
          (forall_mem_append_of (forall_ascii (by decide)) printable)))))
  have whole : (Emission.fatal p why).text = (Emission.fatal p why).body ++ [10] :=
    Emission.text_whole (by simp) (by simp) fun p' why' same => by
      cases same
      exact known
  have decoded : P.decode (Emission.fatal p why).body =
      "weavec: ".toList ++ ("invalid release".toList ++ (" of 0x".toList ++
        (chars (numeral p 16) ++ (": ".toList ++ chars (ascii why))))) := by
    have of : chars (ascii " of ") ++ chars (ascii "0x") = " of 0x".toList := by
      rw [chars_ascii (by decide), chars_ascii (by decide)]
      decide
    rw [decode_printable all, ← of, ← @chars_ascii "weavec: " (by decide),
      ← @chars_ascii "invalid release" (by decide), ← @chars_ascii ": " (by decide)]
    unfold Emission.body
    simp only [chars_append, List.append_assoc]
  rw [whole, parseReports_line (by rw [decode_printable all]; exact clear_chars all), decoded,
    readLine_fatal]

open Pattern in
/-- A kind with no place behind it makes no report. -/
theorem readLine_placeless {kind text : List Char} (filled : kind ≠ [])
    (letters : ∀ c ∈ kind, kindChar c = true) (start : kind.head? ≠ some 'w')
    (start' : kind.head? ≠ some 'i') (single : text.count ':' ≤ 1)
    (named : text.head? ≠ some '<') :
    P.readLine cwd ("weavec: ".toList ++ (kind ++ (" at ".toList ++ text))) = some [] := by
  have report :
      P.reportPattern.first ("weavec: ".toList ++ (kind ++ (" at ".toList ++ text))) = none := by
    refine first_of_nil ?_
    have unplaced : lit "<unknown>".toList text = [] := by
      cases text with
      | nil => decide
      | cons c text =>
          rw [show "<unknown>".toList = '<' :: "unknown>".toList from rfl]
          refine lit_of_ne ?_ _ _
          rintro rfl
          exact named rfl
    unfold reportPattern
    rw [bind_lit, bind_maybe, bind_of_nil (lit_mark_of_kind filled start _), List.nil_append,
      bind_kind filled letters, bind_place_of_count single fun place _ => (none, kind, place),
      bind_of_nil unplaced]
  have fatal : fatalPattern.first ("weavec: ".toList ++ (kind ++ (" at ".toList ++ text))) =
      none := by
    refine first_of_nil ?_
    unfold fatalPattern
    rw [bind_lit]
    cases kind with
    | nil => exact absurd rfl filled
    | cons c kind =>
        rw [show "invalid release".toList = 'i' :: "nvalid release".toList from rfl]
        refine bind_of_nil (lit_of_ne ?_ _ _) _
        rintro rfl
        exact start' rfl
  unfold readLine
  rw [report, fatal]
  rfl

theorem parseReports_fault (pc address : Nat) (write : Option Bool) :
    P.parseReports cwd (Emission.fault pc address write).text = some [] := by
  have hex (value : Nat) := @mute_numeral value 16 (by decide) (by decide)
  have verb : (∀ byte ∈ ascii (faultVerb write), Printable byte) ∧
      (chars (ascii (faultVerb write))).count ':' = 1 := by
    rcases write with _ | _ | _ <;> exact ⟨forall_ascii (by decide), by decide⟩
  have all : ∀ byte ∈ (Emission.fault pc address write).body, Printable byte :=
    forall_mem_append_of (forall_ascii (by decide)) (forall_mem_append_of (forall_ascii (by decide))
      (forall_mem_append_of (fun byte mem => (hex pc byte mem).1) (forall_mem_append_of verb.1
        (forall_mem_append_of (forall_ascii (by decide)) fun byte mem => (hex address byte mem).1))))
  have decoded : P.decode (Emission.fault pc address write).body =
      "weavec: ".toList ++ ("memory-fault".toList ++ (" at ".toList ++
        ("pc 0x".toList ++ (chars (numeral pc 16) ++ (chars (ascii (faultVerb write)) ++
          ("0x".toList ++ chars (numeral address 16))))))) := by
    rw [decode_printable all]
    unfold Emission.body
    simp only [chars_append]
    rw [chars_ascii (by decide), chars_ascii (by decide)]
    rfl
  have quiet (value : Nat) : (chars (numeral value 16)).count ':' = 0 :=
    List.count_eq_zero.mpr (colon_not_mem_chars (hex value))
  have single : ("pc 0x".toList ++ (chars (numeral pc 16) ++ (chars (ascii (faultVerb write)) ++
      ("0x".toList ++ chars (numeral address 16))))).count ':' ≤ 1 := by
    have texts : "pc 0x".toList.count ':' = 0 ∧ "0x".toList.count ':' = 0 := by decide
    simp only [List.count_append, quiet, verb.2, texts]
    decide
  rw [Emission.text_whole (by simp) (by simp) (by simp),
    parseReports_line (by rw [decode_printable all]; exact clear_chars all), decoded]
  exact readLine_placeless (by decide) (List.all_eq_true.mp (by decide)) (by decide) (by decide)
    single (by simp)

/-- Each of the runtime's lines is read as it was meant. -/
theorem parseReports_text {e : Emission} (readable : e.Readable P cwd) :
    P.parseReports cwd e.text = some (e.read P cwd).toList := by
  have hex (value : Nat) := @printable_numeral value 16 (by decide) (by decide)
  have decimal (value : Nat) := @printable_numeral value 10 (by decide) (by decide)
  cases e with
  | report kind address width site =>
      obtain ⟨known, named⟩ := readable
      unfold Emission.read
      dsimp only
      cases name : Site.nameOf site with
      | none => exact parseReports_nameless known name
      | some file =>
          obtain ⟨told, fits, resolves⟩ := named file name
          obtain ⟨path, resolved⟩ := Option.isSome_iff_exists.mp resolves
          rw [parseReports_named known name told resolved fits]
          dsimp only
          rw [resolved]
          rfl
  | range address lo hi noun =>
      have plain : ∀ noun ∈ nouns, (ascii noun).all (Printable ·) = true := by decide
      rw [Emission.text_whole (by simp)
        (fun _ _ _ _ same => by cases same; exact readable) (by simp)]
      refine parseReports_number (forall_mem_append_of (hex _) (forall_mem_append_of
        (forall_ascii (by decide)) (forall_mem_append_of (decimal _) (forall_mem_append_of ?_
          (forall_mem_append_of (decimal _) (forall_mem_append_of (forall_ascii (by decide))
            (forall_mem_append_of (forall_ascii (plain noun readable))
            (forall_mem_append_of (forall_ascii (by decide))
              (forall_mem_append_of (forall_ascii (by decide)) (hex _))))))))))
      split_ifs <;> exact forall_ascii (by decide)
  | released address base =>
      rw [Emission.text_whole (by simp) (by simp) (by simp)]
      exact parseReports_number (forall_mem_append_of (hex _) (forall_mem_append_of
        (forall_ascii (by decide)) (forall_mem_append_of (forall_ascii (by decide)) (hex _))))
  | returned address =>
      rw [Emission.text_whole (by simp) (by simp) (by simp)]
      exact parseReports_number (forall_mem_append_of (hex _) (forall_ascii (by decide)))
  | jump address root =>
      rw [Emission.text_whole (by simp) (by simp) (by simp)]
      refine parseReports_number (forall_mem_append_of (hex _) (forall_mem_append_of
        (forall_ascii (by decide)) (forall_mem_append_of (decimal _) (forall_mem_append_of ?_
          (forall_mem_append_of (forall_ascii (by decide)) (forall_mem_append_of (hex _)
            (forall_ascii (by decide))))))))
      split_ifs <;> exact forall_ascii (by decide)
  | fatal p why => exact parseReports_fatal readable
  | fault pc address write => exact parseReports_fault pc address write

end PythonText

/-! ## Whole outputs -/

/-- A program's standard error: lines of its own, and the runtime's. -/
abbrev Printed := List (List UInt8 ⊕ Emission)

def Printed.bytes (output : Printed) : List UInt8 :=
  output.flatMap (Sum.elim (fun text => text ++ [10]) Emission.text)

section Whole

variable {P : PythonText} {cwd : Option (List Char)}

theorem Emission.Second.read {e : Emission} (second : e.Second) : e.read P cwd = none := by
  cases e with
  | report kind address width site => exact second.elim
  | fatal p why => exact second.elim
  | fault pc address write => exact second.elim
  | range | released | returned | jump => rfl

theorem Emission.Second.readable {e : Emission} (second : e.Second) : e.Readable P cwd := by
  cases e with
  | report kind address width site => exact second.elim
  | fatal p why => exact second.elim
  | fault pc address write => exact second.elim
  | range => exact second
  | released | returned | jump => trivial

/-- A fault's lines are no report. -/
theorem Failing.onFault_read {f : Failing} {sent : Bool} {pc address : Nat} {write : Option Bool}
    {e : Emission} (mem : e ∈ f.onFault sent pc address write) :
    e.Readable P cwd ∧ e.read P cwd = none := by
  unfold onFault at mem
  split_ifs at mem
  · cases mem
  · rcases List.mem_cons.mp mem with rfl | described
    · exact ⟨trivial, rfl⟩
    · have second := f.second_of_describeHeap (Option.mem_toList.mp described)
      exact ⟨second.readable, second.read⟩

/-- What is read of an output is what is read of its pieces, and reading one of
them raises where reading the output does. -/
theorem Printed.parseReports_bytes {output : Printed}
    (readable : ∀ e, .inr e ∈ output → e.Readable P cwd) :
    P.parseReports cwd output.bytes = do
      let reports ← output.mapM (Sum.elim (fun text => P.parseReports cwd (text ++ [10]))
        fun e => some (e.read P cwd).toList)
      return reports.flatten := by
  induction output with
  | nil =>
      change P.parseReports cwd [] = some []
      unfold PythonText.parseReports
      rw [P.decode_nil]
      rfl
  | cons piece output inductionHypothesis =>
      have rest := inductionHypothesis fun e mem => readable e (List.mem_cons_of_mem _ mem)
      have split : P.parseReports cwd (Printed.bytes (piece :: output)) = do
          let reports ← Sum.elim (fun text => P.parseReports cwd (text ++ [10]))
            (fun e => some (e.read P cwd).toList) piece
          let more ← P.parseReports cwd (Printed.bytes output)
          return reports ++ more := by
        unfold Printed.bytes
        rw [List.flatMap_cons]
        cases piece with
        | inl text =>
            dsimp only [Sum.elim_inl]
            rw [List.append_assoc]
            exact P.parseReports_append cwd text _
        | inr e =>
            dsimp only [Sum.elim_inr]
            rw [← P.parseReports_text (readable e List.mem_cons_self), e.text_eq, List.append_assoc]
            exact P.parseReports_append cwd _ _
      rw [split, rest, List.mapM_cons]
      simp [Option.bind_assoc]

end Whole

/-- What the runtime and the program print, in whatever order the threads
print it, is read as the reports it holds: the runtime's second lines and a
fault's are no reports, and the program's own lines are read as without them,
the only ones at which reading may raise.  A call that reports puts out its
report once. -/
theorem reports_read (P : PythonText) (cwd : Option (List Char)) :
    (∀ output : Printed, (∀ e, .inr e ∈ output → e.Readable P cwd) →
      P.parseReports cwd output.bytes = do
        let reports ← output.mapM (Sum.elim (fun text => P.parseReports cwd (text ++ [10]))
          fun e => some (e.read P cwd).toList)
        return reports.flatten) ∧
      (∀ (call : FailCall) (f : Failing) (kind : String) (address width : Nat) (site : Option Site),
        (Emission.report kind address width site).Readable P cwd →
          (∀ e ∈ call.emissions f kind address width site, e.Readable P cwd) ∧
            (call.emissions f kind address width site).filterMap (Emission.read P cwd) =
              if f.reports kind site then
                ((Emission.report kind address width site).read P cwd).toList
              else []) ∧
      ∀ (f : Failing) (sent : Bool) (pc address : Nat) (write : Option Bool),
        ∀ e ∈ f.onFault sent pc address write, e.Readable P cwd ∧ e.read P cwd = none := by
  refine ⟨fun output readable => output.parseReports_bytes readable,
    fun call f kind address width site readable => ?_,
    fun f sent pc address write e mem => f.onFault_read mem⟩
  obtain ⟨second, lines, emissions⟩ := call.emissions_eq f kind address width site
  rw [emissions]
  by_cases reports : f.reports kind site = true
  · rw [if_pos reports, if_pos reports]
    have none : second.filterMap (Emission.read P cwd) = [] :=
      List.filterMap_eq_nil_iff.mpr fun e mem => (lines e mem).read
    refine ⟨fun e mem => ?_, ?_⟩
    · rcases List.mem_cons.mp mem with rfl | later
      · exact readable
      · exact (lines e later).readable
    · rw [List.filterMap_cons, none]
      cases (Emission.report kind address width site).read P cwd <;> rfl
  · rw [if_neg reports, if_neg reports]
    exact ⟨by simp, rfl⟩

/-- A name without a colon. -/
theorem PythonText.fileName_of_plain {P : PythonText} {file : List Char} (filled : file ≠ [])
    (clear : file.any lineBreak = false) (plain : ':' ∉ file) : P.FileName file := by
  have all : ∀ c ∈ file, lineBreak c = false := fun c mem =>
    Bool.eq_false_iff.mpr (List.any_eq_false.mp clear c mem)
  refine ⟨filled, all, fun start rest _ _ split location => plain ?_⟩
  obtain ⟨line, column, behind, -, -, -, -, rfl⟩ := location
  rw [split]
  exact List.mem_append_right _ List.mem_cons_self

/-- ASCII text, each byte a character, and paths in a directory without
links. -/
def PythonText.bytewise : PythonText where
  decode := chars
  digit c := if c.isDigit then some (c.toNat - 48) else none
  path file := file
  isAbsolute path := path.head? == some '/'
  join path rest := path ++ '/' :: rest
  pathResolve path := if path.any (·.toNat == 0) then .raised else .path path
  decode_nil := rfl
  decode_ascii text byte rest _ := chars_append text (byte :: rest)
  digit_ascii _ _ := rfl

def sampleReport : Emission :=
  .report "heap-buffer-overflow" 0x1000 4 (some ⟨some (ascii "a.c"), 12, 5, 1⟩)

/-- A read that the shadow did not see. -/
def sampleFault : Emission := .fault 0x401136 0x1000 (some false)

theorem readable_sampleReport : sampleReport.Readable .bytewise (some "/t".toList) := by
  refine ⟨by decide, fun file name => ?_⟩
  obtain rfl : ascii "a.c" = file := Option.some.inj name
  exact ⟨PythonText.fileName_of_plain (by decide) (by decide) (by decide), by decide, by decide⟩

theorem reports_read_between :
    PythonText.bytewise.parseReports (some "/t".toList) (Printed.bytes
        [.inl (ascii "12 tests"), .inr sampleReport,
          .inr (.range 0x1000 0xff0 0x1000 "heap object"),
          .inr (.fatal 0x7ff0 "not a heap block"), .inr sampleFault]) =
      some [⟨"heap-buffer-overflow".toList, some "/t/a.c".toList, 12, 5, false⟩,
        ⟨"invalid-release".toList, none, 0, 0, false⟩] := by
  have read := (reports_read .bytewise (some "/t".toList)).1
    [.inl (ascii "12 tests"), .inr sampleReport, .inr (.range 0x1000 0xff0 0x1000 "heap object"),
      .inr (.fatal 0x7ff0 "not a heap block"), .inr sampleFault] fun e mem => by
    have each : e = sampleReport ∨ e = .range 0x1000 0xff0 0x1000 "heap object" ∨
        e = .fatal 0x7ff0 "not a heap block" ∨ e = sampleFault := by
      simpa using mem
    rcases each with rfl | rfl | rfl | rfl
    · exact readable_sampleReport
    · change "heap object" ∈ nouns
      decide
    · change "not a heap block" ∈ whys
      decide
    · trivial
  rw [read]
  decide +kernel

end WeaveC.Runtime
