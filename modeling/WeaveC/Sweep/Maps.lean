import Mathlib.Data.List.Basic
import Mathlib.Tactic.Ring

/-!
# The text of /proc/self/maps

One line for each mapping: its bounds in hexadecimal, four letters for its
permissions, and the rest (offset, device, inode and name).  The scan reads the
text byte by byte; what it finds on the lines of a well-formed text are the
mappings.
-/

namespace WeaveC.Sweep

/-- The value of a lower-case hexadecimal digit. -/
def digit (c : Char) : Option Nat :=
  if '0' ≤ c ∧ c ≤ '9' then some (c.toNat - '0'.toNat)
  else if 'a' ≤ c ∧ c ≤ 'f' then some (c.toNat - 'a'.toNat + 10)
  else none

/-- Parses a hexadecimal number: its value and the text after it. -/
def hex (value : Nat) : List Char → Nat × List Char
  | [] => (value, [])
  | c :: text =>
      match digit c with
      | some d => hex ((value * 16 + d) % 2 ^ 64) text
      | none => (value, c :: text)

/-- What a line says of its mapping; `name` is the text from the first `[` or
`/` on. -/
structure Mapping where
  low : Nat
  high : Nat
  readable : Bool
  writable : Bool
  executable : Bool
  shared : Bool
  name : List Char
  deriving DecidableEq, Repr

/-- `strncmp(name, text, strlen(text)) == 0`. -/
def Mapping.named (m : Mapping) (text : String) : Bool := text.toList.isPrefixOf m.name

/-- The rule of the scan: neither code the program cannot write, nor a shared
mapping it cannot write through, nor the kernel's, nor a device's. -/
def Mapping.admitted (m : Mapping) : Bool :=
  m.readable && (m.writable || (!m.executable && !m.shared)) &&
    !(m.named "[vvar" || m.named "[vsys") &&
    (!m.named "/dev/" || m.named "/dev/shm/" || m.named "/dev/zero" ||
      m.named "/dev/hugepages/")

def startsName (c : Char) : Bool := c == '[' || c == '/'

/-- Reads one line's mapping; the text from the permissions on is left. -/
def readMapping (text : List Char) : Mapping × List Char :=
  let low := hex 0 text
  let high := hex 0 low.2.tail
  let perms := high.2.tail
  (⟨low.1, high.1, perms.head? = some 'r', perms[1]? = some 'w', perms[2]? = some 'x',
    perms[3]? = some 's', perms.dropWhile fun c => c != '\n' && !startsName c⟩, perms)

/-- The text after the line. -/
def nextLine (text : List Char) : List Char := (text.dropWhile (· != '\n')).tail

/-- The loop of `scanMappings` over the text, for at most `fuel` lines. -/
def readMappings : Nat → List Char → List Mapping
  | 0, _ => []
  | _ + 1, [] => []
  | fuel + 1, c :: text =>
      let line := readMapping (c :: text)
      line.1 :: readMappings fuel (nextLine line.2)

/-! ## Well-formed texts -/

/-- The number that digits write. -/
def digitsValue (digits : List Char) : Nat :=
  digits.foldl (fun value c => value * 16 + (digit c).getD 0) 0

/-- A number as the text has it. -/
structure Numeral where
  digits : List Char
  some_digit : digits ≠ []
  is_digit : ∀ c ∈ digits, (digit c).isSome
  fits : digitsValue digits < 2 ^ 64

def Numeral.value (n : Numeral) : Nat := digitsValue n.digits

/-- A line: what it says of a mapping and how it is written. -/
structure Line where
  low : Numeral
  high : Numeral
  readable : Bool
  writable : Bool
  executable : Bool
  shared : Bool
  /-- The offset, the device, the inode and the name. -/
  rest : List Char
  one_line : '\n' ∉ rest
  no_nul : '\x00' ∉ rest

namespace Line

def permissions (l : Line) : List Char :=
  [if l.readable then 'r' else '-', if l.writable then 'w' else '-',
    if l.executable then 'x' else '-', if l.shared then 's' else 'p']

def render (l : Line) : List Char :=
  l.low.digits ++ '-' :: l.high.digits ++ ' ' :: l.permissions ++ ' ' :: l.rest ++ ['\n']

def mapping (l : Line) : Mapping :=
  ⟨l.low.value, l.high.value, l.readable, l.writable, l.executable, l.shared,
    l.rest.dropWhile fun c => !startsName c⟩

end Line

/-- The text of the lines. -/
def render (lines : List Line) : List Char := lines.flatMap Line.render

/-! ## Reading a line -/

/-- Reading on only makes the number larger. -/
theorem le_foldl_digits (digits : List Char) (value : Nat) :
    value ≤ digits.foldl (fun value c => value * 16 + (digit c).getD 0) value := by
  induction digits generalizing value with
  | nil => exact Nat.le_refl value
  | cons c digits ih =>
    refine Nat.le_trans ?_ (ih _)
    exact Nat.le_add_right_of_le (Nat.le_mul_of_pos_right value (by decide))

theorem hex_append (digits rest : List Char) (value : Nat)
    (is_digit : ∀ c ∈ digits, (digit c).isSome)
    (fits : digits.foldl (fun value c => value * 16 + (digit c).getD 0) value < 2 ^ 64)
    (ends : ∀ c, rest.head? = some c → digit c = none) :
    hex value (digits ++ rest) =
      (digits.foldl (fun value c => value * 16 + (digit c).getD 0) value, rest) := by
  induction digits generalizing value with
  | nil =>
    cases rest with
    | nil => rfl
    | cons c rest =>
      have none : digit c = none := ends c rfl
      simp only [List.nil_append, hex, none, List.foldl_nil]
  | cons c digits ih =>
    obtain ⟨d, found⟩ := Option.isSome_iff_exists.mp (is_digit c List.mem_cons_self)
    simp only [List.foldl_cons, found, Option.getD_some] at fits ⊢
    have small : value * 16 + d < 2 ^ 64 := (le_foldl_digits digits _).trans_lt fits
    simp only [List.cons_append, hex, found]
    rw [Nat.mod_eq_of_lt small]
    exact ih _ (fun c mem => is_digit c (List.mem_cons_of_mem _ mem)) fits

theorem Numeral.hex (n : Numeral) (c : Char) (rest : List Char) (ends : digit c = none) :
    hex 0 (n.digits ++ c :: rest) = (n.value, c :: rest) := by
  refine hex_append n.digits (c :: rest) 0 n.is_digit n.fits ?_
  intro first same
  obtain rfl := Option.some.inj same
  exact ends

/-- Nothing of the permissions starts a name. -/
theorem Line.dropWhile_permissions (l : Line) (rest : List Char) :
    (l.permissions ++ rest).dropWhile (fun c => c != '\n' && !startsName c) =
      rest.dropWhile fun c => c != '\n' && !startsName c := by
  refine List.dropWhile_append_of_pos ?_
  intro c mem
  unfold permissions at mem
  simp only [List.mem_cons, List.not_mem_nil, or_false] at mem
  rcases mem with rfl | rfl | rfl | rfl <;> split <;> rfl

theorem dropWhile_rest (rest more : List Char) (one_line : '\n' ∉ rest) :
    (rest ++ '\n' :: more).dropWhile (fun c => c != '\n' && !startsName c) =
      rest.dropWhile (fun c => !startsName c) ++ '\n' :: more := by
  induction rest with
  | nil => rfl
  | cons c rest ih =>
    obtain ⟨differs, one_line⟩ := not_or.mp (List.mem_cons.not.mp one_line)
    have stays : (c != '\n') = true := bne_iff_ne.mpr fun same => differs same.symm
    simp only [List.cons_append, List.dropWhile_cons, stays, Bool.true_and]
    split
    · exact ih one_line
    · rfl

/-- Comparing the name with a text does not go past its line. -/
theorem isPrefixOf_line (text name more : List Char) (one_line : '\n' ∉ text) :
    text.isPrefixOf (name ++ '\n' :: more) = text.isPrefixOf name := by
  induction text generalizing name with
  | nil => simp only [List.isPrefixOf_nil_left]
  | cons c text ih =>
    obtain ⟨differs, one_line⟩ := not_or.mp (List.mem_cons.not.mp one_line)
    cases name with
    | nil =>
      have other : (c == '\n') = false := beq_eq_false_iff_ne.mpr fun same => differs same.symm
      simp only [List.nil_append, List.isPrefixOf_cons_cons, other, Bool.false_and,
        List.isPrefixOf_cons_nil]
    | cons d name =>
      simp only [List.cons_append, List.isPrefixOf_cons_cons]
      rw [ih name one_line]

/-- The mapping read from a line: its name goes on to the end of the text. -/
structure Line.Read (l : Line) (m : Mapping) : Prop where
  low : m.low = l.mapping.low
  high : m.high = l.mapping.high
  readable : m.readable = l.mapping.readable
  writable : m.writable = l.mapping.writable
  executable : m.executable = l.mapping.executable
  shared : m.shared = l.mapping.shared
  named : ∀ text : String, '\n' ∉ text.toList → m.named text = l.mapping.named text

theorem Line.Read.admitted {l : Line} {m : Mapping} (read : l.Read m) :
    m.admitted = l.mapping.admitted := by
  unfold Mapping.admitted
  rw [read.readable, read.writable, read.executable, read.shared]
  rw [read.named "[vvar" (by decide), read.named "[vsys" (by decide),
    read.named "/dev/" (by decide), read.named "/dev/shm/" (by decide),
    read.named "/dev/zero" (by decide), read.named "/dev/hugepages/" (by decide)]

/-- The text of a line, up to each number's end. -/
theorem Line.render_append (l : Line) (more : List Char) :
    l.render ++ more =
      l.low.digits ++ '-' :: (l.high.digits ++ ' ' ::
        (l.permissions ++ (' ' :: l.rest ++ '\n' :: more))) := by
  simp [render]

theorem readMapping_line (l : Line) (more : List Char) :
    readMapping (l.render ++ more) =
      let perms := l.permissions ++ (' ' :: l.rest ++ '\n' :: more)
      (⟨l.low.value, l.high.value, perms.head? = some 'r', perms[1]? = some 'w',
        perms[2]? = some 'x', perms[3]? = some 's',
        perms.dropWhile fun c => c != '\n' && !startsName c⟩, perms) := by
  have low := l.low.hex '-' (l.high.digits ++ ' ' ::
    (l.permissions ++ (' ' :: l.rest ++ '\n' :: more))) rfl
  have high := l.high.hex ' ' (l.permissions ++ (' ' :: l.rest ++ '\n' :: more)) rfl
  simp only [readMapping, l.render_append, low, List.tail_cons, high]

theorem Line.rest_line (l : Line) : '\n' ∉ ' ' :: l.rest := by
  intro mem
  rcases List.mem_cons.mp mem with same | mem
  · exact absurd same (by decide)
  · exact l.one_line mem

theorem Line.permissions_line (l : Line) : '\n' ∉ l.permissions := by
  intro mem
  unfold permissions at mem
  simp only [List.mem_cons, List.not_mem_nil, or_false] at mem
  rcases mem with same | same | same | same <;> revert same <;> split <;> decide

theorem read_readMapping (l : Line) (more : List Char) :
    l.Read (readMapping (l.render ++ more)).1 := by
  rw [readMapping_line]
  constructor
  case low => rfl
  case high => rfl
  case readable => cases flag : l.readable <;> simp [Line.permissions, Line.mapping, flag]
  case writable => cases flag : l.writable <;> simp [Line.permissions, Line.mapping, flag]
  case executable => cases flag : l.executable <;> simp [Line.permissions, Line.mapping, flag]
  case shared => cases flag : l.shared <;> simp [Line.permissions, Line.mapping, flag]
  case named =>
    intro text one_line
    unfold Mapping.named
    simp only
    rw [l.dropWhile_permissions, dropWhile_rest _ _ l.rest_line, isPrefixOf_line _ _ _ one_line]
    rfl

theorem nextLine_readMapping (l : Line) (more : List Char) :
    nextLine (readMapping (l.render ++ more)).2 = more := by
  rw [readMapping_line]
  have before : ∀ c ∈ l.permissions ++ ' ' :: l.rest, (c != '\n') = true := by
    intro c mem
    refine bne_iff_ne.mpr ?_
    rintro rfl
    rcases List.mem_append.mp mem with mem | mem
    · exact l.permissions_line mem
    · exact l.rest_line mem
  unfold nextLine
  rw [← List.append_assoc, List.dropWhile_append_of_pos before]
  rfl

/-- What the scan reads of a well-formed text: the mapping of each line. -/
theorem readMappings_render (lines : List Line) {fuel : Nat}
    (enough : (render lines).length ≤ fuel) :
    List.Forall₂ Line.Read lines (readMappings fuel (render lines)) := by
  induction lines generalizing fuel with
  | nil => cases fuel <;> exact .nil
  | cons l lines ih =>
    have split : render (l :: lines) = l.render ++ render lines := rfl
    have read := read_readMapping l (render lines)
    have next := nextLine_readMapping l (render lines)
    obtain ⟨c, line, starts⟩ : ∃ c line, l.render = c :: line := by
      cases digits : l.low.digits with
      | nil => exact absurd digits l.low.some_digit
      | cons c line => exact ⟨c, _, by simp only [Line.render, digits, List.cons_append]; rfl⟩
    rw [split, List.length_append, starts, List.length_cons] at enough
    cases fuel with
    | zero => omega
    | succ fuel =>
      rw [split]
      rw [starts] at read next ⊢
      refine .cons read ?_
      have smaller : (render lines).length ≤ fuel := by omega
      have rest := ih smaller
      rw [← next] at rest
      exact rest

end WeaveC.Sweep
