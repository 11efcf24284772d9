import WeaveC.Calls.Format

/-!
# What a scan wrote

After a call of the scanf family, `checkScanned` reads the format again beside
the arguments, and checks the bytes of each destination that the count of
assigned conversions says was written.
-/

namespace WeaveC.Calls.Scanned

open WeaveC.Runtime WeaveC.Calls.Format

/-! ## One conversion -/

/-- As `checkFormat`'s, with 3 for the widths of `j`, `z` and `t`. -/
def size : List Char → Int × List Char
  | 'h' :: 'h' :: rest => (-1, rest)
  | 'h' :: rest => (-2, rest)
  | 'l' :: 'l' :: rest => (2, rest)
  | 'l' :: rest => (1, rest)
  | 'j' :: rest => (3, rest)
  | 'z' :: rest => (3, rest)
  | 't' :: rest => (3, rest)
  | 'L' :: rest => (6, rest)
  | format => (0, format)

def skip (c : Char) (format : List Char) : List Char :=
  match format with
  | [] => []
  | first :: rest => if first = c then rest else format

/-- The set runs to the first `]` after its first character. -/
def afterSet (format : List Char) : Option (List Char) :=
  match (skip ']' (skip '^' format)).dropWhile (· ≠ ']') with
  | [] => none
  | _ :: rest => some rest

def conversions : List Char :=
  ['d', 'i', 'o', 'u', 'x', 'X', 'a', 'e', 'E', 'f', 'F', 'g', 'G', 'A', 's', 'c', '[', 'p', 'n']

/-- What `checkScanned` keeps of a conversion. -/
structure Directive where
  suppressed : Bool
  width : Int
  size : Int
  conversion : Char

/-- The star of a conversion that is not assigned. -/
def star (format : List Char) : Bool × List Char :=
  match format with
  | '*' :: rest => (true, rest)
  | _ => (false, format)

/-- The conversion after its `%`, and what is left of the format; none where
the format is not followed. -/
def directive (format : List Char) : Option (Directive × List Char) :=
  let (suppressed, format) := star format
  match readNumber format with
  | (_, '$' :: _) => none
  | (width, format) =>
      match size format with
      | (_, []) => none
      | (size, conversion :: rest) =>
          if conversion = '[' then
            (afterSet rest).map fun rest => (⟨suppressed, width, size, conversion⟩, rest)
          else if conversion ∈ conversions then
            some (⟨suppressed, width, size, conversion⟩, rest)
          else none

/-- The bytes the conversion wrote to `target`; 0 when they are not checked. -/
def Directive.bytes (d : Directive) (memory : Memory) (target : Nat) : Nat :=
  if d.conversion = 's' ∨ d.conversion = '[' then
    if d.size ≠ 1 ∧ target ≠ 0 then strnlen memory target 0xFFFFFFFFFFFFFFFF + 1 else 0
  else if d.conversion = 'c' then
    if d.size ≠ 1 then if 0 < d.width then d.width.toNat else 1 else 0
  else if d.conversion ∈ ['a', 'e', 'E', 'f', 'F', 'g', 'G', 'A'] then
    if d.size = 6 then 16 else if d.size = 1 then 8 else 4
  else if d.conversion = 'p' then 8
  else bytesOf d.size

/-! ## The whole format -/

theorem size_length (format : List Char) : (size format).2.length ≤ format.length := by
  unfold size
  split <;> simp only [List.length_cons] <;> omega

theorem skip_length (c : Char) (format : List Char) : (skip c format).length ≤ format.length := by
  unfold skip
  split
  · exact Nat.le_refl _
  · split
    · exact Nat.le_succ _
    · exact Nat.le_refl _

theorem afterSet_length {format rest : List Char} (found : afterSet format = some rest) :
    rest.length ≤ format.length := by
  have first := skip_length '^' format
  have second := skip_length ']' (skip '^' format)
  have dropped :=
    (List.dropWhile_sublist (fun c => decide (c ≠ ']')) (l := skip ']' (skip '^' format))).length_le
  unfold afterSet at found
  split at found
  · cases found
  · rename_i same
    cases found
    rw [same, List.length_cons] at dropped
    omega

theorem star_length (format : List Char) : (star format).2.length ≤ format.length := by
  unfold star
  split
  · exact Nat.le_succ _
  · exact Nat.le_refl _

theorem directive_length {d : Directive} {format rest : List Char}
    (found : directive format = some (d, rest)) : rest.length < format.length := by
  unfold directive at found
  have starred := star_length format
  generalize star format = starring at *
  obtain ⟨suppressed, format₁⟩ := starring
  dsimp only at found starred
  have number : (readNumber format₁).2.length ≤ format₁.length := readDigits_length (-1) format₁
  generalize readNumber format₁ = numbered at *
  split at found
  · cases found
  · rename_i width format₂ _
    have sized := size_length format₂
    dsimp only at number
    generalize size format₂ = measured at *
    split at found
    · cases found
    · rename_i size conversion format₃
      rw [List.length_cons] at sized
      split at found
      · obtain ⟨rest', set, same⟩ := Option.map_eq_some_iff.mp found
        have closed := afterSet_length set
        cases same
        omega
      · split at found
        · cases found
          omega
        · cases found

/-- A range that is checked; of no bytes when none is. -/
structure RangeCheck where
  address : Nat
  bytes : Nat
  deriving DecidableEq

/-- The loop over the bytes of the format, with the conversions counted so far
and the arguments left: the range of each argument that is taken up to the end
of the format, a conversion that is not followed, or one that was not assigned. -/
def ranges (memory : Memory) (assigned : Int) (index : Nat) (arguments : List Nat) :
    List Char → List RangeCheck
  | [] => []
  | '%' :: '%' :: rest => ranges memory assigned index arguments rest
  | '%' :: rest =>
      match _found : directive rest with
      | none => []
      | some (d, rest) =>
          if d.suppressed then ranges memory assigned index arguments rest
          else
            match arguments with
            | [] => []
            | target :: arguments =>
                if d.conversion = 'n' then
                  -- reached when every assigning conversion before it ran
                  if assigned < index then []
                  else ⟨target, d.bytes memory target⟩ ::
                    ranges memory assigned index arguments rest
                else if assigned ≤ index then []
                else ⟨target, d.bytes memory target⟩ ::
                  ranges memory assigned (index + 1) arguments rest
  | _ :: rest => ranges memory assigned index arguments rest
  termination_by format => format.length
  decreasing_by
    · simp only [List.length_cons]
      omega
    · have := directive_length _found
      simp only [List.length_cons]
      omega
    · have := directive_length _found
      simp only [List.length_cons]
      omega
    · have := directive_length _found
      simp only [List.length_cons]
      omega
    · simp only [List.length_cons]
      omega

/-- `checkScanned`; `memory` is what the call left. -/
def checkScanned (ctx : Context) (shadow : Shadow) (memory : Memory) (format : Option (List Char))
    (arguments : List Nat) (assigned : Int) : Except Failure Shadow :=
  match format with
  | none => .ok shadow
  | some format =>
      (ranges memory assigned 0 arguments format).foldlM
        (fun shadow range => checkRange ctx shadow range.address range.bytes) shadow

end WeaveC.Calls.Scanned
