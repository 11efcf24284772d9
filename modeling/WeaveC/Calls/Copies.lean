import WeaveC.Calls.FormatSpec
import WeaveC.Library.Checks

/-!
# Checked string copies

The wrappers of `strcpy`, `stpcpy` and `strcat` compute what the call would read
and write, check it, and make the copy.  A string is a run of nonzero bytes and
the zero byte after it.
-/

namespace WeaveC.Calls.Copies

open WeaveC.Library WeaveC.Runtime WeaveC.Calls.Format

/-! ## The wrappers -/

inductive Failure where
  | read (failure : Format.Failure)
  /-- "intra-object-overflow" -/
  | limit (address width limit : Nat)
  /-- "overlapping-copy" -/
  | overlap (destination source width : Nat)

/-- `n` bytes from `s` on at `d`, as they were; `memcpy` makes the same copy
where the two do not overlap. -/
def memmove (memory : Memory) (d s n : Nat) : Memory :=
  fun a => if d ≤ a ∧ a < d + n then memory (s + (a - d)) else memory a

def checkLimit (d n limit : Nat) : Except Failure Unit :=
  if limit < n then .error (.limit d n limit) else .ok ()

section

variable (ctx : Context) (shadow : Shadow) (memory : Memory) (nullOk : Bool)

/-- The string guard without a limit. -/
def length (s : Nat) : Except Failure (Nat × Shadow) :=
  (strlen ctx shadow memory s 0xFFFFFFFFFFFFFFFF nullOk).mapError fun r => .read (.string r)

def checkBytes (address n : Nat) : Except Failure Shadow :=
  (checkRange ctx shadow address n).mapError .read

/-- Copies the string at `s` and its terminator to `d`, checked; its length. -/
def copyString (d s limit : Nat) : Except Failure (Nat × Memory × Shadow) := do
  let (n, shadow) ← length ctx shadow memory nullOk s
  let bytes := (n + 1) % 0x10000000000000000
  let shadow ← checkBytes ctx shadow s bytes
  let shadow ← checkBytes ctx shadow d bytes
  checkLimit d bytes limit
  if d ≠ s ∧ d < (s + n + 1) % 0x10000000000000000 ∧ s < (d + n + 1) % 0x10000000000000000 then
    .error (.overlap d s bytes)
  else .ok (n, memmove memory d s bytes, shadow)

def strcpy (d s limit : Nat) : Except Failure (Nat × Memory × Shadow) := do
  let (_, memory, shadow) ← copyString ctx shadow memory nullOk d s limit
  return (d, memory, shadow)

def stpcpy (d s limit : Nat) : Except Failure (Nat × Memory × Shadow) := do
  let (n, memory, shadow) ← copyString ctx shadow memory nullOk d s limit
  return ((d + n) % 0x10000000000000000, memory, shadow)

def strcat (d s limit : Nat) : Except Failure (Nat × Memory × Shadow) := do
  let (end', shadow) ← length ctx shadow memory nullOk d
  let (n, shadow) ← length ctx shadow memory nullOk s
  let bytes := (end' + n + 1) % 0x10000000000000000
  let shadow ← checkBytes ctx shadow d bytes
  checkLimit d bytes limit
  return (d, memmove memory ((d + end') % 0x10000000000000000) s ((n + 1) % 0x10000000000000000),
    shadow)

end

/-! ## Strings -/

/-- The string of `n` bytes at `s`, its terminator in the address space. -/
structure IsString (memory : Memory) (s n : Nat) : Prop where
  nonnull : s ≠ 0
  before : ∀ k < n, memory (s + k) ≠ 0
  terminator : memory (s + n) = 0
  inside : s + n < 0x10000000000000000

/-- What the C function leaves of a string copied from `s` to `d`: its bytes and
its terminator there, and all else as it was. -/
structure Copied (memory memory' : Memory) (d s n : Nat) : Prop where
  bytes : ∀ k ≤ n, memory' (d + k) = memory (s + k)
  others : ∀ a, a < d ∨ d + n < a → memory' a = memory a

theorem memmove_copied (memory : Memory) (d s n : Nat) :
    Copied memory (memmove memory d s (n + 1)) d s n := by
  constructor
  · intro k below
    unfold memmove
    rw [if_pos (by omega), Nat.add_sub_cancel_left]
  · intro a outside
    unfold memmove
    rw [if_neg (by omega)]

/-- The bytes of `n + 1` written at `d` overlap those at `s`, at another address. -/
def Overlaps (d s n : Nat) : Prop := d ≠ s ∧ d ≤ s + n ∧ s ≤ d + n

/-! ## The checks, one by one -/

/-- Some of the first `n` bytes from `address` on are unaddressable. -/
def SomeBad (ctx : Context) (shadow : Shadow) (address n : Nat) : Prop :=
  ∃ k < n, Bad ctx shadow address k

variable {ctx : Context} {shadow : Shadow} {memory : Memory}

theorem someBad_iff {address n : Nat} :
    SomeBad ctx shadow address n ↔ unaddressable ctx shadow (reached ctx shadow address) n ≠ ∅ := by
  rw [ne_eq, unaddressable_reached_none]
  push Not
  rfl

/-- Clearing stale granules leaves the same bytes unaddressable. -/
theorem Settles.someBad {shadow' : Shadow} (same : Settles ctx shadow shadow') (address n : Nat) :
    SomeBad ctx shadow' address n ↔ SomeBad ctx shadow address n := by
  rw [someBad_iff, someBad_iff, same.unaddressable_reached]

theorem checkRange_checks (ctx : Context) (shadow : Shadow) (address n : Nat) :
    Checks (SomeBad ctx shadow address n) (Settles ctx shadow)
      (checkRange ctx shadow address n) := by
  have spec := checkRange_spec ctx shadow address n
  cases found : checkRange ctx shadow address n with
  | ok shadow' =>
      rw [found] at spec
      exact .passes _ spec.1 fun some => someBad_iff.mp some spec.2
  | error failure =>
      rw [found] at spec
      exact .stops _ (someBad_iff.mpr spec)

theorem checkBytes_checks (ctx : Context) (shadow : Shadow) (address n : Nat) :
    Checks (SomeBad ctx shadow address n) (Settles ctx shadow)
      (checkBytes ctx shadow address n) :=
  (checkRange_checks ctx shadow address n).mapError _

theorem checkLimit_checks (d n limit : Nat) :
    Checks (limit < n) (fun _ => True) (checkLimit d n limit) := by
  unfold checkLimit
  exact (Checks.ite (.pure trivial)).congr (or_iff_left id)

namespace IsString

variable {s n : Nat}

theorem strnlen (string : IsString memory s n) : strnlen memory s 0xFFFFFFFFFFFFFFFF = n := by
  have nonnull := string.nonnull
  have inside := string.inside
  exact strnlen_eq (by omega) string.before string.terminator

theorem scanned (string : IsString memory s n) : scanned memory s 0xFFFFFFFFFFFFFFFF = n + 1 := by
  have nonnull := string.nonnull
  have inside := string.inside
  unfold Runtime.scanned
  rw [string.strnlen]
  exact if_pos (by omega)

theorem bytes (string : IsString memory s n) : (n + 1) % 0x10000000000000000 = n + 1 := by
  have nonnull := string.nonnull
  have inside := string.inside
  exact Nat.mod_eq_of_lt (by omega)

end IsString

theorem length_checks (ctx : Context) (shadow : Shadow) (nullOk : Bool) {s n : Nat}
    (string : IsString memory s n) :
    Checks (SomeBad ctx shadow s (n + 1)) (fun answer => answer.1 = n ∧ Settles ctx shadow answer.2)
      (length ctx shadow memory nullOk s) := by
  have spec := strlen_spec ctx shadow memory s 0xFFFFFFFFFFFFFFFF nullOk
  rw [string.scanned, string.strnlen] at spec
  refine Checks.mapError _ ?_
  cases found : strlen ctx shadow memory s 0xFFFFFFFFFFFFFFFF nullOk with
  | ok answer =>
      rw [found] at spec
      rcases spec with ⟨same, ⟨null, -⟩ | ⟨-, length, none⟩⟩
      · exact absurd null string.nonnull
      · exact .passes _ ⟨length, same⟩ fun some => someBad_iff.mp some none
  | error report =>
      rw [found] at spec
      rcases spec with ⟨null, -⟩ | ⟨-, some⟩
      · exact absurd null string.nonnull
      · exact .stops _ (someBad_iff.mpr some)

/-! ## The copies -/

/-- What stops a copy of the string at `s` to `d`, its overlap apart. -/
def Refused (ctx : Context) (shadow : Shadow) (d s n limit : Nat) : Prop :=
  SomeBad ctx shadow s (n + 1) ∨ SomeBad ctx shadow d (n + 1) ∨ limit < n + 1

/-- The overlap test of the code. -/
def Tested (d s n : Nat) : Prop :=
  d ≠ s ∧ d < (s + n + 1) % 0x10000000000000000 ∧ s < (d + n + 1) % 0x10000000000000000

theorem copyString_checks (ctx : Context) (shadow : Shadow) (nullOk : Bool) {s n : Nat}
    (d limit : Nat) (string : IsString memory s n) :
    Checks (Refused ctx shadow d s n limit ∨ Tested d s n)
      (fun answer => answer.1 = n ∧ answer.2.1 = memmove memory d s (n + 1))
      (copyString ctx shadow memory nullOk d s limit) := by
  refine (Checks.bind (SomeBad ctx shadow s (n + 1) ∨ SomeBad ctx shadow d (n + 1) ∨ limit < n + 1 ∨
    Tested d s n) (length_checks ctx shadow nullOk string) ?_).congr ?_
  · rintro ⟨m, shadow₁⟩ ⟨rfl, same₁⟩
    simp only [string.bytes]
    rw [← Settles.someBad same₁]
    refine Checks.bind _ (checkBytes_checks ctx shadow₁ s _) fun shadow₂ same₂ => ?_
    rw [← Settles.someBad (same₁.trans same₂)]
    refine Checks.bind _ (checkBytes_checks ctx shadow₂ d _) fun shadow₃ same₃ => ?_
    refine Checks.bind _ (checkLimit_checks d _ limit) fun _ _ => ?_
    exact (Checks.ite (.pure ⟨rfl, rfl⟩)).congr (or_iff_left id)
  · unfold Refused
    tauto

theorem strcpy_checks (ctx : Context) (shadow : Shadow) (nullOk : Bool) {s n : Nat} (d limit : Nat)
    (string : IsString memory s n) :
    Checks (Refused ctx shadow d s n limit ∨ Tested d s n)
      (fun answer => answer.1 = d ∧ answer.2.1 = memmove memory d s (n + 1))
      (strcpy ctx shadow memory nullOk d s limit) := by
  refine (Checks.bind False (copyString_checks ctx shadow nullOk d limit string)
    fun answer copied => ?_).congr (or_iff_left id)
  exact .pure ⟨rfl, copied.2⟩

theorem stpcpy_checks (ctx : Context) (shadow : Shadow) (nullOk : Bool) {s n : Nat} (d limit : Nat)
    (string : IsString memory s n) (fits : d + n < 0x10000000000000000) :
    Checks (Refused ctx shadow d s n limit ∨ Tested d s n)
      (fun answer => answer.1 = d + n ∧ answer.2.1 = memmove memory d s (n + 1))
      (stpcpy ctx shadow memory nullOk d s limit) := by
  refine (Checks.bind False (copyString_checks ctx shadow nullOk d limit string)
    fun answer copied => ?_).congr (or_iff_left id)
  refine .pure ⟨?_, copied.2⟩
  rw [copied.1]
  exact Nat.mod_eq_of_lt fits

/-- What stops an appending, of the `n` bytes at `s` to the `m` at `d`. -/
def RefusedAppend (ctx : Context) (shadow : Shadow) (d m s n limit : Nat) : Prop :=
  SomeBad ctx shadow d (m + 1) ∨ SomeBad ctx shadow s (n + 1) ∨
    (∃ k, m ≤ k ∧ k < m + n + 1 ∧ Bad ctx shadow d k) ∨ limit < m + n + 1

theorem strcat_checks (ctx : Context) (shadow : Shadow) (nullOk : Bool) {d m s n : Nat}
    (limit : Nat) (destination : IsString memory d m) (source : IsString memory s n)
    (fits : d + m + n < 0x10000000000000000) :
    Checks (RefusedAppend ctx shadow d m s n limit)
      (fun answer => answer.1 = d ∧ answer.2.1 = memmove memory (d + m) s (n + 1))
      (strcat ctx shadow memory nullOk d s limit) := by
  have nonnull := destination.nonnull
  refine (Checks.bind (SomeBad ctx shadow s (n + 1) ∨ SomeBad ctx shadow d (m + n + 1) ∨
    limit < m + n + 1) (length_checks ctx shadow nullOk destination) ?_).congr ?_
  · rintro ⟨end', shadow₁⟩ ⟨rfl, same₁⟩
    rw [← Settles.someBad same₁]
    refine Checks.bind _ (length_checks ctx shadow₁ nullOk source) ?_
    rintro ⟨length, shadow₂⟩ ⟨rfl, same₂⟩
    dsimp only at *
    rw [← Settles.someBad (same₁.trans same₂), Nat.mod_eq_of_lt (show end' + length + 1 < _ by omega),
      source.bytes, Nat.mod_eq_of_lt (show d + end' < _ by omega)]
    refine Checks.bind _ (checkBytes_checks ctx shadow₂ d _) fun shadow₃ same₃ => ?_
    refine (Checks.bind False (checkLimit_checks d _ limit) fun _ _ => ?_).congr (or_iff_left id)
    exact .pure ⟨rfl, rfl⟩
  · -- the destination's string and the bytes after it are one range
    have split : SomeBad ctx shadow d (m + n + 1) ↔
        SomeBad ctx shadow d (m + 1) ∨ ∃ k, m ≤ k ∧ k < m + n + 1 ∧ Bad ctx shadow d k := by
      constructor
      · rintro ⟨k, below, bad⟩
        by_cases low : k < m + 1
        · exact .inl ⟨k, low, bad⟩
        · exact .inr ⟨k, by omega, below, bad⟩
      · rintro (⟨k, below, bad⟩ | ⟨k, -, below, bad⟩)
        · exact ⟨k, by omega, bad⟩
        · exact ⟨k, below, bad⟩
    unfold RefusedAppend
    rw [split]
    generalize (∃ k, m ≤ k ∧ k < m + n + 1 ∧ Bad ctx shadow d k) = written
    tauto

/-! ## The copies against the C functions -/

/-- A copy to `to'` that stops when one of the reasons holds, and otherwise
leaves the memory as the C function does and returns `value`. -/
def Kept (memory : Memory) (reported : Prop) (value to' s n : Nat)
    (result : Except Failure (Nat × Memory × Shadow)) : Prop :=
  (reported → ∃ failure, result = .error failure) ∧
    (¬ reported → ∃ memory' shadow', result = .ok (value, memory', shadow') ∧
      Copied memory memory' to' s n)

/-- A copy that tests less than the overlap is right where its test finds it. -/
theorem kept_iff {refused tested overlaps : Prop} {value to' s n : Nat}
    {result : Except Failure (Nat × Memory × Shadow)}
    (checks : Checks (refused ∨ tested)
      (fun answer => answer.1 = value ∧ answer.2.1 = memmove memory to' s (n + 1)) result)
    (sound : tested → overlaps) :
    Kept memory (refused ∨ overlaps) value to' s n result ↔ (overlaps → refused ∨ tested) := by
  have stops := checks.stops_iff
  constructor
  · rintro ⟨reports, -⟩ overlap
    exact stops.mp (reports (.inr overlap))
  · intro found
    constructor
    · rintro (refuse | overlap)
      · exact stops.mpr (.inl refuse)
      · exact stops.mpr (found overlap)
    · intro none
      obtain ⟨⟨_, memory', shadow'⟩, same, rfl, rfl⟩ :=
        checks.returns fun either => none (either.imp id sound)
      exact ⟨_, shadow', same, memmove_copied memory to' s n⟩

theorem Tested.overlaps {d s n : Nat} (tested : Tested d s n) : Overlaps d s n := by
  obtain ⟨apart, below, above⟩ := tested
  exact ⟨apart, by omega, by omega⟩

/-- The test finds an overlap unless a sum is one past the address space. -/
theorem tested_iff {d s n : Nat} (source : s + n < 0x10000000000000000)
    (fits : d + n < 0x10000000000000000) (overlap : Overlaps d s n) :
    Tested d s n ↔ s + n + 1 < 0x10000000000000000 ∧ d + n + 1 < 0x10000000000000000 := by
  obtain ⟨apart, below, above⟩ := overlap
  unfold Tested
  constructor
  · rintro ⟨-, low, high⟩
    omega
  · rintro ⟨low, high⟩
    rw [Nat.mod_eq_of_lt low, Nat.mod_eq_of_lt high]
    exact ⟨apart, by omega, by omega⟩

theorem copy_kept_iff {d s n limit value : Nat} {result : Except Failure (Nat × Memory × Shadow)}
    (checks : Checks (Refused ctx shadow d s n limit ∨ Tested d s n)
      (fun answer => answer.1 = value ∧ answer.2.1 = memmove memory d s (n + 1)) result)
    (source : s + n < 0x10000000000000000) (fits : d + n < 0x10000000000000000) :
    Kept memory (Refused ctx shadow d s n limit ∨ Overlaps d s n) value d s n result ↔
      (Overlaps d s n → Refused ctx shadow d s n limit ∨
        s + n + 1 < 0x10000000000000000 ∧ d + n + 1 < 0x10000000000000000) := by
  rw [kept_iff checks Tested.overlaps]
  refine forall_congr' fun overlap => ?_
  rw [tested_iff source fits overlap]

/-- `strcpy` and `stpcpy` stop for each of their reasons, and otherwise copy as
the C functions do, unless an overlapping copy ends at the last address;
`strcat` does exactly when what it writes does not overlap the source at another
address, or another of its reasons stops it. -/
theorem copies_kept_iff (ctx : Context) (shadow : Shadow) (memory : Memory) (nullOk : Bool)
    (d s n limit : Nat) (source : IsString memory s n) :
    (d + n < 0x10000000000000000 →
      (Kept memory (Refused ctx shadow d s n limit ∨ Overlaps d s n) d d s n
          (strcpy ctx shadow memory nullOk d s limit) ↔
        (Overlaps d s n → Refused ctx shadow d s n limit ∨
          s + n + 1 < 0x10000000000000000 ∧ d + n + 1 < 0x10000000000000000)) ∧
      (Kept memory (Refused ctx shadow d s n limit ∨ Overlaps d s n) (d + n) d s n
          (stpcpy ctx shadow memory nullOk d s limit) ↔
        (Overlaps d s n → Refused ctx shadow d s n limit ∨
          s + n + 1 < 0x10000000000000000 ∧ d + n + 1 < 0x10000000000000000))) ∧
    ∀ m, IsString memory d m → d + m + n < 0x10000000000000000 →
      (Kept memory (RefusedAppend ctx shadow d m s n limit ∨ Overlaps (d + m) s n) d (d + m) s n
          (strcat ctx shadow memory nullOk d s limit) ↔
        (Overlaps (d + m) s n → RefusedAppend ctx shadow d m s n limit)) := by
  refine ⟨fun fits => ⟨?_, ?_⟩, fun m destination fits => ?_⟩
  · exact copy_kept_iff (strcpy_checks ctx shadow nullOk d limit source) source.inside fits
  · exact copy_kept_iff (stpcpy_checks ctx shadow nullOk d limit source fits) source.inside fits
  · have checks := (strcat_checks ctx shadow nullOk limit destination source fits).congr
      (or_iff_left (b := False) id).symm
    rw [kept_iff checks False.elim, or_iff_left id]

/-- "abc", from 0x1000 on. -/
def abc : Memory := fun address =>
  if address = 0x1000 then 97 else if address = 0x1001 then 98
  else if address = 0x1002 then 99 else 0

theorem abc_isString : IsString abc 0x1000 3 :=
  ⟨by decide, by decide, by decide, by decide⟩

theorem stopsAt_zero_someBad (address n : Nat) (low : 16 ≤ address) (high : address + n ≤ 2 ^ 56) :
    ¬ SomeBad caller (stopsAt 0) address n := by
  rintro ⟨k, below, -, -, bad⟩
  change ¬ Addressable caller (stopsAt 0) (address + k) at bad
  rw [stopsAt_addressable caller (by omega)] at bad
  exact bad fun both => absurd both.1 (by omega)

theorem copies_kept_abc : IsString abc 0x1000 3 ∧ (0x2000 + 3 < 0x10000000000000000 ∧
    Kept abc (Refused caller (stopsAt 0) 0x2000 0x1000 3 4 ∨ Overlaps 0x2000 0x1000 3) 0x2000 0x2000
      0x1000 3 (strcpy caller (stopsAt 0) abc false 0x2000 0x1000 4)) :=
  have apart : ¬ Overlaps 0x2000 0x1000 3 := fun overlap => absurd overlap.2.1 (by decide)
  ⟨abc_isString, by decide,
    ((copies_kept_iff caller (stopsAt 0) abc false 0x2000 0x1000 3 4 abc_isString).1
      (by decide)).1.mpr fun overlap => absurd overlap apart⟩

/-- "abc" with its own "bc" appended: the terminator is overwritten before it is
copied. -/
theorem append_overlaps : ¬ ∀ (ctx : Context) (shadow : Shadow) (memory : Memory) (nullOk : Bool)
    (d m s n limit : Nat), IsString memory d m → IsString memory s n →
      d + m + n < 0x10000000000000000 →
      Kept memory (RefusedAppend ctx shadow d m s n limit ∨ Overlaps (d + m) s n) d (d + m) s n
        (strcat ctx shadow memory nullOk d s limit) := by
  intro all
  have source : IsString abc 0x1001 2 := ⟨by decide, by decide, by decide, by decide⟩
  have checks := strcat_checks caller (stopsAt 0) false 100 abc_isString source (by decide)
  obtain ⟨reports, -⟩ := all caller (stopsAt 0) abc false 0x1000 3 0x1001 2 100 abc_isString source
    (by decide)
  have refused := checks.stops_iff.mp (reports (.inr ⟨by decide, by decide, by decide⟩))
  rcases refused with bad | bad | ⟨k, -, below, bad⟩ | long
  · exact stopsAt_zero_someBad 0x1000 4 (by decide) (by decide) bad
  · exact stopsAt_zero_someBad 0x1001 3 (by decide) (by decide) bad
  · exact stopsAt_zero_someBad 0x1000 6 (by decide) (by decide) ⟨k, below, bad⟩
  · exact absurd long (by decide)

end WeaveC.Calls.Copies
