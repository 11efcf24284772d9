import WeaveC.Pass.InlineSpec
import WeaveC.Runtime.Strings

/-!
# Inline string guards

A marker of a string becomes a call of the string guard, or, when nothing reads
the length and the bound is a small constant, a test of the granules the bound
could reach, with the call behind it.
-/

namespace WeaveC.Pass

open WeaveC.Runtime

/-- The slow path takes the pointer, the bound and the site, as the runtime's
string guard does. -/
def chunkCheckString (ctx : Context) (s : Shadow) (memory : Memory) (address bound : Nat)
    (nullOk : Bool) : Except StringReport Shadow :=
  chunkCheck s address bound true none ((strlen ctx s memory address bound nullOk).map Prod.snd)

/-- The code of a string's marker: the length, where the program reads it, or
the report of the color check of its root or of the string guard.  `max` is the
bound's value, `constant` says it is a constant and `used` that the length is
read. -/
def expandString (ctx : Context) (env : Env) (s : Shadow) (memory : Memory) (little : Bool)
    (pointer : Value) (max : Nat) (constant used nullOk : Bool) (root : Option RootCheck) :
    Except (Report ⊕ StringReport) (Option Nat × Shadow) := do
  let address := (env pointer).toNat
  let s ← match root with
    | none => .ok s
    | some root => (colorCheck ctx env s address 1 root).mapError .inl
  if used = false ∧ constant = true ∧ max ≠ 0 ∧ max ≤ 113 ∧ little = true then
    ((chunkCheckString ctx s memory address max nullOk).map fun s => (none, s)).mapError .inr
  else
    ((strlen ctx s memory address max nullOk).map fun (length, s) => (some length, s)).mapError .inr

variable {ctx : Context} {env : Env} {s : Shadow}

/-- A scan stops inside the bytes its limit bounds. -/
theorem strlen_of_bound {memory : Memory} {address bound : Nat} (nullOk : Bool)
    (nonnull : address ≠ 0)
    (none : unaddressable ctx s (reached ctx s address) bound = ∅) :
    ∃ answer, strlen ctx s memory address bound nullOk = .ok answer := by
  have spec := strlen_spec ctx s memory address bound nullOk
  cases found : strlen ctx s memory address bound nullOk with
  | ok answer => exact ⟨answer, rfl⟩
  | error report =>
      rw [found] at spec
      rcases spec with ⟨null, -⟩ | ⟨-, some⟩
      · exact absurd null nonnull
      · refine absurd ?_ some
        rw [unaddressable_reached_none] at none ⊢
        intro k below
        exact none k (Nat.lt_of_lt_of_le below (scanned_le memory address bound))

theorem chunkCheckString_reports {memory : Memory} {address bound : Nat} (nullOk : Bool)
    (nonnull : address ≠ 0) (nonempty : bound ≠ 0) (short : bound ≤ 113) :
    (∃ r, chunkCheckString ctx s memory address bound nullOk = .error r) ↔
      ∃ r, strlen ctx s memory address bound nullOk = .error r := by
  unfold chunkCheckString
  rw [chunkCheck_eq nonempty short]
  dsimp only
  split
  · rename_i whole
    obtain ⟨answer, passes⟩ : ∃ answer, strlen ctx s memory address bound nullOk = .ok answer :=
      strlen_of_bound nullOk nonnull (guard_of_chunk ctx whole)
    rw [passes]
    exact iff_of_false nofun nofun
  · cases strlen ctx s memory address bound nullOk with
    | ok answer => exact iff_of_false nofun nofun
    | error report => exact iff_of_true ⟨report, rfl⟩ ⟨report, rfl⟩

/-- A string in a marker whose length nothing reads reports as the call does,
whether its bound is tested inline or not. -/
theorem expandString_reports {memory : Memory} {pointer : Value} (little constant nullOk : Bool)
    (max : Nat) (nonnull : (env pointer).toNat ≠ 0) :
    (∃ r, expandString ctx env s memory little pointer max constant false nullOk none = .error r) ↔
      ∃ r, strlen ctx s memory (env pointer).toNat max nullOk = .error r := by
  simp only [expandString, bind, Except.bind, true_and]
  split
  · rename_i inline
    obtain ⟨-, nonempty, short, -⟩ := inline
    rw [← chunkCheckString_reports nullOk nonnull nonempty short]
    cases chunkCheckString ctx s memory (env pointer).toNat max nullOk with
    | ok answer => exact iff_of_false nofun nofun
    | error report => exact iff_of_true ⟨.inr report, rfl⟩ ⟨report, rfl⟩
  · cases strlen ctx s memory (env pointer).toNat max nullOk with
    | ok answer => exact iff_of_false nofun nofun
    | error report => exact iff_of_true ⟨.inr report, rfl⟩ ⟨report, rfl⟩

/-- The string guard reports if and only if one of the bytes up to the first
zero byte, or up to its limit, is unaddressable, and otherwise returns the
string's length up to the limit; the inline form reports exactly when the call
with its bound does. -/
theorem strlen_forms_agree (ctx : Context) (env : Env) (s : Shadow) (memory : Memory)
    (pointer : Value) (nullOk : Bool) (nonnull : (env pointer).toNat ≠ 0) :
    (∀ max : Nat,
      ((∃ r, strlen ctx s memory (env pointer).toNat max nullOk = .error r) ↔
        ∃ k : Nat, (k : ℕ∞) < min (distance memory (env pointer).toNat + 1) max ∧
          Bad ctx s (env pointer).toNat k) ∧
      ∀ length s', strlen ctx s memory (env pointer).toNat max nullOk = .ok (length, s') →
        (length : ℕ∞) = min (distance memory (env pointer).toNat) max) ∧
    ∀ bound ≤ 113,
      ((∃ r, expandString ctx env s memory true pointer bound true false nullOk none = .error r) ↔
        ∃ r, strlen ctx s memory (env pointer).toNat bound nullOk = .error r) := by
  refine ⟨fun max => ?_, fun bound _ => expandString_reports true true nullOk bound nonnull⟩
  have spec := strlen_spec ctx s memory (env pointer).toNat max nullOk
  simp only [← scanned_eq_min, ← strnlen_eq_min, Nat.cast_lt, Nat.cast_inj]
  rw [← not_iff_not]
  simp only [not_exists, not_and, ← unaddressable_reached_none]
  cases found : strlen ctx s memory (env pointer).toNat max nullOk with
  | ok answer =>
      obtain ⟨length, s'⟩ := answer
      rw [found] at spec
      rcases spec with ⟨-, ⟨null, -⟩ | ⟨-, same, none⟩⟩
      · exact absurd null nonnull
      · refine ⟨iff_of_true nofun none, fun length' s'' answer => ?_⟩
        cases answer
        exact same
  | error report =>
      rw [found] at spec
      rcases spec with ⟨null, -⟩ | ⟨-, some⟩
      · exact absurd null nonnull
      · exact ⟨iff_of_false (fun none => none report rfl) some, nofun⟩

/-- "abc", from 0x1000 on. -/
def letters (address : Nat) : UInt8 :=
  if address = 0x1000 then 97 else if address = 0x1001 then 98
  else if address = 0x1002 then 99 else 0

theorem strlen_forms_agree_letters :
    (∃ s', strlen quiet blank letters 0x1000 64 false = .ok (3, s')) ∧
      ((3 : Nat) : ℕ∞) = min (distance letters 0x1000) 64 ∧
        ¬ ∃ r, expandString quiet (fun _ => 0x1000#64) blank letters true 0 64 true false false
          none = .error r := by
  obtain ⟨s', passed⟩ : ∃ s', strlen quiet blank letters 0x1000 64 false = .ok (3, s') := ⟨_, rfl⟩
  have agree := strlen_forms_agree quiet (fun _ => 0x1000#64) blank letters 0 false (by decide)
  refine ⟨⟨s', passed⟩, (agree.1 64).2 3 s' passed, fun reports => ?_⟩
  obtain ⟨r, report⟩ := (agree.2 64 (by decide)).mp reports
  cases passed.symm.trans report

end WeaveC.Pass
