import Mathlib.Data.List.Basic

/-!
# Scanners

A scanner reads a text one symbol at a time until its state has no move.  When
some text leads from every state to an accepting one, the symbols it reads are
the longest prefix that some text of the language extends.
-/

namespace WeaveC.Library

variable {σ α : Type*}

structure Scanner (σ α : Type*) where
  step : σ → α → Option σ
  accepting : σ → Bool

namespace Scanner

variable (m : Scanner σ α)

/-- The texts that lead from a state to an accepting one. -/
def Accepts : σ → List α → Prop
  | s, [] => m.accepting s = true
  | s, c :: text => ∃ s', m.step s c = some s' ∧ Accepts s' text

/-- How many symbols a scan reads, and the state it stops in. -/
def walk : σ → List α → Nat × σ
  | s, [] => (0, s)
  | s, c :: text =>
      match m.step s c with
      | none => (0, s)
      | some s' => ((walk s' text).1 + 1, (walk s' text).2)

/-- Some text of the language begins with `text`. -/
def Extends (language : List α → Prop) (text : List α) : Prop := ∃ rest, language (text ++ rest)

variable {m}

/-- A family of languages, one a state, is what the states accept when it agrees
with one step. -/
theorem accepts_iff {language : σ → List α → Prop}
    (nil : ∀ s, language s [] ↔ m.accepting s = true)
    (cons : ∀ s c text, language s (c :: text) ↔ ∃ s', m.step s c = some s' ∧ language s' text)
    (s : σ) (text : List α) : m.Accepts s text ↔ language s text := by
  induction text generalizing s with
  | nil => exact (nil s).symm
  | cons c text inductionHypothesis =>
      rw [cons]
      exact exists_congr fun s' => and_congr_right fun _ => inductionHypothesis s'

theorem walk_cons {s s' : σ} {c : α} (moved : m.step s c = some s') (text : List α) :
    m.walk s (c :: text) = ((m.walk s' text).1 + 1, (m.walk s' text).2) := by
  rw [walk, moved]

theorem walk_stuck {s : σ} {c : α} (stuck : m.step s c = none) (text : List α) :
    m.walk s (c :: text) = (0, s) := by
  rw [walk, stuck]

theorem walk_stays {s : σ} {text : List α} (stays : (m.walk s text).1 = 0) :
    (m.walk s text).2 = s := by
  cases text with
  | nil => rfl
  | cons c text =>
      cases moved : m.step s c with
      | none => rw [walk_stuck moved]
      | some s' =>
          rw [walk_cons moved] at stays
          cases stays

/-- A scan that moves ends in a state that some move leads to, from the first
state or one that a move leads to. -/
theorem exists_last {s : σ} {text : List α} (moves : (m.walk s text).1 ≠ 0) :
    ∃ s' c, (s' = s ∨ ∃ s'' d, m.step s'' d = some s') ∧ m.step s' c = some (m.walk s text).2 := by
  induction text generalizing s with
  | nil => exact absurd rfl moves
  | cons c text inductionHypothesis =>
      cases moved : m.step s c with
      | none =>
          rw [walk_stuck moved] at moves
          exact absurd rfl moves
      | some s₁ =>
          rw [walk_cons moved]
          by_cases more : (m.walk s₁ text).1 = 0
          · refine ⟨s, c, .inl rfl, ?_⟩
            rw [walk_stays more, moved]
          · obtain ⟨s', d, before, last⟩ := inductionHypothesis more
            refine ⟨s', d, .inr ?_, last⟩
            rcases before with rfl | led
            · exact ⟨s, c, moved⟩
            · exact led

theorem walk_le (s : σ) (text : List α) : (m.walk s text).1 ≤ text.length := by
  induction text generalizing s with
  | nil => exact Nat.le_refl 0
  | cons c text inductionHypothesis =>
      unfold walk
      cases moved : m.step s c with
      | none => exact Nat.zero_le _
      | some s' => exact Nat.succ_le_succ (inductionHypothesis s')

theorem extends_take_iff (live : ∀ s, ∃ text, m.Accepts s text) (s : σ) (text : List α) {n : Nat}
    (inside : n ≤ text.length) :
    Extends (m.Accepts s) (text.take n) ↔ n ≤ (m.walk s text).1 := by
  induction text generalizing s n with
  | nil =>
      obtain rfl : n = 0 := Nat.le_zero.mp inside
      exact iff_of_true (live s) (Nat.zero_le _)
  | cons c text inductionHypothesis =>
      cases n with
      | zero => exact iff_of_true (live s) (Nat.zero_le _)
      | succ n =>
          have shorter := Nat.le_of_succ_le_succ inside
          unfold walk
          cases moved : m.step s c with
          | none =>
              refine iff_of_false ?_ (Nat.not_succ_le_zero n)
              rintro ⟨rest, s', moved', -⟩
              rw [moved] at moved'
              cases moved'
          | some s' =>
              rw [Nat.succ_le_succ_iff, ← inductionHypothesis s' shorter]
              constructor
              · rintro ⟨rest, s'', moved', accepted⟩
                rw [moved] at moved'
                cases moved'
                exact ⟨rest, accepted⟩
              · rintro ⟨rest, accepted⟩
                exact ⟨rest, s', moved, accepted⟩

/-- Where the scan stops its text is accepted if its state is. -/
theorem accepts_walk_iff (s : σ) (text : List α) :
    m.Accepts s (text.take (m.walk s text).1) ↔ m.accepting (m.walk s text).2 = true := by
  induction text generalizing s with
  | nil => exact Iff.rfl
  | cons c text inductionHypothesis =>
      unfold walk
      cases moved : m.step s c with
      | none => exact Iff.rfl
      | some s' =>
          dsimp only
          rw [List.take_succ_cons, ← inductionHypothesis s']
          constructor
          · rintro ⟨s'', moved', accepted⟩
            rw [moved] at moved'
            cases moved'
            exact accepted
          · intro accepted
            exact ⟨s', moved, accepted⟩

theorem le_walk_of_accepts {s : σ} {text : List α} {n : Nat} (inside : n ≤ text.length)
    (accepted : m.Accepts s (text.take n)) (live : ∀ s, ∃ text, m.Accepts s text) :
    n ≤ (m.walk s text).1 :=
  (extends_take_iff live s text inside).mp ⟨[], by rwa [List.append_nil]⟩

end Scanner

end WeaveC.Library
