import Mathlib.Tactic.Common

/-!
# Readers of a text

A reader takes symbols from the front of a text, or fails, or is tired: its loop
has run for longer than the text is.  A loop that takes a symbol each time round
is never tired.
-/

namespace WeaveC.Library

/-- Why a reader stops. -/
inductive Failure (E : Type) where
  | tired
  | failed (why : E)
  deriving DecidableEq

/-- What is read, and the text behind it. -/
abbrev Reader (τ E : Type) := StateT (List τ) (Except (Failure E))

/-- What a program of readers comes to: it is not tired, and what it gives is a
`P`. -/
def Safe {E α : Type} (x : Except (Failure E) α) (P : α → Prop) : Prop :=
  match x with
  | .ok a => P a
  | .error .tired => False
  | .error (.failed _) => True

namespace Safe

variable {E α β : Type} {x : Except (Failure E) α} {P P' : α → Prop}

theorem of_ok {a : α} (safe : Safe x P) (gave : x = .ok a) : P a := by
  rw [gave] at safe
  exact safe

theorem not_tired (safe : Safe x P) : x ≠ .error .tired := by
  rintro rfl
  exact safe

theorem mono (safe : Safe x P) (weaker : ∀ a, P a → P' a) : Safe x P' := by
  cases x with
  | ok a => exact weaker a safe
  | error why =>
      cases why with
      | tired => exact safe
      | failed why => exact safe

theorem bind {f : α → Except (Failure E) β} {P : β → Prop} (safe : Safe x fun a => Safe (f a) P) :
    Safe (x >>= f) P := by
  cases x with
  | ok a => exact safe
  | error why =>
      cases why with
      | tired => exact safe
      | failed why => exact safe

/-- A program over a list, each step of which keeps `P`. -/
theorem foldlM {f : α → β → Except (Failure E) α} (step : ∀ a b, P a → Safe (f a b) P)
    (bs : List β) {a : α} (start : P a) : Safe (bs.foldlM f a) P := by
  induction bs generalizing a with
  | nil => exact start
  | cons b bs inductionHypothesis =>
      rw [List.foldlM_cons]
      exact ((step a b start).mono fun a' => inductionHypothesis).bind

end Safe

namespace Reader

variable {τ E α β σ : Type}

def fail (why : E) : Reader τ E α := fun _ => .error (.failed why)

/-- The reader with a failure's reason told in another way. -/
def explain (f : E → E) (p : Reader τ E α) : Reader τ E α := fun text =>
  match p text with
  | .error (.failed why) => .error (.failed (f why))
  | other => other

/-- The rounds of a loop; a round either goes on with another state or leaves the
loop. -/
def rounds (body : σ → Reader τ E (σ ⊕ β)) : Nat → σ → Reader τ E β
  | 0, _ => fun _ => .error .tired
  | fuel + 1, s => do
      match ← body s with
      | .inl s => rounds body fuel s
      | .inr b => pure b

def loop (body : σ → Reader τ E (σ ⊕ β)) (s : σ) : Reader τ E β := fun text =>
  rounds body (text.length + 1) s text

/-! ## What a reader leaves -/

/-- A reader that is not tired, and what it gives of a text of `n` symbols, with
how many of them it leaves, is `Q`. -/
def Ends (p : Reader τ E α) (Q : α → Nat → Prop) (n : Nat) : Prop :=
  ∀ text : List τ, text.length = n → Safe (p text) fun read => Q read.1 read.2.length

variable {p : Reader τ E α} {Q Q' : α → Nat → Prop} {n : Nat}

theorem Ends.mono (ends : Ends p Q n) (weaker : ∀ a m, Q a m → Q' a m) : Ends p Q' n :=
  fun text length => (ends text length).mono fun read => weaker read.1 read.2.length

theorem ends_pure {a : α} (holds : Q a n) : Ends (pure a : Reader τ E α) Q n := by
  rintro text rfl
  exact holds

theorem ends_fail {why : E} : Ends (fail why : Reader τ E α) Q n := fun _ _ => trivial

theorem ends_bind {f : α → Reader τ E β} {Q : β → Nat → Prop}
    (ends : Ends p (fun a m => Ends (f a) Q m) n) : Ends (p >>= f) Q n := by
  intro text length
  have next : Safe (p text) fun read => Safe (f read.1 read.2) fun read => Q read.1 read.2.length :=
    (ends text length).mono fun read next => next read.2 rfl
  exact next.bind

theorem ends_ite {c : Prop} [Decidable c] {q : Reader τ E α} (pos : c → Ends p Q n)
    (neg : ¬ c → Ends q Q n) : Ends (if c then p else q) Q n := by
  split
  · rename_i holds
    exact pos holds
  · rename_i fails
    exact neg fails

theorem ends_explain {f : E → E} (ends : Ends p Q n) : Ends (explain f p) Q n := by
  intro text length
  have here := ends text length
  unfold explain
  revert here
  cases p text with
  | ok read => exact id
  | error why =>
      cases why with
      | tired => exact id
      | failed why => exact id

/-- A loop whose rounds keep `I` and take a symbol each. -/
theorem ends_loop {body : σ → Reader τ E (σ ⊕ β)} {Q : β → Nat → Prop} (I : σ → Nat → Prop)
    (round : ∀ s n, I s n →
      Ends (body s) (Sum.elim (fun s' m => m < n ∧ I s' m) Q) n)
    {s : σ} (start : I s n) : Ends (loop body s) Q n := by
  have run (fuel : Nat) : ∀ s n, n < fuel → I s n → Ends (rounds body fuel s) Q n := by
    induction fuel with
    | zero => exact fun s n enough _ => absurd enough (Nat.not_lt_zero n)
    | succ fuel inductionHypothesis =>
        intro s n enough holds
        refine ends_bind ((round s n holds).mono fun next m left => ?_)
        cases next with
        | inl s' => exact inductionHypothesis s' m (by have := left.1; omega) left.2
        | inr b => exact ends_pure left
  rintro text rfl
  exact run _ s _ (Nat.lt_succ_self _) start text rfl

/-! ## What a reader gives -/

/-- A reader that is never tired, leaves no more than it was given and gives a
`P`. -/
def Gives (p : Reader τ E α) (P : α → Prop) : Prop := ∀ n, Ends p (fun a m => P a ∧ m ≤ n) n

variable {P P' : α → Prop}

theorem gives_pure {a : α} (holds : P a) : Gives (pure a : Reader τ E α) P :=
  fun _ => ends_pure ⟨holds, Nat.le_refl _⟩

theorem gives_fail {why : E} : Gives (fail why : Reader τ E α) P := fun _ => ends_fail

theorem gives_ite {c : Prop} [Decidable c] {q : Reader τ E α} (pos : c → Gives p P)
    (neg : ¬ c → Gives q P) : Gives (if c then p else q) P :=
  fun n => ends_ite (fun holds => pos holds n) fun fails => neg fails n

theorem gives_explain {f : E → E} (gives : Gives p P) : Gives (explain f p) P :=
  fun n => ends_explain (gives n)

theorem gives_bind {f : α → Reader τ E β} {P' : β → Prop} (first : Gives p P)
    (next : ∀ a, P a → Gives (f a) P') : Gives (p >>= f) P' := by
  intro n
  refine ends_bind ((first n).mono fun a m left => ?_)
  refine (next a left.1 m).mono fun b k left' => ?_
  exact ⟨left'.1, Nat.le_trans left'.2 left.2⟩

/-- A round of a loop: it keeps `I` and takes a symbol if the loop goes on, and
gives a `P` if not. -/
def Round (body : Reader τ E (σ ⊕ β)) (I : σ → Prop) (P : β → Prop) : Prop :=
  ∀ n, Ends body (Sum.elim (fun s m => I s ∧ m < n) fun b m => P b ∧ m ≤ n) n

theorem Gives.round {p : Reader τ E (σ ⊕ β)} {I : σ → Prop} {P : β → Prop} {m : Nat}
    (gives : Gives p (Sum.elim I P)) (fewer : m < n) :
    Ends p (Sum.elim (fun s k => I s ∧ k < n) fun b k => P b ∧ k ≤ n) m := by
  refine (gives m).mono fun next k left => ?_
  cases next with
  | inl s => exact ⟨left.1, Nat.lt_of_le_of_lt left.2 fewer⟩
  | inr b => exact ⟨left.1, Nat.le_trans left.2 (Nat.le_of_lt fewer)⟩

theorem gives_loop {body : σ → Reader τ E (σ ⊕ β)} {P : β → Prop} (I : σ → Prop)
    (round : ∀ s, I s → Round (body s) I P) {s : σ} (start : I s) : Gives (loop body s) P := by
  intro n
  refine ends_loop (fun s m => I s ∧ m ≤ n) (fun s m holds => ?_) ⟨start, Nat.le_refl n⟩
  refine (round s holds.1 m).mono fun next k left => ?_
  cases next with
  | inl s' =>
      refine ⟨left.2, left.1, ?_⟩
      have shorter : k < m := left.2
      have within := holds.2
      omega
  | inr b => exact ⟨left.1, Nat.le_trans left.2 holds.2⟩

end Reader

end WeaveC.Library
