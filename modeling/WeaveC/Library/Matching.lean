import Mathlib.Tactic.Common
import Mathlib.Data.List.Basic

/-!
# Backtracking patterns

A pattern gives every way in which it matches a start of the text, each with
the text behind it, in order of preference; a match is the first of them.
-/

namespace WeaveC.Library

abbrev Pattern (σ α : Type) := List σ → List (α × List σ)

namespace Pattern

variable {σ α β γ : Type}

/-- The word itself. -/
def lit [DecidableEq σ] (word : List σ) : Pattern σ Unit := fun text =>
  if word <+: text then [((), text.drop word.length)] else []

def bind (p : Pattern σ α) (q : α → Pattern σ β) : Pattern σ β := fun text =>
  (p text).flatMap fun m => q m.1 m.2

def map (f : α → β) (p : Pattern σ α) : Pattern σ β := fun text =>
  (p text).map fun m => (f m.1, m.2)

/-- Either, the first preferred. -/
def orElse (p q : Pattern σ α) : Pattern σ α := fun text => p text ++ q text

/-- The pattern, or, less preferred, nothing. -/
def maybe (p : Pattern σ α) : Pattern σ (Option α) := fun text =>
  (p text).map (fun m => (some m.1, m.2)) ++ [(none, text)]

/-- Symbols of a class, at least one; the more the better. -/
def many1 (member : σ → Bool) : Pattern σ (List σ)
  | [] => []
  | c :: text =>
      if member c then (many1 member text).map (fun m => (c :: m.1, m.2)) ++ [([c], text)] else []

/-- Symbols of a class, at least one; the fewer the better. -/
def few1 (member : σ → Bool) : Pattern σ (List σ)
  | [] => []
  | c :: text =>
      if member c then ([c], text) :: (few1 member text).map (fun m => (c :: m.1, m.2)) else []

/-- What the preferred match comes to. -/
def first (p : Pattern σ α) (text : List σ) : Option α := (p text).head?.map Prod.fst

/-! ## What a match says of the text -/

theorem mem_lit [DecidableEq σ] {word text rest : List σ} {a : Unit}
    (mem : (a, rest) ∈ lit word text) : text = word ++ rest := by
  unfold lit at mem
  split_ifs at mem with start
  · obtain ⟨rest', rfl⟩ := start
    simpa using (List.mem_singleton.mp mem).symm
  · simp at mem

theorem mem_bind {p : Pattern σ α} {q : α → Pattern σ β} {text rest : List σ} {b : β}
    (mem : (b, rest) ∈ bind p q text) : ∃ a mid, (a, mid) ∈ p text ∧ (b, rest) ∈ q a mid := by
  obtain ⟨⟨a, mid⟩, first, next⟩ := List.mem_flatMap.mp mem
  exact ⟨a, mid, first, next⟩

theorem mem_map {f : α → β} {p : Pattern σ α} {text rest : List σ} {b : β}
    (mem : (b, rest) ∈ map f p text) : ∃ a, (a, rest) ∈ p text ∧ f a = b := by
  obtain ⟨⟨a, rest'⟩, found, same⟩ := List.mem_map.mp mem
  obtain ⟨value, rfl⟩ := Prod.mk.inj same
  exact ⟨a, found, value⟩

theorem mem_many1 {member : σ → Bool} {text run rest : List σ}
    (mem : (run, rest) ∈ many1 member text) :
    text = run ++ rest ∧ run ≠ [] ∧ ∀ c ∈ run, member c = true := by
  induction text generalizing run with
  | nil => simp [many1] at mem
  | cons c text inductionHypothesis =>
      unfold many1 at mem
      split_ifs at mem with own
      · rcases List.mem_append.mp mem with more | one
        · obtain ⟨⟨run', rest'⟩, found, same⟩ := List.mem_map.mp more
          obtain ⟨rfl, rfl⟩ := Prod.mk.inj same
          obtain ⟨rfl, -, all⟩ := inductionHypothesis found
          exact ⟨rfl, by simp, List.forall_mem_cons.mpr ⟨own, all⟩⟩
        · obtain ⟨rfl, rfl⟩ := Prod.mk.inj (List.mem_singleton.mp one)
          exact ⟨rfl, by simp, by simpa using own⟩
      · simp at mem

theorem mem_few1 {member : σ → Bool} {text run rest : List σ}
    (mem : (run, rest) ∈ few1 member text) : text = run ++ rest ∧ run ≠ [] := by
  induction text generalizing run with
  | nil => simp [few1] at mem
  | cons c text inductionHypothesis =>
      unfold few1 at mem
      split_ifs at mem with own
      · rcases List.mem_cons.mp mem with one | more
        · obtain ⟨rfl, rfl⟩ := Prod.mk.inj one
          exact ⟨rfl, by simp⟩
        · obtain ⟨⟨run', rest'⟩, found, same⟩ := List.mem_map.mp more
          obtain ⟨rfl, rfl⟩ := Prod.mk.inj same
          obtain ⟨rfl, -⟩ := inductionHypothesis found
          exact ⟨rfl, by simp⟩
      · simp at mem

/-! ## How a pattern matches a text made for it -/

@[simp] theorem lit_append [DecidableEq σ] (word rest : List σ) :
    lit word (word ++ rest) = [((), rest)] := by
  unfold lit
  rw [if_pos (List.prefix_append word rest), List.drop_left]

/-- The first symbol decides. -/
theorem lit_of_ne [DecidableEq σ] {c d : σ} (other : c ≠ d) (word text : List σ) :
    lit (c :: word) (d :: text) = [] := by
  unfold lit
  rw [if_neg]
  intro start
  exact other (List.cons_prefix_cons.mp start).1

theorem bind_lit [DecidableEq σ] (word rest : List σ) (q : Unit → Pattern σ β) :
    bind (lit word) q (word ++ rest) = q () rest := by
  simp [bind]

theorem bind_lit_single [DecidableEq σ] (c : σ) (rest : List σ) (q : Unit → Pattern σ β) :
    bind (lit [c]) q (c :: rest) = q () rest :=
  bind_lit [c] rest q

theorem bind_of_nil {p : Pattern σ α} {text : List σ} (fails : p text = [])
    (q : α → Pattern σ β) : bind p q text = [] := by
  simp [bind, fails]

theorem bind_assoc (p : Pattern σ α) (q : α → Pattern σ β) (r : β → Pattern σ γ) :
    bind (bind p q) r = bind p fun a => bind (q a) r := by
  funext text
  unfold bind
  rw [List.flatMap_assoc]

theorem bind_map (f : α → β) (p : Pattern σ α) (q : β → Pattern σ γ) :
    bind (map f p) q = bind p fun a => q (f a) := by
  funext text
  unfold bind map
  rw [List.flatMap_map]

theorem bind_orElse (p p' : Pattern σ α) (q : α → Pattern σ β) :
    bind (orElse p p') q = orElse (bind p q) (bind p' q) := by
  funext text
  unfold bind orElse
  rw [List.flatMap_append]

theorem bind_maybe (p : Pattern σ α) (q : Option α → Pattern σ β) (text : List σ) :
    bind (maybe p) q text = bind p (fun a => q (some a)) text ++ q none text := by
  unfold bind maybe
  rw [List.flatMap_append, List.flatMap_map]
  simp

theorem many1_of_stop {member : σ → Bool} {rest : List σ}
    (stop : ∀ c ∈ rest.head?, member c = false) : many1 member rest = [] := by
  cases rest with
  | nil => rfl
  | cons c rest =>
      unfold many1
      rw [stop c (by simp)]
      rfl

/-- A run is taken whole where what comes next does not begin in the class. -/
theorem bind_many1 {member : σ → Bool} {run rest : List σ} {q : List σ → Pattern σ β}
    (nonempty : run ≠ []) (all : ∀ c ∈ run, member c = true)
    (stop : ∀ c ∈ rest.head?, member c = false)
    (next : ∀ w c text, member c = true → q w (c :: text) = []) :
    bind (many1 member) q (run ++ rest) = q run rest := by
  induction run generalizing q with
  | nil => exact absurd rfl nonempty
  | cons c run inductionHypothesis =>
      have own := all c List.mem_cons_self
      rw [List.cons_append]
      unfold bind many1
      rw [if_pos own, List.flatMap_append, List.flatMap_map]
      cases run with
      | nil =>
          rw [List.nil_append, many1_of_stop stop]
          simp
      | cons d run =>
          have short : q [c] (d :: run ++ rest) = [] := next _ _ _ (all d (by simp))
          rw [List.flatMap_singleton, short, List.append_nil]
          exact inductionHypothesis (q := fun w => q (c :: w)) (by simp)
            (fun e mem => all e (List.mem_cons_of_mem _ mem)) fun w => next (c :: w)

/-- A run is taken to where what comes next first matches. -/
theorem bind_few1 {member : σ → Bool} {run rest : List σ} {q : List σ → Pattern σ β}
    (nonempty : run ≠ []) (all : ∀ c ∈ run, member c = true)
    (early : ∀ w t, w ≠ [] → t ≠ [] → run = w ++ t → q w (t ++ rest) = []) :
    ∃ more, bind (few1 member) q (run ++ rest) = q run rest ++ more := by
  induction run generalizing q with
  | nil => exact absurd rfl nonempty
  | cons c run inductionHypothesis =>
      have own := all c List.mem_cons_self
      rw [List.cons_append]
      unfold bind few1
      rw [if_pos own, List.flatMap_cons, List.flatMap_map]
      cases run with
      | nil => exact ⟨_, rfl⟩
      | cons d run =>
          have short : q [c] (d :: run ++ rest) = [] := early [c] (d :: run) (by simp) (by simp) rfl
          obtain ⟨more, same⟩ := inductionHypothesis (q := fun w => q (c :: w)) (by simp)
            (fun e mem => all e (List.mem_cons_of_mem _ mem)) fun w t _ later split =>
              early (c :: w) t (by simp) later (by rw [split, List.cons_append])
          refine ⟨more, ?_⟩
          rw [short, List.nil_append]
          exact same

theorem first_of_eq {p : Pattern σ α} {text rest : List σ} {a : α} {more : List (α × List σ)}
    (eq : p text = (a, rest) :: more) : first p text = some a := by
  unfold first
  rw [eq]
  rfl

theorem first_of_nil {p : Pattern σ α} {text : List σ} (eq : p text = []) :
    first p text = none := by
  unfold first
  rw [eq]
  rfl

end Pattern

/-- Where a mark stands in two readings of one text, the first of which has no
mark before it. -/
theorem split_at_mark {σ : Type} {d : σ} {l t x y : List σ} (clear : d ∉ l)
    (same : l ++ d :: x = t ++ d :: y) :
    t = l ∧ x = y ∨ ∃ t', t = l ++ d :: t' ∧ x = t' ++ d :: y := by
  induction l generalizing t with
  | nil =>
      cases t with
      | nil => exact .inl ⟨rfl, (List.cons.inj same).2⟩
      | cons c t =>
          obtain ⟨rfl, rest⟩ := List.cons.inj same
          exact .inr ⟨t, rfl, rest⟩
  | cons c l inductionHypothesis =>
      cases t with
      | nil =>
          obtain ⟨rfl, -⟩ := List.cons.inj same
          exact absurd List.mem_cons_self clear
      | cons e t =>
          obtain ⟨rfl, rest⟩ := List.cons.inj same
          rcases inductionHypothesis (fun mem => clear (List.mem_cons_of_mem _ mem)) rest with
            ⟨rfl, rfl⟩ | ⟨t', rfl, rfl⟩
          · exact .inl ⟨rfl, rfl⟩
          · exact .inr ⟨t', rfl, rfl⟩

end WeaveC.Library
