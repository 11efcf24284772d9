import Mathlib.Data.List.Nodup
import Mathlib.Data.Set.Function
import Mathlib.Order.Interval.Set.Basic
import Mathlib.Tactic.Common

/-!
# Lists threaded through an array

A list whose cells are indices of an array of links.  A link, like the head,
is one more than the index it names, and 0 ends the list.

`Chain` is such a list with only its head kept, `Queue` one whose last cell is
kept too.  A chain determines its cells, so it repeats none: a link structure
with a cycle is no chain, and stays none however many cells are put in front.
-/

namespace WeaveC.Library

variable {next : Nat → Nat} {head s : Nat} {l : List Nat}

/-- The cells `l`, linked from `head` by `next`. -/
def Chain (next : Nat → Nat) : Nat → List Nat → Prop
  | head, [] => head = 0
  | head, s :: l => head = s + 1 ∧ Chain next (next s) l

namespace Chain

@[simp] theorem nil_iff : Chain next head [] ↔ head = 0 := Iff.rfl

@[simp] theorem cons_iff : Chain next head (s :: l) ↔ head = s + 1 ∧ Chain next (next s) l :=
  Iff.rfl

theorem unique {l' : List Nat} (chain : Chain next head l) (chain' : Chain next head l') :
    l = l' := by
  induction l generalizing head l' with
  | nil =>
      cases l' with
      | nil => rfl
      | cons s l' => simp_all
  | cons s l inductionHypothesis =>
      cases l' with
      | nil => simp_all
      | cons s' l' =>
          obtain ⟨here, rest⟩ := chain
          obtain ⟨here', rest'⟩ := chain'
          obtain rfl : s = s' := by omega
          rw [inductionHypothesis rest rest']

theorem suffix {l₁ l₂ : List Nat} (chain : Chain next head (l₁ ++ s :: l₂)) :
    Chain next (next s) l₂ := by
  induction l₁ generalizing head with
  | nil => exact chain.2
  | cons s' l₁ inductionHypothesis => exact inductionHypothesis chain.2

/-- A cell met twice would be followed by two different lists. -/
theorem nodup (chain : Chain next head l) : l.Nodup := by
  induction l generalizing head with
  | nil => exact List.nodup_nil
  | cons s l inductionHypothesis =>
      refine List.nodup_cons.mpr ⟨?_, inductionHypothesis chain.2⟩
      intro twice
      obtain ⟨l₁, l₂, rfl⟩ := List.append_of_mem twice
      have same : l₁ ++ s :: l₂ = l₂ := unique chain.2 (suffix chain.2)
      have := congrArg List.length same
      simp at this
      omega

theorem congr {next' : Nat → Nat} (chain : Chain next head l)
    (same : ∀ s ∈ l, next' s = next s) : Chain next' head l := by
  induction l generalizing head with
  | nil => exact chain
  | cons s l inductionHypothesis =>
      obtain ⟨here, rest⟩ := chain
      refine ⟨here, ?_⟩
      rw [same s (by simp)]
      exact inductionHypothesis rest fun s' mem => same s' (by simp [mem])

theorem update {v : Nat} (chain : Chain next head l) (outside : s ∉ l) :
    Chain (Function.update next s v) head l :=
  chain.congr fun _ mem => Function.update_of_ne (ne_of_mem_of_not_mem mem outside) _ _

theorem push (chain : Chain next head l) (outside : s ∉ l) :
    Chain (Function.update next s head) (s + 1) (s :: l) := by
  refine ⟨rfl, ?_⟩
  rw [Function.update_self]
  exact chain.update outside

theorem pop (chain : Chain next head l) (some : head ≠ 0) :
    ∃ l', l = (head - 1) :: l' ∧ Chain next (next (head - 1)) l' := by
  cases l with
  | nil => exact absurd chain some
  | cons s l' =>
      obtain ⟨rfl, rest⟩ := chain
      exact ⟨l', rfl, rest⟩

/-- A new last cell. -/
theorem append (chain : Chain next head (l ++ [s])) {s' : Nat} (outside : s' ∉ l ++ [s]) :
    Chain (Function.update (Function.update next s' 0) s (s' + 1)) head (l ++ [s, s']) := by
  have distinct := chain.nodup
  induction l generalizing head with
  | nil =>
      obtain ⟨here, -⟩ := chain
      have other : s' ≠ s := by simpa using outside
      simp [here, other]
  | cons s₀ l inductionHypothesis =>
      obtain ⟨here, rest⟩ := chain
      have distinct' := List.nodup_cons.mp distinct
      have ne : s₀ ≠ s := fun same => distinct'.1 (by simp [same])
      have ne' : s₀ ≠ s' := fun same => outside (by simp [same])
      refine ⟨here, ?_⟩
      rw [Function.update_of_ne ne, Function.update_of_ne ne']
      exact inductionHypothesis rest (fun mem => outside (List.mem_cons_of_mem _ mem))
        distinct'.2

end Chain

/-- A chain whose last cell is kept too, so that a cell can be put behind it. -/
structure Queue (next : Nat → Nat) (head tail : Nat) (l : List Nat) : Prop where
  chain : Chain next head l
  last : l = [] ∧ tail = 0 ∨ ∃ l', l = l' ++ [tail - 1] ∧ tail ≠ 0

namespace Queue

variable {tail : Nat}

theorem empty_iff (queue : Queue next head tail l) : tail = 0 ↔ l = [] := by
  rcases queue.last with ⟨rfl, zero⟩ | ⟨l', rfl, some⟩
  · simp [zero]
  · simp [some]

theorem head_iff (queue : Queue next head tail l) : head = 0 ↔ l = [] := by
  constructor
  · intro zero
    cases l with
    | nil => rfl
    | cons s l =>
        have := queue.chain.1
        omega
  · rintro rfl
    exact queue.chain

theorem tail_mem (queue : Queue next head tail l) (some : tail ≠ 0) : tail - 1 ∈ l := by
  rcases queue.last with ⟨-, zero⟩ | ⟨l', rfl, -⟩
  · exact absurd zero some
  · simp

theorem update {v : Nat} (queue : Queue next head tail l) (outside : s ∉ l) :
    Queue (Function.update next s v) head tail l :=
  ⟨queue.chain.update outside, queue.last⟩

/-- The first cell of an empty queue. -/
theorem enqueue_first (queue : Queue next head 0 l) (s : Nat) :
    Queue (Function.update next s 0) (s + 1) (s + 1) (l ++ [s]) := by
  obtain rfl : l = [] := queue.empty_iff.mp rfl
  exact ⟨by simp, .inr ⟨[], by simp⟩⟩

theorem enqueue (queue : Queue next head tail l) (some : tail ≠ 0) (outside : s ∉ l) :
    Queue (Function.update (Function.update next s 0) (tail - 1) (s + 1)) head (s + 1)
      (l ++ [s]) := by
  rcases queue.last with ⟨-, zero⟩ | ⟨l', rfl, -⟩
  · exact absurd zero some
  · have longer := queue.chain.append outside
    exact ⟨by simpa using longer, .inr ⟨l' ++ [tail - 1], by simp⟩⟩

/-- A cell in front of a queue; of an empty one it is the last too. -/
theorem push (queue : Queue next head tail l) (outside : s ∉ l) :
    Queue (Function.update next s head) (s + 1) (if head = 0 then s + 1 else tail) (s :: l) := by
  refine ⟨queue.chain.push outside, .inr ?_⟩
  rcases queue.last with ⟨rfl, -⟩ | ⟨l', rfl, some⟩
  · have zero : head = 0 := queue.chain
    exact ⟨[], by simp [zero]⟩
  · have nonzero : head ≠ 0 := fun zero => by simpa using queue.head_iff.mp zero
    exact ⟨s :: l', by simp [nonzero, some]⟩

end Queue

/-! ## Segments

The part `[low, high)` of an array that lists a set, each member once. -/

section Segment

variable {α : Type*} {f : Nat → α} {low high : Nat} {S : Set α}

/-- The cells from `low` up to `high` list `S`. -/
def Segment (f : Nat → α) (low high : Nat) (S : Set α) : Prop :=
  Set.BijOn f (Set.Ico low high) S

namespace Segment

theorem mem (segment : Segment f low high S) {i : Nat} (above : low ≤ i) (below : i < high) :
    f i ∈ S :=
  segment.mapsTo ⟨above, below⟩

theorem exists_of_mem (segment : Segment f low high S) {x : α} (mem : x ∈ S) :
    ∃ i, low ≤ i ∧ i < high ∧ f i = x := by
  obtain ⟨i, inside, rfl⟩ := segment.surjOn mem
  exact ⟨i, inside.1, inside.2, rfl⟩

theorem eq_of_eq (segment : Segment f low high S) {i j : Nat} (above : low ≤ i) (below : i < high)
    (above' : low ≤ j) (below' : j < high) (same : f i = f j) : i = j :=
  segment.injOn ⟨above, below⟩ ⟨above', below'⟩ same

theorem intro (maps : ∀ i, low ≤ i → i < high → f i ∈ S)
    (injective : ∀ i j, low ≤ i → i < high → low ≤ j → j < high → f i = f j → i = j)
    (onto : ∀ x ∈ S, ∃ i, low ≤ i ∧ i < high ∧ f i = x) : Segment f low high S := by
  refine ⟨fun i inside => maps i inside.1 inside.2, ?_, ?_⟩
  · intro i inside j inside' same
    exact injective i j inside.1 inside.2 inside'.1 inside'.2 same
  · intro x mem
    obtain ⟨i, above, below, same⟩ := onto x mem
    exact ⟨i, ⟨above, below⟩, same⟩

theorem empty (f : Nat → α) {low high : Nat} (short : high ≤ low) : Segment f low high ∅ := by
  rw [Segment, Set.Ico_eq_empty (by omega)]
  exact Set.bijOn_empty f

theorem empty_iff (segment : Segment f low high S) : S = ∅ ↔ high ≤ low := by
  constructor
  · rintro rfl
    by_contra long
    exact segment.mem (Nat.le_refl low) (by omega)
  · intro short
    by_contra nonempty
    obtain ⟨x, mem⟩ := Set.nonempty_iff_ne_empty.mpr nonempty
    obtain ⟨i, above, below, -⟩ := segment.exists_of_mem mem
    omega

theorem congr {g : Nat → α} (segment : Segment f low high S)
    (same : ∀ i, low ≤ i → i < high → g i = f i) : Segment g low high S :=
  Set.BijOn.congr segment fun i inside => (same i inside.1 inside.2).symm

/-- An array whose first cells are a list without repetitions. -/
theorem of_list {l : List α} (distinct : l.Nodup)
    (cells : ∀ i (below : i < l.length), f i = l[i]) : Segment f 0 l.length {x | x ∈ l} := by
  refine intro ?_ ?_ ?_
  · intro i _ below
    rw [cells i below]
    exact List.getElem_mem below
  · intro i j _ below _ below' same
    rw [cells i below, cells j below'] at same
    exact (List.Nodup.getElem_inj_iff distinct).mp same
  · intro x mem
    obtain ⟨i, below, rfl⟩ := List.getElem_of_mem mem
    exact ⟨i, Nat.zero_le i, below, cells i below⟩

/-- The last cell leaves. -/
theorem dropLast (segment : Segment f low high S) {last : Nat} (end' : high = last + 1)
    (long : low ≤ last) : Segment f low last (S \ {f last}) := by
  subst end'
  refine intro ?_ ?_ ?_
  · intro i above below
    refine ⟨segment.mem above (by omega), fun same => ?_⟩
    have := segment.eq_of_eq above (by omega) long (by omega) same
    omega
  · intro i j above below above' below' same
    exact segment.eq_of_eq above (by omega) above' (by omega) same
  · rintro x ⟨mem, other⟩
    obtain ⟨i, above, below, rfl⟩ := segment.exists_of_mem mem
    refine ⟨i, above, ?_, rfl⟩
    have : i ≠ last := fun same => other (by rw [same]; rfl)
    omega

/-- The first cell leaves. -/
theorem dropFirst (segment : Segment f low high S) (long : low < high) :
    Segment f (low + 1) high (S \ {f low}) := by
  refine intro ?_ ?_ ?_
  · intro i above below
    refine ⟨segment.mem (by omega) below, fun same => ?_⟩
    have := segment.eq_of_eq (by omega) below (Nat.le_refl low) long same
    omega
  · intro i j above below above' below' same
    exact segment.eq_of_eq (by omega) below (by omega) below' same
  · rintro x ⟨mem, other⟩
    obtain ⟨i, above, below, rfl⟩ := segment.exists_of_mem mem
    refine ⟨i, ?_, below, rfl⟩
    have : i ≠ low := fun same => other (by rw [same]; rfl)
    omega

/-- A new last cell. -/
theorem snoc (segment : Segment f low high S) (long : low ≤ high) (new : f high ∉ S) :
    Segment f low (high + 1) (insert (f high) S) := by
  refine intro ?_ ?_ ?_
  · intro i above below
    rcases Nat.lt_succ_iff_lt_or_eq.mp below with below | rfl
    · exact .inr (segment.mem above below)
    · exact .inl rfl
  · intro i j above below above' below' same
    rcases Nat.lt_succ_iff_lt_or_eq.mp below with below | rfl <;>
      rcases Nat.lt_succ_iff_lt_or_eq.mp below' with below' | rfl
    · exact segment.eq_of_eq above below above' below' same
    · exact absurd (same ▸ segment.mem above below) new
    · exact absurd (same ▸ segment.mem above' below') new
    · rfl
  · rintro x (rfl | mem)
    · exact ⟨high, long, Nat.lt_succ_self high, rfl⟩
    · obtain ⟨i, above, below, rfl⟩ := segment.exists_of_mem mem
      exact ⟨i, above, by omega, rfl⟩

/-- Two cells exchanged. -/
theorem swap (segment : Segment f low high S) {i j : Nat} (above : low ≤ i) (below : i < high)
    (above' : low ≤ j) (below' : j < high) :
    Segment (Function.update (Function.update f i (f j)) j (f i)) low high S := by
  have exchanged (k : Nat) :
      Function.update (Function.update f i (f j)) j (f i) k =
        f (if k = j then i else if k = i then j else k) := by
    by_cases last : k = j
    · simp [last]
    · by_cases first : k = i
      · subst first
        simp [last]
      · simp [last, first]
  refine intro ?_ ?_ ?_
  · intro k _ _
    rw [exchanged]
    split_ifs <;> exact segment.mem (by assumption) (by assumption)
  · intro k k' _ _ _ _ same
    rw [exchanged, exchanged] at same
    have := segment.eq_of_eq (by split_ifs <;> omega) (by split_ifs <;> omega)
      (by split_ifs <;> omega) (by split_ifs <;> omega) same
    split_ifs at this <;> omega
  · intro x mem
    obtain ⟨k, _, _, rfl⟩ := segment.exists_of_mem mem
    refine ⟨if k = j then i else if k = i then j else k, ?_, ?_, ?_⟩
    · split_ifs <;> omega
    · split_ifs <;> omega
    · rw [exchanged]
      congr 1
      split_ifs <;> omega

end Segment

end Segment

end WeaveC.Library
