import Mathlib.Data.Finset.Card
import Mathlib.Data.Fintype.Card
import Mathlib.Algebra.Order.BigOperators.Group.List
import Mathlib.Algebra.Order.Ring.Nat
import Mathlib.Data.Finset.Lattice.Fold
import Mathlib.Data.Fintype.Powerset
import Mathlib.Logic.Relation

/-!
# Facts that hold on every path

A forward problem over a control-flow graph: each block maps the facts before
it to those after it, and a fact holds at a block when it holds at the end of
every predecessor.  Blocks are visited in one order, in rounds, until a round
changes nothing.  When transfer functions distribute over intersections, what
the rounds end with is exactly what holds along every path from the entry.
-/

namespace WeaveC.Library

structure Dataflow (ν α : Type*) [DecidableEq ν] [Fintype α] [DecidableEq α] where
  entry : ν
  /-- The other blocks a path from the entry reaches, in visiting order. -/
  rest : List ν
  predecessors : ν → List ν
  transfer : ν → Finset α → Finset α
  transfer_inter (b : ν) (facts facts' : Finset α) :
    transfer b (facts ∩ facts') = transfer b facts ∩ transfer b facts'
  closed {p b : ν} : p ∈ predecessors b → p ∈ entry :: rest → b ∈ entry :: rest
  reached {b : ν} : b ∈ rest → Relation.ReflTransGen (fun p c => p ∈ predecessors c) entry b

namespace Dataflow

variable {ν α : Type*} [DecidableEq ν] [Fintype α] [DecidableEq α] (p : Dataflow ν α)

def order : List ν := p.entry :: p.rest

/-- A path from the entry to the start of a block, with the facts along it. -/
inductive Path : ν → Finset α → Prop where
  | entry : Path p.entry ∅
  | step {b c : ν} {facts : Finset α} :
      Path b facts → b ∈ p.predecessors c → Path c (p.transfer b facts)

theorem mem_order_of_reach {b : ν}
    (reach : Relation.ReflTransGen (fun q c => q ∈ p.predecessors c) p.entry b) :
    b ∈ p.order := by
  induction reach with
  | refl => exact List.mem_cons_self
  | tail _ before ih => exact p.closed before ih

variable {p} in
theorem Path.mem_order {b : ν} {facts : Finset α} (path : p.Path b facts) : b ∈ p.order := by
  induction path with
  | entry => exact List.mem_cons_self
  | step _ before ih => exact p.closed before ih

theorem exists_path {b : ν} (visited : b ∈ p.order) : ∃ facts, p.Path b facts := by
  rcases List.mem_cons.mp visited with rfl | later
  · exact ⟨∅, .entry⟩
  · have reach := p.reached later
    clear later visited
    induction reach with
    | refl => exact ⟨∅, .entry⟩
    | tail _ before ih =>
      obtain ⟨facts, path⟩ := ih
      exact ⟨_, path.step before⟩

/-! ## Transfer functions -/

theorem transfer_mono (b : ν) {facts facts' : Finset α} (less : facts ⊆ facts') :
    p.transfer b facts ⊆ p.transfer b facts' := by
  rw [← Finset.inter_eq_left, ← p.transfer_inter, Finset.inter_eq_left.mpr less]

/-- What each path's facts lead to, the facts common to all paths lead to. -/
theorem mem_transfer_common {b : ν} (visited : b ∈ p.order) {common : Finset α}
    (all : ∀ a, (∀ facts, p.Path b facts → a ∈ facts) → a ∈ common) {a : α}
    (holds : ∀ facts, p.Path b facts → a ∈ p.transfer b facts) : a ∈ p.transfer b common := by
  classical
  let family := Finset.univ.filter (p.Path b)
  have member (facts : Finset α) : facts ∈ family ↔ p.Path b facts := by simp [family]
  have nonempty : family.Nonempty := by
    obtain ⟨facts, path⟩ := p.exists_path visited
    exact ⟨facts, (member facts).mpr path⟩
  have less : family.inf' nonempty id ⊆ common := fun x found =>
    all x fun facts path => Finset.mem_inf' nonempty |>.mp found facts ((member facts).mpr path)
  refine p.transfer_mono b less ?_
  rw [Finset.apply_inf'_eq_inf'_comp nonempty (p.transfer b) (p.transfer_inter b),
    Finset.mem_inf']
  exact fun facts found => holds facts ((member facts).mp found)

/-! ## Rounds -/

/-- What the facts after the predecessors say before a block. -/
def flowIn (out : ν → Finset α) (b : ν) : Finset α :=
  if b = p.entry then ∅
  else
    let known := (p.predecessors b).filter (fun q => decide (q ∈ p.order))
    if known = [] then ∅ else known.foldl (fun facts q => facts ∩ out q) Finset.univ

def visit (state : (ν → Finset α) × Bool) (b : ν) : (ν → Finset α) × Bool :=
  let next := p.transfer b (p.flowIn state.1 b)
  if next = state.1 b then state else (Function.update state.1 b next, true)

def round (out : ν → Finset α) : (ν → Finset α) × Bool :=
  p.order.foldl p.visit (out, false)

def start (b : ν) : Finset α :=
  if b = p.entry then ∅ else Finset.univ

/-- Rounds until one changes nothing. -/
def rounds : Nat → (ν → Finset α) → ν → Finset α
  | 0, out => out
  | fuel + 1, out =>
      let after := p.round out
      if after.2 then rounds fuel after.1 else after.1

/-- After the first round each further one but the last removes a fact. -/
def solve : ν → Finset α :=
  p.rounds (p.order.length * Fintype.card α + 2) p.start

/-! ## One visit -/

omit [DecidableEq ν] [Fintype α] in
theorem mem_foldl_inter (out : ν → Finset α) (bs : List ν) (facts : Finset α) (a : α) :
    a ∈ bs.foldl (fun facts q => facts ∩ out q) facts ↔ a ∈ facts ∧ ∀ q ∈ bs, a ∈ out q := by
  induction bs generalizing facts with
  | nil => simp
  | cons b bs ih => simp [ih, and_assoc]

theorem flowIn_entry (out : ν → Finset α) : p.flowIn out p.entry = ∅ := by
  simp [flowIn]

theorem mem_flowIn (out : ν → Finset α) {b : ν} (inner : b ≠ p.entry) (visited : b ∈ p.order)
    (a : α) : a ∈ p.flowIn out b ↔ ∀ q ∈ p.predecessors b, q ∈ p.order → a ∈ out q := by
  obtain ⟨q, before, known⟩ : ∃ q ∈ p.predecessors b, q ∈ p.order := by
    cases p.reached ((List.mem_cons.mp visited).resolve_left inner) with
    | refl => exact absurd rfl inner
    | tail reach before => exact ⟨_, before, p.mem_order_of_reach reach⟩
  have some : (p.predecessors b).filter (fun q => decide (q ∈ p.order)) ≠ [] := by
    intro none
    have found : q ∈ (p.predecessors b).filter (fun q => decide (q ∈ p.order)) :=
      List.mem_filter.mpr ⟨before, decide_eq_true known⟩
    rw [none] at found
    exact absurd found List.not_mem_nil
  simp only [flowIn, if_neg inner, if_neg some, mem_foldl_inter, Finset.mem_univ, true_and,
    List.mem_filter, decide_eq_true_eq, and_imp]

theorem flowIn_mono {out out' : ν → Finset α} (less : ∀ b, out' b ⊆ out b) {b : ν}
    (visited : b ∈ p.order) : p.flowIn out' b ⊆ p.flowIn out b := by
  by_cases entry : b = p.entry
  · rw [entry, flowIn_entry, flowIn_entry]
  · intro a found
    rw [p.mem_flowIn _ entry visited] at found ⊢
    exact fun q before known => less q (found q before known)

/-- What holds while rounds go on, from the visit of the entry on: facts are
only removed, and never one that holds along every path. -/
structure Solving (out : ν → Finset α) : Prop where
  entry : out p.entry = p.transfer p.entry ∅
  removes : ∀ b ∈ p.order, p.transfer b (p.flowIn out b) ⊆ out b
  keeps : ∀ b ∈ p.order, ∀ a, (∀ facts, p.Path b facts → a ∈ p.transfer b facts) → a ∈ out b

variable {p}

theorem Solving.flowIn {out : ν → Finset α} (solving : p.Solving out) {b : ν}
    (visited : b ∈ p.order) {a : α} (holds : ∀ facts, p.Path b facts → a ∈ facts) :
    a ∈ p.flowIn out b := by
  by_cases entry : b = p.entry
  · subst entry
    exact absurd (holds ∅ .entry) (Finset.notMem_empty a)
  · rw [p.mem_flowIn out entry visited]
    intro q before known
    exact solving.keeps q known a fun facts path => holds _ (path.step before)

theorem Solving.update {out : ν → Finset α} (solving : p.Solving out) {b : ν}
    (visited : b ∈ p.order) :
    p.Solving (Function.update out b (p.transfer b (p.flowIn out b))) := by
  have less : ∀ c, Function.update out b (p.transfer b (p.flowIn out b)) c ⊆ out c := by
    intro c
    by_cases same : c = b
    · rw [same, Function.update_self]
      exact solving.removes b visited
    · rw [Function.update_of_ne same]
  refine ⟨?_, fun c known => ?_, fun c known a holds => ?_⟩
  · by_cases same : p.entry = b
    · rw [← same, Function.update_self, p.flowIn_entry]
    · rw [Function.update_of_ne same, solving.entry]
  · have smaller := p.transfer_mono c (p.flowIn_mono less known)
    by_cases same : c = b
    · rw [same] at smaller ⊢
      rw [Function.update_self]
      exact smaller
    · rw [Function.update_of_ne same]
      exact smaller.trans (solving.removes c known)
  · by_cases same : c = b
    · rw [same, Function.update_self]
      rw [same] at holds
      exact p.mem_transfer_common visited (fun x every => solving.flowIn visited every) holds
    · rw [Function.update_of_ne same]
      exact solving.keeps c known a holds

/-! ## Rounds end -/

variable (p)

def size (out : ν → Finset α) : Nat :=
  (p.order.map fun b => (out b).card).sum

/-- A block whose facts agree with its predecessors'. -/
def Stable (out : ν → Finset α) (b : ν) : Prop :=
  p.transfer b (p.flowIn out b) = out b

theorem size_le (out : ν → Finset α) : p.size out ≤ p.order.length * Fintype.card α := by
  have each : ∀ n ∈ p.order.map fun b => (out b).card, n ≤ Fintype.card α := by
    intro n found
    obtain ⟨b, -, rfl⟩ := List.mem_map.mp found
    exact Finset.card_le_univ (out b)
  simpa [size] using List.sum_le_card_nsmul _ _ each

theorem size_update {out : ν → Finset α} {b : ν} (visited : b ∈ p.order) {next : Finset α}
    (less : next ⊂ out b) : p.size (Function.update out b next) < p.size out := by
  refine List.sum_lt_sum _ _ (fun c _ => ?_) ⟨b, visited, ?_⟩
  · by_cases same : c = b
    · rw [same, Function.update_self]
      exact Finset.card_le_card less.subset
    · rw [Function.update_of_ne same]
  · rw [Function.update_self]
    exact Finset.card_lt_card less

theorem foldl_visit_false (bs : List ν) (state : (ν → Finset α) × Bool)
    (quiet : (bs.foldl p.visit state).2 = false) :
    bs.foldl p.visit state = state ∧ state.2 = false ∧ ∀ b ∈ bs, p.Stable state.1 b := by
  induction bs generalizing state with
  | nil => exact ⟨rfl, quiet, by simp⟩
  | cons b bs ih =>
    rw [List.foldl_cons] at quiet ⊢
    obtain ⟨same, unchanged, stable⟩ := ih _ quiet
    by_cases here : p.Stable state.1 b
    · have kept : p.visit state b = state := if_pos here
      rw [kept] at same unchanged stable ⊢
      exact ⟨same, unchanged, List.forall_mem_cons.mpr ⟨here, stable⟩⟩
    · have changed : (p.visit state b).2 = true := congrArg Prod.snd (if_neg here)
      rw [changed] at unchanged
      exact absurd unchanged (by simp)

variable {p}

theorem Solving.visit {state : (ν → Finset α) × Bool} (solving : p.Solving state.1) {b : ν}
    (visited : b ∈ p.order) :
    p.Solving (p.visit state b).1 ∧
      p.size (p.visit state b).1 + (p.visit state b).2.toNat ≤ p.size state.1 + state.2.toNat := by
  unfold Dataflow.visit
  dsimp only
  split_ifs with stable
  · exact ⟨solving, Nat.le_refl _⟩
  · have less := p.size_update visited
      (Finset.ssubset_iff_subset_ne.mpr ⟨solving.removes b visited, stable⟩)
    refine ⟨solving.update visited, ?_⟩
    change p.size (Function.update state.1 b _) + 1 ≤ _
    omega

theorem Solving.foldl (bs : List ν) (known : bs ⊆ p.order) (state : (ν → Finset α) × Bool)
    (solving : p.Solving state.1) :
    p.Solving (bs.foldl p.visit state).1 ∧
      p.size (bs.foldl p.visit state).1 + (bs.foldl p.visit state).2.toNat ≤
        p.size state.1 + state.2.toNat := by
  induction bs generalizing state with
  | nil => exact ⟨solving, Nat.le_refl _⟩
  | cons b bs ih =>
    obtain ⟨first, less⟩ := solving.visit (known List.mem_cons_self)
    obtain ⟨rest, less'⟩ := ih (fun c later => known (List.mem_cons_of_mem _ later)) _ first
    exact ⟨rest, less'.trans less⟩

theorem solving_start : p.Solving (p.visit (p.start, false) p.entry).1 := by
  have first : ∀ b, (p.visit (p.start, false) p.entry).1 b =
      if b = p.entry then p.transfer p.entry ∅ else Finset.univ := by
    intro b
    unfold visit
    dsimp only
    rw [p.flowIn_entry]
    split_ifs with stable entry entry
    · rw [entry, stable]
    · simp [start, entry]
    · rw [entry]
      exact Function.update_self _ _ _
    · simp [entry, start]
  refine ⟨by rw [first, if_pos rfl], fun b _ => ?_, fun b _ a holds => ?_⟩
  · by_cases entry : b = p.entry
    · rw [first, if_pos entry, entry, p.flowIn_entry]
    · rw [first, if_neg entry]
      exact Finset.subset_univ _
  · rw [first]
    split_ifs with entry
    · subst entry
      exact holds ∅ .entry
    · exact Finset.mem_univ a

theorem solving_rounds (fuel : Nat) {out : ν → Finset α} (solving : p.Solving out)
    (enough : p.size out < fuel) :
    p.Solving (p.rounds fuel out) ∧ ∀ b ∈ p.order, p.Stable (p.rounds fuel out) b := by
  induction fuel generalizing out with
  | zero => omega
  | succ fuel ih =>
    obtain ⟨after, less⟩ := Solving.foldl _ (List.Subset.refl p.order) (out, false) solving
    change p.Solving (p.round out).1 at after
    change p.size (p.round out).1 + (p.round out).2.toNat ≤ p.size out + 0 at less
    rw [rounds]
    cases changed : (p.round out).2 with
    | true =>
      rw [changed, Bool.toNat_true] at less
      simpa [changed] using ih after (by omega)
    | false =>
      obtain ⟨same, -, stable⟩ := p.foldl_visit_false p.order (out, false) changed
      have kept : (p.round out).1 = out := congrArg Prod.fst same
      simpa [changed, kept] using ⟨solving, stable⟩

theorem solving_solve : p.Solving p.solve ∧ ∀ b ∈ p.order, p.Stable p.solve b := by
  obtain ⟨first, -⟩ := Solving.foldl p.rest
    (fun c later => List.mem_cons_of_mem _ later) _ p.solving_start
  change p.Solving (p.round p.start).1 at first
  rw [solve, rounds]
  cases changed : (p.round p.start).2 with
  | true =>
    have bound := p.size_le (p.round p.start).1
    simpa [changed] using solving_rounds _ first (by omega)
  | false =>
    obtain ⟨same, -, stable⟩ := p.foldl_visit_false p.order (p.start, false) changed
    have kept : (p.round p.start).1 = p.start := congrArg Prod.fst same
    simpa [changed, kept] using ⟨kept ▸ first, stable⟩

/-- The solution says of each block what holds along every path to it. -/
theorem mem_flowIn_solve {b : ν} (visited : b ∈ p.order) (a : α) :
    a ∈ p.flowIn p.solve b ↔ ∀ facts, p.Path b facts → a ∈ facts := by
  obtain ⟨solving, stable⟩ := p.solving_solve
  refine ⟨fun found facts path => ?_, solving.flowIn visited⟩
  induction path generalizing a with
  | entry => rwa [p.flowIn_entry] at found
  | @step q c facts path before ih =>
    have known := path.mem_order
    by_cases entry : c = p.entry
    · simp [entry, p.flowIn_entry] at found
    · have after := (p.mem_flowIn p.solve entry visited a).mp found q before known
      rw [← stable q known] at after
      exact p.transfer_mono q (fun x here => ih known x here) after

end Dataflow

end WeaveC.Library
