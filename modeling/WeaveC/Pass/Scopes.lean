import WeaveC.Pass.InBoundsSpec
import Mathlib.Logic.Relation

/-!
# Where a local may be out of scope

The blocks entered out of scope are remembered for each local.  A path of
control passes one instruction after another and follows the edges between
blocks; a local may be out of scope where such a path leads from an end of its
lifetime without passing a start of it.
-/

namespace WeaveC.Pass.InBounds

open WeaveC.Library

namespace Scopes

variable {Block : Type} (scopes : Scopes Block)

/-! ## The blocks remembered -/

section Memo

variable [DecidableEq Block] [Fintype Block]

/-- The member `deadAtEntry`: what was found for the locals asked about before. -/
abbrev Memo (Block : Type) : Type := Value → Option (Finset Block)

/-- `Scopes::mayBeOutOfScope`, with the blocks it remembers. -/
def ask (memo : Memo Block) (alloca : Value) (i : InstructionId) : Bool × Memo Block :=
  let found := (memo alloca).getD (scopes.deadAtEntry alloca)
  (((scopes.block (scopes.parent i)).takeWhile (· ≠ i)).foldl (scopes.after alloca)
    (decide (scopes.parent i ∈ found)), Function.update memo alloca (some found))

/-- The answers to questions asked one after another. -/
def asks (memo : Memo Block) : List (Value × InstructionId) → List Bool
  | [] => []
  | (alloca, i) :: rest =>
      let answer := scopes.ask memo alloca i
      answer.1 :: asks answer.2 rest

/-- What is remembered is what would be found again. -/
def Memo.Right (memo : Memo Block) : Prop :=
  ∀ alloca dead, memo alloca = some dead → dead = scopes.deadAtEntry alloca

theorem ask_spec {memo : Memo Block} (right : Memo.Right scopes memo) (alloca : Value)
    (i : InstructionId) :
    (scopes.ask memo alloca i).1 = scopes.mayBeOutOfScope alloca i ∧
      Memo.Right scopes (scopes.ask memo alloca i).2 := by
  have found : (memo alloca).getD (scopes.deadAtEntry alloca) = scopes.deadAtEntry alloca := by
    cases known : memo alloca with
    | none => rfl
    | some dead => exact right alloca dead known
  constructor
  · unfold ask mayBeOutOfScope
    rw [found]
  · intro other dead known
    unfold ask at known
    dsimp only at known
    by_cases same : other = alloca
    · subst same
      rw [Function.update_self, found] at known
      exact (Option.some.inj known).symm
    · rw [Function.update_of_ne same] at known
      exact right other dead known

theorem asks_eq {memo : Memo Block} (right : Memo.Right scopes memo)
    (questions : List (Value × InstructionId)) :
    scopes.asks memo questions = questions.map fun q => scopes.mayBeOutOfScope q.1 q.2 := by
  induction questions generalizing memo with
  | nil => rfl
  | cons q rest inductionHypothesis =>
      obtain ⟨alloca, i⟩ := q
      obtain ⟨answer, right'⟩ := scopes.ask_spec right alloca i
      rw [asks, List.map_cons, inductionHypothesis right', answer]

end Memo

/-! ## Paths -/

/-- One step of control from a position, a block and the number of instructions
passed in it: past an instruction that `avoid` does not hold of, or along an
edge. -/
inductive Flows (avoid : InstructionId → Prop) : Block × Nat → Block × Nat → Prop where
  | pass {b : Block} {n : Nat} {i : InstructionId} :
      (scopes.block b)[n]? = some i → ¬ avoid i → Flows avoid (b, n) (b, n + 1)
  | jump {b c : Block} :
      c ∈ scopes.successors b → Flows avoid (b, (scopes.block b).length) (c, 0)

/-- A path leads from behind an end of the alloca's lifetime to the position, and
passes no start of it. -/
def EndReaches (alloca : Value) (at' : Block × Nat) : Prop :=
  ∃ b n i, (scopes.block b)[n]? = some i ∧ scopes.markerFor i alloca < 0 ∧
    Relation.ReflTransGen (scopes.Flows fun j => 0 < scopes.markerFor j alloca) (b, n + 1) at'

/-- A path leads from an end of the alloca's lifetime to the instruction. -/
def OutOfScopeAt (alloca : Value) (i : InstructionId) : Prop :=
  ∃ b n, (scopes.block b)[n]? = some i ∧ scopes.EndReaches alloca (b, n)

/-- What LLVM keeps: an instruction stands once, in its parent, and an alloca's
users are all the instructions that name it. -/
structure WellFormed : Prop where
  parent : ∀ b, ∀ i ∈ scopes.block b, scopes.parent i = b
  once : ∀ b, (scopes.block b).Nodup
  used : ∀ alloca b, ∀ i ∈ scopes.block b, scopes.markerFor i alloca ≠ 0 → i ∈ scopes.users alloca
  placed : ∀ alloca, ∀ i ∈ scopes.users alloca, i ∈ scopes.block (scopes.parent i)

variable {scopes} (alloca : Value)

theorem WellFormed.known (wellFormed : scopes.WellFormed) :
    scopes.Known alloca := by
  intro b i mem ends
  exact ⟨wellFormed.used alloca b i mem (by omega), wellFormed.parent b i mem⟩

/-- The instructions in front of one. -/
theorem WellFormed.takeWhile_eq (wellFormed : scopes.WellFormed) {b : Block} {n : Nat}
    {i : InstructionId} (here : (scopes.block b)[n]? = some i) :
    (scopes.block b).takeWhile (· ≠ i) = (scopes.block b).take n := by
  obtain ⟨inside, found⟩ := List.getElem?_eq_some_iff.mp here
  have once := wellFormed.once b
  have before : ∀ j ∈ (scopes.block b).take n, decide (j ≠ i) = true := by
    intro j mem
    obtain ⟨k, bound, rfl⟩ := List.getElem_of_mem mem
    rw [List.length_take] at bound
    rw [List.getElem_take]
    refine decide_eq_true fun same => ?_
    rw [← found] at same
    have equal := (List.Nodup.getElem_inj_iff once).mp same
    omega
  calc (scopes.block b).takeWhile (· ≠ i)
      = ((scopes.block b).take n ++ i :: (scopes.block b).drop (n + 1)).takeWhile (· ≠ i) := by
        rw [← found, ← List.drop_eq_getElem_cons inside, List.take_append_drop]
    _ = (scopes.block b).take n := by
        rw [List.takeWhile_append_of_pos before, List.takeWhile_cons_of_neg (by simp),
          List.append_nil]

variable (scopes)

/-! ## One block -/

/-- A path that enters the block out of scope, or an end inside, makes the state. -/
theorem endReaches_of_foldl {b : Block} {entered : Bool}
    (entry : entered = true → scopes.EndReaches alloca (b, 0)) (n : Nat)
    (inside : n ≤ (scopes.block b).length)
    (dead : ((scopes.block b).take n).foldl (scopes.after alloca) entered = true) :
    scopes.EndReaches alloca (b, n) := by
  induction n with
  | zero => exact entry dead
  | succ n inductionHypothesis =>
      have here : (scopes.block b)[n]? = some ((scopes.block b).get ⟨n, inside⟩) :=
        List.getElem?_eq_getElem inside
      rw [List.take_add_one, here, Option.toList_some, List.foldl_concat] at dead
      unfold after at dead
      split at dead
      · rename_i unmarked
        obtain ⟨c, m, i, found, ends, path⟩ := inductionHypothesis (by omega) dead
        exact ⟨c, m, i, found, ends, path.tail (.pass here (by omega))⟩
      · exact ⟨b, n, _, here, of_decide_eq_true dead, .refl⟩

variable [DecidableEq Block]

/-- The state follows a path, from blocks that hand it on. -/
theorem foldl_of_endReaches {dead : Finset Block}
    (closed : ∀ b, scopes.leavesDead alloca b (decide (b ∈ dead)) = true →
      ∀ c ∈ scopes.successors b, c ∈ dead)
    {at' : Block × Nat} (reaches : scopes.EndReaches alloca at') :
    ((scopes.block at'.1).take at'.2).foldl (scopes.after alloca) (decide (at'.1 ∈ dead)) =
      true := by
  obtain ⟨b, n, i, found, ends, path⟩ := reaches
  induction path with
  | refl =>
      rw [List.take_add_one, found, Option.toList_some, List.foldl_concat]
      unfold after
      rw [if_neg (by omega)]
      exact decide_eq_true ends
  | tail _ step inductionHypothesis =>
      cases step with
      | pass here quiet =>
          rw [List.take_add_one, here, Option.toList_some, List.foldl_concat]
          unfold after
          split
          · exact inductionHypothesis
          · exact decide_eq_true (by omega)
      | jump successor =>
          rw [List.take_length] at inductionHypothesis
          exact decide_eq_true (closed _ inductionHypothesis _ successor)

/-! ## The work list -/

theorem mem_of_mem_pushSuccessors {dead : Finset Block} {work successors : List Block} {b : Block}
    (mem : b ∈ (pushSuccessors dead work successors).1) : b ∈ dead ∨ b ∈ successors := by
  induction successors generalizing dead work with
  | nil => exact .inl mem
  | cons c rest inductionHypothesis =>
      unfold pushSuccessors at mem
      split at mem
      · exact (inductionHypothesis mem).imp_right (List.mem_cons_of_mem c)
      · rcases inductionHypothesis mem with old | new
        · rcases Finset.mem_insert.mp old with rfl | old
          · exact .inr (List.mem_cons_self ..)
          · exact .inl old
        · exact .inr (List.mem_cons_of_mem c new)

variable [Fintype Block]

theorem endReaches_of_mem_flowDead (work : List Block) (dead leftDead : Finset Block)
    (sound : ∀ b ∈ dead, scopes.EndReaches alloca (b, 0)) :
    ∀ b ∈ scopes.flowDead alloca work dead leftDead, scopes.EndReaches alloca (b, 0) := by
  fun_induction scopes.flowDead alloca work dead leftDead with
  | case1 dead leftDead => exact sound
  | case2 block work dead leftDead live inductionHypothesis => exact inductionHypothesis sound
  | case3 block work dead leftDead leaves known inductionHypothesis =>
      exact inductionHypothesis sound
  | case4 block work dead leftDead leaves fresh next inductionHypothesis =>
      refine inductionHypothesis fun b mem => ?_
      rcases mem_of_mem_pushSuccessors mem with old | successor
      · exact sound b old
      · -- the block is left out of scope, so a path leads to its end
        have left : ((scopes.block block).take (scopes.block block).length).foldl
            (scopes.after alloca) (decide (block ∈ dead)) = true := by
          rw [List.take_length]
          exact Bool.of_not_eq_false leaves
        obtain ⟨c, n, i, found, ends, path⟩ :=
          scopes.endReaches_of_foldl alloca (fun entered => sound block (of_decide_eq_true entered))
            _ (Nat.le_refl _) left
        exact ⟨c, n, i, found, ends, path.tail (.jump successor)⟩

variable {scopes}

theorem WellFormed.deadAtEntry_closed (wellFormed : scopes.WellFormed) (b : Block)
    (leaves : scopes.leavesDead alloca b (decide (b ∈ scopes.deadAtEntry alloca)) = true) :
    ∀ c ∈ scopes.successors b, c ∈ scopes.deadAtEntry alloca :=
  scopes.flowDead_closed alloca _ ∅ ∅ (scopes.flowing_ends alloca (wellFormed.known alloca)) b
    leaves

theorem WellFormed.mayBeOutOfScope_iff (wellFormed : scopes.WellFormed) {i : InstructionId}
    (placed : i ∈ scopes.block (scopes.parent i)) :
    scopes.mayBeOutOfScope alloca i = true ↔ scopes.OutOfScopeAt alloca i := by
  obtain ⟨n, inside, here⟩ := List.getElem_of_mem placed
  have here' : (scopes.block (scopes.parent i))[n]? = some i :=
    List.getElem?_eq_some_iff.mpr ⟨inside, here⟩
  unfold mayBeOutOfScope
  rw [wellFormed.takeWhile_eq here']
  constructor
  · intro dead
    refine ⟨_, n, here', scopes.endReaches_of_foldl alloca (fun entered => ?_) n (by omega) dead⟩
    refine scopes.endReaches_of_mem_flowDead alloca _ ∅ ∅ ?_ _ (of_decide_eq_true entered)
    intro b mem
    exact absurd mem (Finset.notMem_empty b)
  · rintro ⟨b, m, there, reaches⟩
    have parent := wellFormed.parent b i (List.mem_of_getElem? there)
    subst parent
    have same := wellFormed.takeWhile_eq there
    rw [wellFormed.takeWhile_eq here'] at same
    rw [same]
    exact scopes.foldl_of_endReaches alloca (wellFormed.deadAtEntry_closed alloca) reaches

/-- Whatever was asked before, the answer says whether a path leads from an end
of the lifetime to the instruction without a start in between. -/
theorem mayBeOutOfScope_exact (wellFormed : scopes.WellFormed)
    (questions : List (Value × InstructionId))
    (placed : ∀ q ∈ questions, q.2 ∈ scopes.block (scopes.parent q.2)) (k : Nat) (alloca : Value)
    (i : InstructionId) (asked : questions[k]? = some (alloca, i)) :
    (scopes.asks (fun _ => none) questions)[k]? = some true ↔ scopes.OutOfScopeAt alloca i := by
  have right : Memo.Right scopes fun _ => none := by
    intro alloca dead known
    cases known
  rw [scopes.asks_eq right, List.getElem?_map, asked, Option.map_some, Option.some_inj]
  exact wellFormed.mayBeOutOfScope_iff alloca (placed _ (List.mem_of_getElem? asked))

/-- A loop whose body ends the lifetime, and a block behind it that starts it. -/
def looping : Scopes (Fin 2) where
  block b := if b = 0 then [10, 11] else [12, 13]
  successors b := if b = 0 then [0, 1] else []
  parent i := if i < 12 then 0 else 1
  lifetime i := if i = 11 then some (false, 0) else if i = 12 then some (true, 0) else none
  users alloca := if alloca = 0 then [11, 12] else []

theorem looping_wellFormed : looping.WellFormed := by
  refine ⟨by decide, by decide, fun alloca b i mem marker => ?_, fun alloca i mem => ?_⟩
  · have marked : ∀ b, ∀ i ∈ looping.block b,
        looping.lifetime i = none ∨ ∃ start, looping.lifetime i = some (start, 0) ∧
          i ∈ looping.users 0 := by
      decide
    unfold markerFor at marker
    rcases marked b i mem with unmarked | ⟨start, named, listed⟩
    · rw [unmarked] at marker
      exact absurd rfl marker
    · rw [named] at marker
      by_cases own : 0 = alloca
      · exact own ▸ listed
      · exact absurd (if_neg own) marker
  · unfold looping at mem
    dsimp only at mem
    split at mem
    · have all : ∀ i ∈ [11, 12], i ∈ looping.block (looping.parent i) := by decide
      exact all i mem
    · cases mem

/-- The loop's next round finds the local out of scope. -/
theorem mayBeOutOfScope_exact_looping :
    looping.OutOfScopeAt 0 10 ∧
      (looping.asks (fun _ => none) [(0, 10), (0, 13)])[0]? = some true := by
  have reaches : looping.OutOfScopeAt 0 10 :=
    ⟨0, 0, rfl, 0, 1, 11, rfl, by decide, .single (.jump (b := 0) (by decide))⟩
  exact ⟨reaches, (mayBeOutOfScope_exact looping_wellFormed _ (by decide) 0 0 10 rfl).mpr reaches⟩

end Scopes

end WeaveC.Pass.InBounds
