import WeaveC.Pass.InBounds
import Mathlib.Data.Set.Basic

/-!
# What is known in bounds is in bounds

The end of an access is formed by an addition that wraps and compared as a
signed number, so it is trusted where the exact end is below `2^63`.
-/

namespace WeaveC.Pass.InBounds

open WeaveC.Library WeaveC.Runtime

/-! ## Scopes -/

namespace Scopes

variable {Block : Type} (scopes : Scopes Block) (alloca : Value)

/-- A block left dead that was not entered so has an end of the scope. -/
theorem exists_end {is : List InstructionId}
    (dead : is.foldl (scopes.after alloca) false = true) :
    ∃ i ∈ is, scopes.markerFor i alloca < 0 := by
  induction is using List.reverseRecOn with
  | nil => cases dead
  | append_singleton is i ih =>
      rw [List.foldl_concat] at dead
      unfold after at dead
      split at dead
      · obtain ⟨j, mem, ends⟩ := ih dead
        exact ⟨j, List.mem_append_left _ mem, ends⟩
      · exact ⟨i, by simp, of_decide_eq_true dead⟩

variable [DecidableEq Block]

theorem pushSuccessors_spec (dead : Finset Block) (work successors : List Block) :
    let next := pushSuccessors dead work successors
    dead ⊆ next.1 ∧ (∀ c ∈ successors, c ∈ next.1) ∧ (∀ b ∈ work, b ∈ next.2) ∧
      ∀ b ∈ next.1, b ∈ dead ∨ b ∈ next.2 := by
  induction successors generalizing dead work with
  | nil => exact ⟨Finset.Subset.refl _, nofun, fun b mem => mem, fun b mem => .inl mem⟩
  | cons c rest ih =>
      unfold pushSuccessors
      split
      · rename_i known
        obtain ⟨grows, pushed, kept, fresh⟩ := ih dead work
        refine ⟨grows, ?_, kept, fresh⟩
        intro d mem
        rcases List.mem_cons.mp mem with rfl | mem
        · exact grows known
        · exact pushed d mem
      · obtain ⟨grows, pushed, kept, fresh⟩ := ih (insert c dead) (c :: work)
        refine ⟨?_, ?_, ?_, ?_⟩
        · exact (Finset.subset_insert c dead).trans grows
        · intro d mem
          rcases List.mem_cons.mp mem with rfl | mem
          · exact grows (Finset.mem_insert_self d dead)
          · exact pushed d mem
        · intro b mem
          exact kept b (List.mem_cons_of_mem c mem)
        · intro b mem
          rcases fresh b mem with old | mem
          · rcases Finset.mem_insert.mp old with rfl | old
            · exact .inr (kept b (List.mem_cons_self ..))
            · exact .inl old
          · exact .inr mem

/-- What the work list keeps: a block left dead waits in it, or has had its
successors marked. -/
structure Flowing (work : List Block) (dead leftDead : Finset Block) : Prop where
  pending : ∀ b, scopes.leavesDead alloca b (decide (b ∈ dead)) = true → b ∈ work ∨ b ∈ leftDead
  marked : ∀ b ∈ leftDead, ∀ c ∈ scopes.successors b, c ∈ dead

theorem flowDead_closed [Fintype Block] (work : List Block) (dead leftDead : Finset Block)
    (inv : scopes.Flowing alloca work dead leftDead) :
    ∀ b, scopes.leavesDead alloca b (decide (b ∈ scopes.flowDead alloca work dead leftDead)) →
      ∀ c ∈ scopes.successors b, c ∈ scopes.flowDead alloca work dead leftDead := by
  fun_induction scopes.flowDead alloca work dead leftDead with
  | case1 dead leftDead =>
      intro b leaves
      rcases inv.pending b leaves with mem | mem
      · cases mem
      · exact inv.marked b mem
  | case2 block work dead leftDead live ih =>
      refine ih ⟨?_, inv.marked⟩
      intro b leaves
      rcases inv.pending b leaves with mem | mem
      · rcases List.mem_cons.mp mem with rfl | mem
        · rw [live] at leaves
          cases leaves
        · exact .inl mem
      · exact .inr mem
  | case3 block work dead leftDead leaves known ih =>
      refine ih ⟨?_, inv.marked⟩
      intro b leaves
      rcases inv.pending b leaves with mem | mem
      · rcases List.mem_cons.mp mem with rfl | mem
        · exact .inr known
        · exact .inl mem
      · exact .inr mem
  | case4 block work dead leftDead leaves fresh next ih =>
      obtain ⟨grows, pushed, kept, new⟩ :=
        pushSuccessors_spec dead work (scopes.successors block)
      refine ih ⟨?_, ?_⟩
      · intro b leaves
        by_cases entered : b ∈ next.1 ∧ b ∉ dead
        · exact .inl ((new b entered.1).resolve_left entered.2)
        · have same : decide (b ∈ next.1) = decide (b ∈ dead) :=
            decide_eq_decide.mpr ⟨fun mem => not_not.mp fun fresh => entered ⟨mem, fresh⟩,
              fun mem => grows mem⟩
          rw [same] at leaves
          rcases inv.pending b leaves with mem | mem
          · rcases List.mem_cons.mp mem with rfl | mem
            · exact .inr (Finset.mem_insert_self ..)
            · exact .inl (kept b mem)
          · exact .inr (Finset.mem_insert_of_mem mem)
      · intro b mem c successor
        rcases Finset.mem_insert.mp mem with rfl | mem
        · exact pushed c successor
        · exact grows (inv.marked b mem c successor)

/-- Every end of an alloca's scope is among its users, in its block. -/
def Known : Prop :=
  ∀ b, ∀ i ∈ scopes.block b, scopes.markerFor i alloca < 0 →
    i ∈ scopes.users alloca ∧ scopes.parent i = b

/-- The work starts with the parents of the ends. -/
theorem flowing_ends (known : scopes.Known alloca) :
    scopes.Flowing alloca
      (((scopes.users alloca).filter fun i => decide (scopes.markerFor i alloca < 0)).map
        scopes.parent).reverse ∅ ∅ := by
  refine ⟨?_, nofun⟩
  intro b leaves
  obtain ⟨i, mem, ends⟩ := scopes.exists_end alloca leaves
  obtain ⟨used, rfl⟩ := known b i mem ends
  exact .inl (by simpa using ⟨i, ⟨used, ends⟩, rfl⟩)

end Scopes

/-! ## One execution -/

/-- The access's bytes are its object's, in exact integers. -/
def Inside (size offset length : BitVec 64) : Prop :=
  0 ≤ offset.toInt ∧ offset.toInt + length.toNat ≤ size.toNat

/-- A length no greater than the size at an offset not below 0, whose end is
past the signed numbers though the size is one of them. -/
def PastSigned (size offset length : BitVec 64) : Prop :=
  0 ≤ offset.toInt ∧ length.toNat ≤ size.toNat ∧ size.toNat < 2 ^ 63 ∧
    2 ^ 63 ≤ offset.toInt + length.toNat

theorem insideAt_sound {object : Object} {size offset width : BitVec 64}
    (sized : exactSize object = some size) (ok : insideAt object offset width = true) :
    Inside size offset width := by
  unfold insideAt at ok
  rw [sized] at ok
  simp only [Bool.and_eq_true, decide_eq_true_eq, BitVec.sle_eq_decide] at ok
  obtain ⟨⟨positive, within⟩, fits⟩ := ok
  have zero : (0#64).toInt = 0 := rfl
  rw [zero] at positive
  have exactly := BitVec.toInt_eq_toNat_cond offset
  have bound := offset.isLt
  refine ⟨positive, ?_⟩
  split_ifs at exactly <;> omega

/-- What the three comparisons say of an execution. -/
theorem inside_or_past {size offset length : BitVec 64} (positive : 0 ≤ offset.toInt)
    (fits : length.toNat ≤ size.toNat) (ends : (offset + length).toInt ≤ size.toInt) :
    Inside size offset length ∨ PastSigned size offset length := by
  have sum := BitVec.toInt_eq_toNat_cond (offset + length)
  have limit := BitVec.toInt_eq_toNat_cond size
  have start := BitVec.toInt_eq_toNat_cond offset
  rw [BitVec.toNat_add] at sum
  have bounds := offset.isLt
  have bounds' := length.isLt
  have bounds'' := size.isLt
  unfold Inside PastSigned
  split_ifs at start sum limit <;> omega

/-- An object of at least `2^63` bytes apart, they hold inside and past the
signed numbers alike. -/
theorem compared {size offset length : BitVec 64} (signed : size.toNat < 2 ^ 63)
    (within : Inside size offset length ∨ PastSigned size offset length) :
    0 ≤ offset.toInt ∧ length.toNat ≤ size.toNat ∧ (offset + length).toInt ≤ size.toInt := by
  have sum := BitVec.toInt_eq_toNat_cond (offset + length)
  have limit := BitVec.toInt_eq_toNat_cond size
  have start := BitVec.toInt_eq_toNat_cond offset
  rw [BitVec.toNat_add] at sum
  have bounds := offset.isLt
  have bounds' := length.isLt
  rcases within with ⟨positive, within⟩ | ⟨positive, fits, -, past⟩
  · refine ⟨positive, ?_, ?_⟩ <;> split_ifs at start sum limit <;> omega
  · refine ⟨positive, fits, ?_⟩
    split_ifs at start sum limit <;> omega

theorem not_inside_of_pastSigned {size offset length : BitVec 64}
    (past : PastSigned size offset length) : ¬ Inside size offset length := by
  obtain ⟨_, _, signed, far⟩ := past
  rintro ⟨_, within⟩
  omega

/-! ## Every execution -/

/-- The executions of an access's marker, by the values they see. -/
structure Executions (access : Access) where
  runs : Set Env
  located : ∀ env ∈ runs, ∀ base, access.base = some base →
    env access.pointer = env base + access.offset

namespace Access

variable (access : Access)

def offsetAt (object : Value) (env : Env) : BitVec 64 := env access.pointer - env object

def lengthAt (env : Env) : BitVec 64 :=
  match access.length with
  | none => access.width
  | some length => env length

end Access

/-- What is reported holds, modulo `2^64`, of the values at each execution. -/
structure ScalarEvolution.Reports (evolution : ScalarEvolution)
    (value : evolution.Scev → Env → BitVec 64) (marker : InstructionId) (runs : Set Env) :
    Prop where
  getSCEV : ∀ v env, value (evolution.getSCEV v) env = env v
  getMinusSCEV : ∀ a b c, evolution.getMinusSCEV a b = some c →
    ∀ env, value c env = value a env - value b env
  getConstant : ∀ n env, value (evolution.getConstant n) env = n
  getAddExpr : ∀ a b env, value (evolution.getAddExpr a b) env = value a env + value b env
  isKnownPredicateAt : ∀ p a b, evolution.isKnownPredicateAt p a b marker = true →
    ∀ env ∈ runs, p.holds (value a env) (value b env) = true

/-- The predicate holds at every execution. -/
def Always (runs : Set Env) (p : Predicate) (a b : Env → BitVec 64) : Prop :=
  ∀ env ∈ runs, p.holds (a env) (b env) = true

open Classical in
/-- An evolution that reports all there is. -/
noncomputable def complete (runs : Set Env) : ScalarEvolution where
  Scev := Env → BitVec 64
  isSCEVable _ := true
  getSCEV v env := env v
  getMinusSCEV a b := some fun env => a env - b env
  getConstant n _ := n
  getAddExpr a b env := a env + b env
  isKnownPredicateAt p a b _ := decide (Always runs p a b)

open Classical in
theorem complete_reports (marker : InstructionId) (runs : Set Env) :
    (complete runs).Reports (fun e env => e env) marker runs where
  getSCEV _ _ := rfl
  getMinusSCEV a b c difference env := by
    cases difference
    rfl
  getConstant _ _ := rfl
  getAddExpr _ _ _ := rfl
  isKnownPredicateAt _ _ _ known := of_decide_eq_true known

section

variable {Block : Type} [DecidableEq Block] [Fintype Block]

/-- The access is decided by what `ScalarEvolution` reports of an object of
`size` bytes. -/
structure ByEvolution (access : Access) (objects : Value → Object) (scopes : Scopes Block)
    (object : Value) (size : BitVec 64) : Prop where
  based : access.object = some object
  bytes : access.kind ≠ .string
  held : ((objects object).isAlloca && scopes.mayBeOutOfScope object access.marker) = false
  sized : exactSize (objects object) = some size
  apart : ¬ (access.base = some object ∧ access.length = none)

/-- Every execution is inside the object or past the signed numbers, and one is
past them. -/
def EndWraps (access : Access) (objects : Value → Object) (scopes : Scopes Block)
    (runs : Set Env) : Prop :=
  ∃ object size, ByEvolution access objects scopes object size ∧
    (∀ env ∈ runs, Inside size (access.offsetAt object env) (access.lengthAt env) ∨
      PastSigned size (access.offsetAt object env) (access.lengthAt env)) ∧
    ∃ env ∈ runs, PastSigned size (access.offsetAt object env) (access.lengthAt env)

variable {access : Access} {objects : Value → Object} {scopes : Scopes Block}
  {evolution : ScalarEvolution}

/-- What an accepted access passed: the arithmetic, or the three facts. -/
theorem inBounds_cases (ok : inBounds access evolution objects scopes = true) :
    ∃ object size, access.object = some object ∧ exactSize (objects object) = some size ∧
      ((access.base = some object ∧ access.length = none ∧
          insideAt (objects object) access.offset access.width = true) ∨
        (ByEvolution access objects scopes object size ∧ ∃ offset length,
          evolution.getMinusSCEV (evolution.getSCEV access.pointer)
            (evolution.getSCEV object) = some offset ∧
          evolution.isKnownPredicateAt .sge offset (evolution.getConstant 0#64)
            access.marker = true ∧
          evolution.isKnownPredicateAt .sle (evolution.getAddExpr offset length)
            (evolution.getConstant size) access.marker = true ∧
          ((∃ v, access.length = some v ∧ length = evolution.getSCEV v ∧
              evolution.isKnownPredicateAt .ule length (evolution.getConstant size)
                access.marker = true) ∨
            (access.length = none ∧ length = evolution.getConstant access.width ∧
              access.width.toNat ≤ size.toNat)))) := by
  unfold inBounds at ok
  split at ok
  · cases ok
  rename_i object based
  split at ok
  · cases ok
  rename_i isString
  split at ok
  · cases ok
  rename_i dead
  split at ok
  · cases ok
  rename_i size sized
  refine ⟨object, size, based, sized, ?_⟩
  split at ok
  · rename_i constant
    exact .inl ⟨constant.1, constant.2, ok⟩
  rename_i constant
  split at ok
  · cases ok
  split at ok
  · cases ok
  rename_i offset difference
  have decided : ByEvolution access objects scopes object size :=
    { based
      bytes := isString
      held := by simpa using dead
      sized
      apart := constant }
  refine .inr ⟨decided, offset, ?_⟩
  dsimp only at ok
  split at ok
  · rename_i length given
    split_ifs at ok with lengthAble known
    simp only [Bool.and_eq_true] at ok
    exact ⟨_, difference, ok.1, ok.2, .inl ⟨length, given, rfl, by simpa using known⟩⟩
  · rename_i given
    split_ifs at ok with long
    simp only [Bool.and_eq_true] at ok
    exact ⟨_, difference, ok.1, ok.2, .inr ⟨given, rfl, Nat.not_lt.mp long⟩⟩

open Classical in
/-- Facts that hold accept the access. -/
theorem inBounds_complete {object : Value} {size : BitVec 64} (runs : Set Env)
    (decided : ByEvolution access objects scopes object size) (signed : size.toNat < 2 ^ 63)
    (nonempty : runs.Nonempty)
    (within : ∀ env ∈ runs, Inside size (access.offsetAt object env) (access.lengthAt env) ∨
      PastSigned size (access.offsetAt object env) (access.lengthAt env)) :
    inBounds access (complete runs) objects scopes = true := by
  have facts := fun env mem => compared signed (within env mem)
  obtain ⟨first, mem⟩ := nonempty
  have starts : Always runs .sge (access.offsetAt object) (fun _ => 0#64) := by
    intro env mem
    have zero : (0#64).toInt = 0 := rfl
    simp only [Predicate.holds, BitVec.sle_eq_decide, decide_eq_true_eq, zero]
    exact (facts env mem).1
  have ends : Always runs .sle (fun env => access.offsetAt object env + access.lengthAt env)
      (fun _ => size) := by
    intro env mem
    simp only [Predicate.holds, BitVec.sle_eq_decide, decide_eq_true_eq]
    exact (facts env mem).2.2
  unfold inBounds
  simp only [decided.based, decided.bytes, if_false, decided.held, decided.sized, decided.apart]
  cases given : access.length with
  | none =>
      have short : ¬ size.toNat < access.width.toNat := by
        have fits := (facts first mem).2.1
        simp only [Access.lengthAt, given] at fits
        exact Nat.not_lt.mpr fits
      have same : access.lengthAt = fun _ => access.width := by
        funext env
        simp only [Access.lengthAt, given]
      simp only [same] at ends
      simp only [complete, Bool.true_eq_false, short, if_false]
      exact Bool.and_eq_true_iff.mpr ⟨decide_eq_true starts, decide_eq_true ends⟩
  | some length =>
      have same : access.lengthAt = fun env => env length := by
        funext env
        simp only [Access.lengthAt, given]
      simp only [same] at ends facts
      have fits : Always runs .ule (fun env => env length) (fun _ => size) := by
        intro env mem
        simp only [Predicate.holds, BitVec.ule_eq_decide, decide_eq_true_eq]
        exact (facts env mem).2.1
      simp only [complete, Bool.true_eq_false, decide_eq_true fits, if_false]
      exact Bool.and_eq_true_iff.mpr ⟨decide_eq_true starts, decide_eq_true ends⟩

/-- The access is in its object at every execution, whatever facts accept it. -/
def Sound (access : Access) (executions : Executions access) (objects : Value → Object)
    (scopes : Scopes Block) : Prop :=
  ∀ (evolution : ScalarEvolution) (value : evolution.Scev → Env → BitVec 64),
    evolution.Reports value access.marker executions.runs →
    inBounds access evolution objects scopes = true →
    ∀ object size, access.object = some object → exactSize (objects object) = some size →
    ∀ env ∈ executions.runs, Inside size (access.offsetAt object env) (access.lengthAt env)

theorem inBounds_sound_iff (access : Access) (executions : Executions access)
    (objects : Value → Object) (scopes : Scopes Block) :
    Sound access executions objects scopes ↔
      ¬ EndWraps access objects scopes executions.runs := by
  constructor
  · rintro sound ⟨object, size, decided, within, env, mem, past⟩
    have ok := inBounds_complete executions.runs decided past.2.2.1 ⟨env, mem⟩ within
    exact not_inside_of_pastSigned past (sound _ _ (complete_reports _ _) ok object size
      decided.based decided.sized env mem)
  · intro never evolution value reports ok object size based sized env mem
    obtain ⟨object', size', based', sized', how⟩ := inBounds_cases ok
    cases based.symm.trans based'
    cases sized.symm.trans sized'
    rcases how with ⟨same, noLength, inside⟩ |
      ⟨decided, offset, length, difference, starts, ends, fits⟩
    · have located := executions.located env mem object same
      have offsetSame : access.offsetAt object env = access.offset := by
        rw [Access.offsetAt, located, BitVec.add_comm, BitVec.add_sub_cancel]
      have lengthSame : access.lengthAt env = access.width := by
        simp only [Access.lengthAt, noLength]
      rw [offsetSame, lengthSame]
      exact insideAt_sound sized inside
    · have within : ∀ env ∈ executions.runs,
          Inside size (access.offsetAt object env) (access.lengthAt env) ∨
            PastSigned size (access.offsetAt object env) (access.lengthAt env) := by
        intro env mem
        have start := reports.isKnownPredicateAt _ _ _ starts env mem
        have stop := reports.isKnownPredicateAt _ _ _ ends env mem
        have offsetIs : value offset env = access.offsetAt object env := by
          rw [reports.getMinusSCEV _ _ _ difference, reports.getSCEV, reports.getSCEV,
            Access.offsetAt]
        have lengthIs : value length env = access.lengthAt env ∧
            (access.lengthAt env).toNat ≤ size.toNat := by
          rcases fits with ⟨v, given, rfl, known⟩ | ⟨given, rfl, short⟩
          · have fact := reports.isKnownPredicateAt _ _ _ known env mem
            rw [reports.getSCEV, reports.getConstant] at fact
            simp only [Predicate.holds, BitVec.ule_eq_decide, decide_eq_true_eq] at fact
            simp only [Access.lengthAt, given, reports.getSCEV, true_and]
            exact fact
          · simp only [Access.lengthAt, given, reports.getConstant, true_and]
            exact short
        rw [reports.getConstant, offsetIs] at start
        rw [reports.getAddExpr, reports.getConstant, offsetIs, lengthIs.1] at stop
        simp only [Predicate.holds, BitVec.sle_eq_decide, decide_eq_true_eq] at start stop
        exact inside_or_past start lengthIs.2 stop
      rcases within env mem with inside | past
      · exact inside
      · exact absurd ⟨object, size, decided, within, env, mem, past⟩ never

/-! A store of 8 bytes `2^63 - 1` bytes after the start of 16. -/

def farStore : Access where
  marker := 2
  kind := .guard
  pointer := 1
  width := 8#64
  length := none
  base := none
  offset := 0#64
  object := some 0

def farEnv : Env
  | 1 => 0x10000#64 + 0x7FFFFFFFFFFFFFFF#64
  | _ => 0x10000#64

def farRuns : Executions farStore where
  runs := {farEnv}
  located := by
    intro env _ base known
    cases known

def sixteenBytes : Object := .global false true false false ⟨16#64, false⟩

def straightLine : Scopes Unit where
  block _ := [2]
  successors _ := []
  parent _ := ()
  lifetime _ := none
  users _ := []

theorem farStore_not_inside : ¬ Sound farStore farRuns (fun _ => sixteenBytes) straightLine := by
  intro sound
  have decided : ByEvolution farStore (fun _ => sixteenBytes) straightLine 0 16#64 :=
    { based := rfl
      bytes := by decide
      held := rfl
      sized := rfl
      apart := by decide }
  have past : PastSigned 16#64 (farStore.offsetAt 0 farEnv) (farStore.lengthAt farEnv) := by
    unfold PastSigned
    decide
  have ok := inBounds_complete farRuns.runs decided (by decide) ⟨farEnv, rfl⟩ (by
    rintro env rfl
    exact .inr past)
  exact not_inside_of_pastSigned past (sound _ _ (complete_reports _ _) ok 0 16#64 rfl rfl
    farEnv rfl)

end

end WeaveC.Pass.InBounds
