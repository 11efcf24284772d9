import WeaveC.Pass.Dominated
import Mathlib.Tactic.Tauto

/-!
# When dominated guards may go

A removed guard must be preceded, on every path, by guards of the same dynamic
value of its base that cover its bytes, with no release in between.  The
analysis decides availability exactly; what remains is whether its kills are
all the releases and its ranges the true ones.
-/

namespace WeaveC.Pass.Dominated

open WeaveC.Library

/-! ## Paths -/

namespace Cfg

variable {g : Cfg}

theorem reaches_append {i j : InstructionId} {before : List InstructionId} :
    g.Reaches j (before ++ [i]) ↔ g.Reaches i before ∧ g.Follows i j := by
  refine ⟨fun reaches => ?_, fun both => .next both.1 both.2⟩
  generalize path : before ++ [i] = done at reaches
  cases reaches with
  | start => simp at path
  | next reaches follows =>
    obtain ⟨rfl, last⟩ := List.append_inj' path rfl
    rw [List.singleton_inj.mp last]
    exact ⟨reaches, follows⟩

theorem append_cons_append (before : List InstructionId) (i : InstructionId)
    (after : List InstructionId) (last : InstructionId) :
    before ++ i :: (after ++ [last]) = (before ++ i :: after) ++ [last] := by
  simp

/-- An instruction on a path was itself reached. -/
theorem Reaches.earlier {i j : InstructionId} {before after : List InstructionId}
    (reaches : g.Reaches j (before ++ i :: after)) : g.Reaches i before := by
  induction after using List.reverseRecOn generalizing j with
  | nil => exact (reaches_append.mp reaches).1
  | append_singleton after last ih =>
    rw [append_cons_append] at reaches
    exact ih (reaches_append.mp reaches).1

/-- What follows an instruction does not depend on how it was reached. -/
theorem Reaches.splice {i j : InstructionId} {before before' after : List InstructionId}
    (reaches : g.Reaches j (before ++ i :: after)) (reaches' : g.Reaches i before') :
    g.Reaches j (before' ++ i :: after) := by
  induction after using List.reverseRecOn generalizing j with
  | nil => exact reaches_append.mpr ⟨reaches', (reaches_append.mp reaches).2⟩
  | append_singleton after last ih =>
    rw [append_cons_append] at reaches ⊢
    obtain ⟨first, follows⟩ := reaches_append.mp reaches
    exact reaches_append.mpr ⟨ih first, follows⟩

/-- A path to the start of a block goes on within it. -/
theorem reaches_within {b : BlockId} {before : List InstructionId}
    (reaches : ∀ x xs, g.block b = x :: xs → g.Reaches x before) {done later : List InstructionId}
    {i : InstructionId} (found : g.block b = done ++ i :: later) :
    g.Reaches i (before ++ done) := by
  induction done using List.reverseRecOn generalizing i later with
  | nil =>
    rw [List.append_nil]
    exact reaches i later found
  | append_singleton done last ih =>
    rw [List.append_assoc, List.singleton_append] at found
    rw [← List.append_assoc]
    exact reaches_append.mpr ⟨ih found, .within found⟩

/-- An instruction's place in its block is unique. -/
theorem block_inj {b c : BlockId} {i : InstructionId} {done later done' later' : List InstructionId}
    (found : g.block b = done ++ i :: later) (found' : g.block c = done' ++ i :: later') :
    b = c ∧ done = done' ∧ later = later' := by
  have same : b = c := by
    refine g.unique (i := i) ?_ ?_
    · rw [found]
      exact List.mem_append_right _ List.mem_cons_self
    · rw [found']
      exact List.mem_append_right _ List.mem_cons_self
  subst same
  have nodup := g.nodup b
  rw [found] at nodup found'
  have first : i ∉ done := fun earlier =>
    (List.disjoint_of_nodup_append nodup) earlier List.mem_cons_self
  have last : i ∉ later := (List.nodup_cons.mp nodup.of_append_right).1
  have split := (List.append_cons_inj_of_notMem first last).mp found'
  exact ⟨rfl, split.1, split.2.2⟩

end Cfg

namespace Function

variable {f : Function}

/-! ## Availability -/

theorem access_mem (c : f.Candidate) : f.access c ∈ f.accesses ∧ removable (f.access c) = true :=
  List.mem_filter.mp (List.get_mem f.candidates c)

/-- The candidate was executed, and no kill since. -/
def Available (executed : List InstructionId) (c : f.Candidate) : Prop :=
  ∃ before after, executed = before ++ (f.access c).marker :: after ∧
    ∀ i ∈ after, killsGuards (f.instruction i) = false

theorem marker_inj {c d : f.Candidate} (same : (f.access c).marker = (f.access d).marker) :
    c = d := by
  have distinct : (f.candidates.map Access.marker).Nodup :=
    f.distinct.sublist (List.filter_sublist.map _)
  have equal := List.inj_on_of_nodup_map distinct (List.get_mem f.candidates c)
    (List.get_mem f.candidates d) same
  exact (List.Nodup.of_map _ distinct).injective_get equal

theorem byMarker_eq_some {i : InstructionId} {c : f.Candidate} :
    f.byMarker i = some c ↔ (f.access c).marker = i := by
  constructor
  · intro found
    exact of_decide_eq_true
      (List.find?_some (p := fun c => decide ((f.access c).marker = i)) found)
  · rintro rfl
    cases found : f.byMarker (f.access c).marker with
    | none =>
      have other := List.find?_eq_none.mp found c (List.mem_finRange c)
      exact absurd (decide_eq_true rfl) other
    | some d =>
      have marker := List.find?_some
        (p := fun d => decide ((f.access d).marker = (f.access c).marker)) found
      rw [marker_inj (of_decide_eq_true marker)]

theorem not_kills (c : f.Candidate) : killsGuards (f.instruction (f.access c).marker) = false := by
  obtain ⟨call, found, marker⟩ := f.isMarker (access_mem c).1
  simp [killsGuards, found, marker]

theorem available_nil (c : f.Candidate) : ¬ Available [] c := by
  rintro ⟨before, after, path, -⟩
  simp at path

theorem available_append {executed : List InstructionId} {i : InstructionId} {c : f.Candidate} :
    Available (executed ++ [i]) c ↔ (f.access c).marker = i ∨
      killsGuards (f.instruction i) = false ∧ Available executed c := by
  constructor
  · rintro ⟨before, after, path, quiet⟩
    induction after using List.reverseRecOn with
    | nil => exact .inl (List.singleton_inj.mp (List.append_inj' path rfl).2).symm
    | append_singleton after last _ =>
      rw [Cfg.append_cons_append] at path
      obtain ⟨rfl, same⟩ := List.append_inj' path rfl
      obtain rfl := List.singleton_inj.mp same
      exact .inr ⟨quiet i (by simp), before, after, rfl, fun j found => quiet j (by simp [found])⟩
  · rintro (rfl | ⟨kept, before, after, rfl, quiet⟩)
    · exact ⟨executed, [], rfl, by simp⟩
    · refine ⟨before, after ++ [i], by simp, fun j found => ?_⟩
      rcases List.mem_append.mp found with earlier | last
      · exact quiet j earlier
      · rwa [List.mem_singleton.mp last]

theorem mem_transferOne {set : Finset f.Candidate} {i : InstructionId} {c : f.Candidate} :
    c ∈ f.transferOne set i ↔ (f.access c).marker = i ∨
      killsGuards (f.instruction i) = false ∧ c ∈ set := by
  unfold transferOne
  cases found : f.byMarker i with
  | none =>
    have other : (f.access c).marker ≠ i := fun same => by
      rw [byMarker_eq_some.mpr same] at found
      simp at found
    cases kills : killsGuards (f.instruction i) <;> simp [other]
  | some d =>
    have marker := byMarker_eq_some.mp found
    have kept : killsGuards (f.instruction i) = false := marker ▸ not_kills d
    have same : c = d ↔ (f.access c).marker = i := by
      rw [← byMarker_eq_some, found, Option.some_inj, eq_comm]
    simp [kept, same]

/-- The facts after a run of instructions: those it makes available, and those
before it when it kills nothing. -/
theorem mem_foldl_transferOne {is : List InstructionId} {set : Finset f.Candidate}
    {c : f.Candidate} :
    c ∈ is.foldl f.transferOne set ↔ Available is c ∨
      (∀ i ∈ is, killsGuards (f.instruction i) = false) ∧ c ∈ set := by
  induction is using List.reverseRecOn with
  | nil => simp [available_nil]
  | append_singleton is last ih =>
    rw [List.foldl_append, List.foldl_cons, List.foldl_nil, mem_transferOne, ih, available_append]
    simp only [List.mem_append, List.mem_singleton, or_imp, forall_and, forall_eq]
    tauto

/-- The facts along a path are what the path makes available. -/
theorem mem_along {executed : List InstructionId} {c : f.Candidate} :
    c ∈ executed.foldl f.transferOne ∅ ↔ Available executed c := by
  simp [mem_foldl_transferOne]

/-- A path of instructions is a path of blocks and the part of the last. -/
theorem exists_block {i : InstructionId} {executed : List InstructionId}
    (reaches : f.Reaches i executed) :
    ∃ b done later facts, f.block b = done ++ i :: later ∧ f.available.Path b facts ∧
      executed.foldl f.transferOne ∅ = done.foldl f.transferOne facts := by
  induction reaches with
  | @start i later first => exact ⟨f.entry, [], later, ∅, first, .entry, rfl⟩
  | @next i j executed _ follows ih =>
    obtain ⟨b, done, later, facts, place, path, same⟩ := ih
    rw [List.foldl_append, same]
    cases follows with
    | @within c done' later' place' =>
      obtain ⟨rfl, rfl, rfl⟩ := f.block_inj place place'
      exact ⟨b, done ++ [i], later', facts, by simp [place], path, by simp⟩
    | @across c d done' later' before last first =>
      obtain ⟨rfl, rfl, rfl⟩ := f.block_inj place last
      refine ⟨d, [], later', _, first, path.step before, ?_⟩
      change _ = (f.block b).foldl f.transferOne facts
      rw [place, List.foldl_append]

/-- A path of blocks is a path of instructions to each of the last block's. -/
theorem exists_reaches {b : BlockId} {facts : Finset f.Candidate} (path : f.available.Path b facts)
    {done later : List InstructionId} {i : InstructionId} (place : f.block b = done ++ i :: later) :
    ∃ executed, f.Reaches i executed ∧
      executed.foldl f.transferOne ∅ = done.foldl f.transferOne facts := by
  have start : ∃ before, (∀ x xs, f.block b = x :: xs → f.Reaches x before) ∧
      before.foldl f.transferOne ∅ = facts := by
    clear place
    induction path with
    | entry => exact ⟨[], fun x xs first => .start first, rfl⟩
    | @step b c facts path edge ih =>
      obtain ⟨before, reaches, same⟩ := ih
      obtain ⟨init, last, place⟩ : ∃ init last, f.block b = init ++ [last] :=
        ⟨_, _, (List.dropLast_append_getLast (f.nonempty b)).symm⟩
      refine ⟨before ++ init ++ [last], fun x xs first => ?_, ?_⟩
      · exact Cfg.reaches_append.mpr
          ⟨Cfg.reaches_within reaches place, .across edge place first⟩
      · change _ = (f.block b).foldl f.transferOne facts
        rw [List.append_assoc, ← place, List.foldl_append, same]
  obtain ⟨before, reaches, same⟩ := start
  exact ⟨before ++ done, Cfg.reaches_within reaches place, by rw [List.foldl_append, same]⟩

/-! ## The guards removed -/

/-- A guard the pass takes for another's: of its base, with a range that
covers the other's in wrapping arithmetic. -/
def Covering (other c : f.Candidate) : Prop :=
  (f.access other).base = (f.access c).base ∧ other ≠ c ∧
    covers (f.access other) (f.access c) = true

theorem covered_iff {available : Finset f.Candidate} {c : f.Candidate} :
    f.covered available c = true ↔ ∃ other, Covering other c ∧ other ∈ available := by
  simp only [covered, List.any_eq_true, List.mem_finRange, true_and, Bool.and_eq_true,
    decide_eq_true_eq, Covering]
  exact exists_congr fun other => by tauto

theorem mem_transferDeciding {set : Finset f.Candidate} {is : List InstructionId}
    {c : f.Candidate} :
    c ∈ f.transferDeciding set is ↔ ∃ done later, is = done ++ (f.access c).marker :: later ∧
      f.covered (done.foldl f.transferOne set) c = true := by
  induction is generalizing set with
  | nil => simp [transferDeciding]
  | cons i is ih =>
    -- the marker is the first instruction, or one of the others
    have split : (∃ done later, i :: is = done ++ (f.access c).marker :: later ∧
          f.covered (done.foldl f.transferOne set) c = true) ↔
        ((f.access c).marker = i ∧ f.covered set c = true) ∨
          c ∈ f.transferDeciding (f.transferOne set i) is := by
      rw [ih]
      constructor
      · rintro ⟨_ | ⟨x, done⟩, later, path, covers⟩
        · exact .inl ⟨(List.cons.inj path).1.symm, covers⟩
        · obtain ⟨rfl, rest⟩ := List.cons.inj path
          exact .inr ⟨done, later, rest, covers⟩
      · rintro (⟨rfl, covers⟩ | ⟨done, later, rfl, covers⟩)
        · exact ⟨[], is, rfl, covers⟩
        · exact ⟨i :: done, later, rfl, covers⟩
    rw [split, transferDeciding, transferOne]
    cases found : f.byMarker i with
    | none =>
      have other : (f.access c).marker ≠ i := fun same => by
        rw [byMarker_eq_some.mpr same] at found
        simp at found
      simp [other]
    | some d =>
      have marker := byMarker_eq_some.mp found
      have kept : killsGuards (f.instruction i) = false := marker ▸ not_kills d
      have same : (f.access c).marker = i ↔ c = d := by
        rw [← byMarker_eq_some, found, Option.some_inj, eq_comm]
      simp only [kept, Bool.false_eq_true, if_false, same]
      by_cases equal : c = d
      · subst equal
        split_ifs with covers <;> simp [covers]
      · split_ifs <;> simp [equal]

def WithinLimits (f : Function) : Prop :=
  f.candidates.length ≤ maxCandidates ∧ f.size ≤ maxCandidates

theorem mem_dominated {c : f.Candidate} :
    c ∈ f.dominated ↔ f.WithinLimits ∧ (∃ executed, f.Reaches (f.access c).marker executed) ∧
      ∃ other, Covering other c ∧
        ∀ executed, f.Reaches (f.access c).marker executed → Available executed other := by
  have some : f.candidates ≠ [] := List.ne_nil_of_mem (List.get_mem f.candidates c)
  by_cases limits : f.WithinLimits
  swap
  · have stops : f.dominated = [] := by
      rw [dominated, if_pos]
      rcases not_and_or.mp limits with many | large
      · exact .inr (.inl (Nat.lt_of_not_le many))
      · exact .inr (.inr (Nat.lt_of_not_le large))
    simp [stops, limits]
  have proceeds : ¬ (f.candidates = [] ∨ maxCandidates < f.candidates.length ∨
      maxCandidates < f.size) := by
    simp [some, limits.1, limits.2]
  simp only [dominated, if_neg proceeds, List.mem_flatMap, mem_transferDeciding, limits, true_and]
  constructor
  · rintro ⟨b, visited, done, later, place, covers⟩
    obtain ⟨other, covering, here⟩ := covered_iff.mp covers
    refine ⟨?_, other, covering, fun executed reaches => ?_⟩
    · obtain ⟨facts, path⟩ := f.available.exists_path visited
      obtain ⟨executed, reaches, -⟩ := exists_reaches path place
      exact ⟨executed, reaches⟩
    · obtain ⟨b', done', later', facts, place', path, same⟩ := exists_block reaches
      obtain ⟨rfl, rfl, rfl⟩ := f.block_inj place place'
      rw [← mem_along, same, mem_foldl_transferOne]
      rw [mem_foldl_transferOne] at here
      refine here.imp_right fun ⟨quiet, before⟩ => ⟨quiet, ?_⟩
      exact (Dataflow.mem_flowIn_solve visited other).mp before facts path
  · rintro ⟨⟨executed, reaches⟩, other, covering, every⟩
    obtain ⟨b, done, later, facts, place, path, -⟩ := exists_block reaches
    have visited := path.mem_order
    refine ⟨b, visited, done, later, place, covered_iff.mpr ⟨other, covering, ?_⟩⟩
    have along : ∀ facts, f.available.Path b facts → Available done other ∨
        (∀ i ∈ done, killsGuards (f.instruction i) = false) ∧ other ∈ facts := by
      intro facts path
      obtain ⟨executed, reaches, same⟩ := exists_reaches path place
      rw [← mem_foldl_transferOne, ← same, mem_along]
      exact every executed reaches
    rw [mem_foldl_transferOne]
    by_cases within : Available done other
    · exact .inl within
    · refine .inr ⟨((along facts path).resolve_left within).1, ?_⟩
      exact (Dataflow.mem_flowIn_solve visited other).mpr
        fun facts path => ((along facts path).resolve_left within).2

/-- The pass leaves the guard's access dominated. -/
def Removed (c : f.Candidate) : Prop :=
  ∃ access ∈ f.removeDominated, access.marker = (f.access c).marker ∧ access.state = .dominated

theorem removed_iff {c : f.Candidate} : f.Removed c ↔ c ∈ f.dominated := by
  obtain ⟨present, isRemovable⟩ := access_mem c
  simp only [Removed, removeDominated, List.mem_map]
  constructor
  · rintro ⟨_, ⟨access, known, rfl⟩, marker, state⟩
    split_ifs at marker state with removed
    · obtain ⟨-, d, found, same⟩ := removed
      rwa [← marker_inj (same.trans marker)]
    · rw [List.inj_on_of_nodup_map f.distinct known present marker] at state
      simp [removable, state] at isRemovable
  · intro found
    exact ⟨_, ⟨f.access c, present, rfl⟩, by rw [if_pos ⟨isRemovable, c, found, rfl⟩],
      by rw [if_pos ⟨isRemovable, c, found, rfl⟩]⟩

/-! ## What removing asks for -/

/-- Whether an instruction may release or reallocate memory or end a scope: a
call that is no marker, and one the optimizer does not know to free nothing. -/
def MayRelease (instruction : Instruction) : Prop :=
  ∃ call, instruction.call = some call ∧ markerOf call = none ∧
    (call.noFree = false ∨ call.intrinsic = some .lifetimeStart ∨
      call.intrinsic = some .lifetimeEnd ∨ call.intrinsic = some .stackRestore)

/-- A call by name to the runtime: a wrapper of a library function too. -/
def RuntimeCall (instruction : Instruction) : Prop :=
  ∃ call name, instruction.call = some call ∧ call.callee = some name ∧
    isRuntimeName name = true

/-- The instructions that do release memory or end a scope. -/
structure Releases (f : Function) where
  releases : InstructionId → Prop
  permitted {i : InstructionId} : releases i → MayRelease (f.instruction i)

/-- The kills are all the releases but those of calls to the runtime. -/
theorem kills_of_mayRelease {instruction : Instruction} (may : MayRelease instruction) :
    killsGuards instruction = true ∨ RuntimeCall instruction := by
  obtain ⟨call, found, marker, why⟩ := may
  by_cases runtime : RuntimeCall instruction
  · exact .inr runtime
  · left
    have ordinary : ∀ name, call.callee = some name → isRuntimeName name = false := by
      intro name callee
      by_contra known
      exact runtime ⟨call, name, found, callee, by simpa using known⟩
    simp only [killsGuards, found, marker, Option.isSome_none]
    rcases hi : call.intrinsic with _ | _ | _ | _ | _ <;> simp [hi] at why ⊢
    · cases callee : call.callee with
      | none => simp [why]
      | some name => simp [ordinary name callee, why]
    · exact why

variable (r : Releases f)

/-- The bytes, from its base, that a guard checks. -/
def Checks (c : f.Candidate) (k : Int) : Prop :=
  (f.access c).offset.toInt ≤ k ∧ k < (f.access c).offset.toInt + (f.access c).width.toNat

instance (c : f.Candidate) (k : Int) : Decidable (Checks c k) :=
  inferInstanceAs (Decidable (_ ∧ _))

/-- On the way, a guard of the base's present value was executed, with no
release since. -/
def CheckedSince (executed : List InstructionId) (base : Option Value) (p : f.Candidate → Prop) :
    Prop :=
  ∃ c before after, executed = before ++ (f.access c).marker :: after ∧
    (f.access c).base = base ∧ p c ∧
    ∀ i ∈ after, ¬ r.releases i ∧ ∀ v, base = some v → (f.instruction i).result ≠ some v

/-- Every removed guard is preceded on every path by kept guards of its
base's value that check its bytes. -/
def Sound : Prop :=
  ∀ c, f.Removed c → ∀ executed, f.Reaches (f.access c).marker executed →
    CheckedSince r executed (f.access c).base (fun _ => True) ∧
    ∀ k, Checks c k →
      CheckedSince r executed (f.access c).base (fun d => ¬ f.Removed d ∧ Checks d k)

/-- Where one guard is available for another on every path, guards executed
since the last release, removed or not, check the other's bytes. -/
def Covered : Prop :=
  ∀ c other, f.WithinLimits → Covering other c →
    (∀ executed, f.Reaches (f.access c).marker executed → Available executed other) →
    ∀ executed, f.Reaches (f.access c).marker executed →
      CheckedSince r executed (f.access c).base (fun _ => True) ∧
      ∀ k, Checks c k → CheckedSince r executed (f.access c).base (fun d => Checks d k)

variable {r}

theorem not_releases (c : f.Candidate) : ¬ r.releases (f.access c).marker := by
  intro releases
  obtain ⟨call, found, marker⟩ := f.isMarker (access_mem c).1
  obtain ⟨call', found', notMarker, -⟩ := r.permitted releases
  rw [found] at found'
  obtain rfl := Option.some.inj found'
  simp [notMarker] at marker

theorem result_marker (c : f.Candidate) : (f.instruction (f.access c).marker).result = none := by
  obtain ⟨known, isRemovable⟩ := access_mem c
  simp only [removable, Bool.and_eq_true, decide_eq_true_eq] at isRemovable
  exact f.void known isRemovable.1.2

/-- A check made before a guard of the same value still counts after it. -/
theorem CheckedSince.trans {before after : List InstructionId} {c : f.Candidate}
    {base : Option Value} {p : f.Candidate → Prop} (checked : CheckedSince r before base p)
    (quiet : ∀ i ∈ after, ¬ r.releases i ∧
      ∀ v, base = some v → (f.instruction i).result ≠ some v) :
    CheckedSince r (before ++ (f.access c).marker :: after) base p := by
  obtain ⟨d, earlier, later, rfl, same, holds, quiet'⟩ := checked
  refine ⟨d, earlier, later ++ (f.access c).marker :: after, by simp, same, holds, ?_⟩
  intro i found
  rcases List.mem_append.mp found with first | rest
  · exact quiet' i first
  · rcases List.mem_cons.mp rest with rfl | last
    · exact ⟨not_releases c, fun v _ => by rw [result_marker c]; simp⟩
    · exact quiet i last

/-- Removed guards may stand for one another: the earliest is kept. -/
theorem checkedSince_kept (covered : f.Covered r) {k : Int} (c : f.Candidate)
    {executed : List InstructionId} (removed : f.Removed c)
    (reaches : f.Reaches (f.access c).marker executed) (checks : Checks c k) :
    CheckedSince r executed (f.access c).base (fun d => ¬ f.Removed d ∧ Checks d k) := by
  induction h : executed.length using Nat.strong_induction_on generalizing c executed with
  | _ length ih =>
    obtain ⟨limits, -, other, covering, every⟩ := mem_dominated.mp (removed_iff.mp removed)
    obtain ⟨d, before, after, rfl, base, checks', quiet⟩ :=
      (covered c other limits covering every executed reaches).2 k checks
    by_cases kept : f.Removed d
    · have shorter : before.length < length := by simp [← h]
      have checked := ih before.length shorter d kept reaches.earlier checks' rfl
      rw [base] at checked
      exact checked.trans quiet
    · exact ⟨d, before, after, rfl, base, ⟨kept, checks'⟩, quiet⟩

theorem sound_iff_covered : f.Sound r ↔ f.Covered r := by
  constructor
  · intro sound c other limits covering every executed reaches
    have removed : f.Removed c :=
      removed_iff.mpr (mem_dominated.mpr ⟨limits, ⟨executed, reaches⟩, other, covering, every⟩)
    obtain ⟨some, all⟩ := sound c removed executed reaches
    refine ⟨some, fun k checks => ?_⟩
    obtain ⟨d, before, after, path, base, checks', quiet⟩ := all k checks
    exact ⟨d, before, after, path, base, checks'.2, quiet⟩
  · intro covered c removed executed reaches
    obtain ⟨limits, -, other, covering, every⟩ := mem_dominated.mp (removed_iff.mp removed)
    exact ⟨(covered c other limits covering every executed reaches).1,
      fun k checks => checkedSince_kept covered c removed reaches checks⟩

/-! ## Availability and dynamic values -/

theorem exists_last {p : InstructionId → Prop} {is : List InstructionId} (some : ∃ i ∈ is, p i) :
    ∃ before i after, is = before ++ i :: after ∧ p i ∧ ∀ j ∈ after, ¬ p j := by
  induction is using List.reverseRecOn with
  | nil => simp at some
  | append_singleton is last ih =>
    by_cases here : p last
    · exact ⟨is, last, [], rfl, here, by simp⟩
    · have earlier : ∃ i ∈ is, p i := by
        obtain ⟨i, found, holds⟩ := some
        rcases List.mem_append.mp found with first | same
        · exact ⟨i, first, holds⟩
        · rw [List.mem_singleton.mp same] at holds
          exact absurd holds here
      obtain ⟨before, i, after, rfl, holds, none⟩ := ih earlier
      refine ⟨before, i, after ++ [last], by simp, holds, fun j found => ?_⟩
      rcases List.mem_append.mp found with first | same
      · exact none j first
      · rwa [List.mem_singleton.mp same]

/-- Where an element occurs in a list it does not occur in the first part of. -/
theorem append_cons_split {as zs before after : List InstructionId} {i m : InstructionId}
    (path : as ++ i :: zs = before ++ m :: after) (notBefore : m ∉ as) (other : m ≠ i) :
    ∃ mid, zs = mid ++ m :: after := by
  rcases List.append_eq_append_iff.mp path with ⟨t, -, rest⟩ | ⟨t, split, rest⟩
  · cases t with
    | nil => exact absurd (List.cons.inj rest).1.symm other
    | cons x mid => exact ⟨mid, (List.cons.inj rest).2⟩
  · cases t with
    | nil => exact absurd (List.cons.inj rest).1 other
    | cons x t =>
      obtain ⟨rfl, -⟩ := List.cons.inj rest
      exact absurd (split ▸ List.mem_append_right _ List.mem_cons_self) notBefore

/-- A guard available on every path was executed since its base was last
computed: on the path that computes the base for the first time and goes on in
the same way, it cannot have been executed before. -/
theorem available_since {c other : f.Candidate} {v : Value}
    (base : (f.access other).base = some v) {executed : List InstructionId}
    (reaches : f.Reaches (f.access c).marker executed)
    (every : ∀ executed, f.Reaches (f.access c).marker executed → Available executed other) :
    ∃ before after, executed = before ++ (f.access other).marker :: after ∧
      ∀ i ∈ after, killsGuards (f.instruction i) = false ∧ (f.instruction i).result ≠ some v := by
  by_cases computed : ∃ i ∈ executed, (f.instruction i).result = some v
  · obtain ⟨last, i, zs, rfl, defines, since⟩ := exists_last computed
    obtain ⟨first, rest, path, notFirst⟩ := List.eq_append_cons_of_mem
      (show i ∈ last ++ i :: zs by simp)
    have reaches' : f.Reaches i first := by
      rw [path] at reaches
      exact reaches.earlier
    have notBefore : (f.access other).marker ∉ first := by
      intro found
      obtain ⟨xs, ys, rfl⟩ := List.append_of_mem found
      refine notFirst (List.mem_append_left _ ?_)
      exact f.dominates (access_mem other).1 v base i defines xs reaches'.earlier
    have notDefines : (f.access other).marker ≠ i := by
      rintro rfl
      simp [result_marker] at defines
    obtain ⟨before, after, path', quiet⟩ := every _ (reaches.splice reaches')
    obtain ⟨mid, rfl⟩ := append_cons_split path' notBefore notDefines
    exact ⟨last ++ i :: mid, after, by simp, fun j found => ⟨quiet j found, since j (by simp [found])⟩⟩
  · obtain ⟨before, after, rfl, quiet⟩ := every executed reaches
    exact ⟨before, after, rfl, fun i found => ⟨quiet i found, fun defines =>
      computed ⟨i, by simp [found], defines⟩⟩⟩

/-- No guard's range passes the end of the signed 64-bit numbers. -/
def NoWrap (f : Function) : Prop :=
  ∀ c : f.Candidate, (f.access c).offset.toInt + (f.access c).width.toNat < 2 ^ 63

/-- No call by name to the runtime releases memory. -/
def NoRuntimeRelease (r : Releases f) : Prop :=
  ∀ i, r.releases i → ¬ RuntimeCall (f.instruction i)

theorem toInt_end {offset width : BitVec 64} (fits : offset.toInt + width.toNat < 2 ^ 63) :
    (offset + width).toInt = offset.toInt + width.toNat := by
  have low := offset.le_toInt
  rw [BitVec.toInt_add, BitVec.toInt_eq_toNat_bmod width, Int.add_bmod_bmod]
  exact Int.bmod_eq_of_le (by omega) (by omega)

theorem checks_of_covering (narrow : f.NoWrap) {c other : f.Candidate}
    (covering : Covering other c) {k : Int} (checks : Checks c k) : Checks other k := by
  have inside := covering.2.2
  simp only [covers, Bool.and_eq_true, BitVec.sle_eq_decide, decide_eq_true_eq,
    toInt_end (narrow c), toInt_end (narrow other)] at inside
  obtain ⟨low, high⟩ := checks
  exact ⟨inside.1.trans low, lt_of_lt_of_le high inside.2⟩

theorem covered_of_plain (narrow : f.NoWrap) (noRelease : NoRuntimeRelease r) : f.Covered r := by
  intro c other _ covering every executed reaches
  have isRemovable := (access_mem other).2
  simp only [removable, Bool.and_eq_true] at isRemovable
  obtain ⟨v, base⟩ := Option.isSome_iff_exists.mp isRemovable.2
  obtain ⟨before, after, path, quiet⟩ := available_since base reaches every
  have since : ∀ i ∈ after, ¬ r.releases i ∧
      ∀ w, (f.access c).base = some w → (f.instruction i).result ≠ some w := by
    intro i found
    refine ⟨fun releases => ?_, fun w same => ?_⟩
    · rcases kills_of_mayRelease (r.permitted releases) with kills | runtime
      · simp [(quiet i found).1] at kills
      · exact noRelease i releases runtime
    · rw [← covering.1, base] at same
      exact Option.some.inj same ▸ (quiet i found).2
  exact ⟨⟨other, before, after, path, covering.1, trivial, since⟩, fun k checks =>
    ⟨other, before, after, path, covering.1, checks_of_covering narrow covering checks, since⟩⟩

/-- Removing dominated guards is sound exactly when the guards executed since
the last release cover what the analysis takes for covered.  They do where no
range wraps and no call to the runtime releases memory. -/
theorem removeDominated_sound (f : Function) (r : Releases f) :
    (f.Sound r ↔ f.Covered r) ∧ (f.NoWrap → NoRuntimeRelease r → f.Sound r) :=
  ⟨sound_iff_covered, fun narrow noRelease =>
    sound_iff_covered.mpr (covered_of_plain narrow noRelease)⟩

/-! ## Where it is not sound -/

def markerCall : Instruction := ⟨none, some ⟨some "__weavec.guard", none, true⟩⟩

/-- A call that reallocates, after the pass has redirected it. -/
def getlineCall : Instruction := ⟨none, some ⟨some "__weavec_rt_getline", none, false⟩⟩

def plainStore : Instruction := ⟨none, none⟩

def straight (b : Nat) : List Nat := if b = 0 then [0, 1, 2] else [b + 2]

theorem straight_unique {b c i : Nat} (found : i ∈ straight b) (found' : i ∈ straight c) :
    b = c := by
  unfold straight at found found'
  split_ifs at found found' <;> simp at found found' <;> omega

/-- Two guards of one argument with an instruction between them. -/
def twoGuards (between : Instruction) (void : between.result = none) (first second : BitVec 64) :
    Function where
  size := 1
  entry := 0
  rest := []
  predecessors _ := []
  block := straight
  instruction i := if i = 1 then between else markerCall
  nonempty b := by unfold straight; split_ifs <;> simp
  nodup b := by unfold straight; split_ifs <;> simp
  unique := straight_unique
  closed := by simp
  reached := by simp
  accesses := [⟨0, true, first, .guard, some 7, 0⟩, ⟨2, true, second, .guard, some 7, 0⟩]
  distinct := by simp
  isMarker {access} known := by
    refine ⟨⟨some "__weavec.guard", none, true⟩, ?_, by decide⟩
    rcases List.mem_pair.mp known with rfl | rfl <;> rfl
  void {access} known _ := by
    rcases List.mem_pair.mp known with rfl | rfl <;> rfl
  dominates {access} known v _ i computes := by
    split_ifs at computes
    · simp [void] at computes
    · simp [markerCall] at computes

theorem twoGuards_reaches (between : Instruction) (void : between.result = none)
    (first second : BitVec 64) : (twoGuards between void first second).Reaches 2 [0, 1] :=
  .next (.next (@Cfg.Reaches.start _ 0 [1, 2] rfl) (@Cfg.Follows.within _ _ _ 0 [] [2] rfl))
    (@Cfg.Follows.within _ _ _ 0 [0] [] rfl)

/-- The call reallocates what the first guard checked. -/
def getlineReleases : Releases (twoGuards getlineCall rfl 8 8) where
  releases i := i = 1
  permitted := by
    rintro i rfl
    exact ⟨_, rfl, rfl, .inl rfl⟩

def nothingReleases : Releases (twoGuards plainStore rfl 4 (-8)) where
  releases _ := False
  permitted := False.elim

/-- The call to the runtime's wrapper kills nothing; a width of `2^64 - 8` bytes
ends before it starts. -/
theorem removeDominated_unsound :
    ¬ (twoGuards getlineCall rfl 8 8).Sound getlineReleases ∧
      ¬ (twoGuards plainStore rfl 4 (-8)).Sound nothingReleases := by
  constructor
  · intro sound
    have removed : (twoGuards getlineCall rfl 8 8).Removed ⟨1, by decide⟩ :=
      removed_iff.mpr (by decide)
    have markers : ∀ d, ((twoGuards getlineCall rfl 8 8).access d).marker ≠ 1 := by decide
    obtain ⟨⟨d, before, after, path, -, -, quiet⟩, -⟩ :=
      sound _ removed _ (twoGuards_reaches getlineCall rfl 8 8)
    rcases before with _ | ⟨x, _ | ⟨y, before⟩⟩
    · obtain rfl := (List.cons.inj path).2
      exact (quiet 1 (by simp)).1 rfl
    · exact markers d (List.cons.inj (List.cons.inj path).2).1.symm
    · simp at path
  · intro sound
    have removed : (twoGuards plainStore rfl 4 (-8)).Removed ⟨1, by decide⟩ :=
      removed_iff.mpr (by decide)
    have only : ∀ d : (twoGuards plainStore rfl 4 (-8)).Candidate,
        d = ⟨1, by decide⟩ ∨ ¬ Checks d 100 := by decide
    obtain ⟨d, -, -, -, -, ⟨kept, checks⟩, -⟩ :=
      (sound _ removed _ (twoGuards_reaches plainStore rfl 4 (-8))).2 100 (by decide)
    rcases only d with rfl | none
    · exact kept removed
    · exact none checks

end Function

end WeaveC.Pass.Dominated
