import WeaveC.Alloc.Branches
import WeaveC.Alloc.Place

/-!
# Allocations under way

An alignment above 16 that is no power of two is refused at the start of an
allocation, so none is under way.  Between the word of a slot and its shadow an
allocation, a release and a reallocation in place each have a point where the
two disagree.
-/

namespace WeaveC.Alloc

variable {A : Arena} {h h' : Heap} {th th' : Thread}

/-- What `allocate` checks of an alignment. -/
def Accepted (alignment : Nat) : Prop := alignment ≤ 16 ∨ alignment &&& (alignment - 1) = 0

/-! ## The allocation under way -/

/-- How far a call is: an allocation still knows the alignment asked for, or its
slot is live but for the shadow; a reallocation has written the shadow but not
the size; a release has claimed a slot but not written its shadow. -/
inductive Stage where
  | none
  | asking (alignment : Nat)
  | handing (x : Slot) (size : Nat)
  | resized (x : Slot) (size : Nat)
  | dying (x : Slot)

def Then.stage : Then → Stage
  | .done => .none
  | .pop w => .asking w.alignment

def After.stage : After → Stage
  | .sweep k => k.stage
  | .exit => .none

def FlushFor.stage : FlushFor → Stage
  | .full => .none
  | .drain k => k.stage

def Point.stage : Point → Stage
  | .popActive w _ | .popRegion w _ _ _ | .popNext w _ _ | .setActive w _ _ _ | .popGained w _
  | .spare w _ | .setCount w _ | .swapLow w _ | .swapHigh w _ _ | .charge w | .takeTop w
  | .addLive w _ | .storeLive w _ => .asking w.alignment
  | .shadowLive w e => .handing e.place w.size
  | .resizeWord x size => .resized x size
  | .chooseCache x | .shadowDead x _ => .dying x
  | .huge _ alignment _ => .asking alignment
  | .flush _ _ _ k | .flushAdd _ _ k | .flushGained _ _ k => k.stage
  | .giveBack _ _ k | .fold k => k.stage
  | .sweep k | .wanted k | .wantedHuge k | .trySweepLock k | .world k | .swept k _
  | .sweepUnlock k => k.stage
  | _ => .none

/-- Where a step goes on with the call under way, ends it or starts one. -/
def Point.From (p p' : Point) : Prop :=
  p'.stage = .none ∨ p'.stage = p.stage ∨
    (∃ alignment, p'.stage = .asking alignment ∧ Accepted alignment) ∨
      (∃ w e, p = .storeLive w e ∧ p' = .shadowLive w e) ∨
        (∃ x size, p = .resizeShadow x size ∧ p' = .resizeWord x size) ∨
          ∃ x word, p = .claim x word ∧ p' = .chooseCache x

theorem allocated_stage (purpose : Purpose) : (Thread.allocated purpose).stage = .none := by
  cases purpose <;> rfl

theorem resume_stage (k : Then) : (Thread.resume k).stage = k.stage := by
  cases k <;> rfl

theorem flushed_stage (c : Nat) (k : FlushFor) : (Thread.flushed c k).stage = k.stage := by
  cases k <;> rfl

theorem drainFrom_stage (A : Arena) (c : Nat) (k : After) :
    (Thread.drainFrom A c k).stage = k.stage := by
  unfold Thread.drainFrom
  split_ifs <;> rfl

theorem popped_stage (w : Want) (got : Nat) (e : Entry) :
    (Thread.popped w got e).stage = .asking w.alignment := by
  unfold Thread.popped
  split_ifs <;> rfl

theorem reversal_stage (w : Want) (count i : Nat) :
    (Thread.reversal w count i).stage = .asking w.alignment := by
  unfold Thread.reversal
  split_ifs <;> rfl

theorem afterPop_stage (w : Want) (swept first : Bool) (region : Nat) (es : List Entry) :
    (Thread.afterPop w swept first region es).stage = .asking w.alignment := by
  unfold Thread.afterPop
  split
  · split_ifs
    · exact popped_stage w _ _
    · rfl
  · split_ifs <;> rfl

theorem allocate_stage (th : Thread) (size alignment : Nat) (purpose : Purpose) (mapped : Bool) :
    (th.allocate A size alignment purpose mapped).point.stage = .none ∨
      (th.allocate A size alignment purpose mapped).point.stage = .asking alignment ∧
        Accepted alignment := by
  unfold Thread.allocate
  by_cases refused : 16 < alignment ∧ alignment &&& (alignment - 1) ≠ 0
  · rw [if_pos refused]
    exact .inl rfl
  · have accepted : Accepted alignment := by
      unfold Accepted
      by_contra neither
      obtain ⟨large, bits⟩ := not_or.mp neither
      exact refused ⟨Nat.not_le.mp large, bits⟩
    rw [if_neg refused]
    dsimp only
    split_ifs <;> exact .inr ⟨rfl, accepted⟩

theorem overBudget_stage (A : Arena) (h : Heap) (now : BitVec 64) (r : Reading) :
    (Thread.overBudget A h now r).2.stage = .none := by
  cases r with
  | budgets gained live =>
      unfold Thread.overBudget
      dsimp only
      split_ifs <;> rfl
  | ended gained live ended =>
      unfold Thread.overBudget
      dsimp only
      split_ifs <;> rfl
  | _ => rfl

/-! ## Points that write a slot -/

/-- No slot's word and shadow disagree. -/
def Stage.Plain : Stage → Prop
  | .none | .asking _ => True
  | .handing _ _ | .resized _ _ | .dying _ => False

theorem Then.stage_plain (k : Then) : k.stage.Plain := by
  cases k <;> trivial

theorem After.stage_plain (k : After) : k.stage.Plain := by
  cases k with
  | sweep k => exact k.stage_plain
  | exit => trivial

theorem FlushFor.stage_plain (k : FlushFor) : k.stage.Plain := by
  cases k with
  | full => trivial
  | drain k => exact k.stage_plain

/-- The points whose step writes a slot's word or its shadow. -/
def Point.Writes : Point → Prop
  | .storeLive _ _ | .shadowLive _ _ | .claim _ _ | .chooseCache _ | .shadowDead _ _
  | .resizeShadow _ _ | .resizeWord _ _ => True
  | _ => False

theorem Point.stage_plain {p : Point} (other : ¬ p.Writes) : p.stage.Plain := by
  cases p with
  | storeLive | shadowLive | claim | chooseCache | shadowDead | resizeShadow | resizeWord =>
      exact absurd trivial other
  | flush _ _ _ k | flushAdd _ _ k | flushGained _ _ k => exact k.stage_plain
  | giveBack _ _ k | fold k => exact k.stage_plain
  | sweep k | wanted k | wantedHuge k | trySweepLock k | world k | swept k _ | sweepUnlock k =>
      exact k.stage_plain
  | _ => trivial

theorem Point.resizing_of_stage {p : Point} {x : Slot} {size : Nat} (here : p.stage = .resized x size) :
    p.resizing = some x := by
  by_cases writes : p.Writes
  · cases p with
    | resizeWord y size' =>
        obtain ⟨rfl, -⟩ := Stage.resized.inj here
        rfl
    | storeLive | shadowLive | claim | chooseCache | shadowDead | resizeShadow => cases here
    | _ => exact writes.elim
  · have plain := Point.stage_plain writes
    rw [here] at plain
    exact plain.elim

theorem Point.retiring_of_stage {p : Point} {x : Slot} (here : p.stage = .dying x) :
    p.retiring = some x := by
  by_cases writes : p.Writes
  · cases p with
    | chooseCache | shadowDead =>
        obtain rfl := Stage.dying.inj here
        rfl
    | storeLive | shadowLive | claim | resizeShadow | resizeWord => cases here
    | _ => exact writes.elim
  · have plain := Point.stage_plain writes
    rw [here] at plain
    exact plain.elim

/-! ## Every step -/

theorem step_stage {a : Answer} (taken : th.step A h a = some (h', th')) :
    th.point.From th'.point := by
  have branch := branch_of_step taken
  generalize th.point = p at branch ⊢
  cases branch with
  | goes next =>
      cases next with
      | sweepDrains => exact .inr (.inl (drainFrom_stage A _ _))
      | unwanted | lockTaken => exact .inr (.inl (resume_stage _))
      | hugeFails | releaseClaims | releaseForeign | resizeStays | resizeForeign => exact .inl rfl
      | _ => exact .inr (.inl rfl)
  -- the steps that write a slot
  | storeLive => exact .inr (.inr (.inr (.inl ⟨_, _, rfl, rfl⟩)))
  | resizeShadow => exact .inr (.inr (.inr (.inr (.inl ⟨_, _, rfl, rfl⟩))))
  | claim => exact .inr (.inr (.inr (.inr (.inr ⟨_, _, rfl, rfl⟩))))
  -- the search and the refill
  | popRegion => exact .inr (.inl (afterPop_stage _ _ _ _ _))
  | setActive => exact .inr (.inl (popped_stage _ _ _))
  | setCount | swapHigh => exact .inr (.inl (reversal_stage _ _ _))
  -- a call that ends or starts
  | shadowLive | hugeMade => exact .inl (allocated_stage _)
  | overBudget => exact .inl (overBudget_stage A h _ _)
  | resizeMoves => exact (allocate_stage th _ 0 _ _).imp_right fun some => .inr (.inl ⟨_, some⟩)
  | shadowDead | credit =>
      refine .inl ?_
      dsimp only [Thread.goto_point]
      split_ifs <;> rfl
  -- the way back of a cache
  | flushEnds =>
      refine .inr (.inl ?_)
      rw [Thread.goto_point]
      split_ifs
      · rfl
      · exact flushed_stage _ _
  | flushGained => exact .inr (.inl (flushed_stage _ _))
  | giveBackEnds => exact .inr (.inl (drainFrom_stage A _ _))
  | @fold k =>
      refine .inr (.inl ?_)
      cases k <;> rfl
  | sweepUnlock => exact .inr (.inl (resume_stage _))
  | hugeFreed | countFirst | slotFirst | pushCount | pushSlot | retire | retireAdd | retireGained
  | retireLive | unlink | resizeWord => exact .inl rfl
  | _ => exact .inr (.inl rfl)

/-! ## Every thread -/

section Machine

variable {T : Type} {s s' : State T} {e : Event T}

theorem stepOf_stage (taken : s.stepOf A e = some (h', th')) :
    (s.thread e.thread).point.From th'.point := by
  unfold State.stepOf at taken
  cases called : e.call with
  | none =>
      rw [called] at taken
      exact step_stage taken
  | some call =>
      rw [called] at taken
      dsimp only at taken
      split_ifs at taken
      obtain ⟨th'', started, eq⟩ := Option.map_eq_some_iff.mp taken
      obtain ⟨-, rfl⟩ := Prod.mk.inj eq
      rename_i allowed
      cases call with
      | alloc size alignment =>
          obtain rfl := Option.some.inj started
          exact (allocate_stage _ size alignment _ _).imp_right fun some => .inr (.inl ⟨_, some⟩)
      | free p =>
          obtain rfl := Option.some.inj started
          split_ifs
          · exact .inr (.inl rfl)
          · exact .inl rfl
      | realloc p size =>
          obtain rfl := Option.some.inj started
          split_ifs
          · exact (allocate_stage _ size 0 _ _).imp_right fun some => .inr (.inl ⟨_, some⟩)
          · exact .inl rfl
      | exit =>
          unfold Thread.call at started
          split_ifs at started
          obtain rfl := Option.some.inj started
          exact .inl rfl

/-- Every alignment under way is one `allocate` takes. -/
def State.Accepts (s : State T) : Prop :=
  ∀ t alignment, (s.thread t).point.stage = .asking alignment → Accepted alignment

theorem State.accepts_initial (A : Arena) (byte : Nat → UInt8) :
    (State.initial A byte : State T).Accepts := by
  intro t alignment asked
  cases asked

theorem State.Accepts.step [DecidableEq T] (ok : s.Accepts) (taken : s.stepOf A e = some (h', th'))
    {caches : List T} : State.Accepts ⟨h', Function.update s.thread e.thread th', caches⟩ := by
  intro t alignment asked
  dsimp only at asked
  by_cases same : t = e.thread
  · subst same
    rw [Function.update_self] at asked
    rcases stepOf_stage taken with none | kept | ⟨alignment', fresh, accepted⟩ |
      ⟨w, slot, -, made⟩ | ⟨x, size, -, resized⟩ | ⟨x, word, -, claimed⟩
    · rw [none] at asked
      cases asked
    · exact ok _ _ (kept.symm.trans asked)
    · obtain rfl := Stage.asking.inj (fresh.symm.trans asked)
      exact accepted
    · rw [made] at asked
      cases asked
    · rw [resized] at asked
      cases asked
    · rw [claimed] at asked
      cases asked
  · rw [Function.update_of_ne same] at asked
    exact ok t alignment asked

end Machine

end WeaveC.Alloc
