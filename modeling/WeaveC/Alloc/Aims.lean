import WeaveC.Alloc.Branches
import WeaveC.Alloc.Boundary

/-!
# What a call is after

Between a call's start and its return most steps serve its caches, its sweep or
the counters.  Such a step leaves what the call is after as it is: the block it
asks for, or nothing more.
-/

namespace WeaveC.Alloc

open WeaveC.Runtime

variable {A : Arena} {h h' : Heap} {th th' : Thread}

/-- What a thread is after: nothing more of a block, a block of `size` bytes, or
the step on a block that its call was given. -/
inductive Aim where
  | rest
  | seeks (size : Nat) (purpose : Purpose)
  | takes

def Then.aim : Then → Aim
  | .done => .rest
  | .pop w => .seeks w.size w.purpose

def After.aim : After → Aim
  | .sweep k => k.aim
  | .exit => .rest

def FlushFor.aim : FlushFor → Aim
  | .full => .rest
  | .drain k => k.aim

def Point.aim : Point → Aim
  | .popActive w _ | .popRegion w _ _ _ | .popNext w _ _ | .setActive w _ _ _ | .popGained w _
  | .spare w _ | .setCount w _ | .swapLow w _ | .swapHigh w _ _ | .charge w | .takeTop w
  | .addLive w _ | .storeLive w _ | .shadowLive w _ => .seeks w.size w.purpose
  | .huge size _ purpose => .seeks size purpose
  | .release _ | .claim _ _ | .resize _ _ | .resizeShadow _ _ | .resizeWord _ _ => .takes
  | .flush _ _ _ k | .flushAdd _ _ k | .flushGained _ _ k => k.aim
  | .giveBack _ _ k | .fold k => k.aim
  | .sweep k | .wanted k | .wantedHuge k | .trySweepLock k | .world k | .swept k _
  | .sweepUnlock k => k.aim
  | _ => .rest

/-- The step makes a block, or is on one that the call was given. -/
def Point.Turns : Point → Prop
  | .shadowLive _ _ | .huge _ _ _ | .release _ | .claim _ _ | .resize _ _ | .resizeShadow _ _
  | .resizeWord _ _ => True
  | _ => False

theorem Point.not_turns_of_rest {p : Point} (rest : p.aim = .rest) : ¬ p.Turns := by
  intro turns
  cases p with
  | shadowLive | huge | release | claim | resize | resizeShadow | resizeWord => cases rest
  | _ => exact turns

theorem Point.aim_of_takes {p : Point} {x : Slot} (takes : x ∈ p.takes) : p.aim = .takes := by
  cases p with
  | claim | resizeShadow => rfl
  | _ => cases takes

theorem Point.aim_of_resizing {p : Point} {x : Slot} (resizing : p.resizing = some x) :
    p.aim = .takes := by
  cases p with
  | resizeShadow | resizeWord => rfl
  | _ => cases resizing

theorem resume_aim (k : Then) : (Thread.resume k).aim = k.aim := by
  cases k <;> rfl

theorem flushed_aim (c : Nat) (k : FlushFor) : (Thread.flushed c k).aim = k.aim := by
  cases k <;> rfl

theorem drainFrom_aim (A : Arena) (c : Nat) (k : After) : (Thread.drainFrom A c k).aim = k.aim := by
  unfold Thread.drainFrom
  split_ifs <;> rfl

theorem popped_aim (w : Want) (got : Nat) (e : Entry) :
    (Thread.popped w got e).aim = .seeks w.size w.purpose := by
  unfold Thread.popped
  split_ifs <;> rfl

theorem reversal_aim (w : Want) (count i : Nat) :
    (Thread.reversal w count i).aim = .seeks w.size w.purpose := by
  unfold Thread.reversal
  split_ifs <;> rfl

theorem afterPop_aim (w : Want) (swept first : Bool) (region : Nat) (es : List Entry) :
    (Thread.afterPop w swept first region es).aim = .seeks w.size w.purpose := by
  unfold Thread.afterPop
  split
  · split_ifs
    · exact popped_aim w _ _
    · rfl
  · split_ifs <;> rfl

theorem overBudget_aim (A : Arena) (h : Heap) (now : BitVec 64) (r : Reading) :
    (Thread.overBudget A h now r).2.aim = .rest := by
  cases r with
  | budgets gained live =>
      unfold Thread.overBudget
      dsimp only
      split_ifs <;> rfl
  | ended gained live ended =>
      unfold Thread.overBudget
      dsimp only
      split_ifs <;> rfl
  | _ => rfl

/-- An allocation starts to look for a block, or has refused the alignment. -/
theorem allocate_aim (th : Thread) (size alignment : Nat) (purpose : Purpose) (mapped : Bool) :
    (th.allocate A size alignment purpose mapped).point.aim = .seeks size purpose ∨
      ¬ Accepted alignment ∧
        (th.allocate A size alignment purpose mapped).point = .idle := by
  unfold Thread.allocate
  split_ifs with refused
  · refine .inr ⟨?_, rfl⟩
    rintro (small | power)
    · exact absurd refused.1 (Nat.not_lt.mpr small)
    · exact refused.2 power
  · left
    dsimp only
    split_ifs <;> rfl

/-- A step that neither makes a block nor is on one. -/
theorem step_aim {a : Answer} (taken : th.step A h a = some (h', th')) (on : ¬ th.point.Turns) :
    th'.point.aim = th.point.aim := by
  have branch := branch_of_step taken
  generalize th.point = p at branch on ⊢
  cases branch with
  | goes next =>
      cases next with
      | sweepDrains => exact drainFrom_aim A _ _
      | unwanted | lockTaken => exact resume_aim _
      | hugeFails | releaseClaims | releaseForeign | resizeStays | resizeForeign =>
          exact absurd trivial on
      | _ => rfl
  | shadowLive | hugeMade | hugeFreed | claim | resizeMoves | resizeShadow | resizeWord =>
      exact absurd trivial on
  | popRegion => exact afterPop_aim _ _ _ _ _
  | setActive => exact popped_aim _ _ _
  | setCount | swapHigh => exact reversal_aim _ _ _
  | overBudget => exact overBudget_aim A h _ _
  | shadowDead | credit =>
      dsimp only [Thread.goto_point]
      split_ifs <;> rfl
  | flushEnds =>
      rw [Thread.goto_point]
      split_ifs
      · rfl
      · exact flushed_aim _ _
  | flushGained => exact flushed_aim _ _
  | giveBackEnds => exact drainFrom_aim A _ _
  | @fold k => cases k <;> rfl
  | sweepUnlock => exact resume_aim _
  | _ => rfl

/-- A thread inside the allocator goes on, but where a block that it was given is
not one, or the system maps no memory. -/
theorem step_isSome (A : Arena) (h : Heap) (a : Answer) (on : ¬ th.point.Turns)
    (inside : th.point ≠ .idle) : (th.step A h a).isSome := by
  unfold Thread.step
  cases point : th.point with
  | idle => exact absurd point inside
  | shadowLive | huge | release | claim | resize | resizeShadow | resizeWord =>
      rw [point] at on
      exact absurd trivial on
  | popGained | push | flush | giveBack | trySweepLock | world =>
      simp only
      split_ifs <;> rfl
  | spare w swept =>
      simp only
      split
      · rfl
      · split_ifs <;> rfl
  | _ => rfl

end WeaveC.Alloc
