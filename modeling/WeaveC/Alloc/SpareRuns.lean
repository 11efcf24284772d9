import WeaveC.Alloc.Spares
import WeaveC.Alloc.Refused

/-!
# Searches in a run

In a run whose calls do not overlap, each search of `popClass` ends, and comes
to the spares with the class's regions full exactly when no commit was refused
since it began with the region that allocations try first.
-/

namespace WeaveC.Alloc

open WeaveC.Library

variable {A : Arena} {h h' : Heap} {th th' : Thread}

/-! ## How far a search is from its end -/

/-- The allocation that a sweep is for. -/
def Then.want : Then → Option Want
  | .done => none
  | .pop w => some w

def After.want : After → Option Want
  | .sweep k => k.want
  | .exit => none

def FlushFor.want : FlushFor → Option Want
  | .full => none
  | .drain k => k.want

/-- The allocation that sweeps, inside `weavecRtSweep`. -/
def Point.sweepFor : Point → Option Want
  | .flush _ _ _ k | .flushAdd _ _ k | .flushGained _ _ k => k.want
  | .giveBack _ _ k | .fold k => k.want
  | .sweep k | .wanted k | .wantedHuge k | .trySweepLock k | .world k | .swept k _
  | .sweepUnlock k => k.want
  | _ => none

/-- Inside `popClass`, its sweep included. -/
def Point.inSearch (p : Point) : Bool :=
  match p with
  | .popActive _ _ | .popRegion _ _ _ _ | .popNext _ _ _ | .setActive _ _ _ _ | .popGained _ _
  | .spare _ _ => true
  | _ => p.sweepFor.isSome

/-- The steps that are left of a drain from class `c` on, over `n` classes. -/
def drainSteps (k : ThreadCache) : Nat → Nat → Nat
  | _, 0 => 0
  | c, n + 1 => (k.release c).count + (k.alloc c).count + 6 + drainSteps k (c + 1) n

/-- The most steps of one round of a search. -/
def roundSteps : Nat := 2 * RegionCount + 13

/-- The steps that are left of a sweep at most. -/
def Point.sweepSteps (A : Arena) (k : ThreadCache) : Point → Nat
  | .flush c i _ _ =>
      (k.release c).count - i + 13 + (k.alloc c).count + drainSteps k (c + 1) (A.cachedClasses - (c + 1))
  | .flushAdd c _ _ => 12 + (k.alloc c).count + drainSteps k (c + 1) (A.cachedClasses - (c + 1))
  | .flushGained c _ _ => 11 + (k.alloc c).count + drainSteps k (c + 1) (A.cachedClasses - (c + 1))
  | .giveBack c i _ => (k.alloc c).count - i + 10 + drainSteps k (c + 1) (A.cachedClasses - (c + 1))
  | .fold _ => 7
  | .wanted _ => 6
  | .wantedHuge _ => 5
  | .trySweepLock _ => 4
  | .world _ => 3
  | .swept _ _ => 2
  | .sweepUnlock _ => 1
  | _ => drainSteps k 0 A.cachedClasses + 9

/-- The steps that are left of a round at most. -/
def Point.searchSteps : Point → Nat
  | .popActive _ _ => 2 * RegionCount + 12
  | .popRegion _ _ true _ => 2 * RegionCount + 11
  | .popRegion _ _ false region => 2 * (RegionCount - region) + 10
  | .popNext _ _ region => 2 * (RegionCount - region) + 9
  | .popGained _ _ => 8
  | _ => 7

/-- The rounds that the spares allow. -/
def Table.rounds (t : Table) : Nat := (RegionCount - t.regions) * roundSteps

/-- The steps that are left of a search at most. -/
def Point.popSteps (A : Arena) (t : Table) (k : ThreadCache) (p : Point) : Nat :=
  match p with
  | .setActive _ _ _ _ => 0
  | .popActive _ once | .popRegion _ once _ _ | .popNext _ once _ | .popGained _ once
  | .spare _ once =>
      p.searchSteps + t.rounds +
        if once then 0 else roundSteps + drainSteps k 0 A.cachedClasses + 10
  | _ => p.sweepSteps A k + t.rounds + roundSteps

theorem drainSteps_succ (k : ThreadCache) (c n : Nat) : drainSteps k c (n + 1) =
    (k.release c).count + (k.alloc c).count + 6 + drainSteps k (c + 1) n := rfl

theorem drainSteps_congr {k k' : ThreadCache} {c n : Nat}
    (same : ∀ c', c ≤ c' → (k'.release c').count = (k.release c').count ∧
      (k'.alloc c').count = (k.alloc c').count) : drainSteps k' c n = drainSteps k c n := by
  induction n generalizing c with
  | zero => rfl
  | succ n inductionHypothesis =>
      obtain ⟨release, alloc⟩ := same c (Nat.le_refl c)
      rw [drainSteps_succ, drainSteps_succ, release, alloc, inductionHypothesis fun c' above => same c' (Nat.le_of_succ_le above)]

theorem drainSteps_setRelease (k : ThreadCache) (c : Nat) (s : SlotCache) (n : Nat) :
    drainSteps (k.setRelease c s) (c + 1) n = drainSteps k (c + 1) n := by
  refine drainSteps_congr fun c' above => ⟨?_, rfl⟩
  have other : Function.update k.release c s c' = k.release c' :=
    Function.update_of_ne (Nat.ne_of_gt above) s k.release
  exact congrArg SlotCache.count other

theorem drainSteps_setAlloc (k : ThreadCache) (c : Nat) (s : SlotCache) (n : Nat) :
    drainSteps (k.setAlloc c s) (c + 1) n = drainSteps k (c + 1) n := by
  refine drainSteps_congr fun c' above => ⟨rfl, ?_⟩
  have other : Function.update k.alloc c s c' = k.alloc c' :=
    Function.update_of_ne (Nat.ne_of_gt above) s k.alloc
  exact congrArg SlotCache.count other

theorem runLength_pos (slots : Nat → Entry) (i : Nat) {left : Nat} (some : 0 < left) :
    0 < Thread.runLength slots (slots i).region i left := by
  obtain ⟨left, rfl⟩ := Nat.exists_eq_succ_of_ne_zero (Nat.ne_of_gt some)
  unfold Thread.runLength
  rw [if_pos rfl]
  exact Nat.succ_pos _

/-- A drain goes on with the next class, or is done. -/
theorem drainFrom_steps (A : Arena) (k : ThreadCache) (c : Nat) (after : After) :
    (Thread.drainFrom A c after).sweepSteps A k ≤
      drainSteps k c (A.cachedClasses - c) + 8 := by
  unfold Thread.drainFrom
  by_cases more : c < A.cachedClasses
  · rw [if_pos more]
    have split : A.cachedClasses - c = A.cachedClasses - (c + 1) + 1 := by omega
    rw [split, drainSteps_succ]
    change (k.release c).count - 0 + 13 + (k.alloc c).count + _ ≤ _
    omega
  · rw [if_neg more]
    unfold Point.sweepSteps
    dsimp only
    omega

theorem drainFrom_sweepFor (A : Arena) (c : Nat) (k : After) :
    (Thread.drainFrom A c k).sweepFor = k.want := by
  unfold Thread.drainFrom
  split_ifs <;> rfl

/-- What the next step of a sweep leaves: the search again, or fewer steps. -/
def Point.Sweeps (A : Arena) (w : Want) (bound : Nat) (th : Thread) : Prop :=
  th.point = .popActive w true ∨
    th.point.sweepFor = some w ∧ th.point.sweepSteps A th.cache < bound

theorem resume_sweeps {w : Want} {k : Then} (want : k.want = some w) (bound : Nat) (th : Thread) :
    Point.Sweeps A w bound (th.goto (Thread.resume k)) := by
  cases k with
  | done => cases want
  | pop w' =>
      obtain rfl := Option.some.inj want
      exact .inl rfl

theorem sweep_steps {w : Want} {a : Answer} (here : th.point.sweepFor = some w)
    (taken : th.step A h a = some (h', th')) :
    Point.Sweeps A w (th.point.sweepSteps A th.cache) th' := by
  cases point : th.point with
  | flush c i bytes k =>
      rw [point] at here
      simp only [Thread.step, point] at taken
      split_ifs at taken with some any
      · obtain ⟨-, rfl⟩ := Prod.mk.inj (Option.some.inj taken)
        have more := runLength_pos (th.cache.release c).slots i (Nat.sub_pos_of_lt some)
        refine .inr ⟨here, ?_⟩
        change (th.cache.release c).count - (i + _) + 13 + (th.cache.alloc c).count +
            drainSteps th.cache (c + 1) _ <
          (th.cache.release c).count - i + 13 + (th.cache.alloc c).count + _
        omega
      · obtain ⟨-, rfl⟩ := Prod.mk.inj (Option.some.inj taken)
        refine .inr ⟨here, ?_⟩
        change 12 + (th.cache.alloc c).count + drainSteps (th.cache.setRelease c _) (c + 1) _ <
          (th.cache.release c).count - i + 13 + (th.cache.alloc c).count + _
        rw [drainSteps_setRelease]
        omega
      · obtain ⟨-, rfl⟩ := Prod.mk.inj (Option.some.inj taken)
        cases k with
        | full => cases here
        | drain k =>
            refine .inr ⟨here, ?_⟩
            change (th.cache.alloc c).count - 0 + 10 +
                drainSteps (th.cache.setRelease c _) (c + 1) _ <
              (th.cache.release c).count - i + 13 + (th.cache.alloc c).count + _
            rw [drainSteps_setRelease]
            omega
  | flushAdd c bytes k =>
      rw [point] at here
      simp only [Thread.step, point] at taken
      obtain ⟨-, rfl⟩ := Prod.mk.inj (Option.some.inj taken)
      refine .inr ⟨here, ?_⟩
      change 11 + (th.cache.alloc c).count + drainSteps th.cache (c + 1) _ <
        12 + (th.cache.alloc c).count + _
      omega
  | flushGained c bytes k =>
      rw [point] at here
      simp only [Thread.step, point] at taken
      obtain ⟨-, rfl⟩ := Prod.mk.inj (Option.some.inj taken)
      cases k with
      | full => cases here
      | drain k =>
          refine .inr ⟨here, ?_⟩
          change (th.cache.alloc c).count - 0 + 10 + drainSteps th.cache (c + 1) _ <
            11 + (th.cache.alloc c).count + _
          omega
  | giveBack c i k =>
      rw [point] at here
      simp only [Thread.step, point] at taken
      split_ifs at taken with some
      · obtain ⟨-, rfl⟩ := Prod.mk.inj (Option.some.inj taken)
        refine .inr ⟨here, ?_⟩
        change (th.cache.alloc c).count - (i + 1) + 10 + drainSteps th.cache (c + 1) _ <
          (th.cache.alloc c).count - i + 10 + _
        omega
      · obtain ⟨-, rfl⟩ := Prod.mk.inj (Option.some.inj taken)
        refine .inr ⟨(drainFrom_sweepFor A (c + 1) k).trans here, ?_⟩
        have next := drainFrom_steps A (th.cache.setAlloc c ⟨0, (th.cache.alloc c).slots⟩) (c + 1) k
        rw [drainSteps_setAlloc] at next
        change (Thread.drainFrom A (c + 1) k).sweepSteps A (th.cache.setAlloc c _) <
          (th.cache.alloc c).count - i + 10 + _
        omega
  | fold k =>
      rw [point] at here
      simp only [Thread.step, point] at taken
      obtain ⟨-, rfl⟩ := Prod.mk.inj (Option.some.inj taken)
      cases k with
      | exit => cases here
      | sweep k => exact .inr ⟨here, (by decide : 6 < 7)⟩
  | sweep k =>
      rw [point] at here
      simp only [Thread.step, point] at taken
      obtain ⟨-, rfl⟩ := Prod.mk.inj (Option.some.inj taken)
      unfold Point.Sweeps
      rw [Thread.goto_point, Thread.goto_cache]
      right
      split_ifs
      · refine ⟨(drainFrom_sweepFor A 0 (.sweep k)).trans here, ?_⟩
        have next := drainFrom_steps A th.cache 0 (.sweep k)
        change _ < drainSteps th.cache 0 A.cachedClasses + 9
        rw [Nat.sub_zero] at next
        omega
      · refine ⟨here, ?_⟩
        change 6 < drainSteps th.cache 0 A.cachedClasses + 9
        omega
  | wanted k =>
      rw [point] at here
      simp only [Thread.step, point] at taken
      obtain ⟨-, rfl⟩ := Prod.mk.inj (Option.some.inj taken)
      unfold Point.Sweeps
      rw [Thread.goto_point, Thread.goto_cache]
      right
      split_ifs
      · exact ⟨here, (by decide : 4 < 6)⟩
      · exact ⟨here, (by decide : 5 < 6)⟩
  | wantedHuge k =>
      rw [point] at here
      simp only [Thread.step, point] at taken
      obtain ⟨-, rfl⟩ := Prod.mk.inj (Option.some.inj taken)
      split_ifs
      · exact .inr ⟨here, (by decide : 4 < 5)⟩
      · exact resume_sweeps here _ th
  | trySweepLock k =>
      rw [point] at here
      simp only [Thread.step, point] at taken
      split_ifs at taken
      · obtain ⟨-, rfl⟩ := Prod.mk.inj (Option.some.inj taken)
        exact resume_sweeps here _ th
      · obtain ⟨-, rfl⟩ := Prod.mk.inj (Option.some.inj taken)
        exact .inr ⟨here, (by decide : 3 < 4)⟩
  | world k =>
      rw [point] at here
      simp only [Thread.step, point] at taken
      split_ifs at taken
      · obtain ⟨-, rfl⟩ := Prod.mk.inj (Option.some.inj taken)
        exact .inr ⟨here, (by decide : 2 < 3)⟩
      · obtain ⟨-, rfl⟩ := Prod.mk.inj (Option.some.inj taken)
        exact .inr ⟨here, (by decide : 1 < 3)⟩
  | swept k marked =>
      rw [point] at here
      simp only [Thread.step, point] at taken
      obtain ⟨-, rfl⟩ := Prod.mk.inj (Option.some.inj taken)
      exact .inr ⟨here, (by decide : 1 < 2)⟩
  | sweepUnlock k =>
      rw [point] at here
      simp only [Thread.step, point] at taken
      obtain ⟨-, rfl⟩ := Prod.mk.inj (Option.some.inj taken)
      exact resume_sweeps here _ th
  | _ =>
      rw [point] at here
      cases here

theorem popSteps_of_sweepFor {p : Point} {w : Want} (here : p.sweepFor = some w) (t : Table)
    (k : ThreadCache) : p.popSteps A t k = p.sweepSteps A k + t.rounds + roundSteps := by
  cases p with
  | popActive | popRegion | popNext | setActive | popGained | spare => cases here
  | _ => rfl

theorem rounds_eq {t t' : Table} (same : t'.regions = t.regions) : t'.rounds = t.rounds := by
  unfold Table.rounds
  rw [same]

theorem rounds_takeSpare {t t' : Table} {c : Nat} (taken : t.takeSpare c = some t') :
    t'.rounds + roundSteps = t.rounds := by
  unfold Table.takeSpare at taken
  dsimp only at taken
  split_ifs at taken with none
  obtain rfl := Option.some.inj taken
  unfold Table.rounds
  dsimp only
  rw [← Nat.succ_mul]
  congr 1
  omega

section Step

variable {T : Type} {place : Slot → Place T} {a : Answer}

theorem not_inSearch_popped (w : Want) (got : Nat) (e : Entry) :
    (Thread.popped w got e).inSearch = false := by
  unfold Thread.popped
  split_ifs <;> rfl

/-- Each step inside `popClass` brings it nearer to its end. -/
theorem pop_steps (ok : TableOk A h.table place) (ordered : h.table.Ordered)
    (here : PointOk A h.table th.cache th.point) (popping : th.point.inSearch = true)
    (taken : th.step A h a = some (h', th')) (still : th'.point.inSearch = true) :
    th'.point.popSteps A h'.table th'.cache < th.point.popSteps A h.table th.cache := by
  cases sweeps : th.point.sweepFor with
  | some w =>
      have rounds : h'.table.rounds = h.table.rounds := by
        rcases step_alike taken with alike | ⟨w', swept, point, -⟩
        · exact rounds_eq alike.regions
        · rw [point] at sweeps
          cases sweeps
      rw [popSteps_of_sweepFor sweeps]
      rcases sweep_steps sweeps taken with again | ⟨sweeps', fewer⟩
      · rw [again]
        change 2 * RegionCount + 12 + h'.table.rounds + 0 < _
        unfold roundSteps
        omega
      · rw [popSteps_of_sweepFor sweeps', rounds]
        omega
  | none =>
      cases point : th.point with
      | popActive w once =>
          simp only [Thread.step, point] at taken
          obtain ⟨rfl, rfl⟩ := Prod.mk.inj (Option.some.inj taken)
          change 2 * RegionCount + 11 + h.table.rounds + _ < 2 * RegionCount + 12 + h.table.rounds + _
          dsimp only [Thread.goto_cache]
          omega
      | popRegion w once first region =>
          simp only [Thread.step, point] at taken
          generalize popRegion A a.grant region (if w.cached = true then A.cacheLimit w.cls else 1)
            (h.table.region region) h.shadow = result at taken
          obtain ⟨es, R, shadow⟩ := result
          obtain ⟨rfl, rfl⟩ := Prod.mk.inj (Option.some.inj taken)
          cases es with
          | cons e es =>
              cases first with
              | true =>
                  change (Thread.popped w _ e).inSearch = true at still
                  rw [not_inSearch_popped] at still
                  cases still
              | false =>
                  change 0 < 2 * (RegionCount - region) + 10 + h.table.rounds + _
                  omega
          | nil =>
              rw [storePopped_nil]
              cases first with
              | true =>
                  change 2 * (RegionCount - w.cls) + 10 + h.table.rounds + _ <
                    2 * RegionCount + 11 + h.table.rounds + _
                  dsimp only [Thread.goto_cache]
                  omega
              | false =>
                  change 2 * (RegionCount - region) + 9 + h.table.rounds + _ <
                    2 * (RegionCount - region) + 10 + h.table.rounds + _
                  dsimp only [Thread.goto_cache]
                  omega
      | popNext w once region =>
          rw [point] at here
          simp only [Thread.step, point] at taken
          obtain ⟨rfl, rfl⟩ := Prod.mk.inj (Option.some.inj taken)
          rw [Thread.goto_point, Thread.goto_cache]
          by_cases ends : (h.table.region region).regionNext = NoRegion
          · rw [if_pos ends]
            change 8 + h.table.rounds + _ < 2 * (RegionCount - region) + 9 + h.table.rounds + _
            omega
          · rw [if_neg ends]
            have up := ordered.forward region here.2.2.1 ends
            have used := (ok.next region here.2.2.1 ends).1
            have count := ok.count
            change 2 * (RegionCount - (h.table.region region).regionNext) + 10 + h.table.rounds + _ <
              2 * (RegionCount - region) + 9 + h.table.rounds + _
            omega
      | setActive w region got e =>
          simp only [Thread.step, point] at taken
          obtain ⟨rfl, rfl⟩ := Prod.mk.inj (Option.some.inj taken)
          rw [Thread.goto_point, not_inSearch_popped] at still
          cases still
      | popGained w once =>
          simp only [Thread.step, point] at taken
          split_ifs at taken with gained
          · obtain ⟨rfl, rfl⟩ := Prod.mk.inj (Option.some.inj taken)
            rw [gained.1]
            change drainSteps th.cache 0 A.cachedClasses + 9 + h.table.rounds + roundSteps <
              8 + h.table.rounds + (roundSteps + drainSteps th.cache 0 A.cachedClasses + 10)
            omega
          · obtain ⟨rfl, rfl⟩ := Prod.mk.inj (Option.some.inj taken)
            change 7 + h.table.rounds + _ < 8 + h.table.rounds + _
            dsimp only [Thread.goto_cache]
            omega
      | spare w once =>
          simp only [Thread.step, point] at taken
          cases found : h.table.takeSpare w.cls with
          | some table =>
              rw [found] at taken
              obtain ⟨rfl, rfl⟩ := Prod.mk.inj (Option.some.inj taken)
              have rounds := rounds_takeSpare found
              change 2 * RegionCount + 12 + table.rounds + _ < 7 + h.table.rounds + _
              unfold roundSteps at rounds
              dsimp only [Thread.goto_cache]
              omega
          | none =>
              rw [found] at taken
              dsimp only at taken
              split_ifs at taken with last
              · obtain ⟨rfl, rfl⟩ := Prod.mk.inj (Option.some.inj taken)
                cases still
              · obtain ⟨rfl, rfl⟩ := Prod.mk.inj (Option.some.inj taken)
                rw [Bool.not_eq_true _ |>.mp last]
                change drainSteps th.cache 0 A.cachedClasses + 9 + h.table.rounds + roundSteps <
                  7 + h.table.rounds + (roundSteps + drainSteps th.cache 0 A.cachedClasses + 10)
                omega
      | _ =>
          rw [point] at popping sweeps
          have none := congrArg Option.isSome sweeps
          exact Bool.noConfusion (popping.symm.trans none : true = false)

end Step

/-- Nothing keeps a step inside `popClass` from being taken. -/
theorem pop_enabled (h : Heap) (a : Answer) (popping : th.point.inSearch = true) :
    ∃ h' th', th.step A h a = some (h', th') := by
  unfold Thread.step
  cases point : th.point with
  | popActive | popRegion | popNext | setActive | flushAdd | flushGained | fold | sweep | wanted
  | wantedHuge | swept | sweepUnlock => exact ⟨_, _, rfl⟩
  | popGained | flush | giveBack | trySweepLock | world =>
      dsimp only
      split_ifs <;> exact ⟨_, _, rfl⟩
  | spare w once =>
      dsimp only
      cases h.table.takeSpare w.cls with
      | some table => exact ⟨_, _, rfl⟩
      | none =>
          dsimp only
          split_ifs <;> exact ⟨_, _, rfl⟩
  | _ =>
      rw [point] at popping
      cases popping

theorem stepOf_search {T : Type} {place : Slot → Place T} {s : State T} {e : Event T} {refused : Bool}
    (ok : TableOk A s.heap.table place) (ordered : s.heap.table.Ordered)
    (here : PointOk A s.heap.table (s.thread e.thread).cache (s.thread e.thread).point)
    (search : (s.thread e.thread).point.Search s.heap.table refused)
    (taken : s.stepOf A e = some (h', th')) :
    th'.point.Search h'.table
      ((s.thread e.thread).point.refusedAfter A s.heap e.answer refused) := by
  unfold State.stepOf at taken
  cases called : e.call with
  | none =>
      rw [called] at taken
      exact step_search ok ordered here search taken
  | some call =>
      rw [called] at taken
      dsimp only at taken
      split_ifs at taken with idle
      obtain ⟨th'', started, eq⟩ := Option.map_eq_some_iff.mp taken
      obtain ⟨rfl, rfl⟩ := Prod.mk.inj eq
      refine call_quiet ?_ started _ _
      rw [idle.1]
      exact fun _ _ => trivial

/-! ## Runs -/

/-- The machine, with whether a commit was refused in each thread's search. -/
structure Tried (T : Type) where
  state : State T
  refused : T → Bool

namespace Tried

variable {T : Type}

def initial (A : Arena) (byte : Nat → UInt8) : Tried T := ⟨.initial A byte, fun _ => false⟩

variable [DecidableEq T]

def step (A : Arena) (w : Tried T) (e : Event T) : Option (Tried T) :=
  (w.state.step A e).map fun state =>
    { state
      refused := Function.update w.refused e.thread
        ((w.state.thread e.thread).point.refusedAfter A w.state.heap e.answer
          (w.refused e.thread)) }

/-- One call after another: no thread moves inside another's call. -/
def Turns (w : Tried T) (e : Event T) : Prop :=
  ∀ u, u ≠ e.thread → (w.state.thread u).point = .idle

instance [Fintype T] (w : Tried T) (e : Event T) : Decidable (w.Turns e) :=
  inferInstanceAs (Decidable (∀ u, u ≠ e.thread → _ = _))

structure Ok (A : Arena) (w : Tried T) : Prop where
  places : ∃ place, Partition A w.state place
  ordered : w.state.heap.table.Ordered
  search : ∀ t, (w.state.thread t).point.Search w.state.heap.table (w.refused t)

variable {w w' : Tried T} {e : Event T}

omit [DecidableEq T] in
theorem ok_initial (A : Arena) (byte : Nat → UInt8) : (initial A byte : Tried T).Ok A :=
  ⟨⟨_, partition_initial A byte⟩, .initial A, fun _ => trivial⟩

theorem Turns.noRace (turns : w.Turns e) : w.state.NoRace e := by
  intro x claiming u resizing
  by_cases self : u = e.thread
  · rw [self] at resizing
    cases point : (w.state.thread e.thread).point with
    | resizeShadow | resizeWord =>
        rw [point] at claiming
        cases claiming
    | _ =>
        rw [point] at resizing
        cases resizing
  · rw [turns u self] at resizing
    cases resizing

theorem Ok.step (ok : w.Ok A) (turns : w.Turns e) (taken : w.step A e = some w') : w'.Ok A := by
  obtain ⟨state, went, rfl⟩ := Option.map_eq_some_iff.mp taken
  obtain ⟨place, places⟩ := ok.places
  have here := places.point e.thread
  refine ⟨places.step turns.noRace went, ?_, fun t => ?_⟩
  · obtain ⟨h', th', found, rfl⟩ := State.step_eq_some went
    rcases stepOf_alike found with alike | ⟨want, once, point, spare⟩
    · exact ok.ordered.alike alike
    · rw [point] at here
      exact ok.ordered.takeSpare places.table here.1.cls spare
  · obtain ⟨h', th', found, rfl⟩ := State.step_eq_some went
    by_cases self : t = e.thread
    · rw [self]
      dsimp only
      rw [Function.update_self, Function.update_self]
      exact stepOf_search places.table ok.ordered here (ok.search e.thread) found
    · dsimp only
      rw [Function.update_of_ne self, Function.update_of_ne self, turns t self]
      trivial

theorem ok_run {byte : Nat → UInt8} (run : Run (step A) Turns (initial A byte) w) : w.Ok A :=
  run.invariant (ok_initial A byte) fun _ _ _ ok turns taken => ok.step turns taken

omit [DecidableEq T] in
theorem Ok.spare (ok : w.Ok A) {t : T} {want : Want} {once : Bool}
    (point : (w.state.thread t).point = .spare want once) :
    w.state.heap.table.Full want.cls ↔ w.refused t = false := by
  have search := ok.search t
  rw [point] at search
  exact Table.Searched.full_iff search

/-- Inside `popClass` a thread is the only one to move, and comes nearer to its end. -/
theorem Ok.pop_step (ok : w.Ok A) (turns : w.Turns e) (taken : w.step A e = some w') {t : T}
    (popping : (w.state.thread t).point.inSearch = true)
    (still : (w'.state.thread t).point.inSearch = true) :
    (w'.state.thread t).point.popSteps A w'.state.heap.table (w'.state.thread t).cache <
      (w.state.thread t).point.popSteps A w.state.heap.table (w.state.thread t).cache := by
  have self : t = e.thread := by
    refine Classical.byContradiction fun other => ?_
    rw [turns t other] at popping
    cases popping
  obtain ⟨state, went, rfl⟩ := Option.map_eq_some_iff.mp taken
  obtain ⟨place, places⟩ := ok.places
  obtain ⟨h', th', found, rfl⟩ := State.step_eq_some went
  dsimp only at still ⊢
  rw [self] at popping still ⊢
  rw [Function.update_self] at still ⊢
  unfold State.stepOf at found
  cases called : e.call with
  | none =>
      rw [called] at found
      exact pop_steps places.table ok.ordered (places.point e.thread) popping found still
  | some call =>
      rw [called] at found
      dsimp only at found
      split_ifs at found with idle
      rw [idle.1] at popping
      cases popping

/-- Calls one after another: none stays inside `popClass`. -/
theorem Ok.ends (ok : w.Ok A) (t : T) {f : Nat → Tried T} {e : Nat → Event T} (start : f 0 = w)
    (steps : ∀ n, (f n).Turns (e n) ∧ (f n).step A (e n) = some (f (n + 1))) :
    ∃ n, ((f n).state.thread t).point.inSearch = false := by
  refine Classical.byContradiction fun never => ?_
  have popping (n : Nat) : ((f n).state.thread t).point.inSearch = true := by
    refine Bool.not_eq_false _ |>.mp fun out => never ⟨n, out⟩
  have oks (n : Nat) : (f n).Ok A := by
    induction n with
    | zero => exact start ▸ ok
    | succ n inductionHypothesis => exact inductionHypothesis.step (steps n).1 (steps n).2
  let left (n : Nat) : Nat :=
    ((f n).state.thread t).point.popSteps A (f n).state.heap.table ((f n).state.thread t).cache
  have fewer (n : Nat) : left n + n ≤ left 0 := by
    induction n with
    | zero => exact Nat.le_refl _
    | succ n inductionHypothesis =>
        have step := (oks n).pop_step (steps n).1 (steps n).2 (popping n) (popping (n + 1))
        change left (n + 1) < left n at step
        omega
  have last := fewer (left 0 + 1)
  omega

theorem pop_event (w : Tried T) {t : T} (a : Answer)
    (popping : (w.state.thread t).point.inSearch = true) :
    ∃ w', w.step A ⟨t, none, a⟩ = some w' := by
  obtain ⟨h', th', taken⟩ := pop_enabled w.state.heap a popping
  have found : w.state.stepOf A ⟨t, none, a⟩ = some (h', th') := taken
  unfold step State.step
  rw [found]
  exact ⟨_, rfl⟩

/-- In a run of calls one after another: the lists of the classes change only
where a spare is taken, and there the class's regions are all full exactly when
no commit was refused in the search; `popClass` is never stuck, and ends. -/
theorem popClass_takeSpare {byte : Nat → UInt8}
    (run : Run (step A) Turns (initial A byte) w) :
    (∀ e w', w.Turns e → w.step A e = some w' →
      w.state.heap.table.Alike w'.state.heap.table ∨
        ∃ want once, (w.state.thread e.thread).point = .spare want once ∧
          w.state.heap.table.takeSpare want.cls = some w'.state.heap.table ∧
            (w.state.heap.table.Full want.cls ↔ w.refused e.thread = false)) ∧
      ∀ t, (w.state.thread t).point.inSearch = true →
        (∀ a, ∃ w', w.step A ⟨t, none, a⟩ = some w') ∧
          ∀ (f : Nat → Tried T) (e : Nat → Event T), f 0 = w →
            (∀ n, (f n).Turns (e n) ∧ (f n).step A (e n) = some (f (n + 1))) →
              ∃ n, ((f n).state.thread t).point.inSearch = false := by
  have ok := ok_run run
  refine ⟨fun e w' turns taken => ?_, fun t popping => ⟨fun a => w.pop_event a popping, ?_⟩⟩
  · obtain ⟨state, went, rfl⟩ := Option.map_eq_some_iff.mp taken
    obtain ⟨h', th', found, rfl⟩ := State.step_eq_some went
    rcases stepOf_alike found with alike | ⟨want, once, point, spare⟩
    · exact .inl alike
    · exact .inr ⟨want, once, point, spare, ok.spare point⟩
  · intro f e start steps
    exact ok.ends t start steps

/-! ## A refused commit -/

def refusedEvent : Event Unit := .refusing 0 0x10000000000

/-- What the examples look at: the class that a spare is about to be taken for,
the regions there are, whether those of class 6 are full, whether a commit was
refused, and the regions after one step more. -/
def spareAttempt (w : Tried Unit) : Option Nat × Nat × Bool × Bool × Option Nat :=
  (match (w.state.thread ()).point with
    | .spare want _ => some want.cls
    | _ => none,
    w.state.heap.table.regions, decide (w.state.heap.table.Full 6), w.refused (),
    (w.step .sample refusedEvent).map (·.state.heap.table.regions))

/-- A `malloc` of 100 bytes, as far as the spares, while every commit is refused. -/
def refusedMalloc : List (Event Unit) :=
  .enter () (.alloc 100 0) :: List.replicate 5 refusedEvent

/-- Class 6 has all its slots left and yet takes a spare region. -/
theorem refused_run : ∃ w : Tried Unit,
    Run (step .sample) Turns (initial .sample fun _ => 0) w ∧
      w.spareAttempt = (some 6, 96, false, true, some 97) :=
  Run.exists_exec refusedMalloc (by decide +kernel)

theorem popClass_takeSpare_refused : ∃ w : Tried Unit,
    w.spareAttempt = (some 6, 96, false, true, some 97) ∧
      ∀ e w', w.Turns e → w.step .sample e = some w' →
        w.state.heap.table.Alike w'.state.heap.table ∨
          ∃ want once, (w.state.thread e.thread).point = .spare want once ∧
            w.state.heap.table.takeSpare want.cls = some w'.state.heap.table ∧
              (w.state.heap.table.Full want.cls ↔ w.refused e.thread = false) := by
  obtain ⟨w, run, seen⟩ := refused_run
  exact ⟨w, seen, (popClass_takeSpare run).1⟩

/-- A spare is taken while the class's regions are not full. -/
theorem refused_takes_spare : ¬ ∀ w w' : Tried Unit,
    Run (step .sample) Turns (initial .sample fun _ => 0) w →
      w.step .sample refusedEvent = some w' →
        w.state.heap.table.regions < w'.state.heap.table.regions →
          ∀ want once, (w.state.thread ()).point = .spare want once →
            w.state.heap.table.Full want.cls := by
  intro always
  obtain ⟨w, run, seen⟩ := refused_run
  unfold spareAttempt at seen
  simp only [Prod.mk.injEq] at seen
  obtain ⟨spare, regions, room, -, after⟩ := seen
  obtain ⟨w', taken, regions'⟩ := Option.map_eq_some_iff.mp after
  cases point : (w.state.thread ()).point with
  | spare want once =>
      rw [point] at spare
      have cls : want.cls = 6 := Option.some.inj spare
      have full := always w w' run taken (by rw [regions, regions']; decide) want once point
      rw [cls] at full
      exact absurd full (of_decide_eq_false room)
  | _ =>
      rw [point] at spare
      cases spare

end Tried

end WeaveC.Alloc
