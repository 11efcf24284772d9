import WeaveC.Alloc.Branches
import WeaveC.Alloc.Releasing
import WeaveC.Library.Transition
import Mathlib.Data.Fintype.Basic

/-!
# The slot partition

Every step of every thread keeps the partition, unless it releases a block
that another thread is reallocating in place, so the partition holds in every
state that is reached without such a race.
-/

namespace WeaveC.Alloc

open WeaveC.Library

variable {T : Type} {A : Arena} {place place' : Slot → Place T} {t : T} {h h' : Heap}
  {th th' : Thread}

theorem overBudget_spec (A : Arena) (h : Heap) (now : BitVec 64) (r : Reading) :
    (Thread.overBudget A h now r).1.table = h.table ∧
      (∀ cls, (Thread.overBudget A h now r).2.view cls = View.plain) ∧
      ∀ tb k, PointOk A tb k (Thread.overBudget A h now r).2 := by
  cases r with
  | budgets gained live =>
      simp only [Thread.overBudget]
      split_ifs <;> exact ⟨rfl, fun _ => rfl, fun _ _ => trivial⟩
  | ended gained live ended =>
      simp only [Thread.overBudget]
      split_ifs <;> exact ⟨rfl, fun _ => rfl, fun _ _ => trivial⟩
  | _ => exact ⟨rfl, fun _ => rfl, fun _ _ => trivial⟩

theorem allocated_plain (purpose : Purpose) (cls : Slot → Nat) :
    (Thread.allocated purpose).view cls = View.plain := by
  cases purpose <;> rfl

theorem allocated_ok (tb : Table) (k : ThreadCache) (purpose : Purpose) :
    PointOk A tb k (Thread.allocated purpose) := by
  cases purpose <;> trivial

theorem resume_plain (k : Then) (cls : Slot → Nat) : (Thread.resume k).view cls = View.plain := by
  cases k <;> rfl

theorem resume_ok {tb : Table} {k : ThreadCache} {next : Then} (ok : next.Ok A k) :
    PointOk A tb k (Thread.resume next) := by
  cases next with
  | done => trivial
  | pop w => exact ok

theorem flushed_plain (c : Nat) (f : FlushFor) (cls : Slot → Nat) :
    (Thread.flushed c f).view cls = View.plain := by
  cases f with
  | full => rfl
  | drain k =>
      unfold Point.view View.plain
      congr 1
      funext c' s
      simp only [Thread.flushed, Point.allocHeld, SlotCache.held, ite_self]

theorem foldLive_table (h : Heap) (delta : Int) (past : Bool) :
    (Thread.foldLive h delta past).1.table = h.table := by
  unfold Thread.foldLive
  split_ifs <;> rfl

/-- Folding the thread's change of the live heap's bytes moves no slot. -/
theorem Moved.folded {delta : Int} {past : Bool}
    (own : ThreadOk A place t (th.point.view h.table.regionClass) th.cache)
    (table : TableOk A h.table place)
    (alloc : th'.cache.alloc = th.cache.alloc) (release : th'.cache.release = th.cache.release)
    (view : th'.point.view h.table.regionClass = th.point.view h.table.regionClass)
    (point : PointOk A h.table th'.cache th'.point) :
    Moved A t place place h (Thread.foldLive h delta past).1 th th' := by
  have same := foldLive_table h delta past
  refine .stay own ?_ ?_ alloc release ?_ ?_
  all_goals rw [same]
  · exact table
  · exact .refl _
  · exact view
  · exact point

theorem flush_plain (c bytes : Nat) (f : FlushFor) (cls : Slot → Nat) :
    (Point.flush c 0 bytes f).view cls = View.plain := by
  unfold Point.view View.plain
  congr 1
  funext c' s
  simp only [Point.releaseHeld, SlotCache.held, ite_self]

theorem popped_view (w : Want) (region got : Nat) (e : Entry) (cls : Slot → Nat) :
    (Thread.popped w got e).view cls = (Point.setActive w region got e).view cls := by
  unfold Thread.popped Point.view
  cases cached : w.cached
  all_goals
    congr 1
    · funext c s
      simp [Point.allocHeld, cached]
    · simp [Point.taken, cached]

theorem popped_ok {tb : Table} {k : ThreadCache} {w : Want} {got : Nat} {e : Entry} (ok : w.Ok A)
    (some : 0 < got)
    (unhurt : w.cached = false →
      e.region < tb.regions ∧ (tb.region e.region).regionClass = w.cls) :
    PointOk A tb k (Thread.popped w got e) := by
  unfold Thread.popped
  split_ifs with cached
  · exact ⟨ok, cached, some⟩
  · exact ⟨ok, unhurt (Bool.eq_false_iff.mpr cached)⟩

/-- Reallocating in place starts from a load of the slot word. -/
theorem resizeStays_moved {x : Slot} {size : Nat} (bound : size < 2 ^ 64)
    (table : TableOk A h.table place)
    (own : ThreadOk A place t (th.point.view h.table.regionClass) th.cache)
    (plain : th.point.view h.table.regionClass = View.plain)
    (live : (h.table.word x).state = .live) (same : classFor size = h.table.regionClass x) :
    Moved A t place place h h th (th.goto (.resizeShadow x size)) := by
  have placed : place x = .live := (table.live_iff x).mpr live
  have used := table.used (x := x) (by simp [placed])
  have made : classFor size < A.classCount := by
    rw [same]
    exact table.ofClass _ used
  have fits : size < (A.entry (classFor size)).size :=
    classFor_fits bound (made.trans (classCount_lt A).2)
  rw [plain] at own
  refine
    { table
      grows := .refl _
      thread := { own with resizing := fun y here => ?_ }
      point := ?_
      others := fun _ _ _ _ => rfl
      live := fun _ live => .inl live }
  · obtain rfl : x = y := Option.some.inj here
    exact placed
  · change size < (h.table.region x.region).entry.size
    rw [table.entry _ used]
    unfold Table.regionClass at same
    rw [← same]
    exact fits

/-- Going on to another point moves no slot. -/
theorem goes_moved {a : Answer} {p q : Point} (table : TableOk A h.table place)
    (own : ThreadOk A place t (th.point.view h.table.regionClass) th.cache)
    (here : PointOk A h.table th.cache p) (start : th.point = p) (goes : Goes A h th a p q) :
    Moved A t place place h h th (th.goto q) := by
  have stays (view : q.view h.table.regionClass = p.view h.table.regionClass)
      (ok : PointOk A h.table th.cache q) : Moved A t place place h h th (th.goto q) :=
    .stay own table (.refl _) rfl rfl (by rw [start]; exact view) ok
  cases goes with
  | popActive => exact stays rfl ⟨here.1, here.2, table.active _ here.1.cls⟩
  | lastRegion => exact stays rfl ⟨here.1, here.2.1⟩
  | nextRegion more =>
      obtain ⟨ok, empty, used, cls⟩ := here
      obtain ⟨used', same⟩ := table.next _ used more
      exact stays rfl ⟨ok, empty, used', same.trans cls⟩
  | gainedSweeps | gainedSpares | spareSweeps | sweepAsks | wantedSlots | wantedNoSlots
  | wantedBlocks | worldRuns => exact stays rfl here
  | spareHuge | hugeFails | releaseForeign | resizeForeign => exact stays rfl trivial
  | releaseClaims _ _ live => exact stays rfl live
  | resizeStays _ _ live same =>
      exact resizeStays_moved here table own (by rw [start]; rfl) live same
  | sweepDrains => exact stays (drainFrom_plain A 0 _ _) (drainFrom_ok (Nat.zero_le _) here)
  | unwanted | lockTaken => exact stays (resume_plain _ _) (resume_ok here)

/-- A step of a thread inside the allocator. -/
theorem step_moved {a : Answer} (table : TableOk A h.table place)
    (own : ThreadOk A place t (th.point.view h.table.regionClass) th.cache)
    (here : PointOk A h.table th.cache th.point) (taken : th.step A h a = some (h', th')) :
    ∃ place', Moved A t place place' h h' th th' := by
  obtain ⟨key, cache, point⟩ := th
  have branch := branch_of_step taken
  change Branch A h _ a point h' th' at branch
  cases branch with
  | goes next => exact ⟨place, goes_moved table own here rfl next⟩
  -- the search for a region with a slot
  | popRegion => exact popRegion_moved table own here rfl taken
  | @setActive w region got e =>
      obtain ⟨ok, used, cls, some, unhurt⟩ := here
      exact ⟨place, .stay own (table.setActive used cls)
        ⟨Nat.le_refl _, fun _ _ => rfl, fun _ _ => rfl⟩ rfl rfl (popped_view w region got e _)
        (popped_ok ok some unhurt)⟩
  | takesSpare found =>
      obtain ⟨table', grows⟩ := table.takeSpare here.1.cls found
      exact ⟨place, .stay own table' grows rfl rfl rfl here⟩
  | setCount => exact ⟨place, setCount_moved table own here rfl taken⟩
  | swapLow => exact ⟨place, swapLow_moved table own here rfl taken⟩
  | swapHigh => exact ⟨place, swapHigh_moved table own here rfl taken⟩
  -- the entry that an allocation takes
  | charge => exact ⟨place, .folded own table rfl rfl rfl here⟩
  | takeTop => exact takeTop_moved table own here rfl taken
  | storeLive => exact storeLive_moved table own here rfl taken
  | shadowLive | hugeMade =>
      exact ⟨place, .stay own table (.refl _) rfl rfl (allocated_plain _ _) (allocated_ok _ _ _)⟩
  -- a release, and what it adds to
  | hugeFreed _ found =>
      obtain ⟨-, -, -, -, -, rfl⟩ := hugeFree_heap found
      exact ⟨place, .stay own table (.refl _) rfl rfl rfl trivial⟩
  | claim => exact claim_moved table own here rfl taken
  | @chooseCache x =>
      obtain ⟨kept, -, served⟩ :=
        cacheFor_spec (A := A) ⟨key, cache, .chooseCache x⟩ (h.table.regionClass x) a.cacheMapped
      exact ⟨place, .stay own table (.refl _) (congrArg ThreadCache.alloc kept)
        (congrArg ThreadCache.release kept) rfl served⟩
  | @shadowDead _ cached =>
      cases cached with
      | true => exact ⟨place, .stay own table (.refl _) rfl rfl rfl (here rfl)⟩
      | false => exact ⟨place, .stay own table (.refl _) rfl rfl rfl trivial⟩
  | countFirst | slotFirst => exact ⟨place, push_moved table own here rfl taken⟩
  | pushCount => exact pushCount_moved table own here rfl taken
  | pushSlot => exact pushSlot_moved table own here rfl taken
  | @credit c =>
      refine ⟨place, .folded own table rfl rfl ?_ ?_⟩
      · dsimp only
        split_ifs
        · exact flush_plain c 0 .full _
        · rfl
      · dsimp only
        split_ifs
        · exact ⟨here, Nat.zero_le _, trivial⟩
        · trivial
  | retire => exact retire_moved table own rfl taken
  | addLive | retireAdd | retireGained | flushAdd | lock | swept =>
      exact ⟨place, .stay own table (.refl _) rfl rfl rfl here⟩
  | retireLive => exact ⟨place, .stay own table (.refl _) rfl rfl rfl trivial⟩
  | @overBudget r =>
      obtain ⟨same, plain, ok⟩ := overBudget_spec A h a.now r
      exact ⟨place, .stay own (same ▸ table) (same ▸ .refl _) rfl rfl (plain _) (ok _ _)⟩
  -- the own cache's way back
  | flushRun | flushEnds => exact flush_moved table own here rfl taken
  | @flushGained c bytes f =>
      obtain ⟨served, ok, empty⟩ := here
      refine ⟨place, .stay own table (.refl _) rfl rfl (flushed_plain c f _) ?_⟩
      cases f with
      | full => trivial
      | drain k => exact ⟨served, Nat.zero_le _, ok, empty⟩
  | giveBack | giveBackEnds => exact giveBack_moved table own here rfl taken
  | @fold k => cases k <;> exact ⟨place, .folded own table rfl rfl rfl here⟩
  | unlink => exact ⟨place, unlink_moved table own here rfl taken⟩
  -- a sweep
  | world => exact world_moved table own here rfl taken
  | sweepUnlock =>
      exact ⟨place, .stay own table (.refl _) rfl rfl (resume_plain _ _) (resume_ok here)⟩
  -- a reallocation
  | resizeMoves =>
      exact ⟨place, (allocate_starts _ here (by omega) _ _).moved table own rfl⟩
  | resizeShadow => exact ⟨place, .stay own table (.refl _) rfl rfl rfl here⟩
  | resizeWord => exact ⟨place, resizeWord_moved table own rfl taken⟩

/-! ## Before the first call -/

/-- Before the first call every slot is fresh. -/
theorem partition_initial (A : Arena) (byte : Nat → UInt8) :
    Partition A (State.initial A byte : State T) fun _ => .fresh := by
  have wide : A.shift ≤ 31 := by
    rcases A.width with width | width <;> omega
  have valid {c : Nat} (made : c < A.classCount) : (A.entry c).Valid A.shift :=
    classes_valid A.width made
  have entry (r : Nat) : ((Table.initial A).region r).entry =
      if r < A.classCount then A.entry r else spareClass A.shift := by
    simp only [Table.initial]
    split_ifs <;> rfl
  have untouched (r : Nat) : ∃ en cls, (Table.initial A).region r = Region.untouched en cls := by
    simp only [Table.initial]
    split_ifs
    · exact ⟨_, _, rfl⟩
    · exact ⟨_, _, rfl⟩
  have region (r : Nat) : RegionOk A ((Table.initial A).region r) fun _ => (.fresh : Place T) := by
    have kind := entry r
    obtain ⟨en, cls, eq⟩ := untouched r
    rw [eq] at kind ⊢
    have fits : en.capacity ≤ 2 ^ 27 ∧ en.capacity * en.size ≤ A.regionBytes := by
      change en = _ at kind
      rw [kind]
      unfold Arena.regionBytes
      rw [Nat.shiftLeft_eq, one_mul]
      split_ifs with made
      · exact ⟨(valid made).capacity_le wide, (valid made).capacity_mul_le⟩
      · exact ⟨Nat.zero_le _, by simp [spareClass]⟩
    exact
      { free := ⟨[], rfl, by simp⟩
        queue := ⟨[], ⟨rfl, .inl ⟨rfl, rfl⟩⟩, by simp⟩
        word := fun _ => rfl
        fresh := fun _ => iff_of_true rfl (Nat.zero_le _)
        bump := Nat.zero_le _
        capacity := fits.1
        whole := fits.2
        extent := by simp [Region.untouched]
        committed := Nat.zero_le _
        chunks := Nat.dvd_zero _ }
  have made (c : Nat) (below : c < A.classCount) :
      (Table.initial A).region c = Region.untouched (A.entry c) c := if_pos below
  refine
    { table :=
        { classes := Nat.le_refl _
          count := (classes_lt A.width).le
          region := region
          own := fun c below => ?_
          ofClass := fun r below => ?_
          entry := fun r below => ?_
          spare := fun r above => ?_
          next := fun r below some => ?_
          active := fun c below => ⟨below, ?_⟩
          cls := fun _ _ _ named => by simp at named }
      thread := fun t => ?_
      point := fun _ => trivial }
  · rw [State.initial, Heap.initial, made c below]
    rfl
  · rw [State.initial, Heap.initial, made r below]
    exact below
  · rw [State.initial, Heap.initial, made r below]
    rfl
  · have spared : (Table.initial A).region r = Region.untouched (spareClass A.shift) NoRegion :=
      if_neg (Nat.not_lt.mpr above)
    rw [State.initial, Heap.initial, spared]
    exact ⟨rfl, rfl⟩
  · refine absurd ?_ some
    rw [State.initial, Heap.initial, made r below]
    rfl
  · rw [State.initial, Heap.initial]
    change ((Table.initial A).region c).regionClass = c
    rw [made c below]
    rfl
  · have none (q : Place T) (owned : q ≠ .fresh) : {x : Slot | (Place.fresh : Place T) = q} = ∅ := by
      ext x
      exact iff_of_false (fun here => owned here.symm) (by simp)
    exact
      { alloc := fun c => by
          rw [none _ (by simp)]
          exact .empty _ (Nat.le_refl _)
        release := fun c => by
          rw [none _ (by simp)]
          exact .empty _ (Nat.le_refl _)
        taken := fun x => by
          simp [State.initial, Thread.fresh, Point.view, Point.taken]
        retiring := fun x => by
          simp [State.initial, Thread.fresh, Point.view, Point.retiring]
        resizing := fun x here => by
          simp [State.initial, Thread.fresh, Point.view, Point.resizing] at here
        uncached := fun _ _ => ⟨rfl, rfl⟩ }

/-! ## Every step of every thread -/

section Machine

variable {s s' : State T} {e : Event T}

/-- The slot whose word a release is about to take. -/
def Point.claiming : Point → Option Slot
  | .claim x _ => some x
  | _ => none

/-- The next step runs a sweep's section. -/
def Point.sweeps : Point → Bool
  | .world _ => true
  | _ => false

/-- A release takes its slot away from no thread's reallocation in place. -/
def State.NoRace (s : State T) (e : Event T) : Prop :=
  ∀ x ∈ (s.thread e.thread).point.claiming, ∀ u, (s.thread u).point.resizing ≠ some x

instance [Fintype T] (s : State T) (e : Event T) : Decidable (s.NoRace e) :=
  inferInstanceAs (Decidable (∀ x ∈ _, ∀ _, _ ≠ some x))

theorem Partition.moved (ok : Partition A s place) (taken : s.stepOf A e = some (h, th)) :
    ∃ place', Moved A e.thread place place' s.heap h (s.thread e.thread) th := by
  unfold State.stepOf at taken
  cases called : e.call with
  | none =>
      rw [called] at taken
      exact step_moved ok.table (ok.thread _) (ok.point _) taken
  | some call =>
      rw [called] at taken
      simp only at taken
      split_ifs at taken with allowed
      obtain ⟨th', started, eq⟩ := Option.map_eq_some_iff.mp taken
      obtain ⟨rfl, rfl⟩ := Prod.mk.inj eq
      exact ⟨place, call_moved allowed.2 ok.table (ok.thread _) allowed.1 started⟩

variable [DecidableEq T]

theorem State.step_eq_some (taken : s.step A e = some s') :
    ∃ h th, s.stepOf A e = some (h, th) ∧
      s' = ⟨h, Function.update s.thread e.thread th, s.linked e.thread th⟩ := by
  unfold State.step at taken
  split at taken
  · exact absurd taken (by simp)
  · rename_i h th found
    exact ⟨h, th, found, (Option.some.inj taken).symm⟩

namespace Partition

/-- What the other threads see after a step. -/
theorem of_moved {t : T} {caches : List T} (ok : Partition A s place)
    (moved : Moved A t place place' s.heap h (s.thread t) th)
    (quiet : ∀ x w, (s.thread t).point = .claim x w → ∀ u, (s.thread u).point.resizing ≠ some x) :
    Partition A ⟨h, Function.update s.thread t th, caches⟩ place' := by
  have used {x : Slot} (placed : place x ≠ .fresh) : x.region < s.heap.table.regions :=
    ok.table.used placed
  have retiring (u : T) (x : Slot) (here : (s.thread u).point.retiring = some x) :
      x.region < s.heap.table.regions := by
    refine used ?_
    rw [((ok.thread u).retiring x).mpr here]
    simp
  have resizing (u : T) (x : Slot) (here : (s.thread u).point.resizing = some x) :
      x.region < s.heap.table.regions := by
    refine used ?_
    rw [(ok.thread u).resizing x here]
    simp
  refine { table := moved.table, thread := fun u => ?_, point := fun u => ?_ }
  · by_cases self : u = t
    · subst self
      simpa using moved.thread
    · simp only [Function.update_of_ne self]
      rw [Point.view_congr fun x here => moved.grows.class_eq (retiring u x here)]
      refine (ok.thread u).congr (fun x q own => ?_) fun x here => ?_
      · constructor
        · intro after
          rw [← moved.others x u self (.inr (after ▸ own))]
          exact after
        · intro before
          rw [moved.others x u self (.inl (before ▸ own))]
          exact before
      · rcases moved.live x ((ok.thread u).resizing x here) with live | ⟨w, claiming⟩
        · exact live
        · exact absurd here (quiet x w claiming u)
  · by_cases self : u = t
    · subst self
      simpa using moved.point
    · simp only [Function.update_of_ne self]
      exact (ok.point u).grows moved.grows (retiring u) (resizing u)

theorem step (ok : Partition A s place) (quiet : s.NoRace e) (taken : s.step A e = some s') :
    ∃ place', Partition A s' place' := by
  obtain ⟨h, th, found, rfl⟩ := State.step_eq_some taken
  obtain ⟨place', moved⟩ := ok.moved found
  refine ⟨place', ok.of_moved moved fun x w claiming u => ?_⟩
  refine quiet x ?_ u
  rw [claiming]
  rfl

end Partition

/-! ## Every run -/

theorem partition_run {byte : Nat → UInt8}
    (run : Run (State.step A) State.NoRace (.initial A byte) s) : ∃ place, Partition A s place :=
  run.invariant (I := fun s => ∃ place, Partition A s place) ⟨_, partition_initial A byte⟩
    fun _ _ _ ⟨_, ok⟩ quiet taken => ok.step quiet taken

end Machine

end WeaveC.Alloc
