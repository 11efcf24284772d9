import WeaveC.Alloc.Fork
import WeaveC.Alloc.Refills

/-!
# The child of a fork

What the other threads had in hand is lost to the child and the rest of their
caches goes back to the regions, so the child's slots are on one list each, now
and in everything it does: provided that no other thread was between the two
stores of an exchange, and no entry that its cache counted but no longer held
passes the check.
-/

namespace WeaveC.Alloc

open WeaveC.Library

variable {T : Type} {A : Arena} {h : Heap} {th : Thread} {t : Table} {u : T}
  {place place' : Slot → Place T}

/-! ## Caches a fork may copy -/

/-- Outside the part of an array that holds slots. -/
def Held.Stale (held : Held) (i : Nat) : Prop := i < held.low ∨ held.high ≤ i

/-- No entry that a cache counts but no longer holds, or holds already but does
not list yet, passes the drain's checks. -/
structure Thread.Steady (t : Table) (th : Thread) : Prop where
  whole : ∀ w i swap, th.point ≠ .swapHigh w i swap
  alloc : ∀ c i, i < (th.cache.alloc c).count →
    (th.point.allocHeld c (th.cache.alloc c)).Stale i →
      ¬ t.Returnable c ((th.cache.alloc c).slots i)
  release : ∀ c i, i < (th.cache.release c).count →
    (th.point.releaseHeld t.regionClass c (th.cache.release c)).Stale i →
      ¬ t.Releasable c ((th.cache.release c).slots i)

theorem allocHeld_counted {p : Point} {c : Nat} (s : SlotCache)
    (whole : ∀ w i swap, p ≠ .swapHigh w i swap) (counted : p.refills ≠ some c) :
    (p.allocHeld c s).slots = s.slots ∧ (p.allocHeld c s).high = s.count := by
  cases p with
  | swapHigh w i swap => exact absurd rfl (whole w i swap)
  | setActive w region got e =>
      have other : ¬ (w.cached = true ∧ w.cls = c) := by
        rintro ⟨cached, rfl⟩
        exact counted (if_pos cached)
      simp [Point.allocHeld, other, SlotCache.held]
  | setCount w got =>
      have other : w.cls ≠ c := fun same => counted (congrArg some same)
      simp [Point.allocHeld, other, SlotCache.held]
  | giveBack c' i k =>
      unfold Point.allocHeld
      dsimp only
      split_ifs <;> exact ⟨rfl, rfl⟩
  | _ => exact ⟨rfl, rfl⟩

theorem releaseHeld_counted (p : Point) (cls : Slot → Nat) (c : Nat) (s : SlotCache) :
    (p.releaseHeld cls c s).slots = s.slots ∧ (p.releaseHeld cls c s).high ≤ s.count := by
  cases p with
  | pushSlot | flush =>
      unfold Point.releaseHeld
      dsimp only
      split_ifs
      · exact ⟨rfl, by simp⟩
      · exact ⟨rfl, Nat.le_refl _⟩
  | _ => exact ⟨rfl, Nat.le_refl _⟩

/-- The copied caches are what the drains need. -/
theorem ThreadOk.orderly (own : ThreadOk A place u (th.point.view t.regionClass) th.cache)
    (ok : TableOk A t place) (uncounted : th.Uncounted) (steady : th.Steady t)
    {refills : T → Option Nat} (point : refills u = th.point.refills) :
    Orderly A t place u refills th.cache := by
  constructor
  · intro c _
    have segment := own.alloc c
    have stale := steady.alloc c
    simp only [Point.view] at segment
    by_cases refill : th.point.refills = some c
    · rw [uncounted c refill, point, refill]
      refine ⟨0, 0, ?_⟩
      exact
        { segment := by
            have := @Segment.empty _ (fun i => ((th.cache.alloc c).slots i).place) 0 0
              (Nat.le_refl _)
            simpa using this
          after := Nat.le_refl _
          before := Nat.le_refl _
          stale := fun j _ below => absurd below (Nat.not_lt_zero j) }
    · obtain ⟨slots, high⟩ := allocHeld_counted (th.cache.alloc c) steady.whole refill
      rw [slots] at segment
      refine ⟨(th.point.allocHeld c (th.cache.alloc c)).low,
        (th.point.allocHeld c (th.cache.alloc c)).high, ?_⟩
      exact
        { segment := by
            rw [point]
            simpa only [ne_eq, refill, not_false_eq_true, and_true] using segment
          after := Nat.zero_le _
          before := high.le
          stale := fun j _ below out passes => by
            exact stale j below out (ok.returnable_iff.mpr passes) }
  · intro c _
    have segment := own.release c
    have stale := steady.release c
    simp only [Point.view] at segment
    obtain ⟨slots, high⟩ :=
      releaseHeld_counted th.point t.regionClass c (th.cache.release c)
    rw [slots] at segment
    refine ⟨(th.point.releaseHeld t.regionClass c (th.cache.release c)).low,
      (th.point.releaseHeld t.regionClass c (th.cache.release c)).high, ?_⟩
    exact
      { segment
        after := Nat.zero_le _
        before := high
        stale := fun j _ below out passes =>
          stale j below out (ok.releasable_iff.mpr passes) }

/-! ## What is left of the other threads -/

/-- The slots a thread had in hand: no step takes them any more. -/
def Point.left : Point → Point
  | .setActive w region got e => .setActive w region got e
  | .setCount w got => .setCount w got
  | .addLive w e => .addLive w e
  | .storeLive w e => .storeLive w e
  | .chooseCache x | .shadowDead x _ | .push x | .pushCount x | .pushSlot x | .retire x =>
      .retire x
  | _ => .idle

/-- A thread whose cache the child has drained. -/
def Thread.left (th : Thread) : Thread :=
  { key := .gone
    cache :=
      { alloc := fun c => { th.cache.alloc c with count := 0 }
        release := fun c => { th.cache.release c with count := 0 }
        liveDelta := 0 }
    point := th.point.left }

/-- A thread without a cache: a reallocation in place is not finished. -/
def Thread.resting (th : Thread) : Thread :=
  if th.point.resizing.isSome then th.goto .idle else th

theorem Point.left_taken (p : Point) : p.left.taken = p.taken := by
  cases p <;> rfl

theorem Point.left_retiring (p : Point) : p.left.retiring = p.retiring := by
  cases p <;> rfl

theorem Point.left_resizing (p : Point) : p.left.resizing = none := by
  cases p <;> rfl

theorem Point.left_releaseHeld (p : Point) (cls : Slot → Nat) (c : Nat) (s : SlotCache) :
    p.left.releaseHeld cls c s = s.held := by
  cases p <;> rfl

/-- A refill's slots stay as they were; the other arrays are counted as empty. -/
theorem Point.left_allocHeld (p : Point) (c : Nat) (s : SlotCache) :
    p.refills = some c ∧ p.left.allocHeld c { s with count := 0 } = p.allocHeld c s ∨
      p.refills ≠ some c ∧ (p.left.allocHeld c { s with count := 0 }).high = 0 := by
  cases p with
  | setActive w region got e =>
      by_cases here : w.cached = true ∧ w.cls = c
      · obtain ⟨cached, rfl⟩ := here
        left
        exact ⟨if_pos cached, by simp [Point.left, Point.allocHeld, cached]⟩
      · right
        constructor
        · intro refill
          unfold Point.refills at refill
          dsimp only at refill
          split_ifs at refill with cached
          exact here ⟨cached, Option.some.inj refill⟩
        · simp [Point.left, Point.allocHeld, here, SlotCache.held]
  | setCount w got =>
      by_cases here : w.cls = c
      · left
        exact ⟨congrArg some here, by simp [Point.left, Point.allocHeld, here]⟩
      · right
        exact ⟨fun refill => here (Option.some.inj refill), by
          simp [Point.left, Point.allocHeld, here, SlotCache.held]⟩
  | _ => exact .inr ⟨by simp [Point.refills], rfl⟩

theorem PointOk.left {t : Table} {k k' : ThreadCache} {p : Point} (ok : PointOk A t k p) :
    PointOk A t k' p.left := by
  cases p <;> first | exact ok | exact trivial

variable [DecidableEq T] {gone : List T} {refills : T → Option Nat}

/-- What the drains leave a thread of `gone`. -/
theorem ThreadOk.left {n : Nat} {cls : Slot → Nat}
    (own : ThreadOk A place u (th.point.view cls) th.cache)
    (within : ∀ x c, place x = .cached u c ∨ place x = .released u c → c < n)
    (drained : ∀ x, place' x = (place x).drained gone refills n) (mem : u ∈ gone)
    (point : refills u = th.point.refills) (cls' : Slot → Nat) :
    ThreadOk A place' u (th.left.point.view cls') th.left.cache := by
  refine
    { alloc := fun c => ?_
      release := fun c => ?_
      taken := fun x => ?_
      retiring := fun x => ?_
      resizing := fun x resizing => ?_
      uncached := fun c _ => ⟨rfl, rfl⟩ }
  · have iff (x : Slot) : place' x = .cached u c ↔
        place x = .cached u c ∧ th.point.refills = some c := by
      rw [drained, Place.drained_eq_cached, point]
      refine and_congr_right fun here => ⟨fun stays => ?_, fun refill leaves => leaves.2.1 refill⟩
      by_contra refill
      exact stays ⟨mem, refill, within x c (.inl here)⟩
    simp only [iff, Point.view]
    change Segment (fun i => ((th.point.left.allocHeld c { th.cache.alloc c with count := 0 }).slots
      i).place) _ _ _
    rcases th.point.left_allocHeld c (th.cache.alloc c) with ⟨refill, same⟩ | ⟨refill, none⟩
    · rw [show (th.left.point.allocHeld c (th.left.cache.alloc c)) =
        th.point.allocHeld c (th.cache.alloc c) from same, same]
      simpa only [refill, and_true, Point.view] using own.alloc c
    · have empty : {x | place x = .cached u c ∧ th.point.refills = some c} = ∅ := by
        simp [refill]
      rw [empty]
      exact Segment.empty _ (by
        rw [show (th.left.point.allocHeld c (th.left.cache.alloc c)).high = 0 from none]
        exact Nat.zero_le _)
  · have none : {x | place' x = .released u c} = ∅ := by
      refine Set.eq_empty_iff_forall_notMem.mpr fun x here => ?_
      change place' x = .released u c at here
      rw [drained, Place.drained_eq_released] at here
      exact here.2 ⟨mem, within x c (.inr here.1)⟩
    rw [none]
    refine Segment.empty _ ?_
    change (th.point.left.releaseHeld cls' c _).high ≤ (th.point.left.releaseHeld cls' c _).low
    rw [Point.left_releaseHeld]
    exact Nat.le_refl _
  · rw [drained, Place.drained_iff (by simp) (by simp) (by simp) (by simp), own.taken x]
    change _ ↔ th.point.left.taken = some x
    rw [Point.left_taken]
    rfl
  · rw [drained, Place.drained_iff (by simp) (by simp) (by simp) (by simp), own.retiring x]
    change _ ↔ th.point.left.retiring = some x
    rw [Point.left_retiring]
    rfl
  · change th.point.left.resizing = some x at resizing
    rw [Point.left_resizing] at resizing
    cases resizing

/-! ## The child's slots -/

/-- The child's places as places among the threads of the parent. -/
def Place.among (t : T) : Place Unit → Place T
  | .fresh => .fresh
  | .free => .free
  | .cached _ c => .cached t c
  | .taken _ => .taken t
  | .live => .live
  | .retiring _ => .retiring t
  | .released _ c => .released t c
  | .queued => .queued

omit [DecidableEq T] in
theorem Place.among_injective (t : T) : Function.Injective (Place.among t) := by
  intro p q same
  cases p <;> cases q <;> simp_all [Place.among]

/-- The child beside what is left of the parent's other threads. -/
def State.beside (s : State T) (t : T) (child : State Unit) : State T :=
  { heap := child.heap
    thread := fun u =>
      if u = t then child.thread ()
      else if u ∈ s.caches then (s.thread u).left else (s.thread u).resting
    caches := [] }

theorem State.beside_own (s : State T) (t : T) (child : State Unit) :
    (s.beside t child).thread t = child.thread () := if_pos rfl

theorem State.at_beside (s : State T) (t : T) (child : State Unit) (x : Slot) (p : Place Unit) :
    child.At x p ↔ (s.beside t child).At x (p.among t) := by
  cases p with
  | cached u c =>
      unfold State.At State.allocHeld
      dsimp only [Place.among]
      rw [State.beside_own]
  | released u c =>
      unfold State.At State.releaseHeld
      dsimp only [Place.among]
      rw [State.beside_own]
      rfl
  | taken | retiring =>
      unfold State.At
      dsimp only [Place.among]
      rw [State.beside_own]
  | _ => rfl

/-- The child's slots are on one list each, or lost with a thread that had them
in hand. -/
structure Exclusive (A : Arena) (s : State Unit) : Prop where
  one : ∀ x p q, s.At x p → s.At x q → p = q
  free : ∀ r, ∃ l, Chain (s.heap.table.region r).nextOf (s.heap.table.region r).freeHead l ∧
    l.Nodup
  queue : ∀ r, ∃ l, Queue (s.heap.table.region r).nextOf (s.heap.table.region r).deadHead
    (s.heap.table.region r).deadTail l ∧ l.Nodup
  alloc : ∀ t c, Set.InjOn (fun i => ((s.allocHeld t c).slots i).place)
    (Set.Ico (s.allocHeld t c).low (s.allocHeld t c).high)
  release : ∀ t c, Set.InjOn (fun i => ((s.releaseHeld t c).slots i).place)
    (Set.Ico (s.releaseHeld t c).low (s.releaseHeld t c).high)
  made : ∀ t w e, (s.thread t).point = .storeLive w e → ¬ s.At e.place .live
  apart : ∀ x y, x ≠ y → ¬ s.At x .fresh → ¬ s.At y .fresh →
    s.heap.table.slotBase A x + s.heap.table.slotBytes x ≤ s.heap.table.slotBase A y ∨
      s.heap.table.slotBase A y + s.heap.table.slotBytes y ≤ s.heap.table.slotBase A x

theorem Partition.exclusive {s : State T} {t : T} {child : State Unit}
    (ok : Partition A (s.beside t child) place) : Exclusive A child := by
  have all := ok.partitioned
  have own := s.beside_own t child
  refine
    { one := fun x p q here here' => ?_
      free := all.free
      queue := all.queue
      alloc := fun _ c => ?_
      release := fun _ c => ?_
      made := fun _ w e point live => ?_
      apart := fun x y other used used' => ?_ }
  · have one := (ok.at_iff x _).mp ((s.at_beside t child x p).mp here)
    have two := (ok.at_iff x _).mp ((s.at_beside t child x q).mp here')
    exact Place.among_injective t (one.symm.trans two)
  · have distinct := all.alloc t c
    unfold State.allocHeld at distinct
    rw [own] at distinct
    exact distinct
  · have distinct := all.release t c
    unfold State.releaseHeld at distinct
    rw [own] at distinct
    exact distinct
  · exact all.made t w e (own.symm ▸ point) live
  · exact all.apart x y other used used'

/-! ## Everything the child does -/

section Runs

variable {s : State T} {child child' : State Unit}

theorem resting_resizing (th : Thread) : th.resting.point.resizing = none := by
  unfold Thread.resting
  cases here : th.point.resizing with
  | none => simp [here]
  | some x => rfl

theorem beside_resizing (s : State T) (t : T) (child : State Unit) {u : T} (other : u ≠ t) :
    ((s.beside t child).thread u).point.resizing = none := by
  unfold State.beside
  dsimp only
  rw [if_neg other]
  split_ifs
  · exact Point.left_resizing _
  · exact resting_resizing _

/-- The child's step moves the slots of no thread but its own. -/
theorem Partition.child_step {t : T} {e : Event Unit} (ok : Partition A (s.beside t child) place)
    (quiet : child.NoRace e) (taken : child.step A e = some child') :
    ∃ place', Partition A (s.beside t child') place' := by
  obtain ⟨h, th, found, rfl⟩ := State.step_eq_some taken
  have found' : (s.beside t child).stepOf A ⟨t, e.call, e.answer⟩ = some (h, th) := by
    unfold State.stepOf at found ⊢
    dsimp only
    rw [State.beside_own]
    exact found
  obtain ⟨place', moved⟩ := ok.moved found'
  have next : Partition A
      ⟨h, Function.update (s.beside t child).thread t th, []⟩ place' := by
    refine ok.of_moved moved fun x w claiming u => ?_
    by_cases self : u = t
    · subst self
      rw [State.beside_own] at claiming ⊢
      refine quiet x ?_ ()
      rw [claiming]
      rfl
    · rw [beside_resizing s t child self]
      simp
  refine ⟨place', ?_⟩
  have threads : Function.update (s.beside t child).thread t th =
      (s.beside t ⟨h, Function.update child.thread () th, child.linked () th⟩).thread := by
    funext u
    by_cases self : u = t
    · subst self
      rw [Function.update_self, State.beside_own]
      rfl
    · rw [Function.update_of_ne self]
      unfold State.beside
      dsimp only
      rw [if_neg self, if_neg self]
  rw [threads] at next
  exact next

/-- Everything the child does. -/
theorem child_run {t : T} (ok : Partition A (s.beside t child) place)
    (life : Run (State.step A) State.NoRace child child') : Exclusive A child' := by
  have all : ∃ place, Partition A (s.beside t child') place :=
    life.invariant (I := fun child => ∃ place, Partition A (s.beside t child) place) ⟨place, ok⟩
      fun _ _ _ ⟨_, ok⟩ quiet taken => ok.child_step quiet taken
  obtain ⟨place', ok'⟩ := all
  exact ok'.exclusive

/-! ## The fork -/

omit [DecidableEq T] in
theorem Partition.class_lt (ok : Partition A s place)
    (whole : ∀ w i swap, (s.thread u).point ≠ .swapHigh w i swap) {x : Slot} {c : Nat}
    (mine : place x = .cached u c ∨ place x = .released u c) : c < A.cachedClasses := by
  by_contra beyond
  obtain ⟨none, none'⟩ := (ok.thread u).uncached c (by omega)
  rcases mine with cached | released
  · obtain ⟨i, -, below, -⟩ := ((ok.thread u).alloc c).exists_of_mem cached
    have here := ok.point u
    by_cases refill : (s.thread u).point.refills = some c
    · cases point : (s.thread u).point with
      | setActive w region got e =>
          rw [point] at here refill
          unfold Point.refills at refill
          dsimp only at refill
          split_ifs at refill with through
          exact beyond (Option.some.inj refill ▸ here.1.cached through)
      | setCount w got =>
          rw [point] at here refill
          exact beyond (Option.some.inj refill ▸ here.1.cached here.2.1)
      | _ =>
          rw [point] at refill
          cases refill
    · have high := (allocHeld_counted ((s.thread u).cache.alloc c) whole refill).2
      simp only [Point.view] at below
      omega
  · obtain ⟨i, -, below, -⟩ := ((ok.thread u).release c).exists_of_mem released
    have high := (releaseHeld_counted (s.thread u).point s.heap.table.regionClass c
      ((s.thread u).cache.release c)).2
    simp only [Point.view] at below
    omega

/-- Where the child finds what the parent's threads had: their cached slots on
the free lists, their released ones in the queues. -/
structure Inherited (s : State T) (t : T) (child : State Unit) : Prop where
  fresh : ∀ x, child.At x .fresh ↔ s.At x .fresh
  live : ∀ x, child.At x .live ↔ s.At x .live
  cached : ∀ x c, child.At x (.cached () c) ↔ s.At x (.cached t c)
  released : ∀ x c, child.At x (.released () c) ↔ s.At x (.released t c)
  free : ∀ x, child.At x .free ↔ s.At x .free ∨
    ∃ u ∈ s.caches, u ≠ t ∧ ∃ c, s.At x (.cached u c) ∧ (s.thread u).point.refills ≠ some c
  queued : ∀ x, child.At x .queued ↔ s.At x .queued ∨
    ∃ u ∈ s.caches, u ≠ t ∧ ∃ c, s.At x (.released u c)

/-- The places of the child's slots. -/
theorem fork_places {t : T} (ok : Partition A s place) (linked : s.Linked)
    (forked : s.fork A t = some child)
    (steady : ∀ u ∈ s.caches, u ≠ t → (s.thread u).Steady s.heap.table) :
    ∃ place', Partition A (s.beside t child) place' ∧
      ∀ x, place' x = (place x).drained (s.caches.filter (· ≠ t))
        (fun u => (s.thread u).point.refills) A.cachedClasses := by
  unfold State.fork at forked
  have allowed : (s.thread t).point = .idle ∧ s.heap.sweepLocked = false := by
    by_contra refused
    rw [if_neg refused] at forked
    cases forked
  rw [if_pos allowed] at forked
  obtain rfl := Option.some.inj forked
  clear forked
  have others {u : T} (mem : u ∈ s.caches.filter (· ≠ t)) : u ∈ s.caches ∧ u ≠ t := by
    simpa using mem
  have own : t ∉ s.caches.filter (· ≠ t) := fun mem => (others mem).2 rfl
  obtain ⟨place', table, kinds, drained⟩ :=
    @drainCaches_drained _ _ _ _ _ (fun u => (s.thread u).point.refills) (s.caches.filter (· ≠ t))
      (fun u => (s.thread u).cache) ok.table (linked.nodup.filter _) fun u mem =>
        (ok.thread u).orderly ok.table (linked.uncounted u)
          (steady u (others mem).1 (others mem).2) rfl
  generalize (s.caches.filter (· ≠ t)).foldl _ s.heap = h at table kinds ⊢
  refine ⟨place', { table, thread := fun u => ?_, point := fun u => ?_ }, drained⟩
  all_goals unfold State.beside
  · dsimp only
    have classes : h.table.regionClass = s.heap.table.regionClass :=
      funext fun x => kinds.class_eq x
    have stays (out : u ∉ s.caches.filter (· ≠ t)) (x : Slot) (q : Place T)
        (owner : q.owner = some u) : place' x = q ↔ place x = q := by
      rw [drained]
      exact Place.drained_owned owner out
    rw [classes]
    by_cases self : u = t
    · subst self
      rw [if_pos rfl]
      refine (ok.thread u).congr (stays own) fun x resizing => ?_
      rw [allowed.1] at resizing
      cases resizing
    · rw [if_neg self]
      by_cases mem : u ∈ s.caches
      · rw [if_pos mem]
        have mem' : u ∈ s.caches.filter (· ≠ t) := by simpa using ⟨mem, self⟩
        exact (ok.thread u).left
          (fun x c mine => ok.class_lt (steady u mem self).whole mine) drained mem' rfl _
      · rw [if_neg mem]
        have out : u ∉ s.caches.filter (· ≠ t) := fun mem' => mem (others mem').1
        have thread := ok.thread u
        cases resizing : (s.thread u).point.resizing with
        | none =>
            have same : (s.thread u).resting = s.thread u := by
              unfold Thread.resting
              simp [resizing]
            rw [same]
            refine thread.congr (stays out) fun x here => ?_
            have none : (s.thread u).point.resizing = some x := here
            rw [resizing] at none
            cases none
        | some y =>
            have same : (s.thread u).resting = (s.thread u).goto .idle := by
              unfold Thread.resting
              simp [resizing]
            have plain : (s.thread u).point.view s.heap.table.regionClass =
                { View.plain with resizing := some y } := by
              cases point : (s.thread u).point with
              | resizeShadow | resizeWord =>
                  rw [point] at resizing
                  obtain rfl := Option.some.inj resizing
                  rfl
              | _ =>
                  rw [point] at resizing
                  cases resizing
            rw [plain] at thread
            have idle : ThreadOk A place u View.plain (s.thread u).cache :=
              { thread with resizing := fun x here => by cases here }
            rw [same]
            exact idle.congr (stays out) fun x here => by cases here
  · have retiring (x : Slot) (here : (s.thread u).point.retiring = some x) :
        x.region < s.heap.table.regions := by
      refine ok.table.used ?_
      rw [((ok.thread u).retiring x).mpr here]
      simp
    have resizing (x : Slot) (here : (s.thread u).point.resizing = some x) :
        x.region < s.heap.table.regions := by
      refine ok.table.used ?_
      rw [(ok.thread u).resizing x here]
      simp
    have grown := (ok.point u).grows kinds.grows retiring resizing
    dsimp only
    by_cases self : u = t
    · rw [if_pos self]
      rw [self] at grown
      exact grown
    · rw [if_neg self]
      by_cases mem : u ∈ s.caches
      · rw [if_pos mem]
        exact grown.left
      · rw [if_neg mem]
        unfold Thread.resting
        split_ifs
        · trivial
        · exact grown

theorem fork_inherited {t : T} (ok : Partition A s place)
    (ok' : Partition A (s.beside t child) place')
    (within : ∀ u ∈ s.caches, u ≠ t → ∀ x c,
      place x = .cached u c ∨ place x = .released u c → c < A.cachedClasses)
    (drained : ∀ x, place' x = (place x).drained (s.caches.filter (· ≠ t))
      (fun u => (s.thread u).point.refills) A.cachedClasses) : Inherited s t child := by
  have at_iff (x : Slot) (p : Place Unit) : child.At x p ↔ place' x = p.among t :=
    (s.at_beside t child x p).trans (ok'.at_iff x _)
  have mem_iff (u : T) : u ∈ s.caches.filter (· ≠ t) ↔ u ∈ s.caches ∧ u ≠ t := by simp
  have own : t ∉ s.caches.filter (· ≠ t) := fun mem => ((mem_iff t).mp mem).2 rfl
  refine
    { fresh := fun x => ?_
      live := fun x => ?_
      cached := fun x c => ?_
      released := fun x c => ?_
      free := fun x => ?_
      queued := fun x => ?_ }
  · rw [at_iff, ok.at_iff, drained, Place.among]
    exact Place.drained_iff (by simp) (by simp) (by simp) (by simp)
  · rw [at_iff, ok.at_iff, drained, Place.among]
    exact Place.drained_iff (by simp) (by simp) (by simp) (by simp)
  · rw [at_iff, ok.at_iff, drained]
    exact Place.drained_owned rfl own
  · rw [at_iff, ok.at_iff, drained]
    exact Place.drained_owned rfl own
  · rw [at_iff, drained]
    simp only [ok.at_iff]
    refine Place.drained_eq_free.trans (or_congr_right ⟨?_, ?_⟩)
    · rintro ⟨u, c, here, mem, refill, -⟩
      obtain ⟨listed, other⟩ := (mem_iff u).mp mem
      exact ⟨u, listed, other, c, here, refill⟩
    · rintro ⟨u, listed, other, c, here, refill⟩
      exact ⟨u, c, here, (mem_iff u).mpr ⟨listed, other⟩, refill,
        within u listed other x c (.inl here)⟩
  · rw [at_iff, drained]
    simp only [ok.at_iff]
    refine Place.drained_eq_queued.trans (or_congr_right ⟨?_, ?_⟩)
    · rintro ⟨u, c, here, mem, -⟩
      obtain ⟨listed, other⟩ := (mem_iff u).mp mem
      exact ⟨u, listed, other, c, here⟩
    · rintro ⟨u, listed, other, c, here⟩
      exact ⟨u, c, here, (mem_iff u).mpr ⟨listed, other⟩,
        within u listed other x c (.inr here)⟩

/-- A fork in any state that any interleaving reaches. -/
theorem fork_keeps {t : T} {byte : Nat → UInt8}
    (run : Run (State.step A) State.NoRace (.initial A byte) s)
    (forked : s.fork A t = some child)
    (steady : ∀ u ∈ s.caches, u ≠ t → (s.thread u).Steady s.heap.table) :
    Inherited s t child ∧
      ∀ child', Run (State.step A) State.NoRace child child' → Exclusive A child' := by
  obtain ⟨linked, place, ok⟩ := linked_run run
  obtain ⟨place', ok', drained⟩ := fork_places ok linked forked steady
  refine ⟨fork_inherited ok ok' (fun u mem other x c mine => ?_) drained,
    fun child' life => child_run ok' life⟩
  exact ok.class_lt (steady u mem other).whole mine

omit [DecidableEq T] in
/-- A thread that is not at work on its cache. -/
theorem Thread.steady_of_plain (plain : th.point.view t.regionClass = View.plain) :
    th.Steady t := by
  have alloc : th.point.allocHeld = fun _ => SlotCache.held := congrArg View.alloc plain
  have release : th.point.releaseHeld t.regionClass = fun _ => SlotCache.held :=
    congrArg View.release plain
  have none {s : SlotCache} {i : Nat} (below : i < s.count) : ¬ s.held.Stale i := by
    rintro (early | late)
    · exact absurd early (Nat.not_lt_zero i)
    · exact absurd below (Nat.not_lt.mpr late)
  refine ⟨fun w i swap here => ?_, fun c i below stale => ?_, fun c i below stale => ?_⟩
  · have slots := congrFun (congrFun alloc w.cls) ⟨0, fun _ => ⟨swap.region, swap.slot + 1, false⟩⟩
    rw [here] at slots
    have first := congrFun (congrArg Held.slots slots) (0 - 1 - i)
    simp only [Point.allocHeld, if_true, SlotCache.held, Function.update_self] at first
    have wrong := congrArg Entry.slot first
    dsimp only at wrong
    omega
  · rw [alloc] at stale
    exact absurd stale (none below)
  · rw [release] at stale
    exact absurd stale (none below)

/-- An allocation of 17000 bytes after its refill: its slot waits in the
thread's cache. -/
def refillingOne : List (Event Bool) :=
  [.enter true (.alloc 17000 0), .next true, .next true, .next true]

theorem exists_refilled : ∃ (s : State Bool) (child : State Unit),
    Run (State.step .sample) State.NoRace (.initial .sample fun _ => 0) s ∧
      s.caches = [true] ∧ (s.thread true).point = .charge ⟨36, 17000, 0, true, .request⟩ ∧
        s.fork .sample false = some child ∧
          ∀ u ∈ s.caches, u ≠ false → (s.thread u).Steady s.heap.table := by
  obtain ⟨s, run, seen⟩ : ∃ s : State Bool,
      Run (State.step .sample) State.NoRace (.initial .sample fun _ => 0) s ∧
        ((s.thread true).point, (s.thread false).point, s.heap.sweepLocked, s.caches) =
          (.charge ⟨36, 17000, 0, true, .request⟩, .idle, false, [true]) :=
    Run.exists_exec refillingOne (by decide +kernel)
  simp only [Prod.mk.injEq] at seen
  obtain ⟨point, idle, unlocked, caches⟩ := seen
  obtain ⟨child, forked⟩ : ∃ child, s.fork .sample false = some child := by
    unfold State.fork
    rw [if_pos ⟨idle, unlocked⟩]
    exact ⟨_, rfl⟩
  refine ⟨s, child, run, caches, point, forked, fun u mem other => Thread.steady_of_plain ?_⟩
  rw [caches, List.mem_singleton] at mem
  rw [mem, point]
  rfl

theorem fork_keeps_refilled : ∃ (s : State Bool) (child : State Unit),
    Run (State.step .sample) State.NoRace (.initial .sample fun _ => 0) s ∧
      s.caches = [true] ∧ (s.thread true).point = .charge ⟨36, 17000, 0, true, .request⟩ ∧
        s.fork .sample false = some child ∧ Inherited s false child ∧
          ∀ child', Run (State.step .sample) State.NoRace child child' →
            Exclusive .sample child' := by
  obtain ⟨s, child, run, caches, point, forked, steady⟩ := exists_refilled
  exact ⟨s, child, run, caches, point, forked, fork_keeps run forked steady⟩

/-! ## The drain's lists -/

/-- The child's lists after the drain: none is cyclic, no slot is on two of them
or twice on one, and none that is live is on a free list. -/
theorem fork_exclusive {t : T} {byte : Nat → UInt8}
    (run : Run (State.step A) State.NoRace (.initial A byte) s)
    (forked : s.fork A t = some child)
    (steady : ∀ u ∈ s.caches, u ≠ t → (s.thread u).Steady s.heap.table) :
    Exclusive A child ∧ ∀ r, ∃ free dead,
      Chain (child.heap.table.region r).nextOf (child.heap.table.region r).freeHead free ∧
        Queue (child.heap.table.region r).nextOf (child.heap.table.region r).deadHead
          (child.heap.table.region r).deadTail dead ∧
        (free ++ dead).Nodup ∧
        ∀ i ∈ free, ((child.heap.table.region r).words i).state ≠ .live := by
  obtain ⟨linked, place, ok⟩ := linked_run run
  obtain ⟨place', ok', -⟩ := fork_places ok linked forked steady
  refine ⟨ok'.exclusive, fun r => ?_⟩
  have region := ok'.table.region r
  obtain ⟨free, chain, mem⟩ := region.free
  obtain ⟨dead, queue, mem'⟩ := region.queue
  refine ⟨free, dead, chain, queue, List.nodup_append.mpr ⟨chain.nodup, queue.chain.nodup, ?_⟩, ?_⟩
  · rintro i listed j queued rfl
    have one := (mem i).mp listed
    rw [(mem' i).mp queued] at one
    cases one
  · intro i listed live
    have one := (ok'.table.live_iff ⟨r, i⟩).mpr live
    rw [(mem i).mp listed] at one
    cases one

theorem fork_exclusive_refilled : ∃ (s : State Bool) (child : State Unit),
    Run (State.step .sample) State.NoRace (.initial .sample fun _ => 0) s ∧
      s.caches = [true] ∧ s.fork .sample false = some child ∧ Exclusive .sample child := by
  obtain ⟨s, child, run, caches, -, forked, steady⟩ := exists_refilled
  exact ⟨s, child, run, caches, forked, (fork_exclusive run forked steady).1⟩

/-- A refill of two slots between the two stores of its exchange. -/
def exchangingTwo : List (Event Bool) :=
  .enter true (.alloc 16000 0) :: List.replicate 4 (.next true)

/-- The cache lists its second slot twice there, and the drain puts it on the
free list behind itself. -/
theorem fork_cyclic : ∃ (s : State Bool) (child : State Unit),
    Run (State.step .sample) State.NoRace (.initial .sample fun _ => 0) s ∧
      s.fork .sample false = some child ∧
        ∀ l, ¬ Chain (child.heap.table.region 35).nextOf (child.heap.table.region 35).freeHead l := by
  obtain ⟨s, run, seen⟩ : ∃ s : State Bool,
      Run (State.step .sample) State.NoRace (.initial .sample fun _ => 0) s ∧
        (s.fork .sample false).map (fun child =>
          ((child.heap.table.region 35).freeHead, (child.heap.table.region 35).nextOf 1)) =
          some (2, 2) :=
    Run.exists_exec exchangingTwo (by decide +kernel)
  obtain ⟨child, forked, loop⟩ := Option.map_eq_some_iff.mp seen
  obtain ⟨head, next⟩ := Prod.mk.inj loop
  refine ⟨s, child, run, forked, fun l chain => ?_⟩
  rw [head] at chain
  cases l with
  | nil => cases chain
  | cons i l =>
      obtain ⟨first, rest⟩ := chain
      obtain rfl : i = 1 := (Nat.succ.inj first).symm
      rw [next] at rest
      exact List.cons_ne_self 1 l (Chain.unique ⟨rfl, next.symm ▸ rest⟩ rest)

end Runs

end WeaveC.Alloc
