import WeaveC.Alloc.Sections

/-!
# What a step moves

A step of a thread moves slots only between the shared places and the
thread's own.  `Moved` says so of one step; the other threads then see their
slots, and their own data, as they were.
-/

namespace WeaveC.Alloc

open WeaveC.Library

variable {T : Type} {A : Arena} {place place' : Slot → Place T} {t u : T}

/-! ## What other threads see -/

theorem Point.view_congr {p : Point} {cls cls' : Slot → Nat}
    (same : ∀ x, p.retiring = some x → cls' x = cls x) : p.view cls' = p.view cls := by
  unfold Point.view
  congr 1
  funext c s
  cases p with
  | pushSlot x => simp only [Point.releaseHeld, same x rfl]
  | _ => rfl

theorem Table.Grows.class_eq {tb tb' : Table} (grows : tb.Grows tb') {x : Slot}
    (used : x.region < tb.regions) : tb'.regionClass x = tb.regionClass x :=
  grows.regionClass x.region used

theorem Table.Grows.bytes_eq {tb tb' : Table} (grows : tb.Grows tb') {x : Slot}
    (used : x.region < tb.regions) : tb'.slotBytes x = tb.slotBytes x := by
  unfold Table.slotBytes
  rw [grows.entry x.region used]

/-- A point's own data are not disturbed by a table that grows. -/
theorem PointOk.grows {tb tb' : Table} {k : ThreadCache} {p : Point} (ok : PointOk A tb k p)
    (grows : tb.Grows tb') (retiring : ∀ x, p.retiring = some x → x.region < tb.regions)
    (resizing : ∀ x, p.resizing = some x → x.region < tb.regions) : PointOk A tb' k p := by
  have more {r : Nat} (used : r < tb.regions) : r < tb'.regions := used.trans_le grows.regions
  cases p with
  | popRegion w swept first region =>
      obtain ⟨fits, empty, used, cls⟩ := ok
      exact ⟨fits, empty, more used, (grows.regionClass region used).trans cls⟩
  | popNext w swept region =>
      obtain ⟨fits, empty, used, cls⟩ := ok
      exact ⟨fits, empty, more used, (grows.regionClass region used).trans cls⟩
  | setActive w region got e =>
      obtain ⟨fits, used, cls, some, here⟩ := ok
      exact ⟨fits, more used, (grows.regionClass region used).trans cls, some, fun uncached =>
        ⟨more (here uncached).1, (grows.regionClass _ (here uncached).1).trans (here uncached).2⟩⟩
  | addLive w e =>
      obtain ⟨fits, used, cls⟩ := ok
      exact ⟨fits, more used, (grows.regionClass _ used).trans cls⟩
  | storeLive w e =>
      obtain ⟨fits, used, cls⟩ := ok
      exact ⟨fits, more used, (grows.regionClass _ used).trans cls⟩
  | shadowLive w e =>
      obtain ⟨fits, used, cls⟩ := ok
      exact ⟨fits, more used, (grows.regionClass _ used).trans cls⟩
  | shadowDead x cached =>
      intro through
      rw [grows.class_eq (retiring x rfl)]
      exact ok through
  | push x =>
      rw [PointOk, grows.class_eq (retiring x rfl)]
      exact ok
  | pushCount x =>
      rw [PointOk, grows.class_eq (retiring x rfl)]
      exact ok
  | pushSlot x =>
      rw [PointOk, grows.class_eq (retiring x rfl)]
      exact ok
  | retireAdd x => exact more ok
  | retireGained x => exact more ok
  | retireLive x => exact more ok
  | resizeShadow x size =>
      rw [PointOk, grows.bytes_eq (resizing x rfl)]
      exact ok
  | resizeWord x size =>
      rw [PointOk, grows.bytes_eq (resizing x rfl)]
      exact ok
  | _ => exact ok

/-- A thread's slots stay its own while places of other owners change. -/
theorem ThreadOk.congr {v : View} {k : ThreadCache} (ok : ThreadOk A place t v k)
    (same : ∀ x q, q.owner = some t → (place' x = q ↔ place x = q))
    (live : ∀ x, v.resizing = some x → place' x = .live) : ThreadOk A place' t v k := by
  have sets {q : Place T} (own : q.owner = some t) : {x | place' x = q} = {x | place x = q} :=
    Set.ext fun x => same x q own
  refine
    { alloc := fun c => by
        rw [sets rfl]
        exact ok.alloc c
      release := fun c => by
        rw [sets rfl]
        exact ok.release c
      taken := fun x => (same x _ rfl).trans (ok.taken x)
      retiring := fun x => (same x _ rfl).trans (ok.retiring x)
      resizing := live
      uncached := ok.uncached }

/-! ## One thread's step -/

/-- What a step of thread `t` does to the places. -/
structure Moved (A : Arena) (t : T) (place place' : Slot → Place T) (h h' : Heap)
    (th th' : Thread) : Prop where
  table : TableOk A h'.table place'
  grows : h.table.Grows h'.table
  thread : ThreadOk A place' t (th'.point.view h'.table.regionClass) th'.cache
  point : PointOk A h'.table th'.cache th'.point
  others : ∀ x u, u ≠ t → (place x).owner = some u ∨ (place' x).owner = some u →
    place' x = place x
  live : ∀ x, place x = .live → place' x = .live ∨ ∃ w, th.point = .claim x w

section Update

variable {x : Slot} {p q : Place T}

theorem setOf_update_other (before : place x ≠ q) (after : p ≠ q) :
    {y | Function.update place x p y = q} = {y | place y = q} := by
  ext y
  by_cases same : y = x
  · subst same
    simp [before, after]
  · simp [same]

theorem setOf_update_gain (place : Slot → Place T) (x : Slot) (p : Place T) :
    {y | Function.update place x p y = p} = insert x {y | place y = p} := by
  ext y
  by_cases same : y = x
  · simp [same]
  · simp [same]

theorem setOf_update_lose (after : p ≠ q) :
    {y | Function.update place x p y = q} = {y | place y = q} \ {x} := by
  ext y
  by_cases same : y = x
  · simp [same, after]
  · simp [same]

theorem update_others (before : ∀ u, (place x).owner = some u → u = t)
    (after : ∀ u, p.owner = some u → u = t) (y : Slot) (u : T) (other : u ≠ t)
    (owned : (place y).owner = some u ∨ (Function.update place x p y).owner = some u) :
    Function.update place x p y = place y := by
  by_cases same : y = x
  · subst same
    rw [Function.update_self] at owned
    rcases owned with owned | owned
    · exact absurd (before u owned) other
    · exact absurd (after u owned) other
  · exact Function.update_of_ne same _ _

theorem update_live (before : place x ≠ .live) (y : Slot) (live : place y = .live) :
    Function.update place x p y = .live := by
  have other : y ≠ x := by
    rintro rfl
    exact before live
  rw [Function.update_of_ne other]
  exact live

end Update

section Steps

variable {h h' : Heap} {th th' : Thread}

/-- A step that moves no slot. -/
theorem Moved.stay (own : ThreadOk A place t (th.point.view h.table.regionClass) th.cache)
    (table : TableOk A h'.table place) (grows : h.table.Grows h'.table)
    (alloc : th'.cache.alloc = th.cache.alloc) (release : th'.cache.release = th.cache.release)
    (view : th'.point.view h'.table.regionClass = th.point.view h.table.regionClass)
    (point : PointOk A h'.table th'.cache th'.point) : Moved A t place place h h' th th' := by
  refine
    { table, grows, point
      thread := ?_
      others := fun _ _ _ _ => rfl
      live := fun _ live => .inl live }
  rw [view]
  exact
    { own with
      alloc := fun c => by
        rw [alloc]
        exact own.alloc c
      release := fun c => by
        rw [release]
        exact own.release c
      uncached := fun c beyond => by
        rw [alloc, release]
        exact own.uncached c beyond }

/-! ### Handing out -/

/-- A cache serves the classes up to 32 KiB, on either width of the arena. -/
theorem cachedClasses_eq (A : Arena) : A.cachedClasses = 40 := by
  unfold Arena.cachedClasses Arena.classCount Arena.entry
  rcases A.width with width | width
  · rw [width, classes_30]
    decide +kernel
  · rw [width, classes_31]
    decide +kernel

theorem classCount_lt (A : Arena) : 40 < A.classCount ∧ A.classCount < ClassCount := by
  unfold Arena.classCount
  rcases A.width with width | width
  · rw [width, classes_30]
    decide
  · rw [width, classes_31]
    decide

/-- Making a cache changes what the key says, not what the cache holds. -/
theorem cacheFor_spec (th : Thread) (c : Nat) (mapped : Bool) :
    (th.cacheFor A c mapped).2.cache = th.cache ∧ (th.cacheFor A c mapped).2.point = th.point ∧
      ((th.cacheFor A c mapped).1 = true → c < A.cachedClasses) := by
  unfold Thread.cacheFor
  by_cases served : c < A.cachedClasses
  · rw [if_pos served]
    split
    · exact ⟨rfl, rfl, fun _ => served⟩
    · exact ⟨rfl, rfl, fun _ => served⟩
    · split_ifs
      · exact ⟨rfl, rfl, fun _ => served⟩
      · exact ⟨rfl, rfl, fun _ => served⟩
  · rw [if_neg served]
    exact ⟨rfl, rfl, fun through => absurd through Bool.false_ne_true⟩

/-- Where an allocation starts: at a point with nothing in hand whose request
fits its class. -/
structure Starts (A : Arena) (th th' : Thread) : Prop where
  cache : th'.cache = th.cache
  view : ∀ cls, th'.point.view cls = View.plain
  point : ∀ tb, PointOk A tb th.cache th'.point

theorem allocate_starts (th : Thread) {size alignment : Nat} (bound : size < 2 ^ 64)
    (bound' : alignment < 2 ^ 64) (purpose : Purpose) (mapped : Bool) :
    Starts A th (th.allocate A size alignment purpose mapped) := by
  unfold Thread.allocate
  by_cases invalid : 16 < alignment ∧ alignment &&& (alignment - 1) ≠ 0
  · rw [if_pos invalid]
    exact ⟨rfl, fun _ => rfl, fun _ => trivial⟩
  rw [if_neg invalid]
  simp only
  by_cases made : requestClass size alignment < A.classCount
  · rw [if_pos made]
    have fits : size < (A.entry (requestClass size alignment)).size :=
      requestClass_fits bound bound' (made.trans (classCount_lt A).2)
    obtain ⟨cache, -, served⟩ := cacheFor_spec (A := A) th (requestClass size alignment) mapped
    generalize th.cacheFor A (requestClass size alignment) mapped = result at cache served ⊢
    obtain ⟨cached, th'⟩ := result
    simp only at cache served ⊢
    have ok : Want.Ok A ⟨requestClass size alignment, size, alignment, cached, purpose⟩ :=
      ⟨made, fits, served⟩
    split_ifs with through empty
    · refine ⟨cache, fun _ => rfl, fun _ => ⟨ok, fun _ => ?_⟩⟩
      rw [← cache]
      exact empty
    · refine ⟨cache, fun _ => rfl, fun _ => ⟨ok, through, ?_⟩⟩
      rw [← cache]
      exact Nat.pos_of_ne_zero empty
    · exact ⟨cache, fun _ => rfl, fun _ => ⟨ok, fun yes => absurd yes through⟩⟩
  · rw [if_neg made]
    exact ⟨rfl, fun _ => rfl, fun _ => trivial⟩

theorem Starts.moved {th th' : Thread} (starts : Starts A th th')
    (table : TableOk A h.table place)
    (own : ThreadOk A place t (th.point.view h.table.regionClass) th.cache)
    (plain : th.point.view h.table.regionClass = View.plain) :
    Moved A t place place h h th th' := by
  refine .stay own table (.refl _) ?_ ?_ ?_ ?_
  · rw [starts.cache]
  · rw [starts.cache]
  · rw [starts.view, plain]
  · rw [starts.cache]
    exact starts.point _

/-- A call of an idle thread. -/
theorem call_moved {call : Call} (typed : call.Typed) {mapped : Bool}
    (table : TableOk A h.table place)
    (own : ThreadOk A place t (th.point.view h.table.regionClass) th.cache)
    (idle : th.point = .idle) (called : th.call A mapped call = some th') :
    Moved A t place place h h th th' := by
  have plain : th.point.view h.table.regionClass = View.plain := by
    rw [idle]
    rfl
  cases call with
  | alloc size alignment =>
      obtain rfl := Option.some.inj called
      exact (allocate_starts th typed.1 typed.2 _ _).moved table own plain
  | free p =>
      simp only [Thread.call] at called
      obtain rfl := Option.some.inj called
      split_ifs
      · exact .stay own table (.refl _) rfl rfl rfl (by simp [idle, PointOk])
      · exact .stay own table (.refl _) rfl rfl plain.symm trivial
  | realloc p size =>
      simp only [Thread.call] at called
      obtain rfl := Option.some.inj called
      split_ifs
      · exact (allocate_starts th typed.2 (by omega) _ _).moved table own plain
      · exact .stay own table (.refl _) rfl rfl plain.symm typed.2
  | exit =>
      simp only [Thread.call] at called
      split_ifs at called
      obtain rfl := Option.some.inj called
      have served : 0 < A.cachedClasses := by
        rw [cachedClasses_eq]
        omega
      refine .stay own table (.refl _) rfl rfl ?_ ⟨served, Nat.zero_le _, fun c below => ?_⟩
      · rw [plain]
        unfold Point.view View.plain
        congr 1
        funext c s
        simp only [Point.releaseHeld, SlotCache.held]
        split_ifs <;> rfl
      · omega

theorem popRegion_length (A : Arena) (grant : Nat → Bool) (region want : Nat) (R : Region)
    (shadow : Runtime.Shadow) : (popRegion A grant region want R shadow).1.length ≤ want := by
  induction want generalizing R shadow with
  | zero => exact Nat.le_refl 0
  | succ want inductionHypothesis =>
      unfold popRegion
      split
      · exact Nat.zero_le _
      · exact Nat.succ_le_succ (inductionHypothesis _ _)

/-- The place of the slots a refill or an allocation without a cache takes. -/
def Want.target (t : T) (w : Want) : Place T := if w.cached then .cached t w.cls else .taken t

theorem Want.target_handed (t : T) (w : Want) : (w.target t).Handed := by
  unfold Want.target
  split_ifs <;> trivial

theorem Want.target_owner (t : T) (w : Want) : (w.target t).owner = some t := by
  unfold Want.target
  split_ifs <;> rfl

theorem handOut_nil (place : Slot → Place T) (p : Place T) : TableOk.handOut place [] p = place := by
  funext x
  simp [TableOk.handOut]

/-- Nobody had the slots that are handed out. -/
theorem handOut_others {es : List Entry} {p : Place T} (owner : p.owner = some t)
    (before : ∀ e ∈ es, place e.place = .free ∨ place e.place = .fresh) (x : Slot) (u : T)
    (other : u ≠ t)
    (owned : (place x).owner = some u ∨ (TableOk.handOut place es p x).owner = some u) :
    TableOk.handOut place es p x = place x := by
  unfold TableOk.handOut at owned ⊢
  split_ifs at owned ⊢ with mem
  · rcases owned with owned | owned
    · obtain ⟨e, mem', rfl⟩ := List.mem_map.mp mem
      rcases before e mem' with free | fresh
      · rw [free] at owned
        exact absurd owned (by simp [Place.owner])
      · rw [fresh] at owned
        exact absurd owned (by simp [Place.owner])
    · rw [owner] at owned
      exact absurd (Option.some.inj owned).symm other
  · rfl

theorem handOut_live {es : List Entry} {p : Place T}
    (before : ∀ e ∈ es, place e.place = .free ∨ place e.place = .fresh) (x : Slot)
    (live : place x = .live) : TableOk.handOut place es p x = .live := by
  unfold TableOk.handOut
  rw [if_neg, live]
  intro mem
  obtain ⟨e, mem', rfl⟩ := List.mem_map.mp mem
  rcases before e mem' with free | fresh
  · exact absurd (free.symm.trans live) (by simp)
  · exact absurd (fresh.symm.trans live) (by simp)

theorem setOf_handOut_other {es : List Entry} {p q : Place T} (other : q ≠ p)
    (before : ∀ e ∈ es, place e.place = .free ∨ place e.place = .fresh)
    (used : q ≠ .free ∧ q ≠ .fresh) :
    {x | TableOk.handOut place es p x = q} = {x | place x = q} := by
  ext x
  simp only [Set.mem_ofPred_eq, TableOk.handOut]
  split_ifs with mem
  · obtain ⟨e, mem', rfl⟩ := List.mem_map.mp mem
    refine iff_of_false other.symm fun here => ?_
    rcases before e mem' with free | fresh
    · exact used.1 (here.symm.trans free)
    · exact used.2 (here.symm.trans fresh)
  · rfl

theorem setOf_handOut_self {es : List Entry} {p : Place T} (none : {x | place x = p} = ∅) :
    {x | TableOk.handOut place es p x = p} = {x | x ∈ es.map Entry.place} := by
  ext x
  simp only [Set.mem_ofPred_eq, TableOk.handOut]
  split_ifs with mem
  · exact iff_of_true rfl mem
  · refine iff_of_false (fun here => ?_) mem
    exact Set.eq_empty_iff_forall_notMem.mp none x here

theorem storePopped_nil (th : Thread) (w : Want) : th.storePopped w [] = th := by
  unfold Thread.storePopped ThreadCache.setAlloc
  split_ifs
  · have same : Thread.fillSlots (th.cache.alloc w.cls).slots [] = (th.cache.alloc w.cls).slots := by
      funext i
      simp [Thread.fillSlots]
    simp [same]
  · rfl

/-- The thread has its refilled cache in hand, or the one slot it asked for. -/
theorem popped_thread {w : Want} {e : Entry} {es : List Entry} {p : Point} {cls : Slot → Nat}
    (own : ThreadOk A place t View.plain th.cache) (ok : w.Ok A) (empty : w.Empty th.cache)
    (before : ∀ e' ∈ e :: es, place e'.place = .free ∨ place e'.place = .fresh)
    (distinct : ((e :: es).map Entry.place).Nodup)
    (short : (e :: es).length ≤ if w.cached then A.cacheLimit w.cls else 1)
    (point : p = Thread.popped w (es.length + 1) e ∨
      ∃ region, p = .setActive w region (es.length + 1) e) :
    ThreadOk A (TableOk.handOut place (e :: es) (w.target t)) t (p.view cls)
      (th.storePopped w (e :: es)).cache := by
  have none_taken (x : Slot) : place x ≠ .taken t := fun here => by
    simpa [View.plain] using (own.taken x).mp here
  have none_retiring (x : Slot) : place x ≠ .retiring t := fun here => by
    simpa [View.plain] using (own.retiring x).mp here
  have other {q : Place T} (ne : q ≠ w.target t) (used : q ≠ .free ∧ q ≠ .fresh) (x : Slot) :
      TableOk.handOut place (e :: es) (w.target t) x = q ↔ place x = q :=
    Set.ext_iff.mp (setOf_handOut_other ne before used) x
  by_cases cached : w.cached = true
  · have target : w.target t = .cached t w.cls := by simp [Want.target, cached]
    have count := empty cached
    have held (c : Nat) (s : SlotCache) :
        p.allocHeld c s = if w.cls = c then ⟨s.slots, 0, es.length + 1⟩ else s.held := by
      rcases point with rfl | ⟨region, rfl⟩
      · simp [Thread.popped, cached, Point.allocHeld]
      · simp [cached, Point.allocHeld]
    have quiet : p.releaseHeld cls = View.plain.release ∧ p.taken = none ∧ p.retiring = none ∧
        p.resizing = none := by
      rcases point with rfl | ⟨region, rfl⟩
      · rw [Thread.popped, if_pos cached]
        exact ⟨rfl, rfl, rfl, rfl⟩
      · refine ⟨rfl, ?_, rfl, rfl⟩
        simp [Point.taken, cached]
    have none_cached : {x | place x = .cached t w.cls} = ∅ := by
      have segment := own.alloc w.cls
      refine segment.empty_iff.mpr ?_
      simp [View.plain, SlotCache.held, count]
    rw [target] at other ⊢
    have stored : (th.storePopped w (e :: es)).cache = th.cache.setAlloc w.cls
        { th.cache.alloc w.cls with
          slots := Thread.fillSlots (th.cache.alloc w.cls).slots (e :: es) } := by
      simp [Thread.storePopped, cached]
    rw [stored]
    refine
      { alloc := fun c => ?_
        release := fun c => ?_
        taken := fun x => ?_
        retiring := fun x => ?_
        resizing := fun x resizing => by simp [Point.view, quiet.2.2.2] at resizing
        uncached := fun c beyond => ?_ }
    · simp only [Point.view, held]
      by_cases same : w.cls = c
      · subst same
        rw [setOf_handOut_self none_cached]
        simp only [if_true, ThreadCache.setAlloc, Function.update_self]
        have filled := Segment.of_list
          (f := fun i => (Thread.fillSlots (th.cache.alloc w.cls).slots (e :: es) i).place) distinct
          fun i below => by
            have short : i < (e :: es).length := by simpa using below
            simp only [List.getElem_map, Thread.fillSlots]
            rw [List.getElem?_eq_getElem short, Option.getD_some]
        simpa using filled
      · simp only [if_neg same, ThreadCache.setAlloc, Function.update_of_ne (Ne.symm same)]
        have ne : Place.cached t c ≠ .cached t w.cls := fun eq => same (Place.cached.inj eq).2.symm
        rw [setOf_handOut_other ne before (by simp)]
        exact own.alloc c
    · rw [setOf_handOut_other (by simp) before (by simp)]
      simp only [Point.view, quiet.1]
      exact own.release c
    · rw [other (by simp) (by simp)]
      simp [Point.view, quiet.2.1, none_taken x]
    · rw [other (by simp) (by simp)]
      simp [Point.view, quiet.2.2.1, none_retiring x]
    · have ne : c ≠ w.cls := by
        have := ok.cached cached
        omega
      simpa [ThreadCache.setAlloc, ne] using own.uncached c beyond
  · have target : w.target t = .taken t := by simp [Want.target, cached]
    have single : es = [] := by
      rw [if_neg cached] at short
      exact List.length_eq_zero_iff.mp (by simpa using short)
    subst single
    have stored : (th.storePopped w [e]).cache = th.cache := by
      simp [Thread.storePopped, cached]
    have view : p.view cls = { View.plain with taken := some e.place } := by
      rcases point with rfl | ⟨region, rfl⟩
      · simp only [Thread.popped, if_neg cached]
        rfl
      · unfold Point.view View.plain
        congr 1
        · funext c s
          simp [Point.allocHeld, cached]
        · simp [Point.taken, cached]
    rw [target] at other ⊢
    rw [stored, view]
    refine
      { alloc := fun c => by
          rw [setOf_handOut_other (by simp) before (by simp)]
          exact own.alloc c
        release := fun c => by
          rw [setOf_handOut_other (by simp) before (by simp)]
          exact own.release c
        taken := fun x => ?_
        retiring := fun x => ?_
        resizing := fun x resizing => by simp [View.plain] at resizing
        uncached := own.uncached }
    · simp only [TableOk.handOut, List.map_cons, List.map_nil, List.mem_singleton,
        Option.some.injEq]
      split_ifs with same
      · exact iff_of_true rfl same.symm
      · exact iff_of_false (none_taken x) fun eq => same eq.symm
    · rw [other (by simp) (by simp)]
      exact own.retiring x

/-- A try of one region for up to a cache's worth of slots. -/
theorem popRegion_moved {w : Want} {swept first : Bool} {region : Nat} {a : Answer}
    (table : TableOk A h.table place) (own : ThreadOk A place t View.plain th.cache)
    (here : PointOk A h.table th.cache (.popRegion w swept first region))
    (start : th.point = .popRegion w swept first region)
    (taken : th.step A h a = some (h', th')) : ∃ place', Moved A t place place' h h' th th' := by
  obtain ⟨ok, empty, used, cls⟩ := here
  simp only [Thread.step, start] at taken
  have spec := table.popRegion (w.target_handed t) a.grant region
    (if w.cached then A.cacheLimit w.cls else 1) h.shadow (by
      unfold Want.target
      intro t' c named
      split_ifs at named
      · rcases named with named | named
        · rw [cls]
          exact (Place.cached.inj named).2
        · exact absurd named (by simp)
      · exact absurd named (by simp))
  have short := popRegion_length A a.grant region (if w.cached then A.cacheLimit w.cls else 1)
    (h.table.region region) h.shadow
  have kind := (popRegion_spec (A := A) (w.target_handed t) a.grant region
    (if w.cached then A.cacheLimit w.cls else 1) (table.region region) h.shadow).kind
  simp only at spec
  generalize popRegion A a.grant region (if w.cached then A.cacheLimit w.cls else 1)
    (h.table.region region) h.shadow = popped at taken spec short kind
  obtain ⟨es, R, shadow⟩ := popped
  obtain ⟨before, distinct, table'⟩ := spec
  obtain ⟨rfl, rfl⟩ := Prod.mk.inj (Option.some.inj taken)
  have grows := h.table.grows_setRegion kind
  have before' : ∀ e ∈ es, place e.place = .free ∨ place e.place = .fresh :=
    fun e mem => (before e mem).2
  cases es with
  | nil =>
      rw [storePopped_nil]
      rw [handOut_nil] at table'
      refine ⟨place, .stay ?_ table' grows rfl rfl ?_ ?_⟩
      · rw [start]
        exact own
      · rw [start]
        cases first <;> rfl
      · cases first
        · exact ⟨ok, empty, used, (grows.regionClass region used).trans cls⟩
        · refine ⟨ok, empty, ok.cls.trans_le table.classes, ?_⟩
          exact (grows.regionClass w.cls (ok.cls.trans_le table.classes)).trans
            (table.own w.cls ok.cls)
  | cons e es =>
      refine ⟨_, table', grows, ?_, ?_,
        fun x u => handOut_others (w.target_owner t) before' x u,
        fun x live => .inl (handOut_live before' x live)⟩
      · refine popped_thread own ok empty before' distinct short ?_
        cases first
        · exact .inr ⟨region, rfl⟩
        · exact .inl rfl
      · have here : e.region < h.table.regions ∧
            ((h.table.setRegion region R).region e.region).regionClass = w.cls := by
          rw [(before e (by simp)).1]
          exact ⟨used, (grows.regionClass region used).trans cls⟩
        cases first
        · exact ⟨ok, used, (grows.regionClass region used).trans cls, Nat.succ_pos _,
            fun _ => here⟩
        · change PointOk _ _ _ (Thread.popped w (es.length + 1) e)
          unfold Thread.popped
          split_ifs with cached
          · exact ⟨ok, cached, Nat.succ_pos _⟩
          · exact ⟨ok, here⟩

end Steps

end WeaveC.Alloc
