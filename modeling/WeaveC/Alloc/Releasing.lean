import WeaveC.Alloc.Taking

/-!
# Releasing slots

A claimed slot waits in a release cache or goes to its queue at once; caches
are flushed and given back; a sweep recycles what is queued.
-/

namespace WeaveC.Alloc

open WeaveC.Library

variable {T : Type} {A : Arena} {place : Slot → Place T} {t : T} {h h' : Heap}
  {th th' : Thread}

/-! ## Releasing -/

/-- The exchange of the slot word takes the slot from the program. -/
theorem claim_moved {x : Slot} {word : Word} {a : Answer} (table : TableOk A h.table place)
    (own : ThreadOk A place t (th.point.view h.table.regionClass) th.cache)
    (here : PointOk A h.table th.cache (.claim x word)) (start : th.point = .claim x word)
    (taken : th.step A h a = some (h', th')) : ∃ place', Moved A t place place' h h' th th' := by
  simp only [Thread.step, start] at taken
  split_ifs at taken with found
  obtain ⟨rfl, rfl⟩ := Prod.mk.inj (Option.some.inj taken)
  clear taken
  rw [start] at own
  have placed : place x = .live := (table.live_iff x).mpr (found ▸ here)
  have grows := h.table.grows_setRegion (Region.sameKind_setWord (h.table.region x.region)
    x.index Word.claimed)
  refine ⟨Function.update place x (.retiring t), ?_⟩
  refine
    { table := table.setWord (by simp [placed]) (by simp [placed]) (by simp [placed]) (by simp)
        (by simp) (by simp) rfl (by simp)
      grows
      thread :=
        { alloc := fun c => ?_
          release := fun c => ?_
          taken := fun y => ?_
          retiring := fun y => ?_
          resizing := fun y resizing => by simp [Point.view, Point.resizing] at resizing
          uncached := own.uncached }
      point := trivial
      others := update_others (by simp [placed, Place.owner]) (by simp [Place.owner])
      live := fun y live => ?_ }
  · rw [setOf_update_other (by simp [placed]) (by simp)]
    exact own.alloc c
  · rw [setOf_update_other (by simp [placed]) (by simp)]
    exact own.release c
  · have := own.taken y
    by_cases same : y = x
    · simp [same, Point.view, Point.taken]
    · rw [Function.update_of_ne same]
      exact this
  · have := own.retiring y
    by_cases same : y = x
    · simp [same, Point.view, Point.retiring]
    · rw [Function.update_of_ne same, this]
      simp [Point.view, Point.retiring, Ne.symm same]
  · by_cases same : y = x
    · exact .inr ⟨word, by rw [same, start]⟩
    · exact .inl (by rwa [Function.update_of_ne same])

/-- The own release cache of one class changes, and no slot moves. -/
theorem Moved.setRelease {c : Nat} {s : SlotCache}
    (own : ThreadOk A place t (th.point.view h.table.regionClass) th.cache)
    (table : TableOk A h.table place) (served : c < A.cachedClasses)
    (cache : th'.cache = th.cache.setRelease c s)
    (segment : Segment (fun i => ((th'.point.releaseHeld h.table.regionClass c s).slots i).place)
      (th'.point.releaseHeld h.table.regionClass c s).low
      (th'.point.releaseHeld h.table.regionClass c s).high {x | place x = .released t c})
    (others : ∀ c' s, c' ≠ c → th'.point.releaseHeld h.table.regionClass c' s =
      th.point.releaseHeld h.table.regionClass c' s)
    (alloc : th'.point.allocHeld = th.point.allocHeld)
    (taken : th'.point.taken = th.point.taken) (retiring : th'.point.retiring = th.point.retiring)
    (resizing : th'.point.resizing = th.point.resizing)
    (point : PointOk A h.table th'.cache th'.point) : Moved A t place place h h th th' := by
  refine
    { table, point
      grows := .refl _
      thread :=
        { alloc := fun c' => ?_
          release := fun c' => ?_
          taken := fun x => ?_
          retiring := fun x => ?_
          resizing := fun x here => ?_
          uncached := fun c' beyond => ?_ }
      others := fun _ _ _ _ => rfl
      live := fun _ live => .inl live }
  · rw [cache]
    simp only [Point.view, alloc]
    exact own.alloc c'
  · rw [cache]
    by_cases same : c' = c
    · subst same
      simpa [Point.view, ThreadCache.setRelease] using segment
    · simp only [Point.view, ThreadCache.setRelease, Function.update_of_ne same, others c' _ same]
      exact own.release c'
  · simp only [Point.view, taken]
    exact own.taken x
  · simp only [Point.view, retiring]
    exact own.retiring x
  · simp only [Point.view, resizing] at here
    exact own.resizing x here
  · rw [cache]
    have ne : c' ≠ c := by omega
    simpa [ThreadCache.setRelease, ne] using own.uncached c' beyond

/-- The first of the two stores that push a release. -/
theorem push_moved {x : Slot} {a : Answer} (table : TableOk A h.table place)
    (own : ThreadOk A place t (th.point.view h.table.regionClass) th.cache)
    (here : PointOk A h.table th.cache (.push x)) (start : th.point = .push x)
    (taken : th.step A h a = some (h', th')) : Moved A t place place h h' th th' := by
  simp only [Thread.step, start] at taken
  have segment := own.release (h.table.regionClass x)
  rw [start] at segment
  simp only [Point.view, Point.releaseHeld, SlotCache.held] at segment
  split_ifs at taken with countFirst
  · obtain ⟨rfl, rfl⟩ := Prod.mk.inj (Option.some.inj taken)
    refine .setRelease (c := h.table.regionClass x) own table here rfl ?_ ?_ ?_ ?_ ?_ ?_ ?_
    all_goals try simp only [Thread.goto_point, start]
    · simpa [Point.releaseHeld] using segment
    · intro c' s other
      simp [Point.releaseHeld, Ne.symm other]
    · rfl
    · rfl
    · rfl
    · rfl
    · exact ⟨here, by simp [ThreadCache.setRelease]⟩
  · obtain ⟨rfl, rfl⟩ := Prod.mk.inj (Option.some.inj taken)
    refine .setRelease (c := h.table.regionClass x) own table here rfl ?_ ?_ ?_ ?_ ?_ ?_ ?_
    all_goals try simp only [Thread.goto_point, start]
    · simp only [Point.releaseHeld, SlotCache.held]
      refine segment.congr fun i _ below => ?_
      rw [Function.update_of_ne (by omega)]
    · intro c' s other
      simp [Point.releaseHeld]
    · rfl
    · rfl
    · rfl
    · rfl
    · exact ⟨here, by simp [ThreadCache.setRelease, Entry.place]⟩

/-- The second store: the slot now waits in the release cache. -/
theorem pushed_moved {x : Slot} {c : Nat} {s : SlotCache} (table : TableOk A h.table place)
    (own : ThreadOk A place t (th.point.view h.table.regionClass) th.cache)
    (cls : h.table.regionClass x = c) (served : c < A.cachedClasses)
    (cache : th'.cache = th.cache.setRelease c s) (count : 0 < s.count)
    (top : (s.slots (s.count - 1)).place = x)
    (held : ∀ i, i < s.count - 1 →
      s.slots i = ((th.point.releaseHeld h.table.regionClass c (th.cache.release c)).slots i))
    (low : (th.point.releaseHeld h.table.regionClass c (th.cache.release c)).low = 0)
    (high : (th.point.releaseHeld h.table.regionClass c (th.cache.release c)).high = s.count - 1)
    (others : ∀ c' s, c' ≠ c → th.point.releaseHeld h.table.regionClass c' s = s.held)
    (alloc : th.point.allocHeld = fun _ => SlotCache.held) (taken : th.point.taken = none)
    (retiring : th.point.retiring = some x)
    (next : th'.point = .credit c) :
    Moved A t place (Function.update place x (.released t c)) h h th th' := by
  have placed : place x = .retiring t := (own.retiring x).mpr retiring
  have word := table.word x
  rw [placed] at word
  have segment := own.release c
  simp only [Point.view, low, high] at segment
  refine
    { table := table.rename (by simp [placed]) (by simp) word ?_
      grows := .refl _
      thread :=
        { alloc := fun c' => ?_
          release := fun c' => ?_
          taken := fun y => ?_
          retiring := fun y => ?_
          resizing := fun y here => ?_
          uncached := fun c' beyond => ?_ }
      point := ?_
      others := update_others (by simp [placed, Place.owner]) (by simp [Place.owner])
      live := fun y live => .inl (update_live (by simp [placed]) y live) }
  · rintro t' c' (named | named)
    · exact absurd named (by simp)
    · rw [cls]
      exact (Place.released.inj named).2
  · rw [setOf_update_other (by simp [placed]) (by simp), next, cache]
    have := own.alloc c'
    simp only [Point.view, alloc] at this
    exact this
  · rw [next, cache]
    by_cases same : c' = c
    · subst same
      have grown := (segment.congr (g := fun i => (s.slots i).place) fun i _ below => by
        rw [held i below]).snoc (Nat.zero_le _) (by
          simp only [top, Set.mem_ofPred_eq, placed]
          simp)
      rw [setOf_update_gain]
      simp only [top, Nat.sub_add_cancel count] at grown
      simpa [Point.view, Point.releaseHeld, SlotCache.held, ThreadCache.setRelease] using grown
    · rw [setOf_update_other (by simp [placed]) (by simp [Ne.symm same])]
      have := own.release c'
      simp only [Point.view, others c' _ same] at this
      simpa [Point.view, Point.releaseHeld, ThreadCache.setRelease, same] using this
  · have := own.taken y
    rw [next]
    simp only [Point.view, taken] at this
    by_cases same : y = x
    · simp [same, Point.view, Point.taken]
    · rw [Function.update_of_ne same, this]
      simp [Point.view, Point.taken]
  · have := own.retiring y
    rw [next]
    simp only [Point.view, retiring] at this
    by_cases same : y = x
    · simp [same, Point.view, Point.retiring]
    · rw [Function.update_of_ne same, this]
      simp [Point.view, Point.retiring, Ne.symm same]
  · rw [next] at here
    simp [Point.view, Point.resizing] at here
  · rw [cache]
    have ne : c' ≠ c := by omega
    simpa [ThreadCache.setRelease, ne] using own.uncached c' beyond
  · rw [next]
    exact served

theorem pushCount_moved {x : Slot} {a : Answer} (table : TableOk A h.table place)
    (own : ThreadOk A place t (th.point.view h.table.regionClass) th.cache)
    (here : PointOk A h.table th.cache (.pushCount x)) (start : th.point = .pushCount x)
    (taken : th.step A h a = some (h', th')) : ∃ place', Moved A t place place' h h' th th' := by
  simp only [Thread.step, start] at taken
  obtain ⟨rfl, rfl⟩ := Prod.mk.inj (Option.some.inj taken)
  refine ⟨_, pushed_moved table own rfl here.1 rfl (Nat.succ_pos _) here.2 ?_ ?_ ?_ ?_ ?_ ?_ ?_ rfl⟩
  all_goals rw [start]
  · intro i _
    rfl
  · rfl
  · rfl
  · intro c' s _
    rfl
  · rfl
  · rfl
  · rfl

theorem pushSlot_moved {x : Slot} {a : Answer} (table : TableOk A h.table place)
    (own : ThreadOk A place t (th.point.view h.table.regionClass) th.cache)
    (here : PointOk A h.table th.cache (.pushSlot x)) (start : th.point = .pushSlot x)
    (taken : th.step A h a = some (h', th')) : ∃ place', Moved A t place place' h h' th th' := by
  simp only [Thread.step, start] at taken
  obtain ⟨rfl, rfl⟩ := Prod.mk.inj (Option.some.inj taken)
  refine ⟨_, pushed_moved table own rfl here.1 rfl here.2 (by simp [Entry.place]) ?_ ?_ ?_ ?_ ?_ ?_
    ?_ rfl⟩
  all_goals rw [start]
  · intro i below
    simp only at below
    simp [Point.releaseHeld, show i ≠ _ from Nat.ne_of_lt below]
  · simp [Point.releaseHeld]
  · simp [Point.releaseHeld]
  · intro c' s other
    simp [Point.releaseHeld, Ne.symm other]
  · rfl
  · rfl
  · rfl

/-- A released slot goes behind the queue without a cache. -/
theorem retire_moved {x : Slot} {a : Answer} (table : TableOk A h.table place)
    (own : ThreadOk A place t (th.point.view h.table.regionClass) th.cache)
    (start : th.point = .retire x) (taken : th.step A h a = some (h', th')) :
    ∃ place', Moved A t place place' h h' th th' := by
  simp only [Thread.step, start] at taken
  obtain ⟨rfl, rfl⟩ := Prod.mk.inj (Option.some.inj taken)
  clear taken
  rw [start] at own
  have placed : place x = .retiring t := (own.retiring x).mpr rfl
  have grows := h.table.grows_setRegion (Region.sameKind_enqueue (h.table.region x.region) x.index)
  refine ⟨Function.update place x .queued, ?_⟩
  refine
    { table := table.enqueue (by rw [placed]; trivial)
      grows
      thread :=
        { alloc := fun c => ?_
          release := fun c => ?_
          taken := fun y => ?_
          retiring := fun y => ?_
          resizing := fun _ here => by simp [Point.view, Point.resizing] at here
          uncached := own.uncached }
      point := (table.used (x := x) (by simp [placed])).trans_le grows.regions
      others := update_others (by simp [placed, Place.owner]) (by simp [Place.owner])
      live := fun y live => .inl (update_live (by simp [placed]) y live) }
  · rw [setOf_update_other (by simp [placed]) (by simp)]
    exact own.alloc c
  · rw [setOf_update_other (by simp [placed]) (by simp)]
    exact own.release c
  · have := own.taken y
    by_cases same : y = x
    · simp [same, Point.view, Point.taken]
    · rw [Function.update_of_ne same]
      exact this
  · have := own.retiring y
    by_cases same : y = x
    · simp [same, Point.view, Point.retiring]
    · rw [Function.update_of_ne same, this]
      simp [Point.view, Point.retiring, Ne.symm same]

/-! ## Draining -/

theorem runLength_le (slots : Nat → Entry) (region i left : Nat) :
    Thread.runLength slots region i left ≤ left := by
  induction left generalizing i with
  | zero => exact Nat.le_refl 0
  | succ left inductionHypothesis =>
      unfold Thread.runLength
      split_ifs
      · exact Nat.succ_le_succ (inductionHypothesis _)
      · exact Nat.zero_le _

theorem Then.Ok.congr {k k' : ThreadCache} {next : Then} (ok : next.Ok A k)
    (kept : ∀ c, (k.alloc c).count = 0 → (k'.alloc c).count = 0) : next.Ok A k' := by
  cases next with
  | done => trivial
  | pop w => exact ⟨ok.1, fun cached => kept _ (ok.2 cached)⟩

theorem After.Ok.setRelease {k : ThreadCache} {c : Nat} {a : After} {s : SlotCache}
    (ok : a.Ok A k c) : a.Ok A (k.setRelease c s) c := by
  cases a with
  | sweep next => exact Then.Ok.congr (show next.Ok A k from ok) fun _ zero => zero
  | exit =>
      intro c' below
      have := ok c' below
      simpa [ThreadCache.setRelease, Nat.ne_of_lt below] using this

/-- A flush is done with its class. -/
theorem flushed_moved {c i bytes : Nat} {f : FlushFor} (table : TableOk A h.table place)
    (own : ThreadOk A place t (th.point.view h.table.regionClass) th.cache)
    (here : PointOk A h.table th.cache (.flush c i bytes f)) (start : th.point = .flush c i bytes f)
    (done : (th.cache.release c).count ≤ i)
    (cache : th'.cache = th.cache.setRelease c { th.cache.release c with count := 0 })
    (next : th'.point = if bytes ≠ 0 then .flushAdd c bytes f else Thread.flushed c f) :
    Moved A t place place h h th th' := by
  obtain ⟨served, -, ok⟩ := here
  have segment := own.release c
  rw [start] at segment
  simp only [Point.view, Point.releaseHeld, if_true] at segment
  have none : {x | place x = .released t c} = ∅ := segment.empty_iff.mpr done
  have ok' : f.Ok A th'.cache c := by
    rw [cache]
    cases f with
    | full => trivial
    | drain a => exact After.Ok.setRelease ok
  have count : (th'.cache.release c).count = 0 := by
    rw [cache]
    simp [ThreadCache.setRelease]
  have view : th'.point.allocHeld = (fun _ => SlotCache.held) ∧
      th'.point.releaseHeld h.table.regionClass = (fun _ => SlotCache.held) ∧
      th'.point.taken = Option.none ∧ th'.point.retiring = Option.none ∧
      th'.point.resizing = Option.none := by
    rw [next]
    split_ifs
    · exact ⟨rfl, rfl, rfl, rfl, rfl⟩
    · cases f with
      | full => exact ⟨rfl, rfl, rfl, rfl, rfl⟩
      | drain a =>
          refine ⟨?_, rfl, rfl, rfl, rfl⟩
          funext c' s
          simp only [Thread.flushed, Point.allocHeld, SlotCache.held, ite_self]
  refine .setRelease (c := c) own table served cache ?_ ?_ ?_ ?_ ?_ ?_ ?_
  · rw [none, view.2.1]
    exact Segment.empty _ (Nat.le_refl 0)
  · intro c' s other
    rw [view.2.1, start]
    simp [Point.releaseHeld, Ne.symm other]
  · rw [view.1, start]
    rfl
  · rw [view.2.2.1, start]
    rfl
  · rw [view.2.2.2.1, start]
    rfl
  · rw [view.2.2.2.2, start]
    rfl
  · rw [next]
    split_ifs
    · exact ⟨served, ok', count⟩
    · cases f with
      | full => trivial
      | drain a => exact ⟨served, Nat.zero_le _, ok', count⟩

/-- A run of the release cache moves to the queues. -/
theorem flush_moved {c i bytes : Nat} {f : FlushFor} {a : Answer} (table : TableOk A h.table place)
    (own : ThreadOk A place t (th.point.view h.table.regionClass) th.cache)
    (here : PointOk A h.table th.cache (.flush c i bytes f)) (start : th.point = .flush c i bytes f)
    (taken : th.step A h a = some (h', th')) : ∃ place', Moved A t place place' h h' th th' := by
  simp only [Thread.step, start] at taken
  by_cases more : i < (th.cache.release c).count
  · rw [if_pos more] at taken
    obtain ⟨rfl, rfl⟩ := Prod.mk.inj (Option.some.inj taken)
    clear taken
    obtain ⟨served, -, ok⟩ := here
    rw [start] at own
    have run := runLength_le (th.cache.release c).slots ((th.cache.release c).slots i).region i
      ((th.cache.release c).count - i)
    generalize Thread.runLength (th.cache.release c).slots ((th.cache.release c).slots i).region i
      ((th.cache.release c).count - i) = n at run ⊢
    have segment := own.release c
    simp only [Point.view, Point.releaseHeld, if_true] at segment
    obtain ⟨place', table', grows, segment', only⟩ :=
      table.enqueueRun (n := n) (by omega) segment
    have same {q : Place T} (other : q ≠ .released t c) (other' : q ≠ .queued) (x : Slot) :
        place' x = q ↔ place x = q := by
      rcases only x with eq | ⟨before, after⟩
      · rw [eq]
      · rw [before, after]
        exact iff_of_false other'.symm other.symm
    have sets {q : Place T} (other : q ≠ .released t c) (other' : q ≠ .queued) :
        {x | place' x = q} = {x | place x = q} := Set.ext (same other other')
    refine ⟨place', ?_⟩
    refine
      { table := table'
        grows
        thread :=
          { alloc := fun c' => ?_
            release := fun c' => ?_
            taken := fun x => (same (by simp) (by simp) x).trans (own.taken x)
            retiring := fun x => (same (by simp) (by simp) x).trans (own.retiring x)
            resizing := fun x resizing => by simp [Point.view, Point.resizing] at resizing
            uncached := own.uncached }
        point := ⟨served, by simp only [Thread.goto_cache]; omega, ok⟩
        others := ?_
        live := fun x live => .inl ((same (by simp) (by simp) x).mpr live) }
    · rw [sets (by simp) (by simp)]
      exact own.alloc c'
    · by_cases eq : c' = c
      · subst eq
        simpa [Point.view, Point.releaseHeld] using segment'
      · rw [sets (by simp [eq]) (by simp)]
        have := own.release c'
        simpa [Point.view, Point.releaseHeld, Ne.symm eq] using this
    · intro x u other owned
      rcases only x with eq | ⟨before, after⟩
      · exact eq
      · rw [before, after] at owned
        rcases owned with owned | owned
        · exact absurd (Option.some.inj owned).symm other
        · exact absurd owned (by simp [Place.owner])
  · rw [if_neg more] at taken
    obtain ⟨rfl, rfl⟩ := Prod.mk.inj (Option.some.inj taken)
    exact ⟨place, flushed_moved table own here start (by omega) rfl rfl⟩

theorem drainFrom_plain (A : Arena) (c : Nat) (k : After) (cls : Slot → Nat) :
    (Thread.drainFrom A c k).view cls = View.plain := by
  unfold Thread.drainFrom
  split_ifs
  · unfold Point.view View.plain
    congr 1
    funext c' s
    simp only [Point.releaseHeld, SlotCache.held, ite_self]
  · rfl

theorem drainFrom_ok {tb : Table} {k : ThreadCache} {c : Nat} {next : After}
    (below : c ≤ A.cachedClasses) (ok : next.Ok A k c) :
    PointOk A tb k (Thread.drainFrom A c next) := by
  unfold Thread.drainFrom
  split_ifs with more
  · exact ⟨more, Nat.zero_le _, ok⟩
  · obtain rfl : c = A.cachedClasses := by omega
    exact ok

/-- One class of the own cache is given back and empty. -/
theorem After.Ok.next {k : ThreadCache} {c : Nat} {a : After} (ok : a.Ok A k c)
    (empty : (k.release c).count = 0) :
    a.Ok A (k.setAlloc c { k.alloc c with count := 0 }) (c + 1) := by
  cases a with
  | sweep next =>
      refine Then.Ok.congr (show next.Ok A k from ok) fun c' zero => ?_
      by_cases same : c' = c
      · simp [ThreadCache.setAlloc, same]
      · simpa [ThreadCache.setAlloc, same] using zero
  | exit =>
      intro c' below
      by_cases same : c' = c
      · subst same
        exact ⟨by simp [ThreadCache.setAlloc], empty⟩
      · have := ok c' (by omega)
        simpa [ThreadCache.setAlloc, same] using this

/-- A slot of the own cache goes back to its free list. -/
theorem giveBack_moved {c i : Nat} {k : After} {a : Answer} (table : TableOk A h.table place)
    (own : ThreadOk A place t (th.point.view h.table.regionClass) th.cache)
    (here : PointOk A h.table th.cache (.giveBack c i k)) (start : th.point = .giveBack c i k)
    (taken : th.step A h a = some (h', th')) : ∃ place', Moved A t place place' h h' th th' := by
  simp only [Thread.step, start] at taken
  obtain ⟨served, -, ok, empty⟩ := here
  have segment := own.alloc c
  rw [start] at segment
  simp only [Point.view, Point.allocHeld, if_true] at segment
  by_cases more : i < (th.cache.alloc c).count
  · rw [if_pos more] at taken
    obtain ⟨rfl, rfl⟩ := Prod.mk.inj (Option.some.inj taken)
    clear taken
    rw [start] at own
    generalize first : ((th.cache.alloc c).slots i).place = x
    have placed : place x = .cached t c := by
      rw [← first]
      exact segment.mem (Nat.le_refl i) more
    have moved := table.giveBack (x := x) (by rw [placed]; trivial)
    have grows := h.table.grows_setRegion
      (Region.sameKind_giveBack (h.table.region x.region) x.index)
    rw [← first] at moved grows
    refine ⟨Function.update place x .free, ?_⟩
    refine
      { table := by
          rw [← first]
          exact moved
        grows
        thread :=
          { alloc := fun c' => ?_
            release := fun c' => ?_
            taken := fun y => ?_
            retiring := fun y => ?_
            resizing := fun y resizing => by simp [Point.view, Point.resizing] at resizing
            uncached := own.uncached }
        point := ⟨served, more, ok, empty⟩
        others := update_others (by simp [placed, Place.owner]) (by simp [Place.owner])
        live := fun y live => .inl (update_live (by simp [placed]) y live) }
    · by_cases same : c' = c
      · subst same
        rw [setOf_update_lose (by simp)]
        have rest := segment.dropFirst more
        simp only [first] at rest
        simpa [Point.view, Point.allocHeld] using rest
      · rw [setOf_update_other (by simp [placed, Ne.symm same]) (by simp)]
        have := own.alloc c'
        simpa [Point.view, Point.allocHeld, Ne.symm same] using this
    · rw [setOf_update_other (by simp [placed]) (by simp)]
      exact own.release c'
    · have := own.taken y
      by_cases same : y = x
      · simp [same, Point.view, Point.taken]
      · rw [Function.update_of_ne same]
        exact this
    · have := own.retiring y
      by_cases same : y = x
      · simp [same, Point.view, Point.retiring]
      · rw [Function.update_of_ne same]
        exact this
  · rw [if_neg more] at taken
    obtain ⟨rfl, rfl⟩ := Prod.mk.inj (Option.some.inj taken)
    have none : {x | place x = .cached t c} = ∅ := segment.empty_iff.mpr (by omega)
    have plain := drainFrom_plain A (c + 1) k h.table.regionClass
    refine ⟨place, .setAlloc (c := c) own table served rfl ?_ ?_ ?_ ?_ ?_ ?_
      (drainFrom_ok served (ok.next empty))⟩
    all_goals try simp only [Thread.goto_point, start]
    · have same := congrArg View.alloc plain
      simp only [Point.view] at same
      rw [none, same]
      exact Segment.empty _ (Nat.le_refl 0)
    · intro c' s other
      have same := congrArg View.alloc plain
      simp only [Point.view] at same
      rw [same]
      simp [View.plain, Point.allocHeld, Ne.symm other]
    · exact congrArg View.release plain
    · exact congrArg View.taken plain
    · exact congrArg View.retiring plain
    · exact congrArg View.resizing plain

/-- The cache of an exited thread is unmapped when it holds nothing. -/
theorem unlink_moved {a : Answer} (table : TableOk A h.table place)
    (own : ThreadOk A place t (th.point.view h.table.regionClass) th.cache)
    (here : PointOk A h.table th.cache .unlink) (start : th.point = .unlink)
    (taken : th.step A h a = some (h', th')) : Moved A t place place h h' th th' := by
  simp only [Thread.step, start] at taken
  obtain ⟨rfl, rfl⟩ := Prod.mk.inj (Option.some.inj taken)
  rw [start] at own
  have counts (c : Nat) : (th.cache.alloc c).count = 0 ∧ (th.cache.release c).count = 0 := by
    by_cases below : c < A.cachedClasses
    · exact here c below
    · exact own.uncached c (by omega)
  have none (c : Nat) : {x | place x = .cached t c} = ∅ ∧ {x | place x = .released t c} = ∅ := by
    refine ⟨(own.alloc c).empty_iff.mpr ?_, (own.release c).empty_iff.mpr ?_⟩
    · simp [Point.view, Point.allocHeld, SlotCache.held, counts c]
    · simp [Point.view, Point.releaseHeld, SlotCache.held, counts c]
  refine
    { table
      grows := .refl _
      thread :=
        { alloc := fun c => by
            rw [(none c).1]
            exact Segment.empty _ (Nat.le_refl 0)
          release := fun c => by
            rw [(none c).2]
            exact Segment.empty _ (Nat.le_refl 0)
          taken := own.taken
          retiring := own.retiring
          resizing := own.resizing
          uncached := fun _ _ => ⟨rfl, rfl⟩ }
      point := trivial
      others := fun _ _ _ _ => rfl
      live := fun _ live => .inl live }

/-! ## Sweeping and reallocating -/

theorem world_moved {k : Then} {a : Answer} (table : TableOk A h.table place)
    (own : ThreadOk A place t (th.point.view h.table.regionClass) th.cache)
    (here : PointOk A h.table th.cache (.world k)) (start : th.point = .world k)
    (taken : th.step A h a = some (h', th')) : ∃ place', Moved A t place place' h h' th th' := by
  simp only [Thread.step, start] at taken
  rw [start] at own
  split_ifs at taken with mapped
  · obtain ⟨rfl, rfl⟩ := Prod.mk.inj (Option.some.inj taken)
    obtain ⟨place', table', grows, only⟩ := table.sweepWorld a.world
    have same {q : Place T} (other : q ≠ .queued) (other' : q ≠ .free) (x : Slot) :
        place' x = q ↔ place x = q := by
      rcases only x with eq | ⟨before, after⟩
      · rw [eq]
      · rw [before, after]
        exact iff_of_false other'.symm other.symm
    refine ⟨place', table', grows, ?_, here, ?_,
      fun x live => .inl ((same (by simp) (by simp) x).mpr live)⟩
    · refine own.congr (fun x q owned => same ?_ ?_ x) fun x resizing => ?_
      · rintro rfl
        exact absurd owned (by simp [Place.owner])
      · rintro rfl
        exact absurd owned (by simp [Place.owner])
      · simp [Point.view, Point.resizing] at resizing
    · intro x u other owned
      rcases only x with eq | ⟨before, after⟩
      · exact eq
      · rw [before, after] at owned
        simp [Place.owner] at owned
  · obtain ⟨rfl, rfl⟩ := Prod.mk.inj (Option.some.inj taken)
    refine ⟨place, .stay ?_ table (.refl _) rfl rfl ?_ here⟩
    · rw [start]
      exact own
    · rw [start]
      rfl

/-- A reallocation stores the new size of a block that is still the program's. -/
theorem resizeWord_moved {x : Slot} {size : Nat} {a : Answer} (table : TableOk A h.table place)
    (own : ThreadOk A place t (th.point.view h.table.regionClass) th.cache)
    (start : th.point = .resizeWord x size) (taken : th.step A h a = some (h', th')) :
    Moved A t place place h h' th th' := by
  simp only [Thread.step, start] at taken
  obtain ⟨rfl, rfl⟩ := Prod.mk.inj (Option.some.inj taken)
  rw [start] at own
  have placed : place x = .live := own.resizing x rfl
  have stored := table.setWord (x := x) (p := .live) (w := ⟨size, .live⟩) (by simp [placed])
    (by simp [placed]) (by simp [placed]) (by simp) (by simp) (by simp) rfl (by simp)
  rw [← placed, Function.update_eq_self] at stored
  exact
    { table := stored
      grows := h.table.grows_setRegion (Region.sameKind_setWord _ _ _)
      thread := { own with resizing := fun y here => by simp [Point.view, Point.resizing] at here }
      point := trivial
      others := fun _ _ _ _ => rfl
      live := fun _ live => .inl live }

end WeaveC.Alloc
