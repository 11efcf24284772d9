import WeaveC.Alloc.Moved

/-!
# Taking slots

A refilled cache is counted and reversed, its top is taken, and the slot that
was taken becomes the program's.
-/

namespace WeaveC.Alloc

open WeaveC.Library

variable {T : Type} {A : Arena} {place : Slot → Place T} {t : T} {h h' : Heap}
  {th th' : Thread}

/-! ## The cache of free slots -/

/-- The own cache of one class changes, and no slot moves. -/
theorem Moved.setAlloc {c : Nat} {s : SlotCache}
    (own : ThreadOk A place t (th.point.view h.table.regionClass) th.cache)
    (table : TableOk A h.table place) (served : c < A.cachedClasses)
    (cache : th'.cache = th.cache.setAlloc c s)
    (segment : Segment (fun i => ((th'.point.allocHeld c s).slots i).place)
      (th'.point.allocHeld c s).low (th'.point.allocHeld c s).high {x | place x = .cached t c})
    (others : ∀ c' s, c' ≠ c → th'.point.allocHeld c' s = th.point.allocHeld c' s)
    (release : th'.point.releaseHeld h.table.regionClass =
      th.point.releaseHeld h.table.regionClass)
    (taken : th'.point.taken = th.point.taken) (retiring : th'.point.retiring = th.point.retiring)
    (resizing : th'.point.resizing = th.point.resizing)
    (point : PointOk A h.table th'.cache th'.point) : Moved A t place place h h th th' := by
  refine
    { table, point
      grows := .refl _
      thread :=
        { alloc := fun c' => ?_
          release := fun c' => ?_
          taken := fun x => ?_
          retiring := fun x => ?_
          resizing := fun x here => ?_
          uncached := fun c' beyond => ?_ }
      others := fun _ _ _ _ => rfl
      live := fun _ live => .inl live }
  · rw [cache]
    by_cases same : c' = c
    · subst same
      simpa [Point.view, ThreadCache.setAlloc] using segment
    · simp only [Point.view, ThreadCache.setAlloc, Function.update_of_ne same, others c' _ same]
      exact own.alloc c'
  · rw [cache]
    simp only [Point.view, release]
    exact own.release c'
  · simp only [Point.view, taken]
    exact own.taken x
  · simp only [Point.view, retiring]
    exact own.retiring x
  · simp only [Point.view, resizing] at here
    exact own.resizing x here
  · rw [cache]
    have ne : c' ≠ c := by omega
    simpa [ThreadCache.setAlloc, ne] using own.uncached c' beyond

theorem reversal_plain (w : Want) (count i : Nat) (cls : Slot → Nat) :
    (Thread.reversal w count i).view cls = View.plain := by
  unfold Thread.reversal
  split_ifs <;> rfl

/-- `available->count` is stored after the slots. -/
theorem setCount_moved {w : Want} {got : Nat} {a : Answer} (table : TableOk A h.table place)
    (own : ThreadOk A place t (th.point.view h.table.regionClass) th.cache)
    (here : PointOk A h.table th.cache (.setCount w got)) (start : th.point = .setCount w got)
    (taken : th.step A h a = some (h', th')) : Moved A t place place h h' th th' := by
  obtain ⟨ok, cached, some⟩ := here
  simp only [Thread.step, start] at taken
  obtain ⟨rfl, rfl⟩ := Prod.mk.inj (Option.some.inj taken)
  have plain := reversal_plain w got 0 h.table.regionClass
  have segment := own.alloc w.cls
  rw [start] at own segment
  simp only [Point.view, Point.allocHeld, if_true] at segment
  refine .setAlloc (c := w.cls) (by rw [start]; exact own) table (ok.cached cached) rfl ?_ ?_ ?_ ?_
    ?_ ?_ ?_
  all_goals try simp only [Thread.goto_point, start]
  · have same := congrArg View.alloc plain
    simp only [Point.view] at same
    simpa [same, View.plain, SlotCache.held] using segment
  · intro c' s other
    have same := congrArg View.alloc plain
    simp only [Point.view] at same
    rw [same]
    simp [View.plain, Point.allocHeld, Ne.symm other]
  · exact congrArg View.release plain
  · exact congrArg View.taken plain
  · exact congrArg View.retiring plain
  · exact congrArg View.resizing plain
  · unfold Thread.reversal
    split_ifs with more
    · exact ⟨ok, cached, by simpa [ThreadCache.setAlloc] using more⟩
    · exact ⟨ok, cached, by simpa [ThreadCache.setAlloc] using some⟩

/-- The first store of an exchange: the slot it overwrites is in a local. -/
theorem swapLow_moved {w : Want} {i : Nat} {a : Answer} (table : TableOk A h.table place)
    (own : ThreadOk A place t (th.point.view h.table.regionClass) th.cache)
    (here : PointOk A h.table th.cache (.swapLow w i)) (start : th.point = .swapLow w i)
    (taken : th.step A h a = some (h', th')) : Moved A t place place h h' th th' := by
  obtain ⟨ok, cached, low⟩ := here
  simp only [Thread.step, start] at taken
  obtain ⟨rfl, rfl⟩ := Prod.mk.inj (Option.some.inj taken)
  have segment := own.alloc w.cls
  rw [start] at segment
  simp only [Point.view, Point.allocHeld, SlotCache.held] at segment
  refine .setAlloc (c := w.cls) own table (ok.cached cached) rfl ?_ ?_ ?_ ?_ ?_ ?_ ?_
  all_goals try simp only [Thread.goto_point, start]
  · have swapped := segment.swap (i := i) (j := (th.cache.alloc w.cls).count - 1 - i)
      (Nat.zero_le _) (by omega) (Nat.zero_le _) (by omega)
    simp only [Point.allocHeld, if_true]
    refine swapped.congr fun k _ _ => ?_
    by_cases last : k = (th.cache.alloc w.cls).count - 1 - i
    · simp [last]
    · by_cases first : k = i
      · subst first
        simp [last]
      · simp [last, first]
  · intro c' s other
    simp [Point.allocHeld, Ne.symm other]
  · rfl
  · rfl
  · rfl
  · rfl
  · exact ⟨ok, cached, by simpa [ThreadCache.setAlloc] using low⟩

/-- The second store of an exchange. -/
theorem swapHigh_moved {w : Want} {i : Nat} {swap : Entry} {a : Answer}
    (table : TableOk A h.table place)
    (own : ThreadOk A place t (th.point.view h.table.regionClass) th.cache)
    (here : PointOk A h.table th.cache (.swapHigh w i swap))
    (start : th.point = .swapHigh w i swap)
    (taken : th.step A h a = some (h', th')) : Moved A t place place h h' th th' := by
  obtain ⟨ok, cached, low⟩ := here
  simp only [Thread.step, start] at taken
  obtain ⟨rfl, rfl⟩ := Prod.mk.inj (Option.some.inj taken)
  have plain := reversal_plain w (th.cache.alloc w.cls).count (i + 1) h.table.regionClass
  have segment := own.alloc w.cls
  rw [start] at segment
  simp only [Point.view, Point.allocHeld, if_true] at segment
  refine .setAlloc (c := w.cls) own table (ok.cached cached) rfl ?_ ?_ ?_ ?_ ?_ ?_ ?_
  all_goals try simp only [Thread.goto_point, start]
  · have same := congrArg View.alloc plain
    simp only [Point.view] at same
    simpa [same, View.plain, SlotCache.held] using segment
  · intro c' s other
    have same := congrArg View.alloc plain
    simp only [Point.view] at same
    rw [same]
    simp [View.plain, Point.allocHeld, Ne.symm other]
  · exact congrArg View.release plain
  · exact congrArg View.taken plain
  · exact congrArg View.retiring plain
  · exact congrArg View.resizing plain
  · unfold Thread.reversal
    split_ifs with more
    · exact ⟨ok, cached, by simpa [ThreadCache.setAlloc] using more⟩
    · have some : 0 < (th.cache.alloc w.cls).count := by omega
      exact ⟨ok, cached, by simpa [ThreadCache.setAlloc] using some⟩

/-- The top of the cache is taken. -/
theorem takeTop_moved {w : Want} {a : Answer} (table : TableOk A h.table place)
    (own : ThreadOk A place t View.plain th.cache)
    (here : PointOk A h.table th.cache (.takeTop w)) (start : th.point = .takeTop w)
    (taken : th.step A h a = some (h', th')) : ∃ place', Moved A t place place' h h' th th' := by
  obtain ⟨ok, cached, some⟩ := here
  simp only [Thread.step, start] at taken
  obtain ⟨rfl, rfl⟩ := Prod.mk.inj (Option.some.inj taken)
  clear taken
  have segment := own.alloc w.cls
  simp only [View.plain, SlotCache.held] at segment
  generalize top : ((th.cache.alloc w.cls).slots ((th.cache.alloc w.cls).count - 1)).place = x
  have here : place x = .cached t w.cls := by
    rw [← top]
    exact segment.mem (Nat.zero_le _) (by omega)
  have word := table.word x
  rw [here] at word
  have cls : h.table.regionClass x = w.cls := table.cls x t w.cls (.inl here)
  have used := table.used (x := x) (by simp [here])
  have none_taken (y : Slot) : place y ≠ .taken t := fun placed => by
    simpa [View.plain] using (own.taken y).mp placed
  refine ⟨Function.update place x (.taken t), ?_⟩
  refine
    { table := table.rename (by simp [here]) (by simp) word (by simp)
      grows := .refl _
      thread :=
        { alloc := fun c => ?_
          release := fun c => ?_
          taken := fun y => ?_
          retiring := fun y => ?_
          resizing := fun y resizing => by simp [Point.view, Point.resizing] at resizing
          uncached := fun c beyond => ?_ }
      point := ?_
      others := update_others (by simp [here, Place.owner]) (by simp [Place.owner])
      live := fun y live => .inl (update_live (by simp [here]) y live) }
  · by_cases same : c = w.cls
    · subst same
      rw [setOf_update_lose (by simp)]
      have rest := segment.dropLast
        (show (th.cache.alloc w.cls).count = (th.cache.alloc w.cls).count - 1 + 1 by omega)
        (Nat.zero_le _)
      simp only [top] at rest
      simpa [Point.view, Point.allocHeld, SlotCache.held, ThreadCache.setAlloc] using rest
    · rw [setOf_update_other (by simp [here, Ne.symm same]) (by simp)]
      simpa [Point.view, Point.allocHeld, ThreadCache.setAlloc, same, View.plain] using own.alloc c
  · rw [setOf_update_other (by simp [here]) (by simp)]
    exact own.release c
  · simp only [Point.view, Point.taken, Thread.goto_point, top, Option.some.injEq]
    by_cases same : y = x
    · simp [same]
    · rw [Function.update_of_ne same]
      exact iff_of_false (none_taken y) fun eq => same eq.symm
  · have := own.retiring y
    by_cases same : y = x
    · subst same
      simp [Point.view, Point.retiring]
    · rw [Function.update_of_ne same]
      exact this
  · have ne : c ≠ w.cls := by
      have := ok.cached cached
      omega
    simpa [ThreadCache.setAlloc, ne] using own.uncached c beyond
  · refine ⟨ok, ?_⟩
    rw [← top] at used cls
    exact ⟨used, cls⟩

/-- The slot that was taken becomes the program's. -/
theorem storeLive_moved {w : Want} {e : Entry} {a : Answer} (table : TableOk A h.table place)
    (own : ThreadOk A place t (th.point.view h.table.regionClass) th.cache)
    (here : PointOk A h.table th.cache (.storeLive w e)) (start : th.point = .storeLive w e)
    (taken : th.step A h a = some (h', th')) : ∃ place', Moved A t place place' h h' th th' := by
  simp only [Thread.step, start] at taken
  obtain ⟨rfl, rfl⟩ := Prod.mk.inj (Option.some.inj taken)
  clear taken
  rw [start] at own
  have placed : place e.place = .taken t := (own.taken _).mpr rfl
  have grows := h.table.grows_setRegion (Region.sameKind_setWord (h.table.region e.place.region)
    e.place.index ⟨w.size, .live⟩)
  refine ⟨Function.update place e.place .live, ?_⟩
  refine
    { table := table.setWord (by simp [placed]) (by simp [placed]) (by simp [placed]) (by simp)
        (by simp) (by simp) rfl (by simp)
      grows
      thread :=
        { alloc := fun c => ?_
          release := fun c => ?_
          taken := fun y => ?_
          retiring := fun y => ?_
          resizing := fun y resizing => by simp [Point.view, Point.resizing] at resizing
          uncached := own.uncached }
      point := PointOk.grows (p := .shadowLive w e) here grows (by simp [Point.retiring])
        (by simp [Point.resizing])
      others := update_others (by simp [placed, Place.owner]) (by simp [Place.owner])
      live := fun y live => .inl (update_live (by simp [placed]) y live) }
  · rw [setOf_update_other (by simp [placed]) (by simp)]
    exact own.alloc c
  · rw [setOf_update_other (by simp [placed]) (by simp)]
    exact own.release c
  · have := own.taken y
    by_cases same : y = e.place
    · simp [same, Point.view, Point.taken]
    · rw [Function.update_of_ne same, this]
      simp [Point.view, Point.taken, Ne.symm same]
  · have := own.retiring y
    by_cases same : y = e.place
    · simp [same, Point.view, Point.retiring]
    · rw [Function.update_of_ne same]
      exact this

end WeaveC.Alloc
