import WeaveC.Alloc.Branches
import WeaveC.Alloc.Slots
import WeaveC.Alloc.Sound

/-!
# Whether a cached slot was used before

An entry that a thread has in hand says whether its slot was used before.  One
that says no is of a slot whose word was never written: it came from behind its
region's last slot, and nothing but the thread that has it writes its word.
-/

namespace WeaveC.Alloc

open WeaveC.Library

variable {T : Type} {A : Arena} {place place' : Slot → Place T} {h h' : Heap} {th th' : Thread}
  {a : Answer} {s s' : State T} {e : Event T} {x : Slot} {y : Entry}

/-! ## Entries in hand -/

/-- The part of a cache's array holds the entry. -/
def Held.Has (v : Held) (y : Entry) : Prop := ∃ i, v.low ≤ i ∧ i < v.high ∧ v.slots i = y

/-- The entry that an allocation has taken and not made live yet. -/
def Point.takenEntry : Point → Option Entry
  | .setActive w _ _ y => if w.cached then none else some y
  | .addLive _ y | .storeLive _ y => some y
  | _ => none

/-- The thread has the entry in its cache of free slots, or has taken it from
there. -/
def Thread.Has (th : Thread) (y : Entry) : Prop :=
  (∃ c, (th.point.allocHeld c (th.cache.alloc c)).Has y) ∨ th.point.takenEntry = some y

theorem Point.taken_eq (p : Point) : p.taken = p.takenEntry.map Entry.place := by
  cases p with
  | setActive w region got y =>
      unfold Point.taken Point.takenEntry
      dsimp only
      split <;> rfl
  | _ => rfl

theorem Partition.place_of_has (ok : Partition A s place) {t : T} (has : (s.thread t).Has y) :
    (∃ c, place y.place = .cached t c) ∨ place y.place = .taken t := by
  rcases has with ⟨c, i, above, below, rfl⟩ | taken
  · exact .inl ⟨c, (ok.at_iff _ (.cached t c)).mp ⟨i, above, below, rfl⟩⟩
  · refine .inr (((ok.thread t).taken y.place).mpr ?_)
    change (s.thread t).point.taken = _
    rw [Point.taken_eq, taken]
    rfl

/-! ## What a step has in hand -/

/-- At the point every cache's count says what it holds. -/
def Point.Counted (p : Point) : Prop := ∀ c s, p.allocHeld c s = s.held

theorem Point.counted_of_plain {p : Point} {cls : Slot → Nat} (plain : p.view cls = View.plain) :
    p.Counted ∧ p.takenEntry = none := by
  have taken : p.taken = none := congrArg View.taken plain
  refine ⟨fun c s => congrFun (congrFun (congrArg View.alloc plain) c) s, ?_⟩
  rw [Point.taken_eq] at taken
  exact Option.map_eq_none_iff.mp taken

/-- A step that leaves the caches of free slots alone. -/
theorem Thread.Has.of_same (has : th'.Has y) (alloc : th'.cache.alloc = th.cache.alloc)
    (counted' : th'.point.Counted) (counted : th.point.Counted)
    (none : th'.point.takenEntry = none) : th.Has y := by
  rcases has with ⟨c, has⟩ | taken
  · refine .inl ⟨c, ?_⟩
    rw [counted'] at has
    rw [counted]
    rwa [alloc] at has
  · rw [none] at taken
    cases taken

section Popped

variable {w : Want} {swept first : Bool} {region : Nat} {es : List Entry}

theorem Thread.storePopped_nil (th : Thread) (w : Want) : th.storePopped w [] = th := by
  unfold Thread.storePopped
  split
  · have same : fillSlots (th.cache.alloc w.cls).slots [] = (th.cache.alloc w.cls).slots := rfl
    dsimp only
    rw [same]
    unfold ThreadCache.setAlloc
    rw [Function.update_eq_self]
  · rfl

theorem has_filled {slots : Nat → Entry}
    (has : Held.Has ⟨Thread.fillSlots slots es, 0, es.length⟩ y) : y ∈ es := by
  obtain ⟨i, -, below, rfl⟩ := has
  unfold Thread.fillSlots
  dsimp only
  rw [List.getElem?_eq_getElem below]
  exact List.getElem_mem below

/-- What `popRegion` took is in hand behind it, and nothing else that was not
before. -/
theorem has_popped (counted : th.point.Counted)
    (has : ((th.storePopped w es).goto (Thread.afterPop w swept first region es)).Has y) :
    th.Has y ∨ y ∈ es := by
  cases es with
  | nil =>
      rw [Thread.storePopped_nil] at has
      refine .inl (has.of_same rfl (fun c s => ?_) counted ?_)
      · unfold Thread.afterPop
        cases first <;> rfl
      · unfold Thread.afterPop
        cases first <;> rfl
  | cons z rest =>
      have point : (Thread.afterPop w swept first region (z :: rest)) =
          if first then Thread.popped w (rest.length + 1) z
          else .setActive w region (rest.length + 1) z := rfl
      cases cached : w.cached with
      | true =>
          have held (c : Nat) (s : SlotCache) :
              (Thread.afterPop w swept first region (z :: rest)).allocHeld c s =
                if w.cls = c then ⟨s.slots, 0, rest.length + 1⟩ else s.held := by
            rw [point]
            unfold Thread.popped
            cases first <;> simp [Point.allocHeld, cached]
          have taken : (Thread.afterPop w swept first region (z :: rest)).takenEntry = none := by
            rw [point]
            unfold Thread.popped
            cases first <;> simp [Point.takenEntry, cached]
          rcases has with ⟨c, has⟩ | none
          · rw [Thread.goto_point, held] at has
            by_cases same : w.cls = c
            · subst same
              refine .inr (@has_filled _ _ (th.cache.alloc w.cls).slots ?_)
              rw [if_pos rfl] at has
              unfold Thread.storePopped at has
              rw [if_pos cached] at has
              simpa [ThreadCache.setAlloc] using has
            · rw [if_neg same] at has
              unfold Thread.storePopped at has
              rw [if_pos cached] at has
              refine .inl (.inl ⟨c, ?_⟩)
              rw [counted]
              simpa [ThreadCache.setAlloc, Function.update_of_ne (Ne.symm same)] using has
          · rw [Thread.goto_point, taken] at none
            cases none
      | false =>
          have same : th.storePopped w (z :: rest) = th := by
            unfold Thread.storePopped
            rw [if_neg (by rw [cached]; exact Bool.false_ne_true)]
          have held (c : Nat) (s : SlotCache) :
              (Thread.afterPop w swept first region (z :: rest)).allocHeld c s = s.held := by
            rw [point]
            unfold Thread.popped
            cases first <;> simp [Point.allocHeld, cached]
          have taken : (Thread.afterPop w swept first region (z :: rest)).takenEntry = some z := by
            rw [point]
            unfold Thread.popped
            cases first <;> simp [Point.takenEntry, cached]
          rw [same] at has
          rcases has with ⟨c, has⟩ | some
          · rw [Thread.goto_point, held] at has
            refine .inl (.inl ⟨c, ?_⟩)
            rw [counted]
            exact has
          · rw [Thread.goto_point, taken] at some
            obtain rfl := Option.some.inj some
            exact .inr (List.mem_cons_self ..)

end Popped

/-! ## Every step -/

theorem reversal_counted (w : Want) (count i : Nat) :
    (Thread.reversal w count i).Counted ∧ (Thread.reversal w count i).takenEntry = none := by
  unfold Thread.reversal
  split <;> exact ⟨fun _ _ => rfl, rfl⟩

theorem drainFrom_counted (A : Arena) (c : Nat) (k : After) :
    (Thread.drainFrom A c k).Counted ∧ (Thread.drainFrom A c k).takenEntry = none := by
  unfold Thread.drainFrom
  split <;> exact ⟨fun _ _ => rfl, rfl⟩

/-- The points whose step changes what the thread has in hand. -/
def Point.Handles : Point → Prop
  | .popRegion _ _ _ _ | .setActive _ _ _ _ | .setCount _ _ | .swapLow _ _ | .swapHigh _ _ _
  | .takeTop _ | .addLive _ _ | .giveBack _ _ _ | .unlink => True
  | _ => False

/-- Any other step leaves the caches of free slots alone. -/
theorem step_counted (ok : PointOk A h.table th.cache th.point) (other : ¬ th.point.Handles)
    (taken : th.step A h a = some (h', th')) :
    th'.cache.alloc = th.cache.alloc ∧ th'.point.Counted ∧ th'.point.takenEntry = none := by
  have plain {p : Point} (held : ∀ cls, p.view cls = View.plain) :
      p.Counted ∧ p.takenEntry = none := Point.counted_of_plain (held fun _ => 0)
  have branch := branch_of_step taken
  generalize th.point = p at branch ok other
  cases branch with
  | goes next =>
      refine ⟨rfl, ?_⟩
      cases next with
      | sweepDrains => exact drainFrom_counted A 0 _
      | unwanted | lockTaken => exact plain (resume_plain _)
      | _ => exact ⟨fun _ _ => rfl, rfl⟩
  | popRegion | setActive | setCount | swapLow | swapHigh | takeTop | addLive | giveBack
  | giveBackEnds | unlink => exact absurd trivial other
  | shadowLive | hugeMade => exact ⟨rfl, plain (allocated_plain _)⟩
  | chooseCache =>
      refine ⟨?_, fun _ _ => rfl, rfl⟩
      rw [Thread.goto_cache, (cacheFor_spec th _ _).1]
  | shadowDead | credit =>
      refine ⟨rfl, ?_⟩
      dsimp only [Thread.goto_point]
      split_ifs <;> exact ⟨fun _ _ => rfl, rfl⟩
  | overBudget => exact ⟨rfl, plain (overBudget_spec A h _ _).2.1⟩
  | flushEnds =>
      refine ⟨rfl, ?_⟩
      rw [Thread.goto_point]
      split_ifs
      · exact ⟨fun _ _ => rfl, rfl⟩
      · exact plain (flushed_plain _ _)
  | flushGained => exact ⟨rfl, plain (flushed_plain _ _)⟩
  | @fold k => cases k <;> exact ⟨rfl, fun _ _ => rfl, rfl⟩
  | sweepUnlock => exact ⟨rfl, plain (resume_plain _)⟩
  | @resizeMoves old =>
      have starts := allocate_starts (A := A) th ok (Nat.two_pow_pos 64) (.move old) a.cacheMapped
      exact ⟨congrArg ThreadCache.alloc starts.cache, plain starts.view⟩
  | _ => exact ⟨rfl, fun _ _ => rfl, rfl⟩

theorem Point.counted_of_not_handles {p : Point} (other : ¬ p.Handles) : p.Counted := by
  cases p with
  | popRegion | setActive | setCount | swapLow | swapHigh | takeTop | addLive | giveBack
  | unlink => exact absurd trivial other
  | _ => exact fun _ _ => rfl

/-- A step to a point that reads the same parts of the caches. -/
theorem Thread.Has.of_goto {p : Point} (has : (th.goto p).Has y)
    (held : ∀ c s, p.allocHeld c s = th.point.allocHeld c s)
    (taken : p.takenEntry = some y → th.point.takenEntry = some y) : th.Has y := by
  rcases has with ⟨c, has⟩ | some
  · refine .inl ⟨c, ?_⟩
    rw [Thread.goto_point, held] at has
    exact has
  · exact .inr (taken some)

/-- A step that changes one class's cache of free slots to a counted one. -/
theorem Thread.Has.of_setAlloc {c : Nat} {own : SlotCache} {p : Point}
    (has : (Thread.goto { th with cache := th.cache.setAlloc c own } p).Has y)
    (others : ∀ c', c' ≠ c → ∀ s, p.allocHeld c' s = th.point.allocHeld c' s)
    (here : (p.allocHeld c own).Has y → th.Has y)
    (taken : p.takenEntry = some y → th.Has y) : th.Has y := by
  rcases has with ⟨c', has⟩ | some
  · rw [Thread.goto_point, Thread.goto_cache] at has
    unfold ThreadCache.setAlloc at has
    by_cases same : c' = c
    · subst same
      dsimp only at has
      rw [Function.update_self] at has
      exact here has
    · dsimp only at has
      rw [Function.update_of_ne same, others c' same] at has
      exact .inl ⟨c', has⟩
  · exact taken some

/-- One that leaves every cache counted and takes nothing. -/
theorem Thread.Has.of_recounted {c : Nat} {own : SlotCache} {p : Point}
    (has : (Thread.goto { th with cache := th.cache.setAlloc c own } p).Has y)
    (plain : p.Counted ∧ p.takenEntry = none)
    (others : ∀ c', c' ≠ c → ∀ s, th.point.allocHeld c' s = s.held)
    (here : own.held.Has y → th.Has y) : th.Has y := by
  obtain ⟨counted, none⟩ := plain
  refine has.of_setAlloc (fun c' other s => ?_) (fun listed => ?_) fun some => ?_
  · rw [counted, others c' other]
  · rw [counted] at listed
    exact here listed
  · rw [none] at some
    cases some

/-- What a counted cache lists is in hand. -/
theorem Thread.has_slot (counted : th.point.Counted) {c i : Nat}
    (below : i < (th.cache.alloc c).count) : th.Has ((th.cache.alloc c).slots i) := by
  refine .inl ⟨c, i, ?_⟩
  rw [counted]
  exact ⟨Nat.zero_le i, below, rfl⟩

/-- Two entries of a cache change places. -/
theorem has_swapLow {w : Want} {i : Nat} (point : th.point = .swapLow w i)
    (half : i < (th.cache.alloc w.cls).count / 2)
    (has : (Thread.goto
      { th with
        cache := th.cache.setAlloc w.cls
          { th.cache.alloc w.cls with
            slots := Function.update (th.cache.alloc w.cls).slots i
              ((th.cache.alloc w.cls).slots ((th.cache.alloc w.cls).count - 1 - i)) } }
      (.swapHigh w i ((th.cache.alloc w.cls).slots i))).Has y) : th.Has y := by
  have counted : th.point.Counted := by
    rw [point]
    exact fun _ _ => rfl
  refine has.of_setAlloc (fun c' other s => ?_) (fun here => ?_) nofun
  · rw [counted]
    exact if_neg (Ne.symm other)
  · unfold Point.allocHeld at here
    dsimp only at here
    rw [if_pos rfl] at here
    obtain ⟨j, -, below, rfl⟩ := here
    dsimp only at below ⊢
    -- the two entries that change places, or one of the others
    rcases eq_or_ne j ((th.cache.alloc w.cls).count - 1 - i) with rfl | notHigh
    · rw [Function.update_self]
      exact th.has_slot counted (by omega)
    · rw [Function.update_of_ne notHigh]
      rcases eq_or_ne j i with rfl | notLow
      · rw [Function.update_self]
        exact th.has_slot counted (by omega)
      · rw [Function.update_of_ne notLow]
        exact th.has_slot counted below

/-- What a thread has in hand after its step it had before, or has just
popped. -/
theorem step_has (ok : PointOk A h.table th.cache th.point)
    (taken : th.step A h a = some (h', th')) (has : th'.Has y) :
    th.Has y ∨ ∃ w swept first region, th.point = .popRegion w swept first region ∧
      y ∈ (popRegion A a.grant region (if w.cached then A.cacheLimit w.cls else 1)
        (h.table.region region) h.shadow).1 := by
  by_cases handles : th.point.Handles
  · have branch := branch_of_step taken
    generalize point : th.point = p at branch ok handles
    cases branch with
    | goes next => cases next <;> exact handles.elim
    | @popRegion w swept first region es R shadow popped =>
        have counted : th.point.Counted := by
          rw [point]
          exact fun _ _ => rfl
        refine (has_popped counted has).imp_right fun mem => ⟨w, swept, first, region, rfl, ?_⟩
        rw [popped]
        exact mem
    | @setActive w =>
        refine .inl (has.of_goto (fun c s => ?_) fun some => ?_)
        · rw [point]
          unfold Thread.popped
          cases cached : w.cached <;> simp [Point.allocHeld, cached]
        · rw [point]
          unfold Thread.popped at some
          cases cached : w.cached <;> simp_all [Point.takenEntry]
    | @setCount w | @swapHigh w =>
        refine .inl (has.of_recounted (reversal_counted _ _ _) (fun c' other s => ?_) fun here =>
          .inl ⟨w.cls, ?_⟩)
        · rw [point]
          exact if_neg (Ne.symm other)
        · rw [point]
          unfold Point.allocHeld
          dsimp only
          rw [if_pos rfl]
          exact here
    | swapLow => exact .inl (has_swapLow point ok.2.2 has)
    | takeTop =>
        have counted : th.point.Counted := by
          rw [point]
          exact fun _ _ => rfl
        refine .inl (has.of_setAlloc (fun c' other s => ?_) (fun here => ?_) fun taken => ?_)
        · rw [counted]
          rfl
        · obtain ⟨j, -, below, rfl⟩ := here
          exact th.has_slot counted (Nat.lt_of_lt_of_le below (Nat.sub_le _ _))
        · obtain rfl := Option.some.inj taken
          exact th.has_slot counted (Nat.sub_lt ok.2.2 Nat.zero_lt_one)
    | addLive =>
        refine .inl (has.of_goto (fun c s => ?_) fun some => ?_)
        · rw [point]
          rfl
        · rw [point]
          exact some
    | giveBack held =>
        rcases has with ⟨c', j, above, below, rfl⟩ | some
        · refine .inl (.inl ⟨c', j, ?_, ?_, ?_⟩)
          all_goals
            rw [point]
            rw [Thread.goto_point, Thread.goto_cache] at *
            unfold Point.allocHeld at *
            dsimp only at *
            split_ifs at * <;> simp_all [SlotCache.held]
          omega
        · cases some
    | @giveBackEnds c =>
        refine .inl (has.of_recounted (drainFrom_counted A _ _) (fun c' other s => ?_) fun here => ?_)
        · rw [point]
          exact if_neg (Ne.symm other)
        · obtain ⟨j, -, below, -⟩ := here
          exact absurd below (Nat.not_lt_zero j)
    | unlink =>
        rcases has with ⟨c, j, -, below, -⟩ | some
        · exact absurd below (Nat.not_lt_zero j)
        · cases some
    | _ => exact handles.elim
  · obtain ⟨alloc, counted, none⟩ := step_counted ok handles taken
    exact .inl (has.of_same alloc counted (Point.counted_of_not_handles handles) none)

theorem stepOf_has (ok : Partition A s place) (taken : s.stepOf A e = some (h', th'))
    (has : th'.Has y) :
    (s.thread e.thread).Has y ∨ ∃ w swept first region,
      (s.thread e.thread).point = .popRegion w swept first region ∧
        y ∈ (popRegion A e.answer.grant region (if w.cached then A.cacheLimit w.cls else 1)
          (s.heap.table.region region) s.heap.shadow).1 := by
  unfold State.stepOf at taken
  cases called : e.call with
  | none =>
      rw [called] at taken
      exact step_has (ok.point e.thread) taken has
  | some call =>
      rw [called] at taken
      dsimp only at taken
      split_ifs at taken with allowed
      obtain ⟨th'', started, eq⟩ := Option.map_eq_some_iff.mp taken
      obtain ⟨rfl, rfl⟩ := Prod.mk.inj eq
      left
      have counted : (s.thread e.thread).point.Counted := by
        rw [allowed.1]
        exact fun _ _ => rfl
      have started' {th'' : Thread} (starts : Starts A (s.thread e.thread) th'')
          (has : th''.Has y) : (s.thread e.thread).Has y := by
        obtain ⟨counted', none⟩ := Point.counted_of_plain (starts.view fun _ => 0)
        exact has.of_same (congrArg ThreadCache.alloc starts.cache) counted' counted none
      obtain ⟨-, typed⟩ := allowed
      unfold Thread.call at started
      cases call with
      | alloc size alignment =>
          obtain rfl := Option.some.inj started
          exact started' (allocate_starts _ typed.1 typed.2 _ _) has
      | free p =>
          obtain rfl := Option.some.inj started
          split_ifs at has
          · exact has
          · exact has.of_same rfl (fun _ _ => rfl) counted rfl
      | realloc p size =>
          obtain rfl := Option.some.inj started
          split_ifs at has
          · exact started' (allocate_starts _ typed.2 (Nat.two_pow_pos 64) _ _) has
          · exact has.of_same rfl (fun _ _ => rfl) counted rfl
      | exit =>
          dsimp only at started
          split_ifs at started
          obtain rfl := Option.some.inj started
          exact has.of_same rfl (fun _ _ => rfl) counted rfl

/-! ## Words never written -/

/-- An entry that says its slot was not used before comes from behind the
region's last slot. -/
theorem popRegion_unused (grant : Nat → Bool) (region want : Nat) (R : Region)
    (shadow : Runtime.Shadow) (mem : y ∈ (popRegion A grant region want R shadow).1)
    (unused : y.used = false) : R.bump ≤ y.slot := by
  induction want generalizing R shadow with
  | zero => exact absurd mem List.not_mem_nil
  | succ want inductionHypothesis =>
      have pops := popSlot_pops A grant region R shadow
      unfold popRegion at mem
      generalize popSlot A grant region R shadow = result at pops mem
      cases pops with
      | listed listed =>
          rcases List.mem_cons.mp mem with rfl | rest
          · cases unused
          · have behind := inductionHypothesis _ _ rest
            exact behind
      | nothing grant committed cause => exact absurd mem List.not_mem_nil
      | fresh grant committed metaCommitted room data =>
          rcases List.mem_cons.mp mem with rfl | rest
          · exact Nat.le_refl _
          · exact Nat.le_of_succ_le (inductionHypothesis _ _ rest)

/-- A sweep writes the words of released slots only. -/
theorem Region.recycle_word (R : Region) (all : Bool) {i : Nat}
    (other : (R.words i).state ≠ .dead) : (R.recycle all).1.words i = R.words i := by
  have slot (marks : Nat → Bool) (n : Nat) (r : Recycling) (other : (r.words i).state ≠ .dead) :
      (recycleSlot all marks n r).words i = r.words i := by
    unfold recycleSlot
    dsimp only
    split
    · rfl
    · rename_i queued
      have apart : i ≠ n := by
        rintro rfl
        exact queued (.inl other)
      split <;> exact Function.update_of_ne apart _ _
  have below (marks : Nat → Bool) (n : Nat) (r : Recycling) (other : (r.words i).state ≠ .dead) :
      (recycleBelow all marks n r).words i = r.words i := by
    induction n generalizing r with
    | zero => rfl
    | succ n inductionHypothesis =>
        have same := slot marks n r other
        unfold recycleBelow
        rw [inductionHypothesis _ (by rw [same]; exact other), same]
  unfold recycle
  split
  · rfl
  · split_ifs
    · rfl
    · exact below _ _ _ other

theorem Heap.sweepWorld_word (A : Arena) (h : Heap) (answer : Heap.WorldAnswer)
    (other : (h.table.word x).state ≠ .dead) :
    (h.sweepWorld A answer).2.table.word x = h.table.word x := by
  by_cases marks : h.Marks answer
  · have same := (markedBy_sameSlots A h answer).word x
    rw [sweepWorld_of_marks marks]
    change Table.word { (h.markedBy A answer).table with region := _ } x = _
    unfold Table.word
    dsimp only
    split
    · rw [Region.recycle_word]
      · exact same
      · intro dead
        exact other ((congrArg Word.state same).symm.trans dead)
    · exact same
  · rcases (sweepWorld_of_not_marks (A := A) marks).2 with eq | eq
    · rw [eq]
    · rw [eq]
      exact (prepared_sameSlots h answer).word x

section Step

variable [DecidableEq T]

/-- The word of a slot that is still handed out and not live stays unwritten. -/
theorem Partition.never_kept (ok' : Partition A s' place') (taken : s.step A e = some s')
    (never : (s.heap.table.word x).state = .never) (handed : (place' x).Handed) :
    (s'.heap.table.word x).state = .never := by
  have word := (Place.WordOk.handed handed).mp (ok'.table.word x)
  obtain ⟨h, th, found, rfl⟩ := State.step_eq_some taken
  dsimp only at word ⊢
  cases stepOf_effect found with
  | calm _ _ _ steady =>
      refine word.resolve_left fun free => ?_
      have before := (steady x.region).free x.index free
      exact absurd (never.symm.trans before) WordState.noConfusion
  | @returned c i k point held eq =>
      generalize ((s.thread e.thread).cache.alloc c).slots i = y at eq
      by_cases same : x = y.place
      · -- the slot is on its region's free list now
        obtain ⟨l, chain, mem⟩ := (ok'.table.region x.region).free
        have head : (h.table.region x.region).freeHead = x.index + 1 := by
          rw [eq, same]
          unfold Table.setRegion Entry.place
          dsimp only
          rw [Function.update_self]
          rfl
        dsimp only at chain mem
        rw [head] at chain
        have free : place' x = .free := by
          cases l with
          | nil => exact absurd chain (Nat.succ_ne_zero _)
          | cons i l =>
              obtain ⟨first, -⟩ := chain
              obtain rfl : x.index = i := Nat.succ.inj first
              exact (mem x.index).mp (List.mem_cons_self ..)
        rw [free] at handed
        exact handed.elim
      · rw [eq]
        change ((s.heap.table.setRegion _ _).word x).state = _
        rw [Table.word_giveBack, Table.word_setWord_of_ne same]
        exact never
  | @stored y size _ eq =>
      rw [eq] at word ⊢
      by_cases same : x = y
      · subst same
        dsimp only at word
        rw [Table.word_setWord] at word
        rcases word with free | never
        · cases free
        · cases never
      · dsimp only
        rw [Table.word_setWord_of_ne same]
        exact never
  | popped _ eq =>
      rw [eq]
      exact (congrArg Word.state (Table.word_popped _ _ _ _ _ x)).trans never
  | made _ eq | resized _ eq | released _ eq | inserted _ _ _ _ _ eq =>
      rw [eq]
      exact never
  | freed _ freed =>
      obtain ⟨-, -, -, -, -, -, -, -, -, table⟩ := hugeFree_eq freed
      rw [table]
      exact never
  | swept point _ _ =>
      rcases stepOf_world found point with ⟨-, rfl⟩ | ⟨-, rfl⟩
      · have same := Heap.sweepWorld_word A s.heap e.answer.world (x := x)
          (by rw [never]; exact WordState.noConfusion)
        exact (congrArg Word.state same).trans never
      · exact never

/-- Every entry in a thread's hands that says its slot was not used before is of
a slot whose word was never written. -/
def State.Clean (s : State T) : Prop :=
  ∀ t y, (s.thread t).Has y → y.used = false → (s.heap.table.word y.place).state = .never

omit [DecidableEq T] in
theorem clean_initial (A : Arena) (byte : Nat → UInt8) : (State.initial A byte : State T).Clean := by
  rintro t y (⟨c, i, -, below, -⟩ | taken)
  · exact absurd below (Nat.not_lt_zero i)
  · cases taken

theorem State.Clean.step (clean : s.Clean) (ok : Partition A s place) (ok' : Partition A s' place')
    (taken : s.step A e = some s') : s'.Clean := by
  intro t y has unused
  have handed : (place' y.place).Handed := by
    rcases ok'.place_of_has has with ⟨c, here⟩ | here
    · rw [here]
      trivial
    · rw [here]
      trivial
  refine ok'.never_kept taken ?_ handed
  obtain ⟨h, th, found, rfl⟩ := State.step_eq_some taken
  dsimp only at has
  by_cases self : t = e.thread
  · subst self
    rw [Function.update_self] at has
    rcases stepOf_has ok found has with before | ⟨w, swept, first, region, point, mem⟩
    · exact clean e.thread y before unused
    · have behind := popRegion_unused _ _ _ _ _ mem unused
      have regions := ok.table.region region
      have here : y.region = region :=
        (popRegion_spec (p := .taken e.thread) trivial _ region _ regions _).region y mem
      have fresh := (regions.fresh y.slot).mpr behind
      have word := ok.table.word ⟨region, y.slot⟩
      rw [fresh] at word
      unfold Entry.place
      rw [here]
      exact congrArg Word.state word
  · rw [Function.update_of_ne self] at has
    exact clean t y has unused

end Step

end WeaveC.Alloc
