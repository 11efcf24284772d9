import WeaveC.Alloc.Branches
import WeaveC.Alloc.Slots

/-!
# The caches in use

The list of caches holds each cache once, and a cache that is being refilled
counts no slot until the refill stores its count.
-/

namespace WeaveC.Alloc

open WeaveC.Library

variable {A : Arena} {h h' : Heap} {th th' : Thread}

/-! ## Refills -/

/-- The class of the own cache that a refill has filled but not counted. -/
def Point.refills : Point → Option Nat
  | .setActive w _ _ _ => if w.cached then some w.cls else none
  | .setCount w _ => some w.cls
  | _ => none

/-- A cache that is being refilled counts nothing yet. -/
def Thread.Uncounted (th : Thread) : Prop :=
  ∀ c, th.point.refills = some c → (th.cache.alloc c).count = 0

theorem Thread.uncounted_of_none (none : th.point.refills = none) : th.Uncounted := by
  intro c refills
  rw [none] at refills
  cases refills

theorem popped_uncounted {w : Want} {got : Nat} {e : Entry}
    (empty : w.Empty th.cache) : (th.goto (Thread.popped w got e)).Uncounted := by
  intro c refills
  unfold Thread.goto Thread.popped at refills
  dsimp only at refills
  split_ifs at refills with cached
  · obtain rfl := Option.some.inj refills
    exact empty cached
  · cases refills

theorem allocate_refills (th : Thread) (size alignment : Nat) (purpose : Purpose) (mapped : Bool) :
    (th.allocate A size alignment purpose mapped).point.refills = none := by
  unfold Thread.allocate
  dsimp only
  split_ifs <;> rfl

theorem reversal_refills (w : Want) (count i : Nat) :
    (Thread.reversal w count i).refills = none := by
  unfold Thread.reversal
  split_ifs <;> rfl

theorem resume_refills (k : Then) : (Thread.resume k).refills = none := by
  cases k <;> rfl

theorem drainFrom_refills (A : Arena) (c : Nat) (k : After) :
    (Thread.drainFrom A c k).refills = none := by
  unfold Thread.drainFrom
  split_ifs <;> rfl

theorem overBudget_refills (A : Arena) (h : Heap) (now : BitVec 64) (r : Reading) :
    (Thread.overBudget A h now r).2.refills = none := by
  cases r with
  | budgets | ended =>
      dsimp only [Thread.overBudget]
      split_ifs <;> rfl
  | _ => rfl

theorem storePopped_empty {w : Want} {es : List Entry} (empty : w.Empty th.cache) :
    w.Empty (th.storePopped w es).cache := by
  intro cached
  unfold Thread.storePopped
  rw [if_pos cached]
  simpa [ThreadCache.setAlloc] using empty cached

theorem step_uncounted {a : Answer} (here : PointOk A h.table th.cache th.point)
    (before : th.Uncounted) (taken : th.step A h a = some (h', th')) : th'.Uncounted := by
  have branch := branch_of_step taken
  generalize point : th.point = p at branch here
  cases branch with
  | goes next =>
      refine Thread.uncounted_of_none ?_
      cases next with
      | sweepDrains => exact drainFrom_refills A _ _
      | unwanted | lockTaken => exact resume_refills _
      | _ => rfl
  | @popRegion w swept first region es =>
      have empty : w.Empty (th.storePopped w es).cache := storePopped_empty here.2.1
      unfold Thread.afterPop
      cases es with
      | nil =>
          refine Thread.uncounted_of_none ?_
          rw [Thread.goto_point]
          dsimp only
          split_ifs <;> rfl
      | cons e es =>
          dsimp only
          split_ifs
          · exact popped_uncounted empty
          · intro c refills
            unfold Thread.goto Point.refills at refills
            dsimp only at refills
            split_ifs at refills with cached
            obtain rfl := Option.some.inj refills
            exact empty cached
  | @setActive w =>
      refine popped_uncounted fun cached => before w.cls ?_
      rw [point]
      exact if_pos cached
  | setCount | swapHigh => exact Thread.uncounted_of_none (reversal_refills _ _ _)
  | overBudget => exact Thread.uncounted_of_none (overBudget_refills A h _ _)
  | giveBackEnds => exact Thread.uncounted_of_none (drainFrom_refills A _ _)
  | sweepUnlock => exact Thread.uncounted_of_none (resume_refills _)
  | resizeMoves => exact Thread.uncounted_of_none (allocate_refills _ _ _ _ _)
  | @hugeMade _ _ _ purpose =>
      refine Thread.uncounted_of_none ?_
      cases purpose <;> rfl
  | @shadowLive w =>
      refine Thread.uncounted_of_none ?_
      rw [Thread.goto_point]
      cases w.purpose <;> rfl
  | @flushEnds _ _ _ k =>
      refine Thread.uncounted_of_none ?_
      rw [Thread.goto_point]
      split_ifs
      · rfl
      · cases k <;> rfl
  | @flushGained _ _ k | @fold k =>
      refine Thread.uncounted_of_none ?_
      cases k <;> rfl
  | credit | shadowDead =>
      refine Thread.uncounted_of_none ?_
      dsimp only [Thread.goto]
      split_ifs <;> rfl
  | _ => exact Thread.uncounted_of_none rfl

/-! ## The list of caches -/

theorem cacheFor_key (th : Thread) (c : Nat) (mapped : Bool) :
    (th.cacheFor A c mapped).2.key = th.key ∨ th.key = .none := by
  unfold Thread.cacheFor
  by_cases served : c < A.cachedClasses
  · rw [if_pos served]
    cases key : th.key with
    | none => exact .inr rfl
    | own | gone => exact .inl key
  · rw [if_neg served]
    exact .inl rfl

theorem allocate_key (th : Thread) (size alignment : Nat) (purpose : Purpose) (mapped : Bool) :
    (th.allocate A size alignment purpose mapped).key = th.key ∨ th.key = .none := by
  have key := cacheFor_key (A := A) th (requestClass size alignment) mapped
  unfold Thread.allocate
  dsimp only
  split_ifs
  · exact .inl rfl
  · exact key
  · exact key
  · exact key
  · exact .inl rfl

/-- A thread makes its cache once. -/
theorem step_key {a : Answer} (taken : th.step A h a = some (h', th')) :
    th'.key = th.key ∨ th.key = .none := by
  unfold Thread.step at taken
  cases point : th.point with
  | idle => simp [point] at taken
  | popRegion w swept first region =>
      simp only [point] at taken
      obtain ⟨-, rfl⟩ := Prod.mk.inj (Option.some.inj taken)
      left
      unfold Thread.storePopped
      split_ifs <;> rfl
  | spare w swept =>
      simp only [point] at taken
      split at taken
      · obtain ⟨-, rfl⟩ := Prod.mk.inj (Option.some.inj taken)
        exact .inl rfl
      · split_ifs at taken
        all_goals
          obtain ⟨-, rfl⟩ := Prod.mk.inj (Option.some.inj taken)
          exact .inl rfl
  | huge size alignment purpose =>
      simp only [point] at taken
      unfold Thread.hugeAlloc at taken
      split at taken
      · split_ifs at taken
        all_goals
          obtain ⟨-, rfl⟩ := Prod.mk.inj (Option.some.inj taken)
          exact .inl rfl
      · obtain ⟨-, rfl⟩ := Prod.mk.inj (Option.some.inj taken)
        exact .inl rfl
  | release p =>
      simp only [point] at taken
      unfold Thread.release at taken
      split at taken
      · dsimp only at taken
        split_ifs at taken
        obtain ⟨-, rfl⟩ := Prod.mk.inj (Option.some.inj taken)
        exact .inl rfl
      · split at taken
        · obtain ⟨-, rfl⟩ := Prod.mk.inj (Option.some.inj taken)
          exact .inl rfl
        · split_ifs at taken
          obtain ⟨-, rfl⟩ := Prod.mk.inj (Option.some.inj taken)
          exact .inl rfl
  | resize p size =>
      simp only [point] at taken
      unfold Thread.resize at taken
      split at taken
      · dsimp only at taken
        split_ifs at taken
        · obtain ⟨-, rfl⟩ := Prod.mk.inj (Option.some.inj taken)
          exact .inl rfl
        · obtain ⟨-, rfl⟩ := Prod.mk.inj (Option.some.inj taken)
          exact allocate_key _ _ _ _ _
      · split at taken
        · split_ifs at taken
          obtain ⟨-, rfl⟩ := Prod.mk.inj (Option.some.inj taken)
          exact allocate_key _ _ _ _ _
        · obtain ⟨-, rfl⟩ := Prod.mk.inj (Option.some.inj taken)
          exact .inl rfl
  | chooseCache x =>
      simp only [point] at taken
      obtain ⟨-, rfl⟩ := Prod.mk.inj (Option.some.inj taken)
      exact cacheFor_key _ _ _
  | popGained | push | claim | world | flush | giveBack | trySweepLock =>
      simp only [point] at taken
      split_ifs at taken
      all_goals
        obtain ⟨-, rfl⟩ := Prod.mk.inj (Option.some.inj taken)
        exact .inl rfl
  | _ =>
      simp only [point] at taken
      obtain ⟨-, rfl⟩ := Prod.mk.inj (Option.some.inj taken)
      exact .inl rfl

theorem call_starts {call : Call} {mapped : Bool} (idle : th.point = .idle)
    (started : th.call A mapped call = some th') :
    th'.point.refills = none ∧ (th'.key = .none → th.key = .none) := by
  have key (kept : th'.key = th.key ∨ th.key = .none) : th'.key = .none → th.key = .none :=
    fun none => kept.elim (fun same => same ▸ none) id
  cases call with
  | alloc size alignment =>
      obtain rfl := Option.some.inj started
      exact ⟨allocate_refills _ _ _ _ _, key (allocate_key _ _ _ _ _)⟩
  | free p =>
      obtain rfl := Option.some.inj started
      split_ifs
      · exact ⟨by rw [idle]; rfl, id⟩
      · exact ⟨rfl, id⟩
  | realloc p size =>
      obtain rfl := Option.some.inj started
      split_ifs at key ⊢
      · exact ⟨allocate_refills _ _ _ _ _, key (allocate_key _ _ _ _ _)⟩
      · exact ⟨rfl, id⟩
  | exit =>
      unfold Thread.call at started
      split_ifs at started
      obtain rfl := Option.some.inj started
      exact ⟨rfl, fun gone => absurd gone (by simp)⟩

section Machine

variable {T : Type} {place : Slot → Place T} {s s' : State T} {e : Event T}

/-- The list of caches holds each once, and no cache that is being refilled
counts its slots. -/
structure State.Linked (s : State T) : Prop where
  nodup : s.caches.Nodup
  made : ∀ t ∈ s.caches, (s.thread t).key ≠ .none
  uncounted : ∀ t, (s.thread t).Uncounted

theorem State.linked_initial (A : Arena) (byte : Nat → UInt8) :
    (State.initial A byte : State T).Linked :=
  ⟨List.nodup_nil, by simp [State.initial], fun _ => Thread.uncounted_of_none rfl⟩

theorem stepOf_linked (ok : Partition A s place) (before : (s.thread e.thread).Uncounted)
    (taken : s.stepOf A e = some (h', th')) :
    th'.Uncounted ∧ (th'.key = .none → (s.thread e.thread).key = .none) := by
  unfold State.stepOf at taken
  cases called : e.call with
  | none =>
      rw [called] at taken
      refine ⟨step_uncounted (ok.point _) before taken, fun none => ?_⟩
      exact (step_key taken).elim (fun same => same ▸ none) id
  | some call =>
      rw [called] at taken
      dsimp only at taken
      split_ifs at taken with allowed
      obtain ⟨th'', started, eq⟩ := Option.map_eq_some_iff.mp taken
      obtain ⟨-, rfl⟩ := Prod.mk.inj eq
      obtain ⟨none, key⟩ := call_starts allowed.1 started
      exact ⟨Thread.uncounted_of_none none, key⟩

variable [DecidableEq T]

theorem State.Linked.step (linked : s.Linked) (ok : Partition A s place)
    (taken : s.step A e = some s') : s'.Linked := by
  obtain ⟨h, th, found, rfl⟩ := State.step_eq_some taken
  obtain ⟨uncounted, key⟩ := stepOf_linked ok (linked.uncounted _) found
  have made (t : T) (mem : t ∈ s.caches) :
      (Function.update s.thread e.thread th t).key ≠ .none := by
    by_cases self : t = e.thread
    · subst self
      rw [Function.update_self]
      exact fun none => linked.made _ mem (key none)
    · rw [Function.update_of_ne self]
      exact linked.made t mem
  refine ⟨?_, ?_, fun t => ?_⟩
  · change (s.linked e.thread th).Nodup
    unfold State.linked
    split_ifs with makes drops
    · exact List.nodup_cons.mpr ⟨fun mem => linked.made _ mem makes.1, linked.nodup⟩
    · exact linked.nodup.erase _
    · exact linked.nodup
  · intro t mem
    change t ∈ s.linked e.thread th at mem
    unfold State.linked at mem
    split_ifs at mem with makes drops
    · rcases List.mem_cons.mp mem with rfl | mem
      · change (Function.update s.thread e.thread th e.thread).key ≠ .none
        rw [Function.update_self, makes.2]
        simp
      · exact made t mem
    · exact made t (List.mem_of_mem_erase mem)
    · exact made t mem
  · change (Function.update s.thread e.thread th t).Uncounted
    by_cases self : t = e.thread
    · subst self
      rw [Function.update_self]
      exact uncounted
    · rw [Function.update_of_ne self]
      exact linked.uncounted t

theorem linked_run {byte : Nat → UInt8}
    (run : Run (State.step A) State.NoRace (.initial A byte) s) :
    s.Linked ∧ ∃ place, Partition A s place :=
  run.invariant (I := fun s => s.Linked ∧ ∃ place, Partition A s place)
    ⟨State.linked_initial A byte, _, partition_initial A byte⟩
    fun _ _ _ ⟨linked, _, ok⟩ quiet taken => ⟨linked.step ok taken, ok.step quiet taken⟩

end Machine

end WeaveC.Alloc
