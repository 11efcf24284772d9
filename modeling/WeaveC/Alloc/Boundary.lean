import WeaveC.Alloc.Unused

/-!
# The granule before a region

The granule before a region that has committed memory is poison, unless it is
the last one of a slot whose object reaches into it.
-/

namespace WeaveC.Alloc

open WeaveC.Runtime WeaveC.Library

variable {T : Type} {A : Arena} {h h' : Heap} {th th' : Thread} {s s' : State T} {e : Event T}
  {place : Slot → Place T}

/-! ## Steps that write a slot -/

/-- A step that takes a slot's word or its shadow to the other's state, or
neither. -/
inductive SlotStep (A : Arena) (s : State T) (t : T) (h' : Heap) (th' : Thread) : Prop
  | storeLive {w : Want} {x : Entry} (point : (s.thread t).point = .storeLive w x)
      (next : th'.point.stage = .handing x.place w.size)
      (eq : h' = { s.heap with table := s.heap.table.setWord x.place ⟨w.size, .live⟩ })
  | shadowLive {w : Want} {x : Entry} (point : (s.thread t).point = .shadowLive w x)
      (next : th'.point.stage = .none)
      (eq : h' = s.heap.shadowLive A x.place w.size (A.entry w.cls).size)
  | claim {x : Slot} {word : Word} (point : (s.thread t).point = .claim x word)
      (next : th'.point.stage = .dying x)
      (eq : h' = { s.heap with table := s.heap.table.setWord x Word.claimed })
  | chooseCache {x : Slot} (point : (s.thread t).point = .chooseCache x)
      (next : th'.point.stage = .dying x) (eq : h' = s.heap)
  | shadowDead {x : Slot} {cached : Bool} (point : (s.thread t).point = .shadowDead x cached)
      (next : th'.point.stage = .none) (eq : h' = s.heap.shadowDead A x)
  | resizeShadow {x : Slot} {size : Nat} (point : (s.thread t).point = .resizeShadow x size)
      (next : th'.point.stage = .resized x size)
      (eq : h' = s.heap.shadowLive A x size (s.heap.table.slotBytes x))
  | resizeWord {x : Slot} {size : Nat} (point : (s.thread t).point = .resizeWord x size)
      (next : th'.point.stage = .none)
      (eq : h' = { s.heap with table := s.heap.table.setWord x ⟨size, .live⟩ })
  | other (before : (s.thread t).point.stage.Plain) (after : th'.point.stage.Plain)
      (byte : ∀ j, ¬ A.Outside j → h'.shadow.byte j = s.heap.shadow.byte j ∨
        h'.shadow.byte j = ShadowValue.heapTail)
      (word : ∀ x, (s.heap.table.word x).state = .live → h'.table.word x = s.heap.table.word x)

/-- A live slot's word is left alone but by a release and a reallocation of
it. -/
theorem Sound.word_live (ok : Sound A s) (taken : s.stepOf A e = some (h', th')) {x : Slot}
    (live : (s.heap.table.word x).state = .live) :
    h'.table.word x = s.heap.table.word x ∨ (∃ w, (s.thread e.thread).point = .claim x w) ∨
      ∃ size, (s.thread e.thread).point = .resizeWord x size := by
  obtain ⟨place, partition⟩ := ok.places
  obtain ⟨place', moved⟩ := partition.moved taken
  have placed : place x = .live := (partition.table.live_iff x).mpr live
  rcases moved.live x placed with still | claiming
  · have live' := (moved.table.live_iff x).mp still
    cases stepOf_effect taken with
    | calm _ _ older _ | swept _ _ older => exact .inl ((older x.region).live x.index live')
    | returned _ _ eq =>
        rw [eq] at live' ⊢
        exact .inl ((Table.Older.giveBack _ _ _ x.region).live x.index live')
    | popped point eq =>
        rw [eq]
        exact .inl (Table.word_popped _ _ _ _ _ x)
    | @stored y size point eq =>
        rw [eq]
        by_cases same : x = y
        · subst same
          rcases point with ⟨w, slot, point, rfl, -⟩ | point
          · -- a slot about to be made live is not live
            have taken := ((partition.thread e.thread).taken slot.place).mpr
              (congrArg Point.taken point)
            rw [placed] at taken
            cases taken
          · exact .inr (.inr ⟨size, point⟩)
        · exact .inl (Table.word_setWord_of_ne same _ _)
    | made _ eq | resized _ eq | released _ eq | inserted _ _ _ _ _ eq =>
        rw [eq]
        exact .inl rfl
    | freed _ found =>
        obtain ⟨-, -, -, -, -, -, -, -, -, table⟩ := hugeFree_eq found
        rw [table]
        exact .inl rfl
  · exact .inr (.inl claiming)

/-- The point of a thread says which of the slot steps it takes. -/
theorem Sound.slotStep (pages : 16 ∣ A.page) (ok : Sound A s)
    (taken : s.stepOf A e = some (h', th')) : SlotStep A s e.thread h' th' := by
  have stage := stepOf_stage taken
  by_cases writes : (s.thread e.thread).point.Writes
  · have step := stepOf_inside taken (by
      intro idle
      rw [idle] at writes
      exact writes)
    unfold Thread.step at step
    cases point : (s.thread e.thread).point with
    | storeLive w x =>
        simp only [point] at step
        obtain ⟨rfl, rfl⟩ := Prod.mk.inj (Option.some.inj step)
        exact .storeLive point rfl rfl
    | shadowLive w x =>
        simp only [point] at step
        obtain ⟨rfl, rfl⟩ := Prod.mk.inj (Option.some.inj step)
        exact .shadowLive point (allocated_stage w.purpose) rfl
    | claim x word =>
        simp only [point] at step
        split_ifs at step
        obtain ⟨rfl, rfl⟩ := Prod.mk.inj (Option.some.inj step)
        exact .claim point rfl rfl
    | chooseCache x =>
        simp only [point] at step
        obtain ⟨rfl, rfl⟩ := Prod.mk.inj (Option.some.inj step)
        exact .chooseCache point rfl rfl
    | shadowDead x cached =>
        simp only [point] at step
        obtain ⟨rfl, rfl⟩ := Prod.mk.inj (Option.some.inj step)
        refine .shadowDead point ?_ rfl
        simp only [Thread.goto_point]
        split_ifs <;> rfl
    | resizeShadow x size =>
        simp only [point] at step
        obtain ⟨rfl, rfl⟩ := Prod.mk.inj (Option.some.inj step)
        exact .resizeShadow point rfl rfl
    | resizeWord x size =>
        simp only [point] at step
        obtain ⟨rfl, rfl⟩ := Prod.mk.inj (Option.some.inj step)
        exact .resizeWord point rfl rfl
    | _ =>
        rw [point] at writes
        exact writes.elim
  · have before := Point.stage_plain writes
    have not {p : Point} (point : (s.thread e.thread).point = p) (special : p.Writes) : False := by
      rw [point] at writes
      exact writes special
    refine .other before ?_ (fun j inside => ?_) fun x live => ?_
    · rcases stage with none | kept | ⟨alignment, asking, -⟩ | ⟨w, x, start, -⟩ |
        ⟨x, size, start, -⟩ | ⟨x, word, start, -⟩
      · rw [none]
        trivial
      · rw [kept]
        exact before
      · rw [asking]
        trivial
      · exact (not start trivial).elim
      · exact (not start trivial).elim
      · exact (not start trivial).elim
    · rcases ok.arena_frame pages (stepOf_effect taken) inside with same | tail | ⟨special, -⟩
      · exact .inl same
      · exact .inr tail
      · exact absurd special writes
    · rcases ok.word_live taken live with same | ⟨w, claiming⟩ | ⟨size, resizing⟩
      · exact same
      · exact (not claiming trivial).elim
      · exact (not resizing trivial).elim

theorem Sound.step_slotStep [DecidableEq T] (pages : 16 ∣ A.page) (ok : Sound A s)
    (taken : s.step A e = some s') :
    SlotStep A s e.thread s'.heap (s'.thread e.thread) ∧
      ∀ u, u ≠ e.thread → s'.thread u = s.thread u := by
  obtain ⟨h, th, found, rfl⟩ := State.step_eq_some taken
  dsimp only
  rw [Function.update_self]
  exact ⟨ok.slotStep pages found, fun u other => Function.update_of_ne other _ _⟩

/-! ## One thread for each slot -/

/-- The slot that a step takes from its owner. -/
def Point.takes : Point → Option Slot
  | .claim x _ | .resizeShadow x _ => some x
  | _ => none

/-- The slot an allocation has not handed out yet. -/
def Stage.handed : Stage → Option Slot
  | .handing x _ => some x
  | _ => Option.none

/-- A block is released or reallocated only after its allocation has returned,
and by no two threads at once. -/
def State.Alone (s : State T) (e : Event T) : Prop :=
  ∀ x ∈ (s.thread e.thread).point.takes, ∀ u, u ≠ e.thread →
    (s.thread u).point.resizing ≠ some x ∧ (s.thread u).point.stage.handed ≠ some x

instance [Fintype T] [DecidableEq T] (s : State T) (e : Event T) : Decidable (s.Alone e) :=
  inferInstanceAs (Decidable (∀ _ ∈ _, ∀ _, _ → _ ∧ _))

theorem State.Alone.noRace (alone : s.Alone e) : s.NoRace e := by
  intro x claiming u resizing
  cases point : (s.thread e.thread).point with
  | claim y word =>
      rw [point] at claiming
      by_cases self : u = e.thread
      · rw [self, point] at resizing
        cases resizing
      · have takes : x ∈ (s.thread e.thread).point.takes := by
          rw [point]
          exact claiming
        exact (alone x takes u self).1 resizing
  | _ =>
      rw [point] at claiming
      cases claiming

/-- Each slot is reallocated by one thread; a slot that is being handed out is
as its allocation left it. -/
structure OneEach (s : State T) : Prop where
  one : ∀ u v x a b, (s.thread u).point.stage = .resized x a →
    (s.thread v).point.stage = .resized x b → u = v
  handed : ∀ u x size, (s.thread u).point.stage = .handing x size →
    s.heap.table.word x = ⟨size, .live⟩ ∧ ∀ v b, (s.thread v).point.stage ≠ .resized x b

section Step

variable [DecidableEq T]

/-- A slot whose size a reallocation is about to store. -/
theorem SlotStep.resized (step : SlotStep A s e.thread s'.heap (s'.thread e.thread))
    (others : ∀ u, u ≠ e.thread → s'.thread u = s.thread u) {u : T} {x : Slot} {size : Nat}
    (here : (s'.thread u).point.stage = .resized x size) :
    u ≠ e.thread ∧ (s.thread u).point.stage = .resized x size ∨
      u = e.thread ∧ (s.thread e.thread).point = .resizeShadow x size := by
  by_cases self : u = e.thread
  · subst self
    right
    cases step with
    | storeLive _ next _ | shadowLive _ next _ | claim _ next _ | chooseCache _ next _
    | shadowDead _ next _ | resizeWord _ next _ =>
        rw [next] at here
        cases here
    | resizeShadow point next _ =>
        rw [next] at here
        obtain ⟨rfl, rfl⟩ := Stage.resized.inj here
        exact ⟨rfl, point⟩
    | other _ after _ _ =>
        rw [here] at after
        exact after.elim
  · rw [others u self] at here
    exact .inl ⟨self, here⟩

omit [DecidableEq T] in
theorem oneEach_initial (A : Arena) (byte : Nat → UInt8) : OneEach (State.initial A byte : State T) := by
  constructor
  · intro u v x a b here
    cases here
  · intro u x size here
    cases here

theorem OneEach.step (pages : 16 ∣ A.page) (ok : Sound A s) (each : OneEach s) (alone : s.Alone e)
    (taken : s.step A e = some s') : OneEach s' := by
  obtain ⟨step, others⟩ := ok.step_slotStep pages taken
  obtain ⟨place, partition⟩ := ok.places
  have earlier {v : T} {y : Slot} {b : Nat}
      (resized : (s'.thread v).point.stage = .resized y b) := step.resized others resized
  constructor
  · intro u v x a b here there
    rcases earlier here with ⟨other, before⟩ | ⟨self, point⟩
    · rcases earlier there with ⟨-, before'⟩ | ⟨-, point⟩
      · exact each.one u v x a b before before'
      · have takes : x ∈ (s.thread e.thread).point.takes := by
          rw [point]
          exact rfl
        exact absurd (Point.resizing_of_stage before) (alone x takes u other).1
    · rcases earlier there with ⟨other, before⟩ | ⟨self', -⟩
      · have takes : x ∈ (s.thread e.thread).point.takes := by
          rw [point]
          exact rfl
        exact absurd (Point.resizing_of_stage before) (alone x takes v other).1
      · exact self.trans self'.symm
  · intro u x size here
    by_cases self : u = e.thread
    · subst self
      cases step with
      | @storeLive w y point next eq =>
          rw [next] at here
          obtain ⟨rfl, rfl⟩ := Stage.handing.inj here
          refine ⟨by rw [eq]; exact Table.word_setWord _ _ _, fun v b resized => ?_⟩
          have placed := ((partition.thread e.thread).taken y.place).mpr
            (congrArg Point.taken point)
          rcases earlier resized with ⟨-, before⟩ | ⟨-, point'⟩
          · have live := (partition.resizing_spec (Point.resizing_of_stage before)).1
            rw [placed] at live
            cases live
          · rw [point] at point'
            cases point'
      | shadowLive _ next _ | claim _ next _ | chooseCache _ next _ | shadowDead _ next _
      | resizeShadow _ next _ | resizeWord _ next _ =>
          rw [next] at here
          cases here
      | other _ after _ _ =>
          rw [here] at after
          exact after.elim
    · rw [others u self] at here
      obtain ⟨word, alone'⟩ := each.handed u x size here
      have taking (takes : x ∈ (s.thread e.thread).point.takes) : False := by
        refine (alone x takes u self).2 ?_
        rw [here]
        rfl
      constructor
      · obtain ⟨h, th, found, rfl⟩ := State.step_eq_some taken
        rcases ok.word_live found (x := x) (by rw [word]) with same | ⟨w, claiming⟩ | ⟨b, resizing⟩
        · exact same.trans word
        · exact (taking (by rw [claiming]; exact rfl)).elim
        · exact absurd (congrArg Point.stage resizing) (alone' e.thread b)
      · intro v b resized
        rcases earlier resized with ⟨-, before⟩ | ⟨-, point⟩
        · exact alone' v b before
        · exact taking (by rw [point]; exact rfl)

end Step

/-! ## The last slot of a region -/

/-- The granule before a region. -/
def Arena.before (A : Arena) (r : Nat) : Nat := A.regionStart r / 16 - 1

/-- The slot ends where region `r` starts. -/
def Table.Last (A : Arena) (t : Table) (x : Slot) (r : Nat) : Prop :=
  x.region + 1 = r ∧ (x.index + 1) * t.slotBytes x = A.regionBytes

theorem Arena.regionStart_succ (A : Arena) (r : Nat) :
    A.regionStart (r + 1) = A.regionStart r + A.regionBytes := by
  rw [A.regionStart_eq, A.regionStart_eq, Nat.add_mul, Nat.one_mul]
  omega

namespace Partition

variable {x y : Slot} {r : Nat}

theorem last_end (last : s.heap.table.Last A x r) :
    s.heap.table.slotBase A x + s.heap.table.slotBytes x = A.regionStart r := by
  obtain ⟨rfl, whole⟩ := last
  rw [Nat.add_mul, Nat.one_mul] at whole
  unfold Table.slotBase
  rw [A.regionStart_succ]
  omega

theorem last_inSlot (ok : Partition A s place) (used : place x ≠ .fresh)
    (last : s.heap.table.Last A x r) : s.heap.table.InSlot A x (A.before r) := by
  obtain ⟨start, granules, -, -, -⟩ := ok.slot_inside used
  have end' := last_end last
  have some : s.heap.table.slotBytes x ≠ 0 := by
    intro none
    have whole := last.2
    rw [none, Nat.mul_zero] at whole
    have large := A.granules.2.2
    omega
  unfold Table.InSlot Arena.before
  omega

/-- Only the slot that ends there has the granule before a region. -/
theorem last_of_inSlot (ok : Partition A s place) (used : place x ≠ .fresh)
    (below : r < RegionCount) (here : s.heap.table.InSlot A x (A.before r)) :
    s.heap.table.Last A x r := by
  obtain ⟨start, granules, above, -, -⟩ := ok.slot_inside used
  have fits := ok.slot_fits used
  obtain ⟨room, granule, low, -, -⟩ := A.region_inside below
  obtain ⟨first, last⟩ := here
  have whole := A.granules.2.1
  have region : s.heap.table.slotBase A x =
      A.regionStart x.region + x.index * s.heap.table.slotBytes x := rfl
  unfold Arena.before at first last
  rw [Nat.add_mul, Nat.one_mul] at fits
  rcases Nat.lt_trichotomy (x.region + 1) r with before | same | after
  · have apart := A.regionStart_add_le before
    have next := A.regionStart_succ x.region
    have large := A.granules.2.2
    omega
  · refine ⟨same, ?_⟩
    subst same
    have next := A.regionStart_succ x.region
    rw [Nat.add_mul, Nat.one_mul]
    omega
  · have start' : A.regionStart r ≤ A.regionStart x.region := by
      rw [A.regionStart_eq, A.regionStart_eq]
      exact Nat.add_le_add_left (Nat.mul_le_mul_right _ (Nat.lt_succ_iff.mp after)) _
    omega

theorem last_unique (ok : Partition A s place) (used : place x ≠ .fresh) (used' : place y ≠ .fresh)
    (last : s.heap.table.Last A x r) (last' : s.heap.table.Last A y r) : x = y := by
  have end' := A.regionStart_succ y.region
  rw [last'.1] at end'
  have high := A.above
  refine ok.inSlot_unique used (ok.last_inSlot used last) (ok.last_inSlot used' last') ?_
  rw [← end']
  have start := A.granules.1
  have base : A.base ≤ A.regionStart r := by
    rw [A.regionStart_eq]
    omega
  unfold Arena.before
  omega

/-- The last granule of a slot that an object is made in: the object's, poison,
or too far behind the object to be written. -/
theorem shadowLive_last (ok : Partition A s place) (window : A.Window s.heap.shadow)
    (used : place x ≠ .fresh) {size slot : Nat} (whole : slot = s.heap.table.slotBytes x)
    (fits : size < slot) (last : s.heap.table.Last A x r) :
    s.heap.table.slotBytes x < size + 16 ∨
      (s.heap.shadowLive A x size slot).shadow.byte (A.before r) = ShadowValue.heapTail ∨
        usedBytes size + Shadow.tailLimit < s.heap.table.slotBytes x ∧
          (s.heap.shadowLive A x size slot).shadow.byte (A.before r) =
            s.heap.shadow.byte (A.before r) := by
  obtain ⟨start, granules, above, room, below⟩ := ok.slot_inside used
  have end' := last_end last
  subst whole
  have inside : ∀ b, s.heap.table.slotBase A x ≤ b →
      b ≤ s.heap.table.slotBase A x + max size (s.heap.table.slotBytes x) →
        s.heap.shadow.InWindow b := by
    intro b _ low
    exact window.inWindow (by omega)
  have byte := Shadow.live_byte window.ready A.pages (Nat.mod_eq_zero_of_dvd start) inside
    (Heap.colorOfHeap x) (A.before r)
  change (s.heap.shadowLive A x size (s.heap.table.slotBytes x)).shadow.byte (A.before r) = _
    at byte
  unfold Arena.before at byte ⊢
  by_cases reaches : s.heap.table.slotBytes x < size + 16
  · exact .inl reaches
  · right
    unfold usedBytes
    by_cases near : s.heap.table.slotBytes x ≤ (size + 15) / 16 * 16 + Shadow.tailLimit
    · left
      rw [byte, if_pos]
      unfold Shadow.tailLimit at near ⊢
      omega
    · refine .inr ⟨Nat.not_le.mp near, ?_⟩
      unfold Shadow.tailLimit at near byte
      rw [byte, if_neg (by omega), if_pos (by omega), Shadow.objectByte_none (by omega) (by omega)]
      rfl

end Partition

/-! ## The granule before a region -/

/-- The slot's object reaches the slot's last granule: the live one, the one a
reallocation has made, or the one of a release that has not written the shadow
yet. -/
def State.Occupied (s : State T) (x : Slot) : Prop :=
  (∃ u size, (s.thread u).point.stage = .resized x size ∧
    s.heap.table.slotBytes x < size + 16) ∨
  ((∀ u size, (s.thread u).point.stage ≠ .resized x size) ∧
    (s.heap.table.word x).state = .live ∧
      s.heap.table.slotBytes x < (s.heap.table.word x).value + 16) ∨
  ∃ u, (s.thread u).point.stage = .dying x

/-- The granule before region `r` belongs to an object. -/
def State.Owned (A : Arena) (s : State T) (r : Nat) : Prop :=
  ∃ x, s.heap.table.Last A x r ∧ s.Occupied x

def HeapPoison (v : UInt8) : Prop := v = ShadowValue.heapTail ∨ v = ShadowValue.heapFreed

/-- The granule before a region with committed memory. -/
def Fenced (A : Arena) (s : State T) : Prop :=
  ∀ r, 0 < (s.heap.table.region r).committed →
    HeapPoison (s.heap.shadow.byte (A.before r)) ∨ s.Owned A r

/-- What a reallocation in place is about. -/
def Point.resizes : Point → Option (Slot × Nat)
  | .resizeShadow x size => some (x, size)
  | _ => none

/-- No reallocation in place makes an object that reaches the end of its region
end more than 64 KiB before it. -/
def State.Short (A : Arena) (s : State T) (e : Event T) : Prop :=
  ∀ q ∈ (s.thread e.thread).point.resizes,
    (q.1.index + 1) * s.heap.table.slotBytes q.1 = A.regionBytes →
      s.heap.table.slotBytes q.1 < (s.heap.table.word q.1).value + 16 →
        s.heap.table.slotBytes q.1 ≤ usedBytes q.2 + Shadow.tailLimit

instance (A : Arena) (s : State T) (e : Event T) : Decidable (s.Short A e) :=
  inferInstanceAs (Decidable (∀ _ ∈ _, _))

theorem Partition.occupied_used (ok : Partition A s place) {x : Slot} (occupied : s.Occupied x) :
    place x ≠ .fresh := by
  rcases occupied with ⟨u, size, resized, -⟩ | ⟨-, live, -⟩ | ⟨u, dying⟩
  · exact ok.used_of_resizing (Point.resizing_of_stage resized)
  · exact ok.used_of_live live
  · exact ok.used_of_retiring (Point.retiring_of_stage dying)

/-- An object that the step is not about stays. -/
theorem State.Occupied.stays {x : Slot} {t : T} (occupied : s.Occupied x)
    (others : ∀ u, u ≠ t → s'.thread u = s.thread u)
    (resized : ∀ size, (s.thread t).point.stage ≠ .resized x size)
    (dying : (s.thread t).point.stage = .dying x → (s'.thread t).point.stage = .dying x)
    (resized' : ∀ size, (s'.thread t).point.stage ≠ .resized x size)
    (word : (s.heap.table.word x).state = .live →
      s'.heap.table.word x = s.heap.table.word x)
    (bytes : s'.heap.table.slotBytes x = s.heap.table.slotBytes x) : s'.Occupied x := by
  unfold State.Occupied
  rw [bytes]
  rcases occupied with ⟨u, size, here, reaches⟩ | ⟨none, live, reaches⟩ | ⟨u, here⟩
  · by_cases self : u = t
    · rw [self] at here
      exact absurd here (resized size)
    · exact .inl ⟨u, size, by rw [others u self]; exact here, reaches⟩
  · rw [word live]
    refine .inr (.inl ⟨fun u size here => ?_, live, reaches⟩)
    by_cases self : u = t
    · rw [self] at here
      exact resized' size here
    · rw [others u self] at here
      exact none u size here
  · refine .inr (.inr ⟨u, ?_⟩)
    by_cases self : u = t
    · rw [self] at here ⊢
      exact dying here
    · rw [others u self]
      exact here

section Step

variable {t : T} {r : Nat}

/-- An object in a slot that keeps its size ends where it did. -/
theorem State.Occupied.owned {x : Slot} (last : s.heap.table.Last A x r)
    (occupied : s'.Occupied x) (bytes : s'.heap.table.slotBytes x = s.heap.table.slotBytes x) :
    s'.Owned A r := by
  refine ⟨x, ⟨last.1, ?_⟩, occupied⟩
  rw [bytes]
  exact last.2

/-- A step that leaves the granule's byte alone, and every object but one. -/
theorem fenced_other (ok : Partition A s place) (grows : s.heap.table.Grows s'.heap.table)
    (others : ∀ u, u ≠ t → s'.thread u = s.thread u)
    (byte : s'.heap.shadow.byte (A.before r) = s.heap.shadow.byte (A.before r))
    (before : HeapPoison (s.heap.shadow.byte (A.before r)) ∨ s.Owned A r)
    (object : ∀ x, s.heap.table.Last A x r → s.Occupied x →
      (∀ size, (s.thread t).point.stage ≠ .resized x size) ∧
        ((s.thread t).point.stage = .dying x → (s'.thread t).point.stage = .dying x) ∧
          (∀ size, (s'.thread t).point.stage ≠ .resized x size) ∧
            ((s.heap.table.word x).state = .live →
              s'.heap.table.word x = s.heap.table.word x) ∨ s'.Occupied x) :
    HeapPoison (s'.heap.shadow.byte (A.before r)) ∨ s'.Owned A r := by
  rcases before with poison | ⟨x, last, occupied⟩
  · rw [byte]
    exact .inl poison
  · have bytes := grows.bytes_eq (ok.table.used (ok.occupied_used occupied))
    rcases object x last occupied with ⟨resized, dying, resized', word⟩ | occupied'
    · exact .inr ((occupied.stays others resized dying resized' word bytes).owned last bytes)
    · exact .inr (occupied'.owned last bytes)

/-- A slot whose shadow is written as a live one's. -/
theorem fenced_live (ok : Partition A s place) (window : A.Window s.heap.shadow)
    (grows : s.heap.table.Grows s'.heap.table) (below : r < RegionCount)
    (others : ∀ u, u ≠ t → s'.thread u = s.thread u) {x : Slot} (used : place x ≠ .fresh)
    {size slot : Nat} (whole : slot = s.heap.table.slotBytes x) (fits : size < slot)
    (eq : s'.heap = s.heap.shadowLive A x size slot)
    (plain : ∀ y, y ≠ x → (∀ size, (s.thread t).point.stage ≠ .resized y size) ∧
      (s.thread t).point.stage ≠ .dying y ∧ ∀ size, (s'.thread t).point.stage ≠ .resized y size)
    (reaches : s.heap.table.slotBytes x < size + 16 → s'.Occupied x)
    (far : s.heap.table.Last A x r → usedBytes size + Shadow.tailLimit < s.heap.table.slotBytes x →
      ¬ s.Occupied x)
    (before : HeapPoison (s.heap.shadow.byte (A.before r)) ∨ s.Owned A r) :
    HeapPoison (s'.heap.shadow.byte (A.before r)) ∨ s'.Owned A r := by
  by_cases own : s.heap.table.InSlot A x (A.before r)
  · have last := ok.last_of_inSlot used below own
    have bytes := grows.bytes_eq (ok.table.used used)
    rcases ok.shadowLive_last window used whole fits last with covers | tail | ⟨behind, same⟩
    · exact .inr ((reaches covers).owned last bytes)
    · rw [eq]
      exact .inl (.inl tail)
    · rw [eq, same]
      rcases before with poison | ⟨y, last', occupied⟩
      · exact .inl poison
      · have one := ok.last_unique used (ok.occupied_used occupied) last last'
        subst one
        exact absurd occupied (far last behind)
  · have same := ok.shadowLive_frame window used whole fits own
    rw [← eq] at same
    refine fenced_other ok grows others same before fun y last occupied => .inl ?_
    have other : y ≠ x := by
      rintro rfl
      exact own (ok.last_inSlot used last)
    obtain ⟨resized, dying, resized'⟩ := plain y other
    refine ⟨resized, fun here => absurd here dying, resized', fun _ => ?_⟩
    rw [eq]
    rfl

end Step

section Machine

variable [DecidableEq T]

theorem Fenced.step (pages : 16 ∣ A.page) (ok : Sound A s) (unused : Unused A s.heap)
    (each : OneEach s) (fenced : Fenced A s) (alone : s.Alone e) (whole : s.Whole A e)
    (short : s.Short A e) (taken : s.step A e = some s') : Fenced A s' := by
  obtain ⟨place, partition⟩ := ok.places
  obtain ⟨step, others⟩ := ok.step_slotStep pages taken
  have earlier {v : T} {y : Slot} {b : Nat}
      (resized : (s'.thread v).point.stage = .resized y b) := step.resized others resized
  obtain ⟨grows, commits⟩ : s.heap.table.Grows s'.heap.table ∧ ∀ r,
      (s'.heap.table.region r).committed = (s.heap.table.region r).committed ∨
        r < s.heap.table.regions ∧
          Poisoned A r (s.heap.table.region r) (s'.heap.table.region r) s'.heap.shadow := by
    obtain ⟨h, th, found, rfl⟩ := State.step_eq_some taken
    obtain ⟨place', moved⟩ := partition.moved found
    exact ⟨moved.grows, ok.commits whole (stepOf_effect found)⟩
  intro r some
  by_cases none : (s.heap.table.region r).committed = 0
  · rcases commits r with same | ⟨below, poisoned⟩
    · rw [same, none] at some
      exact absurd some (Nat.lt_irrefl 0)
    · have start := (A.region_inside (below.trans_le partition.table.count)).1
      refine .inl (.inl (poisoned.first none some _ ?_))
      unfold Arena.before
      omega
  have below : r < s.heap.table.regions := by
    by_contra spare
    exact none (unused.spare r (Nat.not_lt.mp spare))
  have count := below.trans_le partition.table.count
  have before := fenced r (Nat.pos_of_ne_zero none)
  have here := partition.point e.thread
  cases step with
  | @storeLive w y point next eq =>
      have taking := ((partition.thread e.thread).taken y.place).mpr (congrArg Point.taken point)
      refine fenced_other partition grows others (by rw [eq]) before fun x _ _ => .inl ⟨?_, ?_, ?_, ?_⟩
      · intro size resized
        rw [point] at resized
        cases resized
      · intro dying
        rw [point] at dying
        cases dying
      · intro size resized
        rw [next] at resized
        cases resized
      · intro live
        rw [eq]
        refine Table.word_setWord_of_ne ?_ _ _
        rintro rfl
        rw [(partition.table.live_iff _).mpr live] at taking
        cases taking
  | @shadowLive w y point next eq =>
      obtain ⟨-, used, bytes, fits⟩ := ok.handing_spec partition point
      obtain ⟨word, free⟩ := each.handed e.thread y.place w.size (congrArg Point.stage point)
      refine fenced_live partition ok.window grows count others used bytes (bytes ▸ fits) eq ?_ ?_ ?_
        before
      · intro x _
        rw [point, next]
        exact ⟨fun _ => Stage.noConfusion, Stage.noConfusion, fun _ => Stage.noConfusion⟩
      · intro covers
        refine .inr (.inl ⟨fun u size resized => ?_, ?_, ?_⟩)
        · rcases earlier resized with ⟨-, resized⟩ | ⟨-, resizing⟩
          · exact free u size resized
          · rw [point] at resizing
            cases resizing
        · rw [eq]
          exact congrArg Word.state word
        · rw [eq]
          change s.heap.table.slotBytes y.place < (s.heap.table.word y.place).value + 16
          rw [word]
          exact covers
      · rintro - behind (⟨u, size, resized, -⟩ | ⟨-, -, covers⟩ | ⟨u, dying⟩)
        · exact free u size resized
        · rw [word] at covers
          dsimp only at covers
          unfold usedBytes Shadow.tailLimit at behind
          omega
        · have claimed := (partition.retiring_spec (Point.retiring_of_stage dying)).2
          rw [word] at claimed
          exact absurd (congrArg Word.state claimed) WordState.noConfusion
  | @claim x₀ w point next eq =>
      refine fenced_other partition grows others (by rw [eq]) before fun x last _ => ?_
      by_cases same : x = x₀
      · exact .inr (.inr (.inr ⟨e.thread, same ▸ next⟩))
      · rw [point, next, eq]
        exact .inl ⟨fun _ => Stage.noConfusion, Stage.noConfusion, fun _ => Stage.noConfusion,
          fun _ => Table.word_setWord_of_ne same _ _⟩
  | @chooseCache x₀ point next eq =>
      refine fenced_other partition grows others (by rw [eq]) before fun x _ _ => .inl ?_
      rw [point, next, eq]
      exact ⟨fun _ => Stage.noConfusion, id, fun _ => Stage.noConfusion, fun _ => rfl⟩
  | @shadowDead x₀ cached point next eq =>
      have used := partition.used_of_retiring (congrArg Point.retiring point)
      classical
      have byte := partition.shadowDead_byte ok.window used (A.before r)
      by_cases own : s.heap.table.InSlot A x₀ (A.before r)
      · rw [if_pos own] at byte
        rw [eq]
        exact .inl (.inr byte)
      · rw [if_neg own] at byte
        refine fenced_other partition grows others (by rw [eq]; exact byte) before
          fun x last occupied => .inl ?_
        rw [point, next, eq]
        refine ⟨fun _ => Stage.noConfusion, fun dying => ?_, fun _ => Stage.noConfusion,
          fun _ => rfl⟩
        obtain rfl := Stage.dying.inj dying
        exact absurd (partition.last_inSlot used last) own
  | @resizeShadow x₀ size₀ point next eq =>
      rw [point] at here
      obtain ⟨placed, live⟩ := partition.resizing_spec (congrArg Point.resizing point)
      have used := partition.used_of_live live
      refine fenced_live partition ok.window grows count others used rfl here eq ?_ ?_ ?_ before
      · intro x other
        rw [point, next]
        refine ⟨fun _ => Stage.noConfusion, Stage.noConfusion, fun size resized => ?_⟩
        exact other (Stage.resized.inj resized).1.symm
      · intro covers
        refine .inl ⟨e.thread, size₀, next, ?_⟩
        rw [eq]
        exact covers
      · rintro last behind (⟨u, size, resized, -⟩ | ⟨-, -, covers⟩ | ⟨u, dying⟩)
        · have other : u ≠ e.thread := by
            rintro rfl
            rw [point] at resized
            cases resized
          have takes : x₀ ∈ (s.thread e.thread).point.takes := by
            rw [point]
            exact rfl
          exact (alone x₀ takes u other).1 (Point.resizing_of_stage resized)
        · have resizes : (x₀, size₀) ∈ (s.thread e.thread).point.resizes := by
            rw [point]
            exact rfl
          exact absurd behind (Nat.not_lt.mpr (short _ resizes last.2 covers))
        · have claimed := (partition.retiring_spec (Point.retiring_of_stage dying)).1
          rw [placed] at claimed
          cases claimed
  | @resizeWord x₀ size₀ point next eq =>
      have placed := (partition.resizing_spec (congrArg Point.resizing point)).1
      have stage := congrArg Point.stage point
      refine fenced_other partition grows others (by rw [eq]) before fun x last occupied => ?_
      by_cases same : x = x₀
      · subst same
        have covers : s.heap.table.slotBytes x < size₀ + 16 := by
          rcases occupied with ⟨u, size, resized, covers⟩ | ⟨free, -, -⟩ | ⟨u, dying⟩
          · have self := each.one u e.thread x size size₀ resized stage
            rw [self, stage] at resized
            rw [(Stage.resized.inj resized).2]
            exact covers
          · exact absurd stage (free e.thread size₀)
          · have claimed := (partition.retiring_spec (Point.retiring_of_stage dying)).1
            rw [placed] at claimed
            cases claimed
        have word : s'.heap.table.word x = ⟨size₀, .live⟩ := by
          rw [eq]
          exact Table.word_setWord _ _ _
        have bytes := grows.bytes_eq (partition.table.used (partition.occupied_used occupied))
        refine .inr (.inr (.inl ⟨fun u size resized => ?_, by rw [word], by rw [word, bytes]; exact covers⟩))
        rcases earlier resized with ⟨other, resized⟩ | ⟨-, resizing⟩
        · exact other (each.one u e.thread x size size₀ resized stage)
        · rw [point] at resizing
          cases resizing
      · rw [point, next, eq]
        refine .inl ⟨fun size resized => ?_, Stage.noConfusion, fun _ => Stage.noConfusion,
          fun _ => Table.word_setWord_of_ne same _ _⟩
        exact same (Stage.resized.inj resized).1.symm
  | other plain plain' byte word =>
      obtain ⟨room, granule, above, low, -⟩ := A.region_inside count
      have inside : ¬ A.Outside (A.before r) := by
        have high := A.above
        have base := A.granules.1
        unfold Arena.Outside Arena.before
        omega
      rcases byte _ inside with same | tail
      · refine fenced_other partition grows others same before fun x _ _ => .inl ⟨?_, ?_, ?_, word x⟩
        · intro size resized
          rw [resized] at plain
          exact plain
        · intro dying
          rw [dying] at plain
          exact plain.elim
        · intro size resized
          rw [resized] at plain'
          exact plain'
      · exact .inl (.inl tail)

end Machine

end WeaveC.Alloc
