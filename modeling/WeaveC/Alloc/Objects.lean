import WeaveC.Alloc.UserRuns

/-!
# Live objects

An object is settled once its allocation has returned, until its release or a
reallocation of it.  After each step every object is one from before whose
granules the step does not make, or the one that it has just made.
-/

namespace WeaveC.Alloc

open WeaveC.Runtime WeaveC.Library

variable {T : Type} {A : Arena} {h' : Heap} {th' : Thread} {s s' : State T} {e : Event T}
  {place : Slot → Place T} {x : Slot} {size : Nat}

/-- The slot whose shadow is about to be written or has been for a word that is
still to be stored. -/
def Stage.object : Stage → Option Slot
  | .handing x _ | .resized x _ => some x
  | _ => Option.none

/-- The slot's object is live, its allocation has returned, and no reallocation
in place of it is between its two stores. -/
def State.Object (s : State T) (x : Slot) : Prop :=
  (s.heap.table.word x).state = .live ∧ ∀ t, (s.thread t).point.stage.object ≠ some x

instance [Fintype T] (s : State T) (x : Slot) : Decidable (s.Object x) :=
  inferInstanceAs (Decidable (_ ∧ ∀ _, _ ≠ _))

/-- The slot's object has that size: a settled one, or the one that a
reallocation in place has made. -/
def State.Sized (s : State T) (x : Slot) (size : Nat) : Prop :=
  s.Object x ∧ (s.heap.table.word x).value = size ∨
    ∃ t, (s.thread t).point.stage = .resized x size

theorem not_sized_initial (A : Arena) (byte : Nat → UInt8) (x : Slot) (size : Nat) :
    ¬ (State.initial A byte : State T).Sized x size := by
  rintro (⟨⟨live, -⟩, -⟩ | ⟨t, resized⟩)
  · have untouched : ((Table.initial A).word x).state = .never := word_initial A x
    exact absurd (untouched.symm.trans live) WordState.noConfusion
  · cases resized

/-! ## The points at which an object is made -/

theorem Point.eq_of_handing {p : Point} (here : p.stage = .handing x size) :
    ∃ w y, p = .shadowLive w y ∧ y.place = x ∧ w.size = size := by
  by_cases writes : p.Writes
  · cases p with
    | shadowLive w y =>
        obtain ⟨rfl, rfl⟩ := Stage.handing.inj here
        exact ⟨w, y, rfl, rfl, rfl⟩
    | storeLive | claim | chooseCache | shadowDead | resizeShadow | resizeWord => cases here
    | _ => exact writes.elim
  · have plain := Point.stage_plain writes
    rw [here] at plain
    exact plain.elim

theorem Point.eq_of_resized {p : Point} (here : p.stage = .resized x size) :
    p = .resizeWord x size := by
  by_cases writes : p.Writes
  · cases p with
    | resizeWord y size' =>
        obtain ⟨rfl, rfl⟩ := Stage.resized.inj here
        rfl
    | storeLive | shadowLive | claim | chooseCache | shadowDead | resizeShadow => cases here
    | _ => exact writes.elim
  · have plain := Point.stage_plain writes
    rw [here] at plain
    exact plain.elim

theorem stepOf_storeLive_stage {w : Want} {z : Entry} (taken : s.stepOf A e = some (h', th'))
    (point : (s.thread e.thread).point = .storeLive w z) :
    th'.point.stage = .handing z.place w.size := by
  have taken := stepOf_inside taken (by rw [point]; exact Point.noConfusion)
  unfold Thread.step at taken
  simp only [point] at taken
  obtain ⟨-, rfl⟩ := Prod.mk.inj (Option.some.inj taken)
  rfl

theorem stepOf_resizeWord (taken : s.stepOf A e = some (h', th'))
    (point : (s.thread e.thread).point = .resizeWord x size) :
    h'.table.word x = ⟨size, .live⟩ := by
  have taken := stepOf_inside taken (by rw [point]; exact Point.noConfusion)
  unfold Thread.step at taken
  simp only [point] at taken
  obtain ⟨rfl, -⟩ := Prod.mk.inj (Option.some.inj taken)
  exact Table.word_setWord _ _ _

theorem stepOf_shadowLive {w : Want} {z : Entry} (taken : s.stepOf A e = some (h', th'))
    (point : (s.thread e.thread).point = .shadowLive w z) :
    h' = s.heap.shadowLive A z.place w.size (A.entry w.cls).size := by
  have taken := stepOf_inside taken (by rw [point]; exact Point.noConfusion)
  unfold Thread.step at taken
  simp only [point] at taken
  obtain ⟨rfl, -⟩ := Prod.mk.inj (Option.some.inj taken)
  rfl

/-! ## Every step -/

/-- The step neither makes nor reallocates an object in the slot. -/
structure State.Leaves (s : State T) (t : T) (x : Slot) : Prop where
  made : ∀ w y, (s.thread t).point = .shadowLive w y → y.place ≠ x
  resized : ∀ size, (s.thread t).point ≠ .resizeShadow x size

theorem State.Sized.live (sized : s.Sized x size) (partition : Partition A s place) :
    (s.heap.table.word x).state = .live := by
  rcases sized with ⟨object, -⟩ | ⟨t, resized⟩
  · exact object.1
  · exact (partition.resizing_spec (Point.resizing_of_stage resized)).2

theorem State.Sized.fits (sized : s.Sized x size) (partition : Partition A s place)
    (fits : s.Fits) : size < s.heap.table.slotBytes x := by
  rcases sized with ⟨object, rfl⟩ | ⟨t, resized⟩
  · exact fits x object.1
  · have small := partition.point t
    rw [Point.eq_of_resized resized] at small
    exact small

/-- A slot that was handed out stays as large as it is. -/
theorem Partition.step_slotBytes [DecidableEq T] (ok : Partition A s place)
    (taken : s.step A e = some s') (used : place x ≠ .fresh) :
    s'.heap.table.slotBytes x = s.heap.table.slotBytes x := by
  obtain ⟨h, th, found, rfl⟩ := State.step_eq_some taken
  obtain ⟨place', moved⟩ := ok.moved found
  exact moved.grows.bytes_eq (ok.table.used used)

/-- A slot that was handed out stays where it is. -/
theorem Partition.step_slotBase [DecidableEq T] (ok : Partition A s place)
    (taken : s.step A e = some s') (used : place x ≠ .fresh) :
    s'.heap.table.slotBase A x = s.heap.table.slotBase A x := by
  unfold Table.slotBase
  rw [ok.step_slotBytes taken used]

/-- An object after a step is one from before, or the one the step makes. -/
theorem Sound.sized_step [DecidableEq T] (pages : 16 ∣ A.page) (ok : Sound A s) (each : OneEach s)
    (partition : Partition A s place) (alone : s.Alone e) (taken : s.step A e = some s')
    (sized : s'.Sized x size) :
    s.Sized x size ∧ s.Leaves e.thread x ∨
      place x ≠ .fresh ∧ size < s.heap.table.slotBytes x ∧
        s'.heap = s.heap.shadowLive A x size (s.heap.table.slotBytes x) := by
  obtain ⟨step, others⟩ := ok.step_slotStep pages taken
  obtain ⟨h, th, found, rfl⟩ := State.step_eq_some taken
  rcases sized with ⟨⟨live, settled⟩, value⟩ | ⟨t, stage⟩
  · have own := settled e.thread
    dsimp only at live own value ⊢
    rw [Function.update_self] at own
    by_cases resizing : ∃ size, (s.thread e.thread).point = .resizeWord x size
    · obtain ⟨size', point⟩ := resizing
      rw [stepOf_resizeWord found point] at value
      obtain rfl : size' = size := value
      refine .inl ⟨.inr ⟨e.thread, congrArg Point.stage point⟩, ?_, ?_⟩
      · intro w y other
        rw [point] at other
        cases other
      · intro size other
        rw [point] at other
        cases other
    · rcases word_of_live found live with same | ⟨size', -, ⟨w, z, point, rfl, -⟩ | point⟩
      · rw [same] at live value
        by_cases handing : ∃ size, (s.thread e.thread).point.stage = .handing x size
        · obtain ⟨size', stage⟩ := handing
          obtain ⟨w, z, point, rfl, rfl⟩ := Point.eq_of_handing stage
          obtain ⟨-, used, whole, small⟩ := ok.handing_spec partition point
          rw [(each.handed e.thread _ _ stage).1] at value
          subst value
          exact .inr ⟨used, small, by rw [stepOf_shadowLive found point, whole]⟩
        · refine .inl ⟨.inl ⟨⟨live, fun t object => ?_⟩, value⟩, ?_, ?_⟩
          · by_cases self : t = e.thread
            · subst self
              cases stage : (s.thread e.thread).point.stage with
              | handing z size =>
                  rw [stage] at object
                  obtain rfl := Option.some.inj object
                  exact handing ⟨size, stage⟩
              | resized z size =>
                  rw [stage] at object
                  obtain rfl := Option.some.inj object
                  exact resizing ⟨size, Point.eq_of_resized stage⟩
              | none | asking | dying =>
                  rw [stage] at object
                  cases object
            · refine settled t ?_
              dsimp only
              rw [Function.update_of_ne self]
              exact object
          · rintro w z point rfl
            exact handing ⟨w.size, congrArg Point.stage point⟩
          · intro size point
            rw [(stepOf_resizeShadow found point).1] at own
            exact own rfl
      · rw [stepOf_storeLive_stage found point] at own
        exact absurd rfl own
      · exact absurd ⟨size', point⟩ resizing
  · rcases step.resized others stage with ⟨other, before⟩ | ⟨rfl, point⟩
    · refine .inl ⟨.inr ⟨t, before⟩, ?_, fun size' point => ?_⟩
      · rintro w z point rfl
        exact (each.handed e.thread _ _ (congrArg Point.stage point)).2 t size before
      · have takes : x ∈ (s.thread e.thread).point.takes := by
          rw [point]
          exact rfl
        exact (alone x takes t other).1 (Point.resizing_of_stage before)
    · have live := (partition.resizing_spec (congrArg Point.resizing point)).2
      have small := partition.point e.thread
      rw [point] at small
      exact .inr ⟨partition.used_of_live live, small, (stepOf_resizeShadow found point).2⟩

end WeaveC.Alloc
