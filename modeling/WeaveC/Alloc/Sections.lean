import WeaveC.Alloc.Moves

/-!
# Critical sections

What each section does to the whole table: a slot moves within its region, a
class takes a spare region, a run of released slots is queued, and a sweep
recycles every region.
-/

namespace WeaveC.Alloc

open WeaveC.Library

variable {T : Type} {A : Arena} {t t' : Table} {place place' : Slot → Place T}

/-- What no step takes away: a region in use keeps its class and its entry. -/
structure Table.Grows (t t' : Table) : Prop where
  regions : t.regions ≤ t'.regions
  regionClass : ∀ r, r < t.regions → (t'.region r).regionClass = (t.region r).regionClass
  entry : ∀ r, r < t.regions → (t'.region r).entry = (t.region r).entry

namespace Table.Grows

theorem refl (t : Table) : t.Grows t := ⟨Nat.le_refl _, fun _ _ => rfl, fun _ _ => rfl⟩

theorem trans {t'' : Table} (first : t.Grows t') (second : t'.Grows t'') : t.Grows t'' :=
  { regions := first.regions.trans second.regions
    regionClass := fun r used =>
      (second.regionClass r (used.trans_le first.regions)).trans (first.regionClass r used)
    entry := fun r used =>
      (second.entry r (used.trans_le first.regions)).trans (first.entry r used) }

end Table.Grows

theorem Table.grows_setRegion (t : Table) {r : Nat} {R : Region} (kind : (t.region r).SameKind R) :
    t.Grows (t.setRegion r R) := by
  refine ⟨Nat.le_refl _, fun r' _ => ?_, fun r' _ => ?_⟩
  all_goals
    by_cases same : r' = r
    · subst same
      simp [Table.setRegion, kind.regionClass, kind.entry]
    · simp [Table.setRegion, same]

/-- The tables differ only in the regions' marks. -/
structure Table.SameSlots (t t' : Table) : Prop where
  regions : t'.regions = t.regions
  active : t'.classActive = t.classActive
  region : ∀ r, ∃ marks, t'.region r = { t.region r with marks }

theorem Table.SameSlots.refl (t : Table) : t.SameSlots t := ⟨rfl, rfl, fun _ => ⟨_, rfl⟩⟩

theorem Table.SameSlots.trans {t'' : Table} (first : t.SameSlots t') (second : t'.SameSlots t'') :
    t.SameSlots t'' := by
  refine ⟨second.regions.trans first.regions, second.active.trans first.active, fun r => ?_⟩
  obtain ⟨marks, same⟩ := first.region r
  obtain ⟨marks', same'⟩ := second.region r
  exact ⟨marks', by rw [same', same]⟩

theorem Table.sameSlots_setMarks (t : Table) (r : Nat) (marks : Option (Nat → Bool)) :
    t.SameSlots (t.setRegion r { t.region r with marks }) := by
  refine ⟨rfl, rfl, fun r' => ?_⟩
  by_cases same : r' = r
  · subst same
    exact ⟨marks, by simp [Table.setRegion]⟩
  · exact ⟨_, by simp [Table.setRegion, same]; rfl⟩

namespace TableOk

theorem used (ok : TableOk A t place) {x : Slot} (moved : place x ≠ .fresh) :
    x.region < t.regions := by
  by_contra above
  have bump := (ok.region x.region).bump
  rw [(ok.spare x.region (by omega)).1] at bump
  exact moved (((ok.region x.region).fresh x.index).mpr (by omega))

theorem word (ok : TableOk A t place) (x : Slot) : (place x).WordOk (t.word x) :=
  (ok.region x.region).word x.index

theorem live_iff (ok : TableOk A t place) (x : Slot) :
    place x = .live ↔ (t.word x).state = .live :=
  (ok.word x).live_iff

/-- A region's critical section: its slots' places change with its memory. -/
theorem setRegion (ok : TableOk A t place) {r : Nat} {R : Region}
    (kind : (t.region r).SameKind R) (region : RegionOk A R fun i => place' ⟨r, i⟩)
    (elsewhere : ∀ x : Slot, x.region ≠ r → place' x = place x)
    (cls : ∀ x t' c, place' x = .cached t' c ∨ place' x = .released t' c → t.regionClass x = c) :
    TableOk A (t.setRegion r R) place' := by
  have class_eq (r' : Nat) :
      ((t.setRegion r R).region r').regionClass = (t.region r').regionClass := by
    by_cases same : r' = r
    · subst same
      simp [Table.setRegion, kind.regionClass]
    · simp [Table.setRegion, same]
  have entry_eq (r' : Nat) : ((t.setRegion r R).region r').entry = (t.region r').entry := by
    by_cases same : r' = r
    · subst same
      simp [Table.setRegion, kind.entry]
    · simp [Table.setRegion, same]
  have next_eq (r' : Nat) :
      ((t.setRegion r R).region r').regionNext = (t.region r').regionNext := by
    by_cases same : r' = r
    · subst same
      simp [Table.setRegion, kind.regionNext]
    · simp [Table.setRegion, same]
  refine
    { classes := ok.classes
      count := ok.count
      region := ?_
      own := fun c made => (class_eq c).trans (ok.own c made)
      ofClass := fun r' used => by
        rw [class_eq]
        exact ok.ofClass r' used
      entry := fun r' used => by
        rw [class_eq, entry_eq]
        exact ok.entry r' used
      spare := fun r' above => by
        rw [entry_eq, next_eq]
        exact ok.spare r' above
      next := fun r' used some => by
        rw [next_eq] at some ⊢
        rw [class_eq, class_eq]
        exact ok.next r' used some
      active := fun c made => by
        rw [class_eq]
        exact ok.active c made
      cls := fun x t' c here => (class_eq x.region).trans (cls x t' c here) }
  intro r'
  by_cases same : r' = r
  · subst same
    simpa [Table.setRegion] using region
  · have := ok.region r'
    simpa [Table.setRegion, same, elsewhere ⟨r', _⟩ same] using this

theorem update_slot (place : Slot → Place T) (x : Slot) (p : Place T) :
    (fun i => Function.update place x p ⟨x.region, i⟩) =
      Function.update (fun i => place ⟨x.region, i⟩) x.index p := by
  funext i
  by_cases same : i = x.index
  · subst same
    simp
  · have : (⟨x.region, i⟩ : Slot) ≠ x := fun eq => same (by rw [← eq])
    simp [this, same]

/-- One slot moves. -/
theorem move (ok : TableOk A t place) {x : Slot} {p : Place T} {R : Region}
    (kind : (t.region x.region).SameKind R)
    (region : RegionOk A R (Function.update (fun i => place ⟨x.region, i⟩) x.index p))
    (cls : ∀ t' c, p = .cached t' c ∨ p = .released t' c → t.regionClass x = c) :
    TableOk A (t.setRegion x.region R) (Function.update place x p) := by
  refine ok.setRegion kind ?_ ?_ ?_
  · rw [update_slot]
    exact region
  · intro y other
    exact Function.update_of_ne (fun same => other (by rw [same])) _ _
  · intro y t' c here
    by_cases same : y = x
    · subst same
      rw [Function.update_self] at here
      exact cls t' c here
    · rw [Function.update_of_ne same] at here
      exact ok.cls y t' c here

/-- A store to the word of a slot that is on no list. -/
theorem setWord (ok : TableOk A t place) {x : Slot} {p : Place T} {w : Word}
    (used : place x ≠ .fresh) (unlisted : place x ≠ .free) (unqueued : place x ≠ .queued)
    (used' : p ≠ .fresh) (unlisted' : p ≠ .free) (unqueued' : p ≠ .queued)
    (word : p.WordOk w)
    (cls : ∀ t' c, p = .cached t' c ∨ p = .released t' c → t.regionClass x = c) :
    TableOk A (t.setWord x w) (Function.update place x p) :=
  ok.move (Region.sameKind_setWord _ _ _)
    ((ok.region x.region).setWord used unlisted unqueued used' unlisted' unqueued' word) cls

theorem giveBack (ok : TableOk A t place) {x : Slot} (handed : (place x).Handed) :
    TableOk A (t.setRegion x.region ((t.region x.region).giveBack x.index))
      (Function.update place x .free) :=
  ok.move (Region.sameKind_giveBack _ _) ((ok.region x.region).giveBack handed) (by simp)

theorem enqueue (ok : TableOk A t place) {x : Slot} (claimed : (place x).Claimed) :
    TableOk A (t.setRegion x.region ((t.region x.region).enqueue x.index))
      (Function.update place x .queued) :=
  ok.move (Region.sameKind_enqueue _ _) ((ok.region x.region).enqueue claimed) (by simp)

/-- A place that changes for no other reason than a thread taking it changes no
slot's memory. -/
theorem rename (ok : TableOk A t place) {x : Slot} {p : Place T}
    (same : place x ≠ .fresh ∧ place x ≠ .free ∧ place x ≠ .queued)
    (same' : p ≠ .fresh ∧ p ≠ .free ∧ p ≠ .queued) (word : p.WordOk (t.word x))
    (cls : ∀ t' c, p = .cached t' c ∨ p = .released t' c → t.regionClass x = c) :
    TableOk A t (Function.update place x p) := by
  have set := ok.setWord same.1 same.2.1 same.2.2 same'.1 same'.2.1 same'.2.2 word cls
  have nothing : t.setWord x (t.word x) = t := by
    have word : (t.region x.region).setWord x.index (t.word x) = t.region x.region := by
      unfold Region.setWord Table.word
      rw [Function.update_eq_self]
    unfold Table.setWord Table.setRegion
    rw [word, Function.update_eq_self]
  rwa [nothing] at set

/-! ## Handing out -/

/-- The places after `es` have been handed out. -/
def handOut (place : Slot → Place T) (es : List Entry) (p : Place T) (x : Slot) : Place T :=
  if x ∈ es.map Entry.place then p else place x

theorem popRegion (ok : TableOk A t place) {p : Place T} (handed : p.Handed)
    (grant : Nat → Bool) (region want : Nat) (shadow : Runtime.Shadow)
    (cls : ∀ t' c, p = .cached t' c ∨ p = .released t' c → (t.region region).regionClass = c) :
    let popped := Alloc.popRegion A grant region want (t.region region) shadow
    (∀ e ∈ popped.1, e.region = region ∧ (place e.place = .free ∨ place e.place = .fresh)) ∧
      (popped.1.map Entry.place).Nodup ∧
      TableOk A (t.setRegion region popped.2.1) (handOut place popped.1 p) := by
  intro popped
  have spec := popRegion_spec (A := A) handed grant region want (ok.region region) shadow
  have here : ∀ e ∈ popped.1, e.place = ⟨region, e.slot⟩ := by
    intro e mem
    unfold Entry.place
    rw [spec.region e mem]
  have mem_iff (i : Nat) :
      (⟨region, i⟩ : Slot) ∈ popped.1.map Entry.place ↔ i ∈ popped.1.map Entry.slot := by
    simp only [List.mem_map]
    constructor
    · rintro ⟨e, mem, same⟩
      rw [here e mem] at same
      exact ⟨e, mem, (Slot.mk.inj same).2⟩
    · rintro ⟨e, mem, rfl⟩
      exact ⟨e, mem, here e mem⟩
  refine ⟨fun e mem => ⟨spec.region e mem, ?_⟩, ?_, ?_⟩
  · rw [here e mem]
    exact spec.before e mem
  · refine List.Nodup.of_map Slot.index ?_
    rw [List.map_map]
    exact spec.distinct
  · refine ok.setRegion spec.kind ?_ ?_ ?_
    · simpa only [handOut, mem_iff] using spec.ok
    · intro x other
      refine if_neg fun mem => ?_
      obtain ⟨e, mem', same⟩ := List.mem_map.mp mem
      rw [here e mem'] at same
      exact other (by rw [← same])
    · intro x t' c placed
      unfold handOut at placed
      split_ifs at placed with mem
      · obtain ⟨e, mem', same⟩ := List.mem_map.mp mem
        rw [here e mem'] at same
        have := cls t' c placed
        rwa [← same]
      · exact ok.cls x t' c placed

/-! ## Spares -/

theorem setActive (ok : TableOk A t place) {c region : Nat} (used : region < t.regions)
    (cls : (t.region region).regionClass = c) :
    TableOk A { t with classActive := Function.update t.classActive c region } place := by
  refine { ok with active := fun c' made => ?_ }
  by_cases same : c' = c
  · subst same
    simpa using ⟨used, cls⟩
  · simpa [same] using ok.active c' made

/-- Every region on a class's list is in use and of the class. -/
theorem lastOf (ok : TableOk A t place) (fuel : Nat) {region : Nat} (used : region < t.regions) :
    t.lastOf fuel region < t.regions ∧
      (t.region (t.lastOf fuel region)).regionClass = (t.region region).regionClass := by
  induction fuel generalizing region with
  | zero => exact ⟨used, rfl⟩
  | succ fuel inductionHypothesis =>
      unfold Table.lastOf
      split_ifs with last
      · exact ⟨used, rfl⟩
      · obtain ⟨used', same⟩ := ok.next region used last
        obtain ⟨used'', same'⟩ := inductionHypothesis used'
        exact ⟨used'', same'.trans same⟩

/-- A class takes the first spare, of which no slot has been handed out. -/
theorem takeSpare (ok : TableOk A t place) {c : Nat} (made : c < A.classCount)
    (taken : t.takeSpare c = some t') : TableOk A t' place ∧ t.Grows t' := by
  unfold Table.takeSpare at taken
  simp only at taken
  split_ifs at taken with none
  obtain ⟨used, ofClass⟩ := ok.lastOf RegionCount (made.trans_le ok.classes)
  rw [ok.own c made] at ofClass
  generalize t.lastOf RegionCount c = last at used ofClass taken
  have other : last ≠ t.regions := by omega
  have entry : (t.region c).entry = A.entry c := by
    rw [ok.entry c (made.trans_le ok.classes), ok.own c made]
  have valid := classes_valid A.width made
  have spare : t.withSpare c t.regions last t.regions =
      { t.region t.regions with entry := A.entry c, regionClass := c } := by
    simp [Table.withSpare, other.symm, entry]
  have linked : t.withSpare c t.regions last last =
      { t.region last with regionNext := t.regions } := by
    simp [Table.withSpare, other]
  have kept (r : Nat) (ne : r ≠ t.regions) (ne' : r ≠ last) :
      t.withSpare c t.regions last r = t.region r := by
    simp [Table.withSpare, ne, ne']
  obtain rfl := Option.some.inj taken
  generalize t.withSpare c t.regions last = region' at spare linked kept ⊢
  have class_eq (r : Nat) (below : r < t.regions) :
      (region' r).regionClass = (t.region r).regionClass := by
    by_cases same : r = last
    · rw [same, linked]
    · rw [kept r (by omega) same]
  have entry_eq (r : Nat) (below : r < t.regions) :
      (region' r).entry = (t.region r).entry := by
    by_cases same : r = last
    · rw [same, linked]
    · rw [kept r (by omega) same]
  refine ⟨?_, ⟨Nat.le_succ _, class_eq, entry_eq⟩⟩
  refine
    { classes := ok.classes.trans (Nat.le_succ _)
      count := Nat.succ_le_of_lt (Nat.lt_of_not_le none)
      region := ?_
      own := fun c' made' => (class_eq c' (made'.trans_le ok.classes)).trans (ok.own c' made')
      ofClass := ?_
      entry := ?_
      spare := ?_
      next := ?_
      active := ?_
      cls := ?_ }
  all_goals try simp only
  · intro r
    by_cases first : r = t.regions
    · subst first
      rw [spare]
      have old := ok.region t.regions
      have empty : (t.region t.regions).bump = 0 := by
        have := old.bump
        rw [(ok.spare _ (Nat.le_refl _)).1] at this
        omega
      have whole : (A.entry c).capacity * (A.entry c).size ≤ A.regionBytes := by
        rw [Arena.regionBytes, Nat.one_shiftLeft]
        exact valid.capacity_mul_le
      exact
        { old with
          bump := by simp [empty]
          capacity := valid.capacity_le (by rcases A.width with width | width <;> omega)
          whole
          extent := by simp [empty] }
    · by_cases same : r = last
      · subst same
        rw [linked]
        exact { ok.region r with }
      · rw [kept r first same]
        exact ok.region r
  · intro r below
    by_cases first : r = t.regions
    · subst first
      simpa only [spare] using made
    · rw [class_eq r (by omega)]
      exact ok.ofClass r (by omega)
  · intro r below
    by_cases first : r = t.regions
    · subst first
      simp only [spare]
    · rw [class_eq r (by omega), entry_eq r (by omega)]
      exact ok.entry r (by omega)
  · intro r above
    rw [kept r (by omega) (by omega)]
    exact ok.spare r (by omega)
  · intro r below some
    by_cases first : r = t.regions
    · subst first
      rw [spare] at some
      exact absurd (ok.spare _ (Nat.le_refl _)).2 some
    · by_cases same : r = last
      · subst same
        rw [linked]
        simp only [spare]
        exact ⟨Nat.lt_succ_self _, ofClass.symm⟩
      · rw [kept r first same] at some ⊢
        obtain ⟨below', same'⟩ := ok.next r (by omega) some
        exact ⟨by omega, (class_eq _ below').trans same'⟩
  · intro c' made'
    by_cases same : c' = c
    · subst same
      simp [spare]
    · rw [Function.update_of_ne same]
      obtain ⟨below, same'⟩ := ok.active c' made'
      exact ⟨by omega, (class_eq _ below).trans same'⟩
  · intro x t' c' here
    have moved : place x ≠ .fresh := by
      rcases here with here | here <;> simp [here]
    exact (class_eq x.region (ok.used moved)).trans (ok.cls x t' c' here)

/-! ## Queueing -/

/-- A run of released slots goes behind their regions' queues, one after
another. -/
theorem enqueueRun (ok : TableOk A t place) {slots : Nat → Entry} {i n high : Nat} {u : T}
    {c : Nat} (run : i + n ≤ high)
    (segment : Segment (fun i => (slots i).place) i high {x | place x = .released u c}) :
    ∃ place', TableOk A (Thread.enqueueRun slots i n t) place' ∧
      t.Grows (Thread.enqueueRun slots i n t) ∧
      Segment (fun i => (slots i).place) (i + n) high {x | place' x = .released u c} ∧
      ∀ x, place' x = place x ∨ place x = .released u c ∧ place' x = .queued := by
  induction n generalizing i t place with
  | zero => exact ⟨place, ok, .refl t, segment, fun x => .inl rfl⟩
  | succ n inductionHypothesis =>
      have here : place (slots i).place = .released u c := segment.mem (Nat.le_refl i) (by omega)
      have moved := ok.enqueue (x := (slots i).place) (by rw [here]; trivial)
      have segment' : Segment (fun i => (slots i).place) (i + 1) high
          {x | Function.update place (slots i).place .queued x = .released u c} := by
        have rest := segment.dropFirst (by omega)
        convert rest using 1
        ext x
        by_cases same : x = (slots i).place
        · simp [same]
        · simp [same]
      obtain ⟨place', ok', grows, segment'', only⟩ := inductionHypothesis moved (by omega) segment'
      refine ⟨place', ok', (t.grows_setRegion (Region.sameKind_enqueue _ _)).trans grows, ?_, ?_⟩
      · rw [show i + (n + 1) = i + 1 + n by omega]
        exact segment''
      · intro x
        by_cases same : x = (slots i).place
        · subst same
          right
          rcases only (slots i).place with stays | ⟨wrong, -⟩
          · exact ⟨here, by rw [stays, Function.update_self]⟩
          · rw [Function.update_self] at wrong
            exact absurd wrong (by simp)
        · have := only x
          rwa [Function.update_of_ne same] at this

/-! ## Sweeping -/

theorem sameSlots (ok : TableOk A t place) (same : t.SameSlots t') : TableOk A t' place := by
  have region (r : Nat) : RegionOk A (t'.region r) (fun i => place ⟨r, i⟩) ∧
      (t'.region r).regionClass = (t.region r).regionClass ∧
      (t'.region r).entry = (t.region r).entry ∧
      (t'.region r).regionNext = (t.region r).regionNext := by
    obtain ⟨marks, eq⟩ := same.region r
    rw [eq]
    exact ⟨{ ok.region r with }, rfl, rfl, rfl⟩
  refine
    { classes := same.regions ▸ ok.classes
      count := same.regions ▸ ok.count
      region := fun r => (region r).1
      own := fun c made => (region c).2.1.trans (ok.own c made)
      ofClass := fun r used => by
        rw [(region r).2.1]
        exact ok.ofClass r (same.regions ▸ used)
      entry := fun r used => by
        rw [(region r).2.1, (region r).2.2.1]
        exact ok.entry r (same.regions ▸ used)
      spare := fun r above => by
        rw [(region r).2.2.1, (region r).2.2.2]
        exact ok.spare r (same.regions ▸ above)
      next := fun r used some => by
        rw [(region r).2.2.2] at some ⊢
        rw [(region _).2.1, (region r).2.1, same.regions]
        exact ok.next r (same.regions ▸ used) some
      active := fun c made => by
        rw [same.active, (region _).2.1, same.regions]
        exact ok.active c made
      cls := fun x u c here => (region x.region).2.1.trans (ok.cls x u c here) }

/-- The places after a sweep: a queued slot whose mark is not set is free. -/
def recycledPlace (t : Table) (recycle : Bool) (place : Slot → Place T) (x : Slot) : Place T :=
  if x.region < t.regions then
    recycled recycle (t.region x.region).marked (fun i => place ⟨x.region, i⟩) x.index
  else place x

theorem recycledPlace_eq (t : Table) (recycle : Bool) (place : Slot → Place T) (x : Slot) :
    recycledPlace t recycle place x = place x ∨
      place x = .queued ∧ recycledPlace t recycle place x = .free := by
  unfold recycledPlace
  split_ifs with used
  · by_cases queued : place x = .queued
    · rw [recycled_of_queued queued]
      split_ifs
      · exact .inr ⟨queued, rfl⟩
      · exact .inl queued.symm
    · exact .inl (recycled_of_ne queued)
  · exact .inl rfl

theorem recycledPlace_free_iff (t : Table) (recycle : Bool) {place : Slot → Place T} {x : Slot}
    (used : x.region < t.regions) (queued : place x = .queued) :
    recycledPlace t recycle place x = .free ↔
      recycle = true ∧ (t.region x.region).marked x.index = false := by
  rw [recycledPlace, if_pos used, recycled_of_queued queued]
  split_ifs with goes <;> simp [goes]

theorem recycleRegions (ok : TableOk A t place) (recycle : Bool) :
    TableOk A
      { t with
        region := fun r =>
          if r < t.regions then ((t.region r).recycle recycle).1 else t.region r }
      (recycledPlace t recycle place) := by
  have region (r : Nat) : (t.region r).SameKind
      (if r < t.regions then ((t.region r).recycle recycle).1 else t.region r) := by
    split_ifs
    · exact Region.sameKind_recycle _ _
    · exact .refl _
  refine
    { classes := ok.classes
      count := ok.count
      region := ?_
      own := fun c made => (region c).regionClass.trans (ok.own c made)
      ofClass := fun r used => by
        rw [(region r).regionClass]
        exact ok.ofClass r used
      entry := fun r used => by
        rw [(region r).regionClass, (region r).entry]
        exact ok.entry r used
      spare := fun r above => by
        rw [(region r).entry, (region r).regionNext]
        exact ok.spare r above
      next := fun r used some => by
        rw [(region r).regionNext] at some ⊢
        rw [(region _).regionClass, (region r).regionClass]
        exact ok.next r used some
      active := fun c made => by
        rw [(region _).regionClass]
        exact ok.active c made
      cls := fun x u c here => ?_ }
  · intro r
    simp only [recycledPlace]
    split_ifs with used
    · exact (ok.region r).recycle recycle
    · exact ok.region r
  · refine (region x.region).regionClass.trans (ok.cls x u c ?_)
    rcases recycledPlace_eq t recycle place x with same | ⟨-, free⟩
    · rwa [same] at here
    · rw [free] at here
      simp at here

theorem sameSlots_prepareFrom (grant : Nat → Bool) (left region : Nat) (t : Table) :
    t.SameSlots (Heap.prepareFrom grant left region t).2 := by
  induction left generalizing region t with
  | zero => exact .refl t
  | succ left inductionHypothesis =>
      unfold Heap.prepareFrom
      simp only
      split_ifs
      · exact inductionHypothesis _ _
      · exact (Table.sameSlots_setMarks t region _).trans (inductionHypothesis _ _)
      · exact .refl t

theorem sameSlots_markAddress (A : Arena) (h : Heap) (value : Nat) :
    h.table.SameSlots (h.markAddress A value).table := by
  unfold Heap.markAddress
  simp only
  split_ifs
  · exact .refl _
  · exact Table.sameSlots_setMarks _ _ _
  · exact .refl _
  · split
    · exact .refl _
    · split
      · exact .refl _
      · split_ifs <;> exact .refl _
  · exact .refl _

theorem sameSlots_markWords (A : Arena) (h : Heap) (words : List Nat) :
    h.table.SameSlots (h.markWords A words).table := by
  unfold Heap.markWords
  induction words generalizing h with
  | nil => exact .refl _
  | cons value words inductionHypothesis =>
      exact (sameSlots_markAddress A h value).trans (inductionHypothesis _)

theorem sameSlots_mark (A : Arena) (h : Heap) (answer : Heap.WorldAnswer) :
    h.table.SameSlots (h.mark A answer).table := by
  obtain ⟨words, eq⟩ := h.markedTo_mark A answer
  rw [eq]
  exact sameSlots_markWords A h words

/-- The section with the world stopped. -/
theorem sweepWorld {h : Heap} (ok : TableOk A h.table place) (answer : Heap.WorldAnswer) :
    ∃ place', TableOk A (h.sweepWorld A answer).2.table place' ∧
      h.table.Grows (h.sweepWorld A answer).2.table ∧
      ∀ x, place' x = place x ∨ place x = .queued ∧ place' x = .free := by
  have grows_of_same {t' : Table} (same : h.table.SameSlots t') : h.table.Grows t' := by
    refine ⟨same.regions.ge, fun r _ => ?_, fun r _ => ?_⟩
    all_goals
      obtain ⟨marks, eq⟩ := same.region r
      rw [eq]
  have prepared : h.table.SameSlots (h.prepareMarks answer.grantMarks).2.table :=
    sameSlots_prepareFrom _ _ _ _
  unfold Heap.sweepWorld
  split_ifs with stopped
  · simp only
    split_ifs
    · have marked := prepared.trans (sameSlots_mark A (h.prepareMarks answer.grantMarks).2 answer)
      refine ⟨_, (ok.sameSlots marked).recycleRegions (answer.scanned && !answer.changed), ?_,
        recycledPlace_eq _ _ _⟩
      refine (grows_of_same marked).trans ⟨Nat.le_refl _, fun r _ => ?_, fun r _ => ?_⟩
      all_goals
        simp only [Heap.recycle, Heap.recycleRegions, Heap.recycleHuge]
        split_ifs
        first
          | exact (Region.sameKind_recycle _ _).regionClass
          | exact (Region.sameKind_recycle _ _).entry
    · exact ⟨place, ok.sameSlots prepared, grows_of_same prepared, fun x => .inl rfl⟩
  · exact ⟨place, ok, .refl _, fun x => .inl rfl⟩

end TableOk

end WeaveC.Alloc
