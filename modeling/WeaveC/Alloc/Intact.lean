import WeaveC.Alloc.Objects
import WeaveC.Alloc.Spares

/-!
# Live objects stay addressable

A step writes an object's granules when it makes or reallocates that object, and
when a region next to it gets its first memory: then the granule before the
region becomes poison, also where it belongs to a live object.
-/

namespace WeaveC.Alloc

open WeaveC.Runtime WeaveC.Library

variable {T : Type} {A : Arena} {h h' : Heap} {th' : Thread} {s s' : State T} {e : Event T}
  {place : Slot → Place T} {x : Slot} {r j : Nat}

/-! ## A region's first memory -/

/-- The system grants the region its first memory, for a slot and its word. -/
def FirstCommit (A : Arena) (grant : Nat → Bool) (region : Nat) (R : Region) : Prop :=
  R.committed = 0 ∧ R.bump < R.entry.capacity ∧
    (commit A grant (A.regionStart region) 0 ((R.bump + 1) * R.entry.size) DataChunk
      A.regionBytes).isSome = true ∧
    (commit A grant (A.wordStart region) R.metaCommitted ((R.bump + 1) * 4) MetaChunk
      (A.regionBytes >>> 2)).isSome = true

instance (A : Arena) (grant : Nat → Bool) (region : Nat) (R : Region) :
    Decidable (FirstCommit A grant region R) :=
  inferInstanceAs (Decidable (_ ∧ _ ∧ _ ∧ _))

section Region

variable {grant : Nat → Bool} {R : Region} {shadow : Shadow}

/-- What a popped slot writes before its region. -/
theorem popSlot_before (window : A.Window shadow) (below : r < RegionCount) (bounded : R.Bounded A)
    (before : j + 1 = A.regionStart r / 16) :
    (popSlot A grant r R shadow).2.2.byte j = shadow.byte j ∨ FirstCommit A grant r R := by
  obtain ⟨-, granule, -, -, -⟩ := A.region_inside below
  unfold popSlot
  by_cases listed : R.freeHead ≠ 0
  · rw [if_pos listed]
    exact .inl rfl
  rw [if_neg listed]
  dsimp only
  by_cases full : R.entry.capacity ≤ R.bump
  · rw [if_pos full]
    exact .inl rfl
  rw [if_neg full]
  have room : R.bump < R.entry.capacity := Nat.not_le.mp full
  cases data : commit A grant (A.regionStart r) R.committed ((R.bump + 1) * R.entry.size) DataChunk
      A.regionBytes with
  | none => exact .inl rfl
  | some committed =>
      dsimp only
      cases words : commit A grant (A.wordStart r) R.metaCommitted ((R.bump + 1) * 4) MetaChunk
          (A.regionBytes >>> 2) with
      | none => exact .inl rfl
      | some metaCommitted =>
          obtain ⟨more, short, chunks⟩ := bounded.grow room data
          dsimp only
          rw [poisonFresh_byte window below R.entry short]
          by_cases first : R.committed = 0
          · rw [first] at data
            refine .inr ⟨first, room, ?_, ?_⟩
            · rw [data]
              rfl
            · rw [words]
              rfl
          · rw [if_neg fun both => first both.1, if_neg]
            · exact .inl rfl
            · omega

/-- A popped slot's region has committed memory behind its first slot. -/
theorem popSlot_first (bounded : R.Bounded A)
    (first : FirstCommit A grant r (popSlot A grant r R shadow).2.1)
    (some : (popSlot A grant r R shadow).1.isSome = true) : FirstCommit A grant r R := by
  revert first some
  unfold popSlot
  by_cases listed : R.freeHead ≠ 0
  · rw [if_pos listed]
    exact fun first _ => first
  rw [if_neg listed]
  dsimp only
  by_cases full : R.entry.capacity ≤ R.bump
  · rw [if_pos full]
    exact fun first _ => first
  rw [if_neg full]
  have room : R.bump < R.entry.capacity := Nat.not_le.mp full
  cases data : commit A grant (A.regionStart r) R.committed ((R.bump + 1) * R.entry.size) DataChunk
      A.regionBytes with
  | none => exact fun first _ => first
  | some committed =>
      dsimp only
      cases words : commit A grant (A.wordStart r) R.metaCommitted ((R.bump + 1) * 4) MetaChunk
          (A.regionBytes >>> 2) with
      | none => exact fun _ some => Bool.noConfusion some
      | some metaCommitted =>
          intro first _
          have none : committed = 0 := first.1
          have still : R.committed = 0 := by
            have more := (bounded.grow room data).1
            omega
          rw [still] at data
          refine ⟨still, room, ?_, ?_⟩
          · rw [data]
            rfl
          · rw [words]
            rfl

/-- What popped slots write before their region. -/
theorem popRegion_before (window : A.Window shadow) (below : r < RegionCount)
    (bounded : R.Bounded A) (before : j + 1 = A.regionStart r / 16) (want : Nat) :
    (popRegion A grant r want R shadow).2.2.byte j = shadow.byte j ∨
      FirstCommit A grant r R := by
  induction want generalizing R shadow with
  | zero => exact .inl rfl
  | succ want ih =>
      have here : (popSlot A grant r R shadow).2.2.byte j = shadow.byte j ∨
          FirstCommit A grant r R := popSlot_before window below bounded before
      rw [popRegion_succ]
      split
      · rename_i some
        have grown := popSlot_grown window below bounded grant
        rcases ih (window.mono grown.window) grown.bounded with same | first
        · rw [same]
          exact here
        · exact .inr (popSlot_first bounded first some)
      · exact here

/-- The granule before a region becomes poison with the region's first memory. -/
theorem popRegion_first (window : A.Window shadow) (below : r < RegionCount) (bounded : R.Bounded A)
    (unlisted : R.freeHead = 0) (first : FirstCommit A grant r R)
    (before : j + 1 = A.regionStart r / 16) {want : Nat} (some : 0 < want) :
    (popRegion A grant r want R shadow).2.2.byte j = ShadowValue.heapTail := by
  obtain ⟨none, room, data, words⟩ := first
  obtain ⟨committed, data⟩ := Option.isSome_iff_exists.mp data
  obtain ⟨metaCommitted, words⟩ := Option.isSome_iff_exists.mp words
  rw [← none] at data
  have tail : (popSlot A grant r R shadow).2.2.byte j = ShadowValue.heapTail := by
    unfold popSlot
    rw [if_neg (not_not.mpr unlisted)]
    dsimp only
    rw [if_neg (Nat.not_le.mpr room), data]
    dsimp only
    rw [words]
    dsimp only
    rw [poisonFresh_byte window below R.entry (bounded.grow room data).2.1, if_pos ⟨none, before⟩]
  obtain ⟨want, rfl⟩ : ∃ n, want = n + 1 := ⟨want - 1, by omega⟩
  rw [popRegion_succ]
  split
  · have grown := popSlot_grown window below bounded grant
    rcases (popRegion_grown (window.mono grown.window) below grown.bounded grant want).frame j with
      same | ⟨later, -⟩
    · exact same.trans tail
    · exact later
  · exact tail

end Region

/-- A region without memory has no slot on its free list. -/
theorem Partition.unlisted (ok : Partition A s place) (below : r < s.heap.table.regions)
    (none : (s.heap.table.region r).committed = 0) : (s.heap.table.region r).freeHead = 0 := by
  have inside := ok.table.region r
  have valid := classes_valid A.width (ok.table.ofClass r below)
  have extent := inside.extent
  have untouched : (s.heap.table.region r).bump = 0 := by
    rw [none, ok.table.entry r below] at extent
    have positive : (A.entry (s.heap.table.region r).regionClass).size ≠ 0 := by
      have large := valid.positive
      change 16 ≤ (A.entry (s.heap.table.region r).regionClass).size at large
      omega
    exact (Nat.mul_eq_zero.mp (Nat.le_zero.mp extent)).resolve_right positive
  obtain ⟨l, chain, members⟩ := inside.free
  cases l with
  | nil => exact chain
  | cons slot l =>
      have free := (members slot).mp List.mem_cons_self
      have fresh := (inside.fresh slot).mpr (untouched ▸ Nat.zero_le slot)
      rw [free] at fresh
      cases fresh

/-! ## The object before a region -/

/-- The slot's object has a byte in the granule before region `r`. -/
def State.Reaches (A : Arena) (s : State T) (x : Slot) (r : Nat) : Prop :=
  s.heap.table.Last A x r ∧ ∃ size, s.Sized x size ∧ s.heap.table.slotBytes x < size + 16

/-- Where a region's first memory is committed, no object reaches into the
granule before the region. -/
def State.Spared (A : Arena) (s : State T) (e : Event T) : Prop :=
  ∀ q ∈ (s.thread e.thread).point.popping A,
    FirstCommit A e.answer.grant q.1 (s.heap.table.region q.1) → ∀ x, ¬ s.Reaches A x q.1

/-- The size of the object that a reallocation in place has made. -/
def Stage.remade : Stage → Option (Slot × Nat)
  | .resized x size => some (x, size)
  | _ => Option.none

theorem Stage.mem_remade {stage : Stage} {size : Nat} :
    (x, size) ∈ stage.remade ↔ stage = .resized x size := by
  cases stage with
  | resized y size' =>
      change some (y, size') = some (x, size) ↔ _
      simp only [Option.some.injEq, Prod.mk.injEq, Stage.resized.injEq]
  | _ => exact ⟨fun mem => absurd mem.symm (Option.some_ne_none _), fun eq => by cases eq⟩

theorem State.sized_iff (s : State T) (x : Slot) (n : Nat) :
    (s.Object x ∧ n < (s.heap.table.word x).value + 16 ∨
      ∃ t, ∃ q ∈ (s.thread t).point.stage.remade, q.1 = x ∧ n < q.2 + 16) ↔
        ∃ size, s.Sized x size ∧ n < size + 16 := by
  constructor
  · rintro (⟨object, reaches⟩ | ⟨t, ⟨y, size⟩, mem, rfl, reaches⟩)
    · exact ⟨_, .inl ⟨object, rfl⟩, reaches⟩
    · exact ⟨size, .inr ⟨t, Stage.mem_remade.mp mem⟩, reaches⟩
  · rintro ⟨size, ⟨object, rfl⟩ | ⟨t, resized⟩, reaches⟩
    · exact .inl ⟨object, reaches⟩
    · exact .inr ⟨t, (x, size), Stage.mem_remade.mpr resized, rfl, reaches⟩

instance [Fintype T] (A : Arena) (s : State T) (x : Slot) (r : Nat) : Decidable (s.Reaches A x r) :=
  have : Decidable (s.heap.table.Last A x r) := inferInstanceAs (Decidable (_ ∧ _))
  have := decidable_of_iff _ (s.sized_iff x (s.heap.table.slotBytes x))
  inferInstanceAs (Decidable (_ ∧ _))

/-- The only slot that may end where region `r` starts. -/
def Table.lastBefore (A : Arena) (t : Table) (r : Nat) : Slot :=
  ⟨r - 1, A.regionBytes / (t.region (r - 1)).entry.size - 1⟩

theorem Table.Last.eq_lastBefore {t : Table} (last : t.Last A x r) : x = t.lastBefore A r := by
  obtain ⟨rfl, whole⟩ := last
  have large := A.granules.2.2
  have some : 0 < t.slotBytes x := by
    refine Nat.pos_of_ne_zero fun none => ?_
    rw [none, Nat.mul_zero] at whole
    omega
  unfold lastBefore
  rw [Nat.add_sub_cancel]
  change x = ⟨x.region, A.regionBytes / t.slotBytes x - 1⟩
  rw [← whole, Nat.mul_div_cancel _ some, Nat.add_sub_cancel]

theorem State.spares_iff (A : Arena) (s : State T) (r : Nat) :
    ¬ s.Reaches A (s.heap.table.lastBefore A r) r ↔ ∀ x, ¬ s.Reaches A x r := by
  refine ⟨fun none x reaches => none ?_, fun none => none _⟩
  rw [← reaches.1.eq_lastBefore]
  exact reaches

instance [Fintype T] (A : Arena) (s : State T) (e : Event T) : Decidable (s.Spared A e) :=
  have (r : Nat) : Decidable (∀ x, ¬ s.Reaches A x r) := decidable_of_iff _ (s.spares_iff A r)
  inferInstanceAs (Decidable (∀ _ ∈ _, _ → _))

/-! ## Every step -/

/-- A slot's granules are committed, and no other region's. -/
theorem Partition.inSlot_committed (ok : Partition A s place) (used : place x ≠ .fresh)
    (own : s.heap.table.InSlot A x j)
    (first : (A.regionStart r + (s.heap.table.region r).committed) / 16 ≤ j) :
    (A.regionStart r + A.regionBytes) / 16 ≤ j := by
  have inside := ok.table.region x.region
  have fits := ok.slot_fits used
  have extent : (x.index + 1) * s.heap.table.slotBytes x ≤
      (s.heap.table.region x.region).committed :=
    (Nat.mul_le_mul_right _ (inside.lt_bump used)).trans inside.extent
  obtain ⟨start, granules, -⟩ := ok.slot_inside used
  unfold Table.InSlot at own
  have base : s.heap.table.slotBase A x =
      A.regionStart x.region + x.index * s.heap.table.slotBytes x := rfl
  rw [Nat.add_mul, Nat.one_mul] at extent fits
  rcases Nat.lt_trichotomy r x.region with before | rfl | after
  · have apart := A.regionStart_add_le before
    omega
  · omega
  · have apart := A.regionStart_add_le after
    omega

/-- A step that neither makes nor reallocates a live slot's object leaves its
shadow, but for the granule before a region that gets its first memory. -/
theorem Sound.live_frame (pages : 16 ∣ A.page) (ok : Sound A s)
    (taken : s.stepOf A e = some (h', th')) (live : (s.heap.table.word x).state = .live)
    (leaves : s.Leaves e.thread x) (own : s.heap.table.InSlot A x j) :
    h'.shadow.byte j = s.heap.shadow.byte j ∨
      ∃ q ∈ (s.thread e.thread).point.popping A,
        FirstCommit A e.answer.grant q.1 (s.heap.table.region q.1) ∧
          s.heap.table.Last A x q.1 ∧ j = A.before q.1 := by
  obtain ⟨place, partition⟩ := ok.places
  have used := partition.used_of_live live
  have inside : ¬ A.Outside j := fun out => partition.inSlot_inside used out own
  have here := partition.point e.thread
  cases stepOf_effect taken with
  | calm shadow _ _ =>
      rw [shadow]
      exact .inl rfl
  | returned _ _ eq | stored _ eq =>
      rw [eq]
      exact .inl rfl
  | @popped w swept first region point eq =>
      rw [point] at here
      have below : region < RegionCount := here.2.2.1.trans_le partition.table.count
      have region' := partition.table.region region
      have bounded : (s.heap.table.region region).Bounded A :=
        ⟨region'.whole, region'.committed, region'.chunks⟩
      have grown := popRegion_grown ok.window below bounded e.answer.grant
        (if w.cached then A.cacheLimit w.cls else 1)
      rw [eq]
      rcases grown.frame j with same | ⟨-, ⟨low, high⟩ | before⟩
      · exact .inl same
      · have short := grown.bounded.committed
        have behind := partition.inSlot_committed used own low
        omega
      · refine (popRegion_before ok.window below bounded before _).imp_right fun commits => ?_
        have granule : j = A.before region := by
          unfold Arena.before
          omega
        subst granule
        refine ⟨(region, _), by rw [point]; exact rfl, commits, ?_, rfl⟩
        exact partition.last_of_inSlot used below own
  | @made w y point eq =>
      obtain ⟨-, used', whole, small⟩ := ok.handing_spec partition point
      rw [eq]
      exact .inl (partition.shadowLive_frame ok.window used' whole (whole ▸ small)
        (partition.inSlot_ne used own used' (leaves.made w y point)))
  | @resized y size point eq =>
      have used' := partition.used_of_resizing (congrArg Point.resizing point)
      have other : y ≠ x := by
        rintro rfl
        exact leaves.resized size point
      rw [point] at here
      rw [eq]
      exact .inl (partition.shadowLive_frame ok.window used' rfl here
        (partition.inSlot_ne used own used' other))
  | @released y cached point eq =>
      have word := (partition.retiring_spec (congrArg Point.retiring point)).2
      have used' := partition.used_of_retiring (congrArg Point.retiring point)
      have other : y ≠ x := by
        rintro rfl
        rw [word] at live
        cases live
      classical
      rw [eq, partition.shadowDead_byte ok.window used',
        if_neg (partition.inSlot_ne used own used' other)]
      exact .inl rfl
  | inserted point asked mapped table unmapped eq =>
      have accepted := ok.accepts e.thread _ (congrArg Point.stage point)
      have fits := (newBlock_ok pages accepted asked unmapped).1
      rw [eq, hugeInsert_shadow asked]
      exact .inl (newBlock_arena pages ok.window fits inside)
  | freed point found =>
      obtain ⟨i, block, dead, listed, -, -, -, -, shadow, -⟩ := hugeFree_eq found
      have mem : block ∈ s.heap.huge.blocks := List.mem_of_getElem? listed
      rw [shadow]
      exact .inl (hugeShadowDead_arena pages ok.window (ok.blocks.block block mem) inside)
  | swept point huge older =>
      obtain ⟨marked, keep, found, -, -, shadow⟩ := huge.split ok.blocks
      rw [shadow]
      exact .inl (clears_arena pages ok.window
        (fun g mem => found.block g (List.mem_of_mem_filter mem)) inside)

theorem Exposed.carry {shadow shadow' : Shadow} {base size : Nat}
    (exposed : Exposed shadow base size) (window : A.Window shadow) (window' : A.Window shadow')
    (byte : ∀ j, base ≤ j * 16 → j * 16 < base + size → shadow'.byte j = shadow.byte j) :
    Exposed shadow' base size := by
  have granule := exposed.granule
  refine ⟨window'.ready, granule, ?_, fun j first last => ?_, fun partly => ?_⟩
  · rw [window'.bits, ← window.bits]
    exact exposed.room
  · rw [byte j (by omega) (by omega)]
    exact exposed.whole j first last
  · rw [byte _ (by omega) (by omega)]
    exact exposed.rest partly

/-- Every object's bytes are addressable. -/
def Intact (A : Arena) (s : State T) : Prop :=
  ∀ x size, s.Sized x size → Exposed s.heap.shadow (s.heap.table.slotBase A x) size

section Machine

variable [DecidableEq T]

theorem Intact.step (pages : 16 ∣ A.page) (ok : Sound A s) (fits : s.Fits) (each : OneEach s)
    (intact : Intact A s) (alone : s.Alone e) (spared : s.Spared A e)
    (taken : s.step A e = some s') : Intact A s' := by
  obtain ⟨place, partition⟩ := ok.places
  have ok' := ok.step pages alone.noRace taken
  intro x size sized
  rcases ok.sized_step pages each partition alone taken sized with
    ⟨before, leaves⟩ | ⟨used, small, eq⟩
  · have live := before.live partition
    have used := partition.used_of_live live
    have small := before.fits partition fits
    obtain ⟨start, granules, -⟩ := partition.slot_inside used
    rw [partition.step_slotBase taken used]
    refine (intact x size before).carry ok.window ok'.window fun j first last => ?_
    have own : s.heap.table.InSlot A x j := by
      unfold Table.InSlot
      omega
    obtain ⟨h, th, found, rfl⟩ := State.step_eq_some taken
    rcases ok.live_frame pages found live leaves own with same | ⟨q, pops, commits, ends, rfl⟩
    · exact same
    · -- the granule before the region would be the object's
      refine absurd ⟨ends, size, before, ?_⟩ (spared q pops commits x)
      have end' := Partition.last_end ends
      unfold Arena.before at last
      omega
  · obtain ⟨start, granules, -, room, below⟩ := partition.slot_inside used
    rw [partition.step_slotBase taken used, eq]
    refine exposed_live ok.window.ready A.pages start granules ?_ (isColor_color _)
    rw [ok.window.bits]
    omega

theorem intact_run (pages : 16 ∣ A.page) {byte : Nat → UInt8}
    (run : Run (State.step A) (fun s e => s.Alone e ∧ s.Spared A e) (.initial A byte) s) :
    Sound A s ∧ s.Fits ∧ OneEach s ∧ Intact A s := by
  refine run.invariant (I := fun s => Sound A s ∧ s.Fits ∧ OneEach s ∧ Intact A s)
    ⟨sound_initial A byte, fits_initial A byte, oneEach_initial A byte,
      fun x size sized => absurd sized (not_sized_initial A byte x size)⟩ ?_
  rintro s e s' ⟨ok, fits, each, intact⟩ ⟨alone, spared⟩ taken
  refine ⟨ok.step pages alone.noRace taken, fun x live => ?_, each.step pages ok alone taken,
    intact.step pages ok fits each alone spared taken⟩
  obtain ⟨h, th, found, rfl⟩ := State.step_eq_some taken
  exact fits.step ok found live

end Machine

/-- Every byte of every live object is addressable. -/
def State.Usable (A : Arena) (s : State T) (ctx : Context) : Prop :=
  ∀ x size, s.Sized x size → ∀ b, s.heap.table.slotBase A x ≤ b →
    b < s.heap.table.slotBase A x + size → Addressable ctx s.heap.shadow b

theorem Exposed.addressable {shadow : Shadow} {base size b : Nat} (exposed : Exposed shadow base size)
    (window : A.Window shadow) (ctx : Context) (first : base ≤ b) (last : b < base + size) :
    Addressable ctx shadow b := by
  have granule := exposed.granule
  have room := exposed.room
  by_cases whole : b / 16 < base / 16 + size / 16
  · rw [window.bits] at room
    exact addressable_of_full window (by omega) (exposed.whole _ (by omega) whole)
  · exact (exposed.rest_addressable (by omega) (by omega) (by omega)).mpr last

theorem Intact.usable (intact : Intact A s) (ok : Sound A s) (ctx : Context) : s.Usable A ctx :=
  fun x size sized _ first last => (intact x size sized).addressable ok.window ctx first last

section Machine

variable [DecidableEq T]

/-- Taking slots out of a region changes no object. -/
theorem State.Sized.popped {w : Want} {swept first : Bool} {size : Nat} (sized : s.Sized x size)
    (pages : 16 ∣ A.page) (ok : Sound A s)
    (point : (s.thread e.thread).point = .popRegion w swept first r)
    (taken : s.step A e = some s') : s'.Sized x size := by
  obtain ⟨step, others⟩ := ok.step_slotStep pages taken
  cases step with
  | other before after byte word =>
      rcases sized with ⟨⟨live, settled⟩, value⟩ | ⟨t, resized⟩
      · left
        rw [State.Object, word x live]
        refine ⟨⟨live, fun t object => ?_⟩, value⟩
        by_cases self : t = e.thread
        · rw [self] at object
          generalize (s'.thread e.thread).point.stage = stage at after object
          cases stage with
          | none | asking => cases object
          | _ => exact after
        · rw [others t self] at object
          exact settled t object
      · refine .inr ⟨t, ?_⟩
        rw [others t fun self => ?_]
        · exact resized
        · rw [self] at resized
          rw [resized] at before
          exact before
  | storeLive other | shadowLive other | claim other | chooseCache other | shadowDead other
  | resizeShadow other | resizeWord other =>
      rw [point] at other
      cases other

omit [DecidableEq T] in
theorem stepOf_popRegion {w : Want} {swept first : Bool} (taken : s.stepOf A e = some (h', th'))
    (point : (s.thread e.thread).point = .popRegion w swept first r) :
    h'.shadow = (popRegion A e.answer.grant r (if w.cached then A.cacheLimit w.cls else 1)
      (s.heap.table.region r) s.heap.shadow).2.2 := by
  have taken := stepOf_inside taken (by rw [point]; exact Point.noConfusion)
  unfold Thread.step at taken
  simp only [point] at taken
  obtain ⟨rfl, -⟩ := Prod.mk.inj (Option.some.inj taken)
  rfl

/-- An object that reaches into the granule before a region loses the bytes it
has there. -/
theorem Sound.spared_of_usable (pages : 16 ∣ A.page) (ok : Sound A s) (quiet : s.NoRace e)
    (taken : s.step A e = some s') {ctx : Context} (usable : s'.Usable A ctx) : s.Spared A e := by
  rintro ⟨region, want⟩ pops first x ⟨ends, size, sized, reaches⟩
  obtain ⟨place, partition⟩ := ok.places
  have live := sized.live partition
  have used := partition.used_of_live live
  cases point : (s.thread e.thread).point with
  | popRegion w swept again r =>
      rw [point] at pops
      obtain ⟨rfl, -⟩ := Prod.mk.inj (Option.some.inj pops)
      have here := partition.point e.thread
      rw [point] at here
      have below : r < RegionCount := here.2.2.1.trans_le partition.table.count
      have inside := partition.table.region r
      obtain ⟨room, granule, low, high, fits⟩ := A.region_inside below
      have before : A.before r + 1 = A.regionStart r / 16 := by
        unfold Arena.before
        omega
      have base := partition.step_slotBase taken used
      have end' := Partition.last_end ends
      have own := partition.last_inSlot used ends
      obtain ⟨start, -⟩ := partition.slot_inside used
      unfold Table.InSlot at own
      have window := (ok.step pages quiet taken).window
      have sized' := sized.popped pages ok point taken
      obtain ⟨h, th, found, rfl⟩ := State.step_eq_some taken
      have poison : h.shadow.byte (A.before r) = ShadowValue.heapTail := by
        rw [stepOf_popRegion found point]
        refine popRegion_first ok.window below
          ⟨inside.whole, inside.committed, inside.chunks⟩
          (partition.unlisted here.2.2.1 first.1) first before ?_
        split
        · exact A.cacheLimit_pos w.cls
        · decide
      dsimp only at end' own
      refine not_addressable_of_heap window (a := A.before r * 16) (by omega)
        (.inl ?_) (usable x size sized' _ ?_ ?_)
      · rw [Nat.mul_div_cancel _ (by decide)]
        exact poison
      · rw [base]
        omega
      · rw [base]
        omega
  | _ =>
      rw [point] at pops
      cases pops

/-- Every byte of every live object is addressable as long as no region's first
memory is committed while an object reaches into the granule before it, and no
longer. -/
theorem live_objects_usable_iff (pages : 16 ∣ A.page) {byte : Nat → UInt8}
    (run : Run (State.step A) (fun s e => s.Alone e ∧ s.Spared A e) (.initial A byte) s)
    (ctx : Context) :
    s.Usable A ctx ∧ ∀ e s', s.Alone e → s.step A e = some s' →
      (s'.Usable A ctx ↔ s.Spared A e) := by
  obtain ⟨ok, fits, each, intact⟩ := intact_run pages run
  refine ⟨intact.usable ok ctx, fun e s' alone taken => ⟨?_, fun spared => ?_⟩⟩
  · exact ok.spared_of_usable pages alone.noRace taken
  · exact (intact.step pages ok fits each alone spared taken).usable
      (ok.step pages alone.noRace taken) ctx

end Machine

/-- Four objects of 2^29 - 1 bytes, which fill their class's own region. -/
def allocatedFour : List (Event Unit) :=
  (List.replicate 4 (.enter () (.alloc 0x1FFFFFFF 0) :: List.replicate 5 (.next ()))).flatten

/-- What the fourth slot holds, where it lies, and its last granule. -/
def State.fourth (s : State Unit) : Bool × Nat × Nat × UInt8 :=
  (decide (s.Object ⟨95, 3⟩), (s.heap.table.word ⟨95, 3⟩).value,
    s.heap.table.slotBase .sample ⟨95, 3⟩, s.heap.shadow.byte 0x307FFFFFF)

theorem live_objects_usable_four : ∃ s : State Unit,
    Run (State.step .sample) (fun s e => s.Alone e ∧ s.Spared .sample e)
      (.initial .sample fun _ => 0) s ∧
        s.Object ⟨95, 3⟩ ∧ (s.heap.table.word ⟨95, 3⟩).value = 0x1FFFFFFF ∧
          ∀ ctx, s.Usable .sample ctx := by
  obtain ⟨s, run, seen⟩ : ∃ s : State Unit,
      Run (State.step .sample) (fun s e => s.Alone e ∧ s.Spared .sample e)
        (.initial .sample fun _ => 0) s ∧ s.fourth = (true, 0x1FFFFFFF, 0x3060000000, 0x8F) :=
    Run.exists_exec allocatedFour (by decide +kernel)
  unfold State.fourth at seen
  simp only [Prod.mk.injEq, decide_eq_true_eq] at seen
  obtain ⟨object, size, -, -⟩ := seen
  exact ⟨s, run, object, size, fun ctx => (live_objects_usable_iff (by decide) run ctx).1⟩

/-- A fifth one takes a spare region, whose first memory makes the last bytes of
the fourth unaddressable. -/
theorem live_objects_not_usable : ∃ s : State Unit,
    Run (State.step .sample) State.Alone (.initial .sample fun _ => 0) s ∧
      s.Object ⟨95, 3⟩ ∧ ∀ ctx, ¬ s.Usable .sample ctx := by
  obtain ⟨s, run, seen⟩ : ∃ s : State Unit,
      Run (State.step .sample) State.Alone (.initial .sample fun _ => 0) s ∧
        s.fourth = (true, 0x1FFFFFFF, 0x3060000000, ShadowValue.heapTail) :=
    Run.exists_exec
      (allocatedFour ++ .enter () (.alloc 0x1FFFFFFF 0) :: List.replicate 8 (.next ()))
      (by decide +kernel)
  unfold State.fourth at seen
  simp only [Prod.mk.injEq, decide_eq_true_eq] at seen
  obtain ⟨object, size, base, byte⟩ := seen
  have window := (sound_run (by decide) (run.mono fun _ _ alone => alone.noRace)).window
  refine ⟨s, run, object, fun ctx usable => ?_⟩
  refine not_addressable_of_heap window (a := 0x307FFFFFF0) (by decide) (.inl byte)
    (usable _ _ (.inl ⟨object, rfl⟩) _ ?_ ?_)
  · rw [base]
    decide
  · rw [base, size]
    decide

end WeaveC.Alloc
