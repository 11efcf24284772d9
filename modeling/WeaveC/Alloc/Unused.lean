import WeaveC.Alloc.HugeShadow

/-!
# Memory not handed out

A chunk that a region commits is poisoned when its first slot is handed out, and
only a slot that was handed out is written.  So as long as no commit of slot
words is refused after one of slot data, what is committed and not handed out
is poison.
-/

namespace WeaveC.Alloc

open WeaveC.Runtime WeaveC.Library

variable {T : Type} {A : Arena} {h h' : Heap} {th th' : Thread} {s s' : State T} {e : Event T}
  {place : Slot → Place T}

/-! ## Granules of slots -/

theorem Arena.regionStart_add_le (A : Arena) {r r' : Nat} (before : r < r') :
    A.regionStart r + A.regionBytes ≤ A.regionStart r' := by
  rw [A.regionStart_eq, A.regionStart_eq]
  have step : (r + 1) * A.regionBytes ≤ r' * A.regionBytes := Nat.mul_le_mul_right _ before
  rw [Nat.add_mul, Nat.one_mul] at step
  omega

namespace Partition

variable {x y : Slot} {j : Nat}

/-- A slot that was handed out ends inside its region. -/
theorem slot_fits (ok : Partition A s place) (used : place x ≠ .fresh) :
    (x.index + 1) * s.heap.table.slotBytes x ≤ A.regionBytes := by
  have inside := ok.table.region x.region
  have first : x.index < (s.heap.table.region x.region).bump := inside.lt_bump used
  calc (x.index + 1) * s.heap.table.slotBytes x
      ≤ (s.heap.table.region x.region).entry.capacity * s.heap.table.slotBytes x :=
        Nat.mul_le_mul_right _ (first.trans_le inside.bump)
    _ ≤ A.regionBytes := inside.whole

/-- A granule of a region is no other slot's than its own. -/
theorem inSlot_unique (ok : Partition A s place) (used : place x ≠ .fresh)
    (here : s.heap.table.InSlot A x j) (there : s.heap.table.InSlot A y j)
    (inside : j < (A.regionStart y.region + A.regionBytes) / 16) : x = y := by
  have fits := ok.slot_fits used
  unfold Table.InSlot Table.slotBase at here there
  obtain ⟨first, last⟩ := here
  obtain ⟨first', last'⟩ := there
  have end' : A.regionStart x.region + x.index * s.heap.table.slotBytes x +
      s.heap.table.slotBytes x ≤ A.regionStart x.region + A.regionBytes := by
    rw [Nat.add_mul, Nat.one_mul] at fits
    omega
  rcases Nat.lt_trichotomy x.region y.region with before | same | after
  · have apart := A.regionStart_add_le before
    omega
  · -- two slots of one region
    have bytes : s.heap.table.slotBytes x = s.heap.table.slotBytes y := by
      unfold Table.slotBytes
      rw [same]
    rw [bytes, same] at first last
    have order {i k : Nat} (less : i < k) : i * s.heap.table.slotBytes y +
        s.heap.table.slotBytes y ≤ k * s.heap.table.slotBytes y := by
      have step := Nat.mul_le_mul_right (s.heap.table.slotBytes y) less
      rw [Nat.succ_mul] at step
      exact step
    rcases Nat.lt_trichotomy x.index y.index with less | index | more
    · have apart := order less
      omega
    · cases x
      cases y
      simp only at same index
      rw [same, index]
    · have apart := order more
      omega
  · have apart := A.regionStart_add_le after
    omega

end Partition

/-! ## What a step writes inside the arena -/

section Huge

variable {shadow : Shadow} {b : HugeBlock} {j : Nat}

/-- A huge block's mapping has no granule of the arena. -/
theorem HugeBlock.Ok.not_holds (ok : b.Ok A) (inside : ¬ A.Outside j) : ¬ b.Holds j :=
  fun holds => inside (ok.holds_outside holds)

theorem newBlock_arena (pages : 16 ∣ A.page) (window : A.Window shadow) (ok : b.Ok A)
    (inside : ¬ A.Outside j) :
    (shadow.live A.page b.base b.size (pageBytes A b.size) 0).byte j = shadow.byte j := by
  refine newBlock_frame pages window ok ?_
  by_contra own
  have granule := ok.granule
  have whole := (used_le_pageBytes pages b.size).2.1
  exact ok.not_holds inside (ok.holds pages (by omega) (by omega))

theorem hugeShadowDead_arena (pages : 16 ∣ A.page) (window : A.Window shadow) (ok : b.Ok A)
    (inside : ¬ A.Outside j) : (Heap.hugeShadowDead shadow b).byte j = shadow.byte j := by
  refine hugeShadowDead_frame window ok pages ?_
  by_contra own
  have granule := ok.granule
  have used := (used_le_pageBytes pages b.size).1
  unfold usedBytes at used
  exact ok.not_holds inside (ok.holds pages (by omega) (by omega))

theorem clears_arena (pages : 16 ∣ A.page) (window : A.Window shadow) {gone : List HugeBlock}
    (ok : ∀ b ∈ gone, b.Ok A) (inside : ¬ A.Outside j) :
    (clears shadow gone).byte j = shadow.byte j := by
  rw [clears_byte pages window ok, if_neg]
  rintro ⟨b, mem, cleared⟩
  exact (ok b mem).not_holds inside (cleared.holds (ok b mem) pages)

end Huge

/-- Inside the arena a step writes poison, or a slot that was handed out. -/
theorem Sound.arena_frame {a : Answer} {t : T} (pages : 16 ∣ A.page) (ok : Sound A s)
    (effect : Effect A s.heap h' (s.thread t) a) {j : Nat} (inside : ¬ A.Outside j) :
    h'.shadow.byte j = s.heap.shadow.byte j ∨ h'.shadow.byte j = ShadowValue.heapTail ∨
      (s.thread t).point.Writes ∧
        ∃ x, (s.heap.table.word x).state ≠ .never ∧ s.heap.table.InSlot A x j := by
  obtain ⟨place, partition⟩ := ok.places
  have here := partition.point t
  cases effect with
  | calm shadow _ _ =>
      rw [shadow]
      exact .inl rfl
  | returned _ _ eq | stored _ eq =>
      rw [eq]
      exact .inl rfl
  | @popped w swept first region point eq =>
      rw [point] at here
      have below : region < RegionCount := here.2.2.1.trans_le partition.table.count
      have region := partition.table.region region
      have grown := popRegion_grown ok.window below
        ⟨region.whole, region.committed, region.chunks⟩ a.grant
        (if w.cached then A.cacheLimit w.cls else 1)
      rw [eq]
      rcases grown.frame j with same | ⟨tail, -⟩
      · exact .inl same
      · exact .inr (.inl tail)
  | @made w x point eq =>
      obtain ⟨some, used, whole, fits⟩ := ok.handing_spec partition point
      rw [eq]
      by_cases own : s.heap.table.InSlot A x.place j
      · exact .inr (.inr ⟨by rw [point]; trivial, x.place, some, own⟩)
      · exact .inl (partition.shadowLive_frame ok.window used whole (whole ▸ fits) own)
  | @resized x size point eq =>
      rw [point] at here
      have live := (partition.resizing_spec (congrArg Point.resizing point)).2
      rw [eq]
      by_cases own : s.heap.table.InSlot A x j
      · refine .inr (.inr ⟨by rw [point]; trivial, x, ?_, own⟩)
        rw [live]
        exact WordState.noConfusion
      · have used := partition.used_of_live live
        exact .inl (partition.shadowLive_frame ok.window used rfl here own)
  | @released x cached point eq =>
      have retiring := congrArg Point.retiring point
      have claimed := (partition.retiring_spec retiring).2
      rw [eq]
      by_cases own : s.heap.table.InSlot A x j
      · refine .inr (.inr ⟨by rw [point]; trivial, x, ?_, own⟩)
        rw [claimed]
        exact WordState.noConfusion
      · classical
        rw [partition.shadowDead_byte ok.window (partition.used_of_retiring retiring), if_neg own]
        exact .inl rfl
  | inserted point asked mapped table unmapped eq =>
      have accepted := ok.accepts t _ (congrArg Point.stage point)
      have fits := (newBlock_ok pages accepted asked unmapped).1
      rw [eq, hugeInsert_shadow asked]
      exact .inl (newBlock_arena pages ok.window fits inside)
  | freed point found =>
      obtain ⟨i, block, dead, listed, -, -, -, -, shadow, -⟩ := hugeFree_eq found
      have mem : block ∈ s.heap.huge.blocks := List.mem_of_getElem? listed
      rw [shadow]
      exact .inl (hugeShadowDead_arena pages ok.window (ok.blocks.block block mem) inside)
  | swept point huge older =>
      obtain ⟨marked, keep, found, -, -, shadow⟩ := huge.split ok.blocks
      rw [shadow]
      exact .inl (clears_arena pages ok.window
        (fun g mem => found.block g (List.mem_of_mem_filter mem)) inside)

/-! ## Commits -/

/-- The region whose slots a point is about to take, and how many. -/
def Point.popping (A : Arena) : Point → Option (Nat × Nat)
  | .popRegion w _ _ region => some (region, if w.cached then A.cacheLimit w.cls else 1)
  | _ => none

/-- No commit of slot words of the step's critical section is refused after one
of slot data that made more memory accessible. -/
def State.Whole (A : Arena) (s : State T) (e : Event T) : Prop :=
  ∀ q ∈ (s.thread e.thread).point.popping A,
    ¬ Torn A e.answer.grant q.1 q.2 (s.heap.table.region q.1) s.heap.shadow

instance (A : Arena) (s : State T) (e : Event T) : Decidable (s.Whole A e) :=
  inferInstanceAs (Decidable (∀ _ ∈ _, _))

/-- A step commits memory of one region at most, and poisons it. -/
theorem Sound.commits (ok : Sound A s) (whole : s.Whole A e)
    (effect : Effect A s.heap h' (s.thread e.thread) e.answer) (r : Nat) :
    (h'.table.region r).committed = (s.heap.table.region r).committed ∨
      r < s.heap.table.regions ∧
        Poisoned A r (s.heap.table.region r) (h'.table.region r) h'.shadow := by
  obtain ⟨place, partition⟩ := ok.places
  have here := partition.point e.thread
  cases effect with
  | calm _ _ older => exact .inl (older r).committed
  | returned _ _ eq =>
      rw [eq]
      exact .inl (Table.Older.giveBack _ _ _ r).committed
  | @stored x size _ eq =>
      rw [eq]
      left
      change (Function.update s.heap.table.region x.region _ r).committed = _
      by_cases same : r = x.region
      · subst same
        rw [Function.update_self]
        rfl
      · rw [Function.update_of_ne same]
  | @popped w swept first region point eq =>
      rw [point] at here
      have used := here.2.2.1
      have below : region < RegionCount := used.trans_le partition.table.count
      have bounded := partition.table.region region
      have poisoned := popRegion_poisoned ok.window below
        ⟨bounded.whole, bounded.committed, bounded.chunks⟩
        (whole (region, _) (by rw [point]; exact rfl))
      rw [eq]
      change (Function.update s.heap.table.region region _ r).committed = _ ∨
        _ ∧ Poisoned A r _ (Function.update s.heap.table.region region _ r) _
      by_cases same : r = region
      · subst same
        rw [Function.update_self]
        exact .inr ⟨used, poisoned⟩
      · rw [Function.update_of_ne same]
        exact .inl rfl
  | made _ eq | resized _ eq | released _ eq | inserted _ _ _ _ _ eq =>
      rw [eq]
      exact .inl rfl
  | freed _ found =>
      obtain ⟨-, -, -, -, -, -, -, -, -, table⟩ := hugeFree_eq found
      rw [table]
      exact .inl rfl
  | swept _ _ older => exact .inl (older r).committed

/-! ## The invariant -/

/-- What is committed and not handed out is poison; a spare region has nothing
committed. -/
structure Unused (A : Arena) (h : Heap) : Prop where
  spare : ∀ r, h.table.regions ≤ r → (h.table.region r).committed = 0
  fresh : ∀ r < h.table.regions, (h.table.region r).entry.size ≤ Shadow.tailLimit → ∀ i,
    ((h.table.region r).words i).state = .never → ∀ j, h.table.InSlot A ⟨r, i⟩ j →
      j < (A.regionStart r + (h.table.region r).committed) / 16 →
        h.shadow.byte j = ShadowValue.heapTail

theorem committed_initial (A : Arena) (byte : Nat → UInt8) (r : Nat) :
    ((Heap.initial A byte).table.region r).committed = 0 := by
  unfold Heap.initial Table.initial
  dsimp only
  split <;> rfl

theorem unused_initial (A : Arena) (byte : Nat → UInt8) : Unused A (Heap.initial A byte) := by
  refine ⟨fun r _ => committed_initial A byte r, fun r _ _ i _ j here below => ?_⟩
  rw [committed_initial] at below
  have first := here.1
  unfold Table.slotBase at first
  dsimp only at first
  omega

theorem Unused.step (pages : 16 ∣ A.page) (ok : Sound A s) (unused : Unused A s.heap)
    (whole : s.Whole A e) (taken : s.stepOf A e = some (h', th')) : Unused A h' := by
  obtain ⟨place, partition⟩ := ok.places
  obtain ⟨place', moved⟩ := partition.moved taken
  have effect := stepOf_effect taken
  have commits := ok.commits whole effect
  constructor
  · intro r above
    rcases commits r with same | ⟨used, -⟩
    · rw [same]
      exact unused.spare r (moved.grows.regions.trans above)
    · exact absurd (moved.grows.regions.trans above) (Nat.not_le.mpr used)
  · intro r below small i never j here committed
    have start : A.regionStart r / 16 ≤ j := by
      have first := here.1
      unfold Table.slotBase at first
      dsimp only at first
      omega
    by_cases used : r < s.heap.table.regions
    · have entry := moved.grows.entry r used
      have count : r < RegionCount := used.trans_le partition.table.count
      have never' := effect.never (x := ⟨r, i⟩) never
      have there : s.heap.table.InSlot A ⟨r, i⟩ j := by
        unfold Table.InSlot Table.slotBase Table.slotBytes at here ⊢
        rw [entry] at here
        exact here
      rw [entry] at small
      have bounded := (partition.table.region r).committed
      obtain ⟨-, granule, above, room, -⟩ := A.region_inside count
      by_cases old : j < (A.regionStart r + (s.heap.table.region r).committed) / 16
      · have inside : ¬ A.Outside j := by
          have high := A.above
          unfold Arena.Outside
          omega
        have tail := unused.fresh r used small i never' j there old
        rcases ok.arena_frame pages effect inside with same | poison | ⟨-, x, some, own⟩
        · exact same.trans tail
        · exact poison
        · have own' := partition.inSlot_unique (partition.used_of_word some) own there (by dsimp only; omega)
          subst own'
          exact absurd never' some
      · rcases commits r with same | ⟨-, poisoned⟩
        · rw [same] at committed
          exact absurd committed old
        · exact poisoned.fresh small j (Nat.not_lt.mp old) committed
    · -- a region the step took from the spares
      rcases commits r with same | ⟨used', -⟩
      · rw [same, unused.spare r (Nat.not_lt.mp used)] at committed
        omega
      · exact absurd used' used

section Runs

variable [DecidableEq T] {byte : Nat → UInt8}

end Runs

/-- A slot not handed out that lies wholly in committed memory is
unaddressable. -/
theorem Unused.unaddressable (unused : Unused A s.heap) (ok : Sound A s) (ctx : Context) {r i : Nat}
    (below : r < s.heap.table.regions) (small : (s.heap.table.region r).entry.size ≤ Shadow.tailLimit)
    (never : ((s.heap.table.region r).words i).state = .never)
    (committed : (i + 1) * (s.heap.table.region r).entry.size ≤ (s.heap.table.region r).committed) :
    ∀ x, A.regionStart r + i * (s.heap.table.region r).entry.size ≤ x →
      x < A.regionStart r + (i + 1) * (s.heap.table.region r).entry.size →
        ¬ Addressable ctx s.heap.shadow x := by
  obtain ⟨place, partition⟩ := ok.places
  obtain ⟨-, granule, -, room, window⟩ :=
    A.region_inside (below.trans_le partition.table.count)
  have bounded := (partition.table.region r).committed
  have whole : 16 ∣ (s.heap.table.region r).entry.size := by
    rw [partition.table.entry r below]
    exact (classes_valid A.width (partition.table.ofClass r below)).granule
  have multiple : 16 ∣ i * (s.heap.table.region r).entry.size := whole.mul_left i
  intro x first last
  rw [Nat.add_mul, Nat.one_mul] at committed last
  refine not_addressable_of_heap ok.window (by omega) (.inl ?_)
  refine unused.fresh r below small i never _ ⟨?_, ?_⟩ ?_
  · unfold Table.slotBase Table.slotBytes
    dsimp only
    omega
  · unfold Table.slotBase Table.slotBytes
    dsimp only
    omega
  · omega

end WeaveC.Alloc
