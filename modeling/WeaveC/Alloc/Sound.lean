import WeaveC.Alloc.HugeBlocks
import WeaveC.Alloc.Growth

/-!
# What every run keeps

The slot partition, the huge blocks' mappings, and that a slot whose shadow is
about to be written has been handed out.  Only a huge block's allocation,
release and recycling write the shadow of memory outside the arena.
-/

namespace WeaveC.Alloc

open WeaveC.Runtime WeaveC.Library

variable {T : Type} {A : Arena} {h h' : Heap} {th th' : Thread} {s s' : State T} {e : Event T}

/-! ## The invariant -/

/-- A slot an allocation is about to write the shadow of is not one that was
never handed out. -/
def State.Hands (s : State T) : Prop :=
  ∀ t x size, (s.thread t).point.stage = .handing x size →
    (s.heap.table.word x).state ≠ .never

structure Sound (A : Arena) (s : State T) : Prop where
  places : ∃ place, Partition A s place
  accepts : s.Accepts
  hands : s.Hands
  blocks : HugeOk A s.heap.huge.blocks
  window : A.Window s.heap.shadow

theorem sound_initial (A : Arena) (byte : Nat → UInt8) : Sound A (State.initial A byte : State T) := by
  refine ⟨⟨_, partition_initial A byte⟩, State.accepts_initial A byte, ?_, ?_, rfl, ?_⟩
  · intro t x size handing
    cases handing
  · constructor
    · intro b mem
      cases mem
    · exact List.Pairwise.nil
  · have width := A.window.1
    have large : 2 ^ 35 ≤ 2 ^ (A.bits - 4) := Nat.pow_le_pow_right (by decide) (by omega)
    change 2 ^ (A.bits - 4) - 1 ≠ 0
    omega

/-! ## Slots in the arena -/

/-- A slot that was handed out lies in the arena, in whole granules. -/
theorem Partition.slot_inside {place : Slot → Place T} (ok : Partition A s place) {x : Slot}
    (used : place x ≠ .fresh) :
    16 ∣ s.heap.table.slotBase A x ∧ 16 ∣ s.heap.table.slotBytes x ∧
      A.base ≤ s.heap.table.slotBase A x ∧
        s.heap.table.slotBase A x + s.heap.table.slotBytes x ≤ A.base + A.bytes ∧
          A.base + A.bytes < 2 ^ A.bits := by
  have region := ok.table.used used
  have below : x.region < RegionCount := region.trans_le ok.table.count
  have inside := ok.table.region x.region
  have first : x.index < (s.heap.table.region x.region).bump := inside.lt_bump used
  have granule : 16 ∣ s.heap.table.slotBytes x := by
    unfold Table.slotBytes
    rw [ok.table.entry x.region region]
    exact (classes_valid A.width (ok.table.ofClass x.region region)).granule
  obtain ⟨-, start, above, room, window⟩ := A.region_inside below
  have fits : (x.index + 1) * s.heap.table.slotBytes x ≤ A.regionBytes :=
    calc (x.index + 1) * s.heap.table.slotBytes x
        ≤ (s.heap.table.region x.region).entry.capacity * s.heap.table.slotBytes x :=
          Nat.mul_le_mul_right _ (first.trans_le inside.bump)
      _ ≤ A.regionBytes := inside.whole
  rw [Nat.add_mul, Nat.one_mul] at fits
  unfold Table.slotBase
  exact ⟨Nat.dvd_add start (granule.mul_left _), granule, by omega, by omega, window⟩

/-- A granule of memory outside the arena and the granule before it. -/
def Arena.Outside (A : Arena) (j : Nat) : Prop :=
  16 * j + 16 ≤ A.base - 16 ∨ A.base + A.bytes ≤ 16 * j

/-- What a step does to the shadow outside the arena. -/
inductive HugeEffect (A : Arena) (h h' : Heap) (th : Thread) (a : Answer) : Prop where
  | still (blocks : h'.huge.blocks = h.huge.blocks)
      (same : ∀ j, A.Outside j → h'.shadow.byte j = h.shadow.byte j)
  | inserted {size alignment : Nat} {purpose : Purpose} {request : Heap.HugeRequest} {map : Nat}
      (point : th.point = .huge size alignment purpose) (accepted : Accepted alignment)
      (asked : h.hugeRequest A size alignment = some request) (mapped : a.map = some map)
      (table : a.hugeTable = true) (unmapped : h.Unmapped A map request.mapBytes)
      (eq : h' = h.hugeInsert A size request map)
  | freed {p : Nat} (found : h.hugeFree p = some h')
  | swept (huge : SweptHuge h h')

section Frame

variable {place : Slot → Place T} {x : Slot}

/-- A granule of a slot. -/
def Table.InSlot (A : Arena) (t : Table) (x : Slot) (j : Nat) : Prop :=
  t.slotBase A x / 16 ≤ j ∧ j < (t.slotBase A x + t.slotBytes x) / 16

theorem Partition.inSlot_inside (ok : Partition A s place) (used : place x ≠ .fresh) {j : Nat}
    (out : A.Outside j) : ¬ s.heap.table.InSlot A x j := by
  obtain ⟨start, granules, above, room, below⟩ := ok.slot_inside used
  have high := A.above
  unfold Arena.Outside at out
  unfold Table.InSlot
  omega

/-- A live object's shadow is its slot's. -/
theorem Partition.shadowLive_frame (ok : Partition A s place) (window : A.Window s.heap.shadow)
    (used : place x ≠ .fresh) {size slot : Nat} (whole : slot = s.heap.table.slotBytes x)
    (fits : size < slot) {j : Nat} (out : ¬ s.heap.table.InSlot A x j) :
    (s.heap.shadowLive A x size slot).shadow.byte j = s.heap.shadow.byte j := by
  obtain ⟨start, granules, above, room, below⟩ := ok.slot_inside used
  subst whole
  refine Shadow.live_frame window.ready A.pages (Nat.mod_eq_zero_of_dvd start) granules fits ?_ _ ?_
  · intro b _ last
    exact window.inWindow (by omega)
  · unfold Table.InSlot at out
    omega

/-- A released slot's shadow is its granules'. -/
theorem Partition.shadowDead_byte (ok : Partition A s place) (window : A.Window s.heap.shadow)
    (used : place x ≠ .fresh) (j : Nat) [Decidable (s.heap.table.InSlot A x j)] :
    (s.heap.shadowDead A x).shadow.byte j =
      if s.heap.table.InSlot A x j then ShadowValue.heapFreed else s.heap.shadow.byte j := by
  obtain ⟨start, granules, above, room, below⟩ := ok.slot_inside used
  have here : s.heap.shadow.InWindow (s.heap.table.slotBase A x) := window.inWindow (by omega)
  have range : s.heap.table.slotBase A x / 16 ≤ j ∧
      j < s.heap.table.slotBase A x / 16 + (s.heap.table.slotBytes x + 15) / 16 ↔
        s.heap.table.InSlot A x j := by
    unfold Table.InSlot
    omega
  change (s.heap.shadow.set _ _ _).byte j = _
  rw [Shadow.set_byte window.ready here]
  simp only [range]

end Frame

theorem Partition.used_of_word (ok : Partition A s place) {x : Slot}
    (used : (s.heap.table.word x).state ≠ .never) : place x ≠ .fresh := by
  intro fresh
  have word := ok.table.word x
  rw [fresh] at word
  exact used (congrArg Word.state word)

/-- The slot an allocation is about to write the shadow of. -/
theorem Sound.handing_spec {t : T} {w : Want} {x : Entry} (ok : Sound A s)
    {place : Slot → Place T} (partition : Partition A s place)
    (point : (s.thread t).point = .shadowLive w x) :
    (s.heap.table.word x.place).state ≠ .never ∧ place x.place ≠ .fresh ∧
      (A.entry w.cls).size = s.heap.table.slotBytes x.place ∧
        w.size < s.heap.table.slotBytes x.place := by
  have here := partition.point t
  rw [point] at here
  obtain ⟨want, region, cls⟩ := here
  have used := ok.hands t x.place w.size (congrArg Point.stage point)
  have whole : (A.entry w.cls).size = s.heap.table.slotBytes x.place := by
    unfold Table.slotBytes Entry.place
    rw [partition.table.entry x.region region, cls]
  exact ⟨used, partition.used_of_word used, whole, whole ▸ want.fits⟩

/-- The slot a reallocation in place is about is live. -/
theorem Partition.resizing_spec {t : T} {x : Slot} {place : Slot → Place T}
    (ok : Partition A s place) (resizing : (s.thread t).point.resizing = some x) :
    place x = .live ∧ (s.heap.table.word x).state = .live := by
  have live := (ok.thread t).resizing x resizing
  exact ⟨live, (ok.table.live_iff x).mp live⟩

/-- The slot a release has claimed. -/
theorem Partition.retiring_spec {t : T} {x : Slot} {place : Slot → Place T}
    (ok : Partition A s place) (retiring : (s.thread t).point.retiring = some x) :
    place x = .retiring t ∧ s.heap.table.word x = Word.claimed := by
  have placed := ((ok.thread t).retiring x).mpr retiring
  have word := ok.table.word x
  rw [placed] at word
  exact ⟨placed, word⟩

theorem Partition.used_of_live {x : Slot} (ok : Partition A s place)
    (live : (s.heap.table.word x).state = .live) : place x ≠ .fresh := by
  refine ok.used_of_word ?_
  rw [live]
  exact WordState.noConfusion

theorem Partition.used_of_resizing {t : T} {x : Slot} (ok : Partition A s place)
    (resizing : (s.thread t).point.resizing = some x) : place x ≠ .fresh :=
  ok.used_of_live (ok.resizing_spec resizing).2

theorem Partition.used_of_retiring {t : T} {x : Slot} (ok : Partition A s place)
    (retiring : (s.thread t).point.retiring = some x) : place x ≠ .fresh := by
  refine ok.used_of_word ?_
  rw [(ok.retiring_spec retiring).2]
  exact WordState.noConfusion

theorem Sound.hugeEffect {a : Answer} {t : T} (ok : Sound A s)
    (effect : Effect A s.heap h' (s.thread t) a) :
    HugeEffect A s.heap h' (s.thread t) a ∧ Shadow.SameWindow s.heap.shadow h'.shadow := by
  obtain ⟨place, partition⟩ := ok.places
  have here := partition.point t
  cases effect with
  | calm shadow huge _ _ =>
      refine ⟨.still (congrArg Huge.blocks huge) fun j _ => ?_, ?_⟩
      · rw [shadow]
      · rw [shadow]
        exact .refl _
  | @popped w swept first region point eq =>
      rw [point] at here
      have below : region < RegionCount := here.2.2.1.trans_le partition.table.count
      have region := partition.table.region region
      have grown := popRegion_grown ok.window below
        ⟨region.whole, region.committed, region.chunks⟩ a.grant
        (if w.cached then A.cacheLimit w.cls else 1)
      obtain ⟨-, granule, above, room, -⟩ := A.region_inside below
      rw [eq]
      refine ⟨.still rfl fun j out => ?_, grown.window⟩
      rcases grown.frame j with same | ⟨-, there⟩
      · exact same
      · have whole := grown.bounded.committed
        have high := A.above
        unfold Arena.Outside at out
        omega
  | returned _ _ eq | stored _ eq =>
      refine ⟨.still ?_ fun j _ => ?_, ?_⟩
      · rw [eq]
      · rw [eq]
      · rw [eq]
        exact .refl _
  | @made w x point eq =>
      obtain ⟨-, used, whole, fits⟩ := ok.handing_spec partition point
      rw [eq]
      exact ⟨.still rfl fun j out => partition.shadowLive_frame ok.window used whole (whole ▸ fits)
        (partition.inSlot_inside used out), Shadow.sameWindow_live _ _ _ _ _ _⟩
  | @resized x size point eq =>
      rw [point] at here
      have used := partition.used_of_resizing (congrArg Point.resizing point)
      rw [eq]
      exact ⟨.still rfl fun j out => partition.shadowLive_frame ok.window used rfl here
        (partition.inSlot_inside used out), Shadow.sameWindow_live _ _ _ _ _ _⟩
  | @released x cached point eq =>
      have used := partition.used_of_retiring (congrArg Point.retiring point)
      rw [eq]
      refine ⟨.still rfl fun j out => ?_, Shadow.sameWindow_dead _ _ _⟩
      classical
      rw [partition.shadowDead_byte ok.window used, if_neg (partition.inSlot_inside used out)]
  | inserted point asked mapped table unmapped eq =>
      have accepted := ok.accepts t _ (congrArg Point.stage point)
      refine ⟨.inserted point accepted asked mapped table unmapped eq, ?_⟩
      rw [eq]
      exact Shadow.sameWindow_live _ _ _ _ _ _
  | freed point found =>
      refine ⟨.freed found, ?_⟩
      obtain ⟨i, block, dead, -, -, -, -, -, shadow, -⟩ := hugeFree_eq found
      rw [shadow]
      exact sameWindow_hugeShadowDead _ _
  | swept point huge older =>
      refine ⟨.swept huge, ?_⟩
      obtain ⟨marked, keep, -, -, -, shadow⟩ := huge.dropped
      rw [shadow]
      exact sameWindow_clears _ _

/-! ## Every step -/

section Machine

@[simp] theorem Table.word_setWord (t : Table) (x : Slot) (w : Word) : (t.setWord x w).word x = w := by
  unfold Table.word Table.setWord Table.setRegion Region.setWord
  dsimp only
  rw [Function.update_self]
  dsimp only
  rw [Function.update_self]

theorem Table.word_setWord_of_ne {x y : Slot} (other : y ≠ x) (t : Table) (w : Word) :
    (t.setWord x w).word y = t.word y := by
  unfold Table.word Table.setWord Table.setRegion Region.setWord
  dsimp only
  by_cases same : y.region = x.region
  · have index : y.index ≠ x.index := by
      intro index
      refine other ?_
      cases x
      cases y
      simp_all
    rw [same, Function.update_self]
    dsimp only
    rw [Function.update_of_ne index]
  · rw [Function.update_of_ne same]

theorem Table.word_giveBack (t : Table) (e : Entry) (x : Slot) :
    (t.setRegion e.region ((t.region e.region).giveBack e.slot)).word x =
      (t.setWord e.place ⟨(t.region e.region).freeHead, .free⟩).word x := by
  unfold Table.word Table.setWord Table.setRegion Region.giveBack Entry.place
  dsimp only
  by_cases same : x.region = e.region
  · rw [same, Function.update_self, Function.update_self]
  · rw [Function.update_of_ne same, Function.update_of_ne same]

/-- No slot becomes one that was never handed out. -/
theorem Effect.never {a : Answer} (effect : Effect A h h' th a) {x : Slot}
    (unused : (h'.table.word x).state = .never) : (h.table.word x).state = .never := by
  cases effect with
  | calm _ _ older _ => exact (older x.region).never x.index unused
  | returned _ _ eq =>
      rw [eq] at unused
      exact (Table.Older.giveBack _ _ _ x.region).never x.index unused
  | popped point eq =>
      rw [eq] at unused
      rw [Table.word_popped] at unused
      exact unused
  | @stored y size _ eq =>
      rw [eq] at unused
      by_cases same : x = y
      · subst same
        rw [Table.word_setWord] at unused
        cases unused
      · rw [Table.word_setWord_of_ne same] at unused
        exact unused
  | made _ eq | resized _ eq | released _ eq | inserted _ _ _ _ _ eq =>
      rw [eq] at unused
      exact unused
  | freed _ found =>
      obtain ⟨-, -, -, -, -, -, -, -, -, table⟩ := hugeFree_eq found
      exact table ▸ unused
  | swept _ _ older => exact (older x.region).never x.index unused

/-- A thread inside the allocator takes no call. -/
theorem stepOf_inside (taken : s.stepOf A e = some (h', th'))
    (inside : (s.thread e.thread).point ≠ .idle) :
    (s.thread e.thread).step A s.heap e.answer = some (h', th') := by
  unfold State.stepOf at taken
  cases called : e.call with
  | none =>
      rw [called] at taken
      exact taken
  | some call =>
      rw [called] at taken
      dsimp only at taken
      rw [if_neg fun both => inside both.1] at taken
      cases taken

theorem stepOf_storeLive {w : Want} {x : Entry} (taken : s.stepOf A e = some (h', th'))
    (point : (s.thread e.thread).point = .storeLive w x) :
    h'.table.word x.place = ⟨w.size, .live⟩ := by
  have taken := stepOf_inside taken (by rw [point]; exact Point.noConfusion)
  unfold Thread.step at taken
  simp only [point] at taken
  obtain ⟨rfl, -⟩ := Prod.mk.inj (Option.some.inj taken)
  exact Table.word_setWord _ _ _

/-- A thread that may stop the world sweeps. -/
theorem stepOf_world {k : Then} (taken : s.stepOf A e = some (h', th'))
    (point : (s.thread e.thread).point = .world k) :
    e.answer.worldMapped = true ∧ h' = (s.heap.sweepWorld A e.answer.world).2 ∨
      e.answer.worldMapped = false ∧ h' = s.heap := by
  have taken := stepOf_inside taken (by rw [point]; exact Point.noConfusion)
  unfold Thread.step at taken
  simp only [point] at taken
  split_ifs at taken with mapped
  · obtain ⟨rfl, -⟩ := Prod.mk.inj (Option.some.inj taken)
    exact .inl ⟨mapped, rfl⟩
  · obtain ⟨rfl, -⟩ := Prod.mk.inj (Option.some.inj taken)
    exact .inr ⟨Bool.not_eq_true _ ▸ mapped, rfl⟩

variable [DecidableEq T]

theorem Sound.step (pages : 16 ∣ A.page) (ok : Sound A s) (quiet : s.NoRace e)
    (taken : s.step A e = some s') : Sound A s' := by
  obtain ⟨place, partition⟩ := ok.places
  have places := partition.step quiet taken
  obtain ⟨h, th, found, rfl⟩ := State.step_eq_some taken
  have effect := stepOf_effect found
  have window := (ok.hugeEffect effect).2
  refine ⟨places, ok.accepts.step found, ?_, ok.blocks.effect pages (ok.accepts _) effect,
    ok.window.mono window⟩
  intro t x size handing unused
  dsimp only at handing unused
  by_cases self : t = e.thread
  · subst self
    rw [Function.update_self] at handing
    rcases stepOf_stage found with none | kept | ⟨alignment, asking, -⟩ | ⟨w, y, before, after⟩ |
      ⟨y, size', -, resized⟩ | ⟨y, word, -, claimed⟩
    · rw [none] at handing
      cases handing
    · exact ok.hands _ x size (kept.symm.trans handing) (effect.never unused)
    · rw [asking] at handing
      cases handing
    · rw [after] at handing
      obtain ⟨rfl, -⟩ := Stage.handing.inj handing
      rw [stepOf_storeLive found before] at unused
      cases unused
    · rw [resized] at handing
      cases handing
    · rw [claimed] at handing
      cases handing
  · rw [Function.update_of_ne self] at handing
    exact ok.hands t x size handing (effect.never unused)

theorem sound_run (pages : 16 ∣ A.page) {byte : Nat → UInt8}
    (run : Run (State.step A) State.NoRace (.initial A byte) s) : Sound A s :=
  run.invariant (sound_initial A byte) fun _ _ _ ok quiet taken => ok.step pages quiet taken

/-- What a step writes outside the arena. -/
theorem Sound.step_hugeEffect (ok : Sound A s) (taken : s.step A e = some s') :
    HugeEffect A s.heap s'.heap (s.thread e.thread) e.answer := by
  obtain ⟨h, th, found, rfl⟩ := State.step_eq_some taken
  exact (ok.hugeEffect (stepOf_effect found)).1

end Machine

end WeaveC.Alloc
