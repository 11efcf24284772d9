import WeaveC.Alloc.HugeLife

/-!
# Recycled huge blocks

A sweep that recycles a huge block clears the shadow of its object and of one
granule behind it.  As long as no block's pages reach further, no granule of
memory that was unmapped is poison.
-/

namespace WeaveC.Alloc

open WeaveC.Runtime WeaveC.Library

variable {T : Type} {A : Arena} {h h' : Heap} {th : Thread} {a : Answer} {s s' : State T}
  {e : Event T}

/-! ## Blocks that stay -/

theorem HugeBlock.Cleared.congr {b c : HugeBlock} {j : Nat} (cleared : b.Cleared j)
    (same : c.extent = b.extent) : c.Cleared j := by
  obtain ⟨base, size, -⟩ := HugeBlock.mk.inj same
  unfold HugeBlock.Cleared at cleared ⊢
  rw [base, size]
  exact cleared

/-- Only a sweep takes a block out of the table. -/
theorem HugeEffect.stays (effect : HugeEffect A h h' th a) {b : HugeBlock}
    (mem : b ∈ h.huge.blocks) :
    (∃ c ∈ h'.huge.blocks, c.extent = b.extent) ∨ SweptHuge h h' := by
  cases effect with
  | still blocks _ =>
      rw [blocks]
      exact .inl ⟨b, mem, rfl⟩
  | inserted _ _ _ _ _ _ eq =>
      rw [eq]
      exact .inl ⟨b, (List.mem_insertIdx (countTo_le _ _)).mpr (.inr mem), rfl⟩
  | freed found =>
      obtain ⟨i, block, dead, listed, -, -, -, blocks, -⟩ := hugeFree_eq found
      rw [blocks]
      exact .inl (exists_same mem (extent_set listed rfl))
  | swept huge => exact .inr huge

/-- A sweep brings no block into the table. -/
theorem SweptHuge.old (huge : SweptHuge h h') (ok : HugeOk A h.huge.blocks) {c : HugeBlock}
    (mem : c ∈ h'.huge.blocks) : ∃ b ∈ h.huge.blocks, b.extent = c.extent := by
  obtain ⟨marked, keep, -, same, left, -⟩ := huge.split ok
  obtain ⟨m, listed, eq⟩ := exists_same mem (extent_of_unmarked left).symm
  obtain ⟨b, mem', eq'⟩ := exists_same (List.mem_of_mem_filter listed)
    (extent_of_unmarked same).symm
  exact ⟨b, mem', eq'.trans eq⟩

/-! ## Poison outside the arena -/

/-- Every poisoned granule outside the arena is one that a sweep which recycles
a block of the table clears. -/
def Tidy (A : Arena) (byte : Nat → UInt8) (h : Heap) : Prop :=
  ∀ j, A.Outside j → byte j = ShadowValue.addressable → h.shadow.byte j ≠ ShadowValue.addressable →
    ∃ b ∈ h.huge.blocks, b.Cleared j

/-- What `hugeAlloc` is asked for at a point. -/
def Point.asksHuge : Point → Option (Nat × Nat)
  | .huge size alignment _ => some (size, alignment)
  | _ => none

/-- A huge block that the step makes has at most one granule of its pages behind
its object. -/
def State.ShortTails (A : Arena) (s : State T) (e : Event T) : Prop :=
  s.NoRace e ∧ ∀ q ∈ (s.thread e.thread).point.asksHuge,
    (s.heap.hugeRequest A q.1 q.2).isSome = true → e.answer.map.isSome = true →
      e.answer.hugeTable = true → pageBytes A q.1 ≤ usedBytes q.1 + 16

instance [Fintype T] (s : State T) (e : Event T) : Decidable (s.ShortTails A e) :=
  inferInstanceAs (Decidable (_ ∧ ∀ _ ∈ _, _))

theorem Tidy.effect {byte : Nat → UInt8} (pages : 16 ∣ A.page) (tidy : Tidy A byte s.heap)
    (ok : Sound A s) (short : s.ShortTails A e)
    (effect : HugeEffect A s.heap h' (s.thread e.thread) e.answer) : Tidy A byte h' := by
  intro j out clear poison
  cases effect with
  | still blocks same =>
      rw [same j out] at poison
      rw [blocks]
      exact tidy j out clear poison
  | @inserted size alignment purpose request map point accepted asked mapped table unmapped eq =>
      have fits := (newBlock_ok pages accepted asked unmapped).1
      have short : pageBytes A size ≤ usedBytes size + 16 := by
        refine short.2 (size, alignment) ?_ ?_ ?_ table
        · rw [point]
          exact rfl
        · rw [asked]
          rfl
        · rw [mapped]
          rfl
      have shadow := (congrArg Heap.shadow eq).trans (hugeInsert_shadow asked)
      rw [eq]
      by_cases own : (newBlock size request map).Cleared j
      · exact ⟨_, (List.mem_insertIdx (countTo_le _ _)).mpr (.inl rfl), own⟩
      · rw [shadow, newBlock_frame pages ok.window fits] at poison
        · obtain ⟨b, mem, cleared⟩ := tidy j out clear poison
          exact ⟨b, (List.mem_insertIdx (countTo_le _ _)).mpr (.inr mem), cleared⟩
        · have sizes : (newBlock size request map).size = size := rfl
          unfold HugeBlock.Cleared at own
          unfold usedBytes at short
          rw [sizes] at own ⊢
          omega
  | freed found =>
      obtain ⟨i, block, dead, listed, -, -, -, blocks, shadow, -⟩ := hugeFree_eq found
      have mem : block ∈ s.heap.huge.blocks := List.mem_of_getElem? listed
      rw [blocks]
      have here : ∃ b ∈ s.heap.huge.blocks, b.Cleared j := by
        by_cases own : block.Cleared j
        · exact ⟨block, mem, own⟩
        · rw [shadow, hugeShadowDead_frame ok.window (ok.blocks.block block mem) pages] at poison
          · exact tidy j out clear poison
          · unfold HugeBlock.Cleared at own
            omega
      obtain ⟨b, mem, cleared⟩ := here
      have extents : (s.heap.huge.blocks.set i { block with dead := dead }).map HugeBlock.extent =
          s.heap.huge.blocks.map HugeBlock.extent := extent_set listed rfl
      obtain ⟨c, mem, same⟩ := exists_same mem extents
      exact ⟨c, mem, cleared.congr same⟩
  | swept huge =>
      obtain ⟨marked, keep, found, same, left, shadow⟩ := huge.split ok.blocks
      have dropped : ∀ g ∈ marked.filter fun block => !keep block, g.Ok A := fun g mem =>
        found.block g (List.mem_of_mem_filter mem)
      rw [shadow, clears_byte pages ok.window dropped] at poison
      split at poison
      · exact absurd rfl poison
      · rename_i others
        obtain ⟨b, mem, cleared⟩ := tidy j out clear poison
        obtain ⟨m, listed, eq⟩ := exists_same mem (extent_of_unmarked same)
        have cleared := cleared.congr eq
        have stays : keep m = true := by
          by_contra goes
          refine others ⟨m, List.mem_filter.mpr ⟨listed, ?_⟩, cleared⟩
          rw [Bool.not_eq_true] at goes
          rw [goes]
          rfl
        obtain ⟨c, mem', eq'⟩ := exists_same (List.mem_filter.mpr ⟨listed, stays⟩)
          (extent_of_unmarked left)
        exact ⟨c, mem', cleared.congr eq'⟩

section Runs

variable [DecidableEq T] {byte : Nat → UInt8}

theorem tidy_run (pages : 16 ∣ A.page)
    (run : Run (State.step A) (State.ShortTails A) (.initial A byte) s) :
    Sound A s ∧ Tidy A byte s.heap := by
  refine run.invariant (I := fun s => Sound A s ∧ Tidy A byte s.heap)
    ⟨sound_initial A byte, fun j _ clear poison => absurd clear poison⟩ ?_
  rintro s e s' ⟨ok, tidy⟩ short taken
  exact ⟨ok.step pages short.1 taken, tidy.effect pages ok short (ok.step_hugeEffect taken)⟩

/-- When a step takes a block out of the table, no granule of its mapping that
was addressable at the start is poison. -/
theorem huge_recycled_clean (pages : 16 ∣ A.page)
    (run : Run (State.step A) (State.ShortTails A) (.initial A byte) s) (short : s.ShortTails A e)
    (taken : s.step A e = some s') {b : HugeBlock} (mem : b ∈ s.heap.huge.blocks)
    (dropped : ∀ c ∈ s'.heap.huge.blocks, c.extent ≠ b.extent) :
    ∀ x, b.map ≤ x → x < b.map + b.mapBytes → byte (x / 16) = ShadowValue.addressable →
      s'.heap.shadow.byte (x / 16) = ShadowValue.addressable := by
  obtain ⟨ok, tidy⟩ := tidy_run pages run
  have tidy' := tidy.effect pages ok short (ok.step_hugeEffect taken)
  have fits := ok.blocks.block b mem
  intro x first last clear
  have holds : b.Holds (x / 16) := by
    have start := fits.start
    have whole := fits.whole
    unfold HugeBlock.Holds
    omega
  by_contra poison
  obtain ⟨c, mem', cleared⟩ := tidy' _ (fits.holds_outside holds) clear poison
  rcases (ok.step_hugeEffect taken).stays mem with ⟨d, stays, same⟩ | huge
  · exact dropped d stays same
  · obtain ⟨d, old, same⟩ := huge.old ok.blocks mem'
    rcases ok.blocks.apart_of_mem old mem with one | apart
    · exact dropped c mem' (one ▸ same.symm)
    · exact apart.holds ((cleared.congr same).holds (ok.blocks.block d old) pages) holds

/-- The granule of a block's pages past the one behind its object. -/
def HugeBlock.second (b : HugeBlock) : Nat := b.base / 16 + (b.size + 15) / 16 + 1

theorem HugeBlock.Ok.holds_second {b : HugeBlock} (ok : b.Ok A) (pages : 16 ∣ A.page)
    (long : usedBytes b.size + 16 < pageBytes A b.size) : b.Holds b.second := by
  have granule := ok.granule
  have least : 16 ≤ A.page := Nat.le_of_dvd A.pages pages
  unfold usedBytes at long
  unfold HugeBlock.second
  exact ok.holds pages (by omega) (by omega)

theorem second_run (pages : 16 ∣ A.page)
    (run : Run (State.step A) State.NoRace (.initial A byte) s) :
    Sound A s ∧ ∀ b ∈ s.heap.huge.blocks, usedBytes b.size + 16 < pageBytes A b.size →
      s.heap.shadow.byte b.second = ShadowValue.heapTail := by
  refine run.invariant (I := fun s => Sound A s ∧ ∀ b ∈ s.heap.huge.blocks,
    usedBytes b.size + 16 < pageBytes A b.size →
      s.heap.shadow.byte b.second = ShadowValue.heapTail) ⟨sound_initial A byte, ?_⟩ ?_
  · intro b mem
    cases mem
  · rintro s e s' ⟨ok, tail⟩ quiet taken
    refine ⟨ok.step pages quiet taken, fun b mem long => ?_⟩
    cases (ok.step_hugeEffect taken).block pages ok.blocks ok.window mem with
    | @kept c old same bytes =>
        obtain ⟨base, size, -⟩ := HugeBlock.mk.inj same
        have place : b.second = c.second := by
          unfold HugeBlock.second
          rw [base, size]
        rw [size] at long
        rw [place, bytes _ ((ok.blocks.block c old).holds_second pages long)]
        exact tail c old long
    | made live fits shadow =>
        have whole := (used_le_pageBytes pages b.size).2.1
        unfold usedBytes at long
        unfold HugeBlock.second
        rw [shadow, newBlock_byte pages ok.window fits, if_pos]
        unfold Shadow.tailLimit
        omega
    | @freed c dead old live gone same shadow =>
        subst same
        have fits := ok.blocks.block c old
        have out : c.base / 16 + (c.size + 15) / 16 ≤ c.second := Nat.le_succ _
        change s'.heap.shadow.byte c.second = _
        rw [shadow, hugeShadowDead_frame ok.window fits pages (.inr out)]
        exact tail c old long

/-- A block with more of its pages behind its object leaves poison when a step
takes it out of the table. -/
theorem second_dropped (pages : 16 ∣ A.page)
    (run : Run (State.step A) State.NoRace (.initial A byte) s)
    (taken : s.step A e = some s') {b : HugeBlock} (mem : b ∈ s.heap.huge.blocks)
    (dropped : ∀ c ∈ s'.heap.huge.blocks, c.extent ≠ b.extent)
    (long : usedBytes b.size + 16 < pageBytes A b.size) :
    s'.heap.shadow.byte b.second = ShadowValue.heapTail := by
  obtain ⟨ok, tail⟩ := second_run pages run
  have holds := (ok.blocks.block b mem).holds_second pages long
  rcases (ok.step_hugeEffect taken).stays mem with ⟨c, stays, same⟩ | huge
  · exact absurd same (dropped c stays)
  · obtain ⟨marked, keep, found, same, -, shadow⟩ := huge.split ok.blocks
    have gone : ∀ g ∈ marked.filter fun block => !keep block, g.Ok A := fun g mem =>
      found.block g (List.mem_of_mem_filter mem)
    rw [shadow, clears_byte pages ok.window gone, if_neg]
    · exact tail b mem long
    · rintro ⟨g, mem', cleared⟩
      obtain ⟨c, old, extent⟩ := exists_same (List.mem_of_mem_filter mem')
        (extent_of_unmarked same).symm
      have cleared := cleared.congr extent
      rcases ok.blocks.apart_of_mem old mem with one | apart
      · rw [one] at cleared
        have last := cleared.2
        unfold HugeBlock.second at last
        omega
      · exact apart.holds (cleared.holds (ok.blocks.block c old) pages) holds

/-- A block of `size` bytes at 1 TiB, allocated and released, up to the sweep's
section with the world stopped. -/
def releasedSwept (size : Nat) : List (Event Unit) :=
  allocatedReleased size ++ List.replicate 9 (.next ())

theorem huge_recycled_page : ∃ s s' : State Unit,
    Run (State.step .sample) (State.ShortTails .sample) (.initial .sample fun _ => 0) s ∧
      s.step .sample (.next ()) = some s' ∧
        ∃ b ∈ s.heap.huge.blocks, ∀ x, b.map ≤ x → x < b.map + b.mapBytes →
          s'.heap.shadow.byte (x / 16) = ShadowValue.addressable := by
  obtain ⟨s, run, seen⟩ : ∃ s : State Unit,
      Run (State.step .sample) (State.ShortTails .sample) (.initial .sample fun _ => 0) s ∧
        (s.heap.huge.blocks, decide (s.ShortTails .sample (.next ())),
          (s.step .sample (.next ())).map fun s' => s'.heap.huge.blocks) =
          ([releasedBlock 0x20001000 0x20002000], true, some []) :=
    Run.exists_exec (releasedSwept 0x20001000) (by decide +kernel)
  obtain ⟨blocks, rest⟩ := Prod.mk.inj seen
  obtain ⟨short, swept⟩ := Prod.mk.inj rest
  obtain ⟨s', taken, empty⟩ := Option.map_eq_some_iff.mp swept
  have mem : releasedBlock 0x20001000 0x20002000 ∈ s.heap.huge.blocks := by
    rw [blocks]
    exact List.mem_singleton_self _
  refine ⟨s, s', run, taken, _, mem, fun x first last => ?_⟩
  refine huge_recycled_clean (by decide) run (of_decide_eq_true short) taken mem ?_ x first last rfl
  intro c mem
  rw [empty] at mem
  cases mem

/-- The last granules of the pages of a block of 512 MiB and 4000 bytes stay
poison. -/
theorem huge_recycled_stale : ∃ s s' : State Unit,
    Run (State.step .sample) State.NoRace (.initial .sample fun _ => 0) s ∧
      s.step .sample (.next ()) = some s' ∧ s'.heap.huge.blocks = [] ∧
        ∃ b ∈ s.heap.huge.blocks, ∃ x, b.map ≤ x ∧ x < b.map + b.mapBytes ∧
          s'.heap.shadow.byte (x / 16) = ShadowValue.heapTail := by
  obtain ⟨s, run, seen⟩ : ∃ s : State Unit,
      Run (State.step .sample) State.NoRace (.initial .sample fun _ => 0) s ∧
        (s.heap.huge.blocks, (s.step .sample (.next ())).map fun s' =>
          (s'.heap.huge.blocks, s'.heap.shadow.byte 0x10020000fb)) =
          ([releasedBlock 0x20000FA0 0x20002000], some ([], ShadowValue.heapTail)) :=
    Run.exists_exec (releasedSwept 0x20000FA0) (by decide +kernel)
  obtain ⟨blocks, swept⟩ := Prod.mk.inj seen
  obtain ⟨s', taken, after⟩ := Option.map_eq_some_iff.mp swept
  obtain ⟨empty, stale⟩ := Prod.mk.inj after
  have mem : releasedBlock 0x20000FA0 0x20002000 ∈ s.heap.huge.blocks := by
    rw [blocks]
    exact List.mem_singleton_self _
  exact ⟨s, s', run, taken, empty, _, mem, 0x10020000fb0, by decide, by decide, stale⟩

end Runs

end WeaveC.Alloc
