import WeaveC.Alloc.Objects
import WeaveC.Alloc.Scanned
import WeaveC.Alloc.Slots

/-!
# No reuse while a pointer remains

A released slot is not reused, and a released huge block's mapping is not
unmapped, by any step but a sweep that stopped the world after the slot was
queued, marked from every word it scans, and found none that is an address inside.
This is so where every sweep that marks in parallel is thorough: one that cuts a
word in two misses a pointer.
-/

namespace WeaveC.Alloc

open WeaveC.Library

variable {T : Type} {A : Arena} {h h' : Heap} {th th' : Thread} {s s' : State T} {e : Event T}
  {place : Slot → Place T} {x : Slot}

namespace State

/-- Being released by a thread, in a thread's cache of released slots, or in its
region's quarantine queue. -/
def Released (s : State T) (x : Slot) : Prop :=
  (∃ t, s.At x (.retiring t)) ∨ (∃ t c, s.At x (.released t c)) ∨ s.At x .queued

/-- On its region's free list, in a thread's cache of free slots, taken by an
allocation, or live. -/
def Reusable (s : State T) (x : Slot) : Prop :=
  s.At x .free ∨ (∃ t c, s.At x (.cached t c)) ∨ (∃ t, s.At x (.taken t)) ∨ s.At x .live

/-- The block has been unmapped, or a live block has a byte of its mapping. -/
def Unmapped (s : State T) (b : HugeBlock) : Prop :=
  (∀ c ∈ s.heap.huge.blocks, c.unmarked ≠ b.unmarked) ∨
    ∃ c ∈ s.heap.huge.blocks, c.dead = 0 ∧ ¬ c.Apart b

/-- The step is a sweep that stops the world and marks, and no register or word
that it scans has an address in `[low, high)`. -/
def Clears (A : Arena) (s : State T) (e : Event T) (low high : Nat) : Prop :=
  (∃ k, (s.thread e.thread).point = .world k) ∧ e.answer.worldMapped = true ∧
    s.heap.Clears A e.answer.world e.answer.world.scan low high

/-- The step takes no block away from a reallocation in place, and if it is a sweep
that marks, it is a thorough one. -/
def Thorough (A : Arena) (s : State T) (e : Event T) : Prop :=
  s.NoRace e ∧ ((∃ k, (s.thread e.thread).point = .world k) → e.answer.worldMapped = true →
    s.heap.Marks e.answer.world → s.heap.Thorough A e.answer.world)

end State

/-! ## Slots -/

namespace Partition

theorem released_iff (ok : Partition A s place) :
    s.Released x ↔ (s.heap.table.word x).state = .dead := by
  unfold State.Released
  simp only [ok.at_iff]
  rw [(ok.table.word x).dead_iff]
  cases place x <;> simp [Place.Claimed]

theorem reusable_iff (ok : Partition A s place) (used : (s.heap.table.word x).state ≠ .never) :
    s.Reusable x ↔ (s.heap.table.word x).state ≠ .dead := by
  have placed := ok.used_of_word used
  unfold State.Reusable
  simp only [ok.at_iff]
  rw [ne_eq, (ok.table.word x).dead_iff]
  cases at' : place x <;> simp_all [Place.Claimed]

theorem not_dead (ok : Partition A s place) {y : Slot}
    (other : ¬ ((place y).Claimed ∨ place y = .queued)) :
    (s.heap.table.word y).state ≠ .dead :=
  fun dead => other ((ok.table.word y).dead_iff.mp dead)

/-- Only a sweep takes a slot out of release. -/
theorem word_dead (ok : Partition A s place) (taken : s.stepOf A e = some (h', th'))
    (dead : (s.heap.table.word x).state = .dead) :
    (h'.table.word x).state = .dead ∨ ∃ k, (s.thread e.thread).point = .world k := by
  have stored {y : Slot} (other : (s.heap.table.word y).state ≠ .dead) (w : Word) :
      (s.heap.table.setWord y w).word x = s.heap.table.word x := by
    refine Table.word_setWord_of_ne ?_ _ _
    rintro rfl
    exact other dead
  cases stepOf_effect taken with
  | calm _ _ older steady =>
      left
      cases state : (h'.table.word x).state with
      | never => exact absurd dead ((older x.region).never x.index state ▸ WordState.noConfusion)
      | live =>
          have same : h'.table.word x = s.heap.table.word x := (older x.region).live x.index state
          rw [← state, same]
          exact dead
      | free => exact absurd dead ((steady x.region).free x.index state ▸ WordState.noConfusion)
      | dead => rfl
  | @returned c i k point held eq =>
      have within : s.allocHeld e.thread c = ⟨((s.thread e.thread).cache.alloc c).slots, i,
          ((s.thread e.thread).cache.alloc c).count⟩ := by
        unfold State.allocHeld
        rw [point]
        exact if_pos rfl
      have cached : place (((s.thread e.thread).cache.alloc c).slots i).place =
          .cached e.thread c := by
        refine (ok.at_iff _ _).mp ?_
        unfold State.At
        dsimp only
        rw [within]
        exact ⟨i, Nat.le_refl _, held, rfl⟩
      rw [eq]
      left
      change ((s.heap.table.setRegion _ _).word x).state = .dead
      rw [Table.word_giveBack, stored (ok.not_dead (by rw [cached]; exact not_or.mpr ⟨id, by simp⟩))]
      exact dead
  | @stored y size point eq =>
      rw [eq]
      left
      rw [stored (ok.not_dead ?_)]
      · exact dead
      · rcases point with ⟨w, slot, point, rfl, -⟩ | point
        · rw [((ok.thread e.thread).taken slot.place).mpr (congrArg Point.taken point)]
          exact not_or.mpr ⟨id, by simp⟩
        · rw [(ok.resizing_spec (congrArg Point.resizing point)).1]
          exact not_or.mpr ⟨id, by simp⟩
  | popped _ eq =>
      rw [eq]
      exact .inl ((congrArg Word.state (Table.word_popped _ _ _ _ _ x)).trans dead)
  | made _ eq | resized _ eq | released _ eq | inserted _ _ _ _ _ eq =>
      rw [eq]
      exact .inl dead
  | freed _ found =>
      obtain ⟨-, -, -, -, -, -, -, -, -, table⟩ := hugeFree_eq found
      rw [table]
      exact .inl dead
  | swept point _ _ => exact .inr ⟨_, point⟩

end Partition

/-! ## Huge blocks -/

/-- Only a sweep takes a released huge block out of the table. -/
theorem huge_stays {b : HugeBlock} (taken : s.stepOf A e = some (h', th'))
    (mem : b ∈ s.heap.huge.blocks) (dead : b.dead ≠ 0) :
    b ∈ h'.huge.blocks ∨ ∃ k, (s.thread e.thread).point = .world k := by
  cases stepOf_effect taken with
  | calm _ huge _ _ =>
      rw [huge]
      exact .inl mem
  | returned _ _ eq | stored _ eq | popped _ eq | made _ eq | resized _ eq | released _ eq =>
      rw [eq]
      exact .inl mem
  | inserted _ _ _ _ _ eq =>
      rw [eq]
      exact .inl ((List.mem_insertIdx (countTo_le _ _)).mpr (.inr mem))
  | freed _ found =>
      obtain ⟨i, block, listed, live, -, rfl⟩ := hugeFree_heap found
      obtain ⟨j, listed'⟩ := List.mem_iff_getElem?.mp mem
      have other : i ≠ j := by
        rintro rfl
        obtain rfl := Option.some.inj (listed.symm.trans listed')
        exact dead live
      refine .inl (List.mem_of_getElem? (i := j) ?_)
      exact (List.getElem?_set_ne other).trans listed'
  | swept point _ _ => exact .inr ⟨_, point⟩

/-- While a released block is listed no live block has a byte of its mapping. -/
theorem Huge.Ordered.unmapped_iff (ordered : s.heap.huge.Ordered A) {b : HugeBlock}
    (dead : b.dead ≠ 0) :
    s.Unmapped b ↔ ∀ c ∈ s.heap.huge.blocks, c.unmarked ≠ b.unmarked := by
  refine ⟨fun lost c mem same => ?_, .inl⟩
  rcases lost with gone | ⟨d, mem', live, shared⟩
  · exact gone c mem same
  · obtain ⟨-, -, map, mapBytes, still, -⟩ := HugeBlock.mk.inj same
    refine shared ?_
    obtain ⟨i, listed⟩ := List.mem_iff_getElem?.mp mem
    obtain ⟨j, listed'⟩ := List.mem_iff_getElem?.mp mem'
    unfold HugeBlock.Apart
    rw [← map, ← mapBytes]
    rcases Nat.lt_trichotomy i j with less | rfl | more
    · exact .inr (ordered.before listed listed' less)
    · obtain rfl := Option.some.inj (listed.symm.trans listed')
      exact absurd live (still ▸ dead)
    · exact .inl (ordered.before listed' listed more)

/-! ## Every step -/

/-- What every step keeps: the slot partition, no mark set between sweeps, and the
huge table's order. -/
structure Tended (A : Arena) (s : State T) : Prop where
  places : ∃ place, Partition A s place
  unmarked : s.heap.Unmarked
  ordered : s.heap.huge.Ordered A

section Machine

variable [DecidableEq T]

theorem Tended.step (ok : Tended A s) (quiet : s.NoRace e) (taken : s.step A e = some s') :
    Tended A s' := by
  obtain ⟨place, partition⟩ := ok.places
  have places := partition.step quiet taken
  obtain ⟨h, th, found, rfl⟩ := State.step_eq_some taken
  exact ⟨places, ok.unmarked.step partition found, ok.ordered.step found⟩

theorem tended_run {byte : Nat → UInt8}
    (run : Run (State.step A) State.NoRace (.initial A byte) s) : Tended A s := by
  refine run.invariant (I := Tended A) ?_ fun _ _ _ ok quiet taken => ok.step quiet taken
  refine ⟨⟨_, partition_initial A byte⟩, ⟨?_, fun b mem => absurd mem List.not_mem_nil⟩,
    ordered_initial⟩
  rintro x ⟨set, mapped, -⟩
  have none : ((Table.initial A).region x.region).marks = none := by
    unfold Table.initial
    dsimp only
    split <;> rfl
  exact absurd (none.symm.trans mapped) (Option.some_ne_none _).symm

/-- A step makes a released slot reusable exactly when it is a sweep, the slot is
queued, and nothing that the sweep marks from is an address inside the slot. -/
theorem Tended.reused_iff_of_marksFrom (ok : Tended A s) (quiet : s.NoRace e)
    (taken : s.step A e = some s') {scan : Scan}
    (reads : (∃ k, (s.thread e.thread).point = .world k) → e.answer.worldMapped = true →
      s.heap.Marks e.answer.world → s.heap.MarksFrom A e.answer.world scan)
    (released : s.Released x) :
    s'.Reusable x ↔ s.At x .queued ∧ (∃ k, (s.thread e.thread).point = .world k) ∧
      e.answer.worldMapped = true ∧ s.heap.Clears A e.answer.world scan (s.heap.table.slotBase A x)
        (s.heap.table.slotBase A x + s.heap.table.slotBytes x) := by
  obtain ⟨place, partition⟩ := ok.places
  obtain ⟨place', partition'⟩ := (ok.step quiet taken).places
  have dead := partition.released_iff.mp released
  obtain ⟨h, th, found, rfl⟩ := State.step_eq_some taken
  have used : (h.table.word x).state ≠ .never := by
    intro never
    rw [(stepOf_effect found).never never] at dead
    cases dead
  rw [partition'.reusable_iff used, partition.at_iff]
  dsimp only
  by_cases world : ∃ k, (s.thread e.thread).point = .world k
  · obtain ⟨k, point⟩ := world
    rcases stepOf_world found point with ⟨mapped, rfl⟩ | ⟨unmapped, rfl⟩
    · rw [ne_eq, Heap.swept_dead_iff partition ok.unmarked (reads ⟨k, point⟩ mapped) dead, not_not]
      exact and_congr_right fun _ =>
        ⟨fun clears => ⟨⟨k, point⟩, mapped, clears⟩, fun all => all.2.2⟩
    · refine iff_of_false (not_not.mpr dead) ?_
      rintro ⟨-, -, mapped, -⟩
      rw [unmapped] at mapped
      cases mapped
  · refine iff_of_false (not_not.mpr ?_) fun all => world all.2.1
    exact (partition.word_dead found dead).resolve_right world

theorem Tended.reused_iff (ok : Tended A s) (thorough : s.Thorough A e)
    (taken : s.step A e = some s') (released : s.Released x) :
    s'.Reusable x ↔ s.At x .queued ∧ s.Clears A e (s.heap.table.slotBase A x)
      (s.heap.table.slotBase A x + s.heap.table.slotBytes x) := by
  obtain ⟨place, partition⟩ := ok.places
  exact ok.reused_iff_of_marksFrom thorough.1 taken (fun world mapped marks =>
    Heap.marksFrom_of_thorough partition.table (thorough.2 world mapped marks)) released

/-- A step unmaps a released huge block exactly when it is a sweep and nothing that
the sweep scans is an address inside the block's mapping. -/
theorem Tended.unmapped_iff (ok : Tended A s) (thorough : s.Thorough A e)
    (taken : s.step A e = some s') {b : HugeBlock} (mem : b ∈ s.heap.huge.blocks) (dead : b.dead ≠ 0) :
    s'.Unmapped b ↔ s.Clears A e b.map (b.map + b.mapBytes) := by
  obtain ⟨place, partition⟩ := ok.places
  have ordered' := (ok.step thorough.1 taken).ordered
  rw [ordered'.unmapped_iff dead]
  obtain ⟨h, th, found, rfl⟩ := State.step_eq_some taken
  unfold State.Clears
  dsimp only
  by_cases world : ∃ k, (s.thread e.thread).point = .world k
  · obtain ⟨k, point⟩ := world
    rcases stepOf_world found point with ⟨mapped, rfl⟩ | ⟨unmapped, rfl⟩
    · have reads (marks : s.heap.Marks e.answer.world) :=
        Heap.marksFrom_of_thorough partition.table (thorough.2 ⟨k, point⟩ mapped marks)
      rw [Heap.swept_gone_iff ok.ordered ok.unmarked reads mem dead]
      exact ⟨fun clears => ⟨⟨k, point⟩, mapped, clears⟩, fun all => all.2.2⟩
    · refine iff_of_false (fun gone => gone b mem rfl) ?_
      rintro ⟨-, mapped, -⟩
      rw [unmapped] at mapped
      cases mapped
  · refine iff_of_false (fun gone => ?_) fun all => world all.1
    exact gone b ((huge_stays found mem dead).resolve_right world) rfl

/-! ## Every run -/

/-- On the way from one state to the other there is a sweep which finds no address
in `[low, high)`, from a state of which `P` holds. -/
def ClearedBetween (A : Arena) (s s' : State T) (P : State T → Prop) (low high : Nat) : Prop :=
  ∃ u e v, Run (State.step A) (State.Thorough A) s u ∧ u.Thorough A e ∧ u.step A e = some v ∧
    Run (State.step A) (State.Thorough A) v s' ∧ P u ∧ u.Clears A e low high

/-- A slot that was handed out stays where it is. -/
theorem Tended.slot_run (ok : Tended A s) (used : (s.heap.table.word x).state ≠ .never)
    (onward : Run (State.step A) (State.Thorough A) s s') :
    Tended A s' ∧ (s'.heap.table.word x).state ≠ .never ∧
      s'.heap.table.slotBase A x = s.heap.table.slotBase A x ∧
        s'.heap.table.slotBytes x = s.heap.table.slotBytes x := by
  refine onward.invariant (I := fun u => Tended A u ∧ (u.heap.table.word x).state ≠ .never ∧
    u.heap.table.slotBase A x = s.heap.table.slotBase A x ∧
      u.heap.table.slotBytes x = s.heap.table.slotBytes x) ⟨ok, used, rfl, rfl⟩ ?_
  rintro u e v ⟨ok, used, base, bytes⟩ ⟨quiet, -⟩ taken
  obtain ⟨place, partition⟩ := ok.places
  have placed := partition.used_of_word used
  refine ⟨ok.step quiet taken, ?_, (partition.step_slotBase taken placed).trans base,
    (partition.step_slotBytes taken placed).trans bytes⟩
  obtain ⟨h, th, found, rfl⟩ := State.step_eq_some taken
  exact fun never => used ((stepOf_effect found).never never)

/-- A released slot that is reused has been recycled by such a sweep. -/
theorem Tended.cleared_of_reused (ok : Tended A s) (released : s.Released x)
    (onward : Run (State.step A) (State.Thorough A) s s') (reused : s'.Reusable x) :
    ClearedBetween A s s' (fun u => u.At x .queued) (s.heap.table.slotBase A x)
      (s.heap.table.slotBase A x + s.heap.table.slotBytes x) := by
  obtain ⟨place, partition⟩ := ok.places
  have dead := partition.released_iff.mp released
  have used : (s.heap.table.word x).state ≠ .never := dead ▸ WordState.noConfusion
  have left : (s'.heap.table.word x).state ≠ .dead := by
    obtain ⟨ok', used', -⟩ := ok.slot_run used onward
    obtain ⟨place', partition'⟩ := ok'.places
    exact (partition'.reusable_iff used').mp reused
  obtain ⟨u, e, v, first, thorough, taken, rest, still, leaves⟩ :=
    onward.exists_step (P := fun u => (u.heap.table.word x).state = .dead) dead left
  obtain ⟨okU, usedU, base, bytes⟩ := ok.slot_run used first
  obtain ⟨-, usedV, -⟩ := ok.slot_run used (first.tail thorough taken)
  obtain ⟨placeU, partitionU⟩ := okU.places
  obtain ⟨placeV, partitionV⟩ := (okU.step thorough.1 taken).places
  obtain ⟨queued, clears⟩ := (okU.reused_iff thorough taken (partitionU.released_iff.mpr still)).mp
    ((partitionV.reusable_iff usedV).mpr leaves)
  rw [base, bytes] at clears
  exact ⟨u, e, v, first, thorough, taken, rest, queued, clears⟩

/-- A released huge block that is unmapped has been recycled by such a sweep. -/
theorem Tended.cleared_of_unmapped (ok : Tended A s) {b : HugeBlock}
    (mem : b ∈ s.heap.huge.blocks) (dead : b.dead ≠ 0)
    (onward : Run (State.step A) (State.Thorough A) s s') (unmapped : s'.Unmapped b) :
    ClearedBetween A s s' (fun u => b ∈ u.heap.huge.blocks) b.map (b.map + b.mapBytes) := by
  have tended {u : State T} (run : Run (State.step A) (State.Thorough A) s u) : Tended A u :=
    run.invariant ok fun _ _ _ ok thorough taken => ok.step thorough.1 taken
  have left : b ∉ s'.heap.huge.blocks := fun mem =>
    ((tended onward).ordered.unmapped_iff dead).mp unmapped b mem rfl
  obtain ⟨u, e, v, first, thorough, taken, rest, still, leaves⟩ :=
    onward.exists_step (P := fun u => b ∈ u.heap.huge.blocks) mem left
  have onward' := first.tail thorough taken
  refine ⟨u, e, v, first, thorough, taken, rest, still, ?_⟩
  refine ((tended first).unmapped_iff thorough taken still dead).mp
    (((tended onward').ordered.unmapped_iff dead).mpr fun c mem' same => leaves ?_)
  have clean := (tended onward').unmarked.blocks c mem'
  have clean' := (tended first).unmarked.blocks b still
  obtain ⟨base, size, map, mapBytes, dead', -⟩ := HugeBlock.mk.inj same
  have one : c = b := by
    cases c
    cases b
    simp_all
  exact one ▸ mem'

/-- Where every parallel sweep is thorough, no released slot is reused, and no released
huge block unmapped, while a register or a word that a sweep scans has an address
inside: the step that does it is a sweep that has marked from all of these, and
every such sweep does it.  A slot that is claimed and not queued when the world
stops stays. -/
theorem no_reuse_while_pointer {byte : Nat → UInt8}
    (run : Run (State.step A) (State.Thorough A) (.initial A byte) s) :
    (∀ e s', s.Thorough A e → s.step A e = some s' →
      (∀ x, s.Released x → (s'.Reusable x ↔ s.At x .queued ∧
        s.Clears A e (s.heap.table.slotBase A x)
          (s.heap.table.slotBase A x + s.heap.table.slotBytes x))) ∧
      ∀ b ∈ s.heap.huge.blocks, b.dead ≠ 0 →
        (s'.Unmapped b ↔ s.Clears A e b.map (b.map + b.mapBytes))) ∧
    ∀ s', Run (State.step A) (State.Thorough A) s s' →
      (∀ x, s.Released x → s'.Reusable x →
        ClearedBetween A s s' (fun u => u.At x .queued) (s.heap.table.slotBase A x)
          (s.heap.table.slotBase A x + s.heap.table.slotBytes x)) ∧
      ∀ b ∈ s.heap.huge.blocks, b.dead ≠ 0 → s'.Unmapped b →
        ClearedBetween A s s' (fun u => b ∈ u.heap.huge.blocks) b.map (b.map + b.mapBytes) := by
  have ok := tended_run (run.mono fun _ _ thorough => thorough.1)
  refine ⟨fun e s' thorough taken => ⟨fun x released => ?_, fun b mem dead => ?_⟩,
    fun s' onward => ⟨fun x released reused => ?_, fun b mem dead unmapped => ?_⟩⟩
  · exact ok.reused_iff thorough taken released
  · exact ok.unmapped_iff thorough taken mem dead
  · exact ok.cleared_of_reused released onward reused
  · exact ok.cleared_of_unmapped mem dead onward unmapped

/-- Two objects of 192 MiB, the first released and queued, up to the sweep's section
with the world stopped. -/
def releasedLarge : List (Event Unit) :=
  .enter () (.alloc 0xC000000 0) :: List.replicate 5 (.next ()) ++
    .enter () (.alloc 0xC000000 0) :: List.replicate 5 (.next ()) ++
      .enter () (.free 0x2D80000000) :: List.replicate 16 (.next ())

/-- The next step of a thread, a sweep with one worker that scans `[low, high)`. -/
def sweptOver (low high : Nat) (bytes : low < high) (memory : Nat → Nat) : Event Unit :=
  ⟨(), none,
    { Answer.sample with
      world :=
        { Answer.sample.world with
          workers := 1
          scan := ⟨[(low, high)], memory⟩
          ordered := by simpa using bytes } }⟩

/-- Memory with the address of the first object's seventeenth byte in one word. -/
def pointerAt (cell : Nat) : Nat → Nat := fun address => if address = cell then 0x2D80000010 else 0

/-- A sweep over a word that points into the object. -/
def pointed : Event Unit := sweptOver 0x1004 0x1010 (by decide) (pointerAt 0x1008)

/-- A sweep that finds no pointer. -/
def unpointed : Event Unit := sweptOver 0x1004 0x1010 (by decide) fun _ => 0

/-- A sweep over a range that starts inside a word, and whose first chunk ends inside
the one that points into the object. -/
def cutPointed : Event Unit := sweptOver 0x10004 0x410010 (by decide) (pointerAt 0x410000)

/-- The next step is a sweep that marks in parallel and lists `count` items. -/
def State.Lists (s : State Unit) (e : Event Unit) (count : Nat) : Prop :=
  (s.NoRace e ∧ (s.step .sample e).isSome = true) ∧ s.heap.Marks e.answer.world ∧
    s.heap.Parallel e.answer.world ∧ (s.heap.listed .sample e.answer.world).work.length = count

instance (s : State Unit) (e : Event Unit) (count : Nat) : Decidable (s.Lists e count) :=
  inferInstanceAs (Decidable (_ ∧ _))

theorem State.Lists.thorough {s : State Unit} {low high : Nat} {bytes : low < high}
    {memory : Nat → Nat} (lists : s.Lists (sweptOver low high bytes memory) 3)
    (uncut : ¬ Sweep.Cut ⟨low, high⟩) : s.Thorough .sample (sweptOver low high bytes memory) := by
  obtain ⟨⟨quiet, -⟩, -, -, count⟩ := lists
  refine ⟨quiet, fun _ _ _ _ => ⟨fun range mem => ?_, ?_⟩⟩
  · obtain rfl := List.mem_singleton.mp mem
    exact uncut
  · obtain ⟨pool, run, seen⟩ : ∃ pool, Run (Sweep.Pool.step 1) Sweep.Pool.Quiet .initial pool ∧
        (pool.sweeper, pool.workerCount, pool.workCount) = (.returned, 1, 3) :=
      Run.exists_exec (Sweep.Pool.roundOf 3) (by decide +kernel)
    simp only [Prod.mk.injEq] at seen
    obtain ⟨returned, workers, items⟩ := seen
    rw [count]
    exact ⟨1, pool, run, returned, workers, items, fun _ _ _ => rfl⟩

theorem exists_releasedLarge : ∃ s : State Unit,
    Run (State.step .sample) (State.Thorough .sample) (.initial .sample fun _ => 0) s ∧
      (∃ k, (s.thread ()).point = .world k) ∧ (s.heap.table.word ⟨90, 0⟩).state = .dead ∧
        s.At ⟨90, 0⟩ .queued ∧ s.heap.table.slotBase .sample ⟨90, 0⟩ = 0x2D80000000 ∧
          s.heap.table.slotBytes ⟨90, 0⟩ = 0xE000000 ∧ s.heap.huge.blocks = [] ∧
            s.Lists pointed 3 ∧ s.Lists unpointed 3 ∧ s.Lists cutPointed 4 := by
  let early (s : State Unit) (e : Event Unit) : Prop :=
    s.NoRace e ∧ (s.thread e.thread).point.sweeps = false
  obtain ⟨s, run, seen⟩ : ∃ s : State Unit,
      Run (State.step .sample) early (.initial .sample fun _ => 0) s ∧
        (s.heap.table.word ⟨90, 0⟩,
          [s.heap.table.slotBase .sample ⟨90, 0⟩, s.heap.table.slotBytes ⟨90, 0⟩,
            (s.heap.table.region 90).deadHead, (s.heap.table.region 90).deadTail,
            (s.heap.table.region 90).nextOf 0],
          s.heap.huge.blocks,
          [(s.thread ()).point.sweeps, decide (s.Lists pointed 3), decide (s.Lists unpointed 3),
            decide (s.Lists cutPointed 4)]) =
        (⟨0, .dead⟩, [0x2D80000000, 0xE000000, 1, 1, 0], [], [true, true, true, true]) :=
    Run.exists_exec releasedLarge (by decide +kernel)
  simp only [Prod.mk.injEq, List.cons.injEq, decide_eq_true_eq, and_true] at seen
  obtain ⟨word, ⟨base, bytes, head, tail, next⟩, blocks, sweeps, lists⟩ := seen
  refine ⟨s, run.mono fun u e taken => ⟨taken.1, fun ⟨k, point⟩ => ?_⟩, ?_,
    congrArg Word.state word, ⟨[0], ⟨⟨head, next⟩, .inr ⟨[], ?_, ?_⟩⟩, List.mem_singleton_self 0⟩,
    base, bytes, blocks, lists⟩
  · have stopped := taken.2
    rw [point] at stopped
    cases stopped
  · cases point : (s.thread ()).point with
    | world k => exact ⟨k, rfl⟩
    | _ =>
        rw [point] at sweeps
        cases sweeps
  · rw [tail]
    rfl
  · rw [tail]
    exact Nat.one_ne_zero

/-- The sweep that scans a pointer to the object keeps the slot, and the one that
scans none recycles it. -/
theorem no_reuse_while_pointer_large : ∃ s : State Unit,
    Run (State.step .sample) (State.Thorough .sample) (.initial .sample fun _ => 0) s ∧
      s.heap.Parallel pointed.answer.world ∧
        (∃ s', s.step .sample pointed = some s' ∧ ¬ s'.Reusable ⟨90, 0⟩) ∧
          ∃ s', s.step .sample unpointed = some s' ∧ s'.Reusable ⟨90, 0⟩ ∧
            ClearedBetween .sample s s' (fun u => u.At ⟨90, 0⟩ .queued) 0x2D80000000
              0x2D8E000000 := by
  obtain ⟨s, run, stopped, dead, queued, base, bytes, -, lists, lists', -⟩ := exists_releasedLarge
  obtain ⟨place, partition⟩ := partition_run (run.mono fun _ _ thorough => thorough.1)
  have released : s.Released ⟨90, 0⟩ := partition.released_iff.mpr dead
  obtain ⟨kept, taken⟩ := Option.isSome_iff_exists.mp lists.1.2
  obtain ⟨free, taken'⟩ := Option.isSome_iff_exists.mp lists'.1.2
  have thorough : s.Thorough .sample pointed := lists.thorough (by decide)
  have thorough' : s.Thorough .sample unpointed := lists'.thorough (by decide)
  obtain ⟨each, runs⟩ := no_reuse_while_pointer run
  have onward : Run (State.step .sample) (State.Thorough .sample) s free :=
    .tail .refl thorough' taken'
  have reusable : free.Reusable ⟨90, 0⟩ := by
    refine ((each unpointed free thorough' taken').1 _ released).mpr ⟨queued, stopped, rfl,
      lists'.2.1, rfl, rfl, ?_⟩
    rintro value (mem | ⟨low, high, cell, -, -, rfl⟩)
    · cases mem
    · rw [base, bytes]
      change ¬ (0x2D80000000 ≤ 0 ∧ 0 < 0x2D80000000 + 0xE000000)
      decide
  refine ⟨s, run, lists.2.2.1, ⟨kept, taken, fun reused => ?_⟩, free, taken', reusable, ?_⟩
  · obtain ⟨-, -, -, clears⟩ := ((each pointed kept thorough taken).1 _ released).mp reused
    refine clears.none 0x2D80000010 (.inr ⟨0x1004, 0x1010, 0x1008, .range ?_, ?_, rfl⟩) ?_
    · exact List.mem_singleton_self _
    · exact ⟨by decide, by decide, by decide⟩
    · rw [base, bytes]
      decide
  · have cleared := (runs free onward).1 _ released reusable
    rw [base, bytes] at cleared
    exact cleared

/-- A sweep that marks in parallel cuts a range that starts inside a word behind its
first chunk: the word that points into the object is in the range, no chunk holds
it, and the object is recycled. -/
theorem pointer_missed : ∃ s s' : State Unit,
    Run (State.step .sample) (State.Thorough .sample) (.initial .sample fun _ => 0) s ∧
      s.Released ⟨90, 0⟩ ∧ s.step .sample cutPointed = some s' ∧ s'.Reusable ⟨90, 0⟩ ∧
        (0x10004, 0x410010) ∈ cutPointed.answer.world.scan.ranges ∧
          CellIn 0x10004 0x410010 0x410000 ∧
            s.heap.table.slotBase .sample ⟨90, 0⟩ ≤
              cutPointed.answer.world.scan.memory 0x410000 ∧
            cutPointed.answer.world.scan.memory 0x410000 <
              s.heap.table.slotBase .sample ⟨90, 0⟩ + s.heap.table.slotBytes ⟨90, 0⟩ := by
  obtain ⟨s, run, stopped, dead, queued, base, bytes, blocks, -, -, lists⟩ := exists_releasedLarge
  have quiet := run.mono fun _ _ thorough => thorough.1
  obtain ⟨place, partition⟩ := partition_run quiet
  have released : s.Released ⟨90, 0⟩ := partition.released_iff.mpr dead
  obtain ⟨s', taken⟩ := Option.isSome_iff_exists.mp lists.1.2
  refine ⟨s, s', run, released, taken, ?_, List.mem_singleton_self _,
    ⟨by decide, by decide, by decide⟩, ?_⟩
  · refine ((tended_run quiet).reused_iff_of_marksFrom lists.1.1 taken
      (fun _ _ _ => Heap.marksFrom_passed partition.table fun _ _ _ _ => rfl) released).mpr
        ⟨queued, stopped, rfl, lists.2.1, rfl, rfl, ?_⟩
    unfold Heap.passed
    rw [if_pos lists.2.2.1]
    rintro value (mem | ⟨low, high, cell, reads, inside, rfl⟩)
    · cases mem
    · -- no chunk and no object holds the word
      have other : cell ≠ 0x410000 := by
        rintro rfl
        cases reads with
        | range listed =>
            obtain ⟨range, mem, cut⟩ := List.mem_flatMap.mp listed
            obtain rfl := List.mem_singleton.mp mem
            obtain ⟨c, piece, eq⟩ := List.mem_map.mp cut
            obtain ⟨rfl, rfl⟩ := Prod.mk.inj eq
            obtain ⟨-, -, one⟩ := Sweep.held_chunks.mp ⟨c, piece, inside.2⟩
            exact absurd one (by decide)
        | slot x live =>
            obtain ⟨-, -, above, -, -⟩ := partition.slot_inside (partition.used_of_live live)
            have arena : (Arena.sample).base = 0x80000000 := rfl
            have start := inside.2.1
            omega
        | huge b listed live =>
            rw [blocks] at listed
            cases listed
      have zero : pointerAt 0x410000 cell = 0 := if_neg other
      rw [base, bytes]
      change ¬ (0x2D80000000 ≤ pointerAt 0x410000 cell ∧
        pointerAt 0x410000 cell < 0x2D80000000 + 0xE000000)
      rw [zero]
      decide
  · rw [base, bytes]
    decide

end Machine

end WeaveC.Alloc
