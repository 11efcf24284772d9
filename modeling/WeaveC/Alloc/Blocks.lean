import WeaveC.Alloc.Aims
import WeaveC.Alloc.Zeroed

/-!
# The program's blocks

Blocks that the program has lie apart.  A step that is not on a block leaves it
and its bytes alone, whatever the other threads' calls do; a call that was given
a block finds it.
-/

namespace WeaveC.Alloc

open WeaveC.Runtime WeaveC.Library

variable {T : Type} {A : Arena} {place : Slot → Place T} {h' : Heap} {th' : Thread}
  {s s' : State T} {e : Event T} {w : Filled T} {x y : Slot} {b c : HugeBlock} {p q n m : Nat}

namespace State

/-- The start of the block that a step is on. -/
def touched (A : Arena) (s : State T) (t : T) : Option Nat :=
  match (s.thread t).point with
  | .release p => some p
  | .claim x _ | .resizeShadow x _ | .resizeWord x _ => some (s.heap.table.slotBase A x)
  | _ => none

end State

/-! ## One block -/

namespace State.SlotBlock

theorem live (block : s.SlotBlock A x p n) : (s.heap.table.word x).state = .live := by
  rw [block.word]

theorem used (block : s.SlotBlock A x p n) (partition : Partition A s place) :
    place x ≠ .fresh :=
  partition.used_of_live block.live

theorem small (block : s.SlotBlock A x p n) (fits : s.Fits) : n < s.heap.table.slotBytes x := by
  have small := fits x block.live
  rw [block.word] at small
  exact small

theorem start (block : s.SlotBlock A x p n) (fits : s.Fits) :
    InRange (s.heap.table.slotBase A x) (s.heap.table.slotBytes x) p := by
  have small := block.small fits
  rw [block.base]
  exact ⟨Nat.le_refl p, by omega⟩

theorem inArena (block : s.SlotBlock A x p n) (partition : Partition A s place) (fits : s.Fits) :
    A.inArena p = true :=
  partition.inArena_of_slot (block.used partition) (block.start fits)

theorem slotOf (block : s.SlotBlock A x p n) (partition : Partition A s place) (fits : s.Fits) :
    s.heap.table.slotOf A p = x :=
  partition.slotOf_eq (block.used partition) (block.start fits).1 (block.start fits).2

/-- Two blocks of slots that have an address in common are one. -/
theorem unique (block : s.SlotBlock A x p n) (partition : Partition A s place) {address : Nat}
    (used : place y ≠ .fresh)
    (inside : InRange (s.heap.table.slotBase A x) (s.heap.table.slotBytes x) address)
    (inside' : InRange (s.heap.table.slotBase A y) (s.heap.table.slotBytes y) address) : y = x :=
  (partition.slot_unique (block.used partition) used inside inside').symm

end State.SlotBlock

theorem HugeBlock.Ok.start_mapped (ok : b.Ok A) : InRange b.map b.mapBytes b.base := by
  have inside := ok.inside
  have room := ok.room
  have page := A.pages
  exact ⟨inside, by omega⟩

theorem HugeBlock.Ok.start_outside (ok : b.Ok A) : A.inArena b.base = false :=
  ok.not_inArena ok.start_mapped.1 ok.start_mapped.2

/-- Two huge blocks whose mappings have an address in common are one. -/
theorem HugeOk.unique {blocks : List HugeBlock} (ok : HugeOk A blocks) {address : Nat}
    (mem : b ∈ blocks) (mem' : c ∈ blocks) (inside : InRange b.map b.mapBytes address)
    (inside' : InRange c.map c.mapBytes address) : b = c := by
  refine (ok.apart_of_mem mem mem').resolve_right fun apart => ?_
  unfold HugeBlock.Apart InRange at *
  omega

/-! ## Two blocks -/

theorem State.BlockAt.apart (pages : 16 ∣ A.page) (ok : Sound A s) (fits : s.Fits)
    (block : s.BlockAt A p n) (block' : s.BlockAt A q m) (other : p ≠ q) :
    p + n ≤ q ∨ q + m ≤ p := by
  obtain ⟨place, partition⟩ := ok.places
  by_contra neither
  obtain ⟨first, last⟩ := not_or.mp neither
  -- the later start is an address of both
  obtain ⟨a, here, there⟩ : ∃ a, (a = p ∨ InRange p n a) ∧ (a = q ∨ InRange q m a) := by
    rcases Nat.le_total p q with less | more
    · exact ⟨q, .inr ⟨less, by omega⟩, .inl rfl⟩
    · exact ⟨p, .inl rfl, .inr ⟨more, by omega⟩⟩
  have slot {x : Slot} {p n : Nat} (block : s.SlotBlock A x p n) (here : a = p ∨ InRange p n a) :
      InRange (s.heap.table.slotBase A x) (s.heap.table.slotBytes x) a := by
    rcases here with rfl | ⟨above, below⟩
    · exact block.start fits
    · have small := block.small fits
      rw [block.base]
      exact ⟨above, by omega⟩
  have huge {b : HugeBlock} (mem : b ∈ s.heap.huge.blocks)
      (here : a = b.base ∨ InRange b.base b.size a) : InRange b.map b.mapBytes a := by
    rcases here with rfl | inside
    · exact (ok.blocks.block b mem).start_mapped
    · exact (ok.blocks.block b mem).object pages inside
  rcases block with ⟨x, block⟩ | ⟨b, mem, -, rfl, rfl⟩
  · have inside := slot block here
    rcases block' with ⟨y, block'⟩ | ⟨c, mem', -, rfl, rfl⟩
    · obtain rfl := block.unique partition (block'.used partition) inside (slot block' there)
      exact other (block.base.symm.trans block'.base)
    · obtain ⟨above, below⟩ := huge mem' there
      have outside := (ok.blocks.block c mem').not_inArena above below
      rw [partition.inArena_of_slot (block.used partition) inside] at outside
      cases outside
  · have inside := huge mem here
    rcases block' with ⟨y, block'⟩ | ⟨c, mem', -, rfl, rfl⟩
    · have outside := (ok.blocks.block b mem).not_inArena inside.1 inside.2
      rw [partition.inArena_of_slot (block'.used partition) (slot block' there)] at outside
      cases outside
    · obtain rfl := ok.blocks.unique mem mem' inside (huge mem' there)
      exact other rfl

/-- An object that is handed out is no block of the program's yet. -/
theorem State.BlockAt.ne_handed (ok : Sound A s) (fits : s.Fits) (block : s.BlockAt A p n) {t : T}
    (handed : (s.thread t).point.stage.handed = some x) (used : (s.heap.table.word x).state = .live) :
    p ≠ s.heap.table.slotBase A x := by
  obtain ⟨place, partition⟩ := ok.places
  have small := fits x used
  have inside : InRange (s.heap.table.slotBase A x) (s.heap.table.slotBytes x)
      (s.heap.table.slotBase A x) := ⟨Nat.le_refl _, by omega⟩
  rintro rfl
  rcases block with ⟨y, block⟩ | ⟨b, mem, -, base, -⟩
  · obtain rfl := block.unique partition (partition.used_of_live used) (block.start fits) inside
    exact block.returned t handed
  · have outside := (ok.blocks.block b mem).start_outside
    rw [base, partition.inArena_of_slot (partition.used_of_live used) inside] at outside
    cases outside

/-! ## Another block's step -/

section Step

variable [DecidableEq T]

/-- A step leaves a block that it is not on. -/
theorem State.SlotBlock.step (pages : 16 ∣ A.page) (ok : Zeroed A w)
    (taken : w.state.step A e = some s') (block : w.state.SlotBlock A x p n)
    (apart : p ∉ w.state.touched A e.thread) : s'.SlotBlock A x p n := by
  obtain ⟨place, partition⟩ := ok.sound.places
  have used := block.used partition
  refine ⟨?_, (partition.step_slotBase taken used).trans block.base, fun t handed => ?_⟩
  · obtain ⟨h, th, found, rfl⟩ := State.step_eq_some taken
    rcases ok.sound.word_live found block.live with same | ⟨v, point⟩ | ⟨size, point⟩
    · exact same.trans block.word
    · refine absurd ?_ apart
      unfold touched
      rw [point]
      exact congrArg some block.base
    · refine absurd ?_ apart
      unfold touched
      rw [point]
      exact congrArg some block.base
  · rcases ok.earlier pages taken handed with ⟨-, before⟩ | ⟨-, v, y, point, rfl, -⟩
    · exact block.returned t before
    · have placed := ((partition.thread t).taken y.place).mpr (congrArg Point.taken point)
      rw [(partition.table.live_iff _).mpr block.live] at placed
      cases placed

/-- It leaves every byte of the block's slot. -/
theorem State.SlotBlock.memory (pages : 16 ∣ A.page) (ok : Zeroed A w)
    (taken : w.state.step A e = some s') (block : w.state.SlotBlock A x p n)
    (apart : p ∉ w.state.touched A e.thread) {a : Nat}
    (inside : InRange p (w.state.heap.table.slotBytes x) a) :
    w.memoryAfter A e a = w.memory a := by
  obtain ⟨place, partition⟩ := ok.sound.places
  have used := block.used partition
  rw [← block.base] at inside
  have arena := partition.inArena_of_slot used inside
  -- what the step writes in the arena is in another slot
  have other {y : Slot} (used' : place y ≠ .fresh) {start size : Nat}
      (first : w.state.heap.table.slotBase A y ≤ start)
      (last : start + size ≤ w.state.heap.table.slotBase A y + w.state.heap.table.slotBytes y)
      (range : InRange start size a) : y = x :=
    block.unique partition used' inside ⟨first.trans range.1, range.2.trans_le last⟩
  rcases w.memory_cases e a with same | ⟨-, zeroes⟩ | copies
  · exact same
  · cases zeroes with
    | @filled v y point range =>
        have placed := ((partition.thread e.thread).taken y.place).mpr
          (congrArg Point.taken point)
        have small := partition.stored_fits (.inl ⟨v, y, point, rfl, rfl⟩)
        obtain rfl := other (by rw [placed]; simp) (Nat.le_refl _) (by omega) range
        rw [(partition.table.live_iff _).mpr block.live] at placed
        cases placed
    | mapped point placed range =>
        obtain ⟨h, th, found, rfl⟩ := State.step_eq_some taken
        have unmapped := (stepOf_placed found point placed).1
        have accepted := ok.sound.accepts e.thread _ (congrArg Point.stage point)
        have fresh := (newBlock_ok pages accepted (Heap.hugePlaced_eq placed).1 unmapped).1
        rw [fresh.not_inArena range.1 range.2] at arena
        cases arena
    | @dropped p b point outside found range =>
        obtain ⟨mem, -⟩ := Heap.hugeDropped_spec found
        rw [(ok.sound.blocks.block b mem).not_inArena range.1 range.2] at arena
        cases arena
    | @given y cached point range =>
        have retiring := congrArg Point.retiring point
        obtain rfl := other (partition.used_of_retiring retiring) (Nat.le_refl _) (Nat.le_refl _)
          range
        have claimed := (partition.retiring_spec retiring).2
        have live := block.live
        rw [claimed] at live
        cases live
    | @gained y size point range =>
        have small := partition.point e.thread
        rw [point] at small
        change size < w.state.heap.table.slotBytes y at small
        obtain ⟨above, below⟩ := range
        have within : (w.locals e.thread).old + (size - (w.locals e.thread).old) ≤
            w.state.heap.table.slotBytes y := by omega
        obtain rfl := other (partition.used_of_resizing (congrArg Point.resizing point))
          (Nat.le_add_right _ _) (by rw [Nat.add_assoc]; exact Nat.add_le_add_left within _)
          ⟨above, below⟩
        refine absurd ?_ apart
        unfold touched
        rw [point]
        exact congrArg some block.base
  · obtain ⟨v, y, point, range⟩ := ok.copies_inArena pages taken copies arena
    obtain ⟨-, used', small⟩ := ok.handing partition point
    obtain rfl := other used' (Nat.le_refl _) (by omega) range
    refine absurd ?_ (block.returned e.thread)
    rw [point]
    rfl

omit [DecidableEq T] in
/-- A live huge block stays listed, as large as it is, through a step that is
not on it. -/
theorem huge_live_stays (taken : s.stepOf A e = some (h', th')) (mem : b ∈ s.heap.huge.blocks)
    (live : b.dead = 0) (apart : b.base ∉ s.touched A e.thread) :
    ∃ c ∈ h'.huge.blocks, c.dead = 0 ∧ c.base = b.base ∧ c.size = b.size := by
  cases stepOf_effect taken with
  | calm _ huge _ _ =>
      rw [huge]
      exact ⟨b, mem, live, rfl, rfl⟩
  | returned _ _ eq | stored _ eq | popped _ eq | made _ eq | resized _ eq | released _ eq =>
      rw [eq]
      exact ⟨b, mem, live, rfl, rfl⟩
  | inserted _ _ _ _ _ eq =>
      rw [eq]
      exact ⟨b, (List.mem_insertIdx (countTo_le _ _)).mpr (.inr mem), live, rfl, rfl⟩
  | freed point found =>
      obtain ⟨i, block, listed, -, base, rfl⟩ := hugeFree_heap found
      obtain ⟨j, listed'⟩ := List.mem_iff_getElem?.mp mem
      have other : i ≠ j := by
        rintro rfl
        obtain rfl := Option.some.inj (listed.symm.trans listed')
        refine apart ?_
        unfold State.touched
        rw [point]
        exact congrArg some base.symm
      exact ⟨b, List.mem_of_getElem? ((List.getElem?_set_ne other).trans listed'), live, rfl, rfl⟩
  | swept _ huge _ =>
      obtain ⟨marked, keep, same, dead, left, -⟩ := huge.dropped
      obtain ⟨m, mem', eq⟩ := exists_same mem same
      obtain ⟨-, -, -, -, live', -⟩ := HugeBlock.mk.inj eq
      have kept : keep m = true := by
        by_contra drops
        exact dead m (Bool.eq_false_iff.mpr drops) (live'.trans live)
      obtain ⟨c, mem'', eq'⟩ := exists_same (List.mem_filter.mpr ⟨mem', kept⟩) left
      obtain ⟨base, size, -, -, dead', -⟩ := HugeBlock.mk.inj (eq'.trans eq)
      exact ⟨c, mem'', dead'.trans live, base, size⟩

/-- A step that is not on a huge block leaves its bytes. -/
theorem huge_memory (pages : 16 ∣ A.page) (ok : Zeroed A w) (taken : w.state.step A e = some s')
    (mem : b ∈ w.state.heap.huge.blocks) (apart : b.base ∉ w.state.touched A e.thread) {a : Nat}
    (inside : InRange b.base b.size a) : w.memoryAfter A e a = w.memory a := by
  obtain ⟨place, partition⟩ := ok.sound.places
  have block := ok.sound.blocks.block b mem
  have range := block.object pages inside
  have outside := block.not_inArena range.1 range.2
  have slot {y : Slot} (used : place y ≠ .fresh) {start size : Nat}
      (first : w.state.heap.table.slotBase A y ≤ start)
      (last : start + size ≤ w.state.heap.table.slotBase A y + w.state.heap.table.slotBytes y)
      (here : InRange start size a) : False := by
    rw [partition.inArena_of_slot used ⟨first.trans here.1, here.2.trans_le last⟩] at outside
    cases outside
  have fresh {size alignment map : Nat} {purpose : Purpose} {request : Heap.HugeRequest}
      (point : (w.state.thread e.thread).point = .huge size alignment purpose)
      (placed : w.state.heap.hugePlaced A size alignment e.answer = some (request, map)) :
      (newBlock size request map).Ok A ∧ ¬ InRange map request.mapBytes a := by
    obtain ⟨h, th, found, rfl⟩ := State.step_eq_some taken
    have unmapped := (stepOf_placed found point placed).1
    have accepted := ok.sound.accepts e.thread _ (congrArg Point.stage point)
    obtain ⟨fits, away⟩ := newBlock_ok pages accepted (Heap.hugePlaced_eq placed).1 unmapped
    refine ⟨fits, fun here => ?_⟩
    have away := away b mem
    unfold HugeBlock.Apart InRange newBlock at *
    dsimp only at away
    omega
  rcases w.memory_cases e a with same | ⟨-, zeroes⟩ | copies
  · exact same
  · cases zeroes with
    | @filled v y point here =>
        have placed := ((partition.thread e.thread).taken y.place).mpr
          (congrArg Point.taken point)
        have small := partition.stored_fits (.inl ⟨v, y, point, rfl, rfl⟩)
        exact (slot (y := y.place) (by rw [placed]; simp) (Nat.le_refl _) (by omega) here).elim
    | mapped point placed here => exact absurd here (fresh point placed).2
    | @dropped p c point _ found here =>
        obtain ⟨mem', -, rfl⟩ := Heap.hugeDropped_spec found
        obtain rfl := ok.sound.blocks.unique mem mem' range here
        refine absurd ?_ apart
        unfold State.touched
        rw [point]
        rfl
    | @given y cached point here =>
        exact (slot (partition.used_of_retiring (congrArg Point.retiring point)) (Nat.le_refl _)
          (Nat.le_refl _) here).elim
    | @gained y size point here =>
        have small := partition.point e.thread
        rw [point] at small
        change size < w.state.heap.table.slotBytes y at small
        obtain ⟨above, below⟩ := here
        have within : (w.locals e.thread).old + (size - (w.locals e.thread).old) ≤
            w.state.heap.table.slotBytes y := by omega
        exact (slot (partition.used_of_resizing (congrArg Point.resizing point))
          (Nat.le_add_right _ _) (by rw [Nat.add_assoc]; exact Nat.add_le_add_left within _)
          ⟨above, below⟩).elim
  · cases copies with
    | @slot v y p point _ here =>
        obtain ⟨-, used, small⟩ := ok.handing partition point
        exact (slot used (Nat.le_refl _) (by omega) here).elim
    | huge point placed here =>
        obtain ⟨fits, away⟩ := fresh point placed
        exact absurd (fits.object pages here) away

/-- A step leaves a block that it is not on, and its bytes. -/
theorem State.BlockAt.step (pages : 16 ∣ A.page) (ok : Zeroed A w)
    (taken : w.state.step A e = some s') (block : w.state.BlockAt A p n)
    (apart : p ∉ w.state.touched A e.thread) :
    s'.BlockAt A p n ∧ ∀ a, InRange p n a → w.memoryAfter A e a = w.memory a := by
  rcases block with ⟨x, block⟩ | ⟨b, mem, live, rfl, rfl⟩
  · refine ⟨.inl ⟨x, block.step pages ok taken apart⟩, fun a inside => ?_⟩
    have small := block.small ok.fits
    exact block.memory pages ok taken apart ⟨inside.1, by have := inside.2; omega⟩
  · refine ⟨.inr ?_, fun a => huge_memory pages ok taken mem apart⟩
    obtain ⟨h, th, found, rfl⟩ := State.step_eq_some taken
    exact huge_live_stays found mem live apart

end Step

/-! ## A call's own block -/

theorem Huge.Ordered.blockAt_eq {g : Huge} (ordered : g.Ordered A) {address : Nat}
    (mem : b ∈ g.blocks) (maps : b.Maps address) : Huge.blockAt g.blocks address = some b := by
  obtain ⟨i, listed⟩ := List.mem_iff_getElem?.mp mem
  unfold Huge.blockAt
  rw [ordered.countTo_of_maps listed maps]
  exact listed

/-- `hugeFind` finds the block whose mapping holds the address. -/
theorem Huge.Ordered.find_eq {g : Huge} (ordered : g.Ordered A) {address : Nat}
    (mem : b ∈ g.blocks) (maps : b.Maps address) : g.find address = some b := by
  unfold Huge.find
  rw [if_pos (ordered.maybeHuge mem maps), ordered.blockAt_eq mem maps]
  exact if_pos maps.2

/-- `hugeFree` finds a live block by its start. -/
theorem Huge.Ordered.hugeFree_isSome {h : Heap} (ordered : h.huge.Ordered A)
    (mem : b ∈ h.huge.blocks) (ok : b.Ok A) (live : b.dead = 0) : (h.hugeFree b.base).isSome := by
  unfold Heap.hugeFree
  rw [if_pos (ordered.maybeHuge mem ok.start_mapped), ordered.blockAt_eq mem ok.start_mapped]
  dsimp only
  rw [if_pos ⟨rfl, live⟩]
  rfl

section Own

variable {th : Thread} {size : Nat} {mapped : Bool}

theorem release_slot (partition : Partition A s place) (fits : s.Fits)
    (block : s.SlotBlock A x p n) :
    Thread.release A s.heap th p = some (s.heap, th.goto (.claim x ⟨n, .live⟩)) := by
  unfold Thread.release
  rw [if_pos (block.inArena partition fits)]
  dsimp only
  rw [block.slotOf partition fits, block.word, block.base]
  exact if_neg fun wrong => wrong.elim (fun ne => ne rfl) fun ne => ne rfl

theorem release_huge (ok : Sound A s) (ordered : s.heap.huge.Ordered A)
    (mem : b ∈ s.heap.huge.blocks) (live : b.dead = 0) (th : Thread) :
    ∃ h', s.heap.hugeFree b.base = some h' ∧
      Thread.release A s.heap th b.base = some (h', th.goto (.overBudget .start)) := by
  have block := ok.blocks.block b mem
  obtain ⟨h', freed⟩ := Option.isSome_iff_exists.mp (ordered.hugeFree_isSome mem block live)
  refine ⟨h', freed, ?_⟩
  unfold Thread.release
  rw [if_neg (by rw [block.start_outside]; exact Bool.false_ne_true), freed]

theorem resize_slot (partition : Partition A s place) (fits : s.Fits)
    (block : s.SlotBlock A x p n) : Thread.resize A s.heap th p size mapped =
      if classFor size = s.heap.table.regionClass x then
        some (s.heap, th.goto (.resizeShadow x size))
      else some (s.heap, th.allocate A size 0 (.move p) mapped) := by
  unfold Thread.resize
  rw [if_pos (block.inArena partition fits)]
  dsimp only
  rw [block.slotOf partition fits, block.word, block.base]
  exact if_neg fun wrong => wrong.elim (fun ne => ne rfl) fun ne => ne rfl

theorem resize_huge (ok : Sound A s) (ordered : s.heap.huge.Ordered A)
    (mem : b ∈ s.heap.huge.blocks) (live : b.dead = 0) :
    Thread.resize A s.heap th b.base size mapped =
      some (s.heap, th.allocate A size 0 (.move b.base) mapped) := by
  have block := ok.blocks.block b mem
  unfold Thread.resize
  rw [if_neg (by rw [block.start_outside]; exact Bool.false_ne_true),
    ordered.find_eq mem block.start_mapped]
  exact if_pos ⟨rfl, live⟩

/-- A reallocation finds the size of its block. -/
theorem State.BlockAt.sizeAt (ok : Sound A s) (fits : s.Fits) (ordered : s.heap.huge.Ordered A)
    (block : s.BlockAt A p n) : s.heap.sizeAt A p = n := by
  obtain ⟨place, partition⟩ := ok.places
  unfold Heap.sizeAt
  rcases block with ⟨x, block⟩ | ⟨b, mem, -, rfl, rfl⟩
  · rw [if_pos (block.inArena partition fits), block.slotOf partition fits, block.word]
  · have block := ok.blocks.block b mem
    rw [if_neg (by rw [block.start_outside]; exact Bool.false_ne_true),
      ordered.find_eq mem block.start_mapped]

end Own

end WeaveC.Alloc
