import WeaveC.Alloc.Serving

/-!
# A call's own steps

What a step of a thread's own call makes of the request that the call serves:
it goes on to look for a block, makes one with the contents asked for, or takes
the block that it was given.
-/

namespace WeaveC.Alloc

open WeaveC.Runtime WeaveC.Library

variable {T : Type} [DecidableEq T] {A : Arena} {place : Slot → Place T} {s s' : State T}
  {e : Event T} {w : Filled T} {x : Slot} {p q n m size : Nat} {purpose : Purpose}
  {values : List UInt8}

namespace Filled

omit [DecidableEq T] in
theorem memoryAfter_eq (called : e.call = none) : w.memoryAfter A e =
    (w.locals e.thread).memory A w.state.heap e.answer w.memory
      (w.state.thread e.thread).point := by
  unfold memoryAfter
  rw [called]

theorem next_locals (called : e.call = none) : (w.next A e s').locals e.thread =
    (w.locals e.thread).after A w.state.heap e.answer (w.state.thread e.thread).point := by
  unfold next localsAfter
  rw [called]
  exact Function.update_self _ _ _

/-- A step that serves no block. -/
theorem on_step (taken : w.state.step A e = some s') (called : e.call = none)
    (on : ¬ (w.state.thread e.thread).point.Turns)
    (inside : (w.state.thread e.thread).point ≠ .idle) :
    (s'.thread e.thread).point.aim = (w.state.thread e.thread).point.aim ∧
      (w.next A e s').locals e.thread = w.locals e.thread := by
  refine ⟨step_aim (stepOf_inside (State.step_parts taken).1 inside) on, ?_⟩
  rw [next_locals called]
  exact Locals.after_of_not_turns _ _ _ _ on

end Filled

/-- A block of the slot stays the thread's own through a step that leaves its
word live. -/
theorem State.SlotBlock.own (partition : Partition A s place) (taken : s.step A e = some s')
    (block : s.SlotBlock A x p n) (word : s'.heap.table.word x = ⟨m, .live⟩)
    (handed : (s'.thread e.thread).point.stage.handed ≠ some x) : s'.SlotBlock A x p m := by
  refine ⟨word, (partition.step_slotBase taken (block.used partition)).trans block.base,
    fun t => ?_⟩
  by_cases self : t = e.thread
  · rw [self]
    exact handed
  · rw [(State.step_parts taken).2 t self]
    exact block.returned t

/-! ## Looking for a block -/

/-- What a step makes of a call that looks for a block: it still does, it has made
one, or there is none. -/
inductive Seeking (A : Arena) (w : Filled T) (e : Event T) (s' : State T) (l : Locals)
    (size : Nat) (purpose : Purpose) : Prop where
  | still (aim : (s'.thread e.thread).point.aim = .seeks size purpose)
      (locals : (w.next A e s').locals e.thread = l)
  | made {q : Nat} {memory : Nat → UInt8} (start : q ≠ 0) (block : s'.BlockAt A q size)
      (point : (s'.thread e.thread).point = Thread.allocated purpose)
      (locals : (w.next A e s').locals e.thread = { l with block := q })
      (fresh : ∀ m, ¬ w.state.BlockAt A q m) (zero : ZeroIn memory q size)
      (copied : w.memoryAfter A e = l.copied memory q size purpose)
      (kept : ∀ p n, w.state.BlockAt A p n → ∀ a, InRange p n a → memory a = w.memory a)
  | failed (point : (s'.thread e.thread).point = .idle)
      (locals : (w.next A e s').locals e.thread = l)

omit [DecidableEq T] in
theorem stepOf_made {h' : Heap} {th' : Thread} {v : Want} {y : Entry}
    (taken : s.stepOf A e = some (h', th'))
    (point : (s.thread e.thread).point = .shadowLive v y) :
    h'.table = s.heap.table ∧ th' = (s.thread e.thread).goto (Thread.allocated v.purpose) := by
  have taken := stepOf_inside taken (by rw [point]; exact Point.noConfusion)
  unfold Thread.step at taken
  simp only [point] at taken
  obtain ⟨rfl, rfl⟩ := Prod.mk.inj (Option.some.inj taken)
  exact ⟨rfl, rfl⟩

omit [DecidableEq T] in
theorem stepOf_unplaced {h' : Heap} {th' : Thread} {alignment : Nat}
    (taken : s.stepOf A e = some (h', th'))
    (point : (s.thread e.thread).point = .huge size alignment purpose)
    (unplaced : s.heap.hugePlaced A size alignment e.answer = none) : th'.point = .idle := by
  have taken := stepOf_inside taken (by rw [point]; exact Point.noConfusion)
  unfold Thread.step at taken
  simp only [point] at taken
  unfold Thread.hugeAlloc at taken
  unfold Heap.hugePlaced at unplaced
  split at taken
  · rename_i asked mapped
    rw [asked, mapped] at unplaced
    dsimp only at unplaced
    split_ifs at unplaced with table
    rw [if_neg table] at taken
    split_ifs at taken
    obtain ⟨-, rfl⟩ := Prod.mk.inj (Option.some.inj taken)
    rfl
  · obtain ⟨-, rfl⟩ := Prod.mk.inj (Option.some.inj taken)
    rfl

/-- The store of an object's shadow hands the object out. -/
theorem Seeking.slot (ok : Zeroed A w) (taken : w.state.step A e = some s')
    (called : e.call = none) {v : Want} {y : Entry}
    (point : (w.state.thread e.thread).point = .shadowLive v y) :
    Seeking A w e s' (w.locals e.thread) v.size v.purpose := by
  obtain ⟨place, partition⟩ := ok.sound.places
  obtain ⟨word, used, -⟩ := ok.handing partition point
  obtain ⟨found, others⟩ := State.step_parts taken
  obtain ⟨table, goes⟩ := stepOf_made found point
  have handed : (w.state.thread e.thread).point.stage.handed = some y.place := by
    rw [point]
    rfl
  refine .made ?_ ?_ ?_ ?_ ?_
    (?_ : ZeroIn w.memory (w.state.heap.table.slotBase A y.place) v.size) ?_ ?_
  · have above := A.above
    have start := (partition.slot_inside used).2.2.1
    omega
  · refine .inl ⟨y.place, (congrArg (Table.word · y.place) table).trans word,
      partition.step_slotBase taken used, fun t still => ?_⟩
    by_cases self : t = e.thread
    · rw [self, goes] at still
      cases purpose : v.purpose <;>
        · rw [purpose] at still
          cases still
    · rw [others t self] at still
      exact self (ok.once t e.thread _ still handed)
  · rw [goes]
    rfl
  · rw [Filled.next_locals called, point]
    rfl
  · intro m block
    exact block.ne_handed ok.sound ok.fits handed (congrArg Word.state word) rfl
  · exact ok.handed e.thread v y point
  · rw [Filled.memoryAfter_eq called, point]
    rfl
  · exact fun _ _ _ _ _ => rfl

omit [DecidableEq T] in
/-- A block of the program's has no byte of a new mapping. -/
theorem State.BlockAt.unmapped (pages : 16 ∣ A.page) (ok : Sound A s) (fits : s.Fits)
    {b : HugeBlock} (fresh : b.Ok A) (away : ∀ c ∈ s.heap.huge.blocks, b.Apart c)
    (block : s.BlockAt A p n) {a : Nat} (here : a = p ∨ InRange p n a) :
    ¬ InRange b.map b.mapBytes a := by
  obtain ⟨place, partition⟩ := ok.places
  intro inside
  rcases block with ⟨x, block⟩ | ⟨c, mem, -, rfl, rfl⟩
  · have slot : InRange (s.heap.table.slotBase A x) (s.heap.table.slotBytes x) a := by
      rcases here with rfl | ⟨above, below⟩
      · exact block.start fits
      · have small := block.small fits
        rw [block.base]
        exact ⟨above, by omega⟩
    have arena := partition.inArena_of_slot (block.used partition) slot
    rw [fresh.not_inArena inside.1 inside.2] at arena
    cases arena
  · have mapped : InRange c.map c.mapBytes a := by
      rcases here with rfl | range
      · exact (ok.blocks.block c mem).start_mapped
      · exact (ok.blocks.block c mem).object pages range
    have apart := away c mem
    unfold HugeBlock.Apart InRange at *
    omega

/-- A huge allocation makes its block in a new mapping, or there is none. -/
theorem Seeking.huge (pages : 16 ∣ A.page) (ok : Zeroed A w) (taken : w.state.step A e = some s')
    (called : e.call = none) {alignment : Nat}
    (point : (w.state.thread e.thread).point = .huge size alignment purpose) :
    Seeking A w e s' (w.locals e.thread) size purpose := by
  obtain ⟨found, -⟩ := State.step_parts taken
  have locals : (w.next A e s').locals e.thread = _ := Filled.next_locals called
  have memory := Filled.memoryAfter_eq (A := A) (w := w) called
  rw [point] at locals memory
  unfold Locals.after at locals
  unfold Locals.memory at memory
  dsimp only at locals memory
  cases placed : w.state.heap.hugePlaced A size alignment e.answer with
  | none =>
      rw [placed] at locals
      exact .failed (stepOf_unplaced found point placed) locals
  | some pair =>
      obtain ⟨request, map⟩ := pair
      rw [placed] at locals memory
      obtain ⟨unmapped, made, goes⟩ := stepOf_placed found point placed
      have accepted := ok.sound.accepts e.thread _ (congrArg Point.stage point)
      have asked := (Heap.hugePlaced_eq placed).1
      obtain ⟨fresh, away⟩ := newBlock_ok pages accepted asked unmapped
      have start := fresh.inside
      have positive := unmapped.2.1
      change map ≤ hugeBase request map at start
      refine .made ?_ (.inr ?_) ?_ locals ?_
        (?_ : ZeroIn (zeroRange w.memory map request.mapBytes) (hugeBase request map) size) memory ?_
      · omega
      · refine ⟨newBlock size request map, ?_, rfl, rfl, rfl⟩
        rw [made]
        exact (List.mem_insertIdx (countTo_le _ _)).mpr (.inl rfl)
      · rw [goes]
        rfl
      · intro m block
        exact block.unmapped pages ok.sound ok.fits fresh away (.inl rfl) fresh.start_mapped
      · intro a inside
        exact zeroIn_zeroRange _ _ _ a (fresh.object pages inside)
      · intro p n block a inside
        exact zeroRange_of_not_mem
          (block.unmapped pages ok.sound ok.fits fresh away (.inr inside))

theorem Seeking.step (pages : 16 ∣ A.page) (ok : Zeroed A w) (taken : w.state.step A e = some s')
    (called : e.call = none) (seeks : (w.state.thread e.thread).point.aim = .seeks size purpose) :
    Seeking A w e s' (w.locals e.thread) size purpose := by
  cases point : (w.state.thread e.thread).point with
  | shadowLive v y =>
      rw [point] at seeks
      obtain ⟨rfl, rfl⟩ := Aim.seeks.inj seeks
      exact .slot ok taken called point
  | huge size' alignment purpose' =>
      rw [point] at seeks
      obtain ⟨rfl, rfl⟩ := Aim.seeks.inj seeks
      exact .huge pages ok taken called point
  | release | claim | resize | resizeShadow | resizeWord | idle =>
      rw [point] at seeks
      cases seeks
  | _ =>
      obtain ⟨aim, locals⟩ := Filled.on_step taken called (by rw [point]; exact not_false)
        (by rw [point]; exact Point.noConfusion)
      exact .still (aim.trans seeks) locals

/-! ## Taking a block -/

/-- What a step is of the release of a block: it is still to take it, or has. -/
theorem Filled.Releasing.own (ok : Zeroed A w) (taken : w.state.step A e = some s')
    (called : e.call = none) (on : w.Releasing A e.thread p n) (block : w.state.BlockAt A p n) :
    (w.next A e s').locals e.thread = w.locals e.thread ∧
      ((w.next A e s').Releasing A e.thread p n ∧ s'.BlockAt A p n ∧
          w.memoryAfter A e = w.memory ∨
        (s'.thread e.thread).point.aim = .rest) := by
  obtain ⟨place, partition⟩ := ok.sound.places
  obtain ⟨found, -⟩ := State.step_parts taken
  have locals : (w.next A e s').locals e.thread = _ := next_locals called
  cases on with
  | starts point =>
      rw [point] at locals
      refine ⟨locals, ?_⟩
      have goes := stepOf_inside found (by rw [point]; exact Point.noConfusion)
      unfold Thread.step at goes
      simp only [point] at goes
      rcases block with ⟨x, block⟩ | ⟨b, mem, live, rfl, rfl⟩
      · rw [release_slot partition ok.fits block] at goes
        obtain ⟨heap, thread⟩ := Prod.mk.inj (Option.some.inj goes)
        have claims : (s'.thread e.thread).point = .claim x ⟨n, .live⟩ := by rw [← thread]; rfl
        have still : s'.SlotBlock A x p n := by
          refine block.own partition taken ?_ ?_
          · rw [← heap]
            exact block.word
          · rw [claims]
            simp [Point.stage, Stage.handed]
        refine .inl ⟨.claims claims still, .inl ⟨x, still⟩, ?_⟩
        rw [memoryAfter_eq called, point]
        exact if_pos (block.inArena partition ok.fits)
      · obtain ⟨h', -, released⟩ := release_huge ok.sound ok.ordered mem live
          (w.state.thread e.thread)
        rw [released] at goes
        obtain ⟨-, thread⟩ := Prod.mk.inj (Option.some.inj goes)
        right
        rw [← thread]
        rfl
  | claims point own =>
      rw [point] at locals
      refine ⟨locals, .inr ?_⟩
      have goes := stepOf_inside found (by rw [point]; exact Point.noConfusion)
      unfold Thread.step at goes
      simp only [point] at goes
      split_ifs at goes
      obtain ⟨-, thread⟩ := Prod.mk.inj (Option.some.inj goes)
      rw [← thread]
      rfl

/-! ## A call's step -/

namespace Filled.Doing

variable {task : Store.Task UInt8} {hands : List Nat}

/-- A block made for a request of its own is zero. -/
theorem allocates_own (pages : 16 ∣ A.page) (ok : Zeroed A w)
    (taken : w.state.step A e = some s') (called : e.call = none)
    (seeks : (w.state.thread e.thread).point.aim = .seeks size .request)
    (locals : w.locals e.thread = ⟨0, 0, 0⟩) :
    ∃ hands, (w.next A e s').Doing A e.thread (some (.allocates size)) hands ∧
      ∀ q ∈ hands, ∀ m, ¬ w.state.BlockAt A q m := by
  have step := Seeking.step pages ok taken called seeks
  rw [locals] at step
  cases step with
  | still aim locals' => exact ⟨[], .allocates aim locals', fun _ mem => by cases mem⟩
  | failed point locals' =>
      refine ⟨[], .ended ?_ ?_, fun _ mem => by cases mem⟩
      · change (s'.thread e.thread).point.aim = .rest
        rw [point]
        rfl
      · rw [locals']
        rfl
  | @made q memory start block point locals' fresh zero copied kept =>
      refine ⟨[q], .made ?_ ?_ (⟨start, ?_, ?_⟩ :
        (w.next A e s').Keeps A q (List.replicate size 0)), fun p mem => ?_⟩
      · change (s'.thread e.thread).point.aim = .rest
        rw [point]
        rfl
      · rw [locals']
        exact if_neg start
      · rw [List.length_replicate]
        exact block
      · rw [List.length_replicate]
        change valuesAt (w.memoryAfter A e) q size = _
        rw [copied]
        exact valuesAt_of_zeroIn zero
      · obtain rfl := List.mem_singleton.mp mem
        exact fresh

/-- A block made for a resize has the old one's bytes. -/
theorem moves_own (pages : 16 ∣ A.page) (ok : Zeroed A w)
    (taken : w.state.step A e = some s') (called : e.call = none)
    (seeks : (w.state.thread e.thread).point.aim = .seeks size (.move p))
    (locals : w.locals e.thread = ⟨p, values.length, 0⟩) (keeps : w.Keeps A p values) :
    ∃ hands, (w.next A e s').Doing A e.thread (some (.resizes p values size)) hands ∧
      ∀ q ∈ hands, q = p ∨ ∀ m, ¬ w.state.BlockAt A q m := by
  have own {q : Nat} (mem : q ∈ [p]) : q = p ∨ ∀ m, ¬ w.state.BlockAt A q m :=
    .inl (List.mem_singleton.mp mem)
  have untouched : w.state.touched A e.thread = none := by
    unfold State.touched
    cases point : (w.state.thread e.thread).point with
    | release | claim | resizeShadow | resizeWord =>
        rw [point] at seeks
        cases seeks
    | _ => rfl
  have keeps' := keeps.step pages ok taken (by rw [untouched]; exact Option.not_mem_none p)
  have step := Seeking.step pages ok taken called seeks
  rw [locals] at step
  cases step with
  | still aim locals' => exact ⟨[p], .moves aim locals' keeps', fun _ => own⟩
  | failed point locals' =>
      refine ⟨[p], .made ?_ ?_ keeps', fun _ => own⟩
      · change (s'.thread e.thread).point.aim = .rest
        rw [point]
        rfl
      · rw [locals']
        rfl
  | @made q memory start block point locals' fresh zero copied kept =>
      have other : p ≠ q := by
        rintro rfl
        exact fresh _ keeps.block
      refine ⟨[p, q], .moved (n := values.length) (.starts point) keeps'.block other ?_
        (⟨start, ?_, ?_⟩ : (w.next A e s').Keeps A q (resized values size)), fun r mem => ?_⟩
      · rw [locals']
        exact if_neg start
      · rw [length_resized]
        exact block
      · rw [length_resized]
        change valuesAt (w.memoryAfter A e) q size = _
        rw [copied]
        refine (valuesAt_copyRange zero).trans ?_
        rw [valuesAt_congr (kept p values.length keeps.block), keeps.memory]
      · rcases List.mem_cons.mp mem with rfl | mem
        · exact .inl rfl
        · obtain rfl := List.mem_singleton.mp mem
          exact .inr fresh

/-- A reallocation finds its block and where it is to go on. -/
theorem resizes_own (pages : 16 ∣ A.page) (ok : Zeroed A w)
    (taken : w.state.step A e = some s') (called : e.call = none)
    (point : (w.state.thread e.thread).point = .resize p size)
    (locals : w.locals e.thread = ⟨p, 0, 0⟩) (keeps : w.Keeps A p values) :
    (w.next A e s').Doing A e.thread (some (.resizes p values size)) [p] := by
  obtain ⟨place, partition⟩ := ok.sound.places
  have untouched : p ∉ w.state.touched A e.thread := by
    unfold State.touched
    rw [point]
    exact Option.not_mem_none p
  have keeps' := keeps.step pages ok taken untouched
  have locals' : (w.next A e s').locals e.thread = _ := next_locals called
  rw [point, locals] at locals'
  change _ = (⟨p, w.state.heap.sizeAt A p, 0⟩ : Locals) at locals'
  rw [keeps.block.sizeAt ok.sound ok.fits ok.ordered] at locals'
  have goes := stepOf_inside (State.step_parts taken).1 (by rw [point]; exact Point.noConfusion)
  unfold Thread.step at goes
  simp only [point] at goes
  -- a new block is looked for
  have moves (thread : (w.state.thread e.thread).allocate A size 0 (.move p)
      e.answer.cacheMapped = s'.thread e.thread) :
      (w.next A e s').Doing A e.thread (some (.resizes p values size)) [p] := by
    refine .moves ?_ locals' keeps'
    change (s'.thread e.thread).point.aim = _
    rw [← thread]
    exact (allocate_aim _ _ _ _ _).resolve_right fun refused => refused.1 (.inl (by decide))
  rcases keeps.block with ⟨x, block⟩ | ⟨b, mem, live, rfl, length⟩
  · rw [resize_slot partition ok.fits block] at goes
    split_ifs at goes
    · obtain ⟨-, thread⟩ := Prod.mk.inj (Option.some.inj goes)
      refine .grows (x := x) ?_ locals' (block.step pages ok taken untouched) keeps'
      change (s'.thread e.thread).point = _
      rw [← thread]
      rfl
    · exact moves (Prod.mk.inj (Option.some.inj goes)).2
  · rw [resize_huge ok.sound ok.ordered mem live] at goes
    exact moves (Prod.mk.inj (Option.some.inj goes)).2

/-- The block that stays gains zeros. -/
theorem grows_own (ok : Zeroed A w) (taken : w.state.step A e = some s') (called : e.call = none)
    (point : (w.state.thread e.thread).point = .resizeShadow x size)
    (locals : w.locals e.thread = ⟨p, values.length, 0⟩)
    (block : w.state.SlotBlock A x p values.length) (keeps : w.Keeps A p values) :
    (w.next A e s').Doing A e.thread (some (.resizes p values size)) [p] := by
  obtain ⟨place, partition⟩ := ok.sound.places
  have goes := stepOf_inside (State.step_parts taken).1 (by rw [point]; exact Point.noConfusion)
  unfold Thread.step at goes
  simp only [point] at goes
  obtain ⟨heap, thread⟩ := Prod.mk.inj (Option.some.inj goes)
  have after : (s'.thread e.thread).point = .resizeWord x size := by
    rw [← thread]
    rfl
  have still : s'.SlotBlock A x p values.length := by
    refine block.own partition taken ?_ ?_
    · rw [← heap]
      exact block.word
    · rw [after]
      simp [Point.stage, Stage.handed]
  refine .stores after still keeps.start ?_
  have written := memoryAfter_eq (A := A) (w := w) called
  rw [point, locals] at written
  unfold Locals.memory at written
  dsimp only at written
  change valuesAt (w.memoryAfter A e) p size = _
  rw [written, block.base, valuesAt_zeroRange, keeps.memory]

/-- The size of the block that stays is stored. -/
theorem stores_own (ok : Zeroed A w) (taken : w.state.step A e = some s') (called : e.call = none)
    (point : (w.state.thread e.thread).point = .resizeWord x size)
    (block : w.state.SlotBlock A x p n) (start : p ≠ 0)
    (memory : valuesAt w.memory p size = resized values size) :
    (w.next A e s').Doing A e.thread (some (.resizes p values size)) [p] := by
  obtain ⟨place, partition⟩ := ok.sound.places
  have word := stepOf_resizeWord (State.step_parts taken).1 point
  have goes := stepOf_inside (State.step_parts taken).1 (by rw [point]; exact Point.noConfusion)
  unfold Thread.step at goes
  simp only [point] at goes
  obtain ⟨-, thread⟩ := Prod.mk.inj (Option.some.inj goes)
  have after : (s'.thread e.thread).point = .idle := by
    rw [← thread]
    rfl
  have still : s'.SlotBlock A x p size := by
    refine block.own partition taken word ?_
    rw [after]
    simp [Point.stage, Stage.handed]
  have locals : (w.next A e s').locals e.thread = _ := next_locals called
  have written := memoryAfter_eq (A := A) (w := w) called
  rw [point] at locals written
  refine .made ?_ ?_ (⟨start, ?_, ?_⟩ : (w.next A e s').Keeps A p (resized values size))
  · change (s'.thread e.thread).point.aim = .rest
    rw [after]
    rfl
  · have returned : ((w.next A e s').locals e.thread).block = p := by
      rw [locals]
      exact block.base
    rw [returned]
    exact if_neg start
  · rw [length_resized]
    exact .inl ⟨x, still⟩
  · rw [length_resized]
    change valuesAt (w.memoryAfter A e) p size = _
    rw [written]
    exact memory

/-- A step of a call goes on with its request; a block that it makes is none that
was there. -/
theorem own (pages : 16 ∣ A.page) (ok : Zeroed A w) (taken : w.state.step A e = some s')
    (called : e.call = none) (inside : (w.state.thread e.thread).point ≠ .idle)
    (doing : w.Doing A e.thread (some task) hands) :
    ∃ hands', (w.next A e s').Doing A e.thread (some task) hands' ∧
      ∀ q ∈ hands', q ∈ hands ∨ ∀ m, ¬ w.state.BlockAt A q m := by
  have rests (rest : (w.state.thread e.thread).point.aim = .rest) :=
    on_step taken called (Point.not_turns_of_rest rest) inside
  have aside (rest : (w.state.thread e.thread).point.aim = .rest) (q : Nat) :
      q ∉ w.state.touched A e.thread := by
    rw [State.touched_of_not_turns (Point.not_turns_of_rest rest)]
    exact Option.not_mem_none q
  have keep {l : List Nat} (next : (w.next A e s').Doing A e.thread (some task) l)
      (fewer : ∀ q ∈ l, q ∈ hands) : ∃ hands', (w.next A e s').Doing A e.thread (some task) hands' ∧
        ∀ q ∈ hands', q ∈ hands ∨ ∀ m, ¬ w.state.BlockAt A q m :=
    ⟨l, next, fun q mem => .inl (fewer q mem)⟩
  cases doing with
  | ended rest block =>
      obtain ⟨aim, locals⟩ := rests rest
      exact keep (.ended (aim.trans rest) (by rw [locals]; exact block)) fun _ mem => mem
  | made rest block keeps =>
      obtain ⟨aim, locals⟩ := rests rest
      exact keep (.made (aim.trans rest) (by rw [locals]; exact block)
        (keeps.step pages ok taken (aside rest _))) fun _ mem => mem
  | allocates seeks locals =>
      obtain ⟨hands', next, fresh⟩ := allocates_own pages ok taken called seeks locals
      exact ⟨hands', next, fun q mem => .inr (fresh q mem)⟩
  | moves seeks locals keeps =>
      obtain ⟨hands', next, fresh⟩ := moves_own pages ok taken called seeks locals keeps
      exact ⟨hands', next, fun q mem => (fresh q mem).imp_left List.mem_singleton.mpr⟩
  | resizes point locals keeps =>
      exact keep (resizes_own pages ok taken called point locals keeps) fun _ mem => mem
  | grows point locals block keeps =>
      exact keep (grows_own ok taken called point locals block keeps) fun _ mem => mem
  | stores point block start memory =>
      exact keep (stores_own ok taken called point block start memory) fun _ mem => mem
  | releases on keeps =>
      obtain ⟨-, ⟨on', block, same⟩ | rest⟩ := on.own ok taken called keeps.block
      · refine keep (.releases on' ⟨keeps.start, block, ?_⟩) fun _ mem => mem
        change valuesAt (w.memoryAfter A e) _ _ = _
        rw [same]
        exact keeps.memory
      · exact keep (.ended rest rfl) fun _ mem => by cases mem
  | @moved p q size n values values' on old other block keeps =>
      obtain ⟨locals, next⟩ := on.own ok taken called old
      have block' : (Store.Task.resizes p values size).block
          ((w.next A e s').locals e.thread).block = some (q, values') := by
        rw [locals]
        exact block
      have keeps' := keeps.step pages ok taken (by
        rw [on.touched]
        exact fun same => other (Option.some.inj same))
      rcases next with ⟨on', old', -⟩ | rest
      · exact keep (.moved on' old' other block' keeps') fun _ mem => mem
      · exact keep (.made rest block' keeps') fun _ => List.mem_cons_of_mem _

end Filled.Doing

end WeaveC.Alloc
