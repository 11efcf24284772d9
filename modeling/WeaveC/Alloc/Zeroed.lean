import WeaveC.Alloc.Contents
import WeaveC.Alloc.Entries
import WeaveC.Alloc.Marking
import WeaveC.Alloc.Objects

/-!
# Zeros where nothing was handed out

Every byte of the arena that is not zero lies in a slot that was handed out
before.  So a block is zero when its allocation returns: a slot that was used
before is filled with zeros, one that was not is zero as it is, and a huge
block's mapping is new.
-/

namespace WeaveC.Alloc

open WeaveC.Library

variable {T : Type} {A : Arena} {place : Slot → Place T} {h' : Heap} {th' : Thread}
  {s s' : State T} {e : Event T} {w w' : Filled T} {x : Slot} {address : Nat}

/-! ## Pages -/

theorem Arena.le_pageAbove (A : Arena) (address : Nat) : address ≤ A.pageAbove address := by
  have parts := Nat.div_add_mod' (address + A.page - 1) A.page
  have rest := Nat.mod_lt (address + A.page - 1) A.pages
  have positive := A.pages
  unfold pageAbove
  omega

theorem Arena.pageBelow_le (A : Arena) (address : Nat) : A.pageBelow address ≤ address :=
  Nat.div_mul_le_self _ _

/-- However the zeros are made, they are those of a `memset`. -/
theorem zeroFill_eq (A : Arena) (grant : Nat → Bool) (memory : Nat → UInt8) (base size : Nat) :
    zeroFill A grant memory base size = zeroRange memory base size := by
  have above := A.le_pageAbove base
  have below := A.pageBelow_le (base + size)
  unfold zeroFill
  dsimp only
  split_ifs with written
  · rfl
  · have order : A.pageAbove base < A.pageBelow (base + size) := by
      by_contra short
      exact written (.inr (.inl (Nat.not_lt.mp short)))
    funext a
    unfold zeroRange
    split_ifs <;> first | rfl | (unfold InRange at *; omega)

theorem decommit_eq (A : Arena) (grant : Nat → Bool) (memory : Nat → UInt8) (base bytes a : Nat) :
    decommit A grant memory base bytes a = memory a ∨
      decommit A grant memory base bytes a = 0 ∧ InRange base bytes a := by
  have above := A.le_pageAbove base
  have below := A.pageBelow_le (base + bytes)
  unfold decommit
  split_ifs with kept
  · exact .inl rfl
  · by_cases inside : InRange (A.pageAbove base) (A.pageBelow (base + bytes) - A.pageAbove base) a
    · refine .inr ⟨zeroIn_zeroRange _ _ _ a inside, ?_⟩
      unfold InRange at inside ⊢
      omega
    · exact .inl (zeroRange_of_not_mem inside)

/-! ## What a step writes -/

/-- The step sets the byte to zero. -/
inductive Zeroes (A : Arena) (s : State T) (l : Locals) (e : Event T) (address : Nat) : Prop where
  | filled {v : Want} {y : Entry} (point : (s.thread e.thread).point = .storeLive v y)
      (range : InRange (s.heap.table.slotBase A y.place) v.size address)
  | mapped {size alignment : Nat} {purpose : Purpose} {request : Heap.HugeRequest} {map : Nat}
      (point : (s.thread e.thread).point = .huge size alignment purpose)
      (placed : s.heap.hugePlaced A size alignment e.answer = some (request, map))
      (range : InRange map request.mapBytes address)
  | dropped {p : Nat} {b : HugeBlock} (point : (s.thread e.thread).point = .release p)
      (outside : A.inArena p = false) (found : s.heap.hugeDropped p = some b)
      (range : InRange b.map b.mapBytes address)
  | given {x : Slot} {cached : Bool} (point : (s.thread e.thread).point = .shadowDead x cached)
      (range : InRange (s.heap.table.slotBase A x) (s.heap.table.slotBytes x) address)
  | gained {x : Slot} {size : Nat} (point : (s.thread e.thread).point = .resizeShadow x size)
      (range : InRange (s.heap.table.slotBase A x + l.old) (size - l.old) address)

/-- The step copies another byte there. -/
inductive Copies (A : Arena) (s : State T) (e : Event T) (address : Nat) : Prop where
  | slot {v : Want} {y : Entry} {p : Nat} (point : (s.thread e.thread).point = .shadowLive v y)
      (purpose : v.purpose = .move p)
      (range : InRange (s.heap.table.slotBase A y.place) v.size address)
  | huge {size alignment p : Nat} {request : Heap.HugeRequest} {map : Nat}
      (point : (s.thread e.thread).point = .huge size alignment (.move p))
      (placed : s.heap.hugePlaced A size alignment e.answer = some (request, map))
      (range : InRange (hugeBase request map) size address)

theorem Locals.copied_cases (l : Locals) (memory : Nat → UInt8) (block size : Nat)
    (purpose : Purpose) (address : Nat) :
    l.copied memory block size purpose address = memory address ∨
      (∃ p, purpose = .move p) ∧ InRange block size address := by
  cases purpose with
  | request => exact .inl rfl
  | move p =>
      by_cases inside : InRange block (if l.old < size then l.old else size) address
      · refine .inr ⟨⟨p, rfl⟩, ?_⟩
        unfold InRange at inside ⊢
        split at inside <;> omega
      · exact .inl (copyRange_of_not_mem inside)

/-- A step leaves a byte alone, sets it to zero or copies another there. -/
theorem Filled.memory_cases (w : Filled T) (e : Event T) (address : Nat) :
    w.memoryAfter A e address = w.memory address ∨
      w.memoryAfter A e address = 0 ∧ Zeroes A w.state (w.locals e.thread) e address ∨
        Copies A w.state e address := by
  unfold memoryAfter
  cases called : e.call with
  | some call => exact .inl rfl
  | none =>
      dsimp only
      unfold Locals.memory
      cases point : (w.state.thread e.thread).point with
      | storeLive v y =>
          dsimp only
          split_ifs
          · rw [zeroFill_eq]
            by_cases inside : InRange (w.state.heap.table.slotBase A y.place) v.size address
            · exact .inr (.inl ⟨zeroIn_zeroRange _ _ _ address inside, .filled point inside⟩)
            · exact .inl (zeroRange_of_not_mem inside)
          · exact .inl rfl
      | shadowLive v y =>
          dsimp only
          rcases (w.locals e.thread).copied_cases w.memory
            (w.state.heap.table.slotBase A y.place) v.size v.purpose address with
            same | ⟨⟨p, purpose⟩, inside⟩
          · exact .inl same
          · exact .inr (.inr (.slot point purpose inside))
      | huge size alignment purpose =>
          dsimp only
          cases placed : w.state.heap.hugePlaced A size alignment e.answer with
          | none => exact .inl rfl
          | some found =>
              obtain ⟨request, map⟩ := found
              dsimp only
              rcases (w.locals e.thread).copied_cases (zeroRange w.memory map request.mapBytes)
                (hugeBase request map) size purpose address with same | ⟨⟨p, rfl⟩, inside⟩
              · rw [same]
                by_cases inside : InRange map request.mapBytes address
                · exact .inr (.inl ⟨zeroIn_zeroRange _ _ _ address inside,
                    .mapped point placed inside⟩)
                · exact .inl (zeroRange_of_not_mem inside)
              · exact .inr (.inr (.huge point placed inside))
      | release p =>
          dsimp only
          split_ifs with inside
          · exact .inl rfl
          · cases found : w.state.heap.hugeDropped p with
            | none => exact .inl rfl
            | some b =>
                dsimp only
                by_cases range : InRange b.map b.mapBytes address
                · exact .inr (.inl ⟨zeroIn_zeroRange _ _ _ address range,
                    .dropped point (Bool.eq_false_iff.mpr inside) found range⟩)
                · exact .inl (zeroRange_of_not_mem range)
      | shadowDead x cached =>
          dsimp only
          split_ifs
          · rcases decommit_eq A e.answer.grant w.memory (w.state.heap.table.slotBase A x)
              (w.state.heap.table.slotBytes x) address with same | ⟨zero, inside⟩
            · exact .inl same
            · exact .inr (.inl ⟨zero, .given point inside⟩)
          · exact .inl rfl
      | resizeShadow x size =>
          dsimp only
          split_ifs
          · by_cases inside : InRange (w.state.heap.table.slotBase A x +
              (w.locals e.thread).old) (size - (w.locals e.thread).old) address
            · exact .inr (.inl ⟨zeroIn_zeroRange _ _ _ address inside, .gained point inside⟩)
            · exact .inl (zeroRange_of_not_mem inside)
          · exact .inl rfl
      | _ => exact .inl rfl

/-! ## Where slots and blocks lie -/

namespace Partition

theorem inArena_of_slot (ok : Partition A s place) (used : place x ≠ .fresh)
    (inside : InRange (s.heap.table.slotBase A x) (s.heap.table.slotBytes x) address) :
    A.inArena address = true := by
  obtain ⟨-, -, above, room, -⟩ := ok.slot_inside used
  obtain ⟨first, last⟩ := inside
  unfold Arena.inArena
  rw [Bool.and_eq_true, decide_eq_true_iff, decide_eq_true_iff]
  omega

/-- An address lies in one slot only. -/
theorem slot_unique (ok : Partition A s place) {y : Slot} (used : place x ≠ .fresh)
    (used' : place y ≠ .fresh)
    (inside : InRange (s.heap.table.slotBase A x) (s.heap.table.slotBytes x) address)
    (inside' : InRange (s.heap.table.slotBase A y) (s.heap.table.slotBytes y) address) : x = y :=
  (ok.slotOf_eq used inside.1 inside.2).symm.trans (ok.slotOf_eq used' inside'.1 inside'.2)

end Partition

theorem HugeBlock.Ok.not_inArena {b : HugeBlock} (ok : b.Ok A) (first : b.map ≤ address)
    (last : address < b.map + b.mapBytes) : A.inArena address = false := by
  have high := A.above
  unfold Arena.inArena
  rw [Bool.and_eq_false_iff, decide_eq_false_iff_not, decide_eq_false_iff_not]
  have outside := ok.outside
  omega

/-- The object lies in the block's mapping. -/
theorem HugeBlock.Ok.object {b : HugeBlock} (ok : b.Ok A) (pages : 16 ∣ A.page)
    (inside : InRange b.base b.size address) : InRange b.map b.mapBytes address := by
  have start := ok.inside
  have room := ok.room
  have used := (used_le_pageBytes pages b.size).1
  unfold usedBytes at used
  obtain ⟨first, last⟩ := inside
  exact ⟨start.trans first, by omega⟩

theorem Heap.hugePlaced_eq {h : Heap} {size alignment map : Nat} {a : Answer}
    {request : Heap.HugeRequest} (placed : h.hugePlaced A size alignment a = some (request, map)) :
    h.hugeRequest A size alignment = some request ∧ a.map = some map ∧ a.hugeTable = true := by
  unfold hugePlaced at placed
  split at placed
  · rename_i asked mapped
    split_ifs at placed with table
    obtain ⟨rfl, rfl⟩ := Prod.mk.inj (Option.some.inj placed)
    exact ⟨asked, mapped, table⟩
  · cases placed

/-- A huge allocation that finds room for its block makes it. -/
theorem stepOf_placed {size alignment map : Nat} {purpose : Purpose} {request : Heap.HugeRequest}
    (taken : s.stepOf A e = some (h', th'))
    (point : (s.thread e.thread).point = .huge size alignment purpose)
    (placed : s.heap.hugePlaced A size alignment e.answer = some (request, map)) :
    s.heap.Unmapped A map request.mapBytes ∧ h' = s.heap.hugeInsert A size request map ∧
      th' = (s.thread e.thread).goto (Thread.allocated purpose) := by
  obtain ⟨asked, mapped, table⟩ := Heap.hugePlaced_eq placed
  have taken := stepOf_inside taken (by rw [point]; exact Point.noConfusion)
  unfold Thread.step at taken
  simp only [point] at taken
  unfold Thread.hugeAlloc at taken
  rw [asked, mapped] at taken
  dsimp only at taken
  split_ifs at taken with unmapped
  obtain ⟨rfl, rfl⟩ := Prod.mk.inj (Option.some.inj taken)
  exact ⟨unmapped, rfl, rfl⟩

theorem Heap.hugeDropped_spec {h : Heap} {p : Nat} {b : HugeBlock}
    (found : h.hugeDropped p = some b) : b ∈ h.huge.blocks ∧ b.dead = 0 ∧ b.base = p := by
  unfold hugeDropped hugeFree at found
  split at found
  · rename_i freed
    split_ifs at freed
    split at freed
    · cases freed
    · rename_i block listed
      split_ifs at freed with live
      rw [listed] at found
      obtain rfl := Option.some.inj found
      unfold Huge.blockAt at listed
      split at listed
      · cases listed
      · exact ⟨List.mem_of_getElem? listed, live.2, live.1⟩
  · cases found

/-- A thread inside the allocator takes no call. -/
theorem stepOf_call_none (taken : s.stepOf A e = some (h', th'))
    (inside : (s.thread e.thread).point ≠ .idle) : e.call = none := by
  cases called : e.call with
  | none => rfl
  | some call =>
      unfold State.stepOf at taken
      rw [called] at taken
      dsimp only at taken
      rw [if_neg fun both => inside both.1] at taken
      cases taken

/-! ## Every step -/

/-- What every step and every store of the program keeps: bytes of the arena
that are not zero lie in slots that were handed out before, and an object that
an allocation is about to return is zero. -/
structure Zeroed (A : Arena) (w : Filled T) : Prop where
  sound : Sound A w.state
  fits : w.state.Fits
  each : OneEach w.state
  ordered : w.state.heap.huge.Ordered A
  clean : w.state.Clean
  once : ∀ t u x, (w.state.thread t).point.stage.handed = some x →
    (w.state.thread u).point.stage.handed = some x → t = u
  blank : ∀ a, A.inArena a = true → w.memory a ≠ 0 →
    ∃ x, (w.state.heap.table.word x).state ≠ .never ∧
      InRange (w.state.heap.table.slotBase A x) (w.state.heap.table.slotBytes x) a
  handed : ∀ t v y, (w.state.thread t).point = .shadowLive v y →
    ZeroIn w.memory (w.state.heap.table.slotBase A y.place) v.size

namespace Zeroed

theorem initial (A : Arena) (byte memory : Nat → UInt8) :
    Zeroed A (.initial A byte memory : Filled T) := by
  refine ⟨sound_initial A byte, fits_initial A byte, oneEach_initial A byte, ordered_initial,
    clean_initial A byte, ?_, fun a inside some => ?_, ?_⟩
  · intro t u x handed
    cases handed
  · refine absurd (zeroIn_zeroRange _ _ _ a ?_) some
    unfold Arena.inArena at inside
    rw [Bool.and_eq_true, decide_eq_true_iff, decide_eq_true_iff] at inside
    exact inside
  · intro t v y point
    cases point

/-- A slot whose word was never written is zero. -/
theorem unused (ok : Zeroed A w) (partition : Partition A w.state place) (used : place x ≠ .fresh)
    (never : (w.state.heap.table.word x).state = .never) :
    ZeroIn w.memory (w.state.heap.table.slotBase A x) (w.state.heap.table.slotBytes x) := by
  intro a inside
  by_contra some
  obtain ⟨y, written, inside'⟩ := ok.blank a (partition.inArena_of_slot used inside) some
  obtain rfl := partition.slot_unique used (partition.used_of_word written) inside inside'
  exact written never

/-- An object that is handed out lies in its slot. -/
theorem handing (ok : Zeroed A w) (partition : Partition A w.state place) {t : T} {v : Want}
    {y : Entry} (point : (w.state.thread t).point = .shadowLive v y) :
    w.state.heap.table.word y.place = ⟨v.size, .live⟩ ∧ place y.place ≠ .fresh ∧
      v.size < w.state.heap.table.slotBytes y.place := by
  obtain ⟨-, used, -, small⟩ := ok.sound.handing_spec partition point
  exact ⟨(ok.each.handed t _ _ (congrArg Point.stage point)).1, used, small⟩

variable [DecidableEq T]

/-- A copy into the arena goes to the object that the thread hands out. -/
theorem copies_inArena (pages : 16 ∣ A.page) (ok : Zeroed A w)
    (taken : w.state.step A e = some s') (copies : Copies A w.state e address)
    (inside : A.inArena address = true) : ∃ v y, (w.state.thread e.thread).point = .shadowLive v y ∧
      InRange (w.state.heap.table.slotBase A y.place) v.size address := by
  cases copies with
  | @slot v y p point _ range => exact ⟨v, y, point, range⟩
  | @huge size alignment p request map point placed range =>
      obtain ⟨h, th, found, rfl⟩ := State.step_eq_some taken
      have unmapped := (stepOf_placed found point placed).1
      have accepted := ok.sound.accepts e.thread _ (congrArg Point.stage point)
      have block := (newBlock_ok pages accepted (Heap.hugePlaced_eq placed).1 unmapped).1
      obtain ⟨first, last⟩ := block.object pages range
      rw [block.not_inArena first last] at inside
      cases inside

/-- The step of an object that is handed out starts at the store of its word. -/
theorem earlier (pages : 16 ∣ A.page) (ok : Zeroed A w) (taken : w.state.step A e = some s') {t : T}
    (handed : (s'.thread t).point.stage.handed = some x) :
    t ≠ e.thread ∧ (w.state.thread t).point.stage.handed = some x ∨
      t = e.thread ∧ ∃ v y, (w.state.thread t).point = .storeLive v y ∧ y.place = x ∧
        (s'.thread t).point.stage = .handing x v.size := by
  obtain ⟨step, others⟩ := ok.sound.step_slotStep pages taken
  by_cases self : t = e.thread
  · subst self
    refine .inr ⟨rfl, ?_⟩
    cases step with
    | @storeLive v y point next eq =>
        rw [next] at handed
        obtain rfl := Option.some.inj handed
        exact ⟨v, y, point, rfl, next⟩
    | shadowLive _ next _ | claim _ next _ | chooseCache _ next _ | shadowDead _ next _
    | resizeShadow _ next _ | resizeWord _ next _ =>
        rw [next] at handed
        cases handed
    | other _ after _ _ =>
        cases stage : (s'.thread e.thread).point.stage with
        | handing | resized | dying =>
            rw [stage] at after
            exact after.elim
        | none | asking =>
            rw [stage] at handed
            cases handed
  · rw [others t self] at handed
    exact .inl ⟨self, handed⟩

theorem once_step (pages : 16 ∣ A.page) (ok : Zeroed A w) (taken : w.state.step A e = some s')
    (t u : T) (x : Slot) (handed : (s'.thread t).point.stage.handed = some x)
    (handed' : (s'.thread u).point.stage.handed = some x) : t = u := by
  obtain ⟨place, partition⟩ := ok.sound.places
  -- the slot of a word about to be stored is not live, that of an object handed out is
  have apart {t u : T} {v : Want} {y : Entry}
      (point : (w.state.thread t).point = .storeLive v y) (own : y.place = x)
      (before : (w.state.thread u).point.stage.handed = some x) : False := by
    have placed := ((partition.thread t).taken y.place).mpr (congrArg Point.taken point)
    cases stage : (w.state.thread u).point.stage with
    | handing z size =>
        rw [stage] at before
        obtain rfl := Option.some.inj before
        have live := (partition.table.live_iff z).mpr
          (congrArg Word.state (ok.each.handed u z size stage).1)
        rw [own, live] at placed
        cases placed
    | none | asking | resized | dying =>
        rw [stage] at before
        cases before
  rcases ok.earlier pages taken handed with ⟨-, before⟩ | ⟨self, v, y, point, own, -⟩
  · rcases ok.earlier pages taken handed' with ⟨-, before'⟩ | ⟨self', v, y, point, own, -⟩
    · exact ok.once t u x before before'
    · exact (apart point own before).elim
  · rcases ok.earlier pages taken handed' with ⟨-, before'⟩ | ⟨self', -⟩
    · exact (apart point own before').elim
    · exact self.trans self'.symm

/-- A slot that was handed out stays one, and where it is. -/
theorem written_step (ok : Zeroed A w) (taken : w.state.step A e = some s')
    (written : (w.state.heap.table.word x).state ≠ .never) :
    (s'.heap.table.word x).state ≠ .never ∧
      s'.heap.table.slotBase A x = w.state.heap.table.slotBase A x ∧
        s'.heap.table.slotBytes x = w.state.heap.table.slotBytes x := by
  obtain ⟨place, partition⟩ := ok.sound.places
  have used := partition.used_of_word written
  refine ⟨fun never => ?_, partition.step_slotBase taken used, partition.step_slotBytes taken used⟩
  obtain ⟨h, th, found, rfl⟩ := State.step_eq_some taken
  exact written ((stepOf_effect found).never never)

theorem blank_step (pages : 16 ∣ A.page) (ok : Zeroed A w) (taken : w.state.step A e = some s')
    (inside : A.inArena address = true) (some : w.memoryAfter A e address ≠ 0) :
    ∃ x, (s'.heap.table.word x).state ≠ .never ∧
      InRange (s'.heap.table.slotBase A x) (s'.heap.table.slotBytes x) address := by
  obtain ⟨place, partition⟩ := ok.sound.places
  rcases w.memory_cases e address with same | ⟨zero, -⟩ | copies
  · rw [same] at some
    obtain ⟨x, written, range⟩ := ok.blank address inside some
    obtain ⟨written', base, bytes⟩ := ok.written_step taken written
    exact ⟨x, written', by rw [base, bytes]; exact range⟩
  · exact absurd zero some
  · obtain ⟨v, y, point, first, last⟩ := ok.copies_inArena pages taken copies inside
    obtain ⟨word, -, small⟩ := ok.handing partition point
    obtain ⟨written', base, bytes⟩ := ok.written_step taken (x := y.place)
      (by rw [word]; exact WordState.noConfusion)
    refine ⟨y.place, written', ?_⟩
    rw [base, bytes]
    exact ⟨first, by omega⟩

omit [DecidableEq T] in
/-- The bytes of an object that an allocation makes, once its word is stored. -/
theorem zero_stored (ok : Zeroed A w) (partition : Partition A w.state place)
    (inside : e.call = none) {v : Want} {y : Entry}
    (point : (w.state.thread e.thread).point = .storeLive v y) :
    ZeroIn (w.memoryAfter A e) (w.state.heap.table.slotBase A y.place) v.size := by
  have memory : w.memoryAfter A e =
      if y.used = true ∧ v.size ≠ 0 then
        zeroRange w.memory (w.state.heap.table.slotBase A y.place) v.size
      else w.memory := by
    unfold Filled.memoryAfter Locals.memory
    rw [inside, point]
    dsimp only
    rw [zeroFill_eq]
  rw [memory]
  split_ifs with filled
  · exact zeroIn_zeroRange _ _ _
  · intro a range
    obtain ⟨first, last⟩ := range
    have unused : y.used = false := by
      by_contra used
      exact filled ⟨by simpa using used, by omega⟩
    have has : (w.state.thread e.thread).Has y := .inr (by rw [point]; rfl)
    have placed := ((partition.thread e.thread).taken y.place).mpr (congrArg Point.taken point)
    have small := partition.stored_fits (.inl ⟨v, y, point, rfl, rfl⟩)
    exact ok.unused partition (by rw [placed]; simp)
      (ok.clean e.thread y has unused) a ⟨first, by omega⟩

theorem handed_step (pages : 16 ∣ A.page) (ok : Zeroed A w) (taken : w.state.step A e = some s')
    {t : T} {v : Want} {y : Entry} (point : (s'.thread t).point = .shadowLive v y) :
    ZeroIn (w.memoryAfter A e) (s'.heap.table.slotBase A y.place) v.size := by
  obtain ⟨place, partition⟩ := ok.sound.places
  have handed : (s'.thread t).point.stage = .handing y.place v.size := by rw [point]; rfl
  rcases ok.earlier pages taken (t := t) (x := y.place) (by rw [handed]; rfl) with
    ⟨other, -⟩ | ⟨rfl, v', y', before, own, stage⟩
  · obtain ⟨-, others⟩ := ok.sound.step_slotStep pages taken
    rw [others t other] at point
    obtain ⟨word, used, small⟩ := ok.handing partition point
    rw [partition.step_slotBase taken used]
    intro a range
    have inside : InRange (w.state.heap.table.slotBase A y.place)
        (w.state.heap.table.slotBytes y.place) a := ⟨range.1, by have := range.2; omega⟩
    have zero := ok.handed t v y point a range
    rcases w.memory_cases e a with same | ⟨zero', -⟩ | copies
    · exact same.trans zero
    · exact zero'
    · -- a copy goes to another object
      obtain ⟨v', y', point', range'⟩ :=
        ok.copies_inArena pages taken copies (partition.inArena_of_slot used inside)
      obtain ⟨-, used', small'⟩ := ok.handing partition point'
      have same := partition.slot_unique used used' inside ⟨range'.1, by have := range'.2; omega⟩
      refine absurd (ok.once t e.thread y.place ?_ ?_) other
      · rw [point]
        rfl
      · rw [point', same]
        rfl
  · obtain ⟨-, size⟩ := Stage.handing.inj (handed.symm.trans stage)
    rw [← own, size, partition.step_slotBase taken]
    · refine ok.zero_stored partition ?_ before
      obtain ⟨h, th, found, -⟩ := State.step_eq_some taken
      exact stepOf_call_none found (by rw [before]; exact Point.noConfusion)
    · rw [((partition.thread e.thread).taken y'.place).mpr (congrArg Point.taken before)]
      simp

theorem step (pages : 16 ∣ A.page) (ok : Zeroed A w) (alone : w.state.Alone e)
    (taken : w.state.step A e = some s') (locals : T → Locals) :
    Zeroed A ⟨s', w.memoryAfter A e, locals⟩ := by
  obtain ⟨place, partition⟩ := ok.sound.places
  have sound := ok.sound.step pages alone.noRace taken
  obtain ⟨place', partition'⟩ := sound.places
  refine
    { sound
      fits := fun x live => ?_
      each := ok.each.step pages ok.sound alone taken
      ordered := ?_
      clean := ok.clean.step partition partition' taken
      once := ok.once_step pages taken
      blank := fun a inside some => ok.blank_step pages taken inside some
      handed := fun t v y point => ok.handed_step pages taken point }
  · obtain ⟨h, th, found, rfl⟩ := State.step_eq_some taken
    exact ok.fits.step ok.sound found live
  · obtain ⟨h, th, found, rfl⟩ := State.step_eq_some taken
    exact ok.ordered.step found

omit [DecidableEq T] in
/-- The program's stores go to its blocks and to memory that is not the
allocator's. -/
theorem stored (pages : 16 ∣ A.page) (ok : Zeroed A w)
    (own : (∃ p n, w.state.BlockAt A p n ∧ InRange p n address) ∨ w.state.Elsewhere A address)
    (value : UInt8) : Zeroed A (w.stored address value) := by
  obtain ⟨place, partition⟩ := ok.sound.places
  -- a byte of the arena is one of a block that was returned
  have slot (inside : A.inArena address = true) : ∃ x,
      (w.state.heap.table.word x).state = .live ∧
        (∀ t, (w.state.thread t).point.stage.handed ≠ some x) ∧
          InRange (w.state.heap.table.slotBase A x) (w.state.heap.table.slotBytes x) address := by
    rcases own with ⟨p, n, ⟨x, block⟩ | ⟨b, mem, -, rfl, rfl⟩, range⟩ | ⟨outside, -⟩
    · have live : (w.state.heap.table.word x).state = .live := by rw [block.word]
      have small := ok.fits x live
      rw [block.word] at small
      refine ⟨x, live, block.returned, ?_⟩
      rw [block.base]
      exact ⟨range.1, range.2.trans (Nat.add_lt_add_left small p)⟩
    · have block := ok.sound.blocks.block b mem
      obtain ⟨first, last⟩ := block.object pages range
      rw [block.not_inArena first last] at inside
      cases inside
    · rw [outside] at inside
      cases inside
  refine { ok with blank := fun a inside some => ?_, handed := fun t v y point a range => ?_ }
  · by_cases here : a = address
    · subst here
      obtain ⟨x, live, -, range⟩ := slot inside
      refine ⟨x, fun never => ?_, range⟩
      exact WordState.noConfusion (live.symm.trans never)
    · refine ok.blank a inside ?_
      rw [← Function.update_of_ne here value w.memory]
      exact some
  · by_cases here : a = address
    · subst here
      change (w.state.thread t).point = .shadowLive v y at point
      change InRange (w.state.heap.table.slotBase A y.place) v.size a at range
      obtain ⟨-, used, small⟩ := ok.handing partition point
      have inside : InRange (w.state.heap.table.slotBase A y.place)
          (w.state.heap.table.slotBytes y.place) a := ⟨range.1, by have := range.2; omega⟩
      obtain ⟨x, live, returned, range'⟩ := slot (partition.inArena_of_slot used inside)
      have same := partition.slot_unique used (partition.used_of_live live) inside range'
      refine absurd ?_ (returned t)
      rw [point, ← same]
      rfl
    · rw [← ok.handed t v y point a range]
      exact Function.update_of_ne here value w.memory

end Zeroed

end WeaveC.Alloc
