import WeaveC.Alloc.Objects
import WeaveC.Runtime.Color

/-!
# Colors of the heap

Every granule of a live object reads its slot's color, the color's class in a
partial granule, or poison; an object so large that its shadow is mapped afresh
reads 0.  Two slots next to each other have colors of different classes, so a
jump from one's object into the other's is reported.
-/

namespace WeaveC.Alloc

open WeaveC.Runtime WeaveC.Library

variable {T : Type} {A : Arena} {s s' : State T} {e : Event T} {place : Slot → Place T}
  {x y : Slot} {j : Nat}

/-! ## Colors and their classes -/

theorem color_value (n : Nat) :
    shadowFull (color n) ∧ color n ≠ 0 ∧ shadowClass (color n) = (n % 111 + 1) % 7 := by
  have all : ∀ m < 111, shadowFull (color m) ∧ color m ≠ 0 ∧ shadowClass (color m) = (m + 1) % 7 := by
    decide
  have same : color (n % 111) = color n := by
    unfold color
    rw [Nat.mod_mod]
  have small : n % 111 < 111 := Nat.mod_lt _ (by decide)
  rw [← same]
  exact all _ small

/-- Also where the colors start again. -/
theorem shadowClass_color_succ (n : Nat) :
    shadowClass (color n) ≠ shadowClass (color (n + 1)) := by
  rw [(color_value n).2.2, (color_value (n + 1)).2.2]
  omega

theorem shadowClass_partialOf {c k : Nat} (low : c &&& 7 < 7) (small : k < 16) :
    shadowClass (shadowPartialOf c k) = c &&& 7 := by
  have all : ∀ low < 7, ∀ k < 16,
      shadowClass (UInt8.ofNat (0x80 ||| (low <<< 4) ||| k)) = low := by
    decide
  exact all _ low k small

/-- What a granule of an object of this color reads. -/
def Tint (c v : UInt8) : Prop :=
  shadowPoison v ∨ v = c ∨ ¬ shadowFull v ∧ shadowClass v = shadowClass c

/-- A live object's granule: the slot's color, or none where the object is so
large that its shadow is mapped afresh. -/
def ObjectTint (page size : Nat) (c v : UInt8) : Prop :=
  Tint c v ∨ 4 * page ≤ size / 16 ∧ Tint 0 v

theorem tint_partialOf {c : UInt8} (colored : IsColor c) {k : Nat} (small : k < 16) :
    Tint c (shadowPartialOf c.toNat k) := by
  refine .inr (.inr ⟨(shadowPartialOf_value colored.2 small).1, ?_⟩)
  rw [shadowClass_partialOf colored.2 small]
  unfold shadowClass
  rw [if_pos colored.1]

/-- Two bytes of objects whose colors differ in class. -/
theorem not_sameColor {c d v w : UInt8} (apart : shadowClass c ≠ shadowClass d) (mine : Tint c v)
    (theirs : Tint d w) (clear : ¬ shadowPoison v) (clear' : ¬ shadowPoison w) :
    ¬ sameColor w v := by
  have class_of {c v : UInt8} (tint : Tint c v) (clear : ¬ shadowPoison v) :
      shadowClass v = shadowClass c := by
    rcases tint with poison | same | ⟨-, same⟩
    · exact absurd poison clear
    · rw [same]
    · exact same
  have other : shadowClass w ≠ shadowClass v := by
    rw [class_of mine clear, class_of theirs clear']
    exact apart.symm
  rintro (same | ⟨-, same⟩)
  · exact other (congrArg shadowClass same)
  · exact other same

/-- A whole granule of a color and one of an object without a color. -/
theorem not_sameColor_plain {c v w : UInt8} (colored : c ≠ 0) (mine : Tint c v)
    (theirs : Tint 0 w) (clear : ¬ shadowPoison v) (clear' : ¬ shadowPoison w)
    (whole : shadowFull v ∧ shadowFull w) : ¬ sameColor w v := by
  have value {c v : UInt8} (tint : Tint c v) (clear : ¬ shadowPoison v) (whole : shadowFull v) :
      v = c := by
    rcases tint with poison | same | ⟨notFull, -⟩
    · exact absurd poison clear
    · exact same
    · exact absurd whole notFull
  rintro (same | ⟨notFull | notFull, -⟩)
  · rw [value mine clear whole.1, value theirs clear' whole.2] at same
    exact colored same.symm
  · exact notFull whole.2
  · exact notFull whole.1

/-! ## Live objects and the program's calls -/

/-- `weavecRtHeapObjectAt`: of a released slot its whole extent. -/
def Heap.heapObjectAt (A : Arena) (h : Heap) (address : Nat) : HeapObject :=
  if A.inArena address then
    let x := h.table.slotOf A address
    let word := h.table.word x
    let live := decide (word.state = .live)
    { found := decide (word.state ≠ .never)
      live
      base := h.table.slotBase A x
      size := if live then word.value else h.table.slotBytes x }
  else
    match h.huge.find address with
    | some block => ⟨true, decide (block.dead = 0), block.base, block.size⟩
    | none => ⟨false, false, 0, 0⟩

/-- A step of the allocator or a call of the interface. -/
def State.act [DecidableEq T] (A : Arena) (s : State T) : Act T → Option (State T)
  | .step e => s.step A e
  | .user call => some (s.user A call)

/-- The program unpoisons ranges of a live object, or of memory outside the
arena. -/
def State.Owns (A : Arena) (s : State T) : UserCall → Prop
  | .poison _ _ => True
  | .unpoison address n =>
      A.base + A.bytes ≤ address ∨ address + n ≤ A.base ∨
        (s.heap.table.word (s.heap.table.slotOf A address)).state = .live ∧
          s.heap.table.slotBase A (s.heap.table.slotOf A address) ≤ address ∧
            address + n ≤ s.heap.table.slotBase A (s.heap.table.slotOf A address) +
              (s.heap.table.word (s.heap.table.slotOf A address)).value

instance (A : Arena) (s : State T) (call : UserCall) : Decidable (s.Owns A call) :=
  match call with
  | .poison _ _ => .isTrue trivial
  | .unpoison _ _ => inferInstanceAs (Decidable (_ ∨ _ ∨ _ ∧ _ ∧ _))

/-- What the program does on its side. -/
def State.Proper (A : Arena) (s : State T) : Act T → Prop
  | .step e => s.Alone e
  | .user call => call.Typed A ∧ s.Owns A call

instance [Fintype T] [DecidableEq T] (A : Arena) (s : State T) (a : Act T) :
    Decidable (s.Proper A a) :=
  match a with
  | .step e => inferInstanceAs (Decidable (s.Alone e))
  | .user _ => inferInstanceAs (Decidable (_ ∧ _))

/-! ## The shadow of objects -/

/-- The granules of an object of `size` bytes in the slot have its tints; an empty
one's is all tail. -/
def State.Painted (A : Arena) (s : State T) (x : Slot) (size : Nat) : Prop :=
  ∀ j, s.heap.table.slotBase A x ≤ j * 16 → j * 16 < s.heap.table.slotBase A x + max size 1 →
    ObjectTint A.page size (Heap.colorOfHeap x) (s.heap.shadow.byte j)

/-- Every settled object has its tints, and one that is reallocated in place
those of its new size. -/
structure Tinted (A : Arena) (s : State T) : Prop where
  object : ∀ x, s.Object x → s.Painted A x (s.heap.table.word x).value
  resized : ∀ t x size, (s.thread t).point.stage = .resized x size → s.Painted A x size

theorem tinted_initial (A : Arena) (byte : Nat → UInt8) :
    Tinted A (State.initial A byte : State T) := by
  exact ⟨fun x object => absurd (.inl ⟨object, rfl⟩) (not_sized_initial A byte x _),
    fun t x size resized => absurd (.inr ⟨t, resized⟩) (not_sized_initial A byte x size)⟩

/-- What `shadowLive` writes. -/
theorem Partition.painted_live (ok : Partition A s place) (window : A.Window s.heap.shadow)
    (used : place x ≠ .fresh) {size : Nat} (fits : size < s.heap.table.slotBytes x)
    (first : s.heap.table.slotBase A x ≤ j * 16)
    (last : j * 16 < s.heap.table.slotBase A x + max size 1) :
    ObjectTint A.page size (Heap.colorOfHeap x)
      ((s.heap.shadow.live A.page (s.heap.table.slotBase A x) size (s.heap.table.slotBytes x)
        (Heap.colorOfHeap x)).byte j) := by
  obtain ⟨start, granules, above, room, below⟩ := ok.slot_inside used
  have inside : ∀ b, s.heap.table.slotBase A x ≤ b →
      b ≤ s.heap.table.slotBase A x + max size (s.heap.table.slotBytes x) →
        s.heap.shadow.InWindow b := fun b _ low => window.inWindow (by omega)
  have colored : IsColor (Heap.colorOfHeap x) := isColor_color _
  rw [Shadow.live_byte window.ready A.pages (Nat.mod_eq_zero_of_dvd start) inside]
  split
  · exact .inl (.inl (by decide))
  rename_i front
  have some : 0 < size := by
    unfold Shadow.tailLimit at front
    omega
  rw [if_pos (by omega)]
  obtain ⟨g, rfl⟩ : ∃ g, j = s.heap.table.slotBase A x / 16 + g :=
    ⟨j - s.heap.table.slotBase A x / 16, by omega⟩
  rw [Nat.add_sub_cancel_left]
  unfold Shadow.objectByte
  dsimp only
  by_cases large : 4 * A.page ≤ size / 16
  · right
    refine ⟨large, ?_⟩
    rw [if_pos large]
    by_cases whole : g < size / 16
    · rw [if_pos whole]
      exact .inr (.inl rfl)
    · rw [if_neg whole, if_pos (by omega)]
      exact tint_partialOf ⟨by decide, by decide⟩ (by omega)
  · left
    rw [if_neg large]
    by_cases whole : g < size / 16
    · rw [if_pos whole]
      exact .inr (.inl rfl)
    · rw [if_neg whole, if_pos (by omega)]
      exact tint_partialOf colored (by omega)

/-! ## Every step -/

theorem State.Painted.carry {size : Nat} (painted : s.Painted A x size)
    (base : s'.heap.table.slotBase A x = s.heap.table.slotBase A x)
    (byte : ∀ j, s.heap.table.slotBase A x ≤ j * 16 → j * 16 < s.heap.table.slotBase A x + max size 1 →
      s'.heap.shadow.byte j = s.heap.shadow.byte j ∨ shadowPoison (s'.heap.shadow.byte j)) :
    s'.Painted A x size := by
  intro j first last
  rw [base] at first last
  rcases byte j first last with same | poison
  · rw [same]
    exact painted j first last
  · exact .inl (.inl poison)

theorem Tinted.painted (tinted : Tinted A s) {size : Nat} (sized : s.Sized x size) :
    s.Painted A x size := by
  rcases sized with ⟨object, rfl⟩ | ⟨t, resized⟩
  · exact tinted.object x object
  · exact tinted.resized t x size resized

theorem Tinted.step [DecidableEq T] (pages : 16 ∣ A.page) (ok : Sound A s) (fits : s.Fits)
    (each : OneEach s) (tinted : Tinted A s) (alone : s.Alone e) (taken : s.step A e = some s') :
    Tinted A s' := by
  obtain ⟨step, -⟩ := ok.step_slotStep pages taken
  obtain ⟨place, partition⟩ := ok.places
  have painted {x : Slot} {size : Nat} (sized : s'.Sized x size) : s'.Painted A x size := by
    rcases ok.sized_step pages each partition alone taken sized with
      ⟨before, leaves⟩ | ⟨used, small, eq⟩
    · have live := before.live partition
      have small := before.fits partition fits
      have used := partition.used_of_live live
      obtain ⟨start, granules, -⟩ := partition.slot_inside used
      refine (tinted.painted before).carry (partition.step_slotBase taken used)
        fun j first last => ?_
      have own : s.heap.table.InSlot A x j := by
        unfold Table.InSlot
        omega
      refine (step.frame ok live own leaves.made leaves.resized).imp_right fun tail => ?_
      rw [tail]
      decide
    · intro j first last
      rw [partition.step_slotBase taken used] at first last
      rw [eq]
      exact partition.painted_live ok.window used small first last
  exact ⟨fun x object => painted (.inl ⟨object, rfl⟩),
    fun t x size resized => painted (.inr ⟨t, resized⟩)⟩

/-- The color that an unpoisoned range writes in a slot is the slot's. -/
theorem Sound.colorAt_eq (ok : Sound A s) (fits : s.Fits) {address n : Nat}
    (owns : s.Owns A (.unpoison address n)) (live : (s.heap.table.word x).state = .live)
    (own : s.heap.table.InSlot A x j) (first : address / 16 ≤ j) (last : j * 16 < address + n) :
    colorAt A s.heap.table address = Heap.colorOfHeap x := by
  obtain ⟨place, partition⟩ := ok.places
  have used := partition.used_of_live live
  obtain ⟨start, granules, above, room, -⟩ := partition.slot_inside used
  have inside := own
  unfold Table.InSlot at inside
  rcases owns with behind | before | ⟨live', low, high⟩
  · omega
  · omega
  · generalize found : s.heap.table.slotOf A address = y at live' low high
    have small := fits y live'
    have used' := partition.used_of_live live'
    obtain ⟨start', granules', above', room', -⟩ := partition.slot_inside used'
    have same : y = x := by
      by_contra other
      refine partition.inSlot_ne used own used' other ?_
      unfold Table.InSlot
      omega
    have arena : A.inArena address = true := by
      unfold Arena.inArena
      rw [Bool.and_eq_true, decide_eq_true_iff, decide_eq_true_iff]
      omega
    unfold colorAt
    rw [if_pos arena, found, same]

/-- A call of the interface keeps a live object's tints. -/
theorem State.Painted.user {size : Nat} (painted : s.Painted A x size) (ok : Sound A s)
    (fits : s.Fits) (live : (s.heap.table.word x).state = .live)
    (small : size < s.heap.table.slotBytes x) {call : UserCall} (typed : call.Typed A)
    (owns : s.Owns A call) : (s.user A call).Painted A x size := by
  obtain ⟨place, partition⟩ := ok.places
  obtain ⟨start, granules, -⟩ := partition.slot_inside (partition.used_of_live live)
  have bits := ok.window.bits
  intro j first last
  have before := painted j first last
  change s.heap.table.slotBase A x ≤ j * 16 at first
  change j * 16 < s.heap.table.slotBase A x + max size 1 at last
  have own : s.heap.table.InSlot A x j := by
    unfold Table.InSlot
    omega
  cases call with
  | poison address n =>
      change address + n ≤ 2 ^ A.bits at typed
      change ObjectTint _ _ _ ((poisonRegion s.heap.shadow address n).byte j)
      rw [poisonRegion_byte ok.window.ready (by rw [bits]; exact typed)]
      split
      · exact .inl (.inl (by decide))
      · exact before
  | unpoison address n =>
      change address + n ≤ 2 ^ A.bits at typed
      change ObjectTint _ _ _ ((unpoisonRegion A _ s.heap.shadow address n).byte j)
      by_cases none : n = 0
      · have same : unpoisonRegion A s.heap.table s.heap.shadow address n = s.heap.shadow := by
          unfold unpoisonRegion
          exact if_pos (.inl none)
        rw [same]
        exact before
      · rw [unpoisonRegion_byte ok.window.ready none (by rw [bits]; exact typed)]
        by_cases whole : address / 16 ≤ j ∧ j < (address + n) / 16
        · rw [if_pos whole, ok.colorAt_eq fits owns live own whole.1 (by omega)]
          exact .inl (.inr (.inl rfl))
        · rw [if_neg whole]
          split
          · rename_i partly
            rw [ok.colorAt_eq fits owns live own (by omega) (by omega)]
            exact .inl (tint_partialOf (isColor_color _) (Nat.mod_lt _ (by decide)))
          · exact before

theorem Tinted.user (tinted : Tinted A s) (ok : Sound A s) (fits : s.Fits) {call : UserCall}
    (typed : call.Typed A) (owns : s.Owns A call) : Tinted A (s.user A call) := by
  constructor
  · rintro x ⟨live, settled⟩
    exact (tinted.object x ⟨live, settled⟩).user ok fits live (fits x live) typed owns
  · intro t x size stage
    obtain ⟨place, partition⟩ := ok.places
    have live := (partition.resizing_spec (Point.resizing_of_stage stage)).2
    have small := partition.point t
    change (s.thread t).point.stage = .resized x size at stage
    rw [Point.eq_of_resized stage] at small
    exact (tinted.resized t x size stage).user ok fits live small typed owns

/-! ## Every run -/

structure Colored (A : Arena) (s : State T) : Prop where
  sound : Sound A s
  fits : s.Fits
  each : OneEach s
  tinted : Tinted A s

theorem colored_run [DecidableEq T] (pages : 16 ∣ A.page) {byte : Nat → UInt8}
    (run : Run (State.act A) (State.Proper A) (.initial A byte) s) : Colored A s := by
  refine run.invariant (I := Colored A)
    ⟨sound_initial A byte, fits_initial A byte, oneEach_initial A byte, tinted_initial A byte⟩ ?_
  rintro s a s' ⟨ok, fits, each, tinted⟩ proper taken
  cases a with
  | step e =>
      refine ⟨ok.step pages proper.noRace taken, fun x live => ?_, each.step pages ok proper taken,
        tinted.step pages ok fits each proper taken⟩
      obtain ⟨h, th, found, rfl⟩ := State.step_eq_some taken
      exact fits.step ok found live
  | user call =>
      obtain rfl := Option.some.inj taken
      exact ⟨ok.user call, fits, ⟨each.one, each.handed⟩, tinted.user ok fits proper.1 proper.2⟩

/-! ## Jumps -/

section Jump

variable {ctx : Context} {shadow : Shadow} {a root : Nat} {v : UInt8}

/-- A root in the object that the access is in. -/
theorem jumpKind_of_one (found : (ctx.heapObjectAt root).found = true)
    (same : (ctx.heapObjectAt a).base = (ctx.heapObjectAt root).base) :
    jumpKind ctx shadow a root v = none := by
  unfold jumpKind
  dsimp only
  rw [if_pos (⟨found, .inl same⟩ : _ ∧ _), ite_self, ite_self, ite_self, ite_self, ite_self]

/-- A root at the start of another heap object. -/
theorem jumpKind_of_two (ready : shadow.Ready) (inside : shadow.InWindow a)
    (clear : ¬ shadowPoison (shadow.of a)) (found : (ctx.heapObjectAt a).found = true)
    (other : (ctx.heapObjectAt a).base ≠ (ctx.heapObjectAt root).base)
    (start : (ctx.heapObjectAt root).base = root) :
    jumpKind ctx shadow a root v = some .heapBufferOverflow ↔
      ¬ shadowPoison v ∧ ¬ sameColor (shadow.of a) v ∧ v ≠ 0 ∧
        ¬ (shadow.of a = 0 ∧ ctx.stackLostColors = true ∧ onStack ctx a = true) := by
  unfold jumpKind
  dsimp only
  rw [if_neg fun out => out.elim (fun notReady => notReady ready) fun outside => outside inside,
    if_neg (fun one => one.2.elim other fun moved => moved start :
      ¬ ((ctx.heapObjectAt root).found = true ∧ _)), if_pos found]
  constructor
  · intro reported
    split_ifs at reported with poison same plain lost
    exact ⟨fun bad => poison (.inr bad), same, plain, lost⟩
  · rintro ⟨notPoison, notSame, notPlain, notLost⟩
    rw [if_neg fun bad => bad.elim clear notPoison, if_neg notSame, if_neg notPlain,
      if_neg notLost]

end Jump

/-- What the checks read, with the allocator's answers. -/
def State.context (A : Arena) (s : State T) (ctx : Context) : Context :=
  { ctx with heapObjectAt := s.heap.heapObjectAt A }

theorem Partition.heapObjectAt_eq (ok : Partition A s place)
    (live : (s.heap.table.word x).state = .live) {a : Nat} (first : s.heap.table.slotBase A x ≤ a)
    (last : a < s.heap.table.slotBase A x + s.heap.table.slotBytes x) :
    (s.heap.heapObjectAt A a).found = true ∧
      (s.heap.heapObjectAt A a).base = s.heap.table.slotBase A x := by
  have used := ok.used_of_live live
  obtain ⟨-, -, above, room, -⟩ := ok.slot_inside used
  have arena : A.inArena a = true := by
    unfold Arena.inArena
    rw [Bool.and_eq_true, decide_eq_true_iff, decide_eq_true_iff]
    omega
  unfold Heap.heapObjectAt
  rw [if_pos arena]
  dsimp only
  rw [ok.slotOf_eq used first last, live]
  exact ⟨rfl, rfl⟩

/-- Slots next to each other in a region. -/
def Slot.Neighbors (x y : Slot) : Prop :=
  y.region = x.region ∧ (y.index = x.index + 1 ∨ x.index = y.index + 1)

theorem Slot.Neighbors.color_ne (near : x.Neighbors y) :
    shadowClass (Heap.colorOfHeap x) ≠ shadowClass (Heap.colorOfHeap y) := by
  obtain ⟨region, index⟩ := near
  unfold Heap.colorOfHeap
  rw [region]
  rcases index with next | next
  · rw [next, Nat.add_right_comm]
    exact shadowClass_color_succ _
  · rw [next, Nat.add_right_comm]
    exact (shadowClass_color_succ _).symm

/-- The object is so large that it has no color. -/
def State.Plain (A : Arena) (s : State T) (x : Slot) : Prop :=
  4 * A.page ≤ (s.heap.table.word x).value / 16

/-- A partial granule, of slot `x`'s object or an object without a color, whose
class is that of slot `x`'s color. -/
def State.Blurred (A : Arena) (s : State T) (x y : Slot) (a : Nat) : Prop :=
  s.Plain A y ∧ shadowClass (Heap.colorOfHeap x) = 0 ∧
    (¬ shadowFull (s.heap.shadow.of a) ∨
      ¬ shadowFull (s.heap.shadow.of (s.heap.table.slotBase A x)))

/-- The tint of the granule that an address of an object lies in. -/
theorem Colored.tint (ok : Colored A s) (object : s.Object x) {a : Nat}
    (first : s.heap.table.slotBase A x ≤ a)
    (last : a < s.heap.table.slotBase A x + max (s.heap.table.word x).value 1) :
    ObjectTint A.page (s.heap.table.word x).value (Heap.colorOfHeap x) (s.heap.shadow.of a) ∧
      s.heap.shadow.InWindow a := by
  obtain ⟨place, partition⟩ := ok.sound.places
  obtain ⟨start, granules, -, room, below⟩ :=
    partition.slot_inside (partition.used_of_live object.1)
  have small := ok.fits x object.1
  have inside : a < 2 ^ A.bits := by omega
  have index : s.heap.shadow.index a = a / 16 := by
    refine Shadow.index_eq_div ok.sound.window.ready ?_
    rw [ok.sound.window.bits]
    exact inside
  unfold Shadow.of
  rw [index]
  exact ⟨ok.tinted.object x object (a / 16) (by omega) (by omega),
    ok.sound.window.inWindow inside⟩

/-- From a colored object's start nothing is reported in its own slot, and an
access to the object next to it is reported, unless the start is poison, the
access's thread lost the colors of its stack there, or a partial granule blurs a
color with none. -/
theorem heap_jumps [DecidableEq T] (pages : 16 ∣ A.page) {byte : Nat → UInt8}
    (run : Run (State.act A) (State.Proper A) (.initial A byte) s) (ctx : Context)
    (object : s.Object x) (colored : ¬ s.Plain A x) {a : Nat}
    (clear : ¬ shadowPoison (s.heap.shadow.of a)) :
    (s.heap.table.slotBase A x ≤ a → a < s.heap.table.slotBase A x + s.heap.table.slotBytes x →
      jumpKind (s.context A ctx) s.heap.shadow a (s.heap.table.slotBase A x)
        (s.heap.shadow.of (s.heap.table.slotBase A x)) = none) ∧
    ∀ y, x.Neighbors y → s.Object y → s.heap.table.slotBase A y ≤ a →
      a < s.heap.table.slotBase A y + (s.heap.table.word y).value → ¬ s.Blurred A x y a →
        (jumpKind (s.context A ctx) s.heap.shadow a (s.heap.table.slotBase A x)
          (s.heap.shadow.of (s.heap.table.slotBase A x)) = some .heapBufferOverflow ↔
            ¬ shadowPoison (s.heap.shadow.of (s.heap.table.slotBase A x)) ∧
              ¬ (s.heap.shadow.of a = 0 ∧ ctx.stackLostColors = true ∧
                onStack ctx a = true)) := by
  have ok := colored_run pages run
  obtain ⟨place, partition⟩ := ok.sound.places
  have small := ok.fits x object.1
  obtain ⟨found, base⟩ := partition.heapObjectAt_eq object.1 (Nat.le_refl _) (by omega)
  constructor
  · intro first last
    refine jumpKind_of_one found ?_
    exact (partition.heapObjectAt_eq object.1 first last).2.trans base.symm
  · intro y near object' first last sharp
    have small' := ok.fits y object'.1
    obtain ⟨found', base'⟩ := partition.heapObjectAt_eq object'.1 first (by omega)
    obtain ⟨theirs, inside⟩ := ok.tint object' first (by omega)
    have mine := (ok.tint object (Nat.le_refl _) (by omega)).1.resolve_right fun plain =>
      colored plain.1
    have apart := near.color_ne
    have other : (s.heap.heapObjectAt A a).base ≠
        (s.heap.heapObjectAt A (s.heap.table.slotBase A x)).base := by
      rw [base, base']
      intro same
      have own := partition.slotOf_eq (partition.used_of_live object.1) (Nat.le_refl _)
        (show s.heap.table.slotBase A x < _ by omega)
      have own' := partition.slotOf_eq (partition.used_of_live object'.1) (Nat.le_refl _)
        (show s.heap.table.slotBase A y < _ by omega)
      rw [same, own] at own'
      rw [own'] at apart
      exact apart rfl
    have start : (s.heap.heapObjectAt A (s.heap.table.slotBase A x)).base =
        s.heap.table.slotBase A x := base
    rw [jumpKind_of_two ok.sound.window.ready inside clear found' other start]
    refine and_congr_right fun clear' => ?_
    have differ : ¬ sameColor (s.heap.shadow.of a)
        (s.heap.shadow.of (s.heap.table.slotBase A x)) := by
      rcases theirs with theirs | ⟨plain, theirs⟩
      · exact not_sameColor apart mine theirs clear' clear
      · by_cases zero : shadowClass (Heap.colorOfHeap x) = 0
        · refine not_sameColor_plain (color_value _).2.1 mine theirs clear' clear ?_
          by_contra partly
          refine sharp ⟨plain, zero, ?_⟩
          rw [← not_and_or]
          exact fun both => partly both.symm
        · exact not_sameColor (fun same => zero same) mine theirs clear' clear
    have colored' : s.heap.shadow.of (s.heap.table.slotBase A x) ≠ 0 := by
      intro zero
      rcases mine with poison | same | ⟨notFull, -⟩
      · exact clear' poison
      · exact (color_value _).2.1 (same.symm.trans zero)
      · rw [zero] at notFull
        exact notFull (by decide)
    rw [and_iff_right differ, and_iff_right colored']
    rfl

/-- Two objects of a class of 64 KiB slots, one after the other. -/
def allocatedTwo (first second : Nat) : List (Act Unit) :=
  .step (.enter () (.alloc first 65536)) :: List.replicate 5 (.step (.next ())) ++
    .step (.enter () (.alloc second 65536)) :: List.replicate 5 (.step (.next ()))

/-- What the two slots hold, and the bytes of their first granules. -/
def State.two (s : State Unit) : List Bool × List Nat × List UInt8 :=
  ([decide (s.Object ⟨43, 0⟩), decide (s.Object ⟨43, 1⟩)],
    [s.heap.table.slotBase .sample ⟨43, 0⟩, s.heap.table.slotBase .sample ⟨43, 1⟩,
      (s.heap.table.word ⟨43, 0⟩).value, (s.heap.table.word ⟨43, 1⟩).value],
    [s.heap.shadow.of 0x1600000000, s.heap.shadow.of 0x1600010000])

theorem heap_jumps_next : ∃ s : State Unit,
    Run (State.act .sample) (State.Proper .sample) (.initial .sample fun _ => 0) s ∧
      s.heap.table.slotBase .sample ⟨43, 0⟩ = 0x1600000000 ∧
        jumpKind (s.context .sample .bare) s.heap.shadow 0x1600010000 0x1600000000
          (s.heap.shadow.of 0x1600000000) = some .heapBufferOverflow := by
  obtain ⟨s, run, seen⟩ : ∃ s : State Unit,
      Run (State.act .sample) (State.Proper .sample) (.initial .sample fun _ => 0) s ∧
        s.two = ([true, true], [0x1600000000, 0x1600010000, 100, 100], [color 1763, color 1764]) :=
    Run.exists_exec (allocatedTwo 100 100) (by decide +kernel)
  obtain ⟨objects, rest⟩ := Prod.mk.inj seen
  obtain ⟨values, bytes⟩ := Prod.mk.inj rest
  simp only [List.cons.injEq, decide_eq_true_eq, and_true] at objects values bytes
  obtain ⟨base, base', size, size'⟩ := values
  obtain ⟨root, there⟩ := bytes
  have colored : ¬ s.Plain .sample ⟨43, 0⟩ := by
    unfold State.Plain
    rw [size]
    decide
  have sharp : ¬ s.Blurred .sample ⟨43, 0⟩ ⟨43, 1⟩ 0x1600010000 := by
    rintro ⟨plain, -⟩
    unfold State.Plain at plain
    rw [size'] at plain
    exact absurd plain (by decide)
  have clear : ¬ shadowPoison (s.heap.shadow.of 0x1600010000) := by
    rw [there]
    decide
  have jumps := (heap_jumps (by decide) run .bare objects.1 colored clear).2 ⟨43, 1⟩
    ⟨rfl, .inl rfl⟩ objects.2 (by rw [base']) (by rw [base', size']; decide) sharp
  rw [base] at jumps
  refine ⟨s, run, base, jumps.mpr ⟨?_, fun lost => ?_⟩⟩
  · rw [root]
    decide
  · exact Bool.noConfusion lost.2.1

/-- An empty object's start is poison, so nothing is reported from it. -/
theorem heap_jumps_empty : ∃ s : State Unit,
    Run (State.act .sample) (State.Proper .sample) (.initial .sample fun _ => 0) s ∧
      s.Object ⟨43, 0⟩ ∧ ¬ s.Plain .sample ⟨43, 0⟩ ∧
        s.heap.table.slotBase .sample ⟨43, 0⟩ = 0x1600000000 ∧
          s.Object ⟨43, 1⟩ ∧ s.heap.table.slotBase .sample ⟨43, 1⟩ = 0x1600010000 ∧
            (s.heap.table.word ⟨43, 1⟩).value = 100 ∧
              ¬ shadowPoison (s.heap.shadow.of 0x1600010000) ∧
                ∀ ctx, jumpKind (s.context .sample ctx) s.heap.shadow 0x1600010000 0x1600000000
                  (s.heap.shadow.of 0x1600000000) = none := by
  obtain ⟨s, run, seen⟩ : ∃ s : State Unit,
      Run (State.act .sample) (State.Proper .sample) (.initial .sample fun _ => 0) s ∧
        s.two = ([true, true], [0x1600000000, 0x1600010000, 0, 100],
          [ShadowValue.heapTail, color 1764]) :=
    Run.exists_exec (allocatedTwo 0 100) (by decide +kernel)
  obtain ⟨objects, rest⟩ := Prod.mk.inj seen
  obtain ⟨values, bytes⟩ := Prod.mk.inj rest
  simp only [List.cons.injEq, decide_eq_true_eq, and_true] at objects values bytes
  obtain ⟨base, base', size, size'⟩ := values
  obtain ⟨root, there⟩ := bytes
  refine ⟨s, run, objects.1, ?_, base, objects.2, base', size', ?_, fun ctx => ?_⟩
  · unfold State.Plain
    rw [size]
    decide
  · rw [there]
    decide
  · exact jumpKind_of_poison (.inr (by rw [root]; decide)) _

end WeaveC.Alloc
