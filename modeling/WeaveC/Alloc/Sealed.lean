import WeaveC.Alloc.Objects
import WeaveC.Pass.InlineSpec

/-!
# Behind live objects and in released slots

A live object's shadow ends where the object does, for the rest of its slot or
for 64 KiB of it, and a released slot is poison until it is handed out again.
Nothing but the program's own unpoisoning opens either.
-/

namespace WeaveC.Alloc

open WeaveC.Runtime WeaveC.Library WeaveC.Pass

variable {T : Type} {A : Arena} {s s' : State T} {e : Event T} {place : Slot → Place T} {x : Slot}
  {j : Nat}

/-! ## Guards that start in poison or reach it -/

/-- Neither the runtime's checks of the range nor the emitted one let it
through. -/
def RangeFails (ctx : Context) (shadow : Shadow) (address n : Nat) : Prop :=
  (range ctx shadow address n).passes = false ∧ (guardSlow ctx shadow address n).passes = false ∧
    ∀ (env : Env) (little : Bool) (pointer : Value) (length : BitVec 64) (constant : Bool),
      (env pointer).toNat = address → length.toNat = n →
        (emitRange ctx env shadow little pointer length constant).passes = false

/-- No emitted guard of one access lets it through either. -/
def GuardFails (ctx : Context) (shadow : Shadow) (address width : Nat) : Prop :=
  RangeFails ctx shadow address width ∧
    ∀ (env : Env) (little : Bool) (pointer : Value) (alignment : Align) (nullBase : Option Value)
      (root : Option RootCheck), (env pointer).toNat = address →
        (emitGuard ctx env shadow little pointer width alignment nullBase [] root).passes = false

section Guards

variable {ctx : Context} {shadow : Shadow} {address n b : Nat}

theorem range_fails (window : A.Window shadow) (inside : b < 2 ^ A.bits)
    (bad : ¬ Addressable ctx shadow b) (first : address ≤ b) (last : b < address + n) :
    RangeFails ctx shadow address n := by
  have reached : reached ctx shadow address = address :=
    reached_of_inWindow ctx (window.inWindow (by omega))
  have mem : b ∈ unaddressable ctx shadow (Runtime.reached ctx shadow address) n := by
    rw [reached]
    exact (mem_unaddressable window.ready).mpr ⟨first, last, window.bits ▸ inside, bad⟩
  have stops : ¬ (range ctx shadow address n).passes = true := by
    rw [range_passes]
    intro none
    rw [none] at mem
    exact mem
  refine ⟨Bool.eq_false_iff.mpr stops, Bool.eq_false_iff.mpr ?_, ?_⟩
  · rw [ne_eq, guardSlow_passes, ← range_passes]
    exact stops
  · rintro env little pointer length constant rfl rfl
    rw [Bool.eq_false_iff, ne_eq, emitRange_passes]
    exact stops

theorem guard_fails (window : A.Window shadow) (inside : address < 2 ^ A.bits)
    (barred : Barred (shadow.byte (address / 16))) (some : 0 < n) :
    GuardFails ctx shadow address n := by
  have fails : RangeFails ctx shadow address n :=
    range_fails window inside (barred.not_addressable window inside) (Nat.le_refl _)
      (Nat.lt_add_of_pos_right some)
  refine ⟨fails, ?_⟩
  rintro env little pointer alignment nullBase root rfl
  have value : shadow.of (env pointer).toNat = shadow.byte ((env pointer).toNat / 16) := by
    unfold Shadow.of
    rw [Shadow.index_eq_div window.ready]
    rw [window.bits]
    exact inside
  have stops := Bool.eq_false_iff.mp fails.2.1
  rw [Bool.eq_false_iff]
  intro passed
  by_cases one : OneGranule n alignment
  · rw [emitGuard_oneGranule one] at passed
    rcases emitOneGranule_ok passed with exact | clear
    · exact stops exact
    · rw [value] at clear
      have poison := barred.1
      unfold shadowPoison at poison
      exact clear ⟨by omega, .inl (by omega)⟩
  · rw [emitGuard_eq (Nat.ne_of_gt some) one,
      emitGuard_plain window.ready (Nat.ne_of_gt some) one] at passed
    exact stops passed.2.2

end Guards

/-! ## Where an object ends -/

/-- The object's last granule shows none but its own bytes, and no granule
behind it up to `stop` shows any. -/
structure Closed (shadow : Shadow) (base size stop : Nat) : Prop where
  rest : size % 16 ≠ 0 → Barred (shadow.byte (base / 16 + size / 16)) ∨
    ¬ shadowPoison (shadow.byte (base / 16 + size / 16)) ∧
      ¬ shadowFull (shadow.byte (base / 16 + size / 16)) ∧
        shadowBytes (shadow.byte (base / 16 + size / 16)) = size % 16
  behind : ∀ j, base + usedBytes size ≤ j * 16 → j * 16 < stop → Barred (shadow.byte j)

/-- How far behind a slot's object its tail is poison. -/
def Table.reach (A : Arena) (t : Table) (x : Slot) (size : Nat) : Nat :=
  min (t.slotBase A x + t.slotBytes x) (t.slotBase A x + usedBytes size + Shadow.tailLimit)

namespace Closed

variable {shadow shadow' : Shadow} {base size stop : Nat}

theorem carry (closed : Closed shadow base size stop) (granule : 16 ∣ base)
    (byte : ∀ j, base ≤ j * 16 → (j * 16 < base + size ∨ j * 16 < stop) →
      shadow'.byte j = shadow.byte j ∨ Barred (shadow'.byte j)) :
    Closed shadow' base size stop := by
  constructor
  · intro partly
    rcases byte (base / 16 + size / 16) (by omega) (.inl (by omega)) with same | barred
    · rw [same]
      exact closed.rest partly
    · exact .inl barred
  · intro j first last
    rcases byte j (by omega) (.inr last) with same | barred
    · rw [same]
      exact closed.behind j first last
    · exact barred

theorem unaddressable (closed : Closed shadow base size stop) (window : A.Window shadow)
    (granule : 16 ∣ base) (inside : stop ≤ 2 ^ A.bits) (ctx : Context) {b : Nat}
    (first : base + size ≤ b) (last : b < stop) : ¬ Addressable ctx shadow b := by
  by_cases own : b < base + usedBytes size
  · -- the rest of the object's last granule
    unfold usedBytes at own
    have here : b / 16 = base / 16 + size / 16 := by omega
    rcases closed.rest (by omega) with barred | ⟨clear, notFull, bytes⟩
    · rw [← here] at barred
      exact barred.not_addressable window (by omega)
    · rw [← here] at clear notFull bytes
      have fresh : shadow.byte (b / 16) ≠ ShadowValue.returned := by
        intro returned
        rw [returned] at clear
        exact clear (by decide)
      rw [addressable_iff window.ready (window.bits ▸ (by omega : b < 2 ^ A.bits)) fresh, bytes]
      rintro (full | ⟨-, before⟩)
      · exact notFull full
      · omega
  · unfold usedBytes at own
    refine (closed.behind (b / 16) ?_ (by omega)).not_addressable window (by omega)
    unfold usedBytes
    omega

end Closed

theorem barred_tail : Barred ShadowValue.heapTail := ⟨by decide, by decide⟩

theorem barred_freed : Barred ShadowValue.heapFreed := ⟨by decide, by decide⟩

/-- What `shadowLive` writes ends where the object does. -/
theorem Partition.closed_live (ok : Partition A s place) (window : A.Window s.heap.shadow)
    (used : place x ≠ .fresh) {size : Nat} (fits : size < s.heap.table.slotBytes x) :
    Closed (s.heap.shadowLive A x size (s.heap.table.slotBytes x)).shadow
      (s.heap.table.slotBase A x) size (s.heap.table.reach A x size) := by
  obtain ⟨start, granules, above, room, below⟩ := ok.slot_inside used
  have inside : ∀ b, s.heap.table.slotBase A x ≤ b →
      b ≤ s.heap.table.slotBase A x + max size (s.heap.table.slotBytes x) →
        s.heap.shadow.InWindow b := fun b _ low => window.inWindow (by omega)
  constructor
  · intro partly
    have exposed : Exposed (s.heap.shadow.live A.page (s.heap.table.slotBase A x) size
        (s.heap.table.slotBytes x) (Heap.colorOfHeap x)) (s.heap.table.slotBase A x) size := by
      refine exposed_live window.ready A.pages start granules ?_ (isColor_color _)
      rw [window.bits]
      omega
    exact .inr (exposed.rest partly)
  · intro j first last
    unfold Table.reach at last
    unfold usedBytes Shadow.tailLimit at *
    change Barred ((s.heap.shadow.live A.page (s.heap.table.slotBase A x) size
      (s.heap.table.slotBytes x) (Heap.colorOfHeap x)).byte j)
    rw [Shadow.live_byte window.ready A.pages (Nat.mod_eq_zero_of_dvd start) inside, if_pos]
    · exact barred_tail
    · unfold Shadow.tailLimit
      omega

/-! ## The allocator and the slots it has taken back -/

/-- The allocator's state, and the slots that were released and not handed out
again since. -/
structure Tracked (T : Type) where
  state : State T
  freed : Slot → Bool

/-- The slot a step takes back from the program. -/
def Point.frees : Point → Option Slot
  | .claim x _ => some x
  | _ => none

/-- The slot a step hands out. -/
def Point.hands : Point → Option Slot
  | .storeLive _ z => some z.place
  | _ => none

namespace Tracked

variable {w w' : Tracked T}

def initial (A : Arena) (byte : Nat → UInt8) : Tracked T := ⟨.initial A byte, fun _ => false⟩

def step [DecidableEq T] (A : Arena) (w : Tracked T) : Act T → Option (Tracked T)
  | .step e => (w.state.step A e).map fun s =>
      ⟨s, fun x => decide ((w.state.thread e.thread).point.frees = some x) ||
        w.freed x && !decide ((w.state.thread e.thread).point.hands = some x)⟩
  | .user call => some ⟨w.state.user A call, w.freed⟩

/-- The program poisons what it likes, and unpoisons nothing itself. -/
def Allowed (A : Arena) (w : Tracked T) : Act T → Prop
  | .step e => w.state.Alone e
  | .user (.poison address n) => address + n ≤ 2 ^ A.bits
  | .user (.unpoison _ _) => False

instance [Fintype T] [DecidableEq T] (A : Arena) (w : Tracked T) (a : Act T) :
    Decidable (w.Allowed A a) :=
  match a with
  | .step e => inferInstanceAs (Decidable (w.state.Alone e))
  | .user (.poison _ _) => inferInstanceAs (Decidable (_ ≤ _))
  | .user (.unpoison _ _) => inferInstanceAs (Decidable False)

/-- The slot's release has written its shadow, and the slot has not been handed
out since. -/
def Gone (w : Tracked T) (x : Slot) : Prop :=
  w.freed x = true ∧ ∀ t, (w.state.thread t).point.stage ≠ .dying x

/-- Every object is closed, and every slot that is gone is poison. -/
structure Sealed (A : Arena) (w : Tracked T) : Prop where
  sound : Sound A w.state
  fits : w.state.Fits
  each : OneEach w.state
  closed : ∀ x size, w.state.Sized x size → Closed w.state.heap.shadow
    (w.state.heap.table.slotBase A x) size (w.state.heap.table.reach A x size)
  dead : ∀ x, w.freed x = true →
    (w.state.heap.table.word x).state ≠ .live ∧ (w.state.heap.table.word x).state ≠ .never
  barred : ∀ x, w.Gone x → ∀ j, w.state.heap.table.InSlot A x j →
    Barred (w.state.heap.shadow.byte j)

theorem sealed_initial (A : Arena) (byte : Nat → UInt8) : (initial A byte : Tracked T).Sealed A :=
  ⟨sound_initial A byte, fits_initial A byte, oneEach_initial A byte,
    fun x size sized => absurd sized (not_sized_initial A byte x size),
    fun _ freed => Bool.noConfusion freed, fun _ gone => Bool.noConfusion gone.1⟩

section Step

variable [DecidableEq T]

/-- A slot that is not handed out stays poison, and one whose release writes the
shadow becomes it. -/
theorem Sealed.barred_step (pages : 16 ∣ A.page) (ok : w.Sealed A)
    (taken : w.state.step A e = some s') (freed : w.freed x = true)
    (settled : ∀ t, (s'.thread t).point.stage ≠ .dying x)
    (own : w.state.heap.table.InSlot A x j) : Barred (s'.heap.shadow.byte j) := by
  obtain ⟨step, others⟩ := ok.sound.step_slotStep pages taken
  obtain ⟨place, partition⟩ := ok.sound.places
  obtain ⟨dead, used⟩ := ok.dead x freed
  have used := partition.used_of_word used
  have barred (here : (w.state.thread e.thread).point.stage ≠ .dying x) :
      Barred (w.state.heap.shadow.byte j) := by
    refine ok.barred x ⟨freed, fun t => ?_⟩ j own
    by_cases self : t = e.thread
    · rw [self]
      exact here
    · rw [← others t self]
      exact settled t
  have live {y : Slot} (resizing : (w.state.thread e.thread).point.resizing = some y) : y ≠ x := by
    rintro rfl
    exact dead (partition.resizing_spec resizing).2
  cases step with
  | storeLive point _ eq | claim point _ eq | resizeWord point _ eq =>
      rw [eq]
      refine barred ?_
      rw [point]
      exact Stage.noConfusion
  | @chooseCache y point next eq =>
      rw [eq]
      refine barred ?_
      rw [point]
      intro same
      obtain rfl := Stage.dying.inj same
      exact settled e.thread next
  | @shadowLive v y point _ eq =>
      obtain ⟨-, used', whole, small⟩ := ok.sound.handing_spec partition point
      have other : y.place ≠ x := by
        rintro rfl
        have word := (ok.each.handed e.thread _ _ (congrArg Point.stage point)).1
        exact dead (congrArg Word.state word)
      rw [eq, partition.shadowLive_frame ok.sound.window used' whole (whole ▸ small)
        (partition.inSlot_ne used own used' other)]
      refine barred ?_
      rw [point]
      exact Stage.noConfusion
  | @shadowDead y cached point _ eq =>
      have used' := partition.used_of_retiring (congrArg Point.retiring point)
      classical
      rw [eq, partition.shadowDead_byte ok.sound.window used']
      split
      · exact barred_freed
      · rename_i apart
        refine barred ?_
        rw [point]
        intro same
        obtain rfl := Stage.dying.inj same
        exact apart own
  | @resizeShadow y size point _ eq =>
      have other := live (congrArg Point.resizing point)
      have used' := partition.used_of_resizing (congrArg Point.resizing point)
      have small := partition.point e.thread
      rw [point] at small
      rw [eq, partition.shadowLive_frame ok.sound.window used' rfl small
        (partition.inSlot_ne used own used' other)]
      refine barred ?_
      rw [point]
      exact Stage.noConfusion
  | other before _ byte _ =>
      rcases byte j fun out => partition.inSlot_inside used out own with same | tail
      · rw [same]
        refine barred fun dying => ?_
        rw [dying] at before
        exact before
      · rw [tail]
        exact barred_tail

theorem Sealed.closed_step (pages : 16 ∣ A.page) (ok : w.Sealed A) (alone : w.state.Alone e)
    (taken : w.state.step A e = some s') {size : Nat} (sized : s'.Sized x size) :
    Closed s'.heap.shadow (s'.heap.table.slotBase A x) size (s'.heap.table.reach A x size) := by
  obtain ⟨step, -⟩ := ok.sound.step_slotStep pages taken
  obtain ⟨place, partition⟩ := ok.sound.places
  have reach (used : place x ≠ .fresh) :
      s'.heap.table.reach A x size = w.state.heap.table.reach A x size := by
    have bytes := partition.step_slotBytes taken used
    unfold Table.reach
    rw [partition.step_slotBase taken used, bytes]
  rcases ok.sound.sized_step pages ok.each partition alone taken sized with
    ⟨before, leaves⟩ | ⟨used, small, eq⟩
  · have live := before.live partition
    have used := partition.used_of_live live
    have small := before.fits partition ok.fits
    obtain ⟨start, granules, -⟩ := partition.slot_inside used
    rw [reach used, partition.step_slotBase taken used]
    refine (ok.closed x size before).carry start fun j first last => ?_
    have own : w.state.heap.table.InSlot A x j := by
      unfold Table.reach at last
      unfold Table.InSlot
      omega
    refine (step.frame ok.sound live own leaves.made leaves.resized).imp_right fun tail => ?_
    rw [tail]
    exact barred_tail
  · rw [reach used, partition.step_slotBase taken used, eq]
    exact partition.closed_live ok.sound.window used small

omit [DecidableEq T] in
theorem stepOf_claim {h : Heap} {th : Thread} {word : Word}
    (taken : s.stepOf A e = some (h, th)) (point : (s.thread e.thread).point = .claim x word) :
    h.table.word x = Word.claimed ∧ th.point.stage = .dying x := by
  have taken := stepOf_inside taken (by rw [point]; exact Point.noConfusion)
  unfold Thread.step at taken
  simp only [point] at taken
  split_ifs at taken
  obtain ⟨rfl, rfl⟩ := Prod.mk.inj (Option.some.inj taken)
  exact ⟨Table.word_setWord _ _ _, rfl⟩

/-- A slot that was taken back is neither live nor one never handed out. -/
theorem Sealed.dead_step (ok : w.Sealed A) (taken : w.state.step A e = some s')
    (freed : (w.state.thread e.thread).point.frees = some x ∨
      w.freed x = true ∧ (w.state.thread e.thread).point.hands ≠ some x) :
    (s'.heap.table.word x).state ≠ .live ∧ (s'.heap.table.word x).state ≠ .never := by
  obtain ⟨place, partition⟩ := ok.sound.places
  obtain ⟨h, th, found, rfl⟩ := State.step_eq_some taken
  rcases freed with claims | ⟨freed, kept⟩
  · cases point : (w.state.thread e.thread).point with
    | claim y word =>
        rw [point] at claims
        obtain rfl := Option.some.inj claims
        rw [(stepOf_claim found point).1]
        exact ⟨WordState.noConfusion, WordState.noConfusion⟩
    | _ =>
        rw [point] at claims
        cases claims
  · obtain ⟨dead, used⟩ := ok.dead x freed
    refine ⟨fun live => ?_, fun never => used ((stepOf_effect found).never never)⟩
    rcases word_of_live found live with same | ⟨size, -, ⟨v, y, point, rfl, -⟩ | point⟩
    · rw [same] at live
      exact dead live
    · rw [point] at kept
      exact kept rfl
    · exact dead (partition.resizing_spec (congrArg Point.resizing point)).2

theorem Sealed.step (pages : 16 ∣ A.page) (ok : w.Sealed A) (alone : w.state.Alone e)
    (taken : w.step A (.step e) = some w') : w'.Sealed A := by
  obtain ⟨s', next, rfl⟩ := Option.map_eq_some_iff.mp taken
  obtain ⟨place, partition⟩ := ok.sound.places
  have freed {x : Slot} (here : (decide ((w.state.thread e.thread).point.frees = some x) ||
      w.freed x && !decide ((w.state.thread e.thread).point.hands = some x)) = true) :
      (w.state.thread e.thread).point.frees = some x ∨
        w.freed x = true ∧ (w.state.thread e.thread).point.hands ≠ some x := by
    simpa only [Bool.or_eq_true, Bool.and_eq_true, Bool.not_eq_true', decide_eq_true_eq,
      decide_eq_false_iff_not] using here
  refine
    { sound := ok.sound.step pages alone.noRace next
      fits := fun x live => ?_
      each := ok.each.step pages ok.sound alone next
      closed := fun x size sized => ok.closed_step pages alone next sized
      dead := fun x here => ok.dead_step next (freed here)
      barred := fun x gone j own => ?_ }
  · obtain ⟨h, th, found, rfl⟩ := State.step_eq_some next
    exact ok.fits.step ok.sound found live
  · rcases freed gone.1 with claims | ⟨was, -⟩
    · -- a release that has only claimed the slot
      refine absurd ?_ (gone.2 e.thread)
      obtain ⟨h, th, found, rfl⟩ := State.step_eq_some next
      dsimp only
      rw [Function.update_self]
      cases point : (w.state.thread e.thread).point with
      | claim y word =>
          rw [point] at claims
          obtain rfl := Option.some.inj claims
          exact (stepOf_claim found point).2
      | _ =>
          rw [point] at claims
          cases claims
    · have used := partition.used_of_word (ok.dead x was).2
      refine ok.barred_step pages next was gone.2 ?_
      unfold Table.InSlot at own ⊢
      rw [← partition.step_slotBase next used, ← partition.step_slotBytes next used]
      exact own

end Step

/-- What the program poisons stays as closed as it was. -/
theorem Sealed.user (ok : w.Sealed A) {call : UserCall} (allowed : w.Allowed A (.user call)) :
    (⟨w.state.user A call, w.freed⟩ : Tracked T).Sealed A := by
  cases call with
  | unpoison address n => exact allowed.elim
  | poison address n =>
      obtain ⟨place, partition⟩ := ok.sound.places
      have byte (j : Nat) : (poisonRegion w.state.heap.shadow address n).byte j =
          w.state.heap.shadow.byte j ∨
            Barred ((poisonRegion w.state.heap.shadow address n).byte j) := by
        rw [poisonRegion_byte ok.sound.window.ready (by rw [ok.sound.window.bits]; exact allowed)]
        split
        · exact .inr ⟨by decide, by decide⟩
        · exact .inl rfl
      refine ⟨ok.sound.user _, ok.fits, ⟨ok.each.one, ok.each.handed⟩, fun x size sized => ?_,
        ok.dead, fun x gone j own => ?_⟩
      · have before : w.state.Sized x size := sized
        obtain ⟨start, -⟩ := partition.slot_inside (partition.used_of_live (before.live partition))
        exact (ok.closed x size before).carry start fun j _ _ => byte j
      · rcases byte j with same | barred
        · exact same ▸ ok.barred x gone j own
        · exact barred

theorem sealed_run [DecidableEq T] (pages : 16 ∣ A.page) {byte : Nat → UInt8}
    (run : Run (step A) (Allowed A) (initial A byte) w) : w.Sealed A := by
  refine run.invariant (I := Sealed A) (sealed_initial A byte) ?_
  intro w a w' ok allowed taken
  cases a with
  | step e => exact ok.step pages allowed taken
  | user call =>
      obtain rfl := Option.some.inj taken
      exact ok.user allowed

/-- From a live object's end up to its reach no byte is addressable, and no range
that starts in the object and ends past it gets through; of a slot that is gone
no byte is addressable, and no access that starts in it gets through. -/
theorem heap_sealed [DecidableEq T] (pages : 16 ∣ A.page) {byte : Nat → UInt8}
    (run : Run (step A) (Allowed A) (initial A byte) w) (ctx : Context) :
    (∀ x size, w.state.Sized x size →
      (∀ b, w.state.heap.table.slotBase A x + size ≤ b →
        b < w.state.heap.table.reach A x size → ¬ Addressable ctx w.state.heap.shadow b) ∧
      ∀ address n, w.state.heap.table.slotBase A x ≤ address →
        address ≤ w.state.heap.table.slotBase A x + size →
          w.state.heap.table.slotBase A x + size < address + n →
            RangeFails ctx w.state.heap.shadow address n) ∧
    ∀ x, w.Gone x → ∀ address, w.state.heap.table.slotBase A x ≤ address →
      address < w.state.heap.table.slotBase A x + w.state.heap.table.slotBytes x →
        ¬ Addressable ctx w.state.heap.shadow address ∧
          ∀ n, 0 < n → GuardFails ctx w.state.heap.shadow address n := by
  have ok := sealed_run pages run
  obtain ⟨place, partition⟩ := ok.sound.places
  have window := ok.sound.window
  constructor
  · intro x size sized
    have small := sized.fits partition ok.fits
    obtain ⟨start, granules, -, room, below⟩ :=
      partition.slot_inside (partition.used_of_live (sized.live partition))
    have inside : w.state.heap.table.reach A x size ≤ 2 ^ A.bits := by
      unfold Table.reach
      omega
    have closed : ∀ b, w.state.heap.table.slotBase A x + size ≤ b →
        b < w.state.heap.table.reach A x size → ¬ Addressable ctx w.state.heap.shadow b :=
      fun b first last => (ok.closed x size sized).unaddressable window start inside ctx first last
    refine ⟨closed, fun address n first start past => ?_⟩
    refine range_fails window (by omega) (closed _ (Nat.le_refl _) ?_) start past
    unfold Table.reach usedBytes Shadow.tailLimit
    omega
  · intro x gone address first last
    have used := partition.used_of_word (ok.dead x gone.1).2
    obtain ⟨start, granules, -, room, below⟩ := partition.slot_inside used
    have barred := ok.barred x gone (address / 16) (by unfold Table.InSlot; omega)
    exact ⟨barred.not_addressable window (by omega),
      fun n some => guard_fails window (by omega) barred some⟩

/-- Two objects of 100 bytes in slots of 64 KiB, the first of them released. -/
def releasedFirst : List (Act Unit) :=
  .step (.enter () (.alloc 100 65536)) :: List.replicate 5 (.step (.next ())) ++
    .step (.enter () (.alloc 100 65536)) :: List.replicate 5 (.step (.next ())) ++
      .step (.enter () (.free 0x1600000000)) :: List.replicate 13 (.step (.next ()))

/-- What the two slots hold, and where they lie. -/
def slots (w : Tracked Unit) : List Bool × List Nat :=
  ([decide ((w.state.thread ()).point = .idle), w.freed ⟨43, 0⟩, decide (w.state.Object ⟨43, 1⟩)],
    [w.state.heap.table.slotBase .sample ⟨43, 0⟩, w.state.heap.table.slotBytes ⟨43, 0⟩,
      w.state.heap.table.slotBase .sample ⟨43, 1⟩, (w.state.heap.table.word ⟨43, 1⟩).value])

theorem heap_sealed_released : ∃ w : Tracked Unit,
    Run (step .sample) (Allowed .sample) (initial .sample fun _ => 0) w ∧
      w.Gone ⟨43, 0⟩ ∧ w.state.Sized ⟨43, 1⟩ 100 ∧ ∀ ctx,
        GuardFails ctx w.state.heap.shadow 0x1600000000 4 ∧
          RangeFails ctx w.state.heap.shadow 0x1600010000 101 := by
  obtain ⟨w, run, seen⟩ : ∃ w : Tracked Unit,
      Run (step .sample) (Allowed .sample) (initial .sample fun _ => 0) w ∧
        w.slots = ([true, true, true], [0x1600000000, 0x10000, 0x1600010000, 100]) :=
    Run.exists_exec releasedFirst (by decide +kernel)
  unfold slots at seen
  simp only [Prod.mk.injEq, List.cons.injEq, decide_eq_true_eq, and_true] at seen
  obtain ⟨⟨point, freed, object⟩, base, bytes, base', size⟩ := seen
  have gone : w.Gone ⟨43, 0⟩ := by
    refine ⟨freed, fun t => ?_⟩
    rw [point]
    exact Stage.noConfusion
  have sized : w.state.Sized ⟨43, 1⟩ 100 := .inl ⟨object, size⟩
  refine ⟨w, run, gone, sized, fun ctx => ?_⟩
  obtain ⟨live, dead⟩ := heap_sealed (by decide) run ctx
  constructor
  · refine (dead _ gone 0x1600000000 ?_ ?_).2 4 (by decide)
    · rw [base]
    · rw [base, bytes]
      decide
  · refine (live _ _ sized).2 0x1600010000 101 ?_ ?_ ?_
    · rw [base']
    · rw [base']
      decide
    · rw [base']
      decide

end Tracked

end WeaveC.Alloc
