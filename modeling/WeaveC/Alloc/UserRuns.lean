import WeaveC.Alloc.Boundary
import WeaveC.Alloc.UserPoison

/-!
# Poison of the program in runs

Between the allocator's steps the program poisons and unpoisons ranges.  Of the
granules of live objects that it poisoned, only a reallocation in place makes
some addressable again: it writes the whole object's shadow from its size.
-/

namespace WeaveC.Alloc

open WeaveC.Runtime WeaveC.Library

variable {T : Type} {A : Arena} {h h' : Heap} {th th' : Thread} {s s' : State T} {e : Event T}
  {place : Slot → Place T} {x : Slot} {j : Nat}

/-! ## Live objects -/

/-- The granule lies wholly in the object of slot `x`, whose allocation has
returned. -/
def State.InObject (A : Arena) (s : State T) (x : Slot) (j : Nat) : Prop :=
  (s.heap.table.word x).state = .live ∧
    s.heap.table.slotBase A x ≤ j * 16 ∧
      j * 16 + 16 ≤ s.heap.table.slotBase A x + (s.heap.table.word x).value ∧
        ∀ t, (s.thread t).point.stage.handed ≠ some x

/-- The granule lies wholly in the block's object, and the block is not
released. -/
def HugeBlock.InObject (b : HugeBlock) (j : Nat) : Prop :=
  b.dead = 0 ∧ b.base ≤ j * 16 ∧ j * 16 + 16 ≤ b.base + b.size

instance (b : HugeBlock) (j : Nat) : Decidable (b.InObject j) := inferInstanceAs (Decidable (_ ∧ _))

/-- The granule lies wholly in a live object. -/
def State.Live (A : Arena) (s : State T) (j : Nat) : Prop :=
  s.InObject A (s.heap.table.slotOf A (j * 16)) j ∨ ∃ b ∈ s.heap.huge.blocks, b.InObject j

instance [Fintype T] (A : Arena) (s : State T) : DecidablePred (s.Live A) := fun _ =>
  inferInstanceAs (Decidable ((_ ∧ _ ∧ _ ∧ ∀ _, _ ≠ _) ∨ ∃ b ∈ s.heap.huge.blocks, b.InObject _))

/-- The step writes the shadow of an object that the granule does not remain
in. -/
def State.Cuts (A : Arena) (s : State T) (e : Event T) (j : Nat) : Prop :=
  ∃ q ∈ (s.thread e.thread).point.resizes,
    s.heap.table.slotOf A (j * 16) = q.1 ∧ s.heap.table.slotBase A q.1 + q.2 < j * 16 + 16

instance (A : Arena) (s : State T) (e : Event T) (j : Nat) : Decidable (s.Cuts A e j) :=
  inferInstanceAs (Decidable (∃ _ ∈ _, _))

/-! ## The allocator and the program -/

/-- The allocator's state, and the granules of live objects that the program has
poisoned. -/
structure Watched (T : Type) where
  state : State T
  poisoned : Nat → Bool

/-- A step of the allocator, or a call of the interface. -/
inductive Act (T : Type) where
  | step (e : Event T)
  | user (call : UserCall)

/-- The range lies in the address space. -/
def UserCall.Typed (A : Arena) : UserCall → Prop
  | poison address n | unpoison address n => address + n ≤ 2 ^ A.bits

instance (A : Arena) (call : UserCall) : Decidable (call.Typed A) :=
  match call with
  | .poison _ _ => inferInstanceAs (Decidable (_ ≤ _))
  | .unpoison _ _ => inferInstanceAs (Decidable (_ ≤ _))

namespace State

/-- A call of the interface writes the shadow only. -/
def user (A : Arena) (s : State T) (call : UserCall) : State T :=
  { s with heap := { s.heap with shadow := call.run A s.heap.table s.heap.shadow } }

/-- Whether a granule is poisoned after the call: one of a live object that lies
wholly in a poisoned range, and none that has a byte of an unpoisoned one. -/
def pokes (A : Arena) (s : State T) [DecidablePred (s.Live A)] (call : UserCall)
    (poisoned : Nat → Bool) (j : Nat) : Bool :=
  match call with
  | .poison address n =>
      poisoned j || decide (address ≤ j * 16 ∧ j * 16 + 16 ≤ address + n ∧ s.Live A j)
  | .unpoison address n =>
      poisoned j && !decide (n ≠ 0 ∧ address < j * 16 + 16 ∧ j * 16 < address + n)

end State

namespace Watched

variable [DecidableEq T] [∀ s : State T, DecidablePred (s.Live A)]

def initial (A : Arena) (byte : Nat → UInt8) : Watched T := ⟨.initial A byte, fun _ => false⟩

/-- A granule that an object which is released or shrunk had is no longer the
program's. -/
def step (A : Arena) [∀ s : State T, DecidablePred (s.Live A)] (w : Watched T) :
    Act T → Option (Watched T)
  | .step e => (w.state.step A e).map fun s =>
      ⟨s, fun j => w.poisoned j && decide (s.Live A j ∧ ¬ w.state.Cuts A e j)⟩
  | .user call => some ⟨w.state.user A call, w.state.pokes A call w.poisoned⟩

/-- What the program does on its side. -/
def Fair (A : Arena) (w : Watched T) : Act T → Prop
  | .step e => w.state.NoRace e
  | .user call => call.Typed A

instance [Fintype T] (A : Arena) (w : Watched T) (a : Act T) : Decidable (w.Fair A a) :=
  match a with
  | .step e => inferInstanceAs (Decidable (w.state.NoRace e))
  | .user call => inferInstanceAs (Decidable (call.Typed A))

/-- A reallocation in place is not of an object with a poisoned granule that
remains in it. -/
def Spares (A : Arena) (w : Watched T) : Act T → Prop
  | .step e => ∀ q ∈ (w.state.thread e.thread).point.resizes, ∀ g < q.2 / 16,
      w.poisoned (w.state.heap.table.slotBase A q.1 / 16 + g) = false
  | .user _ => True

instance (A : Arena) (w : Watched T) (a : Act T) : Decidable (w.Spares A a) :=
  match a with
  | .step _ => inferInstanceAs (Decidable (∀ _ ∈ _, _))
  | .user _ => .isTrue trivial

end Watched

/-! ## Objects and their slots -/

/-- A live object is smaller than its slot. -/
def State.Fits (s : State T) : Prop :=
  ∀ x, (s.heap.table.word x).state = .live →
    (s.heap.table.word x).value < s.heap.table.slotBytes x

theorem word_initial (A : Arena) (x : Slot) : ((Table.initial A).word x).state = .never := by
  unfold Table.initial Table.word
  dsimp only
  split <;> rfl

theorem fits_initial (A : Arena) (byte : Nat → UInt8) : (State.initial A byte : State T).Fits := by
  intro x live
  exact absurd ((word_initial A x).symm.trans live) WordState.noConfusion

/-- The size a step stores in a slot's word is smaller than the slot. -/
theorem Partition.stored_fits {t : T} (ok : Partition A s place) {size : Nat}
    (point : (∃ w y, (s.thread t).point = .storeLive w y ∧ x = y.place ∧ size = w.size) ∨
      (s.thread t).point = .resizeWord x size) : size < s.heap.table.slotBytes x := by
  have here := ok.point t
  rcases point with ⟨w, y, point, rfl, rfl⟩ | point
  · rw [point] at here
    obtain ⟨want, region, cls⟩ := here
    have fits := want.fits
    unfold Table.slotBytes Entry.place
    rw [ok.table.entry y.region region, cls]
    exact fits
  · rw [point] at here
    exact here

/-- A slot is made live by the store of its word only. -/
theorem word_of_live (taken : s.stepOf A e = some (h', th')) {x : Slot}
    (live : (h'.table.word x).state = .live) :
    h'.table.word x = s.heap.table.word x ∨
      ∃ size, h'.table.word x = ⟨size, .live⟩ ∧
        ((∃ w y, (s.thread e.thread).point = .storeLive w y ∧ x = y.place ∧ size = w.size) ∨
          (s.thread e.thread).point = .resizeWord x size) := by
  cases stepOf_effect taken with
  | calm _ _ older | swept _ _ older => exact .inl ((older x.region).live x.index live)
  | returned _ _ eq =>
      rw [eq] at live ⊢
      exact .inl ((Table.Older.giveBack _ _ _ x.region).live x.index live)
  | popped point eq =>
      rw [eq]
      exact .inl (Table.word_popped _ _ _ _ _ x)
  | @stored y size point eq =>
      by_cases same : x = y
      · subst same
        rw [eq]
        exact .inr ⟨size, Table.word_setWord _ _ _, point⟩
      · rw [eq]
        exact .inl (Table.word_setWord_of_ne same _ _)
  | made _ eq | resized _ eq | released _ eq | inserted _ _ _ _ _ eq =>
      rw [eq]
      exact .inl rfl
  | freed _ found =>
      obtain ⟨-, -, -, -, -, -, -, -, -, table⟩ := hugeFree_eq found
      rw [table]
      exact .inl rfl

theorem State.Fits.step (ok : Sound A s) (fits : s.Fits) (taken : s.stepOf A e = some (h', th'))
    {x : Slot} (live : (h'.table.word x).state = .live) :
    (h'.table.word x).value < h'.table.slotBytes x := by
  obtain ⟨place, partition⟩ := ok.places
  obtain ⟨place', moved⟩ := partition.moved taken
  rcases word_of_live taken live with same | ⟨size, word, point⟩
  · rw [same] at live ⊢
    rw [moved.grows.bytes_eq (partition.table.used (partition.used_of_live live))]
    exact fits x live
  · have used : place x ≠ .fresh := by
      rcases point with ⟨w, y, point, rfl, -⟩ | point
      · have taken := ((partition.thread e.thread).taken y.place).mpr
          (congrArg Point.taken point)
        rw [taken]
        intro same
        cases same
      · exact partition.used_of_live (partition.resizing_spec (congrArg Point.resizing point)).2
    rw [word, moved.grows.bytes_eq (partition.table.used used)]
    exact partition.stored_fits point

namespace Partition

/-- The slot that `slotOf` finds for an address in a slot. -/
theorem slotOf_eq (ok : Partition A s place) (used : place x ≠ .fresh) {address : Nat}
    (first : s.heap.table.slotBase A x ≤ address)
    (last : address < s.heap.table.slotBase A x + s.heap.table.slotBytes x) :
    s.heap.table.slotOf A address = x := by
  have fits := ok.slot_fits used
  have region := ok.table.used used
  have wide : A.shift ≤ 31 := by
    rcases A.width with width | width <;> omega
  have valid : (A.entry (s.heap.table.region x.region).regionClass).Valid A.shift :=
    classes_valid A.width (ok.table.ofClass x.region region)
  rw [← ok.table.entry x.region region] at valid
  rw [Nat.add_mul, Nat.one_mul] at fits
  unfold Table.slotBase at first last
  rw [A.regionStart_eq] at first last
  rw [A.regionBytes_eq] at first last fits
  -- the address's offset in its region
  obtain ⟨offset, here⟩ : ∃ offset, address - A.base = offset + x.region * 2 ^ A.shift :=
    ⟨address - A.base - x.region * 2 ^ A.shift, by omega⟩
  have inside : offset < 2 ^ A.shift := by omega
  have found : (s.heap.table.region x.region).entry.slotAt offset = x.index := by
    rw [valid.slotAt_eq_iff wide inside]
    change x.index * s.heap.table.slotBytes x ≤ offset ∧
      offset < x.index * s.heap.table.slotBytes x + s.heap.table.slotBytes x
    omega
  unfold Table.slotOf
  dsimp only
  rw [here, Nat.shiftRight_eq_div_pow, Nat.add_mul_div_right _ _ (Nat.two_pow_pos _),
    Nat.div_eq_of_lt inside, Nat.zero_add, Nat.add_mul_mod_self_right, Nat.mod_eq_of_lt inside,
    found]

/-- An object's granules are its slot's. -/
theorem inSlot_of_inObject (ok : Partition A s place) (fits : s.Fits) (object : s.InObject A x j) :
    s.heap.table.InSlot A x j := by
  obtain ⟨live, first, last, -⟩ := object
  have small := fits x live
  obtain ⟨start, granules, -⟩ := ok.slot_inside (ok.used_of_live live)
  unfold Table.InSlot
  omega

theorem slotOf_inObject (ok : Partition A s place) (fits : s.Fits) (object : s.InObject A x j) :
    s.heap.table.slotOf A (j * 16) = x := by
  obtain ⟨live, first, last, -⟩ := object
  have small := fits x live
  exact ok.slotOf_eq (ok.used_of_live live) first (by omega)

/-- A granule of a slot is no other slot's. -/
theorem inSlot_ne (ok : Partition A s place) (used : place x ≠ .fresh)
    (own : s.heap.table.InSlot A x j) {y : Slot} (used' : place y ≠ .fresh) (other : y ≠ x) :
    ¬ s.heap.table.InSlot A y j := by
  intro there
  obtain ⟨start, -, -, -, -⟩ := ok.slot_inside used'
  have room := ok.slot_fits used'
  have granules := A.granules
  refine other (ok.inSlot_unique used own there ?_).symm
  obtain ⟨-, last⟩ := there
  unfold Table.slotBase at last
  rw [Nat.add_mul, Nat.one_mul] at room
  have whole : 16 ∣ A.regionStart y.region := by
    rw [A.regionStart_eq]
    exact Nat.dvd_add granules.1 (granules.2.1.mul_left _)
  omega

end Partition

/-! ## What a step leaves -/

/-- A step that makes or reallocates no object in the slot leaves its shadow or
poisons it. -/
theorem SlotStep.frame {t : T} (step : SlotStep A s t h' th') (ok : Sound A s)
    (live : (s.heap.table.word x).state = .live) (own : s.heap.table.InSlot A x j)
    (made : ∀ w y, (s.thread t).point = .shadowLive w y → y.place ≠ x)
    (spared : ∀ size, (s.thread t).point ≠ .resizeShadow x size) :
    h'.shadow.byte j = s.heap.shadow.byte j ∨ h'.shadow.byte j = ShadowValue.heapTail := by
  obtain ⟨place, partition⟩ := ok.places
  have used := partition.used_of_live live
  cases step with
  | storeLive _ _ eq | claim _ _ eq | chooseCache _ _ eq | resizeWord _ _ eq =>
      rw [eq]
      exact .inl rfl
  | @shadowLive w y point _ eq =>
      obtain ⟨-, used', whole, small⟩ := ok.handing_spec partition point
      rw [eq]
      exact .inl (partition.shadowLive_frame ok.window used' whole (whole ▸ small)
        (partition.inSlot_ne used own used' (made w y point)))
  | @shadowDead y cached point _ eq =>
      have word := (partition.retiring_spec (congrArg Point.retiring point)).2
      have used' := partition.used_of_retiring (congrArg Point.retiring point)
      have other : y ≠ x := by
        rintro rfl
        rw [word] at live
        cases live
      classical
      rw [eq, partition.shadowDead_byte ok.window used',
        if_neg (partition.inSlot_ne used own used' other)]
      exact .inl rfl
  | @resizeShadow y size point _ eq =>
      have used' := partition.used_of_resizing (congrArg Point.resizing point)
      have other : y ≠ x := by
        rintro rfl
        exact spared size point
      have small := partition.point t
      rw [point] at small
      rw [eq]
      exact .inl (partition.shadowLive_frame ok.window used' rfl small
        (partition.inSlot_ne used own used' other))
  | other _ _ byte _ => exact byte j fun out => partition.inSlot_inside used out own

theorem stepOf_resizeShadow {size : Nat} (taken : s.stepOf A e = some (h', th'))
    (point : (s.thread e.thread).point = .resizeShadow x size) :
    th'.point.stage = .resized x size ∧
      h' = s.heap.shadowLive A x size (s.heap.table.slotBytes x) := by
  have taken := stepOf_inside taken (by rw [point]; exact Point.noConfusion)
  unfold Thread.step at taken
  simp only [point] at taken
  obtain ⟨rfl, rfl⟩ := Prod.mk.inj (Option.some.inj taken)
  exact ⟨rfl, rfl⟩

theorem Point.eq_of_resizes {p : Point} {x : Slot} {size : Nat} (resizes : p.resizes = some (x, size)) :
    p = .resizeShadow x size := by
  cases p with
  | resizeShadow y size' =>
      obtain ⟨rfl, rfl⟩ := Prod.mk.inj (Option.some.inj resizes)
      rfl
  | _ => cases resizes

/-- An object's granules are its block's. -/
theorem HugeBlock.InObject.holds {b : HugeBlock} (object : b.InObject j) (ok : b.Ok A)
    (pages : 16 ∣ A.page) : b.Holds j := by
  obtain ⟨-, first, last⟩ := object
  have granule := ok.granule
  have used := (used_le_pageBytes pages b.size).1
  unfold usedBytes at used
  exact ok.holds pages (by omega) (by omega)

/-- No step makes a granule of a huge block's object addressable while the block
is live. -/
theorem HugeEffect.keeps {a : Answer} (effect : HugeEffect A h h' th a) (pages : 16 ∣ A.page)
    (ok : HugeOk A h.huge.blocks) (ok' : HugeOk A h'.huge.blocks) (window : A.Window h.shadow)
    {b b' : HugeBlock} (mem : b ∈ h.huge.blocks) (mem' : b' ∈ h'.huge.blocks)
    (object : b.InObject j) (object' : b'.InObject j) : h'.shadow.byte j = h.shadow.byte j := by
  have holds := object.holds (ok.block b mem) pages
  have holds' := object'.holds (ok'.block b' mem') pages
  cases effect with
  | still _ same => exact same j ((ok.block b mem).holds_outside holds)
  | inserted _ accepted asked _ _ unmapped eq =>
      obtain ⟨fits, apart⟩ := newBlock_ok pages accepted asked unmapped
      rw [congrArg Heap.shadow eq, hugeInsert_shadow asked]
      exact newBlock_outside pages window fits (apart b mem) holds
  | freed found =>
      obtain ⟨i, block, dead, listed, -, -, gone, blocks, shadow, -⟩ := hugeFree_eq found
      have member : block ∈ h.huge.blocks := List.mem_of_getElem? listed
      have released : { block with dead := dead } ∈ h'.huge.blocks := by
        rw [blocks]
        exact List.mem_set (List.getElem?_eq_some_iff.mp listed).1 _
      -- the granule's block is still live, so it is not the released one
      have apart : block.Apart b := by
        refine (ok.apart_of_mem member mem).resolve_left fun one => ?_
        subst one
        rcases ok'.apart_of_mem released mem' with same | apart
        · rw [← same] at object'
          exact gone object'.1
        · exact apart.holds holds holds'
      rw [shadow]
      exact hugeShadowDead_outside pages window (ok.block block member) apart holds
  | swept huge =>
      obtain ⟨marked, keep, same, dead, -, shadow⟩ := huge.dropped
      have found : HugeOk A marked := ok.congr (extent_of_unmarked same)
      have listed : b.unmarked ∈ marked.map HugeBlock.unmarked :=
        same ▸ List.mem_map_of_mem mem
      obtain ⟨m, mem'', eq⟩ := List.mem_map.mp listed
      obtain ⟨-, -, map, bytes, live, -⟩ := HugeBlock.mk.inj eq
      have holds'' : m.Holds j := by
        unfold HugeBlock.Holds
        rw [map, bytes]
        exact holds
      have dropped : ∀ g ∈ marked.filter fun block => !keep block, g.Ok A := fun g mem =>
        found.block g (List.mem_of_mem_filter mem)
      change h'.shadow = clears h.shadow _ at shadow
      rw [shadow, clears_byte pages window dropped, if_neg]
      rintro ⟨g, gone, cleared⟩
      rcases found.apart_of_mem (List.mem_of_mem_filter gone) mem'' with one | apart
      · refine dead g ?_ ?_
        · rw [← Bool.not_eq_true]
          intro kept
          have goes := (List.mem_filter.mp gone).2
          rw [kept] at goes
          cases goes
        · rw [one, live]
          exact object.1
      · exact apart.holds (cleared.holds (dropped g gone) pages) holds''

/-! ## Runs -/

/-- What the shadow of a granule that the program poisoned may be. -/
def KeptPoison (v : UInt8) : Prop := v = ShadowValue.user ∨ v = ShadowValue.heapTail

theorem KeptPoison.not_addressable {ctx : Context} {shadow : Shadow} {b : Nat}
    (window : A.Window shadow) (inside : b < 2 ^ A.bits) (kept : KeptPoison (shadow.byte (b / 16))) :
    ¬ Addressable ctx shadow b := by
  refine Barred.not_addressable window inside ?_
  rcases kept with user | tail
  · rw [user]
    exact ⟨by decide, by decide⟩
  · rw [tail]
    exact ⟨by decide, by decide⟩

theorem addressable_of_full {ctx : Context} {shadow : Shadow} {b : Nat} (window : A.Window shadow)
    (inside : b < 2 ^ A.bits) (full : shadowFull (shadow.byte (b / 16))) :
    Addressable ctx shadow b := by
  have fresh : shadow.byte (b / 16) ≠ ShadowValue.returned := by
    intro returned
    rw [returned] at full
    exact absurd full (by decide)
  rw [addressable_iff window.ready (window.bits ▸ inside) fresh]
  exact .inl full

/-- The granules the program poisoned are live objects', and still poison. -/
structure Watched.Ok (A : Arena) (w : Watched T) : Prop where
  sound : Sound A w.state
  fits : w.state.Fits
  live : ∀ j, w.poisoned j = true → w.state.Live A j
  kept : ∀ j, w.poisoned j = true → KeptPoison (w.state.heap.shadow.byte j)

theorem Sound.live_below (pages : 16 ∣ A.page) (ok : Sound A s) (fits : s.Fits)
    (live : s.Live A j) : j * 16 + 16 ≤ 2 ^ A.bits := by
  obtain ⟨place, partition⟩ := ok.places
  rcases live with object | ⟨b, mem, object⟩
  · obtain ⟨live, first, last, -⟩ := object
    have small := fits _ live
    obtain ⟨-, -, -, room, below⟩ := partition.slot_inside (partition.used_of_live live)
    omega
  · obtain ⟨-, first, last⟩ := object
    have fits := ok.blocks.block b mem
    have room := fits.room
    have below := fits.window
    have used := (used_le_pageBytes pages b.size).1
    unfold usedBytes at used
    omega

section Step

variable [DecidableEq T]

/-- A granule that a step leaves in its live object stays poison. -/
theorem Sound.keeps (pages : 16 ∣ A.page) (ok : Sound A s) (fits : s.Fits) (quiet : s.NoRace e)
    (taken : s.step A e = some s') (live : s.Live A j) (live' : s'.Live A j)
    (spared : ∀ x size, s.InObject A x j → (s.thread e.thread).point ≠ .resizeShadow x size)
    (kept : KeptPoison (s.heap.shadow.byte j)) : KeptPoison (s'.heap.shadow.byte j) := by
  have ok' := ok.step pages quiet taken
  rcases live with object | ⟨b, mem, object⟩
  · obtain ⟨place, partition⟩ := ok.places
    have made : ∀ w y, (s.thread e.thread).point = .shadowLive w y →
        y.place ≠ s.heap.table.slotOf A (j * 16) := by
      intro w y point same
      refine object.2.2.2 e.thread ?_
      rw [point]
      exact congrArg some same
    rcases (ok.step_slotStep pages taken).1.frame ok object.1
      (partition.inSlot_of_inObject fits object) made (fun size => spared _ size object) with
      same | tail
    · rw [same]
      exact kept
    · exact .inr tail
  · obtain ⟨place, partition⟩ := ok'.places
    have out : A.Outside j :=
      (ok.blocks.block b mem).holds_outside (object.holds (ok.blocks.block b mem) pages)
    rcases live' with object' | ⟨b', mem', object'⟩
    · obtain ⟨h, th, found, rfl⟩ := State.step_eq_some taken
      have own := partition.inSlot_of_inObject (fun x live => fits.step ok found live) object'
      exact absurd own (partition.inSlot_inside (partition.used_of_live object'.1) out)
    · rw [(ok.step_hugeEffect taken).keeps pages ok.blocks ok'.blocks ok.window mem mem' object
        object']
      exact kept

omit [DecidableEq T] in
/-- A call of the interface. -/
theorem Sound.user (ok : Sound A s) (call : UserCall) : Sound A (s.user A call) := by
  obtain ⟨place, partition⟩ := ok.places
  refine ⟨⟨place, partition.table, partition.thread, partition.point⟩, ok.accepts, ok.hands,
    ok.blocks, ok.window.mono ?_⟩
  exact UserCall.sameWindow_run A _ _ call

omit [DecidableEq T] in
theorem Sound.pokes_kept [DecidablePred (s.Live A)] (ok : Sound A s) {call : UserCall}
    (typed : call.Typed A) {poisoned : Nat → Bool} (pokes : s.pokes A call poisoned j = true)
    (kept : poisoned j = true → KeptPoison (s.heap.shadow.byte j)) :
    KeptPoison ((s.user A call).heap.shadow.byte j) := by
  have bits := ok.window.bits
  cases call with
  | poison address n =>
      change address + n ≤ 2 ^ A.bits at typed
      change KeptPoison ((poisonRegion s.heap.shadow address n).byte j)
      rw [poisonRegion_byte ok.window.ready (by rw [bits]; exact typed)]
      split
      · exact .inl rfl
      · rename_i out
        refine kept ((Bool.or_eq_true_iff.mp pokes).resolve_right fun poisons => out ?_)
        obtain ⟨first, last, -⟩ := of_decide_eq_true poisons
        exact ⟨first, last⟩
  | unpoison address n =>
      change address + n ≤ 2 ^ A.bits at typed
      obtain ⟨before, apart⟩ := Bool.and_eq_true_iff.mp pokes
      have apart : ¬ (n ≠ 0 ∧ address < j * 16 + 16 ∧ j * 16 < address + n) := by
        rw [Bool.not_eq_true', decide_eq_false_iff_not] at apart
        exact apart
      change KeptPoison ((unpoisonRegion A _ s.heap.shadow address n).byte j)
      by_cases none : n = 0
      · have same : unpoisonRegion A s.heap.table s.heap.shadow address n = s.heap.shadow := by
          unfold unpoisonRegion
          exact if_pos (.inl none)
        rw [same]
        exact kept before
      · rw [unpoisonRegion_byte ok.window.ready none (by rw [bits]; exact typed),
          if_neg (by omega), if_neg (by omega)]
        exact kept before

end Step

namespace Watched

variable [DecidableEq T] [∀ s : State T, DecidablePred (s.Live A)] {w w' : Watched T} {a : Act T}

omit [DecidableEq T] [∀ s : State T, DecidablePred (s.Live A)] in
theorem ok_initial (A : Arena) (byte : Nat → UInt8) : (initial A byte : Watched T).Ok A := by
  refine ⟨sound_initial A byte, fits_initial A byte, ?_, ?_⟩
  · intro j none
    cases none
  · intro j none
    cases none

/-- A step leaves the poison where it spares the objects it reallocates. -/
theorem Ok.step (pages : 16 ∣ A.page) (ok : w.Ok A) (fair : w.Fair A a) (spares : w.Spares A a)
    (taken : w.step A a = some w') : w'.Ok A := by
  cases a with
  | step e =>
      obtain ⟨s', next, rfl⟩ := Option.map_eq_some_iff.mp taken
      have before {j : Nat} (poisoned : (w.poisoned j &&
          decide (s'.Live A j ∧ ¬ w.state.Cuts A e j)) = true) :
          w.poisoned j = true ∧ s'.Live A j ∧ ¬ w.state.Cuts A e j := by
        obtain ⟨first, rest⟩ := Bool.and_eq_true_iff.mp poisoned
        exact ⟨first, of_decide_eq_true rest⟩
      refine ⟨ok.sound.step pages fair next, fun x live => ?_, fun j poisoned => ?_,
        fun j poisoned => ?_⟩
      · obtain ⟨h, th, found, rfl⟩ := State.step_eq_some next
        exact ok.fits.step ok.sound found live
      · exact (before poisoned).2.1
      · obtain ⟨was, live, remains⟩ := before poisoned
        refine ok.sound.keeps pages ok.fits fair next (ok.live j was) live ?_ (ok.kept j was)
        intro x size object point
        obtain ⟨place, partition⟩ := ok.sound.places
        have own := partition.slotOf_inObject ok.fits object
        obtain ⟨start, -⟩ := partition.slot_inside (partition.used_of_live object.1)
        have first := object.2.1
        have resizes : (x, size) ∈ (w.state.thread e.thread).point.resizes := by
          rw [point]
          exact rfl
        by_cases cut : w.state.heap.table.slotBase A x + size < j * 16 + 16
        · exact remains ⟨(x, size), resizes, own, cut⟩
        · have kept := spares (x, size) resizes
            (j - w.state.heap.table.slotBase A x / 16) (by dsimp only; omega)
          rw [Nat.add_sub_cancel' (by dsimp only; omega), was] at kept
          cases kept
  | user call =>
      obtain rfl := Option.some.inj taken
      refine ⟨ok.sound.user call, ok.fits, fun j poisoned => ?_, fun j poisoned => ?_⟩
      · change w.state.Live A j
        cases call with
        | poison address n =>
            rcases Bool.or_eq_true_iff.mp poisoned with was | new
            · exact ok.live j was
            · exact (of_decide_eq_true new).2.2
        | unpoison address n => exact ok.live j (Bool.and_eq_true_iff.mp poisoned).1
      · exact ok.sound.pokes_kept fair poisoned (ok.kept j)

theorem ok_run (pages : 16 ∣ A.page) {byte : Nat → UInt8}
    (run : Run (Watched.step A) (fun w a => w.Fair A a ∧ w.Spares A a) (.initial A byte) w) :
    w.Ok A := by
  refine run.invariant (I := Watched.Ok A) (ok_initial A byte) ?_
  rintro w a w' ok ⟨fair, spares⟩ taken
  exact ok.step pages fair spares taken

/-- What the program has poisoned is unaddressable. -/
def Persists (ctx : Context) (w : Watched T) : Prop :=
  ∀ j, w.poisoned j = true → ∀ b, b / 16 = j → ¬ Addressable ctx w.state.heap.shadow b

omit [DecidableEq T] [∀ s : State T, DecidablePred (s.Live A)] in
theorem Ok.persists (pages : 16 ∣ A.page) (ok : w.Ok A) (ctx : Context) : w.Persists ctx := by
  rintro j poisoned b rfl
  have below := ok.sound.live_below pages ok.fits (ok.live _ poisoned)
  exact (ok.kept _ poisoned).not_addressable ok.sound.window (by omega)

/-- A reallocation in place makes the whole granules that remain in its object
addressable. -/
theorem Ok.exposed (pages : 16 ∣ A.page) (ok : w.Ok A) {e : Event T}
    (taken : w.step A (.step e) = some w') {x : Slot} {size g : Nat}
    (point : (w.state.thread e.thread).point = .resizeShadow x size) (remains : g < size / 16)
    (poisoned : w.poisoned (w.state.heap.table.slotBase A x / 16 + g) = true) (ctx : Context) :
    ¬ w'.Persists ctx := by
  obtain ⟨s', next, rfl⟩ := Option.map_eq_some_iff.mp taken
  obtain ⟨place, partition⟩ := ok.sound.places
  obtain ⟨h, th, found, rfl⟩ := State.step_eq_some next
  obtain ⟨after, eq⟩ := stepOf_resizeShadow found point
  have small := partition.point e.thread
  have live := (partition.resizing_spec (congrArg Point.resizing point)).2
  rw [point] at small
  change size < w.state.heap.table.slotBytes x at small
  have used := partition.used_of_live live
  obtain ⟨start, granules, above, room, below⟩ := partition.slot_inside used
  -- the granule is the object's, also after the step
  obtain ⟨j, granule⟩ : ∃ j, w.state.heap.table.slotBase A x / 16 + g = j := ⟨_, rfl⟩
  rw [granule] at poisoned
  have own : w.state.heap.table.slotOf A (j * 16) = x :=
    partition.slotOf_eq used (by omega) (by omega)
  have stays : State.Live A ⟨h, Function.update w.state.thread e.thread th,
      w.state.linked e.thread th⟩ j := by
    left
    rcases ok.live j poisoned with object | ⟨b, mem, object⟩
    · obtain ⟨live, first, last, returned⟩ := object
      have table : h.table = w.state.heap.table := by
        rw [eq]
        rfl
      rw [own] at live first last returned
      unfold State.InObject
      dsimp only
      rw [table, own]
      refine ⟨live, first, last, fun t handed => ?_⟩
      by_cases self : t = e.thread
      · rw [self, Function.update_self, after] at handed
        cases handed
      · rw [Function.update_of_ne self] at handed
        exact returned t handed
    · have out := (ok.sound.blocks.block b mem).holds_outside
        (object.holds (ok.sound.blocks.block b mem) pages)
      refine absurd ?_ (partition.inSlot_inside used out)
      unfold Table.InSlot
      omega
  have kept : ¬ w.state.Cuts A e j := by
    rintro ⟨q, resizes, -, cut⟩
    rw [point] at resizes
    obtain rfl : (x, size) = q := Option.some.inj resizes
    dsimp only at cut
    omega
  have bits := ok.sound.window.bits
  have exposed : Exposed h.shadow (w.state.heap.table.slotBase A x) size := by
    rw [eq]
    exact exposed_live ok.sound.window.ready A.pages start granules
      (by rw [bits]; omega) (isColor_color _)
  have window : A.Window h.shadow := by
    rw [eq]
    exact ok.sound.window.mono (Shadow.sameWindow_live _ _ _ _ _ _)
  intro persists
  refine persists j (Bool.and_eq_true_iff.mpr ⟨poisoned, decide_eq_true ⟨stays, kept⟩⟩)
    (j * 16) (by omega) ?_
  have full := exposed.whole j (by omega) (by omega)
  have here : j * 16 / 16 = j := Nat.mul_div_cancel j (by decide)
  rw [← here] at full
  exact addressable_of_full window (by omega) full

/-- What the program poisoned of live objects is unaddressable as long as every
reallocation in place spares it, and no longer. -/
theorem user_poison_persists_iff (pages : 16 ∣ A.page) {byte : Nat → UInt8}
    (run : Run (Watched.step A) (fun w a => w.Fair A a ∧ w.Spares A a) (.initial A byte) w)
    (ctx : Context) :
    w.Persists ctx ∧ (∀ a w', w.Fair A a → w.step A a = some w' →
      (w'.Persists ctx ↔ w.Spares A a)) ∧
    ∀ j, (∃ x, w.state.InObject A x j) ∨ (∃ b ∈ w.state.heap.huge.blocks, b.InObject j) →
      ∀ address n, address ≤ j * 16 → j * 16 + 16 ≤ address + n → ∀ w',
        w.step A (.user (.poison address n)) = some w' → w'.poisoned j = true := by
  have ok := ok_run pages run
  refine ⟨ok.persists pages ctx, fun a w' fair taken => ⟨fun persists => ?_, fun spares => ?_⟩, ?_⟩
  · cases a with
    | step e =>
        rintro ⟨x, size⟩ resizes g remains
        have point := Point.eq_of_resizes resizes
        rw [← Bool.not_eq_true]
        intro poisoned
        exact ok.exposed pages taken point remains poisoned ctx persists
    | user call => trivial
  · exact (ok.step pages fair spares taken).persists pages ctx
  · intro j object address n first last w' taken
    obtain rfl := Option.some.inj taken
    refine Bool.or_eq_true_iff.mpr (.inr (decide_eq_true ⟨first, last, ?_⟩))
    obtain ⟨place, partition⟩ := ok.sound.places
    rcases object with ⟨x, object⟩ | huge
    · left
      rw [partition.slotOf_inObject ok.fits object]
      exact object
    · exact .inr huge

/-- An object of 40000 bytes, its first 32 poisoned, and then a `realloc` of it to
40010. -/
def poisonedResized : List (Act Unit) :=
  [.step (.enter () (.alloc 40000 0)), .step (.next ()), .step (.next ()), .step (.next ()),
    .step (.next ()), .step (.next ()), .user (.poison 0x1480000000 32),
    .step (.enter () (.realloc 0x1480000000 40010)), .step (.next ())]

theorem user_poison_before : ∃ w : Watched Unit,
    Run (Watched.step .sample) (fun w a => w.Fair .sample a ∧ w.Spares .sample a)
      (.initial .sample fun _ => 0) w ∧ w.poisoned 0x148000000 = true ∧
        ∀ ctx, w.Persists ctx := by
  obtain ⟨w, run, poisoned⟩ : ∃ w : Watched Unit,
      Run (Watched.step .sample) (fun w a => w.Fair .sample a ∧ w.Spares .sample a)
        (.initial .sample fun _ => 0) w ∧ w.poisoned 0x148000000 = true :=
    Run.exists_exec poisonedResized (by decide +kernel)
  exact ⟨w, run, poisoned, fun ctx => (user_poison_persists_iff (by decide) run ctx).1⟩

/-- The reallocation in place makes the poisoned bytes addressable. -/
theorem user_poison_reallocated : ∃ w : Watched Unit,
    Run (Watched.step .sample) (Watched.Fair .sample) (.initial .sample fun _ => 0) w ∧
      ∀ ctx, ¬ w.Persists ctx := by
  obtain ⟨w, run, seen⟩ : ∃ w : Watched Unit,
      Run (Watched.step .sample) (fun w a => w.Fair .sample a ∧ w.Spares .sample a)
        (.initial .sample fun _ => 0) w ∧
      ((w.state.thread ()).point,
        w.poisoned (w.state.heap.table.slotBase .sample ⟨40, 0⟩ / 16 + 0),
        decide (w.Fair .sample (.step (.next ()))),
        (w.step .sample (.step (.next ()))).isSome) =
        (.resizeShadow ⟨40, 0⟩ 40010, true, true, true) :=
    Run.exists_exec poisonedResized (by decide +kernel)
  obtain ⟨point, rest⟩ := Prod.mk.inj seen
  obtain ⟨poisoned, rest⟩ := Prod.mk.inj rest
  obtain ⟨fair, some⟩ := Prod.mk.inj rest
  obtain ⟨w', taken⟩ := Option.isSome_iff_exists.mp some
  have ok := ok_run (by decide) run
  refine ⟨w', (run.mono fun _ _ both => both.1).tail (of_decide_eq_true fair) taken, fun ctx => ?_⟩
  exact ok.exposed (by decide) taken point (by decide) poisoned ctx

end Watched

end WeaveC.Alloc
