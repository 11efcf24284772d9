import WeaveC.Alloc.HugeShadow
import Mathlib.Data.Nat.Prime.Basic

/-!
# A huge block's life

Behind a new block there is poison where its pages leave room for it.  A
released block's ends are poison but for the last bytes of a large block that is
no whole number of granules.  A recycled block's clean-up reaches one granule
past its object.
-/

namespace WeaveC.Alloc

open WeaveC.Runtime WeaveC.Library

variable {T : Type} {A : Arena} {ctx : Context} {h h' : Heap} {shadow shadow' : Shadow}
  {s s' : State T} {e : Event T}

/-! ## Allocation -/

/-- A block at its alignment in its mapping, with an addressable object, and
unaddressable to the end of a granule behind it: a check that reaches past the
object fails. -/
structure HugeBlock.Guarded (ctx : Context) (shadow : Shadow) (alignment : Nat) (b : HugeBlock) :
    Prop where
  aligned : alignment ≠ 0 → alignment &&& (alignment - 1) = 0 → alignment ∣ b.base
  mapped : b.map ≤ b.base ∧ b.base + b.size ≤ b.map + b.mapBytes
  object : ∀ x, b.base ≤ x → x < b.base + b.size → Addressable ctx shadow x
  behind : ∀ x, b.base + b.size ≤ x → x < b.base + usedBytes b.size + 16 →
    ¬ Addressable ctx shadow x
  checks : ∀ address n, address ≤ b.base + b.size → b.base + b.size < address + n →
    (range ctx shadow address n).passes = false

section New

variable {b : HugeBlock}

theorem newBlock_addressable (pages : 16 ∣ A.page) (window : A.Window shadow) (ok : b.Ok A) {x : Nat}
    (first : b.base ≤ x) (last : x < b.base + (b.size + 15) / 16 * 16) :
    Addressable ctx (shadow.live A.page b.base b.size (pageBytes A b.size) 0) x ↔
      x < b.base + b.size := by
  have granule := ok.granule
  have room := ok.room
  have high := ok.window
  have used := (used_le_pageBytes pages b.size).1
  unfold usedBytes at used
  have window' : A.Window (shadow.live A.page b.base b.size (pageBytes A b.size) 0) :=
    window.mono (Shadow.sameWindow_live _ _ _ _ _ _)
  have value := newBlock_object (g := x / 16 - b.base / 16) pages window ok (by omega)
  rw [show b.base / 16 + (x / 16 - b.base / 16) = x / 16 by omega] at value
  by_cases whole : x / 16 - b.base / 16 < b.size / 16
  · rw [if_pos whole] at value
    exact iff_of_true (addressable_of_zero window' (by omega) value) (by omega)
  · rw [if_neg whole] at value
    rw [addressable_of_rest window' (by omega) (by omega) value]
    omega

/-- The granule behind a new block's object: of its pages if they have one more,
else the one it was. -/
theorem newBlock_behind (pages : 16 ∣ A.page) (window : A.Window shadow) (ok : b.Ok A) :
    (∀ x, b.base + usedBytes b.size ≤ x → x < b.base + usedBytes b.size + 16 →
      ¬ Addressable ctx (shadow.live A.page b.base b.size (pageBytes A b.size) 0) x) ↔
    usedBytes b.size < pageBytes A b.size ∨
      ∀ x, b.base + pageBytes A b.size ≤ x → x < b.base + pageBytes A b.size + 16 →
        ¬ Addressable ctx shadow x := by
  have granule := ok.granule
  have room := ok.room
  have high := ok.window
  have least : 16 ≤ A.page := Nat.le_of_dvd A.pages pages
  obtain ⟨used, whole, -⟩ := used_le_pageBytes pages b.size
  have window' : A.Window (shadow.live A.page b.base b.size (pageBytes A b.size) 0) :=
    window.mono (Shadow.sameWindow_live _ _ _ _ _ _)
  by_cases more : usedBytes b.size < pageBytes A b.size
  · refine iff_of_true (fun x first last => ?_) (.inl more)
    refine not_addressable_of_heap window' (by omega) (.inl ?_)
    rw [newBlock_byte pages window ok, if_pos]
    unfold usedBytes at *
    unfold Shadow.tailLimit
    omega
  · have same : usedBytes b.size = pageBytes A b.size := Nat.le_antisymm used (Nat.not_lt.mp more)
    rw [or_iff_right more, same]
    refine forall_congr' fun x => forall_congr' fun first => forall_congr' fun last => not_congr ?_
    refine addressable_congr window.ready window'.ready (by rw [window.bits]; omega)
      (by rw [window'.bits]; omega) (newBlock_frame pages window ok (.inr ?_))
    omega

end New

theorem range_past {x address n : Nat} (window : A.Window shadow) (inside : x < 2 ^ A.bits)
    (bad : ¬ Addressable ctx shadow x) (first : address ≤ x) (last : x < address + n) :
    (range ctx shadow address n).passes = false := by
  have reached : reached ctx shadow address = address :=
    reached_of_inWindow ctx (window.inWindow (by omega))
  rw [← Bool.not_eq_true, range_passes, reached]
  intro none
  have mem : x ∈ unaddressable ctx shadow address n :=
    (mem_unaddressable window.ready).mpr ⟨first, last, window.bits ▸ inside, bad⟩
  rw [none] at mem
  exact mem

section Insert

variable {th th' : Thread} {a : Answer} {size alignment map : Nat} {purpose : Purpose}
  {request : Heap.HugeRequest}

theorem hugeBase_aligned (nonzero : alignment ≠ 0) (power : alignment &&& (alignment - 1) = 0)
    (asked : h.hugeRequest A size alignment = some request) : alignment ∣ hugeBase request map := by
  have raised : request.alignment ∣ hugeBase request map := Nat.dvd_mul_left _ _
  refine Nat.dvd_trans ?_ raised
  rw [(hugeRequest_eq asked).1]
  rcases Nat.le_total A.page alignment with more | less
  · rw [Nat.max_eq_right more]
  · rw [Nat.max_eq_left less]
    obtain ⟨n, rfl⟩ := (Nat.and_sub_one_eq_zero_iff_isPowerOfTwo nonzero).mp power
    have bound : A.page ∣ 2 ^ 16 := A.pageBound
    obtain ⟨k, -, page⟩ := (Nat.dvd_prime_pow Nat.prime_two).mp bound
    rw [page] at less ⊢
    exact Nat.pow_dvd_pow 2 ((Nat.pow_le_pow_iff_right (by decide)).mp less)

theorem newBlock_guarded (pages : 16 ∣ A.page) (window : A.Window h.shadow)
    (accepted : Accepted alignment) (asked : h.hugeRequest A size alignment = some request)
    (unmapped : h.Unmapped A map request.mapBytes) (ctx : Context) :
    (newBlock size request map).Guarded ctx (h.hugeInsert A size request map).shadow alignment ↔
      usedBytes size < pageBytes A size ∨
        ∀ x, hugeBase request map + pageBytes A size ≤ x →
          x < hugeBase request map + pageBytes A size + 16 → ¬ Addressable ctx h.shadow x := by
  have ok := (newBlock_ok pages accepted asked unmapped).1
  have room : (newBlock size request map).base + pageBytes A size + A.page ≤
      (newBlock size request map).map + (newBlock size request map).mapBytes := ok.room
  have high := ok.window
  have used := (used_le_pageBytes pages size).1
  have least : 16 ≤ A.page := Nat.le_of_dvd A.pages pages
  unfold usedBytes at used
  have written := @hugeInsert_shadow A h size alignment map request asked
  have window' : A.Window (h.hugeInsert A size request map).shadow :=
    window.mono (Shadow.sameWindow_live _ _ _ _ _ _)
  have object {x : Nat} (first : (newBlock size request map).base ≤ x)
      (last : x < (newBlock size request map).base + (size + 15) / 16 * 16) :
      Addressable ctx (h.hugeInsert A size request map).shadow x ↔
        x < (newBlock size request map).base + size := by
    rw [written]
    exact newBlock_addressable pages window ok first last
  have next := @newBlock_behind A ctx h.shadow (newBlock size request map) pages window ok
  rw [← written] at next
  refine Iff.trans ?_ next
  constructor
  · intro guarded x first last
    refine guarded.behind x ?_ last
    unfold usedBytes at first
    omega
  · intro granule
    have behind : ∀ x, (newBlock size request map).base + size ≤ x →
        x < (newBlock size request map).base + usedBytes size + 16 →
          ¬ Addressable ctx (h.hugeInsert A size request map).shadow x := by
      intro x first last
      by_cases rest : x < (newBlock size request map).base + usedBytes size
      · rw [object ((Nat.le_add_right _ _).trans first) rest]
        exact Nat.not_lt.mpr first
      · exact granule x (Nat.not_lt.mp rest) last
    refine
      { aligned := fun nonzero power => hugeBase_aligned nonzero power asked
        mapped := ⟨ok.inside, ?_⟩
        object := fun x first last => ?_
        behind
        checks := fun address n first last => ?_ }
    · change (newBlock size request map).base + size ≤ _
      omega
    · change x < (newBlock size request map).base + size at last
      refine (object first ?_).mpr last
      omega
    · change address ≤ (newBlock size request map).base + size at first
      change (newBlock size request map).base + size < address + n at last
      refine range_past window' (by omega) (behind _ (Nat.le_refl _) ?_) first last
      unfold usedBytes
      omega

/-- How `hugeAlloc` returns a block. -/
theorem hugeAlloc_eq
    (returned : Thread.hugeAlloc A h th size alignment purpose a = some (h', th'))
    (new : h'.huge.blocks ≠ h.huge.blocks) :
    ∃ request map, h.hugeRequest A size alignment = some request ∧ a.map = some map ∧
      h.Unmapped A map request.mapBytes ∧ h' = h.hugeInsert A size request map := by
  unfold Thread.hugeAlloc at returned
  split at returned
  · rename_i request map asked given
    split_ifs at returned with unmapped table
    · obtain ⟨rfl, -⟩ := Prod.mk.inj (Option.some.inj returned)
      exact ⟨request, map, asked, given, unmapped, rfl⟩
    · obtain ⟨rfl, -⟩ := Prod.mk.inj (Option.some.inj returned)
      exact absurd rfl new
  · obtain ⟨rfl, -⟩ := Prod.mk.inj (Option.some.inj returned)
    exact absurd rfl new

/-- Whenever a huge block is returned, it is guarded exactly when its pages have
a granule that its object does not use, or the one behind them was poison. -/
theorem huge_guarded_iff (pages : 16 ∣ A.page) (window : A.Window h.shadow)
    (accepted : Accepted alignment)
    (returned : Thread.hugeAlloc A h th size alignment purpose a = some (h', th'))
    (new : h'.huge.blocks ≠ h.huge.blocks) (ctx : Context) :
    ∃ request map, h.hugeRequest A size alignment = some request ∧ a.map = some map ∧
      newBlock size request map ∈ h'.huge.blocks ∧
        ((newBlock size request map).Guarded ctx h'.shadow alignment ↔
          usedBytes size < pageBytes A size ∨
            ∀ x, hugeBase request map + pageBytes A size ≤ x →
              x < hugeBase request map + pageBytes A size + 16 →
                ¬ Addressable ctx h.shadow x) := by
  obtain ⟨request, map, asked, given, unmapped, rfl⟩ := hugeAlloc_eq returned new
  refine ⟨request, map, asked, given, ?_,
    newBlock_guarded pages window accepted asked unmapped ctx⟩
  exact (List.mem_insertIdx (countTo_le _ _)).mpr (.inl rfl)

end Insert

/-- An allocation of a huge block at 1 TiB, in a heap without blocks. -/
def firstHuge (size : Nat) : Stepped :=
  Thread.hugeAlloc .sample (.initial .sample fun _ => 0) .fresh size 0 .request
    { Answer.sample with map := some 0x10000000000 }

theorem firstHuge_blocks (size : Nat)
    (some : ((firstHuge size).map fun r => r.1.huge.blocks.length) = some 1) :
    ∃ h' th', firstHuge size = .some (h', th') ∧
      h'.huge.blocks ≠ (Heap.initial .sample fun _ => 0).huge.blocks := by
  obtain ⟨⟨h', th'⟩, returned, one⟩ := Option.map_eq_some_iff.mp some
  refine ⟨h', th', returned, fun none => ?_⟩
  rw [none] at one
  cases one

/-- A thread with no stack to speak of. -/
def noStack : Context := ⟨0, 0, 0, false, fun _ => ⟨false, false, 0, 0⟩, false⟩

theorem huge_guarded_page : ∃ h' th' request map,
    firstHuge 0x20000010 = some (h', th') ∧
      (newBlock 0x20000010 request map).Guarded noStack h'.shadow 0 := by
  obtain ⟨h', th', returned, new⟩ := firstHuge_blocks 0x20000010 (by decide +kernel)
  have window := (sound_initial (T := Unit) .sample fun _ => 0).window
  obtain ⟨request, map, -, -, -, guarded⟩ :=
    huge_guarded_iff (by decide) window (.inl (by decide)) returned new noStack
  exact ⟨h', th', request, map, returned, guarded.mpr (.inl (by decide))⟩

/-- A block of 512 MiB fills its pages, and nothing behind it is poison. -/
theorem huge_unguarded : ∃ h' th' request map,
    firstHuge 0x20000000 = some (h', th') ∧ newBlock 0x20000000 request map ∈ h'.huge.blocks ∧
      ¬ (newBlock 0x20000000 request map).Guarded noStack h'.shadow 0 := by
  obtain ⟨h', th', returned, new⟩ := firstHuge_blocks 0x20000000 (by decide +kernel)
  have window := (sound_initial (T := Unit) .sample fun _ => 0).window
  obtain ⟨request, map, asked, -, unmapped, rfl⟩ := hugeAlloc_eq returned new
  have accepted : Accepted 0 := .inl (by decide)
  have ok := (newBlock_ok (by decide) accepted asked unmapped).1
  refine ⟨_, th', request, map, returned,
    (List.mem_insertIdx (countTo_le _ _)).mpr (.inl rfl), fun guarded => ?_⟩
  have room : hugeBase request map + pageBytes .sample 0x20000000 + 4096 ≤
      map + request.mapBytes := ok.room
  have high : map + request.mapBytes < 2 ^ Arena.sample.bits := ok.window
  rcases (newBlock_guarded (by decide) window accepted asked unmapped noStack).mp guarded with
    less | behind
  · exact absurd less (by decide)
  · refine behind _ (Nat.le_refl _) (Nat.lt_add_of_pos_right (by decide)) ?_
    exact addressable_of_zero window (by omega) rfl

/-! ## Release -/

/-- What a block's life so far says of its object's shadow. -/
structure HugeBlock.Ends (shadow : Shadow) (b : HugeBlock) : Prop where
  rest : b.size % 16 ≠ 0 → b.dead = 0 ∨ 2 * Shadow.tailLimit < b.size →
    shadow.byte ((b.base + b.size) / 16) = shadowPartialOf 0 (b.size % 16)
  small : b.dead ≠ 0 → b.size ≤ 2 * Shadow.tailLimit → ∀ j, b.base / 16 ≤ j →
    j < b.base / 16 + (b.size + 15) / 16 → shadow.byte j = ShadowValue.heapFreed
  large : b.dead ≠ 0 → 2 * Shadow.tailLimit < b.size → ∀ j,
    b.base / 16 ≤ j ∧ j < b.base / 16 + 4096 ∨
      (b.base + b.size) / 16 - 4096 ≤ j ∧ j < (b.base + b.size) / 16 →
    shadow.byte j = ShadowValue.heapFreed

namespace HugeBlock.Ends

variable {b c : HugeBlock}

/-- The granules of the object are the block's. -/
theorem congr (ends : c.Ends shadow) (ok : c.Ok A) (pages : 16 ∣ A.page)
    (same : b.unmarked = c.unmarked) (byte : ∀ j, c.Holds j → shadow'.byte j = shadow.byte j) :
    b.Ends shadow' := by
  obtain ⟨base, size, -, -, dead, -⟩ := HugeBlock.mk.inj same
  have granule := ok.granule
  have used := (used_le_pageBytes pages c.size).1
  have object {j : Nat} (first : c.base / 16 ≤ j) (last : j < c.base / 16 + (c.size + 15) / 16) :
      c.Holds j := by
    refine ok.holds pages first ?_
    unfold usedBytes at used
    omega
  constructor
  · intro rest dying
    rw [size] at rest dying ⊢
    rw [dead] at dying
    rw [base, byte _ (object (by omega) (by omega))]
    exact ends.rest rest dying
  · intro dying small j first last
    rw [base] at first last
    rw [size] at small last
    rw [dead] at dying
    rw [byte _ (object first last)]
    exact ends.small dying small j first last
  · intro dying large j there
    rw [base, size] at there
    rw [size] at large
    rw [dead] at dying
    unfold Shadow.tailLimit at large
    rw [byte _ (object (by omega) (by omega))]
    exact ends.large dying large j there

theorem made (pages : 16 ∣ A.page) (window : A.Window shadow) (ok : b.Ok A) (live : b.dead = 0) :
    b.Ends (shadow.live A.page b.base b.size (pageBytes A b.size) 0) := by
  have granule := ok.granule
  refine ⟨fun rest _ => ?_, fun dead => absurd live dead, fun dead => absurd live dead⟩
  have last : (b.base + b.size) / 16 = b.base / 16 + b.size / 16 := by omega
  rw [last, newBlock_object pages window ok (by omega), if_neg (Nat.lt_irrefl _)]

theorem freed (ends : c.Ends shadow) (pages : 16 ∣ A.page) (window : A.Window shadow)
    (ok : c.Ok A) (live : c.dead = 0) {dead : Nat} (gone : dead ≠ 0) :
    ({ c with dead := dead } : HugeBlock).Ends (Heap.hugeShadowDead shadow c) := by
  have granule := ok.granule
  have byte := hugeShadowDead_byte window ok pages
  constructor
  · intro rest dying
    dsimp only at rest dying ⊢
    have large := dying.resolve_left gone
    have before := ends.rest rest (.inl live)
    rw [byte, if_pos large]
    unfold Shadow.tailLimit at large
    rw [if_neg (by omega), if_neg (by omega)]
    exact before
  · intro _ small j first last
    dsimp only at small first last
    rw [byte, if_neg (Nat.not_lt.mpr small), if_pos ⟨first, last⟩]
  · intro _ large j there
    dsimp only at large there
    rw [byte, if_pos large, if_pos there]

end HugeBlock.Ends

/-- The first and the last 64 KiB of a block's object are unaddressable. -/
def EndsUnaddressable (ctx : Context) (shadow : Shadow) (b : HugeBlock) : Prop :=
  ∀ x, b.base ≤ x → x < b.base + b.size →
    x < b.base + Shadow.tailLimit ∨ b.base + b.size ≤ x + Shadow.tailLimit →
      ¬ Addressable ctx shadow x

theorem HugeBlock.Ends.unaddressable_iff {b : HugeBlock} (ends : b.Ends shadow)
    (window : A.Window shadow) (ok : b.Ok A) (pages : 16 ∣ A.page) (dead : b.dead ≠ 0) :
    EndsUnaddressable ctx shadow b ↔ b.size ≤ 2 * Shadow.tailLimit ∨ 16 ∣ b.size := by
  have granule := ok.granule
  have room := ok.room
  have high := ok.window
  have used := (used_le_pageBytes pages b.size).1
  unfold usedBytes at used
  have inside {x : Nat} (below : x < b.base + b.size) : x < 2 ^ A.bits := by omega
  constructor
  · intro all
    by_contra neither
    obtain ⟨large, rest⟩ := not_or.mp neither
    unfold Shadow.tailLimit at large
    -- the last byte lies in the granule that is only partly the object's
    have last : (b.base + b.size - 1) / 16 = (b.base + b.size) / 16 := by omega
    have value := ends.rest (by omega) (.inr (Nat.not_le.mp large))
    rw [← last] at value
    have some : 0 < b.size % 16 := by omega
    refine all (b.base + b.size - 1) (by omega) (by omega) (.inr ?_) ?_
    · unfold Shadow.tailLimit
      omega
    · refine (addressable_of_rest window (inside (by omega)) (by omega) value).mpr ?_
      omega
  · intro whole x first last there
    refine not_addressable_of_heap window (inside last) (.inr ?_)
    by_cases large : 2 * Shadow.tailLimit < b.size
    · refine ends.large dead large _ ?_
      unfold Shadow.tailLimit at *
      omega
    · exact ends.small dead (Nat.not_lt.mp large) _ (by omega) (by omega)

section Runs

variable [DecidableEq T] {byte : Nat → UInt8}

theorem ends_run (pages : 16 ∣ A.page)
    (run : Run (State.step A) State.NoRace (.initial A byte) s) :
    Sound A s ∧ ∀ b ∈ s.heap.huge.blocks, b.Ends s.heap.shadow := by
  refine run.invariant (I := fun s => Sound A s ∧ ∀ b ∈ s.heap.huge.blocks, b.Ends s.heap.shadow)
    ⟨sound_initial A byte, ?_⟩ ?_
  · intro b mem
    cases mem
  · rintro s e s' ⟨ok, ends⟩ quiet taken
    refine ⟨ok.step pages quiet taken, fun b mem => ?_⟩
    cases (ok.step_hugeEffect taken).block pages ok.blocks ok.window mem with
    | kept old same bytes => exact (ends _ old).congr (ok.blocks.block _ old) pages same bytes
    | made live fits shadow =>
        rw [shadow]
        exact .made pages ok.window fits live
    | freed old live gone same shadow =>
        rw [same, shadow]
        exact (ends _ old).freed pages ok.window (ok.blocks.block _ old) live gone

/-- In every state reached, a released block's ends are unaddressable exactly
when it is small or a whole number of granules. -/
theorem huge_release_iff (pages : 16 ∣ A.page)
    (run : Run (State.step A) State.NoRace (.initial A byte) s) (ctx : Context) :
    ∀ b ∈ s.heap.huge.blocks, b.dead ≠ 0 →
      (EndsUnaddressable ctx s.heap.shadow b ↔ b.size ≤ 2 * Shadow.tailLimit ∨ 16 ∣ b.size) := by
  obtain ⟨ok, ends⟩ := ends_run pages run
  intro b mem dead
  exact (ends b mem).unaddressable_iff ok.window (ok.blocks.block b mem) pages dead

/-- A block of `size` bytes at 1 TiB, allocated and released. -/
def allocatedReleased (size : Nat) : List (Event Unit) :=
  [.enter () (.alloc size 0), ⟨(), none, { Answer.sample with map := some 0x10000000000 }⟩,
    .enter () (.free 0x10000000000), .next ()]

/-- The table after it. -/
def releasedBlock (size mapBytes : Nat) : HugeBlock :=
  ⟨0x10000000000, size, 0x10000000000, mapBytes, 1, false⟩

theorem huge_release_whole : ∃ s : State Unit,
    Run (State.step .sample) State.NoRace (.initial .sample fun _ => 0) s ∧
      ∃ b ∈ s.heap.huge.blocks, b.dead ≠ 0 ∧ ∀ ctx, EndsUnaddressable ctx s.heap.shadow b := by
  obtain ⟨s, run, blocks⟩ : ∃ s : State Unit,
      Run (State.step .sample) State.NoRace (.initial .sample fun _ => 0) s ∧
        s.heap.huge.blocks = [releasedBlock 0x20000010 0x20002000] :=
    Run.exists_exec (allocatedReleased 0x20000010) (by decide +kernel)
  have mem : releasedBlock 0x20000010 0x20002000 ∈ s.heap.huge.blocks := by
    rw [blocks]
    exact List.mem_singleton_self _
  refine ⟨s, run, _, mem, by decide, fun ctx => ?_⟩
  exact (huge_release_iff (by decide) run ctx _ mem (by decide)).mpr (.inr (by decide))

/-- The last five bytes of a block of 512 MiB and 5 bytes stay addressable. -/
theorem huge_release_rest : ∃ s : State Unit,
    Run (State.step .sample) State.NoRace (.initial .sample fun _ => 0) s ∧
      ∃ b ∈ s.heap.huge.blocks, b.dead ≠ 0 ∧ b.size = 0x20000005 ∧
        ∀ ctx, ¬ EndsUnaddressable ctx s.heap.shadow b := by
  obtain ⟨s, run, blocks⟩ : ∃ s : State Unit,
      Run (State.step .sample) State.NoRace (.initial .sample fun _ => 0) s ∧
        s.heap.huge.blocks = [releasedBlock 0x20000005 0x20002000] :=
    Run.exists_exec (allocatedReleased 0x20000005) (by decide +kernel)
  have mem : releasedBlock 0x20000005 0x20002000 ∈ s.heap.huge.blocks := by
    rw [blocks]
    exact List.mem_singleton_self _
  obtain ⟨ok, ends⟩ := ends_run (by decide) run
  refine ⟨s, run, _, mem, by decide, rfl, fun ctx all => ?_⟩
  have holds := ((ends _ mem).unaddressable_iff ok.window (ok.blocks.block _ mem) (by decide)
    (by decide)).mp all
  exact absurd holds (by decide)

end Runs

end WeaveC.Alloc
